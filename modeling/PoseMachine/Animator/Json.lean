import PoseMachine.Animator.Basic
import PoseMachine.Baked.Json
import PoseMachine.Graph.Text

/-!
Animators as values and texts.
-/

namespace PoseMachine

open Json (required orElse optional Shape mandatory defaulted nullable tokenOf)

def LayerMode.word : LayerMode → String
  | .override => "override"
  | .additive => "additive"

def LayerMode.words : List (String × LayerMode) :=
  [LayerMode.override, .additive].map fun m => (m.word, m)

theorem LayerMode.lookup_word (m : LayerMode) : LayerMode.words.lookup m.word = some m := by
  cases m <;> rfl

namespace Layer

def toJson (l : Layer) : Json :=
  .object
    [("name", .text l.name), ("weight", .ofSingle l.weight), ("blend_mode", .text l.mode.word),
      ("mask", .ofOption (.ofList .text) l.mask), ("state_machine", l.machine.toJson)]

def ofJson? (j : Json) : Option Layer := do
  match ← j.fields? ["name", "weight", "blend_mode", "mask", "state_machine"] with
  | [name, weight, mode, mask, machine] =>
    pure
      { name := ← required Json.text? name
        weight := ← orElse 1 Json.single? weight
        mode := ← orElse .override (Json.word? false LayerMode.words) mode
        mask := ← optional (Json.list? Json.text?) mask
        machine := ← required Machine.ofJson? machine }
  | _ => none

def shape : Shape :=
  .record
    [mandatory "name" (tokenOf Json.text?),
      defaulted "weight" (tokenOf Json.single?),
      defaulted "blend_mode" (.word (LayerMode.words.map (·.1))),
      nullable "mask" (.list (tokenOf Json.text?)),
      mandatory "state_machine" Machine.shape]

end Layer

namespace Animator

def toJson (a : Animator) : Json :=
  .object
    [("parameters", .ofList Parameter.toJson a.parameters),
      ("layers", .ofList Layer.toJson a.layers)]

def ofJson? (j : Json) : Option Animator := do
  match ← j.fields? ["parameters", "layers"] with
  | [parameters, layers] =>
    pure
      { parameters := ← required (Json.list? (Parameter.ofJson? false)) parameters
        layers := ← required (Json.list? Layer.ofJson?) layers }
  | _ => none

def shape : Shape :=
  .record
    [mandatory "parameters" (.list Parameter.shape), mandatory "layers" (.list Layer.shape)]

def ofText (text : String) : Except ReadError Animator := Json.readText shape ofJson? text

end Animator

namespace Baked

def Layer.toJson (l : Layer) : Json :=
  .object
    [("name_hash", .int l.nameHash.toNat), ("weight", .ofSingle l.weight),
      ("blend_mode", .text l.mode.word),
      ("mask", .ofOption (.ofList fun h => .int h.toNat) l.mask), ("blob", l.machine.toJson)]

def Animator.toJson (a : Animator) : Json :=
  .object
    [("parameters", a.parameters.toJson), ("layers", arrayToJson Layer.toJson a.layers)]

end Baked

end PoseMachine
