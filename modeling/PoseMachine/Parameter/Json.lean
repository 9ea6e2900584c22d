import PoseMachine.Json.Basic
import PoseMachine.Parameter.Basic

/-!
Parameters, authored and baked, as values.
-/

namespace PoseMachine

open Json (required)

namespace Parameter

def Kind.word : Kind → String
  | .bool => "bool"
  | .int => "int"
  | .float => "float"

def Kind.words : List (String × Kind) := [Kind.bool, .int, .float].map fun k => (k.word, k)

theorem Kind.lookup_word (k : Kind) : Kind.words.lookup k.word = some k := by
  cases k <;> rfl

def Value.toJson (v : Value) : Json :=
  let content : Json := match v with
    | .bool b => .bool b
    | .int n => .int n.toInt
    | .float x => .ofSingle x
  .object [("type", .text v.kind.word), ("value", content)]

def Value.readers : List (String × (Json → Option Value)) :=
  [("bool", fun j => j.bool?.map .bool), ("int", fun j => j.int32?.map .int),
    ("float", fun j => j.single?.map .float)]

def Value.ofJson? (loose : Bool) (j : Json) : Option Value := j.tagAndValue? loose Value.readers

end Parameter

namespace Parameter

def toJson (p : Parameter) : Json :=
  .object [("name", .text p.name), ("default", p.default.toJson)]

def ofJson? (loose : Bool) (j : Json) : Option Parameter := do
  match ← j.fields? ["name", "default"] with
  | [name, default] =>
    pure ⟨← required Json.text? name, ← required (Value.ofJson? loose) default⟩
  | _ => none

def Slot.toJson {α : Type} (write : α → Json) (s : Slot α) : Json :=
  .object [("hash", .int s.hash.toNat), ("default", write s.default)]

def Slot.ofJson? {α : Type} (read : Json → Option α) (j : Json) : Option (Slot α) := do
  match ← j.fields? ["hash", "default"] with
  | [hash, default] => pure ⟨← required Json.uint32? hash, ← required read default⟩
  | _ => none

def Layout.toJson (l : Layout) : Json :=
  .object
    [("bools", .ofList (Slot.toJson .bool) l.bools.toList),
      ("ints", .ofList (Slot.toJson fun n => .int n.toInt) l.ints.toList),
      ("floats", .ofList (Slot.toJson .ofSingle) l.floats.toList)]

def Layout.ofJson? (j : Json) : Option Layout := do
  match ← j.fields? ["bools", "ints", "floats"] with
  | [bools, ints, floats] =>
    let bools ← required (Json.list? (Slot.ofJson? Json.bool?)) bools
    let ints ← required (Json.list? (Slot.ofJson? Json.int32?)) ints
    let floats ← required (Json.list? (Slot.ofJson? Json.single?)) floats
    pure ⟨bools.toArray, ints.toArray, floats.toArray⟩
  | _ => none

def Numeric.toJson (n : Numeric) : Json :=
  .object [("kind", .text n.kind.word), ("index", .int n.index.toNat)]

def Numeric.ofJson? (j : Json) : Option Numeric := do
  match ← j.fields? ["kind", "index"] with
  | [kind, index] =>
    pure ⟨← required (Json.word? false Kind.words) kind, ← required Json.uint16? index⟩
  | _ => none

end Parameter

end PoseMachine
