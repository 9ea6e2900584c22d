import PoseMachine.Curve.Json
import PoseMachine.Graph.Basic
import PoseMachine.Parameter.Json

/-!
Authored graphs as values. Inside the kind of a state, and in a transition from any state, words and
tags may be written more loosely.
-/

namespace PoseMachine

open Json (required orElse optional)

def StateId.toJson (id : StateId) : Json := .int id.toNat

namespace Clip

def toJson (c : Clip) : Json :=
  .object [("name", .text c.name), ("duration", .ofSingle c.duration)]

def ofJson? (j : Json) : Option Clip := do
  match ← j.fields? ["name", "duration"] with
  | [name, duration] => pure ⟨← required Json.text? name, ← required Json.single? duration⟩
  | _ => none

end Clip

namespace LineClip

def toJson (c : LineClip) : Json :=
  .object
    [("clip", c.clip.toJson), ("threshold", .ofPattern c.threshold), ("speed", .ofSingle c.speed)]

def ofJson? (j : Json) : Option LineClip := do
  match ← j.fields? ["clip", "threshold", "speed"] with
  | [clip, threshold, speed] =>
    pure
      { clip := ← required Clip.ofJson? clip
        threshold := ← required Json.pattern? threshold
        speed := ← orElse 1 Json.single? speed }
  | _ => none

end LineClip

namespace PlaneClip

def toJson (c : PlaneClip) : Json :=
  .object
    [("clip", c.clip.toJson), ("position", .list [.ofSingle c.x, .ofSingle c.y]),
      ("speed", .ofSingle c.speed)]

def ofJson? (j : Json) : Option PlaneClip := do
  match ← j.fields? ["clip", "position", "speed"] with
  | [clip, position, speed] =>
    let clip ← required Clip.ofJson? clip
    let (x, y) ← required (Json.pair? Json.single?) position
    pure { clip, x, y, speed := ← orElse 1 Json.single? speed }
  | _ => none

end PlaneClip

def PlaneMethod.word : PlaneMethod → String
  | .simpleDirectional => "simple_directional"
  | .freeformCartesian => "freeform_cartesian"

def PlaneMethod.words : List (String × PlaneMethod) :=
  [PlaneMethod.simpleDirectional, .freeformCartesian].map fun m => (m.word, m)

theorem PlaneMethod.lookup_word (m : PlaneMethod) : PlaneMethod.words.lookup m.word = some m := by
  cases m <;> rfl

def Comparator.word : Comparator → String
  | .equal => "equal"
  | .notEqual => "not_equal"
  | .greater => "greater"
  | .less => "less"
  | .greaterOrEqual => "greater_or_equal"
  | .lessOrEqual => "less_or_equal"

def Comparator.words : List (String × Comparator) :=
  [Comparator.equal, .notEqual, .greater, .less, .greaterOrEqual, .lessOrEqual].map fun c =>
    (c.word, c)

theorem Comparator.lookup_word (c : Comparator) : Comparator.words.lookup c.word = some c := by
  cases c <;> rfl

namespace BoolCondition

def toJson (c : BoolCondition) : Json :=
  .object [("parameter", .text c.parameter), ("comparison_value", .bool c.value)]

def ofJson? (j : Json) : Option BoolCondition := do
  match ← j.fields? ["parameter", "comparison_value"] with
  | [parameter, value] => pure ⟨← required Json.text? parameter, ← required Json.bool? value⟩
  | _ => none

end BoolCondition

namespace IntCondition

def toJson (c : IntCondition) : Json :=
  .object
    [("parameter", .text c.parameter), ("comparator", .text c.comparator.word),
      ("comparison_value", .int c.value.toInt)]

def ofJson? (loose : Bool) (j : Json) : Option IntCondition := do
  match ← j.fields? ["parameter", "comparator", "comparison_value"] with
  | [parameter, comparator, value] =>
    pure
      { parameter := ← required Json.text? parameter
        comparator := ← required (Json.word? loose Comparator.words) comparator
        value := ← required Json.int32? value }
  | _ => none

end IntCondition

namespace Transition

def members (t : Transition) : List (String × Json) :=
  [("to_state", t.target.toJson),
    ("bool_conditions", .ofList BoolCondition.toJson t.boolConditions),
    ("int_conditions", .ofList IntCondition.toJson t.intConditions),
    ("end_time", .ofOption .ofSingle t.endTime),
    ("duration", .ofSingle t.duration),
    ("blend_curve", .ofOption Curve.toJson t.curve),
    ("offset", .ofSingle t.offset)]

def toJson (t : Transition) : Json := .object t.members

def ofJson? (loose : Bool) (j : Json) : Option Transition := do
  match ← j.fields? ["to_state", "bool_conditions", "int_conditions", "end_time", "duration",
      "blend_curve", "offset"] with
  | [target, boolConditions, intConditions, endTime, duration, curve, offset] =>
    pure
      { target := ← required Json.uint32? target
        boolConditions := ← orElse [] (Json.list? BoolCondition.ofJson?) boolConditions
        intConditions := ← orElse [] (Json.list? (IntCondition.ofJson? loose)) intConditions
        endTime := ← optional Json.single? endTime
        duration := ← orElse 0 Json.single? duration
        curve := ← optional Curve.ofJson? curve
        offset := ← orElse 0 Json.single? offset }
  | _ => none

end Transition

namespace AnyTransition

def toJson (t : AnyTransition) : Json :=
  .object (t.transition.members ++ [("can_transition_to_self", .bool t.allowSelf)])

def ofJson? : Json → Option AnyTransition
  | .object members => do
    let allowSelf ← Json.member? "can_transition_to_self" members
    pure
      { allowSelf := ← orElse false Json.bool? allowSelf
        transition := ← Transition.ofJson? true (.object members) }
  | _ => none

end AnyTransition

/-- What the kind of a state adds to its common part. -/
inductive StateKind where
  | leaf (motion : Motion)
  | container (border : Border) (machine : Option Machine)

namespace StateKind

def state (node : Node) : StateKind → State
  | .leaf motion => .leaf node motion
  | .container border machine => .container node border machine

def ofClip? (j : Json) : Option StateKind := do
  match ← j.fields? ["clip"] with
  | [clip] => pure (.leaf (.clip (← required Clip.ofJson? clip)))
  | _ => none

def ofLine? (j : Json) : Option StateKind := do
  match ← j.fields? ["blend_parameter", "clips"] with
  | [parameter, clips] =>
    let parameter ← required Json.text? parameter
    let clips ← required (Json.list? LineClip.ofJson?) clips
    pure (.leaf (.line parameter clips))
  | _ => none

def ofPlane? (j : Json) : Option StateKind := do
  match ← j.fields? ["parameter_x", "parameter_y", "algorithm", "clips"] with
  | [parameterX, parameterY, method, clips] =>
    let parameterX ← required Json.text? parameterX
    let parameterY ← required Json.text? parameterY
    let method ← orElse .simpleDirectional (Json.word? true PlaneMethod.words) method
    let clips ← required (Json.list? PlaneClip.ofJson?) clips
    pure (.leaf (.plane parameterX parameterY method clips))
  | _ => none

/-- Reads a container, its machine by `nested`. -/
def ofContainer? (nested : Json → Option Machine) (j : Json) : Option StateKind := do
  match ← j.fields? ["machine", "entry_state", "exit_states", "exit_transitions"] with
  | [machine, entry, exitStates, exitTransitions] =>
    let machine ← optional nested machine
    let entry ← optional Json.uint32? entry
    let exitStates ← orElse [] (Json.list? Json.uint32?) exitStates
    let exitTransitions ← orElse [] (Json.list? (Transition.ofJson? true)) exitTransitions
    pure (.container ⟨entry, exitStates, exitTransitions⟩ machine)
  | _ => none

def readers (nested : Json → Option Machine) : List (String × (Json → Option StateKind)) :=
  [("single_clip", ofClip?), ("linear_blend", ofLine?), ("directional_2d_blend", ofPlane?),
    ("sub_state_machine", ofContainer? nested)]

def ofJson? (loose : Bool) (nested : Json → Option Machine) (j : Json) : Option StateKind :=
  j.tagged? loose (readers nested)

end StateKind

def Motion.toJson : Motion → Json
  | .clip c => .object [("type", .text "single_clip"), ("clip", c.toJson)]
  | .line parameter clips =>
    .object
      [("type", .text "linear_blend"), ("blend_parameter", .text parameter),
        ("clips", .ofList LineClip.toJson clips)]
  | .plane parameterX parameterY method clips =>
    .object
      [("type", .text "directional_2d_blend"), ("parameter_x", .text parameterX),
        ("parameter_y", .text parameterY), ("algorithm", .text method.word),
        ("clips", .ofList PlaneClip.toJson clips)]

def Border.toJson (b : Border) (machine : Json) : Json :=
  .object
    [("type", .text "sub_state_machine"), ("machine", machine),
      ("entry_state", .ofOption StateId.toJson b.entry),
      ("exit_states", .ofList StateId.toJson b.exitStates),
      ("exit_transitions", .ofList Transition.toJson b.exitTransitions)]

def Node.toJson (n : Node) (kind : Json) : Json :=
  .object
    [("id", n.id.toJson), ("name", .text n.name), ("loop", .bool n.looping),
      ("speed", .ofSingle n.speed), ("speed_parameter", .ofOption .text n.speedParameter),
      ("transitions", .ofList Transition.toJson n.transitions), ("kind", kind)]

/-- The value of a machine around the values of its states. -/
def Machine.wrap (name : String) (parameters : List Parameter) (states : List Json)
    (defaultState : Option StateId) (anyTransitions : List AnyTransition) : Json :=
  .object
    [("name", .text name), ("parameters", .ofList Parameter.toJson parameters),
      ("states", .list states), ("default_state", .ofOption StateId.toJson defaultState),
      ("any_state_transitions", .ofList AnyTransition.toJson anyTransitions)]

mutual

def State.toJson : State → Json
  | .leaf node motion => node.toJson motion.toJson
  | .container node border none => node.toJson (border.toJson .null)
  | .container node border (some ⟨name, parameters, states, default, any⟩) =>
    node.toJson (border.toJson (Machine.wrap name parameters (statesToJson states) default any))

def statesToJson : List State → List Json
  | [] => []
  | s :: ss => s.toJson :: statesToJson ss

end

def Machine.toJson (m : Machine) : Json :=
  Machine.wrap m.name m.parameters (statesToJson m.states) m.defaultState m.anyTransitions

def State.ofJson? (loose : Bool) (nested : Json → Option Machine) (j : Json) : Option State := do
  match ← j.fields? ["id", "name", "loop", "speed", "speed_parameter", "transitions", "kind"] with
  | [id, name, looping, speed, speedParameter, transitions, kind] =>
    let node : Node :=
      { id := ← required Json.uint32? id
        name := ← required Json.text? name
        looping := ← orElse true Json.bool? looping
        speed := ← orElse 1 Json.single? speed
        speedParameter := ← optional Json.text? speedParameter
        transitions := ← orElse [] (Json.list? (Transition.ofJson? loose)) transitions }
    let kind ← required (StateKind.ofJson? loose nested) kind
    pure (kind.state node)
  | _ => none

namespace Machine

/-- Reads a machine, the machines in it by `nested`. -/
def ofJsonWith? (loose : Bool) (nested : Json → Option Machine) (j : Json) : Option Machine := do
  match ← j.fields? ["name", "parameters", "states", "default_state",
      "any_state_transitions"] with
  | [name, parameters, states, defaultState, anyTransitions] =>
    pure
      { name := ← required Json.text? name
        parameters := ← orElse [] (Json.list? (Parameter.ofJson? loose)) parameters
        states := ← orElse [] (Json.list? (State.ofJson? loose nested)) states
        defaultState := ← optional Json.uint32? defaultState
        anyTransitions := ← orElse [] (Json.list? AnyTransition.ofJson?) anyTransitions }
  | _ => none

/-- Reads a nested machine with at most `n` machines around one another. -/
def nested? : Nat → Json → Option Machine
  | 0, _ => none
  | n + 1, j => ofJsonWith? true (nested? n) j

/-- Reads a machine. No machine is nested deeper than its value. -/
def ofJson? (j : Json) : Option Machine := ofJsonWith? false (nested? j.height) j

end Machine

end PoseMachine
