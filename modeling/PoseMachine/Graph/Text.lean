import PoseMachine.Graph.Json
import PoseMachine.Json.Text

/-!
Authored graphs as texts.
-/

namespace PoseMachine

open Json (Shape mandatory defaulted nullable tokenOf)

namespace Parameter

def shape : Shape :=
  .record
    [mandatory "name" (tokenOf Json.text?),
      mandatory "default" <|
        .tagAndValue (Value.readers.map fun r => (r.1, fun j => (r.2 j).isSome))]

end Parameter

def Curve.shape : Shape :=
  .record
    [mandatory "keyframes" <| .list <| .record
      [mandatory "time" (tokenOf Json.single?), mandatory "value" (tokenOf Json.single?),
        defaulted "in_tangent" (tokenOf Json.single?),
        defaulted "out_tangent" (tokenOf Json.single?)]]

def BoolCondition.shape : Shape :=
  .record
    [mandatory "parameter" (tokenOf Json.text?), mandatory "comparison_value" (tokenOf Json.bool?)]

def IntCondition.shape : Shape :=
  .record
    [mandatory "parameter" (tokenOf Json.text?),
      mandatory "comparator" (.word (Comparator.words.map (·.1))),
      mandatory "comparison_value" (tokenOf Json.int32?)]

def Transition.shape : Shape :=
  .record
    [mandatory "to_state" (tokenOf Json.uint32?),
      defaulted "bool_conditions" (.list BoolCondition.shape),
      defaulted "int_conditions" (.list IntCondition.shape),
      nullable "end_time" (tokenOf Json.single?),
      defaulted "duration" (tokenOf Json.single?),
      nullable "blend_curve" Curve.shape,
      defaulted "offset" (tokenOf Json.single?)]

def AnyTransition.shape : Shape :=
  .extended "can_transition_to_self" (fun j => j.bool?.isSome) fun j => (ofJson? j).isSome

def StateKind.shape : Shape :=
  .tagged ((readers fun _ => none).map (·.1)) fun j =>
    (ofJson? false (Machine.nested? j.height) j).isSome

def State.shape : Shape :=
  .record
    [mandatory "id" (tokenOf Json.uint32?),
      mandatory "name" (tokenOf Json.text?),
      defaulted "loop" (tokenOf Json.bool?),
      defaulted "speed" (tokenOf Json.single?),
      nullable "speed_parameter" (tokenOf Json.text?),
      defaulted "transitions" (.list Transition.shape),
      mandatory "kind" StateKind.shape]

namespace Machine

def shape : Shape :=
  .record
    [mandatory "name" (tokenOf Json.text?),
      defaulted "parameters" (.list Parameter.shape),
      defaulted "states" (.list State.shape),
      nullable "default_state" (tokenOf Json.uint32?),
      defaulted "any_state_transitions" (.list AnyTransition.shape)]

def ofText (text : String) : Except ReadError Machine := Json.readText shape ofJson? text

end Machine

end PoseMachine
