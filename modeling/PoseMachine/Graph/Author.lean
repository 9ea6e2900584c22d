import PoseMachine.Graph.Basic

/-!
Building a graph step by step.
-/

namespace PoseMachine

namespace Transition

def withBool (t : Transition) (parameter : String) (value : Bool) : Transition :=
  { t with boolConditions := t.boolConditions ++ [⟨parameter, value⟩] }

def withInt (t : Transition) (parameter : String) (comparator : Comparator) (value : Int32) :
    Transition :=
  { t with intConditions := t.intConditions ++ [⟨parameter, comparator, value⟩] }

end Transition

namespace State

def mapNode (f : Node → Node) : State → State
  | .leaf node motion => .leaf (f node) motion
  | .container node border machine => .container (f node) border machine

def withTransition (s : State) (t : Transition) : State :=
  s.mapNode fun n => { n with transitions := n.transitions ++ [t] }

/-- The state with more exit states and exit transitions. A leaf stays as it is. -/
def withExit (s : State) (exitStates : List StateId) (exitTransitions : List Transition) : State :=
  match s with
  | .leaf node motion => .leaf node motion
  | .container node border machine =>
    .container node
      { border with
        exitStates := border.exitStates ++ exitStates
        exitTransitions := border.exitTransitions ++ exitTransitions }
      machine

end State

namespace Machine

def withParameter (m : Machine) (p : Parameter) : Machine :=
  { m with parameters := m.parameters ++ [p] }

/-- The machine with one more state. The first state added is the default until another is set. -/
def withState (m : Machine) (s : State) : Machine :=
  { m with states := m.states ++ [s], defaultState := m.defaultState.or (some s.id) }

def withDefault (m : Machine) (id : StateId) : Machine :=
  { m with defaultState := some id }

def withAnyTransition (m : Machine) (t : AnyTransition) : Machine :=
  { m with anyTransitions := m.anyTransitions ++ [t] }

end Machine

end PoseMachine
