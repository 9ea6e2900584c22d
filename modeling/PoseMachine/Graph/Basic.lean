import PoseMachine.Curve
import PoseMachine.Parameter.Basic

/-!
The authored graph: machines own states, a container state owns a nested machine, and transitions,
entries and exits refer to states of any level by number.
-/

namespace PoseMachine

/-- The number of an authored state, meant to be unique in the whole graph. -/
abbrev StateId := UInt32

structure Clip where
  name : String
  duration : Float32
deriving BEq

structure LineClip where
  clip : Clip
  threshold : Single.Pattern
  speed : Float32 := 1
deriving BEq

structure PlaneClip where
  clip : Clip
  x : Float32
  y : Float32
  speed : Float32 := 1
deriving BEq

/-- How a blend over the plane weighs its clips. -/
inductive PlaneMethod where
  /-- By the two nearest directions. -/
  | simpleDirectional
  /-- By distance bands between positions. -/
  | freeformCartesian
deriving DecidableEq, Repr

inductive Comparator where
  | equal
  | notEqual
  | greater
  | less
  | greaterOrEqual
  | lessOrEqual
deriving DecidableEq, Repr

def Comparator.holds (c : Comparator) (value comparison : Int32) : Bool :=
  match c with
  | .equal => value == comparison
  | .notEqual => value != comparison
  | .greater => value > comparison
  | .less => value < comparison
  | .greaterOrEqual => value ≥ comparison
  | .lessOrEqual => value ≤ comparison

structure BoolCondition where
  parameter : String
  value : Bool
deriving BEq

structure IntCondition where
  parameter : String
  comparator : Comparator
  value : Int32
deriving BEq

/-- An authored transition. It is taken when its exit time has come and all conditions hold. -/
structure Transition where
  target : StateId
  boolConditions : List BoolCondition := []
  intConditions : List IntCondition := []
  /-- Normalized time of the source state before which the transition waits. -/
  endTime : Option Float32 := none
  /-- Blend duration in seconds. -/
  duration : Float32 := 0
  /-- Without a curve the blend is linear. -/
  curve : Option Curve := none
  /-- Normalized start time in the target. -/
  offset : Float32 := 0
deriving BEq

/-- A transition open from every state. -/
structure AnyTransition where
  transition : Transition
  allowSelf : Bool := false
deriving BEq

inductive Motion where
  | clip (clip : Clip)
  | line (parameter : String) (clips : List LineClip)
  | plane (parameterX parameterY : String) (method : PlaneMethod) (clips : List PlaneClip)
deriving BEq

def Motion.clips : Motion → List Clip
  | .clip c => [c]
  | .line _ cs => cs.map (·.clip)
  | .plane _ _ _ cs => cs.map (·.clip)

def Motion.clipCount : Motion → Nat
  | .clip _ => 1
  | .line _ cs => cs.length
  | .plane _ _ _ cs => cs.length

theorem Motion.length_clips (m : Motion) : m.clips.length = m.clipCount := by
  cases m <;> simp [clips, clipCount]

/-- What leaf states and containers have in common. -/
structure Node where
  id : StateId
  name : String
  looping : Bool := true
  speed : Float32 := 1
  /-- A Float parameter that scales the speed. -/
  speedParameter : Option String := none
  /-- Transitions in order of preference. A container's are not used. -/
  transitions : List Transition := []
deriving BEq

/-- How a nested machine is entered and left. -/
structure Border where
  entry : Option StateId := none
  exitStates : List StateId := []
  exitTransitions : List Transition := []
deriving BEq

mutual

/-- A leaf state that plays a motion, or a container of a nested machine. -/
inductive State where
  | leaf (node : Node) (motion : Motion)
  | container (node : Node) (border : Border) (machine : Option Machine)

/-- A machine with its states. Parameters and transitions from any state count on the outermost
machine only. -/
structure Machine where
  name : String
  parameters : List Parameter := []
  states : List State := []
  defaultState : Option StateId := none
  anyTransitions : List AnyTransition := []

end

namespace State

def node : State → Node
  | .leaf node _ => node
  | .container node _ _ => node

def id (s : State) : StateId := s.node.id

def name (s : State) : String := s.node.name

def isLeaf : State → Bool
  | .leaf _ _ => true
  | .container _ _ _ => false

/-- The number of clips a state plays itself. -/
def clipCount : State → Nat
  | .leaf _ motion => motion.clipCount
  | .container _ _ _ => 0

end State

mutual

/-- The state and all states below it, outer ones first. -/
def State.subtree : State → List State
  | .leaf node motion => [.leaf node motion]
  | .container node border none => [.container node border none]
  | .container node border (some ⟨name, parameters, states, default, any⟩) =>
    .container node border (some ⟨name, parameters, states, default, any⟩) :: forest states

def forest : List State → List State
  | [] => []
  | s :: ss => s.subtree ++ forest ss

end

namespace Machine

/-- All states of all levels, depth first. -/
def allStates (m : Machine) : List State := forest m.states

/-- The first state of any level with the number `id`. -/
def find? (m : Machine) (id : StateId) : Option State :=
  m.allStates.find? fun s => s.id == id

/-- The number of leaf states of all levels. -/
def leafCount (m : Machine) : Nat :=
  m.allStates.countP State.isLeaf

end Machine

end PoseMachine
