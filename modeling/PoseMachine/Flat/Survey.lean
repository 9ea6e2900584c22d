import PoseMachine.Bake.Report
import Std.Data.HashMap

/-!
One walk over a graph that numbers its leaves, its nested machines and its clips.
-/

namespace PoseMachine.Flat

/-- A leaf state in the index space of the whole graph. -/
structure Leaf where
  index : Nat
  /-- The clips of all earlier leaves. -/
  clipOffset : Nat
  /-- Names from the outermost machine down, separated by slashes. -/
  path : String
  /-- The exit group that the leaf triggers. -/
  exitGroup : Option Nat := none
  /-- The innermost nested machine around the leaf. -/
  parent : Option Nat
  node : Node
  motion : Motion

/-- A nested machine, numbered before the machines inside it. -/
structure Sub where
  index : Nat
  /-- The innermost nested machine around this one. -/
  parent : Option Nat
  /-- Nesting depth, 1 inside the outermost machine. -/
  level : UInt16
  /-- The leaf at which the machine is entered. -/
  entry : Nat := 0
  path : String
  node : Node
  border : Border

/-- What a walk has numbered so far. -/
structure Survey where
  leaves : Array Leaf := #[]
  subs : Array Sub := #[]
  /-- The last leaf with a number. -/
  leafIndex : Std.HashMap StateId Nat := ∅
  /-- The last nested machine with a number. -/
  subIndex : Std.HashMap StateId Nat := ∅
  clipCount : Nat := 0
  /-- Nested machines, each after those inside it. -/
  postOrder : Array Nat := #[]
  notices : Array Notice := #[]

namespace Survey

def noteIf (v : Survey) (c : Bool) (n : Notice) : Survey :=
  if c then { v with notices := v.notices.push n } else v

def addLeaf (v : Survey) (parent : Option Nat) (path : String) (node : Node) (motion : Motion) :
    Survey :=
  let v := v.noteIf (v.leafIndex.contains node.id) (.reusedId node.id path)
  let index := v.leaves.size
  { v with
    leaves := v.leaves.push { index, clipOffset := v.clipCount, path, parent, node, motion }
    leafIndex := v.leafIndex.insert node.id index
    clipCount := v.clipCount + motion.clipCount }

def skip (v : Survey) (path : String) (node : Node) : Survey :=
  (v.noteIf (!node.transitions.isEmpty) (.containerTransitions path)).noteIf true
    (.missingMachine path)

/-- Numbers a nested machine before its states are visited. -/
def enter (v : Survey) (parent : Option Nat) (level : UInt16) (path : String) (node : Node)
    (border : Border) (declares : Bool) : Survey :=
  let v := v.noteIf (!node.transitions.isEmpty) (.containerTransitions path)
  let v := v.noteIf declares (.nestedDeclarations path)
  let index := v.subs.size
  { v with
    subs := v.subs.push { index, parent, level, path, node, border }
    subIndex := v.subIndex.insert node.id index }

/-- Records that the machine `index` and all inside it have been visited. -/
def leave (v : Survey) (index : Nat) : Survey :=
  { v with postOrder := v.postOrder.push index }

mutual

/-- Numbers a state and everything inside it. -/
def visit (parent : Option Nat) (level : UInt16) (path : String) : State → Survey → Survey
  | .leaf node motion, v => v.addLeaf parent (path ++ "/" ++ node.name) node motion
  | .container node _ none, v => v.skip (path ++ "/" ++ node.name) node
  | .container node border (some ⟨_, parameters, states, _, any⟩), v =>
    let path := path ++ "/" ++ node.name
    let index := v.subs.size
    let declares := !parameters.isEmpty || !any.isEmpty
    let v := v.enter parent (level + 1) path node border declares
    (visitAll (some index) (level + 1) path states v).leave index

def visitAll (parent : Option Nat) (level : UInt16) (path : String) :
    List State → Survey → Survey
  | [], v => v
  | s :: ss, v => visitAll parent level path ss (visit parent level path s v)

end

def ofMachine (m : Machine) : Survey := visitAll none 0 m.name m.states {}

end Survey

end PoseMachine.Flat
