import PoseMachine.Baked.Basic
import PoseMachine.Flat.Basic
import PoseMachine.Parameter.Table

/-!
The draft of a baked machine: every name and reference resolved, lists still nested.
-/

namespace PoseMachine

namespace Draft

structure Edge where
  target : UInt32
  duration : Float32
  hasEndTime : Bool
  endTime : Float32
  offset : Float32
  allowSelf : Bool
  boolTests : List Baked.BoolTest
  intTests : List Baked.IntTest
  curve : List PackedKey

structure LineEntry where
  clip : UInt16
  threshold : Single.Pattern
  speed : Float32

/-- What a leaf plays. -/
inductive Motion where
  | clip (clip : UInt16)
  /-- The clips are ordered by threshold. -/
  | line (parameter : Parameter.Numeric) (clips : List LineEntry)
  | plane (parameterX parameterY : UInt16) (method : PlaneMethod) (clips : List Baked.PlaneEntry)

def Motion.clipCount : Motion → Nat
  | .clip _ => 1
  | .line _ clips => clips.length
  | .plane _ _ _ clips => clips.length

structure State where
  motion : Motion
  looping : Bool
  speed : Float32
  speedParameter : Option UInt16
  transitions : List Edge
  /-- Negative for none. -/
  exitGroup : Int32
  /-- Negative for none. -/
  sub : Int32
  nameHash : UInt32

structure Exit where
  sub : UInt32
  states : List UInt32
  transitions : List Edge

/-- An index, or -1 for none. -/
def optionalIndex : Option Nat → Int32
  | some i => Int32.ofNat i
  | none => -1

/-- Resolves the parameters of a transition. Its duration is at least zero. -/
def Edge.ofResolved (t : Parameter.Table) (context : String) (allowSelf : Bool)
    (r : Flat.Resolved) : Report Edge := do
  let boolTests ← r.transition.boolConditions.mapM fun c => do
    let parameter ← t.resolve c.parameter .bool context
    pure ⟨parameter, c.value⟩
  let intTests ← r.transition.intConditions.mapM fun c => do
    let parameter ← t.resolve c.parameter .int context
    pure ⟨parameter, c.comparator, c.value⟩
  pure
    { target := r.leaf.toUInt32
      duration := Single.positivePart r.transition.duration
      hasEndTime := r.transition.endTime.isSome
      endTime := r.transition.endTime.getD 0
      offset := r.transition.offset
      allowSelf
      boolTests
      intTests
      curve := (r.transition.curve.map Curve.pack).getD [] }

/-- The entries of a blend along one parameter, by threshold and otherwise as authored. -/
def lineEntries (offset : Nat) (clips : List LineClip) : List LineEntry :=
  (clips.zipIdx.map fun (c, i) => ⟨(offset + i).toUInt16, c.threshold, c.speed⟩).mergeSort
    fun a b => a.threshold.le b.threshold

def planeEntries (offset : Nat) (clips : List PlaneClip) : List Baked.PlaneEntry :=
  clips.zipIdx.map fun (c, i) => ⟨(offset + i).toUInt16, c.x, c.y, c.speed⟩

def durationNotices (path : String) (clips : List Clip) : List Notice :=
  clips.filterMap fun c =>
    if c.duration.isFinite && c.duration > 0 then none
    else some (.badDuration c.name path c.duration)

/-- Resolves the parameters of a motion whose clips start at `offset`. -/
def Motion.ofAuthored (t : Parameter.Table) (context : String) (offset : Nat) :
    PoseMachine.Motion → Report Motion
  | .clip _ => pure (.clip offset.toUInt16)
  | .line parameter clips => do
    let parameter ← t.resolveNumeric parameter context
    pure (.line parameter (lineEntries offset clips))
  | .plane parameterX parameterY method clips => do
    let parameterX ← t.resolve parameterX .float context
    let parameterY ← t.resolve parameterY .float context
    pure (.plane parameterX parameterY method (planeEntries offset clips))

def State.ofLeaf (f : Flat) (t : Parameter.Table) (l : Flat.Leaf) : Report State := do
  let context := "state '" ++ l.path ++ "'"
  let speedParameter ← l.node.speedParameter.mapM fun name => t.resolve name .float context
  let motion ← Motion.ofAuthored t context l.clipOffset l.motion
  Report.tell (durationNotices l.path l.motion.clips)
  Report.tell (if motion.clipCount = 0 then [.noClips l.path] else [])
  let resolved ← f.resolveTransitions l.node.transitions
  let transitions ← resolved.mapM (Edge.ofResolved t context false)
  pure
    { motion
      looping := l.node.looping
      speed := l.node.speed
      speedParameter
      transitions
      exitGroup := optionalIndex l.exitGroup
      sub := optionalIndex l.parent
      nameHash := PoseMachine.nameHash l.node.name }

/-- Resolves the transitions from any state. A machine without leaves drops them. -/
def anyEdges (f : Flat) (t : Parameter.Table) : Report (List Edge) := do
  let ts := f.machine.anyTransitions
  if f.leaves.isEmpty && !ts.isEmpty then
    Report.tell [.anyTransitionsDropped f.machine.name ts.length]
    pure []
  else
    ts.mapM fun any => do
      let leaf ← f.resolveTarget any.transition.target
      Edge.ofResolved t "any-state transition" any.allowSelf ⟨leaf, any.transition⟩

def Exit.ofGroup (f : Flat) (t : Parameter.Table) (g : Flat.ExitGroup) : Report Exit := do
  let path := (f.subs[g.sub]?.map (·.path)).getD ""
  let context := "exit transition of '" ++ path ++ "'"
  let transitions ← g.transitions.mapM (Edge.ofResolved t context false)
  pure ⟨g.sub.toUInt32, g.leaves.map (·.toUInt32), transitions⟩

def bakedSub (s : Flat.Sub) : Baked.Sub where
  parent := optionalIndex s.parent
  level := s.level
  entry := s.entry.toUInt32
  nameHash := nameHash s.node.name

def bakedClip (c : Clip) : Baked.Clip := ⟨c.duration, nameHash c.name⟩

end Draft

/-- A machine with every name and reference resolved. -/
structure Draft where
  nameHash : UInt32
  defaultState : UInt32
  parameters : Parameter.Layout
  states : List Draft.State
  anyTransitions : List Draft.Edge
  exits : List Draft.Exit
  subs : List Baked.Sub
  clips : List Baked.Clip

namespace Draft

/-- Resolves a flattened graph against a parameter table. -/
def ofFlat (f : Flat) (t : Parameter.Table) : Report Draft := do
  let states ← f.leaves.toList.mapM (State.ofLeaf f t)
  let anyTransitions ← anyEdges f t
  let exits ← f.exitGroups.toList.mapM (Exit.ofGroup f t)
  pure
    { nameHash := PoseMachine.nameHash f.machine.name
      defaultState := f.defaultLeaf.toUInt32
      parameters := t.layout
      states
      anyTransitions
      exits
      subs := f.subs.toList.map bakedSub
      clips := f.leaves.toList.flatMap fun l => l.motion.clips.map bakedClip }

end Draft

end PoseMachine
