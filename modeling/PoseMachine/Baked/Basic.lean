import PoseMachine.Bake.Report
import PoseMachine.Fault

/-!
A baked machine: flat arrays that refer to each other by index. Lists of varying length are spans of
shared pools.
-/

namespace PoseMachine

namespace Baked

/-- The part of a pool from `start`, `len` entries long. -/
structure Span where
  start : UInt32 := 0
  len : UInt32 := 0
deriving DecidableEq, Repr

namespace Span

def stop (s : Span) : Nat := s.start.toNat + s.len.toNat

def isEmpty (s : Span) : Bool := s.len == 0

/-- The position in its pool of the entry `i` of a span. Positions have 32 bits, and past the last
of them comes 0 again. -/
def position (s : Span) (i : Nat) : UInt32 := s.start + i.toUInt32

def limit : Nat := 4294967295

/-- The span of `len` entries from `start`, both ends of which must be 32-bit offsets. -/
def make (start len : Nat) : Report Span :=
  if start + len ≤ limit then pure ⟨start.toUInt32, len.toUInt32⟩
  else
    let count := min (start + len) 18446744073709551615
    .fail (.poolOverflow count) (.poolOverflow count limit)

def fits (s : Span) (size : Nat) : Bool := decide (s.stop ≤ size)

def slice {α : Type} (s : Span) (pool : Array α) : Except Fault (Array α) :=
  if s.fits pool.size then .ok (pool.extract s.start.toNat s.stop) else .error .outOfBounds

theorem size_slice {α : Type} {s : Span} {pool xs : Array α} (h : s.slice pool = .ok xs) :
    xs.size = s.len.toNat := by
  simp only [slice, fits, decide_eq_true_eq] at h
  split at h
  · next hs =>
    cases h
    simp only [stop] at *
    simp only [Array.size_extract]
    omega
  · simp at h

theorem getElem?_slice {α : Type} {s : Span} {pool xs : Array α} (h : s.slice pool = .ok xs)
    {i : Nat} (hi : i < s.len.toNat) : xs[i]? = pool[s.start.toNat + i]? := by
  simp only [slice, fits, decide_eq_true_eq] at h
  split at h
  · next hs =>
    cases h
    simp only [stop] at *
    rw [Array.getElem?_extract]
    simp only [Nat.min_eq_left hs]
    split
    · rfl
    · omega
  · simp at h

end Span

inductive StateKind where
  | clip
  | line
  | plane
deriving DecidableEq, Repr

structure State where
  kind : StateKind
  /-- Position in the array of its kind. -/
  typeIndex : UInt32
  looping : Bool
  speed : Float32
  /-- A Float parameter that scales the speed. -/
  speedParameter : Option UInt16
  /-- A span of `Baked.transitions`. -/
  transitions : Span
  /-- The exit group of the state, negative for none. -/
  exitGroup : Int32
  /-- The innermost nested machine around the state, negative for none. -/
  sub : Int32
  nameHash : UInt32
deriving BEq

structure ClipState where
  clip : UInt16
deriving DecidableEq, Repr

/-- A blend along one parameter. Its clips are a span of three pools in parallel, by threshold. -/
structure LineState where
  parameter : Parameter.Numeric
  clips : Span
deriving DecidableEq, Repr

structure PlaneEntry where
  clip : UInt16
  x : Float32
  y : Float32
  speed : Float32
deriving BEq

structure PlaneState where
  parameterX : UInt16
  parameterY : UInt16
  method : PlaneMethod
  /-- A span of `Baked.planeEntries`. -/
  clips : Span
deriving DecidableEq, Repr

structure BoolTest where
  parameter : UInt16
  value : Bool
deriving DecidableEq, Repr

structure IntTest where
  parameter : UInt16
  comparator : Comparator
  value : Int32
deriving DecidableEq, Repr

structure Edge where
  target : UInt32
  duration : Float32
  hasEndTime : Bool
  /-- Normalized exit time of the source state. -/
  endTime : Float32
  /-- Normalized start time in the target. -/
  offset : Float32
  boolTests : Span
  intTests : Span
  /-- A span of keyframes, empty for a linear blend. -/
  curve : Span
  allowSelf : Bool
deriving BEq

/-- The leaves through which a nested machine may be left, and how. -/
structure Exit where
  sub : UInt32
  /-- A span of `Baked.exitStates`. -/
  states : Span
  /-- A span of `Baked.transitions`. -/
  transitions : Span
deriving DecidableEq, Repr

structure Sub where
  /-- The nested machine around this one, negative for none. -/
  parent : Int32
  level : UInt16
  entry : UInt32
  nameHash : UInt32
deriving DecidableEq, Repr

structure Clip where
  duration : Float32
  nameHash : UInt32
deriving BEq

end Baked

structure Baked where
  nameHash : UInt32 := 0
  defaultState : UInt32 := 0
  parameters : Parameter.Layout := {}
  states : Array Baked.State := #[]
  clipStates : Array Baked.ClipState := #[]
  lineStates : Array Baked.LineState := #[]
  lineClips : Array UInt16 := #[]
  lineThresholds : Array Single.Pattern := #[]
  lineSpeeds : Array Float32 := #[]
  planeStates : Array Baked.PlaneState := #[]
  planeEntries : Array Baked.PlaneEntry := #[]
  /-- Transitions of states, from any state, and of exit groups. -/
  transitions : Array Baked.Edge := #[]
  boolTests : Array Baked.BoolTest := #[]
  intTests : Array Baked.IntTest := #[]
  keys : Array PackedKey := #[]
  /-- A span of `transitions`. -/
  anyTransitions : Baked.Span := {}
  exits : Array Baked.Exit := #[]
  exitStates : Array UInt32 := #[]
  subs : Array Baked.Sub := #[]
  clips : Array Baked.Clip := #[]
  /-- The largest number of clips of one state. -/
  maxClipsPerState : UInt32 := 0
deriving BEq

namespace Baked

def clipCount (b : Baked) (s : State) : Except Fault Nat :=
  match s.kind with
  | .clip => .ok 1
  | .line => (fetch b.lineStates s.typeIndex.toNat).map (·.clips.len.toNat)
  | .plane => (fetch b.planeStates s.typeIndex.toNat).map (·.clips.len.toNat)

theorem clipCount_line {b : Baked} {s : State} {l : LineState} (hk : s.kind = .line)
    (hl : b.lineStates[s.typeIndex.toNat]? = some l) : b.clipCount s = .ok l.clips.len.toNat := by
  simp [clipCount, hk, fetch_eq_ok_iff.mpr hl, Except.map]

theorem clipCount_plane {b : Baked} {s : State} {p : PlaneState} (hk : s.kind = .plane)
    (hp : b.planeStates[s.typeIndex.toNat]? = some p) : b.clipCount s = .ok p.clips.len.toNat := by
  simp [clipCount, hk, fetch_eq_ok_iff.mpr hp, Except.map]

def lineSlices (b : Baked) (l : LineState) :
    Except Fault (Array UInt16 × Array Single.Pattern × Array Float32) := do
  let clips ← l.clips.slice b.lineClips
  let thresholds ← l.clips.slice b.lineThresholds
  let speeds ← l.clips.slice b.lineSpeeds
  pure (clips, thresholds, speeds)

end Baked

end PoseMachine
