import PoseMachine.Proofs.Drafting
import PoseMachine.Proofs.Spans

/-!
A packed entry and the draft it was made of. What holds of the pools holds of longer ones.
-/

namespace PoseMachine.Baked

/-- Every pool of `b` is the beginning of the one of `c`, and what is not packed is the same. -/
structure Extends (b c : Baked) : Prop where
  nameHash : c.nameHash = b.nameHash
  defaultState : c.defaultState = b.defaultState
  parameters : c.parameters = b.parameters
  subs : c.subs = b.subs
  clips : c.clips = b.clips
  transitions : b.transitions.toList <+: c.transitions.toList
  boolTests : b.boolTests.toList <+: c.boolTests.toList
  intTests : b.intTests.toList <+: c.intTests.toList
  keys : b.keys.toList <+: c.keys.toList
  clipStates : b.clipStates.toList <+: c.clipStates.toList
  lineStates : b.lineStates.toList <+: c.lineStates.toList
  lineClips : b.lineClips.toList <+: c.lineClips.toList
  lineThresholds : b.lineThresholds.toList <+: c.lineThresholds.toList
  lineSpeeds : b.lineSpeeds.toList <+: c.lineSpeeds.toList
  planeStates : b.planeStates.toList <+: c.planeStates.toList
  planeEntries : b.planeEntries.toList <+: c.planeEntries.toList
  exitStates : b.exitStates.toList <+: c.exitStates.toList

/-- A packed transition and the draft it was made of. -/
structure HoldsEdge (b : Baked) (e : Draft.Edge) (x : Edge) : Prop where
  target : x.target = e.target
  duration : x.duration = e.duration
  hasEndTime : x.hasEndTime = e.hasEndTime
  endTime : x.endTime = e.endTime
  offset : x.offset = e.offset
  allowSelf : x.allowSelf = e.allowSelf
  boolTests : x.boolTests.slice b.boolTests = .ok e.boolTests.toArray
  intTests : x.intTests.slice b.intTests = .ok e.intTests.toArray
  curve : x.curve.slice b.keys = .ok e.curve.toArray

/-- A span of transitions and the drafts they were made of. -/
def HoldsEdges (b : Baked) (es : List Draft.Edge) (s : Span) : Prop :=
  ∃ xs, s.slice b.transitions = .ok xs ∧ List.Forall₂ b.HoldsEdge es xs.toList

structure HoldsLine (b : Baked) (d : Parameter.Numeric × List Draft.LineEntry) (l : LineState) :
    Prop where
  parameter : l.parameter = d.1
  clips : l.clips.slice b.lineClips = .ok (d.2.map (·.clip)).toArray
  thresholds : l.clips.slice b.lineThresholds = .ok (d.2.map (·.threshold)).toArray
  speeds : l.clips.slice b.lineSpeeds = .ok (d.2.map (·.speed)).toArray

structure HoldsPlane (b : Baked) (d : UInt16 × UInt16 × PlaneMethod × List PlaneEntry)
    (p : PlaneState) : Prop where
  parameterX : p.parameterX = d.1
  parameterY : p.parameterY = d.2.1
  method : p.method = d.2.2.1
  clips : p.clips.slice b.planeEntries = .ok d.2.2.2.toArray

/-- A motion and its place in the array of its kind. -/
inductive HoldsMotion (b : Baked) : Draft.Motion → StateKind → Nat → Prop where
  | clip {c : UInt16} {i : Nat} (h : b.clipStates[i]? = some ⟨c⟩) : HoldsMotion b (.clip c) .clip i
  | line {p : Parameter.Numeric} {es : List Draft.LineEntry} {i : Nat} {l : LineState}
      (h : b.lineStates[i]? = some l) (hl : b.HoldsLine (p, es) l) :
      HoldsMotion b (.line p es) .line i
  | plane {x y : UInt16} {method : PlaneMethod} {es : List PlaneEntry} {i : Nat} {p : PlaneState}
      (h : b.planeStates[i]? = some p) (hp : b.HoldsPlane (x, y, method, es) p) :
      HoldsMotion b (.plane x y method es) .plane i

structure HoldsState (b : Baked) (d : Draft.State) (s : State) : Prop where
  motion : b.HoldsMotion d.motion s.kind s.typeIndex.toNat
  looping : s.looping = d.looping
  speed : s.speed = d.speed
  speedParameter : s.speedParameter = d.speedParameter
  transitions : b.HoldsEdges d.transitions s.transitions
  exitGroup : s.exitGroup = d.exitGroup
  sub : s.sub = d.sub
  nameHash : s.nameHash = d.nameHash

structure HoldsExit (b : Baked) (d : Draft.Exit) (x : Exit) : Prop where
  sub : x.sub = d.sub
  states : x.states.slice b.exitStates = .ok d.states.toArray
  transitions : b.HoldsEdges d.transitions x.transitions

section Mono

variable {b c : Baked}

theorem Extends.refl (b : Baked) : b.Extends b := by
  constructor <;> rfl

theorem Extends.trans {d : Baked} (h : b.Extends c) (h' : c.Extends d) : b.Extends d where
  nameHash := h'.nameHash.trans h.nameHash
  defaultState := h'.defaultState.trans h.defaultState
  parameters := h'.parameters.trans h.parameters
  subs := h'.subs.trans h.subs
  clips := h'.clips.trans h.clips
  transitions := h.transitions.trans h'.transitions
  boolTests := h.boolTests.trans h'.boolTests
  intTests := h.intTests.trans h'.intTests
  keys := h.keys.trans h'.keys
  clipStates := h.clipStates.trans h'.clipStates
  lineStates := h.lineStates.trans h'.lineStates
  lineClips := h.lineClips.trans h'.lineClips
  lineThresholds := h.lineThresholds.trans h'.lineThresholds
  lineSpeeds := h.lineSpeeds.trans h'.lineSpeeds
  planeStates := h.planeStates.trans h'.planeStates
  planeEntries := h.planeEntries.trans h'.planeEntries
  exitStates := h.exitStates.trans h'.exitStates

theorem HoldsEdge.mono {e : Draft.Edge} {x : Edge} (hc : b.Extends c) (h : b.HoldsEdge e x) :
    c.HoldsEdge e x :=
  ⟨h.target, h.duration, h.hasEndTime, h.endTime, h.offset, h.allowSelf,
    Span.slice_mono hc.boolTests h.boolTests, Span.slice_mono hc.intTests h.intTests,
    Span.slice_mono hc.keys h.curve⟩

theorem HoldsEdges.mono {es : List Draft.Edge} {s : Span} (hc : b.Extends c)
    (h : b.HoldsEdges es s) : c.HoldsEdges es s := by
  obtain ⟨xs, hxs, hes⟩ := h
  exact ⟨xs, Span.slice_mono hc.transitions hxs, hes.imp fun _ _ => HoldsEdge.mono hc⟩

theorem HoldsLine.mono {d : Parameter.Numeric × List Draft.LineEntry} {l : LineState}
    (hc : b.Extends c) (h : b.HoldsLine d l) : c.HoldsLine d l :=
  ⟨h.parameter, Span.slice_mono hc.lineClips h.clips,
    Span.slice_mono hc.lineThresholds h.thresholds,
    Span.slice_mono hc.lineSpeeds h.speeds⟩

theorem HoldsPlane.mono {d : UInt16 × UInt16 × PlaneMethod × List PlaneEntry} {p : PlaneState}
    (hc : b.Extends c) (h : b.HoldsPlane d p) : c.HoldsPlane d p :=
  ⟨h.parameterX, h.parameterY, h.method, Span.slice_mono hc.planeEntries h.clips⟩

theorem getElem?_mono {α : Type} {xs ys : Array α} (h : xs.toList <+: ys.toList) {i : Nat}
    {x : α} (hx : xs[i]? = some x) : ys[i]? = some x := by
  obtain ⟨zs, hzs⟩ := h
  rw [← Array.getElem?_toList] at hx ⊢
  rw [← hzs, List.getElem?_append_left (List.getElem?_eq_some_iff.mp hx).1]
  exact hx

theorem HoldsMotion.mono {m : Draft.Motion} {k : StateKind} {i : Nat} (hc : b.Extends c)
    (h : b.HoldsMotion m k i) : c.HoldsMotion m k i := by
  cases h with
  | clip h => exact .clip (getElem?_mono hc.clipStates h)
  | line h hl => exact .line (getElem?_mono hc.lineStates h) (hl.mono hc)
  | plane h hp => exact .plane (getElem?_mono hc.planeStates h) (hp.mono hc)

theorem HoldsState.mono {d : Draft.State} {s : State} (hc : b.Extends c) (h : b.HoldsState d s) :
    c.HoldsState d s :=
  ⟨h.motion.mono hc, h.looping, h.speed, h.speedParameter, h.transitions.mono hc, h.exitGroup,
    h.sub, h.nameHash⟩

theorem HoldsExit.mono {d : Draft.Exit} {x : Exit} (hc : b.Extends c) (h : b.HoldsExit d x) :
    c.HoldsExit d x :=
  ⟨h.sub, Span.slice_mono hc.exitStates h.states, h.transitions.mono hc⟩

end Mono

end PoseMachine.Baked
