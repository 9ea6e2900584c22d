import PoseMachine.Bake.Pack
import PoseMachine.Proofs.Pools

/-!
What packing a draft leaves in the pools: every list of the draft, each read back in order through
the span that was made for it.
-/

namespace PoseMachine

namespace Baked

theorem append_list_assoc {α : Type} (xs : Array α) (l l' : List α) :
    xs ++ l ++ l' = xs ++ (l ++ l') :=
  Array.toList_inj.mp (by simp)

/-- The lists of transitions at the ends of their pools, the transitions themselves being `xs`. -/
def withEdges (b : Baked) (es : List Draft.Edge) (xs : Array Edge) : Baked :=
  { b with
    boolTests := b.boolTests ++ es.flatMap (·.boolTests)
    intTests := b.intTests ++ es.flatMap (·.intTests)
    keys := b.keys ++ es.flatMap (·.curve)
    transitions := b.transitions ++ xs }

section Edges

variable {b c : Baked} {es : List Draft.Edge}

theorem extends_withEdges (b : Baked) (es : List Draft.Edge) (xs : Array Edge) :
    b.Extends (b.withEdges es xs) := by
  constructor <;> simp [withEdges]

theorem withEdges_nil (b : Baked) : b.withEdges [] #[] = b := by
  simp [withEdges]

theorem withEdges_concat (b : Baked) (es : List Draft.Edge) (e : Draft.Edge) (xs : Array Edge)
    (x : Edge) : (b.withEdges es xs).withEdges [e] #[x] = b.withEdges (es ++ [e]) (xs.push x) := by
  simp [withEdges, append_list_assoc]

theorem addEdge_eq_ok {e : Draft.Edge} (h : (b.addEdge e).outcome = .ok c) :
    ∃ x, c = b.withEdges [e] #[x] ∧ c.HoldsEdge e x := by
  simp only [addEdge, Report.outcome_bind_eq_ok, Report.outcome_pure_eq_ok] at h
  obtain ⟨bools, hbools, ints, hints, curve, hcurve, rfl⟩ := h
  let x : Edge :=
    ⟨e.target, e.duration, e.hasEndTime, e.endTime, e.offset, bools, ints, curve, e.allowSelf⟩
  refine ⟨x, by simp [withEdges, x], rfl, rfl, rfl, rfl, rfl, rfl, Span.slice_make hbools,
    Span.slice_make hints, Span.slice_make hcurve⟩

theorem addEdges_eq_ok {s : Span} (h : (b.addEdges es).outcome = .ok (c, s)) :
    ∃ xs, c = b.withEdges es xs ∧ s.slice c.transitions = .ok xs ∧
      List.Forall₂ c.HoldsEdge es xs.toList ∧ c.transitions.size ≤ Span.limit := by
  simp only [addEdges, Report.outcome_bind_eq_ok] at h
  obtain ⟨s', hs, c', hc, h⟩ := h
  obtain ⟨rfl, rfl⟩ := Prod.mk.inj (Report.outcome_pure_eq_ok.mp h)
  obtain ⟨xs, hxs, hes⟩ := Report.outcome_foldlM_induction
    (P := fun done c => ∃ xs, c = b.withEdges done xs ∧ List.Forall₂ c.HoldsEdge done xs.toList)
    (fun done e c d hdone hd => by
      obtain ⟨xs, rfl, hes⟩ := hdone
      obtain ⟨x, rfl, hx⟩ := addEdge_eq_ok hd
      refine ⟨xs.push x, withEdges_concat b done e xs x, ?_⟩
      rw [Array.toList_push]
      exact List.rel_append (hes.imp fun _ _ => HoldsEdge.mono (extends_withEdges _ _ _))
        (.cons hx .nil))
    ⟨#[], (withEdges_nil b).symm, .nil⟩ hc
  have hlength : es.length = xs.toList.length := hes.length_eq
  rw [hlength] at hs
  have htransitions : c'.transitions = b.transitions ++ xs.toList :=
    Array.toList_inj.mp (by simp [hxs, withEdges])
  refine ⟨xs, hxs, ?_, hes, ?_⟩
  · rw [htransitions]
    exact Span.slice_make hs
  · rw [htransitions, ← Array.length_toList, Array.toList_appendList, List.length_append]
    exact Span.add_le_limit_of_make hs

/-- The pools of transitions hold these transitions and nothing else, and every transition has a
position of its own. -/
structure HoldsPools (b : Baked) (es : List Draft.Edge) : Prop where
  transitions : List.Forall₂ b.HoldsEdge es b.transitions.toList
  boolTests : b.boolTests.toList = es.flatMap (·.boolTests)
  intTests : b.intTests.toList = es.flatMap (·.intTests)
  keys : b.keys.toList = es.flatMap (·.curve)
  room : b.transitions.size ≤ Span.limit

theorem HoldsPools.withEdges {es' : List Draft.Edge} {xs : Array Edge} (h : b.HoldsPools es)
    (hxs : List.Forall₂ (b.withEdges es' xs).HoldsEdge es' xs.toList)
    (hroom : (b.withEdges es' xs).transitions.size ≤ Span.limit) :
    (b.withEdges es' xs).HoldsPools (es ++ es') where
  transitions := by
    have hold := h.transitions.imp fun _ _ => HoldsEdge.mono (extends_withEdges b es' xs)
    simpa [Baked.withEdges] using List.rel_append hold hxs
  boolTests := by simp [Baked.withEdges, h.boolTests]
  intTests := by simp [Baked.withEdges, h.intTests]
  keys := by simp [Baked.withEdges, h.keys]
  room := hroom

end Edges

end Baked

namespace Draft.Motion

/-- The packed form of a motion that is a clip. -/
def clip? : Motion → Option Baked.ClipState
  | .clip c => some ⟨c⟩
  | _ => none

def line? : Motion → Option (Parameter.Numeric × List LineEntry)
  | .line p es => some (p, es)
  | _ => none

def plane? : Motion → Option (UInt16 × UInt16 × PlaneMethod × List Baked.PlaneEntry)
  | .plane x y method es => some (x, y, method, es)
  | _ => none

def lineClips (m : Motion) : List LineEntry := (m.line?.map (·.2)).getD []

def planeClips (m : Motion) : List Baked.PlaneEntry := (m.plane?.map (·.2.2.2)).getD []

end Draft.Motion

namespace Baked

section Motions

variable {b c : Baked} {ms : List Draft.Motion}

/-- The arrays of all kinds hold these motions and nothing else. -/
structure HoldsMotions (b : Baked) (ms : List Draft.Motion) : Prop where
  clipStates : b.clipStates.toList = ms.filterMap (·.clip?)
  lineStates : List.Forall₂ b.HoldsLine (ms.filterMap (·.line?)) b.lineStates.toList
  lineClips : b.lineClips.toList = (ms.flatMap (·.lineClips)).map (·.clip)
  lineThresholds : b.lineThresholds.toList = (ms.flatMap (·.lineClips)).map (·.threshold)
  lineSpeeds : b.lineSpeeds.toList = (ms.flatMap (·.lineClips)).map (·.speed)
  planeStates : List.Forall₂ b.HoldsPlane (ms.filterMap (·.plane?)) b.planeStates.toList
  planeEntries : b.planeEntries.toList = ms.flatMap (·.planeClips)

/-- `b` with the motions of `c`. -/
def withMotions (b c : Baked) : Baked :=
  { b with
    clipStates := c.clipStates
    lineStates := c.lineStates
    lineClips := c.lineClips
    lineThresholds := c.lineThresholds
    lineSpeeds := c.lineSpeeds
    planeStates := c.planeStates
    planeEntries := c.planeEntries }

theorem HoldsMotions.withEdges {es : List Draft.Edge} {xs : Array Edge} (h : b.HoldsMotions ms) :
    (b.withEdges es xs).HoldsMotions ms :=
  ⟨h.clipStates, h.lineStates.imp fun _ _ => HoldsLine.mono (extends_withEdges b es xs),
    h.lineClips, h.lineThresholds, h.lineSpeeds,
    h.planeStates.imp fun _ _ => HoldsPlane.mono (extends_withEdges b es xs), h.planeEntries⟩

theorem HoldsMotions.size_lineThresholds (h : b.HoldsMotions ms) :
    b.lineThresholds.size = b.lineClips.size := by
  rw [← Array.length_toList, ← Array.length_toList, h.lineThresholds, h.lineClips]
  simp

theorem HoldsMotions.size_lineSpeeds (h : b.HoldsMotions ms) :
    b.lineSpeeds.size = b.lineClips.size := by
  rw [← Array.length_toList, ← Array.length_toList, h.lineSpeeds, h.lineClips]
  simp

/-- A motion that is a clip at the end of the array of its kind. -/
def withClip (b : Baked) (clip : UInt16) : Baked :=
  { b with clipStates := b.clipStates.push ⟨clip⟩ }

/-- A blend along one parameter at the ends of its arrays. -/
def withLine (b : Baked) (p : Parameter.Numeric) (es : List Draft.LineEntry) (s : Span) : Baked :=
  { b with
    lineClips := b.lineClips ++ es.map (·.clip)
    lineThresholds := b.lineThresholds ++ es.map (·.threshold)
    lineSpeeds := b.lineSpeeds ++ es.map (·.speed)
    lineStates := b.lineStates.push ⟨p, s⟩ }

/-- A blend over the plane at the ends of its arrays. -/
def withPlane (b : Baked) (x y : UInt16) (method : PlaneMethod) (es : List PlaneEntry) (s : Span) :
    Baked :=
  { b with
    planeEntries := b.planeEntries ++ es
    planeStates := b.planeStates.push ⟨x, y, method, s⟩ }

theorem extends_withClip (b : Baked) (clip : UInt16) : b.Extends (b.withClip clip) := by
  constructor <;> simp [withClip]

theorem extends_withLine (b : Baked) (p : Parameter.Numeric) (es : List Draft.LineEntry)
    (s : Span) : b.Extends (b.withLine p es s) := by
  constructor <;> simp [withLine]

theorem extends_withPlane (b : Baked) (x y : UInt16) (method : PlaneMethod)
    (es : List PlaneEntry) (s : Span) : b.Extends (b.withPlane x y method es s) := by
  constructor <;> simp [withPlane]

theorem HoldsMotions.withClip (h : b.HoldsMotions ms) (clip : UInt16) :
    (b.withClip clip).HoldsMotions (ms ++ [Draft.Motion.clip clip]) where
  clipStates := by simp [Baked.withClip, h.clipStates, Draft.Motion.clip?]
  lineStates := by
    simpa [Baked.withClip, Draft.Motion.line?] using
      h.lineStates.imp fun _ _ => HoldsLine.mono (extends_withClip b clip)
  lineClips := by simp [Baked.withClip, h.lineClips, Draft.Motion.lineClips, Draft.Motion.line?]
  lineThresholds := by
    simp [Baked.withClip, h.lineThresholds, Draft.Motion.lineClips, Draft.Motion.line?]
  lineSpeeds := by simp [Baked.withClip, h.lineSpeeds, Draft.Motion.lineClips, Draft.Motion.line?]
  planeStates := by
    simpa [Baked.withClip, Draft.Motion.plane?] using
      h.planeStates.imp fun _ _ => HoldsPlane.mono (extends_withClip b clip)
  planeEntries := by
    simp [Baked.withClip, h.planeEntries, Draft.Motion.planeClips, Draft.Motion.plane?]

theorem holdsLine_withLine (h : b.HoldsMotions ms) {p : Parameter.Numeric}
    {es : List Draft.LineEntry} {s : Span}
    (hs : (Span.make b.lineClips.size es.length).outcome = .ok s) :
    (b.withLine p es s).HoldsLine (p, es) ⟨p, s⟩ where
  parameter := rfl
  clips := Span.slice_make (by simpa using hs)
  thresholds := Span.slice_make (by simpa [h.size_lineThresholds] using hs)
  speeds := Span.slice_make (by simpa [h.size_lineSpeeds] using hs)

theorem HoldsMotions.withLine (h : b.HoldsMotions ms) {p : Parameter.Numeric}
    {es : List Draft.LineEntry} {s : Span}
    (hs : (Span.make b.lineClips.size es.length).outcome = .ok s) :
    (b.withLine p es s).HoldsMotions (ms ++ [.line p es]) where
  clipStates := by simp [Baked.withLine, h.clipStates, Draft.Motion.clip?]
  lineStates := by
    have hold := h.lineStates.imp fun _ _ => HoldsLine.mono (extends_withLine b p es s)
    have hnew := List.rel_append hold (.cons (holdsLine_withLine h hs) .nil)
    simpa [Baked.withLine, Draft.Motion.line?] using hnew
  lineClips := by simp [Baked.withLine, h.lineClips, Draft.Motion.lineClips, Draft.Motion.line?]
  lineThresholds := by
    simp [Baked.withLine, h.lineThresholds, Draft.Motion.lineClips, Draft.Motion.line?]
  lineSpeeds := by simp [Baked.withLine, h.lineSpeeds, Draft.Motion.lineClips, Draft.Motion.line?]
  planeStates := by
    simpa [Baked.withLine, Draft.Motion.plane?] using
      h.planeStates.imp fun _ _ => HoldsPlane.mono (extends_withLine b p es s)
  planeEntries := by
    simp [Baked.withLine, h.planeEntries, Draft.Motion.planeClips, Draft.Motion.plane?]

theorem holdsPlane_withPlane {x y : UInt16} {method : PlaneMethod} {es : List PlaneEntry}
    {s : Span} (hs : (Span.make b.planeEntries.size es.length).outcome = .ok s) :
    (b.withPlane x y method es s).HoldsPlane (x, y, method, es) ⟨x, y, method, s⟩ :=
  ⟨rfl, rfl, rfl, Span.slice_make hs⟩

theorem HoldsMotions.withPlane (h : b.HoldsMotions ms) {x y : UInt16} {method : PlaneMethod}
    {es : List PlaneEntry} {s : Span}
    (hs : (Span.make b.planeEntries.size es.length).outcome = .ok s) :
    (b.withPlane x y method es s).HoldsMotions (ms ++ [.plane x y method es]) where
  clipStates := by simp [Baked.withPlane, h.clipStates, Draft.Motion.clip?]
  lineStates := by
    simpa [Baked.withPlane, Draft.Motion.line?] using
      h.lineStates.imp fun _ _ => HoldsLine.mono (extends_withPlane b x y method es s)
  lineClips := by simp [Baked.withPlane, h.lineClips, Draft.Motion.lineClips, Draft.Motion.line?]
  lineThresholds := by
    simp [Baked.withPlane, h.lineThresholds, Draft.Motion.lineClips, Draft.Motion.line?]
  lineSpeeds := by simp [Baked.withPlane, h.lineSpeeds, Draft.Motion.lineClips, Draft.Motion.line?]
  planeStates := by
    have hold := h.planeStates.imp fun _ _ =>
      HoldsPlane.mono (extends_withPlane b x y method es s)
    have hnew := List.rel_append hold (.cons (holdsPlane_withPlane hs) .nil)
    simpa [Baked.withPlane, Draft.Motion.plane?] using hnew
  planeEntries := by
    simp [Baked.withPlane, h.planeEntries, Draft.Motion.planeClips, Draft.Motion.plane?]

theorem lt_limit_of_make {start len : Nat} {s : Span}
    (h : (Span.make start len).outcome = .ok s) : len < 4294967296 := by
  rw [← (Span.make_eq_ok h).2]
  exact s.len.toNat_lt

/-- Adding a motion touches the arrays of motions only, and puts it at the index returned. -/
theorem addMotion_eq_ok {m : Draft.Motion} {k : StateKind} {i : Nat} (hb : b.HoldsMotions ms)
    (h : (b.addMotion m).outcome = .ok (c, k, i)) :
    c = b.withMotions c ∧ b.Extends c ∧ c.HoldsMotions (ms ++ [m]) ∧ c.HoldsMotion m k i ∧
      i ≤ ms.length ∧ m.clipCount < 4294967296 := by
  cases m with
  | clip clip =>
      simp only [addMotion, Report.outcome_pure_eq_ok, Prod.mk.injEq] at h
      obtain ⟨rfl, rfl, rfl⟩ := h
      refine ⟨rfl, extends_withClip b clip, hb.withClip clip, .clip (by simp), ?_, ?_⟩
      · rw [← Array.length_toList, hb.clipStates]
        exact List.length_filterMap_le _ _
      · simp [Draft.Motion.clipCount]
  | line p es =>
      simp only [addMotion, Report.outcome_bind_eq_ok, Report.outcome_pure_eq_ok,
        Prod.mk.injEq] at h
      obtain ⟨s, hs, rfl, rfl, rfl⟩ := h
      refine ⟨rfl, extends_withLine b p es s, hb.withLine hs,
        .line (by simp) (holdsLine_withLine hb hs), ?_, lt_limit_of_make hs⟩
      rw [← Array.length_toList, ← hb.lineStates.length_eq]
      exact List.length_filterMap_le _ _
  | plane x y method es =>
      simp only [addMotion, Report.outcome_bind_eq_ok, Report.outcome_pure_eq_ok,
        Prod.mk.injEq] at h
      obtain ⟨s, hs, rfl, rfl, rfl⟩ := h
      refine ⟨rfl, extends_withPlane b x y method es s, hb.withPlane hs,
        .plane (by simp) (holdsPlane_withPlane hs), ?_, lt_limit_of_make hs⟩
      rw [← Array.length_toList, ← hb.planeStates.length_eq]
      exact List.length_filterMap_le _ _

end Motions

section Frames

variable {b c : Baked}

theorem HoldsPools.congr {es : List Draft.Edge} (h : b.HoldsPools es) (hc : b.Extends c)
    (htransitions : c.transitions = b.transitions) (hbools : c.boolTests = b.boolTests)
    (hints : c.intTests = b.intTests) (hkeys : c.keys = b.keys) : c.HoldsPools es where
  transitions := by
    rw [htransitions]
    exact h.transitions.imp fun _ _ => HoldsEdge.mono hc
  boolTests := by rw [hbools, h.boolTests]
  intTests := by rw [hints, h.intTests]
  keys := by rw [hkeys, h.keys]
  room := by rw [htransitions]; exact h.room

theorem HoldsMotions.congr {ms : List Draft.Motion} (h : b.HoldsMotions ms) (hc : b.Extends c)
    (heq : b.withMotions c = b) : c.HoldsMotions ms where
  clipStates := (congrArg (·.clipStates.toList) heq).trans h.clipStates
  lineStates := by
    rw [show c.lineStates = b.lineStates from (congrArg Baked.lineStates heq :)]
    exact h.lineStates.imp fun _ _ => HoldsLine.mono hc
  lineClips := (congrArg (·.lineClips.toList) heq).trans h.lineClips
  lineThresholds := (congrArg (·.lineThresholds.toList) heq).trans h.lineThresholds
  lineSpeeds := (congrArg (·.lineSpeeds.toList) heq).trans h.lineSpeeds
  planeStates := by
    rw [show c.planeStates = b.planeStates from (congrArg Baked.planeStates heq :)]
    exact h.planeStates.imp fun _ _ => HoldsPlane.mono hc
  planeEntries := (congrArg (·.planeEntries.toList) heq).trans h.planeEntries

end Frames

/-- A baked machine in the making: these motions, states, transitions and exit groups have been
packed, and nothing else. -/
structure Packed (b : Baked) (ms : List Draft.Motion) (ss : List Draft.State)
    (es : List Draft.Edge) (xs : List Draft.Exit) : Prop where
  pools : b.HoldsPools es
  motions : b.HoldsMotions ms
  states : List.Forall₂ b.HoldsState ss b.states.toList
  exits : List.Forall₂ b.HoldsExit xs b.exits.toList
  exitStates : b.exitStates.toList = xs.flatMap (·.states)

def withExitStates (b : Baked) (states : List UInt32) : Baked :=
  { b with exitStates := b.exitStates ++ states }

namespace Packed

variable {b c : Baked} {ms : List Draft.Motion} {ss : List Draft.State} {es : List Draft.Edge}
  {xs : List Draft.Exit}

theorem addMotion {m : Draft.Motion} {k : StateKind} {i : Nat} (hb : b.Packed ms ss es xs)
    (h : (b.addMotion m).outcome = .ok (c, k, i)) :
    c.Packed (ms ++ [m]) ss es xs ∧ b.Extends c ∧ c.HoldsMotion m k i ∧ i ≤ ms.length ∧
      m.clipCount < 4294967296 ∧ c = b.withMotions c := by
  obtain ⟨hframe, hext, hmotions, hm, hi, hcount⟩ := addMotion_eq_ok hb.motions h
  refine ⟨⟨?_, hmotions, ?_, ?_, ?_⟩, hext, hm, hi, hcount, hframe⟩
  · exact hb.pools.congr hext (congrArg Baked.transitions hframe :)
      (congrArg Baked.boolTests hframe :) (congrArg Baked.intTests hframe :)
      (congrArg Baked.keys hframe :)
  · rw [show c.states = b.states from (congrArg Baked.states hframe :)]
    exact hb.states.imp fun _ _ => HoldsState.mono hext
  · rw [show c.exits = b.exits from (congrArg Baked.exits hframe :)]
    exact hb.exits.imp fun _ _ => HoldsExit.mono hext
  · rw [show c.exitStates = b.exitStates from (congrArg Baked.exitStates hframe :)]
    exact hb.exitStates

theorem addEdges {es' : List Draft.Edge} {s : Span} (hb : b.Packed ms ss es xs)
    (h : (b.addEdges es').outcome = .ok (c, s)) :
    c.Packed ms ss (es ++ es') xs ∧ b.Extends c ∧ c.HoldsEdges es' s ∧
      ∃ ys, c = b.withEdges es' ys := by
  obtain ⟨ys, rfl, hs, hys, hroom⟩ := addEdges_eq_ok h
  have hext := extends_withEdges b es' ys
  exact ⟨⟨hb.pools.withEdges hys hroom, hb.motions.withEdges,
    hb.states.imp fun _ _ => HoldsState.mono hext, hb.exits.imp fun _ _ => HoldsExit.mono hext,
    hb.exitStates⟩, hext, ⟨ys, hs, hys⟩, ys, rfl⟩

theorem withCounts (hb : b.Packed ms ss es xs) (n : UInt32) (s : Span) :
    { b with maxClipsPerState := n, anyTransitions := s }.Packed ms ss es xs ∧
      b.Extends { b with maxClipsPerState := n, anyTransitions := s } := by
  have hext : b.Extends { b with maxClipsPerState := n, anyTransitions := s } := by
    constructor <;> rfl
  exact ⟨⟨hb.pools.congr hext rfl rfl rfl rfl, hb.motions.congr hext rfl,
    hb.states.imp fun _ _ => HoldsState.mono hext, hb.exits.imp fun _ _ => HoldsExit.mono hext,
    hb.exitStates⟩, hext⟩

theorem pushState {d : Draft.State} {s : State} (hb : b.Packed ms ss es xs)
    (hs : b.HoldsState d s) :
    { b with states := b.states.push s }.Packed ms (ss ++ [d]) es xs ∧
      b.Extends { b with states := b.states.push s } := by
  have hext : b.Extends { b with states := b.states.push s } := by
    constructor <;> rfl
  refine ⟨⟨hb.pools.congr hext rfl rfl rfl rfl, hb.motions.congr hext rfl, ?_,
    hb.exits.imp fun _ _ => HoldsExit.mono hext, hb.exitStates⟩, hext⟩
  rw [Array.toList_push]
  exact List.rel_append (hb.states.imp fun _ _ => HoldsState.mono hext) (.cons (hs.mono hext) .nil)

theorem addState {d : Draft.State} (hb : b.Packed ms ss es xs) (hlt : ms.length < 4294967296)
    (h : (b.addState d).outcome = .ok c) :
    c.Packed (ms ++ [d.motion]) (ss ++ [d]) (es ++ d.transitions) xs ∧ b.Extends c ∧
      c.anyTransitions = b.anyTransitions ∧
      c.maxClipsPerState.toNat = max b.maxClipsPerState.toNat d.motion.clipCount := by
  simp only [Baked.addState, Report.outcome_bind_eq_ok, Report.outcome_pure_eq_ok] at h
  obtain ⟨⟨b₁, k, i⟩, hmotion, ⟨b₂, s⟩, hedges, rfl⟩ := h
  obtain ⟨hb₁, hext₁, hm, hi, hcount, hframe⟩ := hb.addMotion hmotion
  obtain ⟨hb₁, hext⟩ := hb₁.withCounts (max b₁.maxClipsPerState d.motion.clipCount.toUInt32)
    b₁.anyTransitions
  obtain ⟨hb₂, hext₂, hs, ys, rfl⟩ := hb₁.addEdges hedges
  have hindex : i.toUInt32.toNat = i := toNat_toUInt32 (by omega)
  have hstate : HoldsState (Baked.withEdges _ d.transitions ys) d
      ⟨k, i.toUInt32, d.looping, d.speed, d.speedParameter, s, d.exitGroup, d.sub, d.nameHash⟩ :=
    ⟨by rw [hindex]; exact (hm.mono hext).mono hext₂, rfl, rfl, rfl, hs, rfl, rfl, rfl⟩
  obtain ⟨hb₃, hext₃⟩ := hb₂.pushState hstate
  refine ⟨hb₃, hext₁.trans (hext.trans (hext₂.trans hext₃)),
    (congrArg Baked.anyTransitions hframe :), ?_⟩
  have hmax : b₁.maxClipsPerState = b.maxClipsPerState :=
    (congrArg Baked.maxClipsPerState hframe :)
  have hclips : d.motion.clipCount.toUInt32.toNat = d.motion.clipCount := toNat_toUInt32 hcount
  exact (toNat_max _ _).trans (by rw [hmax, hclips])

theorem addStates {ds : List Draft.State} (hb : b.Packed [] [] [] [])
    (hmax : b.maxClipsPerState = 0) (hlt : ds.length < 4294967296)
    (h : (ds.foldlM Baked.addState b).outcome = .ok c) :
    c.Packed (ds.map (·.motion)) ds (ds.flatMap (·.transitions)) [] ∧ b.Extends c ∧
      c.maxClipsPerState.toNat = (ds.map (·.motion.clipCount)).foldl max 0 := by
  have hfold := Report.outcome_foldlM_induction
    (P := fun done c => done.length < 4294967296 →
      c.Packed (done.map (·.motion)) done (done.flatMap (·.transitions)) [] ∧ b.Extends c ∧
        c.maxClipsPerState.toNat = (done.map (·.motion.clipCount)).foldl max 0)
    (fun done d c c' hdone hc' hlt => by
      have hlt' : done.length < 4294967296 := by
        rw [List.length_append] at hlt
        omega
      obtain ⟨hc, hext, hcount⟩ := hdone hlt'
      obtain ⟨hc'', hext', -, hcount'⟩ := hc.addState (by simpa using hlt') hc'
      refine ⟨by simpa using hc'', hext.trans hext', ?_⟩
      rw [hcount', hcount, List.map_append, List.foldl_append]
      rfl)
    (fun _ => ⟨hb, Extends.refl b, by simp [hmax]⟩) h
  exact hfold hlt

theorem addExit {d : Draft.Exit} (hb : b.Packed ms ss es xs)
    (h : (b.addExit d).outcome = .ok c) :
    c.Packed ms ss (es ++ d.transitions) (xs ++ [d]) ∧ b.Extends c ∧
      c.anyTransitions = b.anyTransitions ∧ c.maxClipsPerState = b.maxClipsPerState := by
  simp only [Baked.addExit, Report.outcome_bind_eq_ok, Report.outcome_pure_eq_ok] at h
  obtain ⟨span, hspan, ⟨b₁, s⟩, hedges, rfl⟩ := h
  obtain ⟨ys, rfl, hs, hys, hroom⟩ := addEdges_eq_ok hedges
  have hext₁ : b.Extends (b.withExitStates d.states) := by
    constructor <;> simp [withExitStates]
  have hext₂ := extends_withEdges (b.withExitStates d.states) d.transitions ys
  have hext₃ : ((b.withExitStates d.states).withEdges d.transitions ys).Extends
      { (b.withExitStates d.states).withEdges d.transitions ys with
        exits := b.exits.push ⟨d.sub, span, s⟩ } := by
    constructor <;> rfl
  have hext := hext₁.trans (hext₂.trans hext₃)
  have hexit : ((b.withExitStates d.states).withEdges d.transitions ys).HoldsExit d
      ⟨d.sub, span, s⟩ :=
    ⟨rfl, Span.slice_make hspan, ys, hs, hys⟩
  refine ⟨⟨?_, ?_, ?_, ?_, ?_⟩, hext, rfl, rfl⟩
  · have hpools := (hb.pools.congr hext₁ rfl rfl rfl rfl).withEdges hys hroom
    exact hpools.congr hext₃ rfl rfl rfl rfl
  · exact (hb.motions.congr hext₁ rfl).withEdges.congr hext₃ rfl
  · exact hb.states.imp fun _ _ => HoldsState.mono hext
  · rw [Array.toList_push]
    exact List.rel_append (hb.exits.imp fun _ _ => HoldsExit.mono hext)
      (.cons (hexit.mono hext₃) .nil)
  · simp [Baked.withEdges, hb.exitStates]

theorem addExits {ds : List Draft.Exit} (hb : b.Packed ms ss es [])
    (h : (ds.foldlM Baked.addExit b).outcome = .ok c) :
    c.Packed ms ss (es ++ ds.flatMap (·.transitions)) ds ∧ b.Extends c ∧
      c.anyTransitions = b.anyTransitions ∧ c.maxClipsPerState = b.maxClipsPerState := by
  refine Report.outcome_foldlM_induction
    (P := fun done c => c.Packed ms ss (es ++ done.flatMap (·.transitions)) done ∧ b.Extends c ∧
      c.anyTransitions = b.anyTransitions ∧ c.maxClipsPerState = b.maxClipsPerState)
    ?_ ⟨by simpa using hb, Extends.refl b, rfl, rfl⟩ h
  rintro done d c c' ⟨hc, hext, hany, hmax⟩ hc'
  obtain ⟨hpacked, hext', hany', hmax'⟩ := hc.addExit hc'
  exact ⟨by simpa using hpacked, hext.trans hext', hany'.trans hany, hmax'.trans hmax⟩

end Packed

/-- A baked machine and the draft it was packed from. -/
structure HoldsDraft (b : Baked) (d : Draft) : Prop where
  packed : b.Packed (d.states.map (·.motion)) d.states d.edges d.exits
  anyTransitions : b.HoldsEdges d.anyTransitions b.anyTransitions
  maxClips : b.maxClipsPerState.toNat = (d.states.map (·.motion.clipCount)).foldl max 0
  nameHash : b.nameHash = d.nameHash
  defaultState : b.defaultState = d.defaultState
  parameters : b.parameters = d.parameters
  subs : b.subs = d.subs.toArray
  clips : b.clips = d.clips.toArray

theorem packed_empty (nameHash defaultState : UInt32) (parameters : Parameter.Layout)
    (clips : Array Clip) (subs : Array Sub) :
    Packed { nameHash, defaultState, parameters, clips, subs } [] [] [] [] :=
  ⟨⟨.nil, rfl, rfl, rfl, Nat.zero_le _⟩, ⟨rfl, .nil, rfl, rfl, rfl, .nil, rfl⟩, .nil, .nil, rfl⟩

theorem holdsDraft_of_pack {d : Draft} {b : Baked} (hlt : d.states.length < 4294967296)
    (h : d.pack.outcome = .ok b) : b.HoldsDraft d := by
  simp only [Draft.pack, Report.outcome_bind_eq_ok] at h
  obtain ⟨b₁, hstates, ⟨b₂, s⟩, hany, b₃, hexits, -, -, h⟩ := h
  obtain rfl := Report.outcome_pure_eq_ok.mp h
  obtain ⟨hb₁, hext₁, hmax₁⟩ := (packed_empty _ _ _ _ _).addStates rfl hlt hstates
  obtain ⟨hb₂, hext₂, hs, ys, rfl⟩ := hb₁.addEdges hany
  obtain ⟨hb₂', hext⟩ :=
    hb₂.withCounts (b₁.withEdges d.anyTransitions ys).maxClipsPerState s
  obtain ⟨hb₃, hext₃, hany₃, hmax₃⟩ := hb₂'.addExits hexits
  have hall := hext₁.trans (hext₂.trans (hext.trans hext₃))
  refine ⟨hb₃, ?_, ?_, hall.nameHash, hall.defaultState, hall.parameters, hall.subs, hall.clips⟩
  · rw [hany₃]
    exact (hs.mono hext).mono hext₃
  · rw [hmax₃]
    exact hmax₁

end Baked

end PoseMachine
