import PoseMachine.Proofs.Packing
import PoseMachine.Proofs.SmallBakes
import PoseMachine.Proofs.Validity

/-!
A bake that ends well yields a machine in which every stored index is in range, and which tells how
many clips its states play at most.
-/

namespace PoseMachine

namespace Baked

theorem ordered_of_pairwise {ts : List Single.Pattern}
    (h : ts.Pairwise fun a b => a.le b = true) : ordered ts = true := by
  induction h with
  | nil => rfl
  | @cons a ts ha hts ih =>
      cases ts with
      | nil => rfl
      | cons b ts =>
          have hab := Single.Pattern.not_gt_of_le (ha b (by simp))
          simp only [ordered, List.tail_cons, List.zip_cons_cons, List.all_cons,
            Bool.and_eq_true] at ih ⊢
          exact ⟨by simpa using hab, ih⟩

namespace HoldsDraft

variable {b : Baked} {d : Draft}

theorem size_states (h : b.HoldsDraft d) : b.states.size = d.states.length := by
  simpa using h.packed.states.length_eq.symm

theorem size_exits (h : b.HoldsDraft d) : b.exits.size = d.exits.length := by
  simpa using h.packed.exits.length_eq.symm

theorem size_subs (h : b.HoldsDraft d) : b.subs.size = d.subs.length := by
  simp [h.subs]

theorem typeIndex_lt {m : Draft.Motion} {k : StateKind} {i : Nat} (h : b.HoldsMotion m k i) :
    i < b.kindSize k := by
  cases h with
  | clip h => exact (Array.getElem?_eq_some_iff.mp h).1
  | line h _ => exact (Array.getElem?_eq_some_iff.mp h).1
  | plane h _ => exact (Array.getElem?_eq_some_iff.mp h).1

theorem stop_le_of_holdsEdges {es : List Draft.Edge} {s : Span} (h : b.HoldsEdges es s) :
    s.stop ≤ b.transitions.size := by
  obtain ⟨xs, hxs, -⟩ := h
  exact Span.stop_le_of_slice hxs

theorem validState (h : b.HoldsDraft d) (hd : d.InRange) (hsubs : d.subs.length < 0x80000000)
    {s : State} (hs : s ∈ b.states) : b.ValidState s := by
  obtain ⟨x, hx, hholds⟩ := exists_related_of_mem_right h.packed.states (Array.mem_def.mp hs)
  obtain ⟨-, hspeed, hexit, hsub⟩ := hd.states x hx
  constructor
  case typeIndex => exact typeIndex_lt hholds.motion
  case transitions => exact stop_le_of_holdsEdges hholds.transitions
  case exitGroup =>
    rw [hholds.exitGroup, h.size_exits]
    exact lt_int32OfNat (Nat.lt_of_le_of_lt hd.exits_le hsubs) hexit
  case sub =>
    rw [hholds.sub, h.size_subs]
    exact lt_int32OfNat hsubs hsub
  case speedParameter =>
    rw [hholds.speedParameter, h.parameters]
    exact hspeed

theorem exists_of_mem_filterMap {β : Type} {f : Draft.Motion → Option β} {y : β}
    (hy : y ∈ (d.states.map (·.motion)).filterMap f) (hd : d.InRange) :
    ∃ m, f m = some y ∧ m.InRange d.parameters d.clips.length := by
  obtain ⟨m, hm, hfm⟩ := List.mem_filterMap.mp hy
  obtain ⟨s, hs, rfl⟩ := List.mem_map.mp hm
  exact ⟨s.motion, hfm, (hd.states s hs).motion⟩

theorem validClip (h : b.HoldsDraft d) (hd : d.InRange) {s : ClipState} (hs : s ∈ b.clipStates) :
    s.clip.toNat < b.clips.size := by
  rw [Array.mem_def, h.packed.motions.clipStates] at hs
  obtain ⟨m, hm, hrange⟩ := exists_of_mem_filterMap hs hd
  cases m with
  | clip c =>
      obtain rfl := Option.some.inj hm
      rw [h.clips]
      exact hrange
  | line p es => simp [Draft.Motion.clip?] at hm
  | plane x y method es => simp [Draft.Motion.clip?] at hm

theorem validLine (h : b.HoldsDraft d) (hd : d.InRange) {l : LineState} (hl : l ∈ b.lineStates) :
    b.ValidLine l := by
  obtain ⟨⟨p, es⟩, hx, hholds⟩ :=
    exists_related_of_mem_right h.packed.motions.lineStates (Array.mem_def.mp hl)
  obtain ⟨m, hm, hrange⟩ := exists_of_mem_filterMap hx hd
  cases m with
  | clip c => simp [Draft.Motion.line?] at hm
  | plane x y method es => simp [Draft.Motion.line?] at hm
  | line p' es' =>
      obtain ⟨rfl, rfl⟩ := Prod.mk.inj (Option.some.inj hm)
      obtain ⟨⟨hkind, hindex⟩, hclips, hordered⟩ := hrange
      constructor
      case clips => exact Span.stop_le_of_slice hholds.clips
      case thresholds => exact h.packed.motions.size_lineThresholds
      case speeds => exact h.packed.motions.size_lineSpeeds
      case parameter =>
        rw [hholds.parameter, hasNumeric, h.parameters]
        simp only
        cases hk : p'.kind with
        | bool => exact absurd hk hkind
        | int => simpa [hk, Parameter.Layout.sizeOf] using hindex
        | float => simpa [hk, Parameter.Layout.sizeOf] using hindex
      case clip =>
        rw [Span.extract_eq_of_slice hholds.clips, h.clips]
        simpa using hclips
      case ordered =>
        rw [Span.extract_eq_of_slice hholds.thresholds]
        exact ordered_of_pairwise (List.pairwise_map.mpr hordered)

theorem validPlane (h : b.HoldsDraft d) (hd : d.InRange) {p : PlaneState}
    (hp : p ∈ b.planeStates) : b.ValidPlane p := by
  obtain ⟨⟨x, y, method, es⟩, hx, hholds⟩ :=
    exists_related_of_mem_right h.packed.motions.planeStates (Array.mem_def.mp hp)
  obtain ⟨m, hm, hrange⟩ := exists_of_mem_filterMap hx hd
  cases m with
  | clip c => simp [Draft.Motion.plane?] at hm
  | line p es => simp [Draft.Motion.plane?] at hm
  | plane x' y' method' es' =>
      simp only [Draft.Motion.plane?, Option.some.injEq, Prod.mk.injEq] at hm
      obtain ⟨rfl, rfl, rfl, rfl⟩ := hm
      obtain ⟨hx, hy, hclips⟩ := hrange
      constructor
      case clips => exact Span.stop_le_of_slice hholds.clips
      case parameterX =>
        rw [hholds.parameterX, h.parameters]
        exact hx
      case parameterY =>
        rw [hholds.parameterY, h.parameters]
        exact hy
      case clip =>
        rw [Span.extract_eq_of_slice hholds.clips, h.clips]
        simpa using hclips

theorem validEdge (h : b.HoldsDraft d) (hd : d.InRange) {e : Edge} (he : e ∈ b.transitions) :
    b.ValidEdge e := by
  obtain ⟨x, hx, hholds⟩ :=
    exists_related_of_mem_right h.packed.pools.transitions (Array.mem_def.mp he)
  refine ⟨?_, Span.stop_le_of_slice hholds.boolTests, Span.stop_le_of_slice hholds.intTests,
    Span.stop_le_of_slice hholds.curve⟩
  rw [hholds.target, h.size_states]
  exact (hd.edges x hx).target

theorem validExit (h : b.HoldsDraft d) (hd : d.InRange) {e : Exit} (he : e ∈ b.exits) :
    b.ValidExit e := by
  obtain ⟨x, hx, hholds⟩ := exists_related_of_mem_right h.packed.exits (Array.mem_def.mp he)
  refine ⟨Span.stop_le_of_slice hholds.states, stop_le_of_holdsEdges hholds.transitions, ?_⟩
  rw [hholds.sub, h.size_subs]
  exact (hd.exits x hx).1

/-- Packing a draft in range leaves every stored index in range. -/
theorem valid (h : b.HoldsDraft d) (hd : d.InRange) (hsubs : d.subs.length < 0x80000000) :
    b.Valid := by
  constructor
  case defaultState =>
    rw [h.defaultState, h.size_states]
    by_cases hempty : d.states = []
    · left
      rw [← Array.size_eq_zero_iff, h.size_states, hempty]
      rfl
    · exact .inr (hd.defaultState hempty)
  case states => exact fun s hs => h.validState hd hsubs hs
  case clipStates => exact fun s hs => h.validClip hd hs
  case lineStates => exact fun l hl => h.validLine hd hl
  case planeStates => exact fun p hp => h.validPlane hd hp
  case anyTransitions => exact stop_le_of_holdsEdges h.anyTransitions
  case transitions => exact fun e he => h.validEdge hd he
  case boolTests =>
    intro x hx
    rw [Array.mem_def, h.packed.pools.boolTests, List.mem_flatMap] at hx
    obtain ⟨e, he, hx⟩ := hx
    rw [h.parameters]
    exact (hd.edges e he).boolTests x hx
  case intTests =>
    intro x hx
    rw [Array.mem_def, h.packed.pools.intTests, List.mem_flatMap] at hx
    obtain ⟨e, he, hx⟩ := hx
    rw [h.parameters]
    exact (hd.edges e he).intTests x hx
  case exits => exact fun e he => h.validExit hd he
  case exitStates =>
    intro i hi
    rw [Array.mem_def, h.packed.exitStates, List.mem_flatMap] at hi
    obtain ⟨e, he, hi⟩ := hi
    rw [h.size_states]
    exact (hd.exits e he).2 i hi
  case subs =>
    intro i s hs
    rw [h.subs, List.getElem?_toArray] at hs
    obtain ⟨hparent, hentry⟩ := hd.subs i s hs
    have hi := (List.getElem?_eq_some_iff.mp hs).1
    refine ⟨lt_int32OfNat (Nat.lt_trans hi hsubs) hparent, ?_⟩
    rw [h.size_states]
    exact hentry

theorem clipCount_of_holdsState {x : Draft.State} {s : State} (h : b.HoldsState x s) :
    b.clipCount s = .ok x.motion.clipCount := by
  have hmotion := h.motion
  generalize hk : s.kind = k at hmotion
  generalize x.motion = m at hmotion ⊢
  cases hmotion with
  | clip _ => simp [clipCount, hk, Draft.Motion.clipCount]
  | line hl hholds =>
      rw [clipCount_line hk hl, ← Span.size_slice hholds.clips]
      simp [Draft.Motion.clipCount]
  | plane hp hholds =>
      rw [clipCount_plane hk hp, ← Span.size_slice hholds.clips]
      simp [Draft.Motion.clipCount]

/-- The largest number of clips of one state is what the machine says it is. -/
theorem maxClips_eq (h : b.HoldsDraft d) : ∃ counts,
    b.states.toList.mapM b.clipCount = .ok counts ∧
      b.maxClipsPerState.toNat = counts.max?.getD 0 := by
  refine ⟨d.states.map (·.motion.clipCount), ?_, ?_⟩
  · rw [mapM_eq_ok_iff, List.forall₂_map_right_iff]
    exact h.packed.states.flip.imp fun _ _ => clipCount_of_holdsState
  · rw [h.maxClips, List.foldl_max, Nat.zero_max]

end HoldsDraft

end Baked

namespace Machine

variable {m : Machine} {ps : List Parameter} {cfg : Config} {b : Baked}

/-- What a bake goes through on its way. -/
theorem bakeWith_eq_ok (h : (m.bakeWith ps cfg).outcome = .ok b) : ∃ t f d,
    (Parameter.Table.build ps).outcome = .ok t ∧ (Flat.ofMachine m cfg).outcome = .ok f ∧
      (Draft.ofFlat f t).outcome = .ok d ∧ d.pack.outcome = .ok b := by
  simp only [bakeWith, Report.outcome_bind_eq_ok] at h
  obtain ⟨t, ht, f, hf, d, hd, hb⟩ := h
  exact ⟨t, f, d, ht, hf, hd, hb⟩

/-- A baked machine holds the draft of its flattened graph. -/
theorem holdsDraft_of_bakeWith (hleaves : m.leafCount < 0x80000000)
    (h : (m.bakeWith ps cfg).outcome = .ok b) : ∃ t f d,
    (Parameter.Table.build ps).outcome = .ok t ∧ (Flat.ofMachine m cfg).outcome = .ok f ∧
      f.Sound ∧ f.Flattens m ∧ d.Renders f t ∧ b.HoldsDraft d := by
  obtain ⟨t, f, d, ht, hf, hd, hb⟩ := bakeWith_eq_ok h
  obtain ⟨hsound, hflattens, -⟩ := Flat.ofMachine_sound hf
  have hrenders := Draft.renders_of_ofFlat hsound hd
  have hlength : d.states.length = m.leafCount := by
    rw [hrenders.length_states, hflattens.size_leaves]
  exact ⟨t, f, d, ht, hf, hsound, hflattens, hrenders, Baked.holdsDraft_of_pack (by omega) hb⟩

/-- A bake that ends well leaves no index out of range. -/
theorem valid_of_bakeWith (hleaves : m.leafCount < 0x80000000) (hsubs : m.subCount < 0x80000000)
    (h : (m.bakeWith ps cfg).outcome = .ok b) : b.Valid := by
  obtain ⟨t, f, d, ht, -, hsound, hflattens, hrenders, hholds⟩ := holdsDraft_of_bakeWith hleaves h
  have hlength : d.subs.length = m.subCount := hrenders.length_subs.trans hflattens.size_subs
  exact hholds.valid (hrenders.inRange hsound (Parameter.Table.coherent_of_build ht)) (by omega)

/-- A bake that ends well knows the largest number of clips of one state. -/
theorem maxClips_of_bakeWith (hleaves : m.leafCount < 0x80000000)
    (h : (m.bakeWith ps cfg).outcome = .ok b) : ∃ counts,
    b.states.toList.mapM b.clipCount = .ok counts ∧
      b.maxClipsPerState.toNat = counts.max?.getD 0 := by
  obtain ⟨t, f, d, -, -, -, -, -, hholds⟩ := holdsDraft_of_bakeWith hleaves h
  exact hholds.maxClips_eq

/-- A machine around a nested one, whose only leaf is left through its exit. -/
def hopping : Machine where
  name := "hopping"
  states :=
    [.container { id := 2, name := "air" }
      { entry := some 3
        exitStates := [3]
        exitTransitions := [{ target := 2, boolConditions := [⟨"grounded", true⟩] }] }
      (some { name := "air", states := [.leaf { id := 3, name := "hop" } (.clip ⟨"hop", 1⟩)] })]
  anyTransitions := [{ transition := { target := 2, curve := some .easeInOut } }]

theorem exists_bakeWith_hopping :
    ∃ b, (hopping.bakeWith [⟨"grounded", .bool true⟩] {}).outcome = .ok b := by
  open SmallBakes in
  simp [hopping, -String.reduceAppend]
  exact ⟨_, rfl⟩

/-- Whatever the authored graph looks like, a bake that ends well leaves no index out of range, and
the largest number of clips of one state is what it says. -/
theorem no_defect_of_bakeWith (hleaves : m.leafCount < 0x80000000)
    (hsubs : m.subCount < 0x80000000) (h : (m.bakeWith ps cfg).outcome = .ok b) :
    b.defect? = none ∧ ∃ counts, b.states.toList.mapM b.clipCount = .ok counts ∧
      b.maxClipsPerState.toNat = counts.max?.getD 0 :=
  ⟨Baked.defect?_eq_none_iff.mpr (valid_of_bakeWith hleaves hsubs h),
    maxClips_of_bakeWith hleaves h⟩

theorem no_defect_of_bakeWith_hopping : ∃ b,
    (hopping.bakeWith [⟨"grounded", .bool true⟩] {}).outcome = .ok b ∧ b.defect? = none ∧
      ∃ counts, b.states.toList.mapM b.clipCount = .ok counts ∧
        b.maxClipsPerState.toNat = counts.max?.getD 0 := by
  obtain ⟨b, hb⟩ := exists_bakeWith_hopping
  exact ⟨b, hb, no_defect_of_bakeWith (by decide) (by decide) hb⟩

end Machine

end PoseMachine
