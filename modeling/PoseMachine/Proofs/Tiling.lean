import Mathlib.Logic.ExistsUnique
import PoseMachine.Baked.Validity
import PoseMachine.Proofs.Packing

/-!
How packing lays out the pools. The spans into a pool follow one another in the order of what owns
them, without gap or overlap, so every entry of a pool belongs to exactly one owner.
-/

namespace PoseMachine.Baked

/-- Spans that follow one another, the first from `start` and the last up to `stop`. -/
def Tiles : List Span → Nat → Nat → Prop
  | [], start, stop => start = stop
  | s :: ss, start, stop => s.start.toNat = start ∧ Tiles ss s.stop stop

def Span.Covers (s : Span) (i : Nat) : Prop := s.start.toNat ≤ i ∧ i < s.stop

/-- Spans that tile a pool, each of its entries being inside exactly one of them. -/
structure Partitions (spans : List Span) (size : Nat) : Prop where
  tiles : Tiles spans 0 size
  owner : ∀ i < size, ∃! k : Nat, ∃ s, spans[k]? = some s ∧ s.Covers i

namespace Tiles

variable {ss : List Span} {s : Span} {i start stop len : Nat}

theorem concat (h : Tiles ss start s.start.toNat) : Tiles (ss ++ [s]) start s.stop := by
  induction ss generalizing start with
  | nil =>
      obtain rfl : start = s.start.toNat := h
      exact ⟨rfl, rfl⟩
  | cons t ss ih => exact ⟨h.1, ih h.2⟩

/-- A span made at the end of a pool goes on with its tiling. -/
theorem make (h : Tiles ss start stop) (hs : (Span.make stop len).outcome = .ok s) :
    Tiles (ss ++ [s]) start (stop + len) := by
  obtain ⟨rfl, rfl⟩ := Span.make_eq_ok hs
  exact h.concat

theorem le (h : Tiles ss start stop) : start ≤ stop := by
  induction ss generalizing start with
  | nil => exact Nat.le_of_eq h
  | cons s ss ih =>
      have hstart := h.1
      have hrest := ih h.2
      rw [Span.stop] at hrest
      omega

theorem le_start_of_mem (h : Tiles ss start stop) (hs : s ∈ ss) : start ≤ s.start.toNat := by
  induction ss generalizing start with
  | nil => simp at hs
  | cons t ss ih =>
      have hstart := h.1
      rcases List.mem_cons.mp hs with rfl | hs
      · omega
      · have hrest := ih h.2 hs
        rw [Span.stop] at hrest
        omega

theorem existsUnique_covers (h : Tiles ss start stop) (hstart : start ≤ i) (hstop : i < stop) :
    ∃! k : Nat, ∃ s, ss[k]? = some s ∧ s.Covers i := by
  induction ss generalizing start with
  | nil =>
      have hempty : start = stop := h
      omega
  | cons t ss ih =>
      obtain ⟨rfl, hrest⟩ := h
      by_cases hi : i < t.stop
      · refine ⟨0, ⟨t, rfl, hstart, hi⟩, ?_⟩
        rintro (_ | k) ⟨s, hs, hcovers, -⟩
        · rfl
        · -- The spans behind `t` start where it stops.
          have hle := le_start_of_mem hrest (List.mem_of_getElem? hs)
          omega
      · obtain ⟨k, hk, hunique⟩ := ih hrest (Nat.le_of_not_lt hi)
        refine ⟨k + 1, hk, ?_⟩
        rintro (_ | l) ⟨s, hs, hcovers⟩
        · obtain rfl : t = s := Option.some.inj hs
          exact absurd hcovers.2 hi
        · exact congrArg (· + 1) (hunique l ⟨s, hs, hcovers⟩)

theorem partitions {size : Nat} (h : Tiles ss 0 size) : Partitions ss size :=
  ⟨h, fun _ hi => h.existsUnique_covers (Nat.zero_le _) hi⟩

end Tiles

/-- What transitions and motions refer to is tiled by their spans. -/
structure Laid (b : Baked) : Prop where
  boolTests : Tiles (b.transitions.toList.map (·.boolTests)) 0 b.boolTests.size
  intTests : Tiles (b.transitions.toList.map (·.intTests)) 0 b.intTests.size
  keys : Tiles (b.transitions.toList.map (·.curve)) 0 b.keys.size
  lineClips : Tiles (b.lineStates.toList.map (·.clips)) 0 b.lineClips.size
  planeEntries : Tiles (b.planeStates.toList.map (·.clips)) 0 b.planeEntries.size

/-- The states of one kind refer to the entries of its array one after another. -/
def Indexed (b : Baked) : Prop :=
  ∀ k, (b.states.toList.filter (·.kind = k)).map (·.typeIndex.toNat) = List.range (b.kindSize k)

theorem size_append_list {α : Type} (xs : Array α) (l : List α) :
    (xs ++ l).size = xs.size + l.length := by
  rw [← Array.length_toList]
  simp

section Steps

variable {b c : Baked}

theorem laid_empty (nameHash defaultState : UInt32) (parameters : Parameter.Layout)
    (clips : Array Clip) (subs : Array Sub) :
    Laid { nameHash, defaultState, parameters, clips, subs } := by
  constructor <;> rfl

theorem Laid.addEdge {e : Draft.Edge} (hb : b.Laid) (h : (b.addEdge e).outcome = .ok c) :
    c.Laid := by
  simp only [Baked.addEdge, Report.outcome_bind_eq_ok, Report.outcome_pure_eq_ok] at h
  obtain ⟨bools, hbools, ints, hints, curve, hcurve, rfl⟩ := h
  refine ⟨?_, ?_, ?_, hb.lineClips, hb.planeEntries⟩
  · simpa [size_append_list] using hb.boolTests.make hbools
  · simpa [size_append_list] using hb.intTests.make hints
  · simpa [size_append_list] using hb.keys.make hcurve

/-- The span of the transitions added goes on with the tiling of their pool. -/
theorem Laid.addEdges {es : List Draft.Edge} {s : Span} {owners : List Span} (hb : b.Laid)
    (howners : Tiles owners 0 b.transitions.size) (h : (b.addEdges es).outcome = .ok (c, s)) :
    c.Laid ∧ Tiles (owners ++ [s]) 0 c.transitions.size := by
  obtain ⟨xs, hxs, -, hholds, -⟩ := addEdges_eq_ok h
  have hsize : c.transitions.size = b.transitions.size + es.length := by
    rw [hxs, hholds.length_eq]
    simp [withEdges]
  simp only [Baked.addEdges, Report.outcome_bind_eq_ok] at h
  obtain ⟨s', hs, c', hc, h⟩ := h
  obtain ⟨rfl, rfl⟩ := Prod.mk.inj (Report.outcome_pure_eq_ok.mp h)
  refine ⟨?_, ?_⟩
  · exact Report.outcome_foldlM_induction (P := fun _ c => c.Laid)
      (fun _ _ _ _ hdone hd => hdone.addEdge hd) hb hc
  · rw [hsize]
    exact howners.make hs

/-- A motion goes to the end of the array of its kind, and no other array of its sort grows. -/
theorem Laid.addMotion {m : Draft.Motion} {k : StateKind} {i : Nat} (hb : b.Laid)
    (h : (b.addMotion m).outcome = .ok (c, k, i)) :
    c.Laid ∧ i = b.kindSize k ∧
      (∀ k', c.kindSize k' = b.kindSize k' + if k = k' then 1 else 0) ∧
      c = b.withMotions c := by
  cases m with
  | clip clip =>
      simp only [Baked.addMotion, Report.outcome_pure_eq_ok, Prod.mk.injEq] at h
      obtain ⟨rfl, rfl, rfl⟩ := h
      refine ⟨⟨hb.boolTests, hb.intTests, hb.keys, hb.lineClips, hb.planeEntries⟩,
        rfl, ?_, rfl⟩
      intro k'
      cases k' <;> simp [kindSize]
  | line p es =>
      simp only [Baked.addMotion, Report.outcome_bind_eq_ok, Report.outcome_pure_eq_ok,
        Prod.mk.injEq] at h
      obtain ⟨s, hs, rfl, rfl, rfl⟩ := h
      refine ⟨⟨hb.boolTests, hb.intTests, hb.keys, ?_, hb.planeEntries⟩,
        rfl, ?_, rfl⟩
      · simpa [size_append_list] using hb.lineClips.make hs
      · intro k'
        cases k' <;> simp [kindSize]
  | plane x y method es =>
      simp only [Baked.addMotion, Report.outcome_bind_eq_ok, Report.outcome_pure_eq_ok,
        Prod.mk.injEq] at h
      obtain ⟨s, hs, rfl, rfl, rfl⟩ := h
      refine ⟨⟨hb.boolTests, hb.intTests, hb.keys, hb.lineClips, ?_⟩,
        rfl, ?_, rfl⟩
      · simpa [size_append_list] using hb.planeEntries.make hs
      · intro k'
        cases k' <;> simp [kindSize]

theorem Indexed.kindSize_le (hb : b.Indexed) (k : StateKind) : b.kindSize k ≤ b.states.size := by
  have hlength := congrArg List.length (hb k)
  rw [List.length_map, List.length_range] at hlength
  rw [← hlength, ← Array.length_toList]
  exact List.length_filter_le _ _

/-- A further state that refers to the entry behind those of its kind. -/
theorem Indexed.push (hb : b.Indexed) {s : State} (hlt : b.states.size < 4294967296)
    (hs : s.typeIndex = (b.kindSize s.kind).toUInt32) (hstates : c.states = b.states.push s)
    (hsize : ∀ k, c.kindSize k = b.kindSize k + if s.kind = k then 1 else 0) : c.Indexed := by
  intro k
  have hindex : s.typeIndex.toNat = b.kindSize s.kind := by
    rw [hs, toNat_toUInt32 (Nat.lt_of_le_of_lt (hb.kindSize_le _) hlt)]
  rw [hstates, hsize, Array.toList_push, List.filter_append, List.map_append, hb k]
  by_cases hk : s.kind = k
  · subst hk
    simp [hindex, List.range_succ]
  · simp [hk]

theorem Indexed.congr (hb : b.Indexed) (hstates : c.states = b.states)
    (hsize : ∀ k, c.kindSize k = b.kindSize k) : c.Indexed := by
  intro k
  rw [hstates, hsize, hb k]

/-- Only states have been packed, and all transitions are theirs. -/
structure StatesLaid (b : Baked) (n : Nat) : Prop where
  laid : b.Laid
  transitions : Tiles (b.states.toList.map (·.transitions)) 0 b.transitions.size
  indexed : b.Indexed
  size : b.states.size = n
  exits : b.exits = #[]
  exitStates : b.exitStates = #[]

theorem StatesLaid.addState {d : Draft.State} {n : Nat} (hb : b.StatesLaid n)
    (hlt : n < 4294967296) (h : (b.addState d).outcome = .ok c) : c.StatesLaid (n + 1) := by
  simp only [Baked.addState, Report.outcome_bind_eq_ok, Report.outcome_pure_eq_ok] at h
  obtain ⟨⟨b₁, k, i⟩, hmotion, ⟨b₂, s⟩, hedges, rfl⟩ := h
  obtain ⟨hlaid, rfl, hsize, hframe⟩ := hb.laid.addMotion hmotion
  have htransitions : b₁.transitions = b.transitions := (congrArg Baked.transitions hframe :)
  have hstates : b₁.states = b.states := (congrArg Baked.states hframe :)
  have hlaid' : Laid { b₁ with
      maxClipsPerState := max b₁.maxClipsPerState d.motion.clipCount.toUInt32 } :=
    ⟨hlaid.boolTests, hlaid.intTests, hlaid.keys, hlaid.lineClips, hlaid.planeEntries⟩
  have howners : Tiles (b.states.toList.map (·.transitions)) 0 b₁.transitions.size := by
    rw [htransitions]
    exact hb.transitions
  obtain ⟨hlaid₂, howners₂⟩ := hlaid'.addEdges howners hedges
  obtain ⟨xs, rfl, -⟩ := addEdges_eq_ok hedges
  refine ⟨⟨hlaid₂.boolTests, hlaid₂.intTests, hlaid₂.keys, hlaid₂.lineClips,
    hlaid₂.planeEntries⟩, ?_, ?_, ?_, ?_, ?_⟩
  · simpa [withEdges, hstates] using howners₂
  · -- The entry of the state stands behind those of its kind.
    refine hb.indexed.push
      (s := ⟨k, (b.kindSize k).toUInt32, d.looping, d.speed, d.speedParameter, s, d.exitGroup,
        d.sub, d.nameHash⟩) (by rw [hb.size]; exact hlt) rfl (by rw [← hstates]; rfl) ?_
    intro k'
    rw [← hsize]
    cases k' <;> rfl
  · simp [withEdges, hstates, hb.size]
  · exact (congrArg Baked.exits hframe :).trans hb.exits
  · exact (congrArg Baked.exitStates hframe :).trans hb.exitStates

theorem StatesLaid.addStates {ds : List Draft.State} (hb : b.StatesLaid 0)
    (hlt : ds.length < 4294967296) (h : (ds.foldlM Baked.addState b).outcome = .ok c) :
    c.StatesLaid ds.length := by
  have hfold := Report.outcome_foldlM_induction
    (P := fun done c => done.length < 4294967296 → c.StatesLaid done.length)
    (fun done d c c' hdone hc' hlt => by
      rw [List.length_append, List.length_singleton] at hlt ⊢
      exact (hdone (by omega)).addState (by omega) hc')
    (fun _ => hb) h
  exact hfold hlt

/-- Every pool is tiled by the spans of its owners. Transitions belong to the states, then to any
state, then to the exit groups, and the states of each kind number its array. -/
structure Tiled (b : Baked) : Prop where
  transitions : Partitions (b.states.toList.map (·.transitions) ++
    b.anyTransitions :: b.exits.toList.map (·.transitions)) b.transitions.size
  boolTests : Partitions (b.transitions.toList.map (·.boolTests)) b.boolTests.size
  intTests : Partitions (b.transitions.toList.map (·.intTests)) b.intTests.size
  keys : Partitions (b.transitions.toList.map (·.curve)) b.keys.size
  lineClips : Partitions (b.lineStates.toList.map (·.clips)) b.lineClips.size
  lineThresholds : b.lineThresholds.size = b.lineClips.size
  lineSpeeds : b.lineSpeeds.size = b.lineClips.size
  planeEntries : Partitions (b.planeStates.toList.map (·.clips)) b.planeEntries.size
  exitStates : Partitions (b.exits.toList.map (·.states)) b.exitStates.size
  indexed : b.Indexed

/-- What has been packed is tiled, the exit groups being last. -/
structure ExitsLaid (b : Baked) : Prop where
  laid : b.Laid
  transitions : Tiles (b.states.toList.map (·.transitions) ++
    b.anyTransitions :: b.exits.toList.map (·.transitions)) 0 b.transitions.size
  exitStates : Tiles (b.exits.toList.map (·.states)) 0 b.exitStates.size
  indexed : b.Indexed

theorem StatesLaid.addAny {es : List Draft.Edge} {s : Span} {n : Nat} (hb : b.StatesLaid n)
    (h : (b.addEdges es).outcome = .ok (c, s)) :
    ExitsLaid { c with anyTransitions := s } := by
  obtain ⟨hlaid, howners⟩ := hb.laid.addEdges hb.transitions h
  obtain ⟨xs, rfl, -⟩ := addEdges_eq_ok h
  refine ⟨⟨hlaid.boolTests, hlaid.intTests, hlaid.keys, hlaid.lineClips, hlaid.planeEntries⟩,
    ?_, ?_, ?_⟩
  · simpa [withEdges, hb.exits] using howners
  · simp [withEdges, hb.exits, hb.exitStates, Tiles]
  · refine hb.indexed.congr rfl fun k => ?_
    cases k <;> rfl

theorem ExitsLaid.addExit {d : Draft.Exit} (hb : b.ExitsLaid)
    (h : (b.addExit d).outcome = .ok c) : c.ExitsLaid := by
  simp only [Baked.addExit, Report.outcome_bind_eq_ok, Report.outcome_pure_eq_ok] at h
  obtain ⟨span, hspan, ⟨b₁, s⟩, hedges, rfl⟩ := h
  have hlaid : (b.withExitStates d.states).Laid :=
    ⟨hb.laid.boolTests, hb.laid.intTests, hb.laid.keys, hb.laid.lineClips, hb.laid.planeEntries⟩
  obtain ⟨hlaid₁, howners⟩ := hlaid.addEdges hb.transitions hedges
  obtain ⟨xs, rfl, -⟩ := addEdges_eq_ok hedges
  refine ⟨⟨hlaid₁.boolTests, hlaid₁.intTests, hlaid₁.keys, hlaid₁.lineClips,
    hlaid₁.planeEntries⟩, ?_, ?_, ?_⟩
  · simpa [withEdges] using howners
  · simpa [withEdges, size_append_list] using hb.exitStates.make hspan
  · refine hb.indexed.congr rfl fun k => ?_
    cases k <;> rfl

end Steps

theorem exitsLaid_of_pack {d : Draft} {b : Baked} (hlt : d.states.length < 4294967296)
    (h : d.pack.outcome = .ok b) : b.ExitsLaid := by
  simp only [Draft.pack, Report.outcome_bind_eq_ok] at h
  obtain ⟨b₁, hstates, ⟨b₂, s⟩, hany, b₃, hexits, -, -, h⟩ := h
  obtain rfl := Report.outcome_pure_eq_ok.mp h
  have hempty : StatesLaid
      { nameHash := d.nameHash
        defaultState := d.defaultState
        parameters := d.parameters
        clips := d.clips.toArray
        subs := d.subs.toArray } 0 := by
    refine ⟨laid_empty _ _ _ _ _, rfl, ?_, rfl, rfl, rfl⟩
    intro k
    cases k <;> rfl
  exact Report.outcome_foldlM_induction (P := fun _ c => c.ExitsLaid)
    (fun _ _ _ _ hdone hd => hdone.addExit hd) ((hempty.addStates hlt hstates).addAny hany) hexits

/-- Packing leaves no gap in a pool and gives no entry to two owners. -/
theorem tiled_of_pack {d : Draft} {b : Baked} (hlt : d.states.length < 4294967296)
    (h : d.pack.outcome = .ok b) : b.Tiled := by
  have hlaid := exitsLaid_of_pack hlt h
  have hmotions := (holdsDraft_of_pack hlt h).packed.motions
  exact
    { transitions := hlaid.transitions.partitions
      boolTests := hlaid.laid.boolTests.partitions
      intTests := hlaid.laid.intTests.partitions
      keys := hlaid.laid.keys.partitions
      lineClips := hlaid.laid.lineClips.partitions
      lineThresholds := hmotions.size_lineThresholds
      lineSpeeds := hmotions.size_lineSpeeds
      planeEntries := hlaid.laid.planeEntries.partitions
      exitStates := hlaid.exitStates.partitions
      indexed := hlaid.indexed }

end PoseMachine.Baked
