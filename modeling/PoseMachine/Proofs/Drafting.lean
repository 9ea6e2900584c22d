import PoseMachine.Bake.Draft
import PoseMachine.Proofs.Casts
import PoseMachine.Proofs.Flattening
import PoseMachine.Proofs.Parameters
import PoseMachine.Proofs.Patterns

/-!
What a draft says of the graph it was drawn from: each transition, motion and exit group in place,
its names resolved by the parameter table and its references by the flattened graph, so that every
index it holds is in range.
-/

namespace PoseMachine

open Parameter (Table)

namespace Draft

structure RendersBool (t : Table) (c : BoolCondition) (x : Baked.BoolTest) : Prop where
  parameter : t.Finds c.parameter .bool x.parameter
  value : x.value = c.value

structure RendersInt (t : Table) (c : IntCondition) (x : Baked.IntTest) : Prop where
  parameter : t.Finds c.parameter .int x.parameter
  comparator : x.comparator = c.comparator
  value : x.value = c.value

namespace Edge

/-- The draft of an authored transition. -/
structure Renders (f : Flat) (t : Table) (allowSelf : Bool) (a : Transition) (e : Edge) :
    Prop where
  target : ∃ i, (f.resolveTarget a.target).outcome = .ok i ∧ e.target = i.toUInt32
  boolTests : List.Forall₂ (RendersBool t) a.boolConditions e.boolTests
  intTests : List.Forall₂ (RendersInt t) a.intConditions e.intTests
  duration : e.duration = Single.positivePart a.duration
  hasEndTime : e.hasEndTime = a.endTime.isSome
  endTime : e.endTime = a.endTime.getD 0
  offset : e.offset = a.offset
  allowSelf : e.allowSelf = allowSelf
  curve : e.curve = (a.curve.map Curve.pack).getD []

variable {f : Flat} {t : Table} {context : String} {allowSelf : Bool}

theorem renders_of_ofResolved {a : Transition} {r : Flat.Resolved} {e : Edge}
    (hr : f.Resolves a r) (h : (ofResolved t context allowSelf r).outcome = .ok e) :
    e.Renders f t allowSelf a := by
  obtain ⟨rfl, hleaf⟩ := hr
  simp only [ofResolved, Report.outcome_bind_eq_ok, Report.outcome_mapM_eq_ok,
    Report.outcome_pure_eq_ok, Table.resolve_eq_ok] at h
  obtain ⟨bools, hbools, ints, hints, rfl⟩ := h
  refine ⟨⟨r.leaf, hleaf, rfl⟩, hbools.imp ?_, hints.imp ?_, rfl, rfl, rfl, rfl, rfl, rfl⟩
  · rintro c x ⟨i, hi, rfl⟩
    exact ⟨hi, rfl⟩
  · rintro c x ⟨i, hi, rfl⟩
    exact ⟨hi, rfl, rfl⟩

theorem renders_of_resolveTransitions {ts : List Transition} {rs : List Flat.Resolved}
    {es : List Edge} (hrs : List.Forall₂ f.Resolves ts rs)
    (h : (rs.mapM (ofResolved t context allowSelf)).outcome = .ok es) :
    List.Forall₂ (fun a e => Renders f t allowSelf a e) ts es :=
  related_trans hrs (Report.outcome_mapM_eq_ok.mp h) fun _ _ _ hr he => renders_of_ofResolved hr he

end Edge

/-- The draft of an authored motion whose clips start at `offset`. -/
inductive Motion.Renders (t : Table) (offset : Nat) : PoseMachine.Motion → Motion → Prop where
  | clip (c : Clip) : Renders t offset (.clip c) (.clip offset.toUInt16)
  | line {name : String} {p : Parameter.Numeric} (clips : List LineClip) (hkind : p.kind ≠ .bool)
      (hfind : t.Finds name p.kind p.index) :
      Renders t offset (.line name clips) (.line p (lineEntries offset clips))
  | plane {nameX nameY : String} {x y : UInt16} (method : PlaneMethod) (clips : List PlaneClip)
      (hx : t.Finds nameX .float x)
      (hy : t.Finds nameY .float y) :
      Renders t offset (.plane nameX nameY method clips)
        (.plane x y method (planeEntries offset clips))

theorem Motion.renders_of_ofAuthored {t : Table} {context : String} {offset : Nat}
    {m : PoseMachine.Motion} {d : Motion} (h : (ofAuthored t context offset m).outcome = .ok d) :
    Renders t offset m d := by
  cases m with
  | clip c =>
      obtain rfl := Report.outcome_pure_eq_ok.mp h
      exact .clip c
  | line name clips =>
      simp only [ofAuthored, Report.outcome_bind_eq_ok, Report.outcome_pure_eq_ok] at h
      obtain ⟨p, hp, rfl⟩ := h
      obtain ⟨hkind, hfind⟩ := Table.resolveNumeric_eq_ok hp
      exact .line clips hkind hfind
  | plane nameX nameY method clips =>
      simp only [ofAuthored, Report.outcome_bind_eq_ok, Report.outcome_pure_eq_ok,
        Table.resolve_eq_ok] at h
      obtain ⟨x, hx, y, hy, rfl⟩ := h
      exact .plane method clips hx hy

structure State.Renders (f : Flat) (t : Table) (l : Flat.Leaf) (s : State) : Prop where
  motion : Motion.Renders t l.clipOffset l.motion s.motion
  looping : s.looping = l.node.looping
  speed : s.speed = l.node.speed
  speedParameter : Option.Rel (t.Finds · .float ·) l.node.speedParameter s.speedParameter
  transitions : List.Forall₂ (fun a e => Edge.Renders f t false a e) l.node.transitions
    s.transitions
  exitGroup : s.exitGroup = optionalIndex l.exitGroup
  sub : s.sub = optionalIndex l.parent
  nameHash : s.nameHash = PoseMachine.nameHash l.node.name

theorem State.renders_of_ofLeaf {f : Flat} {t : Table} {l : Flat.Leaf} {s : State}
    (h : (ofLeaf f t l).outcome = .ok s) : State.Renders f t l s := by
  simp only [ofLeaf, Report.outcome_bind_eq_ok, Report.outcome_optionMapM_eq_ok,
    Flat.resolveTransitions_eq_ok, Table.resolve_eq_ok] at h
  obtain ⟨speedParameter, hspeed, motion, hmotion, -, -, -, -, rs, hrs, es, hes, h⟩ := h
  obtain rfl := Report.outcome_pure_eq_ok.mp h
  exact ⟨Motion.renders_of_ofAuthored hmotion, rfl, rfl, hspeed,
    Edge.renders_of_resolveTransitions hrs hes, rfl, rfl, rfl⟩

/-- The draft of an exit group, with the exit transitions of its machine. -/
structure Exit.Renders (f : Flat) (t : Table) (g : Flat.ExitGroup) (e : Exit) : Prop where
  sub : e.sub = g.sub.toUInt32
  states : e.states = g.leaves.map (·.toUInt32)
  transitions : ∃ s, f.subs[g.sub]? = some s ∧
    List.Forall₂ (fun a e => Edge.Renders f t false a e) s.border.exitTransitions e.transitions

theorem Exit.renders_of_ofGroup {f : Flat} {t : Table} {g : Flat.ExitGroup} {e : Exit}
    (hg : g.Sound f) (h : (ofGroup f t g).outcome = .ok e) : Exit.Renders f t g e := by
  simp only [ofGroup, Report.outcome_bind_eq_ok, Report.outcome_pure_eq_ok] at h
  obtain ⟨es, hes, rfl⟩ := h
  obtain ⟨s, hs, hrs⟩ := hg.transitions
  exact ⟨rfl, rfl, s, hs, Edge.renders_of_resolveTransitions hrs hes⟩

theorem eq_nil_of_anyEdges {f : Flat} {t : Table} {es : List Edge} (hf : f.leaves = #[])
    (h : (anyEdges f t).outcome = .ok es) : es = [] := by
  simp only [anyEdges] at h
  split at h
  · rw [Report.outcome_tell_bind, Report.outcome_pure_eq_ok] at h
    exact h.symm
  · next hany =>
    rw [show f.machine.anyTransitions = [] by simpa [hf] using hany] at h
    exact List.forall₂_nil_left_iff.mp (Report.outcome_mapM_eq_ok.mp h)

theorem renders_of_anyEdges {f : Flat} {t : Table} {es : List Edge} (hf : f.leaves ≠ #[])
    (h : (anyEdges f t).outcome = .ok es) :
    List.Forall₂ (fun a e => Edge.Renders f t a.allowSelf a.transition e)
      f.machine.anyTransitions es := by
  simp only [anyEdges, Array.isEmpty_eq_false_iff.mpr hf, Bool.false_and, Bool.false_eq_true,
    if_false] at h
  refine (Report.outcome_mapM_eq_ok.mp h).imp ?_
  intro a e he
  obtain ⟨i, hi, he⟩ := Report.outcome_bind_eq_ok.mp he
  exact Edge.renders_of_ofResolved ⟨rfl, hi⟩ he

end Draft

open Draft in
/-- The draft of a flattened graph. Without leaves it has no transitions from any state. -/
structure Draft.Renders (d : Draft) (f : Flat) (t : Table) : Prop where
  nameHash : d.nameHash = PoseMachine.nameHash f.machine.name
  defaultState : d.defaultState = f.defaultLeaf.toUInt32
  parameters : d.parameters = t.layout
  states : List.Forall₂ (State.Renders f t) f.leaves.toList d.states
  noTransitions : f.leaves = #[] → d.anyTransitions = []
  anyTransitions : f.leaves ≠ #[] →
    List.Forall₂ (fun a e => Edge.Renders f t a.allowSelf a.transition e)
      f.machine.anyTransitions d.anyTransitions
  exits : List.Forall₂ (Exit.Renders f t) f.exitGroups.toList d.exits
  subs : d.subs = f.subs.toList.map bakedSub
  clips : d.clips = f.leaves.toList.flatMap fun l => l.motion.clips.map bakedClip

namespace Draft

theorem renders_of_ofFlat {f : Flat} {t : Table} {d : Draft} (hf : f.Sound)
    (h : (ofFlat f t).outcome = .ok d) : d.Renders f t := by
  simp only [ofFlat, Report.outcome_bind_eq_ok, Report.outcome_mapM_eq_ok,
    Report.outcome_pure_eq_ok] at h
  obtain ⟨states, hstates, anys, hanys, exits, hexits, rfl⟩ := h
  refine ⟨rfl, rfl, rfl, hstates.imp fun _ _ => State.renders_of_ofLeaf,
    fun hempty => eq_nil_of_anyEdges hempty hanys,
    fun hleaves => renders_of_anyEdges hleaves hanys, ?_, rfl, rfl⟩
  have hgroups : ∀ g ∈ f.exitGroups.toList, g.Sound f := by simpa using hf.groups
  exact ((List.forall₂_and_left _ _).mpr ⟨hgroups, hexits⟩).imp fun g e h =>
    Exit.renders_of_ofGroup h.1 h.2

/-- All transitions, in the order in which they are packed. -/
def edges (d : Draft) : List Edge :=
  d.states.flatMap (·.transitions) ++ d.anyTransitions ++ d.exits.flatMap (·.transitions)

/-- A transition leads to one of `n` states and asks for parameters that are there. -/
structure Edge.InRange (l : Parameter.Layout) (n : Nat) (e : Edge) : Prop where
  target : e.target.toNat < n
  boolTests : ∀ x ∈ e.boolTests, x.parameter.toNat < l.bools.size
  intTests : ∀ x ∈ e.intTests, x.parameter.toNat < l.ints.size

/-- A motion plays some of `n` clips, by parameters that are there. -/
def Motion.InRange (l : Parameter.Layout) (n : Nat) : Motion → Prop
  | .clip c => c.toNat < n
  | .line p es =>
    (p.kind ≠ .bool ∧ p.index.toNat < l.sizeOf p.kind) ∧ (∀ e ∈ es, e.clip.toNat < n) ∧
      es.Pairwise fun a b => a.threshold.le b.threshold = true
  | .plane x y _ es =>
    x.toNat < l.floats.size ∧ y.toNat < l.floats.size ∧ ∀ e ∈ es, e.clip.toNat < n

/-- Every reference of a state leads to something that is there. -/
structure State.InRange (d : Draft) (s : State) : Prop where
  motion : s.motion.InRange d.parameters d.clips.length
  speedParameter : ∀ p ∈ s.speedParameter, p.toNat < d.parameters.floats.size
  exitGroup : s.exitGroup.toInt < d.exits.length
  sub : s.sub.toInt < d.subs.length

end Draft

open Draft in
/-- Every reference of a draft leads to something that is there, and nested machines lie inside
earlier ones. -/
structure Draft.InRange (d : Draft) : Prop where
  defaultState : d.states ≠ [] → d.defaultState.toNat < d.states.length
  states : ∀ s ∈ d.states, s.InRange d
  edges : ∀ e ∈ d.edges, e.InRange d.parameters d.states.length
  exits : ∀ e ∈ d.exits, e.sub.toNat < d.subs.length ∧
    ∀ i ∈ e.states, i.toNat < d.states.length
  subs : ∀ (i : Nat) (s : Baked.Sub), d.subs[i]? = some s →
    s.parent.toInt < i ∧ s.entry.toNat < max d.states.length 1
  exits_le : d.exits.length ≤ d.subs.length

namespace Draft

variable {f : Flat} {t : Table} {d : Draft}

theorem Edge.Renders.inRange {allowSelf : Bool} {a : Transition} {e : Edge} (hf : f.Sound)
    (ht : t.Coherent) (hleaves : 0 < f.leaves.size) (h : e.Renders f t allowSelf a) :
    e.InRange t.layout f.leaves.size where
  target := by
    obtain ⟨i, hi, htarget⟩ := h.target
    have hlt := Flat.resolveTarget_lt hf hi
    have hle := toNat_toUInt32_le i
    rw [htarget]
    omega
  boolTests := by
    intro x hx
    obtain ⟨c, -, hc⟩ := exists_related_of_mem_right h.boolTests hx
    exact hc.parameter.lt_sizeOf ht
  intTests := by
    intro x hx
    obtain ⟨c, -, hc⟩ := exists_related_of_mem_right h.intTests hx
    exact hc.parameter.lt_sizeOf ht

theorem mem_lineEntries {offset : Nat} {clips : List LineClip} {e : LineEntry}
    (he : e ∈ lineEntries offset clips) : ∃ i < clips.length, e.clip = (offset + i).toUInt16 := by
  simp only [lineEntries, List.mem_mergeSort, List.mem_map] at he
  obtain ⟨⟨c, i⟩, hi, rfl⟩ := he
  exact ⟨i, by simpa using (List.mem_zipIdx hi).2.1, rfl⟩

theorem pairwise_lineEntries (offset : Nat) (clips : List LineClip) :
    (lineEntries offset clips).Pairwise fun a b => a.threshold.le b.threshold = true :=
  List.pairwise_mergeSort (fun a b c => Single.Pattern.le_trans a.threshold b.threshold c.threshold)
    (fun a b => Single.Pattern.le_total a.threshold b.threshold) _

theorem mem_planeEntries {offset : Nat} {clips : List PlaneClip} {e : Baked.PlaneEntry}
    (he : e ∈ planeEntries offset clips) : ∃ i < clips.length, e.clip = (offset + i).toUInt16 := by
  simp only [planeEntries, List.mem_map] at he
  obtain ⟨⟨c, i⟩, hi, rfl⟩ := he
  exact ⟨i, by simpa using (List.mem_zipIdx hi).2.1, rfl⟩

theorem Motion.Renders.inRange {offset n : Nat} {m : PoseMachine.Motion} {x : Motion}
    (ht : t.Coherent) (hclips : offset + m.clipCount ≤ n) (h : Renders t offset m x) :
    x.InRange t.layout n := by
  have hclip : ∀ {i : Nat} {c : UInt16}, i < m.clipCount → c = (offset + i).toUInt16 →
      c.toNat < n := by
    rintro i c hi rfl
    have := toNat_toUInt16_le (offset + i)
    omega
  cases h with
  | clip c => exact hclip (i := 0) Nat.one_pos rfl
  | line clips hkind hfind =>
      refine ⟨⟨hkind, hfind.lt_sizeOf ht⟩, ?_, pairwise_lineEntries offset clips⟩
      intro e he
      obtain ⟨i, hi, heq⟩ := mem_lineEntries he
      exact hclip hi heq
  | plane method clips hx hy =>
      refine ⟨hx.lt_sizeOf ht, hy.lt_sizeOf ht, ?_⟩
      intro e he
      obtain ⟨i, hi, heq⟩ := mem_planeEntries he
      exact hclip hi heq

theorem toInt_optionalIndex {o : Option Nat} (h : ∀ i ∈ o, i < 0x80000000) :
    (optionalIndex o).toInt = (o.map Int.ofNat).getD (-1) := by
  cases o with
  | none => rfl
  | some i => exact Int32.toInt_ofNat_of_lt (h i rfl)

theorem toInt_optionalIndex_lt {o : Option Nat} {n : Nat} (h : ∀ i ∈ o, i < n) :
    (optionalIndex o).toInt < n := by
  cases o with
  | none =>
      change (-1 : Int) < n
      omega
  | some i =>
      have hi := h i rfl
      have hle := toInt_int32OfNat_le i
      simp only [optionalIndex]
      omega

namespace Renders

theorem length_states (h : d.Renders f t) : d.states.length = f.leaves.size := by
  simpa using h.states.length_eq.symm

theorem length_clips (hf : f.Sound) (h : d.Renders f t) : d.clips.length = f.clipCount := by
  rw [h.clips, hf.clipCount, ← List.map_flatMap, List.length_map]

/-- A transition of the draft was authored, in a graph that has leaves. -/
theorem exists_of_mem_edges (hf : f.Sound) (h : d.Renders f t) {e : Edge} (he : e ∈ d.edges) :
    0 < f.leaves.size ∧ ∃ allowSelf a, e.Renders f t allowSelf a := by
  simp only [edges, List.mem_append, List.mem_flatMap] at he
  rcases he with (⟨s, hs, he⟩ | he) | ⟨x, hx, he⟩
  · obtain ⟨l, hl, hrenders⟩ := exists_related_of_mem_right h.states hs
    obtain ⟨a, -, ha⟩ := exists_related_of_mem_right hrenders.transitions he
    exact ⟨Array.size_pos_of_mem (Array.mem_def.mpr hl), false, a, ha⟩
  · by_cases hempty : f.leaves = #[]
    · rw [h.noTransitions hempty] at he
      simp at he
    · obtain ⟨a, -, ha⟩ := exists_related_of_mem_right (h.anyTransitions hempty) he
      exact ⟨Array.size_pos_iff.mpr hempty, a.allowSelf, a.transition, ha⟩
  · obtain ⟨g, hg, hrenders⟩ := exists_related_of_mem_right h.exits hx
    obtain ⟨s, -, htransitions⟩ := hrenders.transitions
    obtain ⟨a, -, ha⟩ := exists_related_of_mem_right htransitions he
    obtain ⟨hne, hlt, -⟩ := hf.groups g (Array.mem_def.mpr hg)
    obtain ⟨l, hl⟩ := List.exists_mem_of_ne_nil _ hne
    have := hlt l hl
    exact ⟨by omega, false, a, ha⟩

theorem length_exits (h : d.Renders f t) : d.exits.length = f.exitGroups.size := by
  simpa using h.exits.length_eq.symm

theorem length_subs (h : d.Renders f t) : d.subs.length = f.subs.size := by
  simp [h.subs]

theorem inRange_state (hf : f.Sound) (ht : t.Coherent) (h : d.Renders f t) {s : State}
    (hs : s ∈ d.states) : s.InRange d := by
  obtain ⟨l, hl, hrenders⟩ := exists_related_of_mem_right h.states hs
  rw [← Array.mem_def] at hl
  constructor
  case motion =>
    rw [h.parameters, h.length_clips hf]
    exact hrenders.motion.inRange ht (hf.leaf_clips l hl)
  case speedParameter =>
    intro p hp
    rw [h.parameters]
    have hspeed := hrenders.speedParameter
    rw [hp] at hspeed
    generalize l.node.speedParameter = name at hspeed
    cases hspeed with
    | some hfind => exact hfind.lt_sizeOf ht
  case exitGroup =>
    rw [hrenders.exitGroup, h.length_exits]
    exact toInt_optionalIndex_lt (hf.leaf_exitGroup l hl)
  case sub =>
    rw [hrenders.sub, h.length_subs]
    exact toInt_optionalIndex_lt (hf.leaf_parent l hl)

theorem inRange_exit (hf : f.Sound) (h : d.Renders f t) {e : Exit} (he : e ∈ d.exits) :
    e.sub.toNat < d.subs.length ∧ ∀ i ∈ e.states, i.toNat < d.states.length := by
  rw [h.length_subs, h.length_states]
  obtain ⟨g, hg, hrenders⟩ := exists_related_of_mem_right h.exits he
  obtain ⟨-, hlt, s, hs, -⟩ := hf.groups g (Array.mem_def.mpr hg)
  constructor
  · have hsub := (Array.getElem?_eq_some_iff.mp hs).1
    have hle := toNat_toUInt32_le g.sub
    rw [hrenders.sub]
    omega
  · intro i hi
    rw [hrenders.states] at hi
    obtain ⟨l, hl, rfl⟩ := List.mem_map.mp hi
    have hleaf := hlt l hl
    have hle := toNat_toUInt32_le l
    omega

theorem inRange_sub (hf : f.Sound) (h : d.Renders f t) {i : Nat} {s : Baked.Sub}
    (hs : d.subs[i]? = some s) :
    s.parent.toInt < i ∧ s.entry.toNat < max d.states.length 1 := by
  rw [h.length_states]
  rw [h.subs, List.getElem?_map, Option.map_eq_some_iff] at hs
  obtain ⟨x, hx, rfl⟩ := hs
  rw [Array.getElem?_toList] at hx
  constructor
  · exact toInt_optionalIndex_lt (hf.sub_parent i x hx)
  · have hentry := hf.sub_entry x (Array.mem_of_getElem? hx)
    have hle := toNat_toUInt32_le x.entry
    simp only [bakedSub]
    omega

theorem inRange_default (hf : f.Sound) (h : d.Renders f t) (hne : d.states ≠ []) :
    d.defaultState.toNat < d.states.length := by
  have hpos := List.length_pos_iff.mpr hne
  have hlt := hf.defaultLeaf
  have hle := toNat_toUInt32_le f.defaultLeaf
  rw [h.length_states] at hpos ⊢
  rw [h.defaultState]
  omega

theorem inRange (hf : f.Sound) (ht : t.Coherent) (h : d.Renders f t) : d.InRange where
  defaultState := h.inRange_default hf
  states := fun _ => h.inRange_state hf ht
  edges := by
    intro e he
    obtain ⟨hpos, allowSelf, a, ha⟩ := h.exists_of_mem_edges hf he
    rw [h.parameters, h.length_states]
    exact ha.inRange hf ht hpos
  exits := fun _ => h.inRange_exit hf
  subs := fun _ _ => h.inRange_sub hf
  exits_le := by
    rw [h.length_exits, h.length_subs]
    exact hf.size_groups

end Renders

end Draft

end PoseMachine
