import PoseMachine.Choice
import PoseMachine.Proofs.BakeSoundness

/-!
The transition that a leaf takes, read off the authored graph: parameters are looked up by name, and
the transitions are tried as they were declared. A baked machine makes the same choice.
-/

namespace PoseMachine

open Parameter (Buffers Table)

/-- An authored Bool condition holds for the values by name. -/
def BoolCondition.holds (c : BoolCondition) (values : Buffers) : Bool :=
  match values.get? c.parameter with
  | some (.bool x) => x == c.value
  | _ => false

/-- An authored Int condition holds for the values by name. -/
def IntCondition.holds (c : IntCondition) (values : Buffers) : Bool :=
  match values.get? c.parameter with
  | some (.int n) => c.comparator.holds n c.value
  | _ => false

/-- The exit time of an authored transition has come and all its conditions hold. -/
def Transition.passes (a : Transition) (values : Buffers) (time : Float32) : Bool :=
  a.endTime.all (fun e => !(time < e)) && a.boolConditions.all (·.holds values) &&
    a.intConditions.all (·.holds values)

/-- An authored transition at its place in one of the lists that a leaf tries. -/
structure Candidate where
  source : Source
  position : Nat
  transition : AnyTransition

def Candidate.passes (c : Candidate) (values : Buffers) (time : Float32) : Bool :=
  c.transition.transition.passes values time

def candidatesOf (source : Source) (ts : List AnyTransition) : List Candidate :=
  ts.zipIdx.map fun (a, k) => ⟨source, k, a⟩

namespace Flat

/-- A reference leads to the leaf `i`. -/
def leadsTo (f : Flat) (id : StateId) (i : Nat) : Bool :=
  match (f.resolveTarget id).outcome with
  | .ok j => j == i
  | .error _ => false

/-- A transition from any state is open to the leaf `i`. -/
def isOpen (f : Flat) (i : Nat) (a : AnyTransition) : Bool :=
  a.allowSelf || !f.leadsTo a.transition.target i

def ownTransitions (f : Flat) (i : Nat) : List AnyTransition :=
  (((f.machine.leaves[i]?).map (·.1.transitions)).getD []).map fun a => { transition := a }

/-- The exit transitions of the nested machine to whose exit group the leaf belongs. -/
def exitTransitions (f : Flat) (i : Nat) : List AnyTransition :=
  let group := (f.leaves[i]?.bind (·.exitGroup)).bind (f.exitGroups[·]?)
  let border := group.bind fun g => (f.machine.nested[g.sub]?).map (·.2)
  ((border.map (·.exitTransitions)).getD []).map fun a => { transition := a }

/-- What the leaf `i` tries: the transitions from any state that are open to it, its own ones, and
those of its exit group. -/
def candidates (f : Flat) (i : Nat) : List Candidate :=
  (candidatesOf .anyState f.machine.anyTransitions).filter (fun c => f.isOpen i c.transition) ++
    (candidatesOf .state (f.ownTransitions i) ++ candidatesOf .exitGroup (f.exitTransitions i))

/-- The authored transition that the leaf `i` takes, the first one that passes. -/
def choice (f : Flat) (values : Buffers) (i : Nat) (time : Float32) : Option Candidate :=
  (f.candidates i).find? (·.passes values time)

end Flat

section Conditions

variable {t : Table} {values : Buffers}

theorem Draft.RendersBool.holds_eq (hv : values.Fits t.layout) (ht : t.Coherent)
    {c : BoolCondition} {x : Baked.BoolTest} (h : RendersBool t c x) :
    x.holds values = .ok (c.holds values) := by
  obtain ⟨y, hy, hget⟩ := hv.bool_of_find ht h.parameter
  simp [Baked.BoolTest.holds, BoolCondition.holds, hy, hget, h.value, Except.map]

theorem Draft.RendersInt.holds_eq (hv : values.Fits t.layout) (ht : t.Coherent)
    {c : IntCondition} {x : Baked.IntTest} (h : RendersInt t c x) :
    x.holds values = .ok (c.holds values) := by
  obtain ⟨y, hy, hget⟩ := hv.int_of_find ht h.parameter
  simp [Baked.IntTest.holds, IntCondition.holds, hy, hget, h.value, h.comparator, Except.map]

end Conditions

namespace Baked

/-- A packed transition and the authored one it was baked from. -/
def BakesEdge (b : Baked) (f : Flat) (t : Table) (a : AnyTransition) (e : Edge) : Prop :=
  ∃ d : Draft.Edge, d.Renders f t a.allowSelf a.transition ∧ b.HoldsEdge d e

/-- A span of transitions and the authored list it was baked from. -/
def BakesEdges (b : Baked) (f : Flat) (t : Table) (ts : List AnyTransition) (span : Span) : Prop :=
  ∃ xs, span.slice b.transitions = .ok xs ∧ List.Forall₂ (b.BakesEdge f t) ts xs.toList

variable {b : Baked} {f : Flat} {t : Table} {values : Buffers}

theorem HoldsEdges.bakesEdges {ds : List Draft.Edge} {ts : List AnyTransition} {span : Span}
    (hspan : b.HoldsEdges ds span)
    (hts : List.Forall₂ (fun a (d : Draft.Edge) => d.Renders f t a.allowSelf a.transition) ts ds) :
    b.BakesEdges f t ts span := by
  obtain ⟨xs, hxs, hds⟩ := hspan
  exact ⟨xs, hxs, related_trans hts hds fun _ d _ ha he => ⟨d, ha, he⟩⟩

theorem HoldsEdges.bakesEdges_map {ds : List Draft.Edge} {as : List Transition} {span : Span}
    (hspan : b.HoldsEdges ds span)
    (has : List.Forall₂ (fun a (d : Draft.Edge) => d.Renders f t false a) as ds) :
    b.BakesEdges f t (as.map fun a => { transition := a }) span :=
  hspan.bakesEdges (List.forall₂_map_left_iff.mpr has)

/-- A packed transition passes when the authored one does. -/
theorem BakesEdge.passes_eq (hv : values.Fits t.layout) (ht : t.Coherent) {a : AnyTransition}
    {e : Edge} (h : b.BakesEdge f t a e) (time : Float32) :
    b.passes values time e = .ok (a.transition.passes values time) := by
  obtain ⟨d, ha, he⟩ := h
  have hbools : d.boolTests.allM (fun x => x.holds values) =
      .ok (a.transition.boolConditions.all fun c => c.holds values) :=
    allM_eq_ok (ha.boolTests.imp fun _ _ h => h.holds_eq hv ht)
  have hints : d.intTests.allM (fun x => x.holds values) =
      .ok (a.transition.intConditions.all fun c => c.holds values) :=
    allM_eq_ok (ha.intTests.imp fun _ _ h => h.holds_eq hv ht)
  have hend : (e.hasEndTime && decide (time < e.endTime)) =
      !a.transition.endTime.all fun x => !(time < x) := by
    rw [he.hasEndTime, he.endTime, ha.hasEndTime, ha.endTime]
    cases a.transition.endTime <;> simp
  rw [passes, hend, Transition.passes]
  cases a.transition.endTime.all fun x => !(time < x) with
  | false => rfl
  | true =>
      simp only [Bool.not_true, Bool.false_eq_true, if_false, he.boolTests, he.intTests,
        ok_bind, hbools]
      cases a.transition.boolConditions.all fun c => c.holds values with
      | false => rfl
      | true => exact hints

/-- The first of some packed transitions that passes is the first authored one that does. -/
theorem firstPassing_eq (hv : values.Fits t.layout) (ht : t.Coherent) {allowed : Edge → Bool}
    {keep : AnyTransition → Bool} (hkeep : ∀ a e, b.BakesEdge f t a e → allowed e = keep a)
    {ts : List AnyTransition} {es : List Edge} (h : List.Forall₂ (b.BakesEdge f t) ts es)
    (time : Float32) (k : Nat) :
    b.firstPassing values time allowed (es.zipIdx k) =
      .ok (((ts.zipIdx k).find? fun x => keep x.1 && x.1.transition.passes values time).map
        (·.2)) := by
  induction h generalizing k with
  | nil => rfl
  | @cons a e ts es hae _ ih =>
      rw [List.zipIdx_cons, List.zipIdx_cons, firstPassing, hkeep a e hae, List.find?_cons,
        hae.passes_eq hv ht]
      cases keep a with
      | false => exact ih (k + 1)
      | true =>
          cases a.transition.passes values time with
          | false => exact ih (k + 1)
          | true => rfl

theorem BakesEdges.chooseFrom_eq (hroom : b.transitions.size ≤ Span.limit)
    (hv : values.Fits t.layout) (ht : t.Coherent)
    {allowed : Edge → Bool} {keep : AnyTransition → Bool}
    (hkeep : ∀ a e, b.BakesEdge f t a e → allowed e = keep a) {ts : List AnyTransition}
    {span : Span} (h : b.BakesEdges f t ts span) (source : Source) (time : Float32) :
    b.chooseFrom values time span allowed =
      .ok ((((candidatesOf source ts).filter fun c => keep c.transition).find?
        fun c => c.passes values time).map fun c => span.start.toNat + c.position) := by
  obtain ⟨xs, hxs, hts⟩ := h
  simp only [chooseFrom, hxs, ok_bind, candidatesOf, List.filter_map, List.find?_map,
    List.find?_filter, Option.map_map, Bool.decide_and, Bool.decide_eq_true]
  rw [firstPassing_eq hv ht hkeep hts time 0, ok_bind, Option.map_map]
  refine congrArg Except.ok (Option.map_congr ?_)
  -- The position told for an entry of the span is where that entry is.
  rintro ⟨a, k⟩ hk
  have hmem := List.mem_zipIdx_iff_getElem?.mp (List.mem_of_find?_eq_some hk)
  obtain ⟨e, he, -⟩ := exists_related_of_getElem?_left hts hmem
  rw [Array.getElem?_toList] at he
  exact Span.toNat_position_of_slice (hroom.trans (by decide)) hxs
    (Array.getElem?_eq_some_iff.mp he).1

/-- The span of the list that a source names, for a state. -/
def spanOf (b : Baked) (s : State) : Source → Option Span
  | .anyState => some b.anyTransitions
  | .state => some s.transitions
  | .exitGroup =>
    if s.exitGroup < 0 then none else (b.exits[s.exitGroup.toInt.toNat]?).map (·.transitions)

/-- A chosen transition is the baked form of a candidate, at its place in the list it is from. -/
structure Stands (b : Baked) (f : Flat) (t : Table) (s : State) (x : Nat × Source) (c : Candidate) :
    Prop where
  source : x.2 = c.source
  place : ∃ span, b.spanOf s c.source = some span ∧ c.position < span.len.toNat ∧
    x.1 = span.start.toNat + c.position
  edge : ∃ e, b.transitions[x.1]? = some e ∧ b.BakesEdge f t c.transition e

theorem BakesEdges.stands {s : State} {span : Span} {ts : List AnyTransition} {source : Source}
    (h : b.BakesEdges f t ts span) (hspan : b.spanOf s source = some span) {c : Candidate}
    (hc : c ∈ candidatesOf source ts) :
    b.Stands f t s (span.start.toNat + c.position, source) c := by
  obtain ⟨xs, hxs, hts⟩ := h
  obtain ⟨⟨a, k⟩, hmem, rfl⟩ := List.mem_map.mp hc
  have hk : ts[k]? = some a := List.mem_zipIdx_iff_getElem?.mp hmem
  obtain ⟨e, he, hae⟩ := exists_related_of_getElem?_left hts hk
  rw [Array.getElem?_toList] at he
  have hlt : k < span.len.toNat := by
    rw [← Span.size_slice hxs]
    exact (Array.getElem?_eq_some_iff.mp he).1
  rw [Span.getElem?_slice hxs hlt] at he
  exact ⟨rfl, ⟨span, hspan, hlt, rfl⟩, e, he, hae⟩

/-- The lists that a packed state tries are the ones that the leaf `i` tries. -/
structure BakesLeaf (b : Baked) (f : Flat) (t : Table) (i : Nat) (s : State) : Prop where
  any : b.BakesEdges f t f.machine.anyTransitions b.anyTransitions
  own : b.BakesEdges f t (f.ownTransitions i) s.transitions
  noExit : s.exitGroup < 0 → f.exitTransitions i = []
  exit : ¬ s.exitGroup < 0 → ∃ x, b.exits[s.exitGroup.toInt.toNat]? = some x ∧
    b.BakesEdges f t (f.exitTransitions i) x.transitions

/-- A playing state chooses as its leaf does. -/
theorem BakesLeaf.choose_stands {i : Nat} {s : State} (hl : b.BakesLeaf f t i s)
    (hroom : b.transitions.size ≤ Span.limit) (hv : values.Fits t.layout) (ht : t.Coherent)
    {p : Playback} (hs : b.states[p.state.toNat]? = some s)
    (hopen : ∀ a e, b.BakesEdge f t a e → (e.target != p.state || e.allowSelf) = f.isOpen i a) :
    ∃ x, b.choose values p = .ok x ∧
      Option.Rel (b.Stands f t s) x (f.choice values i p.time) := by
  have hany := hl.any.chooseFrom_eq hroom hv ht hopen .anyState p.time
  have hall : ∀ a e, b.BakesEdge f t a e → true = (fun _ => true : AnyTransition → Bool) a :=
    fun _ _ _ => rfl
  have hown := hl.own.chooseFrom_eq hroom hv ht hall .state p.time
  simp only [List.filter_true] at hown
  rw [Flat.choice, Flat.candidates, List.find?_append, List.find?_append]
  simp only [choose, hs, hany, ok_bind]
  cases hfirst : ((candidatesOf .anyState f.machine.anyTransitions).filter
      fun c => f.isOpen i c.transition).find? fun c => c.passes values p.time with
  | some c =>
      have hc := List.mem_of_mem_filter (List.mem_of_find?_eq_some hfirst)
      exact ⟨_, rfl, .some (hl.any.stands rfl hc)⟩
  | none =>
      simp only [Option.map_none, hown, ok_bind]
      cases hsecond : (candidatesOf .state (f.ownTransitions i)).find?
          fun c => c.passes values p.time with
      | some c =>
          exact ⟨_, rfl, .some (hl.own.stands rfl (List.mem_of_find?_eq_some hsecond))⟩
      | none =>
          by_cases hneg : s.exitGroup < 0
          · simp only [Option.map_none, exitOf, hneg, if_true, hl.noExit hneg]
            exact ⟨none, rfl, .none⟩
          · obtain ⟨x, hx, hbakes⟩ := hl.exit hneg
            have hexit := hbakes.chooseFrom_eq hroom hv ht hall .exitGroup p.time
            simp only [List.filter_true] at hexit
            simp only [Option.map_none, exitOf, hneg, if_false, fetch_eq_ok_iff.mpr hx,
              Except.map, ok_bind, hexit]
            cases hthird : (candidatesOf .exitGroup (f.exitTransitions i)).find?
                fun c => c.passes values p.time with
            | some c =>
                have hspan : b.spanOf s .exitGroup = some x.transitions := by
                  rw [spanOf, if_neg hneg, hx]
                  rfl
                exact ⟨_, rfl, .some (hbakes.stands hspan (List.mem_of_find?_eq_some hthird))⟩
            | none => exact ⟨none, rfl, .none⟩

/-- A state packed from the draft of a flattened graph tries what the leaf in its place tries. -/
theorem HoldsDraft.bakesLeaf {d : Draft} {m : Machine} (hd : b.HoldsDraft d) (hr : d.Renders f t)
    (hf : f.Sound) (hm : f.Flattens m) (hsubs : m.subCount < 0x80000000) {i : Nat}
    (hi : i < f.leaves.size) : ∃ s, b.states[i]? = some s ∧ b.BakesLeaf f t i s := by
  have hl : f.leaves[i]? = some f.leaves[i] := Array.getElem?_eq_getElem hi
  generalize f.leaves[i] = l at hl
  obtain ⟨x, hx, hrenders⟩ :=
    exists_related_of_getElem?_left hr.states (by rw [Array.getElem?_toList]; exact hl)
  obtain ⟨s, hs, hholds⟩ := exists_related_of_getElem?_left hd.packed.states hx
  rw [Array.getElem?_toList] at hs
  have hne : f.leaves ≠ #[] := Array.size_pos_iff.mp (Nat.zero_lt_of_lt hi)
  refine ⟨s, hs, hd.anyTransitions.bakesEdges (hr.anyTransitions hne), ?_, ?_, ?_⟩
  · rw [Flat.ownTransitions, hm.machine, hm.leaf_at hl]
    exact hholds.transitions.bakesEdges_map hrenders.transitions
  · intro hneg
    rw [hholds.exitGroup, hrenders.exitGroup] at hneg
    cases hg : l.exitGroup with
    | none => simp [Flat.exitTransitions, hl, hg]
    | some g =>
        have hlt := hf.leaf_exitGroup l (Array.mem_of_getElem? hl) g hg
        have hle := hf.size_groups
        rw [hm.size_subs] at hle
        rw [hg, Draft.optionalIndex, Int32.lt_iff_toInt_lt,
          Int32.toInt_ofNat_of_lt (by omega)] at hneg
        exact absurd hneg (Int.not_lt.mpr (Int.natCast_nonneg g))
  · intro hnonneg
    rw [hholds.exitGroup, hrenders.exitGroup] at hnonneg ⊢
    cases hg : l.exitGroup with
    | none =>
        rw [hg] at hnonneg
        exact absurd (by decide) hnonneg
    | some g =>
        have hlt := hf.leaf_exitGroup l (Array.mem_of_getElem? hl) g hg
        have hle := hf.size_groups
        rw [hm.size_subs] at hle
        have hgroup : f.exitGroups[g]? = some f.exitGroups[g] := Array.getElem?_eq_getElem hlt
        generalize f.exitGroups[g] = group at hgroup
        obtain ⟨y, hy, hexit⟩ :=
          exists_related_of_getElem?_left hr.exits (by rw [Array.getElem?_toList]; exact hgroup)
        obtain ⟨z, hz, hholds⟩ := exists_related_of_getElem?_left hd.packed.exits hy
        obtain ⟨sub, hsub, htransitions⟩ := hexit.transitions
        refine ⟨z, ?_, ?_⟩
        · rw [Draft.optionalIndex, Int32.toInt_ofNat_of_lt (by omega), Int.toNat_natCast,
            ← Array.getElem?_toList]
          exact hz
        · have hexits : f.exitTransitions i =
              sub.border.exitTransitions.map fun a => { transition := a } := by
            simp [Flat.exitTransitions, hl, hg, hgroup, hm.machine, hm.sub_at hsub]
          rw [hexits]
          exact hholds.transitions.bakesEdges_map htransitions

/-- A packed transition from any state is open to a state when the authored one is. -/
theorem BakesEdge.isOpen_eq (hf : f.Sound) (hlt : f.leaves.size < 0x80000000) {a : AnyTransition}
    {e : Edge} (h : b.BakesEdge f t a e) (i : UInt32) :
    (e.target != i || e.allowSelf) = f.isOpen i.toNat a := by
  obtain ⟨d, ha, he⟩ := h
  obtain ⟨j, hj, htarget⟩ := ha.target
  have hj' := Flat.resolveTarget_lt hf hj
  have hround : j.toUInt32.toNat = j := toNat_toUInt32 (by omega)
  have hsame : (j.toUInt32 == i) = (j == i.toNat) := by
    rw [Bool.eq_iff_iff, beq_iff_eq, beq_iff_eq, ← UInt32.toNat_inj, hround]
  rw [Flat.isOpen, Flat.leadsTo, hj, he.target, htarget, he.allowSelf, ha.allowSelf, bne, hsame,
    Bool.or_comm]

end Baked

namespace Machine

variable {m : Machine} {ps : List Parameter} {cfg : Config} {b : Baked}

/-- A baked machine takes the transition that the authored graph says. Whatever values have been set
by name and wherever a leaf plays, the first transition that passes, of those from any state that
are open to the leaf, its own ones and those of its exit group, is the one chosen. -/
theorem choose_stands_of_bakeWith (hleaves : m.leafCount < 0x80000000)
    (hsubs : m.subCount < 0x80000000) (h : (m.bakeWith ps cfg).outcome = .ok b) :
    ∃ t f, (Table.build ps).outcome = .ok t ∧ (Flat.ofMachine m cfg).outcome = .ok f ∧
      ∀ (sets : List (String × Parameter.Value)) (p : Playback), p.state.toNat < m.leafCount →
        ∃ s x, b.states[p.state.toNat]? = some s ∧
          b.choose ((Buffers.ofLayout b.parameters).setAll sets) p = .ok x ∧
          Option.Rel (b.Stands f t s) x
            (f.choice ((Buffers.ofLayout b.parameters).setAll sets) p.state.toNat p.time) := by
  obtain ⟨t, f, d, ht, hf, hsound, hflattens, hrenders, hholds⟩ := holdsDraft_of_bakeWith hleaves h
  refine ⟨t, f, ht, hf, ?_⟩
  intro sets p hp
  rw [← hflattens.size_leaves] at hp hleaves
  obtain ⟨s, hs, hleaf⟩ := hholds.bakesLeaf hrenders hsound hflattens hsubs hp
  have hv : ((Buffers.ofLayout b.parameters).setAll sets).Fits t.layout := by
    rw [hholds.parameters, hrenders.parameters]
    exact (Buffers.fits_ofLayout t.layout).setAll sets
  have hopen : ∀ a e, b.BakesEdge f t a e →
      (e.target != p.state || e.allowSelf) = f.isOpen p.state.toNat a :=
    fun _ _ he => he.isOpen_eq hsound hleaves p.state
  obtain ⟨x, hx, hrel⟩ :=
    hleaf.choose_stands hholds.packed.pools.room hv (Parameter.Table.coherent_of_build ht) hs hopen
  exact ⟨s, x, hs, hx, hrel⟩

theorem choose_stands_of_bakeWith_hopping : ∃ b t f s x,
    (hopping.bakeWith [⟨"grounded", .bool true⟩] {}).outcome = .ok b ∧ b.states[0]? = some s ∧
      b.choose ((Buffers.ofLayout b.parameters).setAll [("grounded", .bool false)]) ⟨0, 0, 0⟩ =
        .ok x ∧
      Option.Rel (b.Stands f t s) x
        (f.choice ((Buffers.ofLayout b.parameters).setAll [("grounded", .bool false)]) 0
          (Playback.time ⟨0, 0, 0⟩)) := by
  obtain ⟨b, hb⟩ := exists_bakeWith_hopping
  obtain ⟨t, f, -, -, hall⟩ := choose_stands_of_bakeWith (by decide) (by decide) hb
  obtain ⟨s, x, hs, hx, hrel⟩ := hall [("grounded", .bool false)] ⟨0, 0, 0⟩ (by decide)
  exact ⟨b, t, f, s, x, hb, hs, hx, hrel⟩

end Machine

end PoseMachine
