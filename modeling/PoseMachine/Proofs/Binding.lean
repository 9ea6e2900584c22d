import PoseMachine.Proofs.BakeSoundness
import PoseMachine.Proofs.Reordering
import PoseMachine.Proofs.Unpacking

/-!
Which declaration a reference to a parameter is bound to. Names are told apart by their hashes, so
it is the one declaration whose name has the hash of the name referred to.
-/

namespace PoseMachine

namespace Parameter

/-- A name stands for the declaration `p`, at position `i` among those of kind `k`: no other
declaration has the hash of the name. -/
structure Binds (ps : List Parameter) (name : String) (k : Kind) (i : Nat) (p : Parameter) :
    Prop where
  hash : p.hash = nameHash name
  kind : p.kind = k
  position : ∃ j, ps[j]? = some p ∧ i = (ps.take j).countP (·.kind = k)
  only : ∀ q ∈ ps, q.hash = nameHash name → q = p

/-- A name that is declared stands for its own declaration. -/
theorem Binds.name_eq {ps : List Parameter} {name : String} {k : Kind} {i : Nat} {p : Parameter}
    (h : Binds ps name k i p) (hdeclared : ∃ q ∈ ps, q.name = name) : p.name = name := by
  obtain ⟨q, hq, hname⟩ := hdeclared
  have hsame : q = p := h.only q hq (congrArg nameHash hname)
  rw [← hsame, hname]

namespace Table

variable {t u : Table} {p : Parameter} {ps : List Parameter}

/-- A further declaration is found under its hash, at the end of its kind. -/
theorem find_add_iff (h : t.add p = .ok u) {g : UInt32} {k : Kind} {i : UInt16} :
    u.byHash[g]? = some (k, i) ↔
      t.byHash[g]? = some (k, i) ∨ p.hash = g ∧ p.kind = k ∧ i.toNat = t.layout.sizeOf k := by
  obtain ⟨hnew, hroom, rfl⟩ := add_eq_ok_iff.mp h
  have hposition : (t.layout.sizeOf p.kind).toUInt16.toNat = t.layout.sizeOf p.kind :=
    toNat_toUInt16 hroom
  simp only [Std.HashMap.getElem?_insert, beq_iff_eq]
  by_cases hg : p.hash = g
  · subst hg
    have hnone : t.byHash[p.hash]? = none := by
      rwa [Std.HashMap.contains_eq_isSome_getElem?, Option.isSome_eq_false_iff,
        Option.isNone_iff_eq_none] at hnew
    simp only [if_true, hnone, reduceCtorEq, false_or, true_and, Option.some.injEq, Prod.mk.injEq]
    refine and_congr_right fun hk => ?_
    rw [← hk, ← UInt16.toNat_inj, hposition, eq_comm]
  · simp [hg]

/-- Each declaration is found under its hash, behind the earlier ones of its kind. -/
theorem find_addAll_iff (h : t.addAll ps = .ok u) {g : UInt32} {k : Kind} {i : UInt16} :
    u.byHash[g]? = some (k, i) ↔
      t.byHash[g]? = some (k, i) ∨ ∃ j p, ps[j]? = some p ∧ p.hash = g ∧ p.kind = k ∧
        i.toNat = t.layout.sizeOf k + (ps.take j).countP (·.kind = k) := by
  induction ps generalizing t with
  | nil =>
      obtain rfl := Except.ok.inj h
      simp
  | cons p ps ih =>
      obtain ⟨s, hs, h⟩ := addAll_cons_eq_ok_iff.mp h
      have hsize : s.layout.sizeOf k = t.layout.sizeOf k + if p.kind = k then 1 else 0 := by
        obtain ⟨-, -, rfl⟩ := add_eq_ok_iff.mp hs
        exact Layout.sizeOf_push ..
      rw [ih h, find_add_iff hs, or_assoc]
      refine or_congr_right ?_
      constructor
      · rintro (⟨hg, hk, hi⟩ | ⟨j, q, hq, hg, hk, hi⟩)
        · exact ⟨0, p, rfl, hg, hk, hi⟩
        · refine ⟨j + 1, q, hq, hg, hk, ?_⟩
          rw [hi, hsize, List.take_succ_cons, List.countP_cons]
          simp only [decide_eq_true_eq]
          omega
      · rintro ⟨_ | j, q, hq, hg, hk, hi⟩
        · obtain rfl : p = q := by simpa using hq
          exact .inl ⟨hg, hk, hi⟩
        · refine .inr ⟨j, q, hq, hg, hk, ?_⟩
          rw [hi, hsize, List.take_succ_cons, List.countP_cons]
          simp only [decide_eq_true_eq]
          omega

theorem hash_injOn_of_addAll (h : addAll {} ps = .ok t) {p q : Parameter} (hp : p ∈ ps)
    (hq : q ∈ ps) (heq : p.hash = q.hash) : p = q :=
  List.inj_on_of_nodup_map ((exists_addAll_iff coherent_empty).mp ⟨t, h⟩).nodup hp hq heq

/-- A name is found where the declaration sits that it stands for. -/
theorem finds_iff_binds (h : addAll {} ps = .ok t) {name : String} {k : Kind} {i : UInt16} :
    t.Finds name k i ↔ ∃ p, Binds ps name k i.toNat p := by
  rw [Finds, find_addAll_iff h]
  constructor
  · rintro (hfind | ⟨j, p, hp, hhash, hkind, hi⟩)
    · simp at hfind
    · refine ⟨p, hhash, hkind, ⟨j, hp, ?_⟩, ?_⟩
      · rw [hi]
        cases k <;> exact Nat.zero_add _
      · intro q hq heq
        exact hash_injOn_of_addAll h hq (List.mem_of_getElem? hp) (heq.trans hhash.symm)
  · rintro ⟨p, hhash, hkind, ⟨j, hp, hi⟩, -⟩
    refine .inr ⟨j, p, hp, hhash, hkind, ?_⟩
    rw [hi]
    cases k <;> exact (Nat.zero_add _).symm

theorem find_eq_none_iff (h : addAll {} ps = .ok t) {g : UInt32} :
    t.byHash[g]? = none ↔ ∀ p ∈ ps, p.hash ≠ g := by
  rw [Option.eq_none_iff_forall_ne_some]
  constructor
  · intro hnone p hp hhash
    obtain ⟨j, hj⟩ := List.mem_iff_getElem?.mp hp
    obtain ⟨i, hi⟩ := (coherent_empty.addAll h).exists_slot?_of_holds
      ((holds_addAll_iff h).mpr (.inr ⟨p, hp, rfl, rfl⟩))
    rw [hhash] at hi
    exact hnone _ ((coherent_empty.addAll h).find_of_slot? hi)
  · rintro hall ⟨k, i⟩ hfind
    rcases (find_addAll_iff h).mp hfind with hfind | ⟨j, p, hp, hhash, -⟩
    · simp at hfind
    · exact hall p (List.mem_of_getElem? hp) hhash

theorem contains_declared_iff (h : addAll {} ps = .ok t) {g : UInt32} :
    t.byHash.contains g = true ↔ ∃ p ∈ ps, p.hash = g := by
  rw [Std.HashMap.contains_eq_isSome_getElem?, Option.isSome_iff_ne_none, Ne,
    find_eq_none_iff h]
  simp

/-- A declaration is refused as a second one after another one with its hash. -/
theorem exists_hash_eq_of_duplicate {name : String}
    (h : addAll {} ps = .error (.duplicate name)) :
    ∃ before q after, ps = before ++ q :: after ∧ q.name = name ∧
      ∃ p ∈ before, p.hash = q.hash := by
  obtain ⟨before, q, after, s, hps, hs, hq⟩ := addAll_eq_error_iff.mp h
  rcases add_eq_error_iff.mp hq with ⟨hseen, hname⟩ | ⟨-, -, hname⟩
  · obtain rfl := Refusal.duplicate.inj hname
    exact ⟨before, q, after, hps, rfl, (contains_declared_iff hs).mp hseen⟩
  · cases hname

theorem resolve_eq_unresolved_iff {name context : String} {k : Kind} :
    (t.resolve name k context).outcome = .error (.unresolvedParameter name k context) ↔
      t.byHash[nameHash name]? = none := by
  unfold resolve
  split
  · next found i hi =>
    rw [hi]
    split <;> simp
  · next hnone => simp [hnone]

theorem resolveNumeric_eq_ok_iff {name context : String} {x : Numeric} :
    (t.resolveNumeric name context).outcome = .ok x ↔
      x.kind ≠ .bool ∧ t.Finds name x.kind x.index := by
  refine ⟨resolveNumeric_eq_ok, ?_⟩
  rintro ⟨hkind, hfind⟩
  obtain ⟨k, i⟩ := x
  unfold resolveNumeric
  rw [show t.byHash[nameHash name]? = some (k, i) from hfind]
  cases k with
  | bool => exact absurd rfl hkind
  | int => rfl
  | float => rfl

theorem resolveNumeric_eq_unresolved_iff {name context : String} :
    (t.resolveNumeric name context).outcome =
        .error (.unresolvedParameter name .float context) ↔
      t.byHash[nameHash name]? = none := by
  unfold resolveNumeric
  split
  · next i hi => simp [hi]
  · next k i _ hi => simp [hi]
  · next hnone => simp [hnone]

end Table

end Parameter

namespace Draft

open Parameter (Table)

/-- The conditions of a transition test the parameters that their names stand for. -/
structure Edge.Binds (ps : List Parameter) (a : Transition) (e : Edge) : Prop where
  boolTests : List.Forall₂ (fun (c : BoolCondition) (x : Baked.BoolTest) =>
    (∃ p, Parameter.Binds ps c.parameter .bool x.parameter.toNat p) ∧ x.value = c.value)
    a.boolConditions e.boolTests
  intTests : List.Forall₂ (fun (c : IntCondition) (x : Baked.IntTest) =>
    (∃ p, Parameter.Binds ps c.parameter .int x.parameter.toNat p) ∧
      x.comparator = c.comparator ∧ x.value = c.value) a.intConditions e.intTests

/-- A blend reads the parameters that its names stand for. -/
inductive Motion.Binds (ps : List Parameter) : PoseMachine.Motion → Motion → Prop where
  | clip (c : PoseMachine.Clip) (i : UInt16) : Binds ps (.clip c) (.clip i)
  | line {name : String} {x : Parameter.Numeric} {p : Parameter} (clips : List LineClip)
      (entries : List LineEntry) (hkind : x.kind ≠ .bool)
      (h : Parameter.Binds ps name x.kind x.index.toNat p) :
      Binds ps (.line name clips) (.line x entries)
  | plane {nameX nameY : String} {x y : UInt16} {p q : Parameter} (method : PlaneMethod)
      (clips : List PlaneClip) (entries : List Baked.PlaneEntry)
      (hx : Parameter.Binds ps nameX .float x.toNat p)
      (hy : Parameter.Binds ps nameY .float y.toNat q) :
      Binds ps (.plane nameX nameY method clips) (.plane x y method entries)

structure State.Binds (ps : List Parameter) (leaf : Node × PoseMachine.Motion) (s : State) :
    Prop where
  motion : Motion.Binds ps leaf.2 s.motion
  speedParameter : Option.Rel (fun name i => ∃ p, Parameter.Binds ps name .float (UInt16.toNat i) p)
    leaf.1.speedParameter s.speedParameter
  transitions : List.Forall₂ (Edge.Binds ps) leaf.1.transitions s.transitions

end Draft

/-- Every reference to a parameter in the machine `m` is led to the declaration that its name stands
for. Without leaves there are no transitions from any state. -/
structure Draft.Binds (ps : List Parameter) (m : Machine) (d : Draft) : Prop where
  states : List.Forall₂ (State.Binds ps) m.leaves d.states
  noTransitions : m.leaves = [] → d.anyTransitions = []
  anyTransitions : m.leaves ≠ [] →
    List.Forall₂ (fun a e => Edge.Binds ps a.transition e) m.anyTransitions d.anyTransitions
  exits : ∀ x ∈ d.exits, ∃ (k : Nat) (owner : Node × Border), m.nested[k]? = some owner ∧
    x.sub = k.toUInt32 ∧ List.Forall₂ (Edge.Binds ps) owner.2.exitTransitions x.transitions

namespace Draft

open Parameter (Table)

section Renders

variable {ps : List Parameter} {t : Table} {f : Flat} (h : Table.addAll {} ps = .ok t)

include h

theorem Edge.Renders.binds {allowSelf : Bool} {a : Transition} {e : Edge}
    (he : e.Renders f t allowSelf a) : Edge.Binds ps a e where
  boolTests := he.boolTests.imp fun _ _ hx =>
    ⟨(Table.finds_iff_binds h).mp hx.parameter, hx.value⟩
  intTests := he.intTests.imp fun _ _ hx =>
    ⟨(Table.finds_iff_binds h).mp hx.parameter, hx.comparator, hx.value⟩

theorem Motion.Renders.binds {offset : Nat} {a : PoseMachine.Motion} {x : Motion}
    (hx : Motion.Renders t offset a x) : Motion.Binds ps a x := by
  cases hx with
  | clip c => exact .clip c _
  | line clips hkind hfind =>
      obtain ⟨p, hp⟩ := (Table.finds_iff_binds h).mp hfind
      exact .line clips _ hkind hp
  | plane method clips hx hy =>
      obtain ⟨p, hp⟩ := (Table.finds_iff_binds h).mp hx
      obtain ⟨q, hq⟩ := (Table.finds_iff_binds h).mp hy
      exact .plane method clips _ hp hq

theorem State.Renders.binds {l : Flat.Leaf} {s : State} (hs : State.Renders f t l s) :
    State.Binds ps (l.node, l.motion) s where
  motion := hs.motion.binds h
  speedParameter := by
    have hspeed := hs.speedParameter
    generalize l.node.speedParameter = name, s.speedParameter = i at hspeed ⊢
    cases hspeed with
    | none => exact .none
    | some hfind => exact .some ((Table.finds_iff_binds h).mp hfind)
  transitions := hs.transitions.imp fun _ _ he => he.binds h

theorem Renders.binds {m : Machine} {d : Draft} (hf : f.Flattens m) (hd : d.Renders f t) :
    d.Binds ps m := by
  have hempty : f.leaves = #[] ↔ m.leaves = [] := by
    rw [← hf.leaves, List.map_eq_nil_iff, Array.toList_eq_nil_iff]
  refine ⟨?_, fun hm => hd.noTransitions (hempty.mpr hm), fun hm => ?_, ?_⟩
  · rw [← hf.leaves, List.forall₂_map_left_iff]
    exact hd.states.imp fun _ _ hs => hs.binds h
  · rw [← hf.machine]
    exact (hd.anyTransitions (mt hempty.mp hm)).imp fun _ _ he => he.binds h
  · intro x hx
    obtain ⟨g, -, hg⟩ := exists_related_of_mem_right hd.exits hx
    obtain ⟨s, hs, hes⟩ := hg.transitions
    exact ⟨g.sub, _, hf.sub_at hs, hg.sub, hes.imp fun _ _ he => he.binds h⟩

end Renders

end Draft

/-- A machine is baked from a draft in which every reference is bound. The draft is read back from
the baked machine as long as its states can be numbered. -/
theorem Machine.exists_binds_of_bakeWith {m : Machine} {ps : List Parameter} {cfg : Config}
    {b : Baked} (h : (m.bakeWith ps cfg).outcome = .ok b) :
    ∃ d : Draft, d.pack.outcome = .ok b ∧ d.Binds ps m ∧
      (m.leafCount < 4294967296 → b.unpack = .ok d) := by
  obtain ⟨t, f, d, ht, hf, hd, hb⟩ := bakeWith_eq_ok h
  obtain ⟨hsound, hflattens, -⟩ := Flat.ofMachine_sound hf
  have hrenders := Draft.renders_of_ofFlat hsound hd
  refine ⟨d, hb, Draft.Renders.binds (Parameter.Table.addAll_of_build ht) hflattens hrenders, ?_⟩
  intro hleaves
  have hlength : d.states.length = m.leafCount := by
    rw [hrenders.length_states, hflattens.size_leaves]
  exact (Baked.holdsDraft_of_pack (by omega) hb).unpack

namespace Parameter

/-- Parameters are told apart by the hashes of their names. Declarations are refused as double only
if two of them have the same hash, and a name is resolved only to the one declaration that has its
hash, and has no resolution if there is none. So a machine that was baked reads for every condition,
blend and speed the declaration that has the hash of the name in its graph, which is the
declaration of that very name whenever there is one. -/
theorem binds_by_hash (ps : List Parameter) :
    (∀ name, (Table.build ps).outcome = .error (.duplicateParameter name) →
      ∃ before q after, ps = before ++ q :: after ∧ q.name = name ∧
        ∃ p ∈ before, p.hash = q.hash) ∧
    (∀ t, (Table.build ps).outcome = .ok t → ∀ name context,
      (∀ k i, (t.resolve name k context).outcome = .ok i ↔ ∃ p, Binds ps name k i.toNat p) ∧
      (∀ k, (t.resolve name k context).outcome = .error (.unresolvedParameter name k context) ↔
        ∀ p ∈ ps, p.hash ≠ nameHash name) ∧
      (∀ x, (t.resolveNumeric name context).outcome = .ok x ↔
        x.kind ≠ .bool ∧ ∃ p, Binds ps name x.kind x.index.toNat p) ∧
      ((t.resolveNumeric name context).outcome =
          .error (.unresolvedParameter name .float context) ↔
        ∀ p ∈ ps, p.hash ≠ nameHash name)) ∧
    (∀ (m : Machine) cfg b, (m.bakeWith ps cfg).outcome = .ok b →
      ∃ d : Draft, d.pack.outcome = .ok b ∧ d.Binds ps m ∧
        (m.leafCount < 4294967296 → b.unpack = .ok d)) ∧
    ∀ name k i p, Binds ps name k i p → (∃ q ∈ ps, q.name = name) → p.name = name := by
  refine ⟨?_, ?_, fun _ _ _ => Machine.exists_binds_of_bakeWith, fun _ _ _ _ h => h.name_eq⟩
  · intro name h
    have hall : Table.addAll {} ps = .error (.duplicate name) := by
      unfold Table.build at h
      split at h
      · simp at h
      · next refusal hrefusal =>
        cases refusal with
        | duplicate other =>
            obtain rfl : other = name := by simpa [Table.Refusal.error] using h
            exact hrefusal
        | overflow k count => simp [Table.Refusal.error] at h
    exact Table.exists_hash_eq_of_duplicate hall
  · intro t ht name context
    have hall := Table.addAll_of_build ht
    refine ⟨fun k i => ?_, fun k => ?_, fun x => ?_, ?_⟩
    · rw [Table.resolve_eq_ok, Table.finds_iff_binds hall]
    · rw [Table.resolve_eq_unresolved_iff, Table.find_eq_none_iff hall]
    · rw [Table.resolveNumeric_eq_ok_iff, Table.finds_iff_binds hall]
    · rw [Table.resolveNumeric_eq_unresolved_iff, Table.find_eq_none_iff hall]

theorem binds_by_hash_hopping :
    (∃ t, (Table.build [⟨"grounded", .bool true⟩]).outcome = .ok t ∧
      (t.resolve "grounded" .bool "state 'hop'").outcome = .ok 0 ∧
      (t.resolve "flying" .bool "state 'hop'").outcome =
        .error (.unresolvedParameter "flying" .bool "state 'hop'")) ∧
    (∃ b, (Machine.hopping.bakeWith [⟨"grounded", .bool true⟩] {}).outcome = .ok b ∧
      ∃ d : Draft, d.pack.outcome = .ok b ∧
        d.Binds [⟨"grounded", .bool true⟩] Machine.hopping ∧ b.unpack = .ok d) := by
  obtain ⟨-, htable, hbake, -⟩ := binds_by_hash [⟨"grounded", .bool true⟩]
  obtain ⟨b, hb⟩ := Machine.exists_bakeWith_hopping
  obtain ⟨t, -, -, ht, -⟩ := Machine.bakeWith_eq_ok hb
  obtain ⟨d, hd, hbinds, hunpack⟩ := hbake _ _ _ hb
  refine ⟨⟨t, ht, ?_, ?_⟩, b, hb, d, hd, hbinds, hunpack (by decide)⟩
  · obtain ⟨hresolve, -⟩ := htable t ht "grounded" "state 'hop'"
    rw [hresolve]
    exact ⟨⟨"grounded", .bool true⟩, rfl, rfl, ⟨0, rfl, rfl⟩, by simp⟩
  · obtain ⟨-, hunresolved, -⟩ := htable t ht "flying" "state 'hop'"
    rw [hunresolved]
    simp only [List.mem_singleton, forall_eq, hash]
    decide +kernel

/-- Two names with one hash are taken for one another. -/
theorem resolve_other_name :
    (∃ t, (Table.build [⟨"costarring", .float 0⟩]).outcome = .ok t ∧
      (t.resolve "liquid" .float "state 'a'").outcome = .ok 0 ∧
      ¬ ∃ p ∈ [(⟨"costarring", .float 0⟩ : Parameter)], p.name = "liquid") ∧
    (Table.build [⟨"costarring", .float 0⟩, ⟨"liquid", .float 0⟩]).outcome =
      .error (.duplicateParameter "liquid") := by
  have hsame : nameHash "costarring" = nameHash "liquid" := by decide +kernel
  obtain ⟨t, ht⟩ : ∃ t, Table.addAll {} [⟨"costarring", .float 0⟩] = .ok t := by
    simp [Table.addAll, Table.add, kind, Value.kind, Layout.sizeOf, Table.kindLimit]
  refine ⟨⟨t, by rw [Table.build_of_addAll ht]; rfl, ?_, by simp⟩, ?_⟩
  · rw [Table.resolve_eq_ok, Table.finds_iff_binds ht]
    exact ⟨⟨"costarring", .float 0⟩, hsame, rfl, ⟨0, rfl, rfl⟩, by simp⟩
  · simp [Table.build, Table.addAll, Table.add, hash, kind, Value.kind, Layout.sizeOf,
      Table.kindLimit, hsame, Table.Refusal.error]

end Parameter

end PoseMachine
