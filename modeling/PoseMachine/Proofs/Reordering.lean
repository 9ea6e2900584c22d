import Mathlib.Data.List.Nodup
import PoseMachine.Proofs.Parameters

/-!
Declarations in another order. A table accepts them in every order or in none, and two tables of the
same declarations differ only in where each parameter sits among its kind.
-/

namespace PoseMachine.Parameter

namespace Table

variable {t u : Table} {p : Parameter} {ps : List Parameter}

/-- Some slot has this hash and this default value. -/
def Holds (t : Table) (h : UInt32) (v : Value) : Prop :=
  ∃ i, t.layout.slot? v.kind i = some (h, v)

theorem holds_add_iff (h : t.add p = .ok u) {g : UInt32} {v : Value} :
    u.Holds g v ↔ t.Holds g v ∨ p.hash = g ∧ p.default = v := by
  obtain ⟨-, -, rfl⟩ := add_eq_ok_iff.mp h
  simp only [Holds, Layout.slot?_push]
  constructor
  · rintro ⟨i, hi⟩
    split at hi
    · exact .inr (by simpa using hi)
    · exact .inl ⟨i, hi⟩
  · rintro (⟨i, hi⟩ | ⟨rfl, rfl⟩)
    · refine ⟨i, ?_⟩
      rw [if_neg, hi]
      rintro ⟨-, rfl⟩
      exact Nat.lt_irrefl _ (Layout.lt_sizeOf_of_slot? hi)
    · exact ⟨t.layout.sizeOf p.default.kind, if_pos ⟨rfl, rfl⟩⟩

theorem holds_addAll_iff (h : t.addAll ps = .ok u) {g : UInt32} {v : Value} :
    u.Holds g v ↔ t.Holds g v ∨ ∃ p ∈ ps, p.hash = g ∧ p.default = v := by
  induction ps generalizing t with
  | nil =>
      obtain rfl := Except.ok.inj h
      simp
  | cons p ps ih =>
      obtain ⟨s, hs, h⟩ := addAll_cons_eq_ok_iff.mp h
      rw [ih h, holds_add_iff hs, or_assoc]
      simp

theorem sizeOf_push_add_countP (l : Layout) (p : Parameter) (ps : List Parameter) (k : Kind) :
    (l.push p.hash p.default).sizeOf k + ps.countP (·.kind = k) =
      l.sizeOf k + (p :: ps).countP (·.kind = k) := by
  have hkind : p.default.kind = p.kind := rfl
  rw [Layout.sizeOf_push, hkind, List.countP_cons]
  simp only [decide_eq_true_eq]
  omega

theorem sizeOf_addAll (h : t.addAll ps = .ok u) (k : Kind) :
    u.layout.sizeOf k = t.layout.sizeOf k + ps.countP (·.kind = k) := by
  induction ps generalizing t with
  | nil =>
      obtain rfl := Except.ok.inj h
      rfl
  | cons p ps ih =>
      obtain ⟨s, hs, h⟩ := addAll_cons_eq_ok_iff.mp h
      obtain ⟨-, -, rfl⟩ := add_eq_ok_iff.mp hs
      rw [ih h, sizeOf_push_add_countP]

/-- Declarations are accepted if every hash is new and every kind has room for all of its own. -/
structure Accepts (t : Table) (ps : List Parameter) : Prop where
  nodup : (ps.map (·.hash)).Nodup
  fresh : ∀ p ∈ ps, t.byHash.contains p.hash = false
  room : ∀ k, t.layout.sizeOf k + ps.countP (·.kind = k) ≤ kindLimit

theorem Accepts.perm {ps' : List Parameter} (h : t.Accepts ps) (hperm : ps.Perm ps') :
    t.Accepts ps' where
  nodup := (hperm.map _).nodup_iff.mp h.nodup
  fresh := fun p hp => h.fresh p (hperm.mem_iff.mpr hp)
  room := fun k => by
    rw [← hperm.countP_eq]
    exact h.room k

/-- The first declaration is accepted, and the others by the table that has it. -/
theorem accepts_cons_iff {s : Table} (hs : t.add p = .ok s) :
    t.Accepts (p :: ps) ↔ s.Accepts ps := by
  obtain ⟨hnew, -, rfl⟩ := add_eq_ok_iff.mp hs
  constructor
  · rintro ⟨hnodup, hfresh, hsize⟩
    rw [List.map_cons, List.nodup_cons] at hnodup
    refine ⟨hnodup.2, fun q hq => ?_, fun k => ?_⟩
    · have hne : p.hash ≠ q.hash := fun heq => hnodup.1 (heq ▸ List.mem_map_of_mem hq)
      rw [Std.HashMap.contains_insert, beq_eq_false_iff_ne.mpr hne, Bool.false_or]
      exact hfresh q (List.mem_cons_of_mem _ hq)
    · rw [sizeOf_push_add_countP]
      exact hsize k
  · rintro ⟨hnodup, hfresh, hsize⟩
    have hother (q : Parameter) (hq : q ∈ ps) :
        p.hash ≠ q.hash ∧ t.byHash.contains q.hash = false := by
      have := hfresh q hq
      rw [Std.HashMap.contains_insert, Bool.or_eq_false_iff, beq_eq_false_iff_ne] at this
      exact this
    refine ⟨?_, ?_, fun k => ?_⟩
    · rw [List.map_cons, List.nodup_cons]
      refine ⟨fun hmem => ?_, hnodup⟩
      obtain ⟨q, hq, heq⟩ := List.mem_map.mp hmem
      exact (hother q hq).1 heq.symm
    · intro q hq
      rcases List.mem_cons.mp hq with rfl | hq
      · exact hnew
      · exact (hother q hq).2
    · rw [← sizeOf_push_add_countP]
      exact hsize k

theorem exists_addAll_iff (ht : t.Coherent) : (∃ u, t.addAll ps = .ok u) ↔ t.Accepts ps := by
  induction ps generalizing t with
  | nil =>
      refine iff_of_true ⟨t, rfl⟩ ⟨List.nodup_nil, by simp, fun k => ?_⟩
      exact ht.sizeOf_le k
  | cons p ps ih =>
      constructor
      · rintro ⟨u, hu⟩
        obtain ⟨s, hs, hu⟩ := addAll_cons_eq_ok_iff.mp hu
        exact (accepts_cons_iff hs).mpr ((ih (ht.add hs)).mp ⟨u, hu⟩)
      · intro h
        have hroom : t.layout.sizeOf p.kind < kindLimit := by
          have := h.room p.kind
          rw [List.countP_cons_of_pos (by simp)] at this
          omega
        have hs := add_eq_ok_iff.mpr ⟨h.fresh p List.mem_cons_self, hroom, rfl⟩
        obtain ⟨u, hu⟩ := (ih (ht.add hs)).mpr ((accepts_cons_iff hs).mp h)
        exact ⟨u, addAll_cons_eq_ok_iff.mpr ⟨_, hs, hu⟩⟩

theorem build_of_addAll (h : addAll {} ps = .ok t) : build ps = pure t := by
  rw [build, h]

/-- `σ` leads from the position of every parameter in one table to its position in another one. -/
structure Renames (σ : Kind → UInt16 → UInt16) (t t' : Table) : Prop where
  find : ∀ h : UInt32, t'.byHash[h]? = t.byHash[h]?.map fun p => (p.1, σ p.1 p.2)
  slot : ∀ k i, t'.layout.slot? k (σ k i).toNat = t.layout.slot? k i.toNat
  injective : ∀ k, Function.Injective (σ k)

/-- Where the parameter at a position of one table sits in another one. What is no parameter stays
where it is. -/
def positionIn (t t' : Table) (k : Kind) (i : UInt16) : UInt16 :=
  match t.layout.slot? k i.toNat with
  | some (h, _) => (t'.byHash[h]?.map Prod.snd).getD i
  | none => i

section Renames

variable {t' : Table}

theorem Coherent.find_of_slot? (ht : t.Coherent) {k : Kind} {i : UInt16} {h : UInt32} {v : Value}
    (hi : t.layout.slot? k i.toNat = some (h, v)) : t.byHash[h]? = some (k, i) := by
  rw [ht.find_iff, Layout.hash?_eq_map, hi, Option.map_some]

theorem Coherent.exists_slot? (ht : t.Coherent) {k : Kind} {i : UInt16} {h : UInt32}
    (hfind : t.byHash[h]? = some (k, i)) : ∃ v, t.layout.slot? k i.toNat = some (h, v) := by
  rw [ht.find_iff, Layout.hash?_eq_map, Option.map_eq_some_iff] at hfind
  obtain ⟨⟨g, v⟩, hslot, rfl⟩ := hfind
  exact ⟨v, hslot⟩

theorem Coherent.exists_slot?_of_holds (ht : t.Coherent) {h : UInt32} {v : Value}
    (hv : t.Holds h v) : ∃ i : UInt16, t.layout.slot? v.kind i.toNat = some (h, v) := by
  obtain ⟨i, hi⟩ := hv
  have hhash : t.layout.hash? v.kind i = some h := by
    rw [Layout.hash?_eq_map, hi, Option.map_some]
  exact ⟨i.toUInt16, by rw [(ht.find_of_hash? hhash).2, hi]⟩

theorem positionIn_of_none {k : Kind} {i : UInt16} (hi : t.layout.slot? k i.toNat = none) :
    positionIn t t' k i = i := by
  rw [positionIn, hi]

section Positions

variable (ht : t.Coherent) (ht' : t'.Coherent)
  (hsize : ∀ k, t'.layout.sizeOf k = t.layout.sizeOf k)
  (hholds : ∀ h v, t'.Holds h v ↔ t.Holds h v)

include ht' hsize hholds in
/-- The same hash and default value are at the new position. -/
theorem slot?_positionIn (k : Kind) (i : UInt16) :
    t'.layout.slot? k (positionIn t t' k i).toNat = t.layout.slot? k i.toNat := by
  cases hi : t.layout.slot? k i.toNat with
  | some x =>
      obtain ⟨h, v⟩ := x
      obtain rfl := Layout.kind_of_slot? hi
      obtain ⟨j, hj⟩ := ht'.exists_slot?_of_holds ((hholds h v).mpr ⟨_, hi⟩)
      have hposition : positionIn t t' v.kind i = j := by
        simp [positionIn, hi, ht'.find_of_slot? hj]
      rw [hposition, hj]
  | none =>
      rw [positionIn_of_none hi, Layout.slot?_eq_none_iff, hsize, ← Layout.slot?_eq_none_iff, hi]

include ht ht' hsize hholds

theorem find_positionIn (h : UInt32) :
    t'.byHash[h]? = t.byHash[h]?.map fun p => (p.1, positionIn t t' p.1 p.2) := by
  cases hfind : t.byHash[h]? with
  | some p =>
      obtain ⟨k, i⟩ := p
      obtain ⟨v, hv⟩ := ht.exists_slot? hfind
      exact ht'.find_of_slot? ((slot?_positionIn ht' hsize hholds k i).trans hv)
  | none =>
      rw [Option.map_none, Option.eq_none_iff_forall_ne_some]
      rintro ⟨k, j⟩ hj
      obtain ⟨v, hv⟩ := ht'.exists_slot? hj
      obtain rfl := Layout.kind_of_slot? hv
      obtain ⟨i, hi⟩ := ht.exists_slot?_of_holds ((hholds h v).mp ⟨_, hv⟩)
      rw [ht.find_of_slot? hi] at hfind
      simp at hfind

theorem positionIn_injective (k : Kind) : Function.Injective (positionIn t t' k) := by
  intro i j hij
  have hslot := slot?_positionIn ht' hsize hholds k
  have hsame : t.layout.slot? k i.toNat = t.layout.slot? k j.toNat := by
    rw [← hslot, ← hslot, hij]
  cases hi : t.layout.slot? k i.toNat with
  | some x =>
      -- One hash is found at one position only.
      have hfind := ht.find_of_slot? hi
      rw [ht.find_of_slot? (hsame.symm.trans hi)] at hfind
      simpa using hfind.symm
  | none =>
      rw [positionIn_of_none hi, positionIn_of_none (hsame.symm.trans hi)] at hij
      exact hij

/-- Tables that hold the same parameters differ only in their positions. -/
theorem renames_positionIn : Renames (positionIn t t') t t' where
  find := find_positionIn ht ht' hsize hholds
  slot := slot?_positionIn ht' hsize hholds
  injective := positionIn_injective ht ht' hsize hholds

end Positions

end Renames

theorem Renames.refl (t : Table) : Renames (fun _ i => i) t t where
  find h := by simp
  slot _ _ := rfl
  injective _ := Function.injective_id

/-- Declarations in another order are accepted as well, at other positions. -/
theorem exists_renames_of_perm {ps' : List Parameter} (hperm : ps.Perm ps')
    (hall : addAll {} ps = .ok t) : ∃ t' σ, addAll {} ps' = .ok t' ∧ Renames σ t t' := by
  obtain ⟨t', hall'⟩ := (exists_addAll_iff coherent_empty).mpr
    (((exists_addAll_iff coherent_empty).mp ⟨t, hall⟩).perm hperm)
  refine ⟨t', positionIn t t', hall', ?_⟩
  refine renames_positionIn (coherent_empty.addAll hall) (coherent_empty.addAll hall') ?_ ?_
  · intro k
    rw [sizeOf_addAll hall, sizeOf_addAll hall', hperm.countP_eq]
  · intro g v
    simp only [holds_addAll_iff hall, holds_addAll_iff hall', hperm.mem_iff]

end Table

end PoseMachine.Parameter
