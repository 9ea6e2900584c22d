import PoseMachine.Parameter.Buffers
import PoseMachine.Parameter.Table
import PoseMachine.Proofs.Casts
import PoseMachine.Proofs.Outcome

/-!
Parameter tables and live values. A table that was built finds under a hash exactly the slot that
carries it, so a value read by position is the value read by name.
-/

namespace PoseMachine.Parameter

/-- The hash of the slot `i` among those of one kind. -/
def Layout.hash? (l : Layout) (k : Kind) (i : Nat) : Option UInt32 :=
  match k with
  | .bool => l.bools[i]?.map (·.hash)
  | .int => l.ints[i]?.map (·.hash)
  | .float => l.floats[i]?.map (·.hash)

/-- The hash and the default value of the slot `i` among those of one kind. -/
def Layout.slot? (l : Layout) (k : Kind) (i : Nat) : Option (UInt32 × Value) :=
  match k with
  | .bool => l.bools[i]?.map fun s => (s.hash, .bool s.default)
  | .int => l.ints[i]?.map fun s => (s.hash, .int s.default)
  | .float => l.floats[i]?.map fun s => (s.hash, .float s.default)

namespace Layout

variable {l : Layout} {k : Kind} {i : Nat} {h : UInt32} {v : Value}

theorem hash?_eq_map (l : Layout) (k : Kind) (i : Nat) :
    l.hash? k i = (l.slot? k i).map (·.1) := by
  cases k <;> simp [hash?, slot?, Function.comp_def]

theorem slot?_push (l : Layout) (h : UInt32) (v : Value) (k : Kind) (i : Nat) :
    (l.push h v).slot? k i =
      if v.kind = k ∧ i = l.sizeOf k then some (h, v) else l.slot? k i := by
  cases v <;> cases k <;>
    simp only [push, slot?, sizeOf, Value.kind, Array.getElem?_push, reduceCtorEq, false_and,
      true_and, if_false] <;>
    split <;> rfl

theorem hash?_push (l : Layout) (h : UInt32) (v : Value) (k : Kind) (i : Nat) :
    (l.push h v).hash? k i = if v.kind = k ∧ i = l.sizeOf k then some h else l.hash? k i := by
  rw [hash?_eq_map, hash?_eq_map, slot?_push]
  split <;> rfl

theorem kind_of_slot? (hi : l.slot? k i = some (h, v)) : v.kind = k := by
  cases k <;>
    · simp only [slot?, Option.map_eq_some_iff, Prod.mk.injEq] at hi
      obtain ⟨s, -, -, rfl⟩ := hi
      rfl

theorem slot?_eq_none_iff : l.slot? k i = none ↔ l.sizeOf k ≤ i := by
  cases k <;> simp [slot?, sizeOf]

theorem lt_sizeOf_of_slot? (hi : l.slot? k i = some (h, v)) : i < l.sizeOf k := by
  by_contra hle
  rw [slot?_eq_none_iff.mpr (Nat.le_of_not_lt hle)] at hi
  simp at hi

theorem lt_sizeOf_of_hash? (hi : l.hash? k i = some h) : i < l.sizeOf k := by
  rw [hash?_eq_map, Option.map_eq_some_iff] at hi
  obtain ⟨⟨g, v⟩, hslot, -⟩ := hi
  exact lt_sizeOf_of_slot? hslot

end Layout

namespace Table

section Declarations

variable {t u : Table} {p : Parameter} {ps : List Parameter}

/-- A declaration is added if its hash is new and its kind has room. -/
theorem add_eq_ok_iff : t.add p = .ok u ↔
    t.byHash.contains p.hash = false ∧ t.layout.sizeOf p.kind < kindLimit ∧
      u = { byHash := t.byHash.insert p.hash (p.kind, (t.layout.sizeOf p.kind).toUInt16)
            layout := t.layout.push p.hash p.default } := by
  unfold add
  split
  · next hold => simp [hold]
  · next hnew =>
    dsimp only
    split
    · next hroom => simp [hnew, hroom, eq_comm]
    · next hfull => simp [hfull]

theorem addAll_cons_eq_ok_iff : t.addAll (p :: ps) = .ok u ↔
    ∃ s, t.add p = .ok s ∧ s.addAll ps = .ok u := by
  rw [addAll]
  cases t.add p <;> simp

theorem add_eq_error_iff {r : Refusal} : t.add p = .error r ↔
    t.byHash.contains p.hash = true ∧ r = .duplicate p.name ∨
      t.byHash.contains p.hash = false ∧ ¬ t.layout.sizeOf p.kind < kindLimit ∧
        r = .overflow p.kind (t.layout.sizeOf p.kind + 1) := by
  unfold add
  split
  · next hold => simp [hold, eq_comm]
  · next hnew =>
    dsimp only
    split
    · next hroom => simp [hnew, hroom]
    · next hfull => simp [hnew, hfull, eq_comm]

/-- A table is refused at the first declaration that cannot be added. -/
theorem addAll_eq_error_iff {r : Refusal} : t.addAll ps = .error r ↔
    ∃ before p after s, ps = before ++ p :: after ∧ t.addAll before = .ok s ∧
      s.add p = .error r := by
  constructor
  · intro h
    induction ps generalizing t with
    | nil => cases h
    | cons p ps ih =>
        rw [addAll] at h
        cases hp : t.add p with
        | error refusal =>
            rw [hp] at h
            exact ⟨[], p, ps, t, rfl, rfl, hp.trans h⟩
        | ok s =>
            rw [hp] at h
            obtain ⟨before, q, after, v, rfl, hv, hq⟩ := ih h
            exact ⟨p :: before, q, after, v, rfl, addAll_cons_eq_ok_iff.mpr ⟨s, hp, hv⟩, hq⟩
  · rintro ⟨before, p, after, s, rfl, hs, hp⟩
    induction before generalizing t with
    | nil =>
        obtain rfl := Except.ok.inj hs
        rw [List.nil_append, addAll, hp]
    | cons q before ih =>
        obtain ⟨v, hv, hs⟩ := addAll_cons_eq_ok_iff.mp hs
        rw [List.cons_append, addAll, hv]
        exact ih hs

theorem addAll_of_build (h : (build ps).outcome = .ok t) : addAll {} ps = .ok t := by
  unfold build at h
  split at h
  · next u hu =>
    obtain rfl : u = t := by simpa using h
    exact hu
  · simp at h

end Declarations

/-- Looking up a hash finds the slots that carry it and no others, and every position fits its
16 bits. -/
structure Coherent (t : Table) : Prop where
  sizeOf_le : ∀ k, t.layout.sizeOf k ≤ kindLimit
  find_iff : ∀ {h k} {i : UInt16},
    t.byHash[h]? = some (k, i) ↔ t.layout.hash? k i.toNat = some h

theorem coherent_empty : Coherent {} where
  sizeOf_le k := by cases k <;> simp [Layout.sizeOf]
  find_iff := by
    intro h k i
    cases k <;> simp [Layout.hash?]

namespace Coherent

variable {t u : Table} {p : Parameter}

/-- The hash of a slot is found, and the position of the slot fits its 16 bits. -/
theorem find_of_hash? (ht : t.Coherent) {h : UInt32} {k : Kind} {i : Nat}
    (hi : t.layout.hash? k i = some h) :
    t.byHash[h]? = some (k, i.toUInt16) ∧ i.toUInt16.toNat = i := by
  have hround : i.toUInt16.toNat = i :=
    toNat_toUInt16 (Nat.lt_of_lt_of_le (Layout.lt_sizeOf_of_hash? hi) (ht.sizeOf_le k))
  exact ⟨by rw [ht.find_iff, hround, hi], hround⟩

/-- A new hash goes to the position behind the last slot of its kind, where there was none. -/
theorem find_insert_iff (ht : t.Coherent) (hnew : t.byHash.contains p.hash = false)
    (hroom : t.layout.sizeOf p.kind < kindLimit) {h : UInt32} {k : Kind} {i : UInt16} :
    (t.byHash.insert p.hash (p.kind, (t.layout.sizeOf p.kind).toUInt16))[h]? = some (k, i) ↔
      (t.layout.push p.hash p.default).hash? k i.toNat = some h := by
  have hposition : (t.layout.sizeOf p.kind).toUInt16.toNat = t.layout.sizeOf p.kind :=
    toNat_toUInt16 hroom
  have hkind : p.default.kind = p.kind := rfl
  have hunused : t.layout.hash? k i.toNat ≠ some p.hash := by
    intro hi
    rw [← ht.find_iff] at hi
    rw [Std.HashMap.contains_eq_isSome_getElem?, hi] at hnew
    simp at hnew
  rw [Layout.hash?_push, Std.HashMap.getElem?_insert, hkind]
  by_cases hplace : p.kind = k ∧ i.toNat = t.layout.sizeOf k
  · obtain ⟨rfl, hi⟩ := hplace
    obtain rfl : i = (t.layout.sizeOf p.kind).toUInt16 :=
      UInt16.toNat_inj.mp (hi.trans hposition.symm)
    by_cases hh : p.hash = h
    · simp [hh, hposition]
    · have hold : t.byHash[h]? ≠ some (p.kind, (t.layout.sizeOf p.kind).toUInt16) := by
        rw [Ne, ht.find_iff, hposition]
        intro hs
        exact absurd (Layout.lt_sizeOf_of_hash? hs) (Nat.lt_irrefl _)
      simp [hh, hold, hposition]
  · rw [if_neg hplace]
    by_cases hh : p.hash = h
    · subst hh
      have hother : ¬ (p.kind = k ∧ (t.layout.sizeOf p.kind).toUInt16 = i) := by
        rintro ⟨rfl, rfl⟩
        exact hplace ⟨rfl, hposition⟩
      simp [hother, hunused]
    · simp [hh, ht.find_iff]

theorem add (ht : t.Coherent) (h : t.add p = .ok u) : u.Coherent := by
  obtain ⟨hnew, hroom, rfl⟩ := add_eq_ok_iff.mp h
  refine ⟨fun k => ?_, ht.find_insert_iff hnew hroom⟩
  rw [Layout.sizeOf_push]
  split
  · next hk =>
    subst hk
    exact hroom
  · exact ht.sizeOf_le k

theorem addAll {ps : List Parameter} (ht : t.Coherent) (h : t.addAll ps = .ok u) :
    u.Coherent := by
  induction ps generalizing t with
  | nil =>
      obtain rfl := Except.ok.inj h
      exact ht
  | cons p ps ih =>
      obtain ⟨v, hv, h⟩ := addAll_cons_eq_ok_iff.mp h
      exact ih (ht.add hv) h

end Coherent

theorem coherent_of_build {ps : List Parameter} {t : Table} (h : (build ps).outcome = .ok t) :
    t.Coherent :=
  coherent_empty.addAll (addAll_of_build h)

/-- A name leads to the position `i` among the parameters of one kind. -/
def Finds (t : Table) (name : String) (k : Kind) (i : UInt16) : Prop :=
  t.byHash[nameHash name]? = some (k, i)

theorem Finds.lt_sizeOf {t : Table} (ht : t.Coherent) {name : String} {k : Kind} {i : UInt16}
    (h : t.Finds name k i) : i.toNat < t.layout.sizeOf k :=
  Layout.lt_sizeOf_of_hash? (ht.find_iff.mp h)

theorem resolve_eq_ok {t : Table} {name : String} {k : Kind} {context : String} {i : UInt16} :
    (t.resolve name k context).outcome = .ok i ↔ t.Finds name k i := by
  unfold resolve Finds
  split
  · next found j hj =>
    by_cases hk : found = k
    · subst hk
      simp [hj]
    · simp [hj, hk]
  · next hnone => simp [hnone]

theorem resolveNumeric_eq_ok {t : Table} {name context : String} {p : Numeric}
    (h : (t.resolveNumeric name context).outcome = .ok p) :
    p.kind ≠ .bool ∧ t.Finds name p.kind p.index := by
  unfold resolveNumeric at h
  split at h
  · simp at h
  · next k i hk hfound =>
    obtain rfl : (⟨k, i⟩ : Numeric) = p := by simpa using h
    exact ⟨hk, hfound⟩
  · simp at h

end Table

namespace Buffers

def hashes (v : Buffers) : Kind → Array UInt32
  | .bool => v.boolHashes
  | .int => v.intHashes
  | .float => v.floatHashes

theorem position?_eq (v : Buffers) (k : Kind) (h : UInt32) :
    v.position? k h = (v.hashes k).findIdx? (· == h) := by
  cases k <;> rfl

/-- Live values with one place for each slot of a layout, under the hash of the slot. -/
structure Fits (v : Buffers) (l : Layout) : Prop where
  bools : v.bools.size = l.bools.size
  ints : v.ints.size = l.ints.size
  floats : v.floats.size = l.floats.size
  hashes : ∀ k i, (v.hashes k)[i]? = l.hash? k i

theorem fits_ofLayout (l : Layout) : (ofLayout l).Fits l where
  bools := by simp [ofLayout]
  ints := by simp [ofLayout]
  floats := by simp [ofLayout]
  hashes := by
    intro k i
    cases k <;> simp [ofLayout, Buffers.hashes, Layout.hash?]

/-- The values after some parameters have been set by name, one after another. -/
def setAll (v : Buffers) (sets : List (String × Value)) : Buffers :=
  sets.foldl (fun v s => (v.set s.1 s.2).2) v

namespace Fits

variable {v : Buffers} {l : Layout}

theorem setByHash (hv : v.Fits l) (h : UInt32) (x : Value) : (v.setByHash h x).2.Fits l := by
  unfold Buffers.setByHash
  split
  · exact hv
  · cases x with
    | bool b => exact ⟨by simp [hv.bools], hv.ints, hv.floats, hv.hashes⟩
    | int n => exact ⟨hv.bools, by simp [hv.ints], hv.floats, hv.hashes⟩
    | float y => exact ⟨hv.bools, hv.ints, by simp [hv.floats], hv.hashes⟩

theorem set (hv : v.Fits l) (name : String) (x : Value) : (v.set name x).2.Fits l :=
  hv.setByHash (nameHash name) x

theorem setAll (hv : v.Fits l) (sets : List (String × Value)) : (v.setAll sets).Fits l := by
  induction sets generalizing v with
  | nil => exact hv
  | cons s sets ih => exact ih (hv.set s.1 s.2)

theorem yields_bool (hv : v.Fits l) {i : UInt16} (hi : i.toNat < l.bools.size) :
    Yields (v.bool i) fun _ => True :=
  (yields_fetch (by rw [hv.bools]; exact hi)).mono fun _ _ => trivial

theorem yields_int (hv : v.Fits l) {i : UInt16} (hi : i.toNat < l.ints.size) :
    Yields (v.int i) fun _ => True :=
  (yields_fetch (by rw [hv.ints]; exact hi)).mono fun _ _ => trivial

theorem yields_float (hv : v.Fits l) {i : UInt16} (hi : i.toNat < l.floats.size) :
    Yields (v.float i) fun _ => True :=
  (yields_fetch (by rw [hv.floats]; exact hi)).mono fun _ _ => trivial

variable {t : Table} {h : UInt32} {k : Kind} {i : UInt16}

theorem position?_of_find (hv : v.Fits t.layout) (ht : t.Coherent)
    (hfind : t.byHash[h]? = some (k, i)) : v.position? k h = some i.toNat := by
  have hslot : (v.hashes k)[i.toNat]? = some h := by
    rw [hv.hashes, ← ht.find_iff]
    exact hfind
  obtain ⟨hi, hget⟩ := Array.getElem?_eq_some_iff.mp hslot
  rw [position?_eq, Array.findIdx?_eq_some_iff_getElem]
  refine ⟨hi, by simp [hget], ?_⟩
  intro j hj hsame
  -- The slot at an earlier place with the same hash would be found under it as well.
  have hother : t.layout.hash? k j = some h := by
    rw [← hv.hashes, Array.getElem?_eq_getElem (Nat.lt_trans hj hi)]
    simpa using hsame
  obtain ⟨hfound, hround⟩ := ht.find_of_hash? hother
  have heq : i = j.toUInt16 := by
    rw [hfind] at hfound
    simpa using hfound
  rw [heq, hround] at hj
  exact Nat.lt_irrefl _ hj

theorem position?_eq_none (hv : v.Fits t.layout) (ht : t.Coherent)
    (hnone : ∀ j, t.byHash[h]? ≠ some (k, j)) : v.position? k h = none := by
  rw [Option.eq_none_iff_forall_ne_some]
  intro j hj
  rw [position?_eq, Array.findIdx?_eq_some_iff_getElem] at hj
  obtain ⟨hlt, hsame, -⟩ := hj
  have hslot : t.layout.hash? k j = some h := by
    rw [← hv.hashes, Array.getElem?_eq_getElem hlt]
    simpa using hsame
  exact hnone _ (ht.find_of_hash? hslot).1

theorem position?_of_find_other (hv : v.Fits t.layout) (ht : t.Coherent)
    (hfind : t.byHash[h]? = some (k, i)) {k' : Kind} (hk : k' ≠ k) :
    v.position? k' h = none := by
  refine hv.position?_eq_none ht fun j hj => hk ?_
  rw [hfind, Option.some_inj, Prod.mk.injEq] at hj
  exact hj.1.symm

/-- A Bool read at its resolved position is the Bool read by its name. -/
theorem bool_of_find (hv : v.Fits t.layout) (ht : t.Coherent) {name : String}
    (hfind : t.Finds name .bool i) :
    ∃ x, v.bool i = .ok x ∧ v.get? name = some (.bool x) := by
  have hi : i.toNat < v.bools.size := by
    rw [hv.bools]
    exact hfind.lt_sizeOf ht
  refine ⟨v.bools[i.toNat], ?_, ?_⟩
  · rw [Buffers.bool, fetch_eq_ok_iff]
    simp [hi]
  · simp [get?, hv.position?_of_find ht hfind, hi]

/-- An Int read at its resolved position is the Int read by its name. -/
theorem int_of_find (hv : v.Fits t.layout) (ht : t.Coherent) {name : String}
    (hfind : t.Finds name .int i) :
    ∃ x, v.int i = .ok x ∧ v.get? name = some (.int x) := by
  have hi : i.toNat < v.ints.size := by
    rw [hv.ints]
    exact hfind.lt_sizeOf ht
  refine ⟨v.ints[i.toNat], ?_, ?_⟩
  · rw [Buffers.int, fetch_eq_ok_iff]
    simp [hi]
  · have hbool : v.position? .bool (nameHash name) = none :=
      hv.position?_of_find_other ht hfind (by simp)
    simp [get?, hbool, hv.position?_of_find ht hfind, hi]

end Fits

end Buffers

end PoseMachine.Parameter
