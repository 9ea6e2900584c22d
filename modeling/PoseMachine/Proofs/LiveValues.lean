import PoseMachine.Proofs.Declarations
import PoseMachine.Proofs.ReorderedRuns

/-!
Live values as one typed map. A set reaches the one parameter that has its hash and the kind of its
value, or nothing; a name and the position it resolves to read the same value, which is the one set
last.
-/

namespace PoseMachine.Parameter

/-- A set of a live value, by name or by hash. -/
inductive Assignment where
  | byName (name : String) (value : Value)
  | byHash (hash : UInt32) (value : Value)

namespace Assignment

def hash : Assignment → UInt32
  | byName name _ => nameHash name
  | byHash hash _ => hash

def value : Assignment → Value
  | byName _ value => value
  | byHash _ value => value

/-- The assignment is to the parameter with this hash and this kind. -/
def Reaches (a : Assignment) (h : UInt32) (k : Kind) : Prop := a.hash = h ∧ a.value.kind = k

instance (a : Assignment) (h : UInt32) (k : Kind) : Decidable (a.Reaches h k) :=
  inferInstanceAs (Decidable (_ ∧ _))

/-- The value of the last assignment to a parameter, `initial` if there is none. -/
def latest (h : UInt32) (k : Kind) (initial : Value) (as : List Assignment) : Value :=
  ((as.filter (·.Reaches h k)).map value).getLastD initial

theorem latest_cons (h : UInt32) (k : Kind) (initial : Value) (a : Assignment)
    (as : List Assignment) :
    latest h k initial (a :: as) = latest h k (if a.Reaches h k then a.value else initial) as := by
  unfold latest
  by_cases hreaches : a.Reaches h k
  · rw [List.filter_cons_of_pos (by simpa using hreaches), List.map_cons, List.getLastD_cons,
      if_pos hreaches]
  · rw [List.filter_cons_of_neg (by simpa using hreaches), if_neg hreaches]

end Assignment

namespace Buffers

def assign (v : Buffers) : Assignment → Bool × Buffers
  | .byName name x => v.set name x
  | .byHash h x => v.setByHash h x

def assignAll (v : Buffers) : List Assignment → Buffers
  | [] => v
  | a :: as => (v.assign a).2.assignAll as

theorem assign_eq (v : Buffers) (a : Assignment) : v.assign a = v.setByHash a.hash a.value := by
  cases a <;> rfl

theorem assign_of_position? {v : Buffers} {a : Assignment}
    (h : v.position? a.value.kind a.hash = none) : v.assign a = (false, v) := by
  rw [assign_eq, setByHash, h]

/-- A set that finds a position is a write at that position. -/
theorem put_eq_assign {v : Buffers} {a : Assignment} {i : UInt16} {y : Value}
    (h : v.position? a.value.kind a.hash = some i.toNat) (hread : v.read a.value.kind i = .ok y) :
    (v.assign a).1 = true ∧ v.put i a.value = .ok (v.assign a).2 := by
  rw [assign_eq, setByHash, h]
  refine ⟨rfl, ?_⟩
  have hstore {α : Type} {xs : Array α} {x : α} (z : α) (hx : fetch xs i.toNat = .ok x) :
      store xs i.toNat z = .ok (xs.setIfInBounds i.toNat z) :=
    if_pos (Array.getElem?_eq_some_iff.mp (fetch_eq_ok_iff.mp hx)).1
  generalize a.value = z at hread
  cases z with
  | bool c =>
      obtain ⟨x, hx, -⟩ := map_eq_ok_iff.mp hread
      rw [put, hstore c hx]
      rfl
  | int n =>
      obtain ⟨x, hx, -⟩ := map_eq_ok_iff.mp hread
      rw [put, hstore n hx]
      rfl
  | float r =>
      obtain ⟨x, hx, -⟩ := map_eq_ok_iff.mp hread
      rw [put, hstore r hx]
      rfl

namespace Fits

variable {v : Buffers} {l : Layout}

theorem assign (hv : v.Fits l) (a : Assignment) : (v.assign a).2.Fits l := by
  rw [assign_eq]
  exact hv.setByHash a.hash a.value

theorem assignAll (hv : v.Fits l) (as : List Assignment) : (v.assignAll as).Fits l := by
  induction as generalizing v with
  | nil => exact hv
  | cons a as ih => exact ih (hv.assign a)

section Table

variable {t : Table} (hv : v.Fits t.layout) (ht : t.Coherent) {k : Kind} {i : UInt16}

include hv ht

/-- A name that leads to a position reads the value there, whatever its kind. -/
theorem get?_of_finds {name : String} (h : t.Finds name k i) :
    ∃ x, v.read k i = .ok x ∧ v.get? name = some x := by
  obtain ⟨x, hx⟩ := hv.exists_read ht h
  refine ⟨x, hx, ?_⟩
  have hposition := hv.position?_of_find ht h
  have hother (k' : Kind) (hk : k' ≠ k) : v.position? k' (nameHash name) = none :=
    hv.position?_of_find_other ht h hk
  cases k with
  | bool =>
      obtain ⟨b, hb, rfl⟩ := map_eq_ok_iff.mp hx
      have hget : v.bools[i.toNat]? = some b := fetch_eq_ok_iff.mp hb
      simp [get?, hposition, hget]
  | int =>
      obtain ⟨n, hn, rfl⟩ := map_eq_ok_iff.mp hx
      have hget : v.ints[i.toNat]? = some n := fetch_eq_ok_iff.mp hn
      simp [get?, hother .bool (by simp), hposition, hget]
  | float =>
      obtain ⟨r, hr, rfl⟩ := map_eq_ok_iff.mp hx
      have hget : v.floats[i.toNat]? = some r := fetch_eq_ok_iff.mp hr
      simp [get?, hother .bool (by simp), hother .int (by simp), hposition, hget]

theorem get?_eq_none {name : String} (h : t.byHash[nameHash name]? = none) :
    v.get? name = none := by
  have hnone (k : Kind) : v.position? k (nameHash name) = none :=
    hv.position?_eq_none ht fun j => by simp [h]
  simp [get?, hnone]

/-- A set finds its parameter under the hash, if it has the kind of the value, and then writes to
its position. -/
theorem assign_of_find {a : Assignment} (h : t.byHash[a.hash]? = some (a.value.kind, i)) :
    (v.assign a).1 = true ∧ v.put i a.value = .ok (v.assign a).2 ∧
      ∀ k j, (v.assign a).2.read k j =
        if k = a.value.kind ∧ j = i then .ok a.value else v.read k j := by
  obtain ⟨y, hy⟩ := hv.exists_read ht h
  have hposition := hv.position?_of_find ht h
  obtain ⟨hfound, hput⟩ := put_eq_assign hposition hy
  refine ⟨hfound, hput, ?_⟩
  rw [assign_eq]
  exact read_setByHash hposition hy

theorem assign_of_not_found {a : Assignment}
    (h : ∀ j, t.byHash[a.hash]? ≠ some (a.value.kind, j)) : v.assign a = (false, v) :=
  assign_of_position? (hv.position?_eq_none ht h)

/-- One set changes the value of a parameter if it is to that parameter. -/
theorem read_assign {h : UInt32} (hfind : t.byHash[h]? = some (k, i)) {y : Value}
    (hread : v.read k i = .ok y) (a : Assignment) :
    (v.assign a).2.read k i = .ok (if a.Reaches h k then a.value else y) := by
  by_cases hfound : ∃ j, t.byHash[a.hash]? = some (a.value.kind, j)
  · obtain ⟨j, hj⟩ := hfound
    obtain ⟨-, -, hwrites⟩ := hv.assign_of_find ht hj
    -- Two hashes with one position are the same hash.
    have hplace : k = a.value.kind ∧ i = j ↔ a.Reaches h k := by
      constructor
      · rintro ⟨rfl, rfl⟩
        have hhash := ht.find_iff.mp hj
        rw [ht.find_iff.mp hfind] at hhash
        exact ⟨(Option.some.inj hhash).symm, rfl⟩
      · rintro ⟨rfl, rfl⟩
        rw [hfind] at hj
        exact ⟨rfl, (Prod.mk.inj (Option.some.inj hj)).2⟩
    rw [hwrites, hread]
    simp only [hplace]
    split <;> rfl
  · have hmisses : ¬ a.Reaches h k := by
      rintro ⟨rfl, rfl⟩
      exact hfound ⟨i, hfind⟩
    rw [hv.assign_of_not_found ht fun j hj => hfound ⟨j, hj⟩, if_neg hmisses, hread]

/-- After any sets a parameter has the value that was set last. -/
theorem read_assignAll {h : UInt32} (hfind : t.byHash[h]? = some (k, i)) {y : Value}
    (hread : v.read k i = .ok y) (as : List Assignment) :
    (v.assignAll as).read k i = .ok (Assignment.latest h k y as) := by
  induction as generalizing v y with
  | nil => exact hread
  | cons a as ih =>
      rw [Assignment.latest_cons]
      exact ih (hv.assign a) (hv.read_assign ht hfind hread a)

end Table

end Fits

end Buffers

namespace Table

variable {ps : List Parameter} {t : Table} (h : addAll {} ps = .ok t)

include h

/-- A hash is found with a kind just when a declaration has both. -/
theorem exists_find_iff {g : UInt32} {k : Kind} :
    (∃ i, t.byHash[g]? = some (k, i)) ↔ ∃ p ∈ ps, p.hash = g ∧ p.kind = k := by
  constructor
  · rintro ⟨i, hi⟩
    rcases (find_addAll_iff h).mp hi with hempty | ⟨j, p, hp, hhash, hkind, -⟩
    · simp at hempty
    · exact ⟨p, List.mem_of_getElem? hp, hhash, hkind⟩
  · rintro ⟨p, hp, rfl, rfl⟩
    obtain ⟨j, hj⟩ := List.mem_iff_getElem?.mp hp
    obtain ⟨i, -, hfind⟩ := find_declared h hj
    exact ⟨i, hfind⟩

/-- A declaration is found at a position where its default value is to begin with. -/
theorem exists_find_read {p : Parameter} (hp : p ∈ ps) : ∃ i,
    t.byHash[p.hash]? = some (p.kind, i) ∧ t.layout.slot? p.kind i.toNat = some (p.hash, p.default) ∧
      (Buffers.ofLayout t.layout).read p.kind i = .ok p.default := by
  obtain ⟨j, hj⟩ := List.mem_iff_getElem?.mp hp
  obtain ⟨i, hi, hfind⟩ := find_declared h hj
  have hslot := slot?_declared h hj
  rw [← hi] at hslot
  refine ⟨i, hfind, hslot, ?_⟩
  rw [Buffers.read_ofLayout, hslot]

end Table

/-- Live values of a table are a typed map. A set is accepted if some declaration has its hash and
the kind of its value; then it writes to the slot of that declaration and to no other one, and
otherwise it changes nothing. A name reads the value set last, the default if there is none, and
nothing if it is not declared, and the position it resolves to reads the same. -/
theorem values_are_typed_map {ps : List Parameter} {t : Table}
    (h : (Table.build ps).outcome = .ok t) (as : List Assignment) :
    let v := (Buffers.ofLayout t.layout).assignAll as
    (∀ a, ((v.assign a).1 = true ↔ ∃ p ∈ ps, p.hash = a.hash ∧ p.kind = a.value.kind) ∧
      ((v.assign a).1 = false → (v.assign a).2 = v) ∧
      ∀ p ∈ ps, p.hash = a.hash → p.kind = a.value.kind → ∃ i,
        t.layout.slot? p.kind i.toNat = some (p.hash, p.default) ∧
        v.put i a.value = .ok (v.assign a).2 ∧
        ∀ k j, (v.assign a).2.read k j =
          if k = p.kind ∧ j = i then .ok a.value else v.read k j) ∧
    (∀ name, v.get? name = none ↔ ∀ p ∈ ps, p.hash ≠ nameHash name) ∧
    (∀ name, ∀ p ∈ ps, p.hash = nameHash name →
      v.get? name = some (Assignment.latest p.hash p.kind p.default as)) ∧
    ∀ name k context i, (t.resolve name k context).outcome = .ok i →
      ∃ x, v.read k i = .ok x ∧ v.get? name = some x := by
  have hall := Table.addAll_of_build h
  have ht := Table.coherent_of_build h
  have hempty := Buffers.fits_ofLayout t.layout
  have hv := hempty.assignAll as
  have hnamed (name : String) (p : Parameter) (hp : p ∈ ps) (hhash : p.hash = nameHash name) :
      ((Buffers.ofLayout t.layout).assignAll as).get? name =
        some (Assignment.latest p.hash p.kind p.default as) := by
    obtain ⟨i, hfind, -, hread⟩ := Table.exists_find_read hall hp
    obtain ⟨x, hx, hget⟩ := hv.get?_of_finds ht
      (show t.Finds name p.kind i by rw [Table.Finds, ← hhash, hfind])
    rw [hempty.read_assignAll ht hfind hread] at hx
    rw [hget, Except.ok.inj hx]
  refine ⟨fun a => ?_, fun name => ?_, hnamed, fun name k context i hi => ?_⟩
  · by_cases hfound : ∃ i, t.byHash[a.hash]? = some (a.value.kind, i)
    · have hdeclared := (Table.exists_find_iff hall).mp hfound
      obtain ⟨i, hi⟩ := hfound
      obtain ⟨hok, hput, hwrites⟩ := hv.assign_of_find ht hi
      refine ⟨iff_of_true hok hdeclared, by simp [hok], ?_⟩
      intro p hp hhash hkind
      obtain ⟨j, hj, hslot, -⟩ := Table.exists_find_read hall hp
      obtain rfl : j = i := by
        rw [hhash, hi] at hj
        exact (Prod.mk.inj (Option.some.inj hj)).2.symm
      refine ⟨j, hslot, hput, ?_⟩
      rw [hkind]
      exact hwrites
    · have hrefused := hv.assign_of_not_found ht fun j hj => hfound ⟨j, hj⟩
      have hundeclared := mt (Table.exists_find_iff hall).mpr hfound
      rw [hrefused]
      exact ⟨iff_of_false (by simp) hundeclared, fun _ => rfl,
        fun p hp hhash hkind => absurd ⟨p, hp, hhash, hkind⟩ hundeclared⟩
  · constructor
    · intro hnone p hp hhash
      rw [hnamed name p hp hhash] at hnone
      cases hnone
    · intro hundeclared
      exact hv.get?_eq_none ht ((Table.find_eq_none_iff hall).mpr hundeclared)
  · exact hv.get?_of_finds ht (Table.resolve_eq_ok.mp hi)

/-- A refused set between two that are accepted. -/
theorem values_are_typed_map_gait : ∃ t, (Table.build gait).outcome = .ok t ∧
    let v := (Buffers.ofLayout t.layout).assignAll
      [.byName "lean" (.float 3), .byName "lean" (.bool false), .byHash (nameHash "step") (.int 7)]
    v.get? "lean" = some (.float 3) ∧ v.get? "step" = some (.int 7) ∧
      v.get? "pace" = some (.float 1) ∧ v.get? "limp" = none ∧
      (v.assign (.byName "lean" (.bool false))).1 = false := by
  have hnodup : (gait.map (·.hash)).Nodup := by decide +kernel
  have hroom : ∀ k, gait.countP (·.kind = k) ≤ 65536 := by
    intro k
    cases k <;> decide
  obtain ⟨t, ht⟩ := Table.exists_build_iff.mpr ⟨hnodup, hroom⟩
  obtain ⟨haccepted, hnone, hlatest, -⟩ := values_are_typed_map ht
    [.byName "lean" (.float 3), .byName "lean" (.bool false), .byHash (nameHash "step") (.int 7)]
  have hpace : nameHash "lean" ≠ nameHash "pace" ∧ nameHash "step" ≠ nameHash "pace" := by
    decide +kernel
  refine ⟨t, ht, ?_, ?_, ?_, ?_, ?_⟩
  · rw [hlatest "lean" ⟨"lean", .float 0⟩ (by simp [gait]) rfl]
    simp [Assignment.latest, Assignment.Reaches, Assignment.hash, Assignment.value, Value.kind,
      Parameter.hash, Parameter.kind]
  · rw [hlatest "step" ⟨"step", .int 2⟩ (by simp [gait]) rfl]
    simp [Assignment.latest, Assignment.Reaches, Assignment.hash, Assignment.value, Value.kind,
      Parameter.hash, Parameter.kind]
  · rw [hlatest "pace" ⟨"pace", .float 1⟩ (by simp [gait]) rfl]
    simp [Assignment.latest, Assignment.Reaches, Assignment.hash, Assignment.value, Value.kind,
      Parameter.hash, Parameter.kind, hpace]
  · exact (hnone "limp").mpr (by decide +kernel)
  · rw [← Bool.not_eq_true, (haccepted (.byName "lean" (.bool false))).1]
    decide +kernel

end PoseMachine.Parameter
