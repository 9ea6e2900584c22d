import PoseMachine.Proofs.Binding

/-!
Which lists of declarations make a table, and what is in it. The first declaration that repeats a
hash or is one too many of its kind ends the table. Without one, every declaration has a slot, in
the order in which its kind is declared, and there are no other slots.
-/

namespace PoseMachine.Parameter

theorem getElem?_filter_countP {α : Type} {P : α → Bool} {xs : List α} {j : Nat} {x : α}
    (hx : xs[j]? = some x) (hP : P x = true) :
    (xs.filter P)[(xs.take j).countP P]? = some x := by
  induction xs generalizing j with
  | nil => simp at hx
  | cons y xs ih =>
      cases j with
      | zero =>
          obtain rfl := Option.some.inj hx
          simp [List.filter_cons_of_pos hP]
      | succ j =>
          have hrest := ih hx
          rw [List.take_succ_cons, List.countP_cons]
          by_cases hy : P y = true
          · simpa [hy] using hrest
          · simpa [hy] using hrest

namespace Layout

/-- The slots of one kind, each with its hash and its default value. -/
def slots (l : Layout) : Kind → List (UInt32 × Value)
  | .bool => l.bools.toList.map fun s => (s.hash, .bool s.default)
  | .int => l.ints.toList.map fun s => (s.hash, .int s.default)
  | .float => l.floats.toList.map fun s => (s.hash, .float s.default)

theorem getElem?_slots (l : Layout) (k : Kind) (i : Nat) : (l.slots k)[i]? = l.slot? k i := by
  cases k <;> simp [slots, slot?]

theorem slots_push (l : Layout) (h : UInt32) (v : Value) (k : Kind) :
    (l.push h v).slots k = l.slots k ++ if v.kind = k then [(h, v)] else [] := by
  cases v <;> cases k <;> simp [push, slots, Value.kind]

end Layout

/-- The declaration `p` has the hash of one of those before it. -/
def Repeats (before : List Parameter) (p : Parameter) : Prop := ∃ q ∈ before, q.hash = p.hash

/-- The declarations before `p` fill its kind. -/
def Overfills (before : List Parameter) (p : Parameter) : Prop :=
  before.countP (·.kind = p.kind) = 65536

/-- The declaration `p` is the first one that repeats a hash or is one too many of its kind. -/
structure FirstRefused (ps before : List Parameter) (p : Parameter) : Prop where
  split : ∃ after, ps = before ++ p :: after
  refused : Repeats before p ∨ Overfills before p
  first : ∀ earlier q later, before = earlier ++ q :: later →
    ¬ Repeats earlier q ∧ ¬ Overfills earlier q

namespace Table

variable {t u : Table} {p : Parameter} {ps qs : List Parameter} {r : Refusal}

theorem addAll_append_eq_ok_iff :
    t.addAll (ps ++ qs) = .ok u ↔ ∃ s, t.addAll ps = .ok s ∧ s.addAll qs = .ok u := by
  induction ps generalizing t with
  | nil => simp [addAll]
  | cons p ps ih =>
      simp only [List.cons_append, addAll_cons_eq_ok_iff, ih]
      constructor
      · rintro ⟨v, hv, s, hs, hu⟩
        exact ⟨s, ⟨v, hv, hs⟩, hu⟩
      · rintro ⟨s, ⟨v, hv, hs⟩, hu⟩
        exact ⟨v, hv, s, hs, hu⟩

theorem slots_addAll (h : t.addAll ps = .ok u) (k : Kind) :
    u.layout.slots k =
      t.layout.slots k ++ (ps.filter (·.kind = k)).map fun p => (p.hash, p.default) := by
  induction ps generalizing t with
  | nil =>
      obtain rfl := Except.ok.inj h
      simp
  | cons p ps ih =>
      obtain ⟨s, hs, h⟩ := addAll_cons_eq_ok_iff.mp h
      obtain ⟨-, -, rfl⟩ := add_eq_ok_iff.mp hs
      have hkind : p.default.kind = p.kind := rfl
      rw [ih h, Layout.slots_push, hkind, List.append_assoc, List.filter_cons]
      by_cases hk : p.kind = k <;> simp [hk]

section Declared

variable {before : List Parameter} {s : Table} (hs : addAll {} before = .ok s)

include hs

theorem sizeOf_declared (k : Kind) : s.layout.sizeOf k = before.countP (·.kind = k) := by
  rw [sizeOf_addAll hs]
  cases k <;> exact Nat.zero_add _

/-- A declaration is refused behind others for its hash or, if that is new, for its kind. -/
theorem add_declared_eq_error_iff : s.add p = .error r ↔
    Repeats before p ∧ r = .duplicate p.name ∨
      ¬ Repeats before p ∧ Overfills before p ∧ r = .overflow p.kind 65537 := by
  have hle := (coherent_empty.addAll hs).sizeOf_le p.kind
  have hfull : ¬ s.layout.sizeOf p.kind < kindLimit ↔ s.layout.sizeOf p.kind = 65536 := by
    rw [kindLimit] at hle ⊢
    omega
  rw [add_eq_error_iff, ← Bool.not_eq_true, contains_declared_iff hs, hfull, sizeOf_declared hs]
  refine or_congr_right (and_congr_right fun _ => and_congr_right fun hover => ?_)
  rw [hover]

end Declared

theorem exists_addAll_iff_not_refused {before : List Parameter} :
    (∃ s, addAll {} before = .ok s) ↔ ∀ earlier q later, before = earlier ++ q :: later →
      ¬ Repeats earlier q ∧ ¬ Overfills earlier q := by
  constructor
  · rintro ⟨s, hs⟩ earlier q later rfl
    obtain ⟨v, hv, hrest⟩ := addAll_append_eq_ok_iff.mp hs
    obtain ⟨w, hw, -⟩ := addAll_cons_eq_ok_iff.mp hrest
    by_contra hrefused
    obtain ⟨r, hr⟩ : ∃ r, v.add q = .error r := by
      simp only [add_declared_eq_error_iff hv]
      by_cases hrepeats : Repeats earlier q
      · exact ⟨_, .inl ⟨hrepeats, rfl⟩⟩
      · have hover : Overfills earlier q := by
          by_contra hover
          exact hrefused ⟨hrepeats, hover⟩
        exact ⟨_, .inr ⟨hrepeats, hover, rfl⟩⟩
    rw [hr] at hw
    cases hw
  · intro hnone
    cases hs : addAll {} before with
    | ok s => exact ⟨s, rfl⟩
    | error r =>
        obtain ⟨earlier, q, later, v, hsplit, hv, hr⟩ := addAll_eq_error_iff.mp hs
        obtain ⟨hfresh, hroom⟩ := hnone earlier q later hsplit
        rcases (add_declared_eq_error_iff hv).mp hr with ⟨hrepeats, -⟩ | ⟨-, hover, -⟩
        · exact absurd hrepeats hfresh
        · exact absurd hover hroom

theorem addAll_eq_error_iff_firstRefused : addAll {} ps = .error r ↔
    ∃ before p, FirstRefused ps before p ∧
      (Repeats before p ∧ r = .duplicate p.name ∨
        ¬ Repeats before p ∧ r = .overflow p.kind 65537) := by
  rw [addAll_eq_error_iff]
  constructor
  · rintro ⟨before, p, after, s, hsplit, hs, hr⟩
    have hfirst := exists_addAll_iff_not_refused.mp ⟨s, hs⟩
    rcases (add_declared_eq_error_iff hs).mp hr with ⟨hrepeats, rfl⟩ | ⟨hfresh, hover, rfl⟩
    · exact ⟨before, p, ⟨⟨after, hsplit⟩, .inl hrepeats, hfirst⟩, .inl ⟨hrepeats, rfl⟩⟩
    · exact ⟨before, p, ⟨⟨after, hsplit⟩, .inr hover, hfirst⟩, .inr ⟨hfresh, rfl⟩⟩
  · rintro ⟨before, p, ⟨⟨after, hsplit⟩, hrefused, hfirst⟩, hr⟩
    obtain ⟨s, hs⟩ := exists_addAll_iff_not_refused.mpr hfirst
    refine ⟨before, p, after, s, hsplit, hs, (add_declared_eq_error_iff hs).mpr ?_⟩
    refine hr.imp_right ?_
    rintro ⟨hfresh, rfl⟩
    exact ⟨hfresh, hrefused.resolve_left hfresh, rfl⟩

theorem exists_build_iff : (∃ t, (build ps).outcome = .ok t) ↔
    (ps.map (·.hash)).Nodup ∧ ∀ k, ps.countP (·.kind = k) ≤ 65536 := by
  have hbuild : (∃ t, (build ps).outcome = .ok t) ↔ ∃ t, addAll {} ps = .ok t := by
    refine exists_congr fun t => ⟨addAll_of_build, fun h => ?_⟩
    rw [build_of_addAll h, Report.outcome_pure]
  rw [hbuild, exists_addAll_iff coherent_empty]
  constructor
  · intro h
    refine ⟨h.nodup, fun k => ?_⟩
    exact Nat.le_trans (Nat.le_add_left _ _) (h.room k)
  · rintro ⟨hnodup, hroom⟩
    refine ⟨hnodup, by simp, fun k => ?_⟩
    have hempty : Layout.sizeOf {} k = 0 := by cases k <;> rfl
    rw [hempty, Nat.zero_add]
    exact hroom k

theorem build_eq_error_iff {e : BakeError} : (build ps).outcome = .error e ↔
    ∃ before p, FirstRefused ps before p ∧
      (Repeats before p ∧ e = .duplicateParameter p.name ∨
        ¬ Repeats before p ∧ e = .parameterOverflow p.kind 65537 65536) := by
  have hbuild : (build ps).outcome = .error e ↔ ∃ r, addAll {} ps = .error r ∧ e = r.error := by
    unfold build
    split
    · next t ht => simp [ht]
    · next r hr => simp [hr, eq_comm]
  simp only [hbuild, addAll_eq_error_iff_firstRefused]
  constructor
  · rintro ⟨r, ⟨before, p, hfirst, ⟨hrepeats, rfl⟩ | ⟨hfresh, rfl⟩⟩, rfl⟩
    · exact ⟨before, p, hfirst, .inl ⟨hrepeats, rfl⟩⟩
    · exact ⟨before, p, hfirst, .inr ⟨hfresh, rfl⟩⟩
  · rintro ⟨before, p, hfirst, ⟨hrepeats, rfl⟩ | ⟨hfresh, rfl⟩⟩
    · exact ⟨.duplicate p.name, ⟨before, p, hfirst, .inl ⟨hrepeats, rfl⟩⟩, rfl⟩
    · exact ⟨.overflow p.kind 65537, ⟨before, p, hfirst, .inr ⟨hfresh, rfl⟩⟩, rfl⟩

section Built

variable (h : addAll {} ps = .ok t) {j : Nat} (hj : ps[j]? = some p)

include h

theorem slots_declared (k : Kind) :
    t.layout.slots k = (ps.filter (·.kind = k)).map fun p => (p.hash, p.default) := by
  rw [slots_addAll h]
  cases k <;> rfl

include hj

theorem slot?_declared :
    t.layout.slot? p.kind ((ps.take j).countP (·.kind = p.kind)) = some (p.hash, p.default) := by
  rw [← Layout.getElem?_slots, slots_declared h, List.getElem?_map,
    getElem?_filter_countP hj (by simp)]
  rfl

/-- A declaration is found under its hash, at the position that 16 bits hold. -/
theorem find_declared : ∃ i : UInt16, i.toNat = (ps.take j).countP (·.kind = p.kind) ∧
    t.byHash[p.hash]? = some (p.kind, i) := by
  have hslot := slot?_declared h hj
  have hhash : t.layout.hash? p.kind ((ps.take j).countP (·.kind = p.kind)) = some p.hash := by
    rw [Layout.hash?_eq_map, hslot]
    rfl
  obtain ⟨hfind, hround⟩ := (coherent_empty.addAll h).find_of_hash? hhash
  exact ⟨_, hround, hfind⟩

end Built

section Found

variable {name context : String} {found : Kind} {i : UInt16}

theorem resolve_of_finds (h : t.Finds name found i) :
    t.resolve name found context = pure i := by
  rw [resolve, show t.byHash[nameHash name]? = some (found, i) from h]
  exact if_pos rfl

theorem resolve_of_finds_other (h : t.Finds name found i) {k : Kind} (hk : k ≠ found) :
    t.resolve name k context =
      .fail (.kindMismatch name context found k) (.kindMismatch name k found) := by
  rw [resolve, show t.byHash[nameHash name]? = some (found, i) from h]
  exact if_neg hk.symm

theorem resolveNumeric_of_finds (h : t.Finds name found i) {x : Numeric} :
    (t.resolveNumeric name context).outcome = .ok x ↔
      (found = .int ∨ found = .float) ∧ x = ⟨found, i⟩ := by
  rw [resolveNumeric_eq_ok_iff, Finds, show t.byHash[nameHash name]? = some (found, i) from h]
  obtain ⟨k, j⟩ := x
  cases found <;> cases k <;> simp [eq_comm]

end Found

end Table

/-- Declarations make a table if no two have the same hash and none is one too many of its kind,
and otherwise the first one that breaks this names the error. In the table each declaration has the
slot behind those of the earlier ones of its kind, is resolved to it as its own kind and as no
other, and is a number if it is an Int or a Float. There are no other slots. -/
theorem table_of_declarations (ps : List Parameter) :
    ((∃ t, (Table.build ps).outcome = .ok t) ↔
      (ps.map (·.hash)).Nodup ∧ ∀ k, ps.countP (·.kind = k) ≤ 65536) ∧
    (∀ e, (Table.build ps).outcome = .error e ↔ ∃ before p, FirstRefused ps before p ∧
      (Repeats before p ∧ e = .duplicateParameter p.name ∨
        ¬ Repeats before p ∧ e = .parameterOverflow p.kind 65537 65536)) ∧
    ∀ t, (Table.build ps).outcome = .ok t →
      (∀ (j : Nat) p, ps[j]? = some p → ∃ i : UInt16,
        i.toNat = (ps.take j).countP (·.kind = p.kind) ∧
        t.layout.slot? p.kind i.toNat = some (p.hash, p.default) ∧
        ∀ context, t.resolve p.name p.kind context = pure i ∧
          (∀ k, k ≠ p.kind → t.resolve p.name k context =
            .fail (.kindMismatch p.name context p.kind k) (.kindMismatch p.name k p.kind)) ∧
          ∀ x, (t.resolveNumeric p.name context).outcome = .ok x ↔
            (p.kind = .int ∨ p.kind = .float) ∧ x = ⟨p.kind, i⟩) ∧
      ∀ k, t.layout.slots k = (ps.filter (·.kind = k)).map fun p => (p.hash, p.default) := by
  refine ⟨Table.exists_build_iff, fun _ => Table.build_eq_error_iff, ?_⟩
  intro t ht
  have hall := Table.addAll_of_build ht
  refine ⟨?_, Table.slots_declared hall⟩
  intro j p hp
  obtain ⟨i, hi, hfind⟩ := Table.find_declared hall hp
  have hfinds : t.Finds p.name p.kind i := hfind
  refine ⟨i, hi, ?_, fun context => ⟨?_, fun k hk => ?_, fun x => ?_⟩⟩
  · rw [hi]
    exact Table.slot?_declared hall hp
  · exact Table.resolve_of_finds hfinds
  · exact Table.resolve_of_finds_other hfinds hk
  · exact Table.resolveNumeric_of_finds hfinds

/-- Two Floats around a Bool and an Int. -/
def gait : List Parameter :=
  [⟨"pace", .float 1⟩, ⟨"grounded", .bool true⟩, ⟨"lean", .float 0⟩, ⟨"step", .int 2⟩]

theorem table_of_declarations_gait : ∃ t, (Table.build gait).outcome = .ok t ∧
    t.layout.slot? .float 1 = some (nameHash "lean", .float 0) ∧
    t.resolve "lean" .float "state 'walk'" = pure 1 ∧
    (t.resolve "lean" .int "state 'walk'").outcome = .error (.kindMismatch "lean" .int .float) ∧
    (t.resolveNumeric "step" "state 'walk'").outcome = .ok ⟨.int, 0⟩ ∧
    (t.layout.slots .bool).length = 1 ∧
    (Table.build (gait ++ [⟨"lean", .bool false⟩])).outcome =
      .error (.duplicateParameter "lean") := by
  obtain ⟨hok, -, htable⟩ := table_of_declarations gait
  obtain ⟨-, herror, -⟩ := table_of_declarations (gait ++ [⟨"lean", .bool false⟩])
  have hnodup : (gait.map (·.hash)).Nodup := by decide +kernel
  have hroom : ∀ k, gait.countP (·.kind = k) ≤ 65536 := by
    intro k
    cases k <;> decide
  obtain ⟨t, ht⟩ := hok.mpr ⟨hnodup, hroom⟩
  obtain ⟨hdeclared, hslots⟩ := htable t ht
  obtain ⟨i, hi, hslot, hresolve⟩ := hdeclared 2 _ rfl
  obtain ⟨j, hj, -, hnumber⟩ := hdeclared 3 _ rfl
  obtain rfl : i = 1 := UInt16.toNat_inj.mp (hi.trans (by decide))
  obtain rfl : j = 0 := UInt16.toNat_inj.mp (hj.trans (by decide))
  obtain ⟨hown, hother, -⟩ := hresolve "state 'walk'"
  refine ⟨t, ht, hslot, hown, ?_, ?_, ?_, ?_⟩
  · rw [hother .int (by decide)]
    rfl
  · exact ((hnumber "state 'walk'").2.2 _).mpr ⟨.inl rfl, rfl⟩
  · rw [hslots]
    decide
  · refine (herror _).mpr ⟨gait, ⟨"lean", .bool false⟩, ⟨⟨[], rfl⟩, .inl ?_, ?_⟩, .inl ⟨?_, rfl⟩⟩
    · exact ⟨⟨"lean", .float 0⟩, by simp [gait], rfl⟩
    · exact Table.exists_addAll_iff_not_refused.mp ⟨t, Table.addAll_of_build ht⟩
    · exact ⟨⟨"lean", .float 0⟩, by simp [gait], rfl⟩

end PoseMachine.Parameter
