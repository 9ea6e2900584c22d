import PoseMachine.Navigation
import PoseMachine.Proofs.Casts
import PoseMachine.Proofs.Outcome
import PoseMachine.Proofs.Validity

/-!
The nested machines around a place, and what the walks over parents find among them.
-/

namespace PoseMachine

namespace Baked

/-- The nested machines around a place, the innermost one first. -/
inductive Around (b : Baked) : Int32 → List Int32 → Prop
  | outermost {sub : Int32} : sub < 0 → Around b sub []
  | nested {sub : Int32} {s : Sub} {chain : List Int32} : ¬ sub < 0 →
      b.subs[sub.toInt.toNat]? = some s → Around b s.parent chain → Around b sub (sub :: chain)

/-- The depth of each nested machine is one more than that of the machine around it. -/
structure Leveled (b : Baked) : Prop where
  outermost : ∀ (i : Nat) (s : Sub), b.subs[i]? = some s → s.parent < 0 → s.level.toNat = 1
  nested : ∀ (i : Nat) (s p : Sub), b.subs[i]? = some s → ¬ s.parent < 0 →
    b.subs[s.parent.toInt.toNat]? = some p → s.level.toNat = p.level.toNat + 1

variable {b : Baked} {sub outer : Int32} {chain rest : List Int32}

namespace Around

theorem unique (h : b.Around sub chain) {chain' : List Int32} (h' : b.Around sub chain') :
    chain = chain' := by
  induction h generalizing chain' with
  | outermost hneg =>
      cases h' with
      | outermost _ => rfl
      | nested hnonneg _ _ => exact absurd hneg hnonneg
  | nested hnonneg hs _ ih =>
      cases h' with
      | outermost hneg => exact absurd hneg hnonneg
      | nested _ hs' hrest =>
          obtain rfl := Option.some.inj (hs.symm.trans hs')
          rw [ih hrest]

/-- What lies around a machine of a chain is the rest of the chain. -/
theorem of_append {inside : List Int32} (h : b.Around sub (inside ++ outer :: rest)) :
    b.Around outer (outer :: rest) := by
  induction inside generalizing sub with
  | nil =>
      have hsame := h
      cases h with
      | nested _ _ _ => exact hsame
  | cons s inside ih =>
      cases h with
      | nested _ _ hrest => exact ih hrest

/-- Chains that share a machine agree from there on outwards. -/
theorem exists_append_of_mem {sub' : Int32} {inside chain' : List Int32}
    (h : b.Around sub (inside ++ outer :: rest)) (h' : b.Around sub' chain')
    (hmem : outer ∈ chain') : ∃ inside', chain' = inside' ++ outer :: rest := by
  obtain ⟨inside', rest', rfl⟩ := List.append_of_mem hmem
  exact ⟨inside', by rw [h.of_append.unique h'.of_append]⟩

theorem not_neg_of_mem (h : b.Around sub chain) (hmem : outer ∈ chain) : ¬ outer < 0 := by
  induction h with
  | outermost _ => simp at hmem
  | nested hnonneg _ _ ih =>
      rcases List.mem_cons.mp hmem with rfl | hmem
      · exact hnonneg
      · exact ih hmem

theorem toInt_le_of_mem (hb : b.Valid) (h : b.Around sub chain) (hmem : outer ∈ chain) :
    outer.toInt ≤ sub.toInt := by
  induction h with
  | outermost _ => simp at hmem
  | @nested sub s chain hnonneg hs _ ih =>
      rcases List.mem_cons.mp hmem with rfl | hmem
      · exact Int.le_refl _
      · have hparent := toInt_lt_of_lt_ofNat (hb.subs _ s hs).parent
        have hle := ih hmem
        have := toInt_nonneg_of_not_neg hnonneg
        omega

/-- A parent comes before what it contains, so nothing is around itself. -/
theorem nodup (hb : b.Valid) (h : b.Around sub chain) : chain.Nodup := by
  induction h with
  | outermost _ => exact List.nodup_nil
  | @nested sub s chain hnonneg hs hrest ih =>
      refine List.nodup_cons.mpr ⟨?_, ih⟩
      intro hmem
      have hparent := toInt_lt_of_lt_ofNat (hb.subs _ s hs).parent
      have hle := hrest.toInt_le_of_mem hb hmem
      have := toInt_nonneg_of_not_neg hnonneg
      omega

theorem length_le (hb : b.Valid) (h : b.Around sub chain) :
    chain.length ≤ (sub.toInt + 1).toNat := by
  induction h with
  | outermost _ => exact Nat.zero_le _
  | @nested sub s chain hnonneg hs _ ih =>
      have hparent := toInt_lt_of_lt_ofNat (hb.subs _ s hs).parent
      have := toInt_nonneg_of_not_neg hnonneg
      rw [List.length_cons]
      omega

theorem level_eq (hl : b.Leveled) (h : b.Around sub chain) {s : Sub} (hneg : ¬ sub < 0)
    (hs : b.subs[sub.toInt.toNat]? = some s) : s.level.toNat = chain.length := by
  induction h generalizing s with
  | outermost hlt => exact absurd hlt hneg
  | @nested sub s' chain _ hs' hrest ih =>
      obtain rfl := Option.some.inj (hs'.symm.trans hs)
      cases hrest with
      | outermost hparent => exact hl.outermost _ s' hs hparent
      | nested hparent hp hrest =>
          rw [hl.nested _ s' _ hs hparent hp, ih hparent hp]
          rfl

theorem length_lt (hl : b.Leveled) (h : b.Around sub chain) : chain.length < 65536 := by
  cases h with
  | outermost _ => decide
  | @nested _ s chain hneg hs hrest =>
      rw [← (Around.nested hneg hs hrest).level_eq hl hneg hs]
      exact s.level.toNat_lt

end Around

/-- There is a chain around each place. -/
theorem Valid.exists_around (hb : b.Valid) (hsub : sub.toInt < b.subs.size) :
    ∃ chain, b.Around sub chain := by
  -- The index of the machine gets smaller from each one to the one around it.
  induction hn : (sub.toInt + 1).toNat using Nat.strongRecOn generalizing sub with
  | ind n ih =>
      by_cases hneg : sub < 0
      · exact ⟨[], .outermost hneg⟩
      · have hnonneg := toInt_nonneg_of_not_neg hneg
        have hlt : sub.toInt.toNat < b.subs.size := by omega
        obtain ⟨s, -, hs⟩ := yields_fetch hlt
        have hparent := toInt_lt_of_lt_ofNat (hb.subs _ s hs).parent
        obtain ⟨chain, hchain⟩ : ∃ chain, b.Around s.parent chain :=
          ih (s.parent.toInt + 1).toNat (by omega) (by omega) rfl
        exact ⟨sub :: chain, .nested hneg hs hchain⟩

namespace Around

theorem enclosesWithin_eq (h : b.Around sub chain) {n : Nat} (hn : chain.length < n) :
    b.enclosesWithin outer n sub = .ok (decide (outer ∈ chain)) := by
  induction h generalizing n with
  | outermost hneg =>
      obtain ⟨n, rfl⟩ := Nat.exists_eq_add_one.mpr hn
      rw [enclosesWithin, if_pos hneg]
      rfl
  | @nested sub s chain hneg hs _ ih =>
      obtain ⟨n, rfl⟩ := Nat.exists_eq_add_one.mpr (Nat.zero_lt_of_lt hn)
      rw [enclosesWithin, if_neg hneg]
      by_cases hsame : sub = outer
      · simp [hsame]
      · have hother : ¬ outer = sub := fun h => hsame h.symm
        rw [if_neg hsame, fetch_eq_ok_iff.mpr hs, ok_bind, ih (Nat.lt_of_succ_lt_succ hn)]
        simp [hother]

/-- The walk from a machine outwards meets exactly the machines of its chain. -/
theorem encloses_eq (hb : b.Valid) (hsub : sub.toInt < b.subs.size) (h : b.Around sub chain) :
    b.encloses outer sub = .ok (decide (outer < 0 ∨ outer ∈ chain)) := by
  rw [encloses]
  split
  · next hneg => simp [hneg]
  · next hneg =>
    have hle := h.length_le hb
    rw [h.enclosesWithin_eq (by omega)]
    simp [hneg]

theorem ancestorWithin_eq (hl : b.Leveled) {inside : List Int32}
    (h : b.Around sub (inside ++ outer :: rest)) {n : Nat} (hn : inside.length < n) :
    b.ancestorWithin (rest.length + 1) n sub = .ok outer := by
  induction inside generalizing sub n with
  | nil =>
      obtain ⟨n, rfl⟩ := Nat.exists_eq_add_one.mpr hn
      have hchain := h
      cases h with
      | nested hneg hs _ =>
          have hlevel : _ = rest.length + 1 := hchain.level_eq hl hneg hs
          rw [ancestorWithin, if_neg hneg, fetch_eq_ok_iff.mpr hs, ok_bind, if_pos hlevel]
          rfl
  | cons sub' inside ih =>
      obtain ⟨n, rfl⟩ := Nat.exists_eq_add_one.mpr (Nat.zero_lt_of_lt hn)
      have hchain := h
      cases h with
      | nested hneg hs hrest =>
          have hlevel := hchain.level_eq hl hneg hs
          simp only [List.cons_append, List.length_cons, List.length_append] at hlevel
          rw [ancestorWithin, if_neg hneg, fetch_eq_ok_iff.mpr hs, ok_bind, if_neg (by omega)]
          exact ih hrest (Nat.lt_of_succ_lt_succ hn)

/-- The machine at a depth is the only one of the chain that has as many machines around it. -/
theorem ancestorAt_eq (hb : b.Valid) (hl : b.Leveled) (hsub : sub.toInt < b.subs.size)
    {inside : List Int32} (h : b.Around sub (inside ++ outer :: rest)) :
    b.ancestorAt sub (rest.length + 1) = .ok outer := by
  have hle := h.length_le hb
  rw [List.length_append] at hle
  exact h.ancestorWithin_eq hl (by omega)

theorem levelOf_eq (hl : b.Leveled) (h : b.Around sub chain) :
    b.levelOf sub = .ok chain.length := by
  rw [levelOf]
  cases h with
  | outermost hneg => rw [if_pos hneg, List.length_nil]
  | nested hneg hs hrest =>
      rw [if_neg hneg, fetch_eq_ok_iff.mpr hs,
        ← (Around.nested hneg hs hrest).level_eq hl hneg hs]
      rfl

end Around

end Baked

end PoseMachine
