import PoseMachine.Proofs.Limits

/-!
How large results can get: bounds by powers of two, and sums of singles that are not negative. No
addend is above its sum, and a sum of many equal addends stops growing, so that it stays within a
power of two of the greatest of them, however many there are.
-/

namespace PoseMachine.Single

open Float.Model (UnpackedFloat)
open Float.Model.UnpackedFloat

variable {x y s : Float32} {q r t : ℚ}

section Within

/-- The single is a number of magnitude at most `2 ^ n`. -/
def Within (n : Nat) (x : Float32) : Prop := ∃ q, Denotes x q ∧ |q| ≤ 2 ^ n

variable {m n : Nat}

theorem representable_two_pow (n : Nat) : Representable (2 ^ n) :=
  ⟨1, n, by norm_num, by omega, by rw [Int.cast_one, one_mul, zpow_natCast]⟩

theorem Within.isFinite (h : Within n x) : x.isFinite = true := by
  obtain ⟨q, hq, -⟩ := h
  exact hq.isFinite

theorem Within.mono (h : Within m x) (hle : m ≤ n) : Within n x := by
  obtain ⟨q, hq, hbound⟩ := h
  exact ⟨q, hq, hbound.trans (pow_le_pow_right₀ one_le_two hle)⟩

theorem Rounds.within (h : Rounds x q) (hn : n ≤ 127) (hq : |q| ≤ 2 ^ n) : Within n x :=
  ⟨_, h.denotes_of_abs_le (hq.trans (pow_le_pow_right₀ one_le_two hn)),
    abs_nearest_le (representable_two_pow n) hq⟩

theorem Within.add (hx : Within n x) (hy : Within n y) (hn : n + 1 ≤ 127) :
    Within (n + 1) (x + y) := by
  obtain ⟨q, hq, hqn⟩ := hx
  obtain ⟨r, hr, hrn⟩ := hy
  apply (rounds_add hq hr).within hn
  calc |q + r| ≤ |q| + |r| := abs_add_le q r
    _ ≤ 2 ^ n + 2 ^ n := add_le_add hqn hrn
    _ = 2 ^ (n + 1) := by ring

theorem Within.sub (hx : Within n x) (hy : Within n y) (hn : n + 1 ≤ 127) :
    Within (n + 1) (x - y) := by
  obtain ⟨q, hq, hqn⟩ := hx
  obtain ⟨r, hr, hrn⟩ := hy
  apply (rounds_sub hq hr).within hn
  calc |q - r| ≤ |q| + |r| := abs_sub q r
    _ ≤ 2 ^ n + 2 ^ n := add_le_add hqn hrn
    _ = 2 ^ (n + 1) := by ring

theorem Within.mul (hx : Within m x) (hy : Within n y) (hmn : m + n ≤ 127) :
    Within (m + n) (x * y) := by
  obtain ⟨q, hq, hqm⟩ := hx
  obtain ⟨r, hr, hrn⟩ := hy
  apply (rounds_mul hq hr).within hmn
  rw [abs_mul, pow_add]
  exact mul_le_mul hqm hrn (abs_nonneg r) (by positivity)

theorem Within.div (hx : Within m x) (hy : Denotes y r) (hr : 1 ≤ 2 ^ n * |r|)
    (hmn : m + n ≤ 127) : Within (m + n) (x / y) := by
  obtain ⟨q, hq, hqm⟩ := hx
  have hpos : 0 < |r| := by
    by_contra! hzero
    rw [abs_nonpos_iff.mp hzero, abs_zero, mul_zero] at hr
    linarith
  apply (rounds_div hq hy (abs_pos.mp hpos)).within hmn
  rw [abs_div, div_le_iff₀ hpos, pow_add, mul_assoc]
  exact hqm.trans (le_mul_of_one_le_right (by positivity) hr)

theorem Within.positivePart {x : Float32} (hx : Within n x) :
    Within n (positivePart x) := by
  unfold Single.positivePart
  split_ifs
  · exact hx
  · exact ⟨0, denotes_zero, by rw [abs_zero]; positivity⟩

theorem within_one : Within 0 1 := ⟨1, denotes_one, by norm_num⟩

theorem within_zero : Within 0 0 := ⟨0, denotes_zero, by norm_num⟩

end Within

section Nonneg

theorem Denotes.zero_le (hx : Denotes x q) (hq : 0 ≤ q) : 0 ≤ x :=
  (denotes_zero.le_iff hx).mpr hq

theorem zero_le_of_infinity (hx : parts x = .infinity .positive) : 0 ≤ x :=
  zero_le_iff.mpr (.inr hx)

theorem Rounds.zero_le (h : Rounds x q) (hq : 0 ≤ q) : 0 ≤ x := by
  cases hx : x.isFinite with
  | true => exact (h.denotes_of_isFinite hx).zero_le (nearest_nonneg hq)
  | false => exact zero_le_of_infinity (h.infinite_of_not_isFinite hx hq)

theorem zero_le_positivePart (x : Float32) : 0 ≤ positivePart x := by
  unfold positivePart
  split_ifs with hpos
  · exact single_le_of_lt hpos
  · exact denotes_zero.zero_le le_rfl

theorem zero_le_one_sub (hx : 0 ≤ x) (hlt : x < 1) : 0 ≤ 1 - x := by
  obtain ⟨q, hq⟩ := exists_denotes_of_le_of_lt denotes_zero denotes_one hx hlt
  have hq1 := (hq.lt_iff denotes_one).mp hlt
  exact (rounds_sub denotes_one hq).zero_le (by linarith)

theorem add_of_nonneg (hx : 0 ≤ x) (hy : 0 ≤ y) :
    (∃ q r, Denotes x q ∧ Denotes y r ∧ 0 ≤ q ∧ 0 ≤ r) ∨ parts (x + y) = .infinity .positive := by
  obtain ⟨q, hq, hq0⟩ | hx := zero_le_iff.mp hx <;>
    obtain ⟨r, hr, hr0⟩ | hy := zero_le_iff.mp hy
  · exact .inl ⟨q, r, hq, hr, hq0, hr0⟩
  · exact .inr (hq.add_infinity hy).1
  · exact .inr (hr.add_infinity hx).2
  · right
    rw [parts_add, hx, hy]
    rfl

theorem zero_le_add (hx : 0 ≤ x) (hy : 0 ≤ y) : 0 ≤ x + y := by
  obtain ⟨q, r, hq, hr, hq0, hr0⟩ | hinf := add_of_nonneg hx hy
  · exact (rounds_add hq hr).zero_le (add_nonneg hq0 hr0)
  · exact zero_le_of_infinity hinf

theorem le_add_of_isFinite (hx : 0 ≤ x) (hy : 0 ≤ y) (hfinite : (x + y).isFinite = true) :
    ∃ q r, Denotes x q ∧ Denotes y r ∧ 0 ≤ q ∧ 0 ≤ r ∧ q ≤ nearest (q + r) ∧
      r ≤ nearest (q + r) ∧ Denotes (x + y) (nearest (q + r)) := by
  obtain ⟨q, r, hq, hr, hq0, hr0⟩ | hinf := add_of_nonneg hx hy
  · refine ⟨q, r, hq, hr, hq0, hr0, ?_, ?_, (rounds_add hq hr).denotes_of_isFinite hfinite⟩
    · exact (nearest_eq_self hq.fits.1).ge.trans (nearest_mono (by linarith))
    · exact (nearest_eq_self hr.fits.1).ge.trans (nearest_mono (by linarith))
  · rw [isFinite_of_infinite hinf] at hfinite
    cases hfinite

end Nonneg

section Sum

variable {ws : List Float32}

theorem zero_le_foldl (hs : 0 ≤ s) (hws : ∀ w ∈ ws, 0 ≤ w) : 0 ≤ ws.foldl (· + ·) s := by
  induction ws generalizing s with
  | nil => exact hs
  | cons w ws ih =>
      obtain ⟨hw, hws⟩ := List.forall_mem_cons.mp hws
      exact ih (zero_le_add hs hw) hws

/-- A finite sum is above all addends. -/
theorem le_foldl (hs : 0 ≤ s) (hws : ∀ w ∈ ws, 0 ≤ w)
    (hfinite : (ws.foldl (· + ·) s).isFinite = true) :
    ∃ t, Denotes (ws.foldl (· + ·) s) t ∧ (∃ q, Denotes s q ∧ 0 ≤ q ∧ q ≤ t) ∧
      ∀ w ∈ ws, ∃ r, Denotes w r ∧ 0 ≤ r ∧ r ≤ t := by
  induction ws generalizing s with
  | nil =>
      have ht := denotes_number hfinite
      exact ⟨_, ht, ⟨_, ht, (denotes_zero.le_iff ht).mp hs, le_rfl⟩, by simp⟩
  | cons w ws ih =>
      obtain ⟨hw, hws⟩ := List.forall_mem_cons.mp hws
      obtain ⟨t, ht, ⟨u, hu, -, hut⟩, hall⟩ := ih (zero_le_add hs hw) hws hfinite
      obtain ⟨q, r, hq, hr, hq0, hr0, hqu, hru, hsum⟩ := le_add_of_isFinite hs hw hu.isFinite
      rw [hu.unique hsum] at hut
      refine ⟨t, ht, ⟨q, hq, hq0, hqu.trans hut⟩, List.forall_mem_cons.mpr ⟨?_, hall⟩⟩
      exact ⟨r, hr, hr0, hru.trans hut⟩

/-- A power of two takes no number below a quarter of its last place. -/
theorem nearest_add_le {k : Int} (hk : -174 ≤ k) (hq : q ≤ 2 ^ (k + 25)) (hr : r ≤ 2 ^ k) :
    nearest (q + r) ≤ 2 ^ (k + 25) := by
  have hpos : (0 : ℚ) < 2 ^ k := zpow_pos two_pos k
  have hlimit : (2 : ℚ) ^ (k + 25) = 2 ^ 25 * 2 ^ k := by
    rw [zpow_add₀ two_ne_zero, mul_comm]
    norm_num
  have hunit : (2 : ℚ) ^ (k + 2) = 4 * 2 ^ k := by
    rw [zpow_add₀ two_ne_zero, mul_comm]
    norm_num
  have hrep : Representable (2 ^ (k + 25)) := ⟨1, k + 25, by norm_num, by omega, by simp⟩
  -- the greatest possible sum is closer to the power of two than to the next number above
  have hmono : nearest (q + r) ≤ nearest (2 ^ (k + 25) + 2 ^ k) := nearest_mono (by linarith)
  have hclose := abs_nearest_sub_le (2 ^ (k + 25) + 2 ^ k) hrep
  rw [sub_add_cancel_left, abs_neg, abs_of_pos hpos] at hclose
  have hnear := (abs_le.mp hclose).2
  apply hmono.trans
  obtain ⟨n, hn⟩ | ⟨-, hsmall⟩ :=
    (representable_nearest (2 ^ (k + 25) + 2 ^ k)).multiple_or_small (k + 2)
  · rw [hn, hunit] at hnear ⊢
    rw [hlimit] at hnear ⊢
    have hlt : (n : ℚ) < 2 ^ 23 + 1 := by
      by_contra! hge
      have := mul_le_mul_of_nonneg_right hge (mul_pos four_pos hpos).le
      linarith
    have hle : (n : ℚ) ≤ 2 ^ 23 := by
      have : n < 2 ^ 23 + 1 := by exact_mod_cast hlt
      exact_mod_cast Int.lt_add_one_iff.mp this
    have := mul_le_mul_of_nonneg_right hle (mul_pos four_pos hpos).le
    linarith
  · rw [hunit] at hsmall
    rw [hlimit]
    have := le_abs_self (nearest (2 ^ 25 * 2 ^ k + 2 ^ k))
    rw [hlimit] at hsmall
    linarith

/-- However many addends there are, their sum is within 25 places of the greatest one. -/
theorem foldl_le {k : Int} (hk : -174 ≤ k) (hs : Denotes s q) (hq0 : 0 ≤ q) (hq : q ≤ 2 ^ (k + 25))
    (hws : ∀ w ∈ ws, ∃ r, Denotes w r ∧ 0 ≤ r ∧ r ≤ 2 ^ k)
    (hfinite : (ws.foldl (· + ·) s).isFinite = true) :
    ∃ t, Denotes (ws.foldl (· + ·) s) t ∧ t ≤ 2 ^ (k + 25) := by
  induction ws generalizing s q with
  | nil => exact ⟨q, hs, hq⟩
  | cons w ws ih =>
      obtain ⟨⟨r, hr, hr0, hrk⟩, hws⟩ := List.forall_mem_cons.mp hws
      have hnonneg : ∀ w ∈ ws, 0 ≤ w := fun w hw => by
        obtain ⟨r, hr, hr0, -⟩ := hws w hw
        exact hr.zero_le hr0
      have hadd : 0 ≤ s + w := zero_le_add (hs.zero_le hq0) (hr.zero_le hr0)
      obtain ⟨t, -, ⟨u, hu, -⟩, -⟩ := le_foldl hadd hnonneg hfinite
      have hsum := (rounds_add hs hr).denotes_of_isFinite hu.isFinite
      exact ih hsum (nearest_nonneg (add_nonneg hq0 hr0)) (nearest_add_le hk hq hrk) hws hfinite

theorem isFinite_foldl {n : Nat} (hn : n ≤ 102) (hs : Denotes s q) (hq0 : 0 ≤ q)
    (hq : q ≤ 2 ^ (n + 25 : Int)) (hws : ∀ w ∈ ws, 0 ≤ w ∧ Within n w) :
    (ws.foldl (· + ·) s).isFinite = true := by
  induction ws generalizing s q with
  | nil => exact hs.isFinite
  | cons w ws ih =>
      obtain ⟨⟨hw, r, hr, hrn⟩, hws⟩ := List.forall_mem_cons.mp hws
      have hr0 := (denotes_zero.le_iff hr).mp hw
      rw [← zpow_natCast] at hrn
      have hle : nearest (q + r) ≤ 2 ^ (n + 25 : Int) :=
        nearest_add_le (by omega) hq ((le_abs_self r).trans hrn)
      have hnonneg := nearest_nonneg (add_nonneg hq0 hr0)
      have hlimit : (2 : ℚ) ^ (n + 25 : Int) ≤ 2 ^ (127 : Int) :=
        zpow_le_zpow_right₀ one_le_two (by omega)
      have hsum : Denotes (s + w) (nearest (q + r)) := by
        apply (rounds_add hs hr).denotes
        rw [abs_of_nonneg hnonneg]
        exact (hle.trans hlimit).trans_lt (by norm_num)
      exact ih hsum hnonneg hle hws

/-- One addend is a fair share of the sum. -/
theorem exists_share (hws : ∀ w ∈ ws, 0 ≤ w) (ht : Denotes (ws.foldl (· + ·) 0) t)
    (hlow : 2 ^ (-124 : Int) < t) : ∃ w ∈ ws, ∃ r, Denotes w r ∧ t ≤ 2 ^ 26 * r := by
  obtain ⟨_, _, _, hall⟩ := le_foldl (denotes_zero.zero_le le_rfl) hws ht.isFinite
  have hbound (k : Int) (hk : -149 ≤ k)
      (hle : ∀ w ∈ ws, ∀ r, Denotes w r → r ≤ 2 ^ k) : t ≤ 2 ^ (k + 25) := by
    obtain ⟨t', ht', hle'⟩ := foldl_le (k := k) (by omega) denotes_zero le_rfl (by positivity)
      (fun w hw => (hall w hw).imp fun r hr => ⟨hr.1, hr.2.1, hle w hw r hr.1⟩) ht.isFinite
    rwa [ht.unique ht']
  -- the least power of two above all addends
  have hexists : ∃ n : Nat, ∀ w ∈ ws, ∀ r, Denotes w r → r ≤ 2 ^ (n - 149 : Int) := by
    refine ⟨277, fun w _ r hr => ?_⟩
    exact (le_abs_self r).trans (hr.fits.2.trans (by norm_num [greatest]))
  classical
  obtain hzero | hpos := Nat.eq_zero_or_pos (Nat.find hexists)
  · have hfound := Nat.find_spec hexists
    rw [hzero] at hfound
    have := hbound (-149) le_rfl (by simpa using hfound)
    norm_num at this hlow
    linarith
  · have hfound := Nat.find_spec hexists
    have hleast := Nat.find_min hexists (Nat.sub_one_lt hpos.ne')
    generalize Nat.find hexists = n at *
    push Not at hleast
    obtain ⟨w, hw, r, hr, hgt⟩ := hleast
    refine ⟨w, hw, r, hr, ?_⟩
    calc t ≤ 2 ^ ((n : Int) - 149 + 25) := hbound _ (by omega) hfound
      _ = 2 ^ 26 * 2 ^ (((n - 1 : Nat) : Int) - 149) := by
        rw [← zpow_natCast, ← zpow_add₀ two_ne_zero]
        congr 1
        omega
      _ ≤ 2 ^ 26 * r := by linarith

end Sum

end PoseMachine.Single
