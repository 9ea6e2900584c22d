import Mathlib

/-!
Rounding of rational numbers to those with the mantissa of a single: to the nearest one, a half
going to the even mantissa.
-/

namespace PoseMachine.Single

/-- The integer nearest to `q`, a half going to the even one. -/
def nearestInt (q : ℚ) : Int :=
  if Int.fract q < 1 / 2 then ⌊q⌋
  else if 1 / 2 < Int.fract q then ⌊q⌋ + 1
  else ⌊q⌋ + ⌊q⌋ % 2

theorem abs_nearestInt_sub_le_half (q : ℚ) : |nearestInt q - q| ≤ 1 / 2 := by
  have hsplit := Int.floor_add_fract q
  have hnonneg := Int.fract_nonneg q
  have hlt := Int.fract_lt_one q
  unfold nearestInt
  rw [abs_le]
  split_ifs with hlow hhigh
  · constructor <;> linarith
  · push_cast
    constructor <;> linarith
  · obtain h | h := Int.emod_two_eq_zero_or_one ⌊q⌋ <;> rw [h] <;> push_cast <;>
      constructor <;> linarith

theorem even_nearestInt_of_half {q : ℚ} (h : |nearestInt q - q| = 1 / 2) :
    Even (nearestInt q) := by
  have hsplit := Int.floor_add_fract q
  have hnonneg := Int.fract_nonneg q
  have hlt := Int.fract_lt_one q
  unfold nearestInt at h ⊢
  split_ifs at h ⊢ with hlow hhigh
  · rw [abs_sub_comm, abs_of_nonneg (by linarith)] at h
    linarith
  · push_cast at h
    rw [abs_of_nonneg (by linarith)] at h
    linarith
  · rw [Int.even_iff]
    omega

theorem one_le_add_of_ne {q : ℚ} {n : Int} (hne : nearestInt q ≠ n) :
    1 ≤ |nearestInt q - q| + |n - q| := by
  have hgap : (1 : ℚ) ≤ |(nearestInt q : ℚ) - n| := by
    exact_mod_cast Int.one_le_abs (sub_ne_zero.mpr hne)
  rw [abs_sub_comm (n : ℚ) q]
  exact hgap.trans (abs_sub_le _ _ _)

/-- No integer is closer. -/
theorem abs_nearestInt_sub_le (q : ℚ) (n : Int) : |nearestInt q - q| ≤ |n - q| := by
  obtain rfl | hne := eq_or_ne (nearestInt q) n
  · exact le_rfl
  · have hnear := abs_nearestInt_sub_le_half q
    have hsum := one_le_add_of_ne hne
    linarith

/-- An integer within a half is the nearest one, if it is even where there are two of them. -/
theorem nearestInt_eq {q : ℚ} {n : Int} (h : |n - q| ≤ 1 / 2) (heven : |n - q| = 1 / 2 → Even n) :
    nearestInt q = n := by
  have hnear := abs_nearestInt_sub_le_half q
  by_contra hne
  have hsum := one_le_add_of_ne hne
  -- two integers with a half between each of them and `q` are neighbours, so one is odd
  have hone : |nearestInt q - n| = 1 := by
    have hle : |(nearestInt q : ℚ) - n| ≤ 1 := by
      have htri := abs_sub_le (nearestInt q : ℚ) q n
      rw [abs_sub_comm q n] at htri
      linarith
    have hge := Int.one_le_abs (sub_ne_zero.mpr hne)
    exact le_antisymm (by exact_mod_cast hle) hge
  have hdiff : Even (nearestInt q - n) :=
    (even_nearestInt_of_half (by linarith)).sub (heven (by linarith))
  rw [← even_abs, hone] at hdiff
  exact absurd hdiff (by decide)

theorem nearestInt_intCast (n : Int) : nearestInt n = n :=
  nearestInt_eq (by simp) (by norm_num)

theorem nearestInt_neg (q : ℚ) : nearestInt (-q) = -nearestInt q := by
  have hflip : |((-nearestInt q : Int) : ℚ) - -q| = |(nearestInt q : ℚ) - q| := by
    rw [← abs_neg]
    push_cast
    congr 1
    ring
  refine nearestInt_eq ?_ fun h => ?_
  · rw [hflip]
    exact abs_nearestInt_sub_le_half q
  · rw [hflip] at h
    exact (even_nearestInt_of_half h).neg

/-- The exponent of the last place of a single with the magnitude of `q`. -/
def unitExponent (q : ℚ) : Int := max (Int.log 2 |q| - 23) (-149)

/-- The number nearest to `q` among those with the mantissa of a single, a half going to the even
mantissa. There is no largest one. -/
def nearest (q : ℚ) : ℚ := nearestInt (q / 2 ^ unitExponent q) * 2 ^ unitExponent q

/-- The mantissa of a single is enough for `q`. -/
def Representable (q : ℚ) : Prop := ∃ n e : Int, |n| ≤ 2 ^ 24 ∧ -149 ≤ e ∧ q = n * 2 ^ e

variable {q r : ℚ}

theorem abs_lt_unit (q : ℚ) : |q| < 2 ^ 24 * 2 ^ unitExponent q := by
  have hlog : |q| < 2 ^ (Int.log 2 |q| + 1) := Int.lt_zpow_succ_log_self one_lt_two |q|
  apply hlog.trans_le
  rw [← zpow_natCast, ← zpow_add₀ two_ne_zero]
  apply zpow_le_zpow_right₀ one_le_two
  unfold unitExponent
  omega

theorem unit_le_abs (hq : q ≠ 0) (h : -149 < unitExponent q) :
    2 ^ 23 * 2 ^ unitExponent q ≤ |q| := by
  have hexponent : unitExponent q = Int.log 2 |q| - 23 := by
    unfold unitExponent at h ⊢
    omega
  have hlog : 2 ^ Int.log 2 |q| ≤ |q| := Int.zpow_log_le_self one_lt_two (abs_pos.mpr hq)
  rw [hexponent, ← zpow_natCast, ← zpow_add₀ two_ne_zero]
  convert hlog using 2
  push_cast
  ring

theorem abs_nearest_sub_eq (q : ℚ) (n : Int) :
    |n * 2 ^ unitExponent q - q| = |n - q / 2 ^ unitExponent q| * 2 ^ unitExponent q := by
  have hpos : (0 : ℚ) < 2 ^ unitExponent q := zpow_pos two_pos _
  rw [← abs_of_pos hpos, ← abs_mul, abs_of_pos hpos, sub_mul, div_mul_cancel₀ _ hpos.ne']

theorem abs_nearest_sub_le_half_unit (q : ℚ) : |nearest q - q| ≤ 2 ^ unitExponent q / 2 := by
  have hpos : (0 : ℚ) < 2 ^ unitExponent q := zpow_pos two_pos _
  rw [nearest, abs_nearest_sub_eq]
  have := mul_le_mul_of_nonneg_right (abs_nearestInt_sub_le_half (q / 2 ^ unitExponent q)) hpos.le
  linarith

theorem abs_nearestInt_unit_le (q : ℚ) : |nearestInt (q / 2 ^ unitExponent q)| ≤ 2 ^ 24 := by
  have hpos : (0 : ℚ) < 2 ^ unitExponent q := zpow_pos two_pos _
  have hbound : |q / 2 ^ unitExponent q| < 2 ^ 24 := by
    rw [abs_div, abs_of_pos hpos, div_lt_iff₀ hpos]
    exact abs_lt_unit q
  have hclose := abs_nearestInt_sub_le_half (q / 2 ^ unitExponent q)
  have htri := abs_sub_abs_le_abs_sub (nearestInt (q / 2 ^ unitExponent q) : ℚ)
    (q / 2 ^ unitExponent q)
  have hlt : |(nearestInt (q / 2 ^ unitExponent q) : ℚ)| < 2 ^ 24 + 1 := by linarith
  exact Int.lt_add_one_iff.mp (by exact_mod_cast hlt)

/-- Above the least exponent the mantissa is full. -/
theorem le_nearestInt_unit (hq : 0 < q) (h : -149 < unitExponent q) :
    2 ^ 23 ≤ nearestInt (q / 2 ^ unitExponent q) := by
  have hbound := unit_le_abs hq.ne' h
  rw [abs_of_pos hq, ← le_div_iff₀ (zpow_pos two_pos _)] at hbound
  have hclose := (abs_le.mp (abs_nearestInt_sub_le_half (q / 2 ^ unitExponent q))).1
  have hlt : (2 : ℚ) ^ 23 < nearestInt (q / 2 ^ unitExponent q) + 1 := by linarith
  exact Int.lt_add_one_iff.mp (by exact_mod_cast hlt)

theorem representable_intCast {n : Int} (h : |n| ≤ 2 ^ 24) : Representable n :=
  ⟨n, 0, h, by norm_num, by simp⟩

theorem representable_nearest (q : ℚ) : Representable (nearest q) :=
  ⟨_, _, abs_nearestInt_unit_le q, le_max_right _ _, rfl⟩

theorem nearest_zero : nearest 0 = 0 := by
  simp only [nearest, zero_div]
  rw [show (0 : ℚ) = ((0 : Int) : ℚ) from rfl, nearestInt_intCast]
  simp

theorem nearest_neg (q : ℚ) : nearest (-q) = -nearest q := by
  have hunit : unitExponent (-q) = unitExponent q := by rw [unitExponent, abs_neg, unitExponent]
  rw [nearest, nearest, hunit, neg_div, nearestInt_neg]
  push_cast
  ring

theorem abs_nearest_sub_le_multiple (q : ℚ) (n : Int) :
    |nearest q - q| ≤ |n * 2 ^ unitExponent q - q| := by
  rw [nearest, abs_nearest_sub_eq, abs_nearest_sub_eq]
  exact mul_le_mul_of_nonneg_right (abs_nearestInt_sub_le _ n) (zpow_pos two_pos _).le

/-- The least number with the last place of `q` is closer to `q` than all that lie below it. -/
theorem abs_nearest_sub_le_of_small (hedge : 2 ^ 23 * 2 ^ unitExponent q ≤ |q|)
    (hsmall : |r| ≤ 2 ^ 23 * 2 ^ unitExponent q) : |nearest q - q| ≤ |r - q| := by
  have hr := abs_le.mp hsmall
  obtain hneg | hnonneg := lt_or_ge q 0
  · rw [abs_of_neg hneg] at hedge
    apply (abs_nearest_sub_le_multiple q (-2 ^ 23)).trans
    push_cast
    rw [abs_of_nonneg (by linarith), abs_of_nonneg (by linarith)]
    linarith
  · rw [abs_of_nonneg hnonneg] at hedge
    apply (abs_nearest_sub_le_multiple q (2 ^ 23)).trans
    push_cast
    rw [abs_of_nonpos (by linarith), abs_of_nonpos (by linarith)]
    linarith

/-- A number that fits is made of a given last place, or it is below all full mantissas there. -/
theorem Representable.multiple_or_small (hr : Representable r) (u : Int) :
    (∃ n : Int, r = n * 2 ^ u) ∨ -149 < u ∧ |r| ≤ 2 ^ 23 * 2 ^ u := by
  obtain ⟨n, e, hn, he, rfl⟩ := hr
  have hn' : |(n : ℚ)| ≤ 2 ^ 24 := by exact_mod_cast hn
  obtain hlow | hhigh := lt_or_ge e u
  · refine Or.inr ⟨by omega, ?_⟩
    rw [abs_mul, abs_of_pos (zpow_pos two_pos e : (0 : ℚ) < 2 ^ e)]
    calc |(n : ℚ)| * 2 ^ e
        ≤ 2 ^ 24 * 2 ^ e := by gcongr
      _ = 2 ^ 23 * 2 ^ (e + 1) := by rw [zpow_add_one₀ two_ne_zero]; ring
      _ ≤ 2 ^ 23 * 2 ^ u := by
        have := zpow_le_zpow_right₀ (one_le_two (α := ℚ)) (Int.add_one_le_iff.mpr hlow)
        linarith
  · refine Or.inl ⟨n * 2 ^ (e - u).toNat, ?_⟩
    push_cast
    rw [mul_assoc, ← zpow_natCast, ← zpow_add₀ two_ne_zero]
    congr 2
    omega

/-- No number that fits is closer. -/
theorem abs_nearest_sub_le (q : ℚ) (hr : Representable r) : |nearest q - q| ≤ |r - q| := by
  obtain rfl | hq := eq_or_ne q 0
  · simp [nearest_zero]
  obtain ⟨n, rfl⟩ | ⟨hmin, hsmall⟩ := hr.multiple_or_small (unitExponent q)
  · exact abs_nearest_sub_le_multiple q n
  · exact abs_nearest_sub_le_of_small (unit_le_abs hq hmin) hsmall

theorem nearest_eq_self (hq : Representable q) : nearest q = q := by
  have h := abs_nearest_sub_le q hq
  rw [sub_self, abs_zero] at h
  exact sub_eq_zero.mp (abs_nonpos_iff.mp h)

theorem add_le_of_closer {a b q : ℚ} (h : a < b) (hclose : |b - q| ≤ |a - q|) : a + b ≤ 2 * q := by
  obtain hle | hgt := le_or_gt q a
  · rw [abs_of_nonneg (by linarith), abs_of_nonneg (by linarith)] at hclose
    linarith
  · rw [abs_of_neg (by linarith : a - q < 0)] at hclose
    have := (abs_le.mp hclose).2
    linarith

theorem nearest_mono (h : q ≤ r) : nearest q ≤ nearest r := by
  by_contra! hlt
  have hq := add_le_of_closer hlt (abs_nearest_sub_le q (representable_nearest r))
  have hr := add_le_of_closer (neg_lt_neg hlt) (q := -r) (by
    have := abs_nearest_sub_le r (representable_nearest q)
    rwa [neg_sub_neg, neg_sub_neg, abs_sub_comm, abs_sub_comm r])
  -- both lie halfway between the two results, so they are equal
  have heq : q = r := by linarith
  exact hlt.ne' (congrArg nearest heq)

theorem nearest_nonneg (h : 0 ≤ q) : 0 ≤ nearest q :=
  nearest_zero ▸ nearest_mono h

theorem nearest_one : nearest 1 = 1 := by
  have h := nearest_eq_self (representable_intCast (n := 1) (by norm_num))
  rwa [Int.cast_one] at h

theorem abs_nearest_le {b : ℚ} (hb : Representable b) (h : |q| ≤ b) : |nearest q| ≤ b := by
  obtain ⟨hlow, hhigh⟩ := abs_le.mp h
  apply abs_le.mpr
  constructor
  · rw [← nearest_eq_self hb, ← nearest_neg]
    exact nearest_mono hlow
  · rw [← nearest_eq_self hb]
    exact nearest_mono hhigh

theorem nearest_pos {k : Int} (hk : -149 ≤ k) (hq : 2 ^ k ≤ q) : 0 < nearest q := by
  have hrep : Representable (2 ^ k) := ⟨1, k, by norm_num, hk, by simp⟩
  calc (0 : ℚ) < 2 ^ k := zpow_pos two_pos k
    _ = nearest (2 ^ k) := (nearest_eq_self hrep).symm
    _ ≤ nearest q := nearest_mono hq

theorem abs_nearest_mono (hq : 0 ≤ q) (h : q ≤ r) : |nearest q| ≤ |nearest r| := by
  rw [abs_of_nonneg (nearest_nonneg hq), abs_of_nonneg (nearest_nonneg (hq.trans h))]
  exact nearest_mono h

theorem abs_nearest_sub_le_ulp (q : ℚ) : |nearest q - q| ≤ max |q| (2 ^ (-126 : Int)) / 2 ^ 24 := by
  obtain rfl | hq := eq_or_ne q 0
  · rw [nearest_zero, sub_zero, abs_zero]
    positivity
  apply (abs_nearest_sub_le_half_unit q).trans
  have hscale (x : ℚ) : x / 2 * 2 ^ 24 = 2 ^ 23 * x := by ring
  rw [le_div_iff₀ (by norm_num), hscale]
  obtain hlow | hhigh := le_or_gt (unitExponent q) (-149)
  · calc (2 : ℚ) ^ 23 * 2 ^ unitExponent q
        ≤ 2 ^ 23 * 2 ^ (-149 : Int) := by gcongr; norm_num
      _ = 2 ^ (-126 : Int) := by norm_num
      _ ≤ max |q| (2 ^ (-126 : Int)) := le_max_right _ _
  · exact (unit_le_abs hq hhigh).trans (le_max_left _ _)

theorem Representable.neg (h : Representable q) : Representable (-q) := by
  obtain ⟨n, e, hn, he, rfl⟩ := h
  exact ⟨-n, e, by rwa [abs_neg], he, by push_cast; ring⟩

theorem fract_mul_zpow_neg (n : Int) (k : Nat) :
    Int.fract ((n : ℚ) * 2 ^ (-k : Int)) = (n % (2 ^ k : Nat) : Int) * 2 ^ (-k : Int) := by
  have hscale : (2 : ℚ) ^ (-k : Int) = ((2 ^ k : Nat) : ℚ)⁻¹ := by
    rw [zpow_neg, zpow_natCast]
    norm_num
  rw [hscale, ← div_eq_mul_inv, ← div_eq_mul_inv, Int.fract_div_intCast_eq_div_intCast_mod]

theorem abs_emod_le {n : Int} {d : Nat} (hd : 0 < d) (h : 0 ≤ n ∨ n ≤ -d) : |n % d| ≤ |n| := by
  have hd' : (0 : Int) < d := by exact_mod_cast hd
  have hlt := Int.emod_lt_of_pos n hd'
  rw [abs_of_nonneg (Int.emod_nonneg n hd'.ne')]
  obtain hnonneg | hneg := h
  · obtain ⟨m, rfl⟩ := Int.eq_ofNat_of_zero_le hnonneg
    rw [abs_of_nonneg hnonneg]
    exact_mod_cast Nat.mod_le m d
  · have := neg_le_abs n
    omega

/-- What is left of a number without its whole part fits, unless the number is so little below zero
that its own last place is lost. -/
theorem Representable.fract (h : Representable q) (hq : 0 ≤ q ∨ q ≤ -1) :
    Representable (Int.fract q) := by
  obtain ⟨n, e, hn, he, rfl⟩ := h
  obtain hwhole | hpart := le_or_gt 0 e
  · obtain ⟨k, rfl⟩ := Int.eq_ofNat_of_zero_le hwhole
    have hint : (n : ℚ) * 2 ^ (k : Int) = ((n * 2 ^ k : Int) : ℚ) := by
      push_cast
      rw [zpow_natCast]
    rw [hint, Int.fract_intCast]
    exact representable_intCast (n := 0) (by norm_num)
  · obtain ⟨k, rfl⟩ : ∃ k : Nat, e = -k := ⟨(-e).toNat, by omega⟩
    have hpow : (0 : ℚ) < 2 ^ k := by positivity
    have hsign : 0 ≤ n ∨ n ≤ -(2 ^ k : Nat) := by
      rw [zpow_neg, zpow_natCast, ← div_eq_mul_inv, le_div_iff₀ hpow, div_le_iff₀ hpow,
        zero_mul, neg_one_mul] at hq
      exact_mod_cast hq
    exact ⟨n % (2 ^ k : Nat), -k, (abs_emod_le (Nat.two_pow_pos k) hsign).trans hn, he,
      fract_mul_zpow_neg n k⟩

/-- Numbers beyond the mantissa are even. -/
theorem Representable.even (h : Representable q) (hq : 2 ^ 24 ≤ |q|) : ∃ k : Int, q = 2 * k := by
  obtain ⟨n, e, hn, -, rfl⟩ := h
  have hn' : |(n : ℚ)| ≤ 2 ^ 24 := by exact_mod_cast hn
  rw [abs_mul, abs_of_pos (zpow_pos two_pos e : (0 : ℚ) < 2 ^ e)] at hq
  obtain hneg | rfl | hpos := lt_trichotomy e 0
  · have hsmall : (2 : ℚ) ^ e < 1 := zpow_lt_one_of_neg₀ one_lt_two hneg
    have hzpow : (0 : ℚ) < 2 ^ e := zpow_pos two_pos e
    nlinarith
  · rw [zpow_zero, mul_one] at hq
    have hn : |n| = 2 ^ 24 := by
      apply le_antisymm hn
      exact_mod_cast hq
    rw [zpow_zero, mul_one]
    obtain hn | hn := (abs_eq (by norm_num)).mp hn
    · exact ⟨2 ^ 23, by rw [hn]; norm_num⟩
    · exact ⟨-2 ^ 23, by rw [hn]; norm_num⟩
  · obtain ⟨k, rfl⟩ : ∃ k : Nat, e = k + 1 := ⟨(e - 1).toNat, by omega⟩
    refine ⟨n * 2 ^ k, ?_⟩
    rw [zpow_add_one₀ two_ne_zero, zpow_natCast]
    push_cast
    ring

/-- A large number takes no fraction. -/
theorem nearest_add_of_large (hq : Representable q) (hlarge : 2 ^ 24 ≤ q) (hr : 0 ≤ r)
    (hlt : r < 1) : nearest (q + r) = q := by
  have hge : q ≤ nearest (q + r) :=
    (nearest_eq_self hq).symm.le.trans (nearest_mono (by linarith))
  have hclose := (abs_le.mp (abs_nearest_sub_le (q + r) hq)).2
  rw [sub_add_cancel_left, abs_neg, abs_of_nonneg hr] at hclose
  obtain ⟨k, hk⟩ := hq.even (by rwa [abs_of_nonneg (by linarith)])
  obtain ⟨j, hj⟩ := (representable_nearest (q + r)).even (by
    rw [abs_of_nonneg (by linarith)]
    linarith)
  have hjk : j < k + 1 := by
    have : (j : ℚ) < k + 1 := by linarith
    exact_mod_cast this
  have hkj : k ≤ j := by
    have : (k : ℚ) ≤ j := by linarith
    exact_mod_cast this
  rw [hj, hk, show j = k by omega]

end PoseMachine.Single
