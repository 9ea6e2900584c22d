import PoseMachine.Proofs.Numbers

/-!
Products and quotients of singles are rounded to the nearest number, as sums are. Where that is
beyond the greatest single, the result is infinite.
-/

namespace PoseMachine.Single

open Float.Model (Format UnpackedFloat totalExponent)
open Float.Model.UnpackedFloat

variable {x y : Float32} {q r : ℚ}

theorem signed_mul_signed (s s' : Sign) (q r : ℚ) :
    signed s q * signed s' r = signed (s * s') (q * r) := by
  cases s <;> cases s'
  · exact neg_mul_neg q r
  · exact neg_mul q r
  · exact mul_neg q r
  · rfl

theorem signed_div_signed (s s' : Sign) (q r : ℚ) :
    signed s q / signed s' r = signed (s / s') (q / r) := by
  cases s <;> cases s'
  · exact neg_div_neg_eq q r
  · exact neg_div r q
  · exact div_neg q
  · rfl

section Mantissas

variable {m m' : Nat} {e e' : Int}

/-- Two mantissas of singles have enough digits between them for the mantissa of their product. -/
theorem add_le_unitExponent (hm : 0 < m) (hm' : 0 < m') (hlead : 8388608 ≤ m ∨ e = -149)
    (hlead' : 8388608 ≤ m' ∨ e' = -149) :
    e + e' ≤ unitExponent ((m * m' : Nat) * 2 ^ (e + e')) := by
  have hpos : 0 < m * m' := Nat.mul_pos hm hm'
  rw [unitExponent, log_of_floor hpos (Int.floor_natCast _)]
  obtain hfull | hshort := le_or_gt 8388608 (m * m')
  · have hlog := (Nat.le_log2 hpos.ne').mpr (show 2 ^ 23 ≤ m * m' from hfull)
    omega
  · have hle := Nat.le_mul_of_pos_right m hm'
    have hle' := Nat.le_mul_of_pos_left m' hm
    omega

theorem truncates_quotient (m : Nat) (hm' : 0 < m') :
    Truncates (.ofMantissaAndAccuracy (m / m') (accuracyOfFraction (m % m') m')) (m / m') := by
  have hfloor : ⌊(m / m' : ℚ)⌋ = (m / m' : Nat) := by
    rw [Rat.floor_natCast_div_natCast, Int.natCast_div]
  have hfract : Int.fract (m / m' : ℚ) = (m % m' : Nat) / m' :=
    Int.fract_div_natCast_eq_div_natCast_mod
  have hpos : (0 : ℚ) < m' := by exact_mod_cast hm'
  have hround : 1 / 2 ≤ Int.fract (m / m' : ℚ) ↔ m' ≤ 2 * (m % m') := by
    rw [hfract, div_le_div_iff₀ two_pos hpos, one_mul, mul_comm]
    exact_mod_cast Iff.rfl
  have hzero : Int.fract (m / m' : ℚ) = 0 ↔ m % m' = 0 := by
    rw [hfract, div_eq_zero_iff, or_iff_left hpos.ne', Nat.cast_eq_zero]
  have hhalf : Int.fract (m / m' : ℚ) = 1 / 2 ↔ 2 * (m % m') = m' := by
    rw [hfract, div_eq_div_iff hpos.ne' two_ne_zero, one_mul, mul_comm]
    exact_mod_cast Iff.rfl
  have hsticky : Int.fract (m / m' : ℚ) ≠ 0 ∧ Int.fract (m / m' : ℚ) ≠ 1 / 2 ↔
      m % m' ≠ 0 ∧ 2 * (m % m') ≠ m' := by
    rw [Ne, Ne, hzero, hhalf]
  -- twice the remainder against the divisor tells on which side of a half the fraction is
  unfold accuracyOfFraction
  split_ifs with hexact
  · exact ⟨hfloor, (iff_of_false Bool.false_ne_true (by omega)).trans hround.symm,
      (iff_of_false Bool.false_ne_true fun h => h.1 hexact).trans hsticky.symm⟩
  · obtain hlt | heq | hgt := lt_trichotomy (2 * (m % m')) m'
    · rw [Nat.compare_eq_lt.mpr hlt]
      exact ⟨hfloor, (iff_of_false Bool.false_ne_true hlt.not_ge).trans hround.symm,
        (iff_of_true rfl ⟨hexact, hlt.ne⟩).trans hsticky.symm⟩
    · rw [Nat.compare_eq_eq.mpr heq]
      exact ⟨hfloor, (iff_of_true rfl heq.ge).trans hround.symm,
        (iff_of_false Bool.false_ne_true fun h => h.2 heq).trans hsticky.symm⟩
    · rw [Nat.compare_eq_gt.mpr hgt]
      exact ⟨hfloor, (iff_of_true rfl hgt.le).trans hround.symm,
        (iff_of_true rfl ⟨hexact, hgt.ne'⟩).trans hsticky.symm⟩

/-- The dividend is shifted far enough for the quotient to have the mantissa of a single, unless
the last place of all singles comes first. -/
theorem le_quotient (hm : 0 < m) (hm' : 0 < m') {t : Int} (hle : t ≤ e - e')
    (ht : t ≤ Format.binary32.targetExponent (totalExponent m e - totalExponent m' e')) :
    t ≤ -149 ∨ 8388608 ≤ (m <<< (e - e' - t).toNat) / m' := by
  refine (le_or_gt t (-149)).imp_right fun hlarge => ?_
  simp only [Format.targetExponent, totalExponent, Format.mantissaBits, Format.minExponent] at ht
  obtain ⟨hlow, -⟩ := (Nat.log2_eq_iff hm.ne').mp rfl
  obtain ⟨-, hhigh⟩ := (Nat.log2_eq_iff hm'.ne').mp rfl
  rw [Nat.le_div_iff_mul_le hm', Nat.shiftLeft_eq]
  calc 8388608 * m'
      ≤ 2 ^ 23 * 2 ^ (m'.log2 + 1) := Nat.mul_le_mul_left _ hhigh.le
    _ = 2 ^ (m'.log2 + 24) := by rw [← Nat.pow_add]; congr 1; omega
    _ ≤ 2 ^ (m.log2 + (e - e' - t).toNat) := Nat.pow_le_pow_right two_pos (by omega)
    _ ≤ m * 2 ^ (e - e' - t).toNat := by
      rw [Nat.pow_add]
      exact Nat.mul_le_mul_right _ hlow

/-- A mantissa with enough digits is cut off at the last place of its number. -/
theorem targetExponent_of_long {n : Nat} {z : ℚ} {t : Int} (hfloor : ⌊z⌋ = n) (hz : 0 < z)
    (hlong : t ≤ -149 ∨ 8388608 ≤ n) :
    Format.binary32.targetExponent (totalExponent n t) = unitExponent (z * 2 ^ t) ∧
      t ≤ unitExponent (z * 2 ^ t) := by
  obtain rfl | hn := Nat.eq_zero_or_pos n
  · -- less than the last place of all singles is left
    have hlow : t ≤ -149 := hlong.resolve_right (by norm_num)
    have hlt : z < 1 := by
      rw [Nat.cast_zero, Int.floor_eq_zero_iff] at hfloor
      exact hfloor.2
    have hpos : 0 < z * 2 ^ t := mul_pos hz (zpow_pos two_pos t)
    have hlog : Int.log 2 |z * 2 ^ t| < t := by
      apply (Int.lt_zpow_iff_log_lt one_lt_two (abs_pos.mpr hpos.ne')).mp
      rw [abs_of_pos hpos, Nat.cast_ofNat]
      exact mul_lt_of_lt_one_left (zpow_pos two_pos t) hlt
    have hlogzero : Nat.log2 0 = 0 := by decide
    simp only [Format.targetExponent, totalExponent, Format.mantissaBits, Format.minExponent,
      unitExponent, hlogzero]
    omega
  · refine ⟨targetExponent_of_floor hn hfloor t, ?_⟩
    rw [unitExponent, log_of_floor hn hfloor]
    refine (le_or_gt t (-149)).elim (fun hlow => hlow.trans (le_max_right _ _)) fun hlarge => ?_
    have hfull := hlong.resolve_left hlarge.not_ge
    have hlog := (Nat.le_log2 hn.ne').mpr (show 2 ^ 23 ≤ n from hfull)
    omega

end Mantissas

theorem mul_spec {x y : UnpackedFloat} (hx : Fits x) (hy : Fits y) (hxq : exactValue x = some q)
    (hyr : exactValue y = some r) :
    Fits (mul .binary32 x y) ∧ exactValue (mul .binary32 x y) = some (nearest (q * r)) := by
  obtain ⟨s, rfl, rfl⟩ | ⟨s, m, e, hm, rfl, rfl⟩ := exactValue_eq_some_iff.mp hxq
  · rw [zero_mul, nearest_zero]
    obtain ⟨s', rfl, -⟩ | ⟨s', m', e', hm', rfl, -⟩ := exactValue_eq_some_iff.mp hyr <;>
      exact ⟨trivial, rfl⟩
  obtain ⟨s', rfl, rfl⟩ | ⟨s', m', e', hm', rfl, rfl⟩ := exactValue_eq_some_iff.mp hyr
  · rw [mul_zero, nearest_zero]
    exact ⟨trivial, rfl⟩
  have hpos : 0 < m * m' := Nat.mul_pos hm hm'
  have hvalue : (m * 2 ^ e * (m' * 2 ^ e') : ℚ) = (m * m' : Nat) * 2 ^ (e + e') := by
    rw [Nat.cast_mul, zpow_add₀ two_ne_zero]
    ring
  have hexact : Truncates (.ofMantissaAndAccuracy (m * m') .exact) (m * m' : Nat) :=
    Truncates.ofNat _
  obtain ⟨em, hfirst, hem⟩ := truncates_shift (targetExponent_eq hpos (e + e'))
    (add_le_unitExponent hm hm' hx.2.2 hy.2.2) hexact
  rw [signed_mul_signed, nearest_signed, hvalue]
  exact roundWithAccuracy_nearest _ (by positivity) hfirst hem

theorem div_spec {x y : UnpackedFloat} (hxq : exactValue x = some q) (hyr : exactValue y = some r)
    (hr : r ≠ 0) :
    Fits (div .binary32 x y) ∧ exactValue (div .binary32 x y) = some (nearest (q / r)) := by
  obtain ⟨s', rfl, rfl⟩ | ⟨s', m', e', hm', rfl, rfl⟩ := exactValue_eq_some_iff.mp hyr
  · exact absurd rfl hr
  obtain ⟨s, rfl, rfl⟩ | ⟨s, m, e, hm, rfl, rfl⟩ := exactValue_eq_some_iff.mp hxq
  · rw [zero_div, nearest_zero]
    exact ⟨trivial, rfl⟩
  rw [signed_div_signed, nearest_signed, UnpackedFloat.div]
  dsimp only [divCore]
  have hle : min (e - e')
      (Format.binary32.targetExponent (totalExponent m e - totalExponent m' e')) ≤ e - e' :=
    min_le_left _ _
  have hlong := le_quotient hm hm' hle (min_le_right _ _)
  generalize min (e - e') _ = t at *
  have hvalue : (m * 2 ^ e / (m' * 2 ^ e') : ℚ) =
      (m <<< (e - e' - t).toNat : Nat) / m' * 2 ^ t := by
    have hexponent : (2 : ℚ) ^ e = 2 ^ ((e - e' - t).toNat : Int) * 2 ^ t * 2 ^ e' := by
      rw [← zpow_add₀ two_ne_zero, ← zpow_add₀ two_ne_zero]
      congr 1
      omega
    rw [Nat.shiftLeft_eq, hexponent, zpow_natCast]
    push_cast
    field_simp
  have hquotient := truncates_quotient (m <<< (e - e' - t).toNat) hm'
  have hpos : (0 : ℚ) < (m <<< (e - e' - t).toNat : Nat) / m' := by
    have hshifted : 0 < m <<< (e - e' - t).toNat := by
      rw [Nat.shiftLeft_eq]
      exact Nat.mul_pos hm (Nat.two_pow_pos _)
    positivity
  rw [hvalue]
  have hfloor : ⌊((m <<< (e - e' - t).toNat : Nat) / m' : ℚ)⌋ =
      (m <<< (e - e' - t).toNat / m' : Nat) := by
    rw [Rat.floor_natCast_div_natCast, Int.natCast_div]
  obtain ⟨htarget, hge⟩ := targetExponent_of_long hfloor hpos hlong
  obtain ⟨em, hfirst, hem⟩ := truncates_shift htarget hge hquotient
  exact roundWithAccuracy_nearest _ (by positivity) hfirst hem

end PoseMachine.Single
