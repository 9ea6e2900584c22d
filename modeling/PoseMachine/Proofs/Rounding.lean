import PoseMachine.Proofs.Nearest
import PoseMachine.Proofs.Widening

/-!
Shifting a mantissa and rounding what is left of it gives the nearest number that fits, and a word
holds every number that does.
-/

namespace PoseMachine.Single

open Float.Model (Format UnpackedFloat totalExponent)
open Float.Model.UnpackedFloat

/-- The mantissa is the whole part of `x`, and the two bits tell where the fraction of `x` lies. -/
structure Truncates (em : ExtendedMantissa) (x : ℚ) : Prop where
  floor : ⌊x⌋ = em.mantissa
  roundBit : em.roundBit = true ↔ 1 / 2 ≤ Int.fract x
  stickyBit : em.stickyBit = true ↔ Int.fract x ≠ 0 ∧ Int.fract x ≠ 1 / 2

namespace Truncates

variable {em : ExtendedMantissa} {x : ℚ}

theorem ofNat (m : Nat) : Truncates ⟨m, false, false⟩ m where
  floor := Int.floor_natCast m
  roundBit := by norm_num
  stickyBit := by simp

theorem inexact_iff (h : Truncates em x) :
    (em.roundBit || em.stickyBit) = true ↔ Int.fract x ≠ 0 := by
  rw [Bool.or_eq_true, h.roundBit, h.stickyBit]
  constructor
  · rintro (hhalf | hne) hzero
    · norm_num [hzero] at hhalf
    · exact hne.1 hzero
  · intro hne
    by_cases hhalf : Int.fract x = 1 / 2
    · exact Or.inl hhalf.ge
    · exact Or.inr ⟨hne, hhalf⟩

theorem floor_half (h : Truncates em x) : ⌊x / 2⌋ = (em.mantissa / 2 : Nat) := by
  have hdiv := Int.floor_div_natCast x 2
  rw [h.floor] at hdiv
  exact_mod_cast hdiv

/-- The last digit of the mantissa becomes the first one of the fraction. -/
theorem fract_half (h : Truncates em x) :
    Int.fract (x / 2) = ((em.mantissa % 2 : Nat) + Int.fract x) / 2 := by
  have hsplit := Int.floor_add_fract x
  have hdigit : (em.mantissa : ℚ) = 2 * (em.mantissa / 2 : Nat) + (em.mantissa % 2 : Nat) := by
    exact_mod_cast (Nat.div_add_mod em.mantissa 2).symm
  rw [h.floor, Int.cast_natCast] at hsplit
  rw [← Int.self_sub_floor, h.floor_half, Int.cast_natCast]
  linarith

theorem shiftRightOne (h : Truncates em x) : Truncates em.shiftRightOne (x / 2) := by
  have hnonneg := Int.fract_nonneg x
  have hlt := Int.fract_lt_one x
  have hround : em.shiftRightOne.roundBit = (em.mantissa % 2 != 0) := rfl
  have hsticky : em.shiftRightOne.stickyBit = (em.roundBit || em.stickyBit) := rfl
  refine ⟨h.floor_half, ?_, ?_⟩
  · rw [hround, h.fract_half]
    obtain hzero | hone := Nat.mod_two_eq_zero_or_one em.mantissa
    · rw [hzero, Nat.cast_zero]
      exact ⟨fun hset => absurd hset (by decide), fun hhalf => by linarith⟩
    · rw [hone, Nat.cast_one]
      exact ⟨fun _ => by linarith, fun _ => rfl⟩
  · rw [hsticky, h.inexact_iff, h.fract_half]
    obtain hzero | hone := Nat.mod_two_eq_zero_or_one em.mantissa
    · rw [hzero, Nat.cast_zero]
      exact ⟨fun hne => ⟨fun hnone => hne (by linarith), fun hhalf => by linarith⟩,
        fun hne hnone => hne.1 (by linarith)⟩
    · rw [hone, Nat.cast_one]
      exact ⟨fun hne => ⟨fun hnone => by linarith, fun hhalf => hne (by linarith)⟩,
        fun hne hnone => hne.2 (by linarith)⟩

theorem shiftRight (h : Truncates em x) (k : Nat) : Truncates (em >>> k) (x / 2 ^ k) := by
  change Truncates (Nat.repeat ExtendedMantissa.shiftRightOne k em) _
  induction k with
  | zero => simpa [Nat.repeat] using h
  | succ k ih =>
      rw [Nat.repeat, pow_succ, ← div_div]
      exact ih.shiftRightOne

/-- The bits are enough to round to the nearest integer. -/
theorem roundedMantissa (h : Truncates em x) : em.roundedMantissa = nearestInt x := by
  have hround := h.roundBit
  have hsticky := h.stickyBit
  rw [nearestInt, h.floor]
  rcases em with ⟨m, r, s⟩
  dsimp only at hround hsticky ⊢
  cases r <;> cases s <;>
    simp only [Bool.false_eq_true, false_iff, true_iff, not_le] at hround hsticky
  · rw [if_pos hround]
    rfl
  · rw [if_pos hround]
    rfl
  · have hhalf : Int.fract x = 1 / 2 := by
      by_contra hne
      exact hsticky ⟨by linarith, hne⟩
    rw [if_neg hround.not_gt, if_neg hhalf.le.not_gt]
    rfl
  · rw [if_neg hround.not_gt, if_pos (lt_of_le_of_ne hround hsticky.2.symm)]
    rfl

end Truncates

/-- A number with a sign. -/
def signed : Sign → ℚ → ℚ
  | .negative, q => -q
  | .positive, q => q

theorem nearest_signed (s : Sign) (q : ℚ) : nearest (signed s q) = signed s (nearest q) := by
  cases s
  · exact nearest_neg q
  · rfl

theorem abs_signed (s : Sign) (q : ℚ) : |signed s q| = |q| := by
  cases s
  · exact abs_neg q
  · rfl

theorem exactValue_finite (s : Sign) {m : Nat} (e : Int) (h : 0 < m) :
    exactValue (.finite s m e h) = some (signed s (m * 2 ^ e)) := by
  cases s <;> simp [exactValue, Sign.apply, signed]

theorem exactValue_eq_some_iff {x : UnpackedFloat} {q : ℚ} :
    exactValue x = some q ↔ (∃ s, x = .zero s ∧ q = 0) ∨
      ∃ s m e h, x = .finite s m e h ∧ q = signed s (m * 2 ^ e) := by
  rcases x with _ | _ | s | ⟨s, m, e, h⟩
  case zero => simp [exactValue, eq_comm]
  case finite =>
    rw [exactValue_finite, Option.some.injEq]
    constructor
    · rintro rfl
      exact Or.inr ⟨s, m, e, h, rfl, rfl⟩
    · rintro (⟨_, hx, -⟩ | ⟨_, _, _, _, hx, rfl⟩)
      · cases hx
      · cases hx
        rfl
  all_goals simp [exactValue]

/-- Mantissa and exponent are those of a single, were there no greatest exponent. -/
def Fits : UnpackedFloat → Prop
  | .finite _ m e _ => m < 16777216 ∧ -149 ≤ e ∧ (8388608 ≤ m ∨ e = -149)
  | _ => True

section

variable {m : Nat} {e : Int}

/-- The whole part of a number, unless it is zero, has the magnitude of the number. -/
theorem log_of_floor {x : ℚ} (hm : 0 < m) (hfloor : ⌊x⌋ = m) (e : Int) :
    Int.log 2 |x * 2 ^ e| = m.log2 + e := by
  have hscale : (0 : ℚ) < 2 ^ e := zpow_pos two_pos e
  obtain ⟨hlow, hhigh⟩ := (Nat.log2_eq_iff hm.ne').mp rfl
  obtain ⟨hle, hlt⟩ := Int.floor_eq_iff.mp hfloor
  rw [Int.cast_natCast] at hle hlt
  have hlow' : (2 : ℚ) ^ m.log2 ≤ x := by
    refine le_trans ?_ hle
    exact_mod_cast hlow
  have hhigh' : x < 2 ^ (m.log2 + 1) := by
    refine hlt.trans_le ?_
    exact_mod_cast hhigh
  have hpos : 0 < x * 2 ^ e := mul_pos (lt_of_lt_of_le (by positivity) hlow') hscale
  rw [abs_of_pos hpos]
  refine le_antisymm (Int.lt_add_one_iff.mp ?_) ?_
  · apply (Int.lt_zpow_iff_log_lt one_lt_two hpos).mp
    rw [add_right_comm, Nat.cast_ofNat, zpow_add₀ two_ne_zero]
    exact mul_lt_mul_of_pos_right (by exact_mod_cast hhigh') hscale
  · apply (Int.zpow_le_iff_le_log one_lt_two hpos).mp
    rw [Nat.cast_ofNat, zpow_add₀ two_ne_zero, zpow_natCast]
    exact mul_le_mul_of_nonneg_right hlow' hscale.le

theorem targetExponent_of_floor {x : ℚ} (hm : 0 < m) (hfloor : ⌊x⌋ = m) (e : Int) :
    Format.binary32.targetExponent (totalExponent m e) = unitExponent (x * 2 ^ e) := by
  simp only [Format.targetExponent, totalExponent, Format.mantissaBits, Format.minExponent,
    unitExponent, log_of_floor hm hfloor]
  omega

theorem targetExponent_eq (hm : 0 < m) (e : Int) :
    Format.binary32.targetExponent (totalExponent m e) = unitExponent (m * 2 ^ e) :=
  targetExponent_of_floor hm (Int.floor_natCast m) e

/-- Shifting digits out of a mantissa leaves the whole part of the number in units of the exponent
that is shifted to. -/
theorem truncates_shift {accuracy : Accuracy} {x : ℚ} {t u : Int}
    (htarget : Format.binary32.targetExponent (totalExponent m t) = u) (hle : t ≤ u)
    (hx : Truncates (.ofMantissaAndAccuracy m accuracy) x) :
    ∃ em, shiftToTargetExponent .binary32 m t accuracy = (em, u) ∧
      Truncates em (x * 2 ^ t / 2 ^ u) := by
  have hexponent : t + ((u - t).toNat : Int) = u := by omega
  have hvalue : x / 2 ^ (u - t).toNat = x * 2 ^ t / 2 ^ u := by
    rw [div_eq_div_iff (by positivity) (by positivity), mul_assoc, ← zpow_natCast,
      ← zpow_add₀ (two_ne_zero' ℚ), hexponent]
  refine ⟨_, ?_, hvalue ▸ hx.shiftRight (u - t).toNat⟩
  simp only [shiftToTargetExponent, shiftToExponent, htarget]
  exact congrArg (Prod.mk _) hexponent

/-- The first shift leaves the whole part of the number in units of its last place. -/
theorem truncates_firstShift {t : Int} (hm : 0 < m) (ht : unitExponent (m * 2 ^ e) = t) :
    ∃ em, shiftToTargetExponent .binary32 (m <<< (e - t).toNat) (e - (e - t).toNat) .exact =
      (em, t) ∧ Truncates em (m * 2 ^ e / 2 ^ t) := by
  have hpos : 0 < m <<< (e - t).toNat := by
    rw [Nat.shiftLeft_eq]
    exact Nat.mul_pos hm (Nat.two_pow_pos _)
  have hvalue :
      ((m <<< (e - t).toNat : Nat) : ℚ) * 2 ^ (e - ((e - t).toNat : Int)) = m * 2 ^ e := by
    rw [Nat.shiftLeft_eq]
    push_cast
    rw [mul_assoc, ← zpow_natCast, ← zpow_add₀ (two_ne_zero' ℚ)]
    congr 2
    omega
  have htarget := targetExponent_eq hpos (e - (e - t).toNat)
  rw [hvalue, ht] at htarget
  rw [← hvalue]
  exact truncates_shift htarget (by omega) (Truncates.ofNat _)

/-- The second shift takes back the digit that rounding may have added. -/
theorem secondShift_eq {n : Nat} {t : Int} (hn : n ≤ 16777216) (ht : -149 ≤ t) :
    shiftToTargetExponent .binary32 n t .exact =
      if n < 16777216 then (⟨n, false, false⟩, t) else (⟨8388608, false, false⟩, t + 1) := by
  split_ifs with h
  · have hlog : n.log2 ≤ 23 := by
      obtain rfl | hpos := Nat.eq_zero_or_pos n
      · decide
      · exact Nat.lt_succ_iff.mp ((Nat.log2_lt hpos.ne').mpr h)
    have hshift : (Format.binary32.targetExponent (totalExponent n t) - t).toNat = 0 := by
      simp only [Format.targetExponent, totalExponent, Format.mantissaBits, Format.minExponent]
      omega
    simp only [shiftToTargetExponent, shiftToExponent, hshift,
      ExtendedMantissa.ofMantissaAndAccuracy]
    simpa using mul_two_pow_shiftRight n 0
  · obtain rfl : n = 16777216 := by omega
    have hlog : Nat.log2 16777216 = 24 := by decide +kernel
    have hshift : (Format.binary32.targetExponent (totalExponent 16777216 t) - t).toNat = 1 := by
      simp only [Format.targetExponent, totalExponent, hlog, Format.mantissaBits,
        Format.minExponent]
      omega
    simp only [shiftToTargetExponent, shiftToExponent, hshift,
      ExtendedMantissa.ofMantissaAndAccuracy]
    exact Prod.ext (mul_two_pow_shiftRight 8388608 1) rfl

/-- What rounding makes of the mantissa left by the first shift. -/
theorem roundWithAccuracy_spec (s : Sign) {accuracy : Accuracy} {em : ExtendedMantissa} {t : Int}
    (hfirst : shiftToTargetExponent .binary32 m e accuracy = (em, t)) (ht : -149 ≤ t)
    (hle : em.roundedMantissa ≤ 16777216) (hlead : 8388608 ≤ em.roundedMantissa ∨ t = -149) :
    Fits (roundWithAccuracy .binary32 s m e accuracy) ∧
      exactValue (roundWithAccuracy .binary32 s m e accuracy) =
        some (signed s (em.roundedMantissa * 2 ^ t)) := by
  have hsecond := secondShift_eq hle ht
  simp only [roundWithAccuracy]
  rw [hfirst]
  dsimp only
  generalize em.roundedMantissa = n at *
  by_cases hcarry : n < 16777216
  · rw [if_pos hcarry] at hsecond
    simp only [hsecond]
    obtain rfl | hpos := Nat.eq_zero_or_pos n
    · rw [dif_pos rfl, Nat.cast_zero, zero_mul]
      exact ⟨trivial, by cases s <;> simp [exactValue, signed]⟩
    · rw [dif_neg hpos.ne', exactValue_finite]
      exact ⟨⟨hcarry, ht, hlead⟩, rfl⟩
  · rw [if_neg hcarry] at hsecond
    simp only [hsecond]
    rw [dif_neg (by norm_num), exactValue_finite]
    refine ⟨⟨by norm_num, by omega, Or.inl le_rfl⟩, ?_⟩
    rw [show n = 16777216 by omega, zpow_add_one₀ two_ne_zero]
    norm_num
    ring_nf

/-- A mantissa cut off at the last place of a number is rounded to the nearest one that fits. -/
theorem roundWithAccuracy_nearest (s : Sign) {accuracy : Accuracy} {em : ExtendedMantissa} {q : ℚ}
    (hq : 0 < q) (hfirst : shiftToTargetExponent .binary32 m e accuracy = (em, unitExponent q))
    (hem : Truncates em (q / 2 ^ unitExponent q)) :
    Fits (roundWithAccuracy .binary32 s m e accuracy) ∧
      exactValue (roundWithAccuracy .binary32 s m e accuracy) = some (signed s (nearest q)) := by
  have hmin : -149 ≤ unitExponent q := le_max_right _ _
  have hmantissa := hem.roundedMantissa
  have hle : em.roundedMantissa ≤ 16777216 := by
    have := hmantissa ▸ abs_nearestInt_unit_le q
    exact_mod_cast (abs_le.mp this).2
  have hlead : 8388608 ≤ em.roundedMantissa ∨ unitExponent q = -149 := by
    refine hmin.lt_or_eq.imp (fun hlt => ?_) Eq.symm
    have := hmantissa ▸ le_nearestInt_unit hq hlt
    exact_mod_cast this
  have hnearest : nearest q = em.roundedMantissa * 2 ^ unitExponent q := by
    rw [nearest, ← hmantissa, Int.cast_natCast]
  rw [hnearest]
  exact roundWithAccuracy_spec s hfirst hmin hle hlead

/-- Rounding gives the nearest number that fits. -/
theorem round_spec (s : Sign) (hm : 0 < m) (e : Int) :
    Fits (UnpackedFloat.round .binary32 s m e) ∧
      exactValue (UnpackedFloat.round .binary32 s m e) =
        some (signed s (nearest (m * 2 ^ e))) := by
  have hround : UnpackedFloat.round .binary32 s m e =
      roundWithAccuracy .binary32 s (m <<< (e - unitExponent (m * 2 ^ e)).toNat)
        (e - (e - unitExponent (m * 2 ^ e)).toNat) .exact := by
    simp only [UnpackedFloat.round, decreaseExponent, targetExponent_eq hm]
  obtain ⟨em, hfirst, hem⟩ := truncates_firstShift (e := e) hm rfl
  rw [hround]
  exact roundWithAccuracy_nearest s (by positivity) hfirst hem

theorem normalize_spec (n e : Int) (s : Sign) :
    Fits (UnpackedFloat.normalize .binary32 n e s) ∧
      exactValue (UnpackedFloat.normalize .binary32 n e s) = some (nearest (n * 2 ^ e)) := by
  obtain hneg | rfl | hpos := lt_trichotomy n 0
  · have hround := round_spec .negative (m := (-n).toNat) (by omega) e
    have hcast : (((-n).toNat : Nat) : ℚ) = -n := by
      exact_mod_cast Int.toNat_of_nonneg (by omega : 0 ≤ -n)
    rw [hcast, ← nearest_signed, signed, neg_mul, neg_neg] at hround
    simpa only [UnpackedFloat.normalize, Int.compare_eq_lt.mpr hneg] using hround
  · exact ⟨trivial, by simp [UnpackedFloat.normalize, exactValue, nearest_zero]⟩
  · have hround := round_spec .positive (m := n.toNat) (by omega) e
    have hcast : ((n.toNat : Nat) : ℚ) = n := by
      exact_mod_cast Int.toNat_of_nonneg hpos.le
    rw [hcast, ← nearest_signed, signed] at hround
    simpa only [UnpackedFloat.normalize, Int.compare_eq_gt.mpr hpos] using hround

end

/-- Below the limit of the format the exponent is one of a single. -/
theorem Fits.stored {x : UnpackedFloat} {q : ℚ} (hx : Fits x) (hq : exactValue x = some q)
    (hlt : |q| < 2 ^ 128) : Stored x := by
  rcases x with _ | _ | _ | ⟨s, m, e, hm⟩
  case finite =>
    obtain ⟨hhigh, hmin, hlead⟩ := hx
    refine ⟨hhigh, hmin, ?_, hlead⟩
    by_contra! hmax
    rw [exactValue_finite, Option.some.injEq] at hq
    have hfull : (2 : ℚ) ^ 23 ≤ m := by
      exact_mod_cast hlead.resolve_right (by omega)
    have hscale : (2 : ℚ) ^ (105 : Int) ≤ 2 ^ e := zpow_le_zpow_right₀ one_le_two (by omega)
    rw [← hq, abs_signed, abs_of_nonneg (by positivity)] at hlt
    have := mul_le_mul hfull hscale (by positivity) (by positivity)
    norm_num at this hlt
    linarith
  all_goals trivial

theorem exists_eq_reading {x : UnpackedFloat} (hx : Stored x) (hnan : x ≠ .notANumber) :
    ∃ s e m : Nat, s < 2 ∧ e < 256 ∧ m < 8388608 ∧ x = reading s e m := by
  have hsign (s : Sign) : ∃ n < 2, s = signOf n := by
    cases s
    · exact ⟨1, by norm_num, rfl⟩
    · exact ⟨0, by norm_num, rfl⟩
  rcases x with s | _ | s | ⟨s, m, e, hm⟩
  case notANumber => exact absurd rfl hnan
  case infinity =>
    obtain ⟨n, hn, rfl⟩ := hsign s
    exact ⟨n, 255, 0, hn, by norm_num, by norm_num, rfl⟩
  case zero =>
    obtain ⟨n, hn, rfl⟩ := hsign s
    exact ⟨n, 0, 0, hn, by norm_num, by norm_num, rfl⟩
  case finite =>
    obtain ⟨n, hn, rfl⟩ := hsign s
    obtain ⟨hhigh, hmin, hmax, hlead⟩ := hx
    by_cases hfull : 8388608 ≤ m
    · refine ⟨n, (e + 150).toNat, m - 8388608, hn, by omega, by omega, ?_⟩
      unfold reading
      rw [if_neg (by omega), if_neg (by omega)]
      simp only [UnpackedFloat.finite.injEq, true_and]
      omega
    · obtain rfl : e = -149 := hlead.resolve_left hfull
      exact ⟨n, 0, m, hn, by norm_num, by omega, by simp [reading, hm]⟩

/-- What a single can hold is what its word stands for. -/
theorem unpack_pack_of_stored {x : UnpackedFloat} (hx : Stored x) :
    unpack .binary32 (pack .binary32 x) = x := by
  by_cases hnan : x = .notANumber
  · rw [hnan]
    rfl
  obtain ⟨s, e, m, hs, he, hm, rfl⟩ := exists_eq_reading hx hnan
  obtain ⟨s', e', m', hs', he', hm', hbits, hread⟩ :=
    exists_reading (pack .binary32 (reading s e m))
  rw [toNat_pack_reading hs he hm hnan] at hbits
  rw [hread, show s' = s by omega, show e' = e by omega, show m' = m by omega]

end PoseMachine.Single
