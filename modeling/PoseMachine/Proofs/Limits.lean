import PoseMachine.Proofs.Quotients

/-!
Where singles end: results beyond the greatest single are infinite, and a single that is no number
is an infinity or NaN.
-/

namespace PoseMachine.Single

open Float.Model (Format UnpackedFloat)
open Float.Model.UnpackedFloat

variable {x y z : Float32} {q r : ℚ}

theorem parts_mul (x y : Float32) :
    parts (x * y) = unpack .binary32 (pack .binary32 (mul .binary32 (parts x) (parts y))) := rfl

theorem parts_div (x y : Float32) :
    parts (x / y) = unpack .binary32 (pack .binary32 (div .binary32 (parts x) (parts y))) := rfl

theorem parts_abs (x : Float32) :
    parts x.abs = unpack .binary32 (pack .binary32 (UnpackedFloat.abs (parts x))) := rfl

theorem isNaN_iff : x.isNaN = true ↔ parts x = .notANumber := by
  change (parts x).isNaN = true ↔ _
  cases parts x <;> simp [UnpackedFloat.isNaN]

theorem isFinite_iff : x.isFinite = true ↔ ∃ q, Denotes x q := by
  constructor
  · intro h
    exact ⟨_, denotes_number h⟩
  · rintro ⟨q, hq⟩
    rw [← isFinite_parts]
    obtain ⟨s, hx, -⟩ | ⟨s, m, e, hm, hx, -⟩ := exactValue_eq_some_iff.mp hq <;> rw [hx] <;> rfl

/-- A single stands for a number, or it is infinite or NaN. -/
theorem denotes_or_infinite_or_nan (x : Float32) :
    (∃ q, Denotes x q) ∨ (∃ s, parts x = .infinity s) ∨ parts x = .notANumber := by
  cases hx : parts x with
  | infinity s => exact .inr (.inl ⟨s, rfl⟩)
  | notANumber => exact .inr (.inr rfl)
  | zero s => exact .inl ⟨0, congrArg exactValue hx⟩
  | finite s m e h => exact .inl ⟨_, congrArg exactValue hx⟩

theorem isFinite_of_infinite {s : Sign} (h : parts x = .infinity s) : x.isFinite = false := by
  rw [← isFinite_parts, h]
  rfl

theorem isFinite_of_nan (h : parts x = .notANumber) : x.isFinite = false := by
  rw [← isFinite_parts, h]
  rfl

theorem Denotes.isFinite (hx : Denotes x q) : x.isFinite = true :=
  isFinite_iff.mpr ⟨q, hx⟩

theorem Denotes.unique (hx : Denotes x q) (hx' : Denotes x r) : q = r :=
  hx.number_eq.symm.trans hx'.number_eq

theorem Denotes.ne_infinity (hx : Denotes x q) (s : Sign) : parts x ≠ .infinity s := by
  intro hs
  rw [Denotes, hs] at hx
  cases hx

theorem Denotes.ne_nan (hx : Denotes x q) : parts x ≠ .notANumber := by
  intro hnan
  rw [Denotes, hnan] at hx
  cases hx

theorem isNaN_eq_false (h : x.isFinite = true) : x.isNaN = false := by
  cases hnan : x.isNaN with
  | false => rfl
  | true =>
      rw [isFinite_of_nan (isNaN_iff.mp hnan)] at h
      cases h

theorem isFinite_eq_false_iff :
    x.isFinite = false ↔ (∃ s, parts x = .infinity s) ∨ parts x = .notANumber := by
  constructor
  · intro h
    obtain ⟨q, hq⟩ | hother := denotes_or_infinite_or_nan x
    · rw [hq.isFinite] at h
      cases h
    · exact hother
  · rintro (⟨s, hs⟩ | hnan)
    · exact isFinite_of_infinite hs
    · exact isFinite_of_nan hnan

/-- A number beyond the limit of the format is stored as infinity. -/
theorem unpack_pack_of_overflow {s : Sign} {m : Nat} {e : Int} {hm : 0 < m}
    (hfits : Fits (.finite s m e hm)) (h : 2 ^ 128 ≤ (m * 2 ^ e : ℚ)) :
    unpack .binary32 (pack .binary32 (.finite s m e hm)) = .infinity s := by
  -- a mantissa has 24 digits at most, so that the exponent alone is too large to be stored
  have hexponent : 105 ≤ e := by
    by_contra! hlow
    have hm' : (m : ℚ) < 2 ^ 24 := by exact_mod_cast hfits.1
    have hscale : (2 : ℚ) ^ e ≤ 2 ^ (104 : Int) := zpow_le_zpow_right₀ one_le_two (by omega)
    have := mul_lt_mul hm' hscale (zpow_pos two_pos e) (by positivity)
    norm_num at this h
    linarith
  have hbias : Format.binary32.exponentBias = 127 := rfl
  have hpack : pack .binary32 (.finite s m e hm) = packedInfinity .binary32 s := by
    simp only [pack, hbias]
    exact if_pos (by norm_num; omega)
  rw [hpack]
  cases s <;> rfl

/-- The single is `q` rounded to the nearest number, and infinite where that is beyond the greatest
single. -/
structure Rounds (x : Float32) (q : ℚ) : Prop where
  denotes : |nearest q| < 2 ^ 128 → Denotes x (nearest q)
  infinite : 2 ^ 128 ≤ |nearest q| → parts x = .infinity (if q < 0 then .negative else .positive)

theorem rounds_of_parts {y : UnpackedFloat} (hx : parts x = unpack .binary32 (pack .binary32 y))
    (hy : Fits y ∧ exactValue y = some (nearest q)) : Rounds x q := by
  obtain ⟨hfits, hvalue⟩ := hy
  refine ⟨denotes_of_parts hx hfits hvalue, fun hlarge => ?_⟩
  obtain ⟨s, rfl, hzero⟩ | ⟨s, m, e, hm, rfl, hq⟩ := exactValue_eq_some_iff.mp hvalue
  · rw [hzero] at hlarge
    norm_num at hlarge
  have hpos : (0 : ℚ) < m * 2 ^ e := by positivity
  rw [hq, abs_signed, abs_of_pos hpos] at hlarge
  rw [hx, unpack_pack_of_overflow hfits hlarge]
  -- rounding keeps the sign
  cases s
  · have hneg : q < 0 := by
      by_contra! hnonneg
      have := nearest_nonneg hnonneg
      rw [hq] at this
      exact (neg_lt_zero.mpr hpos).not_ge this
    rw [if_pos hneg]
  · have hnonneg : ¬ q < 0 := fun hneg => by
      have := nearest_nonneg (neg_nonneg.mpr hneg.le)
      rw [nearest_neg, hq, signed, neg_nonneg] at this
      exact hpos.not_ge this
    rw [if_neg hnonneg]

theorem rounds_add (hx : Denotes x q) (hy : Denotes y r) : Rounds (x + y) (q + r) :=
  rounds_of_parts (parts_add x y)
    (add_spec (fits_parts x) (fits_parts y) hx hy hx.fits.1 hy.fits.1)

theorem rounds_sub (hx : Denotes x q) (hy : Denotes y r) : Rounds (x - y) (q - r) := by
  have h := add_spec (fits_parts x) (fits_neg (fits_parts y)) hx (exactValue_neg hy) hx.fits.1
    hy.fits.1.neg
  rw [← sub_eq, ← sub_eq_add_neg] at h
  exact rounds_of_parts (parts_sub x y) h

theorem rounds_mul (hx : Denotes x q) (hy : Denotes y r) : Rounds (x * y) (q * r) :=
  rounds_of_parts (parts_mul x y) (mul_spec (fits_parts x) (fits_parts y) hx hy)

theorem rounds_div (hx : Denotes x q) (hy : Denotes y r) (hr : r ≠ 0) : Rounds (x / y) (q / r) :=
  rounds_of_parts (parts_div x y) (div_spec hx hy hr)

theorem unpack_pack_infinity (s : Sign) :
    unpack .binary32 (pack .binary32 (.infinity s)) = .infinity s := by
  cases s <;> rfl

theorem Denotes.add_infinity {s : Sign} (hx : Denotes x q) (hy : parts y = .infinity s) :
    parts (x + y) = .infinity s ∧ parts (y + x) = .infinity s := by
  have hadd : UnpackedFloat.add .binary32 (parts x) (.infinity s) = .infinity s ∧
      UnpackedFloat.add .binary32 (.infinity s) (parts x) = .infinity s := by
    obtain ⟨s', hparts, -⟩ | ⟨s', m, e, hm, hparts, -⟩ := exactValue_eq_some_iff.mp hx <;>
      rw [hparts] <;> exact ⟨rfl, rfl⟩
  rw [parts_add, parts_add, hy, hadd.1, hadd.2, unpack_pack_infinity]
  exact ⟨rfl, rfl⟩

theorem add_nan (hy : parts y = .notANumber) :
    parts (x + y) = .notANumber ∧ parts (y + x) = .notANumber := by
  have hadd : UnpackedFloat.add .binary32 (parts x) .notANumber = .notANumber ∧
      UnpackedFloat.add .binary32 .notANumber (parts x) = .notANumber := by
    cases parts x <;> exact ⟨rfl, rfl⟩
  rw [parts_add, parts_add, hy, hadd.1, hadd.2]
  exact ⟨rfl, rfl⟩

theorem Denotes.add_of_not_isFinite (hx : Denotes x q) (hy : y.isFinite = false) :
    (x + y).isFinite = false := by
  obtain ⟨s, hs⟩ | hnan := isFinite_eq_false_iff.mp hy
  · exact isFinite_of_infinite (hx.add_infinity hs).1
  · exact isFinite_of_nan (add_nan hnan).1

theorem sub_self_of_not_isFinite (hx : x.isFinite = false) : parts (x - x) = .notANumber := by
  rw [parts_sub]
  obtain ⟨s, hs⟩ | hnan := isFinite_eq_false_iff.mp hx
  · rw [hs]
    cases s <;> rfl
  · rw [hnan]
    rfl

theorem floor_of_not_isFinite (hx : x.isFinite = false) : floor x = x := by
  unfold floor
  obtain ⟨s, hs⟩ | hnan := isFinite_eq_false_iff.mp hx
  · rw [hs]
  · rw [hnan]

theorem Denotes.div_infinity {s : Sign} (hx : Denotes x q) (hy : parts y = .infinity s) :
    Denotes (x / y) 0 := by
  have hzero : ∃ s', div .binary32 (parts x) (.infinity s) = .zero s' := by
    obtain ⟨s', hparts, -⟩ | ⟨s', m, e, hm, hparts, -⟩ := exactValue_eq_some_iff.mp hx <;>
      rw [hparts] <;> exact ⟨_, rfl⟩
  obtain ⟨s', hs'⟩ := hzero
  rw [Denotes, parts_div, hy, hs']
  cases s' <;> rfl

theorem infinity_div_infinity {s s' : Sign} (hx : parts x = .infinity s)
    (hy : parts y = .infinity s') : parts (x / y) = .notANumber := by
  rw [parts_div, hx, hy]
  cases s <;> cases s' <;> rfl

section Order

theorem Denotes.compare_infinity (hx : Denotes x q) (s : Sign) :
    (parts x).compare (.infinity s) = some (match s with | .positive => .lt | .negative => .gt) ∧
      (UnpackedFloat.infinity s).compare (parts x) =
        some (match s with | .positive => .gt | .negative => .lt) := by
  obtain ⟨s', hx, -⟩ | ⟨⟨⟩, m, e, hm, hx, -⟩ := exactValue_eq_some_iff.mp hx <;>
    rw [hx] <;> cases s <;> exact ⟨rfl, rfl⟩

theorem Denotes.lt_infinity (hx : Denotes x q) (hy : parts y = .infinity .positive) : x < y := by
  rw [lt_iff_compare, hy, (hx.compare_infinity .positive).1]
  rfl

theorem Denotes.infinity_lt (hx : Denotes x q) (hy : parts y = .infinity .negative) : y < x := by
  rw [lt_iff_compare, hy, (hx.compare_infinity .negative).2]
  rfl

theorem Denotes.not_infinity_le (hx : Denotes x q) (hy : parts y = .infinity .positive) :
    ¬ y ≤ x := by
  rw [le_iff_compare, hy, (hx.compare_infinity .positive).2]
  decide

theorem Denotes.not_le_infinity (hx : Denotes x q) (hy : parts y = .infinity .negative) :
    ¬ x ≤ y := by
  rw [le_iff_compare, hy, (hx.compare_infinity .negative).1]
  decide

theorem compare_nan (y : UnpackedFloat) :
    y.compare .notANumber = none ∧ UnpackedFloat.notANumber.compare y = none := by
  cases y <;> exact ⟨rfl, rfl⟩

theorem Denotes.abs (hx : Denotes x q) : Denotes x.abs |q| := by
  have habs : Fits (UnpackedFloat.abs (parts x)) ∧
      exactValue (UnpackedFloat.abs (parts x)) = some |q| := by
    have hfits := fits_parts x
    obtain ⟨s, hparts, rfl⟩ | ⟨s, m, e, hm, hparts, rfl⟩ := exactValue_eq_some_iff.mp hx <;>
      rw [hparts] at hfits ⊢
    · exact ⟨trivial, by rw [abs_zero]; rfl⟩
    · refine ⟨hfits, ?_⟩
      rw [UnpackedFloat.abs, exactValue_finite, abs_signed, abs_of_pos (by positivity), signed]
  apply denotes_of_parts (parts_abs x) habs.1 habs.2
  rw [abs_abs]
  exact hx.fits.2.trans_lt (by norm_num [greatest])

theorem not_le_nan (hy : parts y = .notANumber) : ¬ x ≤ y := by
  rw [le_iff_compare, hy, (compare_nan _).1]
  decide

theorem not_nan_lt (hx : parts x = .notANumber) : ¬ x < y := by
  rw [lt_iff_compare, hx, (compare_nan _).2]
  decide

theorem not_lt_nan (hy : parts y = .notANumber) : ¬ x < y := by
  rw [lt_iff_compare, hy, (compare_nan _).1]
  decide

theorem single_le_of_lt (h : x < y) : x ≤ y := by
  rw [lt_iff_compare, beq_iff_eq] at h
  rw [le_iff_compare, h]
  rfl

/-- What lies between two numbers is a number between them. -/
theorem exists_denotes_of_le_of_le (hx : Denotes x q) (hz : Denotes z r) (hle : x ≤ y)
    (hle' : y ≤ z) : ∃ t, Denotes y t ∧ q ≤ t ∧ t ≤ r := by
  obtain ⟨t, ht⟩ | ⟨s, hs⟩ | hnan := denotes_or_infinite_or_nan y
  · exact ⟨t, ht, (hx.le_iff ht).mp hle, (ht.le_iff hz).mp hle'⟩
  · cases s
    · exact absurd hle (hx.not_le_infinity hs)
    · exact absurd hle' (hz.not_infinity_le hs)
  · exact absurd hle (not_le_nan hnan)

/-- A single that is at least zero is such a number or infinite. -/
theorem zero_le_iff : 0 ≤ x ↔ (∃ q, Denotes x q ∧ 0 ≤ q) ∨ parts x = .infinity .positive := by
  obtain ⟨q, hq⟩ | ⟨s, hs⟩ | hnan := denotes_or_infinite_or_nan x
  · rw [or_iff_left (hq.ne_infinity .positive), denotes_zero.le_iff hq]
    constructor
    · intro h
      exact ⟨q, hq, h⟩
    · rintro ⟨q', hq', h⟩
      rwa [hq.unique hq']
  · have hnumber : ¬ ∃ q, Denotes x q ∧ 0 ≤ q := by
      rintro ⟨q, hq, -⟩
      exact hq.ne_infinity s hs
    rw [or_iff_right hnumber]
    cases s
    · exact iff_of_false (denotes_zero.not_le_infinity hs) (by simp [hs])
    · exact iff_of_true (single_le_of_lt (denotes_zero.lt_infinity hs)) hs
  · refine iff_of_false (not_le_nan hnan) ?_
    rintro (⟨q, hq, -⟩ | hinfinite)
    · exact hq.ne_nan hnan
    · rw [hnan] at hinfinite
      cases hinfinite

theorem Denotes.clamp {lo hi : Float32} {a b : ℚ} (hlo : Denotes lo a) (hhi : Denotes hi b)
    (hle : a ≤ b) (hx : Denotes x q) : Denotes (clamp lo hi x) (max a (min b q)) := by
  unfold Single.clamp
  simp only [hx.lt_iff hlo]
  split_ifs with hlow habove habove
  · rw [gt_iff_lt, hhi.lt_iff hlo] at habove
    exact absurd habove hle.not_gt
  · rwa [max_eq_left (by rw [min_le_iff]; exact .inr hlow.le)]
  · rw [gt_iff_lt, hhi.lt_iff hx] at habove
    rwa [min_eq_left habove.le, max_eq_right hle]
  · rw [gt_iff_lt, hhi.lt_iff hx, not_lt] at habove
    rwa [min_eq_right habove, max_eq_right (not_lt.mp hlow)]

end Order

theorem parts_inj (h : parts x = parts y) : x = y := by
  rw [← ofParts_parts x, h, ofParts_parts]

/-- Only zero has two singles that stand for it. -/
theorem Denotes.eq_of_ne_zero (hx : Denotes x q) (hy : Denotes y q) (hq : q ≠ 0) : x = y := by
  obtain ⟨-, -, hzero⟩ | ⟨s, m, e, hm, hparts, rfl⟩ := exactValue_eq_some_iff.mp hx
  · exact absurd hzero hq
  obtain ⟨-, -, hzero⟩ | ⟨s', m', e', hm', hparts', hvalue⟩ := exactValue_eq_some_iff.mp hy
  · exact absurd hzero hq
  have hfits := fits_parts x
  have hfits' := fits_parts y
  rw [hparts] at hfits
  rw [hparts'] at hfits'
  have hpos : (0 : ℚ) < m * 2 ^ e := by positivity
  have hpos' : (0 : ℚ) < m' * 2 ^ e' := by positivity
  have hsame : s = s' ∧ (m * 2 ^ e : ℚ) = m' * 2 ^ e' := by
    cases s <;> cases s' <;> simp only [signed] at hvalue
    · exact ⟨rfl, neg_injective hvalue⟩
    · linarith
    · linarith
    · exact ⟨rfl, hvalue⟩
  obtain ⟨rfl, hmagnitude⟩ := hsame
  obtain hlt | rfl | hgt := lt_trichotomy e e'
  · exact absurd hmagnitude (mantissa_lt hfits.1 hfits.2.1 hfits'.2.2 hlt).ne
  · rw [mul_left_inj' (zpow_pos two_pos e).ne', Nat.cast_inj] at hmagnitude
    subst hmagnitude
    exact parts_inj (hparts.trans hparts'.symm)
  · exact absurd hmagnitude (mantissa_lt hfits'.1 hfits'.2.1 hfits.2.2 hgt).ne'

theorem Rounds.isFinite_iff (h : Rounds x q) : x.isFinite = true ↔ |nearest q| < 2 ^ 128 := by
  constructor
  · intro hx
    by_contra! hlarge
    rw [isFinite_of_infinite (h.infinite hlarge)] at hx
    cases hx
  · intro hsmall
    exact (h.denotes hsmall).isFinite

theorem Rounds.not_nan (h : Rounds x q) : parts x ≠ .notANumber := by
  intro hnan
  obtain hsmall | hlarge := lt_or_ge |nearest q| (2 ^ 128)
  · exact (h.denotes hsmall).ne_nan hnan
  · rw [h.infinite hlarge] at hnan
    cases hnan

theorem Rounds.denotes_of_isFinite (h : Rounds x q) (hx : x.isFinite = true) :
    Denotes x (nearest q) :=
  h.denotes (h.isFinite_iff.mp hx)

theorem Rounds.infinite_of_not_isFinite (h : Rounds x q) (hx : x.isFinite = false) (hq : 0 ≤ q) :
    parts x = .infinity .positive := by
  have hlarge : 2 ^ 128 ≤ |nearest q| := by
    rw [← not_lt, ← h.isFinite_iff, hx]
    exact Bool.false_ne_true
  rw [h.infinite hlarge, if_neg hq.not_gt]

theorem Rounds.denotes_of_abs_le (h : Rounds x q) (hq : |q| ≤ 2 ^ 127) :
    Denotes x (nearest q) := by
  apply h.denotes
  have hrep : Representable (2 ^ 127) := ⟨1, 127, by norm_num, by norm_num, by norm_num⟩
  exact (abs_nearest_le hrep hq).trans_lt (by norm_num)

/-- A result that fits is exact. -/
theorem Rounds.eq_of_denotes (h : Rounds x q) (hy : Denotes y q) (hq : q ≠ 0) : x = y := by
  have hself := nearest_eq_self hy.fits.1
  have hx : Denotes x (nearest q) := by
    apply h.denotes
    rw [hself]
    exact hy.fits.2.trans_lt (by norm_num [greatest])
  rw [hself] at hx
  exact hx.eq_of_ne_zero hy hq

theorem Rounds.denotes_zero (h : Rounds x 0) : Denotes x 0 := by
  have hx := h.denotes_of_abs_le (by norm_num)
  rwa [nearest_zero] at hx

section Zero

theorem Denotes.zero_mul (hx : Denotes x 0) (hy : Denotes y r) : Denotes (x * y) 0 := by
  have h := rounds_mul hx hy
  rw [MulZeroClass.zero_mul] at h
  exact h.denotes_zero

theorem Denotes.zero_add_zero (hx : Denotes x 0) (hy : Denotes y 0) : Denotes (x + y) 0 := by
  have h := rounds_add hx hy
  rw [AddZeroClass.add_zero] at h
  exact h.denotes_zero

theorem Denotes.eq_zero_or_neg_zero (hx : Denotes x 0) : x = 0 ∨ x = -0 := by
  obtain ⟨s, hparts, -⟩ | ⟨s, m, e, hm, -, hzero⟩ := exactValue_eq_some_iff.mp hx
  · cases s
    · exact .inr (parts_inj hparts)
    · exact .inl (parts_inj hparts)
  · have hpos : (0 : ℚ) < m * 2 ^ e := by positivity
    cases s
    · exact absurd hzero (neg_ne_zero.mpr hpos.ne').symm
    · exact absurd hzero hpos.ne

/-- A zero of either sign adds nothing to a number that is not the negative zero. -/
theorem add_of_denotes_zero (hx : Denotes x q) (hsign : q = 0 → x = 0) (hz : Denotes z 0) :
    x + z = x ∧ z + x = x := by
  obtain rfl | hq := eq_or_ne q 0
  · rw [hsign rfl]
    obtain rfl | rfl := hz.eq_zero_or_neg_zero <;> constructor <;> decide +kernel
  · constructor
    · have h := rounds_add hx hz
      rw [AddZeroClass.add_zero] at h
      exact h.eq_of_denotes hx hq
    · have h := rounds_add hz hx
      rw [AddZeroClass.zero_add] at h
      exact h.eq_of_denotes hx hq

theorem one_mul_of_denotes (hx : Denotes x q) (hsign : q = 0 → x = 0) : 1 * x = x := by
  obtain rfl | hq := eq_or_ne q 0
  · rw [hsign rfl]
    decide +kernel
  · have h := rounds_mul denotes_one hx
    rw [one_mul] at h
    exact h.eq_of_denotes hx hq

theorem div_self_of_denotes (hx : Denotes x q) (hq : q ≠ 0) : x / x = 1 := by
  have h := rounds_div hx hx hq
  rw [div_self hq] at h
  exact h.eq_of_denotes denotes_one one_ne_zero

end Zero

section Unit

theorem mem_unit_iff :
    (x.isFinite = true ∧ 0 ≤ x ∧ x ≤ 1) ↔ ∃ q, Denotes x q ∧ 0 ≤ q ∧ q ≤ 1 := by
  constructor
  · rintro ⟨hx, hlow, hhigh⟩
    have hq := denotes_number hx
    exact ⟨_, hq, (denotes_zero.le_iff hq).mp hlow, (hq.le_iff denotes_one).mp hhigh⟩
  · rintro ⟨q, hq, hlow, hhigh⟩
    exact ⟨hq.isFinite, (denotes_zero.le_iff hq).mpr hlow, (hq.le_iff denotes_one).mpr hhigh⟩

theorem nearest_mem_unit (hlow : 0 ≤ q) (hhigh : q ≤ 1) : 0 ≤ nearest q ∧ nearest q ≤ 1 :=
  ⟨nearest_nonneg hlow, nearest_one ▸ nearest_mono hhigh⟩

theorem Rounds.mem_unit (h : Rounds x q) (hlow : 0 ≤ q) (hhigh : q ≤ 1) :
    ∃ r, Denotes x r ∧ 0 ≤ r ∧ r ≤ 1 :=
  ⟨_, h.denotes_of_abs_le (by rw [abs_of_nonneg hlow]; linarith), nearest_mem_unit hlow hhigh⟩

end Unit

end PoseMachine.Single
