import PoseMachine.Proofs.Rounding

/-!
The numbers that singles stand for: sums and differences are rounded to the nearest one, a
comparison compares them, and a whole part or a count is exact as long as it fits.
-/

namespace PoseMachine.Single

open Float.Model (Format UnpackedFloat)
open Float.Model.UnpackedFloat

/-- The number that a finite single stands for. -/
def number (x : Float32) : ℚ := (exactValue (parts x)).getD 0

/-- The single is finite and stands for `q`. -/
def Denotes (x : Float32) (q : ℚ) : Prop := exactValue (parts x) = some q

instance (x : Float32) (q : ℚ) : Decidable (Denotes x q) :=
  inferInstanceAs (Decidable (exactValue (parts x) = some q))

variable {x y : Float32} {q r : ℚ}

theorem Denotes.number_eq (h : Denotes x q) : number x = q := by
  rw [number, show exactValue (parts x) = some q from h, Option.getD_some]

theorem denotes_number (h : x.isFinite = true) : Denotes x (number x) := by
  rw [← isFinite_parts] at h
  unfold Denotes number
  cases hx : parts x <;> simp_all [exactValue, UnpackedFloat.isFinite]

theorem denotes_zero : Denotes 0 0 := by
  decide +kernel

theorem denotes_one : Denotes 1 1 := by
  decide +kernel

/-- The greatest single. -/
def greatest : ℚ := (2 ^ 24 - 1) * 2 ^ 104

/-- A single stands for a number that fits and is not beyond the greatest one. -/
theorem Denotes.fits (h : Denotes x q) : Representable q ∧ |q| ≤ greatest := by
  have hstored := stored_parts x
  obtain ⟨s, -, rfl⟩ | ⟨s, m, e, hm, hx, rfl⟩ := exactValue_eq_some_iff.mp h
  · exact ⟨representable_intCast (n := 0) (by norm_num), by norm_num [greatest]⟩
  · rw [hx] at hstored
    obtain ⟨hhigh, hmin, hmax, -⟩ := hstored
    have hfits : Representable (m * 2 ^ e) :=
      ⟨m, e, by rw [abs_of_nonneg (by positivity)]; exact_mod_cast hhigh.le, hmin, by simp⟩
    constructor
    · cases s
      · exact hfits.neg
      · exact hfits
    · have hm' : (m : ℚ) ≤ 2 ^ 24 - 1 := by
        have : (m : ℚ) + 1 ≤ 2 ^ 24 := by exact_mod_cast hhigh
        linarith
      rw [abs_signed, abs_of_nonneg (by positivity), greatest, ← zpow_natCast _ 104]
      exact mul_le_mul hm' (zpow_le_zpow_right₀ one_le_two hmax) (by positivity) (by norm_num)

theorem denotes_of_parts {y : UnpackedFloat} (hx : parts x = unpack .binary32 (pack .binary32 y))
    (hfits : Fits y) (hy : exactValue y = some q) (hlt : |q| < 2 ^ 128) : Denotes x q := by
  rw [Denotes, hx, unpack_pack_of_stored (hfits.stored hy hlt), hy]

theorem parts_ofParts (y : UnpackedFloat) :
    parts (ofParts y) = unpack .binary32 (pack .binary32 y) := by
  rw [parts, ofParts]
  exact congrArg (unpack .binary32) (pack_unpack_of_valid valid_pack)

theorem parts_add (x y : Float32) :
    parts (x + y) = unpack .binary32 (pack .binary32 (add .binary32 (parts x) (parts y))) := rfl

theorem parts_sub (x y : Float32) :
    parts (x - y) = unpack .binary32 (pack .binary32 (sub .binary32 (parts x) (parts y))) := rfl

theorem parts_neg (x : Float32) :
    parts (-x) = unpack .binary32 (pack .binary32 (neg (parts x))) := rfl

theorem fits_parts (x : Float32) : Fits (parts x) := by
  have hstored := stored_parts x
  generalize parts x = y at *
  rcases y with _ | _ | _ | ⟨s, m, e, hm⟩
  case finite => exact ⟨hstored.1, hstored.2.1, hstored.2.2.2⟩
  all_goals trivial

/-- Moving zeros from the exponent into the mantissa changes nothing. -/
theorem apply_shiftLeft_mul (s : Sign) (m : Nat) {e t : Int} (h : t ≤ e) :
    ((s.apply (m <<< (e - t).toNat : Nat) : Int) : ℚ) * 2 ^ t = signed s (m * 2 ^ e) := by
  have hscale : ((m <<< (e - t).toNat : Nat) : ℚ) * 2 ^ t = m * 2 ^ e := by
    rw [Nat.shiftLeft_eq]
    push_cast
    rw [mul_assoc, ← zpow_natCast, ← zpow_add₀ two_ne_zero]
    congr 2
    omega
  cases s
  · simp only [Sign.apply, signed, Int.cast_neg, Int.cast_natCast, neg_mul, hscale]
  · exact hscale

theorem add_spec {x y : UnpackedFloat} (hx : Fits x) (hy : Fits y)
    (hxq : exactValue x = some q) (hyr : exactValue y = some r) (hq : Representable q)
    (hr : Representable r) :
    Fits (add .binary32 x y) ∧ exactValue (add .binary32 x y) = some (nearest (q + r)) := by
  obtain ⟨s, rfl, rfl⟩ | ⟨s, m, e, hm, rfl, rfl⟩ := exactValue_eq_some_iff.mp hxq <;>
    obtain ⟨s', rfl, rfl⟩ | ⟨s', m', e', hm', rfl, rfl⟩ := exactValue_eq_some_iff.mp hyr
  · rw [add_zero, nearest_zero, UnpackedFloat.add]
    split <;> exact ⟨trivial, rfl⟩
  · rw [zero_add, nearest_eq_self hr]
    exact ⟨hy, hyr⟩
  · rw [add_zero, nearest_eq_self hq]
    exact ⟨hx, hxq⟩
  · rw [← apply_shiftLeft_mul s m (min_le_left e e'),
      ← apply_shiftLeft_mul s' m' (min_le_right e e'), ← add_mul, ← Int.cast_add]
    exact normalize_spec _ _ _

theorem sub_eq (x y : UnpackedFloat) :
    sub .binary32 x y = add .binary32 x (neg y) := by
  rcases x with s | _ | s | ⟨s, m, e, hm⟩ <;> rcases y with s' | _ | s' | ⟨s', m', e', hm'⟩
  case finite.finite =>
    have hflip (n : Int) : (-s').apply n = -s'.apply n := by
      cases s'
      · exact (Int.neg_neg n).symm
      · rfl
    simp only [sub, neg, add, hflip, Int.sub_eq_add_neg]
  all_goals rfl

theorem Denotes.add (hx : Denotes x q) (hy : Denotes y r) (hlt : |nearest (q + r)| < 2 ^ 128) :
    Denotes (x + y) (nearest (q + r)) := by
  obtain ⟨hfits, hvalue⟩ :=
    add_spec (fits_parts x) (fits_parts y) hx hy hx.fits.1 hy.fits.1
  exact denotes_of_parts (parts_add x y) hfits hvalue hlt

theorem fits_neg {x : UnpackedFloat} (hx : Fits x) : Fits (neg x) := by
  rcases x with _ | _ | _ | _ <;> exact hx

theorem exactValue_neg {x : UnpackedFloat} (hx : exactValue x = some q) :
    exactValue (neg x) = some (-q) := by
  obtain ⟨s, rfl, rfl⟩ | ⟨s, m, e, hm, rfl, rfl⟩ := exactValue_eq_some_iff.mp hx
  · rfl
  · rw [UnpackedFloat.neg, exactValue_finite]
    cases s
    · exact congrArg some (neg_neg _).symm
    · rfl

theorem Denotes.neg (hx : Denotes x q) : Denotes (-x) (-q) := by
  apply denotes_of_parts (parts_neg x) (fits_neg (fits_parts x)) (exactValue_neg hx)
  rw [abs_neg]
  exact hx.fits.2.trans_lt (by norm_num [greatest])

theorem Denotes.sub (hx : Denotes x q) (hy : Denotes y r) (hlt : |nearest (q - r)| < 2 ^ 128) :
    Denotes (x - y) (nearest (q - r)) := by
  obtain ⟨hfits, hvalue⟩ :=
    add_spec (fits_parts x) (fits_neg (fits_parts y)) hx (exactValue_neg hy) hx.fits.1
      hy.fits.1.neg
  rw [← sub_eq] at hfits hvalue
  rw [← sub_eq_add_neg] at hvalue
  exact denotes_of_parts (parts_sub x y) hfits hvalue hlt

theorem mantissa_lt {m m' : Nat} {e e' : Int} (hm : m < 16777216) (hmin : -149 ≤ e)
    (hlead : 8388608 ≤ m' ∨ e' = -149) (h : e < e') : (m * 2 ^ e : ℚ) < m' * 2 ^ e' := by
  have hhigh : (m : ℚ) < 2 ^ 24 := by exact_mod_cast hm
  have hlow : (2 : ℚ) ^ 23 ≤ m' := by exact_mod_cast hlead.resolve_right (by omega)
  calc (m * 2 ^ e : ℚ)
      < 2 ^ 24 * 2 ^ e := mul_lt_mul_of_pos_right hhigh (zpow_pos two_pos e)
    _ = 2 ^ 23 * 2 ^ (e + 1) := by rw [zpow_add_one₀ two_ne_zero]; ring
    _ ≤ m' * 2 ^ e' :=
      mul_le_mul hlow (zpow_le_zpow_right₀ one_le_two (by omega)) (by positivity) (by positivity)

theorem compare_mantissas {m m' : Nat} {e e' : Int} (hm : m < 16777216) (hm' : m' < 16777216)
    (hmin : -149 ≤ e) (hmin' : -149 ≤ e') (hlead : 8388608 ≤ m ∨ e = -149)
    (hlead' : 8388608 ≤ m' ∨ e' = -149) :
    (compare e e').then (compare m m') = compare (m * 2 ^ e : ℚ) (m' * 2 ^ e') := by
  obtain hlt | rfl | hgt := lt_trichotomy e e'
  · rw [compare_lt_iff_lt.mpr hlt, compare_lt_iff_lt.mpr (mantissa_lt hm hmin hlead' hlt)]
    rfl
  · have hscale : (0 : ℚ) < 2 ^ e := zpow_pos two_pos e
    obtain hlt | rfl | hgt := lt_trichotomy m m'
    · rw [compare_eq_iff_eq.mpr rfl, compare_lt_iff_lt.mpr hlt, compare_lt_iff_lt.mpr
        (mul_lt_mul_of_pos_right (by exact_mod_cast hlt) hscale)]
      rfl
    · rw [compare_eq_iff_eq.mpr rfl, compare_eq_iff_eq.mpr rfl, compare_eq_iff_eq.mpr rfl]
      rfl
    · rw [compare_eq_iff_eq.mpr rfl, compare_gt_iff_gt.mpr hgt, compare_gt_iff_gt.mpr
        (mul_lt_mul_of_pos_right (by exact_mod_cast hgt) hscale)]
      rfl
  · rw [compare_gt_iff_gt.mpr hgt, compare_gt_iff_gt.mpr (mantissa_lt hm' hmin' hlead hgt)]
    rfl

theorem compare_neg_neg (q r : ℚ) : compare (-q) (-r) = (compare q r).swap := by
  obtain hlt | rfl | hgt := lt_trichotomy q r
  · rw [compare_lt_iff_lt.mpr hlt, compare_gt_iff_gt.mpr (neg_lt_neg hlt)]
    rfl
  · rw [compare_eq_iff_eq.mpr rfl, compare_eq_iff_eq.mpr rfl]
    rfl
  · rw [compare_gt_iff_gt.mpr hgt, compare_lt_iff_lt.mpr (neg_lt_neg hgt)]
    rfl

theorem compare_spec {x y : UnpackedFloat} (hx : Fits x) (hy : Fits y)
    (hxq : exactValue x = some q) (hyr : exactValue y = some r) :
    x.compare y = some (compare q r) := by
  have hpos {m : Nat} (e : Int) (hm : 0 < m) : (0 : ℚ) < m * 2 ^ e := by positivity
  obtain ⟨s, rfl, rfl⟩ | ⟨s, m, e, hm, rfl, rfl⟩ := exactValue_eq_some_iff.mp hxq <;>
    obtain ⟨s', rfl, rfl⟩ | ⟨s', m', e', hm', rfl, rfl⟩ := exactValue_eq_some_iff.mp hyr
  · rw [compare_eq_iff_eq.mpr rfl]
    rfl
  · cases s'
    · exact congrArg some (compare_gt_iff_gt.mpr (neg_lt_zero.mpr (hpos e' hm'))).symm
    · exact congrArg some (compare_lt_iff_lt.mpr (hpos e' hm')).symm
  · cases s
    · exact congrArg some (compare_lt_iff_lt.mpr (neg_lt_zero.mpr (hpos e hm))).symm
    · exact congrArg some (compare_gt_iff_gt.mpr (hpos e hm)).symm
  · have hcompare := compare_mantissas hx.1 hy.1 hx.2.1 hy.2.1 hx.2.2 hy.2.2
    have hp := hpos e hm
    have hp' := hpos e' hm'
    cases s <;> cases s' <;> simp only [signed, UnpackedFloat.compare]
    · rw [hcompare, compare_neg_neg]
    · rw [compare_lt_iff_lt.mpr (by linarith)]
    · rw [compare_gt_iff_gt.mpr (by linarith)]
    · rw [hcompare]

theorem compare_of_denotes (hx : Denotes x q) (hy : Denotes y r) :
    (parts x).compare (parts y) = some (compare q r) :=
  compare_spec (fits_parts x) (fits_parts y) hx hy

theorem lt_iff_compare (x y : Float32) :
    x < y ↔ ((parts x).compare (parts y) == some .lt) = true := by
  change decide (x.toModel < y.toModel) = true ↔ _
  rw [decide_eq_true_iff]
  rfl

theorem le_iff_compare (x y : Float32) :
    x ≤ y ↔ ((parts x).compare (parts y)).any (·.isLE) = true := by
  change decide (x.toModel ≤ y.toModel) = true ↔ _
  rw [decide_eq_true_iff]
  rfl

theorem Denotes.lt_iff (hx : Denotes x q) (hy : Denotes y r) : x < y ↔ q < r := by
  rw [lt_iff_compare, compare_of_denotes hx hy, ← compare_lt_iff_lt]
  cases compare q r <;> decide

theorem Denotes.le_iff (hx : Denotes x q) (hy : Denotes y r) : x ≤ y ↔ q ≤ r := by
  rw [le_iff_compare, compare_of_denotes hx hy, ← compare_le_iff_le]
  cases compare q r <;> decide

/-- All numbers compare alike with what is not a number. -/
theorem compare_eq_of_none {x y z : UnpackedFloat} (hx : exactValue x = some q)
    (hy : exactValue y = some r) (hz : exactValue z = none) : x.compare z = y.compare z := by
  rcases z with ⟨_ | _⟩ | _ | _ | _
  case zero | finite => simp [exactValue] at hz
  all_goals
    obtain ⟨_, rfl, -⟩ | ⟨⟨⟩, _, _, _, rfl, -⟩ := exactValue_eq_some_iff.mp hx <;>
      obtain ⟨_, rfl, -⟩ | ⟨⟨⟩, _, _, _, rfl, -⟩ := exactValue_eq_some_iff.mp hy <;>
      rfl

/-- Whatever is above a number, infinite or not, is above every smaller one. -/
theorem Denotes.lt_of_le (hx : Denotes x q) (hy : Denotes y r) (hle : q ≤ r) {z : Float32}
    (h : y < z) : x < z := by
  cases hz : exactValue (parts z) with
  | some t =>
      rw [hy.lt_iff hz] at h
      exact (hx.lt_iff hz).mpr (hle.trans_lt h)
  | none =>
      rw [lt_iff_compare] at h ⊢
      rwa [compare_eq_of_none hx hy hz]

/-- What lies between two numbers is a number. -/
theorem exists_denotes_of_le_of_lt {z : Float32} (hx : Denotes x q) (hz : Denotes z r)
    (hle : x ≤ y) (hlt : y < z) : ∃ s, Denotes y s := by
  cases hy : exactValue (parts y) with
  | some s => exact ⟨s, hy⟩
  | none =>
      -- both bounds compare alike with `y`, so `z` would be below `y` and above it
      rw [le_iff_compare, compare_eq_of_none hx hz hy] at hle
      rw [lt_iff_compare] at hlt
      have hz' := exactValue_eq_some_iff.mp hz
      generalize parts y = y at *
      generalize parts z = z at *
      exfalso
      rcases y with ⟨_ | _⟩ | _ | _ | _
      case zero | finite => simp [exactValue] at hy
      all_goals
        obtain ⟨_, rfl, -⟩ | ⟨⟨⟩, _, _, _, rfl, -⟩ := hz' <;>
          simp [UnpackedFloat.compare] at hle hlt

theorem denotes_ofMagnitude (s : Sign) {n : Nat} (hn : n ≤ 2 ^ 24) :
    Denotes (ofMagnitude s n) (signed s n) := by
  have hn' : |(n : ℚ)| ≤ 2 ^ 24 := by
    rw [abs_of_nonneg (by positivity)]
    exact_mod_cast hn
  have hlt : |signed s n| < 2 ^ 128 := by
    rw [abs_signed]
    exact hn'.trans_lt (by norm_num)
  obtain rfl | hpos := Nat.eq_zero_or_pos n
  · refine denotes_of_parts (parts_ofParts _) trivial ?_ hlt
    cases s <;> simp [exactValue, signed]
  · have hnearest : nearest n = n :=
      nearest_eq_self (representable_intCast (n := n) (by exact_mod_cast hn'))
    obtain ⟨hfits, hvalue⟩ := round_spec s hpos 0
    rw [zpow_zero, mul_one, hnearest] at hvalue
    refine denotes_of_parts (parts_ofParts _) ?_ ?_ hlt <;> rw [if_pos hpos]
    · exact hfits
    · exact hvalue

theorem floor_neg_div {m d : Nat} (hd : 0 < d) : ⌊-((m : ℚ) / d)⌋ = -((m + d - 1) / d : Nat) := by
  have hd' : (0 : ℚ) < d := by exact_mod_cast hd
  have hdiv := Nat.div_add_mod (m + d - 1) d
  have hmod := Nat.mod_lt (m + d - 1) hd
  generalize (m + d - 1) / d = k at *
  have hlow : (m : ℚ) ≤ d * k := by
    have : m ≤ d * k := by omega
    exact_mod_cast this
  have hhigh : (d * k : ℚ) < m + d := by
    have : d * k < m + d := by omega
    exact_mod_cast this
  rw [Int.floor_eq_iff]
  push_cast
  rw [le_neg, neg_neg, neg_lt, div_le_iff₀ hd', lt_div_iff₀ hd']
  constructor <;> linarith

theorem ceil_div_le {m d : Nat} (hm : 0 < m) (hd : 0 < d) : (m + d - 1) / d ≤ m := by
  have hgrow := Nat.le_mul_of_pos_right (d - 1) hm
  have hge := Nat.le_mul_of_pos_left m hd
  rw [Nat.sub_one_mul] at hgrow
  exact Nat.div_le_of_le_mul (by omega)

theorem mul_zpow_eq_div (m : Nat) {e : Int} (he : e < 0) :
    (m * 2 ^ e : ℚ) = m / (Nat.pow 2 (-e).toNat : Nat) := by
  obtain ⟨k, rfl⟩ : ∃ k : Nat, e = -k := ⟨(-e).toNat, by omega⟩
  rw [zpow_neg, zpow_natCast, neg_neg, Int.toNat_natCast, Nat.pow_eq, ← div_eq_mul_inv]
  norm_num

/-- The whole part of a number is exact. -/
theorem Denotes.floor (hx : Denotes x q) : Denotes (floor x) ⌊q⌋ := by
  have hfits := fits_parts x
  unfold Single.floor
  obtain ⟨s, hparts, rfl⟩ | ⟨s, m, e, hm, hparts, rfl⟩ := exactValue_eq_some_iff.mp hx <;>
    rw [hparts]
  · rwa [Int.floor_zero, Int.cast_zero]
  rw [hparts] at hfits
  dsimp only
  split_ifs with he
  · obtain ⟨k, rfl⟩ := Int.eq_ofNat_of_zero_le he
    have hint : signed s (m * 2 ^ (k : Int)) = ((s.apply m * 2 ^ k : Int) : ℚ) := by
      cases s <;> simp [signed, Sign.apply]
    rw [hint] at hx ⊢
    rwa [Int.floor_intCast]
  · have hd : 0 < Nat.pow 2 (-e).toNat := Nat.two_pow_pos _
    rw [mul_zpow_eq_div m (not_le.mp he)]
    generalize Nat.pow 2 (-e).toNat = d at *
    cases s
    · have hceil := denotes_ofMagnitude .negative ((ceil_div_le hm hd).trans hfits.1.le)
      rwa [signed, ← Int.cast_natCast, ← Int.cast_neg, ← floor_neg_div hd] at hceil
    · have hquotient := denotes_ofMagnitude .positive ((Nat.div_le_self m d).trans hfits.1.le)
      rwa [signed, ← Int.cast_natCast, Int.natCast_div, ← Rat.floor_natCast_div_natCast]
        at hquotient

theorem abs_nearest_natCast_lt {n : Nat} (hn : n ≤ 2 ^ 32) : |nearest n| < 2 ^ 128 := by
  have hlimit : nearest (2 ^ 32) = 2 ^ 32 :=
    nearest_eq_self ⟨1, 32, by norm_num, by norm_num, by norm_num⟩
  rw [abs_of_nonneg (nearest_nonneg (by positivity))]
  calc nearest n ≤ nearest (2 ^ 32) := nearest_mono (by exact_mod_cast hn)
    _ = 2 ^ 32 := hlimit
    _ < 2 ^ 128 := by norm_num

/-- A count is rounded to the nearest number. -/
theorem denotes_ofCount (n : UInt32) : Denotes (ofCount n) (nearest n.toNat) := by
  obtain ⟨hfits, hvalue⟩ := normalize_spec n.toNat 0 .positive
  rw [zpow_zero, mul_one, Int.cast_natCast] at hvalue
  have hparts : parts (ofCount n) = unpack .binary32
      (pack .binary32 (UnpackedFloat.normalize .binary32 n.toNat 0 .positive)) := by
    rw [← n.toNat_toUInt64]
    rfl
  exact denotes_of_parts hparts hfits hvalue (abs_nearest_natCast_lt n.toNat_lt.le)

/-- The mantissa at exponent 0 is the whole part. -/
theorem roundToInt_positive {m : Nat} (e : Int) :
    roundToInt .positive m e = ⌊(m * 2 ^ e : ℚ)⌋ := by
  have hvalue : (m * 2 ^ e : ℚ) = (m <<< e.toNat : Nat) / 2 ^ (-(e - e.toNat)).toNat := by
    rw [eq_div_iff (by positivity), Nat.shiftLeft_eq]
    push_cast
    simp only [mul_assoc, ← zpow_natCast, ← zpow_add₀ (two_ne_zero' ℚ)]
    congr 2
    omega
  have h := ((Truncates.ofNat (m <<< e.toNat)).shiftRight (-(e - e.toNat)).toNat).floor
  rw [hvalue, h]
  simp only [roundToInt, decreaseExponent, shiftToExponent,
    ExtendedMantissa.ofMantissaAndAccuracy, Sign.apply, zero_sub, sub_zero]

theorem toNat_ofNatClamp (n : Nat) : (UInt32.ofNatClamp n).toNat = min n 4294967295 := by
  have hsize : UInt32.size = 4294967296 := rfl
  unfold UInt32.ofNatClamp
  split_ifs with h <;> rw [UInt32.toNat_ofNatLT] <;> omega

/-- The cast to an integer drops the fraction and stops at the limit. -/
theorem Denotes.toNat_toUInt32 (hx : Denotes x q) (hq : 0 ≤ q) :
    x.toUInt32.toNat = min ⌊q⌋.toNat 4294967295 := by
  have hcast : x.toUInt32 =
      UInt32.ofNatClamp (UnpackedFloat.toInt 0 (UInt32.size - 1) (parts x)).toNat := rfl
  rw [hcast, toNat_ofNatClamp]
  obtain ⟨s, hparts, rfl⟩ | ⟨s, m, e, hm, hparts, rfl⟩ := exactValue_eq_some_iff.mp hx <;>
    rw [hparts, UnpackedFloat.toInt]
  · rw [Int.floor_zero]
  · have hpos : (0 : ℚ) < m * 2 ^ e := by positivity
    cases s
    · exact absurd hq (not_le.mpr (neg_lt_zero.mpr hpos))
    · rw [roundToInt_positive, signed]

end PoseMachine.Single
