import PoseMachine.Proofs.Patterns
import PoseMachine.Single.Double

/-!
A finite single and the double it is widened to have the same value, and the single is the one
nearest to the double.
-/

namespace PoseMachine.Single

open Float.Model (Format UnpackedFloat totalExponent)
open Float.Model.UnpackedFloat

theorem log2_mul_two_pow {m : Nat} (hm : 0 < m) (k : Nat) :
    (m * 2 ^ k).log2 = m.log2 + k := by
  have hpos : m * 2 ^ k ≠ 0 := Nat.pos_iff_ne_zero.mp (Nat.mul_pos hm (Nat.two_pow_pos k))
  rw [Nat.log2_eq_iff hpos]
  obtain ⟨hlow, hhigh⟩ := (Nat.log2_eq_iff (Nat.pos_iff_ne_zero.mp hm)).mp rfl
  constructor
  · rw [Nat.pow_add]
    exact Nat.mul_le_mul_right _ hlow
  · rw [Nat.add_right_comm, Nat.pow_add]
    exact Nat.mul_lt_mul_of_pos_right hhigh (Nat.two_pow_pos k)

/-- Shifting zeros out of a mantissa is exact. -/
theorem mul_two_pow_shiftRight (m k : Nat) :
    (⟨m * 2 ^ k, false, false⟩ : ExtendedMantissa) >>> k = ⟨m, false, false⟩ := by
  change Nat.repeat ExtendedMantissa.shiftRightOne k _ = _
  induction k generalizing m with
  | zero => simp [Nat.repeat]
  | succ k ih =>
      rw [Nat.repeat, Nat.pow_succ, Nat.mul_comm (2 ^ k), ← Nat.mul_assoc, ih]
      simp [ExtendedMantissa.shiftRightOne]

/-- Nothing is rounded where the mantissa has enough room at the exponent `t` of the format. -/
theorem round_eq_finite {spec : Format} {sign : Sign} {m m' : Nat} {e t : Int} (hm : 0 < m)
    (hm' : 0 < m') (ht : spec.targetExponent (totalExponent m e) = t)
    (h : m * 2 ^ (e - t).toNat = m' * 2 ^ (t - e).toNat) :
    UnpackedFloat.round spec sign m e = .finite sign m' t hm' := by
  have hlog := congrArg Nat.log2 h
  rw [log2_mul_two_pow hm, log2_mul_two_pow hm'] at hlog
  have htotal : totalExponent (m' * 2 ^ (t - e).toNat) (e - (e - t).toNat) =
      totalExponent m e := by
    simp only [totalExponent, log2_mul_two_pow hm']
    omega
  have htotal' : totalExponent m' t = totalExponent m e := by
    simp only [totalExponent]
    omega
  have hshift : (t - (e - (e - t).toNat)).toNat = (t - e).toNat := by omega
  have hexponent : e - ((e - t).toNat : Int) + ((t - e).toNat : Int) = t := by omega
  have hfirst : shiftToTargetExponent spec (m' * 2 ^ (t - e).toNat) (e - (e - t).toNat) .exact =
      (⟨m', false, false⟩, t) := by
    simp only [shiftToTargetExponent, shiftToExponent, htotal, ht,
      ExtendedMantissa.ofMantissaAndAccuracy, hshift, hexponent, mul_two_pow_shiftRight]
  have hsecond : shiftToTargetExponent spec m' t .exact = (⟨m', false, false⟩, t) := by
    have hzero : (t - t).toNat = 0 := by omega
    have hsame := mul_two_pow_shiftRight m' 0
    rw [Nat.pow_zero, Nat.mul_one] at hsame
    simp only [shiftToTargetExponent, shiftToExponent, htotal', ht, hzero,
      ExtendedMantissa.ofMantissaAndAccuracy, hsame, Int.natCast_zero, Int.add_zero]
  simp only [UnpackedFloat.round, decreaseExponent, ht, Nat.shiftLeft_eq, h, roundWithAccuracy,
    hfirst, ExtendedMantissa.roundedMantissa, ExtendedMantissa.accuracy,
    Accuracy.roundToNearestEven, hsecond, dif_neg (Nat.pos_iff_ne_zero.mp hm')]

theorem log2_eq_52 {m : Nat} (hlow : 2 ^ 52 ≤ m) (hhigh : m < 2 ^ 53) : m.log2 = 52 := by
  rw [Nat.log2_eq_iff (by omega)]
  exact ⟨hlow, hhigh⟩

/-- A number with a full mantissa is what its double unpacks to. -/
theorem unpack_pack_finite {sign : Sign} {m : Nat} {e : Int} (hm : 0 < m) (hlow : 2 ^ 52 ≤ m)
    (hhigh : m < 2 ^ 53) (hmin : -1074 ≤ e) (hmax : e ≤ 971) :
    unpack .binary64 (pack .binary64 (.finite sign m e hm)) = .finite sign m e hm := by
  have hbias : Format.binary64.exponentBias = 1023 := rfl
  have hbits : Format.binary64.mantissaBits = 53 := rfl
  obtain ⟨k, hk⟩ : ∃ k : Nat, e + 1075 = k := ⟨(e + 1075).toNat, by omega⟩
  have hbiased : (e + 1023 + 52).toNat = k := by omega
  have hpack : pack .binary64 (.finite sign m e hm) =
      packComponents .binary64 sign (.ofNat 11 k) (.ofNat 52 m) := by
    have hroom : ¬ 2048 ≤ k + 1 := by omega
    simp only [pack, hbias, hbits, log2_eq_52 hlow hhigh, Int.cast_ofNat_Int, hbiased,
      Nat.reducePow, if_neg hroom, if_true]
  have hexponent : (BitVec.ofNat 11 k).toNat = k := by
    rw [BitVec.toNat_ofNat]
    omega
  have hmantissa : (1#1 ++ BitVec.ofNat 52 m).toNat = m := by
    rw [toNat_append, BitVec.toNat_ofNat, BitVec.toNat_ofNat]
    omega
  have hne {c : BitVec 11} (hc : c.toNat ≠ k) : BitVec.ofNat 11 k ≠ c := by
    rintro rfl
    exact hc hexponent
  rw [hpack]
  simp only [unpack, unpackMantissa_packComponents, unpackExponent_packComponents,
    unpackSign_packComponents, Sign.ofBitVec_toBitVec, hbias]
  rw [if_neg (hne (by simp; omega)), if_neg (hne (by simp; omega))]
  simp only [hmantissa, hexponent]
  congr 1
  omega

/-- What a finite single is as a double. -/
def widened : UnpackedFloat → UnpackedFloat
  | .finite sign m e h =>
    .finite sign (m * 2 ^ (52 - m.log2)) (e + m.log2 - 52)
      (Nat.mul_pos h (Nat.two_pow_pos _))
  | x => x

theorem log2_le_of_stored {sign : Sign} {m : Nat} {e : Int} {h : 0 < m}
    (hx : Stored (.finite sign m e h)) : m.log2 ≤ 23 := by
  have hlt := (Nat.log2_lt (Nat.pos_iff_ne_zero.mp h)).mpr (show m < 2 ^ 24 from hx.1)
  omega

theorem unpack_pack_round_of_stored {sign : Sign} {m : Nat} {e : Int} {h : 0 < m}
    (hx : Stored (.finite sign m e h)) :
    unpack .binary64 (pack .binary64 (UnpackedFloat.round .binary64 sign m e)) =
      widened (.finite sign m e h) := by
  have hlog := log2_le_of_stored hx
  obtain ⟨hm, hmin, hmax, -⟩ := hx
  have hpos : 0 < m * 2 ^ (52 - m.log2) := Nat.mul_pos h (Nat.two_pow_pos _)
  have hround : UnpackedFloat.round .binary64 sign m e = widened (.finite sign m e h) := by
    refine round_eq_finite h hpos ?_ ?_
    · simp only [Format.targetExponent, totalExponent, Format.mantissaBits, Format.minExponent]
      omega
    · rw [show (e - (e + m.log2 - 52)).toNat = 52 - m.log2 by omega,
        show (e + m.log2 - 52 - e).toNat = 0 by omega, Nat.pow_zero, Nat.mul_one]
  have hwide := log2_mul_two_pow h (52 - m.log2)
  rw [hround]
  obtain ⟨hlow, hhigh⟩ := (Nat.log2_eq_iff (Nat.pos_iff_ne_zero.mp hpos)).mp
    (show (m * 2 ^ (52 - m.log2)).log2 = 52 by omega)
  exact unpack_pack_finite hpos hlow hhigh (by omega) (by omega)

/-- Rounding the double gives the single back. -/
theorem round_widened {sign : Sign} {m : Nat} {e : Int} {h : 0 < m}
    (hx : Stored (.finite sign m e h)) :
    UnpackedFloat.round .binary32 sign (m * 2 ^ (52 - m.log2)) (e + m.log2 - 52) =
      .finite sign m e h := by
  have hlog := log2_le_of_stored hx
  obtain ⟨hm, hmin, hmax, hlead⟩ := hx
  refine round_eq_finite (Nat.mul_pos h (Nat.two_pow_pos _)) h ?_ ?_
  · have hlead' : m.log2 = 23 ∨ e = -149 := by
      refine hlead.imp_left fun hge => ?_
      have := (Nat.le_log2 (Nat.pos_iff_ne_zero.mp h)).mpr (show 2 ^ 23 ≤ m from hge)
      omega
    simp only [Format.targetExponent, totalExponent, log2_mul_two_pow h, Format.mantissaBits,
      Format.minExponent]
    omega
  · rw [show (e + m.log2 - 52 - e).toNat = 0 by omega,
      show (e - (e + m.log2 - 52)).toNat = 52 - m.log2 by omega, Nat.pow_zero, Nat.mul_one]

theorem stored_parts (x : Float32) : Stored (parts x) := by
  obtain ⟨s, e, m, -, he, hm, -, hread⟩ := exists_reading x.toBits.toBitVec
  rw [parts, hread]
  exact stored_reading s he hm

theorem isFinite_parts (x : Float32) : (parts x).isFinite = x.isFinite := rfl

theorem ofParts_parts (x : Float32) : ofParts (parts x) = x := by
  have hpack : pack .binary32 (parts x) = x.toBits.toBitVec :=
    pack_unpack_of_valid x.toModel.valid
  rw [ofParts, hpack]
  exact Float32.ofBits_toBits x

theorem toBits_ofBits_pack (y : UnpackedFloat) :
    (Float.ofBits (UInt64.ofBitVec (pack .binary64 y))).toBits.toBitVec = pack .binary64 y :=
  pack_unpack_of_valid valid_pack

/-- The double of a finite single has its sign, mantissa and exponent. -/
theorem unpack_toDouble {x : Float32} (hx : x.isFinite = true) :
    unpack .binary64 (toDouble x).toBits.toBitVec = widened (parts x) := by
  have hstored := stored_parts x
  rw [← isFinite_parts] at hx
  rw [toDouble]
  generalize parts x = y at hx hstored
  cases y with
  | notANumber => simp [UnpackedFloat.isFinite] at hx
  | infinity sign => simp [UnpackedFloat.isFinite] at hx
  | zero sign =>
      rw [toBits_ofBits_pack]
      exact unpack_packedZero
  | finite sign m e h =>
      rw [toBits_ofBits_pack]
      exact unpack_pack_round_of_stored hstored

/-- A finite single is the one nearest to its double. -/
theorem ofDouble_toDouble {x : Float32} (hx : x.isFinite = true) : ofDouble (toDouble x) = x := by
  have hstored := stored_parts x
  have hparts := ofParts_parts x
  rw [ofDouble, unpack_toDouble hx]
  rw [← isFinite_parts] at hx
  generalize parts x = y at hx hstored hparts
  cases y with
  | notANumber => simp [UnpackedFloat.isFinite] at hx
  | infinity sign => simp [UnpackedFloat.isFinite] at hx
  | zero sign => exact hparts
  | finite sign m e h =>
      rw [← hparts]
      exact congrArg ofParts (round_widened hstored)

/-- The rational number that sign, mantissa and exponent stand for. -/
def exactValue : UnpackedFloat → Option ℚ
  | .finite sign m e _ => some (sign.apply (m : Int) * 2 ^ e)
  | .zero _ => some 0
  | _ => none

theorem exactValue_widened {x : UnpackedFloat} (hx : Stored x) :
    exactValue (widened x) = exactValue x := by
  cases x with
  | finite sign m e h =>
      have hlog := log2_le_of_stored hx
      have hsplit : e = (e + m.log2 - 52) + (52 - m.log2 : Nat) := by omega
      have hscale : (2 : ℚ) ^ e = 2 ^ (e + m.log2 - 52) * 2 ^ (52 - m.log2) := by
        conv_lhs => rw [hsplit, zpow_add₀ two_ne_zero, zpow_natCast]
      cases sign <;> simp only [widened, exactValue, Sign.apply, hscale] <;> push_cast <;>
        congr 1 <;> ring
  | _ => rfl

/-- The single and the double stand for one rational number. -/
def SameNumber (x : Float32) (y : Float) : Prop :=
  ∃ q, exactValue (parts x) = some q ∧ exactValue (unpack .binary64 y.toBits.toBitVec) = some q

theorem sameNumber_toDouble {x : Float32} (hx : x.isFinite = true) :
    SameNumber x (toDouble x) := by
  have hexact : ∃ q, exactValue (parts x) = some q := by
    rw [← isFinite_parts] at hx
    cases hparts : parts x <;> simp_all [exactValue, UnpackedFloat.isFinite]
  obtain ⟨q, hq⟩ := hexact
  refine ⟨q, hq, ?_⟩
  rw [unpack_toDouble hx, exactValue_widened (stored_parts x), hq]

theorem ofValue_value {p : Pattern} (hp : p.value.isFinite = true) :
    Pattern.ofValue p.value = p := by
  obtain ⟨s, e, m, hs, he, hm, hbits, hread⟩ := exists_reading p.bits.toBitVec
  have hnumber : reading s e m ≠ .notANumber := by
    rintro h
    have hfinite : (unpack .binary32 p.bits.toBitVec).isFinite = true := by
      rw [← unpack_toModel_ofBits]
      exact hp
    rw [hread, h] at hfinite
    simp [UnpackedFloat.isFinite] at hfinite
  have hpack : pack .binary32 (unpack .binary32 p.bits.toBitVec) = p.bits.toBitVec := by
    rw [hread]
    exact BitVec.eq_of_toNat_eq ((toNat_pack_reading hs he hm hnumber).trans hbits.symm)
  exact congrArg Pattern.mk (UInt32.toBitVec_inj.mp hpack)

end PoseMachine.Single
