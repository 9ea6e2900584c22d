import Mathlib
import PoseMachine.Single.Pattern

/-!
The total order of bit patterns never puts a greater number before a smaller one.
-/

namespace PoseMachine.Single

open Float.Model (Format UnpackedFloat)
open Float.Model.UnpackedFloat

def signOf (s : Nat) : Sign := if s = 0 then .positive else .negative

/-- What a word with this sign, exponent and mantissa stands for. -/
def reading (s e m : Nat) : UnpackedFloat :=
  if e = 255 then if m = 0 then .infinity (signOf s) else .notANumber
  else if e = 0 then if h : 0 < m then .finite (signOf s) m (-149) h else .zero (signOf s)
  else .finite (signOf s) (8388608 + m) (e - 150) (by omega)

theorem toNat_append {n k : Nat} (x : BitVec n) (y : BitVec k) :
    (x ++ y).toNat = x.toNat * 2 ^ k + y.toNat := by
  rw [BitVec.toNat_append, ← Nat.shiftLeft_add_eq_or_of_lt y.isLt, Nat.shiftLeft_eq]

theorem toNat_packComponents (s : Sign) (e : BitVec 8) (m : BitVec 23) :
    (packComponents .binary32 s e m).toNat =
      s.toBitVec.toNat * 2147483648 + e.toNat * 8388608 + m.toNat := by
  unfold packComponents
  rw [toNat_append, toNat_append]
  simp only [Nat.reducePow]
  omega

theorem toNat_toBitVec_signOf {s : Nat} (hs : s < 2) : (signOf s).toBitVec.toNat = s := by
  unfold signOf
  split
  · next h => simp [Sign.toBitVec, h]
  · simp [Sign.toBitVec]
    omega

theorem exists_reading (v : BitVec 32) :
    ∃ s e m : Nat, s < 2 ∧ e < 256 ∧ m < 8388608 ∧
      v.toNat = s * 2147483648 + e * 8388608 + m ∧ unpack .binary32 v = reading s e m := by
  have hv := v.isLt
  refine ⟨v.toNat / 2147483648, v.toNat / 8388608 % 256, v.toNat % 8388608, by omega, by omega,
    by omega, by omega, ?_⟩
  have hm : (@unpackMantissa .binary32 v).toNat = v.toNat % 8388608 := by
    simp [unpackMantissa]
  have he : (@unpackExponent .binary32 v).toNat = v.toNat / 8388608 % 256 := by
    simp [unpackExponent, Nat.shiftRight_eq_div_pow]
  have hs : (@unpackSign .binary32 v).toNat = v.toNat / 2147483648 := by
    simp [unpackSign, Nat.shiftRight_eq_div_pow]
    omega
  have hmantissa : (1#1 ++ @unpackMantissa .binary32 v).toNat =
      8388608 + v.toNat % 8388608 := by
    rw [toNat_append, hm]
    rfl
  have hbias : Format.binary32.exponentBias = 127 := rfl
  simp only [unpack, ← BitVec.toNat_inj, hm, he, hs, hmantissa, hbias, Sign.ofBitVec, reading,
    signOf]
  split_ifs <;> simp_all

theorem log2_normal {m : Nat} (hm : m < 8388608) : (8388608 + m).log2 = 23 := by
  rw [Nat.log2_eq_iff (by omega)]
  omega

theorem log2_subnormal {m : Nat} (h : 0 < m) (hm : m < 8388608) : m.log2 < 23 := by
  rw [Nat.log2_lt (by omega)]
  omega

/-- Packing what a word stands for gives the word, unless that is no number. -/
theorem toNat_pack_reading {s e m : Nat} (hs : s < 2) (he : e < 256) (hm : m < 8388608)
    (h : reading s e m ≠ .notANumber) :
    (pack .binary32 (reading s e m)).toNat = s * 2147483648 + e * 8388608 + m := by
  have hsign := toNat_toBitVec_signOf hs
  have hbias : Format.binary32.exponentBias = 127 := rfl
  have hbits : Format.binary32.mantissaBits = 24 := rfl
  unfold reading at h ⊢
  by_cases htop : e = 255
  · by_cases hzero : m = 0
    · simp [htop, hzero, pack, packedInfinity, toNat_packComponents, hsign]
    · simp [htop, hzero] at h
  · rw [if_neg htop]
    by_cases hlow : e = 0
    · by_cases hpos : 0 < m
      · have hlog := log2_subnormal hpos hm
        have hshort : m.log2 + 1 ≠ 24 := by omega
        simp only [hlow, hpos, pack, hbias, hbits, if_true, dif_pos, if_neg hshort]
        simp [toNat_packComponents, hsign]
        omega
      · simp [hlow, hpos, pack, packedZero, toNat_packComponents, hsign]
        omega
    · have hexponent : ((e - 150 : Int) + 127 + 23).toNat = e := by omega
      have hroom : ¬ 256 ≤ e + 1 := by omega
      simp only [hlow, pack, hbias, hbits, log2_normal hm, if_false]
      simp only [Nat.reducePow, Int.cast_ofNat_Int, hexponent, if_neg hroom, if_true,
        toNat_packComponents, hsign, BitVec.toNat_ofNat]
      omega

theorem unpack_toModel_ofBits (w : UInt32) :
    (Float32.ofBits w).toModel.unpack = unpack .binary32 w.toBitVec := by
  obtain ⟨s, e, m, hs, he, hm, hw, hread⟩ := exists_reading w.toBitVec
  change unpack .binary32 (pack .binary32 (unpack .binary32 w.toBitVec)) = _
  rw [hread]
  by_cases h : reading s e m = .notANumber
  · rw [h]
    rfl
  · have hback : pack .binary32 (reading s e m) = w.toBitVec :=
      BitVec.eq_of_toNat_eq ((toNat_pack_reading hs he hm h).trans hw.symm)
    rw [hback, hread]

/-- The distance of a number from zero, counted in words. -/
def steps (m : Nat) (e : Int) : Int := (e + 149) * 8388608 + m

/-- A finite number has mantissa and exponent of a word: the leading bit is missing at the least
exponent only. -/
def Stored : UnpackedFloat → Prop
  | .finite _ m e _ => m < 16777216 ∧ -149 ≤ e ∧ e ≤ 104 ∧ (8388608 ≤ m ∨ e = -149)
  | _ => True

/-- The place of a number on the line of words, both zeros being one. -/
def place : UnpackedFloat → Int
  | .infinity .positive => 2139095040
  | .infinity .negative => -2139095040
  | .finite .positive m e _ => steps m e
  | .finite .negative m e _ => -steps m e
  | _ => 0

theorem stored_reading (s : Nat) {e m : Nat} (he : e < 256) (hm : m < 8388608) :
    Stored (reading s e m) := by
  unfold reading
  split_ifs with htop _ _ hpos
  · trivial
  · trivial
  · exact ⟨by omega, by omega, by omega, Or.inr rfl⟩
  · trivial
  · exact ⟨by omega, by omega, by omega, Or.inl (by omega)⟩

theorem steps_lt_steps {m m' : Nat} {e e' : Int} (hm : m < 16777216) (hge : -149 ≤ e)
    (hlead : 8388608 ≤ m' ∨ e' = -149) (h : e < e' ∨ e = e' ∧ m < m') :
    steps m e < steps m' e' := by
  simp only [steps]
  omega

theorem place_lt_of_compare {x y : UnpackedFloat} (hx : Stored x) (hy : Stored y)
    (h : x.compare y = some .lt) : place x < place y := by
  rcases x with ⟨_ | _⟩ | _ | _ | ⟨_ | _, m, e, hm⟩ <;>
    rcases y with ⟨_ | _⟩ | _ | _ | ⟨_ | _, m', e', hm'⟩ <;>
    simp only [UnpackedFloat.compare, place, Stored, Option.some.injEq, reduceCtorEq] at hx hy h ⊢
  case finite.negative.finite.negative =>
    rw [Ordering.swap_eq_lt, Ordering.then_eq_gt, Int.compare_eq_gt, Int.compare_eq_eq,
      Nat.compare_eq_gt] at h
    have := steps_lt_steps hy.1 hy.2.1 hx.2.2.2 (h.imp_right fun h => ⟨h.1.symm, h.2⟩)
    omega
  case finite.positive.finite.positive =>
    rw [Ordering.then_eq_lt, Int.compare_eq_lt, Int.compare_eq_eq, Nat.compare_eq_lt] at h
    exact steps_lt_steps hx.1 hx.2.1 hy.2.2.2 h
  all_goals
    cases h
    first
      | omega
      | simp only [steps]
        omega

theorem place_reading {s e m : Nat} (h : reading s e m ≠ .notANumber) :
    place (reading s e m) = if s = 0 then (e * 8388608 + m : Int) else -(e * 8388608 + m) := by
  unfold reading signOf at *
  split_ifs at h ⊢ <;> simp_all [place, steps] <;> omega

theorem ne_notANumber_of_compare {x y : UnpackedFloat} {o : Ordering} (h : x.compare y = some o) :
    x ≠ .notANumber ∧ y ≠ .notANumber := by
  constructor
  · rintro rfl
    simp [UnpackedFloat.compare] at h
  · rintro rfl
    cases x <;> simp [UnpackedFloat.compare] at h

theorem compare_of_lt {x y : Float32} (h : x < y) :
    x.toModel.unpack.compare y.toModel.unpack = some .lt := by
  have hlt : x.toModel < y.toModel := of_decide_eq_true h
  change (x.toModel.unpack.compare y.toModel.unpack == some .lt) = true at hlt
  revert hlt
  generalize UnpackedFloat.compare _ _ = o
  rcases o with _ | _ | _ | _ <;> decide

/-- A pattern that comes before another one does not stand for a greater number. -/
theorem Pattern.not_gt_of_le {p q : Pattern} (h : p.le q = true) : ¬ p.value > q.value := by
  intro hgt
  obtain ⟨s, e, m, hs, he, hm, hp, hread⟩ := exists_reading p.bits.toBitVec
  obtain ⟨s', e', m', hs', he', hm', hq, hread'⟩ := exists_reading q.bits.toBitVec
  have hlt : (reading s' e' m').compare (reading s e m) = some .lt := by
    rw [← hread, ← hread', ← unpack_toModel_ofBits, ← unpack_toModel_ofBits]
    exact compare_of_lt hgt
  have hplace := place_lt_of_compare (stored_reading s' he' hm') (stored_reading s he hm) hlt
  obtain ⟨hnumber', hnumber⟩ := ne_notANumber_of_compare hlt
  rw [place_reading hnumber, place_reading hnumber'] at hplace
  simp only [Pattern.le, Pattern.rank, decide_eq_true_eq, ← UInt32.toNat_toBitVec, hp, hq] at h
  split at h <;> split at h <;> split at hplace <;> split at hplace <;> omega

end PoseMachine.Single
