import PoseMachine.Curve
import PoseMachine.Proofs.Limits

/-!
A packed curve passes exactly through its keys: at the time of a key it has the value of the first
key with that time, whatever the tangents.
-/

namespace PoseMachine

namespace Single

theorem denotes_ofInt {n : Int} (hn : n.natAbs ≤ 2 ^ 24) : Denotes (ofInt n) n := by
  unfold ofInt
  split_ifs with hneg
  · have h := denotes_ofMagnitude .negative hn
    rwa [signed, Nat.cast_natAbs, Int.cast_abs, abs_of_neg (by exact_mod_cast hneg), neg_neg] at h
  · have h := denotes_ofMagnitude .positive hn
    rwa [signed, Nat.cast_natAbs, Int.cast_abs, abs_of_nonneg (by exact_mod_cast not_lt.mp hneg)]
      at h

/-- The number of 255ths that an octet counts. -/
def unit (b : UInt8) : Float32 := ofInt b.toNat / 255

theorem denotes_unit (b : UInt8) : Denotes (unit b) (nearest (b.toNat / 255)) := by
  have hb := b.toNat_lt
  have hcount := denotes_ofInt (n := b.toNat) (by rw [Int.natAbs_natCast]; omega)
  have h255 : Denotes 255 255 := by decide +kernel
  have hle : (b.toNat : ℚ) ≤ 255 := by exact_mod_cast Nat.le_pred_of_lt hb
  have h := rounds_div hcount h255 (by norm_num)
  rw [Int.cast_natCast] at h
  apply h.denotes_of_abs_le
  rw [abs_of_nonneg (by positivity), div_le_iff₀ (by norm_num)]
  linarith

theorem nearest_unit_mem (b : UInt8) :
    0 ≤ nearest (b.toNat / 255) ∧ nearest (b.toNat / 255) ≤ 1 := by
  have hle : (b.toNat : ℚ) ≤ 255 := by exact_mod_cast Nat.le_pred_of_lt b.toNat_lt
  exact nearest_mem_unit (by positivity) (by linarith)

/-- Different octets stay apart: a 255th is much more than what rounding moves. -/
theorem nearest_unit_gap {a b : UInt8} (h : a < b) :
    nearest (a.toNat / 255) + 1 / 512 ≤ nearest (b.toNat / 255) := by
  have hclose (c : UInt8) : |nearest (c.toNat / 255) - c.toNat / 255| ≤ 1 / 2 ^ 24 := by
    have hle : (c.toNat : ℚ) ≤ 255 := by exact_mod_cast Nat.le_pred_of_lt c.toNat_lt
    apply (abs_nearest_sub_le_ulp _).trans
    apply div_le_div_of_nonneg_right _ (by norm_num)
    rw [abs_of_nonneg (by positivity)]
    exact max_le (by linarith) (by norm_num)
  have hnext : (a.toNat : ℚ) + 1 ≤ b.toNat := by exact_mod_cast UInt8.lt_iff_toNat_lt.mp h
  have ha := abs_le.mp (hclose a)
  have hb := abs_le.mp (hclose b)
  linarith

theorem unit_le_iff {a b : UInt8} : unit a ≤ unit b ↔ a ≤ b := by
  rw [(denotes_unit a).le_iff (denotes_unit b)]
  constructor
  · intro h
    by_contra hlt
    have := nearest_unit_gap (UInt8.not_le.mp hlt)
    linarith
  · intro h
    apply nearest_mono
    have : (a.toNat : ℚ) ≤ b.toNat := by exact_mod_cast UInt8.le_iff_toNat_le.mp h
    linarith

/-- The zero of the octets is the positive one. -/
theorem unit_eq_zero {b : UInt8} (h : nearest (b.toNat / 255) = 0) : unit b = 0 := by
  obtain rfl | hpos := eq_or_ne b 0
  · decide +kernel
  · have hgap := nearest_unit_gap (UInt8.pos_iff_ne_zero.mpr hpos)
    have hlow := (nearest_unit_mem 0).1
    linarith

theorem clamp_unit (b : UInt8) : clamp 0 1 (unit b) = unit b := by
  obtain ⟨hlow, hhigh⟩ := nearest_unit_mem b
  have hlow : ¬ unit b < 0 := mt ((denotes_unit b).lt_iff denotes_zero).mp hlow.not_gt
  have hhigh : ¬ unit b > 1 := mt (denotes_one.lt_iff (denotes_unit b)).mp hhigh.not_gt
  simp only [clamp, if_neg hlow, if_neg hhigh]

theorem exists_denotes_tenth (n : Int8) : ∃ q, Denotes (ofInt n.toInt / 10) q := by
  have hlow := n.le_toInt
  have hhigh := n.toInt_lt
  have h10 : Denotes 10 10 := by decide +kernel
  have h := rounds_div (denotes_ofInt (n := n.toInt) (by omega)) h10 (by norm_num)
  refine ⟨_, h.denotes_of_abs_le ?_⟩
  have hbound : |(n.toInt : ℚ)| ≤ 128 := by
    rw [abs_le]
    constructor
    · exact_mod_cast hlow
    · exact_mod_cast hhigh.le
  rw [abs_div, abs_of_pos (by norm_num : (0 : ℚ) < 10), div_le_iff₀ (by norm_num)]
  linarith

end Single

open Single

/-- The end of a segment is its value there, whatever the tangents, as long as they are finite. -/
theorem Keyframe.hermite_end {a b : Keyframe} {dt v w : ℚ} {m n : ℚ}
    (hdt : Denotes (b.time.value - a.time.value) dt) (hpos : 0 < dt) (ha : Denotes a.value v)
    (hb : Denotes b.value w) (hsign : w = 0 → b.value = 0) (hout : Denotes a.outTangent m)
    (hin : Denotes b.inTangent n) : a.hermite b b.time.value = b.value := by
  have hone : clamp 0 1 ((b.time.value - a.time.value) / (b.time.value - a.time.value)) = 1 := by
    rw [div_self_of_denotes hdt hpos.ne']
    decide +kernel
  -- at 1 the basis is exact and leaves only the value of the end
  have h00 : (2 : Float32) * (1 * 1 * 1) - 3 * (1 * 1) + 1 = 0 := by decide +kernel
  have h10 : (1 : Float32) * 1 * 1 - 2 * (1 * 1) + 1 = 0 := by decide +kernel
  have h01 : (-2 : Float32) * (1 * 1 * 1) + 3 * (1 * 1) = 1 := by decide +kernel
  have h11 : (1 : Float32) * 1 * 1 - 1 * 1 = 0 := by decide +kernel
  unfold Keyframe.hermite
  simp only [hdt.le_iff denotes_zero, if_neg hpos.not_ge, hone, h00, h10, h01, h11]
  have hbefore : Denotes (0 * a.value + 0 * (b.time.value - a.time.value) * a.outTangent) 0 :=
    (denotes_zero.zero_mul ha).zero_add_zero ((denotes_zero.zero_mul hdt).zero_mul hout)
  have hafter : Denotes (0 * (b.time.value - a.time.value) * b.inTangent) 0 :=
    (denotes_zero.zero_mul hdt).zero_mul hin
  rw [one_mul_of_denotes hb hsign, (add_of_denotes_zero hb hsign hbefore).2,
    (add_of_denotes_zero hb hsign hafter).1]

namespace PackedKey

theorem time_toKeyframe (k : PackedKey) : k.toKeyframe.time.value = unit k.time :=
  Float32.ofBits_toBits _

theorem value_toKeyframe (k : PackedKey) : k.toKeyframe.value = unit k.value := rfl

theorem hermite_end {a b : PackedKey} (h : a.time < b.time) :
    a.toKeyframe.hermite b.toKeyframe (unit b.time) = unit b.value := by
  have hgap := nearest_unit_gap h
  obtain ⟨hlow, -⟩ := nearest_unit_mem a.time
  obtain ⟨-, hhigh⟩ := nearest_unit_mem b.time
  have hdt : Denotes (b.toKeyframe.time.value - a.toKeyframe.time.value)
      (nearest (nearest (b.time.toNat / 255) - nearest (a.time.toNat / 255))) := by
    rw [time_toKeyframe, time_toKeyframe]
    apply (rounds_sub (denotes_unit _) (denotes_unit _)).denotes_of_abs_le
    rw [abs_of_nonneg (by linarith)]
    linarith
  have hpos : 0 < nearest (nearest (b.time.toNat / 255) - nearest (a.time.toNat / 255)) :=
    nearest_pos (k := -9) (by norm_num) (by norm_num; linarith)
  obtain ⟨m, hout⟩ := exists_denotes_tenth a.outTangent
  obtain ⟨n, hin⟩ := exists_denotes_tenth b.inTangent
  have h := Keyframe.hermite_end hdt hpos (denotes_unit a.value) (denotes_unit b.value)
    unit_eq_zero hout hin
  rwa [time_toKeyframe] at h

theorem first_of_le {t : UInt8} {a k : PackedKey} {ks : List PackedKey}
    (hsorted : (a :: ks).Pairwise (·.time ≤ ·.time)) (hle : t ≤ a.time)
    (hk : (a :: ks).find? (·.time = t) = some k) : a.time = t ∧ k = a := by
  have htime : k.time = t := by simpa using List.find?_some hk
  -- a later key at `t` is not before the first one, which is not before `t`
  have hfirst : a.time = t := by
    obtain rfl | hmem := List.mem_cons.mp (List.mem_of_find?_eq_some hk)
    · exact htime
    · exact UInt8.le_antisymm (htime ▸ List.rel_of_pairwise_cons hsorted hmem) hle
  rw [List.find?_cons, hfirst, decide_eq_true rfl] at hk
  exact ⟨hfirst, (Option.some.inj hk).symm⟩

theorem find?_rest {t : UInt8} {a k : PackedKey} {ks : List PackedKey} (hlt : a.time < t)
    (hk : (a :: ks).find? (·.time = t) = some k) : ks.find? (·.time = t) = some k := by
  rwa [List.find?_cons, decide_eq_false (UInt8.ne_of_lt hlt)] at hk

theorem evaluateFrom_key {t : UInt8} {k : PackedKey} (ks : List PackedKey) {a : PackedKey}
    (hsorted : ks.Pairwise (·.time ≤ ·.time)) (ha : a.time < t)
    (hk : ks.find? (·.time = t) = some k) :
    evaluateFrom a.toKeyframe (unit t) ks = unit k.value := by
  -- the segment under way starts at a key before `t`, so that it has a length where it ends at `t`
  induction ks generalizing a with
  | nil => cases hk
  | cons b ks ih =>
      simp only [evaluateFrom, time_toKeyframe, unit_le_iff]
      split_ifs with hle
      · obtain ⟨rfl, rfl⟩ := first_of_le hsorted hle hk
        exact hermite_end ha
      · have hlt : b.time < t := UInt8.not_le.mp hle
        exact ih hsorted.of_cons hlt (find?_rest hlt hk)

theorem evaluate_key {t : UInt8} {k : PackedKey} {keys : List PackedKey}
    (hsorted : keys.Pairwise (·.time ≤ ·.time)) (hk : keys.find? (·.time = t) = some k) :
    evaluate keys (unit t) = unit k.value := by
  match keys, hsorted with
  | [], _ => cases hk
  | [a], _ =>
      obtain rfl := List.mem_singleton.mp (List.mem_of_find?_eq_some hk)
      rfl
  | a :: b :: ks, hsorted =>
      simp only [evaluate, time_toKeyframe, unit_le_iff]
      split_ifs with hle
      · obtain ⟨-, rfl⟩ := first_of_le hsorted hle hk
        rfl
      · have hlt : a.time < t := UInt8.not_le.mp hle
        exact evaluateFrom_key (b :: ks) hsorted.of_cons hlt (find?_rest hlt hk)

/-- A packed curve passes exactly through its keys, of keys at one time through the first, and so
does the blend weight. -/
theorem passes_through_keys {keys : List PackedKey} (hsorted : keys.Pairwise (·.time ≤ ·.time))
    {i : Nat} (hi : i < keys.length) :
    ∃ k, keys.find? (·.time = keys[i].time) = some k ∧
      evaluate keys keys[i].toKeyframe.time.value = k.toKeyframe.value ∧
      weight keys keys[i].toKeyframe.time.value = k.toKeyframe.value := by
  have hsome : (keys.find? (·.time = keys[i].time)).isSome := by
    rw [List.find?_isSome]
    exact ⟨keys[i], List.getElem_mem hi, decide_eq_true rfl⟩
  obtain ⟨k, hk⟩ := Option.isSome_iff_exists.mp hsome
  have hvalue := evaluate_key hsorted hk
  have hfull : keys.isEmpty = false := List.isEmpty_eq_false_iff.mpr (List.ne_nil_of_length_pos
    (Nat.zero_lt_of_lt hi))
  refine ⟨k, hk, ?_⟩
  rw [time_toKeyframe, value_toKeyframe, weight, hvalue, hfull, clamp_unit]
  exact ⟨rfl, rfl⟩

/-- Two keys at one time, the first of them reached with a steep tangent. -/
theorem passes_through_keys_tied :
    [(⟨0, 0, 0, 127⟩ : PackedKey), ⟨51, 102, -127, 0⟩, ⟨51, 255, 0, 0⟩].Pairwise
        (·.time ≤ ·.time) ∧
      evaluate [⟨0, 0, 0, 127⟩, ⟨51, 102, -127, 0⟩, ⟨51, 255, 0, 0⟩] (unit 51) = unit 102 := by
  have hsorted : [(⟨0, 0, 0, 127⟩ : PackedKey), ⟨51, 102, -127, 0⟩, ⟨51, 255, 0, 0⟩].Pairwise
      (·.time ≤ ·.time) := by decide
  obtain ⟨k, hk, hvalue, -⟩ := passes_through_keys hsorted (i := 2) (by decide)
  obtain rfl : ⟨51, 102, -127, 0⟩ = k := by simpa using hk
  exact ⟨hsorted, hvalue⟩

end PackedKey

end PoseMachine
