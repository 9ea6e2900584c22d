/-!
What is left of a number when it is stored in fewer bits: a cast never makes it larger, and one that
fits comes back unchanged.
-/

namespace PoseMachine

theorem toNat_toUInt32_le (n : Nat) : n.toUInt32.toNat ≤ n := by
  rw [Nat.toUInt32_eq, UInt32.toNat_ofNat']
  exact Nat.mod_le _ _

theorem toNat_toUInt16_le (n : Nat) : n.toUInt16.toNat ≤ n := by
  rw [Nat.toUInt16_eq, UInt16.toNat_ofNat']
  exact Nat.mod_le _ _

theorem toNat_toUInt32 {n : Nat} (h : n < 4294967296) : n.toUInt32.toNat = n :=
  UInt32.toNat_ofNat_of_lt' h

theorem toNat_toUInt16 {n : Nat} (h : n < 65536) : n.toUInt16.toNat = n :=
  UInt16.toNat_ofNat_of_lt' h

theorem toNat_max (m n : UInt32) : (max m n).toNat = max m.toNat n.toNat := by
  rw [Nat.max_def, show max m n = if m ≤ n then n else m from rfl]
  simp only [UInt32.le_iff_toNat_le]
  split <;> rfl

theorem toInt_int32OfNat_le (n : Nat) : (Int32.ofNat n).toInt ≤ n := by
  have hsize : Int32.size = 4294967296 := rfl
  rw [Int32.toInt_ofNat', Int.bmod_def, hsize]
  split <;> omega

theorem toInt_lt_of_lt_ofNat {x : Int32} {n : Nat} (h : x < Int32.ofNat n) : x.toInt < n :=
  Int.lt_of_lt_of_le (Int32.lt_iff_toInt_lt.mp h) (toInt_int32OfNat_le n)

theorem lt_int32OfNat {x : Int32} {n : Nat} (hn : n < 0x80000000) (h : x.toInt < n) :
    x < Int32.ofNat n := by
  rw [Int32.lt_iff_toInt_lt, Int32.toInt_ofNat_of_lt hn]
  exact h

theorem not_int32OfNat_neg {n : Nat} (h : n < 0x80000000) : ¬ Int32.ofNat n < 0 := by
  rw [Int32.lt_iff_toInt_lt, Int32.toInt_ofNat_of_lt h]
  exact Int.not_lt.mpr (Int.natCast_nonneg n)

theorem int32OfNat_inj {m n : Nat} (hm : m < 0x80000000) (hn : n < 0x80000000) :
    Int32.ofNat m = Int32.ofNat n ↔ m = n := by
  rw [← Int32.toInt_inj, Int32.toInt_ofNat_of_lt hm, Int32.toInt_ofNat_of_lt hn, Int.natCast_inj]

theorem toInt_nonneg_of_not_neg {x : Int32} (h : ¬ x < 0) : 0 ≤ x.toInt := by
  rw [Int32.lt_iff_toInt_lt] at h
  exact Int.not_lt.mp h

end PoseMachine
