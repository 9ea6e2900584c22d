import PoseMachine.Choice
import PoseMachine.Proofs.Numbers

/-!
The clock of a looping state: its loops and the position inside the loop. A step moves it by what it
is asked to, up to rounding and one lost loop, and never against the direction of play while there
is a loop to count down.
-/

namespace PoseMachine

open Parameter (Buffers)

/-- A transition that is open at some time is open whenever its exit time is not still to come. -/
theorem Baked.passes_of_not_lt {b : Baked} {values : Buffers} {e : Edge} {s t : Float32}
    (h : b.passes values s e = .ok true) (hlt : t < e.endTime → s < e.endTime) :
    b.passes values t e = .ok true := by
  unfold passes at h ⊢
  by_cases hclosed : (e.hasEndTime && decide (s < e.endTime)) = true
  · rw [if_pos hclosed] at h
    cases h
  · rw [if_neg hclosed] at h
    rw [if_neg ?_]
    · exact h
    · simp only [Bool.and_eq_true, decide_eq_true_eq] at hclosed ⊢
      exact fun hstill => hclosed ⟨hstill.1, hlt hstill.2⟩

namespace Playback

open Single

/-- The position inside the loop at the unwrapped position `t`. -/
def wrapped (t : ℚ) : ℚ :=
  if 1 ≤ nearest (Int.fract t) then 0 else nearest (Int.fract t)

theorem wrapped_nonneg (t : ℚ) : 0 ≤ wrapped t := by
  unfold wrapped
  split_ifs
  · exact le_rfl
  · exact nearest_nonneg (Int.fract_nonneg t)

theorem wrapped_lt_one (t : ℚ) : wrapped t < 1 := by
  unfold wrapped
  split_ifs with h
  · exact zero_lt_one
  · exact not_le.mp h

theorem wrapped_eq_fract {t : ℚ} (ht : Representable t) (h : 0 ≤ t ∨ t ≤ -1) :
    wrapped t = Int.fract t := by
  rw [wrapped, nearest_eq_self (ht.fract h), if_neg (Int.fract_lt_one t).not_ge]

theorem wrapped_of_floor_eq_zero {t : ℚ} (ht : Representable t) (hfloor : ⌊t⌋ = 0) :
    wrapped t = t := by
  rw [wrapped_eq_fract ht (Or.inl (Int.floor_eq_zero_iff.mp hfloor).1), ← Int.self_sub_floor,
    hfloor, Int.cast_zero, sub_zero]

theorem fract_of_neg {t : ℚ} (hlow : -1 ≤ t) (hneg : t < 0) : Int.fract t = t + 1 := by
  have hfloor : ⌊t⌋ = -1 := by
    rw [Int.floor_eq_iff]
    norm_num
    exact ⟨hlow, hneg⟩
  rw [← Int.self_sub_floor, hfloor]
  norm_num

/-- The remainder is rounded up to a whole loop just below the start of a loop, and only there. -/
theorem one_le_nearest_fract_iff {t : ℚ} (ht : Representable t) :
    1 ≤ nearest (Int.fract t) ↔ -(1 / 2 ^ 25) ≤ t ∧ t < 0 := by
  constructor
  · intro hone
    have hlost : ¬ (0 ≤ t ∨ t ≤ -1) := fun h => by
      rw [nearest_eq_self (ht.fract h)] at hone
      exact (Int.fract_lt_one t).not_ge hone
    push Not at hlost
    refine ⟨?_, hlost.1⟩
    by_contra! hlow
    rw [fract_of_neg hlost.2.le hlost.1] at hone
    have hlast : Representable (1 - 1 / 2 ^ 24) :=
      ⟨2 ^ 24 - 1, -24, by norm_num, by norm_num, by norm_num⟩
    -- the last number below 1 is closer than 1
    have hclose := (le_abs_self _).trans (abs_nearest_sub_le (t + 1) hlast)
    obtain hle | hgt := le_or_gt (1 - 1 / 2 ^ 24) (t + 1)
    · rw [abs_of_nonpos (by linarith)] at hclose
      linarith
    · rw [abs_of_pos (by linarith)] at hclose
      linarith
  · rintro ⟨hlow, hneg⟩
    have hhalf : nearest (1 - 1 / 2 ^ 25) = 1 := by decide +kernel
    rw [fract_of_neg (by linarith) hneg]
    calc (1 : ℚ) = nearest (1 - 1 / 2 ^ 25) := hhalf.symm
      _ ≤ nearest (t + 1) := nearest_mono (by linarith)

theorem nearest_fract_le_one (t : ℚ) : nearest (Int.fract t) ≤ 1 :=
  calc nearest (Int.fract t) ≤ nearest 1 := nearest_mono (Int.fract_lt_one t).le
    _ = 1 := nearest_eq_self (representable_intCast (n := 1) (by norm_num))

/-- The loop that is lost on the way to `t`. -/
def lost (t : ℚ) : ℚ := if -(1 / 2 ^ 25) ≤ t ∧ t < 0 then 1 else 0

theorem abs_wrapped_sub_le {t : ℚ} (ht : Representable t) :
    |wrapped t + lost t - Int.fract t| ≤ 1 / 2 ^ 24 := by
  have hclose := abs_nearest_sub_le_ulp (Int.fract t)
  have hulp : max |Int.fract t| (2 ^ (-126 : Int)) ≤ 1 := by
    refine max_le ?_ (by norm_num)
    rw [abs_of_nonneg (Int.fract_nonneg t)]
    exact (Int.fract_lt_one t).le
  have herror : |nearest (Int.fract t) - Int.fract t| ≤ 1 / 2 ^ 24 :=
    hclose.trans (by gcongr)
  simp only [wrapped, lost, one_le_nearest_fract_iff ht]
  split_ifs with hup
  · -- rounded up to 1, the remainder is a loop less what rounding added
    have hone := (one_le_nearest_fract_iff ht).mpr hup
    rw [le_antisymm (nearest_fract_le_one t) hone] at herror
    rwa [zero_add]
  · rwa [add_zero]

variable {p : Playback} {delta : Float32} {f d : ℚ}

theorem denotes_moved (hf : Denotes p.fraction f) (hd : Denotes delta d) (h0 : 0 ≤ f)
    (h1 : f < 1) : Denotes (p.fraction + delta) (nearest (f + d)) := by
  apply hf.add hd
  have hclose := abs_nearest_sub_le (f + d) hd.fits.1
  rw [sub_add_cancel_right, abs_neg, abs_of_nonneg h0] at hclose
  have hlarge := hd.fits.2
  unfold greatest at hlarge
  rw [abs_le] at hclose hlarge
  rw [abs_lt]
  constructor <;> linarith

theorem denotes_fraction_step (hf : Denotes p.fraction f) (hd : Denotes delta d) (h0 : 0 ≤ f)
    (h1 : f < 1) : Denotes (p.step delta true).fraction (wrapped (nearest (f + d))) := by
  have ht := denotes_moved hf hd h0 h1
  generalize nearest (f + d) = t at *
  have hrest := ht.sub ht.floor (by
    rw [Int.self_sub_floor, abs_of_nonneg (nearest_nonneg (Int.fract_nonneg t))]
    exact (nearest_fract_le_one t).trans_lt (by norm_num))
  rw [Int.self_sub_floor] at hrest
  simp only [step, if_true, ge_iff_le, denotes_one.le_iff hrest, wrapped]
  split_ifs
  · exact denotes_zero
  · exact hrest

/-- Loops are counted by whole parts, between none and the limit. -/
theorem toNat_loops_step (hf : Denotes p.fraction f) (hd : Denotes delta d) (h0 : 0 ≤ f)
    (h1 : f < 1) : ((p.step delta true).loops.toNat : Int) =
      max 0 (min (p.loops.toNat + ⌊nearest (f + d)⌋) 4294967295) := by
  have ht := (denotes_moved hf hd h0 h1).floor
  generalize ⌊nearest (f + d)⌋ = w at *
  have hloops := p.loops.toNat_lt
  simp only [step, if_true, ge_iff_le, denotes_zero.le_iff ht]
  split_ifs with hw
  · have hw' : 0 ≤ w := by exact_mod_cast hw
    rw [toNat_addLoops, ht.toNat_toUInt32 hw, Int.floor_intCast, loopLimit]
    omega
  · have hw' : w < 0 := by exact_mod_cast not_le.mp hw
    have hneg := ht.neg
    rw [← Int.cast_neg] at hneg
    rw [toNat_dropLoops, hneg.toNat_toUInt32 (by exact_mod_cast neg_nonneg.mpr hw'.le),
      Int.floor_intCast]
    omega

/-- What a step adds to the clock is what it was asked to, but for rounding and for a loop that is
lost where the remainder is rounded up to 1. -/
theorem abs_step_sub_le (h0 : 0 ≤ f) (h1 : f < 1) :
    |⌊nearest (f + d)⌋ + wrapped (nearest (f + d)) + lost (nearest (f + d)) - (f + d)| ≤
      1 / 2 ^ 22 * max 1 |d| := by
  have hmoved := abs_nearest_sub_le_ulp (f + d)
  have ht := representable_nearest (f + d)
  generalize nearest (f + d) = t at *
  have hwrapped := abs_wrapped_sub_le ht
  have hsize : max |f + d| (2 ^ (-126 : Int)) ≤ 2 * max 1 |d| := by
    have hadd := abs_add_le f d
    rw [abs_of_nonneg h0] at hadd
    have hone := le_max_left 1 |d|
    have hself := le_max_right 1 |d|
    apply max_le (by linarith)
    norm_num
    linarith
  have hsplit : ⌊t⌋ + wrapped t + lost t - (f + d) =
      (wrapped t + lost t - Int.fract t) + (t - (f + d)) := by
    rw [← Int.self_sub_floor]
    ring
  have hone := le_max_left 1 |d|
  calc |⌊t⌋ + wrapped t + lost t - (f + d)|
      ≤ |wrapped t + lost t - Int.fract t| + |t - (f + d)| := by
        rw [hsplit]
        exact abs_add_le _ _
    _ ≤ 1 / 2 ^ 24 + 2 * max 1 |d| / 2 ^ 24 :=
        add_le_add hwrapped (hmoved.trans (div_le_div_of_nonneg_right hsize (by norm_num)))
    _ ≤ 1 / 2 ^ 22 * max 1 |d| := by linarith

theorem exists_denotes_fraction (h0 : 0 ≤ p.fraction) (h1 : p.fraction < 1) :
    ∃ f, Denotes p.fraction f ∧ 0 ≤ f ∧ f < 1 := by
  obtain ⟨f, hf⟩ := exists_denotes_of_le_of_lt denotes_zero denotes_one h0 h1
  exact ⟨f, hf, (denotes_zero.le_iff hf).mp h0, (hf.lt_iff denotes_one).mp h1⟩

/-- Loops and position as one number, without rounding. -/
def exactTime (p : Playback) : ℚ := p.loops.toNat + number p.fraction

/-- A step moves the clock by `delta` but for rounding, as long as the count has room, and but for
the loop that is lost just below the start of a loop. -/
theorem step_keeps_time (hdelta : delta.isFinite = true) (h0 : 0 ≤ p.fraction)
    (h1 : p.fraction < 1) (hroom : 0 ≤ (p.loops.toNat : Int) + ⌊number (p.fraction + delta)⌋ ∧
      (p.loops.toNat : Int) + ⌊number (p.fraction + delta)⌋ ≤ 4294967295) :
    0 ≤ (p.step delta true).fraction ∧ (p.step delta true).fraction < 1 ∧
      |(p.step delta true).exactTime + lost (number (p.fraction + delta)) -
        (p.exactTime + number delta)| ≤ 1 / 2 ^ 22 * max 1 |number delta| := by
  obtain ⟨f, hf, hf0, hf1⟩ := exists_denotes_fraction h0 h1
  have hd := denotes_number hdelta
  have ht := denotes_moved hf hd hf0 hf1
  have hfraction := denotes_fraction_step hf hd hf0 hf1
  have hloops := toNat_loops_step hf hd hf0 hf1
  have hclose := abs_step_sub_le (d := number delta) hf0 hf1
  rw [ht.number_eq] at hroom ⊢
  generalize nearest (f + number delta) = t at *
  have hcount : ((p.step delta true).loops.toNat : ℚ) = p.loops.toNat + ⌊t⌋ := by
    have : ((p.step delta true).loops.toNat : Int) = p.loops.toNat + ⌊t⌋ := by omega
    exact_mod_cast this
  refine ⟨(denotes_zero.le_iff hfraction).mpr (wrapped_nonneg t),
    (hfraction.lt_iff denotes_one).mpr (wrapped_lt_one t), ?_⟩
  rw [exactTime, exactTime, hfraction.number_eq, hf.number_eq, hcount]
  convert hclose using 2
  ring

theorem step_keeps_time_back :
    let p : Playback := ⟨0, 2, 0.5⟩
    |(p.step (-0.75) true).exactTime + lost (number (p.fraction + -0.75)) -
      (p.exactTime + number (-0.75))| ≤ 1 / 2 ^ 22 * max 1 |number (-0.75)| := by
  intro p
  have hdelta : (-0.75 : Float32).isFinite = true := by decide +kernel
  have h0 : 0 ≤ p.fraction := by decide +kernel
  have h1 : p.fraction < 1 := by decide +kernel
  exact (step_keeps_time hdelta h0 h1 (by decide +kernel)).2.2

/-- Two loops and a step back of `2⁻²⁶` leave one loop. -/
theorem step_loses_loop :
    let p : Playback := ⟨0, 2, 0⟩
    let delta : Float32 := .ofBits 0xb2800000
    delta.isFinite = true ∧ number delta = -(1 / 2 ^ 26) ∧ 0 ≤ p.fraction ∧ p.fraction < 1 ∧
      (0 ≤ (p.loops.toNat : Int) + ⌊number (p.fraction + delta)⌋ ∧
        (p.loops.toNat : Int) + ⌊number (p.fraction + delta)⌋ ≤ 4294967295) ∧
      (p.step delta true).exactTime = 1 ∧
      1 / 2 ^ 22 * max 1 |number delta| <
        |(p.step delta true).exactTime - (p.exactTime + number delta)| := by
  decide +kernel

/-- The clock after `n` loops at position `f`. -/
def clock (n : Nat) (f : ℚ) : ℚ := nearest (nearest n + f)

theorem nearest_le_clock (n : Nat) {f : ℚ} (h0 : 0 ≤ f) : nearest n ≤ clock n f :=
  calc nearest n = nearest (nearest n) := (nearest_eq_self (representable_nearest n)).symm
    _ ≤ clock n f := nearest_mono (by linarith)

theorem clock_mono (n : Nat) {f g : ℚ} (h : f ≤ g) : clock n f ≤ clock n g :=
  nearest_mono (by linarith)

theorem nearest_natCast {n : Nat} (h : n ≤ 2 ^ 24) : nearest n = n :=
  nearest_eq_self (representable_intCast (n := n) (by
    rw [abs_of_nonneg (by positivity)]
    exact_mod_cast h))

/-- Where singles are so far apart that a fraction is lost, the clock shows whole loops only. -/
theorem clock_of_large {n : Nat} (hn : 2 ^ 24 ≤ n) {f : ℚ} (h0 : 0 ≤ f) (h1 : f < 1) :
    clock n f = nearest n := by
  refine nearest_add_of_large (representable_nearest n) ?_ h0 h1
  calc (2 : ℚ) ^ 24 = nearest (2 ^ 24 : Nat) := by rw [nearest_natCast le_rfl]; norm_num
    _ ≤ nearest n := nearest_mono (by exact_mod_cast hn)

/-- No position in a loop is shown beyond the start of the next one. -/
theorem clock_le_nearest_succ (n : Nat) {f : ℚ} (h0 : 0 ≤ f) (h1 : f < 1) :
    clock n f ≤ nearest (n + 1 : Nat) := by
  obtain hsmall | hlarge := lt_or_ge n (2 ^ 24)
  · rw [clock, nearest_natCast hsmall.le]
    apply nearest_mono
    push_cast
    linarith
  · rw [clock_of_large hlarge h0 h1]
    exact nearest_mono (by exact_mod_cast Nat.le_succ n)

theorem clock_le_of_lt {m n : Nat} (h : m < n) {f g : ℚ} (hf0 : 0 ≤ f) (hf1 : f < 1)
    (hg0 : 0 ≤ g) : clock m f ≤ clock n g :=
  calc clock m f ≤ nearest (m + 1 : Nat) := clock_le_nearest_succ m hf0 hf1
    _ ≤ nearest n := nearest_mono (by exact_mod_cast h)
    _ ≤ clock n g := nearest_le_clock n hg0

theorem denotes_time (hf : Denotes p.fraction f) (h0 : 0 ≤ f) (h1 : f < 1) :
    Denotes p.time (clock p.loops.toNat f) := by
  apply (denotes_ofCount p.loops).add hf
  have hnonneg : 0 ≤ clock p.loops.toNat f :=
    (nearest_nonneg (by positivity)).trans (nearest_le_clock p.loops.toNat h0)
  calc |clock p.loops.toNat f| = clock p.loops.toNat f := abs_of_nonneg hnonneg
    _ ≤ nearest (p.loops.toNat + 1 : Nat) := clock_le_nearest_succ p.loops.toNat h0 h1
    _ ≤ |nearest (p.loops.toNat + 1 : Nat)| := le_abs_self _
    _ < 2 ^ 128 := abs_nearest_natCast_lt p.loops.toNat_lt

/-- Playing forwards never moves the clock back. -/
theorem clock_le_clock_step (hf : Denotes p.fraction f) (hd : Denotes delta d) (h0 : 0 ≤ f)
    (h1 : f < 1) (hforward : 0 ≤ d) :
    clock p.loops.toNat f ≤
      clock (p.step delta true).loops.toNat (wrapped (nearest (f + d))) := by
  have hmoved : f ≤ nearest (f + d) :=
    calc f = nearest f := (nearest_eq_self hf.fits.1).symm
      _ ≤ nearest (f + d) := nearest_mono (by linarith)
  have hloops := toNat_loops_step hf hd h0 h1
  have hlimit := p.loops.toNat_lt
  have ht := representable_nearest (f + d)
  generalize nearest (f + d) = t at *
  have hwhole : 0 ≤ ⌊t⌋ := Int.floor_nonneg.mpr (h0.trans hmoved)
  obtain hlt | hge := lt_or_ge p.loops.toNat (p.step delta true).loops.toNat
  · exact clock_le_of_lt hlt h0 h1 (wrapped_nonneg t)
  have hsame : (p.step delta true).loops.toNat = p.loops.toNat := by omega
  rw [hsame]
  obtain hlarge | hsmall := le_or_gt (2 ^ 24) p.loops.toNat
  · rw [clock_of_large hlarge h0 h1, clock_of_large hlarge (wrapped_nonneg t) (wrapped_lt_one t)]
  · have hzero : ⌊t⌋ = 0 := by omega
    rw [wrapped_of_floor_eq_zero ht hzero]
    exact clock_mono _ hmoved

/-- Playing backwards never moves the clock on, unless it is before the start of the first loop. -/
theorem clock_step_le_clock (hf : Denotes p.fraction f) (hd : Denotes delta d) (h0 : 0 ≤ f)
    (h1 : f < 1) (hback : d ≤ 0) (hroom : p.loops.toNat ≠ 0 ∨ 0 ≤ nearest (f + d)) :
    clock (p.step delta true).loops.toNat (wrapped (nearest (f + d))) ≤
      clock p.loops.toNat f := by
  have hmoved : nearest (f + d) ≤ f :=
    calc nearest (f + d) ≤ nearest f := nearest_mono (by linarith)
      _ = f := nearest_eq_self hf.fits.1
  have hloops := toNat_loops_step hf hd h0 h1
  have hlimit := p.loops.toNat_lt
  have ht := representable_nearest (f + d)
  generalize nearest (f + d) = t at *
  obtain hnonneg | hneg := le_or_gt 0 t
  · have hzero : ⌊t⌋ = 0 := Int.floor_eq_zero_iff.mpr ⟨hnonneg, hmoved.trans_lt h1⟩
    have hsame : (p.step delta true).loops.toNat = p.loops.toNat := by omega
    rw [hsame, wrapped_of_floor_eq_zero ht hzero]
    exact clock_mono _ hmoved
  · have hwhole : ⌊t⌋ < 0 := Int.floor_lt_zero.mpr hneg
    have hne := hroom.resolve_right hneg.not_ge
    exact clock_le_of_lt (by omega) (wrapped_nonneg t) (wrapped_lt_one t) h0

/-- The clock of a looping state follows the direction of play, and so do the exit times it opens,
but for a step back from the first loop: no loop is left to count down, and the clock shows the
position in the loop that the step ends in. -/
theorem time_follows_step (hdelta : delta.isFinite = true) (h0 : 0 ≤ p.fraction)
    (h1 : p.fraction < 1) :
    (0 ≤ delta → p.time ≤ (p.step delta true).time ∧
      ∀ b values e, Baked.passes b values p.time e = .ok true →
        b.passes values (p.step delta true).time e = .ok true) ∧
    (delta ≤ 0 → p.loops ≠ 0 ∨ 0 ≤ p.fraction + delta →
      (p.step delta true).time ≤ p.time ∧
      ∀ b values e, Baked.passes b values (p.step delta true).time e = .ok true →
        b.passes values p.time e = .ok true) ∧
    (p.loops = 0 → p.fraction + delta < 0 →
      (p.step delta true).loops = 0 ∧
        number (p.step delta true).time = wrapped (number (p.fraction + delta))) := by
  obtain ⟨f, hf, hf0, hf1⟩ := exists_denotes_fraction h0 h1
  have hd := denotes_number hdelta
  have ht := denotes_moved hf hd hf0 hf1
  have hfraction := denotes_fraction_step hf hd hf0 hf1
  have htime := denotes_time hf hf0 hf1
  have htime' := denotes_time hfraction (wrapped_nonneg _) (wrapped_lt_one _)
  refine ⟨fun hforward => ?_, fun hback hroom => ?_, fun hzero hneg => ?_⟩
  · have hle := clock_le_clock_step hf hd hf0 hf1 ((denotes_zero.le_iff hd).mp hforward)
    exact ⟨(htime.le_iff htime').mpr hle, fun b values e hpasses =>
      Baked.passes_of_not_lt hpasses (htime.lt_of_le htime' hle)⟩
  · have hle := clock_step_le_clock hf hd hf0 hf1 ((hd.le_iff denotes_zero).mp hback)
      (hroom.imp (fun hne hzero => hne (UInt32.toNat_inj.mp hzero)) (denotes_zero.le_iff ht).mp)
    exact ⟨(htime'.le_iff htime).mpr hle, fun b values e hpasses =>
      Baked.passes_of_not_lt hpasses (htime'.lt_of_le htime hle)⟩
  · have hloops := toNat_loops_step hf hd hf0 hf1
    have hwhole : ⌊nearest (f + number delta)⌋ < 0 :=
      Int.floor_lt_zero.mpr ((ht.lt_iff denotes_zero).mp hneg)
    have hnone : (p.step delta true).loops = 0 := by
      rw [hzero] at hloops
      apply UInt32.toNat_inj.mp
      simp only [UInt32.toNat_zero] at hloops ⊢
      omega
    refine ⟨hnone, ?_⟩
    rw [htime'.number_eq, ht.number_eq, hnone, clock, UInt32.toNat_zero, Nat.cast_zero,
      nearest_zero, zero_add, nearest_eq_self hfraction.fits.1]

theorem time_follows_step_half :
    let p : Playback := ⟨0, 1, 0.5⟩
    p.time ≤ (p.step 0.75 true).time ∧ (p.step (-0.75) true).time ≤ p.time := by
  intro p
  have h0 : 0 ≤ p.fraction := by decide +kernel
  have h1 : p.fraction < 1 := by decide +kernel
  have hup : (0.75 : Float32).isFinite = true := by decide +kernel
  have hdown : (-0.75 : Float32).isFinite = true := by decide +kernel
  obtain ⟨hforward, -⟩ := time_follows_step hup h0 h1
  obtain ⟨-, hback, -⟩ := time_follows_step hdown h0 h1
  exact ⟨(hforward (by decide +kernel)).1,
    (hback (by decide +kernel) (Or.inl (by decide +kernel))).1⟩

/-- A transition open from the middle of the first loop. -/
def halfway : Baked.Edge where
  target := 0
  duration := 0
  hasEndTime := true
  endTime := 0.5
  offset := 0
  boolTests := {}
  intTests := {}
  curve := {}
  allowSelf := false

/-- A quarter of a loop back from the start puts the clock three quarters of a loop on, and opens
a transition that was closed. -/
theorem step_back_opens_exit :
    let p : Playback := ⟨0, 0, 0⟩
    let delta : Float32 := -0.25
    delta.isFinite = true ∧ delta ≤ 0 ∧ 0 ≤ p.fraction ∧ p.fraction < 1 ∧
      ¬ (p.step delta true).time ≤ p.time ∧
      ({} : Baked).passes (.ofLayout {}) p.time halfway = .ok false ∧
      ({} : Baked).passes (.ofLayout {}) (p.step delta true).time halfway = .ok true := by
  decide +kernel

end Playback

end PoseMachine
