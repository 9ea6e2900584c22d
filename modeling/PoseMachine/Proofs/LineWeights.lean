import PoseMachine.Blend.Line
import PoseMachine.Proofs.Limits

/-!
Weights of a blend along one parameter: they lie between 0 and 1, at most two neighbours have one,
and some clip is selected, unless the distance of the value from the threshold below it is beyond
the greatest single.
-/

namespace PoseMachine

namespace Blend

open Single

/-- The weights of a blend between neighbours. -/
structure Shared (ws : List Float32) : Prop where
  unit : ∀ w ∈ ws, w.isFinite = true ∧ 0 ≤ w ∧ w ≤ 1
  neighbours : ∀ ⦃i j : Nat⦄ ⦃a b : Float32⦄, i < j → ws[i]? = some a → ws[j]? = some b →
    (a != 0) = true → (b != 0) = true → j = i + 1
  selects : ∃ w ∈ ws, 0 < w

theorem getElem?_padded_ne_zero {i k j : Nat} {ws : List Float32} {w : Float32}
    (h : (List.replicate i 0 ++ (ws ++ List.replicate k 0))[j]? = some w) (hw : (w != 0) = true) :
    i ≤ j ∧ j < i + ws.length := by
  have hzero : ((0 : Float32) != 0) = false := by decide +kernel
  have hpad {n l : Nat} (h : (List.replicate n (0 : Float32))[l]? = some w) : False := by
    rw [List.eq_of_mem_replicate (List.mem_of_getElem? h), hzero] at hw
    cases hw
  obtain hlt | hge := lt_or_ge j i
  · rw [List.getElem?_append_left (by simpa using hlt)] at h
    exact (hpad h).elim
  · refine ⟨hge, ?_⟩
    by_contra! hpast
    rw [List.getElem?_append_right (by simpa using hge), List.length_replicate,
      List.getElem?_append_right (by omega)] at h
    exact hpad h

theorem Shared.padded (ws : List Float32) (hlen : ws.length ≤ 2)
    (hunit : ∀ w ∈ ws, ∃ q, Denotes w q ∧ 0 ≤ q ∧ q ≤ 1) (hpos : ∃ w ∈ ws, 0 < w) (i k : Nat) :
    Shared (List.replicate i 0 ++ (ws ++ List.replicate k 0)) where
  unit w hw := by
    apply mem_unit_iff.mpr
    rw [List.mem_append, List.mem_append] at hw
    obtain hw | hw | hw := hw
    · exact ⟨0, List.eq_of_mem_replicate hw ▸ denotes_zero, le_rfl, zero_le_one⟩
    · exact hunit w hw
    · exact ⟨0, List.eq_of_mem_replicate hw ▸ denotes_zero, le_rfl, zero_le_one⟩
  neighbours j l a b hlt ha hb hane hbne := by
    have hj := getElem?_padded_ne_zero ha hane
    have hl := getElem?_padded_ne_zero hb hbne
    omega
  selects := by
    obtain ⟨w, hw, hpos⟩ := hpos
    exact ⟨w, by simp [hw], hpos⟩

theorem shared_only (n i : Nat) : Shared (only n i) := by
  refine Shared.padded [1] (by simp) ?_ ?_ i (n - i - 1)
  · intro w hw
    obtain rfl := List.mem_singleton.mp hw
    exact ⟨1, denotes_one, zero_le_one, le_rfl⟩
  · exact ⟨1, List.mem_singleton_self 1, (denotes_zero.lt_iff denotes_one).mpr one_pos⟩

theorem shared_pair {s : Float32} {q : ℚ} (n i : Nat) (hs : Denotes s q) (hlow : 0 ≤ q)
    (hhigh : q ≤ 1) : Shared (pair n i (1 - s) s) := by
  obtain ⟨r, hr, hrlow, hrhigh⟩ := (rounds_sub denotes_one hs).mem_unit (by linarith) (by linarith)
  refine Shared.padded [1 - s, s] (by simp) ?_ ?_ i (n - i - 2)
  · intro w hw
    obtain rfl | rfl := List.mem_pair.mp hw
    · exact ⟨r, hr, hrlow, hrhigh⟩
    · exact ⟨q, hs, hlow, hhigh⟩
  · -- without a part of the upper neighbour, the lower one is selected alone
    obtain rfl | hne := eq_or_ne q 0
    · have hone : 1 - s = 1 := by
        have h := rounds_sub denotes_one hs
        rw [sub_zero] at h
        exact h.eq_of_denotes denotes_one one_ne_zero
      refine ⟨1 - s, List.mem_cons_self, ?_⟩
      rw [hone]
      exact (denotes_zero.lt_iff denotes_one).mpr one_pos
    · exact ⟨s, by simp, (denotes_zero.lt_iff hs).mpr (lt_of_le_of_ne hlow hne.symm)⟩

section Part

variable {low high v : Float32} {l h q : ℚ}

/-- What is not tiny is far enough from zero to divide by. -/
theorem denotes_tiny : ∃ t, Denotes tiny t ∧ 1 ≤ 2 ^ 17 * t := by
  have ht : Denotes tiny (10995116 * 2 ^ (-40 : Int)) := by decide +kernel
  exact ⟨_, ht, by norm_num⟩

theorem isFinite_sub_of_between (hl : Denotes low l) (hh : Denotes high h) (hv : Denotes v q)
    (hlq : l ≤ q) (hqh : q ≤ h) (hextent : (high - low).isFinite = true) :
    (v - low).isFinite = true := by
  rw [(rounds_sub hv hl).isFinite_iff]
  rw [(rounds_sub hh hl).isFinite_iff] at hextent
  exact (abs_nearest_mono (by linarith) (by linarith)).trans_lt hextent

/-- The part of the upper neighbour lies between 0 and 1, even where the distance of the two
neighbours is infinite. -/
theorem part_mem_unit (hl : Denotes low l) (hh : Denotes high h) (hv : Denotes v q) (hlq : l ≤ q)
    (hqh : q ≤ h) (hfinite : (v - low).isFinite = true) :
    ∃ s, Denotes (part low high v) s ∧ 0 ≤ s ∧ s ≤ 1 := by
  have hd := (rounds_sub hv hl).denotes_of_isFinite hfinite
  unfold part
  dsimp only
  split_ifs with hwide
  · cases hextent : (high - low).isFinite with
    | true =>
        have hD := (rounds_sub hh hl).denotes_of_isFinite hextent
        obtain ⟨t, ht, hlarge⟩ := denotes_tiny
        have hDt := (ht.lt_iff hD).mp hwide
        have hDpos : 0 < Single.nearest (h - l) := by linarith
        have hle : Single.nearest (q - l) ≤ Single.nearest (h - l) := nearest_mono (by linarith)
        have hnonneg : 0 ≤ Single.nearest (q - l) := nearest_nonneg (by linarith)
        exact (rounds_div hd hD hDpos.ne').mem_unit (div_nonneg hnonneg hDpos.le)
          (div_le_one_of_le₀ hle hDpos.le)
    | false =>
        have hinf := (rounds_sub hh hl).infinite_of_not_isFinite hextent (by linarith)
        exact ⟨0, hd.div_infinity hinf, le_rfl, zero_le_one⟩
  · exact ⟨0, denotes_zero, le_rfl, zero_le_one⟩

theorem part_of_infinite (hl : Denotes low l) (hh : Denotes high h) (hv : Denotes v q)
    (hlq : l ≤ q) (hqh : q ≤ h) (hinfinite : (v - low).isFinite = false) :
    parts (part low high v) = .notANumber := by
  -- the distance of the neighbours is infinite as well, and so the part is a quotient of infinities
  have hextent : (high - low).isFinite = false := by
    by_contra hne
    rw [isFinite_sub_of_between hl hh hv hlq hqh (by simpa using hne)] at hinfinite
    cases hinfinite
  have hdistance := (rounds_sub hv hl).infinite_of_not_isFinite hinfinite (by linarith)
  have hinf := (rounds_sub hh hl).infinite_of_not_isFinite hextent (by linarith)
  obtain ⟨t, ht, -⟩ := denotes_tiny
  have hwide : high - low > tiny := ht.lt_infinity hinf
  unfold part
  dsimp only
  rw [if_pos hwide]
  exact infinity_div_infinity hdistance hinf

end Part

section Thresholds

variable {ts : List Float32} {v : Float32}

theorem bracket?_rel {R : Float32 → Float32 → Prop} {n i : Nat} {low high : Float32}
    (hchain : ts.IsChain R) (h : bracket? v n ts = some (i, low, high)) :
    low ∈ ts ∧ high ∈ ts ∧ low ≤ v ∧ v ≤ high ∧ R low high := by
  fun_induction bracket? v n ts with
  | case1 n low' high' ts hbetween =>
      obtain ⟨-, rfl, rfl⟩ : n = i ∧ low' = low ∧ high' = high := by simpa using h
      simp only [Bool.and_eq_true, decide_eq_true_eq] at hbetween
      rw [List.isChain_cons_cons] at hchain
      exact ⟨by simp, by simp, hbetween.1, hbetween.2, hchain.1⟩
  | case2 n low' high' ts hbetween ih =>
      rw [List.isChain_cons_cons] at hchain
      obtain ⟨hlow, hhigh, hrest⟩ := ih hchain.2 h
      exact ⟨List.mem_cons_of_mem _ hlow, List.mem_cons_of_mem _ hhigh, hrest⟩
  | case3 => cases h

theorem bracket?_append {low high : Float32} (before after : List Float32) (n : Nat)
    (hbefore : ∀ t ∈ before, ¬ v ≤ t) (hbelow : ¬ v ≤ low) (hlow : low ≤ v) (hhigh : v ≤ high) :
    bracket? v n (before ++ low :: high :: after) = some (n + before.length, low, high) := by
  -- the search passes neighbours of which the upper one is below the value
  induction before generalizing n with
  | nil => simp [bracket?, hlow, hhigh]
  | cons t before ih =>
      have hrest := ih (n + 1) fun t ht => hbefore t (List.mem_cons_of_mem _ ht)
      cases before with
      | nil =>
          rw [List.cons_append, List.nil_append, bracket?, if_neg (by simp [hbelow])]
          exact hrest
      | cons t' before =>
          have ht' : ¬ v ≤ t' := hbefore t' (by simp)
          rw [List.cons_append, List.cons_append, bracket?, if_neg (by simp [ht'])]
          rw [List.cons_append] at hrest
          rw [hrest, List.length_cons (a := t)]
          congr 2
          omega

theorem lineWeights_of_bracket {i : Nat} {low high : Float32} (hfirst : ∀ t ∈ ts.head?, ¬ v ≤ t)
    (hlast : ∀ t ∈ ts.getLast?, ¬ t ≤ v) (h : bracket? v 0 ts = some (i, low, high)) :
    lineWeights ts v = pair ts.length i (1 - part low high v) (part low high v) := by
  match ts with
  | [] | [_] => cases h
  | first :: second :: rest =>
      have hfirst : ¬ v ≤ first := hfirst first rfl
      have hlast : ¬ v ≥ (second :: rest).getLastD first := hlast _ List.getLast?_cons
      simp only [lineWeights, if_neg hfirst, if_neg hlast, h]

/-- As long as the value is not past all thresholds, its distance from the threshold below it is
finite. -/
def InReach (ts : List Float32) (v : Float32) : Prop :=
  (∃ t ∈ ts, v < t) → ts.IsChain fun low high => low ≤ v → v ≤ high → (v - low).isFinite = true

theorem shared_of_inReach (hne : ts ≠ []) (hfinite : ∀ t ∈ ts, t.isFinite = true)
    (hreach : InReach ts v) (hsorted : ts.Pairwise (· ≤ ·)) : Shared (lineWeights ts v) := by
  match ts with
  | [] => exact absurd rfl hne
  | [_] => exact shared_only 1 0
  | first :: second :: rest =>
      unfold lineWeights
      dsimp only
      split_ifs with hfirst hlast
      · exact shared_only _ _
      · exact shared_only _ _
      · cases hbracket : bracket? v 0 (first :: second :: rest) with
        | none => exact shared_only _ _
        | some found =>
            obtain ⟨i, low, high⟩ := found
            have hmem : (second :: rest).getLastD first ∈ first :: second :: rest :=
              List.getLastD_mem_cons
            obtain ⟨hlow, hhigh, hle, hle', -⟩ := bracket?_rel hsorted.isChain hbracket
            obtain ⟨l, hl⟩ := isFinite_iff.mp (hfinite low hlow)
            obtain ⟨h, hh⟩ := isFinite_iff.mp (hfinite high hhigh)
            obtain ⟨m, hm⟩ := isFinite_iff.mp (hfinite _ hmem)
            obtain ⟨q, hq, hlq, hqh⟩ := exists_denotes_of_le_of_le hl hh hle hle'
            have hbelow : v < (second :: rest).getLastD first := by
              rw [hq.lt_iff hm]
              exact not_le.mp (mt (hm.le_iff hq).mpr hlast)
            obtain ⟨-, -, -, -, hdistance⟩ := bracket?_rel (hreach ⟨_, hmem, hbelow⟩) hbracket
            obtain ⟨s, hs, hs0, hs1⟩ := part_mem_unit hl hh hq hlq hqh (hdistance hle hle')
            exact shared_pair _ i hs hs0 hs1

theorem lt_last {t m : Float32} (hfinite : ∀ t ∈ ts, t.isFinite = true)
    (hsorted : ts.Pairwise (· ≤ ·)) (hv : v.isFinite = true) (ht : t ∈ ts) (hvt : v < t)
    (hm : m ∈ ts.getLast?) : ¬ m ≤ v := by
  have htq := denotes_number (hfinite t ht)
  have hmq := denotes_number (hfinite m (List.mem_of_getLast? hm))
  have hvq := denotes_number hv
  have hle : number t ≤ number m := by
    obtain ⟨before, rfl⟩ := List.getLast?_eq_some_iff.mp hm
    obtain hmem | hmem := List.mem_append.mp ht
    · exact (htq.le_iff hmq).mp
        ((List.pairwise_append.mp hsorted).2.2 t hmem m (List.mem_singleton_self m))
    · rw [List.mem_singleton.mp hmem]
  rw [hmq.le_iff hvq, not_le]
  exact ((hvq.lt_iff htq).mp hvt).trans_le hle

theorem inReach_of_shared (hfinite : ∀ t ∈ ts, t.isFinite = true)
    (hsorted : ts.Pairwise (· ≤ ·)) (hshared : Shared (lineWeights ts v)) : InReach ts v := by
  rintro ⟨t, ht, hvt⟩
  rw [List.isChain_iff_forall_rel_of_append_cons_cons]
  rintro low high before after rfl hlow hhigh
  by_contra hinfinite
  rw [Bool.not_eq_true] at hinfinite
  obtain ⟨-, -, hacross⟩ := List.pairwise_append.mp hsorted
  obtain ⟨l, hl⟩ := isFinite_iff.mp (hfinite low (by simp))
  obtain ⟨h, hh⟩ := isFinite_iff.mp (hfinite high (by simp))
  obtain ⟨q, hq, hlq, hqh⟩ := exists_denotes_of_le_of_le hl hh hlow hhigh
  -- the value is off the lower neighbour, as the distance is infinite, so the search gets there
  have hlt : l < q := by
    refine lt_of_le_of_ne hlq fun heq => ?_
    have hzero := rounds_sub hq hl
    rw [heq, sub_self] at hzero
    rw [hzero.denotes_zero.isFinite] at hinfinite
    cases hinfinite
  have hbelow : ∀ t ∈ before ++ [low], ¬ v ≤ t := by
    intro t ht hvt
    obtain ⟨r, hr⟩ := isFinite_iff.mp (hfinite t (by simp at ht ⊢; tauto))
    have hqr := (hq.le_iff hr).mp hvt
    obtain hmem | hmem := List.mem_append.mp ht
    · have hrl := (hr.le_iff hl).mp (hacross t hmem low List.mem_cons_self)
      linarith
    · rw [List.mem_singleton.mp hmem] at hr
      rw [hr.unique hl] at hqr
      linarith
  have hfirst : ∀ t ∈ (before ++ low :: high :: after).head?, ¬ v ≤ t := by
    intro t ht
    apply hbelow t
    cases before <;> simp_all
  have hbracket := bracket?_append before after 0
    (fun t ht => hbelow t (List.mem_append_left _ ht)) (hbelow low (by simp)) hlow hhigh
  have hweights := lineWeights_of_bracket hfirst
    (fun m hm => lt_last hfinite hsorted hq.isFinite ht hvt hm) hbracket
  have hpart := (hshared.unit (part low high v) (by simp [hweights, pair])).1
  rw [isFinite_of_nan (part_of_infinite hl hh hq hlq hqh hinfinite)] at hpart
  cases hpart

/-- The weights are shared by neighbours exactly where the value is in reach of the threshold below
it, and so for every value where neighbours differ by a finite number. -/
theorem lineWeights_shared (hne : ts ≠ []) (hfinite : ∀ t ∈ ts, t.isFinite = true)
    (hsorted : ts.Pairwise (· ≤ ·)) :
    (∀ v, Shared (lineWeights ts v) ↔ InReach ts v) ∧
      ((ts.IsChain fun low high => (high - low).isFinite = true) →
        ∀ v, Shared (lineWeights ts v)) := by
  refine ⟨fun v => ⟨inReach_of_shared hfinite hsorted,
    fun h => shared_of_inReach hne hfinite h hsorted⟩, fun hchain v => ?_⟩
  apply shared_of_inReach hne hfinite _ hsorted
  rintro -
  rw [List.isChain_iff_forall_rel_of_append_cons_cons] at hchain ⊢
  rintro low high before after rfl hlow hhigh
  obtain ⟨l, hl⟩ := isFinite_iff.mp (hfinite low (by simp))
  obtain ⟨h, hh⟩ := isFinite_iff.mp (hfinite high (by simp))
  obtain ⟨q, hq, hlq, hqh⟩ := exists_denotes_of_le_of_le hl hh hlow hhigh
  exact isFinite_sub_of_between hl hh hq hlq hqh (hchain rfl)

theorem lineWeights_shared_tied : Shared (lineWeights [0, 1, 1, 2] 1) :=
  (lineWeights_shared (by decide) (by decide +kernel) (by decide +kernel)).2 (by decide +kernel) 1

/-- Between thresholds at both ends of the singles every weight is NaN. -/
theorem lineWeights_of_extremes :
    let ts : List Float32 := [-3e38, 3e38]
    (∀ t ∈ ts, t.isFinite = true) ∧ ts.Pairwise (· ≤ ·) ∧ ¬ Shared (lineWeights ts 2e38) ∧
      ∀ w ∈ lineWeights ts 2e38, w.isNaN = true := by
  have hnone : ∀ w ∈ lineWeights [-3e38, 3e38] 2e38, ¬ w.isFinite = true := by decide +kernel
  refine ⟨by decide +kernel, by decide +kernel, fun hshared => ?_, by decide +kernel⟩
  obtain ⟨w, hw, -⟩ := hshared.selects
  exact hnone w hw (hshared.unit w hw).1

end Thresholds

end Blend

end PoseMachine
