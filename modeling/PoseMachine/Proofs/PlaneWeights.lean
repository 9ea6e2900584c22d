import PoseMachine.Proofs.LineWeights
import PoseMachine.Proofs.Magnitudes
import PoseMachine.Proofs.SharedWeights

/-!
Weights over the plane are usable, so that a state with clips samples some of them, exactly where
the weights that a method finds have a finite sum. Positions and inputs of a moderate size have one,
for the method by direction as long as no two clips are at the centre.
-/

namespace PoseMachine

namespace Blend

open Single

/-- Numbers that are not negative, one of them positive. -/
structure Usable (ws : List Float32) : Prop where
  nonneg : ∀ w ∈ ws, w.isFinite = true ∧ 0 ≤ w
  selects : ∃ w ∈ ws, 0 < w

theorem Shared.usable {ws : List Float32} (h : Shared ws) : Usable ws :=
  ⟨fun w hw => ⟨(h.unit w hw).1, (h.unit w hw).2.1⟩, h.selects⟩

/-- The weights that a method finds, which need not sum to one. -/
def found (method : PlaneMethod) (clips : List Point) (input : Point) : List Float32 :=
  match method with
  | .simpleDirectional => spread clips.length (byDirection clips input)
  | .freeformCartesian => byBands clips input

section Normalized

variable {ws : List Float32}

theorem usable_map_div {t : ℚ} (hws : ∀ w ∈ ws, 0 ≤ w) (ht : Denotes (ws.foldl (· + ·) 0) t)
    (htiny : tiny < ws.foldl (· + ·) 0) : Usable (ws.map (· / ws.foldl (· + ·) 0)) := by
  have hlow : 2 ^ (-124 : Int) < t := by
    obtain ⟨d, hd, hlarge⟩ := denotes_tiny
    have hdt := (hd.lt_iff ht).mp htiny
    norm_num at hlarge ⊢
    linarith
  have hpos : 0 < t := lt_trans (by positivity) hlow
  obtain ⟨t', ht', -, hall⟩ := le_foldl (denotes_zero.zero_le le_rfl) hws ht.isFinite
  obtain rfl : t' = t := ht'.unique ht
  have hquotient : ∀ w ∈ ws, ∃ r, Denotes w r ∧ 0 ≤ r ∧
      Denotes (w / ws.foldl (· + ·) 0) (Single.nearest (r / t')) := by
    intro w hw
    obtain ⟨r, hr, hr0, hrt⟩ := hall w hw
    refine ⟨r, hr, hr0, (rounds_div hr ht hpos.ne').denotes_of_abs_le ?_⟩
    have hle : r / t' ≤ 1 := div_le_one_of_le₀ hrt hpos.le
    rw [abs_of_nonneg (by positivity)]
    linarith
  constructor
  · rw [List.forall_mem_map]
    intro w hw
    obtain ⟨r, -, hr0, hd⟩ := hquotient w hw
    exact ⟨hd.isFinite, hd.zero_le (nearest_nonneg (by positivity))⟩
  · -- the quotient of the greatest weight is too large to be rounded to zero
    obtain ⟨w, hw, r, hr, hshare⟩ := exists_share hws ht hlow
    obtain ⟨r', hr', -, hd⟩ := hquotient w hw
    obtain rfl : r' = r := hr'.unique hr
    have hlarge : (2 : ℚ) ^ (-26 : Int) ≤ r' / t' := by
      rw [le_div_iff₀ hpos, zpow_neg, inv_mul_le_iff₀ (by positivity)]
      exact_mod_cast hshare
    refine ⟨_, List.mem_map_of_mem hw, ?_⟩
    rw [denotes_zero.lt_iff hd]
    exact nearest_pos (by norm_num) hlarge

theorem not_usable_map_div {x : Float32} (hws : ∀ w ∈ ws, 0 ≤ w)
    (hx : parts x = .infinity .positive) : ¬ Usable (ws.map (· / x)) := by
  intro h
  obtain ⟨_, hmem, hpos⟩ := h.selects
  obtain ⟨hfinite, -⟩ := h.nonneg _ hmem
  obtain ⟨w, hw, rfl⟩ := List.mem_map.mp hmem
  -- over infinity a number is zero and infinity NaN
  obtain ⟨r, hr, -⟩ | hinf := zero_le_iff.mp (hws w hw)
  · rw [denotes_zero.lt_iff (hr.div_infinity hx)] at hpos
    exact lt_irrefl 0 hpos
  · rw [isFinite_of_nan (infinity_div_infinity hinf hx)] at hfinite
    cases hfinite

theorem normalized_usable_iff {clips : List Point} {input : Point} (hws : ∀ w ∈ ws, 0 ≤ w) :
    Usable (normalized clips input ws) ↔ (ws.foldl (· + ·) 0).isFinite = true := by
  have hsum := zero_le_foldl (denotes_zero.zero_le le_rfl) hws
  unfold normalized
  dsimp only
  obtain ⟨t, ht, -⟩ | hinf := zero_le_iff.mp hsum
  · refine iff_of_true ?_ ht.isFinite
    split_ifs with htiny
    · exact usable_map_div hws ht htiny
    · exact (shared_only _ _).usable
  · obtain ⟨t, ht, -⟩ := denotes_tiny
    have htiny : ws.foldl (· + ·) 0 > tiny := ht.lt_infinity hinf
    rw [if_pos htiny, isFinite_of_infinite hinf]
    exact iff_of_false (not_usable_map_div hws hinf) Bool.false_ne_true

end Normalized

section Direction

variable {clips : List Point} {input : Point}

/-- The clip at the centre. -/
def centre (clips : List Point) : Option Nat := clips.findIdx? fun p => p.square < tiny

/-- How the method by direction arrives at a weight. -/
inductive ByDirection (clips : List Point) (input : Point) : Float32 → Prop where
  | whole : ByDirection clips input 1
  | single {i : Nat} {p : Point} (hp : clips[i]? = some p) (hi : centre clips ≠ some i) :
      ByDirection clips input (positivePart (input.dot p / p.square))
  | left {p q : Point} (hp : p ∈ clips) (hq : q ∈ clips) (hd : ¬ (p.det q).abs < tiny) :
      ByDirection clips input (positivePart (input.det q / p.det q))
  | right {p q : Point} (hp : p ∈ clips) (hq : q ∈ clips) (hd : ¬ (p.det q).abs < tiny) :
      ByDirection clips input (positivePart (p.det input / p.det q))
  | rest {sum : Float32} (hsum : 0 ≤ sum) (hlt : sum < 1) : ByDirection clips input (1 - sum)

theorem ByDirection.of_remainder {center : Option Nat} {sum : Float32} (hsum : 0 ≤ sum)
    {x : Nat × Float32} (hx : x ∈ remainder center sum) : ByDirection clips input x.2 := by
  unfold remainder at hx
  split at hx
  · split_ifs at hx with hlt
    · obtain rfl := List.mem_singleton.mp hx
      exact .rest hsum hlt
    · cases hx
  · cases hx

theorem ByDirection.of_along {i : Nat} (hi : i < clips.length) (hne : centre clips ≠ some i)
    {x : Nat × Float32} (hx : x ∈ along i (clips.getD i ⟨0, 0⟩) (centre clips) input) :
    ByDirection clips input x.2 := by
  obtain rfl | hx := List.mem_cons.mp hx
  · exact .single (by simp [hi]) hne
  · exact .of_remainder (zero_le_positivePart _) hx

theorem ByDirection.of_between {i j : Nat} {p q : Point} (hp : p ∈ clips) (hq : q ∈ clips)
    {x : Nat × Float32} (hx : x ∈ between i j p q (centre clips) input) :
    ByDirection clips input x.2 := by
  unfold between at hx
  dsimp only at hx
  split_ifs at hx with hd
  · obtain rfl := List.mem_singleton.mp hx
    exact .whole
  · obtain rfl := List.mem_singleton.mp hx
    exact .whole
  · obtain rfl | hx := List.mem_cons.mp hx
    · exact .left hp hq hd
    obtain rfl | hx := List.mem_cons.mp hx
    · exact .right hp hq hd
    · exact .of_remainder (zero_le_add (zero_le_positivePart _) (zero_le_positivePart _)) hx

theorem ByDirection.of_mem {x : Nat × Float32} (hx : x ∈ byDirection clips input) :
    ByDirection clips input x.2 := by
  have hcenter : ∀ x ∈ (centre clips).toList.map fun c => (c, (1 : Float32)),
      ByDirection clips input x.2 := by
    rw [List.forall_mem_map]
    intro c _
    exact .whole
  have hplace {i : Nat} (hi : i < clips.length) : clips.getD i ⟨0, 0⟩ ∈ clips := by
    simp [hi]
  have hfold : (clips.findIdx? fun p => p.square < tiny) = centre clips := rfl
  have hapart := apart_neighbours clips (centre clips) input
  unfold byDirection at hx
  simp only [hfold] at hx
  generalize neighbours clips (centre clips) input = nearby at hapart hx
  split at hx
  · exact hcenter x hx
  · split at hx
    · exact hcenter x hx
    · obtain ⟨hi, hne⟩ := hapart.left _ rfl
      exact .of_along hi hne hx
    · obtain ⟨hj, hne⟩ := hapart.right _ rfl
      exact .of_along hj hne hx
    · obtain ⟨hi, hne⟩ := hapart.left _ rfl
      obtain ⟨hj, -⟩ := hapart.right _ rfl
      split at hx
      · exact .of_along hi hne hx
      · exact .of_between (hplace hi) (hplace hj) hx

theorem ByDirection.zero_le {w : Float32} (h : ByDirection clips input w) : 0 ≤ w := by
  cases h with
  | whole => exact denotes_one.zero_le zero_le_one
  | single | left | right => exact zero_le_positivePart _
  | rest hsum hlt => exact zero_le_one_sub hsum hlt

theorem mem_spread {n : Nat} {weights : List (Nat × Float32)} {w : Float32}
    (h : w ∈ spread n weights) : w = 0 ∨ ∃ x ∈ weights, x.2 = w := by
  obtain ⟨i, -, rfl⟩ := List.mem_map.mp h
  cases hi : weights.lookup i with
  | none => exact .inl rfl
  | some w =>
      obtain ⟨before, after, rfl, -⟩ := List.lookup_eq_some_iff.mp hi
      exact .inr ⟨(i, w), by simp, rfl⟩

end Direction

section Bands

variable {clips : List Point} {input : Point}

/-- The band of the position `p` towards `q`. -/
def bandTowards (input p q : Point) : Float32 :=
  1 - (input.sub p).dot (q.sub p) / (q.sub p).square

/-- How the method by bands arrives at a weight. -/
inductive ByBand (clips : List Point) (input : Point) : Float32 → Prop where
  | none : ByBand clips input 0
  | least {p q : Point} (hp : p ∈ clips) (hq : q ∈ clips) (hedge : ¬ (q.sub p).square < tiny) :
      ByBand clips input (positivePart (bandTowards input p q))

theorem ByBand.of_mem {w : Float32} (h : w ∈ byBands clips input) : ByBand clips input w := by
  obtain ⟨⟨p, i⟩, hp, rfl⟩ := List.mem_map.mp h
  have hp := List.fst_mem_of_mem_zipIdx hp
  unfold band
  dsimp only
  split_ifs with hfinite
  · generalize hw : List.foldl _ _ _ = w at hfinite ⊢
    -- the least band so far is that of some edge, unless there was none
    have hleast : w.isFinite = true →
        ∃ q ∈ clips, ¬ (q.sub p).square < tiny ∧ w = bandTowards input p q := by
      rw [← hw]
      refine List.foldlRecOn (motive := fun w : Float32 => w.isFinite = true →
        ∃ q ∈ clips, ¬ (q.sub p).square < tiny ∧ w = bandTowards input p q) _ _ ?_ ?_
      · intro h
        exact absurd h (by decide +kernel)
      · rintro w hw ⟨q, j⟩ hq
        have hq := List.fst_mem_of_mem_zipIdx hq
        dsimp only
        split_ifs with hskip hless
        · exact hw
        · intro _
          rw [Bool.or_eq_true, not_or] at hskip
          exact ⟨q, hq, by simpa using hskip.2, rfl⟩
        · exact hw
    obtain ⟨q, hq, hedge, rfl⟩ := hleast hfinite
    exact .least hp hq hedge
  · exact .none

theorem ByBand.zero_le {w : Float32} (h : ByBand clips input w) : 0 ≤ w := by
  cases h with
  | none => exact denotes_zero.zero_le le_rfl
  | least => exact zero_le_positivePart _

end Bands

theorem zero_le_found {method : PlaneMethod} {clips : List Point} {input : Point} {w : Float32}
    (h : w ∈ found method clips input) : 0 ≤ w := by
  cases method with
  | simpleDirectional =>
      obtain rfl | ⟨x, hx, rfl⟩ := mem_spread h
      · exact denotes_zero.zero_le le_rfl
      · exact (ByDirection.of_mem hx).zero_le
  | freeformCartesian => exact (ByBand.of_mem h).zero_le

theorem planeWeights_of_two {method : PlaneMethod} {clips : List Point} {input : Point}
    (h : 2 ≤ clips.length) :
    planeWeights method clips input = normalized clips input (found method clips input) := by
  match clips, h with
  | _ :: _ :: _, _ => cases method <;> rfl

section Moderate

variable {m n : Nat} {p q : Point}

/-- Both coordinates are numbers of magnitude at most `2 ^ n`. -/
def Point.Within (n : Nat) (p : Point) : Prop := Single.Within n p.x ∧ Single.Within n p.y

theorem Point.Within.sub (hp : p.Within n) (hq : q.Within n) (hn : n + 1 ≤ 127) :
    (p.sub q).Within (n + 1) :=
  ⟨hp.1.sub hq.1 hn, hp.2.sub hq.2 hn⟩

theorem Point.Within.dot (hp : p.Within m) (hq : q.Within n) (hmn : m + n + 1 ≤ 127) :
    Single.Within (m + n + 1) (p.dot q) :=
  (hp.1.mul hq.1 (by omega)).add (hp.2.mul hq.2 (by omega)) hmn

theorem Point.Within.det (hp : p.Within m) (hq : q.Within n) (hmn : m + n + 1 ≤ 127) :
    Single.Within (m + n + 1) (p.det q) :=
  (hp.1.mul hq.2 (by omega)).sub (hp.2.mul hq.1 (by omega)) hmn

theorem one_le_of_not_tiny {x : Float32} {t : ℚ} (hx : Denotes x t) (h : ¬ x < tiny) :
    1 ≤ 2 ^ 17 * |t| := by
  obtain ⟨d, hd, hlarge⟩ := denotes_tiny
  rw [hx.lt_iff hd, not_lt] at h
  have := le_abs_self t
  linarith

variable {clips : List Point} {input : Point}

/-- No two clips are at the centre. -/
def LoneCentre (clips : List Point) : Prop :=
  clips.Pairwise fun p q => ¬ (p.square < tiny ∧ q.square < tiny)

theorem not_tiny_of_ne_centre (hlone : LoneCentre clips) {i : Nat} (hi : clips[i]? = some p)
    (hne : centre clips ≠ some i) : ¬ p.square < tiny := by
  intro hsmall
  obtain ⟨hlt, rfl⟩ := List.getElem?_eq_some_iff.mp hi
  cases hc : centre clips with
  | none =>
      have := List.findIdx?_eq_none_iff.mp hc clips[i] (List.getElem_mem hlt)
      exact absurd hsmall (by simpa using this)
  | some c =>
      obtain ⟨hclt, hcsmall, hbefore⟩ := List.findIdx?_eq_some_iff_getElem.mp hc
      obtain hic | rfl | hci := lt_trichotomy i c
      · exact hbefore i hic (by simpa using hsmall)
      · exact hne hc
      · exact List.pairwise_iff_getElem.mp hlone c i hclt hlt hci ⟨by simpa using hcsmall, hsmall⟩

theorem ByDirection.within (hinput : input.Within 40) (hclips : ∀ p ∈ clips, p.Within 40)
    (hlone : LoneCentre clips) {w : Float32}
    (h : ByDirection clips input w) : Single.Within 98 w := by
  have hdet {p q : Point} (hp : p ∈ clips) (hq : q ∈ clips) (hd : ¬ (p.det q).abs < tiny) :
      ∃ t, Denotes (p.det q) t ∧ 1 ≤ 2 ^ 17 * |t| := by
    obtain ⟨t, ht, -⟩ := (hclips p hp).det (hclips q hq) (by norm_num)
    have hfar := one_le_of_not_tiny ht.abs hd
    rw [abs_abs] at hfar
    exact ⟨t, ht, hfar⟩
  cases h with
  | whole => exact within_one.mono (by norm_num)
  | single hp hi =>
      have hpoint := hclips _ (List.mem_of_getElem? hp)
      obtain ⟨t, ht, -⟩ := hpoint.dot hpoint (by norm_num)
      have hfar := one_le_of_not_tiny ht (not_tiny_of_ne_centre hlone hp hi)
      have hquotient := (hinput.dot hpoint (by norm_num)).div ht hfar (by norm_num)
      exact hquotient.positivePart
  | left hp hq hd =>
      obtain ⟨t, ht, hfar⟩ := hdet hp hq hd
      have hquotient := (hinput.det (hclips _ hq) (by norm_num)).div ht hfar (by norm_num)
      exact hquotient.positivePart
  | right hp hq hd =>
      obtain ⟨t, ht, hfar⟩ := hdet hp hq hd
      have hquotient := ((hclips _ hp).det hinput (by norm_num)).div ht hfar (by norm_num)
      exact hquotient.positivePart
  | rest hsum hlt =>
      obtain ⟨t, ht⟩ := exists_denotes_of_le_of_lt denotes_zero denotes_one hsum hlt
      have ht0 := (denotes_zero.le_iff ht).mp hsum
      have ht1 := (ht.lt_iff denotes_one).mp hlt
      refine ((rounds_sub denotes_one ht).within (n := 0) (by norm_num) ?_).mono (by norm_num)
      rw [abs_of_nonneg (by linarith)]
      linarith

theorem ByBand.within (hinput : input.Within 40) (hclips : ∀ p ∈ clips, p.Within 40) {w : Float32}
    (h : ByBand clips input w) : Single.Within 101 w := by
  cases h with
  | none => exact within_zero.mono (by norm_num)
  | @least p q hp hq hedge =>
      have hpoint := (hclips q hq).sub (hclips p hp) (by norm_num)
      have hvector := hinput.sub (hclips p hp) (by norm_num)
      obtain ⟨t, ht, -⟩ := hpoint.dot hpoint (by norm_num)
      have hquotient := (hvector.dot hpoint (by norm_num)).div ht (one_le_of_not_tiny ht hedge)
        (by norm_num)
      exact ((within_one.mono (by norm_num)).sub hquotient (by norm_num)).positivePart

theorem found_within {method : PlaneMethod} (hinput : input.Within 40)
    (hclips : ∀ p ∈ clips, p.Within 40) (hlone : method = .simpleDirectional → LoneCentre clips)
    {w : Float32} (h : w ∈ found method clips input) : Single.Within 101 w := by
  cases method with
  | simpleDirectional =>
      obtain rfl | ⟨x, hx, rfl⟩ := mem_spread h
      · exact within_zero.mono (by norm_num)
      · exact ((ByDirection.of_mem hx).within hinput hclips (hlone rfl)).mono (by norm_num)
  | freeformCartesian => exact (ByBand.of_mem h).within hinput hclips

end Moderate

theorem weighted_ne_nil {b : Baked} {s : Baked.State} {ws : List Float32}
    {clips : List (Baked.PlayedClip × Float32)} (hws : Usable ws)
    (h : b.weighted s ws = .ok clips) : clips ≠ [] := by
  obtain ⟨w, hw, hpos⟩ := hws.selects
  obtain ⟨i, hi, rfl⟩ := List.mem_iff_getElem.mp hw
  obtain ⟨q, hq⟩ := isFinite_iff.mp (hws.nonneg _ hw).1
  rw [denotes_zero.lt_iff hq] at hpos
  have hkept : ¬ ws[i] ≤ 0 := mt (hq.le_iff denotes_zero).mp hpos.not_ge
  have hmem : (ws[i], i) ∈ ws.zipIdx :=
    List.mem_zipIdx_iff_getElem?.mpr (List.getElem?_eq_getElem hi)
  rintro rfl
  have hnone := List.filter_eq_nil_iff.mp (List.forall₂_nil_right_iff.mp (mapM_eq_ok_iff.mp h))
  exact hnone _ hmem (by simpa using hkept)

/-- The weights are usable exactly where those that the method finds have a finite sum, and so for
positions and inputs of a moderate size, at most one of the clips being at the centre for the method
by direction. With usable weights a state samples some clip. -/
theorem planeWeights_usable {method : PlaneMethod} {clips : List Point} (hne : clips ≠ []) :
    (∀ input, Usable (planeWeights method clips input) ↔
      clips.length = 1 ∨ ((found method clips input).foldl (· + ·) 0).isFinite = true) ∧
      ((∀ p ∈ clips, p.Within 40) → (method = .simpleDirectional → LoneCentre clips) →
        ∀ input : Point, input.Within 40 → Usable (planeWeights method clips input)) ∧
      ∀ (b : Baked) s input sampled, Usable (planeWeights method clips input) →
        b.weighted s (planeWeights method clips input) = .ok sampled → sampled ≠ [] := by
  have husable (input : Point) : Usable (planeWeights method clips input) ↔
      clips.length = 1 ∨ ((found method clips input).foldl (· + ·) 0).isFinite = true := by
    match clips, hne with
    | [_], _ => exact iff_of_true (shared_only 1 0).usable (.inl rfl)
    | p :: q :: clips, _ =>
        rw [planeWeights_of_two (by simp), normalized_usable_iff fun w => zero_le_found]
        simp
  refine ⟨husable, fun hclips hlone input hinput => ?_, fun b s input sampled => weighted_ne_nil⟩
  refine (husable input).mpr (.inr (isFinite_foldl (n := 101) (by norm_num) denotes_zero le_rfl
    (by positivity) fun w hw => ?_))
  exact ⟨zero_le_found hw, found_within hinput hclips hlone hw⟩

/-- Clips at the centre, ahead and to the left, and an input between the last two. -/
theorem planeWeights_usable_corner :
    Usable (planeWeights .simpleDirectional [⟨0, 0⟩, ⟨1, 0⟩, ⟨0, 1⟩] ⟨0.5, 0.25⟩) := by
  have hzero : Single.Within 40 0 := within_zero.mono (by norm_num)
  have hone : Single.Within 40 1 := within_one.mono (by norm_num)
  have hclips : ∀ p ∈ [(⟨0, 0⟩ : Point), ⟨1, 0⟩, ⟨0, 1⟩], p.Within 40 := by
    simp only [List.forall_mem_cons]
    exact ⟨⟨hzero, hzero⟩, ⟨hone, hzero⟩, ⟨hzero, hone⟩, by simp⟩
  have hlone : LoneCentre [(⟨0, 0⟩ : Point), ⟨1, 0⟩, ⟨0, 1⟩] := by
    unfold LoneCentre
    decide +kernel
  exact (planeWeights_usable (by simp)).2.1 hclips (fun _ => hlone) ⟨0.5, 0.25⟩
    ⟨⟨1 / 2, by decide +kernel, by norm_num⟩, ⟨1 / 4, by decide +kernel, by norm_num⟩⟩

/-- Of two clips next to the centre the second is divided by the square of its distance, which is
lost. -/
theorem planeWeights_of_two_centres :
    ¬ Usable (planeWeights .simpleDirectional [⟨0, 0⟩, ⟨1e-23, 0⟩] ⟨1, 0⟩) := by
  intro h
  have hnone : ∀ w ∈ planeWeights .simpleDirectional [⟨0, 0⟩, ⟨1e-23, 0⟩] ⟨1, 0⟩,
      ¬ 0 < w := by decide +kernel
  obtain ⟨w, hw, hpos⟩ := h.selects
  exact hnone w hw hpos

end Blend

end PoseMachine
