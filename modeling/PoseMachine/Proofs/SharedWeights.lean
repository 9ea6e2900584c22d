import PoseMachine.Proofs.Playing

/-!
Weights in a block that all states share. A state clears the part of the block that it needs before
it writes its own weights there, so it reads nothing of what other states have left behind.
-/

namespace PoseMachine

open Parameter (Buffers)

namespace Blend

def clear (block : List Float32) : List Float32 := block.map fun _ => 0

/-- Writes weights into a block, one after another. -/
def fill (block : List Float32) (weights : List (Nat × Float32)) : List Float32 :=
  weights.foldl (fun block (i, w) => block.set i w) block

/-- The weights of `lineWeights`, written into a block. -/
def lineInto (thresholds : List Float32) (v : Float32) (block : List Float32) : List Float32 :=
  let block := clear block
  let n := thresholds.length
  match thresholds with
  | [] => block
  | [_] => block.set 0 1
  | first :: second :: rest =>
    if v ≤ first then block.set 0 1
    else if v ≥ (second :: rest).getLastD first then block.set (n - 1) 1
    else
      match bracket? v 0 thresholds with
      | some (i, low, high) =>
        let s := part low high v
        (block.set i (1 - s)).set (i + 1) s
      | none => block.set (n - 1) 1

/-- The weights of a block scaled to sum to one, or all on the nearest clip. -/
def normalizedInto (clips : List Point) (input : Point) (block : List Float32) : List Float32 :=
  let sum := block.foldl (· + ·) 0
  if sum > tiny then block.map (· / sum) else (clear block).set (nearest clips input) 1

/-- The weights of `planeWeights`, written into a block. -/
def planeInto (method : PlaneMethod) (clips : List Point) (input : Point) (block : List Float32) :
    List Float32 :=
  let block := clear block
  match clips with
  | [] => block
  | [_] => block.set 0 1
  | clips =>
    normalizedInto clips input <|
      match method with
      | .simpleDirectional => fill block (byDirection clips input)
      | .freeformCartesian =>
        let indexed := clips.zipIdx
        fill block (indexed.map fun (p, i) => (i, band indexed input p i))

theorem clear_eq (block : List Float32) : clear block = List.replicate block.length 0 := by
  simp [clear]

theorem set_replicate {n i : Nat} (h : i < n) (w : Float32) :
    (List.replicate n 0).set i w = List.replicate i 0 ++ w :: List.replicate (n - i - 1) 0 := by
  have hlt : i < (List.replicate n (0 : Float32)).length := by simpa using h
  rw [List.set_eq_take_append_cons_drop, if_pos hlt, List.take_replicate, List.drop_replicate,
    Nat.min_eq_left (Nat.le_of_lt h), Nat.sub_sub]

theorem set_set_replicate {n i : Nat} (h : i + 1 < n) (u w : Float32) :
    ((List.replicate n 0).set i u).set (i + 1) w = pair n i u w := by
  have hrest : List.replicate (n - i - 1) (0 : Float32) = 0 :: List.replicate (n - i - 2) 0 := by
    rw [← List.replicate_succ]
    congr 1
    omega
  rw [set_replicate (by omega), List.set_append_right _ _ (by simp), List.length_replicate,
    Nat.add_sub_cancel_left, hrest]
  rfl

/-- What has been written into a block at different positions can be read there. -/
theorem getElem?_fill {weights : List (Nat × Float32)} (h : (weights.map (·.1)).Nodup)
    (block : List Float32) (i : Nat) :
    (fill block weights)[i]? = block[i]?.map fun w => (weights.lookup i).getD w := by
  induction weights generalizing block with
  | nil => simp [fill]
  | cons x weights ih =>
      obtain ⟨j, w⟩ := x
      rw [List.map_cons, List.nodup_cons] at h
      have hstep : fill block ((j, w) :: weights) = fill (block.set j w) weights := rfl
      rw [hstep, ih h.2, List.getElem?_set, List.lookup_cons]
      by_cases hj : j = i
      · subst hj
        have hnone : weights.lookup j = none := by
          rw [List.lookup_eq_none_iff]
          intro y hy
          exact bne_iff_ne.mpr fun heq => h.1 (List.mem_map.mpr ⟨y, hy, heq.symm⟩)
        by_cases hlt : j < block.length
        · simp [hnone, hlt]
        · simp [hlt]
      · have hne : (i == j) = false := by simpa using Ne.symm hj
        rw [if_neg hj, hne]

theorem fill_clear {weights : List (Nat × Float32)} (h : (weights.map (·.1)).Nodup)
    (block : List Float32) : fill (clear block) weights = spread block.length weights := by
  refine List.ext_getElem? fun i => ?_
  rw [getElem?_fill h, clear_eq, spread, List.getElem?_map, List.getElem?_replicate]
  by_cases hi : i < block.length
  · rw [if_pos hi, List.getElem?_range hi]
    rfl
  · rw [if_neg hi, List.getElem?_eq_none (by simpa using hi)]
    rfl

theorem lineInto_eq {thresholds : List Float32} {block : List Float32}
    (h : block.length = thresholds.length) (v : Float32) :
    lineInto thresholds v block = lineWeights thresholds v := by
  rcases thresholds with _ | ⟨first, _ | ⟨second, rest⟩⟩
  · rw [lineInto, clear_eq, h]
    rfl
  · rw [lineInto, clear_eq, h]
    rfl
  · have hpos : 0 < (first :: second :: rest).length := Nat.succ_pos _
    have hlast : (first :: second :: rest).length - 1 < (first :: second :: rest).length :=
      Nat.sub_lt hpos Nat.one_pos
    unfold lineInto lineWeights
    rw [clear_eq, h]
    dsimp only
    split
    · exact set_replicate hpos 1
    · split
      · exact set_replicate hlast 1
      · cases hbracket : bracket? v 0 (first :: second :: rest) with
        | none => exact set_replicate hlast 1
        | some r =>
            obtain ⟨i, low, high⟩ := r
            have hlt := (bracket?_bounds hbracket).2
            rw [Nat.zero_add] at hlt
            exact set_set_replicate hlt _ _

/-- The closest directions on both sides are those of two of the first `k` clips, neither of them at
the centre. -/
structure Neighbours.Apart (center : Option Nat) (k : Nat) (b : Neighbours) : Prop where
  left : ∀ x ∈ b.left, x.1 < k ∧ center ≠ some x.1
  right : ∀ x ∈ b.right, x.1 < k ∧ center ≠ some x.1
  ne : ∀ x ∈ b.left, ∀ y ∈ b.right, x.1 ≠ y.1

theorem Neighbours.Apart.succ {center : Option Nat} {k : Nat} {b : Neighbours}
    (h : b.Apart center k) : b.Apart center (k + 1) :=
  ⟨fun x hx => ⟨Nat.lt_succ_of_lt (h.left x hx).1, (h.left x hx).2⟩,
    fun x hx => ⟨Nat.lt_succ_of_lt (h.right x hx).1, (h.right x hx).2⟩, h.ne⟩

theorem Neighbours.Apart.add {center : Option Nat} {k : Nat} {b : Neighbours} (h : b.Apart center k)
    (hk : center ≠ some k) (delta : Float32) : (b.add k delta).Apart center (k + 1) := by
  -- The clip `k` is new to either side.
  have htakeLeft : ({ b with left := some (k, delta) } : Neighbours).Apart center (k + 1) := by
    refine ⟨?_, h.succ.right, ?_⟩
    · rintro _ ⟨⟩
      exact ⟨Nat.lt_succ_self k, hk⟩
    · rintro _ ⟨⟩ y hy
      exact Nat.ne_of_gt (h.right y hy).1
  have htakeRight : ({ b with right := some (k, delta) } : Neighbours).Apart center (k + 1) := by
    refine ⟨h.succ.left, ?_, ?_⟩
    · rintro _ ⟨⟩
      exact ⟨Nat.lt_succ_self k, hk⟩
    · rintro x hx _ ⟨⟩
      exact Nat.ne_of_lt (h.left x hx).1
  unfold Neighbours.add
  split
  · split
    · split
      · exact htakeLeft
      · exact h.succ
    · exact htakeLeft
  · split
    · split
      · exact htakeRight
      · exact h.succ
    · exact htakeRight

theorem apart_neighbours (clips : List Point) (center : Option Nat) (input : Point) :
    (neighbours clips center input).Apart center clips.length := by
  have hfold : ∀ (ps : List Point) (k : Nat) (b : Neighbours), b.Apart center k →
      ((ps.zipIdx k).foldl (fun b (p, i) => if center = some i then b else
        b.add i (turn (Single.angle p.y p.x - Single.angle input.y input.x))) b).Apart center
        (k + ps.length) := by
    intro ps
    induction ps with
    | nil =>
        intro k b hb
        exact hb
    | cons p ps ih =>
        intro k b hb
        rw [List.zipIdx_cons, List.foldl_cons, List.length_cons, Nat.add_comm ps.length,
          ← Nat.add_assoc]
        refine ih (k + 1) _ ?_
        dsimp only
        split
        · exact hb.succ
        · next hk => exact hb.add hk _
  have h := hfold clips 0 {} ⟨by simp, by simp, by simp⟩
  rwa [Nat.zero_add] at h

theorem nodup_append_remainder {center : Option Nat} (is : List Nat) (his : is.Nodup)
    (hcenter : ∀ i ∈ is, center ≠ some i) (sum : Float32) :
    (is ++ (remainder center sum).map (·.1)).Nodup := by
  unfold remainder
  split
  · next c =>
    split
    · refine List.nodup_append.mpr ⟨his, by simp, ?_⟩
      rintro i hi _ hc rfl
      obtain rfl := List.mem_singleton.mp hc
      exact hcenter i hi rfl
    · simpa using his
  · simpa using his

/-- The method by directions gives each clip at most one weight. -/
theorem nodup_byDirection (clips : List Point) (input : Point) :
    ((byDirection clips input).map (·.1)).Nodup := by
  unfold byDirection
  dsimp only
  generalize clips.findIdx? (fun p => p.square < tiny) = center
  have hcenter : ((center.toList.map fun c => (c, (1 : Float32))).map (·.1)).Nodup := by
    cases center with
    | none => exact .nil
    | some c => simp
  have halong {i : Nat} (p : Point) (hi : center ≠ some i) :
      ((along i p center input).map (·.1)).Nodup :=
    nodup_append_remainder [i] (by simp) (by simpa using hi) _
  have hapart := apart_neighbours clips center input
  generalize neighbours clips center input = nearby at hapart
  split
  · exact hcenter
  · split
    · exact hcenter
    · next i _ => exact halong _ (hapart.left _ rfl).2
    · next j _ => exact halong _ (hapart.right _ rfl).2
    · next i delta j _ =>
      have hi := (hapart.left _ rfl).2
      split
      · exact halong _ hi
      · unfold between
        dsimp only
        split
        · simp
        · refine nodup_append_remainder [i, j] ?_ ?_ _
          · simpa using hapart.ne _ rfl _ rfl
          · simpa using ⟨hi, (hapart.right _ rfl).2⟩

theorem lookup_map_zipIdx {α : Type} (g : α × Nat → Float32) (xs : List α) (k i : Nat) :
    ((xs.zipIdx k).map fun x => (x.2, g x)).lookup (k + i) = xs[i]?.map fun x => g (x, k + i) := by
  induction xs generalizing k i with
  | nil => rfl
  | cons x xs ih =>
      rw [List.zipIdx_cons, List.map_cons, List.lookup_cons]
      cases i with
      | zero => simp
      | succ i =>
          have hne : (k + (i + 1) == k) = false := by simp
          rw [hne, ← Nat.add_assoc, Nat.add_right_comm, List.getElem?_cons_succ]
          exact ih (k + 1) i

theorem fill_bands {clips : List Point} {block : List Float32} (h : block.length = clips.length)
    (input : Point) :
    fill (clear block) (clips.zipIdx.map fun (p, i) => (i, band clips.zipIdx input p i)) =
      byBands clips input := by
  have hkeys : (clips.zipIdx.map fun (p, i) => (i, band clips.zipIdx input p i)).map (·.1) =
      List.range clips.length := by
    rw [List.map_map, List.range_eq_range', ← List.zipIdx_map_snd 0 clips]
    rfl
  rw [fill_clear (by rw [hkeys]; exact List.nodup_range), h, byBands]
  refine List.ext_getElem? fun i => ?_
  rw [spread, List.getElem?_map, List.getElem?_map, List.getElem?_zipIdx]
  have hlookup := lookup_map_zipIdx (fun x => band clips.zipIdx input x.1 x.2) clips 0 i
  rw [Nat.zero_add] at hlookup
  by_cases hi : i < clips.length
  · rw [List.getElem?_eq_getElem hi] at hlookup ⊢
    rw [List.getElem?_range hi]
    simp [hlookup]
  · simp [hi]

theorem planeInto_eq {clips : List Point} {block : List Float32}
    (h : block.length = clips.length) (method : PlaneMethod) (input : Point) :
    planeInto method clips input block = planeWeights method clips input := by
  rcases clips with _ | ⟨p, _ | ⟨q, clips⟩⟩
  · rw [planeInto, clear_eq, h]
    rfl
  · rw [planeInto, clear_eq, h]
    rfl
  · have hpos : 0 < (p :: q :: clips).length := Nat.succ_pos _
    have hnormalized {ws : List Float32} (hws : ws.length = (p :: q :: clips).length) :
        normalizedInto (p :: q :: clips) input ws = normalized (p :: q :: clips) input ws := by
      simp only [normalizedInto, normalized]
      split
      · rfl
      · rw [clear_eq, hws]
        exact set_replicate (nearest_lt hpos input) 1
    cases method with
    | simpleDirectional =>
        have hfill := fill_clear (nodup_byDirection (p :: q :: clips) input) block
        rw [h] at hfill
        exact (congrArg _ hfill).trans (hnormalized (length_spread _ _))
    | freeformCartesian =>
        exact (congrArg _ (fill_bands h input)).trans (hnormalized (length_byBands _ _))

end Blend

namespace Baked

variable {b : Baked} {values : Buffers} {s : State}

/-- The weights of the clips of a state and their number, written into a block that holds whatever
was there before. -/
def weightsIn (b : Baked) (values : Buffers) (block : List Float32) (s : State) :
    Except Fault (Nat × List Float32) := do
  match s.kind with
  | .clip => if 1 ≤ block.length then pure (1, block.set 0 1) else .error .outOfBounds
  | .line =>
    let l ← fetch b.lineStates s.typeIndex.toNat
    let (_, thresholds, _) ← b.lineSlices l
    let v ← values.numeric l.parameter
    let n := thresholds.size
    if n ≤ block.length then
      pure (n, Blend.lineInto (thresholds.toList.map (·.value)) v (block.take n) ++ block.drop n)
    else .error .outOfBounds
  | .plane =>
    let p ← fetch b.planeStates s.typeIndex.toNat
    let entries ← p.clips.slice b.planeEntries
    let x ← values.float p.parameterX
    let y ← values.float p.parameterY
    let n := entries.size
    if n ≤ block.length then
      let clips := entries.toList.map fun e => ⟨e.x, e.y⟩
      pure (n, Blend.planeInto p.method clips ⟨x, y⟩ (block.take n) ++ block.drop n)
    else .error .outOfBounds

/-- The weights in a block do not depend on what it held, and what they do not need is left there. -/
theorem alike_weightsIn {block : List Float32} (hblock : 0 < block.length) :
    Alike (fun ws r => r = (ws.length, ws ++ block.drop ws.length) ∧ ws.length ≤ block.length)
      (b.weights values block.length s) (b.weightsIn values block s) := by
  have hlength {n : Nat} (hn : n ≤ block.length) : (block.take n).length = n :=
    List.length_take_of_le hn
  unfold weightsIn weights
  cases s.kind with
  | clip =>
      obtain ⟨w, rest, rfl⟩ := List.exists_cons_of_length_pos hblock
      exact .ok ⟨rfl, hblock⟩
  | line =>
      refine .bind (.refl _) ?_
      rintro l _ rfl
      refine .bind (.refl _) ?_
      rintro ⟨clips, thresholds, speeds⟩ _ rfl
      refine .bind (.refl _) ?_
      rintro v _ rfl
      dsimp only
      split
      · next hn =>
        rw [Blend.lineInto_eq (by rw [hlength hn]; simp)]
        refine .pure ?_
        rw [Blend.length_lineWeights, List.length_map, Array.length_toList]
        exact ⟨rfl, hn⟩
      · exact .error _
  | plane =>
      refine .bind (.refl _) ?_
      rintro p _ rfl
      refine .bind (.refl _) ?_
      rintro entries _ rfl
      refine .bind (.refl _) ?_
      rintro x _ rfl
      refine .bind (.refl _) ?_
      rintro y _ rfl
      dsimp only
      split
      · next hn =>
        rw [Blend.planeInto_eq (by rw [hlength hn]; simp)]
        refine .pure ?_
        rw [Blend.length_planeWeights, List.length_map, Array.length_toList]
        exact ⟨rfl, hn⟩
      · exact .error _

/-- What a state with these weights does in a tick. -/
def playWeighted (b : Baked) (values : Buffers) (s : State) (weights : List Float32)
    (dt scale : Float32) (p : Playback) : Except Fault (Playback × List Sample) := do
  let speed ← speed values s
  let clips ← b.weighted s weights
  let length := duration clips
  let p := if length > leastDuration then p.step (dt * speed / length) s.looping else p
  let samples :=
    if scale ≤ 0 then []
    else clips.map fun (c, w) => ⟨c.clip, p.fraction * c.duration, p.fraction, w * scale⟩
  pure (p, samples)

/-- Plays a state as `play` does, with its weights in a block. -/
def playIn (b : Baked) (values : Buffers) (block : List Float32) (dt scale : Float32)
    (p : Playback) : Except Fault (Playback × List Sample × List Float32) := do
  let s ← fetch b.states p.state.toNat
  let (n, block) ← b.weightsIn values block s
  let (p, samples) ← b.playWeighted values s (block.take n) dt scale p
  pure (p, samples, block)

theorem alike_playIn {block : List Float32} {slots : Nat} (hblock : block.length = slots)
    (hslots : 0 < slots) (dt scale : Float32) (p : Playback) :
    Alike (fun r r' => r'.1 = r.1 ∧ r'.2.1 = r.2 ∧ r'.2.2.length = slots)
      (b.play values slots dt scale p) (b.playIn values block dt scale p) := by
  subst hblock
  have hplay : b.play values block.length dt scale p = (do
      let s ← fetch b.states p.state.toNat
      let weights ← b.weights values block.length s
      b.playWeighted values s weights dt scale p) := rfl
  rw [hplay]
  refine .bind (.refl _) ?_
  rintro _ s rfl
  refine .bind (alike_weightsIn hslots) ?_
  rintro ws _ ⟨rfl, hle⟩
  rw [← bind_pure (b.playWeighted values s ws dt scale p)]
  dsimp only
  rw [List.take_left]
  refine .bind (.refl _) ?_
  rintro _ ⟨q, samples⟩ rfl
  refine .pure ⟨rfl, rfl, ?_⟩
  rw [List.length_append, List.length_drop, Nat.add_sub_cancel' hle]

end Baked

end PoseMachine
