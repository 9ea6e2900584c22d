import PoseMachine.Single.Basic

/-!
Weights of a blend along one parameter: the two clips whose thresholds bracket the value share it,
and a value outside all thresholds goes to the clip at that end.
-/

namespace PoseMachine.Blend

/-- Distances and lengths below this count as nothing, `1e-5`. -/
def tiny : Float32 := .ofBits 0x3727c5ac

/-- All weight on the clip `i` of `n`. -/
def only (n i : Nat) : List Float32 :=
  List.replicate i 0 ++ 1 :: List.replicate (n - i - 1) 0

def pair (n i : Nat) (a b : Float32) : List Float32 :=
  List.replicate i 0 ++ a :: b :: List.replicate (n - i - 2) 0

theorem length_only {n i : Nat} (h : i < n) : (only n i).length = n := by
  simp [only]
  omega

theorem length_pair {n i : Nat} (h : i + 1 < n) (a b : Float32) : (pair n i a b).length = n := by
  simp [pair]
  omega

/-- The first two neighbours with `v` between them, and the position of the lower one. -/
def bracket? (v : Float32) (i : Nat) : List Float32 → Option (Nat × Float32 × Float32)
  | low :: high :: ts =>
    if v ≥ low && v ≤ high then some (i, low, high) else bracket? v (i + 1) (high :: ts)
  | _ => none

/-- The part of the upper neighbour in a value between two thresholds. -/
def part (low high v : Float32) : Float32 :=
  let extent := high - low
  if extent > tiny then (v - low) / extent else 0

/-- The weights of clips with these thresholds, in ascending order, at the value `v`. -/
def lineWeights (thresholds : List Float32) (v : Float32) : List Float32 :=
  let n := thresholds.length
  match thresholds with
  | [] => []
  | [_] => [1]
  | first :: second :: rest =>
    if v ≤ first then only n 0
    else if v ≥ (second :: rest).getLastD first then only n (n - 1)
    else
      match bracket? v 0 thresholds with
      | some (i, low, high) =>
        let s := part low high v
        pair n i (1 - s) s
      | none => only n (n - 1)

theorem bracket?_bounds {v : Float32} {i : Nat} {ts : List Float32} {j : Nat} {low high : Float32}
    (h : bracket? v i ts = some (j, low, high)) : i ≤ j ∧ j + 1 < i + ts.length := by
  fun_induction bracket? v i ts with
  | case1 => simp_all
  | case2 _ _ _ _ _ ih =>
    have := ih h
    simp only [List.length_cons] at *
    omega
  | case3 => simp at h

theorem length_lineWeights (ts : List Float32) (v : Float32) :
    (lineWeights ts v).length = ts.length := by
  unfold lineWeights
  split
  · rfl
  · rfl
  · dsimp only
    split
    · exact length_only (by simp)
    · split
      · exact length_only (by simp)
      · split
        · next h => exact length_pair (by have := bracket?_bounds h; simp at *; omega) _ _
        · exact length_only (by simp)

end PoseMachine.Blend
