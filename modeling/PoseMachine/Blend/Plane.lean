import PoseMachine.Blend.Line
import PoseMachine.Graph.Basic
import PoseMachine.Single.Angle

/-!
Weights of a blend over the plane, scaled to sum to one. Where a method finds no weight at all, the
nearest clip plays alone.
-/

namespace PoseMachine.Blend

structure Point where
  x : Float32
  y : Float32
deriving BEq

namespace Point

def sub (p q : Point) : Point := ⟨p.x - q.x, p.y - q.y⟩

def dot (p q : Point) : Float32 := p.x * q.x + p.y * q.y

def det (p q : Point) : Float32 := p.x * q.y - p.y * q.x

def square (p : Point) : Float32 := p.dot p

end Point

/-- Weights of `n` clips, zero where none is given. -/
def spread (n : Nat) (weights : List (Nat × Float32)) : List Float32 :=
  (List.range n).map fun i => (weights.lookup i).getD 0

/-- An angle between two directions as a turn of at most half a circle either way. -/
def turn (a : Float32) : Float32 :=
  let a := if a ≤ -Single.pi then a + Single.tau else a
  if a > Single.pi then a - Single.tau else a

/-- The closest directions on both sides of an input, each with its turn. -/
structure Neighbours where
  left : Option (Nat × Float32) := none
  right : Option (Nat × Float32) := none

/-- Takes the direction `i` in account. Of equal turns the first counts. -/
def Neighbours.add (b : Neighbours) (i : Nat) (delta : Float32) : Neighbours :=
  if delta ≥ 0 then
    match b.left with
    | some (_, d) => if delta < d then { b with left := some (i, delta) } else b
    | none => { b with left := some (i, delta) }
  else
    match b.right with
    | some (_, d) => if delta > d then { b with right := some (i, delta) } else b
    | none => { b with right := some (i, delta) }

/-- The closest directions of an input among all clips but the centre. -/
def neighbours (clips : List Point) (center : Option Nat) (input : Point) : Neighbours :=
  let angle := Single.angle input.y input.x
  clips.zipIdx.foldl
    (fun b (p, i) =>
      if center = some i then b else b.add i (turn (Single.angle p.y p.x - angle)))
    {}

/-- What is left of one for the centre. -/
def remainder (center : Option Nat) (sum : Float32) : List (Nat × Float32) :=
  match center with
  | some c => if sum < 1 then [(c, 1 - sum)] else []
  | none => []

/-- An input in the direction of the clip `i` at `p` alone. -/
def along (i : Nat) (p : Point) (center : Option Nat) (input : Point) : List (Nat × Float32) :=
  let a := Single.positivePart (input.dot p / p.square)
  (i, a) :: remainder center a

/-- An input between the directions of the clips `i` at `p` and `j` at `q`. -/
def between (i j : Nat) (p q : Point) (center : Option Nat) (input : Point) :
    List (Nat × Float32) :=
  let d := p.det q
  if d.abs < tiny then [(if p.dot input ≥ q.dot input then i else j, 1)]
  else
    let a := Single.positivePart (input.det q / d)
    let b := Single.positivePart (p.det input / d)
    (i, a) :: (j, b) :: remainder center (a + b)

/-- Weights by the two nearest directions, a clip at the centre taking the rest. -/
def byDirection (clips : List Point) (input : Point) : List (Nat × Float32) :=
  let center := clips.findIdx? fun p => p.square < tiny
  let atCenter := center.toList.map fun c => (c, 1)
  let place (i : Nat) : Point := clips.getD i ⟨0, 0⟩
  if input.square < tiny then atCenter
  else
    match neighbours clips center input with
    | ⟨none, none⟩ => atCenter
    | ⟨some (i, _), none⟩ => along i (place i) center input
    | ⟨none, some (j, _)⟩ => along j (place j) center input
    | ⟨some (i, delta), some (j, _)⟩ =>
      if delta < tiny then along i (place i) center input
      else between i j (place i) (place j) center input

/-- The weight of the clip `i` at `p`: the least band towards any other clip. -/
def band (clips : List (Point × Nat)) (input p : Point) (i : Nat) : Float32 :=
  let toInput := input.sub p
  let w := clips.foldl
    (fun w (q, j) =>
      let edge := q.sub p
      if i = j || edge.square < tiny then w
      else
        let v := 1 - toInput.dot edge / edge.square
        if v < w then v else w)
    (.ofBits 0x7f800000)
  if w.isFinite then Single.positivePart w else 0

/-- Weights by distance bands between positions. -/
def byBands (clips : List Point) (input : Point) : List Float32 :=
  let indexed := clips.zipIdx
  indexed.map fun (p, i) => band indexed input p i

def nearest (clips : List Point) (input : Point) : Nat :=
  (clips.zipIdx.foldl
    (fun (best : Nat × Float32) (p, i) =>
      let d := (p.sub input).square
      if d < best.2 then (i, d) else best)
    (0, .ofBits 0x7f800000)).1

/-- Weights scaled to sum to one, or all on the nearest clip. -/
def normalized (clips : List Point) (input : Point) (weights : List Float32) : List Float32 :=
  let sum := weights.foldl (· + ·) 0
  if sum > tiny then weights.map (· / sum) else only clips.length (nearest clips input)

/-- The weights of clips at these points for an input. -/
def planeWeights (method : PlaneMethod) (clips : List Point) (input : Point) : List Float32 :=
  match clips with
  | [] => []
  | [_] => [1]
  | clips =>
    normalized clips input <|
      match method with
      | .simpleDirectional => spread clips.length (byDirection clips input)
      | .freeformCartesian => byBands clips input

end PoseMachine.Blend
