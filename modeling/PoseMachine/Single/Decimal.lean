import PoseMachine.Single.Basic

/-!
The decimal text of a single: the fewest digits that no other single is nearer to, written
positionally.
-/

namespace PoseMachine.Single

/-- A positive decimal `digits * 10 ^ exponent`. -/
structure Decimal where
  digits : Nat
  exponent : Int

namespace Decimal

/-- Compares `d` with `b * 2 ^ j`. -/
def compareBinary (d : Decimal) (b : Nat) (j : Int) : Ordering :=
  compare (d.digits * Nat.pow 10 d.exponent.toNat * Nat.pow 2 (-j).toNat)
    (b * Nat.pow 2 j.toNat * Nat.pow 10 (-d.exponent).toNat)

/-- The single `m * 2 ^ q` is the nearest one to `d`. -/
def readsAs (d : Decimal) (m : Nat) (q : Int) : Bool :=
  let low := if m = 0x800000 && q > -149 then 4 * m - 1 else 4 * m - 2
  let below := d.compareBinary low (q - 2)
  let above := d.compareBinary (4 * m + 2) (q - 2)
  let even := m % 2 == 0
  (below == .gt || (even && below == .eq)) && (above == .lt || (even && above == .eq))

/-- The multiples of `10 ^ g` next to `m * 2 ^ q` that read as it, the nearer one first. -/
def onGrid (m : Nat) (q g : Int) : Option Decimal :=
  let d := m * Nat.pow 2 q.toNat * Nat.pow 10 (-g).toNat /
    (Nat.pow 2 (-q).toNat * Nat.pow 10 g.toNat)
  let low : Decimal := ⟨d, g⟩
  let high : Decimal := ⟨d + 1, g⟩
  let middle : Decimal := ⟨2 * d + 1, g⟩
  let nearHigh := middle.compareBinary (2 * m) q != .gt
  let (first, second) := if nearHigh then (high, low) else (low, high)
  if first.readsAs m q then some first else if second.readsAs m q then some second else none

/-- The number of decimal digits before the point of `m * 2 ^ q`, negative for zeros after it. -/
def magnitude (m : Nat) (q : Int) : Int :=
  let reaches (k : Int) := (Decimal.mk 1 k).compareBinary m q != .gt
  let least := (List.range 90).find? fun i : Nat => !reaches (Int.ofNat i - 45)
  Int.ofNat (least.getD 90) - 45

/-- Moves zeros at the end of the digits into the exponent. -/
def stripZeros : Nat → Decimal → Decimal
  | 0, d => d
  | n + 1, d =>
    if d.digits % 10 = 0 && 0 < d.digits then stripZeros n ⟨d.digits / 10, d.exponent + 1⟩ else d

/-- The decimal with the fewest digits that reads as `m * 2 ^ q`. -/
def shortest (m : Nat) (q : Int) : Decimal :=
  let k := magnitude m q
  let found := (List.range 12).findSome? fun n : Nat => onGrid m q (k - Int.ofNat (n + 1))
  stripZeros 12 (found.getD ⟨m * Nat.pow 2 q.toNat * Nat.pow 5 (-q).toNat, min q 0⟩)

def positional (d : Decimal) : String :=
  let digits := toString d.digits
  if 0 ≤ d.exponent then digits ++ String.ofList (List.replicate d.exponent.toNat '0')
  else
    let places := (-d.exponent).toNat
    let padded := List.replicate (places + 1 - digits.length) '0' ++ digits.toList
    let whole := padded.length - places
    String.ofList (padded.take whole) ++ "." ++ String.ofList (padded.drop whole)

end Decimal

/-- The text of `x`: shortest digits, `inf` or `NaN`, with a minus sign wherever the sign bit of a
number says so. -/
def text (x : Float32) : String :=
  let signed (sign : Float.Model.UnpackedFloat.Sign) (s : String) :=
    match sign with
    | .positive => s
    | .negative => "-" ++ s
  match parts x with
  | .notANumber => "NaN"
  | .infinity sign => signed sign "inf"
  | .zero sign => signed sign "0"
  | .finite sign m e _ => signed sign (Decimal.shortest m e).positional

end PoseMachine.Single
