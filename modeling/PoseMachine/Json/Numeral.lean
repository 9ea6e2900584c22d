import PoseMachine.Single.Double

/-!
Numerals and the numbers they are read as. A numeral without point and exponent is a whole number if
it fits 64 bits. Any other is read in doubles: its leading digits, as many as fit 64 bits, and a
power of ten are rounded, and so is what they are multiplied or divided to.
-/

namespace PoseMachine.Json

/-- A number as it is written. -/
structure Numeral where
  negative : Bool
  whole : List Char
  /-- The digits behind the point, if there is one. -/
  fraction : Option (List Char)
  exponent : Option Int

/-- What a numeral is read as. -/
inductive Number where
  | int (n : Int)
  | real (x : Float)
  /-- A number beyond all doubles. -/
  | huge

namespace Numeral

def digit (c : Char) : Nat := c.toNat - 48

def digitsValue (ds : List Char) : Nat := ds.foldl (fun n d => 10 * n + digit d) 0

/-- The digits before a point, and what comes behind them. More than one do not start with zero. If
they are malformed, whether the text ends there. -/
def wholeDigits (cs : List Char) : Except Bool (List Char × List Char) :=
  let (ds, cs) := cs.span Char.isDigit
  match ds with
  | [] => .error cs.isEmpty
  | '0' :: _ :: _ => .error false
  | ds => .ok (ds, cs)

def fractionDigits (cs : List Char) : Except Bool (Option (List Char) × List Char) :=
  match cs with
  | '.' :: cs =>
    let (ds, cs) := cs.span Char.isDigit
    if ds.isEmpty then .error cs.isEmpty else .ok (some ds, cs)
  | cs => .ok (none, cs)

def exponentOf (cs : List Char) : Except Bool (Option Int × List Char) :=
  match cs with
  | e :: cs =>
    if e = 'e' || e = 'E' then
      let (negative, cs) := match cs with
        | '+' :: cs => (false, cs)
        | '-' :: cs => (true, cs)
        | cs => (false, cs)
      let (ds, cs) := cs.span Char.isDigit
      if ds.isEmpty then .error cs.isEmpty
      else
        let n : Int := digitsValue ds
        .ok (some (if negative then -n else n), cs)
    else .ok (none, e :: cs)
  | [] => .ok (none, [])

/-- The numeral at the start of a text, its sign already taken off, and what comes behind it. -/
def ofText (negative : Bool) (cs : List Char) : Except Bool (Numeral × List Char) := do
  let (whole, cs) ← wholeDigits cs
  let (fraction, cs) ← fractionDigits cs
  let (exponent, cs) ← exponentOf cs
  pure (⟨negative, whole, fraction, exponent⟩, cs)

/-- Appends digits to `m` until one does not fit 64 bits. The digits from there on are left. -/
def append (m : Nat) : List Char → Nat × List Char
  | [] => (m, [])
  | d :: ds =>
    if 10 * m + digit d < 0x10000000000000000 then append (10 * m + digit d) ds else (m, d :: ds)

def tenTo (n : Nat) : Float := Float.ofScientific 1 false n

/-- `m * 10 ^ e` in doubles, none if that is beyond them. Powers of ten end at 308, and two of them
divide 64 bits to nothing. -/
def scaled? (m : Nat) (e : Int) : Option Float :=
  let x := Single.doubleOfInt m
  if m = 0 then some 0
  else if 308 < e then none
  else if 0 ≤ e then
    let y := x * tenTo e.toNat
    if y.isInf then none else some y
  else if -308 ≤ e then some (x / tenTo (-e).toNat)
  else if -616 ≤ e then some (x / tenTo 308 / tenTo (-e - 308).toNat)
  else some 0

/-- The number of `± m * 10 ^ e` in doubles. -/
def double (negative : Bool) (m : Nat) (e : Int) : Number :=
  match scaled? m e with
  | some x => .real (if negative then -x else x)
  | none => .huge

/-- The number of `± m`. A negative one has to fit 64 bits with its sign, and a negative zero is not
whole. -/
def integer (negative : Bool) (m : Nat) : Number :=
  if negative then
    if 0 < m && m ≤ 0x8000000000000000 then .int (-m) else double true m 0
  else .int m

/-- What a numeral is read as. Digits before the point that do not fit count as powers of ten, those
behind it do not count. -/
def value (n : Numeral) : Number :=
  let (m, dropped) := append 0 n.whole
  if n.fraction.isNone && n.exponent.isNone && dropped.isEmpty then integer n.negative m
  else
    let fraction := n.fraction.getD []
    let (m, left) := append m fraction
    let places : Int := fraction.length - left.length
    double n.negative m (n.exponent.getD 0 + dropped.length - places)

end Numeral

end PoseMachine.Json
