/-!
Single-precision numbers, one correctly rounded operation at a time: sign, mantissa and exponent of
a value, its whole part, rounding to a whole number, and limits.
-/

namespace PoseMachine.Single

open Float.Model (UnpackedFloat)

/-- Sign, mantissa and exponent of `x`. -/
def parts (x : Float32) : UnpackedFloat :=
  UnpackedFloat.unpack .binary32 x.toBits.toBitVec

/-- The value with the given parts, which already fit the format. -/
def ofParts (x : UnpackedFloat) : Float32 :=
  Float32.ofBits (UInt32.ofBitVec (UnpackedFloat.pack .binary32 x))

/-- The single nearest to `±n`, a zero keeping its sign. -/
def ofMagnitude (sign : UnpackedFloat.Sign) (n : Nat) : Float32 :=
  ofParts (if 0 < n then UnpackedFloat.round .binary32 sign n 0 else .zero sign)

def ofInt (n : Int) : Float32 :=
  if n < 0 then ofMagnitude .negative n.natAbs else ofMagnitude .positive n.natAbs

def ofCount (n : UInt32) : Float32 :=
  n.toUInt64.toFloat32

/-- The greatest whole number that is at most `x`. Infinities, zeros and NaN stay as they are. -/
def floor (x : Float32) : Float32 :=
  match parts x with
  | .finite sign m e _ =>
    if 0 ≤ e then x
    else
      let d := Nat.pow 2 (-e).toNat
      match sign with
      | .positive => ofMagnitude .positive (m / d)
      | .negative => ofMagnitude .negative ((m + d - 1) / d)
  | _ => x

/-- The whole number nearest to `x`, halves going away from zero. -/
def round (x : Float32) : Float32 :=
  match parts x with
  | .finite sign m e _ =>
    if 0 ≤ e then x
    else
      let d := Nat.pow 2 (-e).toNat
      ofMagnitude sign ((2 * m + d) / (2 * d))
  | _ => x

/-- `x` moved into the range from `lo` to `hi`. NaN stays NaN. -/
def clamp (lo hi x : Float32) : Float32 :=
  let y := if x < lo then lo else x
  if y > hi then hi else y

/-- `x` if it is positive, otherwise zero. NaN counts as zero. -/
def positivePart (x : Float32) : Float32 :=
  if x > 0 then x else 0

end PoseMachine.Single
