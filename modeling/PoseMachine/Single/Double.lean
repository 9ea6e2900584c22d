import PoseMachine.Single.Basic

/-!
Singles and doubles: every single is a double, and a double is read as the nearest single.
-/

namespace PoseMachine.Single

open Float.Model (UnpackedFloat)

/-- The double with the value of `x`. -/
def toDouble (x : Float32) : Float :=
  let y := match parts x with
    | .finite sign m e _ => UnpackedFloat.round .binary64 sign m e
    | y => y
  Float.ofBits (UInt64.ofBitVec (UnpackedFloat.pack .binary64 y))

/-- The single nearest to `x`, ties going to the even mantissa. -/
def ofDouble (x : Float) : Float32 :=
  ofParts <| match UnpackedFloat.unpack .binary64 x.toBits.toBitVec with
    | .finite sign m e _ => UnpackedFloat.round .binary32 sign m e
    | y => y

/-- The double nearest to the integer `n`. -/
def doubleOfInt (n : Int) : Float :=
  Float.ofBits <| UInt64.ofBitVec <| UnpackedFloat.pack .binary64 <|
    if n = 0 then .zero .positive
    else UnpackedFloat.round .binary64 (if n < 0 then .negative else .positive) n.natAbs 0

end PoseMachine.Single
