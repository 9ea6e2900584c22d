import PoseMachine.Single.Basic

/-!
The angle of a direction in the plane. The arc tangent folds its argument into `[0, 7/16]` around
one of four fixed angles and sums an odd polynomial there; every step is one rounded single
operation.
-/

namespace PoseMachine.Single

def pi : Float32 := .ofBits 0x40490fdb

def tau : Float32 := .ofBits 0x40c90fdb

def halfPi : Float32 := .ofBits 0x3fc90fdb

def quarterPi : Float32 := .ofBits 0x3f490fdb

/-- What `pi` lacks of `π`. -/
private def piRest : Float32 := .ofBits 0xb3bbbd2e

/-- The part of the arc tangent of a small `x` that is taken from `x`. -/
private def arcTail (x : Float32) : Float32 :=
  let z := x * x
  let w := z * z
  let s₁ := z * (.ofBits 0x3eaaaaab + w * (.ofBits 0x3e124925 + w * (.ofBits 0x3dba2e6e +
    w * (.ofBits 0x3d886b35 + w * (.ofBits 0x3d4bda59 + w * .ofBits 0x3c8569d7)))))
  let s₂ := w * (.ofBits 0xbe4ccccd + w * (.ofBits 0xbde38e38 + w * (.ofBits 0xbd9d8795 +
    w * (.ofBits 0xbd6ef16b + w * .ofBits 0xbd15a221))))
  x * (s₁ + s₂)

/-- The arc tangent of `x ≥ 0`. -/
def arcTan (x : Float32) : Float32 :=
  let about (hi lo y : Float32) := hi - ((arcTail y - lo) - y)
  if x ≥ .ofBits 0x4c000000 then .ofBits 0x3fc90fda + .ofBits 0x33a22168
  else if x < .ofBits 0x3ee00000 then
    if x < .ofBits 0x31000000 then x else x - arcTail x
  else if x < .ofBits 0x3f300000 then
    about (.ofBits 0x3eed6338) (.ofBits 0x31ac3769) ((2 * x - 1) / (2 + x))
  else if x < .ofBits 0x3f980000 then
    about (.ofBits 0x3f490fda) (.ofBits 0x33222168) ((x - 1) / (x + 1))
  else if x < .ofBits 0x401c0000 then
    about (.ofBits 0x3f7b985e) (.ofBits 0x33140fb4) ((x - 1.5) / (1 + 1.5 * x))
  else about (.ofBits 0x3fc90fda) (.ofBits 0x33a22168) (-1 / x)

/-- The exponent bits of `x`, without its sign. -/
private def magnitude (x : Float32) : Nat := x.toBits.toNat % 0x80000000

/-- The angle of the direction `(x, y)`, from `-π` to `π`. -/
def angle (y x : Float32) : Float32 :=
  let negY := y.toBits.toNat ≥ 0x80000000
  let negX := x.toBits.toNat ≥ 0x80000000
  let signed (a : Float32) := if negY then -a else a
  if x.isNaN || y.isNaN then x + y
  else if magnitude y = 0 then
    if negX then signed pi else y
  else if magnitude x = 0 then signed halfPi
  else if x.isInf then
    if y.isInf then signed (if negX then 3 * quarterPi else quarterPi)
    else if negX then signed pi else signed 0
  else if y.isInf then signed halfPi
  else
    let k : Int := ((magnitude y : Int) - (magnitude x : Int)) / 0x800000
    let z :=
      if k > 60 then halfPi + 0.5 * piRest
      else if negX && k < -60 then 0
      else arcTan (y / x).abs
    if negX then
      if negY then (z - piRest) - pi else pi - (z - piRest)
    else signed z

end PoseMachine.Single
