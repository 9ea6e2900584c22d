import PoseMachine.Single.Pattern

/-!
Blend curves of transitions: authored cubic keyframes, their packed form of four octets each, and
the weight a packed curve gives to a progress.
-/

namespace PoseMachine

structure Keyframe where
  time : Single.Pattern
  value : Float32
  inTangent : Float32 := 0
  outTangent : Float32 := 0
deriving BEq

/-- An authored curve, its keyframes in any order. -/
structure Curve where
  keyframes : List Keyframe
deriving BEq

/-- From 0 to 1, flat at both ends. -/
def Curve.easeInOut : Curve := ⟨[⟨.ofValue 0, 0, 0, 0⟩, ⟨.ofValue 1, 1, 0, 0⟩]⟩

/-- A keyframe in four octets: time and value in 255ths, tangents in tenths. -/
structure PackedKey where
  time : UInt8
  value : UInt8
  inTangent : Int8
  outTangent : Int8
deriving DecidableEq, Repr

namespace Single

/-- The nearest 255th of the unit range. NaN counts as zero. -/
def unitOctet (x : Float32) : UInt8 :=
  (clamp 0 255 (round (x * 255))).toUInt8

/-- The nearest tenth, at most 127 either way. NaN counts as zero. -/
def tangentOctet (x : Float32) : Int8 :=
  let y := clamp (-127) 127 (round (x * 10))
  if y < 0 then -((-y).toUInt8.toInt8) else y.toUInt8.toInt8

end Single

namespace PackedKey

def ofKeyframe (k : Keyframe) : PackedKey where
  time := Single.unitOctet k.time.value
  value := Single.unitOctet k.value
  inTangent := Single.tangentOctet k.inTangent
  outTangent := Single.tangentOctet k.outTangent

def toKeyframe (k : PackedKey) : Keyframe where
  time := .ofValue (Single.ofInt k.time.toNat / 255)
  value := Single.ofInt k.value.toNat / 255
  inTangent := Single.ofInt k.inTangent.toInt / 10
  outTangent := Single.ofInt k.outTangent.toInt / 10

def toOctets (k : PackedKey) : List UInt8 :=
  [k.time, k.value, k.inTangent.toUInt8, k.outTangent.toUInt8]

def ofOctets (time value inTangent outTangent : UInt8) : PackedKey :=
  ⟨time, value, inTangent.toInt8, outTangent.toInt8⟩

end PackedKey

/-- The packed keyframes of a curve, ordered by time and otherwise as authored. -/
def Curve.pack (c : Curve) : List PackedKey :=
  (c.keyframes.mergeSort fun a b => a.time.le b.time).map PackedKey.ofKeyframe

/-- The cubic from `a` to `b` at time `t`, which is held at the ends. A segment without extent has
the value of its end. -/
def Keyframe.hermite (a b : Keyframe) (t : Float32) : Float32 :=
  let dt := b.time.value - a.time.value
  if dt ≤ 0 then b.value
  else
    let s := Single.clamp 0 1 ((t - a.time.value) / dt)
    let s2 := s * s
    let s3 := s2 * s
    let h00 := 2 * s3 - 3 * s2 + 1
    let h10 := s3 - 2 * s2 + s
    let h01 := -2 * s3 + 3 * s2
    let h11 := s3 - s2
    h00 * a.value + h10 * dt * a.outTangent + h01 * b.value + h11 * dt * b.inTangent

namespace PackedKey

/-- The value at `t` on the keys after `a`. -/
def evaluateFrom (a : Keyframe) (t : Float32) : List PackedKey → Float32
  | [] => a.value
  | k :: ks =>
    let b := k.toKeyframe
    if t ≤ b.time.value then a.hermite b t else evaluateFrom b t ks

/-- The value of a curve at `t`: held outside its keys, one key being constant and none linear. -/
def evaluate (keys : List PackedKey) (t : Float32) : Float32 :=
  match keys with
  | [] => t
  | [k] => k.toKeyframe.value
  | k :: ks =>
    let first := k.toKeyframe
    if t ≤ first.time.value then first.value else evaluateFrom first t ks

/-- The blend weight at progress `p`: `p` itself without keys. -/
def weight (keys : List PackedKey) (p : Float32) : Float32 :=
  if keys.isEmpty then p else Single.clamp 0 1 (evaluate keys p)

end PackedKey

end PoseMachine
