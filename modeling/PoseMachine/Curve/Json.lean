import PoseMachine.Curve
import PoseMachine.Json.Basic

/-!
Curves, authored and packed, as values.
-/

namespace PoseMachine

open Json (required orElse)

namespace Keyframe

def toJson (k : Keyframe) : Json :=
  .object
    [("time", .ofPattern k.time), ("value", .ofSingle k.value),
      ("in_tangent", .ofSingle k.inTangent), ("out_tangent", .ofSingle k.outTangent)]

def ofJson? (j : Json) : Option Keyframe := do
  match ← j.fields? ["time", "value", "in_tangent", "out_tangent"] with
  | [time, value, inTangent, outTangent] =>
    pure
      { time := ← required Json.pattern? time
        value := ← required Json.single? value
        inTangent := ← orElse 0 Json.single? inTangent
        outTangent := ← orElse 0 Json.single? outTangent }
  | _ => none

end Keyframe

namespace Curve

def toJson (c : Curve) : Json := .object [("keyframes", .ofList Keyframe.toJson c.keyframes)]

def ofJson? (j : Json) : Option Curve := do
  match ← j.fields? ["keyframes"] with
  | [keyframes] => pure ⟨← required (Json.list? Keyframe.ofJson?) keyframes⟩
  | _ => none

end Curve

namespace PackedKey

def toJson (k : PackedKey) : Json :=
  .object
    [("time", .int k.time.toNat), ("value", .int k.value.toNat),
      ("in_tangent", .int k.inTangent.toInt), ("out_tangent", .int k.outTangent.toInt)]

def ofJson? (j : Json) : Option PackedKey := do
  match ← j.fields? ["time", "value", "in_tangent", "out_tangent"] with
  | [time, value, inTangent, outTangent] =>
    pure
      { time := ← required Json.uint8? time
        value := ← required Json.uint8? value
        inTangent := ← required Json.int8? inTangent
        outTangent := ← required Json.int8? outTangent }
  | _ => none

end PackedKey

end PoseMachine
