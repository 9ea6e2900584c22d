import PoseMachine.Json.Shape

/-!
Reading a whole text as one value of a given shape.
-/

namespace PoseMachine.Json

def mandatory (name : String) (s : Shape) : String × Presence × Shape := (name, .required, s)

def defaulted (name : String) (s : Shape) : String × Presence × Shape := (name, .defaulted, s)

def nullable (name : String) (s : Shape) : String × Presence × Shape := (name, .optional, s)

/-- A token that `read` has a value for. -/
def tokenOf {α : Type} (read : Json → Option α) : Shape := .token fun j => (read j).isSome

/-- Reads a text that is one value of a shape with nothing but blanks behind it. -/
def readText {α : Type} (shape : Shape) (read : Json → Option α) (text : String) :
    Except ReadError α := do
  let (scan, rest) := Scan.ofText text
  shape.check Shape.depthLimit scan
  if (rest.getD []).all Scan.isBlank then
    match read scan.toJson with
    | some a => pure a
    | none => .error .mismatch
  else .error .malformed

end PoseMachine.Json
