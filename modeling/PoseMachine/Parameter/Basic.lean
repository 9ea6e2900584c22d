import PoseMachine.NameHash

/-!
Typed parameters: what conditions and blends are written against.
-/

namespace PoseMachine

namespace Parameter

inductive Kind where
  | bool
  | int
  | float
deriving DecidableEq, Repr

def Kind.label : Kind → String
  | .bool => "Bool"
  | .int => "Int"
  | .float => "Float"

inductive Value where
  | bool (b : Bool)
  | int (n : Int32)
  | float (x : Float32)
deriving BEq

def Value.kind : Value → Kind
  | .bool _ => .bool
  | .int _ => .int
  | .float _ => .float

end Parameter

/-- A declared parameter. Its default value fixes its kind. -/
structure Parameter where
  name : String
  default : Parameter.Value
deriving BEq

namespace Parameter

def kind (p : Parameter) : Kind := p.default.kind

def hash (p : Parameter) : UInt32 := nameHash p.name

/-- One slot of a layout: the hash of the name and the default value. -/
structure Slot (α : Type) where
  hash : UInt32
  default : α
deriving BEq

/-- Parameters by kind, each kind in declaration order. -/
structure Layout where
  bools : Array (Slot Bool) := #[]
  ints : Array (Slot Int32) := #[]
  floats : Array (Slot Float32) := #[]
deriving BEq

namespace Layout

def size (l : Layout) : Nat := l.bools.size + l.ints.size + l.floats.size

def isEmpty (l : Layout) : Bool := l.size == 0

def sizeOf (l : Layout) : Kind → Nat
  | .bool => l.bools.size
  | .int => l.ints.size
  | .float => l.floats.size

/-- A further slot at the end of its kind. -/
def push (l : Layout) (hash : UInt32) : Value → Layout
  | .bool b => { l with bools := l.bools.push ⟨hash, b⟩ }
  | .int n => { l with ints := l.ints.push ⟨hash, n⟩ }
  | .float x => { l with floats := l.floats.push ⟨hash, x⟩ }

theorem sizeOf_push (l : Layout) (hash : UInt32) (v : Value) (k : Kind) :
    (l.push hash v).sizeOf k = l.sizeOf k + if v.kind = k then 1 else 0 := by
  cases v <;> cases k <;> simp [push, sizeOf, Value.kind]

end Layout

/-- A parameter read as a number, by kind and position among its kind. -/
structure Numeric where
  kind : Kind
  index : UInt16
deriving DecidableEq, Repr

end Parameter

end PoseMachine
