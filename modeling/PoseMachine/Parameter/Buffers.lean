import PoseMachine.Parameter.Basic
import PoseMachine.Single.Basic
import PoseMachine.Fault

/-!
Live parameter values of an instance, laid out like the slots they started from.
-/

namespace PoseMachine.Parameter

/-- Current values by kind, with the hashes of their names. -/
structure Buffers where
  bools : Array Bool
  ints : Array Int32
  floats : Array Float32
  boolHashes : Array UInt32
  intHashes : Array UInt32
  floatHashes : Array UInt32

namespace Buffers

def ofLayout (l : Layout) : Buffers where
  bools := l.bools.map (·.default)
  ints := l.ints.map (·.default)
  floats := l.floats.map (·.default)
  boolHashes := l.bools.map (·.hash)
  intHashes := l.ints.map (·.hash)
  floatHashes := l.floats.map (·.hash)

def bool (b : Buffers) (i : UInt16) : Except Fault Bool := fetch b.bools i.toNat

def int (b : Buffers) (i : UInt16) : Except Fault Int32 := fetch b.ints i.toNat

def float (b : Buffers) (i : UInt16) : Except Fault Float32 := fetch b.floats i.toNat

/-- A parameter read as a number. Every kind but Int reads a Float. -/
def numeric (b : Buffers) (p : Numeric) : Except Fault Float32 :=
  match p.kind with
  | .int => (b.int p.index).map fun n => Single.ofInt n.toInt
  | _ => b.float p.index

def put (b : Buffers) (i : UInt16) : Value → Except Fault Buffers
  | .bool v => (store b.bools i.toNat v).map fun vs => { b with bools := vs }
  | .int v => (store b.ints i.toNat v).map fun vs => { b with ints := vs }
  | .float v => (store b.floats i.toNat v).map fun vs => { b with floats := vs }

/-- The position of a hash among the parameters of one kind. -/
def position? (b : Buffers) (k : Kind) (hash : UInt32) : Option Nat :=
  match k with
  | .bool => b.boolHashes.findIdx? (· == hash)
  | .int => b.intHashes.findIdx? (· == hash)
  | .float => b.floatHashes.findIdx? (· == hash)

/-- Writes the first parameter with this hash and the kind of the value, and says whether there is
one. -/
def setByHash (b : Buffers) (hash : UInt32) (v : Value) : Bool × Buffers :=
  match b.position? v.kind hash with
  | none => (false, b)
  | some i =>
    (true,
      match v with
      | .bool v => { b with bools := b.bools.setIfInBounds i v }
      | .int v => { b with ints := b.ints.setIfInBounds i v }
      | .float v => { b with floats := b.floats.setIfInBounds i v })

def set (b : Buffers) (name : String) (v : Value) : Bool × Buffers :=
  b.setByHash (nameHash name) v

/-- The value of a parameter by name, looked for among Bools, then Ints, then Floats. -/
def get? (b : Buffers) (name : String) : Option Value :=
  let hash := nameHash name
  match b.position? .bool hash with
  | some i => b.bools[i]?.map .bool
  | none =>
    match b.position? .int hash with
    | some i => b.ints[i]?.map .int
    | none =>
      match b.position? .float hash with
      | some i => b.floats[i]?.map .float
      | none => none

end Buffers

end PoseMachine.Parameter
