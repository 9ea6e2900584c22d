import PoseMachine.Bake.Report
import Std.Data.HashMap

/-!
The table that resolves parameter names while a machine is baked.
-/

namespace PoseMachine.Parameter

/-- The slots declared so far, and where the parameter of each hash sits. -/
structure Table where
  byHash : Std.HashMap UInt32 (Kind × UInt16) := ∅
  layout : Layout := {}

namespace Table

def kindLimit : Nat := 65536

inductive Refusal where
  /-- Its hash was declared before. -/
  | duplicate (name : String)
  /-- Its kind is full. -/
  | overflow (kind : Kind) (count : Nat)

def Refusal.notice : Refusal → Notice
  | .duplicate name => .duplicateParameter name
  | .overflow kind _ => .parameterOverflow kind kindLimit

def Refusal.error : Refusal → BakeError
  | .duplicate name => .duplicateParameter name
  | .overflow kind count => .parameterOverflow kind count kindLimit

/-- Adds a declaration at the end of its kind. -/
def add (t : Table) (p : Parameter) : Except Refusal Table :=
  if t.byHash.contains p.hash then .error (.duplicate p.name)
  else
    let index := t.layout.sizeOf p.kind
    if index < kindLimit then
      .ok
        { byHash := t.byHash.insert p.hash (p.kind, index.toUInt16)
          layout := t.layout.push p.hash p.default }
    else .error (.overflow p.kind (index + 1))

def addAll (t : Table) : List Parameter → Except Refusal Table
  | [] => .ok t
  | p :: ps =>
    match t.add p with
    | .ok t => addAll t ps
    | .error r => .error r

def build (ps : List Parameter) : Report Table :=
  match addAll {} ps with
  | .ok t => pure t
  | .error r => .fail r.notice r.error

/-- The position of the parameter `name` of kind `kind` among its kind. -/
def resolve (t : Table) (name : String) (kind : Kind) (context : String) : Report UInt16 :=
  match t.byHash[nameHash name]? with
  | some (found, index) =>
    if found = kind then pure index
    else .fail (.kindMismatch name context found kind) (.kindMismatch name kind found)
  | none => .fail (.unresolvedParameter kind name context) (.unresolvedParameter name kind context)

/-- The Int or Float parameter `name`. -/
def resolveNumeric (t : Table) (name context : String) : Report Numeric :=
  match t.byHash[nameHash name]? with
  | some (.bool, _) => .fail (.boolAsNumber name context) (.kindMismatch name .float .bool)
  | some (kind, index) => pure ⟨kind, index⟩
  | none => .fail (.unresolvedNumber name context) (.unresolvedParameter name .float context)

end Table

end PoseMachine.Parameter
