/-!
Faults of a running instance. A baked machine is trusted, so an index outside its array ends a run.
-/

namespace PoseMachine

inductive Fault where
  /-- An index or a range lies outside its array. -/
  | outOfBounds
  /-- A chain of parents never ends. -/
  | endless
  /-- A size hint asks for more than can be addressed. -/
  | oversized
deriving DecidableEq, Repr

def fetch {α : Type} (xs : Array α) (i : Nat) : Except Fault α :=
  match xs[i]? with
  | some x => .ok x
  | none => .error .outOfBounds

def store {α : Type} (xs : Array α) (i : Nat) (x : α) : Except Fault (Array α) :=
  if i < xs.size then .ok (xs.setIfInBounds i x) else .error .outOfBounds

/-- A block of so many octets can be addressed. -/
def checkRoom (octets : Nat) : Except Fault Unit :=
  if octets < 0x8000000000000000 then .ok () else .error .oversized

theorem fetch_eq_ok_iff {α : Type} {xs : Array α} {i : Nat} {x : α} :
    fetch xs i = .ok x ↔ xs[i]? = some x := by
  unfold fetch
  split <;> simp_all

end PoseMachine
