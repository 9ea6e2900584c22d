import PoseMachine.Graph.Basic

/-!
Why a bake fails.
-/

namespace PoseMachine

def StateId.text (id : StateId) : String := "#" ++ toString id.toNat

inductive BakeError where
  | unresolvedParameter (name : String) (kind : Parameter.Kind) (context : String)
  | kindMismatch (name : String) (expected found : Parameter.Kind)
  | duplicateParameter (name : String)
  /-- The entry of the machine at this path leads to no leaf. -/
  | unresolvedEntry (machine : String)
  | entryCycle (machine : String)
  | unresolvedTarget (target : StateId)
  | clipOverflow (count limit : Nat)
  | parameterOverflow (kind : Parameter.Kind) (count limit : Nat)
  | poolOverflow (count limit : Nat)
  | missingDefault
  | released
deriving DecidableEq, Repr

def BakeError.message : BakeError → String
  | .unresolvedParameter name kind context =>
    "unresolved " ++ kind.label ++ " parameter '" ++ name ++ "' referenced by " ++ context
  | .kindMismatch name expected found =>
    "parameter '" ++ name ++ "' is " ++ found.label ++ " but " ++ expected.label ++ " is required"
  | .duplicateParameter name => "parameter '" ++ name ++ "' is declared more than once"
  | .unresolvedEntry machine =>
    "entry state of sub-machine '" ++ machine ++ "' does not resolve to a leaf state"
  | .entryCycle machine => "entry state chain of sub-machine '" ++ machine ++ "' is cyclic"
  | .unresolvedTarget target =>
    "transition target " ++ target.text ++ " is not a state of this machine"
  | .clipOverflow count limit =>
    "clip count " ++ toString count ++ " exceeds the clip index space of " ++ toString limit
  | .parameterOverflow kind count limit =>
    toString count ++ " " ++ kind.label ++ " parameters exceed the typed index space of " ++
      toString limit
  | .poolOverflow count limit =>
    "baked pool needs " ++ toString count ++ " entries; pool offsets hold at most " ++
      toString limit
  | .missingDefault => "state machine has leaf states but no resolvable default state"
  | .released => "converter was disposed before the blob was built"

end PoseMachine
