import PoseMachine.Bake.Error
import PoseMachine.Single.Decimal

/-!
What a bake has to say besides its result.
-/

namespace PoseMachine

inductive Level where
  | error
  | warn
  | debug
deriving DecidableEq, Repr

/-- Something a bake reports on its way. Machines and states are named by their paths. -/
inductive Notice where
  | duplicateParameter (name : String)
  | parameterOverflow (kind : Parameter.Kind) (limit : Nat)
  | kindMismatch (name context : String) (found expected : Parameter.Kind)
  | unresolvedParameter (kind : Parameter.Kind) (name context : String)
  | boolAsNumber (name context : String)
  | unresolvedNumber (name context : String)
  | containerTransitions (path : String)
  | missingMachine (path : String)
  | nestedDeclarations (path : String)
  /-- The state at this path takes over the number of an earlier one. -/
  | reusedId (id : StateId) (path : String)
  | clipOverflow (machine : String) (count limit : Nat)
  /-- Strict resolution fails with this error. -/
  | refused (error : BakeError)
  /-- Lenient resolution takes state 0 instead. -/
  | fellBack (error : BakeError)
  | exitStatesOnly (path : String)
  | exitTransitionsOnly (path : String)
  | exitStateOutside (id : StateId) (path : String)
  | exitStateNotLeaf (id : StateId) (path : String)
  | noExitStates (path : String)
  /-- The leaf at this path keeps the exit group that claimed it first. -/
  | exitClaimedAgain (path : String) (group : Nat)
  | flattened (machine : String) (leaves machines clips groups : Nat)
  | badDuration (clip path : String) (duration : Float32)
  | noClips (path : String)
  | anyTransitionsDropped (machine : String) (count : Nat)
  | poolOverflow (count : Nat)
  | packed (nameHash : UInt32) (states transitions clips : Nat)
  | layerParameters (layer : String)
  | animatorBaked (layers : Nat)

namespace Notice

def level : Notice → Level
  | duplicateParameter .. | parameterOverflow .. | kindMismatch .. | unresolvedParameter ..
  | boolAsNumber .. | unresolvedNumber .. | clipOverflow .. | refused .. | poolOverflow .. => .error
  | flattened .. | packed .. | animatorBaked .. => .debug
  | _ => .warn

def hashText (h : UInt32) : String :=
  let digits := Nat.toDigits 16 h.toNat
  "0x" ++ String.ofList (List.replicate (8 - digits.length) '0' ++ digits)

def message : Notice → String
  | duplicateParameter name => "parameter '" ++ name ++ "' is declared more than once"
  | parameterOverflow kind limit =>
    "more than " ++ toString limit ++ " " ++ kind.label ++ " parameters declared"
  | kindMismatch name context found expected =>
    "parameter '" ++ name ++ "' used by " ++ context ++ " is " ++ found.label ++ ", expected " ++
      expected.label
  | unresolvedParameter kind name context =>
    "unresolved " ++ kind.label ++ " parameter '" ++ name ++ "' referenced by " ++ context
  | boolAsNumber name context =>
    "parameter '" ++ name ++ "' used by " ++ context ++ " is Bool, expected a number"
  | unresolvedNumber name context =>
    "unresolved numeric parameter '" ++ name ++ "' referenced by " ++ context
  | containerTransitions path =>
    "sub-machine '" ++ path ++
      "' declares out transitions; they are ignored (use exit transitions)"
  | missingMachine path => "sub-machine '" ++ path ++ "' has no nested state machine; skipping it"
  | nestedDeclarations path =>
    "sub-machine '" ++ path ++
      "' declares parameters or any-state transitions; only the root machine's are baked"
  | reusedId id path =>
    "state id " ++ id.text ++ " is used more than once; '" ++ path ++ "' shadows the earlier state"
  | clipOverflow machine count limit =>
    "state machine '" ++ machine ++ "' needs " ++ toString count ++
      " clips; the clip index space holds " ++ toString limit
  | refused error => error.message
  | fellBack error => error.message ++ "; falling back to state index 0"
  | exitStatesOnly path =>
    "sub-machine '" ++ path ++
      "' declares exit states but no exit transitions; no exit group is created"
  | exitTransitionsOnly path =>
    "sub-machine '" ++ path ++
      "' declares exit transitions but no exit states; no exit group is created"
  | exitStateOutside id path =>
    "exit state " ++ id.text ++ " of sub-machine '" ++ path ++ "' is not inside it; dropping it"
  | exitStateNotLeaf id path =>
    "exit state " ++ id.text ++ " of sub-machine '" ++ path ++ "' is not a leaf state; dropping it"
  | noExitStates path =>
    "sub-machine '" ++ path ++ "' has no resolvable exit states; no exit group is created"
  | exitClaimedAgain path group =>
    "state '" ++ path ++ "' is an exit state of more than one sub-machine; keeping exit group " ++
      toString group
  | flattened machine leaves machines clips groups =>
    "flattened '" ++ machine ++ "': " ++ toString leaves ++ " leaves, " ++ toString machines ++
      " sub-machines, " ++ toString clips ++ " clips, " ++ toString groups ++ " exit groups"
  | badDuration clip path duration =>
    "clip '" ++ clip ++ "' in state '" ++ path ++ "' has non-positive duration " ++
      Single.text duration
  | noClips path => "state '" ++ path ++ "' has no clips and samples nothing"
  | anyTransitionsDropped machine count =>
    "state machine '" ++ machine ++ "' has no states; dropping " ++ toString count ++
      " any-state transition(s)"
  | poolOverflow count => "baked pool would hold " ++ toString count ++ " entries"
  | packed nameHash states transitions clips =>
    "built blob " ++ hashText nameHash ++ ": " ++ toString states ++ " states, " ++
      toString transitions ++ " transitions, " ++ toString clips ++ " clips"
  | layerParameters layer =>
    "layer '" ++ layer ++
      "' declares its own parameters; the animator's parameters are used instead"
  | animatorBaked layers => "baked animator with " ++ toString layers ++ " layers"

end Notice

end PoseMachine
