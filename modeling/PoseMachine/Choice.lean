import PoseMachine.Baked.Basic
import PoseMachine.Parameter.Buffers
import PoseMachine.Playback

/-!
Which transition a state takes: the first one open among those from any state, the state's own, and
those of its exit group.
-/

namespace PoseMachine

inductive Source where
  | anyState
  | state
  | exitGroup
deriving DecidableEq, Repr

namespace Baked

open Parameter (Buffers)

def BoolTest.holds (c : BoolTest) (values : Buffers) : Except Fault Bool :=
  (values.bool c.parameter).map (· == c.value)

def IntTest.holds (c : IntTest) (values : Buffers) : Except Fault Bool :=
  (values.int c.parameter).map (c.comparator.holds · c.value)

/-- The exit time of a transition has come and all its conditions hold. -/
def passes (b : Baked) (values : Buffers) (time : Float32) (e : Edge) : Except Fault Bool := do
  if e.hasEndTime && time < e.endTime then pure false
  else
    let boolTests ← e.boolTests.slice b.boolTests
    if ← boolTests.toList.allM (·.holds values) then
      let intTests ← e.intTests.slice b.intTests
      intTests.toList.allM (·.holds values)
    else pure false

/-- The number of the first of some numbered transitions that is allowed and passes. -/
def firstPassing (b : Baked) (values : Buffers) (time : Float32) (allowed : Edge → Bool) :
    List (Edge × Nat) → Except Fault (Option Nat)
  | [] => pure none
  | (e, i) :: es => do
    if allowed e then
      if ← b.passes values time e then pure (some i)
      else b.firstPassing values time allowed es
    else b.firstPassing values time allowed es

/-- The position of the first transition of a span that is allowed and passes, in 32 bits. -/
def chooseFrom (b : Baked) (values : Buffers) (time : Float32) (span : Span)
    (allowed : Edge → Bool) : Except Fault (Option Nat) := do
  let edges ← span.slice b.transitions
  let first ← b.firstPassing values time allowed edges.toList.zipIdx
  pure (first.map fun i => (span.position i).toNat)

def exitOf (b : Baked) (s : State) : Except Fault (Option Exit) :=
  if s.exitGroup < 0 then pure none
  else (fetch b.exits s.exitGroup.toInt.toNat).map some

/-- The transition that a playing state takes. One from any state leads back to the state itself
only if it says so. -/
def choose (b : Baked) (values : Buffers) (p : Playback) :
    Except Fault (Option (Nat × Source)) := do
  match b.states[p.state.toNat]? with
  | none => pure none
  | some s =>
    let time := p.time
    match ← b.chooseFrom values time b.anyTransitions
        fun e => e.target != p.state || e.allowSelf with
    | some i => pure (some (i, .anyState))
    | none =>
      match ← b.chooseFrom values time s.transitions fun _ => true with
      | some i => pure (some (i, .state))
      | none =>
        match ← b.exitOf s with
        | none => pure none
        | some group =>
          match ← b.chooseFrom values time group.transitions fun _ => true with
          | some i => pure (some (i, .exitGroup))
          | none => pure none

end Baked

end PoseMachine
