import PoseMachine.Single.Basic

/-!
The playback position of a state. Completed loops are counted apart from the position inside the
current loop, so that time stays exact however long a loop plays.
-/

namespace PoseMachine

/-- Where a state plays. A state that does not loop counts no loops and stops at 1. -/
structure Playback where
  state : UInt32
  loops : UInt32 := 0
  /-- Position inside the current loop. -/
  fraction : Float32 := 0
deriving BEq

namespace Playback

def loopLimit : Nat := 4294967295

/-- More loops, up to the limit. -/
def addLoops (n k : UInt32) : UInt32 := (min (n.toNat + k.toNat) loopLimit).toUInt32

/-- Fewer loops, down to none. -/
def dropLoops (n k : UInt32) : UInt32 := (n.toNat - k.toNat).toUInt32

theorem toNat_addLoops (n k : UInt32) :
    (addLoops n k).toNat = min (n.toNat + k.toNat) loopLimit := by
  simp only [addLoops, loopLimit, Nat.toUInt32_eq, UInt32.toNat_ofNat']
  omega

theorem toNat_dropLoops (n k : UInt32) : (dropLoops n k).toNat = n.toNat - k.toNat := by
  have := n.toNat_lt
  simp only [dropLoops, Nat.toUInt32_eq, UInt32.toNat_ofNat']
  omega

/-- Loops and position as one number. -/
def time (p : Playback) : Float32 := Single.ofCount p.loops + p.fraction

/-- Moves by `delta` lengths of the state, backwards if it is negative. -/
def step (p : Playback) (delta : Float32) (looping : Bool) : Playback :=
  let t := p.fraction + delta
  if looping then
    let whole := Single.floor t
    let rest := t - whole
    { p with
      fraction := if rest ≥ 1 then 0 else rest
      loops :=
        if whole ≥ 0 then addLoops p.loops whole.toUInt32
        else dropLoops p.loops (-whole).toUInt32 }
  else { p with fraction := Single.clamp 0 1 t }

/-- A state at normalized time `t`, counted over loops. -/
def start (state : UInt32) (t : Float32) (looping : Bool) : Playback :=
  ({ state } : Playback).step t looping

theorem state_step (p : Playback) (delta : Float32) (looping : Bool) :
    (p.step delta looping).state = p.state := by
  unfold step
  split <;> rfl

end Playback

end PoseMachine
