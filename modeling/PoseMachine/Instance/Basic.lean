import PoseMachine.Config
import PoseMachine.Instance.Sampling
import PoseMachine.Navigation

/-!
A running instance of a baked machine. Each tick takes at most one transition, moves the blend, and
plays the current state and, while blending, the one it came from.
-/

namespace PoseMachine

open Parameter (Buffers)

/-- A blend on its way. -/
structure ActiveTransition where
  origin : Playback
  /-- Position in `Baked.transitions`, in 32 bits. -/
  index : Nat
  source : Source
  elapsed : Float32
  duration : Float32
deriving BEq

/-- An instance plays one state, or blends from one to the next. -/
inductive Phase where
  | steady
  | transitioning
deriving DecidableEq, Repr

structure Instance where
  /-- The target while blending. -/
  current : Playback
  transition : Option ActiveTransition := none
  /-- Weight of the current state. -/
  blendWeight : Float32 := 1
  navigation : Navigation
  samples : List Sample := []
  /-- The number of clips that a state may weigh. -/
  slots : Nat
deriving BEq

structure Tick where
  phase : Phase
  state : UInt32
  blendWeight : Float32
  /-- The source of a transition taken in this tick. -/
  started : Option Source
  samples : List Sample
deriving BEq

namespace Instance

def phase (x : Instance) : Phase :=
  if x.transition.isSome then .transitioning else .steady

/-- Starts in the default state. A sample takes 16 octets of the room asked for. -/
def start (b : Baked) (cfg : Config) : Except Fault Instance := do
  let navigation ← Navigation.withRoom cfg.initialNavigationDepth
  let slots := max b.maxClipsPerState.toNat 1
  checkRoom (16 * max cfg.scratchSamples (2 * slots))
  let navigation ← navigation.sync b b.defaultState.toNat
  pure { current := .start b.defaultState 0 false, navigation, slots }

/-- Moves to a state at normalized time `t`, without a blend. -/
def enter (x : Instance) (b : Baked) (state : UInt32) (t : Float32) (s : Baked.State) :
    Except Fault Instance := do
  let navigation ← x.navigation.sync b state.toNat
  pure
    { x with
      current := .start state t s.looping
      transition := none
      blendWeight := 1
      navigation }

/-- Jumps to a state at normalized time `t`. A state that does not exist changes nothing. -/
def force (x : Instance) (b : Baked) (state : UInt32) (t : Float32) : Except Fault Instance :=
  match b.states[state.toNat]? with
  | none => pure x
  | some s => x.enter b state t s

/-- Takes the transition `index`. One whose target does not exist is not taken. -/
def take? (x : Instance) (b : Baked) (index : Nat) (source : Source) :
    Except Fault (Option Instance) := do
  let e ← fetch b.transitions index
  match b.states[e.target.toNat]? with
  | none => pure none
  | some s =>
    let y ← x.enter b e.target e.offset s
    if e.duration > 0 then
      let active : ActiveTransition :=
        { origin := x.current, index, source, elapsed := 0, duration := e.duration }
      pure (some { y with transition := some active, blendWeight := 0 })
    else pure (some y)

/-- Takes a transition if the instance is steady and one is open. -/
def transit (x : Instance) (b : Baked) (values : Buffers) :
    Except Fault (Instance × Option Source) := do
  if x.transition.isSome then pure (x, none)
  else
    match ← b.choose values x.current with
    | none => pure (x, none)
    | some (index, source) =>
      match ← x.take? b index source with
      | none => pure (x, none)
      | some y => pure (y, some source)

/-- Moves the blend by `dt` seconds. It ends when its duration is over. -/
def blend (x : Instance) (b : Baked) (dt : Float32) : Except Fault Instance := do
  match x.transition with
  | none => pure x
  | some active =>
    let active := { active with elapsed := active.elapsed + dt }
    let progress := active.elapsed / active.duration
    if progress ≥ 1 then pure { x with transition := none, blendWeight := 1 }
    else
      let e ← fetch b.transitions active.index
      let keys ← e.curve.slice b.keys
      pure
        { x with
          transition := some active
          blendWeight := PackedKey.weight keys.toList progress }

/-- Plays the states of an instance for `dt` seconds, the one it came from first. -/
def sample (x : Instance) (b : Baked) (values : Buffers) (dt : Float32) :
    Except Fault Instance := do
  let (transition, faded) ← match x.transition with
    | none => pure (none, [])
    | some active => do
      let (origin, samples) ← b.play values x.slots dt (1 - x.blendWeight) active.origin
      pure (some { active with origin }, samples)
  let (current, samples) ← b.play values x.slots dt x.blendWeight x.current
  pure { x with transition, current, samples := faded ++ samples }

/-- Advances by `dt` seconds. A machine without states does nothing. -/
def advance (x : Instance) (b : Baked) (values : Buffers) (dt : Float32) :
    Except Fault (Tick × Instance) := do
  if b.states.isEmpty then
    pure (⟨.steady, 0, 1, none, []⟩, { x with samples := [] })
  else
    let (x, started) ← x.transit b values
    let x ← x.blend b dt
    let x ← x.sample b values dt
    pure (⟨x.phase, x.current.state, x.blendWeight, started, x.samples⟩, x)

end Instance

end PoseMachine
