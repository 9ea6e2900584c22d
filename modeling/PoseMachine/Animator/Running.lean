import PoseMachine.Animator.Basic
import PoseMachine.Instance.Basic

/-!
A running animator: one instance for each layer, all advanced over the same values.
-/

namespace PoseMachine

open Parameter (Buffers)

/-- One instance for each layer. -/
structure RunningAnimator where
  instances : List Instance
deriving BEq

structure LayerOutput where
  index : Nat
  weight : Float32
  mode : LayerMode
  mask : Option (List UInt32)
  phase : Phase
  state : UInt32
  samples : List Sample
deriving BEq

namespace RunningAnimator

def start (a : Baked.Animator) (cfg : Config) : Except Fault RunningAnimator := do
  let instances ← a.layers.toList.mapM fun l => Instance.start l.machine cfg
  pure ⟨instances⟩

def advance (x : RunningAnimator) (a : Baked.Animator) (values : Buffers) (dt : Float32) :
    Except Fault RunningAnimator := do
  let instances ← (x.instances.zip a.layers.toList).mapM fun (y, l) => do
    let (_, y) ← y.advance l.machine values dt
    pure y
  pure ⟨instances⟩

/-- Makes layer `i` jump to a state. Without such a layer there is no result. -/
def force? (x : RunningAnimator) (a : Baked.Animator) (i : Nat) (state : UInt32) (t : Float32) :
    Except Fault (Option (Instance × RunningAnimator)) :=
  match x.instances[i]?, a.layers[i]? with
  | some y, some l => do
    let y ← y.force l.machine state t
    pure (some (y, ⟨x.instances.set i y⟩))
  | _, _ => pure none

def outputs (x : RunningAnimator) (a : Baked.Animator) : List LayerOutput :=
  (x.instances.zip a.layers.toList).zipIdx.map fun ((y, l), index) =>
    { index
      weight := l.weight
      mode := l.mode
      mask := l.mask
      phase := y.phase
      state := y.current.state
      samples := y.samples }

end RunningAnimator

end PoseMachine
