import PoseMachine.Bake.Pack

/-!
Animators: several machines side by side over one list of parameters.
-/

namespace PoseMachine

/-- How the pose of a layer joins the poses of the layers before it. -/
inductive LayerMode where
  | override
  | additive
deriving DecidableEq, Repr

/-- A layer: a machine and how much of its pose goes where. -/
structure Layer where
  name : String
  weight : Float32 := 1
  mode : LayerMode := .override
  /-- The bones a layer moves, all of them if there is none given. -/
  mask : Option (List String) := none
  machine : Machine

/-- An animator. Its parameters count in all layers, theirs do not. -/
structure Animator where
  parameters : List Parameter := []
  layers : List Layer := []

namespace Baked

/-- A baked layer, bones and its own name given by their hashes. -/
structure Layer where
  nameHash : UInt32
  weight : Float32
  mode : LayerMode
  mask : Option (List UInt32)
  machine : Baked
deriving BEq

structure Animator where
  parameters : Parameter.Layout := {}
  layers : Array Layer := #[]
deriving BEq

end Baked

namespace Layer

/-- Bakes a layer against the parameters of its animator. -/
def bake (l : Layer) (parameters : List Parameter) (cfg : Config) : Report Baked.Layer := do
  Report.tell (if l.machine.parameters.isEmpty then [] else [.layerParameters l.name])
  let machine ← l.machine.bakeWith parameters cfg
  pure
    { nameHash := PoseMachine.nameHash l.name
      weight := l.weight
      mode := l.mode
      mask := l.mask.map (·.map PoseMachine.nameHash)
      machine }

end Layer

namespace Animator

def bake (a : Animator) (cfg : Config) : Report Baked.Animator := do
  let table ← Parameter.Table.build a.parameters
  let layers ← a.layers.mapM (·.bake a.parameters cfg)
  Report.tell [.animatorBaked layers.length]
  pure ⟨table.layout, layers.toArray⟩

end Animator

end PoseMachine
