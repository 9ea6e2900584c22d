/-!
What a bake tolerates and how much room an instance starts with.
-/

namespace PoseMachine

/-- Bake policy and size hints. -/
structure Config where
  /-- References that resolve to nothing fail the bake instead of meaning state 0. -/
  strictResolution : Bool := false
  /-- Exit states without exit transitions, or the reverse, raise a notice. -/
  warnIncompleteExitGroups : Bool := true
  /-- Size of the clip index space. -/
  maxClips : Nat := 65536
  /-- Samples an instance makes room for. -/
  scratchSamples : Nat := 16
  /-- Navigation contexts an instance makes room for. -/
  initialNavigationDepth : Nat := 4
deriving DecidableEq, Repr

def Config.strict : Config := { strictResolution := true }

/-- Clip indices have 16 bits, whatever the policy allows. -/
def Config.clipLimit (cfg : Config) : Nat := min cfg.maxClips 65536

end PoseMachine
