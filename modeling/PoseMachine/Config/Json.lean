import PoseMachine.Config
import PoseMachine.Json.Basic

/-!
Configurations as values. Every field may be left out.
-/

namespace PoseMachine.Config

open Json (orElse)

def toJson (c : Config) : Json :=
  .object
    [("strict_resolution", .bool c.strictResolution),
      ("warn_incomplete_exit_groups", .bool c.warnIncompleteExitGroups),
      ("max_clips", .int c.maxClips),
      ("scratch_samples", .int c.scratchSamples),
      ("initial_navigation_depth", .int c.initialNavigationDepth)]

def ofJson? (j : Json) : Option Config := do
  let base : Config := {}
  match ← j.fields? ["strict_resolution", "warn_incomplete_exit_groups", "max_clips",
      "scratch_samples", "initial_navigation_depth"] with
  | [strictResolution, warn, maxClips, scratchSamples, depth] =>
    pure
      { strictResolution := ← orElse base.strictResolution Json.bool? strictResolution
        warnIncompleteExitGroups := ← orElse base.warnIncompleteExitGroups Json.bool? warn
        maxClips := ← orElse base.maxClips Json.count? maxClips
        scratchSamples := ← orElse base.scratchSamples Json.count? scratchSamples
        initialNavigationDepth := ← orElse base.initialNavigationDepth Json.count? depth }
  | _ => none

end PoseMachine.Config
