import PoseMachine.Baked.Basic
import PoseMachine.Graph.Json

/-!
Baked machines as values.
-/

namespace PoseMachine.Baked

open Json (required optional)

namespace Span

def toJson (s : Span) : Json := .object [("start", .int s.start.toNat), ("len", .int s.len.toNat)]

def ofJson? (j : Json) : Option Span := do
  match ← j.fields? ["start", "len"] with
  | [start, len] => pure ⟨← required Json.uint32? start, ← required Json.uint32? len⟩
  | _ => none

end Span

def StateKind.word : StateKind → String
  | .clip => "single_clip"
  | .line => "linear_blend"
  | .plane => "directional2_d_blend"

def StateKind.words : List (String × StateKind) :=
  [StateKind.clip, .line, .plane].map fun k => (k.word, k)

theorem StateKind.lookup_word (k : StateKind) : StateKind.words.lookup k.word = some k := by
  cases k <;> rfl

namespace State

def toJson (s : State) : Json :=
  .object
    [("state_type", .text s.kind.word), ("type_index", .int s.typeIndex.toNat),
      ("looping", .bool s.looping), ("speed", .ofSingle s.speed),
      ("speed_parameter", .ofOption (fun p => .int p.toNat) s.speedParameter),
      ("transitions", s.transitions.toJson),
      ("exit_transition_group_index", .int s.exitGroup.toInt),
      ("sub_machine_index", .int s.sub.toInt), ("name_hash", .int s.nameHash.toNat)]

def ofJson? (j : Json) : Option State := do
  match ← j.fields? ["state_type", "type_index", "looping", "speed", "speed_parameter",
      "transitions", "exit_transition_group_index", "sub_machine_index", "name_hash"] with
  | [kind, typeIndex, looping, speed, speedParameter, transitions, exitGroup, sub, nameHash] =>
    pure
      { kind := ← required (Json.word? false StateKind.words) kind
        typeIndex := ← required Json.uint32? typeIndex
        looping := ← required Json.bool? looping
        speed := ← required Json.single? speed
        speedParameter := ← optional Json.uint16? speedParameter
        transitions := ← required Span.ofJson? transitions
        exitGroup := ← required Json.int32? exitGroup
        sub := ← required Json.int32? sub
        nameHash := ← required Json.uint32? nameHash }
  | _ => none

end State

namespace ClipState

def toJson (s : ClipState) : Json := .object [("clip_index", .int s.clip.toNat)]

def ofJson? (j : Json) : Option ClipState := do
  match ← j.fields? ["clip_index"] with
  | [clip] => pure ⟨← required Json.uint16? clip⟩
  | _ => none

end ClipState

namespace LineState

def toJson (l : LineState) : Json :=
  .object [("blend_parameter", l.parameter.toJson), ("clips", l.clips.toJson)]

def ofJson? (j : Json) : Option LineState := do
  match ← j.fields? ["blend_parameter", "clips"] with
  | [parameter, clips] =>
    pure ⟨← required Parameter.Numeric.ofJson? parameter, ← required Span.ofJson? clips⟩
  | _ => none

end LineState

namespace PlaneEntry

def toJson (e : PlaneEntry) : Json :=
  .object
    [("clip_index", .int e.clip.toNat), ("position", .list [.ofSingle e.x, .ofSingle e.y]),
      ("speed", .ofSingle e.speed)]

def ofJson? (j : Json) : Option PlaneEntry := do
  match ← j.fields? ["clip_index", "position", "speed"] with
  | [clip, position, speed] =>
    let clip ← required Json.uint16? clip
    let (x, y) ← required (Json.pair? Json.single?) position
    pure { clip, x, y, speed := ← required Json.single? speed }
  | _ => none

end PlaneEntry

namespace PlaneState

def toJson (p : PlaneState) : Json :=
  .object
    [("parameter_x", .int p.parameterX.toNat), ("parameter_y", .int p.parameterY.toNat),
      ("algorithm", .text p.method.word), ("clips", p.clips.toJson)]

def ofJson? (j : Json) : Option PlaneState := do
  match ← j.fields? ["parameter_x", "parameter_y", "algorithm", "clips"] with
  | [parameterX, parameterY, method, clips] =>
    pure
      { parameterX := ← required Json.uint16? parameterX
        parameterY := ← required Json.uint16? parameterY
        method := ← required (Json.word? false PlaneMethod.words) method
        clips := ← required Span.ofJson? clips }
  | _ => none

end PlaneState

namespace BoolTest

def toJson (t : BoolTest) : Json :=
  .object [("parameter_index", .int t.parameter.toNat), ("comparison_value", .bool t.value)]

def ofJson? (j : Json) : Option BoolTest := do
  match ← j.fields? ["parameter_index", "comparison_value"] with
  | [parameter, value] => pure ⟨← required Json.uint16? parameter, ← required Json.bool? value⟩
  | _ => none

end BoolTest

namespace IntTest

def toJson (t : IntTest) : Json :=
  .object
    [("parameter_index", .int t.parameter.toNat), ("comparator", .text t.comparator.word),
      ("comparison_value", .int t.value.toInt)]

def ofJson? (j : Json) : Option IntTest := do
  match ← j.fields? ["parameter_index", "comparator", "comparison_value"] with
  | [parameter, comparator, value] =>
    pure
      { parameter := ← required Json.uint16? parameter
        comparator := ← required (Json.word? false Comparator.words) comparator
        value := ← required Json.int32? value }
  | _ => none

end IntTest

namespace Edge

def toJson (e : Edge) : Json :=
  .object
    [("to_state_index", .int e.target.toNat), ("duration", .ofSingle e.duration),
      ("has_end_time", .bool e.hasEndTime), ("end_time", .ofSingle e.endTime),
      ("offset", .ofSingle e.offset), ("bool_conditions", e.boolTests.toJson),
      ("int_conditions", e.intTests.toJson), ("curve", e.curve.toJson),
      ("can_transition_to_self", .bool e.allowSelf)]

def ofJson? (j : Json) : Option Edge := do
  match ← j.fields? ["to_state_index", "duration", "has_end_time", "end_time", "offset",
      "bool_conditions", "int_conditions", "curve", "can_transition_to_self"] with
  | [target, duration, hasEndTime, endTime, offset, boolTests, intTests, curve, allowSelf] =>
    pure
      { target := ← required Json.uint32? target
        duration := ← required Json.single? duration
        hasEndTime := ← required Json.bool? hasEndTime
        endTime := ← required Json.single? endTime
        offset := ← required Json.single? offset
        boolTests := ← required Span.ofJson? boolTests
        intTests := ← required Span.ofJson? intTests
        curve := ← required Span.ofJson? curve
        allowSelf := ← required Json.bool? allowSelf }
  | _ => none

end Edge

namespace Exit

def toJson (e : Exit) : Json :=
  .object
    [("sub_machine_index", .int e.sub.toNat), ("exit_states", e.states.toJson),
      ("transitions", e.transitions.toJson)]

def ofJson? (j : Json) : Option Exit := do
  match ← j.fields? ["sub_machine_index", "exit_states", "transitions"] with
  | [sub, states, transitions] =>
    pure
      { sub := ← required Json.uint32? sub
        states := ← required Span.ofJson? states
        transitions := ← required Span.ofJson? transitions }
  | _ => none

end Exit

namespace Sub

def toJson (s : Sub) : Json :=
  .object
    [("parent", .int s.parent.toInt), ("level", .int s.level.toNat),
      ("entry_state_index", .int s.entry.toNat), ("name_hash", .int s.nameHash.toNat)]

def ofJson? (j : Json) : Option Sub := do
  match ← j.fields? ["parent", "level", "entry_state_index", "name_hash"] with
  | [parent, level, entry, nameHash] =>
    pure
      { parent := ← required Json.int32? parent
        level := ← required Json.uint16? level
        entry := ← required Json.uint32? entry
        nameHash := ← required Json.uint32? nameHash }
  | _ => none

end Sub

namespace Clip

def toJson (c : Clip) : Json :=
  .object [("duration", .ofSingle c.duration), ("name_hash", .int c.nameHash.toNat)]

def ofJson? (j : Json) : Option Clip := do
  match ← j.fields? ["duration", "name_hash"] with
  | [duration, nameHash] =>
    pure ⟨← required Json.single? duration, ← required Json.uint32? nameHash⟩
  | _ => none

end Clip

def arrayToJson {α : Type} (write : α → Json) (xs : Array α) : Json := .ofList write xs.toList

def array? {α : Type} (read : Json → Option α) (field : Option Json) : Option (Array α) :=
  (required (Json.list? read) field).map List.toArray

def toJson (b : Baked) : Json :=
  .object
    [("name_hash", .int b.nameHash.toNat),
      ("default_state_index", .int b.defaultState.toNat),
      ("parameters", b.parameters.toJson),
      ("states", arrayToJson State.toJson b.states),
      ("single_clip_states", arrayToJson ClipState.toJson b.clipStates),
      ("linear_blend_states", arrayToJson LineState.toJson b.lineStates),
      ("linear_blend_clip_indexes", arrayToJson (fun c => .int c.toNat) b.lineClips),
      ("linear_blend_thresholds", arrayToJson .ofPattern b.lineThresholds),
      ("linear_blend_speeds", arrayToJson .ofSingle b.lineSpeeds),
      ("directional_2d_blend_states", arrayToJson PlaneState.toJson b.planeStates),
      ("directional_2d_clips", arrayToJson PlaneEntry.toJson b.planeEntries),
      ("transitions", arrayToJson Edge.toJson b.transitions),
      ("bool_conditions", arrayToJson BoolTest.toJson b.boolTests),
      ("int_conditions", arrayToJson IntTest.toJson b.intTests),
      ("curve_keyframes", arrayToJson PackedKey.toJson b.keys),
      ("any_state_transitions", b.anyTransitions.toJson),
      ("exit_transition_groups", arrayToJson Exit.toJson b.exits),
      ("exit_state_indices", arrayToJson (fun s => .int s.toNat) b.exitStates),
      ("sub_machines", arrayToJson Sub.toJson b.subs),
      ("clips", arrayToJson Clip.toJson b.clips),
      ("max_clips_per_state", .int b.maxClipsPerState.toNat)]

def fieldNames : List String :=
  ["name_hash", "default_state_index", "parameters", "states", "single_clip_states",
    "linear_blend_states", "linear_blend_clip_indexes", "linear_blend_thresholds",
    "linear_blend_speeds", "directional_2d_blend_states", "directional_2d_clips", "transitions",
    "bool_conditions", "int_conditions", "curve_keyframes", "any_state_transitions",
    "exit_transition_groups", "exit_state_indices", "sub_machines", "clips",
    "max_clips_per_state"]

def ofJson? (j : Json) : Option Baked := do
  match ← j.fields? fieldNames with
  | [nameHash, defaultState, parameters, states, clipStates, lineStates, lineClips,
      lineThresholds, lineSpeeds, planeStates, planeEntries, transitions, boolTests, intTests,
      keys, anyTransitions, exits, exitStates, subs, clips, maxClipsPerState] =>
    pure
      { nameHash := ← required Json.uint32? nameHash
        defaultState := ← required Json.uint32? defaultState
        parameters := ← required Parameter.Layout.ofJson? parameters
        states := ← array? State.ofJson? states
        clipStates := ← array? ClipState.ofJson? clipStates
        lineStates := ← array? LineState.ofJson? lineStates
        lineClips := ← array? Json.uint16? lineClips
        lineThresholds := ← array? Json.pattern? lineThresholds
        lineSpeeds := ← array? Json.single? lineSpeeds
        planeStates := ← array? PlaneState.ofJson? planeStates
        planeEntries := ← array? PlaneEntry.ofJson? planeEntries
        transitions := ← array? Edge.ofJson? transitions
        boolTests := ← array? BoolTest.ofJson? boolTests
        intTests := ← array? IntTest.ofJson? intTests
        keys := ← array? PackedKey.ofJson? keys
        anyTransitions := ← required Span.ofJson? anyTransitions
        exits := ← array? Exit.ofJson? exits
        exitStates := ← array? Json.uint32? exitStates
        subs := ← array? Sub.ofJson? subs
        clips := ← array? Clip.ofJson? clips
        maxClipsPerState := ← required Json.uint32? maxClipsPerState }
  | _ => none

end PoseMachine.Baked
