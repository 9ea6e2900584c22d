import PoseMachine.Bake.Draft

/-!
Packing a draft: every nested list is copied once to the end of its pool.
-/

namespace PoseMachine

namespace Baked

def addEdge (b : Baked) (e : Draft.Edge) : Report Baked := do
  let boolTests ← Span.make b.boolTests.size e.boolTests.length
  let intTests ← Span.make b.intTests.size e.intTests.length
  let curve ← Span.make b.keys.size e.curve.length
  let edge : Edge :=
    { target := e.target
      duration := e.duration
      hasEndTime := e.hasEndTime
      endTime := e.endTime
      offset := e.offset
      boolTests
      intTests
      curve
      allowSelf := e.allowSelf }
  pure
    { b with
      boolTests := b.boolTests ++ e.boolTests
      intTests := b.intTests ++ e.intTests
      keys := b.keys ++ e.curve
      transitions := b.transitions.push edge }

/-- Adds transitions, which make up the span returned. -/
def addEdges (b : Baked) (es : List Draft.Edge) : Report (Baked × Span) := do
  let span ← Span.make b.transitions.size es.length
  let b ← es.foldlM addEdge b
  pure (b, span)

/-- Adds what a state plays to the array of its kind, at the index returned. -/
def addMotion (b : Baked) : Draft.Motion → Report (Baked × StateKind × Nat)
  | .clip clip =>
    pure ({ b with clipStates := b.clipStates.push ⟨clip⟩ }, .clip, b.clipStates.size)
  | .line parameter clips => do
    let span ← Span.make b.lineClips.size clips.length
    pure
      ({ b with
          lineClips := b.lineClips ++ clips.map (·.clip)
          lineThresholds := b.lineThresholds ++ clips.map (·.threshold)
          lineSpeeds := b.lineSpeeds ++ clips.map (·.speed)
          lineStates := b.lineStates.push ⟨parameter, span⟩ },
        .line, b.lineStates.size)
  | .plane parameterX parameterY method clips => do
    let span ← Span.make b.planeEntries.size clips.length
    pure
      ({ b with
          planeEntries := b.planeEntries ++ clips
          planeStates := b.planeStates.push ⟨parameterX, parameterY, method, span⟩ },
        .plane, b.planeStates.size)

def addState (b : Baked) (s : Draft.State) : Report Baked := do
  let (b, kind, typeIndex) ← b.addMotion s.motion
  let b :=
    { b with maxClipsPerState := max b.maxClipsPerState s.motion.clipCount.toUInt32 }
  let (b, transitions) ← b.addEdges s.transitions
  let state : State :=
    { kind
      typeIndex := typeIndex.toUInt32
      looping := s.looping
      speed := s.speed
      speedParameter := s.speedParameter
      transitions
      exitGroup := s.exitGroup
      sub := s.sub
      nameHash := s.nameHash }
  pure { b with states := b.states.push state }

def addExit (b : Baked) (e : Draft.Exit) : Report Baked := do
  let states ← Span.make b.exitStates.size e.states.length
  let (b, transitions) ← { b with exitStates := b.exitStates ++ e.states }.addEdges e.transitions
  pure { b with exits := b.exits.push ⟨e.sub, states, transitions⟩ }

end Baked

namespace Draft

/-- The baked machine of a draft. Its transitions are those of states, then those from any state,
then those of exit groups. -/
def pack (d : Draft) : Report Baked := do
  let b : Baked :=
    { nameHash := d.nameHash
      defaultState := d.defaultState
      parameters := d.parameters
      clips := d.clips.toArray
      subs := d.subs.toArray }
  let b ← d.states.foldlM Baked.addState b
  let (b, anyTransitions) ← b.addEdges d.anyTransitions
  let b ← d.exits.foldlM Baked.addExit { b with anyTransitions }
  Report.tell [.packed b.nameHash b.states.size b.transitions.size b.clips.size]
  pure b

end Draft

/-- A draft that can be released. -/
structure DraftHolder where
  draft : Option Draft

namespace DraftHolder

def holds (h : DraftHolder) : Bool := h.draft.isSome

/-- The states of the draft, none once released. -/
def states (h : DraftHolder) : List Draft.State := (h.draft.map (·.states)).getD []

def exits (h : DraftHolder) : List Draft.Exit := (h.draft.map (·.exits)).getD []

def release (_ : DraftHolder) : DraftHolder := ⟨none⟩

def pack (h : DraftHolder) : Report Baked :=
  match h.draft with
  | some d => d.pack
  | none => ⟨[], .error .released⟩

end DraftHolder

namespace Machine

def bakeWith (m : Machine) (parameters : List Parameter) (cfg : Config) : Report Baked := do
  let table ← Parameter.Table.build parameters
  let flat ← Flat.ofMachine m cfg
  let draft ← Draft.ofFlat flat table
  draft.pack

/-- Bakes a machine against its own parameters. -/
def bake (m : Machine) (cfg : Config) : Report Baked := m.bakeWith m.parameters cfg

end Machine

end PoseMachine
