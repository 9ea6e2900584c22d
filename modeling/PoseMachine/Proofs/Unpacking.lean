import PoseMachine.Proofs.Tiling

/-!
Reading a baked machine back into the draft it was packed from.
-/

namespace PoseMachine

namespace Baked

def unpackEdge (b : Baked) (e : Edge) : Except Fault Draft.Edge := do
  let boolTests ← e.boolTests.slice b.boolTests
  let intTests ← e.intTests.slice b.intTests
  let curve ← e.curve.slice b.keys
  pure
    { target := e.target
      duration := e.duration
      hasEndTime := e.hasEndTime
      endTime := e.endTime
      offset := e.offset
      allowSelf := e.allowSelf
      boolTests := boolTests.toList
      intTests := intTests.toList
      curve := curve.toList }

def unpackEdges (b : Baked) (s : Span) : Except Fault (List Draft.Edge) := do
  let edges ← s.slice b.transitions
  edges.toList.mapM b.unpackEdge

/-- Joins the clips, thresholds and speeds of a blend entry by entry. -/
def joinEntries : List UInt16 → List Single.Pattern → List Float32 → List Draft.LineEntry
  | clip :: clips, threshold :: thresholds, speed :: speeds =>
    ⟨clip, threshold, speed⟩ :: joinEntries clips thresholds speeds
  | _, _, _ => []

/-- What a state plays, from the entry of the state in the array of its kind. -/
def unpackMotion (b : Baked) (s : State) : Except Fault Draft.Motion :=
  match s.kind with
  | .clip => do
    let c ← fetch b.clipStates s.typeIndex.toNat
    pure (.clip c.clip)
  | .line => do
    let l ← fetch b.lineStates s.typeIndex.toNat
    let (clips, thresholds, speeds) ← b.lineSlices l
    pure (.line l.parameter (joinEntries clips.toList thresholds.toList speeds.toList))
  | .plane => do
    let p ← fetch b.planeStates s.typeIndex.toNat
    let entries ← p.clips.slice b.planeEntries
    pure (.plane p.parameterX p.parameterY p.method entries.toList)

def unpackState (b : Baked) (s : State) : Except Fault Draft.State := do
  let motion ← b.unpackMotion s
  let transitions ← b.unpackEdges s.transitions
  pure
    { motion
      looping := s.looping
      speed := s.speed
      speedParameter := s.speedParameter
      transitions
      exitGroup := s.exitGroup
      sub := s.sub
      nameHash := s.nameHash }

def unpackExit (b : Baked) (e : Exit) : Except Fault Draft.Exit := do
  let states ← e.states.slice b.exitStates
  let transitions ← b.unpackEdges e.transitions
  pure ⟨e.sub, states.toList, transitions⟩

/-- The draft of a baked machine, read through its spans and the indices of its states. -/
def unpack (b : Baked) : Except Fault Draft := do
  let states ← b.states.toList.mapM b.unpackState
  let anyTransitions ← b.unpackEdges b.anyTransitions
  let exits ← b.exits.toList.mapM b.unpackExit
  pure
    { nameHash := b.nameHash
      defaultState := b.defaultState
      parameters := b.parameters
      states
      anyTransitions
      exits
      subs := b.subs.toList
      clips := b.clips.toList }

section Holds

variable {b : Baked}

theorem HoldsEdge.unpackEdge {e : Draft.Edge} {x : Edge} (h : b.HoldsEdge e x) :
    b.unpackEdge x = .ok e := by
  rw [Baked.unpackEdge, h.boolTests, h.intTests, h.curve, h.target, h.duration, h.hasEndTime,
    h.endTime, h.offset, h.allowSelf]
  rfl

theorem HoldsEdges.unpackEdges {es : List Draft.Edge} {s : Span} (h : b.HoldsEdges es s) :
    b.unpackEdges s = .ok es := by
  obtain ⟨xs, hxs, hes⟩ := h
  rw [Baked.unpackEdges, hxs, ok_bind, mapM_eq_ok_iff]
  exact hes.flip.imp fun _ _ => HoldsEdge.unpackEdge

theorem joinEntries_map (es : List Draft.LineEntry) :
    joinEntries (es.map (·.clip)) (es.map (·.threshold)) (es.map (·.speed)) = es := by
  induction es with
  | nil => rfl
  | cons e es ih => exact congrArg (e :: ·) ih

theorem HoldsMotion.unpackMotion {m : Draft.Motion} {s : State}
    (h : b.HoldsMotion m s.kind s.typeIndex.toNat) : b.unpackMotion s = .ok m := by
  generalize hk : s.kind = k at h
  generalize hi : s.typeIndex.toNat = i at h
  simp only [Baked.unpackMotion, hk, hi]
  cases h with
  | clip h =>
      rw [fetch_eq_ok_iff.mpr h]
      rfl
  | @line p es _ l h hl =>
      simp only [fetch_eq_ok_iff.mpr h, lineSlices, hl.clips, hl.thresholds, hl.speeds,
        hl.parameter, ok_bind, pure, Except.pure, joinEntries_map]
  | plane h hp =>
      rw [fetch_eq_ok_iff.mpr h, ok_bind, hp.clips, hp.parameterX, hp.parameterY, hp.method]
      rfl

theorem HoldsState.unpackState {d : Draft.State} {s : State} (h : b.HoldsState d s) :
    b.unpackState s = .ok d := by
  rw [Baked.unpackState, h.motion.unpackMotion, h.transitions.unpackEdges, h.looping, h.speed,
    h.speedParameter, h.exitGroup, h.sub, h.nameHash]
  rfl

theorem HoldsExit.unpackExit {d : Draft.Exit} {x : Exit} (h : b.HoldsExit d x) :
    b.unpackExit x = .ok d := by
  rw [Baked.unpackExit, h.states, h.transitions.unpackEdges, h.sub]
  rfl

theorem HoldsDraft.unpack {d : Draft} (h : b.HoldsDraft d) : b.unpack = .ok d := by
  have hstates : b.states.toList.mapM b.unpackState = .ok d.states :=
    mapM_eq_ok_iff.mpr (h.packed.states.flip.imp fun _ _ => HoldsState.unpackState)
  have hexits : b.exits.toList.mapM b.unpackExit = .ok d.exits :=
    mapM_eq_ok_iff.mpr (h.packed.exits.flip.imp fun _ _ => HoldsExit.unpackExit)
  rw [Baked.unpack, hstates, h.anyTransitions.unpackEdges, hexits, h.nameHash, h.defaultState,
    h.parameters, h.subs, h.clips]
  rfl

end Holds

end Baked

namespace Draft

variable {d : Draft} {b : Baked}

/-- Packing loses nothing: the draft is read back from the baked machine, every list in order and
whole, and every entry of a pool belongs to one list of the draft. -/
theorem unpack_pack (hlt : d.states.length < 0x80000000) (h : d.pack.outcome = .ok b) :
    b.unpack = .ok d ∧ b.Tiled :=
  have hlt' : d.states.length < 4294967296 := Nat.lt_trans hlt (by decide)
  ⟨(Baked.holdsDraft_of_pack hlt' h).unpack, Baked.tiled_of_pack hlt' h⟩

/-- Two states that blend, one that plays a clip, and a transition of each sort. -/
def blending : Draft where
  nameHash := 1
  defaultState := 0
  parameters := {}
  states :=
    [{ motion := .line ⟨.float, 0⟩ [⟨0, ⟨0⟩, 1⟩, ⟨1, ⟨0x3f800000⟩, 2⟩]
       looping := true
       speed := 1
       speedParameter := some 0
       transitions :=
         [⟨1, 0.5, true, 0.25, 0, false, [⟨0, true⟩], [⟨0, .greater, 3⟩], [⟨0, 0, 127, 127⟩]⟩]
       exitGroup := -1
       sub := -1
       nameHash := 2 },
     { motion := .plane 0 1 .freeformCartesian [⟨2, 0, 1, 1⟩]
       looping := false
       speed := 2
       speedParameter := none
       transitions := []
       exitGroup := -1
       sub := -1
       nameHash := 3 },
     { motion := .clip 3
       looping := false
       speed := 1
       speedParameter := none
       transitions := [⟨0, 0, false, 0, 0, false, [⟨1, false⟩], [], []⟩]
       exitGroup := 0
       sub := 0
       nameHash := 4 }]
  anyTransitions := [⟨2, 0, false, 0, 0, true, [], [⟨1, .less, -3⟩], []⟩]
  exits := [⟨0, [2], [⟨1, 0, false, 0, 0, false, [⟨2, true⟩], [], []⟩]⟩]
  subs := [⟨-1, 1, 2, 5⟩]
  clips := [⟨1, 6⟩, ⟨2, 7⟩, ⟨1, 8⟩, ⟨3, 9⟩]

theorem unpack_pack_blending : ∃ b, blending.pack.outcome = .ok b ∧ b.unpack = .ok blending ∧
    b.Tiled :=
  have hb : ∃ b, blending.pack.outcome = .ok b := ⟨_, rfl⟩
  hb.elim fun b hb => ⟨b, hb, unpack_pack (by decide) hb⟩

end Draft

end PoseMachine
