import PoseMachine.Blend.Plane
import PoseMachine.Choice

/-!
What a playing state samples: the weights of its clips, its length under these weights, and the
requests for poses.
-/

namespace PoseMachine

structure Sample where
  clip : UInt16
  /-- Seconds into the clip. -/
  time : Float32
  /-- Position inside the current loop of the state. -/
  position : Float32
  weight : Float32
deriving BEq

namespace Baked

open Parameter (Buffers)

/-- Lengths and speeds that are no larger than this have no effect, `1e-6`. -/
def leastDuration : Float32 := .ofBits 0x358637bd

/-- The weights of the clips of a state, for which `slots` are there. -/
def weights (b : Baked) (values : Buffers) (slots : Nat) (s : State) :
    Except Fault (List Float32) := do
  match s.kind with
  | .clip => pure [1]
  | .line =>
    let l ← fetch b.lineStates s.typeIndex.toNat
    let (_, thresholds, _) ← b.lineSlices l
    let v ← values.numeric l.parameter
    if thresholds.size ≤ slots then
      pure (Blend.lineWeights (thresholds.toList.map (·.value)) v)
    else .error .outOfBounds
  | .plane =>
    let p ← fetch b.planeStates s.typeIndex.toNat
    let entries ← p.clips.slice b.planeEntries
    let x ← values.float p.parameterX
    let y ← values.float p.parameterY
    if entries.size ≤ slots then
      pure (Blend.planeWeights p.method (entries.toList.map fun e => ⟨e.x, e.y⟩) ⟨x, y⟩)
    else .error .outOfBounds

/-- A clip of a state with the length and speed it plays at. -/
structure PlayedClip where
  clip : UInt16
  duration : Float32
  speed : Float32

/-- Index and speed of the clip `i` of a state. -/
def clipRef (b : Baked) (s : State) (i : Nat) : Except Fault (UInt16 × Float32) := do
  match s.kind with
  | .clip =>
    let c ← fetch b.clipStates s.typeIndex.toNat
    pure (c.clip, 1)
  | .line =>
    let l ← fetch b.lineStates s.typeIndex.toNat
    let clip ← fetch b.lineClips (l.clips.start.toNat + i)
    let speed ← fetch b.lineSpeeds (l.clips.start.toNat + i)
    pure (clip, speed)
  | .plane =>
    let p ← fetch b.planeStates s.typeIndex.toNat
    let e ← fetch b.planeEntries (p.clips.start.toNat + i)
    pure (e.clip, e.speed)

def clipAt (b : Baked) (s : State) (i : Nat) : Except Fault PlayedClip := do
  let (clip, speed) ← b.clipRef s i
  let c ← fetch b.clips clip.toNat
  pure ⟨clip, c.duration, speed⟩

def weighted (b : Baked) (s : State) (weights : List Float32) :
    Except Fault (List (PlayedClip × Float32)) :=
  (weights.zipIdx.filter fun (w, _) => !(w ≤ 0)).mapM fun (w, i) => do
    let c ← b.clipAt s i
    pure (c, w)

/-- The length of a clip at its speed, which counts as one if it has no effect. -/
def PlayedClip.share (c : PlayedClip) (weight : Float32) : Float32 :=
  let speed := c.speed.abs
  weight * c.duration / (if speed > leastDuration then speed else 1)

/-- The length of a state in seconds: the lengths of its clips by weight. -/
def duration (clips : List (PlayedClip × Float32)) : Float32 :=
  clips.foldl (fun d (c, w) => d + c.share w) 0

/-- The speed of a state under the current values. -/
def speed (values : Buffers) (s : State) : Except Fault Float32 :=
  match s.speedParameter with
  | none => .ok s.speed
  | some p => (values.float p).map (s.speed * ·)

/-- Moves a playing state by `dt` seconds and samples its clips at `scale` of their weights. -/
def play (b : Baked) (values : Buffers) (slots : Nat) (dt scale : Float32) (p : Playback) :
    Except Fault (Playback × List Sample) := do
  let s ← fetch b.states p.state.toNat
  let weights ← b.weights values slots s
  let speed ← speed values s
  let clips ← b.weighted s weights
  let length := duration clips
  let p := if length > leastDuration then p.step (dt * speed / length) s.looping else p
  let samples :=
    if scale ≤ 0 then []
    else clips.map fun (c, w) => ⟨c.clip, p.fraction * c.duration, p.fraction, w * scale⟩
  pure (p, samples)

end Baked

end PoseMachine
