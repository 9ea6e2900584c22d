import PoseMachine.Baked.Basic

/-!
Checking that every stored index lies inside the array it refers to.
-/

namespace PoseMachine

namespace Baked

/-- The first defect found in a baked machine. Positions count from zero. -/
inductive Defect where
  | defaultState (state : Nat)
  | typeIndex (state typeIndex : Nat)
  | stateTransitions (state : Nat)
  | stateExitGroup (state : Nat)
  | stateSub (state : Nat)
  | stateSpeed (state : Nat)
  | clipStateClip (i : Nat)
  | lineSpan (i : Nat)
  | lineParameter (i : Nat)
  | lineClip (i : Nat)
  | lineOrder (i : Nat)
  | planeSpan (i : Nat)
  | planeParameter (i : Nat)
  | planeClip (i : Nat)
  | anyTransitions
  | target (transition state : Nat)
  | transitionSpan (transition : Nat)
  | boolTest
  | intTest
  | exitSpan (group : Nat)
  | exitSub (group : Nat)
  | exitState
  | subParent (sub : Nat)
  | subEntry (sub : Nat)
deriving DecidableEq, Repr

def Defect.message : Defect → String
  | defaultState s => s!"default state {s} out of range"
  | typeIndex i t => s!"state {i}: type index {t} out of range"
  | stateTransitions i => s!"state {i}: transition range out of bounds"
  | stateExitGroup i => s!"state {i}: exit group out of range"
  | stateSub i => s!"state {i}: sub-machine out of range"
  | stateSpeed i => s!"state {i}: speed parameter out of range"
  | clipStateClip i => s!"single clip state {i}: clip out of range"
  | lineSpan i => s!"linear blend {i}: clip range out of bounds"
  | lineParameter i => s!"linear blend {i}: blend parameter out of range"
  | lineClip i => s!"linear blend {i}: clip out of range"
  | lineOrder i => s!"linear blend {i}: thresholds not sorted"
  | planeSpan i => s!"2d blend {i}: clip range out of bounds"
  | planeParameter i => s!"2d blend {i}: parameter out of range"
  | planeClip i => s!"2d blend {i}: clip out of range"
  | anyTransitions => "any-state transition range out of bounds"
  | target i t => s!"transition {i}: target {t} out of range"
  | transitionSpan i => s!"transition {i}: pool range out of bounds"
  | boolTest => "bool condition parameter out of range"
  | intTest => "int condition parameter out of range"
  | exitSpan i => s!"exit group {i}: range out of bounds"
  | exitSub i => s!"exit group {i}: sub-machine out of range"
  | exitState => "exit state index out of range"
  | subParent i => s!"sub-machine {i}: parent must precede it"
  | subEntry i => s!"sub-machine {i}: entry state out of range"

def require (c : Bool) (d : Defect) : Option Defect := if c then none else some d

def kindSize (b : Baked) : StateKind → Nat
  | .clip => b.clipStates.size
  | .line => b.lineStates.size
  | .plane => b.planeStates.size

/-- The first defect of state `i`. Sizes are compared as 32-bit numbers. -/
def stateDefect? (b : Baked) (i : Nat) (s : State) : Option Defect :=
  require (s.typeIndex.toNat < b.kindSize s.kind) (.typeIndex i s.typeIndex.toNat)
  <|> require (s.transitions.fits b.transitions.size) (.stateTransitions i)
  <|> require (s.exitGroup < Int32.ofNat b.exits.size) (.stateExitGroup i)
  <|> require (s.sub < Int32.ofNat b.subs.size) (.stateSub i)
  <|> require (s.speedParameter.all fun p => p.toNat < b.parameters.floats.size) (.stateSpeed i)

def clipStateDefect? (b : Baked) (i : Nat) (s : ClipState) : Option Defect :=
  require (s.clip.toNat < b.clips.size) (.clipStateClip i)

def hasNumeric (b : Baked) (p : Parameter.Numeric) : Bool :=
  match p.kind with
  | .int => p.index.toNat < b.parameters.ints.size
  | .float => p.index.toNat < b.parameters.floats.size
  | .bool => false

def ordered (thresholds : List Single.Pattern) : Bool :=
  (thresholds.zip thresholds.tail).all fun (a, b) => !(a.value > b.value)

def lineDefect? (b : Baked) (i : Nat) (l : LineState) : Option Defect :=
  let pool := b.lineClips.size
  require (l.clips.fits pool && b.lineThresholds.size == pool && b.lineSpeeds.size == pool)
    (.lineSpan i)
  <|> require (b.hasNumeric l.parameter) (.lineParameter i)
  <|> require ((b.lineClips.extract l.clips.start.toNat l.clips.stop).all
      fun c => c.toNat < b.clips.size) (.lineClip i)
  <|> require (ordered (b.lineThresholds.extract l.clips.start.toNat l.clips.stop).toList)
      (.lineOrder i)

def planeDefect? (b : Baked) (i : Nat) (p : PlaneState) : Option Defect :=
  let floats := b.parameters.floats.size
  require (p.clips.fits b.planeEntries.size) (.planeSpan i)
  <|> require (p.parameterX.toNat < floats && p.parameterY.toNat < floats) (.planeParameter i)
  <|> require ((b.planeEntries.extract p.clips.start.toNat p.clips.stop).all
      fun c => c.clip.toNat < b.clips.size) (.planeClip i)

def edgeDefect? (b : Baked) (i : Nat) (e : Edge) : Option Defect :=
  require (e.target.toNat < b.states.size) (.target i e.target.toNat)
  <|> require (e.boolTests.fits b.boolTests.size && e.intTests.fits b.intTests.size &&
      e.curve.fits b.keys.size) (.transitionSpan i)

def exitDefect? (b : Baked) (i : Nat) (e : Exit) : Option Defect :=
  require (e.states.fits b.exitStates.size && e.transitions.fits b.transitions.size) (.exitSpan i)
  <|> require (e.sub.toNat < b.subs.size) (.exitSub i)

/-- The first defect of nested machine `i`. Parents come before what they contain, positions being
compared as 32-bit numbers. -/
def subDefect? (b : Baked) (i : Nat) (s : Sub) : Option Defect :=
  require (s.parent < Int32.ofNat i) (.subParent i)
  <|> require (s.entry.toNat < max b.states.size 1) (.subEntry i)

def firstDefect? {α : Type} (xs : Array α) (f : Nat → α → Option Defect) : Option Defect :=
  xs.toList.zipIdx.findSome? fun (x, i) => f i x

def defect? (b : Baked) : Option Defect :=
  require (b.states.isEmpty || b.defaultState.toNat < b.states.size)
    (.defaultState b.defaultState.toNat)
  <|> firstDefect? b.states b.stateDefect?
  <|> firstDefect? b.clipStates b.clipStateDefect?
  <|> firstDefect? b.lineStates b.lineDefect?
  <|> firstDefect? b.planeStates b.planeDefect?
  <|> require (b.anyTransitions.fits b.transitions.size) .anyTransitions
  <|> firstDefect? b.transitions b.edgeDefect?
  <|> require (b.boolTests.all fun t => t.parameter.toNat < b.parameters.bools.size) .boolTest
  <|> require (b.intTests.all fun t => t.parameter.toNat < b.parameters.ints.size) .intTest
  <|> firstDefect? b.exits b.exitDefect?
  <|> require (b.exitStates.all fun s => s.toNat < b.states.size) .exitState
  <|> firstDefect? b.subs b.subDefect?

end Baked

end PoseMachine
