import PoseMachine.Baked.Validity

/-!
What it means that no defect is found: every stored index lies inside the array it refers to.
-/

namespace PoseMachine.Baked

structure ValidState (b : Baked) (s : State) : Prop where
  typeIndex : s.typeIndex.toNat < b.kindSize s.kind
  transitions : s.transitions.stop ≤ b.transitions.size
  exitGroup : s.exitGroup < Int32.ofNat b.exits.size
  sub : s.sub < Int32.ofNat b.subs.size
  speedParameter : ∀ p ∈ s.speedParameter, p.toNat < b.parameters.floats.size

/-- Every index of a blend along one parameter is in range, and its thresholds are in order. -/
structure ValidLine (b : Baked) (l : LineState) : Prop where
  clips : l.clips.stop ≤ b.lineClips.size
  thresholds : b.lineThresholds.size = b.lineClips.size
  speeds : b.lineSpeeds.size = b.lineClips.size
  parameter : b.hasNumeric l.parameter = true
  clip : ∀ c ∈ b.lineClips.extract l.clips.start.toNat l.clips.stop, c.toNat < b.clips.size
  ordered : ordered (b.lineThresholds.extract l.clips.start.toNat l.clips.stop).toList = true

structure ValidPlane (b : Baked) (p : PlaneState) : Prop where
  clips : p.clips.stop ≤ b.planeEntries.size
  parameterX : p.parameterX.toNat < b.parameters.floats.size
  parameterY : p.parameterY.toNat < b.parameters.floats.size
  clip : ∀ e ∈ b.planeEntries.extract p.clips.start.toNat p.clips.stop,
    e.clip.toNat < b.clips.size

structure ValidEdge (b : Baked) (e : Edge) : Prop where
  target : e.target.toNat < b.states.size
  boolTests : e.boolTests.stop ≤ b.boolTests.size
  intTests : e.intTests.stop ≤ b.intTests.size
  curve : e.curve.stop ≤ b.keys.size

structure ValidExit (b : Baked) (e : Exit) : Prop where
  states : e.states.stop ≤ b.exitStates.size
  transitions : e.transitions.stop ≤ b.transitions.size
  sub : e.sub.toNat < b.subs.size

/-- Every index of the nested machine `i` is in range, and its parent comes before it. -/
structure ValidSub (b : Baked) (i : Nat) (s : Sub) : Prop where
  parent : s.parent < Int32.ofNat i
  entry : s.entry.toNat < max b.states.size 1

/-- Every stored index is in range. -/
structure Valid (b : Baked) : Prop where
  defaultState : b.states = #[] ∨ b.defaultState.toNat < b.states.size
  states : ∀ s ∈ b.states, b.ValidState s
  clipStates : ∀ s ∈ b.clipStates, s.clip.toNat < b.clips.size
  lineStates : ∀ l ∈ b.lineStates, b.ValidLine l
  planeStates : ∀ p ∈ b.planeStates, b.ValidPlane p
  anyTransitions : b.anyTransitions.stop ≤ b.transitions.size
  transitions : ∀ e ∈ b.transitions, b.ValidEdge e
  boolTests : ∀ t ∈ b.boolTests, t.parameter.toNat < b.parameters.bools.size
  intTests : ∀ t ∈ b.intTests, t.parameter.toNat < b.parameters.ints.size
  exits : ∀ e ∈ b.exits, b.ValidExit e
  exitStates : ∀ s ∈ b.exitStates, s.toNat < b.states.size
  subs : ∀ (i : Nat) (s : Sub), b.subs[i]? = some s → b.ValidSub i s

theorem require_eq_none {c : Bool} {d : Defect} : require c d = none ↔ c = true := by
  cases c <;> simp [require]

theorem orElse_eq_none {x y : Option Defect} : (x <|> y) = none ↔ x = none ∧ y = none := by
  cases x <;> simp

theorem firstDefect?_eq_none {α : Type} (xs : Array α) (f : Nat → α → Option Defect) :
    firstDefect? xs f = none ↔ ∀ (i : Nat) x, xs[i]? = some x → f i x = none := by
  simp only [firstDefect?, List.findSome?_eq_none_iff, Prod.forall, List.mem_zipIdx_iff_getElem?,
    Array.getElem?_toList]
  exact ⟨fun h i x => h x i, fun h x i => h i x⟩

/-- A check that does not depend on the position is a check of every entry. -/
theorem firstDefect?_eq_none_of_iff {α : Type} (xs : Array α) (f : Nat → α → Option Defect)
    {P : α → Prop} (hf : ∀ i x, f i x = none ↔ P x) :
    firstDefect? xs f = none ↔ ∀ x ∈ xs, P x := by
  rw [firstDefect?_eq_none]
  constructor
  · intro h x hx
    obtain ⟨i, hi⟩ := Array.mem_iff_getElem?.mp hx
    exact (hf i x).mp (h i x hi)
  · intro h i x hx
    exact (hf i x).mpr (h x (Array.mem_of_getElem? hx))

variable {b : Baked} {i : Nat}

theorem stateDefect?_eq_none {s : State} : b.stateDefect? i s = none ↔ b.ValidState s := by
  simp only [stateDefect?, orElse_eq_none, require_eq_none, Span.fits, decide_eq_true_eq,
    Option.all_eq_true]
  constructor
  · rintro ⟨h1, h2, h3, h4, h5⟩
    exact ⟨h1, h2, h3, h4, h5⟩
  · rintro ⟨h1, h2, h3, h4, h5⟩
    exact ⟨h1, h2, h3, h4, h5⟩

theorem clipStateDefect?_eq_none {s : ClipState} :
    b.clipStateDefect? i s = none ↔ s.clip.toNat < b.clips.size := by
  simp only [clipStateDefect?, require_eq_none, decide_eq_true_eq]

theorem lineDefect?_eq_none {l : LineState} : b.lineDefect? i l = none ↔ b.ValidLine l := by
  simp only [lineDefect?, orElse_eq_none, require_eq_none, Span.fits, Bool.and_eq_true,
    decide_eq_true_eq, beq_iff_eq, Array.all_eq_true']
  constructor
  · rintro ⟨⟨⟨h1, h2⟩, h3⟩, h4, h5, h6⟩
    exact ⟨h1, h2, h3, h4, h5, h6⟩
  · rintro ⟨h1, h2, h3, h4, h5, h6⟩
    exact ⟨⟨⟨h1, h2⟩, h3⟩, h4, h5, h6⟩

theorem planeDefect?_eq_none {p : PlaneState} : b.planeDefect? i p = none ↔ b.ValidPlane p := by
  simp only [planeDefect?, orElse_eq_none, require_eq_none, Span.fits, Bool.and_eq_true,
    decide_eq_true_eq, Array.all_eq_true']
  constructor
  · rintro ⟨h1, ⟨h2, h3⟩, h4⟩
    exact ⟨h1, h2, h3, h4⟩
  · rintro ⟨h1, h2, h3, h4⟩
    exact ⟨h1, ⟨h2, h3⟩, h4⟩

theorem edgeDefect?_eq_none {e : Edge} : b.edgeDefect? i e = none ↔ b.ValidEdge e := by
  simp only [edgeDefect?, orElse_eq_none, require_eq_none, Span.fits, Bool.and_eq_true,
    decide_eq_true_eq]
  constructor
  · rintro ⟨h1, ⟨h2, h3⟩, h4⟩
    exact ⟨h1, h2, h3, h4⟩
  · rintro ⟨h1, h2, h3, h4⟩
    exact ⟨h1, ⟨h2, h3⟩, h4⟩

theorem exitDefect?_eq_none {e : Exit} : b.exitDefect? i e = none ↔ b.ValidExit e := by
  simp only [exitDefect?, orElse_eq_none, require_eq_none, Span.fits, Bool.and_eq_true,
    decide_eq_true_eq]
  constructor
  · rintro ⟨⟨h1, h2⟩, h3⟩
    exact ⟨h1, h2, h3⟩
  · rintro ⟨h1, h2, h3⟩
    exact ⟨⟨h1, h2⟩, h3⟩

theorem subDefect?_eq_none {s : Sub} : b.subDefect? i s = none ↔ b.ValidSub i s := by
  simp only [subDefect?, orElse_eq_none, require_eq_none, decide_eq_true_eq]
  constructor
  · rintro ⟨h1, h2⟩
    exact ⟨h1, h2⟩
  · rintro ⟨h1, h2⟩
    exact ⟨h1, h2⟩

/-- The checks find no defect exactly in a machine whose stored indices are all in range. -/
theorem defect?_eq_none_iff : b.defect? = none ↔ b.Valid := by
  have hstates := firstDefect?_eq_none_of_iff b.states b.stateDefect?
    fun _ _ => stateDefect?_eq_none
  have hclips := firstDefect?_eq_none_of_iff b.clipStates b.clipStateDefect?
    fun _ _ => clipStateDefect?_eq_none
  have hlines := firstDefect?_eq_none_of_iff b.lineStates b.lineDefect?
    fun _ _ => lineDefect?_eq_none
  have hplanes := firstDefect?_eq_none_of_iff b.planeStates b.planeDefect?
    fun _ _ => planeDefect?_eq_none
  have hedges := firstDefect?_eq_none_of_iff b.transitions b.edgeDefect?
    fun _ _ => edgeDefect?_eq_none
  have hexits := firstDefect?_eq_none_of_iff b.exits b.exitDefect?
    fun _ _ => exitDefect?_eq_none
  have hsubs := firstDefect?_eq_none b.subs b.subDefect?
  simp only [subDefect?_eq_none] at hsubs
  simp only [defect?, orElse_eq_none, require_eq_none, hstates, hclips, hlines, hplanes, hedges,
    hexits, hsubs, Bool.or_eq_true, Array.isEmpty_iff, Span.fits, Array.all_eq_true',
    decide_eq_true_eq]
  constructor
  · rintro ⟨h1, h2, h3, h4, h5, h6, h7, h8, h9, h10, h11, h12⟩
    exact ⟨h1, h2, h3, h4, h5, h6, h7, h8, h9, h10, h11, h12⟩
  · rintro ⟨h1, h2, h3, h4, h5, h6, h7, h8, h9, h10, h11, h12⟩
    exact ⟨h1, h2, h3, h4, h5, h6, h7, h8, h9, h10, h11, h12⟩

end PoseMachine.Baked
