import PoseMachine.Proofs.Records

/-!
Baked machines written as values and read back.
-/

namespace PoseMachine

open Json (required optional Returns)

namespace Parameter

@[simp] theorem Numeric.ofJson?_toJson (n : Numeric) : Numeric.ofJson? n.toJson = some n := by
  rw [Numeric.ofJson?, Numeric.toJson, Json.fields?_object (by rfl) (by decide)]
  simp [Kind.lookup_word]

theorem Slot.returns {α : Type} {read : Json → Option α} {write : α → Json}
    {singles : α → List Float32} (h : Returns read write singles) :
    Returns (Slot.ofJson? read) (Slot.toJson write) fun s => singles s.default := by
  intro s
  rw [Slot.ofJson?, Slot.toJson, Json.fields?_object (by rfl) (by decide)]
  simp [h s.default]

def Layout.singles (l : Layout) : List Float32 := l.floats.toList.map (·.default)

theorem Layout.returns : Returns Layout.ofJson? Layout.toJson Layout.singles := by
  intro l
  have hbools := (Slot.returns (Json.returns_of_eq_some Json.bool?_bool)).list l.bools.toList
  have hints := (Slot.returns (Json.returns_of_eq_some Json.int32?_int)).list l.ints.toList
  have hfloats := (Slot.returns Json.returns_single).list l.floats.toList
  rw [Layout.ofJson?, Layout.toJson, Json.fields?_object (by rfl) (by decide)]
  simp [hbools, hints, hfloats, Layout.singles, List.map_eq_flatMap]

end Parameter

@[simp] theorem PackedKey.ofJson?_toJson (k : PackedKey) : PackedKey.ofJson? k.toJson = some k := by
  rw [PackedKey.ofJson?, PackedKey.toJson, Json.fields?_object (by rfl) (by decide)]
  simp

namespace Baked

@[simp] theorem Span.ofJson?_toJson (s : Span) : Span.ofJson? s.toJson = some s := by
  rw [Span.ofJson?, Span.toJson, Json.fields?_object (by rfl) (by decide)]
  simp

def State.singles (s : State) : List Float32 := [s.speed]

theorem State.returns : Returns State.ofJson? State.toJson State.singles := by
  intro s
  rw [State.ofJson?, State.toJson, Json.fields?_object (by rfl) (by decide)]
  have hparameter : optional Json.uint16? (some (.ofOption (fun p => .int p.toNat)
      s.speedParameter)) = some s.speedParameter :=
    Json.optional_ofOption rfl fun p _ => Json.uint16?_int p
  simp only [List.map_cons, List.map_nil, Json.some_bind]
  simp only [Json.required_some, Json.word?_text, StateKind.lookup_word, Json.uint32?_int,
    Json.bool?_bool, Json.single?_ofSingle, hparameter, Span.ofJson?_toJson, Json.int32?_int]
  simp [Json.some_bind, Json.ite_bind, State.singles]

@[simp] theorem ClipState.ofJson?_toJson (s : ClipState) : ClipState.ofJson? s.toJson = some s := by
  rw [ClipState.ofJson?, ClipState.toJson, Json.fields?_object (by rfl) (by decide)]
  simp

@[simp] theorem LineState.ofJson?_toJson (l : LineState) : LineState.ofJson? l.toJson = some l := by
  rw [LineState.ofJson?, LineState.toJson, Json.fields?_object (by rfl) (by decide)]
  simp

def PlaneEntry.singles (e : PlaneEntry) : List Float32 := [e.x, e.y, e.speed]

theorem PlaneEntry.returns : Returns PlaneEntry.ofJson? PlaneEntry.toJson PlaneEntry.singles := by
  intro e
  rw [PlaneEntry.ofJson?, PlaneEntry.toJson, Json.fields?_object (by rfl) (by decide)]
  simp [PlaneEntry.singles, Json.pair?, ite_and]

@[simp] theorem PlaneState.ofJson?_toJson (p : PlaneState) :
    PlaneState.ofJson? p.toJson = some p := by
  rw [PlaneState.ofJson?, PlaneState.toJson, Json.fields?_object (by rfl) (by decide)]
  simp [PlaneMethod.lookup_word]

@[simp] theorem BoolTest.ofJson?_toJson (t : BoolTest) : BoolTest.ofJson? t.toJson = some t := by
  rw [BoolTest.ofJson?, BoolTest.toJson, Json.fields?_object (by rfl) (by decide)]
  simp

@[simp] theorem IntTest.ofJson?_toJson (t : IntTest) : IntTest.ofJson? t.toJson = some t := by
  rw [IntTest.ofJson?, IntTest.toJson, Json.fields?_object (by rfl) (by decide)]
  simp [Comparator.lookup_word]

def Edge.singles (e : Edge) : List Float32 := [e.duration, e.endTime, e.offset]

theorem Edge.returns : Returns Edge.ofJson? Edge.toJson Edge.singles := by
  intro e
  rw [Edge.ofJson?, Edge.toJson, Json.fields?_object (by rfl) (by decide)]
  simp only [List.map_cons, List.map_nil, Json.some_bind]
  simp only [Json.required_some, Json.uint32?_int, Json.single?_ofSingle, Json.bool?_bool,
    Span.ofJson?_toJson]
  simp [Json.some_bind, Json.ite_bind, Edge.singles, ite_and]

@[simp] theorem Exit.ofJson?_toJson (e : Exit) : Exit.ofJson? e.toJson = some e := by
  rw [Exit.ofJson?, Exit.toJson, Json.fields?_object (by rfl) (by decide)]
  simp

@[simp] theorem Sub.ofJson?_toJson (s : Sub) : Sub.ofJson? s.toJson = some s := by
  rw [Sub.ofJson?, Sub.toJson, Json.fields?_object (by rfl) (by decide)]
  simp

def Clip.singles (c : Clip) : List Float32 := [c.duration]

theorem Clip.returns : Returns Clip.ofJson? Clip.toJson Clip.singles := by
  intro c
  rw [Clip.ofJson?, Clip.toJson, Json.fields?_object (by rfl) (by decide)]
  simp [Clip.singles]

/-- Every single of a baked machine. -/
def singles (b : Baked) : List Float32 :=
  b.parameters.singles ++
    (b.states.toList.flatMap State.singles ++
      (b.lineThresholds.toList.map Single.Pattern.value ++
        (b.lineSpeeds.toList ++
          (b.planeEntries.toList.flatMap PlaneEntry.singles ++
            (b.transitions.toList.flatMap Edge.singles ++ b.clips.toList.flatMap Clip.singles)))))

theorem returns : Returns Baked.ofJson? Baked.toJson Baked.singles := by
  intro b
  rw [Baked.ofJson?, Baked.toJson, Json.fields?_object (by rfl) (by decide)]
  simp only [List.map_cons, List.map_nil, Json.some_bind]
  -- First what each field is read as, then the steps from field to field.
  simp only [Json.required_some, Json.uint32?_int, Parameter.Layout.returns b.parameters,
    State.returns.array b.states, Json.array?_arrayToJson ClipState.ofJson?_toJson,
    Json.array?_arrayToJson LineState.ofJson?_toJson, Json.array?_arrayToJson Json.uint16?_int,
    Json.returns_pattern.array b.lineThresholds, Json.returns_single.array b.lineSpeeds,
    Json.array?_arrayToJson PlaneState.ofJson?_toJson, PlaneEntry.returns.array b.planeEntries,
    Edge.returns.array b.transitions, Json.array?_arrayToJson BoolTest.ofJson?_toJson,
    Json.array?_arrayToJson IntTest.ofJson?_toJson,
    Json.array?_arrayToJson PackedKey.ofJson?_toJson, Span.ofJson?_toJson,
    Json.array?_arrayToJson Exit.ofJson?_toJson, Json.array?_arrayToJson Json.uint32?_int,
    Json.array?_arrayToJson Sub.ofJson?_toJson, Clip.returns.array b.clips]
  simp only [Json.some_bind, Json.ite_bind]
  simp only [Baked.singles, allFinite_append, ite_and, List.map_eq_flatMap,
    List.flatMap_singleton']
  rfl

/-- A baked machine is read back from its value as it was if all its singles are finite, and is
refused if not: each single is written as the number it is, or as null. -/
theorem read_toJson_eq_ite (b : Baked) :
    Baked.ofJson? b.toJson = (if AllFinite b.singles then some b else none) ∧
      ∀ x ∈ b.singles, (x.isFinite = true → ∃ y, Json.ofSingle x = .real y ∧
          Single.SameNumber x y) ∧
        (x.isFinite = false → Json.ofSingle x = .null) :=
  ⟨Baked.returns b, fun _ _ => ⟨Json.ofSingle_eq_real, Json.ofSingle_eq_null⟩⟩

end Baked

end PoseMachine
