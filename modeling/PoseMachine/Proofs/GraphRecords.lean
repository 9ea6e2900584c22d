import PoseMachine.Proofs.Records

/-!
Authored machines written as values and read back, nested to any depth.
-/

namespace PoseMachine

open Json (required orElse optional Returns)

def Clip.singles (c : Clip) : List Float32 := [c.duration]

theorem Clip.returns : Returns Clip.ofJson? Clip.toJson Clip.singles := by
  intro c
  rw [Clip.ofJson?, Clip.toJson, Json.fields?_object (by rfl) (by decide)]
  simp [Clip.singles]

def LineClip.singles (c : LineClip) : List Float32 := c.clip.singles ++ [c.threshold.value, c.speed]

theorem LineClip.returns : Returns LineClip.ofJson? LineClip.toJson LineClip.singles := by
  intro c
  rw [LineClip.ofJson?, LineClip.toJson, Json.fields?_object (by rfl) (by decide)]
  simp [Clip.returns c.clip, LineClip.singles, ite_and]

def PlaneClip.singles (c : PlaneClip) : List Float32 := c.clip.singles ++ [c.x, c.y, c.speed]

theorem PlaneClip.returns : Returns PlaneClip.ofJson? PlaneClip.toJson PlaneClip.singles := by
  intro c
  rw [PlaneClip.ofJson?, PlaneClip.toJson, Json.fields?_object (by rfl) (by decide)]
  simp [Clip.returns c.clip, PlaneClip.singles, Json.pair?, ite_and]

def Keyframe.singles (k : Keyframe) : List Float32 :=
  [k.time.value, k.value, k.inTangent, k.outTangent]

theorem Keyframe.returns : Returns Keyframe.ofJson? Keyframe.toJson Keyframe.singles := by
  intro k
  rw [Keyframe.ofJson?, Keyframe.toJson, Json.fields?_object (by rfl) (by decide)]
  simp [Keyframe.singles, ite_and]

def Curve.singles (c : Curve) : List Float32 := c.keyframes.flatMap Keyframe.singles

theorem Curve.returns : Returns Curve.ofJson? Curve.toJson Curve.singles := by
  rintro ⟨keyframes⟩
  rw [Curve.ofJson?, Curve.toJson, Json.fields?_object (by rfl) (by decide)]
  change _ = if AllFinite (keyframes.flatMap Keyframe.singles) then _ else _
  simp [Keyframe.returns.list keyframes]

namespace Parameter

def Value.singles : Value → List Float32
  | .float x => [x]
  | _ => []

theorem Value.returns (loose : Bool) :
    Returns (Value.ofJson? loose) Value.toJson Value.singles := by
  intro v
  cases v <;> simp [Value.ofJson?, Value.toJson, Json.tagAndValue?, Json.member?, Value.readers,
    Value.kind, Kind.word, Value.singles, List.lookup]

def singles (p : Parameter) : List Float32 := p.default.singles

theorem returns (loose : Bool) : Returns (Parameter.ofJson? loose) Parameter.toJson singles := by
  rintro ⟨name, default⟩
  rw [Parameter.ofJson?, Parameter.toJson, Json.fields?_object (by rfl) (by decide)]
  change _ = if AllFinite default.singles then _ else _
  simp [Value.returns loose default]

end Parameter

@[simp] theorem BoolCondition.ofJson?_toJson (c : BoolCondition) :
    BoolCondition.ofJson? c.toJson = some c := by
  rw [BoolCondition.ofJson?, BoolCondition.toJson, Json.fields?_object (by rfl) (by decide)]
  simp

@[simp] theorem IntCondition.ofJson?_toJson (loose : Bool) (c : IntCondition) :
    IntCondition.ofJson? loose c.toJson = some c := by
  rw [IntCondition.ofJson?, IntCondition.toJson, Json.fields?_object (by rfl) (by decide)]
  simp [Comparator.lookup_word]

namespace Transition

def singles (t : Transition) : List Float32 :=
  t.endTime.toList ++ t.duration :: t.curve.toList.flatMap Curve.singles ++ [t.offset]

/-- A transition is read from any object that has its members. -/
theorem ofJson?_object {t : Transition} (h : AllFinite t.singles) (loose : Bool)
    {members : List (String × Json)} (hnodup : (members.map (·.1)).Nodup)
    (hmembers : t.members ⊆ members) : Transition.ofJson? loose (.object members) = some t := by
  have hfields := Json.fields?_object_of_subset hnodup hmembers
  simp only [singles, allFinite_append, allFinite_cons, allFinite_flatMap] at h
  obtain ⟨⟨hend, hduration, hcurve⟩, hoffset, -⟩ := h
  have hbools : Json.list? BoolCondition.ofJson? (.ofList BoolCondition.toJson t.boolConditions) =
      some t.boolConditions :=
    Json.list?_ofList fun c _ => c.ofJson?_toJson
  have hints : Json.list? (IntCondition.ofJson? loose)
      (.ofList IntCondition.toJson t.intConditions) = some t.intConditions :=
    Json.list?_ofList fun c _ => c.ofJson?_toJson loose
  have hendTime : optional Json.single? (some (.ofOption .ofSingle t.endTime)) =
      some t.endTime :=
    Json.optional_ofOption rfl fun x hx =>
      Json.returns_single.eq_some (by simpa using hend x (by simpa using hx))
  have hcurve' : optional Curve.ofJson? (some (.ofOption Curve.toJson t.curve)) = some t.curve :=
    Json.optional_ofOption rfl fun c hc => Curve.returns.eq_some (hcurve c (by simpa using hc))
  simp only [Transition.members, List.map_cons, List.map_nil] at hfields
  rw [ofJson?, hfields]
  simp [StateId.toJson, hbools, hints, hendTime, hduration, hcurve', hoffset]

theorem ofJson?_toJson {t : Transition} (h : AllFinite t.singles) (loose : Bool) :
    Transition.ofJson? loose t.toJson = some t :=
  ofJson?_object h loose (by simp [members]) (List.Subset.refl _)

end Transition

def AnyTransition.singles (t : AnyTransition) : List Float32 := t.transition.singles

theorem AnyTransition.ofJson?_toJson {t : AnyTransition} (h : AllFinite t.singles) :
    AnyTransition.ofJson? t.toJson = some t := by
  have hnodup : ((t.transition.members ++
      [("can_transition_to_self", Json.bool t.allowSelf)]).map (·.1)).Nodup := by
    simp [Transition.members]
  have hself := Json.member?_of_mem hnodup
    (List.mem_append_right _ (List.mem_singleton_self ("can_transition_to_self", _)))
  have htransition := Transition.ofJson?_object h true hnodup (List.subset_append_left _ _)
  rw [AnyTransition.toJson, AnyTransition.ofJson?]
  simp [hself, htransition]

def Motion.singles : Motion → List Float32
  | .clip c => c.singles
  | .line _ clips => clips.flatMap LineClip.singles
  | .plane _ _ _ clips => clips.flatMap PlaneClip.singles

namespace StateKind

/-- The tag of a kind says which reader gets the other members. -/
theorem ofJson?_object {loose : Bool} {nested : Json → Option Machine} {tag : String}
    {members : List (String × Json)} {read : Json → Option StateKind}
    (hread : (readers nested).lookup tag = some read) (hmembers : ∀ m ∈ members, m.1 ≠ "type") :
    StateKind.ofJson? loose nested (.object (("type", .text tag) :: members)) =
      read (.object members) := by
  have htag : (members.filter fun m => m.1 == "type") = [] := by
    simpa using hmembers
  have hrest : (members.filter fun m => m.1 != "type") = members := by
    simpa using hmembers
  simp [StateKind.ofJson?, Json.tagged?, Json.member?, Json.tag?, htag, hrest, hread]

theorem ofJson?_leaf {motion : Motion} (h : AllFinite motion.singles) (loose : Bool)
    (nested : Json → Option Machine) :
    StateKind.ofJson? loose nested motion.toJson = some (.leaf motion) := by
  cases motion with
  | clip c =>
      have hclip := Clip.returns.eq_some h
      rw [Motion.toJson, ofJson?_object (by rfl) (by simp), ofClip?,
        Json.fields?_object (by rfl) (by decide)]
      simp [hclip]
  | line parameter clips =>
      have hclips := LineClip.returns.list.eq_some h
      rw [Motion.toJson, ofJson?_object (by rfl) (by simp), ofLine?,
        Json.fields?_object (by rfl) (by decide)]
      simp [hclips]
  | plane parameterX parameterY method clips =>
      have hclips := PlaneClip.returns.list.eq_some h
      rw [Motion.toJson, ofJson?_object (by rfl) (by simp), ofPlane?,
        Json.fields?_object (by rfl) (by decide)]
      simp [hclips, PlaneMethod.lookup_word]

end StateKind

def Border.singles (b : Border) : List Float32 := b.exitTransitions.flatMap Transition.singles

def Node.singles (n : Node) : List Float32 := n.speed :: n.transitions.flatMap Transition.singles

theorem Transition.list?_ofList {ts : List Transition}
    (h : AllFinite (ts.flatMap Transition.singles)) (loose : Bool) :
    Json.list? (Transition.ofJson? loose) (.ofList Transition.toJson ts) = some ts :=
  Json.list?_ofList fun t ht => t.ofJson?_toJson (allFinite_flatMap.mp h t ht) loose

theorem optional_stateId (id : Option StateId) :
    optional Json.uint32? (some (.ofOption StateId.toJson id)) = some id :=
  Json.optional_ofOption rfl fun i _ => Json.uint32?_int i

/-- A container is read if its machine is. -/
theorem StateKind.ofJson?_container {border : Border} (h : AllFinite border.singles)
    (loose : Bool) {nested : Json → Option Machine} {machine : Option Machine} {j : Json}
    (hmachine : optional nested (some j) = some machine) :
    StateKind.ofJson? loose nested (border.toJson j) = some (.container border machine) := by
  have hexits : Json.list? Json.uint32? (.ofList StateId.toJson border.exitStates) =
      some border.exitStates :=
    Json.list?_ofList fun i _ => Json.uint32?_int i
  rw [Border.toJson, ofJson?_object (by rfl) (by simp), ofContainer?,
    Json.fields?_object (by rfl) (by decide)]
  simp [hmachine, optional_stateId, hexits, Transition.list?_ofList h]

theorem State.ofJson?_node {node : Node} (h : AllFinite node.singles) {loose : Bool}
    {nested : Json → Option Machine} {j : Json} {kind : StateKind}
    (hkind : StateKind.ofJson? loose nested j = some kind) :
    State.ofJson? loose nested (node.toJson j) = some (kind.state node) := by
  obtain ⟨hspeed, htransitions⟩ := allFinite_cons.mp h
  have hparameter : optional Json.text? (some (.ofOption .text node.speedParameter)) =
      some node.speedParameter :=
    Json.optional_ofOption rfl fun s _ => Json.text?_text s
  rw [State.ofJson?, Node.toJson, Json.fields?_object (by rfl) (by decide)]
  simp [StateId.toJson, hspeed, hparameter, Transition.list?_ofList htransitions, hkind]

mutual

/-- Every single of a state and of the states below it. -/
def State.singles : State → List Float32
  | .leaf node motion => node.singles ++ motion.singles
  | .container node border none => node.singles ++ border.singles
  | .container node border (some ⟨_, parameters, states, _, any⟩) =>
    node.singles ++ border.singles ++ (parameters.flatMap Parameter.singles ++
      forestSingles states ++ any.flatMap AnyTransition.singles)

def forestSingles : List State → List Float32
  | [] => []
  | s :: ss => s.singles ++ forestSingles ss

end

/-- Every single of a machine and of the machines in it. -/
def Machine.singles (m : Machine) : List Float32 :=
  m.parameters.flatMap Parameter.singles ++ forestSingles m.states ++
    m.anyTransitions.flatMap AnyTransition.singles

namespace Json

theorem height_le_of_mem_items {items : List Json} {j : Json} (h : j ∈ items) :
    j.height ≤ heightOfItems items := by
  induction items with
  | nil => simp at h
  | cons k items ih =>
      rw [heightOfItems]
      rcases List.mem_cons.mp h with rfl | h
      · exact Nat.le_max_left _ _
      · exact Nat.le_trans (ih h) (Nat.le_max_right _ _)

theorem height_lt_object {members : List (String × Json)} {m : String × Json}
    (h : m ∈ members) : m.2.height < (object members).height := by
  rw [height, Nat.lt_succ_iff]
  induction members with
  | nil => simp at h
  | cons n members ih =>
      rw [heightOfMembers]
      rcases List.mem_cons.mp h with rfl | h
      · exact Nat.le_max_left _ _
      · exact Nat.le_trans (ih h) (Nat.le_max_right _ _)

end Json

theorem statesToJson_eq_map (ss : List State) : statesToJson ss = ss.map State.toJson := by
  induction ss with
  | nil => rw [statesToJson, List.map_nil]
  | cons s ss ih => rw [statesToJson, ih, List.map_cons]

namespace Machine

/-- A machine is read if its states are. -/
theorem ofJsonWith?_toJson {m : Machine} (h : AllFinite m.singles) {loose : Bool}
    {nested : Json → Option Machine}
    (hstates : ∀ s ∈ m.states, State.ofJson? loose nested s.toJson = some s) :
    ofJsonWith? loose nested m.toJson = some m := by
  obtain ⟨name, parameters, states, default, any⟩ := m
  simp only [singles, allFinite_append] at h
  obtain ⟨⟨hparameters, -⟩, hany⟩ := h
  have hstates' : Json.list? (State.ofJson? loose nested) (.list (states.map State.toJson)) =
      some states :=
    Json.list?_ofList hstates
  have hany' : Json.list? AnyTransition.ofJson? (.ofList AnyTransition.toJson any) = some any :=
    Json.list?_ofList fun t ht => t.ofJson?_toJson (allFinite_flatMap.mp hany t ht)
  rw [ofJsonWith?, toJson, wrap, statesToJson_eq_map,
    Json.fields?_object (by rfl) (by decide)]
  simp [(Parameter.returns loose).list.eq_some hparameters, hstates', optional_stateId, hany']

theorem height_state_lt {m : Machine} {s : State} (hs : s ∈ m.states) :
    s.toJson.height < m.toJson.height := by
  have hlist : s.toJson.height < (Json.list (statesToJson m.states)).height := by
    rw [Json.height, Nat.lt_succ_iff, statesToJson_eq_map]
    exact Json.height_le_of_mem_items (List.mem_map_of_mem hs)
  refine Nat.lt_trans hlist (Json.height_lt_object (m := ("states", _)) ?_)
  simp

end Machine

theorem State.toJson_container (node : Node) (border : Border) (m : Machine) :
    (State.container node border (some m)).toJson = node.toJson (border.toJson m.toJson) := by
  cases m
  rw [State.toJson, Machine.toJson]

theorem Machine.height_lt_container (node : Node) (border : Border) (m : Machine) :
    m.toJson.height < (State.container node border (some m)).toJson.height := by
  rw [State.toJson_container]
  have hborder : m.toJson.height < (border.toJson m.toJson).height :=
    Json.height_lt_object (m := ("machine", m.toJson)) (by simp)
  have hnode : (border.toJson m.toJson).height <
      (node.toJson (border.toJson m.toJson)).height :=
    Json.height_lt_object (m := ("kind", border.toJson m.toJson)) (by simp)
  exact Nat.lt_trans hborder hnode

/-- States are read whatever is nested in them, if machines are read to the depth of their
values. -/
theorem State.ofJson?_toJson {ss : List State} (h : AllFinite (forestSingles ss)) (loose : Bool)
    (n : Nat) {s : State} (hs : s ∈ ss) (hn : s.toJson.height ≤ n) :
    State.ofJson? loose (Machine.nested? n) s.toJson = some s := by
  refine forestSingles.induct
    (fun s => AllFinite s.singles → ∀ loose n, s.toJson.height ≤ n →
      State.ofJson? loose (Machine.nested? n) s.toJson = some s)
    (fun ss => AllFinite (forestSingles ss) → ∀ loose n, ∀ s ∈ ss, s.toJson.height ≤ n →
      State.ofJson? loose (Machine.nested? n) s.toJson = some s)
    ?leaf ?missing ?nested ?nil ?cons ss h loose n s hs hn
  case leaf =>
    intro node motion h loose n _
    rw [State.singles, allFinite_append] at h
    rw [State.toJson]
    exact State.ofJson?_node h.1 (StateKind.ofJson?_leaf h.2 loose _)
  case missing =>
    intro node border h loose n _
    rw [State.singles, allFinite_append] at h
    rw [State.toJson]
    exact State.ofJson?_node h.1 (StateKind.ofJson?_container h.2 loose rfl)
  case nested =>
    intro node border name parameters states default any ih h loose n hn
    let m : Machine := ⟨name, parameters, states, default, any⟩
    change (State.container node border (some m)).toJson.height ≤ n at hn
    rw [State.singles, allFinite_append, allFinite_append] at h
    obtain ⟨⟨hnode, hborder⟩, hmachine⟩ := h
    have hforest : AllFinite (forestSingles states) := by
      rw [allFinite_append, allFinite_append] at hmachine
      exact hmachine.1.2
    have hlt := Machine.height_lt_container node border m
    obtain ⟨n, rfl⟩ := Nat.exists_eq_succ_of_ne_zero (show n ≠ 0 by omega)
    have hread : Machine.nested? (n + 1) m.toJson = some m := by
      refine Machine.ofJsonWith?_toJson (m := m) hmachine fun s hs => ih hforest true n s hs ?_
      have := Machine.height_state_lt (m := m) hs
      omega
    rw [State.toJson_container]
    refine State.ofJson?_node hnode (StateKind.ofJson?_container hborder loose ?_)
    exact congrArg (Option.map some) hread
  case nil =>
    intro _ loose n s hs
    simp at hs
  case cons =>
    intro s ss ihs ihss h loose n t ht hn
    rw [forestSingles, allFinite_append] at h
    rcases List.mem_cons.mp ht with rfl | ht
    · exact ihs h.1 loose n hn
    · exact ihss h.2 loose n t ht hn

/-- A machine whose singles are all finite is read back from its value as it was. -/
theorem Machine.read_toJson {m : Machine} (h : AllFinite m.singles) :
    Machine.ofJson? m.toJson = some m := by
  have hforest : AllFinite (forestSingles m.states) := by
    rw [Machine.singles, allFinite_append, allFinite_append] at h
    exact h.1.2
  refine Machine.ofJsonWith?_toJson h fun s hs => ?_
  exact State.ofJson?_toJson hforest false _ hs (Nat.le_of_lt (Machine.height_state_lt hs))

/-- A machine in a machine, with every sort of motion, condition and curve. -/
def striding : Machine where
  name := "striding"
  parameters := [⟨"grounded", .bool true⟩, ⟨"gait", .int (-2)⟩, ⟨"pace", .float 0.5⟩]
  states :=
    [.leaf
      { id := 0
        name := "walk"
        speedParameter := some "pace"
        transitions :=
          [{ target := 1
             boolConditions := [⟨"grounded", false⟩]
             intConditions := [⟨"gait", .greaterOrEqual, 2⟩]
             endTime := some 0.75
             duration := 0.25
             curve := some .easeInOut
             offset := 0.5 }] }
      (.line "pace" [⟨⟨"walk", 1⟩, .ofValue 0, 1⟩, ⟨⟨"run", 0.5⟩, .ofValue 1, 2⟩]),
     .container { id := 1, name := "air" }
      { entry := some 2
        exitStates := [2]
        exitTransitions := [{ target := 0 }] }
      (some
        { name := "air"
          states :=
            [.leaf { id := 2, name := "jump", looping := false } (.clip ⟨"jump", 1⟩),
             .leaf { id := 3, name := "fall" }
              (.plane "pace" "pace" .freeformCartesian [⟨⟨"fall", 1⟩, -1, 0, 1⟩])]
          anyTransitions := [{ transition := { target := 3 }, allowSelf := true }] }),
     .container { id := 4, name := "swim" } {} none]
  defaultState := some 0
  anyTransitions := [{ transition := { target := 0 } }]

theorem Machine.read_toJson_striding :
    AllFinite striding.singles ∧ Machine.ofJson? striding.toJson = some striding :=
  ⟨by decide +kernel, Machine.read_toJson (by decide +kernel)⟩

end PoseMachine
