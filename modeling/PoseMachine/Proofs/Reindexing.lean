import PoseMachine.Bake.Pack
import PoseMachine.Proofs.Reordering

/-!
A bake against the same parameters at other positions: every index of a parameter is led to its new
position, and nothing else changes.
-/

namespace PoseMachine

open Parameter (Kind Layout Table)

section Maps

variable {m : Type → Type} [Monad m] [LawfulMonad m] {α β γ δ : Type}

theorem mapM_eq_map_mapM {f : α → m β} {f' : α → m γ} {g : β → γ} (h : ∀ x, f' x = g <$> f x)
    (xs : List α) : xs.mapM f' = List.map g <$> xs.mapM f := by
  induction xs with
  | nil => simp
  | cons x xs ih => simp [h, ih]

theorem foldlM_map_eq_map {f : β → α → m β} {f' : γ → δ → m γ} {g : β → γ} {k : α → δ}
    (h : ∀ b x, f' (g b) (k x) = g <$> f b x) (b : β) (xs : List α) :
    (xs.map k).foldlM f' (g b) = g <$> xs.foldlM f b := by
  induction xs generalizing b with
  | nil => simp
  | cons x xs ih => simp [h, ih]

end Maps

variable (σ : Kind → UInt16 → UInt16)

/-- Every kind but Int is read as a Float. -/
def Parameter.Numeric.reindex (p : Parameter.Numeric) : Parameter.Numeric :=
  match p.kind with
  | .int => ⟨.int, σ .int p.index⟩
  | k => ⟨k, σ .float p.index⟩

namespace Baked

def BoolTest.reindex (c : BoolTest) : BoolTest := { c with parameter := σ .bool c.parameter }

def IntTest.reindex (c : IntTest) : IntTest := { c with parameter := σ .int c.parameter }

def State.reindex (s : State) : State :=
  { s with speedParameter := s.speedParameter.map (σ .float) }

def LineState.reindex (l : LineState) : LineState := { l with parameter := l.parameter.reindex σ }

def PlaneState.reindex (p : PlaneState) : PlaneState :=
  { p with parameterX := σ .float p.parameterX, parameterY := σ .float p.parameterY }

/-- A baked machine whose parameters sit elsewhere, as another layout has them. -/
def reindex (l : Layout) (b : Baked) : Baked :=
  { b with
    parameters := l
    states := b.states.map (State.reindex σ)
    lineStates := b.lineStates.map (LineState.reindex σ)
    planeStates := b.planeStates.map (PlaneState.reindex σ)
    boolTests := b.boolTests.map (BoolTest.reindex σ)
    intTests := b.intTests.map (IntTest.reindex σ) }

end Baked

namespace Draft

def Edge.reindex (e : Edge) : Edge :=
  { e with
    boolTests := e.boolTests.map (Baked.BoolTest.reindex σ)
    intTests := e.intTests.map (Baked.IntTest.reindex σ) }

def Motion.reindex : Motion → Motion
  | .clip c => .clip c
  | .line p es => .line (p.reindex σ) es
  | .plane x y method es => .plane (σ .float x) (σ .float y) method es

def State.reindex (s : State) : State :=
  { s with
    motion := s.motion.reindex σ
    speedParameter := s.speedParameter.map (σ .float)
    transitions := s.transitions.map (Edge.reindex σ) }

def Exit.reindex (e : Exit) : Exit := { e with transitions := e.transitions.map (Edge.reindex σ) }

/-- A draft whose parameters sit elsewhere, as another layout has them. -/
def reindex (l : Layout) (d : Draft) : Draft :=
  { d with
    parameters := l
    states := d.states.map (State.reindex σ)
    anyTransitions := d.anyTransitions.map (Edge.reindex σ)
    exits := d.exits.map (Exit.reindex σ) }

end Draft

variable {σ}

namespace Parameter.Table.Renames

variable {t t' : Table} (h : Table.Renames σ t t')

include h

theorem resolve (name : String) (k : Kind) (context : String) :
    t'.resolve name k context = σ k <$> t.resolve name k context := by
  unfold Table.resolve
  rw [h.find]
  cases hfind : t.byHash[nameHash name]? with
  | none => rfl
  | some p =>
      obtain ⟨found, i⟩ := p
      by_cases hk : found = k
      · subst hk
        simp
      · simp only [Option.map_some, if_neg hk]
        rfl

theorem resolveNumeric (name context : String) :
    t'.resolveNumeric name context =
      Numeric.reindex σ <$> t.resolveNumeric name context := by
  unfold Table.resolveNumeric
  rw [h.find]
  cases hfind : t.byHash[nameHash name]? with
  | none => rfl
  | some p =>
      obtain ⟨found, i⟩ := p
      cases found <;> rfl

end Parameter.Table.Renames

namespace Draft

/-- The test of an authored condition. -/
def boolTest (t : Table) (context : String) (c : BoolCondition) : Report Baked.BoolTest := do
  let parameter ← t.resolve c.parameter .bool context
  pure ⟨parameter, c.value⟩

def intTest (t : Table) (context : String) (c : IntCondition) : Report Baked.IntTest := do
  let parameter ← t.resolve c.parameter .int context
  pure ⟨parameter, c.comparator, c.value⟩

theorem Edge.ofResolved_eq (t : Table) (context : String) (allowSelf : Bool)
    (r : Flat.Resolved) :
    Edge.ofResolved t context allowSelf r =
      (r.transition.boolConditions.mapM (boolTest t context) >>= fun boolTests =>
        r.transition.intConditions.mapM (intTest t context) >>= fun intTests =>
          pure
            { target := r.leaf.toUInt32
              duration := Single.positivePart r.transition.duration
              hasEndTime := r.transition.endTime.isSome
              endTime := r.transition.endTime.getD 0
              offset := r.transition.offset
              allowSelf
              boolTests
              intTests
              curve := (r.transition.curve.map Curve.pack).getD [] }) :=
  rfl

theorem Motion.clipCount_reindex (m : Motion) : (m.reindex σ).clipCount = m.clipCount := by
  cases m <;> rfl

variable {t t' : Table} (h : Table.Renames σ t t')

include h

theorem boolTest_reindex (context : String) (c : BoolCondition) :
    boolTest t' context c = Baked.BoolTest.reindex σ <$> boolTest t context c := by
  simp [boolTest, h.resolve, Baked.BoolTest.reindex]

theorem intTest_reindex (context : String) (c : IntCondition) :
    intTest t' context c = Baked.IntTest.reindex σ <$> intTest t context c := by
  simp [intTest, h.resolve, Baked.IntTest.reindex]

theorem Edge.ofResolved_reindex (context : String) (allowSelf : Bool) (r : Flat.Resolved) :
    Edge.ofResolved t' context allowSelf r =
      Edge.reindex σ <$> Edge.ofResolved t context allowSelf r := by
  have hbools := mapM_eq_map_mapM (boolTest_reindex h context) r.transition.boolConditions
  have hints := mapM_eq_map_mapM (intTest_reindex h context) r.transition.intConditions
  simp only [ofResolved_eq, hbools, hints]
  simp [Edge.reindex]

theorem Motion.ofAuthored_reindex (context : String) (offset : Nat) (m : PoseMachine.Motion) :
    Motion.ofAuthored t' context offset m =
      Motion.reindex σ <$> Motion.ofAuthored t context offset m := by
  cases m <;> simp [Motion.ofAuthored, h.resolve, h.resolveNumeric, Motion.reindex]

theorem State.ofLeaf_reindex (f : Flat) (l : Flat.Leaf) :
    State.ofLeaf f t' l = State.reindex σ <$> State.ofLeaf f t l := by
  have hspeed (context : String) :
      (l.node.speedParameter.mapM fun name => t'.resolve name .float context) =
        Option.map (σ .float) <$> l.node.speedParameter.mapM fun name =>
          t.resolve name .float context := by
    cases l.node.speedParameter <;> simp [h.resolve]
  have hedges (context : String) := mapM_eq_map_mapM (Edge.ofResolved_reindex h context false)
  simp only [State.ofLeaf, hspeed, Motion.ofAuthored_reindex h, hedges]
  simp [State.reindex, Motion.clipCount_reindex]

theorem anyEdges_reindex (f : Flat) :
    anyEdges f t' = List.map (Edge.reindex σ) <$> anyEdges f t := by
  unfold anyEdges
  dsimp only
  split
  · simp
  · refine mapM_eq_map_mapM (fun any => ?_) _
    simp [Edge.ofResolved_reindex h]

theorem Exit.ofGroup_reindex (f : Flat) (g : Flat.ExitGroup) :
    Exit.ofGroup f t' g = Exit.reindex σ <$> Exit.ofGroup f t g := by
  have hedges (context : String) := mapM_eq_map_mapM (Edge.ofResolved_reindex h context false)
  simp only [Exit.ofGroup, hedges]
  simp [Exit.reindex]

/-- Drafts against both tables have the same outcome and the same notices. -/
theorem ofFlat_reindex (f : Flat) : ofFlat f t' = reindex σ t'.layout <$> ofFlat f t := by
  simp only [ofFlat, mapM_eq_map_mapM (State.ofLeaf_reindex h f), anyEdges_reindex h,
    mapM_eq_map_mapM (Exit.ofGroup_reindex h f)]
  simp [reindex]

end Draft

namespace Baked

variable {l : Layout} {b : Baked}

theorem map_append_list {α β : Type} (f : α → β) (xs : Array α) (ys : List α) :
    (xs ++ ys).map f = xs.map f ++ ys.map f :=
  Array.toList_inj.mp (by simp)

theorem addEdge_reindex (σ : Kind → UInt16 → UInt16) (l : Layout) (b : Baked) (e : Draft.Edge) :
    (b.reindex σ l).addEdge (e.reindex σ) = reindex σ l <$> b.addEdge e := by
  simp [addEdge, reindex, Draft.Edge.reindex, map_append_list]

theorem addEdges_reindex (σ : Kind → UInt16 → UInt16) (l : Layout) (b : Baked)
    (es : List Draft.Edge) :
    (b.reindex σ l).addEdges (es.map (Draft.Edge.reindex σ)) =
      Prod.map (reindex σ l) id <$> b.addEdges es := by
  have hsize : (b.reindex σ l).transitions.size = b.transitions.size := rfl
  simp only [addEdges, hsize, List.length_map, foldlM_map_eq_map (addEdge_reindex σ l)]
  simp

theorem addMotion_reindex (σ : Kind → UInt16 → UInt16) (l : Layout) (b : Baked)
    (m : Draft.Motion) :
    (b.reindex σ l).addMotion (m.reindex σ) =
      Prod.map (reindex σ l) id <$> b.addMotion m := by
  cases m <;>
    simp [addMotion, reindex, Draft.Motion.reindex, LineState.reindex, PlaneState.reindex]

theorem addState_reindex (σ : Kind → UInt16 → UInt16) (l : Layout) (b : Baked)
    (s : Draft.State) :
    (b.reindex σ l).addState (s.reindex σ) = reindex σ l <$> b.addState s := by
  simp only [addState, addMotion_reindex, Draft.State.reindex, bind_map_left, map_bind]
  refine bind_congr fun ⟨c, k, i⟩ => ?_
  have hedges := addEdges_reindex σ l
    { c with maxClipsPerState := max c.maxClipsPerState s.motion.clipCount.toUInt32 } s.transitions
  rw [Draft.Motion.clipCount_reindex]
  refine (congrArg (· >>= _) hedges).trans ?_
  simp [reindex, State.reindex]

theorem addExit_reindex (σ : Kind → UInt16 → UInt16) (l : Layout) (b : Baked)
    (e : Draft.Exit) :
    (b.reindex σ l).addExit (e.reindex σ) = reindex σ l <$> b.addExit e := by
  simp only [addExit, map_bind]
  refine bind_congr fun states => ?_
  have hedges := addEdges_reindex σ l { b with exitStates := b.exitStates ++ e.states }
    e.transitions
  refine (congrArg (· >>= _) hedges).trans ?_
  simp [reindex, Draft.Exit.reindex]

end Baked

/-- Packing a draft and moving its parameters can be exchanged. -/
theorem Draft.pack_reindex (σ : Kind → UInt16 → UInt16) (l : Layout) (d : Draft) :
    (d.reindex σ l).pack = Baked.reindex σ l <$> d.pack := by
  have hstart : ({ nameHash := d.nameHash
                   defaultState := d.defaultState
                   parameters := l
                   clips := d.clips.toArray
                   subs := d.subs.toArray } : Baked) =
      Baked.reindex σ l { nameHash := d.nameHash
                          defaultState := d.defaultState
                          parameters := d.parameters
                          clips := d.clips.toArray
                          subs := d.subs.toArray } := by
    simp [Baked.reindex]
  simp only [Draft.pack, Draft.reindex, hstart, foldlM_map_eq_map (Baked.addState_reindex σ l),
    Baked.addEdges_reindex, bind_map_left, map_bind]
  refine bind_congr fun b => bind_congr fun ⟨c, s⟩ => ?_
  have hexits := foldlM_map_eq_map (Baked.addExit_reindex σ l) { c with anyTransitions := s }
    d.exits
  refine (congrArg (· >>= _) hexits).trans ?_
  simp [Baked.reindex]

namespace Machine

variable {t t' : Table} {m : Machine} {ps ps' : List Parameter} {cfg : Config} {b : Baked}

/-- Bakes against the same parameters at other positions raise the same notices, and their baked
machines differ in nothing but the positions. -/
theorem bakeWith_reindex (hbuild : Table.build ps = pure t) (hbuild' : Table.build ps' = pure t')
    (h : Table.Renames σ t t') :
    m.bakeWith ps' cfg = Baked.reindex σ t'.layout <$> m.bakeWith ps cfg := by
  simp only [bakeWith, hbuild, hbuild', pure_bind, map_bind, Draft.ofFlat_reindex h,
    bind_map_left, Draft.pack_reindex]

theorem outcome_bakeWith_reindex (hbuild : Table.build ps = pure t)
    (hbuild' : Table.build ps' = pure t') (h : Table.Renames σ t t')
    (hb : (m.bakeWith ps cfg).outcome = .ok b) :
    (m.bakeWith ps' cfg).outcome = .ok (b.reindex σ t'.layout) := by
  rw [bakeWith_reindex hbuild hbuild' h, ← bind_pure_comp, Report.outcome_bind, hb]
  rfl

/-- A baked machine has the parameters of its table. -/
theorem parameters_of_bakeWith (hbuild : Table.build ps = pure t)
    (hb : (m.bakeWith ps cfg).outcome = .ok b) : b.parameters = t.layout := by
  have hsame := outcome_bakeWith_reindex hbuild hbuild (.refl t) hb
  rw [hb] at hsame
  exact congrArg Baked.parameters (Except.ok.inj hsame)

/-- A machine is baked whatever the order of the declarations. -/
theorem exists_reindex_of_perm (hperm : ps.Perm ps')
    (hb : (m.bakeWith ps cfg).outcome = .ok b) :
    ∃ t t' σ, t.Coherent ∧ t'.Coherent ∧ Table.Renames σ t t' ∧ b.parameters = t.layout ∧
      (m.bakeWith ps' cfg).outcome = .ok (b.reindex σ t'.layout) := by
  obtain ⟨t, ht, -⟩ := Report.outcome_bind_eq_ok.mp hb
  have hall := Table.addAll_of_build ht
  obtain ⟨t', σ, hall', h⟩ := Table.exists_renames_of_perm hperm hall
  have hbuild := Table.build_of_addAll hall
  exact ⟨t, t', σ, Table.coherent_empty.addAll hall, Table.coherent_empty.addAll hall', h,
    parameters_of_bakeWith hbuild hb,
    outcome_bakeWith_reindex hbuild (Table.build_of_addAll hall') h hb⟩

end Machine

end PoseMachine
