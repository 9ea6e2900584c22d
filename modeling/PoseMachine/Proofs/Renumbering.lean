import Mathlib.Logic.Function.Basic
import PoseMachine.Proofs.Flattening
import PoseMachine.Proofs.Reindexing

/-!
A graph whose states have other numbers. The numbers tell states apart and mean nothing else: the
flattened graph is the same but for the numbers that it still carries.
-/

namespace PoseMachine

section Definitions

variable (r : StateId → StateId)

def Transition.renumber (t : Transition) : Transition := { t with target := r t.target }

def AnyTransition.renumber (t : AnyTransition) : AnyTransition :=
  { t with transition := t.transition.renumber r }

def Node.renumber (n : Node) : Node :=
  { n with id := r n.id, transitions := n.transitions.map (Transition.renumber r) }

def Border.renumber (b : Border) : Border where
  entry := b.entry.map r
  exitStates := b.exitStates.map r
  exitTransitions := b.exitTransitions.map (Transition.renumber r)

mutual

/-- A state with new numbers for itself, for all states inside it and for all it refers to. -/
def State.renumber : State → State
  | .leaf node motion => .leaf (node.renumber r) motion
  | .container node border none => .container (node.renumber r) (border.renumber r) none
  | .container node border (some ⟨name, parameters, states, default, any⟩) =>
    .container (node.renumber r) (border.renumber r)
      (some ⟨name, parameters, State.renumberAll states, default.map r,
        any.map (AnyTransition.renumber r)⟩)

def State.renumberAll : List State → List State
  | [] => []
  | s :: ss => s.renumber :: State.renumberAll ss

end

def Machine.renumber (m : Machine) : Machine where
  name := m.name
  parameters := m.parameters
  states := State.renumberAll r m.states
  defaultState := m.defaultState.map r
  anyTransitions := m.anyTransitions.map (AnyTransition.renumber r)

/-- Only the error of an unresolved target has a number in it. -/
def BakeError.renumber : BakeError → BakeError
  | .unresolvedTarget target => .unresolvedTarget (r target)
  | e => e

def Notice.renumber : Notice → Notice
  | .reusedId id path => .reusedId (r id) path
  | .refused e => .refused (e.renumber r)
  | .fellBack e => .fellBack (e.renumber r)
  | .exitStateOutside id path => .exitStateOutside (r id) path
  | .exitStateNotLeaf id path => .exitStateNotLeaf (r id) path
  | n => n

/-- A report in which states are told by their new numbers. Its value stays. -/
def Report.renumber {α : Type} (x : Report α) : Report α :=
  ⟨x.notices.map (Notice.renumber r), x.outcome.mapError (BakeError.renumber r)⟩

namespace Flat

def Leaf.renumber (l : Leaf) : Leaf := { l with node := l.node.renumber r }

def Sub.renumber (s : Sub) : Sub :=
  { s with node := s.node.renumber r, border := s.border.renumber r }

def Resolved.renumber (t : Resolved) : Resolved :=
  { t with transition := t.transition.renumber r }

def ExitGroup.renumber (g : ExitGroup) : ExitGroup :=
  { g with transitions := g.transitions.map (Resolved.renumber r) }

end Flat

/-- A flattened graph with new numbers, to be looked up in the given tables. -/
def Flat.renumber (leafIndex subIndex : Std.HashMap StateId Nat) (f : Flat) : Flat :=
  { f with
    machine := f.machine.renumber r
    leaves := f.leaves.map (Leaf.renumber r)
    subs := f.subs.map (Sub.renumber r)
    leafIndex
    subIndex
    exitGroups := f.exitGroups.map (ExitGroup.renumber r) }

end Definitions

variable {r : StateId → StateId}

namespace Report

variable {α β γ δ : Type}

@[simp] theorem renumber_pure (a : α) : (pure a : Report α).renumber r = pure a := rfl

@[simp] theorem renumber_tell (ns : List Notice) :
    (tell ns).renumber r = tell (ns.map (Notice.renumber r)) := rfl

@[simp] theorem renumber_fail (n : Notice) (e : BakeError) :
    (fail n e : Report α).renumber r = fail (n.renumber r) (e.renumber r) := rfl

@[simp] theorem renumber_bind (x : Report α) (f : α → Report β) :
    (x >>= f).renumber r = x.renumber r >>= fun a => (f a).renumber r := by
  rcases x with ⟨ns, e | a⟩
  · rfl
  · change Report.mk ((ns ++ (f a).notices).map _) _ = Report.mk (ns.map _ ++ _) _
    rw [List.map_append]
    rfl

@[simp] theorem renumber_map (f : α → β) (x : Report α) :
    (f <$> x).renumber r = f <$> x.renumber r := by
  simp only [← bind_pure_comp, renumber_bind, renumber_pure]

theorem outcome_renumber_eq_ok {x : Report α} {a : α} :
    (x.renumber r).outcome = .ok a ↔ x.outcome = .ok a := by
  rcases x with ⟨ns, e | b⟩ <;> simp [renumber, Except.mapError]

theorem bind_congr_ok {x : Report α} {f g : α → Report β}
    (h : ∀ a, x.outcome = .ok a → f a = g a) : x >>= f = x >>= g := by
  rcases x with ⟨ns, e | a⟩
  · rfl
  · change Report.mk _ _ = Report.mk _ _
    rw [h a rfl]

theorem renumber_mapM (f : α → Report β) (xs : List α) :
    (xs.mapM f).renumber r = xs.mapM fun x => (f x).renumber r := by
  induction xs with
  | nil => rfl
  | cons x xs ih => simp [ih]

/-- Steps over renumbered entries that renumber their reports. -/
theorem mapM_renumber {f : α → Report β} {f' : γ → Report δ} {k : α → γ} {g : β → δ}
    (h : ∀ x, f' (k x) = g <$> (f x).renumber r) (xs : List α) :
    (xs.map k).mapM f' = List.map g <$> (xs.mapM f).renumber r := by
  rw [renumber_mapM, List.mapM_map]
  exact mapM_eq_map_mapM h xs

theorem mapM_renumber_same {f : α → Report β} {f' : γ → Report β} {k : α → γ}
    (h : ∀ x, f' (k x) = (f x).renumber r) (xs : List α) :
    (xs.map k).mapM f' = (xs.mapM f).renumber r := by
  have hid := mapM_renumber (g := id) (fun x => (h x).trans (id_map _).symm) xs
  rwa [List.map_id_fun, id_map] at hid

theorem renumber_foldlM {f : β → α → Report β} (h : ∀ b x, (f b x).renumber r = f b x)
    (b : β) (xs : List α) : (xs.foldlM f b).renumber r = xs.foldlM f b := by
  induction xs generalizing b with
  | nil => rfl
  | cons x xs ih => simp [h, ih]

end Report

namespace Flat

namespace Survey

/-- Two walks over a graph that differ in the numbers of its states. -/
structure Renumbers (r : StateId → StateId) (v w : Survey) : Prop where
  leaves : w.leaves = v.leaves.map (Leaf.renumber r)
  subs : w.subs = v.subs.map (Sub.renumber r)
  leafIndex : ∀ id, w.leafIndex[r id]? = v.leafIndex[id]?
  subIndex : ∀ id, w.subIndex[r id]? = v.subIndex[id]?
  clipCount : w.clipCount = v.clipCount
  postOrder : w.postOrder = v.postOrder
  notices : w.notices = v.notices.map (Notice.renumber r)

theorem getElem?_insert_renumber (hr : r.Injective) {m m' : Std.HashMap StateId Nat}
    (h : ∀ id, m'[r id]? = m[id]?) (key : StateId) (i : Nat) (id : StateId) :
    (m'.insert (r key) i)[r id]? = (m.insert key i)[id]? := by
  simp only [Std.HashMap.getElem?_insert, beq_iff_eq, hr.eq_iff, h]

theorem contains_renumber {m m' : Std.HashMap StateId Nat} (h : ∀ id, m'[r id]? = m[id]?)
    (id : StateId) : m'.contains (r id) = m.contains id := by
  simp only [Std.HashMap.contains_eq_isSome_getElem?, h]

namespace Renumbers

variable {v w : Survey}

theorem noteIf (h : v.Renumbers r w) (c : Bool) (n : Notice) :
    (v.noteIf c n).Renumbers r (w.noteIf c (n.renumber r)) := by
  rw [noteIf_eq, noteIf_eq]
  refine ⟨h.leaves, h.subs, h.leafIndex, h.subIndex, h.clipCount, h.postOrder, ?_⟩
  cases c with
  | true => simp [h.notices]
  | false => exact h.notices

theorem addLeaf (hr : r.Injective) (h : v.Renumbers r w) (parent : Option Nat) (path : String)
    (node : Node) (motion : Motion) :
    (v.addLeaf parent path node motion).Renumbers r
      (w.addLeaf parent path (node.renumber r) motion) := by
  have hreused : w.leafIndex.contains (node.renumber r).id = v.leafIndex.contains node.id :=
    contains_renumber h.leafIndex node.id
  have hnoted : (v.noteIf (v.leafIndex.contains node.id) (.reusedId node.id path)).Renumbers r
      (w.noteIf (v.leafIndex.contains node.id) (.reusedId (node.renumber r).id path)) :=
    h.noteIf _ (.reusedId node.id path)
  rw [Survey.addLeaf, Survey.addLeaf, hreused]
  -- From here on the notice does not matter.
  generalize v.noteIf _ _ = v, w.noteIf _ _ = w at hnoted ⊢
  constructor
  case leaves =>
    simp only [hnoted.leaves, hnoted.clipCount, Array.map_push, Array.size_map]
    rfl
  case leafIndex =>
    simp only [hnoted.leaves, Array.size_map]
    exact getElem?_insert_renumber hr hnoted.leafIndex node.id _
  case clipCount => exact congrArg (· + motion.clipCount) hnoted.clipCount
  exacts [hnoted.subs, hnoted.subIndex, hnoted.postOrder, hnoted.notices]

theorem isEmpty_transitions (node : Node) :
    (node.renumber r).transitions.isEmpty = node.transitions.isEmpty :=
  List.isEmpty_map

theorem skip (h : v.Renumbers r w) (path : String) (node : Node) :
    (v.skip path node).Renumbers r (w.skip path (node.renumber r)) := by
  rw [Survey.skip, Survey.skip, isEmpty_transitions]
  exact (h.noteIf _ (.containerTransitions path)).noteIf true (.missingMachine path)

theorem enter (hr : r.Injective) (h : v.Renumbers r w) (parent : Option Nat) (level : UInt16)
    (path : String) (node : Node) (border : Border) (declares : Bool) :
    (v.enter parent level path node border declares).Renumbers r
      (w.enter parent level path (node.renumber r) (border.renumber r) declares) := by
  have hnoted := (h.noteIf (!node.transitions.isEmpty) (.containerTransitions path)).noteIf
    declares (.nestedDeclarations path)
  rw [Survey.enter, Survey.enter, isEmpty_transitions]
  simp only [Notice.renumber] at hnoted
  generalize (v.noteIf _ _).noteIf _ _ = v, (w.noteIf _ _).noteIf _ _ = w at hnoted ⊢
  constructor
  case subs =>
    simp only [hnoted.subs, Array.map_push, Array.size_map]
    rfl
  case subIndex =>
    simp only [hnoted.subs, Array.size_map]
    exact getElem?_insert_renumber hr hnoted.subIndex node.id _
  exacts [hnoted.leaves, hnoted.leafIndex, hnoted.clipCount, hnoted.postOrder, hnoted.notices]

theorem leave (h : v.Renumbers r w) (i : Nat) : (v.leave i).Renumbers r (w.leave i) :=
  ⟨h.leaves, h.subs, h.leafIndex, h.subIndex, h.clipCount, congrArg (·.push i) h.postOrder,
    h.notices⟩

theorem size_subs (h : v.Renumbers r w) : w.subs.size = v.subs.size := by
  simp [h.subs]

end Renumbers

/-- Walks over a graph before and after its states are renumbered stay in step. -/
theorem renumbers_visitAll (hr : r.Injective) (parent : Option Nat) (level : UInt16)
    (path : String) (ss : List State) {v w : Survey} (h : v.Renumbers r w) :
    (visitAll parent level path ss v).Renumbers r
      (visitAll parent level path (State.renumberAll r ss) w) := by
  refine visitAll.induct
    (fun parent level path s v => ∀ w, v.Renumbers r w →
      (visit parent level path s v).Renumbers r (visit parent level path (s.renumber r) w))
    (fun parent level path ss v => ∀ w, v.Renumbers r w →
      (visitAll parent level path ss v).Renumbers r
        (visitAll parent level path (State.renumberAll r ss) w))
    ?leaf ?missing ?nested ?nil ?cons parent level path ss v w h
  case leaf =>
    intro parent level path node motion v w h
    simp only [State.renumber, visit]
    exact h.addLeaf hr parent _ node motion
  case missing =>
    intro parent level path node border v w h
    simp only [State.renumber, visit]
    exact h.skip _ node
  case nested =>
    intro parent level path node border name parameters states default any v
    dsimp only
    intro ih w h
    simp only [State.renumber, visit, List.isEmpty_map, h.size_subs]
    exact (ih _ (h.enter hr parent (level + 1) _ node border _)).leave _
  case nil =>
    intro parent level path v w h
    exact h
  case cons =>
    intro parent level path s ss v ihs ihss w h
    exact ihss _ (ihs w h)

theorem renumbers_ofMachine (hr : r.Injective) (m : Machine) :
    (ofMachine m).Renumbers r (ofMachine (m.renumber r)) := by
  refine renumbers_visitAll hr none 0 m.name m.states ?_
  constructor <;> simp

end Survey

/-- The tables find under new numbers what the graph finds under the old ones. -/
structure Finds (f : Flat) (r : StateId → StateId) (leafIndex subIndex : Std.HashMap StateId Nat) :
    Prop where
  leaf : ∀ id, leafIndex[r id]? = f.leafIndex[id]?
  sub : ∀ id, subIndex[r id]? = f.subIndex[id]?

section Passes

variable {f : Flat} {L S : Std.HashMap StateId Nat}

theorem renumber_fallBack (strict : Bool) (e : BakeError) :
    (fallBack strict e).renumber r = fallBack strict (e.renumber r) := by
  cases strict <;> rfl

theorem getElem?_subs_renumber (i : Nat) :
    (f.renumber r L S).subs[i]? = f.subs[i]?.map (Sub.renumber r) :=
  Array.getElem?_map

theorem encloses_renumber (sub n : Nat) (inner : Option Nat) :
    (f.renumber r L S).encloses sub n inner = f.encloses sub n inner := by
  induction n generalizing inner with
  | zero => cases inner <;> rfl
  | succ n ih =>
      cases inner with
      | none => rfl
      | some inner =>
          rw [encloses, encloses, ih, getElem?_subs_renumber]
          cases f.subs[inner]? <;> rfl

theorem isInside?_renumber (leaf sub : Nat) :
    (f.renumber r L S).isInside? leaf sub = f.isInside? leaf sub := by
  have hleaf : (f.renumber r L S).leaves[leaf]? = f.leaves[leaf]?.map (Leaf.renumber r) :=
    Array.getElem?_map
  have hsize : (f.renumber r L S).subs.size = f.subs.size := Array.size_map
  simp only [isInside?, hleaf, hsize, encloses_renumber, Option.map_map]
  rfl

/-- New numbers for leaves on their way to an exit group, and for the notices of that. -/
def renumberClaims (r : StateId → StateId) :
    Array Leaf × Array Notice → Array Leaf × Array Notice :=
  Prod.map (Array.map (Leaf.renumber r)) (Array.map (Notice.renumber r))

theorem claim_renumber (group : Nat) (acc : Array Leaf × Array Notice) (leaf : Nat) :
    claim group (renumberClaims r acc) leaf = renumberClaims r (claim group acc leaf) := by
  obtain ⟨leaves, notices⟩ := acc
  simp only [claim, renumberClaims, Prod.map_apply, Array.getElem?_map]
  cases leaves[leaf]? with
  | none => rfl
  | some l =>
      obtain ⟨index, clipOffset, path, exitGroup, parent, node, motion⟩ := l
      cases exitGroup with
      | none => simp [Leaf.renumber]
      | some g => simp [Leaf.renumber, Notice.renumber]

theorem claimAll_renumber (groups : List ExitGroup) (leaves : Array Leaf) :
    claimAll (groups.map (ExitGroup.renumber r)) (leaves.map (Leaf.renumber r)) =
      renumberClaims r (claimAll groups leaves) := by
  have hstart : (leaves.map (Leaf.renumber r), #[]) = renumberClaims r (leaves, #[]) := by
    simp [renumberClaims]
  rw [claimAll, List.zipIdx_map, List.foldl_map, hstart]
  refine List.foldl_hom (renumberClaims r) fun acc g => ?_
  exact List.foldl_hom (renumberClaims r) (claim_renumber g.2)

variable (h : f.Finds r L S)

include h

theorem Finds.leafIndex (id : StateId) :
    (f.renumber r L S).leafIndex[r id]? = f.leafIndex[id]? :=
  h.leaf id

theorem Finds.subIndex (id : StateId) :
    (f.renumber r L S).subIndex[r id]? = f.subIndex[id]? :=
  h.sub id

theorem followEntry_renumber (n sub : Nat) :
    (f.renumber r L S).followEntry n sub = f.followEntry n sub := by
  induction n generalizing sub with
  | zero => rfl
  | succ n ih =>
      have hentry : (f.renumber r L S).subs[sub]?.bind (·.border.entry) =
          (f.subs[sub]?.bind (·.border.entry)).map r := by
        rw [getElem?_subs_renumber]
        cases f.subs[sub]? <;> rfl
      rw [followEntry, followEntry, hentry]
      cases f.subs[sub]?.bind (·.border.entry) with
      | none => rfl
      | some id =>
          simp only [Option.map_some, h.leafIndex, h.subIndex, ih]

theorem resolveEntry_renumber (s : Sub) :
    (f.renumber r L S).resolveEntry (s.renumber r) = (f.resolveEntry s).renumber r := by
  have hsize : (f.renumber r L S).subs.size = f.subs.size := Array.size_map
  have hindex : (s.renumber r).index = s.index := rfl
  simp only [resolveEntry, hsize, hindex, followEntry_renumber h]
  cases f.followEntry (f.subs.size + 1) s.index with
  | leaf leaf => rfl
  | deadEnd => exact (renumber_fallBack _ (.unresolvedEntry s.path)).symm
  | cycle => exact (renumber_fallBack _ (.entryCycle s.path)).symm

theorem resolveTarget_renumber (id : StateId) :
    (f.renumber r L S).resolveTarget (r id) = (f.resolveTarget id).renumber r := by
  have hsub : (f.renumber r L S).subIndex[r id]?.bind ((f.renumber r L S).subs[·]?) =
      (f.subIndex[id]?.bind (f.subs[·]?)).map (Sub.renumber r) := by
    rw [h.subIndex]
    cases f.subIndex[id]? with
    | none => rfl
    | some i => exact getElem?_subs_renumber i
  simp only [resolveTarget, h.leafIndex, hsub]
  cases f.leafIndex[id]? with
  | some leaf => rfl
  | none =>
      cases f.subIndex[id]?.bind (f.subs[·]?) with
      | some s => rfl
      | none => exact (renumber_fallBack _ (.unresolvedTarget id)).symm

theorem resolveTransitions_renumber (ts : List Transition) :
    (f.renumber r L S).resolveTransitions (ts.map (Transition.renumber r)) =
      List.map (Resolved.renumber r) <$> (f.resolveTransitions ts).renumber r := by
  refine Report.mapM_renumber (fun t => ?_) ts
  have htarget := resolveTarget_renumber h t.target
  simp only [Transition.renumber, htarget, Report.renumber_bind, Report.renumber_pure, map_bind,
    map_pure]
  rfl

theorem exitState_renumber (sub : Nat) (id : StateId) :
    (f.renumber r L S).exitState sub (r id) = f.exitState sub id := by
  simp only [exitState, h.leafIndex, isInside?_renumber]

theorem exitLeaves_renumber (sub : Nat) (ids : List StateId) :
    (f.renumber r L S).exitLeaves sub (ids.map r) = f.exitLeaves sub ids := by
  simp only [exitLeaves, List.filterMap_map, Function.comp_def, exitState_renumber h]

theorem exitNotices_renumber (s : Sub) :
    (f.renumber r L S).exitNotices (s.renumber r) =
      (f.exitNotices s).map (Notice.renumber r) := by
  have hstates : (s.renumber r).border.exitStates = s.border.exitStates.map r := rfl
  have hindex : (s.renumber r).index = s.index := rfl
  have hpath : (s.renumber r).path = s.path := rfl
  simp only [exitNotices, hstates, hindex, hpath, List.filterMap_map, List.map_filterMap,
    Function.comp_def, exitState_renumber h]
  congr 1
  funext id
  cases f.exitState s.index id <;> rfl

theorem exitGroup?_renumber (warn : Bool) (s : Sub) :
    (f.renumber r L S).exitGroup? warn (s.renumber r) =
      Option.map (ExitGroup.renumber r) <$> (f.exitGroup? warn s).renumber r := by
  have hstates : (s.renumber r).border.exitStates = s.border.exitStates.map r := rfl
  have htransitions : (s.renumber r).border.exitTransitions =
      s.border.exitTransitions.map (Transition.renumber r) := rfl
  have hindex : (s.renumber r).index = s.index := rfl
  have hpath : (s.renumber r).path = s.path := rfl
  unfold exitGroup?
  rw [exitNotices_renumber h, hstates, htransitions, hindex, hpath]
  cases hids : s.border.exitStates with
  | nil =>
      cases s.border.exitTransitions with
      | nil => rfl
      | cons t ts => cases warn <;> rfl
  | cons id ids =>
      cases hts : s.border.exitTransitions with
      | nil => cases warn <;> rfl
      | cons t ts =>
          have hleaves := exitLeaves_renumber h s.index (id :: ids)
          have hresolved := resolveTransitions_renumber h (t :: ts)
          simp only [List.map_cons] at hleaves hresolved
          simp only [List.map_cons, hleaves, hresolved]
          cases f.exitLeaves s.index (id :: ids) with
          | nil =>
              simp only [Report.renumber_bind, Report.renumber_tell, Report.renumber_pure,
                map_bind, map_pure]
              rfl
          | cons leaf leaves =>
              simp only [Report.renumber_bind, Report.renumber_tell, Report.renumber_pure,
                map_bind, map_pure, bind_map_left]
              rfl

theorem startLeaf_renumber :
    (f.renumber r L S).startLeaf = f.startLeaf.renumber r := by
  have hempty : (f.renumber r L S).leaves.isEmpty = f.leaves.isEmpty := by
    simp [renumber, Array.isEmpty]
  have hdefault : (f.renumber r L S).machine.defaultState = f.machine.defaultState.map r := rfl
  simp only [startLeaf, hempty, hdefault]
  by_cases hleaves : f.leaves.isEmpty = true
  · simp only [hleaves, if_true]
    rfl
  · simp only [hleaves]
    cases f.machine.defaultState with
    | some id => exact resolveTarget_renumber h id
    | none => exact (renumber_fallBack _ .missingDefault).symm

theorem withEntries_renumber :
    (f.renumber r L S).withEntries = Flat.renumber r L S <$> f.withEntries.renumber r := by
  have hsubs : (f.renumber r L S).subs.toList = f.subs.toList.map (Sub.renumber r) :=
    Array.toList_map
  rw [withEntries, withEntries, hsubs, Report.renumber_bind,
    Report.mapM_renumber (f := fun s => do let entry ← f.resolveEntry s; pure { s with entry })
      (g := Sub.renumber r), bind_map_left, map_bind]
  · refine bind_congr fun subs => ?_
    simp [renumber]
  · intro s
    simp only [resolveEntry_renumber h, Report.renumber_bind, Report.renumber_pure, map_bind,
      map_pure]
    rfl

theorem withExitGroups_renumber (warn : Bool) (postOrder : List Nat) :
    (f.renumber r L S).withExitGroups warn postOrder =
      Flat.renumber r L S <$> (f.withExitGroups warn postOrder).renumber r := by
  have hsubs : postOrder.filterMap ((f.renumber r L S).subs[·]?) =
      (postOrder.filterMap (f.subs[·]?)).map (Sub.renumber r) := by
    simp only [getElem?_subs_renumber, List.map_filterMap]
  have hgroups (found : List (Option ExitGroup)) :
      (found.map (Option.map (ExitGroup.renumber r))).filterMap id =
        (found.filterMap id).map (ExitGroup.renumber r) := by
    simp [List.filterMap_map, List.map_filterMap]
  have hleaves : (f.renumber r L S).leaves = f.leaves.map (Leaf.renumber r) := rfl
  simp only [withExitGroups, hsubs, Report.mapM_renumber (exitGroup?_renumber h warn),
    bind_map_left, hgroups, hleaves, claimAll_renumber, Report.renumber_bind,
    Report.renumber_pure, Report.renumber_tell, map_bind, map_pure]
  refine bind_congr fun found => ?_
  simp [renumber, renumberClaims]

theorem Finds.withEntries {g : Flat} (hg : f.withEntries.outcome = .ok g) :
    g.Finds r L S := by
  obtain ⟨subs, rfl, -⟩ := withEntries_eq_ok hg
  exact ⟨h.leaf, h.sub⟩

theorem Finds.withExitGroups {g : Flat} {warn : Bool} {postOrder : List Nat}
    (hg : (f.withExitGroups warn postOrder).outcome = .ok g) : g.Finds r L S := by
  obtain ⟨found, -, rfl⟩ := withExitGroups_eq_ok hg
  exact ⟨h.leaf, h.sub⟩

end Passes

/-- The flattened graph of a renumbered machine is the one of the machine, renumbered. -/
theorem ofMachine_renumber (hr : r.Injective) (m : Machine) (cfg : Config) :
    ofMachine (m.renumber r) cfg =
      Flat.renumber r (Survey.ofMachine (m.renumber r)).leafIndex
        (Survey.ofMachine (m.renumber r)).subIndex <$> (ofMachine m cfg).renumber r := by
  have hsurvey := Survey.renumbers_ofMachine hr m
  have hstart : ofSurvey (m.renumber r) cfg.strictResolution (Survey.ofMachine (m.renumber r)) =
      (ofSurvey m cfg.strictResolution (Survey.ofMachine m)).renumber r
        (Survey.ofMachine (m.renumber r)).leafIndex (Survey.ofMachine (m.renumber r)).subIndex := by
    simp [ofSurvey, renumber, hsurvey.leaves, hsurvey.subs, hsurvey.clipCount]
  simp only [ofMachine, hstart, hsurvey.notices, hsurvey.clipCount, hsurvey.postOrder]
  have hfinds : (ofSurvey m cfg.strictResolution (Survey.ofMachine m)).Finds r
      (Survey.ofMachine (m.renumber r)).leafIndex (Survey.ofMachine (m.renumber r)).subIndex :=
    ⟨hsurvey.leafIndex, hsurvey.subIndex⟩
  have hnotices : ((Survey.ofMachine m).notices.map (Notice.renumber r)).toList =
      (Survey.ofMachine m).notices.toList.map (Notice.renumber r) := Array.toList_map
  rw [hnotices, Report.renumber_bind, Report.renumber_tell, map_bind]
  refine bind_congr fun _ => ?_
  split
  · rfl
  · rw [withEntries_renumber hfinds, bind_map_left, Report.renumber_bind, map_bind]
    refine Report.bind_congr_ok fun f hf => ?_
    have hfinds := hfinds.withEntries (Report.outcome_renumber_eq_ok.mp hf)
    rw [withExitGroups_renumber hfinds, bind_map_left, Report.renumber_bind, map_bind]
    refine Report.bind_congr_ok fun g hg => ?_
    have hfinds := hfinds.withExitGroups (Report.outcome_renumber_eq_ok.mp hg)
    rw [startLeaf_renumber hfinds, Report.renumber_bind, map_bind]
    refine bind_congr fun leaf => ?_
    simp [renumber, Notice.renumber, Machine.renumber]

end Flat

end PoseMachine
