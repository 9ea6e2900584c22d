import Mathlib.Tactic.Common
import PoseMachine.Flat.Survey

/-!
What a walk over a graph has numbered: the leaves and nested machines of the graph in order, each
nested machine before all that lies inside it, and clips one leaf after another.
-/

namespace PoseMachine

namespace State

def leaf? : State → Option (Node × Motion)
  | .leaf node motion => some (node, motion)
  | .container _ _ _ => none

/-- What a container with a machine of its own has. -/
def nested? : State → Option (Node × Border)
  | .container node border (some _) => some (node, border)
  | _ => none

theorem isSome_leaf? (s : State) : s.leaf?.isSome = s.isLeaf := by
  cases s <;> rfl

end State

namespace Machine

/-- The leaves of all levels, depth first. -/
def leaves (m : Machine) : List (Node × Motion) := m.allStates.filterMap State.leaf?

/-- The containers of nested machines of all levels, depth first. -/
def nested (m : Machine) : List (Node × Border) := m.allStates.filterMap State.nested?

/-- The number of nested machines of all levels. -/
def subCount (m : Machine) : Nat := m.allStates.countP (·.nested?.isSome)

theorem length_leaves (m : Machine) : m.leaves.length = m.leafCount := by
  simp only [leaves, leafCount, List.length_filterMap_eq_countP, State.isSome_leaf?]

theorem length_nested (m : Machine) : m.nested.length = m.subCount :=
  List.length_filterMap_eq_countP

end Machine

namespace Flat.Survey

theorem lt_of_getElem?_insert {m : Std.HashMap StateId Nat} {n : Nat} (key : StateId)
    (hm : ∀ (id : StateId) i, m[id]? = some i → i < n) (id : StateId) (i : Nat)
    (h : (m.insert key n)[id]? = some i) : i < n + 1 := by
  rw [Std.HashMap.getElem?_insert] at h
  split at h
  · obtain rfl := Option.some.inj h
    exact Nat.lt_succ_self _
  · exact Nat.lt_succ_of_lt (hm id i h)

theorem noteIf_eq (v : Survey) (c : Bool) (n : Notice) :
    v.noteIf c n = { v with notices := if c then v.notices.push n else v.notices } := by
  cases c <;> rfl

variable {v : Survey} {parent : Option Nat} (level : UInt16) (path : String) (node : Node)
  (motion : Motion) (border : Border) (declares : Bool) (i : Nat)

def leafParts (v : Survey) : List (Node × Motion) := v.leaves.toList.map fun l => (l.node, l.motion)

def subParts (v : Survey) : List (Node × Border) := v.subs.toList.map fun s => (s.node, s.border)

/-- A walk numbers every leaf and every nested machine once, and records the latter once more when
it leaves them. -/
theorem visitAll_spec (parent : Option Nat) (ss : List State) (v : Survey) :
    (visitAll parent level path ss v).leafParts = v.leafParts ++ (forest ss).filterMap State.leaf? ∧
      (visitAll parent level path ss v).subParts =
        v.subParts ++ (forest ss).filterMap State.nested? ∧
      (visitAll parent level path ss v).postOrder.size =
        v.postOrder.size + ((forest ss).filterMap State.nested?).length := by
  refine visitAll.induct
    (fun parent level path s v =>
      (visit parent level path s v).leafParts = v.leafParts ++ s.subtree.filterMap State.leaf? ∧
        (visit parent level path s v).subParts =
          v.subParts ++ s.subtree.filterMap State.nested? ∧
        (visit parent level path s v).postOrder.size =
          v.postOrder.size + (s.subtree.filterMap State.nested?).length)
    (fun parent level path ss v =>
      (visitAll parent level path ss v).leafParts =
          v.leafParts ++ (forest ss).filterMap State.leaf? ∧
        (visitAll parent level path ss v).subParts =
          v.subParts ++ (forest ss).filterMap State.nested? ∧
        (visitAll parent level path ss v).postOrder.size =
          v.postOrder.size + ((forest ss).filterMap State.nested?).length)
    ?leaf ?missing ?nested ?nil ?cons parent level path ss v
  case leaf =>
    intro parent level path node motion v
    simp [visit, addLeaf, noteIf_eq, leafParts, subParts, State.subtree, State.leaf?, State.nested?]
  case missing =>
    intro parent level path node border v
    simp [visit, skip, noteIf_eq, leafParts, subParts, State.subtree, State.leaf?, State.nested?]
  case nested =>
    intro parent level path node border name parameters states default any v
    dsimp only
    rintro ⟨hleaves, hsubs, hpost⟩
    refine ⟨?_, ?_, ?_⟩
    · simp only [visit, State.subtree, List.filterMap_cons, State.leaf?]
      exact hleaves.trans (by simp [leafParts, enter, noteIf_eq])
    · simp only [visit, State.subtree, List.filterMap_cons, State.nested?]
      exact hsubs.trans (by simp [subParts, enter, noteIf_eq])
    · simp only [visit, State.subtree, List.filterMap_cons, State.nested?, leave, Array.size_push,
        hpost, List.length_cons]
      simp [enter, noteIf_eq, Nat.add_assoc]
  case nil =>
    intro parent level path v
    simp [visitAll, forest]
  case cons =>
    rintro parent level path s ss v ⟨hl, hs, hp⟩ ⟨hl', hs', hp'⟩
    simp only [visitAll, forest, List.filterMap_append, List.length_append, hl, hs, hp, hl', hs',
      hp', List.append_assoc, Nat.add_assoc, and_self]

/-- What each step of a walk keeps, the whole walk keeps. A step refers to a machine around it only
if that one has a number already. -/
theorem visitAll_induction {P : Survey → Prop}
    (hleaf : ∀ v parent path node motion, (∀ k ∈ parent, k < v.subs.size) → P v →
      P (v.addLeaf parent path node motion))
    (hskip : ∀ v path node, P v → P (v.skip path node))
    (henter : ∀ v parent level path node border declares, (∀ k ∈ parent, k < v.subs.size) → P v →
      P (v.enter parent level path node border declares))
    (hleave : ∀ v i, P v → P (v.leave i))
    (ss : List State) (hparent : ∀ k ∈ parent, k < v.subs.size) (hv : P v) :
    P (visitAll parent level path ss v) := by
  refine (visitAll.induct
    (fun parent level path s v => (∀ k ∈ parent, k < v.subs.size) → P v →
      P (visit parent level path s v) ∧ ∀ k ∈ parent, k < (visit parent level path s v).subs.size)
    (fun parent level path ss v => (∀ k ∈ parent, k < v.subs.size) → P v →
      P (visitAll parent level path ss v))
    ?leaf ?missing ?nested ?nil ?cons parent level path ss v) hparent hv
  case leaf =>
    intro parent level path node motion v hparent hv
    refine ⟨hleaf v parent _ node motion hparent hv, ?_⟩
    simpa [visit, addLeaf, noteIf_eq] using hparent
  case missing =>
    intro parent level path node border v hparent hv
    refine ⟨hskip v _ node hv, ?_⟩
    simpa [visit, skip, noteIf_eq] using hparent
  case nested =>
    intro parent level path node border name parameters states default any v
    dsimp only
    intro ih hparent hv
    have hentered := henter v parent (level + 1) (path ++ "/" ++ node.name) node border
      (!parameters.isEmpty || !any.isEmpty) hparent hv
    simp only [visit]
    refine ⟨hleave _ _ (ih (by simp [enter, noteIf_eq]) hentered), ?_⟩
    intro k hk
    have hsize := congrArg List.length (visitAll_spec (level + 1) (path ++ "/" ++ node.name)
      (some v.subs.size) states (v.enter parent (level + 1) (path ++ "/" ++ node.name) node border
        (!parameters.isEmpty || !any.isEmpty))).2.1
    simp only [subParts, List.length_append, List.length_map, Array.length_toList] at hsize
    have hlt := hparent k hk
    simp only [leave, hsize]
    simp only [enter, noteIf_eq, Array.size_push]
    omega
  case nil =>
    intro parent level path v _ hv
    exact hv
  case cons =>
    intro parent level path s ss v ihs ihss hparent hv
    obtain ⟨hvisit, hparent⟩ := ihs hparent hv
    exact ihss hparent hvisit

/-- A walk in progress. Machines lie inside earlier ones only, clips are handed out without gaps,
and what a number stands for has been visited. -/
structure Sound (v : Survey) : Prop where
  leaf_parent : ∀ l ∈ v.leaves, ∀ k ∈ l.parent, k < v.subs.size
  leaf_clips : ∀ l ∈ v.leaves, l.clipOffset + l.motion.clipCount ≤ v.clipCount
  leaf_exitGroup : ∀ l ∈ v.leaves, l.exitGroup = none
  clipCount : v.clipCount = (v.leaves.toList.flatMap (·.motion.clips)).length
  sub_index : ∀ i (s : Sub), v.subs[i]? = some s → s.index = i
  sub_parent : ∀ i (s : Sub), v.subs[i]? = some s → ∀ k ∈ s.parent, k < i
  sub_entry : ∀ s ∈ v.subs, s.entry = 0
  leafIndex : ∀ (id : StateId) i, v.leafIndex[id]? = some i → i < v.leaves.size
  subIndex : ∀ (id : StateId) i, v.subIndex[id]? = some i → i < v.subs.size

namespace Sound

theorem empty : Sound {} := by
  constructor <;> simp

theorem addLeaf (hv : v.Sound) (hparent : ∀ k ∈ parent, k < v.subs.size) :
    (v.addLeaf parent path node motion).Sound := by
  simp only [Survey.addLeaf, noteIf_eq]
  constructor
  case leaf_parent => exact Array.forall_mem_push.mpr ⟨hparent, hv.leaf_parent⟩
  case leaf_clips =>
    refine Array.forall_mem_push.mpr ⟨Nat.le_refl _, ?_⟩
    intro l hl
    exact Nat.le_add_right_of_le (hv.leaf_clips l hl)
  case leaf_exitGroup => exact Array.forall_mem_push.mpr ⟨rfl, hv.leaf_exitGroup⟩
  case clipCount => simp [hv.clipCount, Motion.length_clips]
  case leafIndex =>
    rw [Array.size_push]
    exact lt_of_getElem?_insert node.id hv.leafIndex
  exacts [hv.sub_index, hv.sub_parent, hv.sub_entry, hv.subIndex]

theorem skip (hv : v.Sound) : (v.skip path node).Sound := by
  simp only [Survey.skip, noteIf_eq]
  exact ⟨hv.leaf_parent, hv.leaf_clips, hv.leaf_exitGroup, hv.clipCount, hv.sub_index,
    hv.sub_parent, hv.sub_entry, hv.leafIndex, hv.subIndex⟩

theorem enter (hv : v.Sound) (hparent : ∀ k ∈ parent, k < v.subs.size) :
    (v.enter parent level path node border declares).Sound := by
  simp only [Survey.enter, noteIf_eq]
  constructor
  case leaf_parent =>
    intro l hl k hk
    rw [Array.size_push]
    exact Nat.lt_succ_of_lt (hv.leaf_parent l hl k hk)
  case sub_index =>
    intro i s hs
    rw [Array.getElem?_push] at hs
    split at hs
    · next hi =>
      obtain rfl := Option.some.inj hs
      exact hi.symm
    · exact hv.sub_index i s hs
  case sub_parent =>
    intro i s hs
    rw [Array.getElem?_push] at hs
    split at hs
    · next hi =>
      obtain rfl := Option.some.inj hs
      rw [hi]
      exact hparent
    · exact hv.sub_parent i s hs
  case sub_entry => exact Array.forall_mem_push.mpr ⟨rfl, hv.sub_entry⟩
  case subIndex =>
    rw [Array.size_push]
    exact lt_of_getElem?_insert node.id hv.subIndex
  exacts [hv.leaf_clips, hv.leaf_exitGroup, hv.clipCount, hv.leafIndex]

theorem leave (hv : v.Sound) : (v.leave i).Sound :=
  ⟨hv.leaf_parent, hv.leaf_clips, hv.leaf_exitGroup, hv.clipCount, hv.sub_index, hv.sub_parent,
    hv.sub_entry, hv.leafIndex, hv.subIndex⟩

theorem ofMachine (m : Machine) : (ofMachine m).Sound :=
  visitAll_induction 0 m.name
    (fun _ _ path node motion hparent hv => hv.addLeaf path node motion hparent)
    (fun _ path node hv => hv.skip path node)
    (fun _ _ level path node border declares hparent hv =>
      hv.enter level path node border declares hparent)
    (fun _ i hv => hv.leave i) m.states (by simp) empty

end Sound

theorem leafParts_ofMachine (m : Machine) : (ofMachine m).leafParts = m.leaves :=
  (visitAll_spec 0 m.name none m.states {}).1

theorem subParts_ofMachine (m : Machine) : (ofMachine m).subParts = m.nested :=
  (visitAll_spec 0 m.name none m.states {}).2.1

theorem size_postOrder_ofMachine (m : Machine) : (ofMachine m).postOrder.size = m.subCount := by
  rw [← Machine.length_nested]
  exact (visitAll_spec 0 m.name none m.states {}).2.2.trans (Nat.zero_add _)

end Flat.Survey

end PoseMachine
