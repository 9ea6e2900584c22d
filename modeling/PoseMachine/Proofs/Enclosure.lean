import PoseMachine.Proofs.Rooms

/-!
The nested machines around a leaf. Following parents finds the machines inside which the leaf was
authored, and a walk leaves the inner ones of them before the outer ones.
-/

namespace PoseMachine

mutual

/-- The numbers of the nested machines of a state, `k` others coming before them, each after those
inside it. -/
def State.postOrder (k : Nat) : State → List Nat
  | .leaf _ _ => []
  | .container _ _ none => []
  | .container _ _ (some ⟨_, _, states, _, _⟩) => forestPostOrder (k + 1) states ++ [k]

def forestPostOrder (k : Nat) : List State → List Nat
  | [] => []
  | s :: ss => s.postOrder k ++ forestPostOrder (k + s.subtree.countP (·.nested?.isSome)) ss

end

/-- Every nested machine comes once. -/
theorem perm_forestPostOrder (k : Nat) (ss : List State) :
    (forestPostOrder k ss).Perm (List.range' k ((forest ss).countP (·.nested?.isSome))) := by
  refine forestPostOrder.induct
    (fun k s => (s.postOrder k).Perm (List.range' k (s.subtree.countP (·.nested?.isSome))))
    (fun k ss =>
      (forestPostOrder k ss).Perm (List.range' k ((forest ss).countP (·.nested?.isSome))))
    ?leaf ?missing ?nested ?nil ?cons k ss
  case leaf =>
    intro k node motion
    simp [State.postOrder, State.subtree, State.nested?]
  case missing =>
    intro k node border
    simp [State.postOrder, State.subtree, State.nested?]
  case nested =>
    intro k node border name parameters states default any ih
    simp only [State.postOrder, State.subtree, List.countP_cons, State.nested?]
    exact (List.perm_append_comm.trans (.cons k ih)).trans (.of_eq (List.range'_succ ..).symm)
  case nil =>
    intro k
    simp [forestPostOrder, forest]
  case cons =>
    intro k s ss ihs ihss
    rw [forestPostOrder, forest, List.countP_append, ← List.range'_append_1]
    exact ihs.append ihss

/-- The machines around a leaf, from the innermost one out, are left in that order. -/
theorem exists_inner_of_mem_forestPlaces {around : List (Nat × String)} {k : Nat} {ss : List State}
    {p : Place} (hp : p ∈ forestPlaces around k ss) :
    ∃ inner, p.around = around ++ inner ∧
      (inner.map (·.1)).reverse.Sublist (forestPostOrder k ss) := by
  refine forestPlaces.induct
    (fun around k s => ∀ p ∈ s.places around k, ∃ inner, p.around = around ++ inner ∧
      (inner.map (·.1)).reverse.Sublist (s.postOrder k))
    (fun around k ss => ∀ p ∈ forestPlaces around k ss, ∃ inner, p.around = around ++ inner ∧
      (inner.map (·.1)).reverse.Sublist (forestPostOrder k ss))
    ?leaf ?missing ?nested ?nil ?cons around k ss p hp
  case leaf =>
    intro around k node motion p hp
    obtain rfl : p = ⟨around, node, motion⟩ := by simpa [State.places] using hp
    exact ⟨[], by simp, by simp⟩
  case missing =>
    intro around k node border p hp
    simp [State.places] at hp
  case nested =>
    intro around k node border name parameters states default any ih p hp
    rw [State.places] at hp
    obtain ⟨inner, haround, hsublist⟩ := ih p hp
    refine ⟨(k, node.name) :: inner, by rw [haround, List.append_assoc]; rfl, ?_⟩
    rw [State.postOrder, List.map_cons, List.reverse_cons]
    exact hsublist.append (List.Sublist.refl _)
  case nil =>
    intro around k p hp
    simp [forestPlaces] at hp
  case cons =>
    intro around k s ss ihs ihss p hp
    rw [forestPlaces] at hp
    rw [forestPostOrder]
    rcases List.mem_append.mp hp with hp | hp
    · obtain ⟨inner, haround, hsublist⟩ := ihs p hp
      exact ⟨inner, haround, hsublist.trans (List.sublist_append_left _ _)⟩
    · obtain ⟨inner, haround, hsublist⟩ := ihss p hp
      exact ⟨inner, haround, hsublist.trans (List.sublist_append_right _ _)⟩

/-- The numbers of the nested machines around a leaf, outermost first. -/
def Place.machines (p : Place) : List Nat := p.around.map (·.1)

namespace Machine

/-- The leaf `i` lies inside the nested machine `k`, at any depth. -/
def encloses (m : Machine) (k i : Nat) : Bool :=
  m.places[i]?.any fun p => decide (k ∈ p.machines)

theorem encloses_of_place {m : Machine} {i : Nat} {p : Place} (hp : m.places[i]? = some p)
    (k : Nat) : m.encloses k i = decide (k ∈ p.machines) := by
  rw [encloses, hp, Option.any_some]

/-- The numbers of all nested machines, each after those inside it. -/
def postOrder (m : Machine) : List Nat := forestPostOrder 0 m.states

theorem perm_postOrder (m : Machine) : m.postOrder.Perm (List.range m.subCount) := by
  rw [List.range_eq_range']
  exact perm_forestPostOrder 0 m.states

theorem nodup_postOrder (m : Machine) : m.postOrder.Nodup :=
  m.perm_postOrder.nodup_iff.mpr List.nodup_range

theorem length_machines_le {m : Machine} {p : Place} (hp : p ∈ m.places) :
    p.machines.length ≤ m.subCount := by
  rw [Place.machines, List.length_map]
  exact (within_of_mem_places hp).length_le

theorem lt_of_mem_machines {m : Machine} {p : Place} (hp : p ∈ m.places) :
    ∀ k ∈ p.machines, k < m.subCount := by
  intro k hk
  obtain ⟨x, hx, rfl⟩ := List.mem_map.mp hk
  exact (within_of_mem_places hp).lt_of_mem x hx

theorem reverse_machines_sublist {m : Machine} {p : Place} (hp : p ∈ m.places) :
    p.machines.reverse.Sublist m.postOrder := by
  obtain ⟨inner, haround, hsublist⟩ := exists_inner_of_mem_forestPlaces hp
  rw [Place.machines, haround]
  exact hsublist

end Machine

namespace Flat

namespace Survey

/-- A walk leaves nested machines in the order of the authored graph. -/
theorem postOrder_visitAll (level : UInt16) (path : String) (parent : Option Nat) (ss : List State)
    (v : Survey) :
    (visitAll parent level path ss v).postOrder.toList =
      v.postOrder.toList ++ forestPostOrder v.subs.size ss := by
  refine visitAll.induct
    (fun parent level path s v => (visit parent level path s v).postOrder.toList =
      v.postOrder.toList ++ s.postOrder v.subs.size)
    (fun parent level path ss v => (visitAll parent level path ss v).postOrder.toList =
      v.postOrder.toList ++ forestPostOrder v.subs.size ss)
    ?leaf ?missing ?nested ?nil ?cons parent level path ss v
  case leaf =>
    intro parent level path node motion v
    simp [visit, addLeaf, noteIf_eq, State.postOrder]
  case missing =>
    intro parent level path node border v
    simp [visit, skip, noteIf_eq, State.postOrder]
  case nested =>
    intro parent level path node border name parameters states default any v
    dsimp only
    intro ih
    simp only [visit, leave, Array.toList_push, ih, State.postOrder]
    simp [enter, noteIf_eq]
  case nil =>
    intro parent level path v
    simp [visitAll, forestPostOrder]
  case cons =>
    intro parent level path s ss v ihs ihss
    have hsize := congrArg List.length (visitAll_spec level path parent [s] v).2.1
    simp only [visitAll, subParts, forest, List.append_nil, List.length_append, List.length_map,
      Array.length_toList, List.length_filterMap_eq_countP] at hsize
    rw [visitAll, ihss, ihs, hsize, forestPostOrder, List.append_assoc]

theorem postOrder_ofMachine (m : Machine) : (ofMachine m).postOrder.toList = m.postOrder :=
  postOrder_visitAll 0 m.name none m.states {}

end Survey

variable {m : Machine} {f : Flat}

/-- The nested machines around a place, the innermost one first. -/
inductive Around (f : Flat) : Option Nat → List Nat → Prop
  | outermost : Around f none []
  | nested {k : Nat} {s : Sub} {chain : List Nat} :
      f.subs[k]? = some s → Around f s.parent chain → Around f (some k) (k :: chain)

/-- The walk from a machine outwards meets exactly the machines of its chain. -/
theorem Around.encloses_eq {k n : Nat} {inner : Option Nat} {chain : List Nat}
    (h : f.Around inner chain) (hn : chain.length ≤ n) :
    f.encloses k n inner = decide (k ∈ chain) := by
  induction h generalizing n with
  | outermost => cases n <;> simp [encloses]
  | @nested j s chain hs _ ih =>
      obtain ⟨n, rfl⟩ := Nat.exists_eq_add_one.mpr (Nat.zero_lt_of_lt hn)
      rw [encloses, hs, Option.bind_some, ih (Nat.le_of_succ_le_succ hn)]
      simp [Bool.beq_eq_decide_eq, eq_comm]

namespace Keeps

/-- Each leaf is the one at its place, its group apart. -/
theorem getElem?_leaves (h : f.Keeps (Survey.ofMachine m)) (i : Nat) :
    f.leaves[i]?.map Leaf.ungrouped =
      m.places[i]?.map (.ofPlace m.name i (placedClips (m.places.take i))) := by
  have hmap := congrArg (fun ls : Array Leaf => ls.toList[i]?) h.leaves
  simp only [Array.toList_map, List.getElem?_map, Array.getElem?_toList] at hmap
  rw [hmap, ← Array.getElem?_toList, (Survey.adds_ofMachine m).leaves]
  simp only [List.nil_append, getElem?_numbered, Option.map_map]
  exact Option.map_congr fun p _ => by simp [Leaf.ungrouped, Leaf.ofPlace]

/-- Each nested machine is the one at its room, its entry apart. -/
theorem getElem?_subs (h : f.Keeps (Survey.ofMachine m)) (k : Nat) :
    f.subs[k]?.map Sub.unentered = m.rooms[k]?.map fun r => .ofRoom m.name (r, k) := by
  have hmap := congrArg (fun ss : Array Sub => ss.toList[k]?) h.subs
  simp only [Array.toList_map, List.getElem?_map, Array.getElem?_toList] at hmap
  rw [hmap, ← Array.getElem?_toList, Survey.subs_ofMachine, getElem?_numberedRooms, Option.map_map,
    Nat.zero_add]
  rfl

theorem parent_leaf (h : f.Keeps (Survey.ofMachine m)) (i : Nat) :
    f.leaves[i]?.map (·.parent) = m.places[i]?.map Place.parent := by
  have hleaf := congrArg (Option.map (·.parent)) (h.getElem?_leaves i)
  rwa [Option.map_map, Option.map_map] at hleaf

theorem parent_sub (h : f.Keeps (Survey.ofMachine m)) (k : Nat) :
    f.subs[k]?.map (·.parent) = m.rooms[k]?.map Room.parent := by
  have hsub := congrArg (Option.map (·.parent)) (h.getElem?_subs k)
  rwa [Option.map_map, Option.map_map] at hsub

theorem size_subs (h : f.Keeps (Survey.ofMachine m)) : f.subs.size = m.subCount := by
  have hsize := congrArg (fun ss : Array Sub => ss.toList.length) h.subs
  simpa [Survey.subs_ofMachine, numberedRooms, Machine.length_rooms] using hsize

/-- The parents from inside `a` outwards are the machines of `a`. -/
theorem around (h : f.Keeps (Survey.ofMachine m)) {n : Nat} {a : List (Nat × String)}
    (ha : Within [] 0 m.rooms n a) :
    f.Around (a.getLast?.map (·.1)) (a.map (·.1)).reverse := by
  refine ha.outwards (P := fun _ a => f.Around (a.getLast?.map (·.1)) (a.map (·.1)).reverse)
    (fun _ => .outermost) ?_
  intro _ k r _ hr haround
  have hsub := h.parent_sub k
  rw [hr] at hsub
  obtain ⟨s, hs, hparent⟩ := Option.map_eq_some_iff.mp hsub
  rw [List.getLast?_concat, List.map_append, List.reverse_append]
  refine .nested hs ?_
  rw [hparent]
  exact haround

theorem around_leaf (h : f.Keeps (Survey.ofMachine m)) {i : Nat} {p : Place}
    (hp : m.places[i]? = some p) :
    ∃ l, f.leaves[i]? = some l ∧ f.Around l.parent p.machines.reverse := by
  have hparent := h.parent_leaf i
  rw [hp] at hparent
  obtain ⟨l, hl, hl'⟩ := Option.map_eq_some_iff.mp hparent
  refine ⟨l, hl, ?_⟩
  rw [hl']
  exact h.around (Machine.within_of_mem_places (List.mem_of_getElem? hp))

/-- A leaf lies inside the machines around its place. -/
theorem isInside?_eq (h : f.Keeps (Survey.ofMachine m)) (i k : Nat) :
    f.isInside? i k = m.places[i]?.map fun p => decide (k ∈ p.machines) := by
  cases hp : m.places[i]? with
  | none =>
      have hparent := h.parent_leaf i
      rw [hp] at hparent
      rw [isInside?, Option.map_eq_none_iff.mp hparent]
      rfl
  | some p =>
      obtain ⟨l, hl, haround⟩ := h.around_leaf hp
      have hlength : p.machines.reverse.length ≤ f.subs.size := by
        rw [List.length_reverse, h.size_subs]
        exact Machine.length_machines_le (List.mem_of_getElem? hp)
      rw [isInside?, hl, Option.map_some, Option.map_some, haround.encloses_eq hlength]
      simp

/-- A leaf lies inside a machine if it was authored there. -/
theorem isInside?_eq_true_iff (h : f.Keeps (Survey.ofMachine m)) (i k : Nat) :
    f.isInside? i k = some true ↔ m.encloses k i = true := by
  rw [h.isInside?_eq, Machine.encloses]
  cases m.places[i]? <;> simp

end Keeps

end Flat

end PoseMachine
