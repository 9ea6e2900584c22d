import PoseMachine.Proofs.Preorder

/-!
What a flattened graph records of its nested machines, said by recursion on the authored one: the
number of each, the machine around it, and its depth, of which only 16 bits are kept.
-/

namespace PoseMachine

/-- A nested machine with those around it, outermost first, each told by its number and its name. -/
structure Room where
  around : List (Nat × String)
  node : Node
  border : Border

mutual

/-- The nested machines of a state inside `around`, `k` others coming before them. -/
def State.rooms (around : List (Nat × String)) (k : Nat) : State → List Room
  | .leaf _ _ => []
  | .container _ _ none => []
  | .container node border (some ⟨_, _, states, _, _⟩) =>
    ⟨around, node, border⟩ :: forestRooms (around ++ [(k, node.name)]) (k + 1) states

def forestRooms (around : List (Nat × String)) (k : Nat) : List State → List Room
  | [] => []
  | s :: ss => s.rooms around k ++ forestRooms around (k + s.subtree.countP (·.nested?.isSome)) ss

end

namespace Room

/-- The names from the machine `root` down to the nested one. -/
def names (r : Room) (root : String) : List String := root :: r.around.map (·.2) ++ [r.node.name]

def parent (r : Room) : Option Nat := r.around.getLast?.map (·.1)

end Room

/-- The machines `a` around a place are `around`, or the place is directly inside one of the first
`n` rooms, which are numbered from `k` on. -/
def Within (around : List (Nat × String)) (k : Nat) (rooms : List Room) (n : Nat)
    (a : List (Nat × String)) : Prop :=
  a = around ∨ ∃ j r, j < n ∧ rooms[j]? = some r ∧ a = r.around ++ [(k + j, r.node.name)]

namespace Within

variable {around a : List (Nat × String)} {k n : Nat} {rooms rooms' : List Room}

theorem nested {node : Node} (border : Border)
    (h : Within (around ++ [(k, node.name)]) (k + 1) rooms n a) :
    Within around k (⟨around, node, border⟩ :: rooms) (n + 1) a := by
  rcases h with rfl | ⟨j, r, hj, hr, rfl⟩
  · exact .inr ⟨0, ⟨around, node, border⟩, Nat.succ_pos n, rfl, rfl⟩
  · exact .inr ⟨j + 1, r, by omega, hr, by rw [Nat.add_right_comm, Nat.add_assoc]⟩

theorem left (rooms' : List Room) (h : Within around k rooms n a) :
    Within around k (rooms ++ rooms') n a := by
  rcases h with rfl | ⟨j, r, hj, hr, rfl⟩
  · exact .inl rfl
  · have hlt := (List.getElem?_eq_some_iff.mp hr).1
    exact .inr ⟨j, r, hj, by rw [List.getElem?_append_left hlt, hr], rfl⟩

theorem right (rooms : List Room) (h : Within around (k + rooms.length) rooms' n a) :
    Within around k (rooms ++ rooms') (rooms.length + n) a := by
  rcases h with rfl | ⟨j, r, hj, hr, rfl⟩
  · exact .inl rfl
  · refine .inr ⟨rooms.length + j, r, by omega, ?_, by rw [Nat.add_assoc]⟩
    rw [List.getElem?_append_right (Nat.le_add_right _ _), Nat.add_sub_cancel_left, hr]

theorem mono {n' : Nat} (h : Within around k rooms n a) (hn : n ≤ n') :
    Within around k rooms n' a := by
  rcases h with rfl | ⟨j, r, hj, hr, rfl⟩
  · exact .inl rfl
  · exact .inr ⟨j, r, Nat.lt_of_lt_of_le hj hn, hr, rfl⟩

end Within

theorem map_forestRooms (around : List (Nat × String)) (k : Nat) (ss : List State) :
    ((forestRooms around k ss).map fun r => (r.node, r.border)) =
      (forest ss).filterMap State.nested? := by
  refine forestRooms.induct
    (fun around k s => ((s.rooms around k).map fun r => (r.node, r.border)) =
      s.subtree.filterMap State.nested?)
    (fun around k ss => ((forestRooms around k ss).map fun r => (r.node, r.border)) =
      (forest ss).filterMap State.nested?)
    ?leaf ?missing ?nested ?nil ?cons around k ss
  case leaf =>
    intro around k node motion
    simp [State.rooms, State.subtree, State.nested?]
  case missing =>
    intro around k node border
    simp [State.rooms, State.subtree, State.nested?]
  case nested =>
    intro around k node border name parameters states default any ih
    simp [State.rooms, State.subtree, State.nested?, ih]
  case nil =>
    intro around k
    simp [forestRooms, forest]
  case cons =>
    intro around k s ss ihs ihss
    simp [forestRooms, forest, ihs, ihss]

theorem length_forestRooms (around : List (Nat × String)) (k : Nat) (ss : List State) :
    (forestRooms around k ss).length = (forest ss).countP (·.nested?.isSome) := by
  rw [← List.length_filterMap_eq_countP, ← map_forestRooms around k, List.length_map]

theorem length_rooms (around : List (Nat × String)) (k : Nat) (s : State) :
    (s.rooms around k).length = s.subtree.countP (·.nested?.isSome) := by
  simpa [forestRooms, forest] using length_forestRooms around k [s]

/-- A room is directly inside `around` or inside an earlier room. -/
theorem within_of_getElem?_forestRooms {around : List (Nat × String)} {k : Nat} {ss : List State}
    {i : Nat} {r : Room} (hr : (forestRooms around k ss)[i]? = some r) :
    Within around k (forestRooms around k ss) i r.around := by
  refine forestRooms.induct
    (fun around k s => ∀ i r, (s.rooms around k)[i]? = some r →
      Within around k (s.rooms around k) i r.around)
    (fun around k ss => ∀ i r, (forestRooms around k ss)[i]? = some r →
      Within around k (forestRooms around k ss) i r.around)
    ?leaf ?missing ?nested ?nil ?cons around k ss i r hr
  case leaf =>
    intro around k node motion i r hr
    simp [State.rooms] at hr
  case missing =>
    intro around k node border i r hr
    simp [State.rooms] at hr
  case nested =>
    intro around k node border name parameters states default any ih i r hr
    rw [State.rooms] at hr ⊢
    cases i with
    | zero =>
        obtain rfl := Option.some.inj hr
        exact .inl rfl
    | succ i => exact (ih i r hr).nested border
  case nil =>
    intro around k i r hr
    simp [forestRooms] at hr
  case cons =>
    intro around k s ss ihs ihss i r hr
    rw [forestRooms] at hr ⊢
    rw [← length_rooms around k] at hr ihss ⊢
    by_cases hi : i < (s.rooms around k).length
    · rw [List.getElem?_append_left hi] at hr
      exact (ihs i r hr).left _
    · rw [List.getElem?_append_right (Nat.not_lt.mp hi)] at hr
      have h := (ihss _ r hr).right (s.rooms around k)
      rwa [Nat.add_sub_cancel' (Nat.not_lt.mp hi)] at h

/-- A leaf is directly inside `around` or inside a room. -/
theorem within_of_mem_forestPlaces {around : List (Nat × String)} {k : Nat} {ss : List State}
    {p : Place} (hp : p ∈ forestPlaces around k ss) :
    Within around k (forestRooms around k ss) (forestRooms around k ss).length p.around := by
  refine forestPlaces.induct
    (fun around k s => ∀ p ∈ s.places around k,
      Within around k (s.rooms around k) (s.rooms around k).length p.around)
    (fun around k ss => ∀ p ∈ forestPlaces around k ss,
      Within around k (forestRooms around k ss) (forestRooms around k ss).length p.around)
    ?leaf ?missing ?nested ?nil ?cons around k ss p hp
  case leaf =>
    intro around k node motion p hp
    obtain rfl : p = ⟨around, node, motion⟩ := by simpa [State.places] using hp
    exact .inl rfl
  case missing =>
    intro around k node border p hp
    simp [State.places] at hp
  case nested =>
    intro around k node border name parameters states default any ih p hp
    rw [State.places] at hp
    rw [State.rooms]
    exact (ih p hp).nested border
  case nil =>
    intro around k p hp
    simp [forestPlaces] at hp
  case cons =>
    intro around k s ss ihs ihss p hp
    rw [forestPlaces] at hp
    rw [forestRooms, ← length_rooms around k, List.length_append]
    rw [← length_rooms around k] at hp ihss
    rcases List.mem_append.mp hp with hp | hp
    · exact ((ihs p hp).left _).mono (Nat.le_add_right _ _)
    · exact (ihss p hp).right _

namespace Machine

/-- The nested machines of all levels, depth first. -/
def rooms (m : Machine) : List Room := forestRooms [] 0 m.states

theorem map_rooms (m : Machine) : (m.rooms.map fun r => (r.node, r.border)) = m.nested :=
  map_forestRooms [] 0 m.states

theorem length_rooms (m : Machine) : m.rooms.length = m.subCount :=
  length_forestRooms [] 0 m.states

theorem within_of_mem_places {m : Machine} {p : Place} (hp : p ∈ m.places) :
    Within [] 0 m.rooms m.subCount p.around := by
  rw [← m.length_rooms]
  exact within_of_mem_forestPlaces hp

end Machine

namespace Within

variable {m : Machine} {n : Nat} {a : List (Nat × String)}

/-- What holds outside all rooms, and inside a room whenever it holds around the room, holds
everywhere. -/
theorem outwards {P : Nat → List (Nat × String) → Prop} (outermost : ∀ n, P n [])
    (nested : ∀ n k r, k < n → m.rooms[k]? = some r → P k r.around →
      P n (r.around ++ [(k, r.node.name)]))
    (h : Within [] 0 m.rooms n a) : P n a := by
  -- The innermost room around a place comes before it, and so on outwards.
  induction n using Nat.strongRecOn generalizing a with
  | ind n ih =>
      rcases h with rfl | ⟨k, r, hk, hr, rfl⟩
      · exact outermost n
      · rw [Nat.zero_add]
        exact nested n k r hk hr (ih k hk (within_of_getElem?_forestRooms hr))

theorem length_le (h : Within [] 0 m.rooms n a) : a.length ≤ n := by
  refine h.outwards (P := fun n a => a.length ≤ n) Nat.zero_le ?_
  intro n k r hk _ hle
  rw [List.length_append, List.length_singleton]
  omega

theorem lt_of_mem (h : Within [] 0 m.rooms n a) : ∀ x ∈ a, x.1 < n := by
  refine h.outwards (P := fun n a => ∀ x ∈ a, x.1 < n) (fun _ _ hx => nomatch hx) ?_
  intro n k r hk _ hlt x hx
  rcases List.mem_append.mp hx with hx | hx
  · exact Nat.lt_trans (hlt x hx) hk
  · obtain rfl := List.mem_singleton.mp hx
    exact hk

end Within

/-- The room around a room comes before it. -/
theorem Machine.parent_lt {m : Machine} {k : Nat} {r : Room} (hr : m.rooms[k]? = some r) :
    ∀ j ∈ r.parent, j < k := by
  intro j hj
  obtain ⟨x, hx, rfl⟩ := Option.map_eq_some_iff.mp hj
  exact (within_of_getElem?_forestRooms hr).lt_of_mem x (List.mem_of_getLast? hx)

namespace Flat

/-- The nested machine of a room with its number. -/
def Sub.ofRoom (root : String) (x : Room × Nat) : Sub where
  index := x.2
  parent := x.1.parent
  level := (x.1.around.length + 1).toUInt16
  path := "/".intercalate (x.1.names root)
  node := x.1.node
  border := x.1.border

/-- Nested machines in a row from number `k` on. -/
def numberedRooms (root : String) (k : Nat) (rs : List Room) : List Sub :=
  (rs.zipIdx k).map (.ofRoom root)

theorem numberedRooms_append (root : String) (k : Nat) (rs rs' : List Room) :
    numberedRooms root k (rs ++ rs') =
      numberedRooms root k rs ++ numberedRooms root (k + rs.length) rs' := by
  rw [numberedRooms, List.zipIdx_append, List.map_append]
  rfl

theorem getElem?_numberedRooms (root : String) (k i : Nat) (rs : List Room) :
    (numberedRooms root k rs)[i]? = rs[i]?.map fun r => .ofRoom root (r, k + i) := by
  rw [numberedRooms, List.getElem?_map, List.getElem?_zipIdx, Option.map_map]
  rfl

theorem map_numberedRooms {β : Type} {g : Sub → β} {g' : Room → β} (root : String) (k : Nat)
    (rs : List Room) (h : ∀ r i, g (.ofRoom root (r, i)) = g' r) :
    (numberedRooms root k rs).map g = rs.map g' := by
  induction rs generalizing k with
  | nil => rfl
  | cons r rs ih =>
      rw [List.map_cons, ← ih (k + 1), ← h r k]
      rfl

namespace Survey

/-- A walk numbers what it enters as the rooms of what it visits. -/
theorem subs_visitAll (root : String) {level : UInt16} {around : List (Nat × String)}
    {parent : Option Nat} {path : String} (ss : List State) (v : Survey)
    (hparent : parent = around.getLast?.map (·.1)) (hlevel : level = around.length.toUInt16)
    (hpath : path = "/".intercalate (root :: around.map (·.2))) :
    (visitAll parent level path ss v).subs.toList =
      v.subs.toList ++ numberedRooms root v.subs.size (forestRooms around v.subs.size ss) := by
  refine visitAll.induct
    (fun parent level path s v => ∀ around : List (Nat × String),
      parent = around.getLast?.map (·.1) → level = around.length.toUInt16 →
      path = "/".intercalate (root :: around.map (·.2)) →
      (visit parent level path s v).subs.toList =
        v.subs.toList ++ numberedRooms root v.subs.size (s.rooms around v.subs.size))
    (fun parent level path ss v => ∀ around : List (Nat × String),
      parent = around.getLast?.map (·.1) → level = around.length.toUInt16 →
      path = "/".intercalate (root :: around.map (·.2)) →
      (visitAll parent level path ss v).subs.toList =
        v.subs.toList ++ numberedRooms root v.subs.size (forestRooms around v.subs.size ss))
    ?leaf ?missing ?nested ?nil ?cons parent level path ss v around hparent hlevel hpath
  case leaf =>
    intro parent level path node motion v around _ _ _
    simp [visit, addLeaf, noteIf_eq, State.rooms, numberedRooms]
  case missing =>
    intro parent level path node border v around _ _ _
    simp [visit, skip, noteIf_eq, State.rooms, numberedRooms]
  case nested =>
    intro parent level path node border name parameters states default any v
    dsimp only
    rintro ih around rfl rfl rfl
    -- The depth is counted with the machines around, both wrapping at the same point.
    have hlevel : around.length.toUInt16 + 1 =
        (around ++ [(v.subs.size, node.name)]).length.toUInt16 := by simp
    have hstates := ih (around ++ [(v.subs.size, node.name)]) (by simp) hlevel
      (by simp [← intercalate_concat])
    simp only [visit, leave]
    rw [hstates, State.rooms]
    simp [enter, noteIf_eq, numberedRooms, Sub.ofRoom, Room.parent, Room.names,
      ← intercalate_concat]
  case nil =>
    intro parent level path v around _ _ _
    simp [visitAll, forestRooms, numberedRooms]
  case cons =>
    intro parent level path s ss v ihs ihss around hparent hlevel hpath
    have hs := ihs around hparent hlevel hpath
    have hsize := congrArg List.length hs
    simp only [Array.length_toList, List.length_append, numberedRooms, List.length_map,
      List.length_zipIdx] at hsize
    rw [visitAll, ihss around hparent hlevel hpath, hs, forestRooms, numberedRooms_append, hsize,
      length_rooms, List.append_assoc]

theorem subs_ofMachine (m : Machine) :
    (ofMachine m).subs.toList = numberedRooms m.name 0 m.rooms :=
  subs_visitAll m.name m.states {} rfl rfl (by simp)

end Survey

/-- The nested machine `s` is the one at the room `r`, number `k` of the machine `m`. Its depth is
the number of machines around what it contains, modulo 2 ^ 16. -/
structure Sub.IsAt (s : Sub) (m : Machine) (k : Nat) (r : Room) : Prop where
  index : s.index = k
  node : s.node = r.node
  border : s.border = r.border
  path : s.path = "/".intercalate (r.names m.name)
  parent : s.parent = r.parent
  parent_lt : ∀ j ∈ s.parent, j < k
  code : (Draft.optionalIndex s.parent).toInt = (r.parent.map Int.ofNat).getD (-1)
  level : s.level.toNat = (r.around.length + 1) % 65536
  around : Within [] 0 m.rooms k r.around

theorem sub_isAt_of_ofMachine {m : Machine} {cfg : Config} {f : Flat}
    (hsubs : m.subCount < 0x80000000) (h : (ofMachine m cfg).outcome = .ok f) {k : Nat} {s : Sub}
    (hs : f.subs[k]? = some s) :
    ∃ r, m.rooms[k]? = some r ∧ s.IsAt m k r := by
  obtain ⟨hkeeps, -⟩ := keeps_of_ofMachine h
  have hmap := congrArg (fun ss : Array Sub => ss.toList[k]?) hkeeps.subs
  simp only [Array.getElem?_toList, Array.getElem?_map, hs, Option.map_some] at hmap
  rw [← Array.getElem?_toList, Survey.subs_ofMachine, getElem?_numberedRooms] at hmap
  obtain ⟨s', hs', heq⟩ := Option.map_eq_some_iff.mp hmap.symm
  obtain ⟨r, hr, rfl⟩ := Option.map_eq_some_iff.mp hs'
  simp only [Sub.unentered, Sub.ofRoom, Sub.mk.injEq, Nat.zero_add] at heq
  obtain ⟨hindex, hparent, hlevel, -, hpath, hnode, hborder⟩ := heq
  have hwithin := within_of_getElem?_forestRooms hr
  have hk : k < m.subCount := by
    rw [← Machine.length_rooms]
    exact (List.getElem?_eq_some_iff.mp hr).1
  have hlt : ∀ j ∈ r.parent, j < k := Machine.parent_lt hr
  refine ⟨r, hr, hindex.symm, hnode.symm, hborder.symm, hpath.symm, hparent.symm, ?_, ?_, ?_,
    hwithin⟩
  · rw [← hparent]
    exact hlt
  · rw [← hparent]
    exact Draft.toInt_optionalIndex fun j hj => by have := hlt j hj; omega
  · rw [← hlevel]
    exact UInt16.toNat_ofNat'

end Flat

end PoseMachine
