import PoseMachine.Proofs.BakeSoundness
import PoseMachine.Proofs.Stack
import PoseMachine.Proofs.Strictness

/-!
Where each leaf stands in a flattened graph, said by recursion on the authored one: leaves and
nested machines are numbered depth first, outer ones first, and clips one leaf after another.
-/

namespace PoseMachine

/-- A leaf with the nested machines around it, outermost first. A nested machine is told by its name
and by how many others are visited before it. -/
structure Place where
  around : List (Nat × String)
  node : Node
  motion : Motion

mutual

/-- The leaves of a state inside `around`, `k` nested machines coming before it. -/
def State.places (around : List (Nat × String)) (k : Nat) : State → List Place
  | .leaf node motion => [⟨around, node, motion⟩]
  | .container _ _ none => []
  | .container node _ (some ⟨_, _, states, _, _⟩) =>
    forestPlaces (around ++ [(k, node.name)]) (k + 1) states

def forestPlaces (around : List (Nat × String)) (k : Nat) : List State → List Place
  | [] => []
  | s :: ss => s.places around k ++ forestPlaces around (k + s.subtree.countP (·.nested?.isSome)) ss

end

namespace Place

/-- The names from the machine `root` down to the leaf. -/
def names (p : Place) (root : String) : List String :=
  root :: p.around.map (·.2) ++ [p.node.name]

def parent (p : Place) : Option Nat := p.around.getLast?.map (·.1)

end Place

def placedClips (ps : List Place) : Nat := (ps.map (·.motion.clipCount)).sum

/-- The machines around a leaf are where their numbers say among the nested ones. -/
theorem nested_of_mem_around {around : List (Nat × String)} {k : Nat} {ss : List State}
    {p : Place} (hp : p ∈ forestPlaces around k ss) {x : Nat × String} (hx : x ∈ p.around) :
    x ∈ around ∨ ∃ j n, x.1 = k + j ∧ ((forest ss).filterMap State.nested?)[j]? = some n ∧
      n.1.name = x.2 := by
  refine forestPlaces.induct
    (fun around k s => ∀ p ∈ s.places around k, ∀ x ∈ p.around,
      x ∈ around ∨ ∃ j n, x.1 = k + j ∧ (s.subtree.filterMap State.nested?)[j]? = some n ∧
        n.1.name = x.2)
    (fun around k ss => ∀ p ∈ forestPlaces around k ss, ∀ x ∈ p.around,
      x ∈ around ∨ ∃ j n, x.1 = k + j ∧ ((forest ss).filterMap State.nested?)[j]? = some n ∧
        n.1.name = x.2)
    ?leaf ?missing ?nested ?nil ?cons around k ss p hp x hx
  case leaf =>
    intro around k node motion p hp x hx
    obtain rfl : p = ⟨around, node, motion⟩ := by simpa [State.places] using hp
    exact .inl hx
  case missing =>
    intro around k node border p hp
    simp [State.places] at hp
  case nested =>
    intro around k node border name parameters states default any ih p hp x hx
    rw [State.places] at hp
    simp only [State.subtree, List.filterMap_cons, State.nested?]
    rcases ih p hp x hx with hx | ⟨j, n, hj, hn, hname⟩
    · rcases List.mem_append.mp hx with hx | hx
      · exact .inl hx
      · obtain rfl := List.mem_singleton.mp hx
        exact .inr ⟨0, (node, border), rfl, rfl, rfl⟩
    · exact .inr ⟨j + 1, n, by omega, hn, hname⟩
  case nil =>
    intro around k p hp
    simp [forestPlaces] at hp
  case cons =>
    intro around k s ss ihs ihss p hp x hx
    rw [forestPlaces] at hp
    rw [forest, List.filterMap_append]
    rcases List.mem_append.mp hp with hp | hp
    · rcases ihs p hp x hx with hx | ⟨j, n, hj, hn, hname⟩
      · exact .inl hx
      · have hlt := (List.getElem?_eq_some_iff.mp hn).1
        exact .inr ⟨j, n, hj, by rw [List.getElem?_append_left hlt, hn], hname⟩
    · rcases ihss p hp x hx with hx | ⟨j, n, hj, hn, hname⟩
      · exact .inl hx
      · refine .inr ⟨s.subtree.countP (·.nested?.isSome) + j, n, by omega, ?_, hname⟩
        rw [← List.length_filterMap_eq_countP, List.getElem?_append_right (Nat.le_add_right _ _),
          Nat.add_sub_cancel_left, hn]

theorem placedClips_cons (p : Place) (ps : List Place) :
    placedClips (p :: ps) = p.motion.clipCount + placedClips ps := by
  simp [placedClips]

theorem placedClips_append (ps qs : List Place) :
    placedClips (ps ++ qs) = placedClips ps + placedClips qs := by
  simp [placedClips]

namespace Machine

def places (m : Machine) : List Place := forestPlaces [] 0 m.states

/-- The clips of all leaves of all levels. -/
def clipCount (m : Machine) : Nat := (m.leaves.map (·.2.clipCount)).sum

end Machine

theorem intercalate_concat (sep root x : String) (xs : List String) :
    sep.intercalate (root :: xs ++ [x]) = sep.intercalate (root :: xs) ++ sep ++ x := by
  rw [String.intercalate_append_of_ne_nil (List.cons_ne_nil _ _) (List.cons_ne_nil _ _),
    String.intercalate_singleton]

namespace Flat

/-- The leaf at a place, `i` leaves with `offset` clips coming before it. -/
def Leaf.ofPlace (root : String) (i offset : Nat) (p : Place) : Leaf where
  index := i
  clipOffset := offset
  path := "/".intercalate (p.names root)
  parent := p.parent
  node := p.node
  motion := p.motion

/-- Leaves in a row from number `i` on, `offset` clips coming before them. -/
def numbered (root : String) (i offset : Nat) : List Place → List Leaf
  | [] => []
  | p :: ps => .ofPlace root i offset p :: numbered root (i + 1) (offset + p.motion.clipCount) ps

theorem numbered_append (root : String) (i offset : Nat) (ps qs : List Place) :
    numbered root i offset (ps ++ qs) =
      numbered root i offset ps ++ numbered root (i + ps.length) (offset + placedClips ps) qs := by
  induction ps generalizing i offset with
  | nil => simp [numbered, placedClips]
  | cons p ps ih =>
      simp only [List.cons_append, numbered, ih, List.length_cons, placedClips, List.map_cons,
        List.sum_cons]
      simp only [Nat.add_assoc, Nat.add_comm 1]

theorem length_numbered (root : String) (i offset : Nat) (ps : List Place) :
    (numbered root i offset ps).length = ps.length := by
  induction ps generalizing i offset with
  | nil => rfl
  | cons p ps ih => simp only [numbered, List.length_cons, ih]

theorem getElem?_numbered (root : String) (i offset j : Nat) (ps : List Place) :
    (numbered root i offset ps)[j]? =
      ps[j]?.map (.ofPlace root (i + j) (offset + placedClips (ps.take j))) := by
  induction ps generalizing i offset j with
  | nil => rfl
  | cons p ps ih =>
      cases j with
      | zero => simp [numbered, placedClips]
      | succ j =>
          simp only [numbered, List.getElem?_cons_succ, ih, List.take_succ_cons, placedClips,
            List.map_cons, List.sum_cons]
          simp only [Nat.add_assoc, Nat.add_comm 1]

theorem map_numbered {β : Type} {g : Leaf → β} {g' : Place → β} (root : String) (i offset : Nat)
    (ps : List Place) (h : ∀ i offset p, g (.ofPlace root i offset p) = g' p) :
    (numbered root i offset ps).map g = ps.map g' := by
  induction ps generalizing i offset with
  | nil => rfl
  | cons p ps ih => rw [numbered, List.map_cons, List.map_cons, ih, h]

namespace Survey

/-- The survey `w` goes on from `v` by the leaves `ps` and by `n` nested machines. -/
structure Adds (root : String) (v w : Survey) (ps : List Place) (n : Nat) : Prop where
  leaves : w.leaves.toList = v.leaves.toList ++ numbered root v.leaves.size v.clipCount ps
  clipCount : w.clipCount = v.clipCount + placedClips ps
  subs : w.subs.size = v.subs.size + n

namespace Adds

variable {root : String} {v w x : Survey} {ps qs : List Place} {n k : Nat}

theorem trans (h : Adds root v w ps n) (h' : Adds root w x qs k) :
    Adds root v x (ps ++ qs) (n + k) := by
  have hsize := congrArg List.length h.leaves
  simp only [Array.length_toList, List.length_append, length_numbered] at hsize
  refine ⟨?_, ?_, ?_⟩
  · rw [h'.leaves, h.leaves, hsize, h.clipCount, numbered_append, List.append_assoc]
  · rw [h'.clipCount, h.clipCount, placedClips_append, Nat.add_assoc]
  · rw [h'.subs, h.subs, Nat.add_assoc]

theorem addLeaf (around : List (Nat × String)) (node : Node) (motion : Motion) :
    Adds root v (v.addLeaf (around.getLast?.map (·.1))
      ("/".intercalate (root :: around.map (·.2)) ++ "/" ++ node.name) node motion)
      [⟨around, node, motion⟩] 0 := by
  rw [← intercalate_concat]
  constructor <;>
    simp [Survey.addLeaf, noteIf_eq, numbered, Leaf.ofPlace, Place.names, Place.parent, placedClips]

theorem skip (path : String) (node : Node) : Adds root v (v.skip path node) [] 0 := by
  constructor <;> simp [Survey.skip, noteIf_eq, numbered, placedClips]

theorem enter (parent : Option Nat) (level : UInt16) (path : String) (node : Node)
    (border : Border) (declares : Bool) :
    Adds root v (v.enter parent level path node border declares) [] 1 := by
  constructor <;> simp [Survey.enter, noteIf_eq, numbered, placedClips]

theorem leave (i : Nat) : Adds root v (v.leave i) [] 0 := by
  constructor <;> simp [Survey.leave, numbered, placedClips]

end Adds

/-- A walk adds the leaves of what it visits at their places. -/
theorem adds_visitAll (root : String) (level : UInt16) (around : List (Nat × String))
    {parent : Option Nat} {path : String} (ss : List State) (v : Survey)
    (hparent : parent = around.getLast?.map (·.1))
    (hpath : path = "/".intercalate (root :: around.map (·.2))) :
    Adds root v (visitAll parent level path ss v) (forestPlaces around v.subs.size ss)
      ((forest ss).countP (·.nested?.isSome)) := by
  refine visitAll.induct
    (fun parent level path s v => ∀ around : List (Nat × String),
      parent = around.getLast?.map (·.1) → path = "/".intercalate (root :: around.map (·.2)) →
      Adds root v (visit parent level path s v) (s.places around v.subs.size)
        (s.subtree.countP (·.nested?.isSome)))
    (fun parent level path ss v => ∀ around : List (Nat × String),
      parent = around.getLast?.map (·.1) → path = "/".intercalate (root :: around.map (·.2)) →
      Adds root v (visitAll parent level path ss v) (forestPlaces around v.subs.size ss)
        ((forest ss).countP (·.nested?.isSome)))
    ?leaf ?missing ?nested ?nil ?cons parent level path ss v around hparent hpath
  case leaf =>
    rintro _ level _ node motion v around rfl rfl
    exact .addLeaf around node motion
  case missing =>
    rintro _ level _ node border v around rfl rfl
    exact .skip _ node
  case nested =>
    intro parent level path node border name parameters states default any v
    dsimp only
    rintro ih around rfl rfl
    -- The container counts as one nested machine, and is the innermost one around its states.
    have henter : Adds root v (v.enter (around.getLast?.map (·.1)) (level + 1)
        ("/".intercalate (root :: around.map (·.2)) ++ "/" ++ node.name) node border
        (!parameters.isEmpty || !any.isEmpty)) [] 1 :=
      .enter _ _ _ _ _ _
    have hstates := ih (around ++ [(v.subs.size, node.name)]) (by simp)
      (by simp [← intercalate_concat])
    rw [henter.subs] at hstates
    have h := (henter.trans hstates).trans (.leave v.subs.size)
    simpa [visit, State.places, State.subtree, State.nested?, Nat.add_comm] using h
  case nil =>
    intro parent level path v around _ _
    exact ⟨by simp [visitAll, forestPlaces, numbered], rfl, rfl⟩
  case cons =>
    intro parent level path s ss v ihs ihss around hparent hpath
    have hs := ihs around hparent hpath
    have hss := ihss around hparent hpath
    rw [hs.subs] at hss
    simpa [visitAll, forestPlaces, forest] using hs.trans hss

theorem adds_ofMachine (m : Machine) :
    Adds m.name {} (ofMachine m) m.places m.subCount :=
  adds_visitAll m.name 0 [] m.states {} rfl (by simp)

/-- The numbers of leaves lead to leaves, each to the last one that has it. -/
structure IndexesLast (v : Survey) : Prop where
  mem : ∀ id : StateId, id ∈ v.leafIndex ↔ ∃ l ∈ v.leaves, l.node.id = id
  last : ∀ (id : StateId) i, v.leafIndex[id]? = some i ↔
    (∃ l, v.leaves[i]? = some l ∧ l.node.id = id) ∧
      ∀ (j : Nat) l, i < j → v.leaves[j]? = some l → l.node.id ≠ id

theorem IndexesLast.addLeaf {v : Survey} (hv : v.IndexesLast) (parent : Option Nat)
    (path : String) (node : Node) (motion : Motion) :
    (v.addLeaf parent path node motion).IndexesLast := by
  simp only [Survey.addLeaf, noteIf_eq]
  constructor
  case mem =>
    intro id
    simp only [Std.HashMap.mem_insert, beq_iff_eq, hv.mem id, Array.mem_push]
    constructor
    · rintro (hid | ⟨l, hl, hid⟩)
      · exact ⟨_, .inr rfl, hid⟩
      · exact ⟨l, .inl hl, hid⟩
    · rintro ⟨l, hl | rfl, hid⟩
      · exact .inr ⟨l, hl, hid⟩
      · exact .inl hid
  case last =>
    intro id i
    simp only [Std.HashMap.getElem?_insert, Array.getElem?_push]
    by_cases hid : node.id = id
    · -- The new leaf is the last one with its number.
      simp only [hid, beq_self_eq_true, if_true, Option.some.injEq]
      constructor
      · rintro rfl
        refine ⟨⟨_, if_pos rfl, hid⟩, ?_⟩
        intro j l hj hl
        rw [if_neg (by omega), Array.getElem?_eq_none (by omega)] at hl
        cases hl
      · rintro ⟨⟨l, hl, -⟩, hlast⟩
        by_contra hne
        have hlt : i < v.leaves.size := by
          rw [if_neg fun h => hne h.symm] at hl
          exact (Array.getElem?_eq_some_iff.mp hl).1
        exact hlast v.leaves.size _ hlt (if_pos rfl) hid
    · -- Any other number keeps its last leaf.
      rw [if_neg (by simpa using hid), hv.last id i]
      constructor
      · rintro ⟨⟨l, hl, hl'⟩, hlast⟩
        have hlt := (Array.getElem?_eq_some_iff.mp hl).1
        refine ⟨⟨l, by rw [if_neg (by omega), hl], hl'⟩, ?_⟩
        intro j l' hj hl'
        split at hl'
        · obtain rfl := Option.some.inj hl'
          exact hid
        · exact hlast j l' hj hl'
      · rintro ⟨⟨l, hl, hl'⟩, hlast⟩
        split at hl
        · obtain rfl := Option.some.inj hl
          exact absurd hl' hid
        · refine ⟨⟨l, hl, hl'⟩, ?_⟩
          intro j l' hj hl'
          have hlt := (Array.getElem?_eq_some_iff.mp hl').1
          exact hlast j l' hj (by rw [if_neg (by omega), hl'])

theorem indexesLast_ofMachine (m : Machine) : (ofMachine m).IndexesLast := by
  apply visitAll_induction (P := IndexesLast)
  case hleaf =>
    intro v parent path node motion _ hv
    exact hv.addLeaf parent path node motion
  case hskip =>
    intro v path node hv
    simp only [skip, noteIf_eq]
    exact ⟨hv.mem, hv.last⟩
  case henter =>
    intro v parent level path node border declares _ hv
    simp only [enter, noteIf_eq]
    exact ⟨hv.mem, hv.last⟩
  case hleave =>
    intro v i hv
    exact ⟨hv.mem, hv.last⟩
  case hparent => simp
  case hv => constructor <;> simp

end Survey

/-- The leaf `l` is the one at the place `p`, number `i` of the machine `m`. Its nested machine is
the innermost one around it, -1 for none. -/
structure Leaf.IsAt (l : Leaf) (m : Machine) (i : Nat) (p : Place) : Prop where
  index : l.index = i
  node : l.node = p.node
  motion : l.motion = p.motion
  clipOffset : l.clipOffset = ((m.leaves.take i).map (·.2.clipCount)).sum
  path : l.path = "/".intercalate (p.names m.name)
  parent : l.parent = p.parent
  code : (Draft.optionalIndex l.parent).toInt = (p.parent.map Int.ofNat).getD (-1)
  around : ∀ k name, (k, name) ∈ p.around → ∃ n, m.nested[k]? = some n ∧ n.1.name = name

theorem map_places (m : Machine) : (m.places.map fun p => (p.node, p.motion)) = m.leaves := by
  rw [← Survey.leafParts_ofMachine, Survey.leafParts, (Survey.adds_ofMachine m).leaves]
  exact (map_numbered _ _ _ _ fun _ _ _ => rfl).symm

theorem placedClips_take (m : Machine) (i : Nat) :
    placedClips (m.places.take i) = ((m.leaves.take i).map (·.2.clipCount)).sum := by
  rw [← map_places, ← List.map_take, List.map_map]
  rfl

theorem clipCount_ofMachine (m : Machine) : (Survey.ofMachine m).clipCount = m.clipCount := by
  rw [(Survey.adds_ofMachine m).clipCount, Machine.clipCount, ← map_places, List.map_map]
  exact Nat.zero_add _

variable {m : Machine} {cfg : Config} {f : Flat}

/-- Every leaf of a flattened graph is at its place. -/
theorem isAt_of_ofMachine (hsubs : m.subCount < 0x80000000)
    (h : (ofMachine m cfg).outcome = .ok f) {i : Nat} {l : Leaf} (hl : f.leaves[i]? = some l) :
    ∃ p, m.places[i]? = some p ∧ l.IsAt m i p := by
  obtain ⟨hkeeps, -⟩ := keeps_of_ofMachine h
  have hmap := congrArg (fun ls : Array Leaf => ls.toList[i]?) hkeeps.leaves
  simp only [Array.getElem?_toList, Array.getElem?_map, hl, Option.map_some] at hmap
  rw [← Array.getElem?_toList, (Survey.adds_ofMachine m).leaves, List.nil_append,
    getElem?_numbered] at hmap
  obtain ⟨l', hl', heq⟩ := Option.map_eq_some_iff.mp hmap.symm
  obtain ⟨p, hp, rfl⟩ := Option.map_eq_some_iff.mp hl'
  obtain ⟨hindex, hoffset, hpath, hparent, hnode, hmotion⟩ := Leaf.ungrouped_inj.mp heq
  have haround : ∀ x ∈ p.around, ∃ n, m.nested[x.1]? = some n ∧ n.1.name = x.2 := by
    intro x hx
    rcases nested_of_mem_around (List.mem_of_getElem? hp) hx with hx | ⟨j, n, hj, hn, hname⟩
    · cases hx
    · obtain rfl : x.1 = j := by omega
      exact ⟨n, hn, hname⟩
  refine ⟨p, hp, ?_, hnode.symm, hmotion.symm, ?_, hpath.symm, hparent.symm, ?_, ?_⟩
  · rw [← hindex]
    exact Nat.zero_add i
  · rw [← hoffset, ← placedClips_take]
    exact Nat.zero_add _
  · rw [← hparent]
    refine Draft.toInt_optionalIndex ?_
    intro k hk
    obtain ⟨x, hx, rfl⟩ := Option.map_eq_some_iff.mp hk
    obtain ⟨n, hn, -⟩ := haround x (List.mem_of_getLast? hx)
    have hlt := (List.getElem?_eq_some_iff.mp hn).1
    rw [Machine.length_nested] at hlt
    omega
  · intro k name hx
    exact haround (k, name) hx

theorem getElem?_leaves (m : Machine) (i : Nat) :
    m.leaves[i]? = (Survey.ofMachine m).leaves[i]?.map (fun l : Leaf => (l.node, l.motion)) := by
  rw [← Survey.leafParts_ofMachine, Survey.leafParts, List.getElem?_map, Array.getElem?_toList]

theorem mem_leafIndex_iff (h : (ofMachine m cfg).outcome = .ok f) (id : StateId) :
    id ∈ f.leafIndex ↔ ∃ l ∈ m.leaves, l.1.id = id := by
  rw [(keeps_of_ofMachine h).1.leafIndex, (Survey.indexesLast_ofMachine m).mem,
    ← Survey.leafParts_ofMachine, Survey.leafParts]
  simp

theorem leafIndex_eq_some_iff (h : (ofMachine m cfg).outcome = .ok f) (id : StateId) (i : Nat) :
    f.leafIndex[id]? = some i ↔ (∃ l, m.leaves[i]? = some l ∧ l.1.id = id) ∧
      ∀ (j : Nat) l, i < j → m.leaves[j]? = some l → l.1.id ≠ id := by
  rw [(keeps_of_ofMachine h).1.leafIndex, (Survey.indexesLast_ofMachine m).last]
  simp only [getElem?_leaves, Option.map_eq_some_iff]
  constructor
  · rintro ⟨⟨l, hl, hid⟩, hlast⟩
    refine ⟨⟨_, ⟨l, hl, rfl⟩, hid⟩, ?_⟩
    rintro j _ hj ⟨l', hl', rfl⟩
    exact hlast j l' hj hl'
  · rintro ⟨⟨_, ⟨l, hl, rfl⟩, hid⟩, hlast⟩
    refine ⟨⟨l, hl, hid⟩, ?_⟩
    intro j l' hj hl'
    exact hlast j _ hj ⟨l', hl', rfl⟩

theorem outcome_eq_clipOverflow_iff :
    (∃ count limit, (ofMachine m cfg).outcome = .error (.clipOverflow count limit)) ↔
      cfg.clipLimit < m.clipCount := by
  rw [ofMachine_eq, Report.outcome_tell_bind, clipCount_ofMachine]
  split
  · next h => simp [h]
  · next h =>
    constructor
    · rintro ⟨count, limit, herror⟩
      cases isReference_of_resolved herror
    · intro hlt
      exact absurd hlt h

/-- Flattening numbers the leaves of a graph depth first, whichever way the graph is walked. A graph
that flattens has all leaves that such a walk meets, each at its place, and numbers lead to the last
leaf that has them. The clips overflow just when there are too many of them. -/
theorem ofMachine_preorder (m : Machine) (cfg : Config) :
    (trail [m.states] = m.allStates ∧
      Survey.walk [⟨m.states, none, 0, m.name⟩] {} = Survey.ofMachine m) ∧
    (m.subCount < 0x80000000 → ∀ f, (ofMachine m cfg).outcome = .ok f →
      (f.leaves.toList.map fun l => (l.node, l.motion)) = m.allStates.filterMap State.leaf? ∧
      f.leaves.size = m.leafCount ∧ f.clipCount = m.clipCount ∧
      (∀ (i : Nat) l, f.leaves[i]? = some l → ∃ p, m.places[i]? = some p ∧ l.IsAt m i p) ∧
      (∀ id : StateId, id ∈ f.leafIndex ↔ ∃ l ∈ m.leaves, l.1.id = id) ∧
      ∀ (id : StateId) i, f.leafIndex[id]? = some i ↔
        (∃ l, m.leaves[i]? = some l ∧ l.1.id = id) ∧
          ∀ (j : Nat) l, i < j → m.leaves[j]? = some l → l.1.id ≠ id) ∧
    ((∃ count limit, (ofMachine m cfg).outcome = .error (.clipOverflow count limit)) ↔
      min cfg.maxClips 65536 < m.clipCount) := by
  refine ⟨⟨trail_states m, Survey.walk_states m⟩, ?_, outcome_eq_clipOverflow_iff⟩
  intro hsubs f h
  obtain ⟨-, hflattens, -⟩ := ofMachine_sound h
  have hcount : f.clipCount = m.clipCount := by
    rw [(keeps_of_ofMachine h).1.clipCount, clipCount_ofMachine]
  exact ⟨hflattens.leaves, hflattens.size_leaves, hcount,
    fun _ _ hl => isAt_of_ofMachine hsubs h hl, mem_leafIndex_iff h, leafIndex_eq_some_iff h⟩

theorem ofMachine_preorder_hopping : ∃ f l,
    (ofMachine Machine.hopping {}).outcome = .ok f ∧ f.leaves.size = 1 ∧
      f.leaves[0]? = some l ∧ l.path = "hopping/air/hop" ∧ l.parent = some 0 ∧
      f.leafIndex[(3 : StateId)]? = some 0 := by
  obtain ⟨b, hb⟩ := Machine.exists_bakeWith_hopping
  obtain ⟨t, f, d, -, hf, -, -⟩ := Machine.bakeWith_eq_ok hb
  obtain ⟨-, hsize, -, hplaces, -, hindex⟩ :=
    (ofMachine_preorder Machine.hopping {}).2.1 (by decide) f hf
  have hsize : f.leaves.size = 1 := hsize
  have hl : f.leaves[0]? = some f.leaves[0] := Array.getElem?_eq_getElem (by omega)
  obtain ⟨p, hp, hat⟩ := hplaces 0 _ hl
  obtain rfl := Option.some.inj hp
  refine ⟨f, _, hf, hsize, hl, hat.path.trans (by decide), hat.parent, ?_⟩
  rw [hindex]
  refine ⟨⟨_, rfl, rfl⟩, ?_⟩
  intro j l hj hl
  have hlt : j < 1 := (List.getElem?_eq_some_iff.mp hl).1
  omega

end Flat

end PoseMachine
