import PoseMachine.Proofs.Depth
import PoseMachine.Proofs.Enclosure

/-!
Which leaves are inside which nested machine. The authored graph, the walk over a flattened graph
and the walk over a baked machine tell the same, and the leaves inside a machine are numbered in a
row.
-/

namespace PoseMachine

/-- The container `c` is among the states `ss`, after `n` containers of nested machines and `first`
leaves, and all that is inside it comes right after it. -/
def OpensAt (ss : List State) (n first : Nat) (c : State) : Prop :=
  ∃ before after, ss = before ++ c.subtree ++ after ∧
    before.countP (·.nested?.isSome) = n ∧ before.countP State.isLeaf = first

namespace OpensAt

variable {ss : List State} {n first : Nat} {c : State}

theorem left (ss' : List State) (h : OpensAt ss n first c) : OpensAt (ss ++ ss') n first c := by
  obtain ⟨before, after, rfl, hn, hfirst⟩ := h
  exact ⟨before, after ++ ss', by simp only [List.append_assoc], hn, hfirst⟩

theorem right (ss' : List State) (h : OpensAt ss n first c) :
    OpensAt (ss' ++ ss) (ss'.countP (·.nested?.isSome) + n) (ss'.countP State.isLeaf + first) c := by
  obtain ⟨before, after, rfl, rfl, rfl⟩ := h
  exact ⟨ss' ++ before, after, by simp only [List.append_assoc], List.countP_append,
    List.countP_append⟩

end OpensAt

/-- Of the leaves `ps` the ones inside the nested machine `k` are `count` in a row, from number
`first` on. -/
structure Occupies (k : Nat) (ps : List Place) (first count : Nat) : Prop where
  le : first + count ≤ ps.length
  iff : ∀ i p, ps[i]? = some p → (k ∈ p.machines ↔ first ≤ i ∧ i < first + count)

namespace Occupies

variable {k first count : Nat} {ps ps' : List Place}

theorem all (h : ∀ p ∈ ps, k ∈ p.machines) : Occupies k ps 0 ps.length := by
  refine ⟨by omega, ?_⟩
  intro i p hp
  have hi := (List.getElem?_eq_some_iff.mp hp).1
  simp only [h p (List.mem_of_getElem? hp), true_iff]
  omega

theorem left (h : Occupies k ps first count) (hout : ∀ p ∈ ps', k ∉ p.machines) :
    Occupies k (ps ++ ps') first count := by
  have hle := h.le
  refine ⟨by rw [List.length_append]; omega, ?_⟩
  intro i p hp
  by_cases hi : i < ps.length
  · rw [List.getElem?_append_left hi] at hp
    exact h.iff i p hp
  · rw [List.getElem?_append_right (Nat.not_lt.mp hi)] at hp
    simp only [hout p (List.mem_of_getElem? hp), false_iff]
    omega

theorem right (h : Occupies k ps first count) (hout : ∀ p ∈ ps', k ∉ p.machines) :
    Occupies k (ps' ++ ps) (ps'.length + first) count := by
  have hle := h.le
  refine ⟨by rw [List.length_append]; omega, ?_⟩
  intro i p hp
  by_cases hi : i < ps'.length
  · rw [List.getElem?_append_left hi] at hp
    simp only [hout p (List.mem_of_getElem? hp), false_iff]
    omega
  · rw [List.getElem?_append_right (Nat.not_lt.mp hi)] at hp
    rw [h.iff _ p hp]
    omega

end Occupies

theorem length_forestPlaces (around : List (Nat × String)) (k : Nat) (ss : List State) :
    (forestPlaces around k ss).length = (forest ss).countP State.isLeaf := by
  refine forestPlaces.induct
    (fun around k s => (s.places around k).length = s.subtree.countP State.isLeaf)
    (fun around k ss => (forestPlaces around k ss).length = (forest ss).countP State.isLeaf)
    ?leaf ?missing ?nested ?nil ?cons around k ss
  case leaf =>
    intro around k node motion
    simp [State.places, State.subtree, State.isLeaf]
  case missing =>
    intro around k node border
    simp [State.places, State.subtree, State.isLeaf]
  case nested =>
    intro around k node border name parameters states default any ih
    simp [State.places, State.subtree, State.isLeaf, ih]
  case nil =>
    intro around k
    simp [forestPlaces, forest]
  case cons =>
    intro around k s ss ihs ihss
    simp [forestPlaces, forest, ihs, ihss]

theorem length_places (around : List (Nat × String)) (k : Nat) (s : State) :
    (s.places around k).length = s.subtree.countP State.isLeaf := by
  simpa [forestPlaces, forest] using length_forestPlaces around k [s]

/-- The machines around a leaf of the states `ss` are among `around` and the ones numbered in `ss`. -/
theorem bounds_of_mem_forestPlaces {around : List (Nat × String)} {k j : Nat} {ss : List State}
    {p : Place} (hp : p ∈ forestPlaces around k ss) (hj : j ∈ p.machines) :
    (∃ x ∈ around, x.1 = j) ∨ k ≤ j ∧ j < k + (forest ss).countP (·.nested?.isSome) := by
  obtain ⟨x, hx, rfl⟩ := List.mem_map.mp hj
  rcases nested_of_mem_around hp hx with hx | ⟨i, n, hi, hn, -⟩
  · exact .inl ⟨x, hx, rfl⟩
  · have hlt := (List.getElem?_eq_some_iff.mp hn).1
    rw [List.length_filterMap_eq_countP] at hlt
    exact .inr (by omega)

theorem bounds_of_mem_places {around : List (Nat × String)} {k j : Nat} {s : State}
    {p : Place} (hp : p ∈ s.places around k) (hj : j ∈ p.machines) :
    (∃ x ∈ around, x.1 = j) ∨ k ≤ j ∧ j < k + s.subtree.countP (·.nested?.isSome) := by
  have hp : p ∈ forestPlaces around k [s] := by simpa [forestPlaces] using hp
  simpa [forest] using bounds_of_mem_forestPlaces hp hj

/-- What is inside the nested machine `k` with the authored parts of `r` stands together: among the
states `ss`, after `n` containers of nested machines, as well as among the leaves `ps`. -/
def StandsTogether (ss : List State) (ps : List Place) (n k : Nat) (r : Room) : Prop :=
  ∃ c first, c.nested? = some (r.node, r.border) ∧ OpensAt ss n first c ∧
    Occupies k ps first (c.subtree.countP State.isLeaf)

namespace StandsTogether

variable {ss : List State} {ps : List Place} {n k : Nat} {r : Room}

/-- A container alone has all its leaves inside. -/
theorem alone {around : List (Nat × String)} {c : State}
    (hc : c.nested? = some (r.node, r.border)) (hin : ∀ p ∈ c.places around k, k ∈ p.machines) :
    StandsTogether c.subtree (c.places around k) 0 k r := by
  refine ⟨c, 0, hc, ⟨[], [], by rw [List.nil_append, List.append_nil], rfl, rfl⟩, ?_⟩
  rw [← length_places around k c]
  exact .all hin

theorem left {ps' : List Place} (ss' : List State) (h : StandsTogether ss ps n k r)
    (hout : ∀ p ∈ ps', k ∉ p.machines) : StandsTogether (ss ++ ss') (ps ++ ps') n k r := by
  obtain ⟨c, first, hc, hopens, hoccupies⟩ := h
  exact ⟨c, first, hc, hopens.left ss', hoccupies.left hout⟩

theorem right (ss' : List State) (ps' : List Place) (h : StandsTogether ss ps n k r)
    (hlength : ps'.length = ss'.countP State.isLeaf) (hout : ∀ p ∈ ps', k ∉ p.machines) :
    StandsTogether (ss' ++ ss) (ps' ++ ps) (ss'.countP (·.nested?.isSome) + n) k r := by
  obtain ⟨c, first, hc, hopens, hoccupies⟩ := h
  refine ⟨c, ps'.length + first, hc, ?_, hoccupies.right hout⟩
  rw [hlength]
  exact hopens.right ss'

end StandsTogether

section Outside

variable {around : List (Nat × String)} {k j : Nat} {p : Place}

/-- The machines of earlier states have lower numbers. -/
theorem notMem_machines_of_mem_places {s : State} (haround : ∀ x ∈ around, x.1 < k)
    (hp : p ∈ s.places around k) (hj : s.subtree.countP (·.nested?.isSome) ≤ j) :
    k + j ∉ p.machines := by
  intro hmem
  rcases bounds_of_mem_places hp hmem with ⟨x, hx, hxj⟩ | ⟨-, hlt⟩
  · have := haround x hx
    omega
  · omega

/-- The machines of later states have higher numbers. -/
theorem notMem_machines_of_mem_forestPlaces {ss : List State} {n : Nat}
    (haround : ∀ x ∈ around, x.1 < k) (hp : p ∈ forestPlaces around (k + n) ss) (hj : j < n) :
    k + j ∉ p.machines := by
  intro hmem
  rcases bounds_of_mem_forestPlaces hp hmem with ⟨x, hx, hxj⟩ | ⟨hle, -⟩
  · have := haround x hx
    omega
  · omega

end Outside

/-- What is inside a nested machine stands together. -/
theorem standsTogether_of_rooms {around : List (Nat × String)} {k j : Nat} {ss : List State} {r : Room}
    (haround : ∀ x ∈ around, x.1 < k) (hr : (forestRooms around k ss)[j]? = some r) :
    StandsTogether (forest ss) (forestPlaces around k ss) j (k + j) r := by
  refine forestRooms.induct
    (fun around k s => (∀ x ∈ around, x.1 < k) → ∀ j r, (s.rooms around k)[j]? = some r →
      StandsTogether s.subtree (s.places around k) j (k + j) r)
    (fun around k ss => (∀ x ∈ around, x.1 < k) → ∀ j r, (forestRooms around k ss)[j]? = some r →
      StandsTogether (forest ss) (forestPlaces around k ss) j (k + j) r)
    ?leaf ?missing ?nested ?nil ?cons around k ss haround j r hr
  case leaf =>
    intro around k node motion _ j r hr
    simp [State.rooms] at hr
  case missing =>
    intro around k node border _ j r hr
    simp [State.rooms] at hr
  case nested =>
    intro around k node border name parameters states default any ih haround j r hr
    rw [State.rooms] at hr
    cases j with
    | zero =>
        obtain rfl := Option.some.inj hr
        refine .alone rfl ?_
        intro p hp
        obtain ⟨inner, hinner, -⟩ := exists_inner_of_mem_forestPlaces hp
        simp [Place.machines, hinner]
    | succ j =>
        have haround' : ∀ x ∈ around ++ [(k, node.name)], x.1 < k + 1 := by
          intro x hx
          rcases List.mem_append.mp hx with hx | hx
          · exact Nat.lt_succ_of_lt (haround x hx)
          · obtain rfl := List.mem_singleton.mp hx
            exact Nat.lt_succ_self k
        -- The container itself is one more state before those inside, and no leaf.
        have hinside := (ih haround' j r hr).right
          [.container node border (some ⟨name, parameters, states, default, any⟩)] [] rfl (by simp)
        simpa [State.subtree, State.places, State.nested?, Nat.add_comm, Nat.add_left_comm] using
          hinside
  case nil =>
    intro around k _ j r hr
    simp [forestRooms] at hr
  case cons =>
    intro around k s ss ihs ihss haround j r hr
    rw [forestRooms] at hr
    rw [forest, forestPlaces]
    by_cases hj : j < (s.rooms around k).length
    · rw [List.getElem?_append_left hj] at hr
      rw [length_rooms] at hj
      exact (ihs haround j r hr).left _ fun p hp =>
        notMem_machines_of_mem_forestPlaces haround hp hj
    · have hj := Nat.not_lt.mp hj
      rw [List.getElem?_append_right hj] at hr
      rw [length_rooms] at hr hj
      have hinside := (ihss (fun x hx => Nat.lt_add_right _ (haround x hx)) _ r hr).right
        s.subtree (s.places around k) (length_places around k s)
      rw [Nat.add_assoc, Nat.add_sub_cancel' hj] at hinside
      exact hinside fun p hp => notMem_machines_of_mem_places haround hp hj

namespace Machine

variable {m : Machine}

theorem length_places (m : Machine) : m.places.length = m.leafCount :=
  length_forestPlaces [] 0 m.states

/-- The leaves inside a nested machine are those of its container, and are numbered in a row. -/
theorem exists_interval {k : Nat} {r : Room} (hr : m.rooms[k]? = some r) :
    ∃ c first, c.nested? = some (r.node, r.border) ∧ OpensAt m.allStates k first c ∧
      ∀ i, m.encloses k i = true ↔ first ≤ i ∧ i < first + c.subtree.countP State.isLeaf := by
  have hnone : ∀ x ∈ ([] : List (Nat × String)), x.1 < 0 := by simp
  obtain ⟨c, first, hc, hopens, hoccupies⟩ := standsTogether_of_rooms hnone hr
  refine ⟨c, first, hc, hopens, ?_⟩
  rw [Nat.zero_add] at hoccupies
  intro i
  cases hp : m.places[i]? with
  | none =>
      have hi := List.getElem?_eq_none_iff.mp hp
      have hle : _ ≤ m.places.length := hoccupies.le
      simp only [encloses, hp, Option.any_none, Bool.false_eq_true, false_iff]
      omega
  | some p =>
      rw [encloses_of_place hp, decide_eq_true_iff]
      exact hoccupies.iff i p hp

end Machine

namespace Baked.Records

variable {m : Machine} {b : Baked}

theorem size_states (hb : b.Records m) : b.states.size = m.leafCount := by
  simpa [Machine.length_places] using congrArg List.length hb.states

/-- What lies around a nested machine comes before it. -/
theorem parent_lt (hb : b.Records m) {k : Nat} {s : Sub} (hs : b.subs[k]? = some s) :
    s.parent.toInt < k := by
  have hk : k < m.rooms.length := by
    rw [Machine.length_rooms, ← hb.size_subs]
    exact (Array.getElem?_eq_some_iff.mp hs).1
  have hr := List.getElem?_eq_getElem hk
  obtain ⟨s', hs', hparent, -⟩ := hb.sub_at hr
  obtain rfl := Option.some.inj (hs'.symm.trans hs)
  rw [hparent]
  exact Draft.toInt_optionalIndex_lt (Machine.parent_lt hr)

theorem around_state (hb : b.Records m) (hsubs : m.subCount < 0x80000000) {i : Nat} {p : Place}
    (hp : m.places[i]? = some p) :
    ∃ s, b.states[i]? = some s ∧ b.Around s.sub (p.machines.reverse.map .ofNat) := by
  obtain ⟨s, hs, hsub⟩ := hb.state_at hp
  refine ⟨s, hs, ?_⟩
  rw [hsub]
  exact hb.around hsubs (Machine.within_of_mem_places (List.mem_of_getElem? hp))

/-- The walk from a place outwards ends, and meets the machines around the place. -/
theorem encloses_eq (hb : b.Records m) (hsubs : m.subCount < 0x80000000) {p : Place}
    (hp : p ∈ m.places) {sub : Int32} (h : b.Around sub (p.machines.reverse.map .ofNat)) {k : Nat}
    (hk : k < m.subCount) : b.encloses (.ofNat k) sub = .ok (decide (k ∈ p.machines)) := by
  have hlength : (p.machines.reverse.map Int32.ofNat).length ≤ b.subs.size := by
    rw [hb.size_subs, List.length_map, List.length_reverse]
    exact Machine.length_machines_le hp
  have hmem : Int32.ofNat k ∈ p.machines.reverse.map Int32.ofNat ↔ k ∈ p.machines := by
    rw [List.mem_map]
    constructor
    · rintro ⟨j, hj, heq⟩
      rw [List.mem_reverse] at hj
      have hlt := Machine.lt_of_mem_machines hp j hj
      rwa [(int32OfNat_inj (by omega) (by omega)).mp heq] at hj
    · intro hk
      exact ⟨k, List.mem_reverse.mpr hk, rfl⟩
  rw [encloses, if_neg (not_int32OfNat_neg (by omega)), h.enclosesWithin_eq (by omega)]
  simp only [hmem]

end Baked.Records

namespace Machine

variable {m : Machine} {ps : List Parameter} {cfg : Config} {b : Baked}

/-- A flattened graph and the machine baked from it agree on which leaves are inside which nested
machine: those that were authored there. The leaves inside a machine are numbered in a row. What
lies around a machine comes before it, so both walks outwards end, and meet the same machines on
their way. -/
theorem nesting_tests_agree (hsubs : m.subCount < 0x80000000)
    (h : (m.bakeWith ps cfg).outcome = .ok b) :
    ∃ f, (Flat.ofMachine m cfg).outcome = .ok f ∧ f.Flattens m ∧
      b.states.size = m.leafCount ∧ b.subs.size = m.subCount ∧
      (∀ i < m.leafCount, ∃ l s around, f.leaves[i]? = some l ∧ b.states[i]? = some s ∧
        f.Around l.parent around ∧ b.Around s.sub (around.map .ofNat) ∧
        around.length ≤ m.subCount ∧
        ∀ k < m.subCount, (m.encloses k i = true ↔ k ∈ around) ∧
          f.isInside? i k = some (m.encloses k i) ∧
          b.encloses (.ofNat k) s.sub = .ok (m.encloses k i)) ∧
      (∀ k < m.subCount, ∃ s c first, f.subs[k]? = some s ∧ c.nested? = some (s.node, s.border) ∧
        OpensAt m.allStates k first c ∧
        ∀ i, m.encloses k i = true ↔ first ≤ i ∧ i < first + c.subtree.countP State.isLeaf) ∧
      (∀ (k : Nat) s, f.subs[k]? = some s → ∀ j ∈ s.parent, j < k) ∧
      ∀ (k : Nat) s, b.subs[k]? = some s → s.parent.toInt < k := by
  obtain ⟨-, f, -, -, hf, -, -⟩ := bakeWith_eq_ok h
  obtain ⟨hsound, hflattens, -⟩ := Flat.ofMachine_sound hf
  obtain ⟨hkeeps, -⟩ := Flat.keeps_of_ofMachine hf
  have hb := Baked.records_of_bakeWith h
  refine ⟨f, hf, hflattens, hb.size_states, hb.size_subs, ?leaves, ?subs, hsound.sub_parent,
    fun _ _ hs => hb.parent_lt hs⟩
  case leaves =>
    intro i hi
    rw [← length_places] at hi
    have hp := List.getElem?_eq_getElem hi
    obtain ⟨l, hl, haround⟩ := hkeeps.around_leaf hp
    obtain ⟨s, hs, haround'⟩ := hb.around_state hsubs hp
    have hlength := length_machines_le (List.getElem_mem hi)
    rw [← List.length_reverse] at hlength
    refine ⟨l, s, m.places[i].machines.reverse, hl, hs, haround, haround', hlength, ?_⟩
    intro k hk
    have hinside := encloses_of_place hp k
    refine ⟨?_, ?_, ?_⟩
    · rw [hinside, decide_eq_true_iff, List.mem_reverse]
    · rw [hkeeps.isInside?_eq, hp, hinside]
      rfl
    · rw [hb.encloses_eq hsubs (List.getElem_mem hi) haround' hk, hinside]
  case subs =>
    intro k hk
    have hs : f.subs[k]? = some _ :=
      Array.getElem?_eq_getElem (by rwa [hflattens.size_subs])
    obtain ⟨r, hr, hat⟩ := Flat.sub_isAt_of_ofMachine hsubs hf hs
    obtain ⟨c, first, hc, hopens, hinterval⟩ := exists_interval hr
    refine ⟨_, c, first, hs, ?_, hopens, hinterval⟩
    rw [hc, hat.node, hat.border]

/-- A leaf inside two nested machines, one inside the outer of them only, and one outside both. -/
def resting : Machine where
  name := "resting"
  states :=
    [.container { id := 1, name := "lie" } { entry := some 4 }
      (some
        { name := "lie"
          states :=
            [.container { id := 2, name := "curl" } { entry := some 3 }
              (some
                { name := "curl"
                  states := [.leaf { id := 3, name := "sleep" } (.clip ⟨"sleep", 1⟩)] }),
             .leaf { id := 4, name := "doze" } (.clip ⟨"doze", 1⟩)] }),
     .leaf { id := 5, name := "sit" } (.clip ⟨"sit", 1⟩)]

theorem exists_bakeWith_resting : ∃ b, (resting.bakeWith [] {}).outcome = .ok b := by
  open SmallBakes in
  simp [resting, -String.reduceAppend]
  exact ⟨_, rfl⟩

theorem nesting_tests_agree_resting : ∃ b f s s',
    (resting.bakeWith [] {}).outcome = .ok b ∧ (Flat.ofMachine resting {}).outcome = .ok f ∧
      b.states[0]? = some s ∧ b.states[1]? = some s' ∧
      f.isInside? 0 1 = some true ∧ b.encloses 1 s.sub = .ok true ∧
      f.isInside? 1 1 = some false ∧ b.encloses 1 s'.sub = .ok false ∧
      f.isInside? 1 0 = some true ∧ b.encloses 0 s'.sub = .ok true := by
  obtain ⟨b, hb⟩ := exists_bakeWith_resting
  obtain ⟨f, hf, -, -, -, hleaves, -⟩ := nesting_tests_agree (by decide) hb
  obtain ⟨_, s, _, -, hs, -, -, -, hsleep⟩ := hleaves 0 (by decide)
  obtain ⟨_, s', _, -, hs', -, -, -, hdoze⟩ := hleaves 1 (by decide)
  obtain ⟨-, hsleep₁, hsleep₁'⟩ := hsleep 1 (by decide)
  obtain ⟨-, hdoze₁, hdoze₁'⟩ := hdoze 1 (by decide)
  obtain ⟨-, hdoze₀, hdoze₀'⟩ := hdoze 0 (by decide)
  exact ⟨b, f, s, s', hb, hf, hs, hs', hsleep₁, hsleep₁', hdoze₁, hdoze₁', hdoze₀, hdoze₀'⟩

end Machine

end PoseMachine
