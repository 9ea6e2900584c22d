import PoseMachine.Proofs.Depth

/-!
Towers, in which each nested machine is the only state of the one around it, and what is baked of
them. A tower may be higher than 16 bits count.
-/

namespace PoseMachine

open Draft (optionalIndex)

/-- A leaf inside `n` nested machines without names, each the only state of the one around it. -/
def State.tower : Nat → State
  | 0 => .leaf { id := 0, name := "rest" } (.clip ⟨"rest", 1⟩)
  | n + 1 =>
    .container { id := (n + 1).toUInt32, name := "" } { entry := some 0 }
      (some { name := "", states := [tower n] })

def Machine.tower (n : Nat) : Machine where
  name := "tower"
  states := [.tower n]
  defaultState := some 0

/-- The first `n` machines of a tower from number `k` on, with their numbers and names. -/
def floors (k n : Nat) : List (Nat × String) := (List.range' k n).map fun i => (i, "")

@[simp] theorem floors_zero (k : Nat) : floors k 0 = [] := rfl

theorem floors_succ (k n : Nat) : floors k (n + 1) = (k, "") :: floors (k + 1) n := by
  rw [floors, List.range'_succ]
  rfl

theorem length_floors (k n : Nat) : (floors k n).length = n := by
  simp [floors]

theorem optionalIndex_floors (n : Nat) :
    optionalIndex ((floors 0 n).getLast?.map (·.1)) = Int32.ofNat n - 1 := by
  cases n with
  | zero => rfl
  | succ n =>
      rw [floors, List.range'_concat]
      simp [optionalIndex, Int32.ofNat_add]

namespace State

theorem rooms_tower (around : List (Nat × String)) (k n : Nat) :
    (tower n).rooms around k = (List.range n).map fun j =>
      ⟨around ++ floors k j, { id := (n - j).toUInt32, name := "" }, { entry := some 0 }⟩ := by
  induction n generalizing around k with
  | zero => rfl
  | succ n ih =>
      rw [tower, rooms, forestRooms, forestRooms, List.append_nil, ih, List.range_succ_eq_map]
      simp [floors_succ, Function.comp_def]

theorem places_tower (around : List (Nat × String)) (k n : Nat) :
    (tower n).places around k =
      [⟨around ++ floors k n, { id := 0, name := "rest" }, .clip ⟨"rest", 1⟩⟩] := by
  induction n generalizing around k with
  | zero => simp [tower, places, floors]
  | succ n ih =>
      rw [tower, places, forestPlaces, forestPlaces, List.append_nil, ih, floors_succ]
      simp

end State

namespace Machine

theorem rooms_tower (n : Nat) : (tower n).rooms = (List.range n).map fun j =>
    ⟨floors 0 j, { id := (n - j).toUInt32, name := "" }, { entry := some 0 }⟩ := by
  rw [rooms, tower, forestRooms, forestRooms, List.append_nil]
  exact State.rooms_tower [] 0 n

theorem places_tower (n : Nat) :
    (tower n).places = [⟨floors 0 n, { id := 0, name := "rest" }, .clip ⟨"rest", 1⟩⟩] := by
  rw [places, tower, forestPlaces, forestPlaces, List.append_nil]
  exact State.places_tower [] 0 n

theorem subCount_tower (n : Nat) : (tower n).subCount = n := by
  rw [← length_rooms, rooms_tower, List.length_map, List.length_range]

end Machine

namespace Flat

open Machine (tower)

theorem leaves_tower (n : Nat) : (Survey.ofMachine (tower n)).leaves.toList =
    [.ofPlace "tower" 0 0 ⟨floors 0 n, { id := 0, name := "rest" }, .clip ⟨"rest", 1⟩⟩] := by
  rw [(Survey.adds_ofMachine (tower n)).leaves, Machine.places_tower]
  rfl

theorem leafIndex_tower (n : Nat) :
    (Survey.ofMachine (tower n)).leafIndex[(0 : StateId)]? = some 0 := by
  have hleaves := leaves_tower n
  rw [(Survey.indexesLast_ofMachine (tower n)).last]
  simp only [← Array.getElem?_toList, hleaves]
  refine ⟨⟨_, rfl, rfl⟩, ?_⟩
  intro j l hj hl
  have hlt := (List.getElem?_eq_some_iff.mp hl).1
  simp only [List.length_singleton] at hlt
  omega

theorem border_of_mem_tower {n : Nat} {s : Sub} (hs : s ∈ (Survey.ofMachine (tower n)).subs) :
    s.border = { entry := some 0 } := by
  have hnested : (s.node, s.border) ∈ (tower n).nested := by
    rw [← Survey.subParts_ofMachine]
    exact List.mem_map_of_mem (Array.mem_def.mp hs)
  rw [← Machine.map_rooms, Machine.rooms_tower, List.map_map] at hnested
  obtain ⟨j, -, heq⟩ := List.mem_map.mp hnested
  exact (Prod.mk.inj heq).2.symm

section Unchanged

variable {f : Flat}

theorem withEntries_eq_self (h : ∀ s ∈ f.subs, (f.resolveEntry s).outcome = .ok s.entry) :
    f.withEntries.outcome = .ok f := by
  rw [withEntries, Report.outcome_bind_eq_ok]
  refine ⟨f.subs.toList, ?_, rfl⟩
  rw [Report.outcome_mapM_eq_ok, List.forall₂_same]
  intro s hs
  exact Report.outcome_bind_eq_ok.mpr ⟨s.entry, h s (Array.mem_toList_iff.mp hs), rfl⟩

/-- Nested machines without exits have no exit groups. -/
theorem withExitGroups_eq_self (hgroups : f.exitGroups = #[])
    (h : ∀ s ∈ f.subs, s.border.exitStates = [] ∧ s.border.exitTransitions = []) (warn : Bool)
    (postOrder : List Nat) : (f.withExitGroups warn postOrder).outcome = .ok f := by
  rw [withExitGroups, Report.outcome_bind_eq_ok]
  refine ⟨(postOrder.filterMap (f.subs[·]?)).map fun _ => none, ?_, ?_⟩
  · rw [Report.outcome_mapM_eq_ok, List.forall₂_map_right_iff, List.forall₂_same]
    intro s hs
    obtain ⟨i, -, hi⟩ := List.mem_filterMap.mp hs
    obtain ⟨hstates, htransitions⟩ := h s (Array.mem_of_getElem? hi)
    simp [exitGroup?, hstates, htransitions]
  · have hnone : ((postOrder.filterMap (f.subs[·]?)).map
        fun _ => (none : Option ExitGroup)).filterMap id = [] := by
      simp
    rw [hnone]
    change Except.ok { f with leaves := f.leaves, exitGroups := #[] } = Except.ok f
    rw [← hgroups]

end Unchanged

/-- A tower flattens to what the walk has found: its entries and its start are leaf 0, and it has no
exits. -/
theorem ofMachine_tower (n : Nat) : (ofMachine (tower n) {}).outcome =
    .ok (ofSurvey (tower n) false (Survey.ofMachine (tower n))) := by
  have hsurvey := Survey.Sound.ofMachine (tower n)
  have hclips : ¬ (Survey.ofMachine (tower n)).clipCount > Config.clipLimit {} := by
    rw [(Survey.adds_ofMachine (tower n)).clipCount, Machine.places_tower]
    simp [placedClips, Motion.clipCount, Config.clipLimit]
  let f := ofSurvey (tower n) false (Survey.ofMachine (tower n))
  have hborder : ∀ s ∈ f.subs, s.border = { entry := some 0 } := fun s hs =>
    border_of_mem_tower hs
  have hleaf : f.leafIndex[(0 : StateId)]? = some 0 := leafIndex_tower n
  have hentries : f.withEntries.outcome = .ok f := by
    apply withEntries_eq_self
    intro s hs
    obtain ⟨i, hi⟩ := Array.mem_iff_getElem?.mp hs
    have hself : f.subs[s.index]? = some s := by
      rw [hsurvey.sub_index i s hi]
      exact hi
    simp [resolveEntry, followEntry, hself, hborder s hs, hleaf, hsurvey.sub_entry s hs]
  have hexits : (f.withExitGroups true (Survey.ofMachine (tower n)).postOrder.toList).outcome =
      .ok f := by
    apply withExitGroups_eq_self rfl
    intro s hs
    rw [hborder s hs]
    exact ⟨rfl, rfl⟩
  have hstart : f.startLeaf.outcome = .ok 0 := by
    have hne : f.leaves ≠ #[] := by
      intro hempty
      have hleaves := leaves_tower n
      rw [show (Survey.ofMachine (tower n)).leaves = #[] from hempty] at hleaves
      cases hleaves
    have hdefault : f.machine.defaultState = some 0 := rfl
    simp [startLeaf, hne, hdefault, resolveTarget, hleaf]
  rw [ofMachine_eq, Report.outcome_tell_bind, if_neg hclips]
  refine Report.outcome_bind_eq_ok.mpr ⟨f, hentries, ?_⟩
  refine Report.outcome_bind_eq_ok.mpr ⟨f, hexits, ?_⟩
  exact Report.outcome_bind_eq_ok.mpr ⟨0, hstart, rfl⟩

end Flat

/-- What is baked of a tower. -/
def Baked.tower (n : Nat) : Baked where
  nameHash := PoseMachine.nameHash "tower"
  states :=
    #[{ kind := .clip, typeIndex := 0, looping := true, speed := 1, speedParameter := none,
        transitions := {}, exitGroup := -1, sub := Int32.ofNat n - 1,
        nameHash := PoseMachine.nameHash "rest" }]
  clipStates := #[⟨0⟩]
  subs := ((List.range n).map fun k =>
    ⟨Int32.ofNat k - 1, (k + 1).toUInt16, 0, PoseMachine.nameHash ""⟩).toArray
  clips := #[⟨1, PoseMachine.nameHash "rest"⟩]
  maxClipsPerState := 1

namespace Machine

theorem bakeWith_tower (n : Nat) : ((tower n).bakeWith [] {}).outcome = .ok (.tower n) := by
  have hleaves := Flat.leaves_tower n
  have hsubs : (Flat.Survey.ofMachine (tower n)).subs.toList.map Draft.bakedSub =
      (Baked.tower n).subs.toList := by
    have hrooms : (Flat.numberedRooms "tower" 0 (tower n).rooms).map Draft.bakedSub =
        (tower n).rooms.map fun r => ⟨optionalIndex r.parent, (r.around.length + 1).toUInt16, 0,
          nameHash r.node.name⟩ :=
      Flat.map_numberedRooms _ _ _ fun _ _ => rfl
    refine (congrArg (List.map Draft.bakedSub) (Flat.Survey.subs_ofMachine _)).trans ?_
    refine hrooms.trans ?_
    rw [rooms_tower]
    simp [Room.parent, optionalIndex_floors, length_floors, Baked.tower]
  have hflat := Flat.ofMachine_tower n
  generalize Flat.Survey.ofMachine (tower n) = v at hleaves hsubs hflat
  let d : Draft :=
    { nameHash := nameHash "tower"
      defaultState := 0
      parameters := {}
      states :=
        [⟨.clip 0, true, 1, none, [], -1, optionalIndex ((floors 0 n).getLast?.map (·.1)),
          nameHash "rest"⟩]
      anyTransitions := []
      exits := []
      subs := (Baked.tower n).subs.toList
      clips := [⟨1, nameHash "rest"⟩] }
  have hdraft : (Draft.ofFlat (Flat.ofSurvey (tower n) false v) {}).outcome = .ok d := by
    open SmallBakes in
    simp [hleaves, hsubs, Flat.Leaf.ofPlace, Place.parent, Draft.bakedClip, Motion.clips, d, tower]
    rfl
  have hpack : d.pack.outcome = .ok (.tower n) := by
    open SmallBakes in
    simp [Draft.Motion.clipCount, Baked.tower, optionalIndex_floors, d]
    rfl
  refine Report.outcome_bind_eq_ok.mpr ⟨{}, rfl, ?_⟩
  refine Report.outcome_bind_eq_ok.mpr ⟨_, hflat, ?_⟩
  exact Report.outcome_bind_eq_ok.mpr ⟨d, hdraft, hpack⟩

theorem exists_level_tower {n k : Nat} (hn : n < 0x80000000) (hk : k < n) : ∃ f s r,
    (Flat.ofMachine (tower n) {}).outcome = .ok f ∧ f.subs[k]? = some s ∧
      (tower n).rooms[k]? = some r ∧ r.around.length = k ∧
      s.level.toNat = (k + 1) % 65536 := by
  have hsubs : (tower n).subCount < 0x80000000 := by rwa [subCount_tower]
  have hf := Flat.ofMachine_tower n
  obtain ⟨-, hflattens, -⟩ := Flat.ofMachine_sound hf
  have hlt := hk
  rw [← subCount_tower n, ← hflattens.size_subs] at hlt
  obtain ⟨s, -, hs⟩ := yields_fetch hlt
  obtain ⟨r, hr, hat⟩ := Flat.sub_isAt_of_ofMachine hsubs hf hs
  have hfloor := hr
  rw [rooms_tower, List.getElem?_map, List.getElem?_range hk] at hfloor
  obtain rfl := Option.some.inj hfloor
  refine ⟨_, s, _, hf, hs, hr, length_floors 0 k, ?_⟩
  rw [hat.level, length_floors]

theorem exists_start_tower {n : Nat} (hn : n < 0x80000000) : ∃ x p,
    Instance.start (.tower n) {} = .ok x ∧
      (tower n).places[(Baked.tower n).defaultState.toNat]? = some p ∧ p.around.length = n ∧
      x.navigation.depth = n % 65536 := by
  have hsubs : (tower n).subCount < 0x80000000 := by rwa [subCount_tower]
  have hrecords := Baked.records_of_bakeWith (bakeWith_tower n)
  have hroom : Config.Addressable {} := ⟨by decide, by decide⟩
  obtain ⟨x, hx, hdepth⟩ := Instance.yields_depth_start hrecords hsubs hroom
  have hp : (tower n).places[(Baked.tower n).defaultState.toNat]? = some
      ⟨floors 0 n, { id := 0, name := "rest" }, .clip ⟨"rest", 1⟩⟩ := by
    rw [places_tower]
    rfl
  refine ⟨x, _, hx, hp, length_floors 0 n, ?_⟩
  rw [hdepth _ hp, length_floors]

/-- The innermost machine of a tower of 65536 is recorded at depth 0, and an instance that starts
inside of it is told to be in none. -/
theorem nesting_lost_tower : (tower 65536).subCount < 0x80000000 ∧
    (∃ f s r, (Flat.ofMachine (tower 65536) {}).outcome = .ok f ∧ f.subs[65535]? = some s ∧
      (tower 65536).rooms[65535]? = some r ∧ r.around.length = 65535 ∧ s.level.toNat = 0) ∧
    ((tower 65536).bakeWith [] {}).outcome = .ok (.tower 65536) ∧
    ∃ x p, Instance.start (.tower 65536) {} = .ok x ∧
      (tower 65536).places[(Baked.tower 65536).defaultState.toNat]? = some p ∧
      p.around.length = 65536 ∧ x.navigation.depth = 0 := by
  have hn : 65536 < 0x80000000 := by decide
  have hk : 65535 < 65536 := by decide
  refine ⟨?_, exists_level_tower hn hk, bakeWith_tower 65536, exists_start_tower hn⟩
  rw [subCount_tower]
  exact hn

end Machine

end PoseMachine
