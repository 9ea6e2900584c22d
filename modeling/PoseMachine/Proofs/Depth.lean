import PoseMachine.Proofs.Rooms
import PoseMachine.Proofs.Session
import PoseMachine.Proofs.Whereabouts

/-!
How deep an instance stands when it starts. A baked machine records the depth of each nested machine
in 16 bits, and a start enters as many contexts as are recorded.
-/

namespace PoseMachine

open Draft (optionalIndex)

namespace Baked

/-- What the navigation reads of a draft: the default state, the nested machines, and the innermost
ones around the states `ss`. -/
structure Nests (b : Baked) (d : Draft) (ss : List Draft.State) : Prop where
  defaultState : b.defaultState = d.defaultState
  subs : b.subs = d.subs.toArray
  states : b.states.toList.map (·.sub) = ss.map (·.sub)

variable {b c : Baked} {d : Draft} {ss : List Draft.State}

theorem withMotions_of_addMotion {m : Draft.Motion} {k : StateKind} {i : Nat}
    (h : (b.addMotion m).outcome = .ok (c, k, i)) : c = b.withMotions c := by
  cases m with
  | clip clip =>
      simp only [addMotion, Report.outcome_pure_eq_ok, Prod.mk.injEq] at h
      obtain ⟨rfl, -, -⟩ := h
      rfl
  | line p es =>
      simp only [addMotion, Report.outcome_bind_eq_ok, Report.outcome_pure_eq_ok,
        Prod.mk.injEq] at h
      obtain ⟨s, -, rfl, -, -⟩ := h
      rfl
  | plane x y method es =>
      simp only [addMotion, Report.outcome_bind_eq_ok, Report.outcome_pure_eq_ok,
        Prod.mk.injEq] at h
      obtain ⟨s, -, rfl, -, -⟩ := h
      rfl

theorem Nests.addState {s : Draft.State} (hb : b.Nests d ss)
    (h : (b.addState s).outcome = .ok c) : c.Nests d (ss ++ [s]) := by
  simp only [Baked.addState, Report.outcome_bind_eq_ok, Report.outcome_pure_eq_ok] at h
  obtain ⟨⟨b₁, k, i⟩, hmotion, ⟨b₂, span⟩, hedges, rfl⟩ := h
  obtain ⟨xs, rfl, -, -⟩ := addEdges_eq_ok hedges
  rw [withMotions_of_addMotion hmotion]
  exact ⟨hb.defaultState, hb.subs, by simp [withEdges, withMotions, hb.states]⟩

theorem Nests.addExit {e : Draft.Exit} (hb : b.Nests d ss)
    (h : (b.addExit e).outcome = .ok c) : c.Nests d ss := by
  simp only [Baked.addExit, Report.outcome_bind_eq_ok, Report.outcome_pure_eq_ok] at h
  obtain ⟨span, -, ⟨b₁, s⟩, hedges, rfl⟩ := h
  obtain ⟨xs, rfl, -, -⟩ := addEdges_eq_ok hedges
  exact ⟨hb.defaultState, hb.subs, hb.states⟩

theorem nests_of_pack (h : d.pack.outcome = .ok b) : b.Nests d d.states := by
  simp only [Draft.pack, Report.outcome_bind_eq_ok] at h
  obtain ⟨b₁, hstates, ⟨b₂, s⟩, hany, b₃, hexits, -, -, h⟩ := h
  obtain rfl := Report.outcome_pure_eq_ok.mp h
  have hb₁ : b₁.Nests d d.states :=
    Report.outcome_foldlM_induction (P := fun done c => Nests c d done)
      (fun _ _ _ _ hdone hc => hdone.addState hc) ⟨rfl, rfl, rfl⟩ hstates
  obtain ⟨xs, rfl, -, -⟩ := addEdges_eq_ok hany
  refine Report.outcome_foldlM_induction (P := fun _ c => c.Nests d d.states)
    (fun _ _ _ _ hdone hc => hdone.addExit hc) ?_ hexits
  exact ⟨hb₁.defaultState, hb₁.subs, hb₁.states⟩

/-- The nested machines of `b` are those of `m`, each inside the innermost one around it and at its
depth modulo 2 ^ 16, and each state of `b` is inside the innermost machine around its leaf. -/
structure Records (b : Baked) (m : Machine) : Prop where
  subs : (b.subs.toList.map fun s => (s.parent, s.level, s.nameHash)) =
    m.rooms.map fun r =>
      (optionalIndex r.parent, (r.around.length + 1).toUInt16, PoseMachine.nameHash r.node.name)
  states : b.states.toList.map (·.sub) = m.places.map fun p => optionalIndex p.parent

theorem records_of_bakeWith {m : Machine} {ps : List Parameter} {cfg : Config}
    (h : (m.bakeWith ps cfg).outcome = .ok b) : b.Records m := by
  obtain ⟨t, f, d, -, hf, hd, hb⟩ := Machine.bakeWith_eq_ok h
  have hnests := nests_of_pack hb
  have hrenders := Draft.renders_of_ofFlat (Flat.ofMachine_sound hf).1 hd
  obtain ⟨hkeeps, -⟩ := Flat.keeps_of_ofMachine hf
  constructor
  case subs =>
    have hsubs := congrArg (fun ss : Array Flat.Sub => ss.toList.map fun s =>
      (optionalIndex s.parent, s.level, PoseMachine.nameHash s.node.name)) hkeeps.subs
    simp only [Array.toList_map, List.map_map, Flat.Survey.subs_ofMachine] at hsubs
    rw [hnests.subs, hrenders.subs, List.map_map]
    exact hsubs.trans (Flat.map_numberedRooms _ _ _ fun _ _ => rfl)
  case states =>
    have hleaves := congrArg (fun ls : Array Flat.Leaf => ls.toList.map fun l =>
      optionalIndex l.parent) hkeeps.leaves
    simp only [Array.toList_map, List.map_map, (Flat.Survey.adds_ofMachine m).leaves] at hleaves
    have hdrafts : List.Forall₂ (· = ·) (d.states.map (·.sub))
        (f.leaves.toList.map fun l => optionalIndex l.parent) := by
      rw [List.forall₂_map_left_iff, List.forall₂_map_right_iff]
      exact hrenders.states.flip.imp fun _ _ h => h.sub
    rw [List.forall₂_eq_eq_eq] at hdrafts
    rw [hnests.states, hdrafts]
    exact hleaves.trans (Flat.map_numbered _ _ _ _ fun _ _ _ => rfl)

namespace Records

variable {m : Machine} {a : List (Nat × String)} {n : Nat}

theorem size_subs (hb : b.Records m) : b.subs.size = m.subCount := by
  simpa [Machine.length_rooms] using congrArg List.length hb.subs

theorem sub_at (hb : b.Records m) {k : Nat} {r : Room} (hr : m.rooms[k]? = some r) :
    ∃ s, b.subs[k]? = some s ∧ s.parent = optionalIndex r.parent ∧
      s.level.toNat = (r.around.length + 1) % 65536 ∧
      s.nameHash = PoseMachine.nameHash r.node.name := by
  have hk := congrArg (fun ss => ss[k]?) hb.subs
  simp only [List.getElem?_map, hr, Option.map_some, Array.getElem?_toList] at hk
  obtain ⟨s, hs, hparts⟩ := Option.map_eq_some_iff.mp hk
  simp only [Prod.mk.injEq] at hparts
  obtain ⟨hparent, hlevel, hhash⟩ := hparts
  refine ⟨s, hs, hparent, ?_, hhash⟩
  rw [hlevel]
  exact UInt16.toNat_ofNat'

theorem state_at (hb : b.Records m) {i : Nat} {p : Place} (hp : m.places[i]? = some p) :
    ∃ s, b.states[i]? = some s ∧ s.sub = optionalIndex p.parent := by
  have hi := congrArg (fun ss => ss[i]?) hb.states
  simp only [List.getElem?_map, hp, Option.map_some, Array.getElem?_toList] at hi
  obtain ⟨s, hs, hsub⟩ := Option.map_eq_some_iff.mp hi
  exact ⟨s, hs, hsub⟩

/-- The nested machine of a room, under its index. -/
theorem sub_at_index (hb : b.Records m) (hsubs : m.subCount < 0x80000000) {k : Nat} {r : Room}
    (hr : m.rooms[k]? = some r) : ¬ Int32.ofNat k < 0 ∧
      ∃ s, b.subs[(Int32.ofNat k).toInt.toNat]? = some s ∧ s.parent = optionalIndex r.parent ∧
        s.level.toNat = (r.around.length + 1) % 65536 := by
  obtain ⟨s, hs, hparent, hlevel, -⟩ := hb.sub_at hr
  have hlt : k < m.subCount := by
    rw [← Machine.length_rooms]
    exact (List.getElem?_eq_some_iff.mp hr).1
  have hk : k < 0x80000000 := by omega
  exact ⟨not_int32OfNat_neg hk, s, by rwa [Int32.toInt_ofNat_of_lt hk, Int.toNat_natCast], hparent,
    hlevel⟩

/-- The parents from a place outwards are the machines around it. -/
theorem around (hb : b.Records m) (hsubs : m.subCount < 0x80000000)
    (ha : Within [] 0 m.rooms n a) :
    b.Around (optionalIndex (a.getLast?.map (·.1))) ((a.map (·.1)).reverse.map .ofNat) := by
  refine ha.outwards (P := fun _ a => b.Around (optionalIndex (a.getLast?.map (·.1)))
    ((a.map (·.1)).reverse.map .ofNat)) (fun _ => .outermost (by decide)) ?_
  intro _ k r _ hr haround
  obtain ⟨hneg, s, hs, hparent, -⟩ := hb.sub_at_index hsubs hr
  rw [List.getLast?_concat, List.map_append, List.reverse_append]
  refine .nested hneg hs ?_
  rw [hparent]
  exact haround

/-- The depth of a place is recorded modulo 2 ^ 16. -/
theorem levelOf_eq (hb : b.Records m) (hsubs : m.subCount < 0x80000000)
    (ha : Within [] 0 m.rooms n a) :
    b.levelOf (optionalIndex (a.getLast?.map (·.1))) = .ok (a.length % 65536) := by
  rcases ha with rfl | ⟨k, r, -, hr, rfl⟩
  · rfl
  · obtain ⟨hneg, s, hs, -, hlevel⟩ := hb.sub_at_index hsubs hr
    rw [List.getLast?_concat, Option.map_some, optionalIndex, Nat.zero_add, levelOf, if_neg hneg,
      fetch_eq_ok_iff.mpr hs, List.length_append, List.length_singleton, ← hlevel]
    rfl

end Records

/-- The walk outwards to a machine of some level ends, if only at the outermost machine. -/
theorem Around.yields_ancestorWithin {sub : Int32} {chain : List Int32} (h : b.Around sub chain)
    (level : Nat) {n : Nat} (hn : chain.length < n) :
    Yields (b.ancestorWithin level n sub) fun _ => True := by
  induction h generalizing n with
  | outermost hneg =>
      obtain ⟨n, rfl⟩ := Nat.exists_eq_add_one.mpr hn
      rw [ancestorWithin, if_pos hneg]
      exact .ok trivial
  | nested hneg hs _ ih =>
      obtain ⟨n, rfl⟩ := Nat.exists_eq_add_one.mpr (Nat.zero_lt_of_lt hn)
      rw [ancestorWithin, if_neg hneg, fetch_eq_ok_iff.mpr hs, ok_bind]
      split
      · exact .pure trivial
      · exact ih (Nat.lt_of_succ_lt_succ hn)

end Baked

namespace Navigation

variable {b : Baked} {sub : Int32} {chain : List Int32}

theorem yields_length_enter (h : b.Around sub chain) (hchain : chain.length ≤ b.subs.size)
    (state : Int32) (level k : Nat) (cs : List Context) :
    Yields (enter b sub state level k cs) fun entered => entered.length = cs.length + k := by
  induction k generalizing level cs with
  | zero => exact .pure rfl
  | succ k ih =>
      rw [enter]
      refine (h.yields_ancestorWithin (level + 1) (by omega)).bind ?_
      intro s _
      refine (ih (level + 1) (⟨state, s, (level + 1).toUInt16⟩ :: cs)).mono ?_
      intro entered hentered
      rw [hentered, List.length_cons]
      omega

/-- From the outermost machine alone, a jump enters as many contexts as the level of the machine
around the leaf says. -/
theorem yields_depth_sync {i : Nat} {s : Baked.State} {level : Nat}
    (hs : b.states[i]? = some s) (h : b.Around s.sub chain) (hchain : chain.length ≤ b.subs.size)
    (hlevel : b.levelOf s.sub = .ok level) :
    Yields (Navigation.sync {} b i) fun n => n.depth = level := by
  rw [sync, hs]
  simp only [leave, pure, Except.pure, ok_bind, hlevel]
  refine (yields_length_enter h hchain _ _ _ _).bind ?_
  intro entered hentered
  refine .pure ?_
  rw [depth_modifyCurrent, depth, hentered]
  exact Nat.zero_add level

end Navigation

/-- An instance starts as deep as its leaf is, modulo 2 ^ 16. -/
theorem Instance.yields_depth_start {b : Baked} {m : Machine} (hb : b.Records m)
    (hsubs : m.subCount < 0x80000000) {room : Config} (hroom : room.Addressable) :
    Yields (start b room) fun x => ∀ p, m.places[b.defaultState.toNat]? = some p →
      x.navigation.depth = p.around.length % 65536 := by
  rw [start_eq hroom]
  cases hp : m.places[b.defaultState.toNat]? with
  | none =>
      have hi := congrArg (fun ss => ss[b.defaultState.toNat]?) hb.states
      simp only [List.getElem?_map, hp, Option.map_none, Array.getElem?_toList,
        Option.map_eq_none_iff] at hi
      rw [Navigation.sync, hi]
      exact .pure (by simp)
  | some p =>
      obtain ⟨s, hs, hsub⟩ := hb.state_at hp
      have hwithin := Machine.within_of_mem_places (List.mem_of_getElem? hp)
      have hchain := hb.around hsubs hwithin
      have hlevel := hb.levelOf_eq hsubs hwithin
      have hle : ((p.around.map (·.1)).reverse.map Int32.ofNat).length ≤ b.subs.size := by
        rw [List.length_map, List.length_reverse, List.length_map, hb.size_subs]
        exact hwithin.length_le
      rw [Place.parent] at hsub
      rw [← hsub] at hchain hlevel
      refine (Navigation.yields_depth_sync hs hchain hle hlevel).bind ?_
      intro navigation hdepth
      refine .pure ?_
      rintro p' ⟨⟩
      exact hdepth

namespace Machine

/-- Nested machines are numbered depth first, each inside the innermost one around it. How deep they
are is recorded modulo 2 ^ 16, and an instance starts that deep: 65536 levels count as none. -/
theorem nesting_recorded (m : Machine) (cfg : Config) (hsubs : m.subCount < 0x80000000) :
    (∀ f, (Flat.ofMachine m cfg).outcome = .ok f →
      (f.subs.toList.map fun s => (s.node, s.border)) = m.nested ∧
      f.subs.size = m.subCount ∧
      ∀ (k : Nat) s, f.subs[k]? = some s → ∃ r, m.rooms[k]? = some r ∧ s.IsAt m k r) ∧
    ∀ ps b, (m.bakeWith ps cfg).outcome = .ok b →
      b.Records m ∧
      ∀ room : Config, room.Addressable → ∃ x, Instance.start b room = .ok x ∧
        ∀ p, m.places[b.defaultState.toNat]? = some p →
          x.navigation.depth = p.around.length % 65536 ∧
          (x.navigation.depth = p.around.length ↔ p.around.length < 65536) := by
  refine ⟨?_, ?_⟩
  · intro f hf
    obtain ⟨-, hflattens, -⟩ := Flat.ofMachine_sound hf
    exact ⟨hflattens.subs, hflattens.size_subs,
      fun _ _ hs => Flat.sub_isAt_of_ofMachine hsubs hf hs⟩
  · intro ps b hb
    have hrecords := Baked.records_of_bakeWith hb
    refine ⟨hrecords, ?_⟩
    intro room hroom
    obtain ⟨x, hx, hdepth⟩ := Instance.yields_depth_start hrecords hsubs hroom
    refine ⟨x, hx, ?_⟩
    intro p hp
    have hmod := hdepth p hp
    exact ⟨hmod, by omega⟩

theorem nesting_recorded_hopping : ∃ (b : Baked) (s : Baked.Sub) (x : Instance),
    (hopping.bakeWith [⟨"grounded", .bool true⟩] {}).outcome = .ok b ∧
      b.subs[0]? = some s ∧ s.parent = -1 ∧ s.level.toNat = 1 ∧
      Instance.start b {} = .ok x ∧ x.navigation.depth = 1 := by
  obtain ⟨b, hb⟩ := exists_bakeWith_hopping
  obtain ⟨hrecords, hstart⟩ := (nesting_recorded hopping {} (by decide)).2 _ b hb
  obtain ⟨s, hs, hparent, hlevel, -⟩ := hrecords.sub_at (k := 0) rfl
  obtain ⟨x, hx, hdepth⟩ := hstart {} ⟨by decide, by decide⟩
  -- The machine has one leaf, so that is where an instance starts.
  have hsize : b.states.size = hopping.places.length := by
    simpa using congrArg List.length hrecords.states
  have hplaces : hopping.places.length = 1 := rfl
  have hdefault : b.defaultState.toNat < b.states.size :=
    (valid_of_bakeWith (by decide) (by decide) hb).defaultState.resolve_left
      (by rintro hempty; simp [hempty, hplaces] at hsize)
  have hzero : b.defaultState.toNat = 0 := by omega
  rw [hzero] at hdepth
  exact ⟨b, s, x, hb, hs, hparent, hlevel, hx, (hdepth _ rfl).1⟩

end Machine

end PoseMachine
