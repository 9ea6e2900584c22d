import PoseMachine.Proofs.Ancestry
import PoseMachine.Proofs.Nesting
import PoseMachine.Proofs.Steps

/-!
Where an instance is among nested machines depends on its state alone. Whatever jumps came before,
the contexts are those of the machines around the active leaf.
-/

namespace PoseMachine

namespace Navigation

variable {b : Baked} {n n' : Navigation} {sub : Int32} {chain : List Int32} {i : Nat}

/-- The level of each context, the innermost one first, is its position from outside. -/
def Numbered : List Context → Prop
  | [] => True
  | c :: cs => c.level.toNat = cs.length + 1 ∧ Numbered cs

theorem all_reverse_zipIdx_iff (cs : List Context) :
    (cs.reverse.zipIdx 1).all (fun (c, i) => c.level.toNat == i) = true ↔ Numbered cs := by
  induction cs with
  | nil => simp [Numbered]
  | cons c cs ih =>
      simp only [List.reverse_cons, List.zipIdx_append, List.all_append, Bool.and_eq_true, ih,
        Numbered]
      simp [Nat.add_comm, and_comm]

theorem isValid_iff : n.isValid = true ↔
    n.outermost.sub = -1 ∧ n.outermost.level = 0 ∧ Numbered n.entered := by
  rw [isValid, contexts, List.zipIdx_cons, List.all_cons, Bool.and_eq_true, Bool.and_eq_true,
    all_reverse_zipIdx_iff]
  simp [← UInt16.toNat_inj]

/-- The contexts are those of a chain of nested machines. -/
structure Nested (b : Baked) (n : Navigation) : Prop where
  valid : n.isValid = true
  chain : ∃ sub, b.Around sub (n.entered.map (·.sub))

theorem leave_eq (hb : b.Valid) (hsub : sub.toInt < b.subs.size) (h : b.Around sub chain)
    (cs : List Context) :
    leave b sub cs = .ok (cs.dropWhile fun c => !decide (c.sub < 0 ∨ c.sub ∈ chain)) := by
  induction cs with
  | nil => rfl
  | cons c cs ih =>
      rw [leave, h.encloses_eq hb hsub, ok_bind, List.dropWhile_cons]
      by_cases hin : c.sub < 0 ∨ c.sub ∈ chain
      · simp [hin]
        rfl
      · simp only [hin, decide_false, Bool.not_false, if_true]
        exact ih

/-- The machines of a chain that are not entered yet are entered from outside inwards. -/
theorem exists_enter (hb : b.Valid) (hl : b.Leveled) (hsub : sub.toInt < b.subs.size)
    (state : Int32) {inside : List Int32} {cs : List Context}
    (h : b.Around sub (inside ++ cs.map (·.sub))) (hcs : Numbered cs) :
    ∃ new, enter b sub state cs.length inside.length cs = .ok (new ++ cs) ∧
      new.map (·.sub) = inside ∧ Numbered (new ++ cs) := by
  induction inside using List.reverseRecOn generalizing cs with
  | nil => exact ⟨[], rfl, rfl, hcs⟩
  | append_singleton inside outer ih =>
      rw [List.append_assoc, List.singleton_append] at h
      have hlevel : (cs.length + 1).toUInt16.toNat = cs.length + 1 := by
        have hlength := h.length_lt hl
        simp only [List.length_append, List.length_cons, List.length_map] at hlength
        exact toNat_toUInt16 (by omega)
      have hancestor := h.ancestorAt_eq hb hl hsub
      rw [List.length_map] at hancestor
      let c : Context := ⟨state, outer, (cs.length + 1).toUInt16⟩
      have hchain : b.Around sub (inside ++ (c :: cs).map (·.sub)) := h
      obtain ⟨new, henter, hmap, hnew⟩ := ih hchain ⟨hlevel, hcs⟩
      refine ⟨new ++ [c], ?_, ?_, ?_⟩
      · rw [List.length_append, List.length_singleton, enter, hancestor, ok_bind,
          List.append_assoc]
        exact henter
      · rw [List.map_append, hmap]
        rfl
      · rw [List.append_assoc]
        exact hnew

theorem Numbered.of_append {left kept : List Context} (h : Numbered (left ++ kept)) :
    Numbered kept := by
  induction left with
  | nil => exact h
  | cons c left ih => exact ih h.2

/-- A jump leaves some of the contexts entered, none of which is around the leaf. The others are
kept, and together with new ones they are the machines around the leaf. -/
theorem exists_sync (hb : b.Valid) (hl : b.Leveled) (hn : n.Nested b) {s : Baked.State}
    (hs : b.states[i]? = some s) (h : b.Around s.sub chain) : ∃ left new kept,
      n.entered = left ++ kept ∧ (∀ c ∈ left, c.sub ∉ chain) ∧
      (new ++ kept).map (·.sub) = chain ∧ Numbered (new ++ kept) ∧
      n.sync b i = .ok (({ n with entered := new ++ kept } : Navigation).modifyCurrent
        fun c => { c with state := .ofNat i }) := by
  have hsub := toInt_lt_of_lt_ofNat (hb.states s (Array.mem_of_getElem? hs)).sub
  obtain ⟨sub, hentered⟩ := hn.chain
  obtain ⟨-, -, hnumbered⟩ := isValid_iff.mp hn.valid
  have hleave := leave_eq hb hsub h n.entered
  have hhead := List.head?_dropWhile_not (fun c => !decide (c.sub < 0 ∨ c.sub ∈ chain)) n.entered
  have hleft : ∀ c ∈ n.entered.takeWhile fun c => !decide (c.sub < 0 ∨ c.sub ∈ chain),
      c.sub ∉ chain := by
    intro c hc hmem
    have hout := List.mem_takeWhile_imp hc
    simp [hmem] at hout
  have hsplit := (List.takeWhile_append_dropWhile
    (p := fun c => !decide (c.sub < 0 ∨ c.sub ∈ chain)) (l := n.entered)).symm
  generalize n.entered.takeWhile _ = left at hleft hsplit
  generalize n.entered.dropWhile _ = kept at hleave hhead hsplit
  rw [hsplit] at hentered hnumbered
  rw [List.map_append] at hentered
  -- The innermost context kept is around the leaf, so those outside it are the same ones.
  obtain ⟨inside, hinside⟩ : ∃ inside, chain = inside ++ kept.map (·.sub) := by
    cases kept with
    | nil => exact ⟨chain, by simp⟩
    | cons c kept =>
        have hnonneg : ¬ c.sub < 0 := hentered.not_neg_of_mem (by simp)
        have hmem : c.sub ∈ chain := by simpa [hnonneg] using hhead
        exact hentered.exists_append_of_mem h hmem
  rw [hinside] at h
  obtain ⟨new, henter, hmap, hnew⟩ :=
    exists_enter hb hl hsub (.ofNat i) h hnumbered.of_append
  refine ⟨left, new, kept, hsplit, hleft, ?_, hnew, ?_⟩
  · rw [List.map_append, hmap, hinside]
  · have hlength : (inside ++ kept.map (·.sub)).length - kept.length = inside.length := by
      simp
    rw [sync, hs]
    simp only [hleave, h.levelOf_eq hl, ok_bind, hlength, henter]
    rfl

/-- The contexts are the outermost machine and a chain of nested ones, the leaf `i` being active in
the innermost of them. -/
structure StandsAt (n : Navigation) (i : Nat) (chain : List Int32) : Prop where
  subs : n.contexts.map (·.sub) = -1 :: chain.reverse
  depth : n.depth = chain.length
  valid : n.isValid = true
  state : n.current.state = .ofNat i
  index : i < 0x80000000 → n.current.state.toInt = i

/-- Every context around the innermost one that was there before is as it was. -/
def Retains (n n' : Navigation) : Prop :=
  ∀ c' ∈ n'.contexts.dropLast, ∀ c ∈ n.contexts, c.sub = c'.sub → c' = c

theorem StandsAt.nested (h : n.StandsAt i chain) (hchain : b.Around sub chain) : n.Nested b := by
  refine ⟨h.valid, sub, ?_⟩
  obtain ⟨-, hsubs⟩ := List.cons.inj h.subs
  rw [List.map_reverse] at hsubs
  rw [List.reverse_injective hsubs]
  exact hchain

theorem current_modifyCurrent (f : Context → Context) :
    (n.modifyCurrent f).current = f n.current := by
  obtain ⟨c, _ | ⟨d, cs⟩⟩ := n <;> rfl

theorem depth_modifyCurrent (f : Context → Context) : (n.modifyCurrent f).depth = n.depth := by
  obtain ⟨c, _ | ⟨d, cs⟩⟩ := n <;> rfl

theorem dropLast_contexts_modifyCurrent (f : Context → Context) :
    (n.modifyCurrent f).contexts.dropLast = n.contexts.dropLast := by
  obtain ⟨c, _ | ⟨d, cs⟩⟩ := n
  · rfl
  · simp [contexts, modifyCurrent, List.dropLast_cons_of_ne_nil]

theorem map_sub_modifyCurrent (state : Int32) :
    (n.modifyCurrent fun c => { c with state }).contexts.map (·.sub) =
      n.contexts.map (·.sub) := by
  obtain ⟨c, _ | ⟨d, cs⟩⟩ := n <;> simp [contexts, modifyCurrent]

theorem isValid_modifyCurrent (state : Int32) :
    (n.modifyCurrent fun c => { c with state }).isValid = n.isValid := by
  obtain ⟨c, _ | ⟨d, cs⟩⟩ := n
  · rfl
  · rw [Bool.eq_iff_iff, isValid_iff, isValid_iff]
    rfl

section Sync

variable {s : Baked.State}

theorem retains_of_split (hb : b.Valid) (hn : n.Nested b) (h : b.Around sub chain)
    (left new kept : List Context) (hsplit : n.entered = left ++ kept)
    (hleft : ∀ c ∈ left, c.sub ∉ chain) (hmap : (new ++ kept).map (·.sub) = chain)
    (f : Context → Context) :
    n.Retains (({ n with entered := new ++ kept } : Navigation).modifyCurrent f) := by
  obtain ⟨sub₀, hentered⟩ := hn.chain
  obtain ⟨hroot, -⟩ := isValid_iff.mp hn.valid
  have hnodup := h.nodup hb
  rw [← hmap] at hnodup
  -- No nested machine has the index of the outermost one.
  have hnested {sub : Int32} {chain : List Int32} (h : b.Around sub chain) {c : Context}
      (hc : c.sub ∈ chain) : c.sub ≠ n.outermost.sub := by
    intro hsame
    rw [hsame, hroot] at hc
    exact h.not_neg_of_mem hc (by decide)
  intro c' hc' c hc hsame
  rw [dropLast_contexts_modifyCurrent] at hc'
  have hc' := List.mem_of_mem_dropLast hc'
  simp only [contexts, List.mem_cons, List.mem_reverse] at hc hc'
  -- Of two contexts of one machine both are outermost or neither is, and none that was left is
  -- around the leaf. Those that are still there are told apart by their machines.
  rcases hc' with rfl | hc' <;> rcases hc with rfl | hc
  · rfl
  · exact absurd hsame (hnested hentered (List.mem_map_of_mem hc))
  · have hmem : c'.sub ∈ chain := by
      rw [← hmap]
      exact List.mem_map_of_mem hc'
    exact absurd hsame.symm (hnested h hmem)
  · rw [hsplit, List.mem_append] at hc
    rcases hc with hc | hc
    · refine absurd ?_ (hleft c hc)
      rw [hsame, ← hmap]
      exact List.mem_map_of_mem hc'
    · exact List.inj_on_of_nodup_map hnodup hc' (List.mem_append_right new hc) hsame.symm

theorem Nested.retains_self (hb : b.Valid) (hn : n.Nested b) : n.Retains n := by
  obtain ⟨sub, hchain⟩ := hn.chain
  have hsame : n.modifyCurrent id = n := by
    obtain ⟨c, _ | ⟨d, cs⟩⟩ := n <;> rfl
  have hretains := retains_of_split hb hn hchain [] [] n.entered rfl (by simp) rfl id
  rwa [List.nil_append, hsame] at hretains

/-- Wherever a jump to a leaf starts, it ends at the machines around the leaf, and leaves alone what
it does not have to change. -/
theorem exists_standsAt (hb : b.Valid) (hl : b.Leveled) (hn : n.Nested b)
    (hs : b.states[i]? = some s) (h : b.Around s.sub chain) :
    ∃ n', n.sync b i = .ok n' ∧ n'.StandsAt i chain ∧ n.Retains n' := by
  obtain ⟨left, new, kept, hsplit, hleft, hmap, hnumbered, hsync⟩ := exists_sync hb hl hn hs h
  obtain ⟨hroot, hlevel, -⟩ := isValid_iff.mp hn.valid
  refine ⟨_, hsync, ⟨?_, ?_, ?_, ?_, ?_⟩, retains_of_split hb hn h _ _ _ hsplit hleft hmap _⟩
  · rw [map_sub_modifyCurrent, contexts, List.map_cons, hroot,
      List.map_reverse, hmap]
  · rw [depth_modifyCurrent, depth, ← hmap, List.length_map]
  · rw [isValid_modifyCurrent]
    exact isValid_iff.mpr ⟨hroot, hlevel, hnumbered⟩
  · rw [current_modifyCurrent]
  · intro hi
    rw [current_modifyCurrent]
    exact Int32.toInt_ofNat_of_lt hi

theorem of_sync (hb : b.Valid) (hl : b.Leveled) (hn : n.Nested b) (hs : b.states[i]? = some s)
    (h : b.Around s.sub chain) (hsync : n.sync b i = .ok n') :
    n'.StandsAt i chain ∧ n.Retains n' := by
  obtain ⟨n₁, hn₁, hstands⟩ := exists_standsAt hb hl hn hs h
  obtain rfl := Except.ok.inj (hn₁.symm.trans hsync)
  exact hstands

end Sync

theorem nested_outermost (b : Baked) (state : Int32) :
    Nested b { outermost := .outermost state } :=
  ⟨rfl, -1, .outermost (by decide)⟩

/-- The navigations that come of an empty one by jumps and resets. -/
inductive Reachable (b : Baked) : Navigation → Prop
  | start {n : Navigation} (room : Nat) : withRoom room = .ok n → Reachable b n
  | sync {n n' : Navigation} (i : Nat) : Reachable b n → n.sync b i = .ok n' → Reachable b n'
  | reset {n : Navigation} (state : Int32) : Reachable b n → Reachable b (n.reset state)

theorem Reachable.nested (hb : b.Valid) (hl : b.Leveled) (hn : Reachable b n) : n.Nested b := by
  induction hn with
  | start room h =>
      obtain ⟨-, -, h⟩ := bind_eq_ok_iff.mp h
      obtain rfl := pure_eq_ok_iff.mp h
      exact nested_outermost b 0
  | @sync n n' i _ h ih =>
      cases hs : b.states[i]? with
      | none =>
          rw [Navigation.sync, hs] at h
          obtain rfl := pure_eq_ok_iff.mp h
          exact ih
      | some s =>
          have hsub := toInt_lt_of_lt_ofNat (hb.states s (Array.mem_of_getElem? hs)).sub
          obtain ⟨chain, hchain⟩ := hb.exists_around hsub
          exact (of_sync hb hl ih hs hchain h).1.nested hchain
  | reset state _ _ => exact nested_outermost b state

end Navigation

namespace Instance

variable {b : Baked} {x y : Instance}

/-- The navigation of an instance stands at its state. -/
def Placed (b : Baked) (x : Instance) : Prop :=
  ∃ s chain, b.states[x.current.state.toNat]? = some s ∧ b.Around s.sub chain ∧
    x.navigation.StandsAt x.current.state.toNat chain

theorem Placed.nested (hx : x.Placed b) : x.navigation.Nested b := by
  obtain ⟨s, chain, -, hchain, hstands⟩ := hx
  exact hstands.nested hchain

/-- An instance whose navigation has followed it to its state is placed there. -/
theorem placed_of_sync (hb : b.Valid) (hl : b.Leveled) {n : Navigation} (hn : n.Nested b)
    (hlt : x.current.state.toNat < b.states.size)
    (h : n.sync b x.current.state.toNat = .ok x.navigation) : x.Placed b := by
  obtain ⟨s, -, hs⟩ := yields_fetch hlt
  have hsub := toInt_lt_of_lt_ofNat (hb.states s (Array.mem_of_getElem? hs)).sub
  obtain ⟨chain, hchain⟩ := hb.exists_around hsub
  exact ⟨s, chain, hs, hchain, (Navigation.of_sync hb hl hn hs hchain h).1⟩

theorem kept_placed (hb : b.Valid) (hl : b.Leveled) : Kept b (Placed b) where
  enters t hx hs hn := by
    refine placed_of_sync hb hl hx.nested ?_ ?_
    · rw [state_entering]
      exact (Array.getElem?_eq_some_iff.mp hs).1
    · rw [state_entering]
      exact hn
  takes hx _ _ hs hn := by
    refine placed_of_sync hb hl hx.nested ?_ ?_
    · rw [state_taking]
      exact (Array.getElem?_eq_some_iff.mp hs).1
    · rw [state_taking, navigation_taking]
      exact hn
  ends hx := hx
  goes _ _ hx _ := hx
  plays hx hy := by
    rw [Placed, hy.current, hy.navigation]
    exact hx

theorem placed_of_reachable (hb : b.Valid) (hl : b.Leveled) (hstates : b.states ≠ #[])
    (hx : Reachable b x) : x.Placed b := by
  refine (kept_placed hb hl).reachable ?_ hx
  intro n hn
  refine placed_of_sync hb hl (Navigation.nested_outermost b 0) ?_ ?_
  · rw [state_starting]
    exact hb.defaultState.resolve_left hstates
  · rw [state_starting]
    exact hn

theorem retains_of_reachable (hb : b.Valid) (hl : b.Leveled) (hstates : b.states ≠ #[])
    (hx : Reachable b x) (hy : Reachable b y)
    (h : y.navigation = x.navigation ∨
      x.navigation.sync b y.current.state.toNat = .ok y.navigation) :
    x.navigation.Retains y.navigation := by
  have hx := placed_of_reachable hb hl hstates hx
  have hy := placed_of_reachable hb hl hstates hy
  rcases h with hsame | hsync
  · rw [hsame]
    exact hx.nested.retains_self hb
  · obtain ⟨s, chain, hs, hchain, -⟩ := hy
    exact (Navigation.of_sync hb hl hx.nested hs hchain hsync).2

end Instance

namespace Baked

/-- For each leaf there is one chain of nested machines around it, and that is where every jump to
the leaf ends and where every instance that plays it stands. -/
theorem exists_around_standsAt {b : Baked} (h : b.defect? = none) (hl : b.Leveled) :
    ∃ around : Nat → List Int32,
      (∀ i (s : State), b.states[i]? = some s → b.Around s.sub (around i)) ∧
        (∀ n, Navigation.Reachable b n → ∀ i, i < b.states.size →
          ∃ n', n.sync b i = .ok n' ∧ n'.StandsAt i (around i) ∧ n.Retains n') ∧
        ∀ x, Instance.Reachable b x → b.states ≠ #[] →
          x.current.state.toNat < b.states.size ∧
            x.navigation.StandsAt x.current.state.toNat (around x.current.state.toNat) ∧
            (∀ values dt tick y, x.advance b values dt = .ok (tick, y) →
              x.navigation.Retains y.navigation) ∧
            ∀ state t y, x.force b state t = .ok y → x.navigation.Retains y.navigation := by
  have hb : b.Valid := defect?_eq_none_iff.mp h
  have hchains : ∀ i : Nat, ∃ chain, ∀ s : State, b.states[i]? = some s →
      b.Around s.sub chain := by
    intro i
    cases hs : b.states[i]? with
    | none => exact ⟨[], by simp⟩
    | some s =>
        have hsub := toInt_lt_of_lt_ofNat (hb.states s (Array.mem_of_getElem? hs)).sub
        obtain ⟨chain, hchain⟩ := hb.exists_around hsub
        exact ⟨chain, by simpa using hchain⟩
  choose around haround using hchains
  refine ⟨around, haround, ?_, ?_⟩
  · intro n hn i hi
    obtain ⟨s, -, hs⟩ := yields_fetch hi
    exact Navigation.exists_standsAt hb hl (hn.nested hb hl) hs (haround i s hs)
  · intro x hx hstates
    have hplaced := Instance.placed_of_reachable hb hl hstates hx
    refine ⟨?_, ?_, ?_, ?_⟩
    · obtain ⟨s, -, hs, -⟩ := hplaced
      exact (Array.getElem?_eq_some_iff.mp hs).1
    · obtain ⟨s, chain, hs, hchain, hstands⟩ := hplaced
      rw [(haround _ s hs).unique hchain]
      exact hstands
    · intro values dt tick y hy
      exact Instance.retains_of_reachable hb hl hstates hx (.advance values dt tick hx hy)
        (Instance.navigation_of_advance hy)
    · intro state t y hy
      exact Instance.retains_of_reachable hb hl hstates hx (.force state t hx hy)
        (Instance.navigation_of_force hy)

/-- A state that plays the first clip, in a nested machine. -/
def State.inside (sub : Int32) : State where
  kind := .clip
  typeIndex := 0
  looping := true
  speed := 1
  speedParameter := none
  transitions := {}
  exitGroup := -1
  sub
  nameHash := 0

/-- Three states, the first in no nested machine, the second in one, and the third in one inside
that. -/
def rooms : Baked where
  states := #[.inside (-1), .inside 0, .inside 1]
  clipStates := #[⟨0⟩]
  subs := #[⟨-1, 1, 1, 0⟩, ⟨0, 2, 2, 0⟩]
  clips := #[⟨1, 0⟩]
  maxClipsPerState := 1

theorem leveled_rooms : rooms.Leveled where
  outermost i s hs hneg := by
    rcases i with _ | _ | i
    · obtain rfl := Option.some.inj hs
      rfl
    · obtain rfl := Option.some.inj hs
      exact absurd hneg (by decide)
    · simp [rooms] at hs
  nested i s p hs hneg hp := by
    rcases i with _ | _ | i
    · obtain rfl := Option.some.inj hs
      exact absurd (by decide) hneg
    · obtain rfl := Option.some.inj hs
      obtain rfl := Option.some.inj hp
      rfl
    · simp [rooms] at hs

theorem exists_around_standsAt_rooms : ∃ n n' : Navigation,
    Navigation.sync {} rooms 2 = .ok n ∧ n.sync rooms 1 = .ok n' ∧ n.Retains n' ∧
      n.contexts.map (·.sub) = [-1, 0, 1] ∧ n'.contexts.map (·.sub) = [-1, 0] := by
  have hdefect : rooms.defect? = none := by decide +kernel
  obtain ⟨around, haround, hsync, -⟩ := exists_around_standsAt hdefect leveled_rooms
  have hempty : Navigation.Reachable rooms {} := .start 4 rfl
  obtain ⟨n, hn, hstands, -⟩ := hsync {} hempty 2 (by decide)
  obtain ⟨n', hn', hstands', hretains⟩ := hsync n (.sync 2 hempty hn) 1 (by decide)
  -- The chains are read off the table of nested machines.
  have houter : rooms.Around 0 [0] := .nested (by decide) rfl (.outermost (by decide))
  have hinner : rooms.Around 1 [1, 0] := .nested (by decide) rfl houter
  refine ⟨n, n', hn, hn', hretains, ?_, ?_⟩
  · rw [hstands.subs, (haround 2 _ rfl).unique hinner]
    rfl
  · rw [hstands'.subs, (haround 1 _ rfl).unique houter]
    rfl

end Baked

end PoseMachine
