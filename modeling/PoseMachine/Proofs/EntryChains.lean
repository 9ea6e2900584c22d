import Mathlib.Data.Fintype.Pigeonhole
import PoseMachine.Proofs.SmallBakes
import PoseMachine.Proofs.Strictness

/-!
Entries followed without a bound. The entry of a nested machine names a leaf, which ends the chain,
a further machine, or nothing. The walk through as many machines as there are, and one more, comes
to what the whole chain comes to.
-/

namespace PoseMachine

namespace Flat

/-- What the entry of a nested machine names. -/
inductive Entry where
  | leaf (index : Nat)
  | machine (index : Nat)
  /-- There is no entry, or no state has its number. -/
  | nothing

/-- What the bounded walk makes of an entry at which it stops. -/
def Entry.stop : Entry → EntryChain
  | .leaf i => .leaf i
  | .machine _ => .cycle
  | .nothing => .deadEnd

variable {f : Flat} {sub k n : Nat}

/-- What the entry of the machine `sub` names. A leaf goes before a machine of the same number. -/
def entryOf (f : Flat) (sub : Nat) : Entry :=
  match f.subs[sub]?.bind (·.border.entry) with
  | none => .nothing
  | some id =>
    match f.leafIndex[id]?, f.subIndex[id]? with
    | some leaf, _ => .leaf leaf
    | none, some next => .machine next
    | none, none => .nothing

/-- Where the entries from the machine `sub` have led after `n` steps. A leaf and a dead end are
where they stay. -/
def chain (f : Flat) (sub : Nat) : Nat → Entry
  | 0 => .machine sub
  | n + 1 =>
    match f.chain sub n with
    | .machine k => f.entryOf k
    | e => e

theorem lt_of_entryOf (h : f.entryOf sub = .machine k) : sub < f.subs.size := by
  by_contra hge
  rw [entryOf, Array.getElem?_eq_none (Nat.not_lt.mp hge)] at h
  cases h

theorem exists_subIndex_of_entryOf (h : f.entryOf sub = .machine k) :
    ∃ id : StateId, f.subIndex[id]? = some k := by
  rw [entryOf] at h
  split at h
  · cases h
  · next id _ =>
    split at h
    · cases h
    · next next _ hnext =>
      cases h
      exact ⟨id, hnext⟩
    · cases h

theorem chain_succ (h : f.chain sub n = .machine k) : f.chain sub (n + 1) = f.entryOf k := by
  rw [chain, h]

theorem chain_succ_of_ended (h : ∀ k, f.chain sub n ≠ .machine k) :
    f.chain sub (n + 1) = f.chain sub n := by
  rw [chain]
  split
  · next k hk => exact absurd hk (h k)
  · rfl

/-- Once the chain has come to an end it stays there. -/
theorem chain_of_ended (h : ∀ k, f.chain sub n ≠ .machine k) {m : Nat} (hm : n ≤ m) :
    f.chain sub m = f.chain sub n := by
  induction m, hm using Nat.le_induction with
  | base => rfl
  | succ m _ ih =>
      rw [← ih] at h
      rw [chain_succ_of_ended h, ih]

/-- The chain from a machine goes on as the one from the machine that its entry names. -/
theorem chain_of_entryOf (h : f.entryOf sub = .machine k) (n : Nat) :
    f.chain sub (n + 1) = f.chain k n := by
  induction n with
  | zero => exact h
  | succ n ih =>
      rw [chain, ih]
      rfl

theorem chain_add_of_eq {i j : Nat} (h : f.chain sub i = f.chain sub j) (t : Nat) :
    f.chain sub (i + t) = f.chain sub (j + t) := by
  induction t with
  | zero => exact h
  | succ t ih => rw [← Nat.add_assoc, ← Nat.add_assoc, chain, chain, ih]

theorem chain_of_entry_ended (h : ∀ k, f.entryOf sub ≠ .machine k) (n : Nat) :
    f.chain sub (n + 1) = f.entryOf sub :=
  chain_of_ended (n := 1) h (Nat.le_add_left 1 n)

theorem followEntry_succ (n sub : Nat) : f.followEntry (n + 1) sub =
    match f.entryOf sub with
    | .machine next => f.followEntry n next
    | e => e.stop := by
  rw [followEntry, entryOf]
  cases f.subs[sub]?.bind (·.border.entry) with
  | none => rfl
  | some id =>
      dsimp only
      cases f.leafIndex[id]? <;> cases f.subIndex[id]? <;> rfl

/-- The bounded walk comes to what the chain has come to after as many steps. -/
theorem followEntry_eq_stop (n sub : Nat) : f.followEntry n sub = (f.chain sub n).stop := by
  induction n generalizing sub with
  | zero => rfl
  | succ n ih =>
      rw [followEntry_succ]
      cases hentry : f.entryOf sub with
      | machine next => rw [chain_of_entryOf hentry, ← ih]
      | leaf i => rw [chain_of_entry_ended (by simp [hentry]), hentry]
      | nothing => rw [chain_of_entry_ended (by simp [hentry]), hentry]

theorem machine_of_le {m : Nat} (h : f.chain sub m = .machine k) (hn : n ≤ m) :
    ∃ j, f.chain sub n = .machine j := by
  by_contra hended
  have hended : ∀ j, f.chain sub n ≠ .machine j := fun j hj => hended ⟨j, hj⟩
  rw [chain_of_ended hended hn] at h
  exact hended k h

/-- A chain through more machines than there are meets one of them twice. -/
theorem exists_repeat (h : f.chain sub (f.subs.size + 1) = .machine k) :
    ∃ i j, i < j ∧ j ≤ f.subs.size ∧ f.chain sub i = f.chain sub j := by
  have hmet : ∀ i : Fin (f.subs.size + 1), ∃ c : Fin f.subs.size, f.chain sub i = .machine c := by
    intro i
    obtain ⟨c, hc⟩ := machine_of_le h (Nat.le_of_lt i.isLt)
    obtain ⟨next, hnext⟩ := machine_of_le h (Nat.succ_le_of_lt i.isLt)
    rw [chain_succ hc] at hnext
    exact ⟨⟨c, lt_of_entryOf hnext⟩, hc⟩
  choose c hc using hmet
  obtain ⟨i, j, hne, hij⟩ := Fintype.exists_ne_map_eq_of_card_lt c (by simp)
  have hsame : f.chain sub i = f.chain sub j := by rw [hc i, hc j, hij]
  rcases Nat.lt_or_gt_of_ne (Fin.val_ne_of_ne hne) with hlt | hlt
  · exact ⟨i, j, hlt, Nat.le_of_lt_succ j.isLt, hsame⟩
  · exact ⟨j, i, hlt, Nat.le_of_lt_succ i.isLt, hsame.symm⟩

/-- A chain that is still among machines after one step more than there are machines has no end. -/
theorem endless_of_machine (h : f.chain sub (f.subs.size + 1) = .machine k) (n : Nat) :
    ∃ k, f.chain sub n = .machine k := by
  obtain ⟨i, j, hij, hj, hsame⟩ := exists_repeat h
  induction n using Nat.strongRecOn with
  | ind n ih =>
      by_cases hn : n ≤ f.subs.size
      · exact machine_of_le h (Nat.le_succ_of_le hn)
      · -- Beyond the repetition the chain is where it was one round before.
        obtain ⟨t, rfl⟩ := Nat.exists_eq_add_of_le (show j ≤ n by omega)
        rw [← chain_add_of_eq hsame]
        exact ih (i + t) (by omega)

/-- Where the chain from a machine leads is known after one step more than there are machines. -/
theorem chain_eq_of_ended (h : ∀ k, f.chain sub n ≠ .machine k) :
    f.chain sub (f.subs.size + 1) = f.chain sub n := by
  by_cases hn : n ≤ f.subs.size + 1
  · exact chain_of_ended h hn
  · have hended : ∀ k, f.chain sub (f.subs.size + 1) ≠ .machine k := by
      intro k hk
      obtain ⟨j, hj⟩ := endless_of_machine hk n
      exact h j hj
    exact (chain_of_ended hended (Nat.le_of_not_le hn)).symm

theorem followEntry_eq_leaf_iff {leaf : Nat} :
    f.followEntry (f.subs.size + 1) sub = .leaf leaf ↔ ∃ n, f.chain sub n = .leaf leaf := by
  rw [followEntry_eq_stop]
  constructor
  · intro h
    refine ⟨f.subs.size + 1, ?_⟩
    cases hend : f.chain sub (f.subs.size + 1) with
    | leaf i =>
        rw [hend] at h
        cases h
        rfl
    | machine k => simp [hend, Entry.stop] at h
    | nothing => simp [hend, Entry.stop] at h
  · rintro ⟨n, hn⟩
    rw [chain_eq_of_ended (n := n) (by simp [hn]), hn]
    rfl

theorem followEntry_eq_deadEnd_iff :
    f.followEntry (f.subs.size + 1) sub = .deadEnd ↔ ∃ n, f.chain sub n = .nothing := by
  rw [followEntry_eq_stop]
  constructor
  · intro h
    refine ⟨f.subs.size + 1, ?_⟩
    cases hend : f.chain sub (f.subs.size + 1) with
    | leaf i => simp [hend, Entry.stop] at h
    | machine k => simp [hend, Entry.stop] at h
    | nothing => rfl
  · rintro ⟨n, hn⟩
    rw [chain_eq_of_ended (n := n) (by simp [hn]), hn]
    rfl

theorem followEntry_eq_cycle_iff :
    f.followEntry (f.subs.size + 1) sub = .cycle ↔ ∀ n, ∃ k, f.chain sub n = .machine k := by
  rw [followEntry_eq_stop]
  constructor
  · intro h n
    cases hend : f.chain sub (f.subs.size + 1) with
    | leaf i => simp [hend, Entry.stop] at h
    | machine k => exact endless_of_machine hend n
    | nothing => simp [hend, Entry.stop] at h
  · intro h
    obtain ⟨k, hk⟩ := h (f.subs.size + 1)
    rw [hk]
    rfl

/-- No bound on the walk finds an end that the one in use does not find. -/
theorem followEntry_eq_of_ne_cycle (h : f.followEntry n sub ≠ .cycle) :
    f.followEntry (f.subs.size + 1) sub = f.followEntry n sub := by
  rw [followEntry_eq_stop] at h ⊢
  rw [followEntry_eq_stop, chain_eq_of_ended]
  intro k hk
  exact h (by rw [hk]; rfl)

theorem fallBack_ne_pure (strict : Bool) (e : BakeError) (i : Nat) :
    fallBack strict e ≠ pure i := by
  cases strict <;> rintro ⟨⟩

theorem fallBack_inj {strict : Bool} {e e' : BakeError} :
    fallBack strict e = fallBack strict e' ↔ e = e' := by
  refine ⟨fun h => ?_, fun h => h ▸ rfl⟩
  cases strict <;> cases h <;> rfl

/-- The three ways in which an entry is resolved, by where the walk leads. -/
theorem resolveEntry_iff_followEntry (f : Flat) (s : Sub) :
    (∀ leaf, f.resolveEntry s = pure leaf ↔
      f.followEntry (f.subs.size + 1) s.index = .leaf leaf) ∧
    (f.resolveEntry s = fallBack f.strict (.unresolvedEntry s.path) ↔
      f.followEntry (f.subs.size + 1) s.index = .deadEnd) ∧
    (f.resolveEntry s = fallBack f.strict (.entryCycle s.path) ↔
      f.followEntry (f.subs.size + 1) s.index = .cycle) := by
  have hpure : ∀ (leaf : Nat) e, ¬ (pure leaf : Report Nat) = fallBack f.strict e :=
    fun leaf e h => fallBack_ne_pure f.strict e leaf h.symm
  have hleaf : ∀ i j : Nat, (pure i : Report Nat) = pure j ↔ i = j := by
    intro i j
    refine ⟨fun h => ?_, fun h => h ▸ rfl⟩
    cases h
    rfl
  rw [resolveEntry]
  cases f.followEntry (f.subs.size + 1) s.index with
  | leaf i => simp [hpure, hleaf]
  | deadEnd => simp [fallBack_ne_pure, fallBack_inj]
  | cycle => simp [fallBack_ne_pure, fallBack_inj]

theorem followEntry_of_le (h : f.subs.size + 1 ≤ n) :
    f.followEntry n sub = f.followEntry (f.subs.size + 1) sub := by
  rw [followEntry_eq_stop, followEntry_eq_stop]
  by_cases hended : ∃ k, f.chain sub (f.subs.size + 1) = .machine k
  · obtain ⟨k, hk⟩ := hended
    obtain ⟨j, hj⟩ := endless_of_machine hk n
    rw [hk, hj]
    rfl
  · rw [chain_of_ended (fun k hk => hended ⟨k, hk⟩) h]

theorem followEntry_of_entryOf (h : f.entryOf sub = .machine k) :
    f.followEntry (f.subs.size + 1) sub = f.followEntry (f.subs.size + 1) k := by
  rw [← followEntry_of_le (Nat.le_succ (f.subs.size + 1)), followEntry_succ, h]

/-- Machines from which the walk leads to the same are entered at the same leaf, found or not. -/
theorem entry_eq_of_followEntry_eq {s s' : Sub} {i j : Nat}
    (h : f.followEntry (f.subs.size + 1) s.index = f.followEntry (f.subs.size + 1) s'.index)
    (hi : (f.resolveEntry s).outcome = .ok i) (hj : (f.resolveEntry s').outcome = .ok j) :
    i = j := by
  rw [resolveEntry, h] at hi
  rw [resolveEntry] at hj
  cases hend : f.followEntry (f.subs.size + 1) s'.index with
  | leaf l =>
      rw [hend] at hi hj
      exact (Report.outcome_pure_eq_ok.mp hi).symm.trans (Report.outcome_pure_eq_ok.mp hj)
  | deadEnd =>
      rw [hend] at hi hj
      rw [fallBack_eq_ok hi, fallBack_eq_ok hj]
  | cycle =>
      rw [hend] at hi hj
      rw [fallBack_eq_ok hi, fallBack_eq_ok hj]

section Congr

variable {g : Flat} (hsubs : f.subs.map Sub.unentered = g.subs.map Sub.unentered)
  (hleaf : f.leafIndex = g.leafIndex) (hsub : f.subIndex = g.subIndex)

include hsubs hleaf hsub

theorem entryOf_congr (sub : Nat) : f.entryOf sub = g.entryOf sub := by
  have hborder : ∀ h : Flat, h.subs[sub]?.bind (·.border.entry) =
      (h.subs.map Sub.unentered)[sub]?.bind (·.border.entry) := by
    intro h
    rw [Array.getElem?_map]
    cases h.subs[sub]? <;> rfl
  rw [entryOf, entryOf, hborder f, hborder g, hsubs, hleaf, hsub]

theorem followEntry_congr (n sub : Nat) : f.followEntry n sub = g.followEntry n sub := by
  induction n generalizing sub with
  | zero => rfl
  | succ n ih =>
      rw [followEntry_succ, followEntry_succ, entryOf_congr hsubs hleaf hsub]
      cases g.entryOf sub with
      | machine next => exact ih next
      | leaf i => rfl
      | nothing => rfl

theorem resolveEntry_congr (hstrict : f.strict = g.strict) {s s' : Sub}
    (hs : s.unentered = s'.unentered) : f.resolveEntry s = g.resolveEntry s' := by
  have hsize : f.subs.size = g.subs.size := by simpa using congrArg Array.size hsubs
  have hindex : s.index = s'.index := (congrArg Sub.index hs :)
  have hpath : s.path = s'.path := (congrArg Sub.path hs :)
  rw [resolveEntry, resolveEntry, followEntry_congr hsubs hleaf hsub, hsize, hstrict, hindex, hpath]

end Congr

/-- Each nested machine of a flattened graph is entered where its entry is resolved to. -/
theorem resolveEntry_of_ofMachine {m : Machine} {cfg : Config}
    (h : (ofMachine m cfg).outcome = .ok f) {s : Sub} (hs : s ∈ f.subs) :
    (f.resolveEntry s).outcome = .ok s.entry := by
  obtain ⟨hkeeps, hstrict⟩ := keeps_of_ofMachine h
  obtain ⟨-, f₁, f₂, i, hentries, hgroups, -, hf⟩ := ofMachine_eq_ok h
  have hsubs : f.subs = f₁.subs := by
    obtain ⟨found, -, rfl⟩ := withExitGroups_eq_ok hgroups
    rw [hf]
  obtain ⟨subs, rfl, hresolved⟩ := withEntries_eq_ok hentries
  rw [hsubs] at hs
  obtain ⟨s₀, -, hentry, heq⟩ := exists_related_of_mem_right hresolved (by simpa using hs)
  have hsame : f.resolveEntry s =
      (ofSurvey m cfg.strictResolution (Survey.ofMachine m)).resolveEntry s₀ :=
    resolveEntry_congr hkeeps.subs hkeeps.leafIndex hkeeps.subIndex hstrict (by rw [heq]; rfl)
  rw [hsame, hentry]

/-- The entry of a nested machine is where the chain of entries from it leads, however far: to a
leaf, to a dead end or nowhere. No chain that ends is cut short. In a flattened graph a machine is
entered where the one that its entry names is. -/
theorem entries_follow_chain (m : Machine) (cfg : Config) :
    (∀ (f : Flat) (s : Sub),
      (∀ leaf, f.resolveEntry s = pure leaf ↔ ∃ n, f.chain s.index n = .leaf leaf) ∧
      (f.resolveEntry s = fallBack f.strict (.unresolvedEntry s.path) ↔
        ∃ n, f.chain s.index n = .nothing) ∧
      (f.resolveEntry s = fallBack f.strict (.entryCycle s.path) ↔
        ∀ n, ∃ k, f.chain s.index n = .machine k) ∧
      ∀ n, f.followEntry n s.index ≠ .cycle →
        f.followEntry (f.subs.size + 1) s.index = f.followEntry n s.index) ∧
    ∀ f, (ofMachine m cfg).outcome = .ok f → ∀ (k : Nat) s, f.subs[k]? = some s →
      s.index = k ∧ (f.resolveEntry s).outcome = .ok s.entry ∧
        ∀ t, f.entryOf k = .machine t → ∃ s', f.subs[t]? = some s' ∧ s.entry = s'.entry := by
  constructor
  · intro f s
    obtain ⟨hleaf, hdead, hcycle⟩ := resolveEntry_iff_followEntry f s
    exact ⟨fun leaf => (hleaf leaf).trans followEntry_eq_leaf_iff,
      hdead.trans followEntry_eq_deadEnd_iff, hcycle.trans followEntry_eq_cycle_iff,
      fun _ => followEntry_eq_of_ne_cycle⟩
  · intro f h k s hs
    obtain ⟨hsound, -, -⟩ := ofMachine_sound h
    have hindex := hsound.sub_index k s hs
    have hentry := resolveEntry_of_ofMachine h (Array.mem_of_getElem? hs)
    refine ⟨hindex, hentry, ?_⟩
    intro t ht
    obtain ⟨s', hs'⟩ : ∃ s', f.subs[t]? = some s' := by
      obtain ⟨id, hid⟩ := exists_subIndex_of_entryOf ht
      exact ⟨_, Array.getElem?_eq_getElem (hsound.subIndex id t hid)⟩
    have hentry' := resolveEntry_of_ofMachine h (Array.mem_of_getElem? hs')
    refine ⟨s', hs', entry_eq_of_followEntry_eq ?_ hentry hentry'⟩
    rw [hindex, hsound.sub_index t s' hs']
    exact followEntry_of_entryOf ht

end Flat

/-- Two nested machines, the outer entered through the inner, beside one that is its own entry. -/
def Machine.winding : Machine where
  name := "winding"
  states :=
    [.container { id := 1, name := "outer" } { entry := some 2 }
      (some
        { name := "outer"
          states :=
            [.container { id := 2, name := "inner" } { entry := some 3 }
              (some
                { name := "inner"
                  states := [.leaf { id := 3, name := "rest" } (.clip ⟨"rest", 1⟩)] })] }),
     .container { id := 4, name := "loop" } { entry := some 4 } (some { name := "loop" })]
  defaultState := some 1

namespace Flat

theorem entryOf_winding {f : Flat} (h : (ofMachine Machine.winding {}).outcome = .ok f) :
    f.entryOf 0 = .machine 1 ∧ f.entryOf 1 = .leaf 0 ∧ f.entryOf 2 = .machine 2 := by
  obtain ⟨hkeeps, -⟩ := keeps_of_ofMachine h
  have hentry := entryOf_congr (g := ofSurvey Machine.winding false
    (Survey.ofMachine Machine.winding)) hkeeps.subs hkeeps.leafIndex hkeeps.subIndex
  rw [hentry, hentry, hentry]
  open SmallBakes in
  simp [entryOf, Machine.winding, -String.reduceAppend]

theorem clipCount_winding : (Survey.ofMachine Machine.winding).clipCount = 1 := by
  open SmallBakes in
  simp [Machine.winding, -String.reduceAppend]

theorem entries_follow_chain_winding : ∃ f s s' loop,
    (ofMachine Machine.winding {}).outcome = .ok f ∧
      f.subs[0]? = some s ∧ f.subs[1]? = some s' ∧ f.subs[2]? = some loop ∧
      f.resolveEntry s = pure 0 ∧ s.entry = s'.entry ∧
      f.resolveEntry loop = fallBack false (.entryCycle loop.path) := by
  obtain ⟨f, hf⟩ : ∃ f, (ofMachine Machine.winding {}).outcome = .ok f := by
    refine exists_ofMachine_eq_ok rfl ?_
    rw [clipCount_winding]
    decide
  obtain ⟨hkeeps, hstrict⟩ := keeps_of_ofMachine hf
  obtain ⟨houter, hinner, hloop⟩ := entryOf_winding hf
  obtain ⟨hresolve, hok⟩ := entries_follow_chain Machine.winding {}
  have hsize : f.subs.size = 3 := (ofMachine_sound hf).2.1.size_subs
  have hsubs : ∀ k (hk : k < 3), f.subs[k]? = some f.subs[k] :=
    fun k hk => Array.getElem?_eq_getElem (by omega)
  have hindex : ∀ k (hk : k < 3), f.subs[k].index = k :=
    fun k hk => (hok f hf k _ (hsubs k hk)).1
  refine ⟨f, _, _, _, hf, hsubs 0 (by decide), hsubs 1 (by decide), hsubs 2 (by decide), ?_, ?_, ?_⟩
  · refine ((hresolve f _).1 0).mpr ⟨2, ?_⟩
    rw [hindex 0 (by decide), chain_of_entryOf houter]
    exact hinner
  · obtain ⟨s', hs', hentry⟩ := (hok f hf 0 _ (hsubs 0 (by decide))).2.2 1 houter
    rw [hentry, Option.some.inj ((hsubs 1 (by decide)).symm.trans hs')]
  · rw [← show f.strict = false from hstrict]
    refine (hresolve f _).2.2.1.mpr ?_
    intro n
    rw [hindex 2 (by decide)]
    induction n with
    | zero => exact ⟨2, rfl⟩
    | succ n ih => rwa [chain_of_entryOf hloop]

end Flat

end PoseMachine
