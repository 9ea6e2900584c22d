import PoseMachine.Proofs.Enclosure

/-!
Which leaves are in which exit group. Groups are made from the inside out and a leaf keeps the first
one, so that of two machines around a leaf the inner one has it.
-/

namespace PoseMachine

section Occurrences

variable {α : Type} [BEq α] [LawfulBEq α]

/-- The list `ys` has what `xs` has, each once, in the order in which it first occurs there. -/
structure FirstOccurrences (xs ys : List α) : Prop where
  nodup : ys.Nodup
  mem : ∀ a, a ∈ ys ↔ a ∈ xs
  order : ys.Pairwise fun a b => xs.idxOf a < xs.idxOf b

theorem pairwise_idxOf {xs : List α} (h : xs.Nodup) :
    xs.Pairwise fun a b => xs.idxOf a < xs.idxOf b := by
  rw [List.pairwise_iff_getElem]
  intro i j hi hj hij
  rwa [h.idxOf_getElem i hi, h.idxOf_getElem j hj]

/-- Leaving out other entries does not change which of two comes first. -/
theorem idxOf_lt_of_filter {p : α → Bool} {a b : α} {xs : List α} (ha : p a = true)
    (hb : p b = true) (h : (xs.filter p).idxOf a < (xs.filter p).idxOf b) :
    xs.idxOf a < xs.idxOf b := by
  induction xs with
  | nil => simp at h
  | cons x xs ih =>
      by_cases hx : p x = true
      · rw [List.filter_cons_of_pos hx, List.idxOf_cons, List.idxOf_cons] at h
        rw [List.idxOf_cons, List.idxOf_cons]
        cases hxa : x == a <;> cases hxb : x == b <;> simp_all
      · have hne : ∀ {c}, p c = true → (x == c) = false := by
          intro c hc
          rw [beq_eq_false_iff_ne]
          rintro rfl
          exact hx hc
        rw [List.filter_cons_of_neg hx] at h
        rw [List.idxOf_cons, List.idxOf_cons, hne ha, hne hb]
        exact Nat.succ_lt_succ (ih h)

theorem FirstOccurrences.cons {x : α} {xs ys : List α}
    (h : FirstOccurrences (xs.filter fun y => !y == x) ys) :
    FirstOccurrences (x :: xs) (x :: ys) := by
  have hne : ∀ {b}, b ∈ ys → (!b == x) = true :=
    fun hb => (List.mem_filter.mp ((h.mem _).mp hb)).2
  have hidx : ∀ {b}, b ∈ ys → (x :: xs).idxOf b = xs.idxOf b + 1 := by
    intro b hb
    have hbx : b ≠ x := by simpa using hne hb
    exact List.idxOf_cons_ne xs hbx.symm
  constructor
  case nodup =>
    refine List.nodup_cons.mpr ⟨fun hx => ?_, h.nodup⟩
    simpa using hne hx
  case mem =>
    intro a
    rw [List.mem_cons, List.mem_cons, h.mem]
    by_cases ha : a = x <;> simp [ha]
  case order =>
    refine List.pairwise_cons.mpr ⟨fun b hb => ?_, h.order.imp_of_mem fun ha hb hab => ?_⟩
    · rw [hidx hb, List.idxOf_cons_self]
      exact Nat.succ_pos _
    · rw [hidx ha, hidx hb]
      exact Nat.succ_lt_succ (idxOf_lt_of_filter (hne ha) (hne hb) hab)

theorem firstOccurrences_eraseDups : (xs : List α) → FirstOccurrences xs xs.eraseDups
  | [] => ⟨by simp, by simp, by simp⟩
  | x :: xs => by
      rw [List.eraseDups_cons]
      exact (firstOccurrences_eraseDups (xs.filter fun y => !y == x)).cons
termination_by xs => xs.length
decreasing_by exact Nat.lt_succ_of_le (List.length_filter_le _ _)

end Occurrences

namespace Machine

/-- The leaves inside the nested machine `k` that the numbers `ids` lead to. -/
def leavesInside (m : Machine) (index : Std.HashMap StateId Nat) (k : Nat) (ids : List StateId) :
    List Nat :=
  (ids.filterMap (index[·]?)).filter (m.encloses k)

/-- The nested machine `k` has exit transitions, and exit states of which one is a leaf in it. -/
def hasExits (m : Machine) (index : Std.HashMap StateId Nat) (k : Nat) : Bool :=
  m.rooms[k]?.any fun r =>
    !r.border.exitStates.isEmpty && !r.border.exitTransitions.isEmpty &&
      !(m.leavesInside index k r.border.exitStates).isEmpty

/-- Of two machines around a leaf the inner one is left first. -/
theorem pairwise_idxOf_machines (m : Machine) {p : Place} (hp : p ∈ m.places) :
    p.machines.Pairwise fun k k' => m.postOrder.idxOf k' < m.postOrder.idxOf k :=
  List.pairwise_reverse.mp
    ((pairwise_idxOf m.nodup_postOrder).sublist (reverse_machines_sublist hp))

end Machine

namespace Flat

variable {m : Machine} {cfg : Config} {f : Flat}

theorem exitLeaves_eq (h : f.Keeps (Survey.ofMachine m)) (k : Nat) (ids : List StateId) :
    f.exitLeaves k ids = (m.leavesInside f.leafIndex k ids).eraseDups := by
  rw [exitLeaves, Machine.leavesInside, List.filter_filterMap]
  congr 2
  funext id
  rw [exitState]
  cases f.leafIndex[id]? with
  | none => rfl
  | some i =>
      simp only [h.isInside?_eq_true_iff, Option.filter_some]
      by_cases hk : m.encloses k i = true <;> simp [hk]

/-- The nested machine `s` has what it takes to make an exit group. -/
structure Exits (f : Flat) (s : Sub) : Prop where
  states : s.border.exitStates ≠ []
  transitions : s.border.exitTransitions ≠ []
  leaves : f.exitLeaves s.index s.border.exitStates ≠ []

theorem exitGroup?_eq_ok {warn : Bool} {s : Sub} {x : Option ExitGroup}
    (h : (f.exitGroup? warn s).outcome = .ok x) :
    (x = none ∧ ¬ f.Exits s) ∨ ∃ g, x = some g ∧ f.Exits s ∧ g.sub = s.index ∧
      g.leaves = f.exitLeaves s.index s.border.exitStates := by
  cases hstates : s.border.exitStates with
  | nil =>
      refine .inl ⟨?_, fun he => he.states hstates⟩
      cases htransitions : s.border.exitTransitions with
      | nil =>
          simp only [exitGroup?, hstates, htransitions] at h
          exact (Report.outcome_pure_eq_ok.mp h).symm
      | cons t ts =>
          simp only [exitGroup?, hstates, htransitions, Report.outcome_tell_bind] at h
          exact (Report.outcome_pure_eq_ok.mp h).symm
  | cons id ids =>
      cases htransitions : s.border.exitTransitions with
      | nil =>
          simp only [exitGroup?, hstates, htransitions, Report.outcome_tell_bind] at h
          exact .inl ⟨(Report.outcome_pure_eq_ok.mp h).symm, fun he => he.transitions htransitions⟩
      | cons t ts =>
          simp only [exitGroup?, hstates, htransitions, Report.outcome_tell_bind] at h
          split at h
          · next hleaves =>
            rw [Report.outcome_tell_bind] at h
            refine .inl ⟨(Report.outcome_pure_eq_ok.mp h).symm, fun he => he.leaves ?_⟩
            rw [hstates, hleaves]
          · next hleaves =>
            simp only [Report.outcome_bind_eq_ok, Report.outcome_pure_eq_ok] at h
            obtain ⟨rs, -, rfl⟩ := h
            refine .inr ⟨_, rfl, ⟨?_, ?_, ?_⟩, rfl, rfl⟩
            · simp [hstates]
            · simp [htransitions]
            · rwa [hstates]

/-- The leaf, in the group `g` unless it has one. -/
def Leaf.claimed (l : Leaf) (g : Option Nat) : Leaf := { l with exitGroup := l.exitGroup.or g }

theorem Leaf.claimed_none (l : Leaf) : l.claimed none = l := by
  simp [claimed]

theorem Leaf.claimed_of_some {l : Leaf} {g : Nat} (h : l.exitGroup = some g) (g' : Option Nat) :
    l.claimed g' = l := by
  rw [claimed, h, Option.some_or, ← h]

theorem Leaf.claimed_claimed (l : Leaf) (g g' : Option Nat) :
    (l.claimed g).claimed g' = l.claimed (g.or g') := by
  simp [claimed, Option.or_assoc]

variable (acc : Array Leaf × Array Notice) (i : Nat)

theorem getElem?_claim (group leaf : Nat) :
    (claim group acc leaf).1[i]? =
      acc.1[i]?.map (·.claimed (if i = leaf then some group else none)) := by
  by_cases hi : i = leaf
  · subst hi
    rw [claim, if_pos rfl]
    cases hl : acc.1[i]? with
    | none => simpa using hl
    | some l =>
        obtain ⟨hlt, -⟩ := Array.getElem?_eq_some_iff.mp hl
        cases hg : l.exitGroup with
        | none => simp [hg, hlt, Leaf.claimed]
        | some g => simp [hg, hl, Leaf.claimed_of_some hg]
  · have hsame : (claim group acc leaf).1[i]? = acc.1[i]? := by
      rw [claim]
      split
      · rfl
      · split
        · exact Array.getElem?_setIfInBounds_ne (Ne.symm hi)
        · rfl
    simp [hsame, hi, Leaf.claimed_none]

theorem getElem?_foldl_claim (group : Nat) (leaves : List Nat) :
    (leaves.foldl (claim group) acc).1[i]? =
      acc.1[i]?.map (·.claimed (if i ∈ leaves then some group else none)) := by
  induction leaves generalizing acc with
  | nil => simp [Leaf.claimed_none]
  | cons leaf leaves ih =>
      rw [List.foldl_cons, ih, getElem?_claim, Option.map_map]
      refine Option.map_congr fun l _ => ?_
      rw [Function.comp_apply, Leaf.claimed_claimed]
      by_cases hi : i = leaf <;> simp [hi]

/-- A leaf is in the first group that names it. -/
theorem getElem?_claimAll (groups : List ExitGroup) (leaves : Array Leaf) :
    (claimAll groups leaves).1[i]? =
      leaves[i]?.map (·.claimed (groups.findIdx? fun g => decide (i ∈ g.leaves))) := by
  -- The induction is on the groups still to be numbered, `k` of them being behind.
  suffices h : ∀ k acc, ((groups.zipIdx k).foldl (fun acc (g : ExitGroup × Nat) =>
      g.1.leaves.foldl (claim g.2) acc) acc).1[i]? = acc.1[i]?.map (·.claimed
        ((groups.findIdx? fun g => decide (i ∈ g.leaves)).map (· + k))) by
    simpa [claimAll] using h 0 (leaves, #[])
  induction groups with
  | nil => simp [Leaf.claimed_none]
  | cons g groups ih =>
      intro k acc
      rw [List.zipIdx_cons, List.foldl_cons, ih, getElem?_foldl_claim, Option.map_map]
      refine Option.map_congr fun l _ => ?_
      rw [Function.comp_apply, Leaf.claimed_claimed, List.findIdx?_cons]
      by_cases hi : i ∈ g.leaves <;> simp [hi, Function.comp_def, Nat.add_assoc, Nat.add_comm k 1]

/-- Exit groups as they are collected: by a graph with the walk's leaves and nested machines, which
are in no group yet. -/
theorem exists_found_of_ofMachine (h : (ofMachine m cfg).outcome = .ok f) :
    ∃ (f₁ : Flat) (found : List (Option ExitGroup)), f₁.Keeps (Survey.ofMachine m) ∧
      List.Forall₂ (fun s x => (f₁.exitGroup? cfg.warnIncompleteExitGroups s).outcome = .ok x)
        (m.postOrder.filterMap (f₁.subs[·]?)) found ∧
      f.exitGroups = (found.filterMap id).toArray ∧
      f.leaves = (claimAll (found.filterMap id) f₁.leaves).1 ∧
      ∀ l ∈ f₁.leaves, l.exitGroup = none := by
  obtain ⟨-, f₁, f₂, i, hentries, hgroups, -, rfl⟩ := ofMachine_eq_ok h
  have hsubs := map_unentered_of_withEntries hentries
  obtain ⟨subs, rfl, -⟩ := withEntries_eq_ok hentries
  rw [Survey.postOrder_ofMachine] at hgroups
  obtain ⟨found, hfound, rfl⟩ := withExitGroups_eq_ok hgroups
  exact ⟨_, found, ⟨rfl, hsubs, rfl, rfl, rfl⟩, hfound, rfl, rfl,
    (Survey.Sound.ofMachine m).leaf_exitGroup⟩

/-- A nested machine makes an exit group just when it has exits where it was authored. -/
theorem exits_iff (h : f.Keeps (Survey.ofMachine m)) {k : Nat} {s : Sub}
    (hs : f.subs[k]? = some s) :
    s.index = k ∧ (f.Exits s ↔ m.hasExits f.leafIndex k = true) ∧
      ∃ r, m.rooms[k]? = some r ∧
        f.exitLeaves k s.border.exitStates =
          (m.leavesInside f.leafIndex k r.border.exitStates).eraseDups := by
  have hroom := h.getElem?_subs k
  rw [hs] at hroom
  obtain ⟨r, hr, heq⟩ := Option.map_eq_some_iff.mp hroom.symm
  have hindex : s.index = k := (congrArg Sub.index heq.symm :)
  have hborder : s.border = r.border := (congrArg Sub.border heq.symm :)
  have hleaves : f.exitLeaves k r.border.exitStates = [] ↔
      m.leavesInside f.leafIndex k r.border.exitStates = [] := by
    rw [exitLeaves_eq h, List.eq_nil_iff_forall_not_mem, List.eq_nil_iff_forall_not_mem]
    simp only [List.mem_eraseDups]
  refine ⟨hindex, ?_, r, hr, by rw [hborder, exitLeaves_eq h]⟩
  simp only [Machine.hasExits, hr, Option.any_some, Bool.and_eq_true, Bool.not_eq_true',
    List.isEmpty_eq_false_iff]
  constructor
  · rintro ⟨hstates, htransitions, hne⟩
    rw [hindex, hborder, Ne, hleaves] at hne
    rw [hborder] at hstates htransitions
    exact ⟨⟨hstates, htransitions⟩, hne⟩
  · rintro ⟨⟨hstates, htransitions⟩, hne⟩
    rw [← hborder] at hstates htransitions
    exact ⟨hstates, htransitions, by rwa [hindex, hborder, Ne, hleaves]⟩

/-- The group `g` has the leaf `i`, which lies inside the machines `around`, outermost first, and no
machine further in than its own has a group with that leaf. -/
def ExitGroup.InnermostAt (groups : List ExitGroup) (around : List Nat) (i : Nat)
    (g : ExitGroup) : Prop :=
  i ∈ g.leaves ∧ ∃ outer inner, around = outer ++ g.sub :: inner ∧
    ∀ g' ∈ groups, g'.sub ∈ inner → i ∉ g'.leaves

section Innermost

variable {i : Nat} {rank : Nat → Nat} {around : List Nat}
  (haround : around.Pairwise fun k k' => rank k' < rank k)

include haround

/-- If inner machines come first, the first group with a leaf is the innermost one. -/
theorem innermostAt_iff {before after : List ExitGroup} {g : ExitGroup}
    (hgroups : (before ++ g :: after).Pairwise fun g g' => rank g.sub < rank g'.sub)
    (hinside : ∀ g' ∈ before ++ g :: after, i ∈ g'.leaves → g'.sub ∈ around) :
    g.InnermostAt (before ++ g :: after) around i ↔
      i ∈ g.leaves ∧ ∀ g' ∈ before, i ∉ g'.leaves := by
  obtain ⟨-, hafter, hbefore⟩ := List.pairwise_append.mp hgroups
  constructor
  · rintro ⟨hi, outer, inner, rfl, hinner⟩
    refine ⟨hi, fun g' hg' hi' => ?_⟩
    have hlt := hbefore g' hg' g (by simp)
    rcases List.mem_append.mp (hinside g' (by simp [hg']) hi') with houter | hsub
    · -- A machine around that of `g` has a higher rank, but `g'` comes first.
      have := (List.pairwise_append.mp haround).2.2 _ houter g.sub (by simp)
      omega
    · rcases List.mem_cons.mp hsub with heq | hmem
      · exact absurd (heq ▸ hlt) (Nat.lt_irrefl _)
      · exact hinner g' (by simp [hg']) hmem hi'
  · rintro ⟨hi, hfirst⟩
    obtain ⟨outer, inner, rfl⟩ := List.append_of_mem (hinside g (by simp) hi)
    refine ⟨hi, outer, inner, rfl, fun g' hg' hinner => ?_⟩
    have hlt := (List.pairwise_cons.mp (List.pairwise_append.mp haround).2.1).1 _ hinner
    rcases List.mem_append.mp hg' with hmem | hmem
    · exact hfirst g' hmem
    · rcases List.mem_cons.mp hmem with rfl | hmem
      · omega
      · have := (List.pairwise_cons.mp hafter).1 g' hmem
        omega

theorem findIdx?_eq_some_iff_innermostAt {groups : List ExitGroup} {n : Nat}
    (hgroups : groups.Pairwise fun g g' => rank g.sub < rank g'.sub)
    (hinside : ∀ g ∈ groups, i ∈ g.leaves → g.sub ∈ around) :
    (groups.findIdx? fun g => decide (i ∈ g.leaves)) = some n ↔
      ∃ g, groups[n]? = some g ∧ g.InnermostAt groups around i := by
  rw [List.findIdx?_eq_some_iff_getElem]
  by_cases hn : n < groups.length
  · have hsplit : groups.take n ++ groups[n] :: groups.drop (n + 1) = groups := by
      rw [List.getElem_cons_drop, List.take_append_drop]
    have hiff : groups[n].InnermostAt (groups.take n ++ groups[n] :: groups.drop (n + 1)) around i ↔
        i ∈ groups[n].leaves ∧ ∀ g ∈ groups.take n, i ∉ g.leaves :=
      innermostAt_iff haround (by rwa [hsplit]) (by rwa [hsplit])
    rw [hsplit] at hiff
    simp only [hn, exists_true_left, List.getElem?_eq_getElem, Option.some.injEq, exists_eq_left',
      hiff, decide_eq_true_iff]
    refine and_congr_right fun _ => ⟨fun h g' hg' => ?_, fun h j hj => h _ ?_⟩
    · obtain ⟨j, hj, rfl⟩ := List.mem_take_iff_getElem.mp hg'
      exact h j (by omega)
    · exact List.mem_take_iff_getElem.mpr ⟨j, by omega, rfl⟩
  · simp [hn]

end Innermost

theorem pairwise_idxOf_sub {groups : List ExitGroup} {p : Nat → Bool}
    (h : groups.map (·.sub) = m.postOrder.filter p) :
    groups.Pairwise fun g g' => m.postOrder.idxOf g.sub < m.postOrder.idxOf g'.sub := by
  have hsubs := (pairwise_idxOf m.nodup_postOrder).filter p
  rwa [← h, List.pairwise_map] at hsubs

section Found

variable {warn : Bool} {post : List Nat} {found : List (Option ExitGroup)}
  (hkeeps : f.Keeps (Survey.ofMachine m))
  (hfound : List.Forall₂ (fun s x => (f.exitGroup? warn s).outcome = .ok x)
    (post.filterMap (f.subs[·]?)) found)

include hkeeps hfound

/-- One group is made for each machine that has exits, in the order of the machines. -/
theorem map_sub_found :
    (found.filterMap id).map (·.sub) = post.filter (m.hasExits f.leafIndex) := by
  induction post generalizing found with
  | nil =>
      obtain rfl := List.forall₂_nil_left_iff.mp hfound
      rfl
  | cons k post ih =>
      cases hs : f.subs[k]? with
      | none =>
          have hroom : m.rooms[k]? = none := by simpa [hs] using (hkeeps.parent_sub k).symm
          rw [List.filterMap_cons_none hs] at hfound
          rw [ih hfound, List.filter_cons_of_neg]
          simp [Machine.hasExits, hroom]
      | some s =>
          obtain ⟨hindex, hexits, -⟩ := exits_iff hkeeps hs
          rw [List.filterMap_cons_some hs] at hfound
          obtain ⟨x, rest, hx, hrest, rfl⟩ := List.forall₂_cons_left_iff.mp hfound
          rcases exitGroup?_eq_ok hx with ⟨rfl, hno⟩ | ⟨g, rfl, hyes, hsub, -⟩
          · rw [List.filter_cons_of_neg (by rwa [← hexits]), ← ih hrest]
            rfl
          · rw [List.filter_cons_of_pos (hexits.mp hyes), ← ih hrest, ← hindex, ← hsub]
            rfl

/-- A group has the exit states of its machine that are leaves inside it. -/
theorem leaves_of_mem_found {g : ExitGroup} (hg : g ∈ found.filterMap id) :
    ∃ r, m.rooms[g.sub]? = some r ∧
      FirstOccurrences (m.leavesInside f.leafIndex g.sub r.border.exitStates) g.leaves ∧
      ∀ i ∈ g.leaves, m.encloses g.sub i = true := by
  have hmem : some g ∈ found := by simpa using hg
  obtain ⟨s, hs, hgroup⟩ := exists_related_of_mem_right hfound hmem
  obtain ⟨k, -, hk⟩ := List.mem_filterMap.mp hs
  obtain ⟨hindex, -, r, hr, hleaves⟩ := exits_iff hkeeps hk
  rcases exitGroup?_eq_ok hgroup with ⟨h, -⟩ | ⟨g', h, -, hsub, heq⟩
  · cases h
  · obtain rfl := Option.some.inj h
    rw [hindex] at hsub heq
    rw [hsub, heq, hleaves]
    refine ⟨r, hr, firstOccurrences_eraseDups _, ?_⟩
    intro i hi
    exact (List.mem_filter.mp (List.mem_eraseDups.mp hi)).2

end Found

/-- There is an exit group for each nested machine that has exits, inner machines first, with the
leaves inside it that are exits of it. A leaf belongs to the innermost of the groups that have it. -/
theorem exitGroups_innermost (hsubs : m.subCount < 0x80000000)
    (h : (ofMachine m cfg).outcome = .ok f) :
    f.exitGroups.toList.map (·.sub) = m.postOrder.filter (m.hasExits f.leafIndex) ∧
    (∀ g ∈ f.exitGroups, ∃ r, m.rooms[g.sub]? = some r ∧
      FirstOccurrences (m.leavesInside f.leafIndex g.sub r.border.exitStates) g.leaves ∧
      ∀ i ∈ g.leaves, m.encloses g.sub i = true) ∧
    ∀ (i : Nat) l, f.leaves[i]? = some l → ∃ p, m.places[i]? = some p ∧
      (l.exitGroup = none ↔ ∀ g ∈ f.exitGroups, i ∉ g.leaves) ∧
      (∀ n, l.exitGroup = some n ↔ ∃ g, f.exitGroups[n]? = some g ∧
        g.InnermostAt f.exitGroups.toList p.machines i) ∧
      (Draft.optionalIndex l.exitGroup).toInt = (l.exitGroup.map Int.ofNat).getD (-1) := by
  obtain ⟨f₁, found, hkeeps, hfound, hgroups, hleaves, hnone⟩ := exists_found_of_ofMachine h
  obtain ⟨hsound, -, -⟩ := ofMachine_sound h
  obtain ⟨hkept, -⟩ := keeps_of_ofMachine h
  have hindex : f₁.leafIndex = f.leafIndex := hkeeps.leafIndex.trans hkept.leafIndex.symm
  have hlist : f.exitGroups.toList = found.filterMap id := by rw [hgroups]
  have horder := map_sub_found hkeeps hfound
  rw [hindex] at horder
  have hmembers : ∀ g ∈ found.filterMap id, _ := fun g => leaves_of_mem_found hkeeps hfound
  rw [hindex] at hmembers
  rw [hlist]
  refine ⟨horder, fun g hg => hmembers g (by rwa [← hlist, Array.mem_toList_iff]), ?_⟩
  intro i l hl
  have hgroups' := pairwise_idxOf_sub horder
  obtain ⟨p, hp, hpl⟩ : ∃ p, m.places[i]? = some p ∧ _ := by
    have hleaf := hkept.getElem?_leaves i
    rw [hl] at hleaf
    exact Option.map_eq_some_iff.mp hleaf.symm
  have haround := m.pairwise_idxOf_machines (List.mem_of_getElem? hp)
  have hinside : ∀ g ∈ found.filterMap id, i ∈ g.leaves → g.sub ∈ p.machines := by
    intro g hg hi
    obtain ⟨r, -, -, henclosed⟩ := hmembers g hg
    simpa [Machine.encloses, hp] using henclosed i hi
  have hclaimed : l.exitGroup = (found.filterMap id).findIdx? fun g => decide (i ∈ g.leaves) := by
    rw [hleaves, getElem?_claimAll] at hl
    obtain ⟨l₁, hl₁, rfl⟩ := Option.map_eq_some_iff.mp hl
    simp [Leaf.claimed, hnone l₁ (Array.mem_of_getElem? hl₁)]
  refine ⟨p, hp, ?_, ?_, ?_⟩
  · rw [hclaimed, List.findIdx?_eq_none_iff]
    simp [hgroups]
  · intro n
    rw [hclaimed, findIdx?_eq_some_iff_innermostAt haround hgroups' hinside]
    simp [hgroups]
  · refine Draft.toInt_optionalIndex fun n hn => ?_
    have hlt := hsound.leaf_exitGroup l (Array.mem_of_getElem? hl) n hn
    have hsize := hsound.size_groups
    rw [hkept.size_subs] at hsize
    omega

end Flat

/-- A leaf that two nested machines around it declare, one that only the outer declares, and one
outside both that it declares as well. -/
def Machine.folding : Machine where
  name := "folding"
  states :=
    [.container { id := 1, name := "bend" }
      { exitStates := [5, 4, 6, 5], exitTransitions := [{ target := 6 }] }
      (some
        { name := "bend"
          states :=
            [.container { id := 2, name := "tuck" }
              { exitStates := [4], exitTransitions := [{ target := 5 }] }
              (some
                { name := "tuck"
                  states := [.leaf { id := 4, name := "roll" } (.clip ⟨"roll", 1⟩)] }),
             .leaf { id := 5, name := "bow" } (.clip ⟨"bow", 1⟩)] }),
     .leaf { id := 6, name := "rest" } (.clip ⟨"rest", 1⟩)]

namespace Flat

section Folding

open Machine (folding)

theorem survey_folding : (Survey.ofMachine folding).leafIndex[(4 : StateId)]? = some 0 ∧
    (Survey.ofMachine folding).leafIndex[(5 : StateId)]? = some 1 ∧
    (Survey.ofMachine folding).leafIndex[(6 : StateId)]? = some 2 ∧
    (Survey.ofMachine folding).clipCount = 3 := by
  open SmallBakes in
  simp [folding, -String.reduceAppend]

theorem exits_folding {index : Std.HashMap StateId Nat}
    (h : index = (Survey.ofMachine folding).leafIndex) :
    folding.leavesInside index 0 [5, 4, 6, 5] = [1, 0, 1] ∧
      folding.leavesInside index 1 [4] = [0] ∧
      folding.postOrder.filter (folding.hasExits index) = [1, 0] := by
  obtain ⟨hroll, hbow, hrest, -⟩ := survey_folding
  rw [← h] at hroll hbow hrest
  have hbend : folding.leavesInside index 0 [5, 4, 6, 5] = [1, 0, 1] := by
    simp only [Machine.leavesInside, List.filterMap_cons, hroll, hbow, hrest, List.filterMap_nil]
    decide
  have htuck : folding.leavesInside index 1 [4] = [0] := by
    simp only [Machine.leavesInside, List.filterMap_cons, hroll, List.filterMap_nil]
    decide
  have hexits : folding.hasExits index 0 = !(folding.leavesInside index 0 [5, 4, 6, 5]).isEmpty ∧
      folding.hasExits index 1 = !(folding.leavesInside index 1 [4]).isEmpty := ⟨rfl, rfl⟩
  rw [hbend, htuck] at hexits
  refine ⟨hbend, htuck, ?_⟩
  rw [show folding.postOrder = [1, 0] by decide]
  simp [hexits]

theorem exitGroups_innermost_folding : ∃ f l l', (ofMachine folding {}).outcome = .ok f ∧
    f.leaves[0]? = some l ∧ f.leaves[2]? = some l' ∧ f.exitGroups.toList.map (·.sub) = [1, 0] ∧
      (∀ g ∈ f.exitGroups, 0 ∈ g.leaves) ∧ l.exitGroup = some 0 ∧ l'.exitGroup = none := by
  obtain ⟨f, hf⟩ : ∃ f, (ofMachine folding {}).outcome = .ok f := by
    refine exists_ofMachine_eq_ok rfl ?_
    rw [survey_folding.2.2.2]
    decide
  obtain ⟨hbend, htuck, hexits⟩ := exits_folding (keeps_of_ofMachine hf).1.leafIndex
  obtain ⟨hsubs, hgroups, hleaves⟩ := exitGroups_innermost (m := folding) (by decide) hf
  rw [hexits] at hsubs
  obtain ⟨tuck, bend, hlist, htuck₁, hbend₀⟩ :
      ∃ tuck bend, f.exitGroups.toList = [tuck, bend] ∧ tuck.sub = 1 ∧ bend.sub = 0 := by
    simpa [List.map_eq_cons_iff, and_assoc] using hsubs
  have hroll : ∀ g ∈ f.exitGroups, 0 ∈ g.leaves := by
    intro g hg
    obtain ⟨r, hr, hfirst, -⟩ := hgroups g hg
    rw [← Array.mem_toList_iff, hlist, List.mem_pair] at hg
    rw [hfirst.mem]
    rcases hg with rfl | rfl
    · rw [htuck₁] at hr ⊢
      obtain rfl := Option.some.inj hr
      exact htuck ▸ by decide
    · rw [hbend₀] at hr ⊢
      obtain rfl := Option.some.inj hr
      exact hbend ▸ by decide
  have hsize : f.leaves.size = 3 := (ofMachine_sound hf).2.1.size_leaves
  have hat : ∀ i (hi : i < 3), f.leaves[i]? = some f.leaves[i] :=
    fun i hi => Array.getElem?_eq_getElem (by omega)
  refine ⟨f, _, _, hf, hat 0 (by decide), hat 2 (by decide), hsubs, hroll, ?_, ?_⟩
  · obtain ⟨p, hp, -, hgroup, -⟩ := hleaves 0 _ (hat 0 (by decide))
    obtain rfl := Option.some.inj hp
    refine (hgroup 0).mpr ⟨tuck, by simp [← Array.getElem?_toList, hlist], ?_, [0], [], ?_, ?_⟩
    · exact hroll tuck (by simp [← Array.mem_toList_iff, hlist])
    · rw [htuck₁]
      decide
    · simp
  · obtain ⟨p, hp, hnone, -, -⟩ := hleaves 2 _ (hat 2 (by decide))
    rw [hnone]
    intro g hg hi
    obtain ⟨r, -, -, henclosed⟩ := hgroups g hg
    exact Bool.false_ne_true (henclosed 2 hi)

end Folding

end Flat

end PoseMachine
