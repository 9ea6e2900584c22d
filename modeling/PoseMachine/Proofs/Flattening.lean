import PoseMachine.Flat.Basic
import PoseMachine.Proofs.Outcome
import PoseMachine.Proofs.Survey

/-!
What a flattened graph is sure of: every reference between leaves, nested machines and exit groups
leads to one that is there, whatever the authored graph looked like.
-/

namespace PoseMachine

namespace Flat

variable {f : Flat}

/-- A transition and the leaf to which its target resolves. -/
def Resolves (f : Flat) (t : Transition) (r : Resolved) : Prop :=
  r.transition = t ∧ (f.resolveTarget t.target).outcome = .ok r.leaf

/-- A group has leaves, and the exit transitions of the machine it belongs to. -/
structure ExitGroup.Sound (f : Flat) (g : ExitGroup) : Prop where
  leaves_ne : g.leaves ≠ []
  leaves_lt : ∀ l ∈ g.leaves, l < f.leaves.size
  transitions : ∃ s, f.subs[g.sub]? = some s ∧
    List.Forall₂ f.Resolves s.border.exitTransitions g.transitions

/-- Every reference leads to something that is there, and clips are handed out without gaps. A
graph without leaves may still refer to leaf 0. -/
structure Sound (f : Flat) : Prop where
  leaf_parent : ∀ l ∈ f.leaves, ∀ k ∈ l.parent, k < f.subs.size
  leaf_clips : ∀ l ∈ f.leaves, l.clipOffset + l.motion.clipCount ≤ f.clipCount
  leaf_exitGroup : ∀ l ∈ f.leaves, ∀ g ∈ l.exitGroup, g < f.exitGroups.size
  clipCount : f.clipCount = (f.leaves.toList.flatMap (·.motion.clips)).length
  sub_index : ∀ i (s : Sub), f.subs[i]? = some s → s.index = i
  sub_parent : ∀ i (s : Sub), f.subs[i]? = some s → ∀ k ∈ s.parent, k < i
  sub_entry : ∀ s ∈ f.subs, s.entry < max f.leaves.size 1
  leafIndex : ∀ (id : StateId) i, f.leafIndex[id]? = some i → i < f.leaves.size
  subIndex : ∀ (id : StateId) i, f.subIndex[id]? = some i → i < f.subs.size
  groups : ∀ g ∈ f.exitGroups, g.Sound f
  size_groups : f.exitGroups.size ≤ f.subs.size
  defaultLeaf : f.defaultLeaf < max f.leaves.size 1

theorem sound_ofSurvey (m : Machine) (strict : Bool) {v : Survey} (hv : v.Sound) :
    (ofSurvey m strict v).Sound where
  leaf_parent := hv.leaf_parent
  leaf_clips := hv.leaf_clips
  leaf_exitGroup := by
    intro l hl g hg
    rw [hv.leaf_exitGroup l hl] at hg
    simp at hg
  clipCount := hv.clipCount
  sub_index := hv.sub_index
  sub_parent := hv.sub_parent
  sub_entry := by
    intro s hs
    rw [hv.sub_entry s hs]
    omega
  leafIndex := hv.leafIndex
  subIndex := hv.subIndex
  groups := by simp [ofSurvey]
  size_groups := by simp [ofSurvey]
  defaultLeaf := by
    change 0 < _
    omega

theorem fallBack_eq_ok {strict : Bool} {e : BakeError} {i : Nat}
    (h : (fallBack strict e).outcome = .ok i) : i = 0 := by
  cases strict with
  | true => simp [fallBack] at h
  | false =>
      simp only [fallBack, Bool.false_eq_true, if_false, Report.outcome_tell_bind,
        Report.outcome_pure_eq_ok] at h
      exact h.symm

theorem followEntry_lt (hf : f.Sound) {n sub leaf : Nat}
    (h : f.followEntry n sub = .leaf leaf) : leaf < f.leaves.size := by
  induction n generalizing sub with
  | zero => simp [followEntry] at h
  | succ n ih =>
      rw [followEntry] at h
      split at h
      · simp at h
      · next id _ =>
        split at h
        · next i hi =>
          obtain rfl : i = leaf := by simpa using h
          exact hf.leafIndex id i hi
        · split at h
          · exact ih h
          · simp at h

theorem resolveEntry_lt (hf : f.Sound) {s : Sub} {i : Nat}
    (h : (f.resolveEntry s).outcome = .ok i) : i < max f.leaves.size 1 := by
  unfold resolveEntry at h
  split at h
  · next leaf hleaf =>
    obtain rfl : leaf = i := by simpa using h
    have := followEntry_lt hf hleaf
    omega
  · have := fallBack_eq_ok h
    omega
  · have := fallBack_eq_ok h
    omega

theorem resolveTarget_lt (hf : f.Sound) {id : StateId} {i : Nat}
    (h : (f.resolveTarget id).outcome = .ok i) : i < max f.leaves.size 1 := by
  unfold resolveTarget at h
  split at h
  · next leaf hleaf =>
    obtain rfl : leaf = i := by simpa using h
    have := hf.leafIndex id leaf hleaf
    omega
  · split at h
    · next s hs =>
      obtain rfl : s.entry = i := by simpa using h
      obtain ⟨k, -, hk⟩ := Option.bind_eq_some_iff.mp hs
      exact hf.sub_entry s (Array.mem_of_getElem? hk)
    · have := fallBack_eq_ok h
      omega

theorem startLeaf_lt (hf : f.Sound) {i : Nat} (h : f.startLeaf.outcome = .ok i) :
    i < max f.leaves.size 1 := by
  unfold startLeaf at h
  split at h
  · obtain rfl : 0 = i := by simpa using h
    omega
  · split at h
    · exact resolveTarget_lt hf h
    · have := fallBack_eq_ok h
      omega

theorem resolveTransitions_eq_ok {ts : List Transition} {rs : List Resolved} :
    (f.resolveTransitions ts).outcome = .ok rs ↔ List.Forall₂ f.Resolves ts rs := by
  rw [resolveTransitions, Report.outcome_mapM_eq_ok]
  suffices h : (fun (t : Transition) (r : Resolved) =>
      (do let leaf ← f.resolveTarget t.target; pure ⟨leaf, t⟩ : Report Resolved).outcome = .ok r) =
        f.Resolves by rw [h]
  funext t r
  simp only [Report.outcome_bind_eq_ok, Report.outcome_pure_eq_ok, Resolves]
  apply propext
  constructor
  · rintro ⟨leaf, hleaf, rfl⟩
    exact ⟨rfl, hleaf⟩
  · rintro ⟨rfl, h⟩
    exact ⟨r.leaf, h, rfl⟩

/-- Resolving entries changes nothing but the entries of nested machines. -/
theorem withEntries_eq_ok {g : Flat} (h : f.withEntries.outcome = .ok g) :
    ∃ subs : List Sub, g = { f with subs := subs.toArray } ∧
      List.Forall₂ (fun s s' => (f.resolveEntry s).outcome = .ok s'.entry ∧
        s' = { s with entry := s'.entry }) f.subs.toList subs := by
  simp only [withEntries, Report.outcome_bind_eq_ok, Report.outcome_mapM_eq_ok,
    Report.outcome_pure_eq_ok] at h
  obtain ⟨subs, hsubs, rfl⟩ := h
  refine ⟨subs, rfl, hsubs.imp ?_⟩
  rintro s s' ⟨entry, hentry, rfl⟩
  exact ⟨hentry, rfl⟩

/-- A nested machine before its entry is known. -/
def Sub.unentered (s : Sub) : Sub := { s with entry := 0 }

theorem map_unentered_of_withEntries {g : Flat} (h : f.withEntries.outcome = .ok g) :
    g.subs.map Sub.unentered = f.subs.map Sub.unentered := by
  obtain ⟨subs, rfl, hsubs⟩ := withEntries_eq_ok h
  have hparts : List.Forall₂ (· = ·) (f.subs.toList.map Sub.unentered)
      (subs.map Sub.unentered) := by
    rw [List.forall₂_map_left_iff, List.forall₂_map_right_iff]
    refine hsubs.imp ?_
    rintro s s' ⟨-, heq⟩
    rw [heq]
    rfl
  rw [List.forall₂_eq_eq_eq] at hparts
  exact Array.toList_inj.mp (by simpa using hparts.symm)

theorem Sound.withEntries {g : Flat} (hf : f.Sound) (hgroups : f.exitGroups = #[])
    (h : f.withEntries.outcome = .ok g) : g.Sound := by
  obtain ⟨subs, rfl, hsubs⟩ := withEntries_eq_ok h
  have hsize : subs.length = f.subs.size := by simpa using hsubs.length_eq.symm
  have hsub : ∀ (i : Nat) (s' : Sub), subs.toArray[i]? = some s' →
      ∃ s : Sub, f.subs[i]? = some s ∧ s' = { s with entry := s'.entry } := by
    intro i s' hs'
    obtain ⟨s, hs, -, heq⟩ := exists_related_of_getElem?_right hsubs (by simpa using hs')
    exact ⟨s, by simpa using hs, heq⟩
  constructor
  case leaf_parent => simpa [hsize] using hf.leaf_parent
  case sub_index =>
    intro i s' hs'
    obtain ⟨s, hs, heq⟩ := hsub i s' hs'
    rw [heq]
    exact hf.sub_index i s hs
  case sub_parent =>
    intro i s' hs'
    obtain ⟨s, hs, heq⟩ := hsub i s' hs'
    rw [heq]
    exact hf.sub_parent i s hs
  case sub_entry =>
    intro s' hs'
    obtain ⟨s, -, hentry, -⟩ := exists_related_of_mem_right hsubs (by simpa using hs')
    exact resolveEntry_lt hf hentry
  case subIndex => simpa [hsize] using hf.subIndex
  case groups => simp [hgroups]
  case size_groups => simp [hgroups]
  exacts [hf.leaf_clips, hf.leaf_exitGroup, hf.clipCount, hf.leafIndex, hf.defaultLeaf]

theorem exitLeaves_lt {sub i : Nat} {ids : List StateId} (hi : i ∈ f.exitLeaves sub ids) :
    i < f.leaves.size := by
  rw [exitLeaves, List.mem_eraseDups, List.mem_filterMap] at hi
  obtain ⟨id, -, hid⟩ := hi
  split at hid
  · next leaf hleaf =>
    obtain rfl := Option.some.inj hid
    unfold exitState at hleaf
    split at hleaf
    · next j _ =>
      split at hleaf
      · next hinside =>
        obtain rfl : j = leaf := by simpa using hleaf
        obtain ⟨l, hl, -⟩ := Option.map_eq_some_iff.mp hinside
        exact (Array.getElem?_eq_some_iff.mp hl).1
      · simp at hleaf
    · simp at hleaf
  · simp at hid

theorem exitGroup?_sound {warn : Bool} {s : Sub} {g : ExitGroup} (hs : f.subs[s.index]? = some s)
    (h : (f.exitGroup? warn s).outcome = .ok (some g)) : g.Sound f := by
  unfold exitGroup? at h
  split at h
  · simp at h
  · rw [Report.outcome_tell_bind] at h
    simp at h
  · rw [Report.outcome_tell_bind] at h
    simp at h
  · rw [Report.outcome_tell_bind] at h
    split at h
    · rw [Report.outcome_tell_bind] at h
      simp at h
    · next hleaves =>
      simp only [Report.outcome_bind_eq_ok, resolveTransitions_eq_ok, Report.outcome_pure_eq_ok,
        Option.some.injEq] at h
      obtain ⟨rs, hrs, rfl⟩ := h
      exact ⟨hleaves, fun i hi => exitLeaves_lt hi, s, hs, hrs⟩

def Leaf.ungrouped (l : Leaf) : Leaf := { l with exitGroup := none }

theorem Leaf.ungrouped_inj {l l' : Leaf} : l.ungrouped = l'.ungrouped ↔
    l.index = l'.index ∧ l.clipOffset = l'.clipOffset ∧ l.path = l'.path ∧ l.parent = l'.parent ∧
      l.node = l'.node ∧ l.motion = l'.motion := by
  simp [ungrouped]

theorem claim_map_ungrouped (group : Nat) (acc : Array Leaf × Array Notice) (leaf : Nat) :
    (claim group acc leaf).1.map Leaf.ungrouped = acc.1.map Leaf.ungrouped := by
  unfold claim
  split
  · rfl
  · next l hl =>
    split
    · apply Array.ext_getElem?
      intro i
      simp only [Array.getElem?_map, Array.getElem?_setIfInBounds]
      split
      · next hi =>
        subst hi
        obtain ⟨hlt, hget⟩ := Array.getElem?_eq_some_iff.mp hl
        simp [hlt, hget, Leaf.ungrouped]
      · rfl
    · rfl

theorem claim_exitGroup_lt {group n : Nat} {acc : Array Leaf × Array Notice} {leaf : Nat}
    (hgroup : group < n) (hacc : ∀ l ∈ acc.1, ∀ g ∈ l.exitGroup, g < n) :
    ∀ l ∈ (claim group acc leaf).1, ∀ g ∈ l.exitGroup, g < n := by
  unfold claim
  split
  · exact hacc
  · next l hl =>
    split
    · intro l' hl' g hg
      rcases Array.mem_or_eq_of_mem_setIfInBounds hl' with hmem | rfl
      · exact hacc l' hmem g hg
      · obtain rfl : group = g := by simpa using hg
        exact hgroup
    · exact hacc

/-- Claiming leaves changes nothing but their exit groups, which are among those that claim. -/
theorem claimAll_spec (groups : List ExitGroup) {leaves : Array Leaf}
    (hleaves : ∀ l ∈ leaves, l.exitGroup = none) :
    (claimAll groups leaves).1.map Leaf.ungrouped = leaves.map Leaf.ungrouped ∧
      ∀ l ∈ (claimAll groups leaves).1, ∀ g ∈ l.exitGroup, g < groups.length := by
  unfold claimAll
  refine List.foldlRecOn (motive := fun acc : Array Leaf × Array Notice =>
    acc.1.map Leaf.ungrouped = leaves.map Leaf.ungrouped ∧
      ∀ l ∈ acc.1, ∀ g ∈ l.exitGroup, g < groups.length) _ _ ⟨rfl, ?_⟩ ?_
  · intro l hl g hg
    rw [hleaves l hl] at hg
    simp at hg
  · intro acc hacc x hx
    have hlt : x.2 < groups.length := by simpa using (List.mem_zipIdx hx).2.1
    refine List.foldlRecOn (motive := fun acc : Array Leaf × Array Notice =>
      acc.1.map Leaf.ungrouped = leaves.map Leaf.ungrouped ∧
        ∀ l ∈ acc.1, ∀ g ∈ l.exitGroup, g < groups.length) _ _ hacc ?_
    rintro acc ⟨hmap, hgroups⟩ leaf -
    exact ⟨(claim_map_ungrouped x.2 acc leaf).trans hmap, claim_exitGroup_lt hlt hgroups⟩

/-- Collecting exit groups changes nothing but the groups and what leaves say of them. -/
theorem withExitGroups_eq_ok {g : Flat} {warn : Bool} {postOrder : List Nat}
    (h : (f.withExitGroups warn postOrder).outcome = .ok g) :
    ∃ found : List (Option ExitGroup),
      List.Forall₂ (fun s x => (f.exitGroup? warn s).outcome = .ok x)
          (postOrder.filterMap (f.subs[·]?)) found ∧
        g = { f with
          leaves := (claimAll (found.filterMap id) f.leaves).1
          exitGroups := (found.filterMap id).toArray } := by
  simp only [withExitGroups, Report.outcome_bind_eq_ok, Report.outcome_mapM_eq_ok] at h
  obtain ⟨found, hfound, -, -, h⟩ := h
  exact ⟨found, hfound, (Report.outcome_pure_eq_ok.mp h).symm⟩

theorem exists_of_map_ungrouped {leaves leaves' : Array Leaf}
    (h : leaves'.map Leaf.ungrouped = leaves.map Leaf.ungrouped) {l : Leaf} (hl : l ∈ leaves') :
    ∃ l' ∈ leaves, l'.ungrouped = l.ungrouped := by
  have hmem : l.ungrouped ∈ leaves.map Leaf.ungrouped := by
    rw [← h]
    exact Array.mem_map_of_mem hl
  exact Array.mem_map.mp hmem

/-- The exit groups of a sound graph may be replaced by others that are sound in it. -/
theorem Sound.regroup (hf : f.Sound) {leaves : Array Leaf} {groups : Array ExitGroup}
    (hmap : leaves.map Leaf.ungrouped = f.leaves.map Leaf.ungrouped)
    (hleaves : ∀ l ∈ leaves, ∀ g ∈ l.exitGroup, g < groups.size)
    (hgroups : ∀ g ∈ groups, g.Sound f) (hcount : groups.size ≤ f.subs.size) :
    ({ f with leaves, exitGroups := groups } : Flat).Sound := by
  have hsize : leaves.size = f.leaves.size := by simpa using congrArg Array.size hmap
  constructor
  case leaf_parent =>
    intro l hl
    obtain ⟨l', hl', heq⟩ := exists_of_map_ungrouped hmap hl
    obtain ⟨-, -, -, hparent, -⟩ := Leaf.ungrouped_inj.mp heq
    rw [← hparent]
    exact hf.leaf_parent l' hl'
  case leaf_clips =>
    intro l hl
    obtain ⟨l', hl', heq⟩ := exists_of_map_ungrouped hmap hl
    obtain ⟨-, hoffset, -, -, -, hmotion⟩ := Leaf.ungrouped_inj.mp heq
    rw [← hoffset, ← hmotion]
    exact hf.leaf_clips l' hl'
  case clipCount =>
    have hclips := congrArg (fun ls : Array Leaf => ls.toList.flatMap (·.motion.clips)) hmap
    simp only [Array.toList_map, List.flatMap_map, Leaf.ungrouped] at hclips
    rw [hclips]
    exact hf.clipCount
  case sub_entry =>
    rw [hsize]
    exact hf.sub_entry
  case leafIndex =>
    rw [hsize]
    exact hf.leafIndex
  case groups =>
    intro g hg
    obtain ⟨hne, hlt, htransitions⟩ := hgroups g hg
    refine ⟨hne, ?_, htransitions⟩
    rw [hsize]
    exact hlt
  case defaultLeaf =>
    rw [hsize]
    exact hf.defaultLeaf
  exacts [hleaves, hf.sub_index, hf.sub_parent, hf.subIndex, hcount]

/-- The groups that are found among the nested machines of a sound graph are sound in it. -/
theorem Sound.exitGroup (hf : f.Sound) {warn : Bool} {postOrder : List Nat}
    {found : List (Option ExitGroup)}
    (hfound : List.Forall₂ (fun s x => (f.exitGroup? warn s).outcome = .ok x)
      (postOrder.filterMap (f.subs[·]?)) found) {g : ExitGroup} (hg : some g ∈ found) :
    g.Sound f := by
  obtain ⟨s, hs, hgroup⟩ := exists_related_of_mem_right hfound hg
  obtain ⟨i, -, hi⟩ := List.mem_filterMap.mp hs
  refine exitGroup?_sound ?_ hgroup
  rw [hf.sub_index i s hi]
  exact hi

theorem Sound.withExitGroups {g : Flat} {warn : Bool} {postOrder : List Nat} (hf : f.Sound)
    (hleaves : ∀ l ∈ f.leaves, l.exitGroup = none) (hlength : postOrder.length ≤ f.subs.size)
    (h : (f.withExitGroups warn postOrder).outcome = .ok g) : g.Sound := by
  obtain ⟨found, hfound, rfl⟩ := withExitGroups_eq_ok h
  obtain ⟨hmap, hgroups⟩ := claimAll_spec (found.filterMap id) hleaves
  have hmachines : found.length ≤ postOrder.length := by
    rw [← hfound.length_eq]
    exact List.length_filterMap_le _ _
  have hcount : (found.filterMap id).length ≤ found.length := List.length_filterMap_le _ _
  refine hf.regroup hmap ?_ ?_ ?_
  · simpa using hgroups
  · intro g hg
    exact hf.exitGroup hfound (by simpa using hg)
  · simp only [List.size_toArray]
    omega

theorem Sound.withDefault (hf : f.Sound) {i : Nat} (hi : i < max f.leaves.size 1) :
    ({ f with defaultLeaf := i } : Flat).Sound := by
  constructor
  case groups =>
    intro g hg
    obtain ⟨hne, hlt, htransitions⟩ := hf.groups g hg
    exact ⟨hne, hlt, htransitions⟩
  case defaultLeaf => exact hi
  exacts [hf.leaf_parent, hf.leaf_clips, hf.leaf_exitGroup, hf.clipCount, hf.sub_index,
    hf.sub_parent, hf.sub_entry, hf.leafIndex, hf.subIndex, hf.size_groups]

/-- A flattened graph has the leaves and the nested machines of the graph `m`, in order. -/
structure Flattens (f : Flat) (m : Machine) : Prop where
  machine : f.machine = m
  leaves : (f.leaves.toList.map fun l => (l.node, l.motion)) = m.leaves
  subs : (f.subs.toList.map fun s => (s.node, s.border)) = m.nested

namespace Flattens

variable {m : Machine}

theorem size_leaves (h : f.Flattens m) : f.leaves.size = m.leafCount := by
  rw [← Machine.length_leaves, ← h.leaves, List.length_map, Array.length_toList]

theorem size_subs (h : f.Flattens m) : f.subs.size = m.subCount := by
  rw [← Machine.length_nested, ← h.subs, List.length_map, Array.length_toList]

theorem leaf_at (h : f.Flattens m) {i : Nat} {l : Leaf} (hl : f.leaves[i]? = some l) :
    m.leaves[i]? = some (l.node, l.motion) := by
  simp [← h.leaves, hl]

theorem sub_at (h : f.Flattens m) {i : Nat} {s : Sub} (hs : f.subs[i]? = some s) :
    m.nested[i]? = some (s.node, s.border) := by
  simp [← h.subs, hs]

theorem ofSurvey (m : Machine) (strict : Bool) :
    (Flat.ofSurvey m strict (Survey.ofMachine m)).Flattens m :=
  ⟨rfl, Survey.leafParts_ofMachine m, Survey.subParts_ofMachine m⟩

theorem withEntries {g : Flat} (hf : f.Flattens m) (h : f.withEntries.outcome = .ok g) :
    g.Flattens m := by
  have hsubs := congrArg (fun ss : Array Sub => ss.toList.map fun s => (s.node, s.border))
    (map_unentered_of_withEntries h)
  simp only [Array.toList_map, List.map_map, Function.comp_def, Sub.unentered] at hsubs
  obtain ⟨subs, rfl, -⟩ := withEntries_eq_ok h
  exact ⟨hf.machine, hf.leaves, hsubs.trans hf.subs⟩

theorem withExitGroups {g : Flat} {warn : Bool} {postOrder : List Nat} (hf : f.Flattens m)
    (hleaves : ∀ l ∈ f.leaves, l.exitGroup = none)
    (h : (f.withExitGroups warn postOrder).outcome = .ok g) : g.Flattens m := by
  obtain ⟨found, -, rfl⟩ := withExitGroups_eq_ok h
  refine ⟨hf.machine, ?_, hf.subs⟩
  have hmap := congrArg (fun ls : Array Leaf => ls.toList.map fun l => (l.node, l.motion))
    (claimAll_spec (found.filterMap id) hleaves).1
  simp only [Array.toList_map, List.map_map, Function.comp_def, Leaf.ungrouped] at hmap
  exact hmap.trans hf.leaves

end Flattens

/-- The steps by which a machine is flattened. -/
theorem ofMachine_eq_ok {m : Machine} {cfg : Config} (h : (ofMachine m cfg).outcome = .ok f) :
    (Survey.ofMachine m).clipCount ≤ cfg.clipLimit ∧ ∃ f₁ f₂ i,
      (ofSurvey m cfg.strictResolution (Survey.ofMachine m)).withEntries.outcome = .ok f₁ ∧
      (f₁.withExitGroups cfg.warnIncompleteExitGroups
        (Survey.ofMachine m).postOrder.toList).outcome = .ok f₂ ∧
      f₂.startLeaf.outcome = .ok i ∧ f = { f₂ with defaultLeaf := i } := by
  simp only [ofMachine] at h
  rw [Report.outcome_tell_bind] at h
  split at h
  · simp at h
  · next hclips =>
    simp only [Report.outcome_bind_eq_ok] at h
    obtain ⟨f₁, hentries, f₂, hgroups, i, hi, -, -, h⟩ := h
    exact ⟨Nat.not_lt.mp hclips, f₁, f₂, i, hentries, hgroups, hi,
      (Report.outcome_pure_eq_ok.mp h).symm⟩

/-- A flattened graph is sound, is one of the authored graph, and fits the clip index space. -/
theorem ofMachine_sound {m : Machine} {cfg : Config} (h : (ofMachine m cfg).outcome = .ok f) :
    f.Sound ∧ f.Flattens m ∧ f.clipCount ≤ cfg.clipLimit := by
  obtain ⟨hclips, f₁, f₂, i, hentries, hgroups, hi, rfl⟩ := ofMachine_eq_ok h
  have hsurvey := Survey.Sound.ofMachine m
  have hflattens := (Flattens.ofSurvey m cfg.strictResolution).withEntries hentries
  have hsound := (sound_ofSurvey m cfg.strictResolution hsurvey).withEntries rfl hentries
  have hleaves : ∀ l ∈ f₁.leaves, l.exitGroup = none := by
    obtain ⟨subs, rfl, -⟩ := withEntries_eq_ok hentries
    exact hsurvey.leaf_exitGroup
  have hpost : (Survey.ofMachine m).postOrder.toList.length ≤ f₁.subs.size := by
    simp [Survey.size_postOrder_ofMachine, hflattens.size_subs]
  have hsound₂ := hsound.withExitGroups hleaves hpost hgroups
  have hflattens₂ := hflattens.withExitGroups hleaves hgroups
  have hcount : f₂.clipCount = (Survey.ofMachine m).clipCount := by
    obtain ⟨subs, rfl, -⟩ := withEntries_eq_ok hentries
    obtain ⟨found, -, rfl⟩ := withExitGroups_eq_ok hgroups
    rfl
  refine ⟨hsound₂.withDefault (startLeaf_lt hsound₂ hi),
    ⟨hflattens₂.machine, hflattens₂.leaves, hflattens₂.subs⟩, ?_⟩
  rwa [hcount]

/-- What a flattened graph keeps of the walk that it was made from. -/
structure Keeps (f : Flat) (v : Survey) : Prop where
  leaves : f.leaves.map Leaf.ungrouped = v.leaves.map Leaf.ungrouped
  subs : f.subs.map Sub.unentered = v.subs.map Sub.unentered
  leafIndex : f.leafIndex = v.leafIndex
  subIndex : f.subIndex = v.subIndex
  clipCount : f.clipCount = v.clipCount

theorem keeps_of_ofMachine {m : Machine} {cfg : Config} (h : (ofMachine m cfg).outcome = .ok f) :
    f.Keeps (Survey.ofMachine m) ∧ f.strict = cfg.strictResolution := by
  obtain ⟨-, f₁, f₂, i, hentries, hgroups, -, rfl⟩ := ofMachine_eq_ok h
  have hsubs := map_unentered_of_withEntries hentries
  obtain ⟨subs, rfl, -⟩ := withEntries_eq_ok hentries
  obtain ⟨found, -, rfl⟩ := withExitGroups_eq_ok hgroups
  have hleaves := (Survey.Sound.ofMachine m).leaf_exitGroup
  exact ⟨⟨(claimAll_spec _ hleaves).1, hsubs, rfl, rfl, rfl⟩, rfl⟩

end Flat

end PoseMachine
