import PoseMachine.Proofs.Rooms

/-!
What flattening says of state numbers that are used more than once. Every leaf with the number of an
earlier leaf is reported, in order, and nothing else is: a nested machine may have the number of
another one, or of a leaf, without a word.
-/

namespace PoseMachine

/-- The number that a notice reports as used before, and the state that uses it again. -/
def Notice.reuse? : Notice → Option (StateId × String)
  | .reusedId id path => some (id, path)
  | _ => none

/-- Of some numbered names those whose number an earlier one has, or is among `seen`. -/
def reused (seen : List StateId) : List (StateId × String) → List (StateId × String)
  | [] => []
  | x :: xs =>
    if x.1 ∈ seen then x :: reused (seen ++ [x.1]) xs else reused (seen ++ [x.1]) xs

theorem reused_concat (seen : List StateId) (xs : List (StateId × String)) (x : StateId × String) :
    reused seen (xs ++ [x]) =
      reused seen xs ++ if x.1 ∈ seen ++ xs.map (·.1) then [x] else [] := by
  induction xs generalizing seen with
  | nil =>
      rw [List.nil_append, reused]
      split <;> simp_all [reused]
  | cons y xs ih =>
      have hseen : seen ++ [y.1] ++ xs.map (·.1) = seen ++ (y :: xs).map (·.1) := by simp
      rw [List.cons_append, reused, reused, ih, hseen]
      split
      · rfl
      · rfl

theorem reused_eq_nil_iff {seen : List StateId} {xs : List (StateId × String)} :
    reused seen xs = [] ↔ (xs.map (·.1)).Nodup ∧ ∀ x ∈ xs, x.1 ∉ seen := by
  induction xs generalizing seen with
  | nil => simp [reused]
  | cons x xs ih =>
      rw [reused]
      split
      · next hx =>
        refine iff_of_false (List.cons_ne_nil _ _) ?_
        rintro ⟨-, hnew⟩
        exact hnew x (by simp) hx
      · next hx =>
        simp only [ih, List.map_cons, List.nodup_cons, List.mem_append, List.mem_singleton, not_or,
          List.mem_map, not_exists, not_and, List.forall_mem_cons]
        constructor
        · rintro ⟨hnodup, hnew⟩
          exact ⟨⟨fun y hy => (hnew y hy).2, hnodup⟩, hx, fun y hy => (hnew y hy).1⟩
        · rintro ⟨⟨hother, hnodup⟩, -, hnew⟩
          exact ⟨hnodup, fun y hy => ⟨hnew y hy, hother y hy⟩⟩

namespace Report

variable {α β : Type}

/-- A step that does not report the reuse of a number. -/
def Quiet (r : Report α) : Prop := ∀ n ∈ r.notices, n.reuse? = none

namespace Quiet

variable {r : Report α} {f : α → Report β}

theorem pure (a : α) : Quiet (Pure.pure a) := by
  rintro n ⟨⟩

theorem tell {ns : List Notice} (h : ∀ n ∈ ns, n.reuse? = none) : Quiet (Report.tell ns) := h

theorem fail {n : Notice} (e : BakeError) (h : n.reuse? = none) :
    Quiet (Report.fail n e : Report α) := by
  rintro m hm
  obtain rfl := List.mem_singleton.mp hm
  exact h

theorem bind (h : r.Quiet) (hf : ∀ a, (f a).Quiet) : (r >>= f).Quiet := by
  obtain ⟨ns, e | a⟩ := r
  · exact h
  · intro n hn
    rcases List.mem_append.mp hn with hn | hn
    · exact h n hn
    · exact hf a n hn

theorem mapM {f : α → Report β} (h : ∀ x, (f x).Quiet) (xs : List α) : (xs.mapM f).Quiet := by
  induction xs with
  | nil => exact pure []
  | cons x xs ih =>
      rw [List.mapM_cons]
      exact (h x).bind fun y => ih.bind fun ys => pure (y :: ys)

theorem filterMap_eq_nil (h : r.Quiet) : r.notices.filterMap Notice.reuse? = [] :=
  List.filterMap_eq_nil_iff.mpr h

end Quiet

end Report

namespace Flat

open Report (Quiet)

section Quiet

variable {f : Flat}

theorem quiet_fallBack (strict : Bool) (e : BakeError) : (fallBack strict e).Quiet := by
  unfold fallBack
  split
  · exact .fail _ rfl
  · exact (Quiet.tell (by simp [Notice.reuse?])).bind fun _ => .pure 0

theorem quiet_resolveEntry (s : Sub) : (f.resolveEntry s).Quiet := by
  unfold resolveEntry
  split
  · exact .pure _
  · exact quiet_fallBack _ _
  · exact quiet_fallBack _ _

theorem quiet_resolveTarget (id : StateId) : (f.resolveTarget id).Quiet := by
  unfold resolveTarget
  split
  · exact .pure _
  · split
    · exact .pure _
    · exact quiet_fallBack _ _

theorem quiet_resolveTransitions (ts : List Transition) : (f.resolveTransitions ts).Quiet :=
  .mapM (fun _ => (quiet_resolveTarget _).bind fun _ => .pure _) ts

theorem quiet_exitNotices (s : Sub) : ∀ n ∈ f.exitNotices s, n.reuse? = none := by
  intro n hn
  obtain ⟨id, -, hid⟩ := List.mem_filterMap.mp hn
  split at hid
  · cases hid
  · obtain rfl := Option.some.inj hid
    rfl
  · obtain rfl := Option.some.inj hid
    rfl

theorem quiet_exitGroup? (warn : Bool) (s : Sub) : (f.exitGroup? warn s).Quiet := by
  unfold exitGroup?
  split
  · exact .pure _
  · exact (Quiet.tell (by cases warn <;> simp [Notice.reuse?])).bind fun _ => .pure _
  · exact (Quiet.tell (by cases warn <;> simp [Notice.reuse?])).bind fun _ => .pure _
  · refine (Quiet.tell (quiet_exitNotices s)).bind fun _ => ?_
    split
    · exact (Quiet.tell (by simp [Notice.reuse?])).bind fun _ => .pure _
    · exact (quiet_resolveTransitions _).bind fun _ => .pure _

theorem quiet_claimAll (groups : List ExitGroup) (leaves : Array Leaf) :
    ∀ n ∈ (claimAll groups leaves).2.toList, n.reuse? = none := by
  unfold claimAll
  refine List.foldlRecOn (motive := fun acc : Array Leaf × Array Notice =>
    ∀ n ∈ acc.2.toList, n.reuse? = none) _ _ (by simp) ?_
  rintro acc hacc x -
  refine List.foldlRecOn (motive := fun acc : Array Leaf × Array Notice =>
    ∀ n ∈ acc.2.toList, n.reuse? = none) _ _ hacc ?_
  rintro acc hacc leaf -
  unfold claim
  split
  · exact hacc
  · split
    · exact hacc
    · simp only [Array.toList_push, List.mem_append, List.mem_singleton]
      rintro n (hn | rfl)
      · exact hacc n hn
      · rfl

theorem quiet_startLeaf : f.startLeaf.Quiet := by
  unfold startLeaf
  split
  · exact .pure _
  · split
    · exact quiet_resolveTarget _
    · exact quiet_fallBack _ _

theorem quiet_resolved (m : Machine) (cfg : Config) (v : Survey) : (resolved m cfg v).Quiet := by
  refine Quiet.bind ?_ fun f => Quiet.bind ?_ fun g => Quiet.bind quiet_startLeaf fun _ => ?_
  · exact (Quiet.mapM (fun _ => (quiet_resolveEntry _).bind fun _ => .pure _) _).bind
      fun _ => .pure _
  · exact (Quiet.mapM (quiet_exitGroup? _) _).bind
      fun _ => (Quiet.tell (quiet_claimAll _ _)).bind fun _ => .pure _
  · exact (Quiet.tell (by simp [Notice.reuse?])).bind fun _ => .pure _

end Quiet

namespace Survey

/-- The number and the path of a leaf. -/
def label (l : Leaf) : StateId × String := (l.node.id, l.path)

/-- The walk has reported the leaves so far whose number an earlier one has. -/
structure NotesReuse (v : Survey) : Prop where
  seen : ∀ id : StateId, id ∈ v.leafIndex ↔ id ∈ v.leaves.toList.map (·.node.id)
  notices : v.notices.toList.filterMap Notice.reuse? = reused [] (v.leaves.toList.map label)

namespace NotesReuse

variable {v : Survey}

theorem filterMap_noteIf {n : Notice} (c : Bool) (hn : n.reuse? = none) :
    (v.noteIf c n).notices.toList.filterMap Notice.reuse? =
      v.notices.toList.filterMap Notice.reuse? := by
  rw [noteIf_eq]
  cases c with
  | true => simp [hn]
  | false => rfl

theorem addLeaf (hv : v.NotesReuse) (parent : Option Nat) (path : String) (node : Node)
    (motion : Motion) : (v.addLeaf parent path node motion).NotesReuse := by
  constructor
  case seen =>
    intro id
    simp only [Survey.addLeaf, noteIf_eq, Std.HashMap.mem_insert, beq_iff_eq, hv.seen id,
      Array.toList_push, List.map_append, List.map_cons, List.map_nil, List.mem_append,
      List.mem_singleton]
    rw [or_comm, eq_comm]
  case notices =>
    have hids : (v.leaves.toList.map label).map (·.1) = v.leaves.toList.map (·.node.id) := by
      simp [label, Function.comp_def]
    have hcontains : v.leafIndex.contains node.id = true ↔
        node.id ∈ v.leaves.toList.map (·.node.id) := by
      rw [Std.HashMap.contains_iff_mem, hv.seen]
    simp only [Survey.addLeaf, noteIf_eq, Array.toList_push, List.map_append, List.map_cons,
      List.map_nil, reused_concat, hids, List.nil_append, ← hv.notices]
    change _ = _ ++ if node.id ∈ v.leaves.toList.map (·.node.id) then [(node.id, path)] else []
    by_cases hseen : node.id ∈ v.leaves.toList.map (·.node.id)
    · rw [if_pos (hcontains.mpr hseen), if_pos hseen]
      simp [Notice.reuse?]
    · rw [if_neg (mt hcontains.mp hseen), if_neg hseen, List.append_nil]

theorem skip (hv : v.NotesReuse) (path : String) (node : Node) : (v.skip path node).NotesReuse := by
  constructor
  case seen => simpa [Survey.skip, noteIf_eq] using hv.seen
  case notices =>
    rw [Survey.skip, filterMap_noteIf _ rfl, filterMap_noteIf _ rfl, hv.notices]
    simp [noteIf_eq]

theorem enter (hv : v.NotesReuse) (parent : Option Nat) (level : UInt16) (path : String)
    (node : Node) (border : Border) (declares : Bool) :
    (v.enter parent level path node border declares).NotesReuse := by
  constructor
  case seen => simpa [Survey.enter, noteIf_eq] using hv.seen
  case notices =>
    refine (filterMap_noteIf (v := v.noteIf _ _) declares rfl).trans ?_
    rw [filterMap_noteIf _ rfl, hv.notices]
    simp [Survey.enter, noteIf_eq]

theorem ofMachine (m : Machine) : (ofMachine m).NotesReuse := by
  apply visitAll_induction (P := NotesReuse)
  case hleaf =>
    intro v parent path node motion _ hv
    exact hv.addLeaf parent path node motion
  case hskip =>
    intro v path node hv
    exact hv.skip path node
  case henter =>
    intro v parent level path node border declares _ hv
    exact hv.enter parent level path node border declares
  case hleave =>
    intro v i hv
    exact ⟨hv.seen, hv.notices⟩
  case hparent => simp
  case hv => constructor <;> simp [reused]

end NotesReuse

end Survey

variable {m : Machine} {cfg : Config}

theorem filterMap_reuse?_ofMachine (m : Machine) (cfg : Config) :
    (ofMachine m cfg).notices.filterMap Notice.reuse? =
      reused [] (m.places.map fun p => (p.node.id, "/".intercalate (p.names m.name))) := by
  have hrest : Quiet (if (Survey.ofMachine m).clipCount > cfg.clipLimit then
      Report.fail (.clipOverflow m.name (Survey.ofMachine m).clipCount cfg.clipLimit)
        (.clipOverflow (Survey.ofMachine m).clipCount cfg.clipLimit)
      else resolved m cfg (Survey.ofMachine m)) := by
    split
    · exact .fail _ rfl
    · exact quiet_resolved _ _ _
  have hlabels : (Survey.ofMachine m).leaves.toList.map Survey.label =
      m.places.map fun p => (p.node.id, "/".intercalate (p.names m.name)) := by
    rw [(Survey.adds_ofMachine m).leaves]
    exact map_numbered _ _ _ _ fun _ _ _ => rfl
  rw [ofMachine_eq]
  refine (List.filterMap_append ..).trans ?_
  rw [hrest.filterMap_eq_nil, List.append_nil, ← hlabels]
  exact (Survey.NotesReuse.ofMachine m).notices

/-- No leaf is reported just when no two leaves have one number. -/
theorem no_reuse_iff : (∀ n ∈ (ofMachine m cfg).notices, n.reuse? = none) ↔
    (m.leaves.map (·.1.id)).Nodup := by
  have hids : (m.places.map fun p => (p.node.id, "/".intercalate (p.names m.name))).map (·.1) =
      m.leaves.map (·.1.id) := by
    rw [← map_places, List.map_map, List.map_map]
    rfl
  rw [← List.filterMap_eq_nil_iff, filterMap_reuse?_ofMachine, reused_eq_nil_iff, hids]
  simp

/-- Flattening reports each leaf with the number of an earlier leaf, by its path, and no other state.
So it reports nothing just when all leaves have numbers of their own, and then the number of a leaf
leads to that leaf only. -/
theorem leaf_reuse_reported (m : Machine) (cfg : Config) :
    (ofMachine m cfg).notices.filterMap Notice.reuse? =
        reused [] (m.places.map fun p => (p.node.id, "/".intercalate (p.names m.name))) ∧
      ((∀ n ∈ (ofMachine m cfg).notices, n.reuse? = none) ↔ (m.leaves.map (·.1.id)).Nodup) ∧
      ∀ f, (ofMachine m cfg).outcome = .ok f →
        (∀ n ∈ (ofMachine m cfg).notices, n.reuse? = none) →
        ∀ (id : StateId) i, f.leafIndex[id]? = some i ↔ ∃ l, m.leaves[i]? = some l ∧ l.1.id = id := by
  refine ⟨filterMap_reuse?_ofMachine m cfg, no_reuse_iff, ?_⟩
  intro f hf hquiet id i
  rw [leafIndex_eq_some_iff hf]
  refine and_iff_left_of_imp ?_
  rintro ⟨l, hl, rfl⟩ j l' hj hl' hid
  have hi : (m.leaves.map (·.1.id))[i]? = some l.1.id := by rw [List.getElem?_map, hl]; rfl
  have hj' : (m.leaves.map (·.1.id))[j]? = some l.1.id := by rw [List.getElem?_map, hl', ← hid]; rfl
  have hlt : i < (m.leaves.map (·.1.id)).length := (List.getElem?_eq_some_iff.mp hi).1
  have hsame := (List.nodup_iff_getElem?_ne_getElem?.mp (no_reuse_iff.mp hquiet)) i j hj
    (List.getElem?_eq_some_iff.mp hj').1
  exact hsame (hi.trans hj'.symm)

end Flat

/-- Two leaves with one number, the second one inside a nested machine. -/
def Machine.doubles : Machine where
  name := "doubles"
  states :=
    [.leaf { id := 2, name := "walk" } (.clip ⟨"walk", 1⟩),
     .container { id := 5, name := "far" } { entry := some 2 }
      (some { name := "far", states := [.leaf { id := 2, name := "stroll" } (.clip ⟨"stroll", 1⟩)] })]
  defaultState := some 2

/-- Two nested machines with one number, and one that has the number of a leaf. -/
def Machine.namesakes : Machine where
  name := "namesakes"
  states :=
    [.container { id := 1, name := "left" } { entry := some 2 }
      (some { name := "left", states := [.leaf { id := 2, name := "walk" } (.clip ⟨"walk", 1⟩)] }),
     .container { id := 1, name := "right" } { entry := some 3 }
      (some { name := "right", states :=
        [.leaf { id := 3, name := "run", transitions := [{ target := 1 }] } (.clip ⟨"run", 1⟩)] }),
     .container { id := 2, name := "far" } { entry := some 4 }
      (some { name := "far", states := [.leaf { id := 4, name := "rest" } (.clip ⟨"rest", 1⟩)] })]
  defaultState := some 2

theorem Flat.exists_ofMachine_namesakes : ∃ f, (Flat.ofMachine .namesakes {}).outcome = .ok f := by
  refine exists_ofMachine_eq_ok rfl ?_
  rw [clipCount_ofMachine]
  decide

theorem Flat.leaf_reuse_reported_doubles :
    (Flat.ofMachine .doubles {}).notices.filterMap Notice.reuse? = [(2, "doubles/far/stroll")] ∧
      ∃ f, (Flat.ofMachine .namesakes {}).outcome = .ok f ∧
        (∀ n ∈ (Flat.ofMachine .namesakes {}).notices, n.reuse? = none) ∧
        f.leafIndex[(2 : StateId)]? = some 0 := by
  obtain ⟨hreported, -, -⟩ := leaf_reuse_reported .doubles {}
  obtain ⟨-, hquiet, hleads⟩ := leaf_reuse_reported .namesakes {}
  obtain ⟨f, hf⟩ := exists_ofMachine_namesakes
  have hnone := hquiet.mpr (by decide)
  exact ⟨hreported.trans (by decide), f, hf, hnone, (hleads f hf hnone 2 0).mpr ⟨_, rfl, rfl⟩⟩

/-- Numbers that nested machines share with each other and with a leaf are not reported. -/
theorem Flat.shared_numbers_unreported : ∃ f,
    (Flat.ofMachine .namesakes {}).outcome = .ok f ∧
      (Machine.namesakes.nested.map (·.1.id) = [1, 1, 2] ∧
        Machine.namesakes.leaves.map (·.1.id) = [2, 3, 4]) ∧
      ∀ n ∈ (Flat.ofMachine .namesakes {}).notices, n.reuse? = none := by
  obtain ⟨f, hf⟩ := exists_ofMachine_namesakes
  exact ⟨f, hf, by decide, no_reuse_iff.mpr (by decide)⟩

end PoseMachine
