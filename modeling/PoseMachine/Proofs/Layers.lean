import PoseMachine.Animator.Running
import PoseMachine.Proofs.Reindexing

/-!
Layers side by side. Each layer is baked on its own against the parameters of the animator, whatever
its machine declares.
-/

namespace PoseMachine

namespace Flat

/-- The same graph, its machine with other parameters of its own. -/
def declaring (ps : List Parameter) (f : Flat) : Flat :=
  { f with machine := { f.machine with parameters := ps } }

variable {f : Flat} (ps : List Parameter)

theorem followEntry_declaring (n sub : Nat) :
    (f.declaring ps).followEntry n sub = f.followEntry n sub := by
  induction n generalizing sub with
  | zero => rfl
  | succ n ih =>
      rw [followEntry, followEntry]
      simp only [ih]
      rfl

theorem encloses_declaring (sub n : Nat) (inner : Option Nat) :
    (f.declaring ps).encloses sub n inner = f.encloses sub n inner := by
  induction n generalizing inner with
  | zero => cases inner <;> rfl
  | succ n ih =>
      cases inner with
      | none => rfl
      | some inner =>
          rw [encloses, encloses, ih]
          rfl

theorem withEntries_declaring :
    (f.declaring ps).withEntries = declaring ps <$> f.withEntries := by
  simp only [withEntries, resolveEntry, followEntry_declaring, map_bind, map_pure]
  rfl

theorem exitState_declaring (sub : Nat) (id : StateId) :
    (f.declaring ps).exitState sub id = f.exitState sub id := by
  simp only [exitState, isInside?, encloses_declaring]
  rfl

theorem withExitGroups_declaring (warn : Bool) (postOrder : List Nat) :
    (f.declaring ps).withExitGroups warn postOrder =
      declaring ps <$> f.withExitGroups warn postOrder := by
  have hgroup : (f.declaring ps).exitGroup? warn = f.exitGroup? warn := by
    funext s
    simp only [exitGroup?, exitNotices, exitLeaves, exitState_declaring]
    rfl
  simp only [withExitGroups, hgroup, map_bind, map_pure]
  rfl

theorem ofMachine_declaring (m : Machine) (cfg : Config) :
    ofMachine { m with parameters := ps } cfg = declaring ps <$> ofMachine m cfg := by
  have hstart (v : Survey) : ofSurvey { m with parameters := ps } cfg.strictResolution v =
      (ofSurvey m cfg.strictResolution v).declaring ps := rfl
  have hsurvey : Survey.ofMachine { m with parameters := ps } = Survey.ofMachine m := rfl
  simp only [ofMachine, hsurvey, hstart, map_bind]
  refine bind_congr fun _ => ?_
  split
  · rfl
  · simp only [withEntries_declaring, map_bind, bind_map_left]
    refine bind_congr fun f => ?_
    simp only [withExitGroups_declaring, bind_map_left]
    rfl

end Flat

/-- A machine baked against a list of parameters bakes alike whatever it declares itself. -/
theorem Machine.bakeWith_declaring (m : Machine) (declared ps : List Parameter) (cfg : Config) :
    { m with parameters := declared }.bakeWith ps cfg = m.bakeWith ps cfg := by
  simp only [bakeWith, Flat.ofMachine_declaring, bind_map_left]
  rfl

namespace Report

variable {α β : Type}

theorem outcome_bind_eq_error {r : Report α} {f : α → Report β} {e : BakeError} :
    (r >>= f).outcome = .error e ↔
      r.outcome = .error e ∨ ∃ a, r.outcome = .ok a ∧ (f a).outcome = .error e := by
  rw [outcome_bind]
  cases r.outcome with
  | error e => simp [Except.bind]
  | ok a => simp [Except.bind]

/-- Steps over a list fail with the error of the first of them that fails. -/
theorem outcome_mapM_eq_error {f : α → Report β} {xs : List α} {e : BakeError} :
    (xs.mapM f).outcome = .error e ↔ ∃ before x after, xs = before ++ x :: after ∧
      (∀ y ∈ before, ∃ z, (f y).outcome = .ok z) ∧ (f x).outcome = .error e := by
  induction xs with
  | nil => simp
  | cons x xs ih =>
      simp only [List.mapM_cons, outcome_bind_eq_error, outcome_pure, reduceCtorEq, and_false,
        exists_false, or_false, ih]
      constructor
      · rintro (hx | ⟨z, hz, before, y, after, rfl, hbefore, hy⟩)
        · exact ⟨[], x, xs, rfl, by simp, hx⟩
        · exact ⟨x :: before, y, after, rfl, List.forall_mem_cons.mpr ⟨⟨z, hz⟩, hbefore⟩, hy⟩
      · rintro ⟨_ | ⟨w, before⟩, y, after, heq, hbefore, hy⟩
        · obtain ⟨rfl, rfl⟩ := List.cons.inj heq
          exact .inl hy
        · obtain ⟨rfl, rfl⟩ := List.cons.inj heq
          obtain ⟨⟨z, hz⟩, hbefore⟩ := List.forall_mem_cons.mp hbefore
          exact .inr ⟨z, hz, before, y, after, rfl, hbefore, hy⟩

end Report

/-- The baked layer around a baked machine. -/
def Layer.around (l : Layer) (b : Baked) : Baked.Layer where
  nameHash := PoseMachine.nameHash l.name
  weight := l.weight
  mode := l.mode
  mask := l.mask.map (·.map PoseMachine.nameHash)
  machine := b

theorem Layer.outcome_bake (l : Layer) (ps : List Parameter) (cfg : Config) :
    (l.bake ps cfg).outcome = (l.machine.bakeWith ps cfg).outcome.map l.around := by
  rw [bake, Report.outcome_tell_bind, Report.outcome_bind]
  cases (l.machine.bakeWith ps cfg).outcome <;> rfl

namespace Animator

variable {animator : Animator} {cfg : Config} {a : Baked.Animator}

theorem bake_eq_ok (h : (animator.bake cfg).outcome = .ok a) : ∃ t,
    Parameter.Table.build animator.parameters = pure t ∧ a.parameters = t.layout ∧
      List.Forall₂ (fun l x => ∃ b, (l.machine.bakeWith animator.parameters cfg).outcome = .ok b ∧
        x = l.around b) animator.layers a.layers.toList := by
  simp only [bake, Report.outcome_bind_eq_ok, Report.outcome_mapM_eq_ok,
    Report.outcome_pure_eq_ok] at h
  obtain ⟨t, ht, layers, hlayers, -, -, rfl⟩ := h
  refine ⟨t, Parameter.Table.build_of_addAll (Parameter.Table.addAll_of_build ht), rfl,
    hlayers.imp fun l x hx => ?_⟩
  rw [Layer.outcome_bake, map_eq_ok_iff] at hx
  obtain ⟨b, hb, rfl⟩ := hx
  exact ⟨b, hb, rfl⟩

/-- All layers are laid out alike. -/
theorem parameters_of_bake (h : (animator.bake cfg).outcome = .ok a) {x : Baked.Layer}
    (hx : x ∈ a.layers) : x.machine.parameters = a.parameters := by
  obtain ⟨t, ht, hlayout, hlayers⟩ := bake_eq_ok h
  obtain ⟨l, -, b, hb, rfl⟩ := exists_related_of_mem_right hlayers (Array.mem_toList_iff.mpr hx)
  rw [hlayout]
  exact Machine.parameters_of_bakeWith ht hb

theorem bake_eq_error {e : BakeError} : (animator.bake cfg).outcome = .error e ↔
    (Parameter.Table.build animator.parameters).outcome = .error e ∨
      (∃ t, (Parameter.Table.build animator.parameters).outcome = .ok t) ∧
        ∃ before l after, animator.layers = before ++ l :: after ∧
          (∀ l' ∈ before, ∃ b, (l'.machine.bakeWith animator.parameters cfg).outcome = .ok b) ∧
          (l.machine.bakeWith animator.parameters cfg).outcome = .error e := by
  have hok (l : Layer) : (∃ x, (l.bake animator.parameters cfg).outcome = .ok x) ↔
      ∃ b, (l.machine.bakeWith animator.parameters cfg).outcome = .ok b := by
    rw [Layer.outcome_bake]
    cases (l.machine.bakeWith animator.parameters cfg).outcome <;> simp [Except.map]
  have herror (l : Layer) : (l.bake animator.parameters cfg).outcome = .error e ↔
      (l.machine.bakeWith animator.parameters cfg).outcome = .error e := by
    rw [Layer.outcome_bake]
    cases (l.machine.bakeWith animator.parameters cfg).outcome <;> simp [Except.map]
  simp only [bake, Report.outcome_bind_eq_error, Report.outcome_mapM_eq_error, hok, herror,
    Report.outcome_tell, Report.outcome_pure, reduceCtorEq, and_false, exists_false, or_false,
    exists_and_right]

end Animator

end PoseMachine
