import PoseMachine.Proofs.EntryChains
import PoseMachine.Proofs.Preorder

/-!
Which references from state to state fall back. A reference leads to a leaf or fails for a reason
that the authored graph tells. A lenient bake meets the references one after another, takes leaf 0
for each that fails and falls back nowhere else; a strict one ends at the first that fails.
-/

namespace PoseMachine

open BakeError (Plain)
open Report (Firm Hardens)

/-- A reference from state to state. -/
inductive Reference where
  /-- The entry of the nested machine `sub`. -/
  | entry (sub : Nat)
  | target (id : StateId)
  /-- The default state of a machine that names none. -/
  | noDefault

def Machine.defaultReference (m : Machine) : Reference :=
  (m.defaultState.map .target).getD .noDefault

namespace Flat

/-- A reference leads to a leaf. -/
inductive Leads (f : Flat) : Reference → Nat → Prop
  | entry {k n leaf : Nat} (h : f.chain k n = .leaf leaf) : f.Leads (.entry k) leaf
  | leaf {id : StateId} {leaf : Nat} (h : f.leafIndex[id]? = some leaf) : f.Leads (.target id) leaf
  /-- Where a nested machine is meant, its entry is taken. -/
  | machine {id : StateId} {k : Nat} {s : Sub} (hleaf : f.leafIndex[id]? = none)
      (hk : f.subIndex[id]? = some k) (hs : f.subs[k]? = some s) : f.Leads (.target id) s.entry

/-- A reference leads nowhere, which is the error `e`. -/
inductive Fails (f : Flat) : Reference → BakeError → Prop
  | deadEnd {k n : Nat} {s : Sub} (hs : f.subs[k]? = some s) (h : f.chain k n = .nothing) :
      f.Fails (.entry k) (.unresolvedEntry s.path)
  | cycle {k : Nat} {s : Sub} (hs : f.subs[k]? = some s) (h : ∀ n, ∃ j, f.chain k n = .machine j) :
      f.Fails (.entry k) (.entryCycle s.path)
  /-- No leaf and no nested machine has the number. -/
  | target {id : StateId} (hleaf : ∀ l ∈ f.machine.leaves, l.1.id ≠ id)
      (hsub : ∀ n ∈ f.machine.nested, n.1.id ≠ id) : f.Fails (.target id) (.unresolvedTarget id)
  | noDefault (h : f.machine.defaultState = none) : f.Fails .noDefault .missingDefault

/-- The leaf that a lenient bake takes for a reference: the one that it leads to, or leaf 0 if it
fails. -/
def Takes (f : Flat) (r : Reference) (leaf : Nat) : Prop :=
  f.Leads r leaf ∨ (∃ e, f.Fails r e) ∧ leaf = 0

/-- The errors of those among some references that fail, in order. The others lead to leaves. -/
inductive Failures (f : Flat) : List Reference → List BakeError → Prop
  | nil : f.Failures [] []
  | leads {r : Reference} {rs : List Reference} {es : List BakeError} {leaf : Nat}
      (h : f.Leads r leaf) (hrs : f.Failures rs es) : f.Failures (r :: rs) es
  | fails {r : Reference} {rs : List Reference} {e : BakeError} {es : List BakeError}
      (h : f.Fails r e) (hrs : f.Failures rs es) : f.Failures (r :: rs) (e :: es)

def targetsOf (ts : List Transition) : List Reference := ts.map fun t => .target t.target

def ExitGroup.references (g : ExitGroup) : List Reference :=
  targetsOf (g.transitions.map (·.transition))

/-- The references that are resolved while a graph is flattened: the entries of nested machines, the
exit transitions that make up groups, and the default state. -/
def inward (f : Flat) : List Reference :=
  f.subs.toList.map (fun s => .entry s.index) ++ f.exitGroups.toList.flatMap (·.references) ++
    if f.leaves.isEmpty then [] else [f.machine.defaultReference]

/-- The references that are resolved after that: the transitions of leaves and those from any state,
which a graph without leaves drops. -/
def outward (f : Flat) : List Reference :=
  f.leaves.toList.flatMap (fun l => targetsOf l.node.transitions) ++
    if f.leaves.isEmpty then [] else targetsOf (f.machine.anyTransitions.map (·.transition))

/-- What a flattened graph makes of its references. -/
structure Settles (f : Flat) : Prop where
  entries : ∀ (k : Nat) s, f.subs[k]? = some s → f.Takes (.entry k) s.entry
  exits : ∀ g ∈ f.exitGroups, ∀ x ∈ g.transitions, f.Takes (.target x.transition.target) x.leaf
  start : f.leaves ≠ #[] → f.Takes f.machine.defaultReference f.defaultLeaf
  targets : ∀ id, ∃ leaf, (f.resolveTarget id).outcome = .ok leaf ∧ f.Takes (.target id) leaf

variable {f : Flat} {m : Machine} {cfg : Config}

theorem Failures.append {rs rs' : List Reference} {es es' : List BakeError} (h : f.Failures rs es)
    (h' : f.Failures rs' es') : f.Failures (rs ++ rs') (es ++ es') := by
  induction h with
  | nil => exact h'
  | leads h _ ih => exact .leads h ih
  | fails h _ ih => exact .fails h ih

/-- The step by which a reference is resolved, by what becomes of the reference. -/
inductive Answers (f : Flat) (ref : Reference) : Report Nat → Prop
  | leads {leaf : Nat} (h : f.Leads ref leaf) : f.Answers ref (pure leaf)
  | fails {e : BakeError} (h : f.Fails ref e) : f.Answers ref (fallBack f.strict e)

namespace Answers

variable {ref : Reference} {r : Report Nat}

theorem takes (h : f.Answers ref r) {leaf : Nat} (hr : r.outcome = .ok leaf) :
    f.Takes ref leaf := by
  cases h with
  | leads h =>
      obtain rfl := Report.outcome_pure_eq_ok.mp hr
      exact .inl h
  | fails h => exact .inr ⟨⟨_, h⟩, fallBack_eq_ok hr⟩

theorem exists_ok (hf : f.strict = false) (h : f.Answers ref r) : ∃ leaf, r.outcome = .ok leaf := by
  cases h with
  | leads => exact ⟨_, rfl⟩
  | fails =>
      rw [hf]
      exact ⟨0, rfl⟩

theorem failures (hf : f.strict = false) (h : f.Answers ref r) : f.Failures [ref] r.fallbacks := by
  cases h with
  | leads h => exact .leads h .nil
  | fails h =>
      rw [hf]
      exact .fails h .nil

end Answers

/-- A step resolves the references `rs` in order and falls back where they fail, nowhere else. One
that ends in an error may leave the last of them alone. -/
def Meets (f : Flat) {α : Type} (rs : List Reference) (r : Report α) : Prop :=
  ∃ done rest, rs = done ++ rest ∧ f.Failures done r.fallbacks ∧
    ∀ a, r.outcome = .ok a → rest = []

namespace Meets

variable {α β : Type} {rs rs' : List Reference} {r : Report α} {g : α → Report β}

theorem of_failures (h : f.Failures rs r.fallbacks) : f.Meets rs r :=
  ⟨rs, [], (List.append_nil rs).symm, h, fun _ _ => rfl⟩

theorem of_firm (h : Firm r.notices) : f.Meets [] r := by
  refine of_failures ?_
  rw [h.fallbacks_eq_nil]
  exact .nil

theorem failures (h : f.Meets rs r) {a : α} (hr : r.outcome = .ok a) :
    f.Failures rs r.fallbacks := by
  obtain ⟨done, rest, rfl, hdone, hrest⟩ := h
  rw [hrest a hr, List.append_nil]
  exact hdone

theorem bind (h : f.Meets rs r) (hg : ∀ a, r.outcome = .ok a → f.Meets rs' (g a)) :
    f.Meets (rs ++ rs') (r >>= g) := by
  cases hr : r.outcome with
  | ok a =>
      obtain ⟨done, rest, rfl, hdone, hrest⟩ := hg a hr
      refine ⟨rs ++ done, rest, (List.append_assoc rs done rest).symm, ?_, ?_⟩
      · rw [Report.fallbacks_bind hr]
        exact (h.failures hr).append hdone
      · intro b hb
        rw [Report.outcome_bind, hr] at hb
        exact hrest b hb
  | error e =>
      obtain ⟨done, rest, rfl, hdone, -⟩ := h
      refine ⟨done, rest ++ rs', List.append_assoc done rest rs', ?_, ?_⟩
      · rwa [Report.fallbacks_bind_of_error hr]
      · intro b hb
        rw [Report.outcome_bind, hr] at hb
        cases hb

theorem pure (a : α) : f.Meets [] (Pure.pure a) := of_firm .nil

/-- A step without references after one that has some. -/
theorem bind_firm (h : f.Meets rs r) (hg : ∀ a, Firm (g a).notices) : f.Meets rs (r >>= g) := by
  simpa using h.bind fun a _ => of_firm (hg a)

/-- A step with references after one that has none. -/
theorem firm_bind (h : Firm r.notices) (hg : ∀ a, r.outcome = .ok a → f.Meets rs (g a)) :
    f.Meets rs (r >>= g) :=
  (of_firm h).bind hg

theorem mapM {refs : α → List Reference} (h : ∀ x, f.Meets (refs x) (g x)) (xs : List α) :
    f.Meets (xs.flatMap refs) (xs.mapM g) := by
  induction xs with
  | nil => exact pure []
  | cons x xs ih =>
      rw [List.mapM_cons, List.flatMap_cons]
      refine (h x).bind fun y _ => ?_
      exact ih.bind_firm fun ys => .nil

end Meets

/-- Steps over a list whose results tell the references that they met. -/
theorem failures_mapM {α β : Type} {g : α → Report β} (refs : β → List Reference) {xs : List α}
    {ys : List β}
    (h : ∀ x ∈ xs, ∀ y, (g x).outcome = .ok y → f.Failures (refs y) (g x).fallbacks)
    (hys : (xs.mapM g).outcome = .ok ys) :
    f.Failures (ys.flatMap refs) (xs.mapM g).fallbacks := by
  induction xs generalizing ys with
  | nil =>
      obtain rfl : [] = ys := by simpa using hys
      exact .nil
  | cons x xs ih =>
      rw [List.mapM_cons] at hys ⊢
      obtain ⟨y, hy, hys⟩ := Report.outcome_bind_eq_ok.mp hys
      obtain ⟨zs, hzs, hys⟩ := Report.outcome_bind_eq_ok.mp hys
      obtain rfl := Report.outcome_pure_eq_ok.mp hys
      rw [Report.fallbacks_bind hy, Report.fallbacks_bind_pure, List.flatMap_cons]
      exact (h x (by simp) y hy).append (ih (fun w hw => h w (by simp [hw])) hzs)

theorem Survey.mem_subIndex_ofMachine (m : Machine) (id : StateId) :
    id ∈ (ofMachine m).subIndex ↔ ∃ s ∈ (ofMachine m).subs, s.node.id = id := by
  apply visitAll_induction
    (P := fun v => ∀ id : StateId, id ∈ v.subIndex ↔ ∃ s ∈ v.subs, s.node.id = id)
  case hleaf =>
    intro v parent path node motion _ hv
    simpa only [addLeaf, noteIf_eq] using hv
  case hskip =>
    intro v path node hv
    simpa only [skip, noteIf_eq] using hv
  case henter =>
    intro v parent level path node border declares _ hv id
    simp only [enter, noteIf_eq, Std.HashMap.mem_insert, beq_iff_eq, hv id, Array.mem_push]
    constructor
    · rintro (hid | ⟨s, hs, hid⟩)
      · exact ⟨_, .inr rfl, hid⟩
      · exact ⟨s, .inl hs, hid⟩
    · rintro ⟨s, hs | rfl, hid⟩
      · exact .inr ⟨s, hs, hid⟩
      · exact .inl hid
  case hleave =>
    intro v i hv
    exact hv
  case hparent => simp
  case hv => simp

theorem mem_subIndex_iff (h : (ofMachine m cfg).outcome = .ok f) (id : StateId) :
    id ∈ f.subIndex ↔ ∃ n ∈ m.nested, n.1.id = id := by
  rw [(keeps_of_ofMachine h).1.subIndex, Survey.mem_subIndex_ofMachine,
    ← Survey.subParts_ofMachine, Survey.subParts]
  simp

theorem answers_resolveEntry (h : (ofMachine m cfg).outcome = .ok f) {k : Nat} {s : Sub}
    (hs : f.subs[k]? = some s) : f.Answers (.entry k) (f.resolveEntry s) := by
  rw [resolveEntry, (ofMachine_sound h).1.sub_index k s hs]
  cases hend : f.followEntry (f.subs.size + 1) k with
  | leaf leaf =>
      obtain ⟨n, hn⟩ := followEntry_eq_leaf_iff.mp hend
      exact .leads (.entry hn)
  | deadEnd =>
      obtain ⟨n, hn⟩ := followEntry_eq_deadEnd_iff.mp hend
      exact .fails (.deadEnd hs hn)
  | cycle => exact .fails (.cycle hs (followEntry_eq_cycle_iff.mp hend))

theorem answers_resolveTarget (h : (ofMachine m cfg).outcome = .ok f) (id : StateId) :
    f.Answers (.target id) (f.resolveTarget id) := by
  obtain ⟨hsound, hflattens, -⟩ := ofMachine_sound h
  rw [resolveTarget]
  cases hleaf : f.leafIndex[id]? with
  | some leaf => exact .leads (.leaf hleaf)
  | none =>
      cases hsub : f.subIndex[id]? with
      | some k =>
          have hs := Array.getElem?_eq_getElem (hsound.subIndex id k hsub)
          rw [Option.bind_some, hs]
          exact .leads (.machine hleaf hsub hs)
      | none =>
          refine .fails (.target ?_ ?_)
          · rw [hflattens.machine]
            intro l hl hid
            have hmem := (mem_leafIndex_iff h id).mpr ⟨l, hl, hid⟩
            simpa [hleaf] using Std.HashMap.mem_iff_isSome_getElem?.mp hmem
          · rw [hflattens.machine]
            intro n hn hid
            have hmem := (mem_subIndex_iff h id).mpr ⟨n, hn, hid⟩
            simpa [hsub] using Std.HashMap.mem_iff_isSome_getElem?.mp hmem

theorem answers_startLeaf (h : (ofMachine m cfg).outcome = .ok f) (hleaves : f.leaves ≠ #[]) :
    f.Answers f.machine.defaultReference f.startLeaf := by
  have hsome : ¬ f.leaves.isEmpty = true := by simpa using hleaves
  rw [startLeaf, if_neg hsome, Machine.defaultReference]
  cases hdefault : f.machine.defaultState with
  | some id => exact answers_resolveTarget h id
  | none => exact .fails (.noDefault hdefault)

section Flattening

variable (hcfg : cfg.strictResolution = false) (h : (ofMachine m cfg).outcome = .ok f)

include hcfg h in
theorem strict_eq_false : f.strict = false := by
  rw [(keeps_of_ofMachine h).2, hcfg]

include hcfg h in
theorem meets_resolveTarget (id : StateId) : f.Meets [.target id] (f.resolveTarget id) :=
  .of_failures ((answers_resolveTarget h id).failures (strict_eq_false hcfg h))

include hcfg h in
theorem meets_resolveTransitions (ts : List Transition) :
    f.Meets (targetsOf ts) (f.resolveTransitions ts) := by
  have hts : targetsOf ts = ts.flatMap fun t => [.target t.target] :=
    (List.flatMap_pure_eq_map _ ts).symm
  rw [hts]
  refine Meets.mapM (fun t => ?_) ts
  exact (meets_resolveTarget hcfg h t.target).bind_firm fun leaf => .nil

theorem map_transition_of_resolves {ts : List Transition} {rs : List Resolved}
    (h : List.Forall₂ f.Resolves ts rs) : rs.map (·.transition) = ts := by
  have heq : List.Forall₂ (· = ·) (rs.map (·.transition)) ts := by
    rw [List.forall₂_map_left_iff]
    exact h.flip.imp fun r t hr => hr.1
  rwa [List.forall₂_eq_eq_eq] at heq

/-- Looking for the exit group of a machine finds none, or resolves all its exit transitions. -/
theorem exitGroup?_cases (g : Flat) (warn : Bool) (s : Sub) : ∃ ns, Firm ns ∧
    (g.exitGroup? warn s = (do Report.tell ns; pure none) ∨
      ∃ leaves, g.exitGroup? warn s = (do
        Report.tell ns
        let transitions ← g.resolveTransitions s.border.exitTransitions
        pure (some ⟨s.index, leaves, transitions⟩))) := by
  unfold exitGroup?
  split
  · exact ⟨[], .nil, .inl rfl⟩
  · exact ⟨_, .ite rfl, .inl rfl⟩
  · exact ⟨_, .ite rfl, .inl rfl⟩
  · split
    · have hfirm : Firm (g.exitNotices s ++ [.noExitStates s.path]) :=
        (firm_exitNotices s).append (.singleton rfl)
      refine ⟨_, hfirm, .inl ?_⟩
      exact congrArg (Report.mk · (.ok none)) (List.append_assoc _ _ _).symm
    · exact ⟨_, firm_exitNotices s, .inr ⟨_, rfl⟩⟩

theorem failures_exitGroup? {g : Flat} {warn : Bool} {s : Sub} {x : Option ExitGroup}
    (hg : ∀ ts, f.Meets (targetsOf ts) (g.resolveTransitions ts))
    (hx : (g.exitGroup? warn s).outcome = .ok x) :
    f.Failures (x.toList.flatMap ExitGroup.references) (g.exitGroup? warn s).fallbacks := by
  obtain ⟨ns, hns, hnone | ⟨leaves, hsome⟩⟩ := g.exitGroup?_cases warn s
  · rw [hnone, Report.outcome_tell_bind] at hx
    obtain rfl := Report.outcome_pure_eq_ok.mp hx
    rw [hnone, Report.fallbacks_bind_pure]
    exact (Meets.of_firm hns).failures rfl
  · rw [hsome, Report.outcome_tell_bind] at hx
    obtain ⟨transitions, htransitions, hx⟩ := Report.outcome_bind_eq_ok.mp hx
    obtain rfl := Report.outcome_pure_eq_ok.mp hx
    have hsame := map_transition_of_resolves (resolveTransitions_eq_ok.mp htransitions)
    rw [hsome, Report.fallbacks_bind rfl, Report.fallbacks_bind_pure, hns.fallbacks_eq_nil]
    simpa [ExitGroup.references, hsame] using (hg _).failures htransitions

/-- What is met while a graph is flattened, pass by pass. -/
theorem fallbacks_ofMachine {f₁ f₂ : Flat} {i : Nat}
    (hclips : (Survey.ofMachine m).clipCount ≤ cfg.clipLimit)
    (hentries : (ofSurvey m cfg.strictResolution (Survey.ofMachine m)).withEntries.outcome = .ok f₁)
    (hgroups : (f₁.withExitGroups cfg.warnIncompleteExitGroups
      (Survey.ofMachine m).postOrder.toList).outcome = .ok f₂)
    (hi : f₂.startLeaf.outcome = .ok i) :
    (ofMachine m cfg).fallbacks =
      (ofSurvey m cfg.strictResolution (Survey.ofMachine m)).withEntries.fallbacks ++
      (f₁.withExitGroups cfg.warnIncompleteExitGroups
        (Survey.ofMachine m).postOrder.toList).fallbacks ++ f₂.startLeaf.fallbacks := by
  rw [ofMachine_eq, Report.fallbacks_tell_bind (Survey.firm_ofMachine m),
    if_neg (Nat.not_lt.mpr hclips), resolved, Report.fallbacks_bind hentries,
    Report.fallbacks_bind hgroups, Report.fallbacks_bind hi,
    Report.fallbacks_tell_bind (.singleton rfl), Report.fallbacks_pure, List.append_nil,
    List.append_assoc]

include hcfg h in
/-- Entries are resolved once the walk is over, which already has all that is read for it. -/
theorem failures_resolveEntry {s : Sub} (hs : s ∈ (Survey.ofMachine m).subs) :
    f.Failures [.entry s.index]
      ((ofSurvey m cfg.strictResolution (Survey.ofMachine m)).resolveEntry s).fallbacks := by
  obtain ⟨hkeeps, hstrict⟩ := keeps_of_ofMachine h
  obtain ⟨k, hk⟩ := Array.mem_iff_getElem?.mp hs
  have hmap : f.subs[k]?.map Sub.unentered = some s.unentered := by
    rw [← Array.getElem?_map, hkeeps.subs, Array.getElem?_map, hk, Option.map_some]
  obtain ⟨s', hs', heq⟩ := Option.map_eq_some_iff.mp hmap
  have hindex : s.index = k :=
    (congrArg Sub.index heq).symm.trans ((ofMachine_sound h).1.sub_index k s' hs')
  have hsame : (ofSurvey m cfg.strictResolution (Survey.ofMachine m)).resolveEntry s =
      f.resolveEntry s' :=
    (resolveEntry_congr hkeeps.subs hkeeps.leafIndex hkeeps.subIndex hstrict heq).symm
  rw [hsame, hindex]
  exact (answers_resolveEntry h hs').failures (strict_eq_false hcfg h)

include hcfg h in
theorem failures_withEntries {f₁ : Flat}
    (hentries : (ofSurvey m cfg.strictResolution (Survey.ofMachine m)).withEntries.outcome =
      .ok f₁) :
    f.Failures (f₁.subs.toList.map fun s => .entry s.index)
      (ofSurvey m cfg.strictResolution (Survey.ofMachine m)).withEntries.fallbacks := by
  rw [withEntries] at hentries ⊢
  obtain ⟨subs, hsubs, hf₁⟩ := Report.outcome_bind_eq_ok.mp hentries
  obtain rfl := Report.outcome_pure_eq_ok.mp hf₁
  rw [Report.fallbacks_bind_pure, ← List.flatMap_pure_eq_map]
  refine failures_mapM (fun s => [.entry s.index]) ?_ hsubs
  intro s hs s' hs'
  obtain ⟨entry, -, hs'⟩ := Report.outcome_bind_eq_ok.mp hs'
  obtain rfl := Report.outcome_pure_eq_ok.mp hs'
  rw [Report.fallbacks_bind_pure]
  exact failures_resolveEntry hcfg h (s := s) (Array.mem_toList_iff.mp hs)

/-- Exit groups are looked for in `f₁`, which resolves exit transitions as `f` does. -/
theorem failures_withExitGroups {f₁ f₂ : Flat} {warn : Bool} {postOrder : List Nat}
    (hmeets : ∀ ts, f.Meets (targetsOf ts) (f₁.resolveTransitions ts))
    (hgroups : (f₁.withExitGroups warn postOrder).outcome = .ok f₂) :
    f.Failures (f₂.exitGroups.toList.flatMap (·.references))
      (f₁.withExitGroups warn postOrder).fallbacks := by
  rw [withExitGroups] at hgroups ⊢
  obtain ⟨found, hfound, hf₂⟩ := Report.outcome_bind_eq_ok.mp hgroups
  obtain ⟨-, -, hf₂⟩ := Report.outcome_bind_eq_ok.mp hf₂
  obtain rfl := Report.outcome_pure_eq_ok.mp hf₂
  have hrefs : (found.filterMap id).flatMap (·.references) =
      found.flatMap fun x => x.toList.flatMap ExitGroup.references := by
    rw [List.filterMap_eq_flatMap_toList, List.flatMap_assoc]
    rfl
  rw [Report.fallbacks_bind hfound, Report.fallbacks_tell_bind (firm_claimAll _ _),
    Report.fallbacks_pure, List.append_nil, hrefs]
  exact failures_mapM _ (fun s _ x => failures_exitGroup? hmeets) hfound

include hcfg h in
theorem failures_startLeaf :
    f.Failures (if f.leaves.isEmpty then [] else [f.machine.defaultReference])
      f.startLeaf.fallbacks := by
  split
  · next hempty =>
    rw [startLeaf, if_pos hempty]
    exact .nil
  · next hleaves =>
    exact (answers_startLeaf h (by simpa using hleaves)).failures (strict_eq_false hcfg h)

include hcfg h in
/-- Flattening falls back where a reference fails that is resolved while it is under way. -/
theorem failures_ofMachine : f.Failures f.inward (ofMachine m cfg).fallbacks := by
  obtain ⟨hclips, f₁, f₂, i, hf₁, hf₂, hi, hf⟩ := ofMachine_eq_ok h
  have hexits : f.exitGroups = f₂.exitGroups := by rw [hf]
  have hstart : f.startLeaf = f₂.startLeaf := by
    rw [hf]
    rfl
  obtain ⟨hsubs, hresolve⟩ :
      f.subs = f₁.subs ∧ f.resolveTransitions = f₁.resolveTransitions := by
    obtain ⟨found, -, rfl⟩ := withExitGroups_eq_ok hf₂
    rw [hf]
    exact ⟨rfl, rfl⟩
  rw [fallbacks_ofMachine hclips hf₁ hf₂ hi, ← hstart, inward, hsubs, hexits]
  refine ((failures_withEntries hcfg h hf₁).append ?_).append (failures_startLeaf hcfg h)
  refine failures_withExitGroups ?_ hf₂
  rw [← hresolve]
  exact meets_resolveTransitions hcfg h

include h in
theorem startLeaf_of_ofMachine : f.startLeaf.outcome = .ok f.defaultLeaf := by
  obtain ⟨-, f₁, f₂, i, -, -, hi, rfl⟩ := ofMachine_eq_ok h
  exact hi

include hcfg h in
theorem settles_of_ofMachine : f.Settles := by
  have htarget := answers_resolveTarget h
  constructor
  case entries =>
    intro k s hs
    exact (answers_resolveEntry h hs).takes (resolveEntry_of_ofMachine h (Array.mem_of_getElem? hs))
  case exits =>
    intro g hg x hx
    obtain ⟨s, -, hresolves⟩ := ((ofMachine_sound h).1.groups g hg).transitions
    obtain ⟨t, -, rfl, hleaf⟩ := exists_related_of_mem_right hresolves hx
    exact (htarget _).takes hleaf
  case start =>
    intro hleaves
    exact (answers_startLeaf h hleaves).takes (startLeaf_of_ofMachine h)
  case targets =>
    intro id
    obtain ⟨leaf, hleaf⟩ := (htarget id).exists_ok (strict_eq_false hcfg h)
    exact ⟨leaf, hleaf, (htarget id).takes hleaf⟩

include h in
/-- No reference both leads to a leaf and fails. -/
theorem Leads.not_fails {ref : Reference} {leaf : Nat} {e : BakeError} (hleads : f.Leads ref leaf) :
    ¬ f.Fails ref e := by
  have hmachine := (ofMachine_sound h).2.1.machine
  intro hfails
  cases hleads with
  | entry hn =>
      have hleaf := followEntry_eq_leaf_iff.mpr ⟨_, hn⟩
      cases hfails with
      | deadEnd hs hk =>
          cases hleaf.symm.trans (followEntry_eq_deadEnd_iff.mpr ⟨_, hk⟩)
      | cycle hs hk => cases hleaf.symm.trans (followEntry_eq_cycle_iff.mpr hk)
  | @leaf id leaf hleaf =>
      obtain ⟨l, hl, hid⟩ := (mem_leafIndex_iff h id).mp
        (Std.HashMap.mem_iff_isSome_getElem?.mpr (by simp [hleaf]))
      cases hfails with
      | target hleaves _ => exact hleaves l (hmachine ▸ hl) hid
  | @machine id k s hleaf hk hs =>
      obtain ⟨n, hn, hid⟩ := (mem_subIndex_iff h id).mp
        (Std.HashMap.mem_iff_isSome_getElem?.mpr (by simp [hk]))
      cases hfails with
      | target _ hnested => exact hnested n (hmachine ▸ hn) hid

include h in
theorem Failures.eq_nil_iff {rs : List Reference} {es : List BakeError} (hrs : f.Failures rs es) :
    es = [] ↔ ∀ r ∈ rs, ∀ e, ¬ f.Fails r e := by
  induction hrs with
  | nil => simp
  | leads hleads _ ih =>
      rw [ih, List.forall_mem_cons]
      exact ⟨fun hall => ⟨fun e => hleads.not_fails h, hall⟩, fun hall => hall.2⟩
  | fails hfails _ ih =>
      constructor
      · rintro ⟨⟩
      · intro hall
        exact absurd hfails (hall _ List.mem_cons_self _)

end Flattening

end Flat

namespace Draft

open Parameter (Table)

variable {f : Flat} {t : Table} {m : Machine} {cfg : Config}
  (hcfg : cfg.strictResolution = false) (h : (Flat.ofMachine m cfg).outcome = .ok f)

include hcfg h

theorem meets_state (l : Flat.Leaf) :
    f.Meets (Flat.targetsOf l.node.transitions) (State.ofLeaf f t l) := by
  have hspeed := fun context => Hardens.optionMapM
    (fun name => Table.hardens_resolve (t := t) name .float context) l.node.speedParameter
  refine .firm_bind ((hspeed _).firm rfl) fun speedParameter _ => ?_
  refine .firm_bind ((hardens_motion _ _ _).firm rfl) fun motion _ => ?_
  refine .firm_bind (firm_durationNotices _ _) fun _ _ => ?_
  refine .firm_bind (.ite rfl) fun _ _ => ?_
  refine (Flat.meets_resolveTransitions hcfg h l.node.transitions).bind_firm fun resolved => ?_
  exact ((Hardens.mapM_id (hardens_edge _ false) resolved).firm rfl).bind_pure _

theorem meets_anyEdges :
    f.Meets (if f.leaves.isEmpty then [] else
      Flat.targetsOf (f.machine.anyTransitions.map (·.transition))) (anyEdges f t) := by
  have htargets : Flat.targetsOf (f.machine.anyTransitions.map (·.transition)) =
      f.machine.anyTransitions.flatMap fun any => [.target any.transition.target] := by
    rw [Flat.targetsOf, List.map_map, ← List.flatMap_pure_eq_map]
    rfl
  have hmeets : f.Meets (Flat.targetsOf (f.machine.anyTransitions.map (·.transition)))
      (f.machine.anyTransitions.mapM fun any => do
        let leaf ← f.resolveTarget any.transition.target
        Edge.ofResolved t "any-state transition" any.allowSelf ⟨leaf, any.transition⟩) := by
    rw [htargets]
    refine Flat.Meets.mapM (fun any => ?_) _
    refine (Flat.meets_resolveTarget hcfg h any.transition.target).bind_firm fun leaf => ?_
    exact (hardens_edge _ any.allowSelf ⟨leaf, any.transition⟩).firm rfl
  rw [anyEdges]
  cases f.leaves.isEmpty with
  | false => exact hmeets
  | true =>
      refine .of_firm ?_
      cases f.machine.anyTransitions with
      | nil => exact .nil
      | cons any ts => exact .singleton rfl

theorem meets_ofFlat : f.Meets f.outward (ofFlat f t) := by
  have hexits := Hardens.mapM_id (hardens_exit (f := f) (t := t)) f.exitGroups.toList
  refine (Flat.Meets.mapM (meets_state hcfg h) _).bind fun states _ => ?_
  refine (meets_anyEdges hcfg h).bind_firm fun anyTransitions => ?_
  exact (hexits.firm rfl).bind_pure _

end Draft

/-- Lenient flattening only fails for the number of clips, before any reference is resolved. -/
theorem Flat.fallbacks_of_error {m : Machine} {cfg : Config} {e : BakeError}
    (hcfg : cfg.strictResolution = false) (h : (ofMachine m cfg).outcome = .error e) :
    (ofMachine m cfg).fallbacks = [] := by
  have hclips : (Survey.ofMachine m).clipCount > cfg.clipLimit := by
    by_contra hclips
    obtain ⟨f, hf⟩ := exists_ofMachine_eq_ok hcfg (Nat.not_lt.mp hclips)
    rw [h] at hf
    cases hf
  rw [ofMachine_eq, Report.fallbacks_tell_bind (Survey.firm_ofMachine m), if_pos hclips]
  rfl

namespace Machine

open Parameter (Table)

variable {m : Machine} {ps : List Parameter} {cfg : Config} (hcfg : cfg.strictResolution = false)

include hcfg

/-- A lenient bake falls back where a reference fails, among those that it gets to. -/
theorem exists_met_of_bakeWith {t : Table} {f : Flat} (ht : (Table.build ps).outcome = .ok t)
    (hf : (Flat.ofMachine m cfg).outcome = .ok f) : ∃ met,
      f.inward <+: met ∧ met <+: f.inward ++ f.outward ∧
      f.Failures met (m.bakeWith ps cfg).fallbacks ∧
      ∀ b, (m.bakeWith ps cfg).outcome = .ok b → met = f.inward ++ f.outward := by
  have hbuild : Firm (Table.build ps).notices := (Table.hardens_build ps).firm rfl
  have hmeets : f.Meets f.outward (Draft.ofFlat f t >>= Draft.pack) :=
    (Draft.meets_ofFlat hcfg hf).bind_firm fun d => (Draft.hardens_pack d).firm rfl
  obtain ⟨done, rest, houtward, hdone, hrest⟩ := hmeets
  refine ⟨f.inward ++ done, List.prefix_append _ _, ?_, ?_, ?_⟩
  · rw [houtward, ← List.append_assoc]
    exact List.prefix_append _ _
  · rw [bakeWith, Report.fallbacks_bind ht, hbuild.fallbacks_eq_nil, Report.fallbacks_bind hf]
    exact (Flat.failures_ofMachine hcfg hf).append hdone
  · intro b hb
    rw [bakeWith, Report.outcome_bind, ht, Except.bind, Report.outcome_bind, hf] at hb
    rw [houtward, hrest b hb, List.append_nil]

theorem fallbacks_bakeWith_of_error {e : BakeError}
    (h : (Table.build ps).outcome = .error e ∨ (Flat.ofMachine m cfg).outcome = .error e) :
    (m.bakeWith ps cfg).fallbacks = [] := by
  have hbuild : Firm (Table.build ps).notices := (Table.hardens_build ps).firm rfl
  rw [bakeWith]
  cases ht : (Table.build ps).outcome with
  | error _ => rw [Report.fallbacks_bind_of_error ht, hbuild.fallbacks_eq_nil]
  | ok t =>
      obtain hf := h.resolve_left (by simp [ht])
      rw [Report.fallbacks_bind ht, hbuild.fallbacks_eq_nil, Report.fallbacks_bind_of_error hf,
        Flat.fallbacks_of_error hcfg hf, List.append_nil]

omit hcfg

/-- A strict bake comes to the same as the lenient one if that never falls back, and else it fails
with the error of the first fallback. No lenient bake fails for a reference from state to state. It
falls back where a reference leads nowhere, for which it takes leaf 0, and nowhere else. -/
theorem bakeWith_strict (m : Machine) (ps : List Parameter) (cfg : Config) :
    ((m.bakeWith ps { cfg with strictResolution := false }).fallback? = none →
      (m.bakeWith ps { cfg with strictResolution := true }).outcome =
        (m.bakeWith ps { cfg with strictResolution := false }).outcome) ∧
    (∀ e, (m.bakeWith ps { cfg with strictResolution := false }).fallback? = some e →
      (m.bakeWith ps { cfg with strictResolution := true }).outcome = .error e) ∧
    (∀ b, (m.bakeWith ps { cfg with strictResolution := true }).outcome = .ok b →
      (m.bakeWith ps { cfg with strictResolution := false }).outcome = .ok b) ∧
    (∀ e, (m.bakeWith ps { cfg with strictResolution := false }).outcome = .error e →
      e.isReference = false) ∧
    (m.bakeWith ps { cfg with strictResolution := false }).fallbacks.head? =
      (m.bakeWith ps { cfg with strictResolution := false }).fallback? ∧
    (∀ t f, (Table.build ps).outcome = .ok t →
      (Flat.ofMachine m { cfg with strictResolution := false }).outcome = .ok f →
        f.Settles ∧ ∃ met, f.inward <+: met ∧ met <+: f.inward ++ f.outward ∧
          f.Failures met (m.bakeWith ps { cfg with strictResolution := false }).fallbacks ∧
          ((m.bakeWith ps { cfg with strictResolution := false }).fallback? = none ↔
            ∀ ref ∈ met, ∀ e, ¬ f.Fails ref e) ∧
          ∀ b, (m.bakeWith ps { cfg with strictResolution := false }).outcome = .ok b →
            met = f.inward ++ f.outward) ∧
    ∀ e, (Table.build ps).outcome = .error e ∨
      (Flat.ofMachine m { cfg with strictResolution := false }).outcome = .error e →
        (m.bakeWith ps { cfg with strictResolution := false }).fallbacks = [] := by
  have h := hardens_bakeWith m ps cfg
  have hhead := (m.bakeWith ps { cfg with strictResolution := false }).head?_fallbacks
  have hsame : (m.bakeWith ps { cfg with strictResolution := false }).fallback? = none →
      (m.bakeWith ps { cfg with strictResolution := true }).outcome =
        (m.bakeWith ps { cfg with strictResolution := false }).outcome := by
    intro hnone
    rw [h.outcome_eq hnone, Except.map_id]
    rfl
  refine ⟨hsame, fun e => h.outcome_eq_error, ?_, fun e => h.error_of_lenient, hhead, ?_,
    fun e => fallbacks_bakeWith_of_error rfl⟩
  · intro b hb
    cases hfell : (m.bakeWith ps { cfg with strictResolution := false }).fallback? with
    | none => rw [← hsame hfell, hb]
    | some e =>
        rw [h.outcome_eq_error hfell] at hb
        cases hb
  · intro t f ht hf
    obtain ⟨met, hinward, hall, hfailures, hok⟩ := exists_met_of_bakeWith rfl ht hf
    refine ⟨Flat.settles_of_ofMachine rfl hf, met, hinward, hall, hfailures, ?_, hok⟩
    rw [← hhead, List.head?_eq_none_iff]
    exact hfailures.eq_nil_iff hf

/-- A machine with a state that leads to one that is not there, beside a nested machine that is its
own entry, and without a default state. -/
def stray : Machine where
  name := "stray"
  states :=
    [.leaf { id := 1, name := "rest", transitions := [{ target := 9 }] } (.clip ⟨"rest", 1⟩),
     .container { id := 4, name := "loop" } { entry := some 4 } (some { name := "loop" })]

theorem bakeWith_stray : ∃ b,
    (stray.bakeWith [] { strictResolution := false }).outcome = .ok b ∧
      (stray.bakeWith [] { strictResolution := false }).fallbacks =
        [.entryCycle "stray/loop", .missingDefault, .unresolvedTarget 9] := by
  open SmallBakes in
  simp [stray, Report.fallbacks, Notice.fallback?, -String.reduceAppend]
  exact ⟨⟨_, rfl⟩, by decide, by decide +kernel⟩

theorem bakeWith_strict_stray : ∃ b f,
    (stray.bakeWith [] { strictResolution := false }).outcome = .ok b ∧
      (stray.bakeWith [] { strictResolution := true }).outcome =
        .error (.entryCycle "stray/loop") ∧
      (Flat.ofMachine stray { strictResolution := false }).outcome = .ok f ∧ f.Settles ∧
      f.Failures (f.inward ++ f.outward)
        [.entryCycle "stray/loop", .missingDefault, .unresolvedTarget 9] := by
  obtain ⟨b, hb, hfallbacks⟩ := bakeWith_stray
  obtain ⟨t, ht, hrest⟩ := Report.outcome_bind_eq_ok.mp hb
  obtain ⟨f, hf, -⟩ := Report.outcome_bind_eq_ok.mp hrest
  obtain ⟨-, hstrict, -, -, hhead, hmet, -⟩ := bakeWith_strict stray [] {}
  obtain ⟨hsettles, met, -, -, hfailures, -, hall⟩ := hmet t f ht hf
  rw [hall b hb, hfallbacks] at hfailures
  rw [hfallbacks] at hhead
  exact ⟨b, f, hb, hstrict _ hhead.symm, hf, hsettles, hfailures⟩

end Machine

end PoseMachine
