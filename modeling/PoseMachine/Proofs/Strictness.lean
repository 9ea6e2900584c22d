import PoseMachine.Bake.Pack
import PoseMachine.Proofs.Fallbacks
import PoseMachine.Proofs.Flattening

/-!
Strict and lenient resolution. A strict bake goes the way of the lenient one up to the first
fallback, and fails there with the error that the lenient one passes over.
-/

namespace PoseMachine

open BakeError (Plain)
open Report (Hardens Firm)

variable {E : BakeError → Prop}

namespace Flat

/-- The same graph, its references resolved strictly. -/
def hardened (f : Flat) : Flat := { f with strict := true }

theorem hardens_fallBack {e : BakeError} (he : e.isReference = true) :
    Hardens E id (fallBack false e) (fallBack true e) :=
  .fell .nil he (by rintro _ ⟨⟩)

variable {f : Flat}

theorem followEntry_hardened (n sub : Nat) :
    f.hardened.followEntry n sub = f.followEntry n sub := by
  induction n generalizing sub with
  | zero => rfl
  | succ n ih =>
      rw [followEntry, followEntry]
      simp only [ih]
      rfl

theorem encloses_hardened (sub n : Nat) (inner : Option Nat) :
    f.hardened.encloses sub n inner = f.encloses sub n inner := by
  induction n generalizing inner with
  | zero => cases inner <;> rfl
  | succ n ih =>
      cases inner with
      | none => rfl
      | some inner =>
          rw [encloses, encloses, ih]
          rfl

theorem exitState_hardened (sub : Nat) (id : StateId) :
    f.hardened.exitState sub id = f.exitState sub id := by
  have hinside : ∀ leaf, f.hardened.isInside? leaf sub = f.isInside? leaf sub := by
    intro leaf
    simp only [isInside?, encloses_hardened]
    rfl
  simp only [exitState, hinside]
  rfl

theorem hardens_resolveEntry (hf : f.strict = false) (s : Sub) :
    Hardens E id (f.resolveEntry s) (f.hardened.resolveEntry s) := by
  have hchain : f.hardened.followEntry (f.hardened.subs.size + 1) s.index =
      f.followEntry (f.subs.size + 1) s.index := followEntry_hardened _ _
  simp only [resolveEntry, hchain, hf]
  cases f.followEntry (f.subs.size + 1) s.index with
  | leaf leaf => exact .pure leaf
  | deadEnd => exact hardens_fallBack rfl
  | cycle => exact hardens_fallBack rfl

theorem hardens_resolveTarget (hf : f.strict = false) (target : StateId) :
    Hardens E id (f.resolveTarget target) (f.hardened.resolveTarget target) := by
  simp only [resolveTarget, hardened, hf]
  cases f.leafIndex[target]? with
  | some leaf => exact .pure leaf
  | none =>
      cases f.subIndex[target]?.bind (f.subs[·]?) with
      | some s => exact .pure s.entry
      | none => exact hardens_fallBack rfl

theorem hardens_resolveTransitions (hf : f.strict = false) (ts : List Transition) :
    Hardens E id (f.resolveTransitions ts) (f.hardened.resolveTransitions ts) := by
  refine .mapM_id (fun t => ?_) ts
  refine (hardens_resolveTarget hf t.target).bind fun leaf _ => ?_
  exact .pure (⟨leaf, t⟩ : Resolved)

theorem hardens_withEntries (hf : f.strict = false) :
    Hardens E hardened f.withEntries f.hardened.withEntries := by
  refine Hardens.bind (g := id) ?_ fun subs _ => ?_
  · refine .mapM_id (fun s => ?_) f.subs.toList
    refine (hardens_resolveEntry hf s).bind fun entry _ => ?_
    exact .pure { s with entry }
  · exact .pure { f with subs := subs.toArray }

theorem firm_exitNotices (s : Sub) : Firm (f.exitNotices s) := by
  refine .filterMap ?_
  intro target n hn
  cases hstate : f.exitState s.index target with
  | inside leaf => simp [hstate] at hn
  | outside =>
      obtain rfl : .exitStateOutside target s.path = n := by simpa [hstate] using hn
      rfl
  | notLeaf =>
      obtain rfl : .exitStateNotLeaf target s.path = n := by simpa [hstate] using hn
      rfl

theorem exitNotices_hardened (s : Sub) : f.hardened.exitNotices s = f.exitNotices s := by
  simp only [exitNotices, exitState_hardened]

theorem exitLeaves_hardened (sub : Nat) (ids : List StateId) :
    f.hardened.exitLeaves sub ids = f.exitLeaves sub ids := by
  simp only [exitLeaves, exitState_hardened]

theorem hardens_exitGroup? (hf : f.strict = false) (warn : Bool) (s : Sub) :
    Hardens E id (f.exitGroup? warn s) (f.hardened.exitGroup? warn s) := by
  unfold exitGroup?
  split
  · exact .pure none
  · exact (Hardens.tell (.ite rfl)).bind fun _ _ => .pure none
  · exact (Hardens.tell (.ite rfl)).bind fun _ _ => .pure none
  · rw [exitNotices_hardened, exitLeaves_hardened]
    refine (Hardens.tell (firm_exitNotices s)).bind fun _ _ => ?_
    split
    · exact (Hardens.tell (.singleton rfl)).bind fun _ _ => .pure none
    · refine (hardens_resolveTransitions hf _).bind fun transitions _ => ?_
      exact .pure (some (_ : ExitGroup))

theorem firm_claimAll (groups : List ExitGroup) (leaves : Array Leaf) :
    Firm (claimAll groups leaves).2.toList := by
  unfold claimAll
  refine List.foldlRecOn (motive := fun acc : Array Leaf × Array Notice => Firm acc.2.toList)
    _ _ .nil ?_
  rintro acc hacc x -
  refine List.foldlRecOn (motive := fun acc : Array Leaf × Array Notice => Firm acc.2.toList)
    _ _ hacc ?_
  rintro acc hacc leaf -
  unfold claim
  split
  · exact hacc
  · split
    · exact hacc
    · simp only [Array.toList_push]
      exact hacc.append (.singleton rfl)

theorem hardens_withExitGroups (hf : f.strict = false) (warn : Bool) (postOrder : List Nat) :
    Hardens E hardened (f.withExitGroups warn postOrder)
      (f.hardened.withExitGroups warn postOrder) := by
  refine Hardens.bind (g := id) (.mapM_id (hardens_exitGroup? hf warn) _) fun groups _ => ?_
  refine (Hardens.tell (firm_claimAll _ _)).bind fun _ _ => ?_
  exact .pure { f with
    leaves := (claimAll (groups.filterMap id) f.leaves).1
    exitGroups := (groups.filterMap id).toArray }

theorem hardens_startLeaf (hf : f.strict = false) :
    Hardens E id f.startLeaf f.hardened.startLeaf := by
  simp only [startLeaf, hardened, hf]
  by_cases hempty : f.leaves.isEmpty = true
  · simp only [hempty, if_true]
    exact .pure 0
  · simp only [hempty]
    cases f.machine.defaultState with
    | some target => exact hardens_resolveTarget hf target
    | none => exact hardens_fallBack rfl

namespace Survey

theorem firm_noteIf {v : Survey} (hv : Firm v.notices.toList) (c : Bool) {n : Notice}
    (hn : n.fallback? = none) : Firm (v.noteIf c n).notices.toList := by
  cases c with
  | true =>
      change Firm (v.notices.push n).toList
      rw [Array.toList_push]
      exact hv.append (.singleton hn)
  | false => exact hv

theorem firm_ofMachine (m : Machine) : Firm (ofMachine m).notices.toList := by
  apply visitAll_induction (P := fun v => Firm v.notices.toList)
  case hleaf =>
    intro v parent path node motion _ hv
    exact firm_noteIf hv _ rfl
  case hskip =>
    intro v path node hv
    exact firm_noteIf (firm_noteIf hv _ rfl) _ rfl
  case henter =>
    intro v parent level path node border declares _ hv
    exact firm_noteIf (firm_noteIf hv _ rfl) _ rfl
  case hleave =>
    intro v i hv
    exact hv
  case hparent => simp
  case hv => exact .nil

end Survey

/-- A survey of `m` with every reference resolved. -/
def resolved (m : Machine) (cfg : Config) (v : Survey) : Report Flat := do
  let f ← (ofSurvey m cfg.strictResolution v).withEntries
  let f ← f.withExitGroups cfg.warnIncompleteExitGroups v.postOrder.toList
  let defaultLeaf ← f.startLeaf
  Report.tell [.flattened m.name f.leaves.size f.subs.size f.clipCount f.exitGroups.size]
  pure { f with defaultLeaf }

theorem ofMachine_eq (m : Machine) (cfg : Config) : ofMachine m cfg = (do
    Report.tell (Survey.ofMachine m).notices.toList
    if (Survey.ofMachine m).clipCount > cfg.clipLimit then
      Report.fail (.clipOverflow m.name (Survey.ofMachine m).clipCount cfg.clipLimit)
        (.clipOverflow (Survey.ofMachine m).clipCount cfg.clipLimit)
    else resolved m cfg (Survey.ofMachine m)) :=
  rfl

variable {m : Machine} {cfg : Config}

/-- Once its clips are counted, a graph can be flattened unless a reference is strict. -/
theorem hardens_resolved (hcfg : cfg.strictResolution = false) (v : Survey) :
    Hardens E hardened (resolved m cfg v)
      (resolved m { cfg with strictResolution := true } v) := by
  rw [resolved, resolved, hcfg]
  refine (hardens_withEntries rfl).bind fun f hf => ?_
  have hstrict : f.strict = false := by
    obtain ⟨subs, rfl, -⟩ := withEntries_eq_ok hf
    rfl
  refine (hardens_withExitGroups hstrict _ _).bind fun g hg => ?_
  have hstrict : g.strict = false := by
    obtain ⟨found, -, rfl⟩ := withExitGroups_eq_ok hg
    exact hstrict
  refine (hardens_startLeaf hstrict).bind fun defaultLeaf _ => ?_
  refine (Hardens.tell (.singleton rfl)).bind fun _ _ => ?_
  exact .pure { g with defaultLeaf }

/-- Nothing but a strict reference keeps a graph with its clips counted from being flattened. -/
theorem isReference_of_resolved {v : Survey} {e : BakeError}
    (h : (resolved m cfg v).outcome = .error e) : e.isReference = true := by
  -- The lenient steps have no error of their own, so every error is that of a reference.
  have hstrict : Hardens (fun _ => False) hardened
      (resolved m { cfg with strictResolution := false } v)
      (resolved m { cfg with strictResolution := true } v) := hardens_resolved rfl v
  cases hcfg : cfg.strictResolution with
  | false =>
      have hsame : cfg = { cfg with strictResolution := false } := by rw [← hcfg]
      rw [hsame] at h
      exact (hstrict.error_of_lenient h).elim
  | true =>
      have hsame : cfg = { cfg with strictResolution := true } := by rw [← hcfg]
      rw [hsame] at h
      exact (hstrict.error_of_strict h).resolve_left id

/-- A graph whose clips fit is always flattened leniently. -/
theorem exists_ofMachine_eq_ok (hcfg : cfg.strictResolution = false)
    (hclips : (Survey.ofMachine m).clipCount ≤ cfg.clipLimit) :
    ∃ f, (ofMachine m cfg).outcome = .ok f := by
  rw [ofMachine_eq, Report.outcome_tell_bind, if_neg (Nat.not_lt.mpr hclips)]
  have hlenient : Hardens (fun _ => False) hardened (resolved m cfg (Survey.ofMachine m))
      (resolved m { cfg with strictResolution := true } (Survey.ofMachine m)) :=
    hardens_resolved hcfg _
  cases h : (resolved m cfg (Survey.ofMachine m)).outcome with
  | ok f => exact ⟨f, rfl⟩
  | error e => exact (hlenient.error_of_lenient h).elim

theorem hardens_ofMachine (hcfg : cfg.strictResolution = false)
    (hE : ∀ count limit, E (.clipOverflow count limit)) :
    Hardens E hardened (ofMachine m cfg)
      (ofMachine m { cfg with strictResolution := true }) := by
  rw [ofMachine_eq, ofMachine_eq]
  refine (Hardens.tell (Survey.firm_ofMachine m)).bind fun _ _ => ?_
  change Hardens E hardened (if _ > cfg.clipLimit then _ else _)
    (if _ > cfg.clipLimit then _ else _)
  split
  · exact .fail rfl (hE _ _)
  · exact hardens_resolved hcfg _

end Flat

section Parameters

open Parameter (Table)

variable {t : Table}

theorem Parameter.Table.hardens_build (ps : List Parameter) :
    Hardens Plain id (build ps) (build ps) := by
  rw [build]
  cases addAll {} ps with
  | ok t => exact .pure t
  | error r => cases r <;> exact .fail rfl rfl

theorem Parameter.Table.hardens_resolve (name : String) (kind : Kind) (context : String) :
    Hardens Plain id (t.resolve name kind context) (t.resolve name kind context) := by
  unfold resolve
  split
  · split
    · exact .pure _
    · exact .fail rfl rfl
  · exact .fail rfl rfl

theorem Parameter.Table.hardens_resolveNumeric (name context : String) :
    Hardens Plain id (t.resolveNumeric name context) (t.resolveNumeric name context) := by
  unfold resolveNumeric
  split
  · exact .fail rfl rfl
  · exact .pure _
  · exact .fail rfl rfl

end Parameters

namespace Draft

open Parameter (Table)

variable {t : Table} {f : Flat}

theorem hardens_edge (context : String) (allowSelf : Bool) (r : Flat.Resolved) :
    Hardens Plain id (Edge.ofResolved t context allowSelf r)
      (Edge.ofResolved t context allowSelf r) := by
  refine Hardens.bind (g := id) (.mapM_id (fun c => ?_) _) fun boolTests _ => ?_
  · refine (Table.hardens_resolve c.parameter .bool context).bind fun parameter _ => ?_
    exact .pure (⟨parameter, c.value⟩ : Baked.BoolTest)
  refine Hardens.bind (g := id) (.mapM_id (fun c => ?_) _) fun intTests _ => ?_
  · refine (Table.hardens_resolve c.parameter .int context).bind fun parameter _ => ?_
    exact .pure (⟨parameter, c.comparator, c.value⟩ : Baked.IntTest)
  exact .pure (_ : Edge)

theorem hardens_motion (context : String) (offset : Nat) (m : PoseMachine.Motion) :
    Hardens Plain id (Motion.ofAuthored t context offset m)
      (Motion.ofAuthored t context offset m) := by
  cases m with
  | clip c => exact .pure (Motion.clip offset.toUInt16)
  | line parameter clips =>
      refine (Table.hardens_resolveNumeric parameter context).bind fun parameter _ => ?_
      exact .pure (Motion.line parameter (lineEntries offset clips))
  | plane parameterX parameterY method clips =>
      refine (Table.hardens_resolve parameterX .float context).bind fun x _ => ?_
      refine (Table.hardens_resolve parameterY .float context).bind fun y _ => ?_
      exact .pure (Motion.plane x y method (planeEntries offset clips))

theorem firm_durationNotices (path : String) (clips : List Clip) :
    Firm (durationNotices path clips) := by
  refine .filterMap ?_
  intro c n hn
  split at hn
  · cases hn
  · obtain rfl := Option.some.inj hn
    rfl

theorem hardens_state (hf : f.strict = false) (l : Flat.Leaf) :
    Hardens Plain id (State.ofLeaf f t l) (State.ofLeaf f.hardened t l) := by
  refine Hardens.bind (g := id) (.optionMapM (fun name => ?_) _) fun speedParameter _ => ?_
  · exact Table.hardens_resolve name .float _
  refine (hardens_motion _ l.clipOffset l.motion).bind fun motion _ => ?_
  refine (Hardens.tell (firm_durationNotices l.path l.motion.clips)).bind fun _ _ => ?_
  refine (Hardens.tell (.ite rfl)).bind fun _ _ => ?_
  refine (Flat.hardens_resolveTransitions hf l.node.transitions).bind fun resolved _ => ?_
  refine (Hardens.mapM_id (hardens_edge _ false) resolved).bind fun transitions _ => ?_
  exact .pure (_ : State)

theorem hardens_anyEdges (hf : f.strict = false) :
    Hardens Plain id (anyEdges f t) (anyEdges f.hardened t) := by
  rw [anyEdges, anyEdges]
  change Hardens Plain id _ (if f.leaves.isEmpty && !f.machine.anyTransitions.isEmpty then _ else _)
  split
  · refine (Hardens.tell (.singleton rfl)).bind fun _ _ => ?_
    exact .pure []
  · refine .mapM_id (fun any => ?_) f.machine.anyTransitions
    refine (Flat.hardens_resolveTarget hf any.transition.target).bind fun leaf _ => ?_
    exact hardens_edge _ any.allowSelf ⟨leaf, any.transition⟩

theorem hardens_exit (g : Flat.ExitGroup) :
    Hardens Plain id (Exit.ofGroup f t g) (Exit.ofGroup f.hardened t g) := by
  refine (Hardens.mapM_id (hardens_edge _ false) g.transitions).bind fun transitions _ => ?_
  exact .pure (_ : Exit)

theorem hardens_ofFlat (hf : f.strict = false) :
    Hardens Plain id (ofFlat f t) (ofFlat f.hardened t) := by
  refine (Hardens.mapM_id (hardens_state hf) f.leaves.toList).bind fun states _ => ?_
  refine (hardens_anyEdges hf).bind fun anyTransitions _ => ?_
  refine (Hardens.mapM_id hardens_exit f.exitGroups.toList).bind fun exits _ => ?_
  exact .pure (_ : Draft)

end Draft

namespace Baked

theorem hardens_make (start len : Nat) :
    Hardens Plain id (Span.make start len) (Span.make start len) := by
  unfold Span.make
  split
  · exact .pure _
  · exact .fail rfl rfl

theorem hardens_addEdge (b : Baked) (e : Draft.Edge) :
    Hardens Plain id (b.addEdge e) (b.addEdge e) := by
  refine (hardens_make _ _).bind fun boolTests _ => ?_
  refine (hardens_make _ _).bind fun intTests _ => ?_
  refine (hardens_make _ _).bind fun curve _ => ?_
  exact .pure (_ : Baked)

theorem hardens_addEdges (b : Baked) (es : List Draft.Edge) :
    Hardens Plain id (b.addEdges es) (b.addEdges es) := by
  refine (hardens_make _ _).bind fun span _ => ?_
  refine (Hardens.foldlM hardens_addEdge es b).bind fun b _ => ?_
  exact .pure (b, span)

theorem hardens_addMotion (b : Baked) (m : Draft.Motion) :
    Hardens Plain id (b.addMotion m) (b.addMotion m) := by
  cases m with
  | clip clip => exact .pure (_ : Baked × StateKind × Nat)
  | line parameter clips =>
      refine (hardens_make _ _).bind fun span _ => ?_
      exact .pure (_ : Baked × StateKind × Nat)
  | plane parameterX parameterY method clips =>
      refine (hardens_make _ _).bind fun span _ => ?_
      exact .pure (_ : Baked × StateKind × Nat)

theorem hardens_addState (b : Baked) (s : Draft.State) :
    Hardens Plain id (b.addState s) (b.addState s) := by
  refine (hardens_addMotion b s.motion).bind fun added _ => ?_
  refine (hardens_addEdges _ s.transitions).bind fun edges _ => ?_
  exact .pure (_ : Baked)

theorem hardens_addExit (b : Baked) (e : Draft.Exit) :
    Hardens Plain id (b.addExit e) (b.addExit e) := by
  refine (hardens_make _ _).bind fun states _ => ?_
  refine (hardens_addEdges _ e.transitions).bind fun edges _ => ?_
  exact .pure (_ : Baked)

end Baked

theorem Draft.hardens_pack (d : Draft) : Hardens Plain id d.pack d.pack := by
  refine (Hardens.foldlM Baked.hardens_addState d.states _).bind fun b _ => ?_
  refine (Baked.hardens_addEdges b d.anyTransitions).bind fun edges _ => ?_
  refine (Hardens.foldlM Baked.hardens_addExit d.exits _).bind fun b _ => ?_
  refine (Hardens.tell (.singleton rfl)).bind fun _ _ => ?_
  exact .pure b

namespace Machine

variable (m : Machine) (ps : List Parameter) (cfg : Config)

/-- A strict bake follows the lenient one up to the first fallback. -/
theorem hardens_bakeWith :
    Hardens Plain id (m.bakeWith ps { cfg with strictResolution := false })
      (m.bakeWith ps { cfg with strictResolution := true }) := by
  refine (Parameter.Table.hardens_build ps).bind fun table _ => ?_
  refine (Flat.hardens_ofMachine rfl fun _ _ => rfl).bind fun flat hflat => ?_
  refine (Draft.hardens_ofFlat (Flat.keeps_of_ofMachine hflat).2).bind fun draft _ => ?_
  exact Draft.hardens_pack draft

end Machine

end PoseMachine
