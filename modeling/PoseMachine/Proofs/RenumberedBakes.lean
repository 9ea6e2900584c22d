import PoseMachine.Proofs.BakeSoundness
import PoseMachine.Proofs.Reindexing
import PoseMachine.Proofs.Renumbering

/-!
Bakes of a graph whose states have other numbers. No number of a state is left in a baked machine,
so the machines are the same, and errors and notices differ in the numbers that they tell.
-/

namespace PoseMachine

variable {r : StateId → StateId}

section Parameters

open Parameter (Table)

variable {t : Table}

theorem Parameter.Table.build_renumber (ps : List Parameter) :
    (build ps).renumber r = build ps := by
  rw [build]
  cases addAll {} ps with
  | ok t => rfl
  | error refusal => cases refusal <;> rfl

theorem Parameter.Table.resolve_renumber (name : String) (kind : Kind) (context : String) :
    (t.resolve name kind context).renumber r = t.resolve name kind context := by
  unfold resolve
  split
  · split <;> rfl
  · rfl

theorem Parameter.Table.resolveNumeric_renumber (name context : String) :
    (t.resolveNumeric name context).renumber r = t.resolveNumeric name context := by
  unfold resolveNumeric
  split <;> rfl

end Parameters

namespace Draft

open Parameter (Table)

variable {t : Table} {f : Flat}

theorem boolTest_renumber (context : String) (c : BoolCondition) :
    (boolTest t context c).renumber r = boolTest t context c := by
  simp [boolTest, Table.resolve_renumber]

theorem intTest_renumber (context : String) (c : IntCondition) :
    (intTest t context c).renumber r = intTest t context c := by
  simp [intTest, Table.resolve_renumber]

/-- An edge knows its target by the index of a leaf. -/
theorem Edge.ofResolved_renumber (context : String) (allowSelf : Bool) (x : Flat.Resolved) :
    Edge.ofResolved t context allowSelf (x.renumber r) =
      (Edge.ofResolved t context allowSelf x).renumber r := by
  simp only [ofResolved_eq, Report.renumber_bind, Report.renumber_pure, Report.renumber_mapM,
    boolTest_renumber, intTest_renumber]
  rfl

theorem Motion.ofAuthored_renumber (context : String) (offset : Nat) (m : PoseMachine.Motion) :
    (Motion.ofAuthored t context offset m).renumber r = Motion.ofAuthored t context offset m := by
  cases m with
  | clip c => rfl
  | line parameter clips => simp [ofAuthored, Table.resolveNumeric_renumber]
  | plane parameterX parameterY method clips => simp [ofAuthored, Table.resolve_renumber]

theorem durationNotices_renumber (path : String) (clips : List Clip) :
    (durationNotices path clips).map (Notice.renumber r) = durationNotices path clips := by
  rw [durationNotices, List.map_filterMap]
  congr 1
  funext c
  split <;> rfl

variable {L S : Std.HashMap StateId Nat}

theorem Exit.ofGroup_renumber (g : Flat.ExitGroup) :
    Exit.ofGroup (f.renumber r L S) t (g.renumber r) = (Exit.ofGroup f t g).renumber r := by
  have hpath : ((f.renumber r L S).subs[(g.renumber r).sub]?.map (·.path)).getD "" =
      (f.subs[g.sub]?.map (·.path)).getD "" := by
    have hsub : (g.renumber r).sub = g.sub := rfl
    rw [hsub, Flat.getElem?_subs_renumber, Option.map_map]
    rfl
  have htransitions : (g.renumber r).transitions =
      g.transitions.map (Flat.Resolved.renumber r) := rfl
  have hedges (context : String) :=
    Report.mapM_renumber_same (Edge.ofResolved_renumber (r := r) (t := t) context false)
  simp only [Exit.ofGroup, hpath, htransitions, hedges, Report.renumber_bind,
    Report.renumber_pure]
  rfl

variable (h : f.Finds r L S)

include h

theorem State.ofLeaf_renumber (l : Flat.Leaf) :
    State.ofLeaf (f.renumber r L S) t (l.renumber r) = (State.ofLeaf f t l).renumber r := by
  have hspeed (context : String) : (l.node.speedParameter.mapM fun name =>
      t.resolve name .float context).renumber r =
        l.node.speedParameter.mapM fun name => t.resolve name .float context := by
    cases l.node.speedParameter with
    | none => rfl
    | some name => simp [Table.resolve_renumber]
  have hnoClips (motion : Motion) :
      (if motion.clipCount = 0 then [Notice.noClips l.path] else []).map (Notice.renumber r) =
        if motion.clipCount = 0 then [Notice.noClips l.path] else [] := by
    split <;> rfl
  have htransitions : (l.renumber r).node.transitions =
      l.node.transitions.map (Transition.renumber r) := rfl
  have hedges (context : String) :=
    Report.mapM_renumber_same (Edge.ofResolved_renumber (r := r) (t := t) context false)
  simp only [State.ofLeaf, htransitions, Flat.resolveTransitions_renumber h, bind_map_left,
    hedges, Report.renumber_bind, Report.renumber_tell, Report.renumber_pure, hspeed,
    Motion.ofAuthored_renumber, durationNotices_renumber, hnoClips]
  rfl

theorem anyEdges_renumber : anyEdges (f.renumber r L S) t = (anyEdges f t).renumber r := by
  have hempty : (f.renumber r L S).leaves.isEmpty = f.leaves.isEmpty := by
    simp [Flat.renumber, Array.isEmpty]
  have hany : (f.renumber r L S).machine.anyTransitions =
      f.machine.anyTransitions.map (AnyTransition.renumber r) := rfl
  simp only [anyEdges, hempty, hany, List.isEmpty_map, List.length_map]
  split
  · rfl
  · refine Report.mapM_renumber_same (fun any => ?_) f.machine.anyTransitions
    have htarget : (f.renumber r L S).resolveTarget (any.renumber r).transition.target =
        (f.resolveTarget any.transition.target).renumber r :=
      Flat.resolveTarget_renumber h any.transition.target
    rw [htarget, Report.renumber_bind]
    refine bind_congr fun leaf => ?_
    exact Edge.ofResolved_renumber _ any.allowSelf ⟨leaf, any.transition⟩

/-- The drafts are the same. -/
theorem ofFlat_renumber : ofFlat (f.renumber r L S) t = (ofFlat f t).renumber r := by
  have hleaves : (f.renumber r L S).leaves.toList = f.leaves.toList.map (Flat.Leaf.renumber r) :=
    Array.toList_map
  have hsubs : (f.renumber r L S).subs.toList = f.subs.toList.map (Flat.Sub.renumber r) :=
    Array.toList_map
  have hgroups : (f.renumber r L S).exitGroups.toList =
      f.exitGroups.toList.map (Flat.ExitGroup.renumber r) :=
    Array.toList_map
  simp only [ofFlat, hleaves, hsubs, hgroups, anyEdges_renumber h,
    Report.mapM_renumber_same (State.ofLeaf_renumber h),
    Report.mapM_renumber_same Exit.ofGroup_renumber, Report.renumber_bind, Report.renumber_pure,
    List.map_map, List.flatMap_map]
  rfl

end Draft

namespace Baked

theorem make_renumber (start len : Nat) :
    (Span.make start len).renumber r = Span.make start len := by
  unfold Span.make
  split <;> rfl

theorem addEdge_renumber (b : Baked) (e : Draft.Edge) :
    (b.addEdge e).renumber r = b.addEdge e := by
  simp only [addEdge, Report.renumber_bind, Report.renumber_pure, make_renumber]

theorem addEdges_renumber (b : Baked) (es : List Draft.Edge) :
    (b.addEdges es).renumber r = b.addEdges es := by
  simp only [addEdges, Report.renumber_bind, Report.renumber_pure, make_renumber,
    Report.renumber_foldlM addEdge_renumber]

theorem addMotion_renumber (b : Baked) (m : Draft.Motion) :
    (b.addMotion m).renumber r = b.addMotion m := by
  cases m with
  | clip clip => rfl
  | line parameter clips => simp [addMotion, make_renumber]
  | plane parameterX parameterY method clips => simp [addMotion, make_renumber]

theorem addState_renumber (b : Baked) (s : Draft.State) :
    (b.addState s).renumber r = b.addState s := by
  simp only [addState, Report.renumber_bind, Report.renumber_pure, addMotion_renumber,
    addEdges_renumber]

theorem addExit_renumber (b : Baked) (e : Draft.Exit) :
    (b.addExit e).renumber r = b.addExit e := by
  simp only [addExit, Report.renumber_bind, Report.renumber_pure, make_renumber,
    addEdges_renumber]

end Baked

theorem Draft.pack_renumber (d : Draft) : d.pack.renumber r = d.pack := by
  simp only [pack, Report.renumber_bind, Report.renumber_pure, Report.renumber_tell,
    Report.renumber_foldlM Baked.addState_renumber, Baked.addEdges_renumber,
    Report.renumber_foldlM Baked.addExit_renumber]
  rfl

namespace Machine

/-- The numbers of states are names and nothing else. Whatever numbers they get, as long as
different ones stay different, a graph is baked to the same machine or fails with the same error,
in which only the number of an unresolved target is the new one. -/
theorem bakeWith_renumber (hr : r.Injective) (m : Machine) (ps : List Parameter) (cfg : Config) :
    (m.renumber r).bakeWith ps cfg = (m.bakeWith ps cfg).renumber r := by
  simp only [bakeWith, Report.renumber_bind, Parameter.Table.build_renumber]
  refine bind_congr fun t => ?_
  rw [Flat.ofMachine_renumber hr, bind_map_left]
  refine Report.bind_congr_ok fun f hf => ?_
  obtain ⟨hkeeps, -⟩ := Flat.keeps_of_ofMachine (Report.outcome_renumber_eq_ok.mp hf)
  have hsurvey := Flat.Survey.renumbers_ofMachine hr m
  have hfinds : f.Finds r (Flat.Survey.ofMachine (m.renumber r)).leafIndex
      (Flat.Survey.ofMachine (m.renumber r)).subIndex := by
    constructor
    · intro id
      rw [hsurvey.leafIndex, hkeeps.leafIndex]
    · intro id
      rw [hsurvey.subIndex, hkeeps.subIndex]
  rw [Draft.ofFlat_renumber hfinds]
  refine bind_congr fun d => ?_
  exact (Draft.pack_renumber d).symm

theorem bakeWith_renumber_hopping : ∃ b,
    Function.Injective (fun id : StateId => id + 1) ∧
      (hopping.bakeWith [⟨"grounded", .bool true⟩] {}).outcome = .ok b ∧
      ((hopping.renumber fun id => id + 1).bakeWith [⟨"grounded", .bool true⟩] {}).outcome =
        .ok b := by
  have hr : Function.Injective (fun id : StateId => id + 1) := by
    intro id id' h
    simpa using h
  obtain ⟨b, hb⟩ := exists_bakeWith_hopping
  refine ⟨b, hr, hb, ?_⟩
  rw [bakeWith_renumber hr hopping [⟨"grounded", .bool true⟩] {}]
  exact Report.outcome_renumber_eq_ok.mpr hb

end Machine

end PoseMachine
