import PoseMachine.Bake.Pack
import PoseMachine.Proofs.Outcome

/-!
Bakes of small machines, worked out by `simp`: with this namespace open it follows the bake of a
machine that is written out, through all passes.
-/

namespace PoseMachine.SmallBakes

open Parameter (Layout Table)

/-- Notices of steps in a row, also where the first ends them. -/
@[scoped simp] theorem notices_bind {α β : Type} (r : Report α) (f : α → Report β) :
    (r >>= f).notices =
      r.notices ++ (r.outcome.toOption.map fun a => (f a).notices).getD [] := by
  obtain ⟨ns, _ | a⟩ := r
  · exact (List.append_nil ns).symm
  · rfl

@[scoped simp] theorem notices_map {α β : Type} (g : α → β) (r : Report α) :
    (g <$> r).notices = r.notices := by
  obtain ⟨ns, _ | a⟩ := r
  · rfl
  · exact List.append_nil ns

@[scoped simp] theorem notices_tell (ns : List Notice) : (Report.tell ns).notices = ns := rfl

attribute [scoped simp] Report.outcome_bind Except.bind Except.toOption List.eraseDups_cons
  Std.HashMap.getElem_insert

-- Parameters.
attribute [scoped simp] Parameter.kind Parameter.hash Parameter.Value.kind Layout.sizeOf Layout.push
  Table.build Table.addAll Table.add Table.kindLimit Table.resolve Table.resolveNumeric

-- The walk over the states and the passes over what it has numbered.
attribute [scoped simp] Motion.clipCount Config.clipLimit Flat.Survey.ofMachine
  Flat.Survey.visitAll Flat.Survey.visit Flat.Survey.addLeaf Flat.Survey.enter Flat.Survey.leave
  Flat.Survey.noteIf Flat.ofSurvey Flat.ofMachine Flat.withEntries Flat.resolveEntry
  Flat.followEntry Flat.withExitGroups Flat.exitGroup? Flat.exitLeaves Flat.exitState
  Flat.isInside? Flat.encloses Flat.resolveTransitions Flat.resolveTarget Flat.claimAll Flat.claim
  Flat.startLeaf Flat.fallBack

-- The draft.
attribute [scoped simp] Draft.ofFlat Draft.State.ofLeaf Draft.anyEdges Draft.Exit.ofGroup
  Draft.Motion.ofAuthored Draft.Edge.ofResolved Draft.planeEntries Curve.pack Curve.easeInOut

-- The pools.
attribute [scoped simp] Machine.bakeWith Draft.pack Baked.addState Baked.addMotion Baked.addEdges
  Baked.addEdge Baked.addExit Baked.Span.make Baked.Span.limit

end PoseMachine.SmallBakes
