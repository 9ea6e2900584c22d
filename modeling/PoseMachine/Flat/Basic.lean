import PoseMachine.Config
import PoseMachine.Flat.Survey

/-!
A graph flattened into one index space of leaves, with every reference between states resolved.
-/

namespace PoseMachine

namespace Flat

/-- A transition with the leaf that it leads to. -/
structure Resolved where
  leaf : Nat
  transition : Transition

/-- The leaves through which a nested machine may be left, and how. -/
structure ExitGroup where
  sub : Nat
  leaves : List Nat
  transitions : List Resolved

end Flat

structure Flat where
  machine : Machine
  leaves : Array Flat.Leaf
  subs : Array Flat.Sub
  leafIndex : Std.HashMap StateId Nat
  subIndex : Std.HashMap StateId Nat
  exitGroups : Array Flat.ExitGroup
  clipCount : Nat
  defaultLeaf : Nat
  /-- Unresolved references fail instead of meaning leaf 0. -/
  strict : Bool

namespace Flat

/-- Leaf 0 in place of a reference that failed with `e`, or the failure itself. -/
def fallBack (strict : Bool) (e : BakeError) : Report Nat :=
  if strict then .fail (.refused e) e
  else do
    Report.tell [.fellBack e]
    pure 0

/-- Where the entries of nested machines lead. -/
inductive EntryChain where
  | leaf (index : Nat)
  /-- An entry is missing or names no state. -/
  | deadEnd
  | cycle

/-- Follows entries from the machine `sub`, through at most `n` machines. -/
def followEntry (f : Flat) : Nat → Nat → EntryChain
  | 0, _ => .cycle
  | n + 1, sub =>
    match f.subs[sub]?.bind (·.border.entry) with
    | none => .deadEnd
    | some id =>
      match f.leafIndex[id]? with
      | some leaf => .leaf leaf
      | none =>
        match f.subIndex[id]? with
        | some next => f.followEntry n next
        | none => .deadEnd

/-- The leaf at which a nested machine is entered. An ending chain meets no machine twice. -/
def resolveEntry (f : Flat) (s : Sub) : Report Nat :=
  match f.followEntry (f.subs.size + 1) s.index with
  | .leaf leaf => pure leaf
  | .deadEnd => fallBack f.strict (.unresolvedEntry s.path)
  | .cycle => fallBack f.strict (.entryCycle s.path)

/-- The leaf that a reference leads to: a leaf itself, or the entry of a nested machine. -/
def resolveTarget (f : Flat) (id : StateId) : Report Nat :=
  match f.leafIndex[id]? with
  | some leaf => pure leaf
  | none =>
    match f.subIndex[id]?.bind (f.subs[·]?) with
    | some s => pure s.entry
    | none => fallBack f.strict (.unresolvedTarget id)

def resolveTransitions (f : Flat) (ts : List Transition) : Report (List Resolved) :=
  ts.mapM fun t => do
    let leaf ← f.resolveTarget t.target
    pure ⟨leaf, t⟩

/-- The machine `sub` is `inner` or one of the `n - 1` machines next around it. -/
def encloses (f : Flat) (sub : Nat) : Nat → Option Nat → Bool
  | 0, _ => false
  | _, none => false
  | n + 1, some inner => inner == sub || f.encloses sub n (f.subs[inner]?.bind (·.parent))

/-- Whether a leaf lies anywhere inside the machine `sub`. -/
def isInside? (f : Flat) (leaf sub : Nat) : Option Bool :=
  f.leaves[leaf]?.map fun l => f.encloses sub f.subs.size l.parent

def pathOf? (f : Flat) (leaf : Nat) : Option String := f.leaves[leaf]?.map (·.path)

inductive ExitState where
  | inside (leaf : Nat)
  | outside
  | notLeaf

def exitState (f : Flat) (sub : Nat) (id : StateId) : ExitState :=
  match f.leafIndex[id]? with
  | some leaf => if f.isInside? leaf sub = some true then .inside leaf else .outside
  | none => .notLeaf

/-- The leaves of the exit states that lie inside the machine, each once. -/
def exitLeaves (f : Flat) (sub : Nat) (ids : List StateId) : List Nat :=
  (ids.filterMap fun id =>
    match f.exitState sub id with
    | .inside leaf => some leaf
    | _ => none).eraseDups

def exitNotices (f : Flat) (s : Sub) : List Notice :=
  s.border.exitStates.filterMap fun id =>
    match f.exitState s.index id with
    | .inside _ => none
    | .outside => some (.exitStateOutside id s.path)
    | .notLeaf => some (.exitStateNotLeaf id s.path)

/-- The exit group of a nested machine. It takes exit states and exit transitions to make one. -/
def exitGroup? (f : Flat) (warn : Bool) (s : Sub) : Report (Option ExitGroup) := do
  match s.border.exitStates, s.border.exitTransitions with
  | [], [] => pure none
  | _ :: _, [] =>
    Report.tell (if warn then [.exitStatesOnly s.path] else [])
    pure none
  | [], _ :: _ =>
    Report.tell (if warn then [.exitTransitionsOnly s.path] else [])
    pure none
  | ids, ts =>
    Report.tell (f.exitNotices s)
    match f.exitLeaves s.index ids with
    | [] =>
      Report.tell [.noExitStates s.path]
      pure none
    | leaves =>
      let transitions ← f.resolveTransitions ts
      pure (some ⟨s.index, leaves, transitions⟩)

/-- Gives a leaf its exit group. A leaf keeps the first one. -/
def claim (group : Nat) (acc : Array Leaf × Array Notice) (leaf : Nat) :
    Array Leaf × Array Notice :=
  match acc.1[leaf]? with
  | none => acc
  | some l =>
    match l.exitGroup with
    | none => (acc.1.setIfInBounds leaf { l with exitGroup := some group }, acc.2)
    | some g => (acc.1, acc.2.push (.exitClaimedAgain l.path g))

/-- Gives all leaves of all groups their group, in order. -/
def claimAll (groups : List ExitGroup) (leaves : Array Leaf) : Array Leaf × Array Notice :=
  groups.zipIdx.foldl (fun acc g => g.1.leaves.foldl (claim g.2) acc) (leaves, #[])

/-- The leaf in which a machine starts. -/
def startLeaf (f : Flat) : Report Nat :=
  if f.leaves.isEmpty then pure 0
  else
    match f.machine.defaultState with
    | some id => f.resolveTarget id
    | none => fallBack f.strict .missingDefault

def ofSurvey (m : Machine) (strict : Bool) (v : Survey) : Flat where
  machine := m
  leaves := v.leaves
  subs := v.subs
  leafIndex := v.leafIndex
  subIndex := v.subIndex
  exitGroups := #[]
  clipCount := v.clipCount
  defaultLeaf := 0
  strict := strict

def withEntries (f : Flat) : Report Flat := do
  let subs ← f.subs.toList.mapM fun s => do
    let entry ← f.resolveEntry s
    pure { s with entry }
  pure { f with subs := subs.toArray }

/-- Collects the exit groups of nested machines, inner ones first, and gives leaves their group. -/
def withExitGroups (f : Flat) (warn : Bool) (postOrder : List Nat) : Report Flat := do
  let groups ← (postOrder.filterMap (f.subs[·]?)).mapM (f.exitGroup? warn)
  let groups := groups.filterMap id
  let (leaves, notices) := claimAll groups f.leaves
  Report.tell notices.toList
  pure { f with leaves, exitGroups := groups.toArray }

def ofMachine (m : Machine) (cfg : Config) : Report Flat := do
  let v := Survey.ofMachine m
  Report.tell v.notices.toList
  if v.clipCount > cfg.clipLimit then
    Report.fail (.clipOverflow m.name v.clipCount cfg.clipLimit)
      (.clipOverflow v.clipCount cfg.clipLimit)
  else
    let f ← (ofSurvey m cfg.strictResolution v).withEntries
    let f ← f.withExitGroups cfg.warnIncompleteExitGroups v.postOrder.toList
    let defaultLeaf ← f.startLeaf
    Report.tell
      [.flattened m.name f.leaves.size f.subs.size f.clipCount f.exitGroups.size]
    pure { f with defaultLeaf }

end Flat

end PoseMachine
