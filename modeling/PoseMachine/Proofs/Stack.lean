import Mathlib.Tactic.Common
import PoseMachine.Flat.Survey

/-!
Walks over a graph with a stack in place of recursion: the machines entered wait, innermost first,
with the states that are left to visit. They meet the same states and number them alike.
-/

namespace PoseMachine

/-- What a stack of lists has left to do: two steps for each state and one for each list. -/
def pending : List (List State) → Nat
  | [] => 0
  | ss :: rest => 2 * (forest ss).length + 1 + pending rest

section Pending

variable {ss : List State} {rest : List (List State)}

theorem pending_lt_nil : pending rest < pending ([] :: rest) := by
  simp [pending, forest]

theorem pending_lt_cons {s : State} : pending (ss :: rest) < pending ((s :: ss) :: rest) := by
  have hsome : 0 < s.subtree.length := by
    rcases s with _ | ⟨_, _, _ | ⟨_, _, _, _, _⟩⟩ <;> simp [State.subtree]
  simp only [pending, forest, List.length_append]
  omega

theorem pending_lt_enter {node : Node} {border : Border} {name : String}
    {parameters : List Parameter} {states : List State} {default : Option StateId}
    {any : List AnyTransition} : pending (states :: ss :: rest) <
      pending ((.container node border (some ⟨name, parameters, states, default, any⟩) :: ss) ::
        rest) := by
  simp only [pending, forest, State.subtree, List.length_append, List.length_cons]
  omega

end Pending

/-- The states that a stack of lists meets, the innermost list first. -/
def trail : List (List State) → List State
  | [] => []
  | [] :: rest => trail rest
  | (.leaf node motion :: ss) :: rest => .leaf node motion :: trail (ss :: rest)
  | (.container node border none :: ss) :: rest =>
    .container node border none :: trail (ss :: rest)
  | (.container node border (some ⟨name, parameters, states, default, any⟩) :: ss) :: rest =>
    .container node border (some ⟨name, parameters, states, default, any⟩) ::
      trail (states :: ss :: rest)
termination_by stack => pending stack
decreasing_by
  · exact pending_lt_nil
  · exact pending_lt_cons
  · exact pending_lt_cons
  · exact pending_lt_enter

theorem trail_cons (ss : List State) (rest : List (List State)) :
    trail (ss :: rest) = forest ss ++ trail rest := by
  -- Along the recursion of the graph, whatever waits further down the stack.
  refine forest.induct
    (fun s => ∀ ss rest, trail ((s :: ss) :: rest) = s.subtree ++ trail (ss :: rest))
    (fun ss => ∀ rest, trail (ss :: rest) = forest ss ++ trail rest)
    ?leaf ?missing ?nested ?nil ?cons ss rest
  case leaf =>
    intro node motion ss rest
    simp [trail, State.subtree]
  case missing =>
    intro node border ss rest
    simp [trail, State.subtree]
  case nested =>
    intro node border name parameters states default any ih ss rest
    simp [trail, State.subtree, ih]
  case nil =>
    intro rest
    simp [trail, forest]
  case cons =>
    intro s ss ihs ihss rest
    rw [ihs, ihss, forest, List.append_assoc]

/-- A stack meets all states of a machine, depth first. -/
theorem trail_states (m : Machine) : trail [m.states] = m.allStates := by
  rw [trail_cons, trail, List.append_nil, Machine.allStates]

namespace Flat.Survey

/-- A machine that is walked over: the states left to visit, and where it lies. -/
structure Frame where
  states : List State
  sub : Option Nat
  level : UInt16
  path : String

/-- Records that a machine has been visited, unless it is the outermost one. -/
def leaveTo (v : Survey) : Option Nat → Survey
  | some i => v.leave i
  | none => v

/-- The walk of a stack of machines, the innermost one on top. -/
def walk : List Frame → Survey → Survey
  | [], v => v
  | ⟨[], sub, _, _⟩ :: rest, v => walk rest (v.leaveTo sub)
  | ⟨.leaf node motion :: ss, sub, level, path⟩ :: rest, v =>
    walk (⟨ss, sub, level, path⟩ :: rest) (v.addLeaf sub (path ++ "/" ++ node.name) node motion)
  | ⟨.container node _ none :: ss, sub, level, path⟩ :: rest, v =>
    walk (⟨ss, sub, level, path⟩ :: rest) (v.skip (path ++ "/" ++ node.name) node)
  | ⟨.container node border (some ⟨_, parameters, states, _, any⟩) :: ss, sub, level, path⟩ :: rest,
      v =>
    walk
      (⟨states, some v.subs.size, level + 1, path ++ "/" ++ node.name⟩ ::
        ⟨ss, sub, level, path⟩ :: rest)
      (v.enter sub (level + 1) (path ++ "/" ++ node.name) node border
        (!parameters.isEmpty || !any.isEmpty))
termination_by stack => pending (stack.map (·.states))
decreasing_by
  · exact pending_lt_nil
  · exact pending_lt_cons
  · exact pending_lt_cons
  · exact pending_lt_enter

theorem walk_cons (sub : Option Nat) (level : UInt16) (path : String) (ss : List State)
    (rest : List Frame) (v : Survey) :
    walk (⟨ss, sub, level, path⟩ :: rest) v =
      walk rest ((visitAll sub level path ss v).leaveTo sub) := by
  refine visitAll.induct
    (fun sub level path s v => ∀ ss rest, walk (⟨s :: ss, sub, level, path⟩ :: rest) v =
      walk (⟨ss, sub, level, path⟩ :: rest) (visit sub level path s v))
    (fun sub level path ss v => ∀ rest, walk (⟨ss, sub, level, path⟩ :: rest) v =
      walk rest ((visitAll sub level path ss v).leaveTo sub))
    ?leaf ?missing ?nested ?nil ?cons sub level path ss v rest
  case leaf =>
    intro sub level path node motion v ss rest
    rw [walk, visit]
  case missing =>
    intro sub level path node border v ss rest
    rw [walk, visit]
  case nested =>
    intro sub level path node border name parameters states default any v
    dsimp only
    intro ih ss rest
    rw [walk, visit, ih]
    rfl
  case nil =>
    intro sub level path v rest
    rw [walk, visitAll]
  case cons =>
    intro sub level path s ss v ihs ihss rest
    rw [ihs, ihss, visitAll]

/-- A stack walks over a graph as the recursion does. -/
theorem walk_states (m : Machine) : walk [⟨m.states, none, 0, m.name⟩] {} = ofMachine m := by
  rw [walk_cons, walk, leaveTo, ofMachine]

end Flat.Survey

end PoseMachine
