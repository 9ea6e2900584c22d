import PoseMachine.Baked.Basic

/-!
Where an instance is among nested machines: one context for the outermost machine and one for each
nested machine entered.
-/

namespace PoseMachine

/-- One level of nesting. -/
structure Context where
  /-- The leaf last active at this level. -/
  state : Int32
  /-- The nested machine of this level, -1 for the outermost one. -/
  sub : Int32
  level : UInt16
deriving DecidableEq, Repr

/-- The context of the outermost machine. -/
def Context.outermost (state : Int32) : Context := ⟨state, -1, 0⟩

namespace Baked

/-- The machine `outer` is `inner` or lies around it, followed through at most `n` parents. A
negative index is the outermost machine. -/
def enclosesWithin (b : Baked) (outer : Int32) : Nat → Int32 → Except Fault Bool
  | 0, _ => .error .endless
  | n + 1, inner =>
    if inner < 0 then .ok false
    else if inner = outer then .ok true
    else do
      let s ← fetch b.subs inner.toInt.toNat
      b.enclosesWithin outer n s.parent

/-- The machine `outer` is `inner` or lies around it. Chains of parents without a cycle are no
longer than there are machines. -/
def encloses (b : Baked) (outer inner : Int32) : Except Fault Bool :=
  if outer < 0 then .ok true else b.enclosesWithin outer (b.subs.size + 2) inner

/-- The machine at nesting depth `level` among `sub` and those around it, followed through at most
`n` parents. -/
def ancestorWithin (b : Baked) (level : Nat) : Nat → Int32 → Except Fault Int32
  | 0, _ => .error .endless
  | n + 1, sub =>
    if sub < 0 then .ok (-1)
    else do
      let s ← fetch b.subs sub.toInt.toNat
      if s.level.toNat = level then pure sub else b.ancestorWithin level n s.parent

/-- The machine at nesting depth `level` among `sub` and those around it, -1 for none. -/
def ancestorAt (b : Baked) (sub : Int32) (level : Nat) : Except Fault Int32 :=
  b.ancestorWithin level (b.subs.size + 2) sub

/-- The nesting depth of a machine, 0 for the outermost one. -/
def levelOf (b : Baked) (sub : Int32) : Except Fault Nat :=
  if sub < 0 then .ok 0 else (fetch b.subs sub.toInt.toNat).map (·.level.toNat)

end Baked

/-- The context of the outermost machine, and those of the nested machines entered, the innermost
one first. -/
structure Navigation where
  outermost : Context := .outermost 0
  entered : List Context := []
deriving DecidableEq, Repr

namespace Navigation

/-- Only the outermost machine, with room for a number of contexts of 12 octets each. -/
def withRoom (contexts : Nat) : Except Fault Navigation := do
  checkRoom (12 * max contexts 1)
  pure {}

/-- All contexts from the outermost machine inwards. -/
def contexts (n : Navigation) : List Context := n.outermost :: n.entered.reverse

def depth (n : Navigation) : Nat := n.entered.length

def current (n : Navigation) : Context := n.entered.headD n.outermost

def modifyCurrent (n : Navigation) (f : Context → Context) : Navigation :=
  match n.entered with
  | [] => { n with outermost := f n.outermost }
  | c :: cs => { n with entered := f c :: cs }

def push (n : Navigation) (c : Context) : Navigation := { n with entered := c :: n.entered }

inductive Refusal where
  /-- The outermost machine cannot be left. -/
  | outermost
deriving DecidableEq, Repr

def Refusal.message : Refusal → String
  | .outermost => "the root context can never be popped"

def pop (n : Navigation) : Except Refusal (Context × Navigation) :=
  match n.entered with
  | [] => .error .outermost
  | c :: cs => .ok (c, { n with entered := cs })

/-- The context around the innermost one. -/
def parent? (n : Navigation) : Option Context :=
  match n.entered with
  | [] => none
  | _ :: cs => some (cs.headD n.outermost)

/-- Leaves all nested machines, `state` being active in the outermost one. -/
def reset (_ : Navigation) (state : Int32) : Navigation := { outermost := .outermost state }

/-- The first context is of the outermost machine, and each level is its position. -/
def isValid (n : Navigation) : Bool :=
  n.outermost.sub == -1 && n.contexts.zipIdx.all fun (c, i) => c.level.toNat == i

/-- Drops contexts that the machine `sub` is not inside of. -/
def leave (b : Baked) (sub : Int32) : List Context → Except Fault (List Context)
  | [] => pure []
  | c :: cs => do
    if ← b.encloses c.sub sub then pure (c :: cs) else leave b sub cs

/-- The contexts of the `k` machines around `sub` from nesting depth `level + 1` on, the innermost
one first, in front of `entered`. -/
def enter (b : Baked) (sub state : Int32) (level : Nat) :
    Nat → List Context → Except Fault (List Context)
  | 0, entered => pure entered
  | k + 1, entered => do
    let s ← b.ancestorAt sub (level + 1)
    enter b sub state (level + 1) k (⟨state, s, (level + 1).toUInt16⟩ :: entered)

/-- Follows a jump to the leaf `state`: leaves the machines that do not contain it and enters those
that do. A leaf that does not exist changes nothing. -/
def sync (n : Navigation) (b : Baked) (state : Nat) : Except Fault Navigation :=
  match b.states[state]? with
  | none => pure n
  | some s => do
    let leaf := Int32.ofNat state
    let kept ← leave b s.sub n.entered
    let level ← b.levelOf s.sub
    let entered ← enter b s.sub leaf kept.length (level - kept.length) kept
    let n : Navigation := { n with entered }
    pure (n.modifyCurrent fun c => { c with state := leaf })

end Navigation

end PoseMachine
