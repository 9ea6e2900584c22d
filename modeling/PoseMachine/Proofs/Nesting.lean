import PoseMachine.Navigation
import PoseMachine.Proofs.Casts
import PoseMachine.Proofs.Outcome
import PoseMachine.Proofs.Validity

/-!
Walks over nested machines end. The parent of a machine comes before it, so a chain of parents is no
longer than the table, and an instance can follow a jump to any state.
-/

namespace PoseMachine

namespace Baked.Valid

variable {b : Baked}

/-- A nested machine is there, and what lies around it comes before it. -/
theorem yields_parent (hb : b.Valid) {sub : Int32} (hsub : sub.toInt < b.subs.size)
    (hneg : ¬ sub < 0) :
    Yields (fetch b.subs sub.toInt.toNat) fun s => s.parent.toInt < sub.toInt := by
  have hnonneg := toInt_nonneg_of_not_neg hneg
  refine (yields_fetch (by omega)).mono ?_
  intro s hs
  have hlt := toInt_lt_of_lt_ofNat (hb.subs _ s hs).parent
  omega

theorem yields_enclosesWithin (hb : b.Valid) (outer : Int32) {n : Nat} {inner : Int32}
    (hinner : inner.toInt < b.subs.size) (hn : 0 < n) (hfuel : inner.toInt + 1 < n) :
    Yields (b.enclosesWithin outer n inner) fun _ => True := by
  induction n generalizing inner with
  | zero => exact absurd hn (Nat.lt_irrefl 0)
  | succ n ih =>
      rw [enclosesWithin]
      split
      · exact .ok trivial
      · next hneg =>
        split
        · exact .ok trivial
        · refine (hb.yields_parent hinner hneg).bind ?_
          intro s hparent
          have hnonneg := toInt_nonneg_of_not_neg hneg
          exact ih (by omega) (by omega) (by omega)

theorem yields_encloses (hb : b.Valid) (outer : Int32) {inner : Int32}
    (hinner : inner.toInt < b.subs.size) : Yields (b.encloses outer inner) fun _ => True := by
  rw [encloses]
  split
  · exact .ok trivial
  · exact hb.yields_enclosesWithin outer hinner (by omega) (by omega)

theorem yields_ancestorWithin (hb : b.Valid) (level : Nat) {n : Nat} {sub : Int32}
    (hsub : sub.toInt < b.subs.size) (hn : 0 < n) (hfuel : sub.toInt + 1 < n) :
    Yields (b.ancestorWithin level n sub) fun _ => True := by
  induction n generalizing sub with
  | zero => exact absurd hn (Nat.lt_irrefl 0)
  | succ n ih =>
      rw [ancestorWithin]
      split
      · exact .ok trivial
      · next hneg =>
        refine (hb.yields_parent hsub hneg).bind ?_
        intro s hparent
        split
        · exact .pure trivial
        · have hnonneg := toInt_nonneg_of_not_neg hneg
          exact ih (by omega) (by omega) (by omega)

theorem yields_ancestorAt (hb : b.Valid) {sub : Int32} (hsub : sub.toInt < b.subs.size)
    (level : Nat) : Yields (b.ancestorAt sub level) fun _ => True :=
  hb.yields_ancestorWithin level hsub (by omega) (by omega)

theorem yields_levelOf (hb : b.Valid) {sub : Int32} (hsub : sub.toInt < b.subs.size) :
    Yields (b.levelOf sub) fun _ => True := by
  rw [levelOf]
  split
  · exact .ok trivial
  · next hneg => exact (hb.yields_parent hsub hneg).map fun _ _ => trivial

end Baked.Valid

namespace Navigation

variable {b : Baked} {sub : Int32}

theorem yields_leave (hb : b.Valid) (hsub : sub.toInt < b.subs.size) (cs : List Context) :
    Yields (leave b sub cs) fun _ => True := by
  induction cs with
  | nil => exact .pure trivial
  | cons c cs ih =>
      rw [leave]
      refine (hb.yields_encloses c.sub hsub).bind ?_
      intro inside _
      cases inside with
      | true => exact .pure trivial
      | false => exact ih

theorem yields_enter (hb : b.Valid) (hsub : sub.toInt < b.subs.size) (state : Int32) (k : Nat)
    (level : Nat) (cs : List Context) : Yields (enter b sub state level k cs) fun _ => True := by
  induction k generalizing level cs with
  | zero => exact .pure trivial
  | succ k ih =>
      rw [enter]
      refine (hb.yields_ancestorAt hsub (level + 1)).bind ?_
      intro s _
      exact ih (level + 1) _

/-- A jump to any state can be followed, wherever an instance is. -/
theorem yields_sync (hb : b.Valid) (n : Navigation) (state : Nat) :
    Yields (n.sync b state) fun _ => True := by
  rw [sync]
  split
  · exact .pure trivial
  · next s hs =>
    have hsub := toInt_lt_of_lt_ofNat (hb.states s (Array.mem_of_getElem? hs)).sub
    refine (yields_leave hb hsub n.entered).bind ?_
    intro kept _
    refine (hb.yields_levelOf hsub).bind ?_
    intro level _
    refine (yields_enter hb hsub _ _ _ kept).bind ?_
    intro entered _
    exact .pure trivial

end Navigation

end PoseMachine
