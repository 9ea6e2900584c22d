import PoseMachine.Bake.Notice

/-!
A step of a bake: its notices in order, and its value or the error that ended it.
-/

namespace PoseMachine

/-- The outcome of a step together with the notices raised up to it. -/
structure Report (α : Type) where
  notices : List Notice
  outcome : Except BakeError α

namespace Report

variable {α β : Type}

protected def pure (a : α) : Report α := ⟨[], .ok a⟩

/-- The second step runs on the value of the first, its notices coming after. -/
protected def bind (r : Report α) (f : α → Report β) : Report β :=
  match r with
  | ⟨ns, .ok a⟩ =>
    let s := f a
    ⟨ns ++ s.notices, s.outcome⟩
  | ⟨ns, .error e⟩ => ⟨ns, .error e⟩

instance : Monad Report where
  pure := Report.pure
  bind := Report.bind

def tell (notices : List Notice) : Report Unit := ⟨notices, .ok ()⟩

def fail (notice : Notice) (error : BakeError) : Report α := ⟨[notice], .error error⟩

@[simp] theorem outcome_pure (a : α) : (pure a : Report α).outcome = .ok a := rfl

@[simp] theorem notices_pure (a : α) : (pure a : Report α).notices = [] := rfl

@[simp] theorem outcome_tell (ns : List Notice) : (tell ns).outcome = .ok () := rfl

@[simp] theorem outcome_fail (n : Notice) (e : BakeError) :
    (fail n e : Report α).outcome = .error e := rfl

theorem outcome_bind (r : Report α) (f : α → Report β) :
    (r >>= f).outcome = r.outcome.bind fun a => (f a).outcome := by
  rcases r with ⟨ns, _ | _⟩ <;> rfl

instance : LawfulMonad Report :=
  LawfulMonad.mk' Report
    (fun r => by
      rcases r with ⟨ns, _ | _⟩ <;>
        simp [Functor.map, Report.bind, Report.pure])
    (fun a f => by simp [bind, Report.bind, pure, Report.pure])
    (fun r f g => by
      rcases r with ⟨ns, e | a⟩
      · simp [bind, Report.bind]
      · rcases h : f a with ⟨ms, _ | _⟩ <;> simp [bind, Report.bind, h])

end Report

end PoseMachine
