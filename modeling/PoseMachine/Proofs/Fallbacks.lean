import Mathlib.Tactic.Common
import PoseMachine.Bake.Report

/-!
Reports of steps that fall back where a reference fails, beside those of the same steps when they
may not: the latter go the same way up to the first fallback and end there with its error.
-/

namespace PoseMachine

/-- The error that a fallback passes over. -/
def Notice.fallback? : Notice → Option BakeError
  | .fellBack e => some e
  | _ => none

/-- A reference from state to state leads nowhere. -/
def BakeError.isReference : BakeError → Bool
  | .unresolvedEntry _ | .entryCycle _ | .unresolvedTarget _ | .missingDefault => true
  | _ => false

/-- An error that has nothing to do with such references. -/
abbrev BakeError.Plain (e : BakeError) : Prop := e.isReference = false

namespace Report

variable {α β γ δ : Type}

/-- The error of the first fallback. -/
def fallback? (r : Report α) : Option BakeError := r.notices.findSome? Notice.fallback?

/-- The errors of all fallbacks, in order. -/
def fallbacks (r : Report α) : List BakeError := r.notices.filterMap Notice.fallback?

/-- None of some notices tells of a fallback. -/
def Firm (ns : List Notice) : Prop := ∀ n ∈ ns, n.fallback? = none

@[simp] theorem fallbacks_pure (a : α) : (pure a : Report α).fallbacks = [] := rfl

theorem head?_fallbacks (r : Report α) : r.fallbacks.head? = r.fallback? := by
  rw [fallbacks, List.head?_filterMap, fallback?]

theorem fallbacks_bind {r : Report α} {f : α → Report β} {a : α} (h : r.outcome = .ok a) :
    (r >>= f).fallbacks = r.fallbacks ++ (f a).fallbacks := by
  obtain ⟨ns, o⟩ := r
  obtain rfl : o = .ok a := h
  exact List.filterMap_append

theorem fallbacks_bind_of_error {r : Report α} {f : α → Report β} {e : BakeError}
    (h : r.outcome = .error e) : (r >>= f).fallbacks = r.fallbacks := by
  obtain ⟨ns, o⟩ := r
  obtain rfl : o = .error e := h
  rfl

theorem fallbacks_bind_pure (r : Report α) (g : α → β) :
    (r >>= fun a => pure (g a)).fallbacks = r.fallbacks := by
  cases h : r.outcome with
  | ok a => rw [fallbacks_bind h, fallbacks_pure, List.append_nil]
  | error e => rw [fallbacks_bind_of_error h]

/-- How strict steps follow lenient ones whose errors are in `E`. Values are carried over by `g`. -/
inductive Hardens (E : BakeError → Prop) (g : α → β) : Report α → Report β → Prop
  | same {ns : List Notice} {o : Except BakeError α} (hns : Firm ns)
      (ho : ∀ e, o = .error e → E e) : Hardens E g ⟨ns, o⟩ ⟨ns, o.map g⟩
  | fell {ns ms : List Notice} {e : BakeError} {o : Except BakeError α} (hns : Firm ns)
      (he : e.isReference = true) (ho : ∀ e, o = .error e → E e) :
      Hardens E g ⟨ns ++ .fellBack e :: ms, o⟩ ⟨ns ++ [.refused e], .error e⟩

theorem Firm.nil : Firm [] := by
  rintro n ⟨⟩

theorem Firm.append {ns ms : List Notice} (hns : Firm ns) (hms : Firm ms) : Firm (ns ++ ms) := by
  intro n hn
  rcases List.mem_append.mp hn with hn | hn
  · exact hns n hn
  · exact hms n hn

theorem Firm.singleton {n : Notice} (hn : n.fallback? = none) : Firm [n] := by
  intro m hm
  obtain rfl := List.mem_singleton.mp hm
  exact hn

theorem Firm.ite {c : Prop} [Decidable c] {n : Notice} (hn : n.fallback? = none) :
    Firm (if c then [n] else []) := by
  split
  · exact .singleton hn
  · exact .nil

theorem Firm.filterMap {xs : List α} {f : α → Option Notice}
    (h : ∀ x n, f x = some n → n.fallback? = none) : Firm (xs.filterMap f) := by
  intro n hn
  obtain ⟨x, -, hx⟩ := List.mem_filterMap.mp hn
  exact h x n hx

theorem Firm.bind_pure {r : Report α} (h : Firm r.notices) (g : α → β) :
    Firm (r >>= fun a => pure (g a)).notices := by
  obtain ⟨ns, o⟩ := r
  cases o with
  | ok a => exact h.append .nil
  | error e => exact h

theorem Firm.fallbacks_eq_nil {r : Report α} (h : Firm r.notices) : r.fallbacks = [] :=
  List.filterMap_eq_nil_iff.mpr h

theorem fallbacks_tell_bind {ns : List Notice} (h : Firm ns) (f : Unit → Report α) :
    (tell ns >>= f).fallbacks = (f ()).fallbacks := by
  rw [fallbacks_bind rfl, Firm.fallbacks_eq_nil (r := tell ns) h, List.nil_append]

theorem Firm.findSome?_eq_none {ns : List Notice} (h : Firm ns) :
    ns.findSome? Notice.fallback? = none := by
  rw [List.findSome?_eq_none_iff]
  exact h

namespace Hardens

variable {E : BakeError → Prop} {g : α → β} {l : Report α} {s : Report β}

theorem pure (a : α) : Hardens E g (Pure.pure a) (Pure.pure (g a)) :=
  .same .nil (by rintro e ⟨⟩)

theorem tell {ns : List Notice} (h : Firm ns) : Hardens E id (tell ns) (Report.tell ns) :=
  .same h (by rintro e ⟨⟩)

theorem fail {n : Notice} {e : BakeError} (hn : n.fallback? = none) (he : E e) :
    Hardens E g (fail n e) (Report.fail n e) :=
  .same (.singleton hn) (by rintro _ ⟨⟩; exact he)

/-- Steps in a row keep on going the same way, and after a fallback only the lenient ones go on. -/
theorem bind {g' : γ → δ} {f : α → Report γ} {f' : β → Report δ} (h : Hardens E g l s)
    (hf : ∀ a, l.outcome = .ok a → Hardens E g' (f a) (f' (g a))) :
    Hardens E g' (l >>= f) (s >>= f') := by
  cases h with
  | @same ns o hns ho =>
      cases o with
      | error e => exact .same hns (by rintro _ ⟨⟩; exact ho e rfl)
      | ok a =>
          -- Both run on, and the first fallback of what follows is the first of all.
          have ha := hf a rfl
          change Hardens E g' ⟨ns ++ (f a).notices, (f a).outcome⟩
            ⟨ns ++ (f' (g a)).notices, (f' (g a)).outcome⟩
          generalize f a = r, f' (g a) = r' at ha
          cases ha with
          | same hms ho => exact .same (hns.append hms) ho
          | fell hms he ho =>
              simp only [← List.append_assoc]
              exact .fell (hns.append hms) he ho
  | @fell ns ms e o hns he ho =>
      cases o with
      | error e' => exact .fell hns he (by rintro _ ⟨⟩; exact ho e' rfl)
      | ok a =>
          change Hardens E g' ⟨(ns ++ .fellBack e :: ms) ++ (f a).notices, (f a).outcome⟩
            ⟨ns ++ [.refused e], .error e⟩
          -- The strict steps have ended. What the lenient ones still do may only fail within `E`.
          rw [List.append_assoc, List.cons_append]
          refine .fell hns he ?_
          have ha := hf a rfl
          generalize f a = r, f' (g a) = r' at ha
          cases ha with
          | same _ ho => exact ho
          | fell _ _ ho => exact ho

theorem mapM {f : γ → Report α} {f' : γ → Report β} (h : ∀ x, Hardens E g (f x) (f' x))
    (xs : List γ) : Hardens E (List.map g) (xs.mapM f) (xs.mapM f') := by
  induction xs with
  | nil => exact pure []
  | cons x xs ih =>
      rw [List.mapM_cons, List.mapM_cons]
      refine (h x).bind fun a _ => ?_
      refine ih.bind fun as _ => ?_
      exact pure (a :: as)

theorem mapM_id {f f' : γ → Report α} (h : ∀ x, Hardens E id (f x) (f' x)) (xs : List γ) :
    Hardens E id (xs.mapM f) (xs.mapM f') := by
  simpa using mapM h xs

theorem optionMapM {f f' : γ → Report α} (h : ∀ x, Hardens E id (f x) (f' x)) (x : Option γ) :
    Hardens E id (x.mapM f) (x.mapM f') := by
  cases x with
  | none => exact pure none
  | some x =>
      simp only [Option.mapM_some, ← bind_pure_comp]
      exact (h x).bind fun a _ => pure (some a)

theorem foldlM {f f' : α → γ → Report α} (h : ∀ a x, Hardens E id (f a x) (f' a x))
    (xs : List γ) (a : α) : Hardens E id (xs.foldlM f a) (xs.foldlM f' a) := by
  induction xs generalizing a with
  | nil => exact pure a
  | cons x xs ih =>
      rw [List.foldlM_cons, List.foldlM_cons]
      exact (h a x).bind fun b _ => ih b

theorem outcome_eq (h : Hardens E g l s) (hl : l.fallback? = none) :
    s.outcome = l.outcome.map g := by
  cases h with
  | same => rfl
  | fell =>
      simp [fallback?, Notice.fallback?] at hl

/-- The first fallback is where the strict steps end. -/
theorem outcome_eq_error (h : Hardens E g l s) {e : BakeError} (hl : l.fallback? = some e) :
    s.outcome = .error e := by
  cases h with
  | same hns =>
      rw [fallback?, hns.findSome?_eq_none] at hl
      cases hl
  | @fell ns ms e' o hns =>
      rw [fallback?, List.findSome?_append, hns.findSome?_eq_none] at hl
      obtain rfl : e' = e := Option.some.inj hl
      rfl

/-- Steps that say the same in both ways never fall back. -/
theorem firm (h : Hardens E g l s) (hs : s.notices = l.notices) : Firm l.notices := by
  cases h with
  | same hns => exact hns
  | fell => simp at hs

theorem error_of_lenient (h : Hardens E g l s) {e : BakeError} (hl : l.outcome = .error e) :
    E e := by
  cases h with
  | same _ ho => exact ho e hl
  | fell _ _ ho => exact ho e hl

theorem error_of_strict (h : Hardens E g l s) {e : BakeError} (hs : s.outcome = .error e) :
    E e ∨ e.isReference = true := by
  cases h with
  | @same ns o _ ho =>
      cases o with
      | error e' =>
          obtain rfl : e' = e := by simpa [Except.map] using hs
          exact .inl (ho _ rfl)
      | ok a => simp [Except.map] at hs
  | fell _ he _ =>
      obtain rfl := Except.error.inj hs
      exact .inr he

end Hardens

end Report

end PoseMachine
