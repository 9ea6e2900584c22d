import Mathlib.Data.List.Forall2
import PoseMachine.Bake.Report
import PoseMachine.Fault

/-!
Taking the steps of a bake and of a run apart: what a sequence of steps that ended well did on its
way, and when a step of a run has a result.
-/

namespace PoseMachine

variable {α β : Type}

section Related

variable {R : α → β → Prop} {xs : List α} {ys : List β}

theorem exists_related_of_getElem?_left (h : List.Forall₂ R xs ys) {i : Nat} {x : α}
    (hx : xs[i]? = some x) : ∃ y, ys[i]? = some y ∧ R x y := by
  induction h generalizing i with
  | nil => simp at hx
  | cons hxy _ ih =>
      cases i with
      | zero =>
          obtain rfl := Option.some.inj hx
          exact ⟨_, rfl, hxy⟩
      | succ i => exact ih hx

theorem exists_related_of_getElem?_right (h : List.Forall₂ R xs ys) {i : Nat} {y : β}
    (hy : ys[i]? = some y) : ∃ x, xs[i]? = some x ∧ R x y :=
  exists_related_of_getElem?_left (R := flip R) h.flip hy

theorem exists_related_of_mem_right (h : List.Forall₂ R xs ys) {y : β} (hy : y ∈ ys) :
    ∃ x ∈ xs, R x y := by
  obtain ⟨i, hi⟩ := List.mem_iff_getElem?.mp hy
  obtain ⟨x, hx, hxy⟩ := exists_related_of_getElem?_right h hi
  exact ⟨x, List.mem_of_getElem? hx, hxy⟩

theorem related_trans {γ : Type} {S : β → γ → Prop} {T : α → γ → Prop} {zs : List γ}
    (h : List.Forall₂ R xs ys) (h' : List.Forall₂ S ys zs)
    (hT : ∀ x y z, R x y → S y z → T x z) : List.Forall₂ T xs zs := by
  induction h generalizing zs with
  | nil =>
      obtain rfl := List.forall₂_nil_left_iff.mp h'
      exact .nil
  | cons hxy _ ih =>
      obtain ⟨z, zs, hyz, hrest, rfl⟩ := List.forall₂_cons_left_iff.mp h'
      exact .cons (hT _ _ _ hxy hyz) (ih hrest)

end Related

namespace Report

theorem outcome_bind_eq_ok {r : Report α} {f : α → Report β} {b : β} :
    (r >>= f).outcome = .ok b ↔ ∃ a, r.outcome = .ok a ∧ (f a).outcome = .ok b := by
  rw [outcome_bind]
  cases r.outcome with
  | error e => simp [Except.bind]
  | ok a => simp [Except.bind]

theorem outcome_tell_bind (ns : List Notice) (f : Unit → Report β) :
    (tell ns >>= f).outcome = (f ()).outcome := by
  rw [outcome_bind, outcome_tell]
  rfl

@[simp] theorem outcome_pure_eq_ok {a b : α} : (pure a : Report α).outcome = .ok b ↔ a = b := by
  simp

theorem outcome_mapM_eq_ok {f : α → Report β} {xs : List α} {ys : List β} :
    (xs.mapM f).outcome = .ok ys ↔ List.Forall₂ (fun x y => (f x).outcome = .ok y) xs ys := by
  induction xs generalizing ys with
  | nil => cases ys <;> simp
  | cons x xs ih =>
      simp only [List.mapM_cons, outcome_bind_eq_ok, ih, outcome_pure_eq_ok,
        List.forall₂_cons_left_iff]
      constructor
      · rintro ⟨y, hy, zs, hzs, rfl⟩
        exact ⟨y, zs, hy, hzs, rfl⟩
      · rintro ⟨y, zs, hy, hzs, rfl⟩
        exact ⟨y, hy, zs, hzs, rfl⟩

theorem outcome_optionMapM_eq_ok {f : α → Report β} {x : Option α} {y : Option β} :
    (x.mapM f).outcome = .ok y ↔ Option.Rel (fun x y => (f x).outcome = .ok y) x y := by
  cases x with
  | none => cases y <;> simp
  | some x =>
      simp only [Option.mapM_some, ← bind_pure_comp, outcome_bind_eq_ok, outcome_pure_eq_ok]
      cases y <;> simp

/-- Steps over a list keep what each of them keeps, told of the entries taken so far. -/
theorem outcome_foldlM_induction {f : β → α → Report β} {P : List α → β → Prop}
    (hstep : ∀ done x b c, P done b → (f b x).outcome = .ok c → P (done ++ [x]) c)
    {xs : List α} {b c : β} (hb : P [] b) (h : (xs.foldlM f b).outcome = .ok c) : P xs c := by
  suffices hall : ∀ done b, P done b → (xs.foldlM f b).outcome = .ok c → P (done ++ xs) c from
    hall [] b hb h
  clear hb h
  induction xs with
  | nil =>
      intro done b hb h
      obtain rfl : b = c := by simpa using h
      simpa using hb
  | cons x xs ih =>
      intro done b hb h
      rw [List.foldlM_cons, outcome_bind_eq_ok] at h
      obtain ⟨d, hd, h⟩ := h
      simpa using ih (done ++ [x]) d (hstep done x b d hb hd) h

end Report

theorem ok_bind {ε : Type} (a : α) (f : α → Except ε β) : (Except.ok a >>= f) = f a := rfl

theorem bind_eq_ok_iff {ε : Type} {x : Except ε α} {f : α → Except ε β} {b : β} :
    (x >>= f) = .ok b ↔ ∃ a, x = .ok a ∧ f a = .ok b := by
  cases x <;> simp [bind, Except.bind]

theorem map_eq_ok_iff {ε : Type} {x : Except ε α} {f : α → β} {b : β} :
    x.map f = .ok b ↔ ∃ a, x = .ok a ∧ f a = b := by
  cases x <;> simp [Except.map]

theorem pure_eq_ok_iff {ε : Type} {a b : α} : (Pure.pure a : Except ε α) = .ok b ↔ a = b := by
  simp [Pure.pure, Except.pure]

theorem mapM_eq_ok_iff {ε : Type} {f : α → Except ε β} {xs : List α} {ys : List β} :
    xs.mapM f = .ok ys ↔ List.Forall₂ (fun x y => f x = .ok y) xs ys := by
  induction xs generalizing ys with
  | nil => cases ys <;> simp [pure, Except.pure]
  | cons x xs ih =>
      rw [List.mapM_cons, List.forall₂_cons_left_iff]
      cases hx : f x with
      | error e => simp [bind, Except.bind]
      | ok y =>
          simp only [← ih]
          cases xs.mapM f <;> simp [bind, Except.bind, pure, Except.pure, eq_comm]

theorem allM_eq_ok {ε : Type} {p : β → Except ε Bool} {q : α → Bool} {xs : List α} {ys : List β}
    (h : List.Forall₂ (fun x y => p y = .ok (q x)) xs ys) : ys.allM p = .ok (xs.all q) := by
  induction h with
  | nil => rfl
  | @cons x y xs ys hxy _ ih =>
      rw [List.allM_cons, hxy, List.all_cons]
      cases q x with
      | true => exact ih
      | false => rfl

/-- A step of a run has a result, and `P` holds of it. -/
def Yields (x : Except Fault α) (P : α → Prop) : Prop := ∃ a, x = .ok a ∧ P a

namespace Yields

variable {x : Except Fault α} {f : α → Except Fault β} {P P' : α → Prop} {Q : β → Prop}

theorem ok {a : α} (h : P a) : Yields (.ok a) P := ⟨a, rfl, h⟩

theorem pure {a : α} (h : P a) : Yields (Pure.pure a) P := ⟨a, rfl, h⟩

theorem mono (h : Yields x P) (hP : ∀ a, P a → P' a) : Yields x P' := by
  obtain ⟨a, hx, ha⟩ := h
  exact ⟨a, hx, hP a ha⟩

theorem bind (h : Yields x P) (hf : ∀ a, P a → Yields (f a) Q) : Yields (x >>= f) Q := by
  obtain ⟨a, rfl, ha⟩ := h
  exact hf a ha

theorem map {g : α → β} (h : Yields x P) (hg : ∀ a, P a → Q (g a)) : Yields (x.map g) Q := by
  obtain ⟨a, rfl, ha⟩ := h
  exact ⟨g a, rfl, hg a ha⟩

theorem mapM {xs : List α} (h : ∀ x ∈ xs, Yields (f x) Q) :
    Yields (xs.mapM f) fun ys => ys.length = xs.length ∧ ∀ y ∈ ys, Q y := by
  induction xs with
  | nil => exact pure ⟨rfl, by simp⟩
  | cons x xs ih =>
      rw [List.mapM_cons]
      refine bind (h x (by simp)) fun y hy => ?_
      refine bind (ih fun z hz => h z (by simp [hz])) fun ys hys => pure ?_
      obtain ⟨hlength, hall⟩ := hys
      refine ⟨by simp [hlength], ?_⟩
      intro z hz
      rcases List.mem_cons.mp hz with rfl | hz
      · exact hy
      · exact hall z hz

theorem allM {p : α → Except Fault Bool} {xs : List α} (h : ∀ x ∈ xs, Yields (p x) fun _ => True) :
    Yields (xs.allM p) fun _ => True := by
  induction xs with
  | nil => exact pure trivial
  | cons x xs ih =>
      rw [List.allM_cons]
      refine bind (h x (by simp)) fun b _ => ?_
      cases b with
      | true => exact ih fun z hz => h z (by simp [hz])
      | false => exact pure trivial

/-- Steps over a list have a result if each of them has one and keeps the condition for the next. -/
theorem foldlM {f : β → α → Except Fault β} {xs : List α} {b : β} (hb : Q b)
    (h : ∀ b, Q b → ∀ x ∈ xs, Yields (f b x) Q) : Yields (xs.foldlM f b) Q := by
  induction xs generalizing b with
  | nil => exact pure hb
  | cons x xs ih =>
      rw [List.foldlM_cons]
      exact bind (h b hb x (by simp)) fun c hc =>
        ih hc fun d hd y hy => h d hd y (by simp [hy])

end Yields

/-- Two steps of runs end in the same fault, or in results that are alike. -/
inductive Alike (R : α → β → Prop) : Except Fault α → Except Fault β → Prop
  | error (f : Fault) : Alike R (.error f) (.error f)
  | ok {a : α} {b : β} : R a b → Alike R (.ok a) (.ok b)

namespace Alike

variable {γ δ : Type} {R : α → β → Prop} {S : γ → δ → Prop} {x : Except Fault α}
  {y : Except Fault β} {f : α → Except Fault γ} {g : β → Except Fault δ}

theorem pure {a : α} {b : β} (h : R a b) : Alike R (Pure.pure a) (Pure.pure b) := .ok h

theorem bind (h : Alike R x y) (hf : ∀ a b, R a b → Alike S (f a) (g b)) :
    Alike S (x >>= f) (y >>= g) := by
  cases h with
  | error f => exact .error f
  | ok h => exact hf _ _ h

theorem refl (x : Except Fault α) : Alike (fun a a' => a' = a) x x := by
  cases x with
  | error f => exact .error f
  | ok a => exact .ok rfl

/-- A step is like itself, with what is known of its result. -/
theorem same {P : α → Prop} (h : ∀ a, x = .ok a → P a) : Alike (fun a a' => a' = a ∧ P a) x x := by
  cases x with
  | error f => exact .error f
  | ok a => exact .ok ⟨rfl, h a rfl⟩

theorem of_yields {P : α → Prop} {Q : β → Prop} (hx : Yields x P) (hy : Yields y Q)
    (h : ∀ a b, P a → Q b → R a b) : Alike R x y := by
  obtain ⟨a, rfl, ha⟩ := hx
  obtain ⟨b, rfl, hb⟩ := hy
  exact .ok (h a b ha hb)

theorem eq {x' : Except Fault α} (h : Alike (fun a a' => a' = a) x x') : x' = x := by
  cases h with
  | error => rfl
  | ok h => rw [h]

end Alike

theorem yields_fetch {xs : Array α} {i : Nat} (h : i < xs.size) :
    Yields (fetch xs i) fun x => xs[i]? = some x :=
  ⟨xs[i], fetch_eq_ok_iff.mpr (by simp [h]), by simp [h]⟩

end PoseMachine
