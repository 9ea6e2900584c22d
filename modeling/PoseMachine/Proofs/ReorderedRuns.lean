import PoseMachine.Proofs.Reindexing
import PoseMachine.Proofs.SmallBakes
import PoseMachine.Proofs.Session

/-!
Runs of one machine against its parameters in two orders. Every value sits at the new position of
its parameter, so both runs choose, blend and sample alike.
-/

namespace PoseMachine

open Parameter (Kind Value Numeric Layout Buffers Table)

theorem fetch_setIfInBounds {α : Type} {xs : Array α} {i : Nat} {x y : α}
    (hold : fetch xs i = .ok y) (j : Nat) :
    fetch (xs.setIfInBounds i x) j = if j = i then .ok x else fetch xs j := by
  have hi : i < xs.size := (Array.getElem?_eq_some_iff.mp (fetch_eq_ok_iff.mp hold)).1
  by_cases hj : j = i
  · subst hj
    simp [fetch, hi]
  · have hne : i ≠ j := fun h => hj h.symm
    simp [fetch, hj, hne]

namespace Parameter.Buffers

/-- The value at a position among those of one kind. -/
def read (v : Buffers) (k : Kind) (i : UInt16) : Except Fault Value :=
  match k with
  | .bool => (v.bool i).map .bool
  | .int => (v.int i).map .int
  | .float => (v.float i).map .float

theorem read_ofLayout (l : Layout) (k : Kind) (i : UInt16) :
    (ofLayout l).read k i =
      match l.slot? k i.toNat with
      | some (_, x) => .ok x
      | none => .error .outOfBounds := by
  cases k with
  | bool =>
      simp only [read, Buffers.bool, ofLayout, fetch, Layout.slot?, Array.getElem?_map]
      cases l.bools[i.toNat]? <;> rfl
  | int =>
      simp only [read, Buffers.int, ofLayout, fetch, Layout.slot?, Array.getElem?_map]
      cases l.ints[i.toNat]? <;> rfl
  | float =>
      simp only [read, Buffers.float, ofLayout, fetch, Layout.slot?, Array.getElem?_map]
      cases l.floats[i.toNat]? <;> rfl

/-- A set reaches the position of its hash and no other one. -/
theorem read_setByHash {v : Buffers} {h : UInt32} {x y : Value} {i : UInt16}
    (hposition : v.position? x.kind h = some i.toNat) (hold : v.read x.kind i = .ok y)
    (k : Kind) (j : UInt16) :
    (v.setByHash h x).2.read k j = if k = x.kind ∧ j = i then .ok x else v.read k j := by
  have hindex : j.toNat = i.toNat ↔ j = i := UInt16.toNat_inj
  cases x
  all_goals
    obtain ⟨c, hc, -⟩ := map_eq_ok_iff.mp hold
    simp only [setByHash, hposition]
    cases k <;> by_cases hj : j = i <;>
      simp [read, Buffers.bool, Buffers.int, Buffers.float, fetch_setIfInBounds hc, hindex, hj,
        Value.kind, Except.map]

section Positions

variable {v : Buffers} {t : Table} {h : UInt32} {k : Kind}

theorem Fits.exists_read (hv : v.Fits t.layout) (ht : t.Coherent) {i : UInt16}
    (hfind : t.byHash[h]? = some (k, i)) : ∃ y, v.read k i = .ok y := by
  have hi : i.toNat < t.layout.sizeOf k :=
    Layout.lt_sizeOf_of_hash? (ht.find_iff.mp hfind)
  cases k with
  | bool =>
      obtain ⟨x, hx, -⟩ := hv.yields_bool hi
      exact ⟨.bool x, by rw [read, hx]; rfl⟩
  | int =>
      obtain ⟨x, hx, -⟩ := hv.yields_int hi
      exact ⟨.int x, by rw [read, hx]; rfl⟩
  | float =>
      obtain ⟨x, hx, -⟩ := hv.yields_float hi
      exact ⟨.float x, by rw [read, hx]; rfl⟩

end Positions

/-- Values of the parameters of one table, and the same values at their positions in another one. -/
structure Mirrors (σ : Kind → UInt16 → UInt16) (t t' : Table) (v v' : Buffers) : Prop where
  fits : v.Fits t.layout
  fits' : v'.Fits t'.layout
  read : ∀ k i, v'.read k (σ k i) = v.read k i

section Mirrors

variable {σ : Kind → UInt16 → UInt16} {t t' : Table} {v v' : Buffers}

theorem mirrors_ofLayout (h : Table.Renames σ t t') :
    Mirrors σ t t' (ofLayout t.layout) (ofLayout t'.layout) where
  fits := fits_ofLayout t.layout
  fits' := fits_ofLayout t'.layout
  read k i := by rw [read_ofLayout, read_ofLayout, h.slot]

/-- A set finds its parameter in both orders or in none, and both keep the same values. -/
theorem Mirrors.setByHash (hv : Mirrors σ t t' v v') (ht : t.Coherent) (ht' : t'.Coherent)
    (hσ : Table.Renames σ t t') (h : UInt32) (x : Value) :
    (v'.setByHash h x).1 = (v.setByHash h x).1 ∧
      Mirrors σ t t' (v.setByHash h x).2 (v'.setByHash h x).2 := by
  by_cases hfound : ∃ i, t.byHash[h]? = some (x.kind, i)
  · obtain ⟨i, hfind⟩ := hfound
    have hfind' : t'.byHash[h]? = some (x.kind, σ x.kind i) := by
      rw [hσ.find, hfind, Option.map_some]
    have hi := hv.fits.position?_of_find ht hfind
    have hi' := hv.fits'.position?_of_find ht' hfind'
    obtain ⟨y, hy⟩ := hv.fits.exists_read ht hfind
    refine ⟨by simp [Buffers.setByHash, hi, hi'], hv.fits.setByHash h x,
      hv.fits'.setByHash h x, fun k j => ?_⟩
    -- The renaming is injective, so no other value sits at the place written to.
    have hplace : k = x.kind ∧ σ k j = σ x.kind i ↔ k = x.kind ∧ j = i :=
      and_congr_right fun hk => by rw [hk, (hσ.injective _).eq_iff]
    rw [read_setByHash hi' ((hv.read _ _).trans hy), read_setByHash hi hy, hv.read]
    simp only [hplace]
  · have hfound' (i : UInt16) : t'.byHash[h]? ≠ some (x.kind, i) := by
      intro hi
      rw [hσ.find, Option.map_eq_some_iff] at hi
      obtain ⟨⟨k, j⟩, hj, heq⟩ := hi
      obtain rfl : k = x.kind := (Prod.mk.inj heq).1
      exact hfound ⟨j, hj⟩
    have hnone := hv.fits.position?_eq_none ht fun i hi => hfound ⟨i, hi⟩
    have hnone' := hv.fits'.position?_eq_none ht' hfound'
    simp only [Buffers.setByHash, hnone, hnone']
    exact ⟨trivial, hv⟩

theorem eq_of_map_eq {α β : Type} {f : α → β} (hf : Function.Injective f)
    {x y : Except Fault α} (h : x.map f = y.map f) : x = y := by
  cases x <;> cases y <;> simp_all [Except.map, hf.eq_iff]

theorem Mirrors.bool (hv : Mirrors σ t t' v v') (i : UInt16) :
    v'.bool (σ .bool i) = v.bool i :=
  eq_of_map_eq (fun _ _ h => Value.bool.inj h) (hv.read .bool i)

theorem Mirrors.int (hv : Mirrors σ t t' v v') (i : UInt16) :
    v'.int (σ .int i) = v.int i :=
  eq_of_map_eq (fun _ _ h => Value.int.inj h) (hv.read .int i)

theorem Mirrors.float (hv : Mirrors σ t t' v v') (i : UInt16) :
    v'.float (σ .float i) = v.float i :=
  eq_of_map_eq (fun _ _ h => Value.float.inj h) (hv.read .float i)

theorem Mirrors.numeric (hv : Mirrors σ t t' v v') (p : Numeric) :
    v'.numeric (p.reindex σ) = v.numeric p := by
  obtain ⟨k, i⟩ := p
  cases k with
  | int => exact congrArg (Except.map _) (hv.int i)
  | bool => exact hv.float i
  | float => exact hv.float i

end Mirrors

end Parameter.Buffers

theorem fetch_map {α β : Type} (f : α → β) (xs : Array α) (i : Nat) :
    fetch (xs.map f) i = f <$> fetch xs i := by
  rw [fetch, fetch, Array.getElem?_map]
  cases xs[i]? <;> rfl

theorem allM_map {m : Type → Type} [Monad m] {α β : Type} (f : α → β) (p : β → m Bool)
    (xs : List α) : (xs.map f).allM p = xs.allM fun x => p (f x) := by
  induction xs with
  | nil => rfl
  | cons x xs ih => simp only [List.map_cons, List.allM, ih]

namespace Baked

theorem Span.slice_map {α β : Type} (f : α → β) (s : Span) (pool : Array α) :
    s.slice (pool.map f) = Array.map f <$> s.slice pool := by
  rw [slice, slice, Array.size_map]
  split
  · exact congrArg Except.ok (by simp)
  · rfl

variable {σ : Kind → UInt16 → UInt16} (l : Layout) (b : Baked)

theorem subs_reindex : (b.reindex σ l).subs = b.subs := rfl

theorem transitions_reindex : (b.reindex σ l).transitions = b.transitions := rfl

theorem states_reindex : (b.reindex σ l).states = b.states.map (State.reindex σ) := rfl

theorem enclosesWithin_reindex (outer : Int32) (n : Nat) (inner : Int32) :
    (b.reindex σ l).enclosesWithin outer n inner = b.enclosesWithin outer n inner := by
  induction n generalizing inner with
  | zero => rfl
  | succ n ih => simp only [enclosesWithin, ih, subs_reindex]

theorem encloses_reindex (outer inner : Int32) :
    (b.reindex σ l).encloses outer inner = b.encloses outer inner := by
  simp only [encloses, enclosesWithin_reindex, subs_reindex]

theorem ancestorWithin_reindex (level n : Nat) (sub : Int32) :
    (b.reindex σ l).ancestorWithin level n sub = b.ancestorWithin level n sub := by
  induction n generalizing sub with
  | zero => rfl
  | succ n ih => simp only [ancestorWithin, ih, subs_reindex]

theorem ancestorAt_reindex (sub : Int32) (level : Nat) :
    (b.reindex σ l).ancestorAt sub level = b.ancestorAt sub level :=
  b.ancestorWithin_reindex l level _ sub

theorem exitOf_reindex (s : State) :
    (b.reindex σ l).exitOf (s.reindex σ) = b.exitOf s :=
  rfl

theorem clipRef_reindex (s : State) (i : Nat) :
    (b.reindex σ l).clipRef (s.reindex σ) i = b.clipRef s i := by
  unfold clipRef
  cases hk : s.kind <;>
    simp [reindex, State.reindex, hk, fetch_map, LineState.reindex, PlaneState.reindex]

theorem clipAt_reindex (s : State) (i : Nat) :
    (b.reindex σ l).clipAt (s.reindex σ) i = b.clipAt s i := by
  simp only [clipAt, clipRef_reindex]
  rfl

theorem weighted_reindex (s : State) (weights : List Float32) :
    (b.reindex σ l).weighted (s.reindex σ) weights = b.weighted s weights := by
  simp only [weighted, clipAt_reindex]

variable {t t' : Table} {v v' : Buffers} (hv : v.Mirrors σ t t' v')

include hv

theorem BoolTest.holds_reindex (c : BoolTest) : (c.reindex σ).holds v' = c.holds v := by
  rw [BoolTest.holds, BoolTest.holds, BoolTest.reindex, hv.bool]

theorem IntTest.holds_reindex (c : IntTest) : (c.reindex σ).holds v' = c.holds v := by
  rw [IntTest.holds, IntTest.holds, IntTest.reindex, hv.int]

theorem passes_reindex (time : Float32) (e : Edge) :
    (b.reindex σ l).passes v' time e = b.passes v time e := by
  simp only [passes, reindex, Span.slice_map, bind_map_left, Array.toList_map, allM_map,
    BoolTest.holds_reindex hv, IntTest.holds_reindex hv]

theorem firstPassing_reindex (time : Float32) (allowed : Edge → Bool) (es : List (Edge × Nat)) :
    (b.reindex σ l).firstPassing v' time allowed es = b.firstPassing v time allowed es := by
  induction es with
  | nil => rfl
  | cons e es ih => simp only [firstPassing, passes_reindex l b hv, ih]

theorem chooseFrom_reindex (time : Float32) (span : Span) (allowed : Edge → Bool) :
    (b.reindex σ l).chooseFrom v' time span allowed = b.chooseFrom v time span allowed := by
  simp only [chooseFrom, firstPassing_reindex l b hv]
  rfl

theorem choose_reindex (p : Playback) : (b.reindex σ l).choose v' p = b.choose v p := by
  simp only [choose, states_reindex, Array.getElem?_map]
  cases b.states[p.state.toNat]? with
  | none => rfl
  | some s =>
      simp only [Option.map_some, chooseFrom_reindex l b hv, exitOf_reindex]
      rfl

theorem weights_reindex (slots : Nat) (s : State) :
    (b.reindex σ l).weights v' slots (s.reindex σ) = b.weights v slots s := by
  unfold weights
  cases hk : s.kind with
  | clip => simp [State.reindex, hk]
  | line =>
      simp [State.reindex, hk, reindex, fetch_map, LineState.reindex, lineSlices, hv.numeric]
  | plane =>
      simp [State.reindex, hk, reindex, fetch_map, PlaneState.reindex, hv.float]

theorem speed_reindex (s : State) : speed v' (s.reindex σ) = speed v s := by
  cases hp : s.speedParameter with
  | none => simp [speed, State.reindex, hp]
  | some p => simp [speed, State.reindex, hp, hv.float]

theorem play_reindex (slots : Nat) (dt scale : Float32) (p : Playback) :
    (b.reindex σ l).play v' slots dt scale p = b.play v slots dt scale p := by
  simp only [play, states_reindex, fetch_map, bind_map_left, weights_reindex l b hv,
    speed_reindex hv, weighted_reindex]
  rfl

end Baked

section Navigation

variable (σ : Kind → UInt16 → UInt16) (l : Layout) (b : Baked)

theorem Baked.levelOf_reindex (sub : Int32) : (b.reindex σ l).levelOf sub = b.levelOf sub := rfl

theorem Navigation.leave_reindex (sub : Int32) (cs : List Context) :
    leave (b.reindex σ l) sub cs = leave b sub cs := by
  induction cs with
  | nil => rfl
  | cons c cs ih => simp only [leave, Baked.encloses_reindex, ih]

theorem Navigation.enter_reindex (sub state : Int32) (level k : Nat) (entered : List Context) :
    enter (b.reindex σ l) sub state level k entered = enter b sub state level k entered := by
  induction k generalizing level entered with
  | zero => rfl
  | succ k ih => simp only [enter, Baked.ancestorAt_reindex, ih]

theorem Navigation.sync_reindex (n : Navigation) (state : Nat) :
    n.sync (b.reindex σ l) state = n.sync b state := by
  simp only [sync, Baked.states_reindex, Array.getElem?_map]
  cases b.states[state]? with
  | none => rfl
  | some s =>
      simp only [Option.map_some, leave_reindex, Baked.levelOf_reindex, enter_reindex]
      rfl

end Navigation

namespace Instance

variable {σ : Kind → UInt16 → UInt16} (l : Layout) (b : Baked) (x : Instance)

theorem start_reindex (room : Config) : start (b.reindex σ l) room = start b room := by
  simp only [start, Navigation.sync_reindex]
  rfl

theorem enter_reindex (state : UInt32) (time : Float32) (s : Baked.State) :
    x.enter (b.reindex σ l) state time (s.reindex σ) = x.enter b state time s := by
  simp only [enter, Navigation.sync_reindex]
  rfl

theorem force_reindex (state : UInt32) (time : Float32) :
    x.force (b.reindex σ l) state time = x.force b state time := by
  simp only [force, Baked.states_reindex, Array.getElem?_map]
  cases b.states[state.toNat]? with
  | none => rfl
  | some s => exact x.enter_reindex l b state time s

theorem take?_reindex (index : Nat) (source : Source) :
    x.take? (b.reindex σ l) index source = x.take? b index source := by
  simp only [take?, Baked.transitions_reindex, Baked.states_reindex, Array.getElem?_map]
  refine bind_congr fun e => ?_
  cases b.states[e.target.toNat]? with
  | none => rfl
  | some s => simp only [Option.map_some, enter_reindex]

theorem blend_reindex (dt : Float32) : x.blend (b.reindex σ l) dt = x.blend b dt := rfl

variable {t t' : Table} {v v' : Buffers} (hv : v.Mirrors σ t t' v')

include hv

theorem transit_reindex : x.transit (b.reindex σ l) v' = x.transit b v := by
  simp only [transit, Baked.choose_reindex l b hv, take?_reindex]

theorem sample_reindex (dt : Float32) :
    x.sample (b.reindex σ l) v' dt = x.sample b v dt := by
  simp only [sample, Baked.play_reindex l b hv]

/-- A tick reads the same values at their new positions. -/
theorem advance_reindex (dt : Float32) :
    x.advance (b.reindex σ l) v' dt = x.advance b v dt := by
  have hempty : (b.reindex σ l).states.isEmpty = b.states.isEmpty := by
    simp only [Baked.states_reindex, Array.isEmpty, Array.size_map]
  simp only [advance, hempty, transit_reindex l b _ hv, blend_reindex, sample_reindex l b _ hv]

end Instance

namespace Session

/-- Whether a set finds its parameter. -/
def found? (x : Session) : Event → Option Bool
  | .set name v => some (x.values.set name v).1
  | .setByHash hash v => some (x.values.setByHash hash v).1
  | _ => none

/-- What events tell their caller one after another: the tick of each advance, and whether each set
finds its parameter. -/
def replies (x : Session) (b : Baked) :
    List Event → Except Fault (List (Option Tick × Option Bool))
  | [] => pure []
  | e :: es => do
    let (y, tick) ← x.step b e
    let rest ← y.replies b es
    pure ((tick, x.found? e) :: rest)

/-- The same instance with the same values, at their positions in another table. -/
structure Mirrors (σ : Kind → UInt16 → UInt16) (t t' : Table) (x y : Session) : Prop where
  player : y.player = x.player
  values : x.values.Mirrors σ t t' y.values

variable {σ : Kind → UInt16 → UInt16} {t t' : Table} {b : Baked} {x y : Session}

section Steps

variable (ht : t.Coherent) (ht' : t'.Coherent) (hσ : Table.Renames σ t t')

include ht ht' hσ

theorem Mirrors.found? (h : x.Mirrors σ t t' y) (e : Event) : y.found? e = x.found? e := by
  cases e with
  | advance dt => rfl
  | force state time => rfl
  | set name v => exact congrArg some (h.values.setByHash ht ht' hσ _ v).1
  | setByHash hash v => exact congrArg some (h.values.setByHash ht ht' hσ hash v).1

/-- An event does the same to the instance in both orders, and the values stay mirrored. -/
theorem Mirrors.step (h : x.Mirrors σ t t' y) (l : Layout) (e : Event) :
    ∃ (played : Except Fault (Instance × Option Tick)) (v v' : Buffers), v.Mirrors σ t t' v' ∧
      x.step b e = (fun p => (⟨p.1, v⟩, p.2)) <$> played ∧
      y.step (b.reindex σ l) e = (fun p => (⟨p.1, v'⟩, p.2)) <$> played := by
  obtain ⟨_, w⟩ := x
  obtain ⟨z, w'⟩ := y
  obtain ⟨rfl, hw⟩ := h
  cases e with
  | advance dt =>
      refine ⟨(fun p => (p.2, some p.1)) <$> z.advance b w dt, w, w', hw, ?_, ?_⟩
      · simp [Session.step]
      · simp [Session.step, Instance.advance_reindex l b z hw]
  | force state time =>
      refine ⟨(fun p => (p, none)) <$> z.force b state time, w, w', hw, ?_, ?_⟩
      · simp [Session.step]
      · simp [Session.step, Instance.force_reindex]
  | set name v =>
      exact ⟨pure (z, none), _, _, (hw.setByHash ht ht' hσ _ v).2, rfl, rfl⟩
  | setByHash hash v =>
      exact ⟨pure (z, none), _, _, (hw.setByHash ht ht' hσ hash v).2, rfl, rfl⟩

theorem Mirrors.replies (h : x.Mirrors σ t t' y) (l : Layout) (es : List Event) :
    y.replies (b.reindex σ l) es = x.replies b es := by
  induction es generalizing x y with
  | nil => rfl
  | cons e es ih =>
      obtain ⟨played, v, v', hv, hx, hy⟩ := h.step (b := b) ht ht' hσ l e
      -- The instance goes on alike, so only the values differ when the rest of the events begins.
      rw [Session.replies, Session.replies, hx, hy, h.found? ht ht' hσ, bind_map_left,
        bind_map_left]
      refine bind_congr fun p => ?_
      have hrest := ih (x := ⟨p.1, v⟩) (y := ⟨p.1, v'⟩) ⟨rfl, hv⟩
      simp only [hrest]

/-- Both orders start alike and never tell their callers anything different. -/
theorem replies_reindex (hlayout : b.parameters = t.layout) (room : Config) (es : List Event) :
    (start (b.reindex σ t'.layout) room >>= fun y => y.replies (b.reindex σ t'.layout) es) =
      (start b room >>= fun x => x.replies b es) := by
  simp only [start, Instance.start_reindex, bind_assoc, pure_bind]
  refine bind_congr fun player => ?_
  have hstart : Mirrors σ t t' ⟨player, .ofLayout b.parameters⟩ ⟨player, .ofLayout t'.layout⟩ := by
    refine ⟨rfl, ?_⟩
    rw [hlayout]
    exact Parameter.Buffers.mirrors_ofLayout hσ
  exact hstart.replies ht ht' hσ t'.layout es

end Steps

end Session

namespace Machine

/-- The order in which parameters are declared decides neither whether a machine is baked nor
anything that an instance of it tells. -/
theorem replies_perm (m : Machine) {ps ps' : List Parameter} (hperm : ps.Perm ps')
    (cfg : Config) :
    ((∃ b, (m.bakeWith ps cfg).outcome = .ok b) ↔ ∃ b, (m.bakeWith ps' cfg).outcome = .ok b) ∧
      ∀ b b', (m.bakeWith ps cfg).outcome = .ok b → (m.bakeWith ps' cfg).outcome = .ok b' →
        ∀ (room : Config) (es : List Event),
          (Session.start b' room >>= fun y => y.replies b' es) =
            (Session.start b room >>= fun x => x.replies b es) := by
  refine ⟨⟨?_, ?_⟩, ?_⟩
  · rintro ⟨b, hb⟩
    obtain ⟨_, _, _, -, -, -, -, hb'⟩ := exists_reindex_of_perm hperm hb
    exact ⟨_, hb'⟩
  · rintro ⟨b, hb⟩
    obtain ⟨_, _, _, -, -, -, -, hb'⟩ := exists_reindex_of_perm hperm.symm hb
    exact ⟨_, hb'⟩
  · intro b b' hb hb' room es
    obtain ⟨t, t', σ, ht, ht', hσ, hlayout, hmoved⟩ := exists_reindex_of_perm hperm hb
    obtain rfl : b.reindex σ t'.layout = b' := Except.ok.inj (hmoved.symm.trans hb')
    exact Session.replies_reindex ht ht' hσ hlayout room es

/-- A machine whose only state plays at the speed of a parameter. -/
def pacing : Machine where
  name := "pacing"
  states := [.leaf { id := 0, name := "walk", speedParameter := some "pace" } (.clip ⟨"walk", 1⟩)]

theorem exists_bakeWith_pacing :
    ∃ b, (pacing.bakeWith [⟨"lean", .float 0⟩, ⟨"pace", .float 1⟩] {}).outcome = .ok b := by
  have hne : nameHash "lean" ≠ nameHash "pace" := by decide
  open SmallBakes in
  simp [pacing, hne, -String.reduceAppend]
  exact ⟨_, rfl⟩

theorem replies_perm_pacing : ∃ b b',
    (pacing.bakeWith [⟨"lean", .float 0⟩, ⟨"pace", .float 1⟩] {}).outcome = .ok b ∧
      (pacing.bakeWith [⟨"pace", .float 1⟩, ⟨"lean", .float 0⟩] {}).outcome = .ok b' ∧
      ∀ es, (Session.start b' {} >>= fun y => y.replies b' es) =
        (Session.start b {} >>= fun x => x.replies b es) := by
  obtain ⟨hbakes, hreplies⟩ := pacing.replies_perm
    (List.Perm.swap ⟨"pace", .float 1⟩ ⟨"lean", .float 0⟩ []) {}
  obtain ⟨b, hb⟩ := exists_bakeWith_pacing
  obtain ⟨b', hb'⟩ := hbakes.mp ⟨b, hb⟩
  exact ⟨b, b', hb, hb', hreplies b b' hb hb' {}⟩

end Machine

end PoseMachine
