import PoseMachine.Proofs.Layers
import PoseMachine.Proofs.RunSafety

/-!
Runs of an animator. Whatever happens to its layers, each of them goes the way that its machine goes
alone, given the same values, ticks and the jumps meant for it.
-/

namespace PoseMachine

open Parameter (Buffers)

namespace Session

/-- Some events lead from one session to another. -/
def Leads (b : Baked) (x : Session) (es : List Event) (y : Session) : Prop :=
  ∃ ticks, x.run b es = .ok (y, ticks)

/-- A session from its start on. -/
def play (b : Baked) (room : Config) (es : List Event) : Except Fault (Session × List Tick) := do
  let x ← start b room
  x.run b es

variable {b : Baked} {x y z : Session} {es es' : List Event}

theorem leads_nil : Leads b x [] y ↔ x = y := by
  simp [Leads, run, Pure.pure, Except.pure]

theorem leads_cons_iff {e : Event} :
    Leads b x (e :: es) z ↔ ∃ y tick, x.step b e = .ok (y, tick) ∧ Leads b y es z := by
  simp only [Leads, run, bind_eq_ok_iff, pure_eq_ok_iff, Prod.exists, Prod.mk.injEq]
  constructor
  · rintro ⟨ticks, y, tick, hy, z', ticks', hz, rfl, -⟩
    exact ⟨y, tick, hy, ticks', hz⟩
  · rintro ⟨y, tick, hy, ticks, hz⟩
    exact ⟨_, y, tick, hy, z, ticks, hz, rfl, rfl⟩

theorem leads_append_iff : Leads b x (es ++ es') z ↔ ∃ y, Leads b x es y ∧ Leads b y es' z := by
  induction es generalizing x with
  | nil => simp [leads_nil]
  | cons e es ih =>
      simp only [List.cons_append, leads_cons_iff, ih]
      constructor
      · rintro ⟨w, tick, hw, y, hy, hz⟩
        exact ⟨y, ⟨w, tick, hw, hy⟩, hz⟩
      · rintro ⟨y, ⟨w, tick, hw, hy⟩, hz⟩
        exact ⟨w, tick, hw, y, hy, hz⟩

theorem Leads.unique (hy : Leads b x es y) (hz : Leads b x es z) : y = z := by
  obtain ⟨ticks, hy⟩ := hy
  obtain ⟨ticks', hz⟩ := hz
  rw [hy] at hz
  exact (Prod.mk.inj (Except.ok.inj hz)).1

theorem leads_advance_iff {dt : Float32} : Leads b x [.advance dt] y ↔
    y.values = x.values ∧ ∃ tick, x.player.advance b x.values dt = .ok (tick, y.player) := by
  obtain ⟨player, values⟩ := y
  rw [leads_cons_iff]
  simp only [leads_nil, step, bind_eq_ok_iff, pure_eq_ok_iff, Prod.exists]
  constructor
  · rintro ⟨_, _, ⟨tick, player', hplayer, heq⟩, rfl⟩
    obtain ⟨hsession, -⟩ := Prod.mk.inj heq
    obtain ⟨rfl, rfl⟩ := Session.mk.inj hsession
    exact ⟨rfl, tick, hplayer⟩
  · rintro ⟨rfl, tick, hplayer⟩
    exact ⟨_, _, ⟨tick, player, hplayer, rfl⟩, rfl⟩

theorem leads_force_iff {state : UInt32} {t : Float32} : Leads b x [.force state t] y ↔
    y.values = x.values ∧ x.player.force b state t = .ok y.player := by
  obtain ⟨player, values⟩ := y
  rw [leads_cons_iff]
  simp only [leads_nil, step, bind_eq_ok_iff, pure_eq_ok_iff]
  constructor
  · rintro ⟨_, _, ⟨player', hplayer, heq⟩, rfl⟩
    obtain ⟨hsession, -⟩ := Prod.mk.inj heq
    obtain ⟨rfl, rfl⟩ := Session.mk.inj hsession
    exact ⟨rfl, hplayer⟩
  · rintro ⟨rfl, hplayer⟩
    exact ⟨_, _, ⟨player, hplayer, rfl⟩, rfl⟩

end Session

namespace Animator

/-- What can happen to a running animator. -/
inductive Event where
  | advance (dt : Float32)
  | force (layer : Nat) (state : UInt32) (t : Float32)
  | set (name : String) (v : Parameter.Value)
  | setByHash (hash : UInt32) (v : Parameter.Value)

/-- What an event is to layer `k`. -/
def Event.reaching (k : Nat) : Event → List PoseMachine.Event
  | .advance dt => [.advance dt]
  | .force layer state t => if layer = k then [.force state t] else []
  | .set name v => [.set name v]
  | .setByHash hash v => [.setByHash hash v]

structure Session where
  player : RunningAnimator
  values : Buffers

namespace Session

/-- Every layer in its default state, every parameter at its default. -/
def start (a : Baked.Animator) (room : Config) : Except Fault Session := do
  let player ← RunningAnimator.start a room
  pure ⟨player, .ofLayout a.parameters⟩

/-- One event. A jump of a layer that does not exist changes nothing. -/
def step (x : Session) (a : Baked.Animator) : Event → Except Fault Session
  | .advance dt => do
    let player ← x.player.advance a x.values dt
    pure ⟨player, x.values⟩
  | .force layer state t => do
    match ← x.player.force? a layer state t with
    | some (_, player) => pure ⟨player, x.values⟩
    | none => pure x
  | .set name v => pure ⟨x.player, (x.values.set name v).2⟩
  | .setByHash hash v => pure ⟨x.player, (x.values.setByHash hash v).2⟩

def run (x : Session) (a : Baked.Animator) : List Event → Except Fault Session
  | [] => pure x
  | e :: es => do
    let y ← x.step a e
    y.run a es

def play (a : Baked.Animator) (room : Config) (es : List Event) : Except Fault Session := do
  let x ← start a room
  x.run a es

/-- The session of one layer. -/
def layer? (x : Session) (k : Nat) : Option PoseMachine.Session :=
  x.player.instances[k]?.map fun y => ⟨y, x.values⟩

/-- Each layer was led by its own events from the one session to the other. -/
structure Leads (a : Baked.Animator) (x : Session) (es : Nat → List PoseMachine.Event)
    (y : Session) : Prop where
  size : y.player.instances.length = a.layers.size
  layer : ∀ k l s, a.layers[k]? = some l → x.layer? k = some s →
    ∃ s', y.layer? k = some s' ∧ s.Leads l.machine (es k) s'

variable {a : Baked.Animator} {x y z : Session} {es es' : Nat → List PoseMachine.Event}

theorem Leads.trans (h : Leads a x es y) (h' : Leads a y es' z) :
    Leads a x (fun k => es k ++ es' k) z := by
  refine ⟨h'.size, ?_⟩
  intro k l s hl hs
  obtain ⟨s', hs', hlead⟩ := h.layer k l s hl hs
  obtain ⟨s'', hs'', hlead'⟩ := h'.layer k l s' hl hs'
  exact ⟨s'', hs'', PoseMachine.Session.leads_append_iff.mpr ⟨s', hlead, hlead'⟩⟩

section Steps

theorem step_force_of_some {layer : Nat} {p : Instance} {l : Baked.Layer}
    (hp : x.player.instances[layer]? = some p) (hl : a.layers[layer]? = some l) (state : UInt32)
    (t : Float32) : x.step a (.force layer state t) =
      (p.force l.machine state t).map fun p' => ⟨⟨x.player.instances.set layer p'⟩, x.values⟩ := by
  simp only [step, RunningAnimator.force?, hp, hl]
  cases p.force l.machine state t <;> rfl

theorem step_force_of_none {layer : Nat} (hl : a.layers[layer]? = none) (state : UInt32)
    (t : Float32) : x.step a (.force layer state t) = .ok x := by
  simp only [step, RunningAnimator.force?, hl]
  cases x.player.instances[layer]? <;> rfl

variable (hx : x.player.instances.length = a.layers.size)

include hx

theorem exists_instance {k : Nat} {l : Baked.Layer} (hl : a.layers[k]? = some l) :
    ∃ p, x.player.instances[k]? = some p := by
  have hlt : k < a.layers.size := (Array.getElem?_eq_some_iff.mp hl).1
  exact ⟨_, List.getElem?_eq_getElem (hx ▸ hlt)⟩

theorem leads_of_advance {dt : Float32} (h : x.step a (.advance dt) = .ok y) :
    Leads a x (fun _ => [.advance dt]) y := by
  simp only [step, RunningAnimator.advance, bind_eq_ok_iff, pure_eq_ok_iff, mapM_eq_ok_iff] at h
  obtain ⟨player, ⟨instances, hall, rfl⟩, rfl⟩ := h
  refine ⟨?_, ?_⟩
  · simpa [hx] using hall.length_eq.symm
  · intro k l s hl hs
    obtain ⟨p, hp, rfl⟩ := Option.map_eq_some_iff.mp hs
    have hzip : (x.player.instances.zip a.layers.toList)[k]? = some (p, l) :=
      List.getElem?_zip_eq_some.mpr ⟨hp, by simpa using hl⟩
    obtain ⟨p', hp', ⟨tick, _⟩, hadvance, rfl⟩ := exists_related_of_getElem?_left hall hzip
    exact ⟨⟨_, x.values⟩, Option.map_eq_some_iff.mpr ⟨_, hp', rfl⟩,
      PoseMachine.Session.leads_advance_iff.mpr ⟨rfl, tick, hadvance⟩⟩

theorem leads_of_force {layer : Nat} {state : UInt32} {t : Float32}
    (h : x.step a (.force layer state t) = .ok y) :
    Leads a x (Event.reaching · (.force layer state t)) y := by
  cases hl : a.layers[layer]? with
  | none =>
      rw [step_force_of_none hl] at h
      obtain rfl := Except.ok.inj h
      refine ⟨hx, ?_⟩
      intro k l s hk hs
      have hne : layer ≠ k := by
        rintro rfl
        rw [hl] at hk
        cases hk
      rw [Event.reaching, if_neg hne]
      exact ⟨s, hs, PoseMachine.Session.leads_nil.mpr rfl⟩
  | some l₀ =>
      obtain ⟨p, hp⟩ := exists_instance hx hl
      rw [step_force_of_some hp hl, map_eq_ok_iff] at h
      obtain ⟨p', hforce, rfl⟩ := h
      refine ⟨by simpa using hx, ?_⟩
      intro k l s hk hs
      by_cases hlayer : layer = k
      · subst hlayer
        obtain rfl : l₀ = l := Option.some.inj (hl.symm.trans hk)
        obtain rfl : ⟨p, x.values⟩ = s := by simpa [layer?, hp] using hs
        rw [Event.reaching, if_pos rfl]
        refine ⟨⟨p', x.values⟩, ?_, PoseMachine.Session.leads_force_iff.mpr ⟨rfl, hforce⟩⟩
        simp [layer?, (List.getElem?_eq_some_iff.mp hp).1]
      · rw [Event.reaching, if_neg hlayer]
        refine ⟨s, ?_, PoseMachine.Session.leads_nil.mpr rfl⟩
        rw [← hs]
        simp [layer?, List.getElem?_set_ne hlayer]

/-- A change of the values reaches all layers alike. -/
theorem leads_of_values {es : List PoseMachine.Event} {values : Buffers}
    (h : ∀ b p, PoseMachine.Session.Leads b ⟨p, x.values⟩ es ⟨p, values⟩) :
    Leads a x (fun _ => es) ⟨x.player, values⟩ := by
  refine ⟨hx, ?_⟩
  intro k l s hl hs
  obtain ⟨p, hp, rfl⟩ := Option.map_eq_some_iff.mp hs
  exact ⟨⟨p, values⟩, Option.map_eq_some_iff.mpr ⟨p, hp, rfl⟩, h l.machine p⟩

theorem leads_of_step {e : Event} (h : x.step a e = .ok y) :
    Leads a x (Event.reaching · e) y := by
  cases e with
  | advance dt => exact leads_of_advance hx h
  | force layer state t => exact leads_of_force hx h
  | set name v =>
      obtain rfl := Except.ok.inj h
      exact leads_of_values hx fun b p => ⟨[], rfl⟩
  | setByHash hash v =>
      obtain rfl := Except.ok.inj h
      exact leads_of_values hx fun b p => ⟨[], rfl⟩

theorem leads_of_run {es : List Event} (h : x.run a es = .ok y) :
    Leads a x (fun k => es.flatMap (Event.reaching k)) y := by
  induction es generalizing x with
  | nil =>
      obtain rfl := Except.ok.inj h
      exact ⟨hx, fun k l s _ hs => ⟨s, hs, PoseMachine.Session.leads_nil.mpr rfl⟩⟩
  | cons e es ih =>
      obtain ⟨z, hz, h⟩ := bind_eq_ok_iff.mp h
      have hstep := leads_of_step hx hz
      exact hstep.trans (ih hstep.size h)

/-- An event has a result if it has one for each layer. -/
theorem exists_step {e : Event} (h : ∀ k l s, a.layers[k]? = some l → x.layer? k = some s →
    ∃ s', s.Leads l.machine (e.reaching k) s') : ∃ y, x.step a e = .ok y := by
  cases e with
  | advance dt =>
      have hall : Yields (x.player.advance a x.values dt) fun _ => True := by
        refine Yields.bind (Yields.mapM (Q := fun _ => True) ?_) fun _ _ => .pure trivial
        rintro ⟨p, l⟩ hpl
        obtain ⟨k, hk⟩ := List.mem_iff_getElem?.mp hpl
        obtain ⟨hp, hl⟩ := List.getElem?_zip_eq_some.mp hk
        obtain ⟨s', hs'⟩ := h k l ⟨p, x.values⟩ (by simpa using hl)
          (Option.map_eq_some_iff.mpr ⟨p, hp, rfl⟩)
        obtain ⟨-, tick, hadvance⟩ := PoseMachine.Session.leads_advance_iff.mp hs'
        exact Yields.bind (P := fun _ => True) ⟨_, hadvance, trivial⟩ fun _ _ => .pure trivial
      obtain ⟨y, hy, -⟩ := Yields.bind hall fun player _ =>
        Yields.pure (a := (⟨player, x.values⟩ : Session)) (P := fun _ => True) trivial
      exact ⟨y, hy⟩
  | force layer state t =>
      cases hl : a.layers[layer]? with
      | none => exact ⟨x, step_force_of_none hl state t⟩
      | some l =>
          obtain ⟨p, hp⟩ := exists_instance hx hl
          obtain ⟨s', hs'⟩ := h layer l ⟨p, x.values⟩ hl (by simp [layer?, hp])
          rw [Event.reaching, if_pos rfl] at hs'
          obtain ⟨-, hforce⟩ := PoseMachine.Session.leads_force_iff.mp hs'
          exact ⟨_, by rw [step_force_of_some hp hl, hforce]; rfl⟩
  | set name v => exact ⟨_, rfl⟩
  | setByHash hash v => exact ⟨_, rfl⟩

/-- Events have a result if they have one for each layer. -/
theorem exists_run {es : List Event} (h : ∀ k l s, a.layers[k]? = some l → x.layer? k = some s →
    ∃ s', s.Leads l.machine (es.flatMap (Event.reaching k)) s') : ∃ y, x.run a es = .ok y := by
  induction es generalizing x with
  | nil => exact ⟨x, rfl⟩
  | cons e es ih =>
      have hsplit : ∀ k l s, a.layers[k]? = some l → x.layer? k = some s →
          ∃ s', s.Leads l.machine (e.reaching k) s' ∧
            ∃ s'', s'.Leads l.machine (es.flatMap (Event.reaching k)) s'' := by
        intro k l s hl hs
        obtain ⟨s'', hs''⟩ := h k l s hl hs
        rw [List.flatMap_cons, PoseMachine.Session.leads_append_iff] at hs''
        obtain ⟨s', hs', hs''⟩ := hs''
        exact ⟨s', hs', s'', hs''⟩
      obtain ⟨y, hy⟩ := exists_step hx fun k l s hl hs =>
        (hsplit k l s hl hs).imp fun _ hs' => hs'.1
      have hstep := leads_of_step hx hy
      obtain ⟨z, hz⟩ := ih hstep.size fun k l s' hl hs' => by
        obtain ⟨p, hp⟩ := exists_instance hx hl
        obtain ⟨s'', hs'', hrest⟩ := hsplit k l ⟨p, x.values⟩ hl (by simp [layer?, hp])
        obtain ⟨s₁, hs₁, hlead⟩ := hstep.layer k l ⟨p, x.values⟩ hl (by simp [layer?, hp])
        -- The layer is in one session only after the event.
        obtain rfl : s₁ = s' := Option.some.inj (hs₁.symm.trans hs')
        obtain rfl := hs''.unique hlead
        exact hrest
      exact ⟨z, by rw [run, hy, ok_bind, hz]⟩

end Steps

theorem layers_of_start {room : Config}
    (hlayout : ∀ l ∈ a.layers, l.machine.parameters = a.parameters)
    (h : start a room = .ok x) : x.player.instances.length = a.layers.size ∧
      ∀ (k : Nat) (l : Baked.Layer), a.layers[k]? = some l →
        ∃ s, x.layer? k = some s ∧ PoseMachine.Session.start l.machine room = .ok s := by
  simp only [start, RunningAnimator.start, bind_eq_ok_iff, pure_eq_ok_iff, mapM_eq_ok_iff] at h
  obtain ⟨_, ⟨instances, hall, rfl⟩, rfl⟩ := h
  refine ⟨by simpa using hall.length_eq.symm, ?_⟩
  intro k l hl
  obtain ⟨p, hp, hstart⟩ := exists_related_of_getElem?_left hall (Array.getElem?_toList.trans hl)
  refine ⟨⟨p, .ofLayout a.parameters⟩, Option.map_eq_some_iff.mpr ⟨p, hp, rfl⟩, ?_⟩
  rw [PoseMachine.Session.start, hstart, ok_bind, hlayout l (Array.mem_of_getElem? hl)]
  rfl

theorem exists_start {room : Config} (h : ∀ (k : Nat) (l : Baked.Layer), a.layers[k]? = some l →
    ∃ s, PoseMachine.Session.start l.machine room = .ok s) : ∃ x, start a room = .ok x := by
  have hall : Yields (RunningAnimator.start a room) fun _ => True := by
    refine Yields.bind (Yields.mapM (Q := fun _ => True) ?_) fun _ _ => .pure trivial
    intro l hl
    obtain ⟨k, hk⟩ := List.mem_iff_getElem?.mp hl
    obtain ⟨s, hs⟩ := h k l (Array.getElem?_toList.symm.trans hk)
    obtain ⟨p, hp, -⟩ := bind_eq_ok_iff.mp hs
    exact ⟨p, hp, trivial⟩
  obtain ⟨player, hplayer, -⟩ := hall
  exact ⟨_, by rw [start, hplayer, ok_bind]; rfl⟩

/-- An animator has a run just when each layer has one alone, and every layer ends up as it does
alone. -/
theorem play_spec {room : Config} {es : List Event}
    (hlayout : ∀ l ∈ a.layers, l.machine.parameters = a.parameters) :
    ((∃ x, play a room es = .ok x) ↔
      ∀ (k : Nat) (l : Baked.Layer), a.layers[k]? = some l → ∃ s,
        PoseMachine.Session.play l.machine room (es.flatMap (Event.reaching k)) = .ok s) ∧
    ∀ x, play a room es = .ok x → x.player.instances.length = a.layers.size ∧
      ∀ (k : Nat) (l : Baked.Layer), a.layers[k]? = some l → ∃ s ticks,
        PoseMachine.Session.play l.machine room (es.flatMap (Event.reaching k)) = .ok (s, ticks) ∧
          x.layer? k = some s := by
  have hlayers : ∀ x, play a room es = .ok x → x.player.instances.length = a.layers.size ∧
      ∀ (k : Nat) (l : Baked.Layer), a.layers[k]? = some l → ∃ s ticks,
        PoseMachine.Session.play l.machine room (es.flatMap (Event.reaching k)) = .ok (s, ticks) ∧
          x.layer? k = some s := by
    intro x hx
    obtain ⟨x₀, hstart, hrun⟩ := bind_eq_ok_iff.mp hx
    obtain ⟨hsize, hstarts⟩ := layers_of_start hlayout hstart
    have hlead := leads_of_run hsize hrun
    refine ⟨hlead.size, ?_⟩
    intro k l hl
    obtain ⟨s₀, hs₀, hstart⟩ := hstarts k l hl
    obtain ⟨s, hs, ticks, hticks⟩ := hlead.layer k l s₀ hl hs₀
    exact ⟨s, ticks, by rw [PoseMachine.Session.play, hstart, ok_bind, hticks], hs⟩
  refine ⟨⟨?_, ?_⟩, hlayers⟩
  · rintro ⟨x, hx⟩ k l hl
    obtain ⟨s, ticks, hs, -⟩ := (hlayers x hx).2 k l hl
    exact ⟨(s, ticks), hs⟩
  · intro h
    obtain ⟨x₀, hstart⟩ : ∃ x₀, start a room = .ok x₀ := exists_start fun k l hl => by
      obtain ⟨s, hs⟩ := h k l hl
      obtain ⟨s₀, hs₀, -⟩ := bind_eq_ok_iff.mp hs
      exact ⟨s₀, hs₀⟩
    obtain ⟨hsize, hstarts⟩ := layers_of_start hlayout hstart
    obtain ⟨x, hx⟩ : ∃ x, x₀.run a es = .ok x := exists_run hsize fun k l s₀ hl hs₀ => by
      obtain ⟨s₁, hs₁, hstart⟩ := hstarts k l hl
      obtain rfl : s₁ = s₀ := Option.some.inj (hs₁.symm.trans hs₀)
      obtain ⟨⟨s, ticks⟩, hs⟩ := h k l hl
      rw [PoseMachine.Session.play, hstart, ok_bind] at hs
      exact ⟨s, ticks, hs⟩
    exact ⟨x, by rw [play, hstart, ok_bind, hx]⟩

end Session

end Animator

/-- What an instance of a layer puts out. -/
def Baked.Layer.output (l : Baked.Layer) (index : Nat) (p : Instance) : LayerOutput where
  index := index
  weight := l.weight
  mode := l.mode
  mask := l.mask
  phase := p.phase
  state := p.current.state
  samples := p.samples

namespace Animator

theorem getElem?_outputs {a : Baked.Animator} {x : Session} {k : Nat} {l : Baked.Layer}
    {s : PoseMachine.Session} (hl : a.layers[k]? = some l) (hs : x.layer? k = some s) :
    (x.player.outputs a)[k]? = some (l.output k s.player) := by
  obtain ⟨p, hp, rfl⟩ := Option.map_eq_some_iff.mp hs
  have hzip : (x.player.instances.zip a.layers.toList)[k]? = some (p, l) :=
    List.getElem?_zip_eq_some.mpr ⟨hp, Array.getElem?_toList.trans hl⟩
  simp [RunningAnimator.outputs, hzip, Baked.Layer.output]

/-- Layers know nothing of one another. An animator fails to bake just when its parameters are
refused or a layer fails, with the first such error. Else each layer is the machine baked against
the parameters of the animator, whatever parameters the machine has itself, and all layers share one
layout. In every run of the baked animator each layer puts out what its machine alone puts out after
the same ticks, the same changes of values and the jumps of that layer. -/
theorem layers_isolated (animator : Animator) (cfg : Config) :
    (∀ e, (animator.bake cfg).outcome = .error e ↔
      (Parameter.Table.build animator.parameters).outcome = .error e ∨
        (∃ t, (Parameter.Table.build animator.parameters).outcome = .ok t) ∧
          ∃ before l after, animator.layers = before ++ l :: after ∧
            (∀ l' ∈ before, ∃ b, (l'.machine.bakeWith animator.parameters cfg).outcome = .ok b) ∧
            (l.machine.bakeWith animator.parameters cfg).outcome = .error e) ∧
    ∀ a, (animator.bake cfg).outcome = .ok a →
      a.layers.size = animator.layers.length ∧
      (∀ (k : Nat) (l : Layer), animator.layers[k]? = some l → ∃ b,
        a.layers[k]? = some (l.around b) ∧
        (l.machine.bakeWith animator.parameters cfg).outcome = .ok b ∧
        (∀ declared, ({ l.machine with parameters := declared }.bakeWith
          animator.parameters cfg).outcome = .ok b) ∧
        b.parameters = a.parameters) ∧
      ∀ room es,
        ((∃ x, Session.play a room es = .ok x) ↔
          ∀ (k : Nat) (l : Baked.Layer), a.layers[k]? = some l → ∃ s,
            PoseMachine.Session.play l.machine room (es.flatMap (Event.reaching k)) = .ok s) ∧
        ∀ x, Session.play a room es = .ok x →
          (x.player.outputs a).length = a.layers.size ∧
          ∀ (k : Nat) (l : Baked.Layer), a.layers[k]? = some l → ∃ s ticks,
            PoseMachine.Session.play l.machine room (es.flatMap (Event.reaching k)) =
                .ok (s, ticks) ∧
              s.values = x.values ∧ (x.player.outputs a)[k]? = some (l.output k s.player) := by
  refine ⟨fun e => bake_eq_error, ?_⟩
  intro a ha
  obtain ⟨t, -, -, hlayers⟩ := bake_eq_ok ha
  refine ⟨by simpa using hlayers.length_eq.symm, ?_, ?_⟩
  · intro k l hl
    obtain ⟨_, hx, b, hb, rfl⟩ := exists_related_of_getElem?_left hlayers hl
    have hx : a.layers[k]? = some (l.around b) := Array.getElem?_toList.symm.trans hx
    refine ⟨b, hx, hb, fun declared => ?_, parameters_of_bake ha (Array.mem_of_getElem? hx)⟩
    rw [Machine.bakeWith_declaring]
    exact hb
  · intro room es
    obtain ⟨hplays, hall⟩ := Session.play_spec fun l hl => parameters_of_bake ha hl
    refine ⟨hplays, ?_⟩
    intro x hx
    obtain ⟨hsize, hrun⟩ := hall x hx
    refine ⟨by simp [RunningAnimator.outputs, hsize], ?_⟩
    intro k l hl
    obtain ⟨s, ticks, hs, hlayer⟩ := hrun k l hl
    refine ⟨s, ticks, hs, ?_, getElem?_outputs hl hlayer⟩
    obtain ⟨p, -, rfl⟩ := Option.map_eq_some_iff.mp hlayer
    rfl

/-- One machine in two layers, the upper one at half its weight. -/
def echoing : Animator where
  parameters := [⟨"grounded", .bool true⟩]
  layers :=
    [{ name := "base", machine := .hopping },
      { name := "echo", weight := 0.5, mode := .additive, machine := .hopping }]

theorem machine_of_mem_echoing {l : Layer} (hl : l ∈ echoing.layers) : l.machine = .hopping := by
  rcases List.mem_pair.mp hl with rfl | rfl <;> rfl

theorem exists_bake_echoing : ∃ a, (echoing.bake {}).outcome = .ok a := by
  cases h : (echoing.bake {}).outcome with
  | ok a => exact ⟨a, rfl⟩
  | error e =>
      obtain ⟨b, hb⟩ := Machine.exists_bakeWith_hopping
      obtain ⟨t, -, -, ht, -⟩ := Machine.bakeWith_eq_ok hb
      rcases bake_eq_error.mp h with hbuild | ⟨-, before, l, after, hlayers, -, hl⟩
      · exact absurd (ht.symm.trans hbuild) (by simp)
      · rw [machine_of_mem_echoing (by simp [hlayers])] at hl
        exact absurd (hb.symm.trans hl) (by simp)

/-- A jump of the base leaves the echo where its ticks take it. -/
theorem layers_isolated_echoing : ∃ a x l s ticks, (echoing.bake {}).outcome = .ok a ∧
    Session.play a {} [.set "grounded" (.bool false), .advance 1, .force 0 0 0.5, .advance 1] =
      .ok x ∧
    a.layers[1]? = some l ∧
    PoseMachine.Session.play l.machine {}
      [.set "grounded" (.bool false), .advance 1, .advance 1] = .ok (s, ticks) ∧
    (x.player.outputs a)[1]? = some (l.output 1 s.player) := by
  obtain ⟨a, ha⟩ := exists_bake_echoing
  obtain ⟨hsize, hlayers, hruns⟩ := (layers_isolated echoing {}).2 a ha
  obtain ⟨hplays, hall⟩ := hruns {}
    [.set "grounded" (.bool false), .advance 1, .force 0 0 0.5, .advance 1]
  have hplay : ∀ (k : Nat) (l : Baked.Layer), a.layers[k]? = some l → ∀ es,
      ∃ s, PoseMachine.Session.play l.machine {} es = .ok s := by
    intro k l hl es
    have hk : k < echoing.layers.length := hsize ▸ (Array.getElem?_eq_some_iff.mp hl).1
    obtain ⟨b, hx, hb, -⟩ := hlayers k _ (List.getElem?_eq_getElem hk)
    obtain rfl := Option.some.inj (hl.symm.trans hx)
    rw [machine_of_mem_echoing (List.getElem_mem hk)] at hb
    have hplayable := Machine.playable_of_bakeWith (by decide) (by decide) hb
    obtain ⟨x, hstart, hrun⟩ :=
      (PoseMachine.Session.start_and_run hplayable {}).2 ⟨by decide, by decide⟩
    obtain ⟨s, hs⟩ := hrun es
    have hplay : PoseMachine.Session.play b {} es = .ok s := by
      rw [PoseMachine.Session.play, hstart, ok_bind, hs]
    exact ⟨s, hplay⟩
  obtain ⟨x, hx⟩ := hplays.mpr fun k l hl => hplay k l hl _
  obtain ⟨b, hl, -⟩ := hlayers 1 _ rfl
  obtain ⟨s, ticks, hs, -, houtput⟩ := (hall x hx).2 1 _ hl
  exact ⟨a, x, _, s, ticks, ha, hx, hl, hs, houtput⟩

end Animator

end PoseMachine
