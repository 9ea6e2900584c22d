import PoseMachine.Instance.Basic
import PoseMachine.Proofs.Nesting
import PoseMachine.Proofs.Playing

/-!
Runs of an instance: any interleaving of ticks, jumps and changes of parameters. On a valid machine
that gives every state the slots it needs, each step has a result and leaves the instance ready for
the next one.
-/

namespace PoseMachine

open Parameter (Buffers)

/-- What can happen to a running instance. -/
inductive Event where
  | advance (dt : Float32)
  | force (state : UInt32) (t : Float32)
  | set (name : String) (v : Parameter.Value)
  | setByHash (hash : UInt32) (v : Parameter.Value)

structure Session where
  player : Instance
  values : Buffers

namespace Session

/-- An instance in the default state, every parameter at its default. -/
def start (b : Baked) (cfg : Config) : Except Fault Session := do
  let player ← Instance.start b cfg
  pure ⟨player, .ofLayout b.parameters⟩

/-- One event. Only ticks report something. -/
def step (x : Session) (b : Baked) : Event → Except Fault (Session × Option Tick)
  | .advance dt => do
    let (tick, player) ← x.player.advance b x.values dt
    pure (⟨player, x.values⟩, some tick)
  | .force state t => do
    let player ← x.player.force b state t
    pure (⟨player, x.values⟩, none)
  | .set name v => pure (⟨x.player, (x.values.set name v).2⟩, none)
  | .setByHash hash v => pure (⟨x.player, (x.values.setByHash hash v).2⟩, none)

/-- Events one after another, and what the ticks among them report. -/
def run (x : Session) (b : Baked) : List Event → Except Fault (Session × List Tick)
  | [] => pure (x, [])
  | e :: es => do
    let (y, tick) ← x.step b e
    let (z, ticks) ← y.run b es
    pure (z, tick.toList ++ ticks)

end Session

namespace Baked

variable {b : Baked} {values : Buffers}

/-- A valid machine none of whose states has more clips than an instance has slots for. -/
structure Playable (b : Baked) : Prop where
  valid : b.Valid
  slots : ∀ s ∈ b.states, ∀ n, b.clipCount s = .ok n → n ≤ max b.maxClipsPerState.toNat 1

namespace Valid

theorem yields_passes (hb : b.Valid) (hv : values.Fits b.parameters) (time : Float32) {e : Edge}
    (he : b.ValidEdge e) : Yields (b.passes values time e) fun _ => True := by
  unfold passes
  split
  · exact .pure trivial
  · refine (Span.yields_slice he.boolTests).bind ?_
    rintro bools ⟨-, hbools⟩
    refine Yields.bind (P := fun _ => True) (Yields.allM ?_) ?_
    · intro c hc
      exact (hv.yields_bool (hb.boolTests c (hbools c (Array.mem_toList_iff.mp hc)))).map
        fun _ _ => trivial
    · intro pass _
      cases pass with
      | false => exact .pure trivial
      | true =>
          refine (Span.yields_slice he.intTests).bind ?_
          rintro ints ⟨-, hints⟩
          refine Yields.allM ?_
          intro c hc
          exact (hv.yields_int (hb.intTests c (hints c (Array.mem_toList_iff.mp hc)))).map
            fun _ _ => trivial

theorem yields_firstPassing (hb : b.Valid) (hv : values.Fits b.parameters) (time : Float32)
    (allowed : Edge → Bool) {es : List (Edge × Nat)} {n : Nat}
    (hes : ∀ x ∈ es, b.ValidEdge x.1 ∧ x.2 < n) :
    Yields (b.firstPassing values time allowed es) fun r => ∀ i ∈ r, i < n := by
  induction es with
  | nil => exact .pure (by simp)
  | cons x es ih =>
      obtain ⟨e, i⟩ := x
      obtain ⟨hedge, hi⟩ := hes (e, i) (by simp)
      have hrest := ih fun y hy => hes y (by simp [hy])
      rw [firstPassing]
      split
      · refine (hb.yields_passes hv time hedge).bind ?_
        intro pass _
        cases pass with
        | true => exact .pure (by simpa using hi)
        | false => exact hrest
      · exact hrest

theorem yields_chooseFrom (hb : b.Valid) (hv : values.Fits b.parameters) (time : Float32)
    (allowed : Edge → Bool) {span : Span} (hspan : span.stop ≤ b.transitions.size) :
    Yields (b.chooseFrom values time span allowed) fun r => ∀ i ∈ r, i < b.transitions.size := by
  refine (Span.yields_slice hspan).bind ?_
  rintro edges ⟨hsize, hedges⟩
  have hentries : ∀ x ∈ edges.toList.zipIdx, b.ValidEdge x.1 ∧ x.2 < span.len.toNat := by
    rintro ⟨e, i⟩ hmem
    have he := List.mem_zipIdx_iff_getElem?.mp hmem
    rw [Array.getElem?_toList] at he
    rw [← hsize]
    exact ⟨hb.transitions e (hedges e (Array.mem_of_getElem? he)),
      (Array.getElem?_eq_some_iff.mp he).1⟩
  refine (hb.yields_firstPassing hv time allowed hentries).bind ?_
  intro first hfirst
  refine .pure ?_
  intro index hindex
  obtain ⟨i, hi, rfl⟩ := Option.map_eq_some_iff.mp hindex
  have hlt := hfirst i hi
  have hle := span.toNat_position_le i
  rw [Span.stop] at hspan
  omega

theorem yields_exitOf (hb : b.Valid) {s : State} (hs : b.ValidState s) :
    Yields (b.exitOf s) fun r => ∀ x ∈ r, b.ValidExit x := by
  rw [exitOf]
  split
  · exact .pure (by simp)
  · next hneg =>
    have hnonneg := toInt_nonneg_of_not_neg hneg
    have hlt := toInt_lt_of_lt_ofNat hs.exitGroup
    refine (yields_fetch (by omega)).map ?_
    intro x hx
    simpa using hb.exits x (Array.mem_of_getElem? hx)

/-- The transition that a playing state takes is there. -/
theorem yields_choose (hb : b.Valid) (hv : values.Fits b.parameters) (p : Playback) :
    Yields (b.choose values p) fun r => ∀ x ∈ r, x.1 < b.transitions.size := by
  unfold choose
  split
  · exact .pure (by simp)
  · next s hs =>
    have hstate := hb.states s (Array.mem_of_getElem? hs)
    refine (hb.yields_chooseFrom hv p.time _ hb.anyTransitions).bind ?_
    intro any hany
    cases any with
    | some i => exact .pure (by simpa using hany)
    | none =>
        refine (hb.yields_chooseFrom hv p.time _ hstate.transitions).bind ?_
        intro own hown
        cases own with
        | some i => exact .pure (by simpa using hown)
        | none =>
            refine (hb.yields_exitOf hstate).bind ?_
            intro exit hexit
            cases exit with
            | none => exact .pure (by simp)
            | some x =>
                refine (hb.yields_chooseFrom hv p.time _ (hexit x rfl).transitions).bind ?_
                intro last hlast
                cases last with
                | some i => exact .pure (by simpa using hlast)
                | none => exact .pure (by simp)

end Valid

end Baked

/-- The states and the transition that an instance plays are there, and so are its slots. -/
structure Instance.Ready (b : Baked) (x : Instance) : Prop where
  current : b.states = #[] ∨ x.current.state.toNat < b.states.size
  origin : ∀ a ∈ x.transition, a.origin.state.toNat < b.states.size
  index : ∀ a ∈ x.transition, a.index < b.transitions.size
  slots : x.slots = max b.maxClipsPerState.toNat 1

/-- The room that a configuration asks for can be addressed. -/
def Config.Addressable (cfg : Config) : Prop :=
  12 * cfg.initialNavigationDepth < 0x8000000000000000 ∧
    16 * cfg.scratchSamples < 0x8000000000000000

namespace Instance

variable {b : Baked} {values : Buffers} {x : Instance}

theorem yields_enter (hb : b.Valid) (hx : x.Ready b) {state : UInt32}
    (hstate : state.toNat < b.states.size) (t : Float32) (s : Baked.State) :
    Yields (x.enter b state t s) fun y => y.Ready b ∧ y.current.state = state := by
  refine (x.navigation.yields_sync hb state.toNat).bind ?_
  intro navigation _
  have hcurrent : (Playback.start state t s.looping).state = state := Playback.state_step _ _ _
  refine .pure ⟨⟨.inr ?_, by simp, by simp, hx.slots⟩, hcurrent⟩
  rw [hcurrent]
  exact hstate

theorem yields_force (hb : b.Valid) (hx : x.Ready b) (state : UInt32) (t : Float32) :
    Yields (x.force b state t) fun y => y.Ready b := by
  unfold force
  split
  · exact .pure hx
  · next s hs =>
    exact (yields_enter hb hx (Array.getElem?_eq_some_iff.mp hs).1 t s).mono fun _ h => h.1

theorem yields_take? (hb : b.Valid) (hx : x.Ready b)
    (hcurrent : x.current.state.toNat < b.states.size) {index : Nat}
    (hindex : index < b.transitions.size) (source : Source) :
    Yields (x.take? b index source) fun r => ∀ y ∈ r, y.Ready b := by
  refine (yields_fetch hindex).bind ?_
  intro e he
  have htarget := (hb.transitions e (Array.mem_of_getElem? he)).target
  dsimp only
  split
  · exact .pure (by simp)
  · next s hs =>
    refine (yields_enter hb hx htarget e.offset s).bind ?_
    rintro y ⟨hy, -⟩
    split
    · refine .pure ?_
      rintro _ ⟨⟩
      exact ⟨hy.current, by simpa using hcurrent, by simpa using hindex, hy.slots⟩
    · exact .pure (by simpa using hy)

theorem yields_transit (hb : b.Valid) (hv : values.Fits b.parameters) (hx : x.Ready b)
    (hcurrent : x.current.state.toNat < b.states.size) :
    Yields (x.transit b values) fun r => r.1.Ready b := by
  unfold transit
  split
  · exact .pure hx
  · refine (hb.yields_choose hv x.current).bind ?_
    intro choice hchoice
    cases choice with
    | none => exact .pure hx
    | some c =>
        obtain ⟨index, source⟩ := c
        refine (yields_take? hb hx hcurrent (hchoice _ rfl) source).bind ?_
        intro taken htaken
        cases taken with
        | none => exact .pure hx
        | some y => exact .pure (htaken y rfl)

theorem yields_blend (hb : b.Valid) (hx : x.Ready b) (dt : Float32) :
    Yields (x.blend b dt) fun y => y.Ready b := by
  unfold blend
  split
  · exact .pure hx
  · next active hactive =>
    have hindex := hx.index active hactive
    dsimp only
    split
    · exact .pure ⟨hx.current, by simp, by simp, hx.slots⟩
    · refine (yields_fetch hindex).bind ?_
      intro e he
      refine (Baked.Span.yields_slice (hb.transitions e (Array.mem_of_getElem? he)).curve).bind ?_
      intro keys _
      exact .pure ⟨hx.current, by simpa using hx.origin active hactive, by simpa using hindex,
        hx.slots⟩

theorem yields_sample (hb : b.Playable) (hv : values.Fits b.parameters) (hx : x.Ready b)
    (hcurrent : x.current.state.toNat < b.states.size) (dt : Float32) :
    Yields (x.sample b values dt) fun y => y.Ready b := by
  have hroom := hb.slots
  rw [← hx.slots] at hroom
  have hlast : ∀ (t : Option ActiveTransition) (faded : List Sample),
      (∀ a ∈ t, a.origin.state.toNat < b.states.size ∧ a.index < b.transitions.size) →
      Yields (do
        let r ← b.play values x.slots dt x.blendWeight x.current
        pure { x with transition := t, current := r.1, samples := faded ++ r.2 }) (Ready b) := by
    intro t faded ht
    refine (hb.valid.yields_play hv hroom dt _ hcurrent).bind ?_
    rintro ⟨current, samples⟩ hsame
    refine .pure ⟨.inr ?_, fun a ha => (ht a ha).1, fun a ha => (ht a ha).2, hx.slots⟩
    dsimp only at hsame
    rw [hsame]
    exact hcurrent
  unfold sample
  cases hactive : x.transition with
  | none => exact hlast none [] (by simp)
  | some active =>
      refine (hb.valid.yields_play hv hroom dt _ (hx.origin active hactive)).bind ?_
      rintro ⟨origin, faded⟩ horigin
      refine hlast (some { active with origin }) faded ?_
      rintro _ ⟨⟩
      dsimp only at horigin ⊢
      rw [horigin]
      exact ⟨hx.origin active hactive, hx.index active hactive⟩

/-- A tick has a result and leaves the instance ready for the next one. -/
theorem yields_advance (hb : b.Playable) (hv : values.Fits b.parameters) (hx : x.Ready b)
    (dt : Float32) : Yields (x.advance b values dt) fun r => r.2.Ready b := by
  unfold advance
  split
  · exact .pure ⟨hx.current, hx.origin, hx.index, hx.slots⟩
  · next hstates =>
    have hne : b.states ≠ #[] := by simpa using hstates
    refine (yields_transit hb.valid hv hx (hx.current.resolve_left hne)).bind ?_
    rintro ⟨y, started⟩ hy
    refine (yields_blend hb.valid hy dt).bind ?_
    intro z hz
    refine (yields_sample hb hv hz (hz.current.resolve_left hne) dt).bind ?_
    intro w hw
    exact .pure hw

/-- With room that can be addressed, an instance starts where its navigation gets. -/
theorem start_eq {cfg : Config} (hcfg : cfg.Addressable) :
    start b cfg = (do
      let navigation ← Navigation.sync {} b b.defaultState.toNat
      pure
        { current := .start b.defaultState 0 false
          navigation
          slots := max b.maxClipsPerState.toNat 1 }) := by
  obtain ⟨hdepth, hsamples⟩ := hcfg
  have hlimit := b.maxClipsPerState.toNat_lt
  have hnavigation : checkRoom (12 * max cfg.initialNavigationDepth 1) = .ok () := by
    rw [checkRoom, if_pos (by omega)]
  have hscratch : checkRoom (16 * max cfg.scratchSamples (2 * max b.maxClipsPerState.toNat 1)) =
      .ok () := by
    rw [checkRoom, if_pos (by omega)]
  simp only [start, Navigation.withRoom, hnavigation, hscratch, ok_bind]
  rfl

theorem yields_start (hb : b.Valid) {cfg : Config} (hcfg : cfg.Addressable) :
    Yields (start b cfg) fun x => x.Ready b := by
  rw [start_eq hcfg]
  refine (Navigation.yields_sync hb _ _).bind ?_
  intro navigation _
  refine .pure ⟨?_, by simp, by simp, rfl⟩
  have hcurrent : (Playback.start b.defaultState 0 false).state = b.defaultState :=
    Playback.state_step _ _ _
  rw [hcurrent]
  exact hb.defaultState

/-- Without that there is no instance. -/
theorem start_eq_error {cfg : Config} (hcfg : ¬ cfg.Addressable) :
    start b cfg = .error .oversized := by
  have hlimit := b.maxClipsPerState.toNat_lt
  unfold Config.Addressable at hcfg
  by_cases hdepth : 12 * cfg.initialNavigationDepth < 0x8000000000000000
  · have hnavigation : checkRoom (12 * max cfg.initialNavigationDepth 1) = .ok () := by
      rw [checkRoom, if_pos (by omega)]
    have hscratch : checkRoom (16 * max cfg.scratchSamples (2 * max b.maxClipsPerState.toNat 1)) =
        .error .oversized := by
      rw [checkRoom, if_neg (by omega)]
    simp only [start, Navigation.withRoom, hnavigation, hscratch, ok_bind]
    rfl
  · have hnavigation : checkRoom (12 * max cfg.initialNavigationDepth 1) = .error .oversized := by
      rw [checkRoom, if_neg (by omega)]
    simp only [start, Navigation.withRoom, hnavigation]
    rfl

end Instance

namespace Session

variable {b : Baked} {x : Session}

/-- The instance is ready and there is a value for each parameter. -/
structure Ready (b : Baked) (x : Session) : Prop where
  player : x.player.Ready b
  values : x.values.Fits b.parameters

theorem yields_start (hb : b.Valid) {cfg : Config} (hcfg : cfg.Addressable) :
    Yields (start b cfg) fun x => x.Ready b := by
  refine (Instance.yields_start hb hcfg).bind ?_
  intro player hplayer
  exact .pure ⟨hplayer, Parameter.Buffers.fits_ofLayout b.parameters⟩

theorem start_eq_error {cfg : Config} (hcfg : ¬ cfg.Addressable) :
    start b cfg = .error .oversized := by
  rw [start, Instance.start_eq_error hcfg]
  rfl

/-- Every event has a result and leaves the session ready for the next one. -/
theorem yields_step (hb : b.Playable) (hx : x.Ready b) (e : Event) :
    Yields (x.step b e) fun r => r.1.Ready b := by
  cases e with
  | advance dt =>
      refine (Instance.yields_advance hb hx.values hx.player dt).bind ?_
      rintro ⟨tick, player⟩ hplayer
      exact .pure ⟨hplayer, hx.values⟩
  | force state t =>
      refine (Instance.yields_force hb.valid hx.player state t).bind ?_
      intro player hplayer
      exact .pure ⟨hplayer, hx.values⟩
  | set name v => exact .pure ⟨hx.player, hx.values.set name v⟩
  | setByHash hash v => exact .pure ⟨hx.player, hx.values.setByHash hash v⟩

theorem yields_run (hb : b.Playable) (hx : x.Ready b) (es : List Event) :
    Yields (x.run b es) fun r => r.1.Ready b := by
  induction es generalizing x with
  | nil => exact .pure hx
  | cons e es ih =>
      refine (yields_step hb hx e).bind ?_
      rintro ⟨y, tick⟩ hy
      refine (ih hy).bind ?_
      rintro ⟨z, ticks⟩ hz
      exact .pure hz

end Session

end PoseMachine
