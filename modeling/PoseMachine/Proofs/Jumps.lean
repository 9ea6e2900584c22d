import PoseMachine.Proofs.Coherence
import PoseMachine.Proofs.SharedWeights

/-!
A jump erases what an instance has gone through. Two instances that have jumped to the same place
show the same ticks from then on, whatever the block in which they weigh their clips holds.
-/

namespace PoseMachine

open Parameter (Buffers)

/-- What can be asked of an instance. -/
inductive Call where
  | advance (values : Buffers) (dt : Float32)
  | force (state : UInt32) (t : Float32)

def Call.Fits (l : Parameter.Layout) : Call → Prop
  | .advance values _ => values.Fits l
  | .force _ _ => True

namespace Instance

/-- The ticks that come of calls one after another. -/
def ticks (b : Baked) (x : Instance) : List Call → Except Fault (List Tick)
  | [] => pure []
  | .advance values dt :: calls => do
    let (tick, y) ← x.advance b values dt
    let later ← y.ticks b calls
    pure (tick :: later)
  | .force state t :: calls => do
    let y ← x.force b state t
    y.ticks b calls

/-- Plays as `sample` does, with the weights of both states in the same block. -/
def sampleIn (x : Instance) (b : Baked) (values : Buffers) (block : List Float32) (dt : Float32) :
    Except Fault (Instance × List Float32) := do
  let (transition, faded, block) ← match x.transition with
    | none => pure (none, [], block)
    | some active => do
      let (origin, samples, block) ← b.playIn values block dt (1 - x.blendWeight) active.origin
      pure (some { active with origin }, samples, block)
  let (current, samples, block) ← b.playIn values block dt x.blendWeight x.current
  pure ({ x with transition, current, samples := faded ++ samples }, block)

/-- Advances as `advance` does, with all weights in a block. -/
def advanceIn (x : Instance) (b : Baked) (values : Buffers) (block : List Float32) (dt : Float32) :
    Except Fault (Tick × Instance × List Float32) := do
  if b.states.isEmpty then
    pure (⟨.steady, 0, 1, none, []⟩, { x with samples := [] }, block)
  else
    let (x, started) ← x.transit b values
    let x ← x.blend b dt
    let (x, block) ← x.sampleIn b values block dt
    pure (⟨x.phase, x.current.state, x.blendWeight, started, x.samples⟩, x, block)

/-- The ticks that come of calls one after another, each of which leaves its weights in the block
for the next one to find. -/
def ticksIn (b : Baked) (x : Instance) (block : List Float32) :
    List Call → Except Fault (List Tick)
  | [] => pure []
  | .advance values dt :: calls => do
    let (tick, y, block) ← x.advanceIn b values block dt
    let later ← y.ticksIn b block calls
    pure (tick :: later)
  | .force state t :: calls => do
    let y ← x.force b state t
    y.ticksIn b block calls

variable {b : Baked} {values : Buffers} {block : List Float32} {x y : Instance} {dt : Float32}

section Blocks

theorem alike_sampleIn (hblock : block.length = x.slots) (hslots : 0 < x.slots) :
    Alike (fun y r => r.1 = y ∧ y.slots = x.slots ∧ r.2.length = x.slots) (x.sample b values dt)
      (x.sampleIn b values block dt) := by
  have hlast (transition : Option ActiveTransition) (faded : List Sample) {block : List Float32}
      (hblock : block.length = x.slots) :
      Alike (fun y r => r.1 = y ∧ y.slots = x.slots ∧ r.2.length = x.slots)
        (do
          let r ← b.play values x.slots dt x.blendWeight x.current
          pure { x with transition, current := r.1, samples := faded ++ r.2 })
        (do
          let r ← b.playIn values block dt x.blendWeight x.current
          pure ({ x with transition, current := r.1, samples := faded ++ r.2.1 }, r.2.2)) := by
    refine .bind (Baked.alike_playIn hblock hslots dt _ _) ?_
    rintro r ⟨_, _, block'⟩ ⟨rfl, rfl, hlength⟩
    exact .pure ⟨rfl, rfl, hlength⟩
  unfold sample sampleIn
  cases x.transition with
  | none => exact hlast none [] hblock
  | some a =>
      refine .bind (Baked.alike_playIn hblock hslots dt _ _) ?_
      rintro r ⟨_, _, block'⟩ ⟨rfl, rfl, hlength⟩
      exact hlast (some { a with origin := r.1 }) r.2 hlength

theorem alike_advanceIn (hblock : block.length = x.slots) (hslots : 0 < x.slots) :
    Alike (fun r r' => r'.1 = r.1 ∧ r'.2.1 = r.2 ∧ r.2.slots = x.slots ∧ r'.2.2.length = x.slots)
      (x.advance b values dt) (x.advanceIn b values block dt) := by
  unfold advance advanceIn
  split
  · exact .pure ⟨rfl, rfl, rfl, hblock⟩
  · refine .bind (.same fun r hr => slots_of_transit hr) ?_
    rintro _ ⟨z, started⟩ ⟨rfl, hz⟩
    refine .bind (.same fun w hw => slots_of_blend hw) ?_
    rintro _ w ⟨rfl, hw⟩
    have hsame : w.slots = x.slots := hw.trans hz
    refine .bind (alike_sampleIn (hblock.trans hsame.symm) (hsame ▸ hslots)) ?_
    rintro y ⟨_, block'⟩ ⟨rfl, hy, hlength⟩
    exact .pure ⟨rfl, rfl, hy.trans hsame, hlength.trans hsame⟩

/-- The block that clips are weighed in has no influence on what is shown. -/
theorem ticksIn_eq (hblock : block.length = x.slots) (hslots : 0 < x.slots) (calls : List Call) :
    x.ticksIn b block calls = x.ticks b calls := by
  refine Alike.eq ?_
  induction calls generalizing x block with
  | nil => exact .refl _
  | cons call calls ih =>
      cases call with
      | advance values dt =>
          refine .bind (alike_advanceIn hblock hslots) ?_
          rintro ⟨tick, y⟩ ⟨_, _, block'⟩ ⟨rfl, rfl, hy, hlength⟩
          refine .bind (ih (hlength.trans hy.symm) (hy ▸ hslots)) ?_
          rintro _ later rfl
          exact .refl _
      | force state t =>
          refine .bind (.same fun y hy => slots_of_force hy) ?_
          rintro _ y ⟨rfl, hy⟩
          exact ih (hblock.trans hy.symm) (hy ▸ hslots)

end Blocks

/-- Two instances that differ at most in where they stand among nested machines and in what they
have sampled. -/
structure Matches (x y : Instance) : Prop where
  current : y.current = x.current
  transition : y.transition = x.transition
  blendWeight : y.blendWeight = x.blendWeight
  slots : y.slots = x.slots

/-- Entering a state leaves nothing of what was before but the number of slots. -/
theorem alike_enter (hb : b.Valid) (hslots : y.slots = x.slots) (state : UInt32) (t : Float32)
    (s : Baked.State) : Alike Matches (x.enter b state t s) (y.enter b state t s) := by
  have hx := Navigation.yields_sync hb x.navigation state.toNat
  have hy := Navigation.yields_sync hb y.navigation state.toNat
  refine .bind (R := fun _ _ => True) (.of_yields hx hy fun _ _ _ _ => trivial) ?_
  intro n n' _
  exact .pure ⟨rfl, rfl, rfl, hslots⟩

namespace Matches

theorem force (hb : b.Valid) (h : x.Matches y) (state : UInt32) (t : Float32) :
    Alike Matches (x.force b state t) (y.force b state t) := by
  unfold Instance.force
  cases b.states[state.toNat]? with
  | none => exact .pure h
  | some s => exact alike_enter hb h.slots state t s

theorem take? (hb : b.Valid) (h : x.Matches y) (index : Nat) (source : Source) :
    Alike (Option.Rel Matches) (x.take? b index source) (y.take? b index source) := by
  refine .bind (.refl _) ?_
  rintro _ e rfl
  cases b.states[e.target.toNat]? with
  | none => exact .pure .none
  | some s =>
      refine .bind (alike_enter hb h.slots _ _ s) ?_
      intro z z' hz
      dsimp only
      rw [h.current]
      split
      · exact .pure (.some ⟨hz.current, rfl, rfl, hz.slots⟩)
      · exact .pure (.some hz)

theorem transit (hb : b.Valid) (h : x.Matches y) (values : Buffers) :
    Alike (fun r r' => r'.2 = r.2 ∧ r.1.Matches r'.1) (x.transit b values)
      (y.transit b values) := by
  unfold Instance.transit
  rw [h.transition, h.current]
  split
  · exact .pure ⟨rfl, h⟩
  · refine .bind (.refl _) ?_
    rintro _ choice rfl
    rcases choice with _ | ⟨index, source⟩
    · exact .pure ⟨rfl, h⟩
    · refine .bind (h.take? hb index source) ?_
      rintro _ _ (hz | _)
      · exact .pure ⟨rfl, hz⟩
      · exact .pure ⟨rfl, h⟩

theorem blend (h : x.Matches y) (dt : Float32) : Alike Matches (x.blend b dt) (y.blend b dt) := by
  unfold Instance.blend
  rw [h.transition]
  cases x.transition with
  | none => exact .pure h
  | some a =>
      dsimp only
      split
      · exact .pure ⟨h.current, rfl, rfl, h.slots⟩
      · refine .bind (.refl _) ?_
        rintro _ e rfl
        refine .bind (.refl _) ?_
        rintro _ keys rfl
        exact .pure ⟨h.current, rfl, rfl, h.slots⟩

theorem sample (h : x.Matches y) (values : Buffers) (dt : Float32) :
    Alike (fun z z' => z'.samples = z.samples ∧ z.Matches z') (x.sample b values dt)
      (y.sample b values dt) := by
  have hlast (transition : Option ActiveTransition) (faded : List Sample) :
      Alike (fun z z' => z'.samples = z.samples ∧ z.Matches z')
        (do
          let r ← b.play values x.slots dt x.blendWeight x.current
          pure { x with transition, current := r.1, samples := faded ++ r.2 })
        (do
          let r ← b.play values x.slots dt x.blendWeight x.current
          pure
            { x with
              transition
              current := r.1
              navigation := y.navigation
              samples := faded ++ r.2 }) := by
    refine .bind (.refl _) ?_
    rintro _ r rfl
    exact .pure ⟨rfl, rfl, rfl, rfl, rfl⟩
  unfold Instance.sample
  rw [h.transition, h.current, h.blendWeight, h.slots]
  cases x.transition with
  | none => exact hlast none []
  | some a =>
      refine .bind (.refl _) ?_
      rintro _ r rfl
      exact hlast (some { a with origin := r.1 }) r.2

theorem advance (hb : b.Valid) (h : x.Matches y) (values : Buffers) (dt : Float32) :
    Alike (fun r r' => r'.1 = r.1 ∧ r.2.Matches r'.2) (x.advance b values dt)
      (y.advance b values dt) := by
  unfold Instance.advance
  split
  · exact .pure ⟨rfl, h.current, h.transition, h.blendWeight, h.slots⟩
  · refine .bind (h.transit hb values) ?_
    rintro ⟨z, _⟩ ⟨z', started⟩ ⟨rfl, hz⟩
    refine .bind (hz.blend dt) ?_
    intro w w' hw
    refine .bind (hw.sample values dt) ?_
    rintro v v' ⟨hsamples, hv⟩
    refine .pure ⟨?_, hv⟩
    rw [phase, phase, hv.transition, hv.current, hv.blendWeight, hsamples]

end Matches

/-- Instances that are related show the same tick when they advance, and calls leave them related. -/
structure Bisimulation (b : Baked) (S : Instance → Instance → Prop) : Prop where
  advance : ∀ {x y : Instance}, S x y → ∀ values dt,
    Alike (fun r r' => r'.1 = r.1 ∧ S r.2 r'.2) (x.advance b values dt) (y.advance b values dt)
  force : ∀ {x y : Instance}, S x y → ∀ state t,
    Alike S (x.force b state t) (y.force b state t)

theorem Bisimulation.ticks {S : Instance → Instance → Prop} (h : Bisimulation b S) (hxy : S x y)
    (calls : List Call) : y.ticks b calls = x.ticks b calls := by
  refine Alike.eq ?_
  induction calls generalizing x y with
  | nil => exact .refl _
  | cons call calls ih =>
      cases call with
      | advance values dt =>
          refine .bind (h.advance hxy values dt) ?_
          rintro ⟨_, z⟩ ⟨tick, z'⟩ ⟨rfl, hz⟩
          refine .bind (ih hz) ?_
          rintro _ later rfl
          exact .refl _
      | force state t =>
          refine .bind (h.force hxy state t) ?_
          intro z z' hz
          exact ih hz

theorem bisimulation_matches (hb : b.Valid) : Bisimulation b Matches :=
  ⟨fun h => h.advance hb, fun h => h.force hb⟩

/-- Without states any two instances show the same ticks. -/
theorem bisimulation_of_no_states (h : b.states = #[]) : Bisimulation b fun _ _ => True where
  advance _ values dt := by
    rw [Instance.advance, Instance.advance, h]
    exact .pure ⟨rfl, trivial⟩
  force _ state t := by
    rw [Instance.force, Instance.force, h]
    exact .pure trivial

theorem yields_ticks (hb : b.Playable) (hx : x.Ready b) {calls : List Call}
    (hcalls : ∀ c ∈ calls, c.Fits b.parameters) : Yields (x.ticks b calls) fun _ => True := by
  induction calls generalizing x with
  | nil => exact .pure trivial
  | cons call calls ih =>
      have hlater : ∀ c ∈ calls, c.Fits b.parameters :=
        fun c hc => hcalls c (List.mem_cons_of_mem _ hc)
      cases call with
      | advance values dt =>
          have hvalues : values.Fits b.parameters := hcalls _ List.mem_cons_self
          refine (yields_advance hb hvalues hx dt).bind ?_
          intro r hr
          refine (ih hr hlater).bind ?_
          intro later _
          exact .pure trivial
      | force state t =>
          refine (yields_force hb.valid hx state t).bind ?_
          intro y hy
          exact ih hy hlater

/-- Two instances show the same ticks whatever is asked of them, and also if each of them weighs its
clips in a block that holds anything at all. -/
structure TicksLike (b : Baked) (x y : Instance) : Prop where
  ticks : ∀ calls, y.ticks b calls = x.ticks b calls
  blocks : ∀ calls block block', block.length = x.slots → block'.length = y.slots →
    y.ticksIn b block' calls = x.ticksIn b block calls

theorem ticksLike_of_ticks (hx : 0 < x.slots) (hy : 0 < y.slots)
    (h : ∀ calls, y.ticks b calls = x.ticks b calls) : TicksLike b x y := by
  refine ⟨h, ?_⟩
  intro calls block block' hblock hblock'
  rw [ticksIn_eq hblock hx, ticksIn_eq hblock' hy, h]

theorem playback_start_zero (state : UInt32) (looping : Bool) :
    Playback.start state 0 looping = { state } := by
  cases looping with
  | false =>
      have hfraction : Single.clamp 0 1 (0 + 0) = 0 := by decide +kernel
      exact congrArg (Playback.mk state 0) hfraction
  | true =>
      have hwhole : Single.floor (0 + 0) = 0 := by decide +kernel
      have hrest : (0 + 0 - 0 : Float32) = 0 := by decide +kernel
      have hloops : Playback.addLoops 0 (0 : Float32).toUInt32 = 0 := by decide +kernel
      have hsign : (0 : Float32) ≥ 0 := by decide +kernel
      simp only [Playback.start, Playback.step, hwhole, if_true, hrest, if_pos hsign, hloops,
        ite_self]

theorem exists_force (hb : b.Valid) (x : Instance) {state : UInt32} {s : Baked.State}
    (hs : b.states[state.toNat]? = some s) (t : Float32) :
    ∃ n, x.force b state t = .ok (x.entering state t s.looping n) := by
  obtain ⟨n, hn, -⟩ := Navigation.yields_sync hb x.navigation state.toNat
  exact ⟨n, force_eq_ok.mpr (.inr ⟨s, n, hs, hn, rfl⟩)⟩

/-- A jump erases what an instance has gone through: two instances of a machine that have jumped to
the same place show the same ticks from then on, and have them for all that is asked of them. After
a jump to the default state they are those of an instance that has just been started. A jump to a
state that does not exist changes nothing. -/
theorem force_erases_history (h : b.defect? = none)
    (hslots : ∀ s ∈ b.states, ∀ n, b.clipCount s = .ok n → n ≤ max b.maxClipsPerState.toNat 1)
    (hx : Reachable b x) (hy : Reachable b y) :
    (∀ state t, state.toNat < b.states.size → ∃ x' y', x.force b state t = .ok x' ∧
      y.force b state t = .ok y' ∧ TicksLike b x' y' ∧
      ∀ calls, (∀ c ∈ calls, c.Fits b.parameters) → ∃ ticks, x'.ticks b calls = .ok ticks ∧
        ∀ block, block.length = x'.slots → x'.ticksIn b block calls = .ok ticks) ∧
    (∀ cfg z, start b cfg = .ok z →
      ∃ x', x.force b b.defaultState 0 = .ok x' ∧ TicksLike b x' z) ∧
    ∀ state t, b.states.size ≤ state.toNat → x.force b state t = .ok x := by
  have hb : b.Playable := ⟨Baked.defect?_eq_none_iff.mp h, hslots⟩
  have hready {z : Instance} (hz : Reachable b z) : z.Ready b := ready_of_reachable hb.valid hz
  have hpos {z : Instance} (hz : Reachable b z) : 0 < z.slots := by
    rw [(hready hz).slots]
    omega
  refine ⟨?_, ?_, ?_⟩
  · intro state t hstate
    have hs := Array.getElem?_eq_getElem hstate
    obtain ⟨n, hx'⟩ := exists_force hb.valid x hs t
    obtain ⟨n', hy'⟩ := exists_force hb.valid y hs t
    have hmatches : (x.entering state t b.states[state.toNat].looping n).Matches
        (y.entering state t b.states[state.toNat].looping n') :=
      ⟨rfl, rfl, rfl, (hready hy).slots.trans (hready hx).slots.symm⟩
    have hjumped := Reachable.force state t hx hx'
    refine ⟨_, _, hx', hy', ticksLike_of_ticks (hpos hjumped) (hpos (.force state t hy hy'))
      ((bisimulation_matches hb.valid).ticks hmatches), ?_⟩
    intro calls hcalls
    obtain ⟨ticks, hticks, -⟩ := yields_ticks hb (hready hjumped) hcalls
    exact ⟨ticks, hticks, fun block hblock => (ticksIn_eq hblock (hpos hjumped) calls).trans hticks⟩
  · intro cfg z hz
    have hfresh : Reachable b z := .start cfg hz
    rcases hb.valid.defaultState with hnone | hstate
    · exact ⟨x, force_eq_ok.mpr (.inl ⟨by simp [hnone], rfl⟩),
        ticksLike_of_ticks (hpos hx) (hpos hfresh) ((bisimulation_of_no_states hnone).ticks trivial)⟩
    · have hs := Array.getElem?_eq_getElem hstate
      obtain ⟨n, hx'⟩ := exists_force hb.valid x hs 0
      obtain ⟨n', -, rfl⟩ := start_eq_ok hz
      have hmatches : (x.entering b.defaultState 0 b.states[b.defaultState.toNat].looping n).Matches
          (starting b n') := by
        refine ⟨?_, rfl, rfl, (hready hx).slots.symm⟩
        rw [starting, entering, playback_start_zero, playback_start_zero]
      exact ⟨_, hx', ticksLike_of_ticks (hpos (.force _ 0 hx hx')) (hpos hfresh)
        ((bisimulation_matches hb.valid).ticks hmatches)⟩
  · intro state t hstate
    exact force_eq_ok.mpr (.inl ⟨by simpa using hstate, rfl⟩)

theorem force_erases_history_crossing : ∃ x tick y x' y', start .crossing {} = .ok x ∧
    x.advance .crossing (.ofLayout {}) 0.25 = .ok (tick, y) ∧ y.transition.isSome ∧
      x.force .crossing 1 0.25 = .ok x' ∧ y.force .crossing 1 0.25 = .ok y' ∧
        TicksLike .crossing x' y' := by
  have hstart : start .crossing {} = .ok (starting .crossing {}) := rfl
  have hdefect : Baked.crossing.defect? = none := by decide +kernel
  have hx : Reachable .crossing (starting .crossing {}) := .start {} hstart
  obtain ⟨tick, y, hadvance, hsome⟩ := exists_advance_crossing
  have hy : Reachable .crossing y := .advance _ _ _ hx hadvance
  obtain ⟨hjump, -⟩ := force_erases_history hdefect Baked.clipCount_crossing_le hx hy
  obtain ⟨x', y', hx', hy', hticks, -⟩ := hjump 1 0.25 (by decide)
  exact ⟨_, tick, y, x', y', hstart, hadvance, hsome, hx', hy', hticks⟩

end Instance

end PoseMachine
