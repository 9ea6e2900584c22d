import PoseMachine.Proofs.Coherence

/-!
A blend that has begun runs out. No transition is taken while it is on its way, whatever the values
are, and the seconds of the ticks alone tell when it ends.
-/

namespace PoseMachine

open Parameter (Buffers)

/-- The part of its duration that a blend has behind it after the tick `j`, the seconds of the ticks
being added to `elapsed` one after another. -/
def progress (duration elapsed : Float32) (dts : List Float32) (j : Nat) : Float32 :=
  (dts.take (j + 1)).foldl (· + ·) elapsed / duration

/-- What a tick and the instance after it show of a blend along the transition `index` from the
state `origin`. -/
structure Tick.OfBlend (index : Nat) (source : Source) (e : Baked.Edge) (origin : UInt32)
    (ended : Prop) (tick : Tick) (y : Instance) : Prop where
  target : tick.state = e.target ∧ y.current.state = e.target
  running : ¬ ended → tick.phase = .transitioning ∧ ∃ a, y.transition = some a ∧ a.index = index ∧
    a.source = source ∧ a.duration = e.duration ∧ a.origin.state = origin
  finished : ended → tick.phase = .steady ∧ y.transition = none ∧ tick.blendWeight = 1 ∧
    y.blendWeight = 1

theorem Tick.OfBlend.phase_eq_steady_iff {index : Nat} {source : Source} {e : Baked.Edge}
    {origin : UInt32} {ended : Prop} {tick : Tick} {y : Instance}
    (h : tick.OfBlend index source e origin ended y) : tick.phase = .steady ↔ ended := by
  by_cases hended : ended
  · simp [(h.finished hended).1, hended]
  · simp [(h.running hended).1, hended]

theorem Tick.OfBlend.findIdx?_cons {index : Nat} {source : Source} {e : Baked.Edge}
    {origin : UInt32} {duration elapsed : Float32} {tick : Tick} {y : Instance}
    (h : tick.OfBlend index source e origin (elapsed / duration ≥ 1) y)
    (later : List (Tick × Instance)) :
    ((tick, y) :: later).findIdx? (fun r => r.1.phase = .steady) =
      if elapsed / duration ≥ 1 then some 0
      else (later.findIdx? fun r => r.1.phase = .steady).map (· + 1) := by
  rw [List.findIdx?_cons]
  simp only [h.phase_eq_steady_iff, decide_eq_true_eq]

/-- The number of ticks before the one that ends a blend, if one does. -/
def completion (duration elapsed : Float32) : List Float32 → Option Nat
  | [] => none
  | dt :: dts =>
    if (elapsed + dt) / duration ≥ 1 then some 0
    else (completion duration (elapsed + dt) dts).map (· + 1)

namespace Instance

variable {b : Baked} {values : Buffers} {x y z w : Instance} {dt elapsed : Float32} {tick : Tick}

/-- Ticks one after another, each with the instance that it leaves. -/
def trace (x : Instance) (b : Baked) :
    List (Buffers × Float32) → Except Fault (List (Tick × Instance))
  | [] => pure []
  | (values, dt) :: inputs => do
    let (tick, y) ← x.advance b values dt
    let later ← y.trace b inputs
    pure ((tick, y) :: later)

theorem trace_cons_eq_ok {inputs : List (Buffers × Float32)} {ticks : List (Tick × Instance)} :
    x.trace b ((values, dt) :: inputs) = .ok ticks ↔ ∃ tick y later,
      x.advance b values dt = .ok (tick, y) ∧ y.trace b inputs = .ok later ∧
        (tick, y) :: later = ticks := by
  simp only [trace, bind_eq_ok_iff, pure_eq_ok_iff, Prod.exists]
  constructor
  · rintro ⟨tick, y, hy, later, hlater, rfl⟩
    exact ⟨tick, y, later, hy, hlater, rfl⟩
  · rintro ⟨tick, y, later, hy, hlater, rfl⟩
    exact ⟨tick, y, hy, later, hlater, rfl⟩

theorem yields_trace (hb : b.Playable) (hx : x.Ready b) {inputs : List (Buffers × Float32)}
    (hinputs : ∀ i ∈ inputs, i.1.Fits b.parameters) :
    Yields (x.trace b inputs) fun ticks => ticks.length = inputs.length := by
  induction inputs generalizing x with
  | nil => exact .pure rfl
  | cons input inputs ih =>
      obtain ⟨values, dt⟩ := input
      have hvalues : values.Fits b.parameters := hinputs _ List.mem_cons_self
      refine (yields_advance hb hvalues hx dt).bind ?_
      rintro ⟨tick, y⟩ hy
      refine (ih hy fun i hi => hinputs i (List.mem_cons_of_mem _ hi)).bind ?_
      intro later hlater
      exact .pure (congrArg (· + 1) hlater)

/-- A blend along the transition `index` from the state `origin` is on its way for `elapsed`
seconds. -/
structure Blends (x : Instance) (index : Nat) (source : Source) (e : Baked.Edge) (origin : UInt32)
    (elapsed : Float32) : Prop where
  transition : ∃ p : Playback, p.state = origin ∧
    x.transition = some { origin := p, index, source, elapsed, duration := e.duration }
  target : x.current.state = e.target

section Blends

variable {index : Nat} {source : Source} {e : Baked.Edge} {origin : UInt32}

/-- A transition that is chosen and takes time begins a blend. -/
theorem blends_of_transit (hb : b.Valid) (hsteady : x.transition = none)
    (hchoice : b.choose values x.current = .ok (some (index, source)))
    (he : b.transitions[index]? = some e) (hlong : e.duration > 0) {started : Option Source}
    (h : x.transit b values = .ok (z, started)) :
    started = some source ∧ z.Blends index source e x.current.state 0 := by
  obtain ⟨s, -, hs⟩ := yields_fetch (hb.transitions e (Array.mem_of_getElem? he)).target
  rw [transit, if_neg (by simp [hsteady]), hchoice, ok_bind] at h
  obtain ⟨taken, htaken, h⟩ := bind_eq_ok_iff.mp h
  rw [take?, fetch_eq_ok_iff.mpr he, ok_bind, hs] at htaken
  obtain ⟨v, hv, htaken⟩ := bind_eq_ok_iff.mp htaken
  obtain ⟨n, -, rfl⟩ := enter_eq_ok.mp hv
  rw [if_pos hlong] at htaken
  obtain rfl := pure_eq_ok_iff.mp htaken
  obtain ⟨rfl, rfl⟩ := Prod.mk.inj (pure_eq_ok_iff.mp h)
  exact ⟨rfl, ⟨_, rfl, rfl⟩, Playback.state_step _ _ _⟩

namespace Blends

/-- The seconds of a tick are added to a blend, which ends when they fill its duration. -/
theorem goes (hx : x.Blends index source e origin elapsed) (hw : x.blend b dt = .ok w)
    (hy : w.sample b values dt = .ok y) : y.current.state = e.target ∧
      ((elapsed + dt) / e.duration ≥ 1 → y.transition = none ∧ y.blendWeight = 1) ∧
      (¬ (elapsed + dt) / e.duration ≥ 1 → y.Blends index source e origin (elapsed + dt)) := by
  obtain ⟨⟨p, hp, hactive⟩, htarget⟩ := hx
  have hplays := plays_of_sample hy
  have hcurrent : y.current.state = e.target := by
    rw [hplays.current, (navigation_of_blend hw).2, htarget]
  rcases blend_eq_ok hw with ⟨hnone, -⟩ | ⟨a, ha, hgone⟩
  · rw [hactive] at hnone
    cases hnone
  · obtain rfl := Option.some.inj (hactive.symm.trans ha)
    rcases hgone with ⟨hended, rfl⟩ | ⟨hgoing, v, -, rfl⟩
    · refine ⟨hcurrent, fun _ => ?_, fun hgoing => absurd hended hgoing⟩
      exact ⟨hplays.transition_eq_none_iff.mpr rfl, hplays.blendWeight⟩
    · refine ⟨hcurrent, fun hended => absurd hended hgoing, fun _ => ⟨?_, hcurrent⟩⟩
      obtain ⟨a', ha', hstate, hrest⟩ := hplays.exists_of_some rfl
      exact ⟨a'.origin, hstate.trans hp, ha'.trans (congrArg some hrest)⟩

theorem ofBlend (hx : x.Blends index source e origin elapsed) (hw : x.blend b dt = .ok w)
    (hy : w.sample b values dt = .ok y) (started : Option Source) :
    Tick.OfBlend index source e origin ((elapsed + dt) / e.duration ≥ 1)
        ⟨y.phase, y.current.state, y.blendWeight, started, y.samples⟩ y ∧
      (¬ (elapsed + dt) / e.duration ≥ 1 → y.Blends index source e origin (elapsed + dt)) := by
  obtain ⟨hcurrent, hends, hgoes⟩ := hx.goes hw hy
  refine ⟨⟨⟨hcurrent, hcurrent⟩, fun hgoing => ?_, fun hended => ?_⟩, hgoes⟩
  · obtain ⟨⟨p, hp, hactive⟩, -⟩ := hgoes hgoing
    exact ⟨by simp [phase, hactive], _, hactive, rfl, rfl, rfl, hp⟩
  · obtain ⟨hnone, hweight⟩ := hends hended
    exact ⟨phase_of_steady hnone, hnone, hweight, hweight⟩

theorem advance (hstates : b.states ≠ #[]) (hx : x.Blends index source e origin elapsed)
    (h : x.advance b values dt = .ok (tick, y)) : tick.started = none ∧
      Tick.OfBlend index source e origin ((elapsed + dt) / e.duration ≥ 1) tick y ∧
      (¬ (elapsed + dt) / e.duration ≥ 1 → y.Blends index source e origin (elapsed + dt)) := by
  rcases advance_eq_ok.mp h with ⟨hnone, -⟩ | ⟨-, started, z, w, hz, hw, hy, rfl⟩
  · exact absurd hnone hstates
  · obtain ⟨p, -, hactive⟩ := hx.transition
    rcases transit_eq_ok hz with ⟨rfl, rfl⟩ | ⟨hsteady, -⟩
    · exact ⟨rfl, hx.ofBlend hw hy none⟩
    · rw [hactive] at hsteady
      cases hsteady

/-- While a blend is on its way, ticks take no transition and only add their seconds to it. -/
theorem trace (hstates : b.states ≠ #[]) (hx : x.Blends index source e origin elapsed)
    {inputs : List (Buffers × Float32)} {ticks : List (Tick × Instance)}
    (h : x.trace b inputs = .ok ticks) {j : Nat} (hj : ticks[j]? = some (tick, y))
    (hrunning : ∀ i < j, ¬ progress e.duration elapsed (inputs.map (·.2)) i ≥ 1) :
    tick.started = none ∧ Tick.OfBlend index source e origin
      (progress e.duration elapsed (inputs.map (·.2)) j ≥ 1) tick y := by
  induction inputs generalizing x elapsed ticks j with
  | nil =>
      obtain rfl := pure_eq_ok_iff.mp h
      simp at hj
  | cons input inputs ih =>
      obtain ⟨values, dt⟩ := input
      obtain ⟨first, v, later, hv, hlater, rfl⟩ := trace_cons_eq_ok.mp h
      obtain ⟨hstarted, hfirst, hgoes⟩ := hx.advance hstates hv
      cases j with
      | zero =>
          obtain ⟨rfl, rfl⟩ := Prod.mk.inj (Option.some.inj hj)
          exact ⟨hstarted, hfirst⟩
      | succ j =>
          refine ih (hgoes (hrunning 0 (Nat.succ_pos j))) hlater hj ?_
          intro i hi
          exact hrunning (i + 1) (Nat.succ_lt_succ hi)

/-- The tick that ends a blend is found from the seconds alone. -/
theorem findIdx?_trace (hstates : b.states ≠ #[]) (hx : x.Blends index source e origin elapsed)
    {inputs : List (Buffers × Float32)} {ticks : List (Tick × Instance)}
    (h : x.trace b inputs = .ok ticks) : ticks.findIdx? (fun r => r.1.phase = .steady) =
      completion e.duration elapsed (inputs.map (·.2)) := by
  induction inputs generalizing x elapsed ticks with
  | nil =>
      obtain rfl := pure_eq_ok_iff.mp h
      rfl
  | cons input inputs ih =>
      obtain ⟨values, dt⟩ := input
      obtain ⟨first, v, later, hv, hlater, rfl⟩ := trace_cons_eq_ok.mp h
      obtain ⟨-, hfirst, hgoes⟩ := hx.advance hstates hv
      rw [hfirst.findIdx?_cons, List.map_cons, completion]
      by_cases hended : (elapsed + dt) / e.duration ≥ 1
      · rw [if_pos hended, if_pos hended]
      · rw [if_neg hended, if_neg hended, ih (hgoes hended) hlater]

end Blends

/-- The tick that begins a blend already adds its seconds to it. -/
theorem advance_of_choose (hb : b.Valid) (hsteady : x.transition = none)
    (hchoice : b.choose values x.current = .ok (some (index, source)))
    (he : b.transitions[index]? = some e) (hlong : e.duration > 0)
    (h : x.advance b values dt = .ok (tick, y)) : tick.started = some source ∧
      Tick.OfBlend index source e x.current.state ((0 + dt) / e.duration ≥ 1) tick y ∧
      (¬ (0 + dt) / e.duration ≥ 1 → y.Blends index source e x.current.state (0 + dt)) := by
  rcases advance_eq_ok.mp h with ⟨hnone, -⟩ | ⟨-, started, z, w, hz, hw, hy, rfl⟩
  · simp [Baked.choose, hnone, pure_eq_ok_iff] at hchoice
  · obtain ⟨rfl, hblends⟩ := blends_of_transit hb hsteady hchoice he hlong hz
    exact ⟨rfl, hblends.ofBlend hw hy _⟩

theorem findIdx?_trace_of_choose (hstates : b.states ≠ #[]) (hb : b.Valid)
    (hsteady : x.transition = none)
    (hchoice : b.choose values x.current = .ok (some (index, source)))
    (he : b.transitions[index]? = some e) (hlong : e.duration > 0)
    {inputs : List (Buffers × Float32)} {ticks : List (Tick × Instance)}
    (h : x.trace b ((values, dt) :: inputs) = .ok ticks) :
    ticks.findIdx? (fun r => r.1.phase = .steady) =
      completion e.duration 0 (dt :: inputs.map (·.2)) := by
  obtain ⟨first, v, later, hv, hlater, rfl⟩ := trace_cons_eq_ok.mp h
  obtain ⟨-, hfirst, hgoes⟩ := advance_of_choose hb hsteady hchoice he hlong hv
  rw [hfirst.findIdx?_cons, completion]
  by_cases hended : (0 + dt) / e.duration ≥ 1
  · rw [if_pos hended, if_pos hended]
  · rw [if_neg hended, if_neg hended, (hgoes hended).findIdx?_trace hstates hlater]

end Blends

/-- A blend that has begun is not interrupted. Until the seconds of the ticks fill its duration, each
tick shows the same blend, and the first tick that fills it ends in the target; no tick but the
first takes a transition. Two runs that take the same transition and the same seconds end their
blends at the same tick. -/
theorem blend_runs_out (h : b.defect? = none)
    (hslots : ∀ s ∈ b.states, ∀ n, b.clipCount s = .ok n → n ≤ max b.maxClipsPerState.toNat 1)
    (hx : Reachable b x) (hsteady : x.transition = none) {index : Nat} {source : Source}
    (hchoice : b.choose values x.current = .ok (some (index, source))) {e : Baked.Edge}
    (he : b.transitions[index]? = some e) (hlong : e.duration > 0) (dt : Float32)
    (inputs : List (Buffers × Float32)) :
    (values.Fits b.parameters → (∀ i ∈ inputs, i.1.Fits b.parameters) →
      ∃ ticks, x.trace b ((values, dt) :: inputs) = .ok ticks ∧
        ticks.length = inputs.length + 1) ∧
    ∀ ticks, x.trace b ((values, dt) :: inputs) = .ok ticks →
      (∀ j tick y, ticks[j]? = some (tick, y) →
        (∀ i < j, ¬ progress e.duration 0 (dt :: inputs.map (·.2)) i ≥ 1) →
          tick.started = (if j = 0 then some source else none) ∧
            Tick.OfBlend index source e x.current.state
              (progress e.duration 0 (dt :: inputs.map (·.2)) j ≥ 1) tick y) ∧
      ∀ (x' : Instance) values' source' inputs' ticks', x'.transition = none →
        b.choose values' x'.current = .ok (some (index, source')) →
        inputs'.map (·.2) = inputs.map (·.2) →
        x'.trace b ((values', dt) :: inputs') = .ok ticks' →
          ticks'.findIdx? (fun r => r.1.phase = .steady) =
            ticks.findIdx? (fun r => r.1.phase = .steady) := by
  have hb : b.Playable := ⟨Baked.defect?_eq_none_iff.mp h, hslots⟩
  have hstates : b.states ≠ #[] := by
    rintro hnone
    simp [Baked.choose, hnone, pure_eq_ok_iff] at hchoice
  refine ⟨fun hvalues hinputs => ?_, fun ticks hticks => ⟨fun j tick y hj hrunning => ?_, ?_⟩⟩
  · have hall : ∀ i ∈ (values, dt) :: inputs, i.1.Fits b.parameters :=
      List.forall_mem_cons.mpr ⟨hvalues, hinputs⟩
    exact yields_trace hb (ready_of_reachable hb.valid hx) hall
  · obtain ⟨first, v, later, hv, hlater, rfl⟩ := trace_cons_eq_ok.mp hticks
    obtain ⟨hstarted, hfirst, hgoes⟩ := advance_of_choose hb.valid hsteady hchoice he hlong hv
    cases j with
    | zero =>
        obtain ⟨rfl, rfl⟩ := Prod.mk.inj (Option.some.inj hj)
        exact ⟨hstarted, hfirst⟩
    | succ j =>
        have hblends := hgoes (hrunning 0 (Nat.succ_pos j))
        exact hblends.trace hstates hlater hj fun i hi => hrunning (i + 1) (Nat.succ_lt_succ hi)
  · intro x' values' source' inputs' ticks' hsteady' hchoice' hdts hticks'
    rw [findIdx?_trace_of_choose hstates hb.valid hsteady hchoice he hlong hticks,
      findIdx?_trace_of_choose hstates hb.valid hsteady' hchoice' he hlong hticks', hdts]

theorem blend_runs_out_crossing : ∃ x ticks tick y, start .crossing {} = .ok x ∧
    x.trace .crossing [(.ofLayout {}, 0.5), (.ofLayout {}, 0.5)] = .ok ticks ∧
      ticks[1]? = some (tick, y) ∧ tick.started = none ∧ tick.phase = .steady ∧ tick.state = 1 := by
  have hstart : start .crossing {} = .ok (starting .crossing {}) := rfl
  have hdefect : Baked.crossing.defect? = none := by decide +kernel
  have hfits : (Buffers.ofLayout {}).Fits Baked.crossing.parameters := Buffers.fits_ofLayout _
  obtain ⟨hresult, hticks⟩ := blend_runs_out hdefect Baked.clipCount_crossing_le (.start {} hstart)
    rfl (show Baked.choose .crossing (.ofLayout {}) _ = .ok (some (0, .state)) by decide +kernel) rfl
    (by decide +kernel) 0.5 [(.ofLayout {}, 0.5)]
  obtain ⟨ticks, htrace, hlength⟩ := hresult hfits (by simpa using hfits)
  obtain ⟨hshape, -⟩ := hticks ticks htrace
  have hlt : 1 < ticks.length := hlength ▸ Nat.lt_succ_self 1
  obtain ⟨hstarted, hends⟩ := hshape 1 _ _ (List.getElem?_eq_getElem hlt) (by decide +kernel)
  have hended : progress 1 0 [0.5, 0.5] 1 ≥ 1 := by decide +kernel
  exact ⟨_, ticks, _, _, hstart, htrace, List.getElem?_eq_getElem hlt, hstarted,
    (hends.finished hended).1, hends.target.1⟩

end Instance

end PoseMachine
