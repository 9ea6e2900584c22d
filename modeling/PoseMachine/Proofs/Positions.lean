import PoseMachine.Proofs.BakeSoundness
import PoseMachine.Proofs.Clock
import PoseMachine.Proofs.Magnitudes
import PoseMachine.Proofs.Steps

/-!
Positions of the states that play. A move by a number keeps the position of a state that loops in
its range, a move by anything but NaN that of one that does not. No other move is made where speeds
and ticks are of a moderate size, and any other move leaves a position that is NaN for good.
-/

namespace PoseMachine

open Parameter (Buffers)
open Single

section Step

variable {x : Float32} {p : Playback} {looping : Bool} {delta : Float32}

theorem clamp_unit_mem (h : parts x ≠ .notANumber) :
    ∃ q, Denotes (clamp 0 1 x) q ∧ 0 ≤ q ∧ q ≤ 1 := by
  obtain ⟨q, hq⟩ | ⟨s, hs⟩ | hnan := denotes_or_infinite_or_nan x
  · exact ⟨_, denotes_zero.clamp denotes_one zero_le_one hq, le_max_left _ _,
      max_le zero_le_one (min_le_left _ _)⟩
  · cases s
    · have hlow : x < 0 := denotes_zero.infinity_lt hs
      have hone : ¬ (0 : Float32) > 1 := by decide +kernel
      rw [clamp, if_pos hlow, if_neg hone]
      exact ⟨0, denotes_zero, le_rfl, zero_le_one⟩
    · have hlow : ¬ x < 0 := fun hlt => denotes_zero.not_infinity_le hs (single_le_of_lt hlt)
      have hone : x > 1 := denotes_one.lt_infinity hs
      rw [clamp, if_neg hlow, if_pos hone]
      exact ⟨1, denotes_one, zero_le_one, le_rfl⟩
  · exact absurd hnan h

theorem clamp_nan {lo hi : Float32} (h : parts x = .notANumber) : clamp lo hi x = x := by
  have hlow : ¬ x < lo := not_nan_lt h
  have hhigh : ¬ x > hi := not_lt_nan h
  simp only [clamp, if_neg hlow, if_neg hhigh]

namespace Playback

/-- The position is in the range of a state that loops or does not. -/
structure InPlace (p : Playback) (looping : Bool) : Prop where
  finite : p.fraction.isFinite = true
  nonneg : 0 ≤ p.fraction
  le_one : p.fraction ≤ 1
  lt_one : looping = true → p.fraction < 1
  loops : looping = false → p.loops = 0

/-- There is no position any more. -/
structure Lost (p : Playback) (looping : Bool) : Prop where
  nan : p.fraction.isNaN = true
  loops : looping = false → p.loops = 0

/-- A move by a number, or by an infinity as well if the state does not loop. -/
def Bounded (looping : Bool) (delta : Float32) : Prop :=
  (looping = true → delta.isFinite = true) ∧ delta.isNaN = false

theorem inPlace_of_denotes {f : ℚ} (hf : Denotes p.fraction f) (h0 : 0 ≤ f) (h1 : f ≤ 1)
    (hlt : looping = true → f < 1) (hloops : looping = false → p.loops = 0) :
    p.InPlace looping where
  finite := hf.isFinite
  nonneg := (denotes_zero.le_iff hf).mpr h0
  le_one := (hf.le_iff denotes_one).mpr h1
  lt_one hl := (hf.lt_iff denotes_one).mpr (hlt hl)
  loops := hloops

theorem inPlace_begin (state : UInt32) (looping : Bool) : ({ state } : Playback).InPlace looping :=
  inPlace_of_denotes denotes_zero le_rfl zero_le_one (fun _ => one_pos) fun _ => rfl

theorem lost_step_of_not_isFinite (h : (p.fraction + delta).isFinite = false) :
    (p.step delta true).Lost true := by
  have hnan : parts (p.fraction + delta - floor (p.fraction + delta)) = .notANumber := by
    rw [floor_of_not_isFinite h]
    exact sub_self_of_not_isFinite h
  have hone : ¬ p.fraction + delta - floor (p.fraction + delta) ≥ 1 := not_le_nan hnan
  refine ⟨?_, nofun⟩
  simp only [step, if_true, if_neg hone]
  exact isNaN_iff.mpr hnan

theorem fraction_step_of_not_looping (p : Playback) (delta : Float32) :
    (p.step delta false).fraction = clamp 0 1 (p.fraction + delta) := rfl

theorem Lost.step (h : p.Lost looping) : (p.step delta looping).Lost looping := by
  have hnan := (add_nan (x := delta) (isNaN_iff.mp h.nan)).2
  cases looping with
  | true => exact lost_step_of_not_isFinite (isFinite_of_nan hnan)
  | false =>
      refine ⟨?_, fun _ => h.loops rfl⟩
      rw [fraction_step_of_not_looping, clamp_nan hnan]
      exact isNaN_iff.mpr hnan

theorem InPlace.step (h : p.InPlace looping) (hdelta : Bounded looping delta) :
    (p.step delta looping).InPlace looping := by
  have hf := denotes_number h.finite
  have hf0 := (denotes_zero.le_iff hf).mp h.nonneg
  cases looping with
  | true =>
      -- a fraction is too small for its sum with a number to be infinite
      have hf1 := (hf.lt_iff denotes_one).mp (h.lt_one rfl)
      have hd := denotes_number (hdelta.1 rfl)
      have hlt := wrapped_lt_one (nearest (number p.fraction + number delta))
      exact inPlace_of_denotes (denotes_fraction_step hf hd hf0 hf1) (wrapped_nonneg _) hlt.le
        (fun _ => hlt) nofun
  | false =>
      -- an infinite sum is clamped as well, so that only NaN has to be kept out
      have hnumber : parts (p.fraction + delta) ≠ .notANumber := by
        intro hnan
        obtain ⟨d, hd⟩ | ⟨s, hs⟩ | hdnan := denotes_or_infinite_or_nan delta
        · exact (rounds_add hf hd).not_nan hnan
        · rw [(hf.add_infinity hs).1] at hnan
          cases hnan
        · have := hdelta.2
          rw [isNaN_iff.mpr hdnan] at this
          cases this
      obtain ⟨q, hq, hq0, hq1⟩ := clamp_unit_mem hnumber
      exact inPlace_of_denotes hq hq0 hq1 nofun h.loops

theorem InPlace.lost_step (h : p.InPlace looping) (hdelta : ¬ Bounded looping delta) :
    (p.step delta looping).Lost looping := by
  have hf := denotes_number h.finite
  cases looping with
  | true =>
      apply lost_step_of_not_isFinite
      apply hf.add_of_not_isFinite
      by_contra hfinite
      rw [Bool.not_eq_false] at hfinite
      exact hdelta ⟨fun _ => hfinite, isNaN_eq_false hfinite⟩
  | false =>
      have hnan : parts delta = .notANumber := by
        by_contra hnumber
        refine hdelta ⟨nofun, ?_⟩
        rwa [← isNaN_iff, Bool.not_eq_true] at hnumber
      have hsum := (add_nan (x := p.fraction) hnan).1
      refine ⟨?_, h.loops⟩
      rw [fraction_step_of_not_looping, clamp_nan hsum]
      exact isNaN_iff.mpr hsum

theorem step_inPlace_or_lost (h : p.InPlace looping ∨ p.Lost looping) (delta : Float32) :
    (p.step delta looping).InPlace looping ∨ (p.step delta looping).Lost looping := by
  obtain h | h := h
  · by_cases hdelta : Bounded looping delta
    · exact .inl (h.step hdelta)
    · exact .inr (h.lost_step hdelta)
  · exact .inr h.step

end Playback

end Step

namespace Baked

variable {b : Baked} {values : Buffers} {slots : Nat} {dt scale : Float32} {p q : Playback}

/-- Whether a state loops. -/
def loopsAt (b : Baked) (state : UInt32) : Bool := b.states[state.toNat]?.any (·.looping)

theorem loopsAt_eq {state : UInt32} {s : State} (h : b.states[state.toNat]? = some s) :
    b.loopsAt state = s.looping := by
  rw [loopsAt, h, Option.any_some]

theorem loopsAt_start {state : UInt32} {s : State} (hs : b.states[state.toNat]? = some s)
    (t : Float32) : b.loopsAt (Playback.start state t s.looping).state = s.looping := by
  have hstate : (Playback.start state t s.looping).state = state := Playback.state_step _ _ _
  rw [hstate, loopsAt_eq hs]

/-- The position is in the range of its state. -/
def Positioned (b : Baked) (p : Playback) : Prop := p.InPlace (b.loopsAt p.state)

/-- A tick of `dt` seconds moves the state `s` by `delta`. -/
def Moves (b : Baked) (values : Buffers) (slots : Nat) (dt : Float32) (s : State)
    (delta : Float32) : Prop :=
  ∃ weights v clips, b.weights values slots s = .ok weights ∧ speed values s = .ok v ∧
    b.weighted s weights = .ok clips ∧ duration clips > leastDuration ∧
    delta = dt * v / duration clips

theorem moves_of_play {samples : List Sample}
    (h : b.play values slots dt scale p = .ok (q, samples)) :
    ∃ s, b.states[p.state.toNat]? = some s ∧
      (q = p ∨ ∃ delta, b.Moves values slots dt s delta ∧ q = p.step delta s.looping) := by
  simp only [play, bind_eq_ok_iff, pure_eq_ok_iff, fetch_eq_ok_iff] at h
  obtain ⟨s, hs, weights, hweights, v, hv, clips, hclips, h⟩ := h
  obtain ⟨rfl, -⟩ := Prod.mk.inj h
  refine ⟨s, hs, ?_⟩
  split_ifs with hlong
  · exact .inr ⟨_, ⟨weights, v, clips, hweights, hv, hclips, hlong, rfl⟩, rfl⟩
  · exact .inl rfl

/-- All moves of a tick are bounded. -/
def Paced (b : Baked) (values : Buffers) (slots : Nat) (dt : Float32) : Prop :=
  ∀ s ∈ b.states, ∀ delta, b.Moves values slots dt s delta → Playback.Bounded s.looping delta

/-- All transitions enter their target at a bounded offset. -/
def EntersInPlace (b : Baked) : Prop :=
  ∀ e ∈ b.transitions, ∀ s, b.states[e.target.toNat]? = some s →
    Playback.Bounded s.looping e.offset

theorem exists_denotes_leastDuration : ∃ l, Denotes leastDuration l ∧ 1 ≤ 2 ^ 20 * l := by
  have hl : Denotes leastDuration (8796093 * 2 ^ (-43 : Int)) := by decide +kernel
  exact ⟨_, hl, by norm_num⟩

theorem paced_of_within
    (h : ∀ s ∈ b.states, ∀ v, speed values s = .ok v → Single.Within 107 (dt * v)) :
    b.Paced values slots dt := by
  rintro s hs delta ⟨weights, v, clips, -, hv, -, hlong, rfl⟩
  have hmove := h s hs v hv
  -- durations that are not above the least one do not move at all, infinite ones move by zero
  obtain ⟨l, hl, hl1⟩ := exists_denotes_leastDuration
  suffices hfinite : (dt * v / duration clips).isFinite = true from
    ⟨fun _ => hfinite, isNaN_eq_false hfinite⟩
  obtain ⟨r, hr⟩ | ⟨s, hs⟩ | hnan := denotes_or_infinite_or_nan (duration clips)
  · have hlr := (hl.lt_iff hr).mp hlong
    have hfar : 1 ≤ 2 ^ 20 * |r| := by
      have := le_abs_self r
      linarith
    exact (hmove.div hr hfar (by norm_num)).isFinite
  · obtain ⟨q, hq, -⟩ := hmove
    exact (hq.div_infinity hs).isFinite
  · exact absurd hlong (not_lt_nan hnan)

theorem inPlace_start {state : UInt32} {t : Float32} {looping : Bool}
    (ht : Playback.Bounded looping t) : (Playback.start state t looping).InPlace looping :=
  (Playback.inPlace_begin state looping).step ht

theorem positioned_start {state : UInt32} {s : State} {t : Float32}
    (hs : b.states[state.toNat]? = some s) (ht : Playback.Bounded s.looping t) :
    b.Positioned (.start state t s.looping) := by
  rw [Positioned, loopsAt_start hs]
  exact inPlace_start ht

theorem positioned_default : b.Positioned (.start b.defaultState 0 false) := by
  -- the first state is started as one that does not loop, whether it does or not
  have hfraction : Denotes (Playback.start b.defaultState 0 false).fraction 0 := by
    rw [Playback.start, Playback.fraction_step_of_not_looping]
    change Denotes (clamp 0 1 (0 + 0)) 0
    decide +kernel
  exact Playback.inPlace_of_denotes hfraction le_rfl zero_le_one (fun _ => one_pos) fun _ => rfl

theorem Positioned.play {samples : List Sample} (hp : b.Positioned p)
    (hpaced : b.Paced values slots dt) (h : b.play values slots dt scale p = .ok (q, samples)) :
    b.Positioned q := by
  obtain ⟨s, hs, rfl | ⟨delta, hdelta, rfl⟩⟩ := moves_of_play h
  · exact hp
  · rw [Positioned, Playback.state_step, loopsAt_eq hs]
    rw [Positioned, loopsAt_eq hs] at hp
    exact hp.step (hpaced s (Array.mem_of_getElem? hs) delta hdelta)

/-- In the range of its state or lost. -/
def PositionedOrLost (b : Baked) (p : Playback) : Prop :=
  b.Positioned p ∨ p.Lost (b.loopsAt p.state)

theorem PositionedOrLost.play {samples : List Sample} (hp : b.PositionedOrLost p)
    (h : b.play values slots dt scale p = .ok (q, samples)) : b.PositionedOrLost q := by
  obtain ⟨s, hs, rfl | ⟨delta, -, rfl⟩⟩ := moves_of_play h
  · exact hp
  · rw [PositionedOrLost, Positioned, Playback.state_step, loopsAt_eq hs]
    rw [PositionedOrLost, Positioned, loopsAt_eq hs] at hp
    exact Playback.step_inPlace_or_lost hp delta

theorem positionedOrLost_start {state : UInt32} {s : State} (t : Float32)
    (hs : b.states[state.toNat]? = some s) :
    b.PositionedOrLost (.start state t s.looping) := by
  rw [PositionedOrLost, Positioned, loopsAt_start hs]
  exact Playback.step_inPlace_or_lost (.inl (Playback.inPlace_begin state s.looping)) t

end Baked

namespace Instance

variable {b : Baked} {values : Buffers} {x y : Instance} {Q : Playback → Prop}

/-- What holds of the state that plays and of the one that a blend comes from. -/
def Has (x : Instance) (Q : Playback → Prop) : Prop :=
  Q x.current ∧ ∀ a ∈ x.transition, Q a.origin

theorem has_entering {state : UInt32} {t : Float32} {looping : Bool}
    (hQ : Q (.start state t looping)) (n : Navigation) : (x.entering state t looping n).Has Q :=
  ⟨hQ, nofun⟩

theorem Has.taking (h : x.Has Q) {e : Baked.Edge} {looping : Bool}
    (hQ : Q (.start e.target e.offset looping)) (index : Nat) (source : Source) (n : Navigation) :
    (x.taking index source e looping n).Has Q := by
  unfold Instance.taking
  dsimp only
  split_ifs
  · refine ⟨hQ, ?_⟩
    rintro a ⟨⟩
    exact h.1
  · exact ⟨hQ, nofun⟩

theorem Has.advance {dt : Float32} {tick : Tick} (hx : x.Has Q)
    (henter : ∀ e ∈ b.transitions, ∀ s, b.states[e.target.toNat]? = some s →
      Q (.start e.target e.offset s.looping))
    (hplay : ∀ {scale p q samples}, Q p → b.play values x.slots dt scale p = .ok (q, samples) → Q q)
    (h : x.advance b values dt = .ok (tick, y)) : y.Has Q := by
  obtain ⟨-, -, rfl⟩ | ⟨-, started, z, w, hz, hw, hy, -⟩ := advance_eq_ok.mp h
  · exact hx
  -- a tick takes a transition, moves the blend along and plays what is left
  have hz' : z.Has Q := by
    obtain ⟨rfl, -⟩ | ⟨-, index, source, e, s, n, -, he, hs, -, rfl, -⟩ := transit_eq_ok hz
    · exact hx
    · have hmem : e ∈ b.transitions := Array.mem_of_getElem? he.edge
      exact hx.taking (henter e hmem s hs) index source n
  have hw' : w.Has Q := by
    obtain ⟨-, rfl⟩ | ⟨a, ha, ⟨-, rfl⟩ | ⟨-, v, -, rfl⟩⟩ := blend_eq_ok hw
    · exact hz'
    · exact ⟨hz'.1, nofun⟩
    · refine ⟨hz'.1, ?_⟩
      rintro a' ⟨⟩
      exact hz'.2 a ha
  have hslots : w.slots = x.slots := (slots_of_blend hw).trans (slots_of_transit hz)
  obtain ⟨transition, current, source, target, hcurrent, horigin, rfl⟩ := sample_eq_ok hy
  rw [hslots] at hcurrent horigin
  refine ⟨hplay hw'.1 hcurrent, ?_⟩
  rintro a' ha'
  obtain ⟨-, rfl, -⟩ | ⟨a, origin, ha, rfl, hplayed⟩ := horigin
  · cases ha'
  · obtain rfl := Option.mem_some.mp ha'
    exact hplay (hw'.2 a ha) hplayed

/-- The instances that come of a start by ticks and jumps that move all states by bounded moves. -/
inductive InPace (b : Baked) : Instance → Prop
  | start {x : Instance} (cfg : Config) : start b cfg = .ok x → InPace b x
  | advance {x y : Instance} (values : Buffers) (dt : Float32) (tick : Tick) :
      InPace b x → b.Paced values x.slots dt → x.advance b values dt = .ok (tick, y) → InPace b y
  | force {x y : Instance} (state : UInt32) (t : Float32) :
      InPace b x → (∀ s, b.states[state.toNat]? = some s → Playback.Bounded s.looping t) →
        x.force b state t = .ok y → InPace b y

theorem positioned_of_inPace (henter : b.EntersInPlace) (hx : InPace b x) :
    x.Has b.Positioned := by
  induction hx with
  | start cfg hx =>
      obtain ⟨n, -, rfl⟩ := start_eq_ok hx
      exact ⟨Baked.positioned_default, nofun⟩
  | advance values dt tick _ hpaced hy ih =>
      exact ih.advance (fun e he s hs => Baked.positioned_start hs (henter e he s hs))
        (fun hp h => hp.play hpaced h) hy
  | force state t _ ht hy ih =>
      obtain ⟨-, rfl⟩ | ⟨s, n, hs, -, rfl⟩ := force_eq_ok.mp hy
      · exact ih
      · exact has_entering (Baked.positioned_start hs (ht s hs)) n

theorem positionedOrLost_of_reachable (hx : Reachable b x) : x.Has b.PositionedOrLost := by
  induction hx with
  | start cfg hx =>
      obtain ⟨n, -, rfl⟩ := start_eq_ok hx
      exact ⟨.inl Baked.positioned_default, nofun⟩
  | advance values dt tick _ hy ih =>
      exact ih.advance (fun e _ s hs => Baked.positionedOrLost_start e.offset hs)
        (fun hp h => hp.play h) hy
  | force state t _ hy ih =>
      obtain ⟨-, rfl⟩ | ⟨s, n, hs, -, rfl⟩ := force_eq_ok.mp hy
      · exact ih
      · exact has_entering (Baked.positionedOrLost_start t hs) n

/-- Wherever an instance can come, each position is in the range of its state or NaN. It is in range
as long as transitions enter their targets at bounded offsets and ticks move the states by bounded
moves, as those of a moderate size do, however long the states are. -/
theorem positions_in_range (b : Baked) :
    (∀ x, Reachable b x → x.Has b.PositionedOrLost) ∧
      (b.EntersInPlace → ∀ x, InPace b x → x.Has b.Positioned) ∧
      ∀ values slots dt,
        (∀ s ∈ b.states, ∀ v, Baked.speed values s = .ok v → Single.Within 107 (dt * v)) →
          b.Paced values slots dt :=
  ⟨fun _ hx => positionedOrLost_of_reachable hx, fun henter _ hx => positioned_of_inPace henter hx,
    fun _ _ _ => Baked.paced_of_within⟩

end Instance

namespace Machine

/-- One state of a second that loops at some speed. -/
def race (speed : Float32) : Machine where
  name := "race"
  states := [.leaf { id := 0, name := "run", speed } (.clip ⟨"run", 1⟩)]

def bakedRace (speed : Float32) : Baked where
  nameHash := nameHash "race"
  states :=
    #[{ kind := .clip, typeIndex := 0, looping := true, speed, speedParameter := none,
        transitions := {}, exitGroup := -1, sub := -1, nameHash := nameHash "run" }]
  clipStates := #[⟨0⟩]
  clips := #[⟨1, nameHash "run"⟩]
  maxClipsPerState := 1

theorem bakeWith_race (speed : Float32) :
    ((race speed).bakeWith [] {}).outcome = .ok (bakedRace speed) := by
  open SmallBakes in
  simp [race, -String.reduceAppend]
  rfl

/-- One tick after the start. -/
def firstTick (b : Baked) (dt : Float32) : Except Fault Instance := do
  let x ← Instance.start b {}
  let (_, y) ← x.advance b (.ofLayout b.parameters) dt
  pure y

theorem firstTick_eq_ok {b : Baked} {dt : Float32} {y : Instance}
    (h : firstTick b dt = .ok y) : ∃ x tick, Instance.start b {} = .ok x ∧
      x.advance b (.ofLayout b.parameters) dt = .ok (tick, y) := by
  obtain ⟨x, hx, h⟩ := bind_eq_ok_iff.mp h
  obtain ⟨⟨tick, y'⟩, hy, h⟩ := bind_eq_ok_iff.mp h
  obtain rfl := pure_eq_ok_iff.mp h
  exact ⟨x, tick, hx, hy⟩

end Machine

theorem Instance.positions_in_range_race : ∃ b x y tick,
    ((Machine.race 3).bakeWith [] {}).outcome = .ok b ∧ Instance.start b {} = .ok x ∧
      x.advance b (.ofLayout b.parameters) 0.25 = .ok (tick, y) ∧ y.Has b.Positioned := by
  have hticks : ((Machine.firstTick (Machine.bakedRace 3) 0.25).map fun _ => ()) = .ok () := by
    decide +kernel
  obtain ⟨y, hy, -⟩ := map_eq_ok_iff.mp hticks
  obtain ⟨x, tick, hx, hy⟩ := Machine.firstTick_eq_ok hy
  obtain ⟨-, hinPace, hpaced⟩ := Instance.positions_in_range (Machine.bakedRace 3)
  have henter : (Machine.bakedRace 3).EntersInPlace := by
    intro e he
    simp [Machine.bakedRace] at he
  have hmoves : (Machine.bakedRace 3).Paced (.ofLayout {}) x.slots 0.25 := by
    apply hpaced
    intro s hs v hv
    simp only [Machine.bakedRace, Array.mem_singleton] at hs
    subst hs
    obtain rfl := Except.ok.inj hv
    exact ⟨3 / 4, by decide +kernel, by norm_num⟩
  exact ⟨_, x, y, tick, Machine.bakeWith_race 3, hx, hy,
    hinPace henter y (.advance _ _ tick (.start {} hx) hmoves hy)⟩

/-- A tick of two seconds at a speed near the greatest single moves the state by infinity. -/
theorem Instance.positions_lost_race : ∃ b x y tick,
    ((Machine.race 3e38).bakeWith [] {}).outcome = .ok b ∧ Instance.start b {} = .ok x ∧
      x.advance b (.ofLayout b.parameters) 2 = .ok (tick, y) ∧
      y.current.fraction.isNaN = true ∧ ¬ y.Has b.Positioned := by
  have hlost : ((Machine.firstTick (Machine.bakedRace 3e38) 2).map (·.current.fraction.isNaN)) =
      .ok true := by decide +kernel
  obtain ⟨y, hy, hnan⟩ := map_eq_ok_iff.mp hlost
  obtain ⟨x, tick, hx, hy⟩ := Machine.firstTick_eq_ok hy
  exact ⟨_, x, y, tick, Machine.bakeWith_race 3e38, hx, hy, hnan,
    fun h => not_le_nan (isNaN_iff.mp hnan) h.1.nonneg⟩

end PoseMachine
