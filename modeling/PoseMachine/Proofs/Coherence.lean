import PoseMachine.Proofs.RunSafety
import PoseMachine.Proofs.Steps

/-!
What the fields of an instance have to do with each other, wherever it can come. A blend on its way
is that of a transition offered to the state it comes from, and it leads to the current state.
-/

namespace PoseMachine

open Parameter (Buffers)

/-- A blend is on its way along the transition `e`, which was pointed to for the state it comes from
and leads to the state `current`. The state may take this transition itself where no position wraps
around, as none does in the pool of a machine that was baked. -/
structure ActiveTransition.Follows (b : Baked) (current : UInt32) (a : ActiveTransition)
    (e : Baked.Edge) : Prop where
  points : b.Points a.origin.state a.index a.source e
  offers : b.transitions.size ≤ 2 ^ 32 → b.Offers a.origin.state a.index a.source e
  target : current = e.target
  duration : a.duration = e.duration
  positive : a.duration > 0

namespace Instance

variable {b : Baked} {values : Buffers} {x y : Instance}

/-- The fields of an instance agree with each other and with the machine. -/
structure Coherent (b : Baked) (x : Instance) : Prop where
  current : x.current.state.toNat < b.states.size
  transition : ∀ a ∈ x.transition, a.origin.state.toNat < b.states.size ∧
    ∃ e, a.Follows b x.current.state e
  steady : x.transition = none → x.phase = .steady ∧ x.blendWeight = 1

theorem phase_of_steady (h : x.transition = none) : x.phase = .steady := by
  rw [phase, h]
  rfl

theorem coherent_entering {state : UInt32} (hstate : state.toNat < b.states.size) (t : Float32)
    (looping : Bool) (n : Navigation) : (x.entering state t looping n).Coherent b := by
  refine ⟨?_, by simp [entering], fun h => ⟨phase_of_steady h, rfl⟩⟩
  rw [state_entering]
  exact hstate

namespace Coherent

theorem taking (hx : x.Coherent b) {index : Nat} {source : Source} {e : Baked.Edge}
    (he : b.Points x.current.state index source e) (htarget : e.target.toNat < b.states.size)
    (looping : Bool) (n : Navigation) : (x.taking index source e looping n).Coherent b := by
  rw [Instance.taking]
  split
  · next hlong =>
    refine ⟨?_, ?_, by simp⟩
    · rw [state_entering]
      exact htarget
    · rintro _ ⟨⟩
      exact ⟨hx.current, e, he, he.offers, by simp, rfl, hlong⟩
  · exact coherent_entering htarget _ _ _

theorem ends (hx : x.Coherent b) : ({ x with transition := none, blendWeight := 1 } :
    Instance).Coherent b :=
  ⟨hx.current, by simp, fun _ => ⟨rfl, rfl⟩⟩

/-- A blend that goes on is still the same one. -/
theorem goes (hx : x.Coherent b) {a : ActiveTransition} (ha : x.transition = some a)
    (elapsed w : Float32) : ({ x with
      transition := some { a with elapsed }, blendWeight := w } : Instance).Coherent b := by
  obtain ⟨horigin, e, he⟩ := hx.transition a ha
  refine ⟨hx.current, ?_, by simp⟩
  rintro _ ⟨⟩
  exact ⟨horigin, e, he.points, he.offers, he.target, he.duration, he.positive⟩

theorem plays (hx : x.Coherent b) (hy : x.Plays y) : y.Coherent b := by
  refine ⟨?_, ?_, ?_⟩
  · rw [hy.current]
    exact hx.current
  · intro a' ha'
    obtain ⟨a, ha, hsame, hrest⟩ := hy.exists_sameBlend ha'
    obtain ⟨horigin, e, he⟩ := hx.transition a ha
    refine ⟨by rw [hsame]; exact horigin, e, ?_⟩
    rw [hrest, hy.current]
    have hpoints := he.points
    rw [← hsame] at hpoints
    exact ⟨hpoints, hpoints.offers, he.target, he.duration, he.positive⟩
  · intro hsteady
    refine ⟨phase_of_steady hsteady, ?_⟩
    rw [hy.blendWeight]
    exact (hx.steady (hy.transition_eq_none_iff.mp hsteady)).2

end Coherent

theorem kept_coherent (b : Baked) : Kept b (Coherent b) where
  enters t _ hs _ := coherent_entering (Array.getElem?_eq_some_iff.mp hs).1 t _ _
  takes hx _ he hs _ := hx.taking he (Array.getElem?_eq_some_iff.mp hs).1 _ _
  ends hx := hx.ends
  goes elapsed w hx ha := hx.goes ha elapsed w
  plays hx hy := hx.plays hy

theorem kept_ready (b : Baked) : Kept b (Ready b) where
  enters t hx hs _ := by
    refine ⟨.inr ?_, by simp [entering], by simp [entering], hx.slots⟩
    rw [state_entering]
    exact (Array.getElem?_eq_some_iff.mp hs).1
  takes := by
    intro x index source e s n hx _ he hs _
    have hlt := (Array.getElem?_eq_some_iff.mp hs).1
    have hcurrent : x.current.state.toNat < b.states.size := by
      refine hx.current.resolve_left fun hnone => ?_
      simp [hnone] at hlt
    refine ⟨.inr (by rw [state_taking]; exact hlt), ?_, ?_, ?_⟩
    · intro a ha
      rw [taking] at ha
      split at ha
      · obtain rfl := Option.some.inj ha
        exact hcurrent
      · cases ha
    · intro a ha
      rw [taking] at ha
      split at ha
      · obtain rfl := Option.some.inj ha
        exact (Array.getElem?_eq_some_iff.mp he.edge).1
      · cases ha
    · rw [taking]
      split <;> exact hx.slots
  ends hx := ⟨hx.current, by simp, by simp, hx.slots⟩
  goes := by
    intro x a elapsed w hx ha
    refine ⟨hx.current, ?_, ?_, hx.slots⟩
    · rintro _ ⟨⟩
      exact hx.origin a ha
    · rintro _ ⟨⟩
      exact hx.index a ha
  plays hx hy := by
    refine ⟨by rw [hy.current]; exact hx.current, ?_, ?_, hy.slots.trans hx.slots⟩
    · intro a' ha'
      obtain ⟨a, ha, hsame, -⟩ := hy.exists_sameBlend ha'
      rw [hsame]
      exact hx.origin a ha
    · intro a' ha'
      obtain ⟨a, ha, -, hrest⟩ := hy.exists_sameBlend ha'
      rw [hrest]
      exact hx.index a ha

/-- Wherever an instance of a valid machine can come, it is ready for the next tick. -/
theorem ready_of_reachable (hb : b.Valid) (hx : Reachable b x) : x.Ready b := by
  refine (kept_ready b).reachable ?_ hx
  intro n _
  refine ⟨?_, by simp [starting], by simp [starting], rfl⟩
  rw [state_starting]
  exact hb.defaultState

theorem coherent_of_valid (hb : b.Valid) (hstates : b.states ≠ #[]) (hx : Reachable b x) :
    x.Coherent b := by
  refine (kept_coherent b).reachable ?_ hx
  intro n _
  refine ⟨?_, by simp [starting], fun _ => ⟨rfl, rfl⟩⟩
  rw [state_starting]
  exact hb.defaultState.resolve_left hstates

end Instance

/-- A bake gives every transition a position of its own, so a blend of a baked machine is always
along a transition that the state it comes from may take. -/
theorem Machine.offers_of_bakeWith {m : Machine} {ps : List Parameter} {cfg : Config} {b : Baked}
    (hleaves : m.leafCount < 0x80000000) (hsubs : m.subCount < 0x80000000)
    (h : (m.bakeWith ps cfg).outcome = .ok b) {x : Instance} (hx : Instance.Reachable b x)
    {a : ActiveTransition} (ha : x.transition = some a) :
    ∃ e, b.Offers a.origin.state a.index a.source e := by
  have hb := valid_of_bakeWith hleaves hsubs h
  have hstates : b.states ≠ #[] := by
    intro hnone
    have hlt := (Instance.ready_of_reachable hb hx).origin a ha
    simp [hnone] at hlt
  obtain ⟨t, f, d, -, -, -, -, -, hholds⟩ := holdsDraft_of_bakeWith hleaves h
  obtain ⟨-, e, he⟩ := (Instance.coherent_of_valid hb hstates hx).transition a ha
  exact ⟨e, he.offers (hholds.packed.pools.room.trans (by decide))⟩

namespace Baked

/-- Two states with a clip each, and a transition from the first to the second that takes as long as
the first lasts. -/
def crossing : Baked where
  states :=
    #[{ kind := .clip, typeIndex := 0, looping := true, speed := 1, speedParameter := none,
        transitions := ⟨0, 1⟩, exitGroup := -1, sub := -1, nameHash := 0 },
      { kind := .clip, typeIndex := 0, looping := true, speed := 1, speedParameter := none,
        transitions := {}, exitGroup := -1, sub := -1, nameHash := 0 }]
  clipStates := #[⟨0⟩]
  transitions :=
    #[{ target := 1, duration := 1, hasEndTime := false, endTime := 0, offset := 0, boolTests := {},
        intTests := {}, curve := {}, allowSelf := false }]
  clips := #[⟨1, 0⟩]
  maxClipsPerState := 1

theorem clipCount_crossing_le : ∀ s ∈ crossing.states, ∀ n, crossing.clipCount s = .ok n →
    n ≤ max crossing.maxClipsPerState.toNat 1 := by
  intro s hs n hn
  have hkind : s.kind = .clip := by
    rcases (by simpa [crossing] using hs : s = _ ∨ s = _) with rfl | rfl <;> rfl
  rw [clipCount, hkind] at hn
  obtain rfl : 1 = n := Except.ok.inj hn
  decide

end Baked

namespace Instance

theorem exists_advance_crossing : ∃ tick y,
    (starting .crossing {}).advance .crossing (.ofLayout {}) 0.25 = .ok (tick, y) ∧
      y.transition.isSome := by
  have hstarts : (((starting .crossing {}).advance .crossing (.ofLayout {}) 0.25).toOption.map
      fun r => r.2.transition.isSome) = some true := by decide +kernel
  cases hadvance : (starting .crossing {}).advance .crossing (.ofLayout {}) 0.25 with
  | error e =>
      rw [hadvance] at hstarts
      cases hstarts
  | ok r =>
      rw [hadvance] at hstarts
      exact ⟨r.1, r.2, rfl, Option.some.inj hstarts⟩

end Instance

end PoseMachine
