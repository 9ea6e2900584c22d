import PoseMachine.Instance.Basic
import PoseMachine.Proofs.AuthoredChoice

/-!
The steps of an instance taken apart. What a step that has a result did is said once for each
operation, and a property of all instances that can be reached is one that every operation keeps.
-/

namespace PoseMachine

open Parameter (Buffers)

namespace Baked

variable {b : Baked} {values : Buffers} {time : Float32}

theorem mem_of_firstPassing {allowed : Edge → Bool} {es : List (Edge × Nat)} {i : Nat}
    (h : b.firstPassing values time allowed es = .ok (some i)) :
    ∃ e, (e, i) ∈ es ∧ allowed e = true ∧ b.passes values time e = .ok true := by
  induction es with
  | nil => simp [firstPassing, pure_eq_ok_iff] at h
  | cons x es ih =>
      obtain ⟨e, j⟩ := x
      -- What is chosen further on is chosen from the whole list.
      have hlater (h : b.firstPassing values time allowed es = .ok (some i)) :
          ∃ e', (e', i) ∈ (e, j) :: es ∧ allowed e' = true ∧
            b.passes values time e' = .ok true := by
        obtain ⟨e', hmem, hallowed, hpasses⟩ := ih h
        exact ⟨e', List.mem_cons_of_mem _ hmem, hallowed, hpasses⟩
      rw [firstPassing] at h
      split at h
      · next hallowed =>
        obtain ⟨pass, hpass, h⟩ := bind_eq_ok_iff.mp h
        cases pass with
        | true =>
            obtain rfl : j = i := by simpa [pure_eq_ok_iff] using h
            exact ⟨e, by simp, hallowed, hpass⟩
        | false => exact hlater h
      · exact hlater h

theorem mem_of_chooseFrom {span : Span} {allowed : Edge → Bool} {index : Nat}
    (h : b.chooseFrom values time span allowed = .ok (some index)) :
    span.stop ≤ b.transitions.size ∧ ∃ i e, i < span.len.toNat ∧
      index = (span.position i).toNat ∧ b.transitions[span.start.toNat + i]? = some e ∧
      allowed e = true ∧ b.passes values time e = .ok true := by
  obtain ⟨edges, hedges, h⟩ := bind_eq_ok_iff.mp h
  obtain ⟨first, hfirst, h⟩ := bind_eq_ok_iff.mp h
  obtain ⟨i, rfl, hindex⟩ := Option.map_eq_some_iff.mp (pure_eq_ok_iff.mp h)
  obtain ⟨e, hmem, hallowed, hpasses⟩ := mem_of_firstPassing hfirst
  have he := List.mem_zipIdx_iff_getElem?.mp hmem
  rw [Array.getElem?_toList] at he
  have hlt : i < span.len.toNat := by
    rw [← Span.size_slice hedges]
    exact (Array.getElem?_eq_some_iff.mp he).1
  rw [Span.getElem?_slice hedges hlt] at he
  exact ⟨Span.stop_le_of_slice hedges, i, e, hlt, hindex.symm, he, hallowed, hpasses⟩

/-- The transition `index` is one that a state may take, from the list `source`. -/
structure Offers (b : Baked) (state : UInt32) (index : Nat) (source : Source) (e : Edge) :
    Prop where
  edge : b.transitions[index]? = some e
  listed : ∃ s span, b.states[state.toNat]? = some s ∧ b.spanOf s source = some span ∧
    span.start.toNat ≤ index ∧ index < span.stop
  allowed : source = .anyState → e.target = state → e.allowSelf = true

/-- The list `source` has an entry that a state may take, and the position told for it in 32 bits is
that of the transition `e`. -/
structure Points (b : Baked) (state : UInt32) (index : Nat) (source : Source) (e : Edge) :
    Prop where
  edge : b.transitions[index]? = some e
  entry : ∃ s span i x, b.states[state.toNat]? = some s ∧ b.spanOf s source = some span ∧
    i < span.len.toNat ∧ index = (span.position i).toNat ∧
    b.transitions[span.start.toNat + i]? = some x ∧
    (source = .anyState → x.target = state → x.allowSelf = true)

/-- Where all transitions have positions of their own, the one taken is the one that was chosen. -/
theorem Points.offers {state : UInt32} {index : Nat} {source : Source} {e : Edge}
    (hroom : b.transitions.size ≤ 2 ^ 32) (h : b.Points state index source e) :
    b.Offers state index source e := by
  obtain ⟨s, span, i, x, hs, hspan, hi, hindex, hx, hallowed⟩ := h.entry
  have hlt := (Array.getElem?_eq_some_iff.mp hx).1
  rw [Span.toNat_position (by omega)] at hindex
  obtain rfl : e = x := by
    rw [← hindex, h.edge] at hx
    exact Option.some.inj hx
  exact ⟨h.edge, ⟨s, span, hs, hspan, by omega, by rw [Span.stop]; omega⟩, hallowed⟩

theorem points_of_chooseFrom {state : UInt32} {source : Source} {s : State} {span : Span}
    {allowed : Edge → Bool} {index : Nat} (hs : b.states[state.toNat]? = some s)
    (hspan : b.spanOf s source = some span)
    (hopen : ∀ e, allowed e = true → source = .anyState → e.target = state → e.allowSelf = true)
    (h : b.chooseFrom values time span allowed = .ok (some index)) :
    ∃ e, b.Points state index source e := by
  obtain ⟨hfits, i, x, hi, rfl, hx, hallowed, -⟩ := mem_of_chooseFrom h
  have hlt : (span.position i).toNat < b.transitions.size := by
    have hle := span.toNat_position_le i
    rw [Span.stop] at hfits
    omega
  exact ⟨_, Array.getElem?_eq_getElem hlt, s, span, i, x, hs, hspan, hi, rfl, hx, hopen x hallowed⟩

theorem spanOf_exitGroup {s : State} {group : Exit} (h : b.exitOf s = .ok (some group)) :
    b.spanOf s .exitGroup = some group.transitions := by
  rw [exitOf] at h
  rw [spanOf]
  split at h
  · simp [pure_eq_ok_iff] at h
  · next hneg =>
    obtain ⟨x, hx, hgroup⟩ := map_eq_ok_iff.mp h
    rw [if_neg hneg, fetch_eq_ok_iff.mp hx, Option.some.inj hgroup]
    rfl

/-- The transition that is chosen is one of those that the playing state may take. -/
theorem points_of_choose {p : Playback} {index : Nat} {source : Source}
    (h : b.choose values p = .ok (some (index, source))) :
    ∃ e, b.Points p.state index source e := by
  unfold choose at h
  split at h
  · simp [pure_eq_ok_iff] at h
  · next s hs =>
    obtain ⟨any, hany, h⟩ := bind_eq_ok_iff.mp h
    cases any with
    | some i =>
        obtain ⟨rfl, rfl⟩ : i = index ∧ Source.anyState = source := by
          simpa [pure_eq_ok_iff] using h
        refine points_of_chooseFrom hs rfl ?_ hany
        intro e hallowed _ htarget
        simpa [htarget] using hallowed
    | none =>
        obtain ⟨own, hown, h⟩ := bind_eq_ok_iff.mp h
        cases own with
        | some i =>
            obtain ⟨rfl, rfl⟩ : i = index ∧ Source.state = source := by
              simpa [pure_eq_ok_iff] using h
            exact points_of_chooseFrom hs rfl (by simp) hown
        | none =>
            obtain ⟨exit, hexit, h⟩ := bind_eq_ok_iff.mp h
            cases exit with
            | none => simp [pure_eq_ok_iff] at h
            | some group =>
                obtain ⟨last, hlast, h⟩ := bind_eq_ok_iff.mp h
                cases last with
                | some i =>
                    obtain ⟨rfl, rfl⟩ : i = index ∧ Source.exitGroup = source := by
                      simpa [pure_eq_ok_iff] using h
                    exact points_of_chooseFrom hs (spanOf_exitGroup hexit) (by simp) hlast
                | none => simp [pure_eq_ok_iff] at h

/-- What a played state samples are its weighted clips at the position where it is afterwards. -/
theorem play_eq_ok {slots : Nat} {dt scale : Float32} {p q : Playback} {samples : List Sample}
    (h : b.play values slots dt scale p = .ok (q, samples)) :
    ∃ s weights clips, b.states[p.state.toNat]? = some s ∧
      b.weights values slots s = .ok weights ∧ b.weighted s weights = .ok clips ∧
      q.state = p.state ∧ samples = if scale ≤ 0 then [] else clips.map fun x =>
        ⟨x.1.clip, q.fraction * x.1.duration, q.fraction, x.2 * scale⟩ := by
  simp only [play, bind_eq_ok_iff, pure_eq_ok_iff, fetch_eq_ok_iff] at h
  obtain ⟨s, hs, weights, hweights, speed, -, clips, hclips, h⟩ := h
  obtain ⟨rfl, rfl⟩ := Prod.mk.inj h
  refine ⟨s, weights, clips, hs, hweights, hclips, ?_, rfl⟩
  split
  · exact Playback.state_step _ _ _
  · rfl

end Baked

namespace Instance

variable {b : Baked} {values : Buffers} {x y : Instance}

/-- An instance as it starts, standing where its navigation says. -/
def starting (b : Baked) (navigation : Navigation) : Instance :=
  { current := .start b.defaultState 0 false
    navigation
    slots := max b.maxClipsPerState.toNat 1 }

theorem start_eq_ok {cfg : Config} (h : start b cfg = .ok x) :
    ∃ n, Navigation.sync {} b b.defaultState.toNat = .ok n ∧ x = starting b n := by
  obtain ⟨n₀, hn₀, h⟩ := bind_eq_ok_iff.mp h
  obtain ⟨-, -, hn₀⟩ := bind_eq_ok_iff.mp hn₀
  obtain rfl := pure_eq_ok_iff.mp hn₀
  obtain ⟨-, -, h⟩ := bind_eq_ok_iff.mp h
  obtain ⟨n, hn, h⟩ := bind_eq_ok_iff.mp h
  exact ⟨n, hn, (pure_eq_ok_iff.mp h).symm⟩

@[simp] theorem state_starting (n : Navigation) : (starting b n).current.state = b.defaultState :=
  Playback.state_step _ _ _

/-- An instance as it is after it has moved to a state. -/
def entering (x : Instance) (state : UInt32) (t : Float32) (looping : Bool)
    (navigation : Navigation) : Instance :=
  { x with current := .start state t looping, transition := none, blendWeight := 1, navigation }

@[simp] theorem state_entering (state : UInt32) (t : Float32) (looping : Bool) (n : Navigation) :
    (x.entering state t looping n).current.state = state :=
  Playback.state_step _ _ _

theorem enter_eq_ok {state : UInt32} {t : Float32} {s : Baked.State} :
    x.enter b state t s = .ok y ↔ ∃ n, x.navigation.sync b state.toNat = .ok n ∧
      x.entering state t s.looping n = y := by
  simp only [enter, bind_eq_ok_iff, pure_eq_ok_iff, entering]

theorem force_eq_ok {state : UInt32} {t : Float32} : x.force b state t = .ok y ↔
    (b.states[state.toNat]? = none ∧ x = y) ∨ ∃ s n, b.states[state.toNat]? = some s ∧
      x.navigation.sync b state.toNat = .ok n ∧ x.entering state t s.looping n = y := by
  unfold force
  cases b.states[state.toNat]? with
  | none => simp [pure_eq_ok_iff]
  | some s => simp [enter_eq_ok]

/-- An instance as it is after it has taken a transition. -/
def taking (x : Instance) (index : Nat) (source : Source) (e : Baked.Edge) (looping : Bool)
    (navigation : Navigation) : Instance :=
  let y := x.entering e.target e.offset looping navigation
  if e.duration > 0 then
    { y with
      transition :=
        some { origin := x.current, index, source, elapsed := 0, duration := e.duration }
      blendWeight := 0 }
  else y

@[simp] theorem state_taking (index : Nat) (source : Source) (e : Baked.Edge) (looping : Bool)
    (n : Navigation) : (x.taking index source e looping n).current.state = e.target := by
  rw [taking]
  split <;> simp

@[simp] theorem navigation_taking (index : Nat) (source : Source) (e : Baked.Edge) (looping : Bool)
    (n : Navigation) : (x.taking index source e looping n).navigation = n := by
  rw [taking]
  split <;> rfl

/-- A steady instance stays as it is or takes a transition that is pointed to for it. -/
theorem transit_eq_ok {started : Option Source} (h : x.transit b values = .ok (y, started)) :
    (y = x ∧ started = none) ∨ (x.transition = none ∧ ∃ index source e s n,
      b.choose values x.current = .ok (some (index, source)) ∧
        b.Points x.current.state index source e ∧ b.states[e.target.toNat]? = some s ∧
        x.navigation.sync b e.target.toNat = .ok n ∧
        y = x.taking index source e s.looping n ∧ started = some source) := by
  have hstay (h : (pure (x, none) : Except Fault _) = .ok (y, started)) :
      y = x ∧ started = none := by
    obtain ⟨rfl, rfl⟩ : x = y ∧ none = started := by simpa [pure_eq_ok_iff] using h
    exact ⟨rfl, rfl⟩
  unfold transit at h
  split at h
  · exact .inl (hstay h)
  · next hsteady =>
    obtain ⟨choice, hchoice, h⟩ := bind_eq_ok_iff.mp h
    cases choice with
    | none => exact .inl (hstay h)
    | some c =>
        obtain ⟨index, source⟩ := c
        obtain ⟨taken, htaken, h⟩ := bind_eq_ok_iff.mp h
        cases taken with
        | none => exact .inl (hstay h)
        | some z =>
            obtain ⟨rfl, rfl⟩ : z = y ∧ some source = started := by
              simpa [pure_eq_ok_iff] using h
            obtain ⟨e, hpoints⟩ := Baked.points_of_choose hchoice
            obtain ⟨e', he', htaken⟩ := bind_eq_ok_iff.mp htaken
            obtain rfl : e = e' :=
              Option.some.inj (hpoints.edge.symm.trans (fetch_eq_ok_iff.mp he'))
            dsimp only at htaken
            split at htaken
            · simp [pure_eq_ok_iff] at htaken
            · next s hs =>
              obtain ⟨w, hw, htaken⟩ := bind_eq_ok_iff.mp htaken
              obtain ⟨n, hn, rfl⟩ := enter_eq_ok.mp hw
              refine .inr ⟨by simpa using hsteady, index, source, e, s, n, hchoice, hpoints, hs, hn,
                ?_, rfl⟩
              rw [taking]
              split at htaken
              · next hlong =>
                rw [if_pos hlong]
                exact (Option.some.inj (pure_eq_ok_iff.mp htaken)).symm
              · next hshort =>
                rw [if_neg hshort]
                exact (Option.some.inj (pure_eq_ok_iff.mp htaken)).symm

/-- The weight of a blend along its curve, `progress` being the part of its duration that has
passed. -/
def curveWeight (b : Baked) (index : Nat) (progress : Float32) : Except Fault Float32 := do
  let e ← fetch b.transitions index
  let keys ← e.curve.slice b.keys
  pure (PackedKey.weight keys.toList progress)

/-- A blend ends or goes on with a new weight. -/
theorem blend_eq_ok {dt : Float32} (h : x.blend b dt = .ok y) :
    (x.transition = none ∧ y = x) ∨ ∃ a, x.transition = some a ∧
      (((a.elapsed + dt) / a.duration ≥ 1 ∧ y = { x with transition := none, blendWeight := 1 }) ∨
        (¬ (a.elapsed + dt) / a.duration ≥ 1 ∧ ∃ w,
          curveWeight b a.index ((a.elapsed + dt) / a.duration) = .ok w ∧
          y = { x with
            transition := some { a with elapsed := a.elapsed + dt }
            blendWeight := w })) := by
  unfold blend at h
  split at h
  · next hsteady => exact .inl ⟨hsteady, (pure_eq_ok_iff.mp h).symm⟩
  · next a ha =>
    refine .inr ⟨a, ha, ?_⟩
    dsimp only at h
    split at h
    · next hover => exact .inl ⟨hover, (pure_eq_ok_iff.mp h).symm⟩
    · next hgoing =>
      obtain ⟨e, he, h⟩ := bind_eq_ok_iff.mp h
      obtain ⟨keys, hkeys, h⟩ := bind_eq_ok_iff.mp h
      refine .inr ⟨hgoing, _, ?_, (pure_eq_ok_iff.mp h).symm⟩
      rw [curveWeight, he, ok_bind, hkeys, ok_bind]
      rfl

/-- The same blend, with another position in the state it comes from. -/
def SameBlend (a a' : ActiveTransition) : Prop :=
  a'.origin.state = a.origin.state ∧ a' = { a with origin := a'.origin }

/-- Playing moves positions inside states, and nothing else but the samples. -/
structure Plays (x y : Instance) : Prop where
  current : y.current.state = x.current.state
  transition : Option.Rel SameBlend x.transition y.transition
  blendWeight : y.blendWeight = x.blendWeight
  navigation : y.navigation = x.navigation
  slots : y.slots = x.slots

namespace Plays

theorem transition_eq_none_iff (h : x.Plays y) : y.transition = none ↔ x.transition = none := by
  have hrel := h.transition
  generalize x.transition = before, y.transition = after at hrel
  cases hrel <;> simp

theorem exists_sameBlend (h : x.Plays y) {a' : ActiveTransition} (ha' : y.transition = some a') :
    ∃ a, x.transition = some a ∧ SameBlend a a' := by
  have hrel := h.transition
  rw [ha'] at hrel
  generalize x.transition = before at hrel
  cases hrel with
  | some hsame => exact ⟨_, rfl, hsame⟩

theorem exists_of_some (h : x.Plays y) {a : ActiveTransition} (ha : x.transition = some a) :
    ∃ a', y.transition = some a' ∧ SameBlend a a' := by
  have hrel := h.transition
  rw [ha] at hrel
  generalize y.transition = after at hrel
  cases hrel with
  | some hsame => exact ⟨_, rfl, hsame⟩

end Plays

theorem plays_idle (x : Instance) : x.Plays { x with samples := [] } := by
  refine ⟨rfl, ?_, rfl, rfl, rfl⟩
  cases h : x.transition with
  | none => exact .none
  | some a => exact .some ⟨rfl, rfl⟩

/-- Playing samples the state that a blend comes from, if there is one, and then the current one. -/
theorem sample_eq_ok {dt : Float32} (h : x.sample b values dt = .ok y) :
    ∃ transition current source target,
      b.play values x.slots dt x.blendWeight x.current = .ok (current, target) ∧
      ((x.transition = none ∧ transition = none ∧ source = []) ∨
        ∃ a origin, x.transition = some a ∧ transition = some { a with origin } ∧
          b.play values x.slots dt (1 - x.blendWeight) a.origin = .ok (origin, source)) ∧
      y = { x with transition, current, samples := source ++ target } := by
  -- The current state plays last, whether a blend is on its way or not.
  have hlast (transition : Option ActiveTransition) (source : List Sample)
      (h : (do
        let r ← b.play values x.slots dt x.blendWeight x.current
        pure { x with transition, current := r.1, samples := source ++ r.2 }) = .ok y) :
      ∃ current target, b.play values x.slots dt x.blendWeight x.current = .ok (current, target) ∧
        y = { x with transition, current, samples := source ++ target } := by
    obtain ⟨⟨current, target⟩, hcurrent, h⟩ := bind_eq_ok_iff.mp h
    exact ⟨current, target, hcurrent, (pure_eq_ok_iff.mp h).symm⟩
  unfold sample at h
  cases hactive : x.transition with
  | none =>
      rw [hactive] at h
      obtain ⟨current, target, hcurrent, hy⟩ := hlast none [] h
      exact ⟨none, current, [], target, hcurrent, .inl ⟨rfl, rfl, rfl⟩, hy⟩
  | some a =>
      rw [hactive] at h
      obtain ⟨⟨origin, source⟩, horigin, h⟩ := bind_eq_ok_iff.mp h
      obtain ⟨current, target, hcurrent, hy⟩ := hlast (some { a with origin }) source h
      exact ⟨_, current, source, target, hcurrent, .inr ⟨a, origin, rfl, rfl, horigin⟩, hy⟩

theorem plays_of_sample {dt : Float32} (h : x.sample b values dt = .ok y) : x.Plays y := by
  obtain ⟨transition, current, source, target, hcurrent, horigin, rfl⟩ := sample_eq_ok h
  obtain ⟨-, -, -, -, -, -, hstate, -⟩ := Baked.play_eq_ok hcurrent
  refine ⟨hstate, ?_, rfl, rfl, rfl⟩
  rcases horigin with ⟨hnone, rfl, -⟩ | ⟨a, origin, hsome, rfl, horigin⟩
  · rw [hnone]
    exact .none
  · obtain ⟨-, -, -, -, -, -, hsame, -⟩ := Baked.play_eq_ok horigin
    rw [hsome]
    exact .some ⟨hsame, rfl⟩

/-- A tick takes a transition, moves the blend and plays, and reports what came of it. -/
theorem advance_eq_ok {dt : Float32} {tick : Tick} : x.advance b values dt = .ok (tick, y) ↔
    (b.states = #[] ∧ tick = ⟨.steady, 0, 1, none, []⟩ ∧ y = { x with samples := [] }) ∨
      (b.states ≠ #[] ∧ ∃ started z w, x.transit b values = .ok (z, started) ∧
        z.blend b dt = .ok w ∧ w.sample b values dt = .ok y ∧
        tick = ⟨y.phase, y.current.state, y.blendWeight, started, y.samples⟩) := by
  unfold advance
  by_cases hstates : b.states = #[]
  · simp [hstates, Pure.pure, Except.pure, eq_comm]
  · have hsome : ¬ b.states.isEmpty = true := by simpa using hstates
    simp only [hstates, hsome, if_neg, false_and, false_or, ne_eq, not_false_eq_true, true_and,
      bind_eq_ok_iff, pure_eq_ok_iff, Prod.mk.injEq, Bool.false_eq_true]
    constructor
    · rintro ⟨⟨z, started⟩, hz, w, hw, y', hy, rfl, rfl⟩
      exact ⟨started, z, w, hz, hw, hy, rfl⟩
    · rintro ⟨started, z, w, hz, hw, hy, rfl⟩
      exact ⟨(z, started), hz, w, hw, y, hy, rfl, rfl⟩

theorem slots_of_transit {started : Option Source} (h : x.transit b values = .ok (y, started)) :
    y.slots = x.slots := by
  rcases transit_eq_ok h with ⟨rfl, -⟩ | ⟨-, index, source, e, s, n, -, -, -, -, rfl, -⟩
  · rfl
  · rw [taking]
    split <;> rfl

theorem slots_of_blend {dt : Float32} (h : x.blend b dt = .ok y) : y.slots = x.slots := by
  rcases blend_eq_ok h with ⟨-, rfl⟩ | ⟨a, -, ⟨-, rfl⟩ | ⟨-, w, -, rfl⟩⟩ <;> rfl

theorem slots_of_force {state : UInt32} {t : Float32} (h : x.force b state t = .ok y) :
    y.slots = x.slots := by
  rcases force_eq_ok.mp h with ⟨-, rfl⟩ | ⟨s, n, -, -, rfl⟩ <;> rfl

theorem navigation_of_blend {dt : Float32} (h : x.blend b dt = .ok y) :
    y.navigation = x.navigation ∧ y.current = x.current := by
  rcases blend_eq_ok h with ⟨-, rfl⟩ | ⟨a, -, ⟨-, rfl⟩ | ⟨-, w, -, rfl⟩⟩ <;> exact ⟨rfl, rfl⟩

/-- After a tick an instance stands where it stood or where a jump to its state leads. -/
theorem navigation_of_advance {dt : Float32} {tick : Tick}
    (h : x.advance b values dt = .ok (tick, y)) :
    y.navigation = x.navigation ∨ x.navigation.sync b y.current.state.toNat = .ok y.navigation := by
  rcases advance_eq_ok.mp h with ⟨-, -, rfl⟩ | ⟨-, started, z, w, hz, hw, hy, -⟩
  · exact .inl rfl
  · have hplays := plays_of_sample hy
    obtain ⟨hnavigation, hcurrent⟩ := navigation_of_blend hw
    rw [hplays.navigation, hplays.current, hnavigation, hcurrent]
    rcases transit_eq_ok hz with ⟨rfl, -⟩ | ⟨-, index, source, e, s, n, -, -, -, hn, rfl, -⟩
    · exact .inl rfl
    · rw [state_taking, navigation_taking]
      exact .inr hn

theorem navigation_of_force {state : UInt32} {t : Float32} (h : x.force b state t = .ok y) :
    y.navigation = x.navigation ∨ x.navigation.sync b y.current.state.toNat = .ok y.navigation := by
  rcases force_eq_ok.mp h with ⟨-, rfl⟩ | ⟨s, n, -, hn, rfl⟩
  · exact .inl rfl
  · rw [state_entering]
    exact .inr hn

/-- The instances that come of a start by ticks and jumps, whatever the values at each tick. -/
inductive Reachable (b : Baked) : Instance → Prop
  | start {x : Instance} (cfg : Config) : start b cfg = .ok x → Reachable b x
  | advance {x y : Instance} (values : Buffers) (dt : Float32) (tick : Tick) :
      Reachable b x → x.advance b values dt = .ok (tick, y) → Reachable b y
  | force {x y : Instance} (state : UInt32) (t : Float32) :
      Reachable b x → x.force b state t = .ok y → Reachable b y

/-- A property that all that can happen to an instance keeps. -/
structure Kept (b : Baked) (P : Instance → Prop) : Prop where
  enters : ∀ {x : Instance} {state : UInt32} {s : Baked.State} {n : Navigation} (t : Float32),
    P x → b.states[state.toNat]? = some s → x.navigation.sync b state.toNat = .ok n →
      P (x.entering state t s.looping n)
  takes : ∀ {x : Instance} {index : Nat} {source : Source} {e : Baked.Edge} {s : Baked.State}
    {n : Navigation}, P x → x.transition = none → b.Points x.current.state index source e →
      b.states[e.target.toNat]? = some s → x.navigation.sync b e.target.toNat = .ok n →
      P (x.taking index source e s.looping n)
  ends : ∀ {x : Instance}, P x → P { x with transition := none, blendWeight := 1 }
  goes : ∀ {x : Instance} {a : ActiveTransition} (elapsed w : Float32), P x →
    x.transition = some a →
      P { x with transition := some { a with elapsed }, blendWeight := w }
  plays : ∀ {x y : Instance}, P x → x.Plays y → P y

namespace Kept

variable {P : Instance → Prop}

theorem force (h : Kept b P) (hx : P x) {state : UInt32} {t : Float32}
    (hy : x.force b state t = .ok y) : P y := by
  rcases force_eq_ok.mp hy with ⟨-, rfl⟩ | ⟨s, n, hs, hn, rfl⟩
  · exact hx
  · exact h.enters t hx hs hn

theorem advance (h : Kept b P) (hx : P x) {dt : Float32} {tick : Tick}
    (hy : x.advance b values dt = .ok (tick, y)) : P y := by
  rcases advance_eq_ok.mp hy with ⟨-, -, rfl⟩ | ⟨-, started, z, w, hz, hw, hy, -⟩
  · exact h.plays hx (plays_idle x)
  · have hz' : P z := by
      rcases transit_eq_ok hz with
        ⟨rfl, -⟩ | ⟨hsteady, index, source, e, s, n, -, he, hs, hn, rfl, -⟩
      · exact hx
      · exact h.takes hx hsteady he hs hn
    have hw' : P w := by
      rcases blend_eq_ok hw with ⟨-, rfl⟩ | ⟨a, ha, ⟨-, rfl⟩ | ⟨-, v, -, rfl⟩⟩
      · exact hz'
      · exact h.ends hz'
      · exact h.goes _ v hz' ha
    exact h.plays hw' (plays_of_sample hy)

/-- What holds at the start and is kept holds wherever an instance can come. -/
theorem reachable (h : Kept b P)
    (hstart : ∀ n : Navigation, Navigation.sync {} b b.defaultState.toNat = .ok n →
      P (starting b n))
    (hx : Reachable b x) : P x := by
  induction hx with
  | start cfg hx =>
      obtain ⟨n, hn, rfl⟩ := start_eq_ok hx
      exact hstart n hn
  | advance values dt tick _ hy ih => exact h.advance ih hy
  | force state t _ hy ih => exact h.force ih hy

end Kept

end Instance

end PoseMachine
