import PoseMachine.Proofs.ClipSlots
import PoseMachine.Proofs.Jumps

/-!
What a tick asks to sample. The state that a blend comes from is asked for first and the current one
after it, each clip of a state at most once and in the order in which the state stores them.
-/

namespace PoseMachine

open Parameter (Buffers)

section Related

variable {α β : Type}

theorem filterMap_of_related {f : α → Option β} {xs : List α} {ys : List β}
    (h : List.Forall₂ (fun x y => f x = some y) xs ys) : xs.filterMap f = ys := by
  induction h with
  | nil => rfl
  | cons hxy _ ih => rw [List.filterMap_cons_some hxy, ih]

theorem related_zipIdx {xs : List α} {ys : List β} (h : xs.length = ys.length) :
    List.Forall₂ (fun x y => ys[x.2]? = some y) xs.zipIdx ys := by
  rw [List.forall₂_iff_get]
  refine ⟨by simpa using h, ?_⟩
  intro i hx hy
  simp

end Related

namespace Baked

variable {b : Baked} {values : Buffers} {s : State} {cs : List UInt16}

/-- The clip `i` of a state is the one that it stores there. -/
theorem getElem?_storedClips (hcs : b.storedClips s = .ok cs) {i : Nat} (hi : i < cs.length)
    {clip : UInt16} {speed : Float32} (h : b.clipRef s i = .ok (clip, speed)) :
    cs[i]? = some clip := by
  unfold storedClips at hcs
  unfold clipRef at h
  cases hk : s.kind with
  | clip =>
      rw [hk] at hcs h
      simp only [bind_eq_ok_iff, pure_eq_ok_iff, Prod.mk.injEq] at h
      obtain ⟨c, hc, rfl, -⟩ := h
      obtain ⟨c', hc', rfl⟩ := map_eq_ok_iff.mp hcs
      obtain rfl := Except.ok.inj (hc.symm.trans hc')
      obtain rfl : i = 0 := by simpa using hi
      rfl
  | line =>
      rw [hk] at hcs h
      simp only [bind_eq_ok_iff, pure_eq_ok_iff, Prod.mk.injEq] at hcs h
      obtain ⟨l, hl, clips, hclips, rfl⟩ := hcs
      obtain ⟨l', hl', c, hc, v, -, rfl, -⟩ := h
      obtain rfl := Except.ok.inj (hl.symm.trans hl')
      have hlt : i < l.clips.len.toNat := by simpa [Span.size_slice hclips] using hi
      rw [Array.getElem?_toList, Span.getElem?_slice hclips hlt]
      exact fetch_eq_ok_iff.mp hc
  | plane =>
      rw [hk] at hcs h
      simp only [bind_eq_ok_iff, pure_eq_ok_iff, Prod.mk.injEq] at hcs h
      obtain ⟨p, hp, entries, hentries, rfl⟩ := hcs
      obtain ⟨p', hp', e, he, rfl, -⟩ := h
      obtain rfl := Except.ok.inj (hp.symm.trans hp')
      have hlt : i < p.clips.len.toNat := by simpa [Span.size_slice hentries] using hi
      rw [List.getElem?_map, Array.getElem?_toList, Span.getElem?_slice hentries hlt,
        fetch_eq_ok_iff.mp he]
      rfl

/-- What is fetched of a clip that is weighed is what the machine has of it. -/
theorem clipAt_eq_ok {i : Nat} {c : PlayedClip} (h : b.clipAt s i = .ok c) :
    ∃ d, b.clipRef s i = .ok (c.clip, c.speed) ∧ b.clips[c.clip.toNat]? = some d ∧
      c.duration = d.duration := by
  simp only [clipAt, bind_eq_ok_iff, pure_eq_ok_iff, fetch_eq_ok_iff] at h
  obtain ⟨⟨clip, speed⟩, href, d, hd, rfl⟩ := h
  exact ⟨d, href, hd, rfl⟩

theorem weighted_eq_ok {ws : List Float32} {clips : List (PlayedClip × Float32)}
    (h : b.weighted s ws = .ok clips) :
    List.Forall₂ (fun x c => b.clipAt s x.2 = .ok c.1) (ws.zipIdx.filter fun (w, _) => !(w ≤ 0))
      clips := by
  refine (mapM_eq_ok_iff.mp h).imp ?_
  rintro ⟨w, i⟩ ⟨c, v⟩ hc
  obtain ⟨c', hat, hc⟩ := bind_eq_ok_iff.mp hc
  obtain ⟨rfl, -⟩ := Prod.mk.inj (pure_eq_ok_iff.mp hc)
  exact hat

/-- The clips that are weighed are some of those that the state stores, in the same order. -/
theorem sublist_of_weighted {ws : List Float32} {clips : List (PlayedClip × Float32)}
    (hcs : b.storedClips s = .ok cs) (hlength : ws.length = cs.length)
    (h : b.weighted s ws = .ok clips) : (clips.map (·.1.clip)).Sublist cs := by
  have hbounds : ∀ x ∈ ws.zipIdx.filter fun (w, _) => !(w ≤ 0), x.2 < cs.length := by
    intro x hx
    have hlt := (List.mem_zipIdx (List.mem_of_mem_filter hx)).2.1
    omega
  have hclips : ((ws.zipIdx.filter fun (w, _) => !(w ≤ 0)).filterMap fun x => cs[x.2]?) =
      clips.map (·.1.clip) := by
    refine filterMap_of_related (List.forall₂_map_right_iff.mpr ?_)
    refine ((List.forall₂_and_left _ _).mpr ⟨hbounds, weighted_eq_ok h⟩).imp ?_
    rintro x c ⟨hi, hat⟩
    obtain ⟨d, href, -, -⟩ := clipAt_eq_ok hat
    exact getElem?_storedClips hcs hi href
  have hsublist : ((ws.zipIdx.filter fun (w, _) => !(w ≤ 0)).filterMap fun x => cs[x.2]?).Sublist
      (ws.zipIdx.filterMap fun x => cs[x.2]?) := List.filter_sublist.filterMap _
  rwa [hclips, filterMap_of_related (related_zipIdx hlength)] at hsublist

/-- Samples of clips of a state, at a position in it: each clip at most once and in the order in
which the state stores them. -/
structure Requests (b : Baked) (state : UInt32) (fraction : Float32) (samples : List Sample) :
    Prop where
  clips : samples = [] ∨ ∃ s cs, b.states[state.toNat]? = some s ∧ b.storedClips s = .ok cs ∧
    (samples.map (·.clip)).Sublist cs
  nodup : (samples.map (·.clip)).Nodup
  position : ∀ x ∈ samples, x.position = fraction
  time : ∀ x ∈ samples, ∃ c, b.clips[x.clip.toNat]? = some c ∧ x.time = fraction * c.duration

theorem requests_nil (b : Baked) (state : UInt32) (fraction : Float32) :
    b.Requests state fraction [] :=
  ⟨.inl rfl, .nil, by simp, by simp⟩

/-- Every state stores each of its clips once, and not more of them than the machine says. -/
def StoresOnce (b : Baked) : Prop :=
  ∀ s ∈ b.states, ∃ cs, b.storedClips s = .ok cs ∧ cs.Nodup ∧ cs.length ≤ b.maxClipsPerState.toNat

theorem requests_of_play (hb : b.StoresOnce) {slots : Nat} {dt scale : Float32} {p q : Playback}
    {samples : List Sample} (h : b.play values slots dt scale p = .ok (q, samples)) :
    b.Requests q.state q.fraction samples ∧ samples.length ≤ b.maxClipsPerState.toNat := by
  obtain ⟨s, ws, clips, hs, hws, hclips, hstate, rfl⟩ := play_eq_ok h
  split
  · exact ⟨requests_nil _ _ _, Nat.zero_le _⟩
  · obtain ⟨cs, hcs, hnodup, hmax⟩ := hb s (Array.mem_of_getElem? hs)
    have hlength : ws.length = cs.length :=
      Except.ok.inj ((clipCount_of_weights hws).symm.trans (clipCount_of_storedClips hcs))
    have hsublist := sublist_of_weighted hcs hlength hclips
    have hmap : (clips.map fun x => (⟨x.1.clip, q.fraction * x.1.duration, q.fraction,
        x.2 * scale⟩ : Sample)).map (·.clip) = clips.map (·.1.clip) := by
      rw [List.map_map]
      rfl
    rw [← hmap] at hsublist
    refine ⟨⟨.inr ⟨s, cs, hstate ▸ hs, hcs, hsublist⟩, hsublist.nodup hnodup, ?_, ?_⟩, ?_⟩
    · intro x hx
      obtain ⟨c, -, rfl⟩ := List.mem_map.mp hx
      rfl
    · intro x hx
      obtain ⟨c, hc, rfl⟩ := List.mem_map.mp hx
      obtain ⟨_, -, hat⟩ := exists_related_of_mem_right (weighted_eq_ok hclips) hc
      obtain ⟨d, -, hd, hduration⟩ := clipAt_eq_ok hat
      exact ⟨d, hd, congrArg (q.fraction * ·) hduration⟩
    · have hle := hsublist.length_le
      rw [List.length_map] at hle
      exact hle.trans hmax

end Baked

namespace Instance

variable {b : Baked} {values : Buffers} {x y : Instance} {dt : Float32}

/-- The number of samples that an instance has room for if it was started with `room`. -/
def sampleRoom (x : Instance) (room : Config) : Nat := max room.scratchSamples (2 * x.slots)

/-- What an instance samples comes in two parts, and there is a first one only while a blend is on
its way. -/
theorem exists_requests_of_sample (hb : b.StoresOnce) (h : x.sample b values dt = .ok y) :
    ∃ source target, y.samples = source ++ target ∧ (y.transition = none → source = []) ∧
      (∀ a ∈ y.transition, b.Requests a.origin.state a.origin.fraction source) ∧
      b.Requests y.current.state y.current.fraction target ∧
      y.samples.length ≤ 2 * b.maxClipsPerState.toNat := by
  obtain ⟨transition, current, source, target, hcurrent, horigin, rfl⟩ := sample_eq_ok h
  obtain ⟨htarget, hle⟩ := Baked.requests_of_play hb hcurrent
  rcases horigin with ⟨-, rfl, rfl⟩ | ⟨a, origin, -, rfl, horigin⟩
  · refine ⟨[], target, rfl, fun _ => rfl, by simp, htarget, ?_⟩
    show target.length ≤ _
    omega
  · obtain ⟨hsource, hle'⟩ := Baked.requests_of_play hb horigin
    refine ⟨source, target, rfl, by simp, ?_, htarget, ?_⟩
    · rintro _ ⟨⟩
      exact hsource
    · rw [List.length_append]
      omega

/-- What a tick of an instance asks for, whatever the instance has sampled before. -/
theorem exists_requests_of_advance (hb : b.StoresOnce) {tick : Tick}
    (h : x.advance b values dt = .ok (tick, y)) :
    (∃ source target, tick.samples = source ++ target ∧ (tick.phase = .steady → source = []) ∧
      (tick.phase = .transitioning → ∃ a, y.transition = some a ∧
        b.Requests a.origin.state a.origin.fraction source) ∧
      b.Requests tick.state y.current.fraction target) ∧
    tick.samples.length ≤ 2 * b.maxClipsPerState.toNat := by
  rcases advance_eq_ok.mp h with ⟨-, rfl, -⟩ | ⟨-, started, z, w, -, -, hy, rfl⟩
  · exact ⟨⟨[], [], rfl, fun _ => rfl, by simp, b.requests_nil _ _⟩, Nat.zero_le _⟩
  · obtain ⟨source, target, hsamples, hsteady, hsource, htarget, hle⟩ :=
      exists_requests_of_sample hb hy
    refine ⟨⟨source, target, hsamples, ?_, ?_, htarget⟩, hle⟩
    · intro hphase
      refine hsteady (Option.not_isSome_iff_eq_none.mp fun hsome => ?_)
      have hrunning : y.phase = .transitioning := if_pos hsome
      cases hrunning.symm.trans hphase
    · intro hphase
      cases hactive : y.transition with
      | none => cases (phase_of_steady hactive).symm.trans hphase
      | some a => exact ⟨a, rfl, hsource a hactive⟩

end Instance

namespace Machine

variable {m : Machine} {ps : List Parameter} {cfg : Config} {b : Baked}

theorem storesOnce_of_bakeWith (hleaves : m.leafCount < 0x80000000)
    (h : (m.bakeWith ps cfg).outcome = .ok b) : b.StoresOnce := by
  intro s hs
  obtain ⟨f, -, hstates, -⟩ := exists_stores_of_bakeWith hleaves h
  obtain ⟨x, -, cs, hcs⟩ := exists_related_of_mem_right hstates (Array.mem_def.mp hs)
  have hstored := hcs.storedClips
  refine ⟨cs, hstored, ?_, ?_⟩
  · exact (hcs.perm.nodup_iff.mpr List.nodup_range').of_map
  · exact clipCount_le_of_bakeWith hleaves h hs (Baked.clipCount_of_storedClips hstored)

/-- A tick of a baked machine asks for clips of the state that a blend comes from, if one is on its
way, and then for clips of the state it reports: each clip at most once and in the order in which
the state stores them, at the position of the state after the tick. What was asked for before has no
influence, and the samples fit in the room that an instance starts with. -/
theorem requests_of_advance (hleaves : m.leafCount < 0x80000000)
    (hsubs : m.subCount < 0x80000000) (h : (m.bakeWith ps cfg).outcome = .ok b) {x : Instance}
    (hx : Instance.Reachable b x) (values : Buffers) (dt : Float32) :
    (values.Fits b.parameters → ∃ r, x.advance b values dt = .ok r) ∧
    ∀ tick y, x.advance b values dt = .ok (tick, y) →
      (∃ source target, tick.samples = source ++ target ∧ (tick.phase = .steady → source = []) ∧
        (tick.phase = .transitioning → ∃ a, y.transition = some a ∧
          b.Requests a.origin.state a.origin.fraction source) ∧
        b.Requests tick.state y.current.fraction target) ∧
      (∀ samples, ∃ z, ({ x with samples } : Instance).advance b values dt = .ok (tick, z)) ∧
      tick.samples.length ≤ 2 * b.maxClipsPerState.toNat ∧
      ∀ room, tick.samples.length ≤ x.sampleRoom room := by
  have hb := playable_of_bakeWith hleaves hsubs h
  have hready := Instance.ready_of_reachable hb.valid hx
  refine ⟨?_, ?_⟩
  · intro hv
    obtain ⟨r, hr, -⟩ := Instance.yields_advance hb hv hready dt
    exact ⟨r, hr⟩
  · intro tick y hy
    obtain ⟨hparts, hle⟩ :=
      Instance.exists_requests_of_advance (storesOnce_of_bakeWith hleaves h) hy
    refine ⟨hparts, ?_, hle, ?_⟩
    · intro samples
      have hmatches : x.Matches { x with samples } := ⟨rfl, rfl, rfl, rfl⟩
      have halike := hmatches.advance hb.valid values dt
      rw [hy] at halike
      generalize ({ x with samples } : Instance).advance b values dt = result at halike
      cases halike with
      | @ok _ r hr => exact ⟨r.2, congrArg _ (Prod.ext hr.1 rfl)⟩
    · intro room
      rw [Instance.sampleRoom, hready.slots]
      omega

theorem requests_of_advance_strolling : ∃ b x tick y source target,
    (strolling.bakeWith [⟨"pace", .float 0⟩] {}).outcome = .ok b ∧ Instance.start b {} = .ok x ∧
      x.advance b (.ofLayout b.parameters) 0.5 = .ok (tick, y) ∧
      tick.samples = source ++ target ∧ b.Requests tick.state y.current.fraction target ∧
      tick.samples.length ≤ x.sampleRoom {} := by
  obtain ⟨b, hb⟩ := exists_bakeWith_strolling
  have hvalid := valid_of_bakeWith (by decide) (by decide) hb
  have hroom : Config.Addressable {} := ⟨by decide, by decide⟩
  obtain ⟨x, hx, -⟩ := Instance.yields_start hvalid hroom
  obtain ⟨hresult, hshape⟩ := requests_of_advance (by decide) (by decide) hb (.start {} hx)
    (.ofLayout b.parameters) 0.5
  obtain ⟨⟨tick, y⟩, hy⟩ := hresult (Parameter.Buffers.fits_ofLayout _)
  obtain ⟨⟨source, target, hparts, -, -, htarget⟩, -, -, hle⟩ := hshape tick y hy
  exact ⟨b, x, tick, y, source, target, hb, hx, hy, hparts, htarget, hle {}⟩

end Machine

end PoseMachine
