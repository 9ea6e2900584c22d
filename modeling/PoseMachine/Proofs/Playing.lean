import PoseMachine.Instance.Sampling
import PoseMachine.Proofs.Parameters
import PoseMachine.Proofs.Spans
import PoseMachine.Proofs.Validity

/-!
A state of a valid machine can be played: it has a weight for each of its clips, and each of its
clips is there.
-/

namespace PoseMachine

namespace Blend

theorem length_spread (n : Nat) (weights : List (Nat × Float32)) :
    (spread n weights).length = n := by
  simp [spread]

theorem length_byBands (clips : List Point) (input : Point) :
    (byBands clips input).length = clips.length := by
  simp [byBands]

theorem nearest_lt {clips : List Point} (h : 0 < clips.length) (input : Point) :
    nearest clips input < clips.length := by
  unfold nearest
  refine List.foldlRecOn (motive := fun best : Nat × Float32 => best.1 < clips.length) _ _ h ?_
  rintro best hbest ⟨p, i⟩ hmem
  dsimp only
  split
  · simpa using (List.mem_zipIdx hmem).2.1
  · exact hbest

theorem length_normalized {clips : List Point} (h : 0 < clips.length) (input : Point)
    {weights : List Float32} (hweights : weights.length = clips.length) :
    (normalized clips input weights).length = clips.length := by
  simp only [normalized]
  split
  · rw [List.length_map, hweights]
  · exact length_only (nearest_lt h input)

theorem length_planeWeights (method : PlaneMethod) (clips : List Point) (input : Point) :
    (planeWeights method clips input).length = clips.length := by
  unfold planeWeights
  split
  · rfl
  · rfl
  · next hne _ =>
    have hpos : 0 < clips.length := List.length_pos_iff.mpr hne
    cases method with
    | simpleDirectional => exact length_normalized hpos input (length_spread _ _)
    | freeformCartesian => exact length_normalized hpos input (length_byBands _ _)

end Blend

namespace Baked

open Parameter (Buffers)

variable {b : Baked} {values : Buffers} {s : State}

theorem ValidLine.yields_lineSlices {l : LineState} (hl : b.ValidLine l) :
    Yields (b.lineSlices l) fun r => r.2.1.size = l.clips.len.toNat := by
  have hclips := hl.clips
  refine (Span.yields_slice hclips).bind ?_
  intro clips _
  refine (Span.yields_slice (by rw [hl.thresholds]; exact hclips)).bind ?_
  rintro thresholds ⟨hthresholds, -⟩
  refine (Span.yields_slice (by rw [hl.speeds]; exact hclips)).bind ?_
  intro speeds _
  exact .pure hthresholds

theorem yields_numeric (hv : values.Fits b.parameters) {p : Parameter.Numeric}
    (hp : b.hasNumeric p = true) : Yields (values.numeric p) fun _ => True := by
  unfold hasNumeric at hp
  unfold Buffers.numeric
  cases hk : p.kind with
  | bool => simp [hk] at hp
  | int =>
      rw [hk] at hp
      exact (hv.yields_int (of_decide_eq_true hp)).map fun _ _ => trivial
  | float =>
      rw [hk] at hp
      exact hv.yields_float (of_decide_eq_true hp)

/-- There are as many weights as the state has clips. -/
theorem clipCount_of_weights {slots : Nat} {ws : List Float32}
    (h : b.weights values slots s = .ok ws) : b.clipCount s = .ok ws.length := by
  unfold weights at h
  cases hk : s.kind with
  | clip =>
      rw [hk] at h
      obtain rfl := pure_eq_ok_iff.mp h
      simp [clipCount, hk]
  | line =>
      rw [hk] at h
      simp only [bind_eq_ok_iff, fetch_eq_ok_iff] at h
      obtain ⟨l, hl, ⟨clips, thresholds, speeds⟩, hslices, v, -, h⟩ := h
      obtain ⟨-, hthresholds, -⟩ := lineSlices_eq_ok hslices
      split at h
      · obtain rfl := pure_eq_ok_iff.mp h
        rw [clipCount_line hk hl, Blend.length_lineWeights, List.length_map, Array.length_toList,
          Span.size_slice hthresholds]
      · cases h
  | plane =>
      rw [hk] at h
      simp only [bind_eq_ok_iff, fetch_eq_ok_iff] at h
      obtain ⟨p, hp, entries, hentries, x, -, y, -, h⟩ := h
      split at h
      · obtain rfl := pure_eq_ok_iff.mp h
        rw [clipCount_plane hk hp, Blend.length_planeWeights, List.length_map,
          Array.length_toList, Span.size_slice hentries]
      · cases h

namespace Valid

/-- There is one weight for each clip of a state, if there are slots for them. -/
theorem yields_weights (hb : b.Valid) (hv : values.Fits b.parameters) (hs : b.ValidState s)
    {slots : Nat} (hroom : ∀ n, b.clipCount s = .ok n → n ≤ slots) :
    Yields (b.weights values slots s) fun ws => b.clipCount s = .ok ws.length := by
  have hresult : Yields (b.weights values slots s) fun _ => True := by
    have htype := hs.typeIndex
    unfold weights
    cases hk : s.kind with
    | clip => exact .pure trivial
    | line =>
        rw [hk] at htype
        refine (yields_fetch htype).bind ?_
        intro l hl
        have hline := hb.lineStates l (Array.mem_of_getElem? hl)
        refine hline.yields_lineSlices.bind ?_
        rintro ⟨clips, thresholds, speeds⟩ hsize
        refine (yields_numeric hv hline.parameter).bind ?_
        intro v _
        dsimp only at hsize ⊢
        rw [if_pos (by rw [hsize]; exact hroom _ (clipCount_line hk hl))]
        exact .pure trivial
    | plane =>
        rw [hk] at htype
        refine (yields_fetch htype).bind ?_
        intro p hp
        have hplane := hb.planeStates p (Array.mem_of_getElem? hp)
        refine (Span.yields_slice hplane.clips).bind ?_
        rintro entries ⟨hsize, -⟩
        refine (hv.yields_float hplane.parameterX).bind ?_
        intro x _
        refine (hv.yields_float hplane.parameterY).bind ?_
        intro y _
        rw [if_pos (by rw [hsize]; exact hroom _ (clipCount_plane hk hp))]
        exact .pure trivial
  obtain ⟨ws, hws, -⟩ := hresult
  exact ⟨ws, hws, clipCount_of_weights hws⟩

/-- A clip of a state is one of the machine. -/
theorem yields_clipRef (hb : b.Valid) (hs : b.ValidState s) {n i : Nat}
    (hn : b.clipCount s = .ok n) (hi : i < n) :
    Yields (b.clipRef s i) fun r => r.1.toNat < b.clips.size := by
  have htype := hs.typeIndex
  unfold clipRef
  cases hk : s.kind with
  | clip =>
      rw [hk] at htype
      refine (yields_fetch htype).bind ?_
      intro c hc
      exact .pure (hb.clipStates c (Array.mem_of_getElem? hc))
  | line =>
      rw [hk] at htype
      refine (yields_fetch htype).bind ?_
      intro l hl
      rw [clipCount_line hk hl] at hn
      obtain rfl := Except.ok.inj hn
      have hline := hb.lineStates l (Array.mem_of_getElem? hl)
      refine (Span.yields_fetch_add hline.clips hi).bind ?_
      intro clip hclip
      refine (Span.yields_fetch_add (by rw [hline.speeds]; exact hline.clips) hi).bind ?_
      intro speed _
      exact .pure (hline.clip clip hclip)
  | plane =>
      rw [hk] at htype
      refine (yields_fetch htype).bind ?_
      intro p hp
      rw [clipCount_plane hk hp] at hn
      obtain rfl := Except.ok.inj hn
      have hplane := hb.planeStates p (Array.mem_of_getElem? hp)
      refine (Span.yields_fetch_add hplane.clips hi).bind ?_
      intro e he
      exact .pure (hplane.clip e he)

theorem yields_weighted (hb : b.Valid) (hs : b.ValidState s) {ws : List Float32}
    (hcount : b.clipCount s = .ok ws.length) : Yields (b.weighted s ws) fun _ => True := by
  refine (Yields.mapM (Q := fun _ => True) ?_).mono fun _ _ => trivial
  rintro ⟨w, i⟩ hmem
  have hi : i < ws.length := by
    simpa using (List.mem_zipIdx (List.mem_of_mem_filter hmem)).2.1
  have hclip : Yields (b.clipAt s i) fun _ => True := by
    refine (hb.yields_clipRef hs hcount hi).bind ?_
    rintro ⟨clip, speed⟩ hclip
    refine (yields_fetch hclip).bind ?_
    intro c _
    exact .pure trivial
  refine hclip.bind ?_
  intro c _
  exact .pure trivial

theorem yields_speed (hv : values.Fits b.parameters) (hs : b.ValidState s) :
    Yields (speed values s) fun _ => True := by
  have hspeed := hs.speedParameter
  unfold speed
  split
  · exact .ok trivial
  · next p hp => exact (hv.yields_float (hspeed p hp)).map fun _ _ => trivial

/-- Any state that is there can be played, and stays the one that plays. -/
theorem yields_play (hb : b.Valid) (hv : values.Fits b.parameters) {slots : Nat}
    (hroom : ∀ s ∈ b.states, ∀ n, b.clipCount s = .ok n → n ≤ slots) (dt scale : Float32)
    {p : Playback} (hp : p.state.toNat < b.states.size) :
    Yields (b.play values slots dt scale p) fun r => r.1.state = p.state := by
  refine (yields_fetch hp).bind ?_
  intro s hs
  have hmem := Array.mem_of_getElem? hs
  have hstate := hb.states s hmem
  refine (hb.yields_weights hv hstate (hroom s hmem)).bind ?_
  intro ws hws
  refine (yields_speed hv hstate).bind ?_
  intro v _
  refine (hb.yields_weighted hstate hws).bind ?_
  intro clips _
  refine .pure ?_
  dsimp only
  split
  · exact Playback.state_step _ _ _
  · rfl

end Valid

end Baked

end PoseMachine
