import PoseMachine.Baked.Basic
import PoseMachine.Proofs.Casts
import PoseMachine.Proofs.Outcome

/-!
Spans of pools: what a slice has in it, when there is one, and that it outlives the growth of its
pool.
-/

namespace PoseMachine.Baked.Span

variable {α : Type} {s : Span} {pool xs : Array α}

theorem toNat_position {i : Nat} (h : s.start.toNat + i < 0x100000000) :
    (s.position i).toNat = s.start.toNat + i := by
  rw [position, UInt32.toNat_add, toNat_toUInt32 (by omega)]
  exact Nat.mod_eq_of_lt h

theorem toNat_position_le (s : Span) (i : Nat) : (s.position i).toNat ≤ s.start.toNat + i := by
  rw [position, UInt32.toNat_add]
  exact Nat.le_trans (Nat.mod_le _ _) (Nat.add_le_add_left (toNat_toUInt32_le i) _)

theorem slice_eq_ok_iff : s.slice pool = .ok xs ↔
    s.stop ≤ pool.size ∧ pool.extract s.start.toNat s.stop = xs := by
  simp only [slice, fits, decide_eq_true_eq]
  split
  · next hfits => simp [hfits]
  · next hfits => simp [hfits]

theorem stop_le_of_slice (h : s.slice pool = .ok xs) : s.stop ≤ pool.size :=
  (slice_eq_ok_iff.mp h).1

/-- In a pool of no more entries than there are positions, an entry is where its position says. -/
theorem toNat_position_of_slice (hroom : pool.size ≤ 0x100000000) (h : s.slice pool = .ok xs) {i : Nat}
    (hi : i < xs.size) : (s.position i).toNat = s.start.toNat + i := by
  have hstop := stop_le_of_slice h
  rw [size_slice h] at hi
  rw [stop] at hstop
  exact toNat_position (by omega)

theorem extract_eq_of_slice (h : s.slice pool = .ok xs) :
    pool.extract s.start.toNat s.stop = xs :=
  (slice_eq_ok_iff.mp h).2

/-- A slice is a segment of its pool. -/
theorem slice_eq_ok_iff_segment : s.slice pool = .ok xs ↔ ∃ l r,
    pool.toList = l ++ xs.toList ++ r ∧ l.length = s.start.toNat ∧ xs.size = s.len.toNat := by
  rw [slice_eq_ok_iff, stop]
  constructor
  · rintro ⟨hfits, rfl⟩
    refine ⟨pool.toList.take s.start.toNat, pool.toList.drop (s.start.toNat + s.len.toNat), ?_,
      ?_, ?_⟩
    · rw [Array.toList_extract, List.extract_eq_take_drop, Nat.add_sub_cancel_left,
        List.append_assoc, ← List.drop_drop, List.take_append_drop, List.take_append_drop]
    · rw [List.length_take, Array.length_toList]
      omega
    · rw [Array.size_extract]
      omega
  · rintro ⟨l, r, hpool, hl, hxs⟩
    have hsize : pool.size = l.length + xs.size + r.length := by
      simp only [← Array.length_toList, hpool, List.length_append]
    refine ⟨by omega, ?_⟩
    apply Array.toList_inj.mp
    rw [Array.toList_extract, hpool, List.extract_eq_take_drop, Nat.add_sub_cancel_left, ← hl,
      ← hxs, List.append_assoc, List.drop_left, ← Array.length_toList, List.take_left]

theorem slice_mono {pool' : Array α} (hpool : pool.toList <+: pool'.toList)
    (h : s.slice pool = .ok xs) : s.slice pool' = .ok xs := by
  obtain ⟨l, r, hl⟩ := slice_eq_ok_iff_segment.mp h
  obtain ⟨r', hr'⟩ := hpool
  rw [slice_eq_ok_iff_segment]
  refine ⟨l, r ++ r', ?_, hl.2⟩
  rw [← hr', hl.1]
  simp

theorem make_eq_ok {start len : Nat} (h : (make start len).outcome = .ok s) :
    s.start.toNat = start ∧ s.len.toNat = len := by
  unfold make at h
  split at h
  · next hroom =>
    obtain rfl := Report.outcome_pure_eq_ok.mp h
    simp only [limit] at hroom
    exact ⟨toNat_toUInt32 (by omega), toNat_toUInt32 (by omega)⟩
  · simp at h

theorem add_le_limit_of_make {start len : Nat} (h : (make start len).outcome = .ok s) :
    start + len ≤ limit := by
  unfold make at h
  split at h
  · next hroom => exact hroom
  · simp at h

theorem slice_make {ys : List α} (h : (make pool.size ys.length).outcome = .ok s) :
    s.slice (pool ++ ys) = .ok ys.toArray := by
  obtain ⟨hstart, hlen⟩ := make_eq_ok h
  rw [slice_eq_ok_iff_segment]
  exact ⟨pool.toList, [], by simp, by simp [hstart], by simp [hlen]⟩

theorem yields_slice (h : s.stop ≤ pool.size) :
    Yields (s.slice pool) fun xs => xs.size = s.len.toNat ∧ ∀ x ∈ xs, x ∈ pool := by
  have hslice := slice_eq_ok_iff.mpr ⟨h, rfl⟩
  refine ⟨_, hslice, size_slice hslice, ?_⟩
  intro x hx
  obtain ⟨k, hk, rfl⟩ := Array.mem_extract_iff_getElem.mp hx
  exact Array.getElem_mem _

/-- The entry `i` of a span, read from the pool. -/
theorem yields_fetch_add (h : s.stop ≤ pool.size) {i : Nat} (hi : i < s.len.toNat) :
    Yields (fetch pool (s.start.toNat + i)) fun x => x ∈ pool.extract s.start.toNat s.stop := by
  rw [stop] at h
  refine (yields_fetch (by omega)).mono ?_
  intro x hx
  refine Array.mem_of_getElem? (i := i) ?_
  rw [Array.getElem?_extract, stop, if_pos (by omega)]
  exact hx

end PoseMachine.Baked.Span

namespace PoseMachine.Baked

theorem lineSlices_eq_ok {b : Baked} {l : LineState} {ts : Array Single.Pattern}
    {vs : Array Float32} {cs : Array UInt16} (h : b.lineSlices l = .ok (cs, ts, vs)) :
    l.clips.slice b.lineClips = .ok cs ∧ l.clips.slice b.lineThresholds = .ok ts ∧
      l.clips.slice b.lineSpeeds = .ok vs := by
  simp only [lineSlices, bind_eq_ok_iff, pure_eq_ok_iff, Prod.mk.injEq] at h
  obtain ⟨_, hcs, _, hts, _, hvs, rfl, rfl, rfl⟩ := h
  exact ⟨hcs, hts, hvs⟩

end PoseMachine.Baked
