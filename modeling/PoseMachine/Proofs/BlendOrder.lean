import PoseMachine.Proofs.Preorder

/-!
The order of the clips in a blend along one parameter. Clips, thresholds and speeds are stored
apart, and stay together through the sort by threshold, which leaves equal thresholds as authored.
-/

namespace PoseMachine

open Single (Pattern)

/-- The entries of a blend along one parameter as authored, its clips starting at `offset`. -/
def authoredEntries (offset : Nat) (clips : List LineClip) : List (Nat × Pattern × Float32) :=
  clips.zipIdx.map fun (c, j) => (offset + j, c.threshold, c.speed)

/-- The list `es` has the entries `as` by threshold, those of one threshold in the order of `as`. -/
structure SortedByThreshold (as es : List (Nat × Pattern × Float32)) : Prop where
  perm : es.Perm as
  sorted : es.Pairwise fun e e' => e.2.1.le e'.2.1 = true
  stable : ∀ (j k : Nat) e e', j < k → as[j]? = some e → as[k]? = some e' → e.2.1 = e'.2.1 →
    [e, e'].Sublist es

theorem pair_sublist_of_getElem? {α : Type} {xs : List α} {j k : Nat} {a b : α} (hjk : j < k)
    (ha : xs[j]? = some a) (hb : xs[k]? = some b) : [a, b].Sublist xs := by
  have hleft : [a].Sublist (xs.take k) := by
    rw [List.singleton_sublist, List.mem_iff_getElem?]
    exact ⟨j, by rw [List.getElem?_take_of_lt hjk, ha]⟩
  have hright : [b].Sublist (xs.drop k) := by
    rw [List.singleton_sublist, List.mem_iff_getElem?]
    exact ⟨0, by rw [List.getElem?_drop, Nat.add_zero, hb]⟩
  simpa using hleft.append hright

theorem sortedByThreshold_mergeSort (as : List (Nat × Pattern × Float32)) :
    SortedByThreshold as (as.mergeSort fun e e' => e.2.1.le e'.2.1) := by
  have htrans : ∀ a b c : Nat × Pattern × Float32, a.2.1.le b.2.1 = true → b.2.1.le c.2.1 = true →
      a.2.1.le c.2.1 = true := fun _ _ _ => Pattern.le_trans _ _ _
  have htotal : ∀ a b : Nat × Pattern × Float32, (a.2.1.le b.2.1 || b.2.1.le a.2.1) = true :=
    fun _ _ => Pattern.le_total _ _
  refine ⟨List.mergeSort_perm as _, List.pairwise_mergeSort htrans htotal as, ?_⟩
  intro j k e e' hjk he he' heq
  refine List.pair_sublist_mergeSort htrans htotal ?_ (pair_sublist_of_getElem? hjk he he')
  simpa [heq] using htotal e' e'

namespace Draft

/-- An entry with the number of its clip. -/
def LineEntry.parts (e : LineEntry) : Nat × Pattern × Float32 :=
  (e.clip.toNat, e.threshold, e.speed)

/-- Where clip numbers fit, sorting the entries is sorting what was authored. -/
theorem map_parts_lineEntries {offset : Nat} {clips : List LineClip}
    (hfits : offset + clips.length ≤ 65536) :
    (lineEntries offset clips).map LineEntry.parts =
      (authoredEntries offset clips).mergeSort fun e e' => e.2.1.le e'.2.1 := by
  refine (List.map_mergeSort (s := fun e e' : Nat × Pattern × Float32 => e.2.1.le e'.2.1)
    fun _ _ _ _ => rfl).trans ?_
  rw [List.map_map, authoredEntries]
  congr 1
  refine List.map_congr_left ?_
  rintro ⟨c, j⟩ hj
  have hlt : j < clips.length := by simpa using (List.mem_zipIdx hj).2.1
  have hclip : (offset + j).toUInt16.toNat = offset + j := toNat_toUInt16 (by omega)
  rw [Function.comp_apply, LineEntry.parts, hclip]

theorem length_lineEntries (offset : Nat) (clips : List LineClip) :
    (lineEntries offset clips).length = clips.length := by
  simp [lineEntries]

/-- The parts of entries are read in parallel from lists of clips, thresholds and speeds. -/
theorem zip_map_lineEntries (es : List LineEntry) :
    ((es.map (·.clip)).map (·.toNat)).zip ((es.map (·.threshold)).zip (es.map (·.speed))) =
      es.map LineEntry.parts := by
  rw [List.map_map, List.zip_map', List.zip_map']
  rfl

/-- No threshold is above the one behind it. -/
theorem not_gt_of_lineEntries {offset : Nat} {clips : List LineClip} {j : Nat} {t t' : Pattern}
    (ht : ((lineEntries offset clips).map (·.threshold))[j]? = some t)
    (ht' : ((lineEntries offset clips).map (·.threshold))[j + 1]? = some t') :
    ¬ t.value > t'.value := by
  have hpair := pair_sublist_of_getElem? (Nat.lt_succ_self j) ht ht'
  have hsorted : ((lineEntries offset clips).map (·.threshold)).Pairwise fun a b =>
      a.le b = true := List.pairwise_map.mpr (pairwise_lineEntries offset clips)
  have hle : t.le t' = true := by simpa using hsorted.sublist hpair
  exact Pattern.not_gt_of_le hle

end Draft

namespace Baked

variable {b : Baked}

theorem HoldsMotion.exists_lineSlices {p : Parameter.Numeric} {es : List Draft.LineEntry}
    {k : StateKind} {i : Nat} (h : b.HoldsMotion (.line p es) k i) :
    k = .line ∧ ∃ l, b.lineStates[i]? = some l ∧
      b.lineSlices l = .ok ((es.map (·.clip)).toArray, (es.map (·.threshold)).toArray,
        (es.map (·.speed)).toArray) := by
  cases h with
  | line h hl => exact ⟨rfl, _, h, by rw [lineSlices, hl.clips, hl.thresholds, hl.speeds]; rfl⟩

end Baked

namespace Machine

variable {m : Machine} {ps : List Parameter} {cfg : Config} {b : Baked}

/-- Each state plays the motion of its leaf, whose clips are numbered in 16 bits. -/
theorem motions_of_bakeWith (hleaves : m.leafCount < 0x80000000)
    (h : (m.bakeWith ps cfg).outcome = .ok b) :
    ∃ t f, (Flat.ofMachine m cfg).outcome = .ok f ∧
      List.Forall₂ (fun (x : Flat.Leaf) (s : Baked.State) =>
        x.clipOffset + x.motion.clipCount ≤ 65536 ∧
          ∃ d, Draft.Motion.Renders t x.clipOffset x.motion d ∧
            b.HoldsMotion d s.kind s.typeIndex.toNat) f.leaves.toList b.states.toList ∧
      b.clips.toList = f.leaves.toList.flatMap fun x => x.motion.clips.map Draft.bakedClip := by
  obtain ⟨t, f, d, -, hf, hsound, -, hrenders, hholds⟩ := holdsDraft_of_bakeWith hleaves h
  obtain ⟨-, -, hclips⟩ := Flat.ofMachine_sound hf
  have hlimit : cfg.clipLimit ≤ 65536 := Nat.min_le_right _ _
  have hleaf : ∀ x ∈ f.leaves.toList, x.clipOffset + x.motion.clipCount ≤ 65536 := by
    intro x hx
    have := hsound.leaf_clips x (Array.mem_toList_iff.mp hx)
    omega
  have hstates := related_trans hrenders.states hholds.packed.states
    fun x _ s hx hs => (⟨_, hx.motion, hs.motion⟩ : ∃ d,
      Draft.Motion.Renders t x.clipOffset x.motion d ∧ b.HoldsMotion d s.kind s.typeIndex.toNat)
  refine ⟨t, f, hf, (List.forall₂_and_left _ _).mpr ⟨hleaf, hstates⟩, ?_⟩
  rw [hholds.clips, ← hrenders.clips]

/-- Blends along one parameter are baked by threshold, each clip with its threshold and speed. -/
theorem line_blends_sorted (hleaves : m.leafCount < 0x80000000)
    (h : (m.bakeWith ps cfg).outcome = .ok b) :
    ∃ f, (Flat.ofMachine m cfg).outcome = .ok f ∧
      ∀ (i : Nat) (x : Flat.Leaf) name clips, f.leaves[i]? = some x → x.motion = .line name clips →
        ∃ s l cs ts vs, b.states[i]? = some s ∧ s.kind = .line ∧
          b.lineStates[s.typeIndex.toNat]? = some l ∧ b.lineSlices l = .ok (cs, ts, vs) ∧
          cs.size = clips.length ∧ ts.size = clips.length ∧ vs.size = clips.length ∧
          SortedByThreshold (authoredEntries x.clipOffset clips)
            ((cs.toList.map (·.toNat)).zip (ts.toList.zip vs.toList)) ∧
          ∀ (j : Nat) t t', ts[j]? = some t → ts[j + 1]? = some t' → ¬ t.value > t'.value := by
  obtain ⟨t, f, hf, hstates, -⟩ := motions_of_bakeWith hleaves h
  refine ⟨f, hf, ?_⟩
  intro i x name clips hx hmotion
  obtain ⟨s, hs, hfits, d, hrenders, hholds⟩ :=
    exists_related_of_getElem?_left hstates (by simpa using hx)
  rw [hmotion] at hfits hrenders
  cases hrenders with
  | @line _ p _ hkind hfind =>
      obtain ⟨hk, l, hl, hslices⟩ := hholds.exists_lineSlices
      refine ⟨s, l, _, _, _, by simpa using hs, hk, hl, hslices, ?_, ?_, ?_, ?_, ?_⟩
      · simp [Draft.length_lineEntries]
      · simp [Draft.length_lineEntries]
      · simp [Draft.length_lineEntries]
      · rw [Draft.zip_map_lineEntries, Draft.map_parts_lineEntries hfits]
        exact sortedByThreshold_mergeSort _
      · intro j t t' ht ht'
        exact Draft.not_gt_of_lineEntries (by simpa using ht) (by simpa using ht')

/-- Two of these clips have one threshold, between which the third was authored. -/
def strides : List LineClip :=
  [⟨⟨"run", 1⟩, ⟨0x40000000⟩, 1⟩, ⟨⟨"walk", 1⟩, ⟨0x80000000⟩, 1⟩, ⟨⟨"sprint", 1⟩, ⟨0x40000000⟩, 2⟩]

/-- A machine with a state of each kind, one of them nested. -/
def strolling : Machine where
  name := "strolling"
  states :=
    [.leaf { id := 1, name := "rest" } (.clip ⟨"rest", 1⟩),
     .container { id := 2, name := "gait" } { entry := some 3 }
      (some
        { name := "gait"
          states := [.leaf { id := 3, name := "stride" } (.line "pace" strides)] }),
     .leaf { id := 4, name := "lean" }
      (.plane "pace" "pace" .freeformCartesian [⟨⟨"left", 1⟩, 0, 1, 1⟩, ⟨⟨"right", 1⟩, 1, 0, 1⟩])]
  defaultState := some 1

theorem exists_bakeWith_strolling :
    ∃ b, (strolling.bakeWith [⟨"pace", .float 0⟩] {}).outcome = .ok b := by
  open SmallBakes in
  simp [strolling, strides, Draft.length_lineEntries, -String.reduceAppend]
  exact ⟨_, rfl⟩

theorem line_blends_sorted_strolling : ∃ b s l cs ts vs,
    (strolling.bakeWith [⟨"pace", .float 0⟩] {}).outcome = .ok b ∧
      b.states[1]? = some s ∧ b.lineStates[s.typeIndex.toNat]? = some l ∧
      b.lineSlices l = .ok (cs, ts, vs) ∧
      SortedByThreshold (authoredEntries 1 strides)
        ((cs.toList.map (·.toNat)).zip (ts.toList.zip vs.toList)) := by
  obtain ⟨b, hb⟩ := exists_bakeWith_strolling
  obtain ⟨f, hf, hsorted⟩ := line_blends_sorted (by decide) hb
  have hsize : f.leaves.size = 3 := (Flat.ofMachine_sound hf).2.1.size_leaves
  have hx : f.leaves[1]? = some f.leaves[1] := Array.getElem?_eq_getElem (by omega)
  obtain ⟨p, hp, hat⟩ := Flat.isAt_of_ofMachine (by decide) hf hx
  obtain rfl := Option.some.inj hp
  obtain ⟨s, l, cs, ts, vs, hs, -, hl, hslices, -, -, -, hentries, -⟩ :=
    hsorted 1 _ "pace" strides hx hat.motion
  rw [show f.leaves[1].clipOffset = 1 from hat.clipOffset] at hentries
  exact ⟨b, s, l, cs, ts, vs, hb, hs, hl, hslices, hentries⟩

end Machine

end PoseMachine
