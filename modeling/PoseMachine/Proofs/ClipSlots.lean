import PoseMachine.Proofs.BlendOrder
import PoseMachine.Proofs.Enclosure

/-!
Which clip each stored number leads to. Leaves take the clips of a baked machine one after another,
so that every clip is stored once, by the state it was authored for.
-/

namespace PoseMachine

/-- The clips of a place start behind those of the places before it. -/
theorem getElem?_flatMap_clips {β : Type} {g : Clip → β} {ps : List Place} {i : Nat} {p : Place}
    (hp : ps[i]? = some p) {j : Nat} {c : Clip} (hc : p.motion.clips[j]? = some c) :
    (ps.flatMap fun p => p.motion.clips.map g)[placedClips (ps.take i) + j]? = some (g c) := by
  induction ps generalizing i with
  | nil => simp at hp
  | cons q ps ih =>
      cases i with
      | zero =>
          obtain rfl := Option.some.inj hp
          have hlt : j < (q.motion.clips.map g).length := by
            simpa using (List.getElem?_eq_some_iff.mp hc).1
          rw [List.flatMap_cons, List.take_zero, show placedClips [] = 0 from rfl, Nat.zero_add,
            List.getElem?_append_left hlt, List.getElem?_map, hc]
          rfl
      | succ i =>
          rw [List.flatMap_cons, List.take_succ_cons, placedClips_cons, Nat.add_assoc,
            ← Motion.length_clips, ← List.length_map g,
            List.getElem?_append_right (Nat.le_add_right _ _), Nat.add_sub_cancel_left]
          exact ih hp

theorem map_add_zipIdx {α : Type} (offset : Nat) (xs : List α) :
    (xs.zipIdx.map fun x => offset + x.2) = List.range' offset xs.length := by
  have hsnd := congrArg (List.map (offset + ·)) (List.zipIdx_map_snd 0 xs)
  rwa [List.map_map, List.map_add_range'] at hsnd

namespace Flat

variable {f : Flat} {m : Machine}

/-- Leaves in a row share out the clips from `offset` on. -/
theorem flatMap_range'_numbered (root : String) (i offset : Nat) (ps : List Place) :
    ((numbered root i offset ps).flatMap fun l => List.range' l.clipOffset l.motion.clipCount) =
      List.range' offset (placedClips ps) := by
  induction ps generalizing i offset with
  | nil => rfl
  | cons p ps ih =>
      rw [numbered, List.flatMap_cons, ih, placedClips_cons, ← List.range'_append_1]
      rfl

namespace Keeps

theorem flatMap_range' (h : f.Keeps (Survey.ofMachine m)) :
    (f.leaves.toList.flatMap fun l => List.range' l.clipOffset l.motion.clipCount) =
      List.range f.clipCount := by
  have hleaves := congrArg (fun ls : Array Leaf =>
    ls.toList.flatMap fun l => List.range' l.clipOffset l.motion.clipCount) h.leaves
  simp only [Array.toList_map, List.flatMap_map, (Survey.adds_ofMachine m).leaves] at hleaves
  refine hleaves.trans ((flatMap_range'_numbered m.name 0 0 m.places).trans ?_)
  rw [h.clipCount, (Survey.adds_ofMachine m).clipCount, List.range_eq_range']
  exact congrArg (List.range' 0) (Nat.zero_add _).symm

theorem map_motion (h : f.Keeps (Survey.ofMachine m)) :
    f.leaves.toList.map (·.motion) = m.places.map (·.motion) := by
  have hmap := congrArg (fun ls : Array Leaf => ls.toList.map (·.motion)) h.leaves
  simp only [Array.toList_map, List.map_map, (Survey.adds_ofMachine m).leaves] at hmap
  exact hmap.trans (map_numbered m.name 0 0 m.places fun _ _ _ => rfl)

/-- Every authored clip comes where the offset of its leaf says. -/
theorem getElem?_clips {β : Type} (h : f.Keeps (Survey.ofMachine m)) (g : Clip → β) {i : Nat}
    {l : Leaf} (hl : f.leaves[i]? = some l) {j : Nat} {c : Clip}
    (hc : l.motion.clips[j]? = some c) :
    (f.leaves.toList.flatMap fun l => l.motion.clips.map g)[l.clipOffset + j]? = some (g c) := by
  have hleaf := h.getElem?_leaves i
  rw [hl] at hleaf
  obtain ⟨p, hp, heq⟩ := Option.map_eq_some_iff.mp hleaf.symm
  have hoffset : placedClips (m.places.take i) = l.clipOffset := (congrArg Leaf.clipOffset heq :)
  have hmotion : p.motion = l.motion := (congrArg Leaf.motion heq :)
  have hmap := congrArg (List.flatMap fun mo : Motion => mo.clips.map g) h.map_motion
  rw [List.flatMap_map, List.flatMap_map] at hmap
  rw [hmap, ← hoffset]
  exact getElem?_flatMap_clips hp (by rwa [hmotion])

end Keeps

end Flat

theorem Draft.map_parts_planeEntries {offset : Nat} {clips : List PlaneClip}
    (hfits : offset + clips.length ≤ 65536) :
    ((planeEntries offset clips).map fun e => (e.clip.toNat, e.x, e.y, e.speed)) =
      clips.zipIdx.map fun (c, j) => (offset + j, c.x, c.y, c.speed) := by
  rw [planeEntries, List.map_map]
  refine List.map_congr_left ?_
  rintro ⟨c, j⟩ hj
  have hlt : j < clips.length := by simpa using (List.mem_zipIdx hj).2.1
  have hclip : (offset + j).toUInt16.toNat = offset + j := toNat_toUInt16 (by omega)
  rw [Function.comp_apply, hclip]

namespace Baked

/-- The numbers of the clips that a state plays. -/
def storedClips (b : Baked) (s : State) : Except Fault (List UInt16) :=
  match s.kind with
  | .clip => (fetch b.clipStates s.typeIndex.toNat).map fun c => [c.clip]
  | .line => do
    let l ← fetch b.lineStates s.typeIndex.toNat
    let clips ← l.clips.slice b.lineClips
    pure clips.toList
  | .plane => do
    let p ← fetch b.planeStates s.typeIndex.toNat
    let entries ← p.clips.slice b.planeEntries
    pure (entries.toList.map (·.clip))

/-- The state `s` stores the numbers `cs` for the clips of an authored motion, from `offset` on.
Each number is stored with the values of the clip that it counts to. -/
inductive Stores (b : Baked) (s : State) (offset : Nat) :
    PoseMachine.Motion → List UInt16 → Prop where
  | clip {c : PoseMachine.Clip} {i : UInt16} (hk : s.kind = .clip)
      (h : b.clipStates[s.typeIndex.toNat]? = some ⟨i⟩) (hi : i.toNat = offset) :
      Stores b s offset (.clip c) [i]
  | line {name : String} {clips : List LineClip} {l : LineState} {cs : Array UInt16}
      {ts : Array Single.Pattern} {vs : Array Float32} (hk : s.kind = .line)
      (h : b.lineStates[s.typeIndex.toNat]? = some l) (hslices : b.lineSlices l = .ok (cs, ts, vs))
      (hentries : ((cs.toList.map (·.toNat)).zip (ts.toList.zip vs.toList)).Perm
        (authoredEntries offset clips)) :
      Stores b s offset (.line name clips) cs.toList
  | plane {nameX nameY : String} {method : PlaneMethod} {clips : List PlaneClip} {p : PlaneState}
      {es : Array PlaneEntry} (hk : s.kind = .plane)
      (h : b.planeStates[s.typeIndex.toNat]? = some p)
      (hslice : p.clips.slice b.planeEntries = .ok es)
      (hentries : (es.toList.map fun e => (e.clip.toNat, e.x, e.y, e.speed)) =
        clips.zipIdx.map fun (c, j) => (offset + j, c.x, c.y, c.speed)) :
      Stores b s offset (.plane nameX nameY method clips) (es.toList.map (·.clip))

variable {b : Baked} {s : State} {offset : Nat} {mo : PoseMachine.Motion} {cs : List UInt16}

theorem clipCount_of_storedClips (h : b.storedClips s = .ok cs) :
    b.clipCount s = .ok cs.length := by
  unfold storedClips at h
  cases hk : s.kind with
  | clip =>
      rw [hk] at h
      obtain ⟨c, -, rfl⟩ := map_eq_ok_iff.mp h
      simp [clipCount, hk]
  | line =>
      rw [hk] at h
      simp only [bind_eq_ok_iff, pure_eq_ok_iff, fetch_eq_ok_iff] at h
      obtain ⟨l, hl, clips, hclips, rfl⟩ := h
      rw [clipCount_line hk hl, Array.length_toList, Span.size_slice hclips]
  | plane =>
      rw [hk] at h
      simp only [bind_eq_ok_iff, pure_eq_ok_iff, fetch_eq_ok_iff] at h
      obtain ⟨p, hp, entries, hentries, rfl⟩ := h
      rw [clipCount_plane hk hp, List.length_map, Array.length_toList, Span.size_slice hentries]

theorem Stores.storedClips (h : b.Stores s offset mo cs) : b.storedClips s = .ok cs := by
  cases h with
  | clip hk h hi => simp [Baked.storedClips, hk, fetch_eq_ok_iff.mpr h, Except.map]
  | line hk h hslices hentries =>
      obtain ⟨hcs, -, -⟩ := lineSlices_eq_ok hslices
      simp only [Baked.storedClips, hk, fetch_eq_ok_iff.mpr h, ok_bind, hcs]
      rfl
  | plane hk h hslice hentries =>
      simp only [Baked.storedClips, hk, fetch_eq_ok_iff.mpr h, ok_bind, hslice]
      rfl

/-- A state stores each of its clips once. -/
theorem Stores.perm (h : b.Stores s offset mo cs) :
    (cs.map (·.toNat)).Perm (List.range' offset mo.clipCount) := by
  cases h with
  | clip hk h hi => simp [Motion.clipCount, hi]
  | line hk h hslices hentries =>
      obtain ⟨hcs, hts, hvs⟩ := lineSlices_eq_ok hslices
      have hnumbers := hentries.map (·.1)
      rw [List.map_fst_zip, authoredEntries, List.map_map] at hnumbers
      · exact hnumbers.trans (.of_eq (map_add_zipIdx offset _))
      · simp [Span.size_slice hcs, Span.size_slice hts, Span.size_slice hvs]
  | plane hk h hslice hentries =>
      have hnumbers := congrArg (List.map (·.1)) hentries
      rw [List.map_map, List.map_map] at hnumbers
      rw [List.map_map]
      exact .of_eq (hnumbers.trans (map_add_zipIdx offset _))

theorem exists_stores {t : Parameter.Table} {d : Draft.Motion}
    (hfits : offset + mo.clipCount ≤ 65536) (hd : Draft.Motion.Renders t offset mo d)
    (h : b.HoldsMotion d s.kind s.typeIndex.toNat) : ∃ cs, b.Stores s offset mo cs := by
  generalize hk : s.kind = k at h
  generalize hi : s.typeIndex.toNat = i at h
  cases hd with
  | clip c =>
      cases h with
      | clip h => exact ⟨_, .clip hk (hi ▸ h) (toNat_toUInt16 hfits)⟩
  | line clips hkind hfind =>
      obtain ⟨rfl, l, hl, hslices⟩ := h.exists_lineSlices
      refine ⟨_, .line hk (hi ▸ hl) hslices ?_⟩
      rw [Draft.zip_map_lineEntries, Draft.map_parts_lineEntries hfits]
      exact (sortedByThreshold_mergeSort _).perm
  | plane method clips hx hy =>
      cases h with
      | plane h hp =>
          exact ⟨_, .plane hk (hi ▸ h) hp.clips (Draft.map_parts_planeEntries hfits)⟩

/-- If each list stores its own numbers once, all of them together store all numbers once. -/
theorem perm_flatten {α : Type} {g : α → List Nat} {xs : List α} {lists : List (List UInt16)}
    (h : List.Forall₂ (fun x (cs : List UInt16) => (cs.map (·.toNat)).Perm (g x)) xs lists) :
    (lists.flatten.map (·.toNat)).Perm (xs.flatMap g) := by
  induction h with
  | nil => exact .nil
  | cons hx _ ih =>
      rw [List.flatten_cons, List.map_append, List.flatMap_cons]
      exact hx.append ih

end Baked

namespace Machine

variable {m : Machine} {ps : List Parameter} {cfg : Config} {b : Baked}

/-- Each state stores the clips of its leaf. -/
theorem exists_stores_of_bakeWith (hleaves : m.leafCount < 0x80000000)
    (h : (m.bakeWith ps cfg).outcome = .ok b) :
    ∃ f, (Flat.ofMachine m cfg).outcome = .ok f ∧
      List.Forall₂ (fun (x : Flat.Leaf) s => ∃ cs, b.Stores s x.clipOffset x.motion cs)
        f.leaves.toList b.states.toList ∧
      b.clips.toList = f.leaves.toList.flatMap fun x => x.motion.clips.map Draft.bakedClip := by
  obtain ⟨t, f, hf, hstates, hclips⟩ := motions_of_bakeWith hleaves h
  refine ⟨f, hf, hstates.imp ?_, hclips⟩
  rintro x s ⟨hfits, d, hd, hholds⟩
  exact Baked.exists_stores hfits hd hholds

/-- Every clip of a baked machine is stored once, by the state that it was authored for, and is the
one that was authored there. -/
theorem clip_stored_once (hleaves : m.leafCount < 0x80000000)
    (h : (m.bakeWith ps cfg).outcome = .ok b) :
    ∃ f lists, (Flat.ofMachine m cfg).outcome = .ok f ∧
      b.states.toList.mapM b.storedClips = .ok lists ∧
      (lists.flatten.map (·.toNat)).Perm (List.range b.clips.size) ∧
      b.states.size = f.leaves.size ∧
      (∀ (i : Nat) x, f.leaves[i]? = some x → ∃ s cs, b.states[i]? = some s ∧ lists[i]? = some cs ∧
        b.Stores s x.clipOffset x.motion cs ∧
        ∀ (j : Nat) c, x.motion.clips[j]? = some c →
          b.clips[x.clipOffset + j]? = some ⟨c.duration, nameHash c.name⟩) ∧
      (∃ counts, b.states.toList.mapM b.clipCount = .ok counts ∧ counts.sum = b.clips.size) ∧
      lists.Pairwise List.Disjoint := by
  obtain ⟨f, hf, hstates, hclips⟩ := exists_stores_of_bakeWith hleaves h
  obtain ⟨hkeeps, -⟩ := Flat.keeps_of_ofMachine hf
  have hsize : b.clips.size = f.clipCount := by
    rw [(Flat.ofMachine_sound hf).1.clipCount, ← Array.length_toList, hclips]
    simp [List.length_flatMap]
  obtain ⟨lists, hlists, -⟩ : Yields (b.states.toList.mapM b.storedClips) _ :=
    .mapM (Q := fun _ => True) fun s hs => by
      obtain ⟨x, -, cs, hcs⟩ := exists_related_of_mem_right hstates hs
      exact ⟨cs, hcs.storedClips, trivial⟩
  have hstored := mapM_eq_ok_iff.mp hlists
  have hall : List.Forall₂ (fun (x : Flat.Leaf) (cs : List UInt16) =>
      (cs.map (·.toNat)).Perm (List.range' x.clipOffset x.motion.clipCount))
      f.leaves.toList lists := by
    refine related_trans hstates hstored ?_
    rintro x s cs ⟨cs', hcs'⟩ hcs
    obtain rfl : cs' = cs := Except.ok.inj (hcs'.storedClips.symm.trans hcs)
    exact hcs'.perm
  have hperm : (lists.flatten.map (·.toNat)).Perm (List.range b.clips.size) := by
    rw [hsize, ← hkeeps.flatMap_range']
    exact Baked.perm_flatten hall
  refine ⟨f, lists, hf, hlists, hperm, ?_, ?_, ⟨lists.map List.length, ?_, ?_⟩, ?_⟩
  · simpa using hstates.length_eq.symm
  · intro i x hx
    obtain ⟨s, hs, cs, hcs⟩ := exists_related_of_getElem?_left hstates (by simpa using hx)
    obtain ⟨cs', hcs', heq⟩ := exists_related_of_getElem?_left hstored hs
    obtain rfl : cs = cs' := Except.ok.inj (hcs.storedClips.symm.trans heq)
    refine ⟨s, cs, by simpa using hs, hcs', hcs, ?_⟩
    intro j c hc
    rw [← Array.getElem?_toList, hclips]
    exact hkeeps.getElem?_clips Draft.bakedClip hx hc
  · rw [mapM_eq_ok_iff, List.forall₂_map_right_iff]
    exact hstored.imp fun _ _ => Baked.clipCount_of_storedClips
  · rw [← List.length_flatten, ← List.length_map (·.toNat), hperm.length_eq, List.length_range]
  · have hnodup := (hperm.nodup_iff.mpr List.nodup_range).of_map
    exact (List.nodup_flatten.mp hnodup).2

theorem clip_stored_once_strolling : ∃ b lists s cs,
    (strolling.bakeWith [⟨"pace", .float 0⟩] {}).outcome = .ok b ∧
      b.states.toList.mapM b.storedClips = .ok lists ∧
      (lists.flatten.map (·.toNat)).Perm (List.range b.clips.size) ∧
      b.states[1]? = some s ∧ lists[1]? = some cs ∧ b.Stores s 1 (.line "pace" strides) cs ∧
      b.clips[1 + 2]? = some ⟨1, nameHash "sprint"⟩ ∧ lists.Pairwise List.Disjoint := by
  obtain ⟨b, hb⟩ := exists_bakeWith_strolling
  obtain ⟨f, lists, hf, hlists, hperm, -, hleaves, -, hdisjoint⟩ :=
    clip_stored_once (by decide) hb
  have hsize : f.leaves.size = 3 := (Flat.ofMachine_sound hf).2.1.size_leaves
  have hx : f.leaves[1]? = some f.leaves[1] := Array.getElem?_eq_getElem (by omega)
  obtain ⟨p, hp, hat⟩ := Flat.isAt_of_ofMachine (by decide) hf hx
  obtain rfl := Option.some.inj hp
  obtain ⟨s, cs, hs, hcs, hstores, hclips⟩ := hleaves 1 _ hx
  rw [hat.motion, show f.leaves[1].clipOffset = 1 from hat.clipOffset] at hstores hclips
  exact ⟨b, lists, s, cs, hb, hlists, hperm, hs, hcs, hstores, hclips 2 _ rfl, hdisjoint⟩

end Machine

end PoseMachine
