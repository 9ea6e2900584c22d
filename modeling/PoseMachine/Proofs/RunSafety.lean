import PoseMachine.Proofs.BakeSoundness
import PoseMachine.Proofs.Session

/-!
No run of a baked machine ends in a fault, and neither does one of any machine without a defect that
has a slot for each clip of a state. Only the start can fail, when it asks for more room than can be
addressed.
-/

namespace PoseMachine

namespace Session

/-- On a playable machine the room asked for decides whether there is an instance at all, and all
that happens to the instance after that has a result. -/
theorem start_and_run {b : Baked} (hb : b.Playable) (cfg : Config) :
    (¬ cfg.Addressable → start b cfg = .error .oversized) ∧
      (cfg.Addressable → ∃ x, start b cfg = .ok x ∧ ∀ es, ∃ r, x.run b es = .ok r) := by
  refine ⟨start_eq_error, ?_⟩
  intro hcfg
  obtain ⟨x, hstart, hx⟩ := yields_start hb.valid hcfg
  refine ⟨x, hstart, ?_⟩
  intro es
  obtain ⟨r, hr, -⟩ := yields_run hb hx es
  exact ⟨r, hr⟩

end Session

namespace Machine

variable {m : Machine} {ps : List Parameter} {cfg : Config} {b : Baked}

theorem clipCount_le_of_bakeWith (hleaves : m.leafCount < 0x80000000)
    (h : (m.bakeWith ps cfg).outcome = .ok b) {s : Baked.State} (hs : s ∈ b.states) {n : Nat}
    (hn : b.clipCount s = .ok n) : n ≤ b.maxClipsPerState.toNat := by
  obtain ⟨counts, hcounts, hmax⟩ := maxClips_of_bakeWith hleaves h
  obtain ⟨i, hi⟩ := List.mem_iff_getElem?.mp (Array.mem_def.mp hs)
  obtain ⟨c, hc, hcount⟩ := exists_related_of_getElem?_left (mapM_eq_ok_iff.mp hcounts) hi
  obtain rfl : n = c := by simpa [hn] using hcount
  rw [hmax]
  exact List.le_max?_getD_of_mem (List.mem_of_getElem? hc)

/-- A baked machine has slots for the clips of each of its states. -/
theorem playable_of_bakeWith (hleaves : m.leafCount < 0x80000000)
    (hsubs : m.subCount < 0x80000000) (h : (m.bakeWith ps cfg).outcome = .ok b) : b.Playable := by
  refine ⟨valid_of_bakeWith hleaves hsubs h, ?_⟩
  intro s hs n hn
  exact Nat.le_trans (clipCount_le_of_bakeWith hleaves h hs hn) (Nat.le_max_left _ _)

/-- Nothing that happens to an instance of a baked machine ends in a fault. -/
theorem run_ok_of_bakeWith (hleaves : m.leafCount < 0x80000000) (hsubs : m.subCount < 0x80000000)
    (h : (m.bakeWith ps cfg).outcome = .ok b) (room : Config) :
    (¬ room.Addressable → Session.start b room = .error .oversized) ∧
      (room.Addressable →
        ∃ x, Session.start b room = .ok x ∧ ∀ es, ∃ r, x.run b es = .ok r) :=
  Session.start_and_run (playable_of_bakeWith hleaves hsubs h) room

theorem run_ok_of_bakeWith_hopping : ∃ b x,
    (hopping.bakeWith [⟨"grounded", .bool true⟩] {}).outcome = .ok b ∧
      Session.start b {} = .ok x ∧
      ∃ r, x.run b [.advance 1, .set "grounded" (.bool false), .force 7 0, .advance (-1)] =
        .ok r := by
  obtain ⟨b, hb⟩ := exists_bakeWith_hopping
  obtain ⟨x, hx, hrun⟩ :=
    (run_ok_of_bakeWith (by decide) (by decide) hb {}).2 ⟨by decide, by decide⟩
  exact ⟨b, x, hb, hx, hrun _⟩

theorem start_hopping_eq_error : hopping.leafCount < 0x80000000 ∧ hopping.subCount < 0x80000000 ∧
    ∃ b, (hopping.bakeWith [⟨"grounded", .bool true⟩] {}).outcome = .ok b ∧
      Session.start b { scratchSamples := 18446744073709551615 } = .error .oversized := by
  obtain ⟨b, hb⟩ := exists_bakeWith_hopping
  exact ⟨by decide, by decide, b, hb, Session.start_eq_error fun h => absurd h.2 (by decide)⟩

end Machine

namespace Baked

/-- Nothing that happens to an instance of a machine without a defect ends in a fault, if no state
has more clips than there are slots. -/
theorem run_ok_of_no_defect {b : Baked} (h : b.defect? = none)
    (hslots : ∀ s ∈ b.states, ∀ n, b.clipCount s = .ok n → n ≤ max b.maxClipsPerState.toNat 1)
    (cfg : Config) :
    (¬ cfg.Addressable → Session.start b cfg = .error .oversized) ∧
      (cfg.Addressable →
        ∃ x, Session.start b cfg = .ok x ∧ ∀ es, ∃ r, x.run b es = .ok r) :=
  Session.start_and_run ⟨defect?_eq_none_iff.mp h, hslots⟩ cfg

/-- A machine with one state that blends two clips, and slots as given. -/
def twoClips (slots : UInt32) : Baked where
  parameters := { floats := #[⟨0, 0⟩] }
  states :=
    #[{ kind := .line, typeIndex := 0, looping := true, speed := 1, speedParameter := none,
        transitions := {}, exitGroup := -1, sub := -1, nameHash := 0 }]
  lineStates := #[⟨⟨.float, 0⟩, ⟨0, 2⟩⟩]
  lineClips := #[0, 0]
  lineThresholds := #[.ofValue 0, .ofValue 1]
  lineSpeeds := #[1, 1]
  clips := #[⟨1, 0⟩]
  maxClipsPerState := slots

theorem run_ok_twoClips : (twoClips 2).defect? = none ∧ ∃ x,
    Session.start (twoClips 2) {} = .ok x ∧ ∃ r, x.run (twoClips 2) [.advance 1] = .ok r := by
  have hdefect : (twoClips 2).defect? = none := by decide +kernel
  have hslots : ∀ s ∈ (twoClips 2).states, ∀ n, (twoClips 2).clipCount s = .ok n →
      n ≤ max (twoClips 2).maxClipsPerState.toNat 1 := by
    intro s hs n hn
    obtain rfl : s = (twoClips 2).states[0] := by simpa [twoClips] using hs
    obtain rfl : 2 = n := Except.ok.inj hn
    decide
  obtain ⟨x, hx, hrun⟩ := (run_ok_of_no_defect hdefect hslots {}).2 ⟨by decide, by decide⟩
  exact ⟨hdefect, x, hx, hrun _⟩

theorem run_twoClips_eq_error : (twoClips 0).defect? = none ∧ ∃ x,
    Session.start (twoClips 0) {} = .ok x ∧
      x.run (twoClips 0) [.advance 1] = .error .outOfBounds := by
  refine ⟨by decide +kernel, _, rfl, ?_⟩
  with_unfolding_all rfl

end Baked

end PoseMachine
