/-
  Which long names are adopted (aegir-fs-fat, `fat.cc`).
-/
import Aegir.Fat.LongRuns

namespace Aegir.Fat

open Aegir.Lib Aegir.Lib.Buf Aegir.Lib.Unicode

variable {units : List ℕ} {checksum : UInt8} {fragments p i : ℕ} {run : Lfn} {slot : Buf}

def Marked (slot : Buf) : Prop := (slot 0).toNat / 2 ^ 6 % 2 = 1
def number (slot : Buf) : ℕ := (slot 0).toNat % 2 ^ 6

/-- The last of some slots are a run of so many, of which some are still to come: a marked slot with
    the run's number, and unmarked ones that count down from it.  The checksum is the marked one's. -/
inductive Assembling : List Buf → ℕ → ℕ → UInt8 → Prop
  | head {slots : List Buf} {slot : Buf} (hmark : Marked slot) (hlow : number slot ≠ 0)
      (hhigh : number slot ≤ kLfnSlotsMax) : Assembling (slots ++ [slot]) (number slot) (number slot - 1) (slot 13)
  | next {slots : List Buf} {slot : Buf} {n left : ℕ} {checksum : UInt8} (h : Assembling slots n (left + 1) checksum)
      (hmark : ¬ Marked slot) (hnumber : number slot = left + 1) : Assembling (slots ++ [slot]) n left checksum

theorem Assembling.bounds {slots : List Buf} {n left : ℕ} (h : Assembling slots n left checksum) :
    left < n ∧ n ≤ kLfnSlotsMax := by
  induction h with
  | head _ hlow hhigh => exact ⟨by omega, hhigh⟩
  | next _ _ _ ih => exact ⟨by omega, ih.2⟩

/-- A run under assembly is what the last slots are. -/
def Agrees (run : Lfn) (slots : List Buf) : Prop :=
  ∀ n left checksum, Assembling slots n left checksum ↔
    run.active = true ∧ run.count = n * 13 ∧ run.expected = left ∧ run.checksum = checksum

theorem lfnFeed_agrees {slots : List Buf} {sector index : ℕ} (h : Agrees run slots) :
    Agrees (lfnFeed run sector index slot) (slots ++ [slot]) := by
  -- the last slot of a run is a marked one or the next of a run before
  have hcases : ∀ n left checksum, Assembling (slots ++ [slot]) n left checksum ↔
      (Marked slot ∧ number slot ≠ 0 ∧ number slot ≤ kLfnSlotsMax ∧ n = number slot ∧ left = number slot - 1 ∧
        checksum = slot 13) ∨
      (Assembling slots n (left + 1) checksum ∧ ¬ Marked slot ∧ number slot = left + 1) := by
    intro n left checksum
    constructor
    · intro hrun
      generalize hall : slots ++ [slot] = all at hrun
      cases hrun with
      | head hmark hlow hhigh =>
        obtain ⟨-, hslot⟩ := List.append_inj' hall rfl
        cases hslot
        exact .inl ⟨hmark, hlow, hhigh, rfl, rfl, rfl⟩
      | next hrun hmark hnumber =>
        obtain ⟨hslots, hslot⟩ := List.append_inj' hall rfl
        cases hslot
        subst hslots
        exact .inr ⟨hrun, hmark, hnumber⟩
    · rintro (⟨hmark, hlow, hhigh, rfl, rfl, rfl⟩ | ⟨hrun, hmark, hnumber⟩)
      · exact .head hmark hlow hhigh
      · exact .next hrun hmark hnumber
  intro n left checksum
  rw [hcases, h]
  unfold lfnFeed
  dsimp only
  rw [← number]
  unfold Marked
  split
  · next hnone =>
    constructor
    · rintro (⟨-, hlow, hhigh, -⟩ | ⟨⟨hactive, hcount, hleft, hcheck⟩, -, hnumber⟩)
      · omega
      · have hbounds := ((h n (left + 1) checksum).2 ⟨hactive, hcount, hleft, hcheck⟩).bounds
        omega
    · rintro ⟨hactive, -⟩
      cases hactive
  · next hsome =>
    rw [not_or] at hsome
    split
    · next hmark =>
      dsimp only
      constructor
      · rintro (⟨-, -, -, rfl, rfl, rfl⟩ | ⟨-, hunmarked, -⟩)
        · exact ⟨rfl, rfl, rfl, rfl⟩
        · exact absurd hmark hunmarked
      · rintro ⟨-, hcount, hleft, hcheck⟩
        exact .inl ⟨hmark, hsome.1, by omega, by omega, hleft.symm, hcheck.symm⟩
    · next hmark =>
      split
      · next hother =>
        constructor
        · rintro (⟨hmarked, -⟩ | ⟨⟨hactive, -, hleft, -⟩, -, hnumber⟩)
          · exact absurd hmarked hmark
          · rcases hother with hidle | hne
            · rw [hactive] at hidle
              cases hidle
            · omega
        · rintro ⟨hactive, -⟩
          cases hactive
      · next hfit =>
        rw [not_or, Bool.not_eq_false, not_not] at hfit
        dsimp only
        constructor
        · rintro (⟨hmarked, -⟩ | ⟨⟨hactive, hcount, hleft, hcheck⟩, -, hnumber⟩)
          · exact absurd hmarked hmark
          · exact ⟨hactive, hcount, by omega, hcheck⟩
        · rintro ⟨hactive, hcount, hleft, hcheck⟩
          exact .inr ⟨⟨hactive, hcount, by omega, hcheck⟩, hmark, by omega⟩

theorem lfnFeedAll_agrees (hidle : run.active = false) (slots : List (ℕ × ℕ × Buf)) :
    Agrees (lfnFeedAll run slots) (slots.map fun x => x.2.2) := by
  induction slots using List.reverseRecOn with
  | nil =>
    intro n left checksum
    constructor
    · intro hrun
      generalize hall : ([] : List (ℕ × ℕ × Buf)).map (fun x => x.2.2) = all at hrun
      cases hrun with
      | head => simp at hall
      | next => simp at hall
    · rintro ⟨hactive, -⟩
      rw [show lfnFeedAll run [] = run from rfl, hidle] at hactive
      cases hactive
  | append_singleton slots x ih =>
    rw [lfnFeedAll_append, List.map_append]
    exact lfnFeed_agrees ih

theorem lfnMatches_iff_fields (run : Lfn) (shortName : List UInt8) : lfnMatches run shortName = true ↔
    run.active = true ∧ run.expected = 0 ∧ run.count ≠ 0 ∧ nameChecksum shortName = run.checksum := by
  unfold lfnMatches
  simp only [Bool.and_eq_true, beq_iff_eq, bne_iff_ne, ne_eq, and_assoc]

theorem lfnFeed_count {sector index : ℕ} (h : run.active = true → 13 ∣ run.count) :
    (lfnFeed run sector index slot).active = true → 13 ∣ (lfnFeed run sector index slot).count := by
  unfold lfnFeed lfnReset
  dsimp only
  split_ifs
  · exact False.elim
  · exact fun _ => Nat.dvd_mul_left _ _
  · exact False.elim
  · exact h

theorem lfnFeedAll_count (hidle : run.active = false) (slots : List (ℕ × ℕ × Buf)) :
    (lfnFeedAll run slots).active = true → 13 ∣ (lfnFeedAll run slots).count := by
  induction slots using List.reverseRecOn with
  | nil =>
    intro hactive
    rw [show lfnFeedAll run [] = run from rfl, hidle] at hactive
    cases hactive
  | append_singleton slots x ih =>
    rw [lfnFeedAll_append]
    exact lfnFeed_count ih

/-- A run is this name's where the last slots are one and the marked slot has the name's checksum. -/
theorem lfnMatches_iff (hidle : run.active = false) (slots : List (ℕ × ℕ × Buf)) (shortName : List UInt8) :
    lfnMatches (lfnFeedAll run slots) shortName = true ↔
      ∃ n, Assembling (slots.map fun x => x.2.2) n 0 (nameChecksum shortName) := by
  have hagrees := lfnFeedAll_agrees hidle slots
  rw [lfnMatches_iff_fields]
  constructor
  · rintro ⟨hactive, hexpected, hcount, hcheck⟩
    obtain ⟨n, hn⟩ := lfnFeedAll_count hidle slots hactive
    exact ⟨n, (hagrees n 0 _).2 ⟨hactive, by omega, hexpected, hcheck.symm⟩⟩
  · rintro ⟨n, hrun⟩
    obtain ⟨hactive, hcount, hexpected, hcheck⟩ := (hagrees n 0 _).1 hrun
    have hbounds := hrun.bounds
    exact ⟨hactive, hexpected, by omega, hcheck.symm⟩

/-! ## Bounds -/

theorem lfnDecode_length (run : Lfn) : (lfnDecode run).length ≤ kLongNameBytes := by
  unfold lfnDecode kLongNameBytes
  have hunits := decodeUnits_length ((List.range (min run.count kLongNameUnits)).map run.units)
  rw [List.length_map, List.length_range] at hunits
  omega

theorem lfnBuild_length (checksum : UInt8) (h : units.length ≤ kLongNameUnits) :
    (lfnBuild units checksum).length ≤ kLfnSlotsMax := by
  unfold lfnBuild kLfnSlotsMax
  rw [List.length_map, List.length_range]
  omega

theorem lfnSlot_outside (units : List ℕ) (checksum : UInt8) (fragments p : ℕ) {j : ℕ} (hj : 32 ≤ j) :
    lfnSlot units checksum fragments p j = 0 := by
  unfold lfnSlot kDirentAttr
  rw [(putAll_apply _ _ (Nat.le_refl 13)).2 j (by omega), put_of_notMem (by omega), put_of_notMem (by omega),
    put_of_notMem (by omega)]
  rfl

theorem lfnFeed_outside (run : Lfn) (sector index : ℕ) (slot : Buf) :
    (∀ i, kLongNameUnits ≤ i → (lfnFeed run sector index slot).units i = run.units i) ∧
    ∀ i, kLfnSlotsMax ≤ i → (lfnFeed run sector index slot).fragments i = run.fragments i ∧
      (lfnFeed run sector index slot).fragmentIndex i = run.fragmentIndex i := by
  have hunits : ∀ base i, kLongNameUnits ≤ i → putUnits run.units slot base i = run.units i := by
    intro base i hi
    rw [putUnits_apply, if_neg (by omega)]
  unfold lfnFeed lfnReset
  dsimp only
  split_ifs with hnone
  · exact ⟨fun _ _ => rfl, fun _ _ => ⟨rfl, rfl⟩⟩
  · refine ⟨hunits _, fun i hi => ?_⟩
    exact ⟨Function.update_of_ne (by omega) _ _, Function.update_of_ne (by omega) _ _⟩
  · exact ⟨fun _ _ => rfl, fun _ _ => ⟨rfl, rfl⟩⟩
  · refine ⟨hunits _, fun i hi => ?_⟩
    exact ⟨Function.update_of_ne (by omega) _ _, Function.update_of_ne (by omega) _ _⟩

/-! ## Long names -/

/-- An accepted name's slots are assembled to a run with its checksum, which decodes to the name's
    bytes if these are UTF-8 of which no unit is a pad. -/
theorem built_round_trip {name : List UInt8} (h : nameUnits name kLongNameUnits = (units, true)) (checksum : UInt8)
    (places : ℕ → ℕ × ℕ) (run : Lfn) :
    (lfnDecode (lfnFeedAll run (placed places (lfnBuild units checksum))) = name ↔ WellFormed name) ∧
    ∀ shortName, lfnMatches (lfnFeedAll run (placed places (lfnBuild units checksum))) shortName = true ↔
      nameChecksum shortName = checksum := by
  have hmost : units.length ≤ kLongNameUnits := by
    have hlength := nameUnits_length name kLongNameUnits
    rwa [h] at hlength
  have hne : units.length ≠ 0 := by
    obtain ⟨-, -, -, -, hne⟩ := nameUnits_taken h
    exact fun hlen => hne (List.eq_nil_of_length_eq_zero hlen)
  have hfew : (units.length + 12) / 13 ≤ kLfnSlotsMax := by
    unfold kLfnSlotsMax
    omega
  have hfed : Fed units checksum ((units.length + 12) / 13) ((units.length + 12) / 13)
      (lfnFeedAll run (placed places (lfnBuild units checksum))) :=
    lfnFeedAll_build (nameUnits_lt h) hfew (Nat.le_refl _) (by omega)
  constructor
  · rw [lfnDecode_fed hfed (by omega) hmost]
    exact decode_nameUnits_iff h
  · intro shortName
    rw [lfnMatches_iff_fields, hfed.active, hfed.expected, hfed.count, hfed.checksum]
    constructor
    · exact fun hall => hall.2.2.2
    · exact fun hcheck => ⟨rfl, Nat.sub_self _, by omega, hcheck⟩

/-- Long names: what comes back of a name, what is adopted, and where is written. -/
theorem long_names (run : Lfn) :
    (∀ (name : List UInt8) (units : List ℕ), nameUnits name kLongNameUnits = (units, true) →
      ∀ (checksum : UInt8) (places : ℕ → ℕ × ℕ),
        (lfnDecode (lfnFeedAll run (placed places (lfnBuild units checksum))) = name ↔ WellFormed name) ∧
        ∀ shortName, lfnMatches (lfnFeedAll run (placed places (lfnBuild units checksum))) shortName = true ↔
          nameChecksum shortName = checksum) ∧
    (∀ slots : List (ℕ × ℕ × Buf), run.active = false → ∀ shortName,
      lfnMatches (lfnFeedAll run slots) shortName = true ↔
        ∃ n, Assembling (slots.map fun x => x.2.2) n 0 (nameChecksum shortName)) ∧
    (∀ (name : List UInt8) (unitsMax : ℕ), (nameUnits name unitsMax).1.length ≤ unitsMax) ∧
    (∀ (units : List ℕ) (checksum : UInt8), units.length ≤ kLongNameUnits →
      (lfnBuild units checksum).length ≤ kLfnSlotsMax ∧ ∀ slot ∈ lfnBuild units checksum, ∀ j, 32 ≤ j → slot j = 0) ∧
    (∀ (sector index : ℕ) (slot : Buf),
      (∀ i, kLongNameUnits ≤ i → (lfnFeed run sector index slot).units i = run.units i) ∧
      ∀ i, kLfnSlotsMax ≤ i → (lfnFeed run sector index slot).fragments i = run.fragments i ∧
        (lfnFeed run sector index slot).fragmentIndex i = run.fragmentIndex i) ∧
    (lfnDecode run).length ≤ kLongNameBytes := by
  refine ⟨fun _ _ h checksum places => built_round_trip h checksum places run, fun slots hidle => lfnMatches_iff hidle slots,
    nameUnits_length, fun units checksum hle => ⟨lfnBuild_length checksum hle, fun slot hslot j hj => ?_⟩, lfnFeed_outside run,
    lfnDecode_length run⟩
  obtain ⟨p, -, rfl⟩ := List.mem_map.1 hslot
  exact lfnSlot_outside units checksum _ p hj

def idle : Lfn := ⟨fun _ => 0, fun _ => 0, fun _ => 0, 0, 0, 0, false⟩

/-- A name of one letter comes back. -/
theorem letter_round_trip : WellFormed [0x61] ∧
    lfnDecode (lfnFeedAll idle (placed (fun _ => (0, 0)) (lfnBuild [0x61] 7))) = [0x61] := by
  have hwell : WellFormed [0x61] := ⟨[0x61], by decide, by decide⟩
  exact ⟨hwell, ((long_names idle).1 [0x61] [0x61] (by decide) 7 fun _ => (0, 0)).1.2 hwell⟩

def letters : List ℕ := List.replicate 14 0x61
def short : List UInt8 := List.replicate 11 0x41

/-- A name whose last character is the pad comes back without it; and a run is adopted though its
    second slot has another checksum than it was built with. -/
theorem pads_and_checksums :
    (nameUnits [0x61, 0xef, 0xbf, 0xbf] kLongNameUnits = ([0x61, 0xffff], true) ∧
      lfnDecode (lfnFeedAll idle (placed (fun _ => (0, 0)) (lfnBuild [0x61, 0xffff] 7))) = [0x61]) ∧
    lfnBuild letters (nameChecksum short) =
      [lfnSlot letters (nameChecksum short) 2 0, lfnSlot letters (nameChecksum short) 2 1] ∧
    lfnSlot letters 1 2 1 13 ≠ lfnSlot letters (nameChecksum short) 2 1 13 ∧
    lfnMatches (lfnFeedAll idle [(0, 0, lfnSlot letters (nameChecksum short) 2 0), (0, 1, lfnSlot letters 1 2 1)]) short =
      true := by
  refine ⟨⟨by decide, by decide⟩, rfl, by decide, by decide⟩

end Aegir.Fat
