/-
  Runs of slots that carry a long name (aegir-fs-fat, `fat.cc`).
-/
import Aegir.Fat.LongNames

namespace Aegir.Fat

open Aegir.Lib Aegir.Lib.Buf Aegir.Lib.Unicode

/-! ## The source -/

structure Lfn where
  units : ℕ → ℕ
  /-- Where each fragment is: its sector and the slot in it. -/
  fragments : ℕ → ℕ
  fragmentIndex : ℕ → ℕ
  count : ℕ
  expected : ℕ
  checksum : UInt8
  active : Bool

def lfnReset (run : Lfn) : Lfn := { run with count := 0, expected := 0, checksum := 0, active := false }

def unitOffsets : List ℕ :=
  [(1, 5), (14, 6), (28, 2)].flatMap fun (offset, count) => (List.range count).map fun j => offset + j * 2

/-- The thirteen units of a slot are put from a place on, as far as there is room. -/
def putUnits (units : ℕ → ℕ) (slot : Buf) (base : ℕ) : ℕ → ℕ :=
  (List.range 13).foldl (fun units u =>
    if base + u < kLongNameUnits then Function.update units (base + u) (le 2 slot (unitOffsets.getD u 0)) else units) units

def lfnFeed (run : Lfn) (sector index : ℕ) (slot : Buf) : Lfn :=
  let field := (slot 0).toNat
  let sequence := field % 2 ^ 6
  if sequence = 0 ∨ kLfnSlotsMax < sequence then lfnReset run
  else
    let place (run : Lfn) : Lfn := { run with
      fragments := Function.update run.fragments (sequence - 1) sector
      fragmentIndex := Function.update run.fragmentIndex (sequence - 1) index
      units := putUnits run.units slot ((sequence - 1) * 13) }
    if field / 2 ^ 6 % 2 = 1 then
      place { run with count := sequence * 13, expected := sequence - 1, checksum := slot 13, active := true }
    else if run.active = false ∨ sequence ≠ run.expected then lfnReset run
    else place { run with expected := sequence - 1 }

def nameChecksum (shortName : List UInt8) : UInt8 :=
  shortName.foldl (fun sum c => UInt8.ofNat (sum.toNat % 2 * 2 ^ 7 + sum.toNat / 2 + c.toNat)) 0

def lfnMatches (run : Lfn) (shortName : List UInt8) : Bool :=
  run.active && run.expected == 0 && run.count != 0 && nameChecksum shortName == run.checksum

def lfnDecode (run : Lfn) : List UInt8 := decodeUnits ((List.range (min run.count kLongNameUnits)).map run.units)

/-- A unit of a name's slots: its terminator once, and pads behind it. -/
def unitAt (units : List ℕ) (index : ℕ) : ℕ :=
  if index < units.length then units.getD index 0 else if index = units.length then 0x0000 else 0xffff

/-- A slot that `lfn_build` makes. -/
def lfnSlot (units : List ℕ) (checksum : UInt8) (fragments p : ℕ) : Buf :=
  let sequence := fragments - p
  let head := put 1 (put 1 (put 1 zero 0 (sequence ||| if p = 0 then 0x40 else 0)) kDirentAttr 0x0f) 13 checksum.toNat
  (List.range 13).foldl (fun slot u => put 2 slot (unitOffsets.getD u 0) (unitAt units ((sequence - 1) * 13 + u))) head

def lfnBuild (units : List ℕ) (checksum : UInt8) : List Buf :=
  (List.range ((units.length + 12) / 13)).map (lfnSlot units checksum ((units.length + 12) / 13))

/-- Slots are fed as they are read, each with its place. -/
def lfnFeedAll (run : Lfn) (slots : List (ℕ × ℕ × Buf)) : Lfn :=
  slots.foldl (fun run (sector, index, slot) => lfnFeed run sector index slot) run

/-! ## Slots -/

variable {units : List ℕ} {checksum : UInt8} {fragments p u i : ℕ} {run : Lfn} {slot : Buf}

theorem unitOffsets_apart : ∀ u < 13, (∀ v < u, unitOffsets.getD v 0 + 2 ≤ unitOffsets.getD u 0) ∧
    1 ≤ unitOffsets.getD u 0 ∧ (unitOffsets.getD u 0 + 2 ≤ 11 ∨ 14 ≤ unitOffsets.getD u 0) ∧
    unitOffsets.getD u 0 + 2 ≤ 32 := by
  decide

theorem putUnits_apply (f : ℕ → ℕ) (slot : Buf) (base i : ℕ) : putUnits f slot base i =
    if base ≤ i ∧ i < base + 13 ∧ i < kLongNameUnits then le 2 slot (unitOffsets.getD (i - base) 0) else f i := by
  unfold putUnits
  generalize 13 = n
  induction n with
  | zero =>
    rw [List.range_zero, List.foldl_nil, if_neg (by omega)]
  | succ n ih =>
    rw [List.range_succ, List.foldl_append, List.foldl_cons, List.foldl_nil]
    by_cases hroom : base + n < kLongNameUnits
    · rw [if_pos hroom]
      by_cases hi : i = base + n
      · subst hi
        rw [Function.update_self, if_pos (by omega), Nat.add_sub_cancel_left]
      · rw [Function.update_of_ne hi, ih]
        by_cases hin : base ≤ i ∧ i < base + n ∧ i < kLongNameUnits
        · rw [if_pos hin, if_pos (by omega)]
        · rw [if_neg hin, if_neg (by omega)]
    · rw [if_neg hroom, ih]
      by_cases hin : base ≤ i ∧ i < base + n ∧ i < kLongNameUnits
      · rw [if_pos hin, if_pos (by omega)]
      · rw [if_neg hin, if_neg (by omega)]

theorem putAll_apply (head : Buf) (val : ℕ → ℕ) {n : ℕ} (hn : n ≤ 13) :
    (∀ u < n, le 2 ((List.range n).foldl (fun slot u => put 2 slot (unitOffsets.getD u 0) (val u)) head)
      (unitOffsets.getD u 0) = val u % 2 ^ 16) ∧
    ∀ j, j < 1 ∨ 11 ≤ j ∧ j < 14 ∨ 32 ≤ j →
      (List.range n).foldl (fun slot u => put 2 slot (unitOffsets.getD u 0) (val u)) head j = head j := by
  induction n with
  | zero => exact ⟨fun u hu => absurd hu (Nat.not_lt_zero u), fun _ _ => rfl⟩
  | succ n ih =>
    obtain ⟨hunits, hbeside⟩ := ih (by omega)
    obtain ⟨hbefore, hlow, hfields, hhigh⟩ := unitOffsets_apart n hn
    rw [List.range_succ, List.foldl_append, List.foldl_cons, List.foldl_nil]
    refine ⟨fun u hu => ?_, fun j hj => ?_⟩
    · rcases Nat.eq_or_lt_of_le (Nat.le_of_lt_succ hu) with rfl | hlt
      · exact le_put 2 _ _ _
      · have := hbefore u hlt
        rw [le_put_of_disjoint (by omega)]
        exact hunits u hlt
    · rw [put_of_notMem (by omega)]
      exact hbeside j hj

theorem lfnSlot_field (hp : p < fragments) (hf : fragments ≤ kLfnSlotsMax) :
    (lfnSlot units checksum fragments p 0).toNat = fragments - p + if p = 0 then 64 else 0 := by
  unfold lfnSlot
  rw [(putAll_apply _ _ (Nat.le_refl 13)).2 0 (by omega), put_of_notMem (by omega), put_of_notMem (by decide),
    put_of_mem (by omega) (by omega), Nat.sub_self, Nat.pow_zero, Nat.div_one]
  unfold kLfnSlotsMax kLongNameUnits at hf
  split
  · have hor : (fragments - p) ||| 64 = 64 + (fragments - p) := by
      rw [Nat.or_comm]
      exact (Nat.two_pow_add_eq_or_of_lt (i := 6) (by omega) 1).symm
    rw [hor, toNat_ofNat_of_lt (by omega), Nat.add_comm]
  · rw [Nat.or_zero, toNat_ofNat_of_lt (by omega), Nat.add_zero]

theorem lfnSlot_checksum (units : List ℕ) (checksum : UInt8) (fragments p : ℕ) : lfnSlot units checksum fragments p 13 = checksum := by
  unfold lfnSlot
  rw [(putAll_apply _ _ (Nat.le_refl 13)).2 13 (by omega), put_of_mem (by omega) (by omega), Nat.sub_self, Nat.pow_zero,
    Nat.div_one, UInt8.ofNat_toNat]

theorem lfnSlot_unit (hu : u < 13) : le 2 (lfnSlot units checksum fragments p) (unitOffsets.getD u 0) =
    unitAt units ((fragments - p - 1) * 13 + u) % 2 ^ 16 := by
  unfold lfnSlot
  exact (putAll_apply _ (fun u => unitAt units ((fragments - p - 1) * 13 + u)) (Nat.le_refl 13)).1 u hu

/-! ## The round trip -/

theorem unitAt_lt (hunits : ∀ unit ∈ units, unit < 2 ^ 16) (index : ℕ) : unitAt units index < 2 ^ 16 := by
  unfold unitAt
  split_ifs with h
  · rw [List.getD_eq_getElem?_getD, List.getElem?_eq_getElem h, Option.getD_some]
    exact hunits _ (List.getElem_mem h)
  · decide
  · decide

/-- A run is built of a name's slots as far as they were fed. -/
structure Fed (units : List ℕ) (checksum : UInt8) (fragments k : ℕ) (run : Lfn) : Prop where
  active : run.active = true
  expected : run.expected = fragments - k
  count : run.count = fragments * 13
  checksum : run.checksum = checksum
  units : ∀ i < kLongNameUnits, (fragments - k) * 13 ≤ i → i < fragments * 13 → run.units i = unitAt units i

theorem putUnits_slot {f : ℕ → ℕ} (hunits : ∀ unit ∈ units, unit < 2 ^ 16)
    (hf : ∀ i < kLongNameUnits, (fragments - p) * 13 ≤ i → i < fragments * 13 → f i = unitAt units i)
    (hp : p < fragments) : ∀ i < kLongNameUnits, (fragments - (p + 1)) * 13 ≤ i → i < fragments * 13 →
      putUnits f (lfnSlot units checksum fragments p) ((fragments - p - 1) * 13) i = unitAt units i := by
  intro i hi hlow hhigh
  rw [putUnits_apply]
  by_cases hin : (fragments - p - 1) * 13 ≤ i ∧ i < (fragments - p - 1) * 13 + 13 ∧ i < kLongNameUnits
  · rw [if_pos hin, lfnSlot_unit (by omega), Nat.mod_eq_of_lt (unitAt_lt hunits _)]
    congr 1
    omega
  · rw [if_neg hin]
    exact hf i hi (by omega) hhigh

theorem lfnFeed_slot {sector index : ℕ} (hunits : ∀ unit ∈ units, unit < 2 ^ 16) (hf : fragments ≤ kLfnSlotsMax)
    (hp : p < fragments) (hfed : p ≠ 0 → Fed units checksum fragments p run) :
    Fed units checksum fragments (p + 1) (lfnFeed run sector index (lfnSlot units checksum fragments p)) := by
  have hfield : (lfnSlot units checksum fragments p 0).toNat = _ := lfnSlot_field hp hf
  have hsmall : fragments ≤ 20 := hf
  have hnumber : (fragments - p + if p = 0 then 64 else 0) % 2 ^ 6 = fragments - p := by
    split
    · omega
    · omega
  unfold lfnFeed
  rw [hfield]
  dsimp only
  rw [hnumber]
  rw [if_neg (by unfold kLfnSlotsMax kLongNameUnits; omega)]
  by_cases hfirst : p = 0
  · subst hfirst
    have hmark : (fragments - 0 + if 0 = 0 then 64 else 0) / 2 ^ 6 % 2 = 1 := by
      rw [if_pos rfl]
      omega
    rw [if_pos hmark]
    refine ⟨rfl, ?_, rfl, lfnSlot_checksum units checksum fragments 0, putUnits_slot hunits (fun i _ hlow hhigh => ?_) hp⟩
    · dsimp only
      omega
    · rw [Nat.sub_zero] at hlow
      omega
  · obtain ⟨hactive, hexpected, hcount, hcheck, hunit⟩ := hfed hfirst
    rw [if_neg hfirst, if_neg (by omega), if_neg (by rw [hactive, hexpected]; simp)]
    refine ⟨hactive, ?_, hcount, hcheck, putUnits_slot hunits hunit hp⟩
    dsimp only
    omega

def placed (places : ℕ → ℕ × ℕ) (slots : List Buf) : List (ℕ × ℕ × Buf) :=
  slots.zipIdx.map fun (slot, p) => ((places p).1, (places p).2, slot)

theorem lfnFeedAll_append (run : Lfn) (a b : List (ℕ × ℕ × Buf)) :
    lfnFeedAll run (a ++ b) = lfnFeedAll (lfnFeedAll run a) b := List.foldl_append

theorem lfnFeedAll_build {places : ℕ → ℕ × ℕ} {k : ℕ} (hunits : ∀ unit ∈ units, unit < 2 ^ 16)
    (hf : fragments ≤ kLfnSlotsMax) (hk : k ≤ fragments) (hpos : k ≠ 0) :
    Fed units checksum fragments k
      (lfnFeedAll run (placed places ((List.range k).map (lfnSlot units checksum fragments)))) := by
  induction k with
  | zero => exact absurd rfl hpos
  | succ k ih =>
    have hsplit : placed places ((List.range (k + 1)).map (lfnSlot units checksum fragments)) =
        placed places ((List.range k).map (lfnSlot units checksum fragments)) ++
          [((places k).1, (places k).2, lfnSlot units checksum fragments k)] := by
      unfold placed
      rw [List.range_succ, List.map_append, List.zipIdx_append, List.map_append, List.length_map, List.length_range]
      simp
    rw [hsplit, lfnFeedAll_append]
    exact lfnFeed_slot hunits hf hk fun hne => ih (by omega) hne

theorem decodeUnits_zero (rest : List ℕ) : decodeUnits (0 :: rest) = [] := by
  rw [decodeUnits.eq_def]
  rfl

theorem decodeUnits_stop (units rest : List ℕ) : decodeUnits (units ++ 0 :: rest) = decodeUnits units := by
  fun_induction decodeUnits units with
  | case1 => exact decodeUnits_zero rest
  | case2 => exact decodeUnits_zero _
  | case3 units _ ih =>
    rw [List.cons_append, decodeUnits.eq_def]
    dsimp only
    rw [if_neg (by decide), if_pos rfl, ih]
  | case4 unit units h₁ h₂ h₃ ih =>
    rw [List.cons_append, decodeUnits.eq_def]
    dsimp only
    rw [if_neg h₁, if_neg h₂, if_pos h₃, ih]
  | case5 unit units h₁ h₂ h₃ h₄ ih =>
    rw [List.cons_append, decodeUnits.eq_def]
    dsimp only
    rw [if_neg h₁, if_neg h₂, if_neg h₃, if_pos h₄, ih]
  | case6 high h₁ h₂ h₃ h₄ hhigh =>
    rw [List.cons_append, List.nil_append, decodeUnits.eq_def]
    dsimp only
    rw [if_neg h₁, if_neg h₂, if_neg h₃, if_neg h₄, if_pos hhigh, if_neg (by omega), decodeUnits_zero]
  | case7 high h₁ h₂ h₃ h₄ hhigh low tail hlow point ih =>
    rw [List.cons_append, List.cons_append, decodeUnits.eq_def]
    dsimp only
    rw [if_neg h₁, if_neg h₂, if_neg h₃, if_neg h₄, if_pos hhigh, if_pos hlow, ih]
  | case8 high h₁ h₂ h₃ h₄ hhigh low tail hlow ih =>
    rw [List.cons_append, List.cons_append, decodeUnits.eq_def]
    dsimp only
    rw [if_neg h₁, if_neg h₂, if_neg h₃, if_neg h₄, if_pos hhigh, if_neg hlow, ← List.cons_append, ih]
  | case9 unit units h₁ h₂ h₃ h₄ hhigh hlow ih =>
    rw [List.cons_append, decodeUnits.eq_def]
    dsimp only
    rw [if_neg h₁, if_neg h₂, if_neg h₃, if_neg h₄, if_neg hhigh, if_pos hlow, ih]
  | case10 unit units h₁ h₂ h₃ h₄ hhigh hlow ih =>
    rw [List.cons_append, decodeUnits.eq_def]
    dsimp only
    rw [if_neg h₁, if_neg h₂, if_neg h₃, if_neg h₄, if_neg hhigh, if_neg hlow, ih]

theorem lfnDecode_fed (hfed : Fed units checksum fragments fragments run)
    (hle : units.length ≤ fragments * 13) (hmost : units.length ≤ kLongNameUnits) : lfnDecode run = decodeUnits units := by
  have hrun : (List.range (min run.count kLongNameUnits)).map run.units =
      (List.range (min (fragments * 13) kLongNameUnits)).map (unitAt units) := by
    rw [hfed.count]
    refine List.map_congr_left fun i hi => ?_
    have hlt := List.mem_range.1 hi
    exact hfed.units i (by omega) (by rw [Nat.sub_self]; omega) (by omega)
  have hhead : (List.range units.length).map (unitAt units) = units := by
    refine List.ext_getElem (by simp) fun i h₁ h₂ => ?_
    rw [List.getElem_map, List.getElem_range, unitAt, if_pos h₂, List.getD_eq_getElem?_getD,
      List.getElem?_eq_getElem h₂, Option.getD_some]
  unfold lfnDecode
  rw [hrun]
  obtain ⟨more, hmore⟩ := Nat.exists_eq_add_of_le (Nat.le_min.2 ⟨hle, hmost⟩)
  rw [hmore, List.range_add, List.map_append, hhead]
  cases more with
  | zero => rw [List.range_zero, List.map_nil, List.map_nil, List.append_nil]
  | succ more =>
    rw [List.range_succ_eq_map, List.map_cons, List.map_cons]
    have hzero : unitAt units (units.length + 0) = 0 := by
      rw [unitAt, Nat.add_zero, if_neg (Nat.lt_irrefl _), if_pos rfl]
    rw [hzero, decodeUnits_stop]

end Aegir.Fat
