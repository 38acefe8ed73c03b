/-
  Long names: their units and the runs of slots that carry them (aegir-fs-fat, `fat.cc`).
-/
import Aegir.Lib.Unicode
import Aegir.Fat.Serve

namespace Aegir.Fat

open Aegir.Lib Aegir.Lib.Buf Aegir.Lib.Unicode

def kLongNameUnits : ℕ := 255
def kLongNameBytes : ℕ := 3 * kLongNameUnits
def kLfnSlotsMax : ℕ := (kLongNameUnits + 12) / 13

/-! ## Names and units -/

/-- The continuation bytes of a code point, of which `n` are left. -/
def pointFrom (point : ℕ) : ℕ → List UInt8 → Option (ℕ × List UInt8)
  | 0, name => some (point, name)
  | _ + 1, [] => none
  | n + 1, cont :: name =>
    if cont.toNat / 2 ^ 6 ≠ 2 then none else pointFrom (point * 2 ^ 6 + cont.toNat % 2 ^ 6) n name

def nextPoint : List UInt8 → Option (ℕ × List UInt8)
  | [] => none
  | lead :: name =>
    if lead.toNat < 0x80 then some (lead.toNat, name)
    else if lead.toNat / 2 ^ 5 = 6 then pointFrom (lead.toNat % 2 ^ 5) 1 name
    else if lead.toNat / 2 ^ 4 = 14 then pointFrom (lead.toNat % 2 ^ 4) 2 name
    else if lead.toNat / 2 ^ 3 = 30 then pointFrom (lead.toNat % 2 ^ 3) 3 name
    else none

/-- A control character, or one of `"*/:<>?\|`. -/
def Refused (point : ℕ) : Prop :=
  point < 0x20 ∨ point = 0x7f ∨ point ∈ [0x22, 0x2a, 0x2f, 0x3a, 0x3c, 0x3e, 0x3f, 0x5c, 0x7c]

instance : DecidablePred Refused := fun point => inferInstanceAs (Decidable (point < 0x20 ∨ point = 0x7f ∨ point ∈ _))

def unitsOf (point : ℕ) : List ℕ :=
  if 0x10000 ≤ point then
    [(0xd800 + (point - 0x10000) / 2 ^ 10) % 2 ^ 16, (0xdc00 + (point - 0x10000) % 2 ^ 10) % 2 ^ 16]
  else [point]

/-- The loop of `name_units`: the units written, and whether the name may be one.  A turn takes a
    byte at least. -/
def unitsFrom (unitsMax : ℕ) : ℕ → List UInt8 → List ℕ → List ℕ × Bool
  | 0, _, units => (units, true)
  | n + 1, name, units =>
    if name = [] then (units, true)
    else
      match nextPoint name with
      | none => (units, false)
      | some (point, name) =>
        if Refused point then (units, false)
        else if unitsMax < units.length + (unitsOf point).length then (units, false)
        else unitsFrom unitsMax n name (units ++ unitsOf point)

def nameUnits (name : List UInt8) (unitsMax : ℕ) : List ℕ × Bool :=
  if name.length = 0 ∨ name.head? = some 0x20 ∨ name.getLast? = some 0x20 ∨ name.getLast? = some 0x2e then ([], false)
  else
    let (units, taken) := unitsFrom unitsMax name.length name []
    (units, taken && units.length != 0)

/-- The bytes that `lfn_decode` makes of a run's units. -/
def decodeUnits : List ℕ → List UInt8
  | [] => []
  | unit :: units =>
    if unit = 0x0000 then []
    else if unit = 0xffff then decodeUnits units
    else if unit < 0x80 then .ofNat unit :: decodeUnits units
    else if unit < 0x800 then .ofNat (0xc0 + unit / 2 ^ 6) :: .ofNat (0x80 + unit % 2 ^ 6) :: decodeUnits units
    else if 0xd800 ≤ unit ∧ unit < 0xdc00 then
      match units with
      | [] => [0x3f]
      | low :: rest =>
        if 0xdc00 ≤ low ∧ low < 0xe000 then
          let point := 0x10000 + (unit - 0xd800) * 2 ^ 10 + (low - 0xdc00)
          .ofNat (0xf0 + point / 2 ^ 18) :: .ofNat (0x80 + point / 2 ^ 12 % 2 ^ 6) ::
            .ofNat (0x80 + point / 2 ^ 6 % 2 ^ 6) :: .ofNat (0x80 + point % 2 ^ 6) :: decodeUnits rest
        else 0x3f :: decodeUnits (low :: rest)
    else if 0xdc00 ≤ unit ∧ unit < 0xe000 then 0x3f :: decodeUnits units
    else .ofNat (0xe0 + unit / 2 ^ 12) :: .ofNat (0x80 + unit / 2 ^ 6 % 2 ^ 6) :: .ofNat (0x80 + unit % 2 ^ 6) ::
      decodeUnits units

/-! ## Code points -/

variable {p n unitsMax : ℕ} {name rest : List UInt8} {ps units : List ℕ}

/-- A name is UTF-8, and has no unit that stands for none. -/
def WellFormed (name : List UInt8) : Prop := ∃ ps : List ℕ, (∀ p ∈ ps, Scalar p ∧ p ≠ 0xffff) ∧ name = ps.flatMap utf8

theorem nextPoint_utf8 (h : p < 0x110000) (rest : List UInt8) : nextPoint (utf8 p ++ rest) = some (p, rest) := by
  unfold utf8
  split_ifs with h₁ h₂ h₃
  · rw [List.singleton_append, nextPoint, toNat_ofNat_of_lt (by omega), if_pos h₁]
  · have hlead : (UInt8.ofNat (0xc0 + p / 2 ^ 6)).toNat = 0xc0 + p / 2 ^ 6 := toNat_ofNat_of_lt (by omega)
    have hcont := toNat_continuation p
    simp only [List.cons_append, List.nil_append, nextPoint, pointFrom, hlead, hcont]
    rw [if_neg (by omega), if_pos (by omega), if_neg (by omega)]
    refine congrArg some (Prod.ext_iff.2 ⟨?_, rfl⟩)
    dsimp only
    omega
  · have hlead : (UInt8.ofNat (0xe0 + p / 2 ^ 12)).toNat = 0xe0 + p / 2 ^ 12 := toNat_ofNat_of_lt (by omega)
    have hmid := toNat_continuation (p / 2 ^ 6)
    have hcont := toNat_continuation p
    simp only [List.cons_append, List.nil_append, nextPoint, pointFrom, hlead, hmid, hcont]
    rw [if_neg (by omega), if_neg (by omega), if_pos (by omega), if_neg (by omega), if_neg (by omega)]
    refine congrArg some (Prod.ext_iff.2 ⟨?_, rfl⟩)
    dsimp only
    omega
  · have hlead : (UInt8.ofNat (0xf0 + p / 2 ^ 18)).toNat = 0xf0 + p / 2 ^ 18 := toNat_ofNat_of_lt (by omega)
    have hhigh := toNat_continuation (p / 2 ^ 12)
    have hmid := toNat_continuation (p / 2 ^ 6)
    have hcont := toNat_continuation p
    simp only [List.cons_append, List.nil_append, nextPoint, pointFrom, hlead, hhigh, hmid, hcont]
    rw [if_neg (by omega), if_neg (by omega), if_neg (by omega), if_pos (by omega), if_neg (by omega),
      if_neg (by omega), if_neg (by omega)]
    refine congrArg some (Prod.ext_iff.2 ⟨?_, rfl⟩)
    dsimp only
    omega

theorem unitsOf_eq (h : p < 0x110000) : unitsOf p = utf16 p := by
  unfold unitsOf utf16
  split_ifs
  · omega
  · rw [Nat.mod_eq_of_lt (by omega), Nat.mod_eq_of_lt (by omega)]
  · rfl
  · omega

theorem decodeUnits_utf16 (h : Scalar p) (hzero : p ≠ 0) (hpad : p ≠ 0xffff) (units : List ℕ) :
    decodeUnits (utf16 p ++ units) = utf8 p ++ decodeUnits units := by
  unfold Scalar at h
  unfold utf16 utf8
  by_cases hbmp : p < 0x10000
  · rw [if_pos hbmp, List.singleton_append, decodeUnits.eq_def]
    dsimp only
    rw [if_neg hzero, if_neg hpad]
    split_ifs
    all_goals first | rfl | omega
  · rw [if_neg hbmp, if_neg (by omega), if_neg (by omega), if_neg hbmp]
    have hpoint : 0x10000 + (0xd800 + (p - 0x10000) / 2 ^ 10 - 0xd800) * 2 ^ 10 +
        (0xdc00 + (p - 0x10000) % 2 ^ 10 - 0xdc00) = p := by omega
    rw [List.cons_append, List.singleton_append, decodeUnits]
    rw [if_neg (by omega), if_neg (by omega), if_neg (by omega), if_neg (by omega), if_pos (by omega)]
    dsimp only
    rw [if_pos (by omega), hpoint]
    rfl

theorem decodeUnits_wellFormed (hunits : ∀ unit ∈ units, unit < 2 ^ 16) : WellFormed (decodeUnits units) := by
  have hcons : ∀ {q : ℕ} {bytes : List UInt8}, Scalar q → q ≠ 0xffff → WellFormed bytes →
      WellFormed (utf8 q ++ bytes) := by
    rintro q bytes hq hne ⟨ps, hps, rfl⟩
    exact ⟨q :: ps, List.forall_mem_cons.2 ⟨⟨hq, hne⟩, hps⟩, rfl⟩
  have hlone : ∀ {bytes : List UInt8}, WellFormed bytes → WellFormed (0x3f :: bytes) :=
    fun h => hcons (.inl (by decide) : Scalar 0x3f) (by decide) h
  have hempty : WellFormed [] := ⟨[], fun _ h => absurd h List.not_mem_nil, rfl⟩
  fun_induction decodeUnits units with
  | case1 => exact hempty
  | case2 => exact hempty
  | case3 units _ ih => exact ih fun u hu => hunits u (List.mem_cons_of_mem _ hu)
  | case4 unit units h₁ h₂ h₃ ih =>
    have hrest := ih fun u hu => hunits u (List.mem_cons_of_mem _ hu)
    have heq : utf8 unit = [.ofNat unit] := if_pos h₃
    have hwell := hcons (.inl (by omega) : Scalar unit) h₂ hrest
    rwa [heq] at hwell
  | case5 unit units h₁ h₂ h₃ h₄ ih =>
    have hrest := ih fun u hu => hunits u (List.mem_cons_of_mem _ hu)
    have heq : utf8 unit = [.ofNat (0xc0 + unit / 2 ^ 6), .ofNat (0x80 + unit % 2 ^ 6)] := by
      rw [utf8, if_neg h₃, if_pos h₄]
    have hwell := hcons (.inl (by omega) : Scalar unit) h₂ hrest
    rwa [heq] at hwell
  | case6 => exact hlone hempty
  | case7 high h₁ h₂ h₃ h₄ hhigh low rest hlow point ih =>
    have hrest := ih fun u hu => hunits u (List.mem_cons_of_mem _ (List.mem_cons_of_mem _ hu))
    have heq : utf8 point = [.ofNat (0xf0 + point / 2 ^ 18), .ofNat (0x80 + point / 2 ^ 12 % 2 ^ 6),
        .ofNat (0x80 + point / 2 ^ 6 % 2 ^ 6), .ofNat (0x80 + point % 2 ^ 6)] := by
      rw [utf8, if_neg (by omega), if_neg (by omega), if_neg (by omega)]
    have hwell := hcons (.inr (by omega) : Scalar point) (by omega) hrest
    rwa [heq] at hwell
  | case8 high h₁ h₂ h₃ h₄ hhigh low rest hlow ih =>
    exact hlone (ih fun u hu => hunits u (List.mem_cons_of_mem _ hu))
  | case9 unit units h₁ h₂ h₃ h₄ hhigh hlow ih => exact hlone (ih fun u hu => hunits u (List.mem_cons_of_mem _ hu))
  | case10 unit units h₁ h₂ h₃ h₄ hhigh hlow ih =>
    have hrest := ih fun u hu => hunits u (List.mem_cons_of_mem _ hu)
    have hunit := hunits unit List.mem_cons_self
    have heq : utf8 unit = [.ofNat (0xe0 + unit / 2 ^ 12), .ofNat (0x80 + unit / 2 ^ 6 % 2 ^ 6),
        .ofNat (0x80 + unit % 2 ^ 6)] := by
      rw [utf8, if_neg h₃, if_neg h₄, if_pos (by omega)]
    have hscalar : Scalar unit := by
      unfold Scalar
      omega
    have hwell := hcons hscalar h₂ hrest
    rwa [heq] at hwell

/-! ## Names -/

/-- The code points of a name, as they are read. -/
inductive Parses : List UInt8 → List ℕ → Prop
  | nil : Parses [] []
  | cons {name rest : List UInt8} {p : ℕ} {ps : List ℕ} (h : nextPoint name = some (p, rest)) (hrest : Parses rest ps) :
      Parses name (p :: ps)

theorem Parses.unique (h : Parses name ps) {ps' : List ℕ} (h' : Parses name ps') : ps = ps' := by
  induction h generalizing ps' with
  | nil =>
    cases h' with
    | nil => rfl
    | cons hnext _ => cases hnext
  | cons hnext _ ih =>
    cases h' with
    | nil => cases hnext
    | cons hnext' hrest' =>
      rw [hnext] at hnext'
      cases hnext'
      rw [ih hrest']

theorem Parses.of_utf8 (hps : ∀ p ∈ ps, p < 0x110000) : Parses (ps.flatMap utf8) ps := by
  induction ps with
  | nil => exact .nil
  | cons p ps ih =>
    rw [List.flatMap_cons]
    exact .cons (nextPoint_utf8 (hps p List.mem_cons_self) _) (ih fun q hq => hps q (List.mem_cons_of_mem _ hq))

theorem pointFrom_length {point k : ℕ} (h : pointFrom point k name = some (p, rest)) : rest.length ≤ name.length := by
  induction k generalizing point name with
  | zero =>
    cases h
    exact Nat.le_refl _
  | succ k ih =>
    cases name with
    | nil => cases h
    | cons cont name =>
      unfold pointFrom at h
      split at h
      · cases h
      · exact Nat.le_trans (ih h) (Nat.le_succ _)

theorem nextPoint_length (h : nextPoint name = some (p, rest)) : rest.length < name.length := by
  cases name with
  | nil => cases h
  | cons lead name =>
    refine Nat.lt_succ_of_le ?_
    unfold nextPoint at h
    dsimp only at h
    split_ifs at h
    · cases h
      exact Nat.le_refl _
    · exact pointFrom_length h
    · exact pointFrom_length h
    · exact pointFrom_length h

theorem unitsFrom_taken {turns : ℕ} {out : List ℕ} (hturns : name.length ≤ turns)
    (h : unitsFrom unitsMax turns name units = (out, true)) :
    ∃ ps, Parses name ps ∧ (∀ p ∈ ps, ¬ Refused p) ∧ out = units ++ ps.flatMap unitsOf := by
  induction turns generalizing name units with
  | zero =>
    cases h
    rw [List.eq_nil_of_length_eq_zero (Nat.le_zero.1 hturns)]
    exact ⟨[], .nil, fun _ hp => absurd hp List.not_mem_nil, (List.append_nil _).symm⟩
  | succ turns ih =>
    unfold unitsFrom at h
    split at h
    · next hnil =>
      cases h
      rw [hnil]
      exact ⟨[], .nil, fun _ hp => absurd hp List.not_mem_nil, (List.append_nil _).symm⟩
    · split at h
      · cases h
      · next p rest hnext =>
        split_ifs at h with hrefused hfull
        · cases h
        · cases h
        · have hshort := nextPoint_length hnext
          obtain ⟨ps, hparses, hallowed, hout⟩ := ih (by omega) h
          refine ⟨p :: ps, .cons hnext hparses, List.forall_mem_cons.2 ⟨hrefused, hallowed⟩, ?_⟩
          rw [hout, List.flatMap_cons, List.append_assoc]

theorem unitsFrom_length {turns : ℕ} (h : units.length ≤ unitsMax) :
    (unitsFrom unitsMax turns name units).1.length ≤ unitsMax := by
  induction turns generalizing name units with
  | zero => exact h
  | succ turns ih =>
    unfold unitsFrom
    split
    · exact h
    · split
      · exact h
      · next p rest _ =>
        split_ifs with hrefused hfull
        · exact h
        · exact h
        · refine ih ?_
          rw [List.length_append]
          omega

theorem nameUnits_length (name : List UInt8) (unitsMax : ℕ) : (nameUnits name unitsMax).1.length ≤ unitsMax := by
  unfold nameUnits
  split
  · exact Nat.zero_le _
  · exact unitsFrom_length (Nat.zero_le _)

theorem nameUnits_taken (h : nameUnits name unitsMax = (units, true)) :
    ∃ ps, Parses name ps ∧ (∀ p ∈ ps, ¬ Refused p) ∧ units = ps.flatMap unitsOf ∧ units ≠ [] := by
  unfold nameUnits at h
  split at h
  · cases h
  · obtain ⟨hunits, htaken⟩ := Prod.ext_iff.1 h
    rw [Bool.and_eq_true] at htaken
    obtain ⟨ps, hparses, hallowed, hout⟩ := unitsFrom_taken (Nat.le_refl _) (Prod.ext_iff.2 ⟨hunits, htaken.1⟩)
    refine ⟨ps, hparses, hallowed, hout, ?_⟩
    rintro rfl
    rw [hunits] at htaken
    simp at htaken

theorem unitsOf_lt : ∀ unit ∈ unitsOf p, unit < 2 ^ 16 := by
  unfold unitsOf
  split_ifs
  · simp only [List.mem_cons, List.not_mem_nil, or_false, forall_eq_or_imp, forall_eq]
    omega
  · simp only [List.mem_singleton, forall_eq]
    omega

theorem nameUnits_lt (h : nameUnits name unitsMax = (units, true)) : ∀ unit ∈ units, unit < 2 ^ 16 := by
  obtain ⟨ps, -, -, rfl, -⟩ := nameUnits_taken h
  intro unit hunit
  obtain ⟨p, -, hp⟩ := List.mem_flatMap.1 hunit
  exact unitsOf_lt unit hp

theorem decodeUnits_points (hps : ∀ p ∈ ps, Scalar p ∧ p ≠ 0xffff) (hallowed : ∀ p ∈ ps, ¬ Refused p) :
    decodeUnits (ps.flatMap unitsOf) = ps.flatMap utf8 := by
  induction ps with
  | nil => rfl
  | cons p ps ih =>
    obtain ⟨hscalar, hpad⟩ := hps p List.mem_cons_self
    have hzero : p ≠ 0 := by
      rintro rfl
      exact hallowed 0 List.mem_cons_self (.inl (by decide))
    have hlt : p < 0x110000 := by
      unfold Scalar at hscalar
      omega
    rw [List.flatMap_cons, List.flatMap_cons, unitsOf_eq hlt, decodeUnits_utf16 hscalar hzero hpad,
      ih (fun q hq => hps q (List.mem_cons_of_mem _ hq)) fun q hq => hallowed q (List.mem_cons_of_mem _ hq)]

/-- An accepted name's units are decoded to its bytes where it is UTF-8, and only there. -/
theorem decode_nameUnits_iff (h : nameUnits name unitsMax = (units, true)) :
    decodeUnits units = name ↔ WellFormed name := by
  obtain ⟨ps, hparses, hallowed, rfl, -⟩ := nameUnits_taken h
  constructor
  · intro heq
    rw [← heq]
    refine decodeUnits_wellFormed fun unit hunit => ?_
    obtain ⟨p, -, hp⟩ := List.mem_flatMap.1 hunit
    exact unitsOf_lt unit hp
  · rintro ⟨ps', hps', rfl⟩
    have hread : Parses (ps'.flatMap utf8) ps' := by
      refine .of_utf8 fun p hp => ?_
      have hscalar := (hps' p hp).1
      unfold Scalar at hscalar
      omega
    obtain rfl := hparses.unique hread
    exact decodeUnits_points hps' hallowed

theorem decodeUnits_length (units : List ℕ) : (decodeUnits units).length ≤ 3 * units.length := by
  fun_induction decodeUnits units with
  | case1 => exact Nat.zero_le _
  | case2 => exact Nat.zero_le _
  | _ =>
    simp only [List.length_cons, List.length_nil] at *
    omega

end Aegir.Fat
