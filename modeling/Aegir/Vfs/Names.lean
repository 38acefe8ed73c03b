/-
  The names of volumes, and the slots of their capabilities (`main.cc`, `assign_name`,
  `answer_register`, `answer_mount`).
-/
import Aegir.Vfs.Ids

namespace Aegir.Vfs

open Aegir.Fs (isUserBadge)

namespace Tables

/-! ## Suffixes -/

theorem digit_of_mem {n : ℕ} {c : Char} (h : c ∈ Nat.toDigits 10 n) : 48 ≤ c.toNat ∧ c.toNat ≤ 57 := by
  have hd := Nat.isDigit_of_mem_toDigits (by decide) (by decide) h
  simpa [Char.isDigit, UInt32.le_iff_toNat_le] using hd

theorem digits_injective {m n : ℕ} (h : digits m = digits n) : m = n := by
  have back : ∀ k, (digits k).map (fun b => Char.ofNat b.toNat) = Nat.toDigits 10 k := by
    intro k
    rw [digits, List.map_map]
    conv_rhs => rw [← List.map_id (Nat.toDigits 10 k)]
    refine List.map_congr_left fun c hc => ?_
    have := digit_of_mem hc
    simp only [Function.comp_apply, UInt8.toNat_ofNat', id_eq]
    rw [Nat.mod_eq_of_lt (by omega), Char.ofNat_toNat]
  have hc : Nat.toDigits 10 m = Nat.toDigits 10 n := by rw [← back m, ← back n, h]
  rw [← @Nat.ofDigitChars_ten_toDigits m, hc, Nat.ofDigitChars_ten_toDigits]

theorem digits_length_le {m n : ℕ} (h : m ≤ n) : (digits m).length ≤ (digits n).length := by
  have hb : 1 < 10 := by decide
  simp only [digits, List.length_map]
  have hn := (@Nat.length_toDigits_le_iff 10 n _ hb Nat.length_toDigits_pos).1 (Nat.le_refl _)
  exact (Nat.length_toDigits_le_iff hb Nat.length_toDigits_pos).2 (h.trans_lt hn)

theorem map_folded_digits (n : ℕ) : (digits n).map folded = digits n := by
  rw [digits, List.map_map]
  refine List.map_congr_left fun c hc => ?_
  have := digit_of_mem hc
  have hb : (UInt8.ofNat c.toNat).toNat = c.toNat := by
    rw [UInt8.toNat_ofNat', Nat.mod_eq_of_lt (by omega)]
  refine if_neg fun h => ?_
  have := UInt8.le_iff_toNat_le.1 h.1
  rw [hb] at this
  simp at this
  omega

theorem numberedName_injective {row wanted : List UInt8} {m n : ℕ} (hl : row.length = wanted.length)
    (h : numberedName row m = numberedName wanted n) : row = wanted ∧ m = n := by
  obtain ⟨hrow, htail⟩ := List.append_inj h hl
  exact ⟨hrow, digits_injective (List.cons.inj htail).2⟩

theorem sameVolume_numberedName {row : List UInt8} {m n : ℕ}
    (h : sameVolume (numberedName row m) (numberedName row n)) : m = n := by
  simp only [sameVolume, beq_iff_eq, numberedName, List.map_append, List.map_cons, map_folded_digits] at h
  exact digits_injective (List.cons.inj (List.append_cancel_left h)).2

theorem numberedName_length_le (row : List UInt8) {m n : ℕ} (h : m ≤ n) :
    (numberedName row m).length ≤ (numberedName row n).length := by
  have := digits_length_le h
  simp only [numberedName, List.length_append, List.length_cons]
  omega

/-! ## The loop of `assign_name` -/

section
variable {s : Tables} {row wanted name : List UInt8} {r : Option (List UInt8)} {n : ℕ}

theorem tryName_some : s.tryName row n = some (some name) ↔
    name = numberedName row n ∧ name.length ≤ kNameMax ∧ s.findVolume name = none := by
  unfold tryName
  split_ifs with hl hf
  · simp only [Option.some.injEq, reduceCtorEq, false_iff]
    rintro ⟨rfl, hle, -⟩
    omega
  · simp only [Option.some.injEq]
    constructor
    · rintro rfl
      exact ⟨rfl, by omega, Option.isNone_iff_eq_none.1 hf⟩
    · exact fun h => h.1.symm
  · simp only [false_iff]
    rintro ⟨rfl, -, hnone⟩
    exact hf (Option.isNone_iff_eq_none.2 hnone)

theorem tryName_full : s.tryName row n = some none ↔ kNameMax < (numberedName row n).length := by
  unfold tryName
  split_ifs with hl hf <;> simp [hl]

theorem tryName_none : s.tryName row n = none ↔
    (numberedName row n).length ≤ kNameMax ∧ s.findVolume (numberedName row n) ≠ none := by
  unfold tryName
  split_ifs with hl hf
  · simp [hl]
  · simp [Option.isNone_iff_eq_none.1 hf]
  · simpa [Option.isNone_iff_eq_none, Nat.le_of_not_lt hl] using hf

theorem assignFrom_eq_some {turns : ℕ} (hn : n < 2 ^ 32) : s.assignFrom row turns n = some r ↔
    ∃ k < turns, s.tryName row ((n + k) % 2 ^ 32) = some r ∧
      ∀ j < k, s.tryName row ((n + j) % 2 ^ 32) = none := by
  induction turns generalizing n with
  | zero => simp [assignFrom]
  | succ turns ih =>
    have hnext : ∀ k, ((n + 1) % 2 ^ 32 + k) % 2 ^ 32 = (n + (k + 1)) % 2 ^ 32 := by
      intro k
      rw [Nat.mod_add_mod, Nat.add_assoc, Nat.add_comm 1]
    rw [assignFrom, Option.or_eq_some_iff, ih (Nat.mod_lt _ (by decide))]
    simp only [hnext]
    constructor
    · rintro (h | ⟨hnone, k, hk, h, hall⟩)
      · exact ⟨0, Nat.succ_pos _, by rwa [Nat.add_zero, Nat.mod_eq_of_lt hn], fun j hj => absurd hj j.not_lt_zero⟩
      · refine ⟨k + 1, Nat.succ_lt_succ hk, h, fun j hj => ?_⟩
        cases j with
        | zero => rwa [Nat.add_zero, Nat.mod_eq_of_lt hn]
        | succ j => exact hall j (Nat.lt_of_succ_lt_succ hj)
    · rintro ⟨k, hk, h, hall⟩
      cases k with
      | zero =>
        rw [Nat.add_zero, Nat.mod_eq_of_lt hn] at h
        exact Or.inl h
      | succ k =>
        have hnone := hall 0 (Nat.succ_pos _)
        rw [Nat.add_zero, Nat.mod_eq_of_lt hn] at hnone
        exact Or.inr ⟨hnone, k, Nat.lt_of_succ_lt_succ hk, h,
          fun j hj => hall (j + 1) (Nat.succ_lt_succ hj)⟩

theorem assignFrom_first (h₁ : 1 ≤ n) (h₂ : n < 2 ^ 32) (h : s.tryName row n = some r)
    (hall : ∀ m, 1 ≤ m → m < n → s.tryName row m = none) : s.assignFrom row (2 ^ 32) 1 = some r := by
  refine (assignFrom_eq_some (by decide)).2 ⟨n - 1, by omega, ?_, fun j hj => ?_⟩
  · rwa [Nat.add_sub_cancel' h₁, Nat.mod_eq_of_lt h₂]
  · rw [Nat.mod_eq_of_lt (by omega)]
    exact hall (1 + j) (by omega) (by omega)

theorem assignFrom_found (h : s.assignFrom row (2 ^ 32) 1 = some r) :
    ∃ n, s.tryName row n = some r ∧ (n = 0 → s.tryName row 1 = none) ∧ n < 2 ^ 32 ∧
      ∀ m, 1 ≤ m → m < n → s.tryName row m = none := by
  obtain ⟨k, hk, h, hall⟩ := (assignFrom_eq_some (by decide)).1 h
  refine ⟨_, h, fun hz => ?_, Nat.mod_lt _ (by decide), fun m h₁ hm => ?_⟩
  · have : 0 < k := by
      rcases Nat.eq_zero_or_pos k with rfl | hpos
      · cases hz
      · exact hpos
    exact hall 0 this
  · have := hall (m - 1) (by omega)
    rwa [Nat.add_sub_cancel' h₁, Nat.mod_eq_of_lt (by omega)] at this

theorem assignFrom_ends (h₁ : 1 ≤ n) (h₂ : n < 2 ^ 32) (h : s.tryName row n ≠ none) :
    ∃ m r, 1 ≤ m ∧ m ≤ n ∧ s.tryName row m = some r ∧
      (∀ j, 1 ≤ j → j < m → s.tryName row j = none) ∧ s.assignFrom row (2 ^ 32) 1 = some r := by
  have hex : ∃ m, 1 ≤ m ∧ s.tryName row m ≠ none := ⟨n, h₁, h⟩
  obtain ⟨hm, hne⟩ := Nat.find_spec hex
  have hle : Nat.find hex ≤ n := Nat.find_min' hex ⟨h₁, h⟩
  have hall : ∀ j, 1 ≤ j → j < Nat.find hex → s.tryName row j = none := fun j hj hlt => by
    by_contra hj'
    exact Nat.find_min hex hlt ⟨hj, hj'⟩
  obtain ⟨r, hr⟩ := Option.ne_none_iff_exists'.1 hne
  exact ⟨_, r, hm, hle, hr, hall, assignFrom_first hm (by omega) hr hall⟩

/-- While there are fewer volumes than numbers, the loop ends, whatever the row holds. -/
theorem assigns_ends (row : Vector UInt8 kNameMax) (h : s.volumes.length + 1 < 2 ^ 32) :
    ∃ r, s.assigns row wanted = some r := by
  unfold assigns
  split_ifs
  · exact ⟨_, rfl⟩
  generalize row.toList.take wanted.length = row
  -- were every number's name taken, each would be the name of a volume of its own
  by_contra hno
  have hall : ∀ n, 1 ≤ n → n < 2 ^ 32 → s.tryName row n = none := fun n h₁ h₂ => by
    by_contra hn
    obtain ⟨_, r, _, _, _, _, hr⟩ := assignFrom_ends h₁ h₂ hn
    exact hno ⟨r, hr⟩
  have hmaps : ∀ n ∈ Finset.range (s.volumes.length + 1), (numberedName row (n + 1)).map folded ∈
      (s.volumes.map fun v => v.name.map folded).toFinset := by
    intro n hn
    have hlt := Finset.mem_range.1 hn
    have htaken := (tryName_none.1 (hall (n + 1) (Nat.succ_pos _) (by omega))).2
    obtain ⟨v, hv⟩ := Option.ne_none_iff_exists'.1 htaken
    have hsame : v.name.map folded = (numberedName row (n + 1)).map folded := by
      simpa [sameVolume] using List.find?_some hv
    exact List.mem_toFinset.2 (List.mem_map.2 ⟨v, List.mem_of_find?_eq_some hv, hsame⟩)
  have hcard := Finset.card_le_card_of_injOn _ hmaps fun m _ n _ h =>
    Nat.succ.inj (sameVolume_numberedName (by simpa [sameVolume] using h))
  have hle := (s.volumes.map fun v => v.name.map folded).toFinset_card_le
  rw [List.length_map] at hle
  rw [Finset.card_range] at hcard
  omega

/-! ## Names as they are meant to be -/

/-- What `assign_name` is for: the wanted name when no volume has it, and otherwise the wanted
    name with the first suffix that makes a free one. -/
def Derived (s : Tables) (wanted name : List UInt8) : Prop :=
  (s.findVolume wanted = none ∧ name = wanted) ∨
    (s.findVolume wanted ≠ none ∧ s.findVolume name = none ∧ ∃ n, 1 ≤ n ∧ name = numberedName wanted n ∧
      ∀ m, 1 ≤ m → m < n → s.findVolume (numberedName wanted m) ≠ none)

/-- The name is free; or it stands in the row already, and there is room for a suffix that is
    free. -/
def Ready (s : Tables) (row : Vector UInt8 kNameMax) (wanted : List UInt8) : Prop :=
  s.findVolume wanted = none ∨
    (row.toList.take wanted.length = wanted ∧ ∃ n, 1 ≤ n ∧ n < 2 ^ 32 ∧
      (numberedName wanted n).length ≤ kNameMax ∧ s.findVolume (numberedName wanted n) = none)

/-- The name is taken, and what the row holds has no room for a suffix before one is free. -/
def Full (s : Tables) (row : Vector UInt8 kNameMax) (wanted : List UInt8) : Prop :=
  s.findVolume wanted ≠ none ∧ ∃ n, 1 ≤ n ∧ n < 2 ^ 32 ∧
    kNameMax < (numberedName (row.toList.take wanted.length) n).length ∧
    ∀ m, 1 ≤ m → m < n → s.findVolume (numberedName (row.toList.take wanted.length) m) ≠ none

theorem assigns_free (row : Vector UInt8 kNameMax) (h : s.assigns row wanted = some (some name)) :
    s.findVolume name = none := by
  unfold assigns at h
  split_ifs at h with hf
  · cases h
    exact Option.isNone_iff_eq_none.1 hf
  · obtain ⟨n, hn, -⟩ := assignFrom_found h
    exact (tryName_some.1 hn).2.2

theorem assigns_derived {row : Vector UInt8 kNameMax} (hl : wanted.length ≤ kNameMax) :
    (∃ name, s.assigns row wanted = some (some name) ∧ s.Derived wanted name) ↔ s.Ready row wanted := by
  unfold assigns Ready
  by_cases hf : s.findVolume wanted = none
  · simp [hf, Derived]
  rw [if_neg (by simpa using hf)]
  have hrow : (row.toList.take wanted.length).length = wanted.length := by simpa using hl
  generalize row.toList.take wanted.length = row at hrow
  constructor
  · rintro ⟨name, h, hd⟩
    obtain ⟨m, hm, -, hlt, -⟩ := assignFrom_found h
    obtain ⟨hname, hfits, hfree⟩ := tryName_some.1 hm
    obtain ⟨hw, -⟩ | ⟨-, -, n, hn, rfl, -⟩ := hd
    · exact absurd hw hf
    obtain ⟨rfl, rfl⟩ := numberedName_injective hrow hname.symm
    exact Or.inr ⟨rfl, m, hn, hlt, hfits, hfree⟩
  · rintro (hw | ⟨rfl, n, h₁, h₂, hfits, hfree⟩)
    · exact absurd hw hf
    have hends : s.tryName row n ≠ none := fun h => (tryName_none.1 h).2 hfree
    obtain ⟨m, r, hm, hle, hr, hall, hfrom⟩ := assignFrom_ends h₁ h₂ hends
    cases r with
    | none =>
      have := numberedName_length_le row hle
      exact absurd (tryName_full.1 hr) (by omega)
    | some name =>
      obtain ⟨rfl, -, hfree⟩ := tryName_some.1 hr
      exact ⟨_, hfrom, Or.inr ⟨hf, hfree, m, hm, rfl, fun j hj hlt => (tryName_none.1 (hall j hj hlt)).2⟩⟩

theorem assigns_none {row : Vector UInt8 kNameMax} : s.assigns row wanted = some none ↔ s.Full row wanted := by
  unfold assigns Full
  by_cases hf : s.findVolume wanted = none
  · simp [hf]
  rw [if_neg (by simpa using hf)]
  generalize row.toList.take wanted.length = row
  constructor
  · intro h
    obtain ⟨n, hn, hz, hlt, hall⟩ := assignFrom_found h
    have hfull := tryName_full.1 hn
    have hpos : n ≠ 0 := fun hn0 => by
      have := (tryName_none.1 (hz hn0)).1
      have := numberedName_length_le row (m := n) (n := 1) (by omega)
      omega
    exact ⟨hf, n, by omega, hlt, hfull, fun m h₁ hm => (tryName_none.1 (hall m h₁ hm)).2⟩
  · rintro ⟨-, n, h₁, h₂, hfull, htaken⟩
    have hends : s.tryName row n ≠ none := by rw [tryName_full.2 hfull]; simp
    obtain ⟨m, r, hm, hle, hr, -, hfrom⟩ := assignFrom_ends h₁ h₂ hends
    cases r with
    | none => exact hfrom
    | some name =>
      obtain ⟨rfl, hfits, hfree⟩ := tryName_some.1 hr
      rcases hle.lt_or_eq with hlt | rfl
      · exact absurd hfree (htaken m hm hlt)
      · omega

end

/-! ## What the calls do to the volumes -/

def Still (s s' : Tables) : Prop := s'.volumes = s.volumes ∧ s'.nextSlot = s.nextSlot

section
variable {s s' s'' : Tables} {badge : ℕ}

theorem Still.trans (h : Still s s') (h' : Still s' s'') : Still s s'' :=
  ⟨h'.1.trans h.1, h'.2.trans h.2⟩

theorem arenaTake_still {bytes : ℕ} (h : s.arenaTake bytes = some s') : Still s s' := by
  unfold arenaTake at h
  dsimp only at h
  split_ifs at h
  cases h
  exact ⟨rfl, rfl⟩

theorem memberTake_still (h : s.memberTake = some s') : Still s s' := by
  unfold memberTake at h
  split_ifs at h
  · cases h
    exact ⟨rfl, rfl⟩
  · exact arenaTake_still h

theorem bindingTake_still (h : s.bindingTake = some s') : Still s s' := by
  unfold bindingTake at h
  split_ifs at h
  · cases h
    exact ⟨rfl, rfl⟩
  · exact arenaTake_still h

theorem bootAlias_still (s : Tables) (volume : Volume) : Still s (s.bootAlias volume) := by
  unfold bootAlias
  split
  · exact ⟨rfl, rfl⟩
  · rename_i s₁ h₁
    have hs := arenaTake_still h₁
    split_ifs
    · exact hs
    split
    · exact hs
    · rename_i s₂ h₂
      obtain ⟨hvolumes, hslot⟩ := hs.trans (memberTake_still h₂)
      exact ⟨hvolumes, hslot⟩

theorem answerBind_still (s : Tables) (badge flags : ℕ) (name target : List UInt8) :
    Still s (s.answerBind badge flags name target).2 := by
  unfold answerBind
  split
  · exact ⟨rfl, rfl⟩
  split
  · exact ⟨rfl, rfl⟩
  · rename_i s₁ h₁
    have hs := memberTake_still h₁
    split
    · exact hs
    · unfold freshBinding
      split
      · exact hs
      · rename_i s₂ h₂
        obtain ⟨hvolumes, hslot⟩ := hs.trans (bindingTake_still h₂)
        exact ⟨hvolumes, hslot⟩

theorem assigns_congr (h : s'.volumes = s.volumes) (row : Vector UInt8 kNameMax) (wanted : List UInt8) :
    s'.assigns row wanted = s.assigns row wanted := by
  have htry : ∀ row n, s'.tryName row n = s.tryName row n := by
    intro row n
    simp only [tryName, findVolume_congr h]
  have hfrom : ∀ row turns n, s'.assignFrom row turns n = s.assignFrom row turns n := by
    intro row turns
    induction turns with
    | zero => exact fun _ => rfl
    | succ turns ih => exact fun n => by rw [assignFrom, assignFrom, htry, ih]
  simp only [assigns, findVolume_congr h, hfrom]

end

end Tables

def Call.registers : Call → Bool
  | .register .. => true
  | _ => false

/-- The name that a call asks `assign_name` for, and the row it takes, when it comes to that. -/
def Call.wants (s : Tables) (badge : ℕ) : Call → Option (List UInt8 × Vector UInt8 kNameMax)
  | .register name _ arrived moved row =>
    if name.length > kNameMax ∨ name = [] ∨ arrived = false ∨ moved = false then none
    else (s.arenaTake volumeBytes).map fun _ => (name, row)
  | .mount source view owner _ row =>
    if isUserBadge badge ∨ source.length > kPathMax ∨ source = [] ∨ view.length > kNameMax ∨ view = []
    then none
    else match s.resolvePath badge source with
    | .none | .union _ _ => none
    | .volume _ base =>
      if ((s.findVolume view).filter (Tables.sameView · owner base)).isSome then none
      else ((if base = [] then some s else s.arenaTake base.length).bind
        (·.arenaTake volumeBytes)).map fun _ => (view, row)
  | _ => none

namespace Tables

section
variable {s : Tables} {badge : ℕ} {call : Call} {wanted : List UInt8} {row : Vector UInt8 kNameMax}

theorem wants_length (h : call.wants s badge = some (wanted, row)) : wanted.length ≤ kNameMax := by
  cases call with
  | register name flags arrived moved row' =>
    simp only [Call.wants] at h
    split_ifs at h with hc
    obtain ⟨_, -, h⟩ := Option.map_eq_some_iff.1 h
    cases h
    exact Nat.le_of_not_lt fun hlt => hc (Or.inl hlt)
  | mount source view owner flags row' =>
    simp only [Call.wants] at h
    split_ifs at h with hc
    split at h
    · cases h
    · cases h
    · split at h
      · cases h
      obtain ⟨_, -, h⟩ := Option.map_eq_some_iff.1 h
      cases h
      exact Nat.le_of_not_lt fun hlt => hc (Or.inr (Or.inr (Or.inr (Or.inl hlt))))
  | _ => cases h

/-- What is left of a call that asked for a name: the volume has the name it answers, and a
    register's volume the next slot; without a name there is no volume. -/
def Placed (s : Tables) (call : Call) : Option (List UInt8) → Reply × Tables → Prop
  | none, r => r.1 = .nothing ∧ Still s r.2
  | some name, r => r.1 = ⟨[], name, none⟩ ∧ ∃ v : Volume, v.name = name ∧
      r.2.volumes = v :: s.volumes ∧ r.2.nextSlot = s.nextSlot + call.registers.toNat

/-- A call that asks for a name places a volume; any other leaves the volumes as they are. -/
def Served (s : Tables) (badge : ℕ) (call : Call) (r : Reply × Tables) : Prop :=
  match call.wants s badge with
  | none => Still s r.2
  | some (wanted, row) => s.Placed call (s.assignName row wanted) r

theorem assignName_congr {s' : Tables} (h : s'.volumes = s.volumes) (row : Vector UInt8 kNameMax)
    (wanted : List UInt8) : s'.assignName row wanted = s.assignName row wanted := by
  rw [assignName, assigns_congr h, assignName]

theorem answerRegister_served (s : Tables) (badge : ℕ) (name : List UInt8) (flags : ℕ) (arrived moved : Bool)
    (row : Vector UInt8 kNameMax) : s.Served badge (.register name flags arrived moved row)
      (s.answerRegister name flags arrived moved row) := by
  unfold Served answerRegister
  simp only [Call.wants]
  by_cases hc : name.length > kNameMax ∨ name = [] ∨ arrived = false
  · rw [if_pos hc, if_pos (by tauto)]
    exact ⟨rfl, rfl⟩
  rw [if_neg hc]
  cases ht : s.arenaTake volumeBytes with
  | none =>
    simp only [Option.map_none, ite_self]
    exact ⟨rfl, rfl⟩
  | some s₁ =>
    have hs := arenaTake_still ht
    by_cases hm : moved = false
    · simp only [if_pos hm, if_pos (show _ ∨ _ ∨ _ ∨ _ from Or.inr (Or.inr (Or.inr hm)))]
      exact hs
    · rw [if_neg (by tauto)]
      simp only [if_neg hm, Option.map_some, assignName_congr hs.1]
      generalize s.assignName row name = given
      cases given with
      | none => exact ⟨rfl, hs⟩
      | some given =>
        dsimp only
        refine ⟨rfl, ⟨given, flags, s₁.nextSlot, 0, []⟩, rfl, ?_⟩
        split_ifs
        · obtain ⟨hv, hn⟩ := bootAlias_still _ _
          rw [hv, hn, hs.1, hs.2]
          exact ⟨rfl, rfl⟩
        · rw [hs.1, hs.2]
          exact ⟨rfl, rfl⟩

theorem answerMount_served (s : Tables) (badge : ℕ) (source view : List UInt8) (owner flags : ℕ)
    (row : Vector UInt8 kNameMax) : s.Served badge (.mount source view owner flags row)
      (s.answerMount badge source view owner flags row) := by
  unfold Served answerMount
  simp only [Call.wants]
  split_ifs with hc
  · exact ⟨rfl, rfl⟩
  cases hr : s.resolvePath badge source with
  | none => exact ⟨rfl, rfl⟩
  | union b rest => exact ⟨rfl, rfl⟩
  | volume src base =>
    dsimp only
    cases hsame : (s.findVolume view).filter (sameView · owner base) with
    | some v => exact ⟨rfl, rfl⟩
    | none =>
      cases hb : (if base = [] then some s else s.arenaTake base.length) with
      | none => exact ⟨rfl, rfl⟩
      | some s₁ =>
        have hs₁ : Still s s₁ := by
          split_ifs at hb
          · cases hb
            exact ⟨rfl, rfl⟩
          · exact arenaTake_still hb
        simp only [Option.bind_some]
        cases ht : s₁.arenaTake volumeBytes with
        | none => exact hs₁
        | some s₂ =>
          have hs := hs₁.trans (arenaTake_still ht)
          simp only [Option.map_some, assignName_congr hs.1]
          show s.Placed _ (s.assignName row view) _
          generalize s.assignName row view = given
          cases given with
          | none => exact ⟨rfl, hs⟩
          | some given => exact ⟨rfl, ⟨given, flags, src.port, owner, base⟩, rfl, by rw [hs.1], hs.2⟩

theorem serve_served (s : Tables) (badge : ℕ) (call : Call) : s.Served badge call (s.serve badge call) := by
  cases call with
  | register name flags arrived moved row => exact answerRegister_served s badge name flags arrived moved row
  | mount source view owner flags row => exact answerMount_served s badge source view owner flags row
  | bind b flags name target => exact answerBind_still s b flags name target
  | bindSelf flags name target => exact answerBind_still s badge flags name target
  | unbindName name =>
    show Still s (s.answerUnbindName badge name).2
    unfold answerUnbindName
    dsimp only
    split_ifs
    · exact ⟨rfl, rfl⟩
    split <;> exact ⟨rfl, rfl⟩
  | resolve path minted =>
    show Still s (s.answerResolve badge path minted).2
    rw [answerResolve_tables]
    exact ⟨rfl, rfl⟩
  | _ => exact ⟨rfl, rfl⟩

end

end Tables

/-! ## Runs -/

/-- The namespace, and the slots that volumes' capabilities were moved to. -/
structure Keeper where
  tables : Tables
  stored : List ℕ

namespace Keeper

/-- A namespace without volumes, the memory it was granted and its first slot. -/
def start (arena slot : ℕ) : Keeper := ⟨⟨[], [], 1, [], 1, arena, 0, 0, 0, slot⟩, []⟩

/-- A call; a register that comes to ask for a name has moved its capability to the next slot. -/
def step (k : Keeper) (badge : ℕ) (call : Call) : Keeper :=
  ⟨(k.tables.serve badge call).2,
    if call.registers && (call.wants k.tables badge).isSome then k.tables.nextSlot :: k.stored else k.stored⟩

/-- A property of the states that the calls of a run come to. -/
def Each (P : Keeper → ℕ → Call → Prop) : Keeper → List (ℕ × Call) → Prop
  | _, [] => True
  | k, (badge, call) :: calls => P k badge call ∧ Each P (k.step badge call) calls

def Distinct (k : Keeper) : Prop :=
  k.tables.volumes.Pairwise fun v w => sameVolume w.name v.name = false

/-- A call goes right: `assign_name` ends, and a name it gives is as it is meant to be; after
    the call the names are different, and the next slot is empty. -/
structure Right (k : Keeper) (badge : ℕ) (call : Call) : Prop where
  named : ∀ wanted row, call.wants k.tables badge = some (wanted, row) →
    ∃ given, k.tables.assigns row wanted = some given ∧ ∀ name, given = some name → k.tables.Derived wanted name
  distinct : (k.step badge call).Distinct
  empty : (k.step badge call).tables.nextSlot ∉ (k.step badge call).stored

/-- A name that a call asks for is free, or the row leads to its suffix; a view may also have no
    room for one. -/
def Suited (k : Keeper) (badge : ℕ) (call : Call) : Prop :=
  ∀ wanted row, call.wants k.tables badge = some (wanted, row) →
    k.tables.Ready row wanted ∨ (call.registers = false ∧ k.tables.Full row wanted)

/-- The names are different, and the capabilities are in slots before the next. -/
structure Inv (k : Keeper) : Prop where
  distinct : k.Distinct
  before : ∀ slot ∈ k.stored, slot < k.tables.nextSlot

section
variable {k : Keeper} {badge : ℕ} {call : Call}

theorem Inv.step_distinct (h : k.Inv) (badge : ℕ) (call : Call) : (k.step badge call).Distinct := by
  have hs := k.tables.serve_served badge call
  unfold Tables.Served at hs
  unfold Distinct step
  split at hs
  · rw [hs.1]
    exact h.distinct
  · rename_i wanted row hw
    cases hn : k.tables.assignName row wanted with
    | none =>
      rw [hn] at hs
      rw [hs.2.1]
      exact h.distinct
    | some name =>
      rw [hn] at hs
      obtain ⟨-, v, rfl, hv, -⟩ := hs
      rw [hv]
      refine List.pairwise_cons.2 ⟨fun w hw => ?_, h.distinct⟩
      have hfree := Tables.assigns_free row (Option.join_eq_some_iff.1 hn)
      simpa using List.find?_eq_none.1 hfree w hw

theorem Inv.step_before (h : k.Inv)
    (hn : ∀ wanted row, call.wants k.tables badge = some (wanted, row) → call.registers = true →
      k.tables.assignName row wanted ≠ none) :
    ∀ slot ∈ (k.step badge call).stored, slot < (k.step badge call).tables.nextSlot := by
  have hs := k.tables.serve_served badge call
  unfold Tables.Served at hs
  unfold step
  split at hs
  · rename_i hw
    rw [hw, Option.isSome_none, Bool.and_false, hs.2]
    exact h.before
  · rename_i wanted row hw
    rw [hw, Option.isSome_some, Bool.and_true]
    cases hg : k.tables.assignName row wanted with
    | none =>
      rw [hg] at hs
      have hr : call.registers = false := by
        by_contra hr
        exact hn wanted row hw (Bool.not_eq_false _ ▸ hr) hg
      rw [hr, hs.2.2]
      exact h.before
    | some name =>
      rw [hg] at hs
      obtain ⟨-, v, -, -, hslot⟩ := hs
      rw [hslot]
      cases call.registers with
      | false => exact h.before
      | true =>
        intro slot hmem
        rcases List.mem_cons.1 hmem with rfl | hmem
        · exact Nat.lt_succ_self _
        · exact (h.before slot hmem).trans (Nat.lt_succ_self _)

theorem nextSlot_stored {wanted : List UInt8} {row : Vector UInt8 kNameMax} (hr : call.registers = true)
    (hw : call.wants k.tables badge = some (wanted, row)) (hn : k.tables.assignName row wanted = none) :
    (k.step badge call).tables.nextSlot ∈ (k.step badge call).stored := by
  have hs := k.tables.serve_served badge call
  unfold Tables.Served at hs
  rw [hw] at hs
  dsimp only at hs
  rw [hn] at hs
  unfold step
  rw [hs.2.2, hw, hr]
  exact List.mem_cons_self

theorem Suited.assigned (h : k.Suited badge call) {wanted : List UInt8} {row : Vector UInt8 kNameMax}
    (hw : call.wants k.tables badge = some (wanted, row)) (hr : call.registers = true) :
    k.tables.assignName row wanted ≠ none := by
  rcases h wanted row hw with hready | ⟨hr', -⟩
  · obtain ⟨name, hg, -⟩ := (Tables.assigns_derived (Tables.wants_length hw)).2 hready
    rw [Tables.assignName, hg]
    simp
  · rw [hr] at hr'
    cases hr'

theorem Inv.step (h : k.Inv) (hs : k.Suited badge call) : (k.step badge call).Inv :=
  ⟨h.step_distinct badge call, h.step_before fun _ _ => hs.assigned⟩

theorem Inv.right_iff (h : k.Inv) : k.Right badge call ↔ k.Suited badge call := by
  constructor
  · intro hright wanted row hw
    obtain ⟨given, hg, hd⟩ := hright.named wanted row hw
    cases given with
    | some name => exact Or.inl ((Tables.assigns_derived (Tables.wants_length hw)).1 ⟨name, hg, hd name rfl⟩)
    | none =>
      refine Or.inr ⟨?_, Tables.assigns_none.1 hg⟩
      by_contra hr
      exact hright.empty (nextSlot_stored (by simpa using hr) hw (by rw [Tables.assignName, hg]; rfl))
  · intro hsuited
    refine ⟨fun wanted row hw => ?_, h.step_distinct badge call, fun hmem => ?_⟩
    · rcases hsuited wanted row hw with hready | ⟨-, hfull⟩
      · obtain ⟨name, hg, hd⟩ := (Tables.assigns_derived (Tables.wants_length hw)).2 hready
        exact ⟨some name, hg, fun _ he => Option.some.inj he ▸ hd⟩
      · exact ⟨none, Tables.assigns_none.2 hfull, fun _ he => by cases he⟩
    · exact absurd ((h.step hsuited).before _ hmem) (Nat.lt_irrefl _)

theorem Inv.each_iff (h : k.Inv) (calls : List (ℕ × Call)) : k.Each Right calls ↔ k.Each Suited calls := by
  induction calls generalizing k with
  | nil => exact Iff.rfl
  | cons c calls ih =>
    constructor
    · rintro ⟨hright, hrest⟩
      have hs := h.right_iff.1 hright
      exact ⟨hs, (ih (h.step hs)).1 hrest⟩
    · rintro ⟨hs, hrest⟩
      exact ⟨h.right_iff.2 hs, (ih (h.step hs)).2 hrest⟩

theorem inv_start (arena slot : ℕ) : (start arena slot).Inv :=
  ⟨List.Pairwise.nil, fun _ h => absurd h List.not_mem_nil⟩

end

/-- Every call of a run goes right exactly when every call of it is suited. -/
theorem volume_names (arena slot : ℕ) (calls : List (ℕ × Call)) :
    (start arena slot).Each Right calls ↔ (start arena slot).Each Suited calls :=
  (inv_start arena slot).each_iff calls

/-! ## The loop's end -/

/-- The memory that is left, and that of the volumes there are. -/
def memory (s : Tables) : ℕ := s.arenaLeft + volumeBytes * s.volumes.length

section
variable {s s' : Tables}

theorem arenaTake_memory {bytes : ℕ} (h : s.arenaTake bytes = some s') : memory s' + bytes ≤ memory s := by
  unfold Tables.arenaTake at h
  dsimp only at h
  split_ifs at h
  cases h
  unfold memory
  dsimp only
  omega

theorem memberTake_memory (h : s.memberTake = some s') : memory s' ≤ memory s := by
  unfold Tables.memberTake at h
  split_ifs at h
  · cases h
    exact Nat.le_refl _
  · exact (Nat.le_add_right _ _).trans (arenaTake_memory h)

theorem bindingTake_memory (h : s.bindingTake = some s') : memory s' ≤ memory s := by
  unfold Tables.bindingTake at h
  split_ifs at h
  · cases h
    exact Nat.le_refl _
  · exact (Nat.le_add_right _ _).trans (arenaTake_memory h)

theorem bootAlias_memory (s : Tables) (volume : Volume) : memory (s.bootAlias volume) ≤ memory s := by
  unfold Tables.bootAlias
  split
  · exact Nat.le_refl _
  · rename_i s₁ h₁
    have hle := (Nat.le_add_right _ _).trans (arenaTake_memory h₁)
    split_ifs
    · exact hle
    split
    · exact hle
    · rename_i s₂ h₂
      exact (memberTake_memory h₂).trans hle

theorem answerBind_memory (s : Tables) (badge flags : ℕ) (name target : List UInt8) :
    memory (s.answerBind badge flags name target).2 ≤ memory s := by
  unfold Tables.answerBind
  split
  · exact Nat.le_refl _
  split
  · exact Nat.le_refl _
  · rename_i s₁ h₁
    have hle := memberTake_memory h₁
    split
    · exact hle
    · unfold Tables.freshBinding
      split
      · exact hle
      · rename_i s₂ h₂
        exact (bindingTake_memory h₂).trans hle

theorem answerRegister_memory (s : Tables) (name : List UInt8) (flags : ℕ) (arrived moved : Bool)
    (row : Vector UInt8 kNameMax) : memory (s.answerRegister name flags arrived moved row).2 ≤ memory s := by
  unfold Tables.answerRegister
  split
  · exact Nat.le_refl _
  split
  · exact Nat.le_refl _
  · rename_i s₁ h₁
    have hle := arenaTake_memory h₁
    split
    · exact (Nat.le_add_right _ _).trans hle
    split
    · exact (Nat.le_add_right _ _).trans hle
    · dsimp only
      have hput (v : Volume) : memory { s₁ with volumes := v :: s₁.volumes, nextSlot := s₁.nextSlot + 1 } ≤ memory s := by
        rw [memory, List.length_cons, Nat.mul_succ, ← Nat.add_assoc]
        exact hle
      split_ifs
      · exact (bootAlias_memory _ _).trans (hput _)
      · exact hput _

theorem answerMount_memory (s : Tables) (badge : ℕ) (source view : List UInt8) (owner flags : ℕ)
    (row : Vector UInt8 kNameMax) : memory (s.answerMount badge source view owner flags row).2 ≤ memory s := by
  unfold Tables.answerMount
  split
  · exact Nat.le_refl _
  split
  · exact Nat.le_refl _
  · exact Nat.le_refl _
  split
  · exact Nat.le_refl _
  split
  · exact Nat.le_refl _
  · rename_i s₁ h₁
    have hle₁ : memory s₁ ≤ memory s := by
      split_ifs at h₁
      · cases h₁
        exact Nat.le_refl _
      · exact (Nat.le_add_right _ _).trans (arenaTake_memory h₁)
    split
    · exact hle₁
    · rename_i s₂ h₂
      have hle := (arenaTake_memory h₂).trans hle₁
      split
      · exact (Nat.le_add_right _ _).trans hle
      · rw [memory, List.length_cons, Nat.mul_succ, ← Nat.add_assoc]
        exact hle

theorem serve_memory (s : Tables) (badge : ℕ) (call : Call) : memory (s.serve badge call).2 ≤ memory s := by
  cases call with
  | register name flags arrived moved row => exact answerRegister_memory s name flags arrived moved row
  | mount source view owner flags row => exact answerMount_memory s badge source view owner flags row
  | bind b flags name target => exact answerBind_memory s b flags name target
  | bindSelf flags name target => exact answerBind_memory s badge flags name target
  | unbindName name =>
    show memory (s.answerUnbindName badge name).2 ≤ memory s
    unfold Tables.answerUnbindName
    dsimp only
    split_ifs
    · exact Nat.le_refl _
    split <;> exact Nat.le_refl _
  | resolve path minted =>
    show memory (s.answerResolve badge path minted).2 ≤ memory s
    rw [Tables.answerResolve_tables]
  | _ => exact Nat.le_refl _

end

/-- The loop of `assign_name` ends, with a free name or where there is no room for one. -/
def Settled (k : Keeper) (badge : ℕ) (call : Call) : Prop :=
  ∀ wanted row, call.wants k.tables badge = some (wanted, row) →
    (∃ name, k.tables.assigns row wanted = some (some name) ∧ k.tables.findVolume name = none) ∨
      (k.tables.assigns row wanted = some none ∧ k.tables.Full row wanted)

theorem settled_of_memory {k : Keeper} {arena : ℕ} (hk : memory k.tables ≤ arena)
    (h : arena / volumeBytes + 1 < 2 ^ 32) (badge : ℕ) (call : Call) : k.Settled badge call := by
  rintro wanted row -
  have hvolumes : k.tables.volumes.length ≤ arena / volumeBytes := by
    rw [Nat.le_div_iff_mul_le (by decide), Nat.mul_comm]
    exact (Nat.le_add_left _ _).trans hk
  obtain ⟨given, hgiven⟩ : ∃ given, k.tables.assigns row wanted = some given := Tables.assigns_ends row (by omega)
  cases given with
  | none => exact Or.inr ⟨hgiven, Tables.assigns_none.1 hgiven⟩
  | some name => exact Or.inl ⟨name, hgiven, Tables.assigns_free row hgiven⟩

/-- **Every name is settled**: with memory for fewer volumes than there are numbers, no call of
    any run has `assign_name` go on for ever. -/
theorem naming_ends (arena slot : ℕ) (h : arena / volumeBytes + 1 < 2 ^ 32) (calls : List (ℕ × Call)) :
    (start arena slot).Each Settled calls := by
  suffices hrun : ∀ k : Keeper, memory k.tables ≤ arena → k.Each Settled calls by
    exact hrun _ (Nat.le_refl _)
  induction calls with
  | nil => exact fun _ _ => trivial
  | cons c calls ih =>
    intro k hk
    exact ⟨settled_of_memory hk h c.1 c.2, ih _ ((serve_memory _ _ _).trans hk)⟩

/-! ## A second volume of one name -/

open Tables (blank)

/-- `Ram`, registered. -/
def registerRam : ℕ × Call := (0, .register [82, 97, 109] 0 true true blank)

def registerLong : ℕ × Call := (0, .register (List.replicate 24 65) 0 true true blank)

theorem naming_ends_twice : (start 8192 16).Each Settled [registerRam, registerRam] :=
  naming_ends 8192 16 (by decide) _

/-- The second `Ram` is named by what its row held, and `_1`.  The second volume of a name of 24
    bytes is refused, and its capability stays in the slot that the next volume's is to go to. -/
theorem second_name :
    ((((start 8192 16).step 0 registerRam.2).tables.serve 0 registerRam.2).1.text = [0, 0, 0, 95, 49] ∧
      ¬ (start 8192 16).Each Right [registerRam, registerRam]) ∧
    ((((start 8192 16).step 0 registerLong.2).step 0 registerLong.2).tables.nextSlot ∈
        (((start 8192 16).step 0 registerLong.2).step 0 registerLong.2).stored ∧
      ¬ (start 8192 16).Each Right [registerLong, registerLong]) := by
  refine ⟨⟨by decide, ?_⟩, by decide, ?_⟩
  · rintro ⟨hfirst, hright, -⟩
    have hinv := (inv_start 8192 16).step ((inv_start 8192 16).right_iff.1 hfirst)
    rcases hinv.right_iff.1 hright [82, 97, 109] blank (by decide) with (hfree | ⟨hrow, -⟩) | ⟨hr, -⟩
    · exact absurd hfree (by decide)
    · exact absurd hrow (by decide)
    · cases hr
  · rintro ⟨-, hright, -⟩
    exact hright.empty (by decide)

end Keeper

end Aegir.Vfs
