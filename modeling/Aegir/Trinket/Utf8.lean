/-
  The UTF-8 of the toolkit's strings (aegir-trinket, `unicode.cc` and `unicode.h`).

  A byte is read through `rest[i]?`: without it the decoder has read past the end and has no answer.
-/
import Aegir.Lib.Unicode

namespace Aegir.Trinket

open Aegir.Lib.Unicode

/-- `Utf8Iterator::decode` at the first of the bytes that are left. -/
def decode : List UInt8 → Option ℕ
  | [] => some 0
  | lead :: rest =>
    let c := lead.toNat
    if c < 0x80 then some c
    else if c / 2 ^ 5 = 6 ∧ 1 < rest.length + 1 then do
      let a ← rest[0]?
      some (c % 2 ^ 5 * 2 ^ 6 + a.toNat % 2 ^ 6)
    else if c / 2 ^ 4 = 14 ∧ 2 < rest.length + 1 then do
      let a ← rest[0]?
      let b ← rest[1]?
      some (c % 2 ^ 4 * 2 ^ 12 + a.toNat % 2 ^ 6 * 2 ^ 6 + b.toNat % 2 ^ 6)
    else if c / 2 ^ 3 = 30 ∧ 3 < rest.length + 1 then do
      let a ← rest[0]?
      let b ← rest[1]?
      let d ← rest[2]?
      some (c % 2 ^ 3 * 2 ^ 18 + a.toNat % 2 ^ 6 * 2 ^ 12 + b.toNat % 2 ^ 6 * 2 ^ 6 + d.toNat % 2 ^ 6)
    else some 0xfffd

def width : List UInt8 → ℕ
  | [] => 1
  | lead :: rest =>
    let c := lead.toNat
    if c < 0x80 then 1
    else if c / 2 ^ 5 = 6 ∧ 1 < rest.length + 1 then 2
    else if c / 2 ^ 4 = 14 ∧ 2 < rest.length + 1 then 3
    else if c / 2 ^ 3 = 30 ∧ 3 < rest.length + 1 then 4
    else 1

theorem width_pos (b : List UInt8) : 0 < width b := by
  unfold width
  cases b with
  | nil => decide
  | cons lead rest =>
    dsimp only
    split_ifs <;> decide

theorem drop_width_lt {b : List UInt8} (h : b ≠ []) : (b.drop (width b)).length < b.length := by
  rw [List.length_drop]
  exact Nat.sub_lt (List.length_pos_of_ne_nil h) (width_pos b)

/-- `utf8_iterate` -/
def iterate (b : List UInt8) : Option (List ℕ) :=
  if b = [] then some []
  else do
    let cp ← decode b
    let cps ← iterate (b.drop (width b))
    some (cp :: cps)
termination_by b.length
decreasing_by exact drop_width_lt ‹_›

def utf8ToUtf32 (b : List UInt8) : Option (List ℕ) := (iterate b).map fun cps => cps.filter (· ≠ 0)

def utf32ToUtf8 (s : List ℕ) : List UInt8 := s.flatMap utf8

def isValidUtf8 (b : List UInt8) : Option Bool := (iterate b).map fun cps => cps.all (· ≠ 0xfffd)

/-- The checks of `replace_invalid_utf8` on a code point of `w` bytes. -/
def keeps (w cp : ℕ) : Bool :=
  if w = 1 then cp < 0x80
  else if w = 2 then 0x80 ≤ cp
  else if w = 3 then 0x800 ≤ cp ∧ (cp < 0xd800 ∨ 0xdfff < cp)
  else 0x10000 ≤ cp ∧ cp ≤ 0x10ffff

/-- It splits the bytes, and makes code points of them, as the iterator does. -/
def replaceInvalidUtf8 (replacement : ℕ) (b : List UInt8) : Option (List UInt8) :=
  if b = [] then some []
  else do
    let cp ← decode b
    let tail ← replaceInvalidUtf8 replacement (b.drop (width b))
    some ((if keeps (width b) cp then b.take (width b) else utf8 replacement) ++ tail)
termination_by b.length
decreasing_by exact drop_width_lt ‹_›

/-- The bytes that one step of the iterator goes over. -/
def units (b : List UInt8) : List (List UInt8) :=
  if b = [] then [] else b.take (width b) :: units (b.drop (width b))
termination_by b.length
decreasing_by exact drop_width_lt ‹_›

def Encodes (u : List UInt8) : Prop := ∃ p, Scalar p ∧ u = utf8 p

def Valid (b : List UInt8) : Prop := ∃ s, (∀ p ∈ s, Scalar p) ∧ b = utf32ToUtf8 s

/-- Every byte after the first is of the form `10xxxxxx`. -/
def Continued (u : List UInt8) : Prop := ∀ a ∈ u.tail, a.toNat / 2 ^ 6 = 2

def Shows (u : List UInt8) : Prop := decode u = some 0xfffd

def kept (u : List UInt8) : Bool := (decode u).any (keeps u.length)

/-! ## A step of the iterator -/

/-- What a step goes over, and the code point it makes of it. -/
inductive Shape : List UInt8 → ℕ → Prop
  | ascii {c : UInt8} (h : c.toNat < 0x80) : Shape [c] c.toNat
  | lone {c : UInt8} (h : 0x80 ≤ c.toNat) : Shape [c] 0xfffd
  | two {c a : UInt8} (h : c.toNat / 2 ^ 5 = 6) : Shape [c, a] (c.toNat % 2 ^ 5 * 2 ^ 6 + a.toNat % 2 ^ 6)
  | three {c a b : UInt8} (h : c.toNat / 2 ^ 4 = 14) :
    Shape [c, a, b] (c.toNat % 2 ^ 4 * 2 ^ 12 + a.toNat % 2 ^ 6 * 2 ^ 6 + b.toNat % 2 ^ 6)
  | four {c a b d : UInt8} (h : c.toNat / 2 ^ 3 = 30) :
    Shape [c, a, b, d] (c.toNat % 2 ^ 3 * 2 ^ 18 + a.toNat % 2 ^ 6 * 2 ^ 12 + b.toNat % 2 ^ 6 * 2 ^ 6 + d.toNat % 2 ^ 6)

theorem step_cases (lead : UInt8) (rest : List UInt8) : ∃ u tail cp, lead :: rest = u ++ tail ∧
    width (lead :: rest) = u.length ∧ decode (lead :: rest) = some cp ∧ Shape u cp := by
  by_cases hascii : lead.toNat < 0x80
  · exact ⟨[lead], rest, _, rfl, by simp [width, hascii], by simp [decode, hascii], .ascii hascii⟩
  by_cases htwo : lead.toNat / 2 ^ 5 = 6 ∧ 1 < rest.length + 1
  · have h₂ : lead.toNat / 32 = 6 := htwo.1
    obtain ⟨a, rest, rfl⟩ := List.exists_cons_of_length_pos (show 0 < rest.length by omega)
    exact ⟨[lead, a], rest, _, rfl, by simp [width, hascii, h₂], by simp [decode, hascii, h₂], .two h₂⟩
  by_cases hthree : lead.toNat / 2 ^ 4 = 14 ∧ 2 < rest.length + 1
  · obtain ⟨a, rest, rfl⟩ := List.exists_cons_of_length_pos (show 0 < rest.length by omega)
    obtain ⟨b, rest, rfl⟩ := List.exists_cons_of_length_pos (show 0 < rest.length by simp at hthree; omega)
    refine ⟨[lead, a, b], rest, _, rfl, ?_, ?_, .three hthree.1⟩
    · simp only [width, if_neg hascii, if_neg htwo, if_pos hthree]
      rfl
    · simp only [decode, if_neg hascii, if_neg htwo, if_pos hthree]
      rfl
  by_cases hfour : lead.toNat / 2 ^ 3 = 30 ∧ 3 < rest.length + 1
  · obtain ⟨a, rest, rfl⟩ := List.exists_cons_of_length_pos (show 0 < rest.length by omega)
    obtain ⟨b, rest, rfl⟩ := List.exists_cons_of_length_pos (show 0 < rest.length by simp at hfour; omega)
    obtain ⟨d, rest, rfl⟩ := List.exists_cons_of_length_pos (show 0 < rest.length by simp at hfour; omega)
    refine ⟨[lead, a, b, d], rest, _, rfl, ?_, ?_, .four hfour.1⟩
    · simp only [width, if_neg hascii, if_neg htwo, if_neg hthree, if_pos hfour]
      rfl
    · simp only [decode, if_neg hascii, if_neg htwo, if_neg hthree, if_pos hfour]
      rfl
  refine ⟨[lead], rest, _, rfl, ?_, ?_, .lone (Nat.not_lt.1 hascii)⟩
  · simp only [width, if_neg hascii, if_neg htwo, if_neg hthree, if_neg hfour]
    rfl
  · simp only [decode, if_neg hascii, if_neg htwo, if_neg hthree, if_neg hfour]

variable {u b : List UInt8} {cp p : ℕ}

theorem Shape.decode (h : Shape u cp) : decode u = some cp := by
  cases h with
  | ascii h => simp [Trinket.decode, h]
  | lone h => simp [Trinket.decode, Nat.not_lt.2 h]
  | @two c a h => simp [Trinket.decode, show c.toNat / 32 = 6 from h, show ¬c.toNat < 0x80 by omega]
  | @three c a b h =>
    simp [Trinket.decode, show c.toNat / 16 = 14 from h, show ¬c.toNat < 0x80 by omega, show c.toNat / 32 ≠ 6 by omega]
  | @four c a b d h =>
    simp [Trinket.decode, show c.toNat / 8 = 30 from h, show ¬c.toNat < 0x80 by omega, show c.toNat / 32 ≠ 6 by omega,
      show c.toNat / 16 ≠ 14 by omega]

theorem Shape.kept_eq (h : Shape u cp) : kept u = keeps u.length cp := by
  rw [kept, h.decode]
  rfl

theorem Shape.width_append (h : Shape u cp) (hkept : keeps u.length cp = true) (rest : List UInt8) :
    u ≠ [] ∧ width (u ++ rest) = u.length := by
  cases h with
  | ascii h => simp [width, h]
  | lone h => simp [keeps] at hkept
  | @two c a h => simp [width, show c.toNat / 32 = 6 from h, show ¬c.toNat < 0x80 by omega]
  | @three c a b h =>
    simp [width, show c.toNat / 16 = 14 from h, show ¬c.toNat < 0x80 by omega, show c.toNat / 32 ≠ 6 by omega]
  | @four c a b d h =>
    simp [width, show c.toNat / 8 = 30 from h, show ¬c.toNat < 0x80 by omega, show c.toNat / 32 ≠ 6 by omega,
      show c.toNat / 16 ≠ 14 by omega]

theorem eq_ofNat {c : UInt8} {n : ℕ} (h : c.toNat = n) : c = UInt8.ofNat n := by
  rw [← h, UInt8.ofNat_toNat]

theorem shape_utf8 (h : Scalar p) : Shape (utf8 p) p ∧ keeps (utf8 p).length p = true ∧ Continued (utf8 p) := by
  have hlast := toNat_continuation p
  have hmiddle := toNat_continuation (p / 2 ^ 6)
  have hfirst := toNat_continuation (p / 2 ^ 12)
  unfold Scalar at h
  unfold utf8
  split_ifs with hone htwo hthree
  · have hc : (UInt8.ofNat p).toNat = p := toNat_ofNat_of_lt (by omega)
    refine ⟨?_, by simpa [keeps] using hone, fun _ ha => by cases ha⟩
    have hshape := Shape.ascii (c := UInt8.ofNat p) (by omega)
    rwa [hc] at hshape
  · have hc : (UInt8.ofNat (0xc0 + p / 2 ^ 6)).toNat = 0xc0 + p / 2 ^ 6 := toNat_ofNat_of_lt (by omega)
    refine ⟨?_, by simp [keeps]; omega, fun a ha => ?_⟩
    · have hshape := Shape.two (c := UInt8.ofNat (0xc0 + p / 2 ^ 6)) (a := UInt8.ofNat (0x80 + p % 2 ^ 6)) (by omega)
      rwa [hc, hlast, show (0xc0 + p / 2 ^ 6) % 2 ^ 5 * 2 ^ 6 + (0x80 + p % 2 ^ 6) % 2 ^ 6 = p by omega] at hshape
    · simp only [List.tail_cons, List.mem_singleton] at ha
      rw [ha, hlast]
      omega
  · have hc : (UInt8.ofNat (0xe0 + p / 2 ^ 12)).toNat = 0xe0 + p / 2 ^ 12 := toNat_ofNat_of_lt (by omega)
    refine ⟨?_, by simp [keeps]; omega, fun a ha => ?_⟩
    · have hshape := Shape.three (c := UInt8.ofNat (0xe0 + p / 2 ^ 12)) (a := UInt8.ofNat (0x80 + p / 2 ^ 6 % 2 ^ 6))
        (b := UInt8.ofNat (0x80 + p % 2 ^ 6)) (by omega)
      rwa [hc, hmiddle, hlast, show (0xe0 + p / 2 ^ 12) % 2 ^ 4 * 2 ^ 12 + (0x80 + p / 2 ^ 6 % 2 ^ 6) % 2 ^ 6 * 2 ^ 6 +
        (0x80 + p % 2 ^ 6) % 2 ^ 6 = p by omega] at hshape
    · simp only [List.tail_cons, List.mem_cons, List.not_mem_nil, or_false] at ha
      rcases ha with rfl | rfl <;> omega
  · have hc : (UInt8.ofNat (0xf0 + p / 2 ^ 18)).toNat = 0xf0 + p / 2 ^ 18 := toNat_ofNat_of_lt (by omega)
    refine ⟨?_, by simp [keeps]; omega, fun a ha => ?_⟩
    · have hshape := Shape.four (c := UInt8.ofNat (0xf0 + p / 2 ^ 18)) (a := UInt8.ofNat (0x80 + p / 2 ^ 12 % 2 ^ 6))
        (b := UInt8.ofNat (0x80 + p / 2 ^ 6 % 2 ^ 6)) (d := UInt8.ofNat (0x80 + p % 2 ^ 6)) (by omega)
      rwa [hc, hfirst, hmiddle, hlast, show (0xf0 + p / 2 ^ 18) % 2 ^ 3 * 2 ^ 18 + (0x80 + p / 2 ^ 12 % 2 ^ 6) % 2 ^ 6 * 2 ^ 12 +
        (0x80 + p / 2 ^ 6 % 2 ^ 6) % 2 ^ 6 * 2 ^ 6 + (0x80 + p % 2 ^ 6) % 2 ^ 6 = p by omega] at hshape
    · simp only [List.tail_cons, List.mem_cons, List.not_mem_nil, or_false] at ha
      rcases ha with rfl | rfl | rfl <;> omega

/-- **A unit is an encoding exactly when it is kept and continued.** -/
theorem Shape.encodes_iff (h : Shape u cp) : Encodes u ↔ keeps u.length cp = true ∧ Continued u := by
  constructor
  · rintro ⟨p, hp, rfl⟩
    obtain ⟨hshape, hkeeps, hcontinued⟩ := shape_utf8 hp
    obtain rfl := Option.some.inj (h.decode.symm.trans hshape.decode)
    exact ⟨hkeeps, hcontinued⟩
  rintro ⟨hkeeps, hcontinued⟩
  refine ⟨cp, ?_⟩
  unfold Scalar utf8
  cases h with
  | @ascii c h => exact ⟨Or.inl (by omega), by rw [if_pos h, UInt8.ofNat_toNat]⟩
  | lone h => simp [keeps] at hkeeps
  | @two c a h =>
    have ha := hcontinued a (by simp)
    have := a.toNat_lt
    simp only [keeps, List.length_cons, List.length_nil, Nat.zero_add, Nat.reduceAdd, Nat.reduceEqDiff, if_false, if_true,
      decide_eq_true_eq] at hkeeps
    refine ⟨Or.inl (by omega), ?_⟩
    rw [if_neg (by omega), if_pos (by omega), List.cons_eq_cons, List.cons_eq_cons]
    exact ⟨eq_ofNat (by omega), eq_ofNat (by omega), rfl⟩
  | @three c a b h =>
    have ha := hcontinued a (by simp)
    have hb := hcontinued b (by simp)
    simp only [keeps, List.length_cons, List.length_nil, Nat.zero_add, Nat.reduceAdd, Nat.reduceEqDiff, if_false, if_true,
      decide_eq_true_eq] at hkeeps
    refine ⟨by omega, ?_⟩
    rw [if_neg (by omega), if_neg (by omega), if_pos (by omega), List.cons_eq_cons, List.cons_eq_cons, List.cons_eq_cons]
    exact ⟨eq_ofNat (by omega), eq_ofNat (by omega), eq_ofNat (by omega), rfl⟩
  | @four c a b d h =>
    have ha := hcontinued a (by simp)
    have hb := hcontinued b (by simp)
    have hd := hcontinued d (by simp)
    simp only [keeps, List.length_cons, List.length_nil, Nat.zero_add, Nat.reduceAdd, Nat.reduceEqDiff, if_false,
      decide_eq_true_eq] at hkeeps
    refine ⟨by omega, ?_⟩
    rw [if_neg (by omega), if_neg (by omega), if_neg (by omega), List.cons_eq_cons, List.cons_eq_cons, List.cons_eq_cons,
      List.cons_eq_cons]
    exact ⟨eq_ofNat (by omega), eq_ofNat (by omega), eq_ofNat (by omega), eq_ofNat (by omega), rfl⟩

/-! ## A text, unit by unit -/

theorem units_append {rest : List UInt8} (hne : u ≠ []) (h : width (u ++ rest) = u.length) :
    units (u ++ rest) = u :: units rest := by
  rw [units, if_neg (by simp [hne]), h, List.take_left, List.drop_left]

theorem units_flatten {us : List (List UInt8)} (h : ∀ u ∈ us, ∃ cp, Shape u cp ∧ keeps u.length cp = true) :
    units us.flatten = us := by
  induction us with
  | nil => rw [List.flatten_nil, units, if_pos rfl]
  | cons u us ih =>
    obtain ⟨cp, hshape, hkeeps⟩ := h u List.mem_cons_self
    obtain ⟨hne, hwidth⟩ := hshape.width_append hkeeps us.flatten
    rw [List.flatten_cons, units_append hne hwidth, ih fun u' hu' => h u' (List.mem_cons_of_mem _ hu')]

theorem text_units (replacement : ℕ) (b : List UInt8) : (units b).flatten = b ∧ ∃ cps, iterate b = some cps ∧
    List.Forall₂ Shape (units b) cps ∧
    replaceInvalidUtf8 replacement b = some ((units b).map fun u => if kept u then u else utf8 replacement).flatten := by
  induction hn : b.length using Nat.strongRecOn generalizing b with
  | ind n ih =>
    cases b with
    | nil =>
      have hunits : units [] = [] := by rw [units, if_pos rfl]
      rw [hunits, iterate, if_pos rfl, replaceInvalidUtf8, if_pos rfl]
      exact ⟨rfl, [], rfl, .nil, rfl⟩
    | cons lead rest =>
      obtain ⟨u, tail, cp, hb, hwidth, hdecode, hshape⟩ := step_cases lead rest
      have htake : (lead :: rest).take (width (lead :: rest)) = u := by rw [hwidth, hb, List.take_left]
      have hdrop : (lead :: rest).drop (width (lead :: rest)) = tail := by rw [hwidth, hb, List.drop_left]
      have hlt := drop_width_lt (List.cons_ne_nil lead rest)
      rw [hdrop, hn] at hlt
      obtain ⟨hflatten, cps, hcps, hshapes, hreplace⟩ := ih _ hlt tail rfl
      rw [units, if_neg (List.cons_ne_nil _ _), iterate, if_neg (List.cons_ne_nil _ _), replaceInvalidUtf8,
        if_neg (List.cons_ne_nil _ _), htake, hdrop, hdecode, hcps, hreplace, hwidth]
      refine ⟨?_, cp :: cps, rfl, .cons hshape hshapes, ?_⟩
      · rw [List.flatten_cons, hflatten, hb]
      · rw [List.map_cons, List.flatten_cons, hshape.kept_eq]
        rfl

theorem shape_of_mem (h : u ∈ units b) : ∃ cp, Shape u cp := by
  obtain ⟨-, cps, -, hshapes, -⟩ := text_units 0 b
  obtain ⟨i, hi, rfl⟩ := List.getElem_of_mem h
  exact ⟨_, (List.forall₂_iff_get.1 hshapes).2 i hi (hshapes.length_eq ▸ hi)⟩

theorem units_encoded {s : List ℕ} (h : ∀ p ∈ s, Scalar p) : units (utf32ToUtf8 s) = s.map utf8 := by
  rw [utf32ToUtf8, List.flatMap_def]
  refine units_flatten fun u hu => ?_
  obtain ⟨p, hp, rfl⟩ := List.mem_map.1 hu
  obtain ⟨hshape, hkeeps, -⟩ := shape_utf8 (h p hp)
  exact ⟨p, hshape, hkeeps⟩

theorem valid_iff : Valid b ↔ ∀ u ∈ units b, Encodes u := by
  constructor
  · rintro ⟨s, hs, rfl⟩ u hu
    rw [units_encoded hs] at hu
    obtain ⟨p, hp, rfl⟩ := List.mem_map.1 hu
    exact ⟨p, hs p hp, rfl⟩
  · intro h
    have hencoded : ∀ us : List (List UInt8), (∀ u ∈ us, Encodes u) → Valid us.flatten := by
      intro us hus
      induction us with
      | nil => exact ⟨[], List.forall_mem_nil _, rfl⟩
      | cons u us ih =>
        obtain ⟨p, hp, rfl⟩ := hus u List.mem_cons_self
        obtain ⟨s, hs, heq⟩ := ih fun u' hu' => hus u' (List.mem_cons_of_mem _ hu')
        exact ⟨p :: s, List.forall_mem_cons.2 ⟨hp, hs⟩, by rw [List.flatten_cons, heq]; rfl⟩
    have hvalid := hencoded _ h
    rwa [(text_units 0 b).1] at hvalid

/-! ## The laws -/

theorem iterate_encoded {s : List ℕ} (h : ∀ p ∈ s, Scalar p) : iterate (utf32ToUtf8 s) = some s := by
  obtain ⟨-, cps, hcps, hshapes, -⟩ := text_units 0 (utf32ToUtf8 s)
  rw [units_encoded h, List.forall₂_map_left_iff] at hshapes
  have heq : cps = s := by
    clear hcps
    induction hshapes with
    | nil => rfl
    | @cons p cp s cps hshape _ ih =>
      obtain ⟨hp, hs⟩ := List.forall_mem_cons.1 h
      obtain rfl := Option.some.inj (hshape.decode.symm.trans (shape_utf8 hp).1.decode)
      rw [ih hs]
  rw [hcps, heq]

theorem isValidUtf8_eq (b : List UInt8) : isValidUtf8 b = some true ↔ ∀ u ∈ units b, ¬Shows u := by
  obtain ⟨-, cps, hcps, hshapes, -⟩ := text_units 0 b
  rw [isValidUtf8, hcps, Option.map_some, Option.some_inj, List.all_eq_true]
  clear hcps
  generalize units b = us at hshapes
  induction hshapes with
  | nil => simp
  | cons hshape _ ih =>
    rw [List.forall_mem_cons, List.forall_mem_cons, ih, Shows, hshape.decode]
    simp

theorem replace_valid_iff (b : List UInt8) : (∃ out, replaceInvalidUtf8 0xfffd b = some out ∧ Valid out) ↔
    ∀ u ∈ units b, kept u = true → Continued u := by
  obtain ⟨-, cps, -, -, hreplace⟩ := text_units 0xfffd b
  have hreplacement := shape_utf8 (show Scalar 0xfffd by decide)
  have hunits : units ((units b).map fun u => if kept u then u else utf8 0xfffd).flatten =
      (units b).map fun u => if kept u then u else utf8 0xfffd := by
    refine units_flatten fun u' hu' => ?_
    obtain ⟨u, hu, rfl⟩ := List.mem_map.1 hu'
    obtain ⟨cp, hshape⟩ := shape_of_mem hu
    split_ifs with hkept
    · exact ⟨cp, hshape, hshape.kept_eq ▸ hkept⟩
    · exact ⟨_, hreplacement.1, hreplacement.2.1⟩
  simp only [hreplace, Option.some_inj, exists_eq_left', valid_iff, hunits, List.forall_mem_map]
  refine forall₂_congr fun u hu => ?_
  obtain ⟨cp, hshape⟩ := shape_of_mem hu
  rw [hshape.kept_eq]
  split_ifs with hkeeps
  · rw [hshape.encodes_iff]
    simp [hkeeps]
  · exact ⟨fun _ h => absurd h hkeeps, fun _ => ⟨_, by decide, rfl⟩⟩

/-- **The laws of the coding, and exactly where each holds.** A text comes back from its encoding where
    it has no U+0000; validity is told where a well-formed text has no U+FFFD and another text shows
    in one unit what it is; what is replaced is well formed where every unit that is kept is
    continued; a well-formed text is left as it is; and the decoder stays inside and goes on. -/
theorem utf8_laws :
    (∀ s, (∀ p ∈ s, Scalar p) → (utf8ToUtf32 (utf32ToUtf8 s) = some s ↔ 0 ∉ s)) ∧
    (∀ b, (isValidUtf8 b = some true ↔ Valid b) ↔
      (Valid b → utf8 0xfffd ∉ units b) ∧ (¬Valid b → ∃ u ∈ units b, Shows u)) ∧
    (∀ b, (∃ out, replaceInvalidUtf8 0xfffd b = some out ∧ Valid out) ↔ ∀ u ∈ units b, kept u = true → Continued u) ∧
    (∀ b, Valid b → replaceInvalidUtf8 0xfffd b = some b) ∧
    ∀ b, (decode b).isSome ∧ 0 < width b ∧ (b ≠ [] → width b ≤ b.length) := by
  refine ⟨fun s hs => ?_, fun b => ?_, replace_valid_iff, fun b hb => ?_, fun b => ?_⟩
  · rw [utf8ToUtf32, iterate_encoded hs, Option.map_some, Option.some_inj, List.filter_eq_self]
    exact ⟨fun h hzero => of_decide_eq_true (h 0 hzero) rfl, fun h p hp => decide_eq_true fun hzero => h (hzero ▸ hp)⟩
  · rw [isValidUtf8_eq]
    by_cases hvalid : Valid b
    · simp only [hvalid, iff_true, true_imp_iff, not_true, false_imp_iff, and_true]
      refine ⟨fun h hmem => h _ hmem (shape_utf8 (by decide)).1.decode, fun h u hu hshows => h ?_⟩
      obtain ⟨p, hp, rfl⟩ := valid_iff.1 hvalid u hu
      obtain rfl := Option.some.inj ((shape_utf8 hp).1.decode.symm.trans hshows)
      exact hu
    · simp only [hvalid, iff_false, false_imp_iff, true_and, not_false_iff, true_imp_iff, not_forall, not_not, exists_prop]
  · obtain ⟨hflatten, -, -, -, hreplace⟩ := text_units 0xfffd b
    have hkept : ((units b).map fun u => if kept u then u else utf8 0xfffd) = units b := by
      refine (List.map_congr_left fun u hu => ?_).trans (List.map_id _)
      obtain ⟨cp, hshape⟩ := shape_of_mem hu
      rw [hshape.kept_eq, if_pos (hshape.encodes_iff.1 (valid_iff.1 hb u hu)).1]
      rfl
    rw [hreplace, hkept, hflatten]
  · cases b with
    | nil => exact ⟨rfl, by decide, fun h => absurd rfl h⟩
    | cons lead rest =>
      obtain ⟨u, tail, cp, hb, hwidth, hdecode, -⟩ := step_cases lead rest
      refine ⟨by rw [hdecode]; rfl, width_pos _, fun _ => ?_⟩
      rw [hwidth, hb, List.length_append]
      exact Nat.le_add_right _ _

end Aegir.Trinket
