/-
  The literals of a query (`query.cc`): what the text of a value denotes and what the
  parser makes of it.
-/
import Mathlib

namespace Aegir.Query

abbrev Text := List UInt8

def byte (c : Char) : UInt8 := UInt8.ofNat c.toNat

def isDigit (c : UInt8) : Bool := byte '0' ≤ c && c ≤ byte '9'

def digit (c : UInt8) : ℕ := (c - byte '0').toNat

theorem digit_lt {c : UInt8} (h : isDigit c = true) : digit c < 10 := by
  simp only [isDigit, Bool.and_eq_true, decide_eq_true_eq, UInt8.le_iff_toNat_le] at h
  have h₀ : (byte '0').toNat = 48 := rfl
  have h₉ : (byte '9').toNat = 57 := rfl
  rw [digit, UInt8.toNat_sub_of_le _ _ (UInt8.le_iff_toNat_le.2 h.1)]
  omega

/-! ## What the parser reads -/

/-- The literal of an equation, as the parser leaves it. -/
inductive Literal where
  | string (s : Text)
  | integer (n : ℤ)
  | unsigned (n : ℕ)
  | real (q : ℚ)
  | boolean (b : Bool)
deriving DecidableEq

def kInt64Max : ℕ := 2 ^ 63 - 1

def applySign (negative : Bool) (n : ℕ) : ℤ := if negative then -n else n

def takeSign : Text → Bool × Text
  | [] => (false, [])
  | c :: cs => if c = byte '+' ∨ c = byte '-' then (c == byte '-', cs) else (false, c :: cs)

/-- The loop of `parse_integer`. -/
def parseDigits : ℕ → Text → Option ℕ
  | value, [] => some value
  | value, c :: cs =>
    if isDigit c = false then none
    else if (kInt64Max - digit c) / 10 < value then none
    else parseDigits (value * 10 + digit c) cs

def parseInteger (text : Text) : Option ℤ :=
  match takeSign text with
  | (_, []) => none
  | (negative, c :: cs) => (parseDigits 0 (c :: cs)).map (applySign negative)

/-- The loop of `parse_real`: the digits before and after the point alike. -/
def realFrom : ℚ → Bool → Bool → Text → Option ℚ
  | value, digits, dot, [] => if digits && dot then some value else none
  | value, digits, dot, c :: cs =>
    if isDigit c then realFrom (value * 10 + digit c) true dot cs
    else if c = byte '.' ∧ dot = false then realFrom value digits true cs
    else none

def parseReal (text : Text) : Option ℚ :=
  match takeSign text with
  | (negative, cs) => (realFrom 0 false false cs).map fun value => if negative then -value else value

def word (s : List Char) : Text := s.map byte

def kTrue : Text := word ['t', 'r', 'u', 'e']

def kFalse : Text := word ['f', 'a', 'l', 's', 'e']

/-- The literal of a bare value (`Parser::equation`). -/
def literalOf (text : Text) : Literal :=
  match parseInteger text with
  | some n => .integer n
  | none =>
    match parseReal text with
    | some q => .real q
    | none =>
      if text = kTrue then .boolean true
      else if text = kFalse then .boolean false
      else .string text

/-! ## What a text denotes -/

/-- The value denoted: `decimal m k` is the fraction `m / 10 ^ k`. -/
inductive Meaning where
  | integer (n : ℤ)
  | decimal (m : ℤ) (k : ℕ)
  | boolean (b : Bool)
  | string (s : Text)
deriving DecidableEq

def numberFrom (v : ℕ) (cs : Text) : ℕ := cs.foldl (fun v c => v * 10 + digit c) v

def number (cs : Text) : ℕ := numberFrom 0 cs

/-- The digits before the point and those behind it, of a row of digits with one point. -/
def splitPoint (cs : Text) : Option (Text × Text) :=
  match cs.dropWhile isDigit with
  | [] => none
  | c :: frac =>
    if c = byte '.' ∧ (cs.takeWhile isDigit ≠ [] ∨ frac ≠ []) ∧ frac.all isDigit then
      some (cs.takeWhile isDigit, frac)
    else none

/-- What a bare value denotes. -/
def meaning (text : Text) : Meaning :=
  let (negative, body) := takeSign text
  if body ≠ [] ∧ body.all isDigit then
    if -2 ^ 63 ≤ applySign negative (number body) ∧ applySign negative (number body) < 2 ^ 63 then
      .integer (applySign negative (number body))
    else .string text
  else
    match splitPoint body with
    | some (whole, frac) => .decimal (applySign negative (number (whole ++ frac))) frac.length
    | none =>
      if text = kTrue then .boolean true
      else if text = kFalse then .boolean false
      else .string text

/-! ## The loops -/

@[simp] theorem numberFrom_nil (v : ℕ) : numberFrom v [] = v := rfl

@[simp] theorem numberFrom_cons (v : ℕ) (c : UInt8) (cs : Text) :
    numberFrom v (c :: cs) = numberFrom (v * 10 + digit c) cs := rfl

theorem le_numberFrom (v : ℕ) (cs : Text) : v ≤ numberFrom v cs := by
  induction cs generalizing v with
  | nil => exact le_refl v
  | cons c cs ih => exact le_trans (by omega) (ih (v * 10 + digit c))

theorem parseDigits_eq {v : ℕ} (hv : v ≤ kInt64Max) (cs : Text) :
    parseDigits v cs =
      if cs.all isDigit ∧ numberFrom v cs ≤ kInt64Max then some (numberFrom v cs) else none := by
  induction cs generalizing v with
  | nil => simp [parseDigits, hv]
  | cons c cs ih =>
    rw [parseDigits, List.all_cons, numberFrom_cons]
    by_cases hc : isDigit c = true
    · have hd := digit_lt hc
      have hK : kInt64Max = 2 ^ 63 - 1 := rfl
      rw [if_neg (by simp [hc])]
      by_cases hr : (kInt64Max - digit c) / 10 < v
      · have hle := le_numberFrom (v * 10 + digit c) cs
        rw [if_pos hr, if_neg]
        rintro ⟨-, h⟩
        omega
      · rw [if_neg hr, ih (by omega)]
        simp [hc]
    · rw [if_pos (by simpa using hc), if_neg (by simp [hc])]

theorem realFrom_dot (v : ℕ) (digits : Bool) (cs : Text) :
    realFrom v digits true cs =
      if cs.all isDigit ∧ (digits = true ∨ cs ≠ []) then some (numberFrom v cs : ℚ) else none := by
  induction cs generalizing v digits with
  | nil => cases digits <;> simp [realFrom]
  | cons c cs ih =>
    rw [realFrom, List.all_cons, numberFrom_cons]
    by_cases hc : isDigit c = true
    · have hcast : (v : ℚ) * 10 + digit c = ((v * 10 + digit c : ℕ) : ℚ) := by push_cast; ring
      rw [if_pos hc, hcast, ih]
      simp [hc]
    · rw [if_neg hc, if_neg (by simp), if_neg (by simp [hc])]

theorem realFrom_eq (v : ℕ) (digits : Bool) (cs : Text) :
    realFrom v digits false cs =
      match cs.dropWhile isDigit with
      | [] => none
      | c :: frac =>
        if c = byte '.' ∧ frac.all isDigit ∧ (digits = true ∨ cs.takeWhile isDigit ≠ [] ∨ frac ≠ []) then
          some (numberFrom v (cs.takeWhile isDigit ++ frac) : ℚ)
        else none := by
  induction cs generalizing v digits with
  | nil => simp [realFrom]
  | cons c cs ih =>
    rw [realFrom]
    by_cases hc : isDigit c = true
    · have hcast : (v : ℚ) * 10 + digit c = ((v * 10 + digit c : ℕ) : ℚ) := by push_cast; ring
      rw [if_pos hc, hcast, ih, List.dropWhile_cons_of_pos hc, List.takeWhile_cons_of_pos hc]
      simp
    · rw [if_neg hc, List.dropWhile_cons_of_neg hc, List.takeWhile_cons_of_neg hc]
      by_cases hp : c = byte '.'
      · rw [if_pos ⟨hp, rfl⟩, realFrom_dot]
        simp [hp]
      · rw [if_neg (by simp [hp])]
        simp [hp]

/-! ## The literal of a text -/

section
variable {text body : Text} {negative : Bool}

theorem parseInteger_eq (h : takeSign text = (negative, body)) :
    parseInteger text = if body ≠ [] ∧ body.all isDigit ∧ number body ≤ kInt64Max then
      some (applySign negative (number body)) else none := by
  rw [parseInteger, h]
  cases body with
  | nil => simp
  | cons c cs =>
    dsimp only
    rw [parseDigits_eq (Nat.zero_le _)]
    by_cases hd : (c :: cs).all isDigit ∧ numberFrom 0 (c :: cs) ≤ kInt64Max
    · rw [if_pos hd, if_pos ⟨by simp, hd⟩]
      rfl
    · rw [if_neg hd, if_neg fun h => hd h.2]
      rfl

theorem parseReal_eq (h : takeSign text = (negative, body)) :
    parseReal text = (splitPoint body).map fun p => (applySign negative (number (p.1 ++ p.2)) : ℚ) := by
  have hzero := realFrom_eq 0 false body
  rw [Nat.cast_zero] at hzero
  rw [parseReal, h]
  dsimp only
  rw [hzero, splitPoint]
  rcases body.dropWhile isDigit with _ | ⟨c, frac⟩
  · rfl
  · dsimp only
    by_cases hp : c = byte '.' ∧ (body.takeWhile isDigit ≠ [] ∨ frac ≠ []) ∧ frac.all isDigit
    · rw [if_pos hp, if_pos ⟨hp.1, hp.2.2, Or.inr hp.2.1⟩]
      cases negative <;> simp [applySign, number]
    · rw [if_neg hp, if_neg fun h => hp ⟨h.1, h.2.2.resolve_left (by simp), h.2.1⟩]
      rfl

theorem splitPoint_of_all (h : body.all isDigit = true) : splitPoint body = none := by
  rw [splitPoint, List.dropWhile_eq_nil_iff.2 fun c hc => List.all_eq_true.1 h c hc]

theorem not_word_of_all (h : takeSign text = (negative, body)) (hall : body.all isDigit = true) :
    text ≠ kTrue ∧ text ≠ kFalse := by
  constructor
  · rintro rfl
    obtain ⟨-, rfl⟩ := Prod.mk.inj (h.symm.trans (rfl : takeSign kTrue = (false, kTrue)))
    exact absurd hall (by decide)
  · rintro rfl
    obtain ⟨-, rfl⟩ := Prod.mk.inj (h.symm.trans (rfl : takeSign kFalse = (false, kFalse)))
    exact absurd hall (by decide)

/-- **The literal of a bare value.** -/
theorem literalOf_eq (text : Text) :
    literalOf text =
      match meaning text with
      | .integer n => if n = -2 ^ 63 then .string text else .integer n
      | .decimal m _ => .real m
      | .boolean b => .boolean b
      | .string s => .string s := by
  rcases hs : takeSign text with ⟨negative, body⟩
  rw [literalOf, parseInteger_eq hs, parseReal_eq hs, meaning, hs]
  dsimp only
  by_cases hall : body.all isDigit = true
  · rw [splitPoint_of_all hall]
    by_cases hne : body = []
    · have h₁ : ¬ (body ≠ [] ∧ body.all isDigit = true ∧ number body ≤ kInt64Max) := fun h => h.1 hne
      have h₂ : ¬ (body ≠ [] ∧ body.all isDigit = true) := fun h => h.1 hne
      rw [if_neg h₁, if_neg h₂]
      dsimp only [Option.map_none]
      split_ifs <;> rfl
    · obtain ⟨h₁, h₂⟩ := not_word_of_all hs hall
      have hK : kInt64Max = 2 ^ 63 - 1 := rfl
      rw [if_pos (⟨hne, hall⟩ : body ≠ [] ∧ body.all isDigit = true)]
      by_cases hr : number body ≤ kInt64Max
      · have hlo : -2 ^ 63 < applySign negative (number body) := by
          rw [applySign]; split <;> omega
        have hhi : applySign negative (number body) < 2 ^ 63 := by
          rw [applySign]; split <;> omega
        have h₃ : body ≠ [] ∧ body.all isDigit = true ∧ number body ≤ kInt64Max := ⟨hne, hall, hr⟩
        have hrange : -2 ^ 63 ≤ applySign negative (number body) ∧ applySign negative (number body) < 2 ^ 63 :=
          ⟨hlo.le, hhi⟩
        rw [if_pos h₃, if_pos hrange]
        dsimp only
        rw [if_neg hlo.ne']
      · have h₃ : ¬ (body ≠ [] ∧ body.all isDigit = true ∧ number body ≤ kInt64Max) := fun h => hr h.2.2
        rw [if_neg h₃]
        dsimp only [Option.map_none]
        rw [if_neg h₁, if_neg h₂]
        -- behind the largest number: the least one, or out of range
        by_cases hrange : -2 ^ 63 ≤ applySign negative (number body) ∧ applySign negative (number body) < 2 ^ 63
        · rw [if_pos hrange]
          dsimp only
          rw [if_pos]
          cases negative
          · have : applySign false (number body) = number body := rfl
            omega
          · have : applySign true (number body) = -number body := rfl
            omega
        · rw [if_neg hrange]
  · have h₁ : ¬ (body ≠ [] ∧ body.all isDigit = true ∧ number body ≤ kInt64Max) := fun h => hall h.2.1
    have h₂ : ¬ (body ≠ [] ∧ body.all isDigit = true) := fun h => hall h.2
    rw [if_neg h₁, if_neg h₂]
    rcases splitPoint body with _ | ⟨whole, frac⟩
    · dsimp only [Option.map_none]
      split_ifs <;> rfl
    · rfl

end

end Aegir.Query
