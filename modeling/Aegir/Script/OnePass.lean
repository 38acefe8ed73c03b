/-
  What substitution promises of the values, for every line, every argument and every alias.
-/
import Aegir.Lib.Fuel
import Aegir.Script.Pieces

namespace Aegir.Script

open Aegir.Lib (Atom Settles)

/-! ## Numbers -/

def number (name : Text) : ℕ := name.foldl (fun n c => n * 10 + (c.toNat - '0'.toNat)) 0

theorem parameterIndex_eq (name : Text) : parameterIndex name = number name % 2 ^ 64 := by
  show name.foldl _ (0 % 2 ^ 64) = _
  refine List.foldl_hom (· % 2 ^ 64) fun n c => ?_
  rw [Nat.add_mod, Nat.mod_mul_mod, ← Nat.add_mod]

namespace Arguments

variable (arguments : Arguments)

theorem parameter_large {n : ℕ} (h : 2 ^ 64 ≤ n) : arguments.parameter n = [] := by
  have hsize := arguments.size_lt
  rw [parameter, if_neg (by omega), List.getElem?_eq_none (by omega)]
  rfl

/-- A number is its own in 64 bits, or there is nothing where it comes to. -/
def Fits (n : ℕ) : Prop := n < 2 ^ 64 ∨ arguments.parameter (n % 2 ^ 64) = []

theorem parameter_mod_iff (n : ℕ) :
    arguments.parameter (n % 2 ^ 64) = arguments.parameter n ↔ arguments.Fits n := by
  rcases Nat.lt_or_ge n (2 ^ 64) with hlt | hge
  · simp only [Fits, hlt, true_or, Nat.mod_eq_of_lt hlt]
  · simp only [Fits, arguments.parameter_large hge, Nat.not_lt_of_ge hge, false_or]

end Arguments

/-! ## Aliases -/

theorem equalsFolded_trans {a b c : Text} (h : equalsFolded b c = true) : equalsFolded a b = equalsFolded a c := by
  rw [equalsFolded, equalsFolded, beq_iff_eq.1 h]

def unmet (aliases : AliasTable) (seen : List Text) : AliasTable :=
  aliases.filter fun entry => !seen.any (equalsFolded · entry.1)

theorem unmet_lt {aliases : AliasTable} {seen : List Text} {line word expanded : Text}
    (h : aliasTurn aliases seen line = some (word, expanded)) :
    (unmet aliases (seen ++ [word])).length < (unmet aliases seen).length := by
  unfold aliasTurn at h
  dsimp only at h
  split at h
  · cases h
  rename_i hstop
  obtain ⟨entry, hfind, he⟩ := Option.map_eq_some_iff.1 h
  obtain rfl := (Prod.mk.inj he).1
  have hsame := List.find?_some hfind
  have hnew : seen.any (equalsFolded · (firstWord line)) = false := by
    rw [not_or, Bool.not_eq_true] at hstop
    exact hstop.2
  have hfilter : unmet aliases (seen ++ [firstWord line]) =
      (unmet aliases seen).filter fun entry => !equalsFolded (firstWord line) entry.1 := by
    rw [unmet, unmet, List.filter_filter]
    refine List.filter_congr fun entry _ => ?_
    simp only [List.any_append, List.any_cons, List.any_nil, Bool.or_false, Bool.not_or, Bool.and_comm]
  rw [hfilter]
  refine List.length_filter_lt_length_iff_exists.2 ⟨entry, List.mem_filter.2 ⟨List.mem_of_find?_eq_some hfind, ?_⟩, ?_⟩
  · simp only [equalsFolded_trans hsame, hnew, Bool.not_false]
  · rw [equalsFolded_trans hsame]
    simp [equalsFolded]

theorem expandFrom_settles (aliases : AliasTable) (seen : List Text) (line : Text) :
    ∃ expanded, Settles (fun turns => expandFrom aliases turns seen line) expanded := by
  induction hn : (unmet aliases seen).length using Nat.strong_induction_on generalizing seen line with
  | _ n ih =>
    cases ht : aliasTurn aliases seen line with
    | none => exact ⟨line, .last fun turns => by rw [expandFrom, ht]⟩
    | some turn =>
      obtain ⟨word, expanded⟩ := turn
      obtain ⟨result, hr⟩ := ih _ (hn ▸ unmet_lt ht) (seen ++ [word]) expanded rfl
      exact ⟨result, .step (fun turns => by rw [expandFrom, ht]) hr⟩

/-! ## One pass -/

section
variable (line : Text) (arguments : Arguments) (environment : Lookup) (aliases : AliasTable)

abbrev fill : Piece Ref → Piece Text := Piece.map fun r => expand arguments environment r.name

structure OnePass : Prop where
  /-- The pieces of the line are found without any value, and the words are made of them. -/
  pass : substituteWords line arguments environment = (piecesFrom line 0).bind fun ps =>
    if inQuotes false ps then .error "unmatched quote"
    else .ok (Atom.words none (atomsFrom false (ps.map (fill arguments environment))))
  /-- The pieces are the whole line, and the references are spelled as such. -/
  copied : ∀ ps, piecesFrom line 0 = .ok ps → ps.flatMap Piece.spelling = line ∧ ∀ r, .ref r ∈ ps → r.Spelled
  /-- Whatever a reference within quotes stands for is in one word, and the rest of the words does
      not depend on it. -/
  grouped : ∀ before r after, piecesFrom line 0 = .ok (before ++ .ref r :: after) → inQuotes false before = true →
    ∃ ws head tail ws', ∀ value, Atom.words none (atomsFrom false (before.map (fill arguments environment) ++
      .ref value :: after.map (fill arguments environment))) = ws ++ (head ++ value ++ tail) :: ws'
  /-- A number is its parameter. -/
  numbered : ∀ ps r, piecesFrom line 0 = .ok ps → .ref r ∈ ps → allDigits r.name = true →
    expand arguments environment r.name = arguments.parameter (number r.name)
  /-- The walk over aliases ends. -/
  ends : ∃ expanded, Settles (fun turns => expandFrom aliases turns [] line) expanded

theorem words_grouped (before after : List (Piece Text)) (h : inQuotes false before = true) :
    ∃ ws head tail ws', ∀ value, Atom.words none (atomsFrom false (before ++ .ref value :: after)) =
      ws ++ (head ++ value ++ tail) :: ws' := by
  obtain ⟨ws, head, tail, ws', hw⟩ := Atom.words_glue none (atomsFrom false before) (atomsFrom true after)
  refine ⟨ws, head, tail, ws', fun value => ?_⟩
  rw [atomsFrom_append, h]
  exact hw value

/-- Substitution keeps its promises on a line exactly when the numbers in it fit. -/
theorem onePass_iff : OnePass line arguments environment aliases ↔
    ∀ ps r, piecesFrom line 0 = .ok ps → .ref r ∈ ps → allDigits r.name = true →
      arguments.Fits (number r.name) := by
  have hvalue : ∀ name, allDigits name = true →
      expand arguments environment name = arguments.parameter (number name % 2 ^ 64) := by
    intro name hd
    rw [expand, if_pos hd, parameterIndex_eq]
  constructor
  · intro h ps r hps hr hd
    rw [← arguments.parameter_mod_iff, ← hvalue _ hd]
    exact h.numbered ps r hps hr hd
  · intro h
    refine ⟨substituteWords_eq line arguments environment, fun ps hps => piecesFrom_spelling hps,
      fun before r after _ hq => words_grouped _ _ ?_, fun ps r hps hr hd => ?_, expandFrom_settles aliases [] line⟩
    · rw [inQuotes_map, hq]
    · rw [hvalue _ hd]
      exact (arguments.parameter_mod_iff _).2 (h ps r hps hr hd)

end

/-! ## A long number -/

/-- `$18446744073709551617`, one more than 64 bits hold and one. -/
def longNumber : Text :=
  ['$', '1', '8', '4', '4', '6', '7', '4', '4', '0', '7', '3', '7', '0', '9', '5', '5', '1', '6', '1', '7']

/-- A script that was run with `a`. -/
def ranWithA : Arguments := ⟨[], [['a']], [], by decide⟩

/-- The long number is the first parameter; there is none of its own. -/
theorem longNumber_wraps :
    substituteWords longNumber ranWithA (fun _ => none) = .ok [['a']] ∧
      ranWithA.parameter (number longNumber.tail) = [] ∧
      ¬ OnePass longNumber ranWithA (fun _ => none) [] := by
  have hpieces : piecesFrom longNumber 0 = .ok [.ref ⟨longNumber, longNumber.tail⟩] := rfl
  refine ⟨rfl, by decide, fun h => ?_⟩
  have := h.numbered _ _ hpieces List.mem_cons_self (by decide)
  exact absurd this (by decide)

end Aegir.Script
