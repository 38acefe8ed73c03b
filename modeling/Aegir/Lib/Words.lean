/-
  Words of a text that is read piece by piece.

  `Atom` is what a piece comes to: a separator, or text that is glued to the word that is
  started, and starts one when none is.  An empty text starts a word as well.
-/
import Mathlib

namespace Aegir.Lib

/-- A part of a text: the end of a word, or text of a word. -/
inductive Atom (α : Type) where
  | sep
  | glue (text : List α)

namespace Atom

variable {α : Type}

def words : Option (List α) → List (Atom α) → List (List α)
  | w, [] => w.toList
  | w, .sep :: as => w.toList ++ words none as
  | w, .glue text :: as => words (some (w.getD [] ++ text)) as

theorem words_sep (w : Option (List α)) (as : List (Atom α)) :
    words w (.sep :: as) = w.toList ++ words none as := rfl

theorem words_glue_cons (w : Option (List α)) (text : List α) (as : List (Atom α)) :
    words w (.glue text :: as) = words (some (w.getD [] ++ text)) as := rfl

theorem words_started (as : List (Atom α)) : ∃ tail rest, ∀ t, words (some t) as = (t ++ tail) :: rest := by
  induction as with
  | nil => exact ⟨[], [], fun t => by rw [List.append_nil]; rfl⟩
  | cons a as ih =>
    cases a with
    | sep => exact ⟨[], words none as, fun t => by rw [List.append_nil]; rfl⟩
    | glue text =>
      obtain ⟨tail, rest, h⟩ := ih
      refine ⟨text ++ tail, rest, fun t => ?_⟩
      rw [words_glue_cons, Option.getD_some, h, List.append_assoc]

theorem words_glue (w : Option (List α)) (before after : List (Atom α)) :
    ∃ ws head tail ws', ∀ t, words w (before ++ .glue t :: after) = ws ++ (head ++ t ++ tail) :: ws' := by
  induction before generalizing w with
  | nil =>
    obtain ⟨tail, rest, h⟩ := words_started after
    refine ⟨[], w.getD [], tail, rest, fun t => ?_⟩
    rw [List.nil_append, words_glue_cons, h, List.nil_append]
  | cons a before ih =>
    cases a with
    | sep =>
      obtain ⟨ws, head, tail, ws', h⟩ := ih none
      refine ⟨w.toList ++ ws, head, tail, ws', fun t => ?_⟩
      rw [List.cons_append, words_sep, h, ← List.append_assoc]
    | glue text =>
      obtain ⟨ws, head, tail, ws', h⟩ := ih (some (w.getD [] ++ text))
      exact ⟨ws, head, tail, ws', fun t => by rw [List.cons_append, words_glue_cons, h]⟩

end Atom

end Aegir.Lib
