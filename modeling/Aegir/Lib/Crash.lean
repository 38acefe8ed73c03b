/-
  What a crash can leave behind.

  A store is changed by a sequence of events, each applied whole.  A crash
  leaves the store after some prefix of the sequence, so a property survives a
  crash at any point iff it is `Safe`: it holds after every prefix.
-/
import Mathlib

namespace Aegir.Lib

variable {D E : Type} {apply : D → E → D} {P Q : D → Prop} {d : D} {es es' : List E}

/-- `P` holds of the store `d` and after every prefix of the events `es`. -/
def Safe (apply : D → E → D) (P : D → Prop) (d : D) (es : List E) : Prop :=
  ∀ k, P ((es.take k).foldl apply d)

namespace Safe

@[simp] theorem nil_iff : Safe apply P d [] ↔ P d := by simp [Safe]

theorem cons_iff {e : E} : Safe apply P d (e :: es) ↔ P d ∧ Safe apply P (apply d e) es := by
  constructor
  · intro h
    exact ⟨by simpa using h 0, fun k => by simpa using h (k + 1)⟩
  · rintro ⟨h₁, h₂⟩ (_ | k)
    · simpa using h₁
    · simpa using h₂ k

theorem append (h : Safe apply P d es) (h' : Safe apply P (es.foldl apply d) es') :
    Safe apply P d (es ++ es') := by
  induction es generalizing d with
  | nil => exact h'
  | cons e es ih =>
    rw [cons_iff] at h
    exact cons_iff.2 ⟨h.1, ih h.2 h'⟩

theorem last (h : Safe apply P d es) : P (es.foldl apply d) := by simpa using h es.length

theorem mono (h : Safe apply P d es) (hPQ : ∀ d, P d → Q d) : Safe apply Q d es :=
  fun k => hPQ _ (h k)

end Safe

end Aegir.Lib
