/-
  A pool of numbered slots over a bitmap, whose set bits are the slots taken.

  `clear base bits` lists the free slots: those of clear bits, numbered from `base` on.

  * `clear_take`, `clear_give`: a bit set takes its slot out of the free ones, a bit cleared
    puts it back, up to order;
  * `first_clear`: what a search for the first clear bit finds.
-/
import Mathlib

namespace Aegir.Lib.Pool

variable {base i a : ℕ} {bits : List Bool}

def clear : ℕ → List Bool → List ℕ
  | _, [] => []
  | base, true :: bits => clear (base + 1) bits
  | base, false :: bits => base :: clear (base + 1) bits

@[simp] theorem clear_nil : clear base [] = [] := rfl

theorem clear_replicate (n base : ℕ) : clear base (List.replicate n false) = List.range' base n := by
  induction n generalizing base with
  | zero => rfl
  | succ n ih => rw [List.replicate_succ, clear, ih, List.range'_succ]

theorem mem_clear : a ∈ clear base bits ↔ ∃ i, a = base + i ∧ bits[i]? = some false := by
  induction bits generalizing base with
  | nil => simp
  | cons b bits ih =>
    have hsucc : (∃ i, a = base + 1 + i ∧ bits[i]? = some false) ↔
        ∃ i, a = base + (i + 1) ∧ (b :: bits)[i + 1]? = some false := by
      simp only [List.getElem?_cons_succ, Nat.add_assoc, Nat.add_comm 1]
    have hsplit : (∃ i, a = base + i ∧ (b :: bits)[i]? = some false) ↔
        (a = base ∧ b = false) ∨ ∃ i, a = base + (i + 1) ∧ (b :: bits)[i + 1]? = some false := by
      constructor
      · rintro ⟨i, ha, hi⟩
        cases i with
        | zero => exact Or.inl ⟨ha, Option.some.inj hi⟩
        | succ i => exact Or.inr ⟨i, ha, hi⟩
      · rintro (⟨rfl, rfl⟩ | ⟨i, ha, hi⟩)
        · exact ⟨0, rfl, rfl⟩
        · exact ⟨i + 1, ha, hi⟩
    rw [hsplit, ← hsucc, ← ih]
    cases b with
    | true => simp [clear]
    | false => simp [clear]

/-- A bit set takes its slot. -/
theorem clear_take (h : bits[i]? = some false) : (clear base bits).Perm ((base + i) :: clear base (bits.set i true)) := by
  induction bits generalizing base i with
  | nil => cases h
  | cons b bits ih =>
    cases i with
    | zero =>
      obtain rfl : b = false := Option.some.inj h
      exact List.Perm.refl _
    | succ i =>
      have hi : (clear (base + 1) bits).Perm ((base + 1 + i) :: clear (base + 1) (bits.set i true)) := ih h
      rw [Nat.add_assoc, Nat.add_comm 1] at hi
      cases b with
      | true => exact hi
      | false => exact (hi.cons base).trans (List.Perm.swap _ _ _)

/-- A bit cleared gives its slot back. -/
theorem clear_give (h : bits[i]? = some true) : (clear base (bits.set i false)).Perm ((base + i) :: clear base bits) := by
  have hi : i < bits.length := by
    obtain ⟨hi, -⟩ := List.getElem?_eq_some_iff.1 h
    exact hi
  have hback : (bits.set i false).set i true = bits := by
    rw [List.set_set]
    refine List.ext_getElem? fun j => ?_
    rcases eq_or_ne i j with rfl | hj
    · rw [List.getElem?_set_self hi, h]
    · rw [List.getElem?_set_ne hj]
  have htake : (clear base (bits.set i false)).Perm ((base + i) :: clear base ((bits.set i false).set i true)) :=
    clear_take (List.getElem?_set_self hi)
  rwa [hback] at htake

/-- The first clear bit, when there is one. -/
theorem first_clear (h : bits.idxOf false < bits.length) : bits[bits.idxOf false]? = some false := by
  rw [List.getElem?_eq_getElem h, List.getElem_idxOf h]

end Aegir.Lib.Pool
