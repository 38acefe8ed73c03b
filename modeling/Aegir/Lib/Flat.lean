/-
  Rows laid end to end in one array.

  Row `i` begins at `offset rows i`, the length of the rows before it; `flat rows n` is what the
  array holds of the first `n`.  `Holds array l`: the array's first places are `l`.
-/
import Mathlib

namespace Aegir.Lib

variable {α β : Type} {rows : ℕ → List α} {n i j : ℕ} {a : α}

def flat (rows : ℕ → List α) (n : ℕ) : List α := (List.range n).flatMap rows

def offset (rows : ℕ → List α) (n : ℕ) : ℕ := (flat rows n).length

@[simp] theorem flat_zero : flat rows 0 = [] := rfl

theorem flat_succ : flat rows (n + 1) = flat rows n ++ rows n := by
  simp [flat, List.range_succ, List.flatMap_append]

@[simp] theorem offset_zero : offset rows 0 = 0 := rfl

theorem offset_succ : offset rows (n + 1) = offset rows n + (rows n).length := by
  simp [offset, flat_succ]

theorem mem_flat : a ∈ flat rows n ↔ ∃ i < n, a ∈ rows i := by
  simp [flat]

theorem flat_below (h : i ≤ n) : flat rows i <+: flat rows n := by
  induction h with
  | refl => exact List.prefix_rfl
  | step _ ih =>
    rw [flat_succ]
    exact ih.trans (List.prefix_append _ _)

/-- Place `j` of row `i`. -/
theorem getElem?_flat (h : i < n) (hj : j < (rows i).length) : (flat rows n)[offset rows i + j]? = (rows i)[j]? := by
  obtain ⟨rest, hrest⟩ := (flat_below (show i + 1 ≤ n from h) : flat rows (i + 1) <+: flat rows n)
  rw [← hrest, flat_succ, List.append_assoc, offset, List.getElem?_append_right (by omega),
    List.getElem?_append_left (by omega), Nat.add_sub_cancel_left]

/-! A row begun: the rows before row `i`, and the first `j` of its places. -/

theorem flat_begun (h : i < n) : flat rows i ++ (rows i).take j <+: flat rows n := by
  refine List.IsPrefix.trans ?_ (flat_below (show i + 1 ≤ n from h))
  rw [flat_succ]
  exact (List.prefix_append_right_inj _).2 (List.take_prefix _ _)

theorem length_flat_take (hj : j ≤ (rows i).length) : (flat rows i ++ (rows i).take j).length = offset rows i + j := by
  rw [List.length_append, List.length_take, Nat.min_eq_left hj, offset]

theorem flat_take_succ (hj : (rows i)[j]? = some a) :
    flat rows i ++ (rows i).take (j + 1) = flat rows i ++ (rows i).take j ++ [a] := by
  rw [List.take_add_one, hj, List.append_assoc]
  rfl

theorem flat_take_all (hj : (rows i).length = j) : flat rows i ++ (rows i).take j = flat rows (i + 1) := by
  rw [← hj, List.take_length, flat_succ]

theorem offset_map (f : ℕ → α → β) : offset (fun i => (rows i).map (f i)) n = offset rows n := by
  induction n with
  | zero => rfl
  | succ n ih => rw [offset_succ, offset_succ, ih, List.length_map]

/-! ## Arrays -/

def Holds (array : ℕ → α) (l : List α) : Prop := ∀ p a, l[p]? = some a → array p = a

variable {array array' : ℕ → α} {l l' : List α}

theorem Holds.nil : Holds array [] := fun _ _ h => by simp at h

theorem Holds.row (h : Holds array (flat rows n)) (hi : i < n) (hj : (rows i)[j]? = some a) :
    array (offset rows i + j) = a :=
  h _ _ ((getElem?_flat hi (List.getElem?_eq_some_iff.1 hj).1).trans hj)

/-- An array kept on what it held and written past it. -/
theorem Holds.append (h : Holds array l) (hkept : ∀ p < l.length, array' p = array p)
    (hnew : ∀ j a, l'[j]? = some a → array' (l.length + j) = a) : Holds array' (l ++ l') := by
  intro p a hp
  by_cases hlt : p < l.length
  · rw [List.getElem?_append_left hlt] at hp
    rw [hkept p hlt]
    exact h p a hp
  · rw [List.getElem?_append_right (by omega)] at hp
    have hwritten := hnew _ _ hp
    rwa [Nat.add_sub_cancel' (by omega)] at hwritten

/-- One more place written. -/
theorem Holds.snoc (h : Holds array l) (a : α) : Holds (Function.update array l.length a) (l ++ [a]) := by
  refine h.append (fun p hp => Function.update_of_ne (by omega) _ _) fun j b hj => ?_
  obtain ⟨rfl, rfl⟩ : j = 0 ∧ a = b := by
    cases j with
    | zero => exact ⟨rfl, Option.some.inj hj⟩
    | succ j => simp at hj
  exact Function.update_self _ _ _

/-- The next place of a row written. -/
theorem Holds.place (h : Holds array (flat rows i ++ (rows i).take j)) (hj : (rows i)[j]? = some a) :
    Holds (Function.update array (offset rows i + j) a) (flat rows i ++ (rows i).take (j + 1)) := by
  rw [flat_take_succ hj, ← length_flat_take (Nat.le_of_lt (List.getElem?_eq_some_iff.1 hj).1)]
  exact h.snoc a

end Aegir.Lib
