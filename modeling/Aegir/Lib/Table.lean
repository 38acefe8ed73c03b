/-
  Tables kept dense: a row is removed by moving the last one into its place.
-/
import Mathlib

namespace Aegir.Lib

variable {α β : Type} {l : List α} {l' : List β} {i j : ℕ} {a b : α}

/-- The last row in the place of row `i`. -/
def swapRemove (l : List α) (i : ℕ) : List α :=
  match l.getLast? with
  | none => []
  | some a => (l.set i a).dropLast

@[simp] theorem length_swapRemove : (swapRemove l i).length = l.length - 1 := by
  rcases List.eq_nil_or_concat l with rfl | ⟨l, a, rfl⟩
  · rfl
  · simp [swapRemove]

theorem swapRemove_append (l : List α) (a : α) (i : ℕ) : swapRemove (l ++ [a]) i = ((l ++ [a]).set i a).dropLast := by
  rw [swapRemove, List.getLast?_append, List.getLast?_singleton, Option.some_or]

theorem swapRemove_concat (l : List α) (a : α) (h : i < l.length) : swapRemove (l ++ [a]) i = l.set i a := by
  rw [swapRemove_append, List.set_append_left _ _ h]
  exact List.dropLast_concat

theorem swapRemove_concat_last (l : List α) (a : α) : swapRemove (l ++ [a]) l.length = l := by
  rw [swapRemove_append, List.set_append_right _ _ (Nat.le_refl _), Nat.sub_self, List.set_cons_zero]
  exact List.dropLast_concat

theorem map_swapRemove (f : α → β) (l : List α) (i : ℕ) : (swapRemove l i).map f = swapRemove (l.map f) i := by
  rcases List.eq_nil_or_concat l with rfl | ⟨l, a, rfl⟩
  · rfl
  · rw [List.concat_eq_append, List.map_append, List.map_singleton, swapRemove_append, swapRemove_append,
      List.map_dropLast, List.map_set, List.map_append, List.map_singleton]

/-- What a row set in a table replaces. -/
theorem set_perm (h : l[i]? = some a) (b : α) : (a :: l.set i b).Perm (b :: l) := by
  obtain ⟨hi, rfl⟩ := List.getElem?_eq_some_iff.1 h
  refine ((List.set_perm_cons_eraseIdx hi b).cons _).trans ((List.Perm.swap _ _ _).trans ?_)
  exact (List.getElem_cons_eraseIdx_perm hi).cons b

/-- **What is left** of a table and the row removed are its rows. -/
theorem swapRemove_perm (h : l[i]? = some a) : (a :: swapRemove l i).Perm l := by
  rcases List.eq_nil_or_concat l with rfl | ⟨l, b, rfl⟩
  · cases h
  rw [List.concat_eq_append] at *
  have hlt : i < l.length + 1 := by
    have hlt := (List.getElem?_eq_some_iff.1 h).1
    rwa [List.length_append, List.length_singleton] at hlt
  rcases Nat.lt_or_eq_of_le (Nat.le_of_lt_succ hlt) with hlt | rfl
  · rw [swapRemove_concat l b hlt]
    rw [List.getElem?_append_left hlt] at h
    exact (set_perm h b).trans (List.perm_append_singleton b l).symm
  · rw [swapRemove_concat_last]
    rw [List.getElem?_append_right (Nat.le_refl _), Nat.sub_self] at h
    obtain rfl : b = a := Option.some.inj h
    exact (List.perm_append_singleton b l).symm

theorem zip_set (l : List α) (l' : List β) (i : ℕ) (a : α) (b : β) :
    (l.set i a).zip (l'.set i b) = (l.zip l').set i (a, b) := by
  induction l generalizing l' i with
  | nil => simp
  | cons c l ih =>
    cases l' with
    | nil => simp
    | cons d l' =>
      cases i with
      | zero => rfl
      | succ i => exact congrArg ((c, d) :: ·) (ih l' i)

theorem zip_swapRemove (h : l.length = l'.length) (hi : i < l.length) :
    (swapRemove l i).zip (swapRemove l' i) = swapRemove (l.zip l') i := by
  rcases List.eq_nil_or_concat l with rfl | ⟨l, a, rfl⟩
  · exact absurd hi (Nat.not_lt_zero _)
  rcases List.eq_nil_or_concat l' with rfl | ⟨l', b, rfl⟩
  · exact absurd h (by simp)
  rw [List.concat_eq_append] at *
  rw [List.concat_eq_append] at *
  have hlen : l.length = l'.length := by simpa using h
  have hzip : (l ++ [a]).zip (l' ++ [b]) = l.zip l' ++ [(a, b)] := List.zip_append hlen
  have hziplen : (l.zip l').length = l.length := by rw [List.length_zip, ← hlen, Nat.min_self]
  have hlt : i < l.length + 1 := by simpa using hi
  rw [hzip]
  rcases Nat.lt_or_eq_of_le (Nat.le_of_lt_succ hlt) with hlt | rfl
  · rw [swapRemove_concat l a hlt, swapRemove_concat l' b (hlen ▸ hlt), swapRemove_concat _ _ (hziplen.symm ▸ hlt)]
    exact zip_set l l' i a b
  · have hlast := swapRemove_concat_last (l.zip l') (a, b)
    rw [hziplen] at hlast
    rw [swapRemove_concat_last, hlast, hlen, swapRemove_concat_last]

/-- An array's live part after the last live row was moved and its place cleared. -/
theorem take_set_set {n : ℕ} {c : α} (hn : n < l.length) (hl : l[n]? = some a) (hi : i ≤ n) :
    ((l.set i a).set n c).take n = swapRemove (l.take (n + 1)) i := by
  have htake : l.take (n + 1) = l.take n ++ [a] := by
    rw [List.take_add_one, hl]
    rfl
  have hlen : (l.take n).length = n := List.length_take_of_le (Nat.le_of_lt hn)
  rw [htake, List.take_set, List.set_eq_of_length_le (by simp), List.take_set]
  rcases Nat.lt_or_eq_of_le hi with hlt | rfl
  · rw [swapRemove_concat _ _ (hlen.symm ▸ hlt)]
  · have hlast := swapRemove_concat_last (l.take i) a
    rw [hlen] at hlast
    rw [hlast, List.set_eq_of_length_le (by simp)]

end Aegir.Lib
