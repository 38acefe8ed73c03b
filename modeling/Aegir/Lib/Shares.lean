/-
  Values that fill places in order, where a place may take several.

  `fill` goes through the values: a place takes one, and a place of several goes on while there
  are more values left than places after it.

  * `fill_eq_shares`: with one place of several, it takes all values but one for each place
    after it, and the first in any case (`shares`);
  * `fill_filter`: places that no value comes to may be left out;
  * `fill_reaches`, `fill_mem`, `fill_once`: which places get a value, and how often.
-/
import Mathlib

namespace Aegir.Lib

variable {α β : Type} (several : α → Bool)

def fill : List α → List β → List (α × β)
  | _, [] => []
  | [], _ :: _ => []
  | x :: xs, v :: vs => (x, v) :: fill (if several x && decide (xs.length < vs.length) then x :: xs else xs) vs

/-- The places before the one of several take a value each, and so do those after it, of what it
    leaves. -/
def shares (xs : List α) (vs : List β) : List (α × β) :=
  let before := xs.takeWhile fun x => !several x
  match xs.dropWhile fun x => !several x with
  | [] => before.zip vs
  | x :: after =>
    let left := vs.drop before.length
    let many := max 1 (left.length - after.length)
    before.zip vs ++ ((left.take many).map (x, ·) ++ after.zip (left.drop many))

variable {several} {x : α} {xs : List α} {vs : List β}

@[simp] theorem fill_nil_right (xs : List α) : fill several xs ([] : List β) = [] := by
  cases xs <;> rfl

theorem fill_cons_one (h : several x = false) (xs : List α) (v : β) (vs : List β) :
    fill several (x :: xs) (v :: vs) = (x, v) :: fill several xs vs := by
  rw [fill, h]
  rfl

theorem fill_cons_last (h : vs.length ≤ xs.length) (v : β) :
    fill several (x :: xs) (v :: vs) = (x, v) :: fill several xs vs := by
  rw [fill, decide_eq_false (Nat.not_lt_of_ge h), Bool.and_false]
  rfl

theorem fill_cons_more (hx : several x = true) (h : xs.length < vs.length) (v : β) :
    fill several (x :: xs) (v :: vs) = (x, v) :: fill several (x :: xs) vs := by
  rw [fill, hx, decide_eq_true h]
  rfl

/-! ## One place of several -/

theorem fill_eq_zip (h : ∀ x ∈ xs, several x = false) (vs : List β) : fill several xs vs = xs.zip vs := by
  induction vs generalizing xs with
  | nil => rw [fill_nil_right, List.zip_nil_right]
  | cons v vs ih =>
    cases xs with
    | nil => rfl
    | cons x xs =>
      rw [fill_cons_one (h x List.mem_cons_self), ih fun y hy => h y (List.mem_cons_of_mem _ hy),
        List.zip_cons_cons]

/-- The place of several, and those after it. -/
theorem fill_several (hx : several x = true) (hxs : ∀ y ∈ xs, several y = false) (vs : List β) :
    fill several (x :: xs) vs = (vs.take (max 1 (vs.length - xs.length))).map (x, ·) ++
      xs.zip (vs.drop (max 1 (vs.length - xs.length))) := by
  induction vs with
  | nil => simp
  | cons v vs ih =>
    rcases Nat.lt_or_ge xs.length vs.length with hlt | hge
    · have hmany : max 1 ((v :: vs).length - xs.length) = max 1 (vs.length - xs.length) + 1 := by
        rw [List.length_cons]
        omega
      rw [fill_cons_more hx hlt, ih, hmany, List.take_succ_cons, List.drop_succ_cons, List.map_cons, List.cons_append]
    · have hmany : max 1 ((v :: vs).length - xs.length) = 1 := by
        rw [List.length_cons]
        omega
      rw [fill_cons_last hge, fill_eq_zip hxs, hmany]
      simp

theorem fill_eq_shares (h : (xs.filter several).length ≤ 1) (vs : List β) :
    fill several xs vs = shares several xs vs := by
  induction xs generalizing vs with
  | nil => cases vs <;> rfl
  | cons x xs ih =>
    cases hx : several x with
    | true =>
      have hxs : ∀ y ∈ xs, several y = false := by
        rw [List.filter_cons_of_pos hx, List.length_cons] at h
        have hnil : xs.filter several = [] := List.eq_nil_of_length_eq_zero (by omega)
        simpa using List.filter_eq_nil_iff.1 hnil
      rw [fill_several hx hxs]
      simp [shares, hx]
    | false =>
      rw [List.filter_cons_of_neg (by simp [hx])] at h
      cases vs with
      | nil =>
        rw [fill_nil_right]
        unfold shares
        split <;> simp
      | cons v vs =>
        rw [fill_cons_one hx, ih h]
        simp only [shares, hx, List.takeWhile_cons, List.dropWhile_cons, Bool.not_false, if_true]
        split <;> simp

/-! ## Which places get a value -/

theorem fill_mem {p : α × β} (h : p ∈ fill several xs vs) : ∃ i < vs.length, xs[i]? = some p.1 := by
  induction vs generalizing xs with
  | nil => simp at h
  | cons v vs ih =>
    cases xs with
    | nil => cases h
    | cons x xs =>
      rw [fill] at h
      rcases List.mem_cons.1 h with rfl | h
      · exact ⟨0, Nat.succ_pos _, rfl⟩
      · split_ifs at h
        · obtain ⟨i, hi, hx⟩ := ih h
          exact ⟨i, Nat.lt_succ_of_lt hi, hx⟩
        · obtain ⟨i, hi, hx⟩ := ih h
          exact ⟨i + 1, Nat.succ_lt_succ hi, hx⟩

theorem fill_reaches {i : ℕ} (hi : i < vs.length) (hx : xs[i]? = some x) : ∃ v, (x, v) ∈ fill several xs vs := by
  induction vs generalizing xs i with
  | nil => cases hi
  | cons v vs ih =>
    cases xs with
    | nil => simp at hx
    | cons y xs =>
      cases i with
      | zero =>
        obtain rfl : y = x := by simpa using hx
        exact ⟨v, List.mem_cons_self⟩
      | succ i =>
        rw [List.getElem?_cons_succ] at hx
        rw [List.length_cons] at hi
        rw [fill]
        split_ifs with hmore
        · have hlen : i < xs.length := (List.getElem?_eq_some_iff.1 hx).1
          have hlt : xs.length < vs.length := by
            rw [Bool.and_eq_true, decide_eq_true_eq] at hmore
            exact hmore.2
          have hi' : i + 1 < vs.length := by omega
          obtain ⟨w, hw⟩ := @ih (y :: xs) (i + 1) hi' (by rwa [List.getElem?_cons_succ])
          exact ⟨w, List.mem_cons_of_mem _ hw⟩
        · obtain ⟨w, hw⟩ := ih (Nat.lt_of_succ_lt_succ hi) hx
          exact ⟨w, List.mem_cons_of_mem _ hw⟩

theorem fill_fst_mem {p : α × β} (h : p ∈ fill several xs vs) : p.1 ∈ xs := by
  obtain ⟨i, -, hi⟩ := fill_mem h
  exact List.mem_of_getElem? hi

/-- A place of one value gets one. -/
theorem fill_once [DecidableEq α] (hnodup : xs.Nodup) (hx : several x = false) (vs : List β) :
    (fill several xs vs).countP (·.1 = x) ≤ 1 := by
  induction vs generalizing xs with
  | nil => simp
  | cons v vs ih =>
    cases xs with
    | nil => simp [fill]
    | cons y xs =>
      rw [fill]
      by_cases hy : y = x
      · subst hy
        rw [hx, Bool.false_and, if_neg Bool.false_ne_true, List.countP_cons_of_pos (by simp)]
        have hnone : (fill several xs vs).countP (·.1 = y) = 0 := by
          refine List.countP_eq_zero.2 fun p hp => ?_
          have hmem := fill_fst_mem hp
          have hne : p.1 ≠ y := fun he => (List.nodup_cons.1 hnodup).1 (he ▸ hmem)
          simpa using hne
        rw [hnone]
      · rw [List.countP_cons_of_neg (by simpa using hy)]
        split_ifs
        · exact ih hnodup
        · exact ih (List.nodup_cons.1 hnodup).2

/-! ## Places left out -/

/-- Places that no value comes to may be left out. -/
theorem fill_filter (keep : α → Bool) (h : ∀ i < vs.length, ∀ x, xs[i]? = some x → keep x = true) :
    fill several (xs.filter keep) vs = fill several xs vs := by
  induction vs generalizing xs with
  | nil => rw [fill_nil_right, fill_nil_right]
  | cons v vs ih =>
    cases xs with
    | nil => rfl
    | cons x xs =>
      have hxs : ∀ i < vs.length, ∀ y, xs[i]? = some y → keep y = true := fun i hi y hy =>
        h (i + 1) (Nat.succ_lt_succ hi) y (by rwa [List.getElem?_cons_succ])
      rw [List.filter_cons_of_pos (h 0 (Nat.succ_pos _) x rfl)]
      rcases Nat.lt_or_ge xs.length vs.length with hlt | hge
      · -- every place gets its turn, and none is left out
        have hall : xs.filter keep = xs := List.filter_eq_self.2 fun y hy => by
          obtain ⟨i, hi, hget⟩ := List.getElem_of_mem hy
          exact hxs i (by omega) y (by rw [List.getElem?_eq_getElem hi, hget])
        rw [hall]
      · have hfirst : (xs.take vs.length).filter keep = xs.take vs.length :=
          List.filter_eq_self.2 fun y hy => by
            obtain ⟨i, hi, hget⟩ := List.getElem_of_mem hy
            rw [List.length_take] at hi
            rw [List.getElem_take] at hget
            exact hxs i (by omega) y (by rw [List.getElem?_eq_getElem (by omega), hget])
        have hlen : vs.length ≤ (xs.filter keep).length := by
          have hle := ((List.take_sublist vs.length xs).filter keep).length_le
          rw [hfirst, List.length_take, Nat.min_eq_left hge] at hle
          exact hle
        rw [fill_cons_last hlen, fill_cons_last hge, ih hxs]

end Aegir.Lib
