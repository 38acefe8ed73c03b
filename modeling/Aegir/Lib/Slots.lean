/-
  Lists kept in slots that end at the first empty one, as a directory of block runs
  or a table of descriptors keeps its entries: which list a row of slots holds, what
  setting a slot does to it, and how a row that is laid out over blocks of slots is
  read block by block.

  * `Filled empty slot n l`: the first of the `n` slots hold `l`, the others are empty;
  * `Filled.push`, `Filled.setLast`, `Filled.cut`: the writes that extend, change and
    cut the list;
  * `Filled.block`: the part of the row in one block, and `flatMap_blocks`: the parts
    make up the list again.
-/
import Mathlib

namespace Aegir.Lib

variable {α : Type} {empty : α → Bool} {slot slot' : ℕ → α} {n : ℕ} {l : List α}

/-- The list `l` is in the first of `n` slots, and the slots after it are empty. -/
structure Filled (empty : α → Bool) (slot : ℕ → α) (n : ℕ) (l : List α) : Prop where
  fits : l.length ≤ n
  full : ∀ (i : ℕ) (h : i < l.length), slot i = l[i]
  solid : ∀ a ∈ l, empty a = false
  rest : ∀ i, l.length ≤ i → i < n → empty (slot i) = true

namespace Filled

/-- No slots hold nothing. -/
theorem nil_of_empty (h : ∀ i < n, empty (slot i) = true) : Filled empty slot n [] :=
  ⟨Nat.zero_le n, fun _ hi => absurd hi (Nat.not_lt_zero _), fun _ ha => absurd ha List.not_mem_nil,
    fun i _ hi => h i hi⟩

theorem congr (h : Filled empty slot n l) (hs : ∀ i < n, slot' i = slot i) : Filled empty slot' n l :=
  ⟨h.fits, fun i hi => (hs i (hi.trans_le h.fits)).trans (h.full i hi), h.solid,
    fun i hl hi => by rw [hs i hi]; exact h.rest i hl hi⟩

/-- The first slot holds the first element. -/
theorem head {a : α} (h : Filled empty slot (n + 1) (a :: l)) : slot 0 = a ∧ empty a = false :=
  ⟨h.full 0 (by simp), h.solid a List.mem_cons_self⟩

theorem tail {a : α} (h : Filled empty slot (n + 1) (a :: l)) : Filled empty (fun i => slot (i + 1)) n l :=
  ⟨by simpa using h.fits, fun i hi => h.full (i + 1) (by simpa using hi),
    fun b hb => h.solid b (List.mem_cons_of_mem a hb), fun i hl hi => h.rest (i + 1) (by simpa using hl) (by omega)⟩

theorem cons {a : α} (hat : slot 0 = a) (ha : empty a = false) (h : Filled empty (fun i => slot (i + 1)) n l) :
    Filled empty slot (n + 1) (a :: l) := by
  refine ⟨by simpa using h.fits, fun i hi => ?_, fun b hb => ?_, fun i hl hi => ?_⟩
  · cases i with
    | zero => exact hat
    | succ i => exact h.full i (by simpa using hi)
  · rcases List.mem_cons.mp hb with rfl | hb
    · exact ha
    · exact h.solid b hb
  · obtain ⟨j, rfl⟩ := Nat.exists_eq_succ_of_ne_zero (show i ≠ 0 by rw [List.length_cons] at hl; omega)
    exact h.rest j (by simpa using hl) (by omega)

/-- A first slot that is empty leaves the row empty. -/
theorem nil_cons (hat : empty (slot 0) = true) (h : Filled empty (fun i => slot (i + 1)) n []) :
    Filled empty slot (n + 1) [] :=
  .nil_of_empty fun i hi => by
    cases i with
    | zero => exact hat
    | succ i => exact h.rest i (Nat.zero_le _) (by omega)

theorem map_range (h : Filled empty slot n l) : (List.range l.length).map slot = l := by
  refine List.ext_getElem (by simp) fun i h₁ h₂ => ?_
  rw [List.getElem_map, List.getElem_range, h.full i h₂]

/-- The slots up to the first empty one are the list. -/
theorem takeWhile (h : Filled empty slot n l) :
    ((List.range n).map slot).takeWhile (fun a => !empty a) = l := by
  obtain ⟨k, rfl⟩ := Nat.exists_eq_add_of_le h.fits
  rw [List.range_add, List.map_append, h.map_range,
    List.takeWhile_append_of_pos fun a ha => by rw [h.solid a ha]; rfl]
  cases k with
  | zero => simp
  | succ k =>
    have hr : empty (slot (l.length + 0)) = true := h.rest _ (Nat.le_refl _) (by omega)
    rw [List.range_succ_eq_map, List.map_cons, List.map_cons, List.takeWhile_cons_of_neg (by rw [hr]; simp),
      List.append_nil]

/-- A slot that is not empty holds an element of the list. -/
theorem lt_of_solid (h : Filled empty slot n l) {i : ℕ} (hi : i < n) (hs : empty (slot i) = false) :
    i < l.length := by
  by_contra hc
  rw [h.rest i (by omega) hi] at hs
  cases hs

/-- The first empty slot is set. -/
theorem push (h : Filled empty slot n l) (hl : l.length < n) {a : α} (ha : empty a = false)
    (hat : slot' l.length = a) (hs : ∀ i < n, i ≠ l.length → slot' i = slot i) :
    Filled empty slot' n (l ++ [a]) := by
  refine ⟨by simpa using Nat.succ_le_of_lt hl, fun i hi => ?_, fun b hb => ?_, fun i hi hn => ?_⟩
  · rw [List.length_append, List.length_singleton] at hi
    rcases Nat.lt_or_ge i l.length with hlt | hge
    · rw [hs i (by omega) (by omega), h.full i hlt, List.getElem_append_left hlt]
    · obtain rfl : i = l.length := by omega
      rw [hat, List.getElem_append_right (Nat.le_refl _)]
      simp
  · rcases List.mem_append.mp hb with hb | hb
    · exact h.solid b hb
    · rw [List.mem_singleton.mp hb]; exact ha
  · rw [List.length_append, List.length_singleton] at hi
    rw [hs i hn (by omega)]
    exact h.rest i (by omega) hn

/-- The first empty slots are set, one after the other. -/
theorem extend (h : Filled empty slot n l) {m : List α} (hl : l.length + m.length ≤ n)
    (hm : ∀ a ∈ m, empty a = false)
    (hat : ∀ (i : ℕ) (hi : i < m.length), slot' (l.length + i) = m[i])
    (hs : ∀ i < n, i < l.length ∨ l.length + m.length ≤ i → slot' i = slot i) :
    Filled empty slot' n (l ++ m) := by
  refine ⟨by simpa using hl, fun i hi => ?_, fun b hb => ?_, fun i hi hn => ?_⟩
  · rw [List.length_append] at hi
    rcases Nat.lt_or_ge i l.length with hlt | hge
    · rw [hs i (by omega) (Or.inl hlt), h.full i hlt, List.getElem_append_left hlt]
    · obtain ⟨j, rfl⟩ := Nat.exists_eq_add_of_le hge
      rw [hat j (by omega), List.getElem_append_right hge]
      simp
  · rcases List.mem_append.mp hb with hb | hb
    · exact h.solid b hb
    · exact hm b hb
  · rw [List.length_append] at hi
    rw [hs i hn (Or.inr hi)]
    exact h.rest i (by omega) hn

/-- The last element is changed. -/
theorem setLast (h : Filled empty slot n l) (hl : 0 < l.length) {a : α} (ha : empty a = false)
    (hat : slot' (l.length - 1) = a) (hs : ∀ i < n, i ≠ l.length - 1 → slot' i = slot i) :
    Filled empty slot' n (l.dropLast ++ [a]) := by
  have hlen : (l.dropLast ++ [a]).length = l.length := by simp; omega
  refine ⟨by rw [hlen]; exact h.fits, fun i hi => ?_, fun b hb => ?_, fun i hi hn => ?_⟩
  · rw [hlen] at hi
    have hfits := h.fits
    rcases Nat.lt_or_ge i (l.length - 1) with hlt | hge
    · have hd : i < l.dropLast.length := by rw [List.length_dropLast]; exact hlt
      rw [hs i (by omega) (by omega), h.full i hi, List.getElem_append_left hd, List.getElem_dropLast]
    · obtain rfl : i = l.length - 1 := by omega
      rw [hat, List.getElem_append_right (by simp)]
      simp
  · rcases List.mem_append.mp hb with hb | hb
    · exact h.solid b (List.dropLast_subset _ hb)
    · rw [List.mem_singleton.mp hb]; exact ha
  · rw [hlen] at hi
    rw [hs i hn (by omega)]
    exact h.rest i hi hn

/-- The part of a row in the `b`th block of `k` slots. -/
theorem block {m k : ℕ} (h : Filled empty slot (m * k) l) {b : ℕ} (hb : b < m) :
    Filled empty (fun j => slot (b * k + j)) k ((l.drop (b * k)).take k) := by
  have hbk : b * k + k ≤ m * k := by
    rw [← Nat.succ_mul]; exact Nat.mul_le_mul_right k hb
  refine ⟨by rw [List.length_take]; omega, fun i hi => ?_,
    fun a ha => h.solid a (List.mem_of_mem_drop (List.mem_of_mem_take ha)), fun i hi hn => ?_⟩
  · rw [List.length_take, List.length_drop] at hi
    rw [List.getElem_take, List.getElem_drop]
    exact h.full _ (by omega)
  · rw [List.length_take, List.length_drop] at hi
    exact h.rest _ (by omega) (by omega)

/-- A row cut after `a` slots. -/
theorem split {a b : ℕ} (h : Filled empty slot (a + b) l) :
    Filled empty slot a (l.take a) ∧ Filled empty (fun i => slot (a + i)) b (l.drop a) := by
  have hfits := h.fits
  refine ⟨⟨by rw [List.length_take]; omega, fun i hi => ?_, fun c hc => h.solid c (List.mem_of_mem_take hc),
    fun i hl hi => ?_⟩, ⟨by rw [List.length_drop]; omega, fun i hi => ?_,
    fun c hc => h.solid c (List.mem_of_mem_drop hc), fun i hl hi => ?_⟩⟩
  · rw [List.length_take] at hi
    rw [List.getElem_take]
    exact h.full i (by omega)
  · rw [List.length_take] at hl
    exact h.rest i (by omega) (by omega)
  · rw [List.length_drop] at hi
    rw [List.getElem_drop]
    exact h.full _ (by omega)
  · rw [List.length_drop] at hl
    exact h.rest _ (by omega) (by omega)

/-- Two rows one after the other, the first full unless the second is empty. -/
theorem concat {a b : ℕ} {m : List α} (h : Filled empty slot a l) (h' : Filled empty (fun i => slot (a + i)) b m)
    (hf : l.length = a ∨ m = []) : Filled empty slot (a + b) (l ++ m) := by
  have hfits := h.fits
  have hfits' := h'.fits
  refine ⟨by rw [List.length_append]; omega, fun i hi => ?_, fun c hc => ?_, fun i hl hi => ?_⟩
  · rw [List.length_append] at hi
    rcases Nat.lt_or_ge i l.length with hlt | hge
    · rw [List.getElem_append_left hlt]
      exact h.full i hlt
    · rcases hf with rfl | rfl
      · obtain ⟨j, rfl⟩ := Nat.exists_eq_add_of_le hge
        rw [List.getElem_append_right hge]
        simp only [Nat.add_sub_cancel_left]
        exact h'.full j (by omega)
      · simp at hi; omega
  · rcases List.mem_append.mp hc with hc | hc
    · exact h.solid c hc
    · exact h'.solid c hc
  · rw [List.length_append] at hl
    rcases Nat.lt_or_ge i a with hlt | hge
    · exact h.rest i (by omega) hlt
    · obtain ⟨j, rfl⟩ := Nat.exists_eq_add_of_le hge
      refine h'.rest j ?_ (by omega)
      rcases hf with hf | rfl
      · omega
      · exact Nat.zero_le _

end Filled

/-- A list is made up of its blocks of `k`. -/
theorem flatMap_blocks (l : List α) (k m : ℕ) :
    (List.range m).flatMap (fun b => (l.drop (b * k)).take k) = l.take (m * k) := by
  induction m with
  | zero => simp
  | succ m ih =>
    rw [List.range_succ, List.flatMap_append, ih, List.flatMap_singleton, Nat.succ_mul, List.take_add]

end Aegir.Lib
