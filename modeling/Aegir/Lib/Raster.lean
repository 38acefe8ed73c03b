/-
  Pictures drawn a pixel at a time.

  A program draws with two nested loops over a rectangle, and each turn writes the pixel it is at
  from what that pixel was.

  * `pixels x0 x1 y0 y1` are the pixels of a rectangle in the order of the loops;
  * `foldl_at` and `foldl_off`: what a loop leaves in a cell that one of its turns writes, and in
    one that none of them writes; `foldl_painter`: in a cell that many of them may write;
  * `shiftRows` moves rows in place, one after another; `shiftRows_apply` is the condition on their
    order under which every row is read before it is written.
-/
import Mathlib

namespace Aegir.Lib

variable {σ κ γ α : Type}

/-! ## Loops that write a cell each -/

/-- A cell that no turn writes. -/
theorem foldl_off (get : σ → γ) {step : σ → κ → σ} {l : List κ} (h : ∀ k ∈ l, ∀ s, get (step s k) = get s) (s : σ) :
    get (l.foldl step s) = get s := by
  induction l generalizing s with
  | nil => rfl
  | cons k l ih =>
    rw [List.foldl_cons, ih fun j hj => h j (List.mem_cons_of_mem _ hj)]
    exact h k List.mem_cons_self s

/-- One turn among the others. -/
theorem split_of_mem {l : List κ} {k : κ} (hl : l.Nodup) (hk : k ∈ l) : ∃ before after, l = before ++ k :: after ∧ k ∉ before ∧ k ∉ after := by
  obtain ⟨before, after, rfl⟩ := List.append_of_mem hk
  obtain ⟨-, hrest, hdisjoint⟩ := List.nodup_append.1 hl
  exact ⟨before, after, rfl, fun hmem => hdisjoint k hmem k List.mem_cons_self rfl, (List.nodup_cons.1 hrest).1⟩

/-- A cell that one turn writes, from what it held. -/
theorem foldl_at (get : σ → γ) {step : σ → κ → σ} {l : List κ} {k : κ} {f : γ → γ} (hl : l.Nodup) (hk : k ∈ l)
    (hoff : ∀ j ∈ l, j ≠ k → ∀ s, get (step s j) = get s) (hat : ∀ s, get (step s k) = f (get s)) (s : σ) :
    get (l.foldl step s) = f (get s) := by
  obtain ⟨before, after, rfl, hbefore, hafter⟩ := split_of_mem hl hk
  rw [List.foldl_append, List.foldl_cons, foldl_off get, hat, foldl_off get]
  · intro j hj
    exact hoff j (List.mem_append_left _ hj) (by rintro rfl; exact hbefore hj)
  · intro j hj
    exact hoff j (List.mem_append_right _ (List.mem_cons_of_mem _ hj)) (by rintro rfl; exact hafter hj)

/-- What every turn keeps, the loop keeps. -/
theorem foldl_keeps {P : σ → Prop} {step : σ → κ → σ} {l : List κ} (h : ∀ k ∈ l, ∀ s, P s → P (step s k)) {s : σ} (hs : P s) :
    P (l.foldl step s) := by
  induction l generalizing s with
  | nil => exact hs
  | cons k l ih => exact ih (fun j hj => h j (List.mem_cons_of_mem _ hj)) (h k List.mem_cons_self s hs)

/-- Drawn one over another: the last that covers the cell is seen. -/
theorem foldl_painter (get : σ → γ) {step : σ → κ → σ} {f : κ → Option γ} {l : List κ}
    (h : ∀ k ∈ l, ∀ s, get (step s k) = (f k).getD (get s)) (s : σ) :
    get (l.foldl step s) = ((l.filterMap f).getLast?).getD (get s) := by
  induction l generalizing s with
  | nil => rfl
  | cons k l ih =>
    rw [List.foldl_cons, ih fun j hj => h j (List.mem_cons_of_mem _ hj), h k List.mem_cons_self]
    cases hk : f k with
    | none => rw [List.filterMap_cons_none hk, Option.getD_none]
    | some v =>
      rw [List.filterMap_cons_some hk, List.getLast?_cons, Option.getD_some, Option.getD_some]

/-! ## The pixels of a rectangle -/

/-- `for (y = y0; y < y1; ++y) for (x = x0; x < x1; ++x)` -/
def pixels (x0 x1 y0 y1 : ℕ) : List (ℕ × ℕ) :=
  (List.range' y0 (y1 - y0)).flatMap fun y => (List.range' x0 (x1 - x0)).map fun x => (x, y)

variable {x0 x1 y0 y1 : ℕ}

@[simp] theorem mem_pixels {p : ℕ × ℕ} : p ∈ pixels x0 x1 y0 y1 ↔ (x0 ≤ p.1 ∧ p.1 < x1) ∧ y0 ≤ p.2 ∧ p.2 < y1 := by
  obtain ⟨x, y⟩ := p
  simp only [pixels, List.mem_flatMap, List.mem_map, List.mem_range'_1, Prod.mk.injEq]
  constructor
  · rintro ⟨b, hb, a, ha, rfl, rfl⟩
    omega
  · rintro ⟨hx, hy⟩
    exact ⟨y, by omega, x, by omega, rfl, rfl⟩

theorem nodup_pixels : (pixels x0 x1 y0 y1).Nodup := by
  refine List.nodup_flatMap.2 ⟨fun y _ => ?_, ?_⟩
  · exact (List.nodup_range' 1).map fun a b h => congrArg Prod.fst h
  · refine (List.nodup_range' 1).imp fun {a b} hne => ?_
    intro p ha hb
    simp only [List.mem_map] at ha hb
    obtain ⟨_, -, rfl⟩ := ha
    obtain ⟨_, -, h⟩ := hb
    exact hne (congrArg Prod.snd h).symm

/-! ## Rows moved in place -/

/-- A row of a raster is moved: all of it is read before any of it is written. -/
def moveRow (dx dy : ℤ) (x0 x1 : ℕ) (r : ℕ → ℕ → α) (y : ℕ) : ℕ → ℕ → α := fun x' y' =>
  if y' = y ∧ x0 ≤ x' ∧ x' < x1 then r (x' - dx).toNat (y - dy).toNat else r x' y'

def shiftRows (dx dy : ℤ) (x0 x1 : ℕ) (rows : List ℕ) (r : ℕ → ℕ → α) : ℕ → ℕ → α :=
  rows.foldl (moveRow dx dy x0 x1) r

/-- Where no row is read after it was written, the rows are moved as if at once. -/
theorem shiftRows_apply {dx dy : ℤ} {rows : List ℕ} (h : rows.Pairwise fun y y' : ℕ => ((y' : ℤ) - dy).toNat ≠ y ∧ y' ≠ y)
    (r : ℕ → ℕ → α) (x y : ℕ) :
    shiftRows dx dy x0 x1 rows r x y =
      if y ∈ rows ∧ x0 ≤ x ∧ x < x1 then r (x - dx).toNat (y - dy).toNat else r x y := by
  induction rows generalizing r with
  | nil => simp [shiftRows]
  | cons row rows ih =>
    rw [List.pairwise_cons] at h
    have hrest := ih h.2 (moveRow dx dy x0 x1 r row)
    simp only [shiftRows, List.foldl_cons] at hrest ⊢
    rw [hrest]
    by_cases hx : x0 ≤ x ∧ x < x1
    · by_cases hy : y ∈ rows
      · rw [if_pos ⟨hy, hx⟩, if_pos ⟨List.mem_cons_of_mem _ hy, hx⟩]
        exact if_neg fun hrow => (h.1 y hy).1 hrow.1
      · rw [if_neg fun hall => hy hall.1]
        by_cases hrow : y = row
        · subst hrow
          rw [if_pos ⟨List.mem_cons_self, hx⟩]
          exact if_pos ⟨rfl, hx⟩
        · rw [if_neg fun hall => (List.mem_cons.1 hall.1).elim hrow hy]
          exact if_neg fun hall => hrow hall.1
    · rw [if_neg fun hall => hx hall.2, if_neg fun hall => hx hall.2]
      exact if_neg fun hall => hx hall.2

/-- Upwards the rows are moved from the top, -/
theorem shiftRows_up {dx dy : ℤ} (hdy : dy ≤ 0) (r : ℕ → ℕ → α) (x y : ℕ) :
    shiftRows dx dy x0 x1 (List.range' y0 (y1 - y0)) r x y =
      if (x0 ≤ x ∧ x < x1) ∧ y0 ≤ y ∧ y < y1 then r (x - dx).toNat (y - dy).toNat else r x y := by
  rw [shiftRows_apply]
  · refine if_congr ?_ rfl rfl
    rw [List.mem_range'_1]
    omega
  · refine (List.pairwise_lt_range' 1).imp fun {a b} hlt => ?_
    constructor <;> omega

/-- and downwards from the bottom. -/
theorem shiftRows_down {dx dy : ℤ} (hdy : 0 < dy) (r : ℕ → ℕ → α) (x y : ℕ) :
    shiftRows dx dy x0 x1 (List.range' y0 (y1 - y0)).reverse r x y =
      if (x0 ≤ x ∧ x < x1) ∧ y0 ≤ y ∧ y < y1 then r (x - dx).toNat (y - dy).toNat else r x y := by
  rw [shiftRows_apply]
  · refine if_congr ?_ rfl rfl
    rw [List.mem_reverse, List.mem_range'_1]
    omega
  · rw [List.pairwise_reverse]
    refine (List.pairwise_lt_range' 1).imp fun {a b} hlt => ?_
    constructor <;> omega

end Aegir.Lib
