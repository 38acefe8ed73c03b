/-
  Extents: half-open ranges of addresses, and lists of them.

  An extent is where a run of memory lies.  Two extents are `Apart` when no
  address is in both, and `cover l a` counts the extents of `l` that hold the
  address `a`.

  * `pairwise_apart_iff`: the extents of a list are apart from one another when
    every address is covered at most once;
  * `cover_split`: cutting an extent in two, or joining two neighbours, covers
    what was covered before;
  * `inRow_apart`: extents laid one after another are apart.
-/
import Mathlib

namespace Aegir.Lib

/-- `size` addresses from `base` on. -/
structure Extent where
  base : ℕ
  size : ℕ
  deriving DecidableEq

namespace Extent

def stop (e : Extent) : ℕ := e.base + e.size

instance : Membership ℕ Extent := ⟨fun e a => e.base ≤ a ∧ a < e.stop⟩

variable {e f : Extent} {a : ℕ} {l l' : List Extent}

theorem mem_iff : a ∈ e ↔ e.base ≤ a ∧ a < e.base + e.size := Iff.rfl

instance (a : ℕ) (e : Extent) : Decidable (a ∈ e) := decidable_of_iff _ mem_iff.symm

def Apart (e f : Extent) : Prop := ∀ a ∈ e, a ∉ f

theorem Apart.symm (h : e.Apart f) : f.Apart e := fun a hf he => h a he hf

theorem apart_of_le (h : e.stop ≤ f.base) : e.Apart f := by
  intro a he hf
  rw [stop] at h
  rw [mem_iff] at he hf
  omega

/-- `e` lies within `f`. -/
def Within (e f : Extent) : Prop := f.base ≤ e.base ∧ e.stop ≤ f.stop

/-! ## Covering -/

/-- How many extents of the list hold `a`. -/
def cover (l : List Extent) (a : ℕ) : ℕ := l.countP fun e => decide (a ∈ e)

@[simp] theorem cover_nil : cover [] a = 0 := rfl

theorem cover_cons (e : Extent) (l : List Extent) (a : ℕ) :
    cover (e :: l) a = (if a ∈ e then 1 else 0) + cover l a := by
  simp only [cover, List.countP_cons, decide_eq_true_eq]
  omega

theorem cover_append (l l' : List Extent) (a : ℕ) : cover (l ++ l') a = cover l a + cover l' a :=
  List.countP_append

theorem cover_perm (h : l.Perm l') (a : ℕ) : cover l a = cover l' a := h.countP_eq _

theorem cover_eq_zero : cover l a = 0 ↔ ∀ e ∈ l, a ∉ e := by
  simp [cover, List.countP_eq_zero]

theorem cover_pos : 0 < cover l a ↔ ∃ e ∈ l, a ∈ e := by
  simp [cover, List.countP_pos_iff]

/-- An extent cut in two covers what it covered whole. -/
theorem cover_split (base m n a : ℕ) :
    cover [⟨base, m + n⟩] a = cover [⟨base, m⟩, ⟨base + m, n⟩] a := by
  simp only [cover_cons, cover_nil, mem_iff]
  split_ifs <;> omega

/-- The extents of a list are apart from one another exactly when no address is
    covered twice. -/
theorem pairwise_apart_iff : l.Pairwise Apart ↔ ∀ a, cover l a ≤ 1 := by
  induction l with
  | nil => simp
  | cons e l ih =>
    rw [List.pairwise_cons, ih]
    constructor
    · rintro ⟨he, hl⟩ a
      rw [cover_cons]
      by_cases ha : a ∈ e
      · have hl : cover l a = 0 := cover_eq_zero.2 fun f hf => he f hf a ha
        have hone : (if a ∈ e then 1 else 0) = 1 := if_pos ha
        omega
      · rw [if_neg ha, Nat.zero_add]; exact hl a
    · intro h
      refine ⟨fun f hf a hae haf => ?_, fun a => ?_⟩
      · have hpos : 0 < cover l a := cover_pos.2 ⟨f, hf, haf⟩
        have := h a
        rw [cover_cons, if_pos hae] at this
        omega
      · have := h a
        rw [cover_cons] at this
        omega

/-! ## Extents in a row -/

/-- Extents of the given sizes, one after another from `base` on. -/
def inRow : ℕ → List ℕ → List Extent
  | _, [] => []
  | base, n :: sizes => ⟨base, n⟩ :: inRow (base + n) sizes

theorem inRow_append (base : ℕ) (sizes sizes' : List ℕ) :
    inRow base (sizes ++ sizes') = inRow base sizes ++ inRow (base + sizes.sum) sizes' := by
  induction sizes generalizing base with
  | nil => simp [inRow]
  | cons n sizes ih => simp [inRow, ih, Nat.add_assoc]

theorem inRow_bounds {base : ℕ} {sizes : List ℕ} (h : e ∈ inRow base sizes) :
    base ≤ e.base ∧ e.stop ≤ base + sizes.sum := by
  induction sizes generalizing base with
  | nil => cases h
  | cons n sizes ih =>
    rw [List.sum_cons]
    rcases List.mem_cons.1 h with rfl | h
    · simp only [stop]
      omega
    · have := ih h
      omega

/-- **Extents in a row are apart.** -/
theorem inRow_apart (base : ℕ) (sizes : List ℕ) : (inRow base sizes).Pairwise Apart := by
  induction sizes generalizing base with
  | nil => exact List.Pairwise.nil
  | cons n sizes ih =>
    refine List.pairwise_cons.2 ⟨fun e he => apart_of_le ?_, ih _⟩
    exact (inRow_bounds he).1

end Extent

end Aegir.Lib
