/-
  Comparisons that are an order on the keys in use.

  A comparison function need not be an order on every pair of values; what a
  search structure needs is that it is one on the keys it holds and is asked
  for.  `KeyOrder cmp P` says so of the keys with `P`.

  * `KeyOrder.of_injOn`: a comparison through a key's rank in a linear order;
  * `KeyOrder.lt_of_ne_gt_of_lt`, `KeyOrder.ne_gt_trans`: chains of comparisons.
-/
import Mathlib

namespace Aegir.Lib

variable {K : Type}

/-- `cmp` is a linear order on the keys with `P`. -/
structure KeyOrder (cmp : K → K → Ordering) (P : K → Prop) : Prop where
  eq_iff : ∀ {a b}, P a → P b → (cmp a b = .eq ↔ a = b)
  swap : ∀ {a b}, P a → P b → cmp b a = (cmp a b).swap
  trans : ∀ {a b c}, P a → P b → P c → cmp a b = .lt → cmp b c = .lt → cmp a c = .lt

namespace KeyOrder

variable {cmp : K → K → Ordering} {P : K → Prop} {a b c : K}

/-- Keys compared by their rank. -/
theorem of_injOn {L : Type} [LinearOrder L] (rank : K → L)
    (hcmp : ∀ a b, P a → P b → cmp a b = compare (rank a) (rank b))
    (hinj : Set.InjOn rank {k | P k}) : KeyOrder cmp P where
  eq_iff ha hb := by
    rw [hcmp _ _ ha hb, compare_eq_iff_eq]
    exact ⟨fun h => hinj ha hb h, fun h => by rw [h]⟩
  swap ha hb := by
    rw [hcmp _ _ ha hb, hcmp _ _ hb ha, ← cmp_eq_compare, ← cmp_eq_compare, cmp_swap]
  trans ha hb hc h₁ h₂ := by
    rw [hcmp _ _ ha hb, compare_lt_iff_lt] at h₁
    rw [hcmp _ _ hb hc, compare_lt_iff_lt] at h₂
    rw [hcmp _ _ ha hc, compare_lt_iff_lt]
    exact h₁.trans h₂

variable (o : KeyOrder cmp P)
include o

theorem irrefl (ha : P a) : cmp a a ≠ .lt := by
  rw [(o.eq_iff ha ha).2 rfl]; decide

theorem gt_iff (ha : P a) (hb : P b) : cmp a b = .gt ↔ cmp b a = .lt := by
  rw [o.swap ha hb]
  cases cmp a b <;> decide

theorem lt_of_ne_gt_of_lt (ha : P a) (hb : P b) (hc : P c) (h₁ : cmp a b ≠ .gt)
    (h₂ : cmp b c = .lt) : cmp a c = .lt := by
  rcases h : cmp a b with _ | _ | _
  · exact o.trans ha hb hc h h₂
  · rw [(o.eq_iff ha hb).1 h]; exact h₂
  · exact absurd h h₁

theorem ne_gt_trans (ha : P a) (hb : P b) (hc : P c) (h₁ : cmp a b ≠ .gt)
    (h₂ : cmp b c ≠ .gt) : cmp a c ≠ .gt := by
  rcases h : cmp b c with _ | _ | _
  · rw [o.lt_of_ne_gt_of_lt ha hb hc h₁ h]; decide
  · rw [← (o.eq_iff hb hc).1 h]; exact h₁
  · exact absurd h h₂

end KeyOrder

end Aegir.Lib
