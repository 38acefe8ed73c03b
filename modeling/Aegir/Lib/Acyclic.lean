/-
  Relations without cycles.

  * `Acyclic.exists_ready`: of finitely many elements one is related to none of them;
  * `acyclic_of_rank`: a relation that lowers a rank has no cycle.
-/
import Mathlib

namespace Aegir.Lib

variable {α : Type} {r : α → α → Prop}

def Acyclic (r : α → α → Prop) : Prop := ∀ a, ¬ Relation.TransGen r a a

theorem acyclic_of_rank (rank : α → ℕ) (h : ∀ a b, r a b → rank b < rank a) : Acyclic r := by
  intro a hcycle
  have hlt : ∀ {a b}, Relation.TransGen r a b → rank b < rank a := by
    intro a b hab
    induction hab with
    | single hr => exact h _ _ hr
    | tail _ hr ih => exact (h _ _ hr).trans ih
  exact (hlt hcycle).false

/-- Of finitely many elements one is related to none of them. -/
theorem Acyclic.exists_ready (hr : Acyclic r) {s : Finset α} (hs : s.Nonempty) : ∃ a ∈ s, ∀ b ∈ s, ¬ r a b := by
  let below : s → s → Prop := fun b a => Relation.TransGen r a b
  have : IsTrans s below := ⟨fun _ _ _ hab hbc => hbc.trans hab⟩
  have : Std.Irrefl below := ⟨fun a => hr a⟩
  have hwf : WellFounded below := Finite.wellFounded_of_trans_of_irrefl below
  obtain ⟨a₀, ha₀⟩ := hs
  obtain ⟨⟨a, ha⟩, -, hmin⟩ := hwf.has_min Set.univ ⟨⟨a₀, ha₀⟩, trivial⟩
  exact ⟨a, ha, fun b hb hab => hmin ⟨b, hb⟩ trivial (.single hab)⟩

end Aegir.Lib
