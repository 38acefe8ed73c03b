/-
  Loops on fuel.

  `Settles g a`: with enough fuel the computation `g` answers `a`, whatever fuel is left over.
  It is what a loop that may wait is said to return; the rules follow its structure.

  `turns turn` is the loop whose turn goes on with another state or returns, and `Halts turn s`
  says that it returns from `s`.  It does not where an invariant lets every turn go on
  (`turns_eq_none`).
-/
import Mathlib

namespace Aegir.Lib

def Settles {α : Type} (g : ℕ → Option α) (a : α) : Prop := ∃ k, ∀ fuel, k ≤ fuel → g fuel = some a

namespace Settles

variable {α β : Type} {g g' : ℕ → Option α} {a a' : α}

theorem unique (h : Settles g a) (h' : Settles g a') : a = a' := by
  obtain ⟨k, hk⟩ := h
  obtain ⟨k', hk'⟩ := h'
  exact Option.some.inj ((hk _ (Nat.le_max_left k k')).symm.trans (hk' _ (Nat.le_max_right k k')))

/-- An answer that needs no fuel. -/
theorem const (h : ∀ fuel, g fuel = some a) : Settles g a := ⟨0, fun fuel _ => h fuel⟩

theorem congr (hg : ∀ fuel, g fuel = g' fuel) (h : Settles g' a) : Settles g a := by
  obtain ⟨k, hk⟩ := h
  exact ⟨k, fun fuel hfuel => (hg fuel).trans (hk fuel hfuel)⟩

/-- A round of a loop. -/
theorem step (hg : ∀ fuel, g (fuel + 1) = g' fuel) (h : Settles g' a) : Settles g a := by
  obtain ⟨k, hk⟩ := h
  refine ⟨k + 1, fun fuel hfuel => ?_⟩
  obtain ⟨n, rfl⟩ := Nat.exists_eq_add_of_le' (Nat.le_trans (Nat.le_add_left 1 k) hfuel)
  exact (hg n).trans (hk n (Nat.le_of_succ_le_succ hfuel))

/-- The last round of a loop. -/
theorem last (hg : ∀ fuel, g (fuel + 1) = some a) : Settles g a := step hg (const fun _ => rfl)

/-- A computation that keeps its answer on more fuel settles on the first one. -/
theorem of_mono (hmono : ∀ fuel a, g fuel = some a → g (fuel + 1) = some a) {k : ℕ} (h : g k = some a) : Settles g a := by
  refine ⟨k, fun fuel hfuel => ?_⟩
  induction fuel, hfuel using Nat.le_induction with
  | base => exact h
  | succ fuel _ ih => exact hmono fuel a ih

theorem map (f : α → β) (h : Settles g a) : Settles (fun fuel => (g fuel).map f) (f a) := by
  obtain ⟨k, hk⟩ := h
  refine ⟨k, fun fuel hfuel => ?_⟩
  show (g fuel).map f = some (f a)
  rw [hk fuel hfuel, Option.map_some]

theorem bind {f : ℕ → α → Option β} {b : β} (h : Settles g a) (hf : Settles (fun fuel => f fuel a) b) :
    Settles (fun fuel => (g fuel).bind (f fuel)) b := by
  obtain ⟨k, hk⟩ := h
  obtain ⟨k', hk'⟩ := hf
  refine ⟨max k k', fun fuel hfuel => ?_⟩
  show (g fuel).bind (f fuel) = some b
  rw [hk fuel (Nat.le_trans (Nat.le_max_left k k') hfuel), Option.bind_some]
  exact hk' fuel (Nat.le_trans (Nat.le_max_right k k') hfuel)

end Settles

/-! ## Loops of turns -/

variable {σ ρ : Type} {turn : σ → σ ⊕ ρ} {s s' : σ} {r : ρ}

def turns (turn : σ → σ ⊕ ρ) : ℕ → σ → Option ρ
  | 0, _ => none
  | fuel + 1, s => match turn s with
    | .inl s' => turns turn fuel s'
    | .inr r => some r

def Halts (turn : σ → σ ⊕ ρ) (s : σ) : Prop := ∃ r, Settles (fun fuel => turns turn fuel s) r

theorem Halts.last (h : turn s = .inr r) : Halts turn s :=
  ⟨r, .last fun fuel => by rw [turns, h]⟩

theorem Halts.step (h : turn s = .inl s') (hs : Halts turn s') : Halts turn s := by
  obtain ⟨r, hr⟩ := hs
  exact ⟨r, .step (fun fuel => by rw [turns, h]) hr⟩

/-- From a state of an invariant, each turn goes on to another. -/
theorem turns_eq_none (I : σ → Prop) (h : ∀ s, I s → ∃ s', turn s = .inl s' ∧ I s') (hs : I s) (fuel : ℕ) :
    turns turn fuel s = none := by
  induction fuel generalizing s with
  | zero => rfl
  | succ fuel ih =>
    obtain ⟨s', hturn, hs'⟩ := h s hs
    rw [turns, hturn]
    exact ih hs'

end Aegir.Lib
