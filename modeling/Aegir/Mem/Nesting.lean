/-
  Reservations that nest (aegir/mem/vspace.cc, `Scratch::reserve`, `Scratch::release`).

  A run ends where the reservation cursor stood when it was reserved, and begins
  where the cursor then stands; `release` compares the run's end with the cursor, so
  it takes back no run that has a page.
-/
import Aegir.Mem.Scratch

namespace Aegir.Mem

/-- Calls of `reserve` and `release`, the last run reserved being released first; a
    run that is refused is not released. -/
inductive Calls where
  | done
  /-- `reserve pages`, the calls up to its `release`, and those after it. -/
  | use (pages : ℕ) (inner rest : Calls)

namespace Calls

/-- What the calls leave of the scratch. -/
def run : Calls → Scratch → Scratch
  | done, s => s
  | use pages inner rest, s =>
    match s.reserve pages with
    | none => rest.run (inner.run s)
    | some (base, s) => rest.run ((inner.run s).release base pages)

def pages : Calls → List ℕ
  | done => []
  | use pages inner rest => pages :: (inner.pages ++ rest.pages)

end Calls

namespace Scratch

variable {s s' : Scratch} {pages base : ℕ}

def Spared (s : Scratch) (pages : ℕ) : Prop := pages = 0 ∨ s.high < s.next + pages * kPage

instance (s : Scratch) (pages : ℕ) : Decidable (s.Spared pages) := inferInstanceAs (Decidable (_ ∨ _))

/-- On a fixed window `s'` comes of `s` by moving the reservation cursor down. -/
structure Lowered (s s' : Scratch) : Prop where
  next : s'.next = s.next
  high : s'.high ≤ s.high
  fixed : s'.mayGrow = false

theorem Lowered.trans {s'' : Scratch} (h : Lowered s s') (h' : Lowered s' s'') : Lowered s s'' :=
  ⟨h'.next.trans h.next, h'.high.trans h.high, h'.fixed⟩

theorem Lowered.spared (h : Lowered s s') (hh : s'.high = s.high) : s'.Spared pages ↔ s.Spared pages := by
  rw [Spared, Spared, h.next, hh]

theorem reserve_fixed (hf : s.mayGrow = false) :
    s.reserve pages = if s.next + pages * kPage ≤ s.high
      then some (s.high - pages * kPage, { s with high := s.high - pages * kPage }) else none := by
  rw [reserve]
  split
  · rfl
  · rw [if_neg (by rw [hf]; exact Bool.false_ne_true)]

/-- **A run is not taken back.** Calls made since it was reserved have left the cursor
    at its beginning or below. -/
theorem release_below (pages : ℕ) (h : s.high ≤ base) : (s.release base pages).high = s.high ∧
    (s.release base pages).next = s.next ∧ (s.release base pages).mayGrow = s.mayGrow := by
  rw [release]
  split
  · rename_i he
    -- the end of the run at the cursor, so the run is empty
    exact ⟨by show base = s.high; omega, rfl, rfl⟩
  · exact ⟨rfl, rfl, rfl⟩

end Scratch

open Scratch

namespace Calls

variable {s : Scratch}

theorem run_use (pages : ℕ) (inner rest : Calls) (hf : s.mayGrow = false) : ∃ s₁ t,
    (use pages inner rest).run s = rest.run t ∧ Lowered s s₁ ∧ (s₁.high = s.high ↔ s.Spared pages) ∧
      (Lowered s₁ (inner.run s₁) → Lowered (inner.run s₁) t ∧ t.high = (inner.run s₁).high) := by
  rw [run, reserve_fixed hf]
  by_cases hroom : s.next + pages * kPage ≤ s.high
  · rw [if_pos hroom]
    refine ⟨{ s with high := s.high - pages * kPage }, _, rfl, ⟨rfl, Nat.sub_le _ _, hf⟩, ?_, fun h => ?_⟩
    · show s.high - pages * kPage = s.high ↔ _
      have hpage : 0 < kPage := by rw [kPage_eq]; omega
      rw [Spared, or_iff_left (by omega)]
      constructor
      · intro he
        have hzero : pages * kPage = 0 := by omega
        exact (Nat.mul_eq_zero.mp hzero).resolve_right (Nat.pos_iff_ne_zero.mp hpage)
      · rintro rfl
        rw [Nat.zero_mul, Nat.sub_zero]
    · obtain ⟨hh, hn, hg⟩ := release_below pages h.high
      exact ⟨⟨hn, hh.le, hg.trans h.fixed⟩, hh⟩
  · rw [if_neg hroom]
    exact ⟨s, _, rfl, ⟨rfl, le_refl _, hf⟩, iff_of_true rfl (Or.inr (by omega)),
      fun h => ⟨⟨rfl, le_refl _, h.fixed⟩, rfl⟩⟩

theorem run_lowered (c : Calls) (hf : s.mayGrow = false) : Lowered s (c.run s) := by
  induction c generalizing s with
  | done => exact ⟨rfl, le_refl _, hf⟩
  | use pages inner rest ih ih' =>
    obtain ⟨s₁, t, hrun, h₁, -, ht⟩ := run_use pages inner rest hf
    have h₂ := ih h₁.fixed
    have h₃ := (ht h₂).1
    rw [hrun]
    exact ((h₁.trans h₂).trans h₃).trans (ih' h₃.fixed)

end Calls

/-- **The cursor comes back exactly when no page is reserved.** -/
theorem reservations_nest (c : Calls) (s : Scratch) (hf : s.mayGrow = false) :
    (c.run s).high = s.high ↔ ∀ pages ∈ c.pages, s.Spared pages := by
  induction c generalizing s with
  | done => exact iff_of_true rfl fun _ h => nomatch h
  | use pages inner rest ih ih' =>
    obtain ⟨s₁, t, hrun, h₁, hspared, ht⟩ := Calls.run_use pages inner rest hf
    have h₂ := inner.run_lowered h₁.fixed
    obtain ⟨h₃, hh₃⟩ := ht h₂
    have h₄ := rest.run_lowered h₃.fixed
    have hinner := ih s₁ h₁.fixed
    have hrest := ih' t h₃.fixed
    simp only [Calls.pages, List.mem_cons, List.mem_append, or_imp, forall_and, hrun]
    constructor
    · intro h
      -- the cursor only goes down, so it stood still at each of the calls
      have hle := h₄.high
      have hle₁ := h₁.high
      have hle₂ := h₂.high
      have he₁ : s₁.high = s.high := by omega
      have he : t.high = s.high := by omega
      exact ⟨fun _ he => he ▸ hspared.mp he₁, fun p hp => (h₁.spared he₁).mp (hinner.mp (by omega) p hp),
        fun p hp => (((h₁.trans h₂).trans h₃).spared he).mp (hrest.mp (by omega) p hp)⟩
    · rintro ⟨hp, hi, hr⟩
      have he₁ := hspared.mpr (hp pages rfl)
      have he₂ := hinner.mpr fun p hp => (h₁.spared he₁).mpr (hi p hp)
      have he : t.high = s.high := by omega
      have he₄ := hrest.mpr fun p hp => (((h₁.trans h₂).trans h₃).spared he).mpr (hr p hp)
      omega

def onePage : Scratch :=
  { tables := true, mayGrow := false, base := 0x100000, next := 0x100000, limit := 0x101000, smallHigh := 0x100000,
    high := 0x101000, mappedBytes := 0, lastCap := 0, lastError := .noError }

/-- **A page reserved and released is lost**, and the next one is refused. -/
theorem reserve_release_leaks : onePage.mayGrow = false ∧
    ((Calls.use 1 .done .done).run onePage).high ≠ onePage.high ∧
      (onePage.reserve 1).isSome = true ∧ ((Calls.use 1 .done .done).run onePage).reserve 1 = none :=
  ⟨rfl, by decide +kernel, by decide +kernel, by decide +kernel⟩

/-- A run of no pages, and one the window has no room for. -/
theorem reservations_nest_onePage :
    ((Calls.use 0 (.use 2 .done .done) .done).run onePage).high = onePage.high :=
  (reservations_nest _ onePage rfl).mpr (by decide +kernel)

end Aegir.Mem
