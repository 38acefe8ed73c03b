/-
  The free regions are in order and never touch (aegir-heap, `regions.h`).
-/
import Aegir.Hosted.Regions

namespace Aegir.Hosted

open Aegir.Lib

/-- Regions in address order with a gap after each, none empty, that end within the
    64-bit address space. -/
structure Coalesced (l : List Extent) : Prop where
  nonempty : ∀ e ∈ l, e.size ≠ 0
  apart : l.Pairwise fun e f => e.stop < f.base
  within : ∀ e ∈ l, e.stop ≤ 2 ^ 64

namespace Coalesced

variable {l l' : List Extent} {e f : Extent} {a : ℕ}

theorem nil : Coalesced [] := ⟨List.forall_mem_nil _, .nil, List.forall_mem_nil _⟩

theorem append_iff : Coalesced (l ++ l') ↔ Coalesced l ∧ Coalesced l' ∧ ∀ e ∈ l, ∀ f ∈ l', e.stop < f.base := by
  constructor
  · rintro ⟨hn, ha, hw⟩
    obtain ⟨ha₁, ha₂, hx⟩ := List.pairwise_append.mp ha
    exact ⟨⟨fun e he => hn e (List.mem_append_left _ he), ha₁, fun e he => hw e (List.mem_append_left _ he)⟩,
      ⟨fun e he => hn e (List.mem_append_right _ he), ha₂, fun e he => hw e (List.mem_append_right _ he)⟩, hx⟩
  · rintro ⟨h, h', hx⟩
    exact ⟨fun e he => (List.mem_append.mp he).elim (h.nonempty e) (h'.nonempty e),
      List.pairwise_append.mpr ⟨h.apart, h'.apart, hx⟩,
      fun e he => (List.mem_append.mp he).elim (h.within e) (h'.within e)⟩

theorem singleton_iff : Coalesced [e] ↔ e.size ≠ 0 ∧ e.stop ≤ 2 ^ 64 := by
  constructor
  · intro h
    exact ⟨h.nonempty e List.mem_cons_self, h.within e List.mem_cons_self⟩
  · rintro ⟨hn, hw⟩
    exact ⟨fun f hf => by rwa [List.mem_singleton.mp hf], List.pairwise_singleton _ _,
      fun f hf => by rwa [List.mem_singleton.mp hf]⟩

theorem cons_iff : Coalesced (e :: l) ↔ (e.size ≠ 0 ∧ e.stop ≤ 2 ^ 64) ∧ Coalesced l ∧ ∀ f ∈ l, e.stop < f.base := by
  rw [← List.singleton_append, append_iff, singleton_iff]
  simp only [List.mem_singleton, forall_eq]

theorem cover_le (h : Coalesced l) (a : ℕ) : Extent.cover l a ≤ 1 :=
  Extent.pairwise_apart_iff.mp (h.apart.imp fun hlt => Extent.apart_of_le hlt.le) a

end Coalesced

namespace Regions

variable {l l' : List Extent} {e : Extent} {bytes at_ n : ℕ} {r r' : Regions}

/-- **Nothing is taken when no region is large enough.** -/
theorem takeFrom_eq_none : takeFrom bytes l = none ↔ ∀ e ∈ l, e.size < bytes := by
  induction l with
  | nil => exact iff_of_true rfl fun _ h => nomatch h
  | cons e l ih =>
    rw [takeFrom, List.forall_mem_cons]
    split_ifs with hlt heq
    · rw [Option.map_eq_none_iff, ih]
      exact (and_iff_right hlt).symm
    · exact iff_of_false (fun h => nomatch h) fun h => hlt h.1
    · exact iff_of_false (fun h => nomatch h) fun h => hlt h.1

/-- **What is taken is the top of the first region that is large enough.** -/
theorem takeFrom_eq_some (h : takeFrom bytes l = some (at_, l', n)) : ∃ l₁ e l₂, l = l₁ ++ e :: l₂ ∧
    (∀ f ∈ l₁, f.size < bytes) ∧ bytes ≤ e.size ∧ at_ = e.base + (e.size - bytes) ∧
      l' = l₁ ++ (if e.size = bytes then l₂ else ⟨e.base, e.size - bytes⟩ :: l₂) ∧ n = if e.size = bytes then 1 else 0 := by
  induction l generalizing l' with
  | nil => cases h
  | cons e l ih =>
    rw [takeFrom] at h
    split_ifs at h with hlt heq
    · obtain ⟨⟨at', l'', n'⟩, ht, he⟩ := Option.map_eq_some_iff.mp h
      obtain ⟨rfl, rfl, rfl⟩ : at' = at_ ∧ e :: l'' = l' ∧ n' = n := by simpa using he
      obtain ⟨l₁, f, l₂, rfl, hall, hle, hat, rfl, hn⟩ := ih ht
      exact ⟨e :: l₁, f, l₂, rfl, List.forall_mem_cons.mpr ⟨hlt, hall⟩, hle, hat, rfl, hn⟩
    · obtain ⟨rfl, rfl, rfl⟩ : e.base = at_ ∧ l = l' ∧ 1 = n := by simpa using h
      exact ⟨[], e, l, rfl, List.forall_mem_nil _, by omega, by omega, by rw [if_pos heq]; rfl, by rw [if_pos heq]⟩
    · obtain ⟨rfl, rfl, rfl⟩ : e.base + (e.size - bytes) = at_ ∧ ⟨e.base, e.size - bytes⟩ :: l = l' ∧ 0 = n := by
        simpa using h
      exact ⟨[], e, l, rfl, List.forall_mem_nil _, by omega, rfl, by rw [if_neg heq]; rfl, by rw [if_neg heq]⟩

theorem coalesced_takeFrom (h : Coalesced l) (hb : 0 < bytes) (ht : takeFrom bytes l = some (at_, l', n)) :
    Coalesced l' := by
  obtain ⟨l₁, e, l₂, rfl, -, hle, -, rfl, -⟩ := takeFrom_eq_some ht
  obtain ⟨h₁, h₂, hx⟩ := Coalesced.append_iff.mp h
  obtain ⟨⟨hn, hw⟩, h₃, hy⟩ := Coalesced.cons_iff.mp h₂
  rw [Extent.stop] at hw
  split_ifs with heq
  · exact Coalesced.append_iff.mpr ⟨h₁, h₃, fun f hf g hg => hx f hf g (List.mem_cons_of_mem _ hg)⟩
  · refine Coalesced.append_iff.mpr ⟨h₁, Coalesced.cons_iff.mpr ⟨⟨?_, ?_⟩, h₃, ?_⟩, ?_⟩
    · show e.size - bytes ≠ 0
      omega
    · show e.base + (e.size - bytes) ≤ _
      omega
    · intro f hf
      have := hy f hf
      rw [Extent.stop] at this
      show e.base + (e.size - bytes) < _
      omega
    · intro f hf g hg
      rcases List.mem_cons.mp hg with rfl | hg
      · exact hx f hf e List.mem_cons_self
      · exact hx f hf g (List.mem_cons_of_mem _ hg)

/-! ## Giving -/

theorem below_append_above (r : Regions) (base : ℕ) : r.below base ++ r.above base = r.free :=
  List.takeWhile_append_dropWhile

theorem lt_of_mem_below (he : e ∈ r.below at_) : e.base < at_ := by
  have := List.mem_takeWhile_imp he
  simpa using this

theorem le_of_mem_above (h : Coalesced r.free) (he : e ∈ r.above at_) : at_ ≤ e.base := by
  rcases hab : r.above at_ with _ | ⟨f, l⟩
  · rw [hab] at he
    cases he
  · have hnot := List.head?_dropWhile_not (fun f : Extent => decide (f.base < at_)) r.free
    have hdrop : List.dropWhile (fun f : Extent => decide (f.base < at_)) r.free = f :: l := hab
    rw [hdrop] at hnot
    have hle : at_ ≤ f.base := by simpa using hnot
    rw [hab] at he
    rcases List.mem_cons.mp he with rfl | he
    · exact hle
    · rw [← below_append_above r at_, hab] at h
      have := (Coalesced.cons_iff.mp (Coalesced.append_iff.mp h).2.1).2.2 e he
      rw [Extent.stop] at this
      omega

theorem stop_le_of_mem_above {f : Extent} (h : Coalesced r.free) (hapart : ∀ f ∈ r.free, e.Apart f) (hf : f ∈ r.above e.base) :
    e.stop ≤ f.base := by
  have hf' : f ∈ r.free := below_append_above r e.base ▸ List.mem_append_right _ hf
  have hle := le_of_mem_above h hf
  have hfn := h.nonempty f hf'
  by_contra hc
  exact hapart f hf' f.base (Extent.mem_iff.mpr ⟨hle, Nat.lt_of_not_le hc⟩) (Extent.mem_iff.mpr ⟨le_refl _, by omega⟩)

theorem stop_le_of_mem_below {f : Extent} (hn : e.size ≠ 0) (hapart : ∀ f ∈ r.free, e.Apart f) (hf : f ∈ r.below e.base) :
    f.stop ≤ e.base := by
  have hf' : f ∈ r.free := below_append_above r e.base ▸ List.mem_append_left _ hf
  have hlt := lt_of_mem_below hf
  by_contra hc
  exact hapart f hf' e.base (Extent.mem_iff.mpr ⟨le_refl _, by omega⟩) (Extent.mem_iff.mpr ⟨hlt.le, Nat.lt_of_not_le hc⟩)

theorem coalesced_mergeAbove (h : Coalesced l) (hn : e.size ≠ 0) (hw : e.stop ≤ 2 ^ 64) (hle : ∀ f ∈ l, e.stop ≤ f.base) :
    ∃ e' l', (mergeAbove e l).1 = e' :: l' ∧ e'.base = e.base ∧ Coalesced (e' :: l') := by
  cases l with
  | nil => exact ⟨e, [], rfl, rfl, Coalesced.singleton_iff.mpr ⟨hn, hw⟩⟩
  | cons f l =>
    obtain ⟨⟨hfn, hfw⟩, h', hx⟩ := Coalesced.cons_iff.mp h
    have hef := hle f List.mem_cons_self
    rw [Regions.mergeAbove]
    rw [Extent.stop] at hw hef hfw
    split_ifs with heq
    · refine ⟨⟨e.base, e.size + f.size⟩, l, rfl, rfl, Coalesced.cons_iff.mpr ⟨⟨?_, ?_⟩, h', ?_⟩⟩
      · show e.size + f.size ≠ 0
        omega
      · show e.base + (e.size + f.size) ≤ _
        omega
      · intro g hg
        have := hx g hg
        rw [Extent.stop] at this
        show e.base + (e.size + f.size) < _
        omega
    · refine ⟨e, f :: l, rfl, rfl, Coalesced.cons_iff.mpr ⟨⟨hn, hw⟩, h, ?_⟩⟩
      intro g hg
      rcases List.mem_cons.mp hg with rfl | hg
      · rw [Extent.stop]
        omega
      · have := hx g hg
        rw [Extent.stop] at this ⊢
        omega

theorem coalesced_mergeBelow (h : Coalesced l) (h' : Coalesced (e :: l')) (hle : ∀ f ∈ l, f.stop ≤ e.base) :
    Coalesced (mergeBelow l (e :: l')).1 := by
  obtain ⟨⟨hn, hw⟩, h₂, hx⟩ := Coalesced.cons_iff.mp h'
  rw [Regions.mergeBelow]
  rcases List.eq_nil_or_concat l with rfl | ⟨l₁, b, rfl⟩
  · exact h'
  rw [List.concat_eq_append] at h hle ⊢
  rw [List.getLast?_concat, List.dropLast_concat]
  obtain ⟨h₁, hb, hy⟩ := Coalesced.append_iff.mp h
  have hbn := Coalesced.singleton_iff.mp hb
  have hbe := hle b (List.mem_append_right _ List.mem_cons_self)
  dsimp only
  rw [Extent.stop] at hw hbe
  split_ifs with heq
  · refine Coalesced.append_iff.mpr ⟨h₁, Coalesced.cons_iff.mpr ⟨⟨?_, ?_⟩, h₂, ?_⟩, ?_⟩
    · show b.size + e.size ≠ 0
      omega
    · show b.base + (b.size + e.size) ≤ _
      omega
    · intro f hf
      have := hx f hf
      rw [Extent.stop] at this
      show b.base + (b.size + e.size) < _
      omega
    · intro f hf g hg
      rcases List.mem_cons.mp hg with rfl | hg
      · exact hy f hf b List.mem_cons_self
      · have hfb := hy f hf b List.mem_cons_self
        have := hx g hg
        rw [Extent.stop] at this
        omega
  · refine Coalesced.append_iff.mpr ⟨h, h', fun f hf g hg => ?_⟩
    have hfe : f.stop < e.base := by
      rcases List.mem_append.mp hf with hf | hf
      · have := hy f hf b List.mem_cons_self
        omega
      · rw [List.mem_singleton.mp hf, Extent.stop]
        omega
    rcases List.mem_cons.mp hg with rfl | hg
    · exact hfe
    · have := hx g hg
      rw [Extent.stop] at this
      omega

/-- **A run that overlaps no region goes to its place**, with the regions it touches. -/
theorem coalesced_insert (h : Coalesced r.free) (hn : e.size ≠ 0) (hw : e.stop ≤ 2 ^ 64)
    (hapart : ∀ f ∈ r.free, e.Apart f) : Coalesced (r.insert e).free := by
  have hall := below_append_above r e.base
  obtain ⟨hbelow, habove, -⟩ := Coalesced.append_iff.mp (hall ▸ h)
  obtain ⟨e', l', hmerge, hbase, hc⟩ := coalesced_mergeAbove habove hn hw fun f hf => stop_le_of_mem_above h hapart hf
  show Coalesced (Regions.mergeBelow (r.below e.base) (Regions.mergeAbove e (r.above e.base)).1).1
  rw [hmerge]
  exact coalesced_mergeBelow hbelow hc fun f hf => hbase ▸ stop_le_of_mem_below hn hapart hf

end Regions

end Aegir.Hosted
