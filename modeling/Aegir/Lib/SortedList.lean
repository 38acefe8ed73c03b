/-
  Ascending lists of keys with values, as maps.

  A list is looked up by `List.lookup`; cut where a key belongs it stays ascending
  with the key put in there.
-/
import Aegir.Lib.BTree

namespace Aegir.Lib.BTree

variable {K V : Type}

section
variable [BEq K] [LawfulBEq K] {pre post es : List (K × V)} {k k' : K} {v : V}

theorem lookup_eq_none (h : ∀ e ∈ es, e.1 ≠ k) : es.lookup k = none :=
  List.lookup_eq_none_iff.2 fun e he => by simpa using fun hne => h e he hne.symm

theorem lookup_cut (h : ∀ e ∈ pre, e.1 ≠ k) : (pre ++ (k, v) :: post).lookup k = some v := by
  rw [List.lookup_append, lookup_eq_none h, Option.none_or]
  simp [List.lookup]

theorem lookup_cut_ne (h : k' ≠ k) : (pre ++ (k, v) :: post).lookup k' = (pre ++ post).lookup k' := by
  rw [List.lookup_append, List.lookup_append, List.lookup, beq_false_of_ne h]

end

section
variable {cmp : K → K → Ordering} {P : K → Prop} (o : KeyOrder cmp P)
variable {es : List (K × V)} {k : K} {v : V}

variable (cmp) in
/-- Every entry before the first one not below a key is below it. -/
theorem below (es : List (K × V)) (k : K) :
    ∀ e ∈ es.take (es.findIdx fun e => cmp e.1 k ≠ .lt), cmp e.1 k = .lt := by
  intro e he
  obtain ⟨i, hi, rfl⟩ := List.mem_take_iff_getElem.1 he
  have hnot := List.not_of_lt_findIdx (Nat.lt_of_lt_of_le hi (Nat.min_le_left _ _))
  simpa using hnot

include o

/-- Every entry from there on is above it, where the first one is. -/
theorem Sorted.above (hs : Sorted cmp es) (hP : ∀ e ∈ es, P e.1) (hk : P k)
    (hne : ∀ e, es[es.findIdx fun e => cmp e.1 k ≠ .lt]? = some e → cmp e.1 k ≠ .eq) :
    ∀ e ∈ es.drop (es.findIdx fun e => cmp e.1 k ≠ .lt), cmp k e.1 = .lt := by
  by_cases hi : es.findIdx (fun e => cmp e.1 k ≠ .lt) < es.length
  · have hge := List.findIdx_getElem (w := hi)
    have hfirst : cmp k (es[es.findIdx fun e => cmp e.1 k ≠ .lt]).1 = .lt := by
      refine (o.gt_iff (hP _ (List.getElem_mem hi)) hk).1 ?_
      have hne' := hne _ (List.getElem?_eq_getElem hi)
      revert hge hne'
      cases cmp _ _ <;> simp
    rw [List.drop_eq_getElem_cons hi]
    have hdrop : Sorted cmp (es.drop (es.findIdx fun e => cmp e.1 k ≠ .lt)) :=
      hs.sublist (List.drop_sublist _ _)
    rw [List.drop_eq_getElem_cons hi] at hdrop
    obtain ⟨hhead, -⟩ := List.pairwise_cons.1 hdrop
    intro e he
    rcases List.mem_cons.1 he with rfl | he
    · exact hfirst
    · exact o.trans hk (hP _ (List.getElem_mem hi)) (hP _ (List.mem_of_mem_drop he)) hfirst (hhead e he)
  · rw [List.drop_of_length_le (by omega)]
    simp

omit o

/-- **A key between the entries below it and those above it.** -/
theorem Sorted.insert {pre post : List (K × V)} (hs : Sorted cmp (pre ++ post))
    (hpre : ∀ e ∈ pre, cmp e.1 k = .lt) (hpost : ∀ e ∈ post, cmp k e.1 = .lt) :
    Sorted cmp (pre ++ (k, v) :: post) := by
  obtain ⟨h₁, h₂, h₃⟩ := List.pairwise_append.1 hs
  refine List.pairwise_append.2 ⟨h₁, List.pairwise_cons.2 ⟨hpost, h₂⟩, fun a ha b hb => ?_⟩
  rcases List.mem_cons.1 hb with rfl | hb
  · exact hpre a ha
  · exact h₃ a ha b hb

/-- Another value changes no key. -/
theorem Sorted.replace {pre post : List (K × V)} {u : V} (hs : Sorted cmp (pre ++ (k, u) :: post)) :
    Sorted cmp (pre ++ (k, v) :: post) := by
  obtain ⟨h₁, h₂, h₃⟩ := List.pairwise_append.1 hs
  obtain ⟨h₄, h₅⟩ := List.pairwise_cons.1 h₂
  refine List.pairwise_append.2 ⟨h₁, List.pairwise_cons.2 ⟨h₄, h₅⟩, fun a ha b hb => ?_⟩
  rcases List.mem_cons.1 hb with rfl | hb
  · exact h₃ a ha (k, u) List.mem_cons_self
  · exact h₃ a ha b (List.mem_cons_of_mem _ hb)

end

end Aegir.Lib.BTree
