/-
  Chains of cells linked through a field of each, which ends at zero.

  `Chain next head l` says that the cells from `head` on, each followed by its `next`, are
  those of `l`, and that the last one's `next` is zero.  A cell is a positive number.

  * `Chain.unique`, `Chain.nodup`: the cells are determined, and none comes twice, so a chain
    is acyclic;
  * `Chain.congr`: a chain depends on the links of its own cells only;
  * `Chain.cons`, `Chain.snoc`: a cell put before the head, or linked after the last one;
  * `Chain.unlink`, `Chain.cut`: a cell taken out from behind another, all of them cut off;
  * `Leads.splice`: a chain linked behind the first cells of another.
-/
import Mathlib

namespace Aegir.Lib

/-- The cells from a head on are those of a list, and the last one links to zero. -/
def Chain (next : ℕ → ℕ) : ℕ → List ℕ → Prop
  | head, [] => head = 0
  | head, a :: l => head = a ∧ a ≠ 0 ∧ Chain next (next a) l

namespace Chain

variable {next next' : ℕ → ℕ} {head a b : ℕ} {l l' : List ℕ}

@[simp] theorem nil_iff : Chain next head [] ↔ head = 0 := Iff.rfl

@[simp] theorem cons_iff : Chain next head (a :: l) ↔ head = a ∧ a ≠ 0 ∧ Chain next (next a) l := Iff.rfl

theorem head_eq (h : Chain next head l) : head = l.head?.getD 0 := by
  cases l with
  | nil => exact h
  | cons a l => exact h.1

theorem eq_nil_iff (h : Chain next head l) : l = [] ↔ head = 0 := by
  cases l with
  | nil => exact ⟨fun _ => h, fun _ => rfl⟩
  | cons a l =>
    obtain ⟨rfl, ha, -⟩ := h
    exact ⟨fun hf => absurd hf (List.cons_ne_nil _ _), fun hf => absurd hf ha⟩

theorem ne_zero (h : Chain next head l) (ha : a ∈ l) : a ≠ 0 := by
  induction l generalizing head with
  | nil => exact absurd ha List.not_mem_nil
  | cons b l ih =>
    rcases List.mem_cons.1 ha with rfl | ha
    · exact h.2.1
    · exact ih h.2.2 ha

theorem unique (h : Chain next head l) (h' : Chain next head l') : l = l' := by
  induction l generalizing head l' with
  | nil => exact (h'.eq_nil_iff.2 h).symm
  | cons a l ih =>
    obtain ⟨rfl, ha, h⟩ := h
    cases l' with
    | nil => exact absurd h' ha
    | cons b l' =>
      obtain ⟨rfl, -, h'⟩ := h'
      rw [ih h h']

/-- What follows a cell of a chain is a chain from it. -/
theorem suffix {l₁ l₂ : List ℕ} (h : Chain next head (l₁ ++ a :: l₂)) : Chain next a (a :: l₂) := by
  induction l₁ generalizing head with
  | nil =>
    obtain ⟨rfl, hb, h⟩ := h
    exact ⟨rfl, hb, h⟩
  | cons b l₁ ih => exact ih h.2.2

theorem nodup (h : Chain next head l) : l.Nodup := by
  induction l generalizing head with
  | nil => exact List.nodup_nil
  | cons a l ih =>
    refine List.nodup_cons.2 ⟨fun ha => ?_, ih h.2.2⟩
    -- the chain from `a` would be both the whole and a part of its tail
    obtain ⟨l₁, l₂, rfl⟩ := List.append_of_mem ha
    have hall : Chain next a (a :: (l₁ ++ a :: l₂)) := ⟨rfl, h.2.1, h.2.2⟩
    have heq := hall.unique (suffix h.2.2)
    have hlen := congrArg List.length heq
    simp only [List.length_cons, List.length_append] at hlen
    omega

theorem congr (h : Chain next head l) (hn : ∀ a ∈ l, next' a = next a) : Chain next' head l := by
  induction l generalizing head with
  | nil => exact h
  | cons a l ih =>
    refine ⟨h.1, h.2.1, ?_⟩
    rw [hn a List.mem_cons_self]
    exact ih h.2.2 fun b hb => hn b (List.mem_cons_of_mem _ hb)

/-- Each cell links to the one after it. -/
theorem next_getElem? {k : ℕ} (h : Chain next head l) (ha : l[k]? = some a) : next a = (l[k + 1]?).getD 0 := by
  obtain ⟨hk, rfl⟩ := List.getElem?_eq_some_iff.1 ha
  have hsplit : l = l.take k ++ l[k] :: l.drop (k + 1) := by
    rw [← List.drop_eq_getElem_cons hk, List.take_append_drop]
  have htail : Chain next (next l[k]) (l.drop (k + 1)) := by
    rw [hsplit] at h
    exact (suffix h).2.2
  rw [htail.head_eq, List.head?_drop]

theorem cons (h : Chain next head l) (ha : a ≠ 0) (hn : next' a = head) (hl : ∀ b ∈ l, next' b = next b) :
    Chain next' a (a :: l) := by
  refine ⟨rfl, ha, ?_⟩
  rw [hn]
  exact h.congr hl

/-- A cell linked after the last one of a chain. -/
theorem snoc (h : Chain next head (l ++ [a])) (hb : b ≠ 0) (ha : next' a = b) (hn : next' b = 0)
    (hl : ∀ c ∈ l, next' c = next c) : Chain next' head (l ++ [a] ++ [b]) := by
  induction l generalizing head with
  | nil =>
    obtain ⟨h₁, h₂, -⟩ := h
    refine ⟨h₁, h₂, ?_⟩
    rw [ha]
    exact ⟨rfl, hb, hn⟩
  | cons c l ih =>
    refine ⟨h.1, h.2.1, ?_⟩
    rw [hl c List.mem_cons_self]
    exact ih h.2.2 fun d hd => hl d (List.mem_cons_of_mem _ hd)

/-- A cell taken out from behind another, which then links to the one after it. -/
theorem unlink {l₁ l₂ : List ℕ} (h : Chain next head (l₁ ++ [b] ++ a :: l₂)) (hb : next' b = next a)
    (hl : ∀ c ∈ l₁ ++ l₂, next' c = next c) : Chain next' head (l₁ ++ [b] ++ l₂) := by
  induction l₁ generalizing head with
  | nil =>
    obtain ⟨h₁, h₂, -, -, h⟩ := h
    refine ⟨h₁, h₂, ?_⟩
    rw [hb]
    exact h.congr hl
  | cons c l₁ ih =>
    refine ⟨h.1, h.2.1, ?_⟩
    rw [hl c List.mem_cons_self]
    exact ih h.2.2 fun d hd => hl d (List.mem_cons_of_mem _ hd)

/-- A chain that is made to end at one of its cells. -/
theorem cut {l₁ l₂ : List ℕ} (h : Chain next head (l₁ ++ a :: l₂)) (ha : next' a = 0)
    (hl : ∀ b ∈ l₁, next' b = next b) : Chain next' head (l₁ ++ [a]) := by
  induction l₁ generalizing head with
  | nil => exact ⟨h.1, h.2.1, ha⟩
  | cons b l₁ ih =>
    refine ⟨h.1, h.2.1, ?_⟩
    rw [hl b List.mem_cons_self]
    exact ih h.2.2 fun c hc => hl c (List.mem_cons_of_mem _ hc)

end Chain

/-- The cells from a head on begin with those of a list, whatever follows them. -/
def Leads (next : ℕ → ℕ) : ℕ → List ℕ → Prop
  | _, [] => True
  | head, a :: l => head = a ∧ a ≠ 0 ∧ Leads next (next a) l

namespace Leads

variable {next next' : ℕ → ℕ} {head a v : ℕ} {l l' : List ℕ}

theorem of_chain (h : Chain next head (l ++ l')) : Leads next head l := by
  induction l generalizing head with
  | nil => trivial
  | cons a l ih => exact ⟨h.1, h.2.1, ih h.2.2⟩

theorem ne_zero (h : Leads next head l) (ha : a ∈ l) : a ≠ 0 := by
  induction l generalizing head with
  | nil => exact absurd ha List.not_mem_nil
  | cons b l ih =>
    rcases List.mem_cons.1 ha with rfl | ha
    · exact h.2.1
    · exact ih h.2.2 ha

theorem congr (h : Leads next head l) (hn : ∀ a ∈ l, next' a = next a) : Leads next' head l := by
  induction l generalizing head with
  | nil => trivial
  | cons a l ih =>
    refine ⟨h.1, h.2.1, ?_⟩
    rw [hn a List.mem_cons_self]
    exact ih h.2.2 fun b hb => hn b (List.mem_cons_of_mem _ hb)

/-- The last of the first cells is linked to a chain. -/
theorem splice (h : Leads next head l) (hl : ∀ a ∈ l.dropLast, next' a = next a)
    (hlast : ∀ a, l.getLast? = some a → next' a = v) (h' : Chain next' v l') :
    Chain next' (if l = [] then v else head) (l ++ l') := by
  induction l generalizing head with
  | nil => exact h'
  | cons a l ih =>
    obtain ⟨rfl, ha, h⟩ := h
    rw [if_neg (List.cons_ne_nil _ _)]
    refine ⟨rfl, ha, ?_⟩
    cases l with
    | nil =>
      rw [hlast head rfl]
      exact h'
    | cons b l =>
      rw [hl head (by rw [List.dropLast_cons_cons]; exact List.mem_cons_self)]
      have hih := ih h (fun c hc => hl c (by rw [List.dropLast_cons_cons]; exact List.mem_cons_of_mem _ hc))
        fun c hc => hlast c (by rw [List.getLast?_cons_cons]; exact hc)
      rwa [if_neg (List.cons_ne_nil _ _)] at hih

end Leads

end Aegir.Lib
