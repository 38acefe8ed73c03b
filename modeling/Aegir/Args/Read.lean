/-
  What a line that is accepted gives to the items of its template.

  `forEach` keeps the place of the next bare token and nothing else, so an item that has its
  value by name is filled again when its turn comes.
-/
import Aegir.Args.Lines

namespace Aegir.Args

open Aegir.Lib (fill shares)

/-! ## What is given by name, and what is left -/

def Word.byName : Word → Bool
  | named _ | keyword _ _ => true
  | _ => false

def given (l : List Supplied) (item : Item) : ℕ :=
  l.countP fun s => decide (s.item = some item) && s.word.byName

def values (l : List Supplied) (item : Item) : ℕ :=
  l.countP fun s => decide (s.item = some item) && s.word.value?.isSome

/-- The positional items that are left for the bare tokens: those that repeat, and those that
    are not given by name. -/
def remaining (items : List Item) (argv : List Text) : List Item :=
  (items.filter Item.positional).filter fun item => item.multiple || decide (given (spell items argv) item = 0)

/-- The tokens of a line are the items'. -/
structure Assigned (items : List Item) (argv : List Text) (l : List Supplied) : Prop where
  tokens : l.flatMap (fun s => s.word.tokens) = argv
  known : ∀ s ∈ l, ∃ item ∈ items, s.item = some item ∧ s.word.Fits items item
  single : ∀ item ∈ items, item.multiple = false → values l item ≤ 1
  order : placed l = shares Item.multiple (remaining items argv) (bareTokens (spell items argv))
  required : ∀ item ∈ items, item.required = true →
    ∃ s ∈ l, s.item = some item ∧ (s.word.value?.isSome ∨ item.switch = true)

/-- A line that no item meets twice. -/
structure Clear (items : List Item) (argv : List Text) : Prop where
  once : ∀ item ∈ items, item.multiple = false → given (spell items argv) item ≤ 1
  apart : ∀ i < (bareTokens (spell items argv)).length, ∀ item, (items.filter Item.positional)[i]? = some item →
    item.multiple = false → given (spell items argv) item = 0
  closed : ∀ item ∈ items, item.required = true →
    (∃ token, (⟨some item, .dangling token⟩ : Supplied) ∈ spell items argv) → given (spell items argv) item ≠ 0

/-! ## Counting -/

section
variable {items : List Item} {item : Item} {l l' : List Supplied} {argv : List Text}

theorem placed_cons (s : Supplied) (l : List Supplied) : placed (s :: l) =
    match s.item, s.word with
    | some item, .bare token => (item, token) :: placed l
    | _, _ => placed l := by
  obtain ⟨found, word⟩ := s
  cases found <;> cases word <;> rfl

theorem values_eq (l : List Supplied) (item : Item) :
    values l item = given l item + (placed l).countP (·.1 = item) := by
  induction l with
  | nil => rfl
  | cons s l ih =>
    rw [values, given, List.countP_cons, List.countP_cons, ← values, ← given, ih, placed_cons]
    obtain ⟨found, word⟩ := s
    cases word with
    | bare token =>
      cases found with
      | none => simp [Word.byName]
      | some item' =>
        simp only [Word.byName, Word.value?, List.countP_cons, Option.some.injEq, Option.isSome_some, Bool.and_true,
          Bool.and_false, decide_eq_true_eq, Bool.false_eq_true, if_false]
        omega
    | _ => cases found <;> simp [Word.byName, Word.value?] <;> omega

theorem given_congr (h : l.filter (fun s => !s.word.isBare) = l'.filter fun s => !s.word.isBare) (item : Item) :
    given l item = given l' item := by
  have hfilter : ∀ l : List Supplied, given l item = given (l.filter fun s => !s.word.isBare) item := by
    intro l
    rw [given, given, List.countP_filter]
    refine List.countP_congr fun s _ => ?_
    cases s.word <;> simp [Word.byName, Word.isBare]
  rw [hfilter l, hfilter l', h]

theorem dangling_congr (h : l.filter (fun s => !s.word.isBare) = l'.filter fun s => !s.word.isBare)
    {found : Option Item} {token : Text} (hm : (⟨found, .dangling token⟩ : Supplied) ∈ l) :
    (⟨found, .dangling token⟩ : Supplied) ∈ l' := by
  have hmem : (⟨found, .dangling token⟩ : Supplied) ∈ l.filter fun s => !s.word.isBare :=
    List.mem_filter.2 ⟨hm, rfl⟩
  rw [h] at hmem
  exact (List.mem_filter.1 hmem).1

theorem exists_of_given (h : given l item ≠ 0) : ∃ s ∈ l, s.item = some item ∧ s.word.value?.isSome := by
  obtain ⟨s, hs, hp⟩ := List.countP_pos_iff.1 (Nat.pos_of_ne_zero h)
  rw [Bool.and_eq_true, decide_eq_true_eq] at hp
  refine ⟨s, hs, hp.1, ?_⟩
  cases hw : s.word <;> simp [Word.byName, Word.value?, hw] at hp ⊢

end

/-! ## Lines that are accepted -/

theorem problem_ne {s : Supplied} {r : Result} (h : s.problem = some r) : r.problem ≠ "" := by
  unfold Supplied.problem at h
  split at h
  · cases h
    simp
  · split_ifs at h
    cases h
    simp

theorem read_ok {tmpl : Text} {argv : List Text} (h : (read tmpl argv).problem = "") :
    (∀ s ∈ forEach (items tmpl) 0 argv, s.item ≠ none) ∧
      ∀ item ∈ items tmpl, item.required = true → found (forEach (items tmpl) 0 argv) item.name = true := by
  unfold read at h
  dsimp only at h
  split at h
  · rename_i hsome
    obtain ⟨s, _, hs⟩ := List.exists_of_findSome?_eq_some hsome
    exact absurd h (problem_ne hs)
  · rename_i hnone
    split at h
    · simp at h
    · rename_i hfind
      refine ⟨fun s hs hitem => ?_, fun item hitem hreq => ?_⟩
      · have := List.findSome?_eq_none_iff.1 hnone s hs
        rw [Supplied.problem, hitem] at this
        cases this
      · have := List.find?_eq_none.1 hfind item hitem
        simpa [hreq] using this

def Distinct (items : List Item) : Prop := (items.map fun item => item.name.map lower).Nodup

theorem Distinct.eq_of_eqCi {items : List Item} {item item' : Item} (h : Distinct items) (hm : item ∈ items) (hm' : item' ∈ items)
    (he : eqCi item.name item'.name = true) : item = item' :=
  List.inj_on_of_nodup_map h hm hm' (beq_iff_eq.1 he)

/-! ## The theorem -/

theorem Assigned.clear {items : List Item} {argv : List Text} (h : Assigned items argv (forEach items 0 argv)) :
    Clear items argv := by
  have hgiven := given_congr (forEach_spelled items 0 argv)
  have hplaced := forEach_placed items 0 argv
  rw [List.drop_zero] at hplaced
  refine ⟨fun item hitem hm => ?_, fun i hi item hget hm => ?_, fun item hitem hreq => ?_⟩
  · have hone := h.single item hitem hm
    rw [values_eq, hgiven] at hone
    omega
  · -- a value by name, and a bare token
    have hone := h.single item (List.mem_filter.1 (List.mem_of_getElem? hget)).1 hm
    obtain ⟨token, htoken⟩ := Aegir.Lib.fill_reaches hi hget
    rw [← hplaced] at htoken
    have hpos : 0 < (placed (forEach items 0 argv)).countP (·.1 = item) :=
      List.countP_pos_iff.2 ⟨_, htoken, by simp⟩
    rw [values_eq, hgiven] at hone
    omega
  · rintro ⟨token, hdangling⟩ hzero
    have hd := dangling_congr (forEach_spelled items 0 argv).symm hdangling
    obtain ⟨-, -, -, hswitch, hkeyword⟩ := forEach_fits items 0 argv _ hd item rfl
    obtain ⟨s, hs, heq, hvalue | hsw⟩ := h.required item hitem hreq
    · obtain ⟨-, hfits⟩ := forEach_fits items 0 argv s hs item heq
      have hby : s.word.byName = true := by
        cases hw : s.word with
        | named | keyword => rfl
        | switch | dangling =>
          rw [hw] at hvalue
          cases hvalue
        | bare token =>
          rw [hw] at hfits
          have hpositional := hfits.2.2
          rw [Item.positional, hkeyword, Bool.not_true, Bool.and_false] at hpositional
          cases hpositional
      have hpos : 0 < given (forEach items 0 argv) item :=
        List.countP_pos_iff.2 ⟨s, hs, by simp [heq, hby]⟩
      rw [hgiven] at hpos
      omega
    · rw [hswitch] at hsw
      cases hsw

theorem Clear.assigned {tmpl : Text} {argv : List Text} (hdistinct : Distinct (items tmpl))
    (hone : (((items tmpl).filter Item.positional).filter Item.multiple).length ≤ 1)
    (hread : (read tmpl argv).problem = "") (h : Clear (items tmpl) argv) :
    Assigned (items tmpl) argv (forEach (items tmpl) 0 argv) := by
  obtain ⟨hknown, hfound⟩ := read_ok hread
  have hgiven := given_congr (forEach_spelled (items tmpl) 0 argv)
  have hplaced := forEach_placed (items tmpl) 0 argv
  rw [List.drop_zero] at hplaced
  have hnodup : ((items tmpl).filter Item.positional).Nodup := (List.Nodup.of_map _ hdistinct).filter _
  refine ⟨forEach_tokens _ 0 argv, fun s hs => ?_, fun item hitem hm => ?_, ?_, fun item hitem hreq => ?_⟩
  · obtain ⟨item, hitem⟩ := Option.ne_none_iff_exists'.1 (hknown s hs)
    obtain ⟨hmem, hfits⟩ := forEach_fits _ 0 argv s hs item hitem
    exact ⟨item, hmem, hitem, hfits⟩
  · rw [values_eq, hgiven, hplaced]
    rcases Nat.eq_zero_or_pos ((fill Item.multiple ((items tmpl).filter Item.positional)
      (bareTokens (spell (items tmpl) argv))).countP (·.1 = item)) with hzero | hpos
    · rw [hzero]
      exact h.once item hitem hm
    · obtain ⟨p, hp, heq⟩ := List.countP_pos_iff.1 hpos
      obtain ⟨i, hi, hget⟩ := Aegir.Lib.fill_mem hp
      rw [of_decide_eq_true heq] at hget
      rw [h.apart i hi item hget hm, Nat.zero_add]
      exact Aegir.Lib.fill_once hnodup hm _
  · have hkeep : ∀ i < (bareTokens (spell (items tmpl) argv)).length, ∀ item,
        ((items tmpl).filter Item.positional)[i]? = some item →
        (item.multiple || decide (given (spell (items tmpl) argv) item = 0)) = true := by
      intro i hi item hget
      cases hm : item.multiple with
      | true => rfl
      | false => simpa using h.apart i hi item hget hm
    have hshort : ((remaining (items tmpl) argv).filter Item.multiple).length ≤ 1 :=
      ((List.filter_sublist.filter Item.multiple).length_le).trans hone
    rw [hplaced, ← Aegir.Lib.fill_filter _ hkeep]
    exact Aegir.Lib.fill_eq_shares hshort _
  · obtain ⟨s, hs, hname⟩ := List.any_eq_true.1 (hfound item hitem hreq)
    obtain ⟨item', hitem', heq⟩ := (Option.any_eq_true _ _).1 hname
    obtain ⟨hmem, hfits⟩ := forEach_fits _ 0 argv s hs item' hitem'
    obtain rfl := hdistinct.eq_of_eqCi hmem hitem heq
    cases hw : s.word with
    | named | keyword | bare => exact ⟨s, hs, hitem', Or.inl (by rw [hw]; rfl)⟩
    | switch token =>
      rw [hw] at hfits
      exact ⟨s, hs, hitem', Or.inr hfits.2.2⟩
    | dangling token =>
      have hd : (⟨some item', .dangling token⟩ : Supplied) ∈ forEach (items tmpl) 0 argv := by
        rw [← hitem', ← hw]
        exact hs
      have hne := h.closed item' hitem hreq ⟨token, dangling_congr (forEach_spelled _ 0 argv) hd⟩
      rw [← hgiven] at hne
      obtain ⟨s', hs', heq', hvalue⟩ := exists_of_given hne
      exact ⟨s', hs', heq', Or.inl hvalue⟩

/-- A line that is accepted is the items' as it should be exactly when no item meets it twice. -/
theorem assigned_iff (tmpl : Text) (argv : List Text) (hdistinct : Distinct (items tmpl))
    (hone : (((items tmpl).filter Item.positional).filter Item.multiple).length ≤ 1)
    (hread : (read tmpl argv).problem = "") :
    Assigned (items tmpl) argv (forEach (items tmpl) 0 argv) ↔ Clear (items tmpl) argv :=
  ⟨Assigned.clear, Clear.assigned hdistinct hone hread⟩

/-! ## A positional item that is given by name -/

/-- `FROM,TO` -/
def fromTo : Text := ['F', 'R', 'O', 'M', ',', 'T', 'O']

/-- `FROM=a b`: `FROM` has both, and `TO` has nothing. -/
theorem named_filled_again :
    (read fromTo [['F', 'R', 'O', 'M', '=', 'a'], ['b']]).problem = "" ∧
      ¬ Assigned (items fromTo) [['F', 'R', 'O', 'M', '=', 'a'], ['b']]
        (forEach (items fromTo) 0 [['F', 'R', 'O', 'M', '=', 'a'], ['b']]) := by
  refine ⟨by decide, fun h => ?_⟩
  have hone := h.single ⟨['F', 'R', 'O', 'M'], false, false, false, false, false⟩ (by decide) rfl
  exact absurd hone (by decide)

/-- `TO=a b`: `FROM` has the bare token. -/
theorem assigned_to :
    Assigned (items fromTo) [['T', 'O', '=', 'a'], ['b']] (forEach (items fromTo) 0 [['T', 'O', '=', 'a'], ['b']]) := by
  refine (assigned_iff fromTo _ (by unfold Distinct; decide) (by decide) (by decide)).2 ⟨?_, ?_, ?_⟩
  · decide
  · intro i hi item hget _
    have hlength : (bareTokens (spell (items fromTo) [['T', 'O', '=', 'a'], ['b']])).length = 1 := by decide
    obtain rfl : i = 0 := by omega
    have hfrom : ((items fromTo).filter Item.positional)[0]? =
        some ⟨['F', 'R', 'O', 'M'], false, false, false, false, false⟩ := by decide
    obtain rfl := Option.some.inj (hfrom.symm.trans hget)
    decide
  · intro item hitem hreq
    have hnone : ∀ item ∈ items fromTo, item.required = false := by decide
    rw [hnone item hitem] at hreq
    cases hreq

end Aegir.Args
