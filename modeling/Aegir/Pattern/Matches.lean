/-
  The matcher answers for the language of a pattern (aegir-pattern, `pattern.cc`).
-/
import Aegir.Pattern.Match

namespace Aegir.Pattern

open Computability

/-! ## The condition -/

/-- The parentheses of a text match, after so many that are open, -/
def Balanced : ℕ → List UInt8 → Prop
  | depth, [] => depth = 0
  | depth, c :: w =>
    if c = paren then Balanced (depth + 1) w
    else if c = parenEnd then depth ≠ 0 ∧ Balanced (depth - 1) w
    else Balanced depth w

/-- and all its bars stand between them. -/
def Enclosed : ℕ → List UInt8 → Prop
  | depth, [] => depth = 0
  | depth, c :: w =>
    if c = paren then Enclosed (depth + 1) w
    else if c = parenEnd then depth ≠ 0 ∧ Enclosed (depth - 1) w
    else if c = bar then depth ≠ 0 ∧ Enclosed depth w
    else Enclosed depth w

mutual

/-- Each alternative of a group is enclosed, characters that are quoted or in a class among its text,
    and the last one is not empty. -/
def Expr.Scanned : Expr → Prop
  | .group alternatives => alternatives.Scanned
  | .repeat_ x => x.Scanned
  | .not_ x => x.Scanned
  | _ => True

def Sequence.Scanned : Sequence → Prop
  | .nil => True
  | .cons x xs => x.Scanned ∧ xs.Scanned

def Alternatives.Scanned : Alternatives → Prop
  | .last xs => xs.Scanned ∧ Enclosed 0 xs.render ∧ xs.render ≠ []
  | .cons xs more => xs.Scanned ∧ Enclosed 0 xs.render ∧ more.Scanned

end

/-! ## Scans -/

variable {d : ℕ} {w v rest : List UInt8}

theorem Enclosed.balanced (h : Enclosed d w) : Balanced d w := by
  induction w generalizing d with
  | nil => exact h
  | cons c w ih =>
    unfold Enclosed at h
    unfold Balanced
    split_ifs at h ⊢
    · exact ih h
    · exact ⟨h.1, ih h.2⟩
    · exact ih h.2
    · exact ih h

theorem Balanced.append (h : Balanced d w) (h' : Balanced 0 v) : Balanced d (w ++ v) := by
  induction w generalizing d with
  | nil =>
    rw [show d = 0 from h]
    exact h'
  | cons c w ih =>
    rw [List.cons_append]
    unfold Balanced at h ⊢
    split_ifs at h ⊢
    · exact ih h
    · exact ⟨h.1, ih h.2⟩
    · exact ih h

theorem groupFrom_balanced (h : Balanced d w) (rest : List UInt8) :
    groupFrom (d + 1) (w ++ parenEnd :: rest) = some (w.length + 1) := by
  induction w generalizing d with
  | nil =>
    rw [show d = 0 from h, List.nil_append, groupFrom, if_neg (by decide), if_pos rfl, if_pos rfl]
    rfl
  | cons c w ih =>
    rw [List.cons_append, groupFrom]
    unfold Balanced at h
    split_ifs at h ⊢ with h₁ h₂ h₃
    · rw [ih h]
      rfl
    · exact absurd (Nat.succ.inj h₃) h.1
    · obtain ⟨d, rfl⟩ := Nat.exists_eq_succ_of_ne_zero h.1
      have hrest := ih h.2
      rw [Nat.succ_sub_one] at hrest
      rw [Nat.add_sub_cancel, hrest]
      rfl
    · rw [ih h]
      rfl

theorem alternativeEnd_enclosed (h : Enclosed d w) (hrest : rest = [] ∨ rest.head? = some bar) :
    alternativeEnd d (w ++ rest) = w.length := by
  induction w generalizing d with
  | nil =>
    rw [show d = 0 from h, List.nil_append]
    cases rest with
    | nil => rfl
    | cons c rest =>
      have hbar : c = bar := by simpa using hrest
      rw [alternativeEnd, if_neg (by rw [hbar]; decide), if_neg (by rw [hbar]; decide), if_pos ⟨hbar, rfl⟩]
      rfl
  | cons c w ih =>
    rw [List.cons_append, alternativeEnd]
    unfold Enclosed at h
    by_cases hopen : c = paren
    · rw [if_pos hopen] at h ⊢
      have hdepth : (d : ℤ) + 1 = (d + 1 : ℕ) := rfl
      rw [hdepth, ih h]
      rfl
    · rw [if_neg hopen] at h ⊢
      by_cases hclose : c = parenEnd
      · rw [if_pos hclose] at h ⊢
        have hdepth : (d : ℤ) - 1 = (d - 1 : ℕ) := by
          have := h.1
          omega
        rw [hdepth, ih h.2]
        rfl
      · rw [if_neg hclose] at h ⊢
        by_cases hbar : c = bar
        · rw [if_pos hbar] at h
          rw [if_neg fun hall => h.1 (Int.ofNat_eq_zero.1 hall.2), ih h.2]
          rfl
        · rw [if_neg hbar] at h
          rw [if_neg fun hall => hbar hall.1, ih h]
          rfl

def Alternatives.texts : Alternatives → List (List UInt8)
  | .last xs => [xs.render]
  | .cons xs more => xs.render :: more.texts

theorem Alternatives.balanced {alts : Alternatives} (h : alts.Scanned) : Balanced 0 alts.render := by
  cases alts with
  | last xs => exact h.2.1.balanced
  | cons xs more => exact h.2.1.balanced.append (Alternatives.balanced h.2.2)
termination_by structural alts

theorem Alternatives.alternativesFrom_render {alts : Alternatives} (h : alts.Scanned) {n : ℕ}
    (hn : alts.render.length ≤ n) : alternativesFrom n alts.render = alts.texts := by
  cases alts with
  | last xs =>
    obtain ⟨-, henclosed, hne⟩ := h
    have hend : alternativeEnd 0 xs.render = xs.render.length := by
      have hall : alternativeEnd 0 (xs.render ++ []) = _ := alternativeEnd_enclosed henclosed (.inl rfl)
      rwa [List.append_nil] at hall
    cases n with
    | zero => exact absurd (List.eq_nil_of_length_eq_zero (Nat.le_zero.1 hn)) hne
    | succ n =>
      show (if xs.render = [] then [] else xs.render.take (alternativeEnd 0 xs.render) ::
        alternativesFrom n (xs.render.drop (alternativeEnd 0 xs.render + 1))) = [xs.render]
      rw [if_neg hne, hend, List.take_length, List.drop_of_length_le (Nat.le_succ _)]
      cases n with
      | zero => rfl
      | succ n => rfl
  | cons xs more =>
    obtain ⟨-, henclosed, hmore⟩ := h
    have hend : alternativeEnd 0 (xs.render ++ bar :: more.render) = xs.render.length :=
      alternativeEnd_enclosed henclosed (.inr rfl)
    have hlength : (xs.render ++ bar :: more.render).length ≤ n := hn
    rw [List.length_append, List.length_cons] at hlength
    cases n with
    | zero => omega
    | succ n =>
      show (if xs.render ++ bar :: more.render = [] then [] else
        (xs.render ++ bar :: more.render).take (alternativeEnd 0 (xs.render ++ bar :: more.render)) ::
          alternativesFrom n ((xs.render ++ bar :: more.render).drop
            (alternativeEnd 0 (xs.render ++ bar :: more.render) + 1))) = xs.render :: more.texts
      rw [if_neg (by simp), hend, List.take_left, List.drop_append, List.drop_of_length_le (Nat.le_succ _), Nat.add_sub_cancel_left,
        List.nil_append, List.drop_one, List.tail_cons, Alternatives.alternativesFrom_render hmore (by omega)]
termination_by structural alts

theorem idxOf?_append {content : List UInt8} (h : bracketEnd ∉ content) (rest : List UInt8) :
    (content ++ bracketEnd :: rest).idxOf? bracketEnd = some content.length := by
  induction content with
  | nil => rfl
  | cons c content ih =>
    rw [List.mem_cons, not_or] at h
    rw [List.cons_append, List.idxOf?_cons, ih h.2]
    simp [Ne.symm h.1]

theorem Expr.exprEnd_render {x : Expr} {grouped : Bool} (hwell : x.WellFormed grouped) (hscan : x.Scanned)
    (rest : List UInt8) : exprEnd (x.render ++ rest) = x.render.length := by
  cases x with
  | char c =>
    obtain ⟨hc, -⟩ := hwell
    simp only [List.mem_cons, List.not_mem_nil, or_false, not_or] at hc
    obtain ⟨h₁, -, -, h₂, h₃, h₄, h₅⟩ := hc
    show exprEnd (c :: rest) = 1
    rw [exprEnd, if_neg h₁, if_neg h₂, if_neg h₃, if_neg (not_or.2 ⟨h₄, h₅⟩)]
  | quoted c =>
    show exprEnd (quote :: c :: rest) = 2
    rw [exprEnd, if_pos rfl, List.length_cons]
    omega
  | any => rfl
  | none_ => rfl
  | class_ content =>
    have htext : (Expr.class_ content).render ++ rest = bracket :: (content ++ bracketEnd :: rest) := by
      simp [Expr.render]
    have hlength : (Expr.class_ content).render.length = content.length + 2 := by
      simp [Expr.render]
    rw [htext, exprEnd, if_neg (by decide), if_pos rfl, idxOf?_append hwell, hlength]
    rfl
  | group alts =>
    have htext : (Expr.group alts).render ++ rest = paren :: (alts.render ++ parenEnd :: rest) := by
      simp [Expr.render]
    have hlength : (Expr.group alts).render.length = alts.render.length + 2 := by
      simp [Expr.render]
    have hclose := groupFrom_balanced (Alternatives.balanced hscan) rest
    rw [Nat.zero_add] at hclose
    rw [htext, exprEnd, if_neg (by decide), if_neg (by decide), if_pos rfl, hclose, hlength]
    rfl
  | repeat_ x =>
    show exprEnd (hash :: (x.render ++ rest)) = x.render.length + 1
    rw [exprEnd, if_neg (by decide), if_neg (by decide), if_neg (by decide), if_pos (.inl rfl),
      Expr.exprEnd_render (x := x) hwell hscan rest]
  | not_ x =>
    show exprEnd (tilde :: (x.render ++ rest)) = x.render.length + 1
    rw [exprEnd, if_neg (by decide), if_neg (by decide), if_neg (by decide), if_pos (.inr rfl),
      Expr.exprEnd_render (x := x) hwell hscan rest]
termination_by structural x

/-! ## Languages -/

/-- A matcher answers for the names whose folded form is of a language. -/
def Answers (f : List UInt8 → Bool) (l : Language UInt8) : Prop := ∀ s, f s = true ↔ s.map fold ∈ l

variable {le : UInt8 → UInt8 → Bool} {f g : List UInt8 → Bool} {l m : Language UInt8} {s p : List UInt8} {c : UInt8}

theorem mem_mul_iff : s.map fold ∈ l * m ↔
    ∃ k ∈ List.range (s.length + 1), (s.take k).map fold ∈ l ∧ (s.drop k).map fold ∈ m := by
  rw [Language.mem_mul]
  constructor
  · rintro ⟨a, ha, b, hb, heq⟩
    have hlen := congrArg List.length heq
    rw [List.length_append, List.length_map] at hlen
    refine ⟨a.length, List.mem_range.2 (by omega), ?_, ?_⟩
    · rwa [List.map_take, ← heq, List.take_left]
    · rwa [List.map_drop, ← heq, List.drop_left]
  · rintro ⟨k, -, hl, hm⟩
    exact ⟨_, hl, _, hm, by rw [← List.map_append, List.take_append_drop]⟩

theorem any_cut_iff (hf : Answers f l) (hg : Answers g m) :
    ((List.range (s.length + 1)).any fun k => f (s.take k) && g (s.drop k)) = true ↔ s.map fold ∈ l * m := by
  rw [List.any_eq_true, mem_mul_iff]
  simp only [Bool.and_eq_true, hf _, hg _]

theorem matchRep_answers (hf : Answers f l) (hg : Answers g m) {n : ℕ} (hn : s.length ≤ n) :
    matchRep f g n s = true ↔ s.map fold ∈ l∗ * m := by
  have hnone : ∀ t : List UInt8, g t = true → t.map fold ∈ l∗ * m := fun t ht =>
    Language.mem_mul.2 ⟨[], Language.nil_mem_kstar l, _, (hg t).1 ht, rfl⟩
  induction n generalizing s with
  | zero =>
    have hnil := List.eq_nil_of_length_eq_zero (Nat.le_zero.1 hn)
    subst hnil
    refine ⟨hnone [], fun h => (hg []).2 ?_⟩
    obtain ⟨a, -, b, hb, heq⟩ := Language.mem_mul.1 h
    rwa [(List.append_eq_nil_iff.1 heq).2] at hb
  | succ n ih =>
    rw [matchRep, Bool.or_eq_true, List.any_eq_true]
    constructor
    · rintro (h | ⟨k, hk, hboth⟩)
      · exact hnone s h
      · have hshort : (s.drop (k + 1)).length ≤ n := by
          rw [List.length_drop]
          omega
        have hrest : matchRep f g n (s.drop (k + 1)) = true ↔ (s.drop (k + 1)).map fold ∈ l∗ * m := ih hshort
        rw [Bool.and_eq_true, hf, hrest] at hboth
        obtain ⟨a, ha, b, hb, heq⟩ := Language.mem_mul.1 hboth.2
        obtain ⟨pieces, rfl, hpieces⟩ := Language.mem_kstar.1 ha
        refine Language.mem_mul.2 ⟨_, Language.join_mem_kstar (List.forall_mem_cons.2 ⟨hboth.1, hpieces⟩), b, hb, ?_⟩
        rw [List.flatten_cons, List.append_assoc, heq, ← List.map_append, List.take_append_drop]
    · intro h
      obtain ⟨a, ha, b, hb, heq⟩ := Language.mem_mul.1 h
      rw [Language.kstar_def_nonempty] at ha
      obtain ⟨pieces, rfl, hpieces⟩ := ha
      cases pieces with
      | nil =>
        refine .inl ((hg s).2 ?_)
        rwa [← heq]
      | cons y pieces =>
        obtain ⟨⟨hy, hne⟩, hmore⟩ := List.forall_mem_cons.1 hpieces
        rw [List.flatten_cons, List.append_assoc] at heq
        have hpos := List.length_pos_iff.2 hne
        have hlen := congrArg List.length heq
        rw [List.length_append, List.length_map] at hlen
        obtain ⟨k, hk⟩ := Nat.exists_eq_succ_of_ne_zero (Nat.pos_iff_ne_zero.1 hpos)
        refine .inr ⟨k, List.mem_range.2 (by omega), ?_⟩
        have hshort : (s.drop (k + 1)).length ≤ n := by
          rw [List.length_drop]
          omega
        have hrest : matchRep f g n (s.drop (k + 1)) = true ↔ (s.drop (k + 1)).map fold ∈ l∗ * m := ih hshort
        rw [Bool.and_eq_true, hf, hrest, ← Nat.succ_eq_add_one, ← hk]
        rw [List.map_take, List.map_drop, ← heq, List.take_left, List.drop_left]
        exact ⟨hy, Language.mem_mul.2 ⟨_, Language.join_mem_kstar fun z hz => (hmore z hz).1, b, hb, rfl⟩⟩

theorem mem_single_mul_iff {P : UInt8 → Prop} : s.map fold ∈ single P * m ↔
    ∃ ch t, s = ch :: t ∧ P (fold ch) ∧ t.map fold ∈ m := by
  rw [Language.mem_mul]
  constructor
  · rintro ⟨a, ⟨c, rfl, hc⟩, b, hb, heq⟩
    cases s with
    | nil => cases heq
    | cons ch t =>
      rw [List.map_cons, List.singleton_append] at heq
      obtain ⟨rfl, rfl⟩ := List.cons.inj heq
      exact ⟨ch, t, rfl, hc, hb⟩
  · rintro ⟨ch, t, rfl, hch, ht⟩
    exact ⟨[fold ch], ⟨_, rfl, hch⟩, _, ht, rfl⟩

theorem classFrom_iff (ch : UInt8) (content : List UInt8) (found : Bool) : classFrom le ch content found = true ↔
    found = true ∨ ∃ item ∈ classItems content, item.Names le (fold ch) := by
  have hone : ∀ (c : UInt8) (found : Bool), (if fold ch = fold c then true else found) = true ↔
      found = true ∨ (ClassItem.one c).Names le (fold ch) := by
    intro c found
    by_cases h : fold ch = fold c
    · rw [if_pos h]
      exact ⟨fun _ => .inr h, fun _ => rfl⟩
    · rw [if_neg h]
      exact ⟨.inl, fun hor => hor.resolve_right h⟩
  fun_induction classItems content generalizing found with
  | case1 => simp [classFrom]
  | case2 c =>
    rw [classFrom, hone]
    simp
  | case3 c d =>
    rw [classFrom, classFrom, hone, hone, or_assoc]
    simp
  | case4 c e text ih =>
    have hrange : (if le (fold c) (fold ch) ∧ le (fold ch) (fold e) then true else found) = true ↔
        found = true ∨ (ClassItem.range c e).Names le (fold ch) := by
      by_cases h : le (fold c) (fold ch) ∧ le (fold ch) (fold e)
      · rw [if_pos h]
        exact ⟨fun _ => .inr h, fun _ => rfl⟩
      · rw [if_neg h]
        exact ⟨.inl, fun hor => hor.resolve_right h⟩
    have hrest : ∀ found, classFrom le ch text found = true ↔
        found = true ∨ ∃ item ∈ classItems text, item.Names le (fold ch) := ih
    rw [classFrom, if_pos rfl, hrest, hrange, or_assoc, List.exists_mem_cons_iff]
  | case5 c d e text hdash ih =>
    have hrest : ∀ found, classFrom le ch (d :: e :: text) found = true ↔
        found = true ∨ ∃ item ∈ classItems (d :: e :: text), item.Names le (fold ch) := ih
    rw [classFrom, if_neg hdash, hrest, hone, or_assoc, List.exists_mem_cons_iff]

theorem classHas_iff (content : List UInt8) (ch : UInt8) :
    classHas le content ch = true ↔ ClassHas le content (fold ch) := by
  unfold classHas ClassHas
  split
  · rw [Bool.not_eq_true', ← Bool.not_eq_true, classFrom_iff]
    simp
  · rw [classFrom_iff]
    simp

/-! ## Matching -/

theorem matchSub_nil : Answers (matchSub le []) 1 := by
  intro s
  rw [matchSub, Language.mem_one, List.isEmpty_iff, List.map_eq_nil_iff]

theorem cut_text (text rest : List UInt8) (opened closed : UInt8) :
    ¬ (text.length + 2 < 2 ∨ (opened :: (text ++ closed :: rest))[text.length + 2 - 1]? ≠ some closed) ∧
    (text ++ closed :: rest).take (text.length + 2 - 2) = text ∧
    (text ++ closed :: rest).drop (text.length + 2 - 1) = rest := by
  refine ⟨?_, List.take_left' rfl, ?_⟩
  · rw [Nat.add_sub_assoc (by decide), List.getElem?_cons_succ, List.getElem?_append_right (Nat.le_refl _), Nat.sub_self]
    simp
  · rw [Nat.add_sub_assoc (by decide), List.drop_append, List.drop_of_length_le (Nat.le_add_right _ _),
      Nat.add_sub_cancel_left]
    rfl

theorem char_answers (hg : Answers g m) : (match s with
    | [] => false
    | ch :: t => fold c == fold ch && g t) = true ↔ s.map fold ∈ single (fold c = ·) * m := by
  rw [mem_single_mul_iff]
  cases s with
  | nil => simp
  | cons ch t =>
    rw [Bool.and_eq_true, beq_iff_eq, hg]
    constructor
    · exact fun h => ⟨ch, t, rfl, h⟩
    · rintro ⟨_, _, heq, h⟩
      obtain ⟨rfl, rfl⟩ := List.cons.inj heq
      exact h

mutual

theorem Expr.answers {x : Expr} {grouped : Bool} (hwell : x.WellFormed grouped) (hscan : x.Scanned)
    {rest : List UInt8} {m : Language UInt8} (hrest : Answers (matchSub le rest) m) :
    Answers (matchSub le (x.render ++ rest)) (x.denote le * m) := by
  intro s
  cases x with
  | char c =>
    obtain ⟨hc, -⟩ := hwell
    simp only [List.mem_cons, List.not_mem_nil, or_false, not_or] at hc
    obtain ⟨h₁, h₂, h₃, h₄, h₅, h₆, h₇⟩ := hc
    show matchSub le (c :: rest) s = true ↔ _
    rw [matchSub.eq_def]
    dsimp only
    rw [if_neg h₆, if_neg h₇, if_neg h₅, if_neg h₄, if_neg h₁, if_neg h₃, if_neg h₂]
    exact char_answers hrest
  | quoted c =>
    show matchSub le (quote :: c :: rest) s = true ↔ _
    rw [matchSub.eq_def]
    dsimp only
    rw [if_neg (by decide), if_neg (by decide), if_neg (by decide), if_neg (by decide), if_pos rfl]
    refine Iff.trans ?_ (char_answers hrest)
    cases s with
    | nil => rfl
    | cons ch t => rfl
  | any =>
    show matchSub le (question :: rest) s = true ↔ s.map fold ∈ single (fun _ => True) * m
    rw [matchSub.eq_def, mem_single_mul_iff]
    dsimp only
    rw [if_neg (by decide), if_neg (by decide), if_neg (by decide), if_neg (by decide), if_neg (by decide),
      if_neg (by decide), if_pos rfl]
    cases s with
    | nil => simp
    | cons ch t =>
      dsimp only
      rw [hrest]
      simp
  | none_ =>
    show matchSub le (percent :: rest) s = true ↔ s.map fold ∈ 1 * m
    rw [matchSub.eq_def, one_mul]
    dsimp only
    rw [if_neg (by decide), if_neg (by decide), if_neg (by decide), if_neg (by decide), if_neg (by decide), if_pos rfl]
    exact hrest s
  | class_ content =>
    have hend := Expr.exprEnd_render (x := .class_ content) hwell hscan rest
    have hlength : (Expr.class_ content).render.length = content.length + 2 := by
      simp [Expr.render]
    have htext : (Expr.class_ content).render ++ rest = bracket :: (content ++ bracketEnd :: rest) := by
      simp [Expr.render]
    rw [hlength, htext] at hend
    show _ ↔ s.map fold ∈ single (ClassHas le content) * m
    rw [htext, matchSub.eq_def, mem_single_mul_iff]
    dsimp only
    obtain ⟨hcut, htake, hdrop⟩ := cut_text content rest bracket bracketEnd
    rw [if_neg (by decide), if_neg (by decide), if_neg (by decide), if_pos rfl, hend, if_neg hcut, htake, hdrop]
    cases s with
    | nil => simp
    | cons ch t =>
      dsimp only
      rw [Bool.and_eq_true, classHas_iff, hrest]
      constructor
      · exact fun h => ⟨ch, t, rfl, h⟩
      · rintro ⟨_, _, heq, h⟩
        obtain ⟨rfl, rfl⟩ := List.cons.inj heq
        exact h
  | group alts =>
    have hend := Expr.exprEnd_render (x := .group alts) hwell hscan rest
    have hlength : (Expr.group alts).render.length = alts.render.length + 2 := by
      simp [Expr.render]
    have htext : (Expr.group alts).render ++ rest = paren :: (alts.render ++ parenEnd :: rest) := by
      simp [Expr.render]
    rw [hlength, htext] at hend
    show _ ↔ s.map fold ∈ alts.denote le * m
    rw [htext, matchSub.eq_def, ← Alternatives.answers hwell hscan hrest]
    dsimp only
    obtain ⟨hcut, htake, hdrop⟩ := cut_text alts.render rest paren parenEnd
    rw [if_neg (by decide), if_neg (by decide), if_pos rfl, hend, if_neg hcut, htake, hdrop, List.any_eq_true]
    have halts : alternatives alts.render = alts.texts := Alternatives.alternativesFrom_render hscan (Nat.le_refl _)
    constructor
    · rintro ⟨⟨a, ha⟩, -, h⟩
      exact ⟨a, halts ▸ ha, h⟩
    · rintro ⟨a, ha, h⟩
      exact ⟨⟨a, halts ▸ ha⟩, List.mem_attach _ _, h⟩
  | repeat_ x =>
    have hend := x.exprEnd_render hwell hscan rest
    show matchSub le (hash :: (x.render ++ rest)) s = true ↔ s.map fold ∈ (x.denote le)∗ * m
    rw [matchSub.eq_def]
    dsimp only
    rw [if_pos rfl, hend, List.take_left, List.drop_left]
    refine matchRep_answers ?_ hrest (Nat.le_refl _)
    have hx : Answers (matchSub le (x.render ++ [])) (x.denote le * 1) := Expr.answers (x := x) hwell hscan matchSub_nil
    rwa [List.append_nil, mul_one] at hx
  | not_ x =>
    have hend := x.exprEnd_render hwell hscan rest
    show matchSub le (tilde :: (x.render ++ rest)) s = true ↔ _
    rw [matchSub.eq_def]
    dsimp only
    rw [if_neg (by decide), if_pos rfl, hend, List.take_left, List.drop_left]
    have hx : Answers (matchSub le (x.render ++ [])) (x.denote le * 1) := Expr.answers (x := x) hwell hscan matchSub_nil
    rw [List.append_nil, mul_one] at hx
    refine any_cut_iff (f := fun t => !matchSub le x.render t) (fun t => ?_) hrest
    rw [Bool.not_eq_true', ← Bool.not_eq_true, hx t]
    rfl

theorem Sequence.answers {xs : Sequence} {grouped : Bool} (hwell : xs.WellFormed grouped) (hscan : xs.Scanned) :
    Answers (matchSub le xs.render) (xs.denote le) := by
  cases xs with
  | nil => exact matchSub_nil
  | cons x xs => exact Expr.answers hwell.1 hscan.1 (Sequence.answers hwell.2 hscan.2)

theorem Alternatives.answers {alts : Alternatives} (hwell : alts.WellFormed) (hscan : alts.Scanned)
    {rest : List UInt8} {m : Language UInt8} (hrest : Answers (matchSub le rest) m) {s : List UInt8} :
    (∃ a ∈ alts.texts, ((List.range (s.length + 1)).any fun k =>
      matchSub le a (s.take k) && matchSub le rest (s.drop k)) = true) ↔ s.map fold ∈ alts.denote le * m := by
  cases alts with
  | last xs =>
    show _ ↔ s.map fold ∈ xs.denote le * m
    rw [← any_cut_iff (Sequence.answers hwell hscan.1) hrest]
    exact ⟨fun ⟨a, ha, h⟩ => List.mem_singleton.1 ha ▸ h, fun h => ⟨_, List.mem_singleton_self _, h⟩⟩
  | cons xs more =>
    show _ ↔ s.map fold ∈ (xs.denote le + more.denote le) * m
    rw [add_mul, Language.mem_add, ← any_cut_iff (Sequence.answers hwell.1 hscan.1) hrest,
      ← Alternatives.answers hwell.2 hscan.2.2 hrest]
    exact List.exists_mem_cons_iff _ _ _

end

def leNat (a b : UInt8) : Bool := decide (a ≤ b)

/-- The pattern `(a|b)#c`. -/
def small : Sequence := .cons (.group (.cons (.cons (.char 0x61) .nil) (.last (.cons (.char 0x62) .nil))))
  (.cons (.repeat_ (.char 0x63)) .nil)

/-- The pattern `(a'|b)`, and `(a|)`. -/
def quotedBar : Sequence := .cons (.group (.last (.cons (.char 0x61) (.cons (.quoted bar) (.cons (.char 0x62) .nil))))) .nil
def emptyLast : Sequence := .cons (.group (.cons (.cons (.char 0x61) .nil) (.last .nil))) .nil

end Aegir.Pattern
