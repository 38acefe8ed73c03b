/-
  The grammar of queries, and that the parser and the evaluation are its meaning.
-/
import Aegir.Query.Parser

namespace Aegir.Query

/-! ## Trees -/

inductive Tree where
  | equation (e : QueryEquation)
  | and (l r : Tree)
  | or (l r : Tree)
deriving DecidableEq

/-- The terms of a tree, operands first. -/
def Tree.postorder : Tree → List QueryTerm
  | .equation e => [.equation e]
  | .and l r => l.postorder ++ r.postorder ++ [.operator .and]
  | .or l r => l.postorder ++ r.postorder ++ [.operator .or]

def Tree.value (answer : QueryEquation → Bool) : Tree → Bool
  | .equation e => answer e
  | .and l r => l.value answer && r.value answer
  | .or l r => l.value answer || r.value answer

def Tree.leaves : Tree → ℕ
  | .equation _ => 1
  | .and l r | .or l r => l.leaves + r.leaves

theorem Tree.leaves_pos (t : Tree) : 0 < t.leaves := by
  induction t with
  | equation e => exact Nat.one_pos
  | and l r hl _ => exact Nat.add_pos_left hl _
  | or l r hl _ => exact Nat.add_pos_left hl _

theorem Tree.leaves_le (t : Tree) : t.leaves ≤ t.postorder.length := by
  induction t with
  | equation e => exact le_refl 1
  | and l r hl hr =>
    simp only [leaves, Tree.postorder, List.length_append]
    omega
  | or l r hl hr =>
    simp only [leaves, Tree.postorder, List.length_append]
    omega

theorem Tree.postorder_ne_nil (t : Tree) : t.postorder ≠ [] := by
  have h₁ := t.leaves_pos
  have h₂ := t.leaves_le
  intro h
  rw [h, List.length_nil] at h₂
  omega

theorem evalTerms_postorder {answer : QueryEquation → Bool} (t : Tree) (terms : List QueryTerm) {stack : List Bool}
    (h : stack.length + t.leaves ≤ kMaxQueryTerms) :
    evalTerms answer (t.postorder ++ terms) stack = evalTerms answer terms (t.value answer :: stack) := by
  induction t generalizing terms stack with
  | equation e =>
    rw [Tree.leaves] at h
    rw [Tree.postorder, List.singleton_append, evalTerms, if_neg (by omega)]
    rfl
  | and l r hl hr =>
    have hpos := l.leaves_pos
    rw [Tree.leaves] at h
    rw [Tree.postorder, List.append_assoc, List.append_assoc, hl _ (by omega),
      hr _ (by rw [List.length_cons]; omega), List.singleton_append, evalTerms, if_pos rfl]
    rfl
  | or l r hl hr =>
    have hpos := l.leaves_pos
    rw [Tree.leaves] at h
    rw [Tree.postorder, List.append_assoc, List.append_assoc, hl _ (by omega),
      hr _ (by rw [List.length_cons]; omega), List.singleton_append, evalTerms, if_neg (by decide)]
    rfl

/-! ## The grammar -/

def Spaces (ws : Text) : Prop := ∀ c ∈ ws, isSpace c = true

/-- The text between two quotes and the bytes it stands for: a backslash takes the next
    byte as it is. -/
inductive Escaped (quote : UInt8) : Text → Text → Prop
  | nil : Escaped quote [] []
  | char {c s t} : c ≠ quote → c ≠ byte '\\' → Escaped quote s t → Escaped quote (c :: s) (c :: t)
  | escape {d s t} : Escaped quote s t → Escaped quote (byte '\\' :: d :: s) (d :: t)

/-- A bare operand: no operator in it, no space around it, and it does not start with a
    quote. -/
structure Bare (s : Text) : Prop where
  first : ∃ c, s.head? = some c ∧ isSpace c = false ∧ isQuote c = false
  last : ∃ c, s.getLast? = some c ∧ isSpace c = false
  chars : ∀ c ∈ s, isOperatorStart c = false

/-- An operand's text, whether it is quoted, and its bytes. -/
inductive Operand : Text → Bool → Text → Prop
  | quoted {q s t} : isQuote q = true → Escaped q s t → Operand (q :: s ++ [q]) true t
  | bare {s} : Bare s → Operand s false s

inductive OpText : Text → QueryOp → Prop
  | equal : OpText [byte '='] .equal
  | equalEqual : OpText [byte '=', byte '='] .equal
  | unequal : OpText [byte '!', byte '='] .unequal
  | less : OpText [byte '<'] .less
  | lessEqual : OpText [byte '<', byte '='] .lessEqual
  | greater : OpText [byte '>'] .greater
  | greaterEqual : OpText [byte '>', byte '='] .greaterEqual

/-- `attribute op value` -/
inductive Equation : Text → Tree → Prop
  | mk {ws₁ a quotedName name ws₂ o op ws₃ v quoted value} :
    Spaces ws₁ → Operand a quotedName name → name ≠ [] → Spaces ws₂ → OpText o op → Spaces ws₃ →
    Operand v quoted value →
    Equation (ws₁ ++ (a ++ ws₂ ++ (o ++ (ws₃ ++ v)))) (.equation ⟨op, name, literalFor quoted value⟩)

/-- Items between separators, single or doubled, associated to the left. -/
inductive Chain (sep : UInt8) (node : Tree → Tree → Tree) (Item : Text → Tree → Prop) : Text → Tree → Prop
  | one {s t} : Item s t → Chain sep node Item s t
  | more {s ws d l t r} : Chain sep node Item s l → Spaces ws → (d = [sep] ∨ d = [sep, sep]) → Item t r →
    Chain sep node Item (s ++ ws ++ (d ++ t)) (node l r)

def Conjunction : Text → Tree → Prop := Chain (byte '&') .and Equation

def Disjunction : Text → Tree → Prop := Chain (byte '|') .or Conjunction

def Derives (text : Text) (t : Tree) : Prop := ∃ s ws, text = s ++ ws ∧ Spaces ws ∧ Disjunction s t

/-! ## Spaces -/

theorem isOperatorStart_not_space {c : UInt8} (h : isOperatorStart c = true) : isSpace c = false := by
  simp only [isOperatorStart, Bool.or_eq_true, beq_iff_eq] at h
  rcases h with (((((rfl | rfl) | rfl) | rfl) | rfl) | rfl) | rfl <;> decide

theorem isQuote_not_space {c : UInt8} (h : isQuote c = true) : isSpace c = false ∧ isOperatorStart c = false := by
  simp only [isQuote, Bool.or_eq_true, beq_iff_eq] at h
  rcases h with rfl | rfl <;> decide

theorem isSpace_not_operatorStart {c : UInt8} (h : isSpace c = true) : isOperatorStart c = false := by
  simp only [isSpace, Bool.or_eq_true, beq_iff_eq] at h
  rcases h with ((rfl | rfl) | rfl) | rfl <;> decide

section
variable {ws ws' s cs rest : Text} {c : UInt8}

theorem Spaces.append (h : Spaces ws) (h' : Spaces ws') : Spaces (ws ++ ws') := fun c hc =>
  (List.mem_append.1 hc).elim (h c) (h' c)

theorem spaces_nil : Spaces [] := fun _ h => by cases h

theorem skipSpace_spec (cs : Text) :
    ∃ ws, cs = ws ++ skipSpace cs ∧ Spaces ws ∧ ∀ c, (skipSpace cs).head? = some c → isSpace c = false := by
  induction cs with
  | nil => exact ⟨[], rfl, spaces_nil, fun c h => by cases h⟩
  | cons c cs ih =>
    by_cases hc : isSpace c = true
    · obtain ⟨ws, hcs, hws, hhead⟩ := ih
      have hskip : skipSpace (c :: cs) = skipSpace cs := List.dropWhile_cons_of_pos hc
      rw [hskip]
      refine ⟨c :: ws, congrArg (c :: ·) hcs, fun d hd => ?_, hhead⟩
      rcases List.mem_cons.1 hd with rfl | hd
      · exact hc
      · exact hws d hd
    · have hskip : skipSpace (c :: cs) = c :: cs := List.dropWhile_cons_of_neg hc
      rw [hskip]
      refine ⟨[], rfl, spaces_nil, fun d hd => ?_⟩
      cases hd
      simpa using hc

theorem skipSpace_append (hws : Spaces ws) (hrest : ∀ c, rest.head? = some c → isSpace c = false) :
    skipSpace (ws ++ rest) = rest := by
  induction ws with
  | nil =>
    cases rest with
    | nil => rfl
    | cons c rest => exact List.dropWhile_cons_of_neg (by simp [hrest c rfl])
  | cons c ws ih =>
    rw [List.cons_append, skipSpace, List.dropWhile_cons_of_pos (hws c (by simp))]
    exact ih fun d hd => hws d (by simp [hd])

theorem trimSpace_spec (s : Text) :
    ∃ ws, s = trimSpace s ++ ws ∧ Spaces ws ∧ ∀ c, (trimSpace s).getLast? = some c → isSpace c = false := by
  obtain ⟨ws, hs, hws, hhead⟩ := skipSpace_spec s.reverse
  refine ⟨ws.reverse, ?_, fun c hc => hws c (List.mem_reverse.1 hc), fun c hc => hhead c ?_⟩
  · rw [trimSpace, ← List.reverse_append, ← skipSpace, ← hs, List.reverse_reverse]
  · rw [trimSpace, List.getLast?_reverse] at hc
    exact hc

theorem trimSpace_append (hws : Spaces ws) (hs : ∀ c, s.getLast? = some c → isSpace c = false) :
    trimSpace (s ++ ws) = s := by
  rw [trimSpace, List.reverse_append, ← skipSpace, skipSpace_append, List.reverse_reverse]
  · exact fun c hc => hws c (List.mem_reverse.1 hc)
  · intro c hc
    rw [List.head?_reverse] at hc
    exact hs c hc

end

/-! ## Operands -/

/-- What may follow an operand or an equation. -/
def Follow (rest : Text) : Prop := ∀ c, rest.head? = some c → isOperatorStart c = true

theorem Follow.not_space {rest : Text} (h : Follow rest) : ∀ c, rest.head? = some c → isSpace c = false :=
  fun c hc => isOperatorStart_not_space (h c hc)

section
variable {q : UInt8} {capacity : ℕ} {s t cs out rest ws name : Text} {quoted : Bool} {op : QueryOp}

theorem isQuote_ne_backslash (h : isQuote q = true) : byte '\\' ≠ q := by
  rintro rfl
  exact absurd h (by decide)

theorem unescape_of_ne {c : UInt8} (h : c ≠ byte '\\') : unescape c cs = some (c, cs) := if_neg h

theorem unescape_backslash (d : UInt8) : unescape (byte '\\') (d :: cs) = some (d, cs) := if_pos rfl

theorem readQuoted_sound (h : readQuoted q capacity cs = some (out, rest)) :
    ∃ s, cs = s ++ q :: rest ∧ Escaped q s out := by
  induction capacity generalizing cs out with
  | zero =>
    cases cs with
    | nil => cases h
    | cons c cs =>
      rw [readQuoted] at h
      split at h
      · cases h
        exact ⟨[], by simp [*], .nil⟩
      · cases h
  | succ capacity ih =>
    cases cs with
    | nil => cases h
    | cons c cs =>
      rw [readQuoted] at h
      split at h
      · cases h
        exact ⟨[], by simp [*], .nil⟩
      · next hq =>
        obtain ⟨⟨d, cs'⟩, hd, h⟩ := Option.bind_eq_some_iff.1 h
        obtain ⟨⟨o, r⟩, hr, heq⟩ := Option.map_eq_some_iff.1 h
        cases heq
        obtain ⟨s, rfl, hs⟩ := ih hr
        unfold unescape at hd
        split at hd
        · next hb =>
          subst hb
          cases cs with
          | nil => cases hd
          | cons c' cs =>
            cases hd
            exact ⟨byte '\\' :: d :: s, rfl, .escape hs⟩
        · next hb =>
          cases hd
          exact ⟨c :: s, rfl, .char hq hb hs⟩

theorem readQuoted_exact (hq : isQuote q = true) (h : Escaped q s out) :
    readQuoted q capacity (s ++ q :: rest) = none ∨ readQuoted q capacity (s ++ q :: rest) = some (out, rest) := by
  have hb := isQuote_ne_backslash hq
  induction h generalizing capacity with
  | nil => cases capacity <;> exact Or.inr (if_pos rfl)
  | @char c s t hc hne hs ih =>
    cases capacity with
    | zero => exact Or.inl (if_neg hc)
    | succ capacity =>
      rw [List.cons_append, readQuoted, if_neg hc, unescape_of_ne hne, Option.bind_some]
      dsimp only
      rcases @ih capacity with h | h
      · exact Or.inl (by rw [h]; rfl)
      · exact Or.inr (by rw [h]; rfl)
  | @escape d s t hs ih =>
    cases capacity with
    | zero => exact Or.inl (if_neg hb)
    | succ capacity =>
      rw [List.cons_append, List.cons_append, readQuoted, if_neg hb, unescape_backslash, Option.bind_some]
      dsimp only
      rcases @ih capacity with h | h
      · exact Or.inl (by rw [h]; rfl)
      · exact Or.inr (by rw [h]; rfl)

theorem readRun_sound (h : readRun capacity cs = some (out, rest)) :
    cs = out ++ rest ∧ (∀ c ∈ out, isOperatorStart c = false) ∧ Follow rest := by
  induction capacity generalizing cs out with
  | zero =>
    cases cs with
    | nil =>
      cases h
      exact ⟨rfl, (fun _ h => by cases h), (fun _ h => by cases h)⟩
    | cons c cs =>
      rw [readRun] at h
      split at h
      · cases h
        exact ⟨rfl, (fun _ h => by cases h), fun d h => by cases h; assumption⟩
      · cases h
  | succ capacity ih =>
    cases cs with
    | nil =>
      cases h
      exact ⟨rfl, (fun _ h => by cases h), (fun _ h => by cases h)⟩
    | cons c cs =>
      rw [readRun] at h
      split at h
      · cases h
        exact ⟨rfl, (fun _ h => by cases h), fun d h => by cases h; assumption⟩
      · next hc =>
        obtain ⟨⟨o, r⟩, hr, heq⟩ := Option.map_eq_some_iff.1 h
        cases heq
        obtain ⟨rfl, hchars, hrest⟩ := ih hr
        refine ⟨rfl, fun d hd => ?_, hrest⟩
        rcases List.mem_cons.1 hd with rfl | hd
        · simpa using hc
        · exact hchars d hd

theorem readRun_exact (hs : ∀ c ∈ s, isOperatorStart c = false) (hrest : Follow rest) :
    readRun capacity (s ++ rest) = none ∨ readRun capacity (s ++ rest) = some (s, rest) := by
  induction s generalizing capacity with
  | nil =>
    cases rest with
    | nil => cases capacity <;> exact Or.inr rfl
    | cons c rest => cases capacity <;> exact Or.inr (if_pos (hrest c rfl))
  | cons c s ih =>
    have hc : ¬ isOperatorStart c = true := by simp [hs c (by simp)]
    cases capacity with
    | zero => exact Or.inl (if_neg hc)
    | succ capacity =>
      rw [List.cons_append, readRun, if_neg hc]
      rcases @ih capacity fun d hd => hs d (by simp [hd]) with h | h
      · exact Or.inl (by rw [h]; rfl)
      · exact Or.inr (by rw [h]; rfl)

theorem readOperand_sound (hspace : ∀ c, cs.head? = some c → isSpace c = false)
    (h : readOperand capacity cs = some (quoted, out, rest)) (hout : quoted = true ∨ out ≠ []) :
    ∃ s ws, cs = s ++ ws ++ rest ∧ Spaces ws ∧ Operand s quoted out := by
  cases cs with
  | nil => cases h
  | cons c cs =>
    rw [readOperand] at h
    split at h
    · next hq =>
      obtain ⟨⟨o, r⟩, hr, heq⟩ := Option.map_eq_some_iff.1 h
      cases heq
      obtain ⟨s, rfl, hs⟩ := readQuoted_sound hr
      exact ⟨c :: s ++ [c], [], by simp, spaces_nil, .quoted hq hs⟩
    · next hq =>
      obtain ⟨⟨o, r⟩, hr, heq⟩ := Option.map_eq_some_iff.1 h
      cases heq
      obtain ⟨⟨run, r⟩, hrun, heq⟩ := Option.map_eq_some_iff.1 hr
      cases heq
      obtain ⟨hcs, hchars, -⟩ := readRun_sound hrun
      obtain ⟨ws, hws, hspaces, hlast⟩ := trimSpace_spec run
      have hne : trimSpace run ≠ [] := hout.resolve_left (by simp)
      refine ⟨trimSpace run, ws, by rw [← hws, hcs], hspaces, .bare ⟨?_, ?_, ?_⟩⟩
      · -- it starts where the text does
        rcases htrim : trimSpace run with _ | ⟨d, s⟩
        · exact absurd htrim hne
        · rw [htrim, List.cons_append] at hws
          rw [hws, List.cons_append] at hcs
          obtain ⟨rfl, -⟩ := List.cons.inj hcs
          exact ⟨c, rfl, hspace c rfl, by simpa using hq⟩
      · exact ⟨_, List.getLast?_eq_some_getLast hne, hlast _ (List.getLast?_eq_some_getLast hne)⟩
      · exact fun d hd => hchars d (by rw [hws]; exact List.mem_append_left _ hd)

theorem Operand.head (h : Operand s quoted out) :
    ∃ c t, s = c :: t ∧ isSpace c = false ∧ isOperatorStart c = false := by
  cases h with
  | @quoted q s t hq hs => exact ⟨q, s ++ [q], rfl, isQuote_not_space hq⟩
  | bare hs =>
    obtain ⟨c, hc, hspace, -⟩ := hs.first
    obtain ⟨t, rfl⟩ : ∃ t, s = c :: t := by
      cases s with
      | nil => cases hc
      | cons d t => cases hc; exact ⟨t, rfl⟩
    exact ⟨c, t, rfl, hspace, hs.chars c (by simp)⟩

theorem readOperand_exact (h : Operand s quoted out) (hws : Spaces ws) (hrest : Follow rest) :
    readOperand capacity (s ++ ws ++ rest) = none ∨
    ∃ r, readOperand capacity (s ++ ws ++ rest) = some (quoted, out, r) ∧ skipSpace r = rest := by
  cases h with
  | @quoted q s t hq hs =>
    have htext : q :: s ++ [q] ++ ws ++ rest = q :: (s ++ q :: (ws ++ rest)) := by simp
    rw [htext, readOperand, if_pos hq]
    rcases readQuoted_exact hq hs with h | h
    · exact Or.inl (by rw [h]; rfl)
    · exact Or.inr ⟨ws ++ rest, by rw [h]; rfl, skipSpace_append hws hrest.not_space⟩
  | bare hs =>
    obtain ⟨c, hc, -, hquote⟩ := hs.first
    obtain ⟨d, hd, hdspace⟩ := hs.last
    have hlast : ∀ c, s.getLast? = some c → isSpace c = false := by
      intro c hc
      rw [hd] at hc
      cases hc
      exact hdspace
    have hrun : ∀ c ∈ s ++ ws, isOperatorStart c = false := fun c hc =>
      (List.mem_append.1 hc).elim (hs.chars c) fun h => isSpace_not_operatorStart (hws c h)
    have hread : readOperand capacity (s ++ ws ++ rest) =
        (readBare capacity (s ++ ws ++ rest)).map fun r => (false, r) := by
      cases s with
      | nil => cases hc
      | cons d t =>
        cases hc
        exact if_neg (by simp [hquote])
    rw [hread, readBare]
    rcases readRun_exact hrun hrest with h | h
    · exact Or.inl (by rw [h]; rfl)
    · refine Or.inr ⟨rest, ?_, skipSpace_append spaces_nil hrest.not_space⟩
      rw [h, Option.map_some, Option.map_some]
      dsimp only
      rw [trimSpace_append hws hlast]

/-! ## Equations -/

theorem readOp_sound (h : readOp cs = some (op, rest)) : ∃ o, cs = o ++ rest ∧ OpText o op := by
  cases cs with
  | nil => cases h
  | cons c cs =>
    unfold readOp at h
    dsimp only at h
    split_ifs at h with h₁ h₂ h₃ h₄
    · cases h
      subst h₁
      cases cs with
      | nil => exact ⟨_, rfl, .equal⟩
      | cons d cs =>
        rw [skipByte]
        split
        · next hd =>
          subst hd
          exact ⟨_, rfl, .equalEqual⟩
        · exact ⟨_, rfl, .equal⟩
    · subst h₂
      cases cs with
      | nil => cases h
      | cons d cs =>
        dsimp only at h
        split at h
        · next hd =>
          cases h
          subst hd
          exact ⟨_, rfl, .unequal⟩
        · cases h
    · subst h₃
      cases cs with
      | nil => cases h; exact ⟨_, rfl, .less⟩
      | cons d cs =>
        dsimp only at h
        split at h
        · next hd =>
          cases h
          subst hd
          exact ⟨_, rfl, .lessEqual⟩
        · cases h; exact ⟨_, rfl, .less⟩
    · subst h₄
      cases cs with
      | nil => cases h; exact ⟨_, rfl, .greater⟩
      | cons d cs =>
        dsimp only at h
        split at h
        · next hd =>
          cases h
          subst hd
          exact ⟨_, rfl, .greaterEqual⟩
        · cases h; exact ⟨_, rfl, .greater⟩

theorem OpText.follow {o : Text} (h : OpText o op) (rest : Text) : Follow (o ++ rest) := by
  intro c hc
  cases h <;> cases hc <;> decide

theorem readOp_exact {o : Text} {c : UInt8} (h : OpText o op) (hc : c ≠ byte '=') :
    readOp (o ++ c :: rest) = some (op, c :: rest) := by
  cases h <;> simp [readOp, skipByte, hc, show byte '!' ≠ byte '=' by decide, show byte '<' ≠ byte '=' by decide,
    show byte '<' ≠ byte '!' by decide, show byte '>' ≠ byte '=' by decide, show byte '>' ≠ byte '!' by decide,
    show byte '>' ≠ byte '<' by decide]

theorem Operand.not_empty_bare (h : Operand s quoted out) : ¬ (quoted = false ∧ out = []) := by
  rintro ⟨rfl, rfl⟩
  obtain ⟨c, t, hs, -⟩ := h.head
  cases h
  cases hs

theorem readEquation_sound {e : QueryEquation} (h : readEquation cs = some (e, rest)) :
    ∃ s ws, cs = s ++ ws ++ rest ∧ Spaces ws ∧ Equation s (.equation e) := by
  obtain ⟨ws₁, hcs, hws₁, hhead₁⟩ := skipSpace_spec cs
  obtain ⟨⟨quotedName, name, cs₁⟩, hname, h⟩ := Option.bind_eq_some_iff.1 h
  dsimp only at h
  split at h
  · cases h
  · next hne =>
    obtain ⟨a, wsa, ha, hwsa, hattr⟩ := readOperand_sound hhead₁ hname (Or.inr hne)
    obtain ⟨ws₂, hcs₁, hws₂, -⟩ := skipSpace_spec cs₁
    obtain ⟨⟨op, cs₂⟩, hop, h⟩ := Option.bind_eq_some_iff.1 h
    obtain ⟨o, ho, hoptext⟩ := readOp_sound hop
    obtain ⟨ws₃, hcs₂, hws₃, hhead₃⟩ := skipSpace_spec cs₂
    obtain ⟨⟨quoted, value, cs₃⟩, hvalue, h⟩ := Option.bind_eq_some_iff.1 h
    dsimp only at h
    split at h
    · cases h
    · next hempty =>
      cases h
      have hout : quoted = true ∨ value ≠ [] := by
        by_contra hc
        push Not at hc
        exact hempty ⟨by simpa using hc.1, hc.2⟩
      obtain ⟨v, wsv, hv, hwsv, hoperand⟩ := readOperand_sound hhead₃ hvalue hout
      refine ⟨_, wsv, ?_, hwsv, .mk hws₁ hattr hne (hwsa.append hws₂) hoptext hws₃ hoperand⟩
      rw [hcs, ha, hcs₁, ho, hcs₂, hv]
      simp only [List.append_assoc]

theorem readEquation_exact {t : Tree} (h : Equation s t) (hws : Spaces ws) (hrest : Follow rest) :
    ∃ e, t = .equation e ∧ (readEquation (s ++ ws ++ rest) = none ∨
      ∃ r, readEquation (s ++ ws ++ rest) = some (e, r) ∧ skipSpace r = rest) := by
  cases h with
  | @mk ws₁ a quotedName name ws₂ o op ws₃ v quoted value hws₁ hattr hne hws₂ hop hws₃ hvalue =>
    refine ⟨_, rfl, ?_⟩
    obtain ⟨ca, ta, rfl, hca, -⟩ := hattr.head
    obtain ⟨cv, tv, hv, hcv, hcvop⟩ := hvalue.head
    have htext : ws₁ ++ (ca :: ta ++ ws₂ ++ (o ++ (ws₃ ++ v))) ++ ws ++ rest =
        ws₁ ++ (ca :: ta ++ ws₂ ++ (o ++ (ws₃ ++ (v ++ ws ++ rest)))) := by simp only [List.append_assoc]
    have hskip₁ : skipSpace (ws₁ ++ (ca :: ta ++ ws₂ ++ (o ++ (ws₃ ++ (v ++ ws ++ rest))))) =
        ca :: ta ++ ws₂ ++ (o ++ (ws₃ ++ (v ++ ws ++ rest))) :=
      skipSpace_append hws₁ fun c hc => by cases hc; exact hca
    -- the text behind the operator does not go on with its second byte
    obtain ⟨c, y, hy, hc⟩ : ∃ c y, ws₃ ++ (v ++ ws ++ rest) = c :: y ∧ c ≠ byte '=' := by
      cases ws₃ with
      | nil =>
        refine ⟨cv, tv ++ ws ++ rest, by rw [hv]; simp, ?_⟩
        rintro rfl
        exact absurd hcvop (by decide)
      | cons c ws₃ =>
        refine ⟨c, ws₃ ++ (v ++ ws ++ rest), rfl, ?_⟩
        rintro rfl
        exact absurd (hws₃ (byte '=') (by simp)) (by decide)
    have hskip₃ : skipSpace (ws₃ ++ (v ++ ws ++ rest)) = v ++ ws ++ rest :=
      skipSpace_append hws₃ fun c hc => by rw [hv] at hc; cases hc; exact hcv
    rw [htext, readEquation, hskip₁]
    rcases readOperand_exact hattr hws₂ (hop.follow (ws₃ ++ (v ++ ws ++ rest))) with h | ⟨r, h, hr⟩
    · exact Or.inl (by rw [h]; rfl)
    · rw [h, Option.bind_some]
      dsimp only
      rw [if_neg hne, hr, hy, readOp_exact hop hc, ← hy, Option.bind_some]
      dsimp only
      rw [hskip₃]
      rcases readOperand_exact hvalue hws hrest with h | ⟨r, h, hr⟩
      · exact Or.inl (by rw [h]; rfl)
      · refine Or.inr ⟨r, ?_, hr⟩
        rw [h, Option.bind_some]
        exact if_neg hvalue.not_empty_bare

theorem Equation.head {t : Tree} (h : Equation s t) : ∃ c u, s = c :: u ∧ isOperatorStart c = false := by
  cases h with
  | @mk ws₁ a quotedName name ws₂ o op ws₃ v quoted value hws₁ hattr =>
    cases ws₁ with
    | nil =>
      obtain ⟨c, u, rfl, -, hc⟩ := hattr.head
      exact ⟨c, _, rfl, hc⟩
    | cons c ws₁ => exact ⟨c, _, rfl, isSpace_not_operatorStart (hws₁ c (by simp))⟩

end

/-! ## The descent -/

theorem push_some {terms terms' : List QueryTerm} {t : QueryTerm} (h : push terms t = some terms') :
    terms' = terms ++ [t] ∧ terms'.length ≤ kMaxQueryTerms := by
  rw [push] at h
  split at h
  · cases h
  · cases h
    exact ⟨rfl, by rw [List.length_append, List.length_singleton]; omega⟩

theorem push_eq (terms : List QueryTerm) (t : QueryTerm) :
    push terms t = none ∨ push terms t = some (terms ++ [t]) := by
  rw [push]
  split
  · exact Or.inl rfl
  · exact Or.inr rfl

/-- What `item` takes off the text derives in `Item`, and it appends that tree. -/
def ItemSound (item : List QueryTerm → Text → Option (List QueryTerm × Text)) (Item : Text → Tree → Prop) : Prop :=
  ∀ terms cs terms' rest, item terms cs = some (terms', rest) →
    ∃ s ws t, cs = s ++ ws ++ rest ∧ Spaces ws ∧ Item s t ∧ terms' = terms ++ t.postorder ∧
      terms'.length ≤ kMaxQueryTerms

/-- A text of `Item` in front of what may follow it is taken as that tree, if at all. -/
def ItemExact (item : List QueryTerm → Text → Option (List QueryTerm × Text)) (Item : Text → Tree → Prop)
    (P : Text → Prop) : Prop :=
  ∀ s t, Item s t → ∀ terms ws rest, Spaces ws → P rest →
    item terms (s ++ ws ++ rest) = none ∨
    ∃ r, item terms (s ++ ws ++ rest) = some (terms ++ t.postorder, r) ∧ skipSpace r = rest

theorem equation_sound : ItemSound equation Equation := by
  intro terms cs terms' rest h
  obtain ⟨⟨e, cs'⟩, he, h⟩ := Option.bind_eq_some_iff.1 h
  obtain ⟨terms₁, hpush, heq⟩ := Option.map_eq_some_iff.1 h
  cases heq
  obtain ⟨s, ws, hcs, hws, hs⟩ := readEquation_sound he
  obtain ⟨rfl, hle⟩ := push_some hpush
  exact ⟨s, ws, .equation e, hcs, hws, hs, rfl, hle⟩

theorem equation_exact : ItemExact equation Equation Follow := by
  intro s t h terms ws rest hws hrest
  obtain ⟨e, rfl, hread⟩ := readEquation_exact h hws hrest
  rcases hread with hread | ⟨r, hread, hr⟩
  · exact Or.inl (by rw [equation, hread]; rfl)
  · rw [equation, hread, Option.bind_some]
    dsimp only
    rcases push_eq terms (.equation e) with hp | hp
    · exact Or.inl (by rw [hp]; rfl)
    · exact Or.inr ⟨r, by rw [hp]; rfl, hr⟩

section
variable {sep : UInt8} {op : QueryOp} {node : Tree → Tree → Tree} {Item : Text → Tree → Prop}
  {item : List QueryTerm → Text → Option (List QueryTerm × Text)} {fuel : ℕ}

theorem skipByte_spec (c : UInt8) (cs : Text) : cs = skipByte c cs ∨ cs = c :: skipByte c cs := by
  cases cs with
  | nil => exact Or.inl rfl
  | cons d cs =>
    rw [skipByte]
    split
    · next h => exact Or.inr (by rw [h])
    · exact Or.inl rfl

theorem chainLoop_sound (hitem : ItemSound item Item)
    (hnode : ∀ l r, (node l r).postorder = l.postorder ++ r.postorder ++ [.operator op])
    {base terms terms' : List QueryTerm} {cs rest s ws : Text} {l : Tree}
    (h : chainLoop sep op item fuel terms cs = some (terms', rest)) (hl : Chain sep node Item s l)
    (hws : Spaces ws) (hterms : terms = base ++ l.postorder) (hlen : terms.length ≤ kMaxQueryTerms) :
    ∃ s' ws' t, s ++ ws ++ cs = s' ++ ws' ++ rest ∧ Spaces ws' ∧ Chain sep node Item s' t ∧
      terms' = base ++ t.postorder ∧ terms'.length ≤ kMaxQueryTerms := by
  induction fuel generalizing terms cs s ws l with
  | zero => cases h
  | succ fuel ih =>
    obtain ⟨w, hcs, hw, -⟩ := skipSpace_spec cs
    rw [chainLoop] at h
    split at h
    · next hnil =>
      cases h
      rw [hnil] at hcs
      exact ⟨s, ws ++ w, l, by rw [hcs]; simp, hws.append hw, hl, hterms, hlen⟩
    · next c cs₁ hcons =>
      rw [hcons] at hcs
      split at h
      · next hc =>
        subst hc
        obtain ⟨⟨terms₁, cs₂⟩, hit, h⟩ := Option.bind_eq_some_iff.1 h
        obtain ⟨terms₂, hpush, h⟩ := Option.bind_eq_some_iff.1 h
        obtain ⟨s₁, ws₁, r, hcs₁, hws₁, hr, rfl, -⟩ := hitem _ _ _ _ hit
        obtain ⟨rfl, hle⟩ := push_some hpush
        -- the separator, once or twice
        obtain ⟨d, hd, hsep⟩ : ∃ d, (d = [c] ∨ d = [c, c]) ∧ c :: cs₁ = d ++ skipByte c cs₁ := by
          rcases skipByte_spec c cs₁ with h₁ | h₁
          · exact ⟨[c], Or.inl rfl, congrArg (c :: ·) h₁⟩
          · exact ⟨[c, c], Or.inr rfl, congrArg (c :: ·) h₁⟩
        have hmore : Chain c node Item (s ++ (ws ++ w) ++ (d ++ s₁)) (node l r) :=
          .more hl (hws.append hw) hd hr
        obtain ⟨s', ws', t, heq, hws', ht, hterms', hlen'⟩ := ih h hmore hws₁
          (by rw [hterms, hnode]; simp only [List.append_assoc]) hle
        refine ⟨s', ws', t, ?_, hws', ht, hterms', hlen'⟩
        rw [← heq, hcs, hsep, hcs₁]
        simp only [List.append_assoc]
      · cases h
        exact ⟨s, ws ++ w, l, by rw [hcs]; simp, hws.append hw, hl, hterms, hlen⟩

theorem chain_sound (hitem : ItemSound item Item)
    (hnode : ∀ l r, (node l r).postorder = l.postorder ++ r.postorder ++ [.operator op]) :
    ItemSound (chain sep op item fuel) (Chain sep node Item) := by
  intro terms cs terms' rest h
  obtain ⟨⟨terms₁, cs₁⟩, hit, h⟩ := Option.bind_eq_some_iff.1 h
  obtain ⟨s, ws, t, hcs, hws, ht, hterms, hlen⟩ := hitem _ _ _ _ hit
  obtain ⟨s', ws', t', heq, hws', ht', hterms', hlen'⟩ := chainLoop_sound hitem hnode h (.one ht) hws hterms hlen
  exact ⟨s', ws', t', hcs.trans heq, hws', ht', hterms', hlen'⟩

/-- Every text of `Item` starts with no operator. -/
def Headed (Item : Text → Tree → Prop) : Prop := ∀ s t, Item s t → ∃ c u, s = c :: u ∧ isOperatorStart c = false

theorem Chain.headed (h : Headed Item) : Headed (Chain sep node Item) := by
  intro s t hs
  induction hs with
  | one hs => exact h _ _ hs
  | more hl _ _ _ ih =>
    obtain ⟨c, u, rfl, hc⟩ := ih
    exact ⟨c, _, rfl, hc⟩

theorem chain_reaches {P : Text → Prop} (hitem : ItemExact item Item P) (hhead : Headed Item)
    (hnode : ∀ l r, (node l r).postorder = l.postorder ++ r.postorder ++ [.operator op])
    (hsep : isOperatorStart sep = true) (hP : ∀ u, P (sep :: u)) {s ws rest : Text} {t : Tree}
    (h : Chain sep node Item s t) (terms : List QueryTerm) (hws : Spaces ws) (hrest : P rest) :
    chain sep op item fuel terms (s ++ ws ++ rest) = none ∨
    ∃ f r, chain sep op item fuel terms (s ++ ws ++ rest) = chainLoop sep op item f (terms ++ t.postorder) r ∧
      skipSpace r = rest := by
  induction h generalizing ws rest with
  | @one s t hs =>
    rcases hitem s t hs terms ws rest hws hrest with h | ⟨r, h, hr⟩
    · exact Or.inl (by rw [chain, h]; rfl)
    · exact Or.inr ⟨fuel, r, by rw [chain, h]; rfl, hr⟩
  | @more s w d l u r hl hw hd hr ih =>
    have htext : s ++ w ++ (d ++ u) ++ ws ++ rest = s ++ w ++ (d ++ (u ++ ws ++ rest)) := by
      simp only [List.append_assoc]
    obtain ⟨c, v, hu, hc⟩ := hhead u r hr
    have hne : c ≠ sep := by
      rintro rfl
      rw [hsep] at hc
      cases hc
    -- one separator is at the front, and the loop passes over the other
    obtain ⟨e, he, hskip⟩ : ∃ e, d ++ (u ++ ws ++ rest) = sep :: e ∧ skipByte sep e = u ++ ws ++ rest := by
      rcases hd with rfl | rfl
      · refine ⟨_, rfl, ?_⟩
        rw [hu]
        exact if_neg hne
      · exact ⟨_, rfl, if_pos rfl⟩
    rw [htext, he]
    rcases ih hw (hP e) with h | ⟨f, r₁, h, hr₁⟩
    · exact Or.inl h
    · rw [h]
      cases f with
      | zero => exact Or.inl rfl
      | succ f =>
        rw [chainLoop, hr₁]
        dsimp only
        rw [if_pos rfl, hskip]
        rcases hitem u r hr (terms ++ l.postorder) ws rest hws hrest with h | ⟨r₂, h, hr₂⟩
        · exact Or.inl (by rw [h]; rfl)
        · rw [h, Option.bind_some]
          dsimp only
          rcases push_eq (terms ++ l.postorder ++ r.postorder) (.operator op) with hp | hp
          · exact Or.inl (by rw [hp]; rfl)
          · refine Or.inr ⟨f, r₂, ?_, hr₂⟩
            rw [hp, Option.bind_some, hnode]
            simp only [List.append_assoc]

theorem chain_exact {P Q : Text → Prop} (hitem : ItemExact item Item P) (hhead : Headed Item)
    (hnode : ∀ l r, (node l r).postorder = l.postorder ++ r.postorder ++ [.operator op])
    (hsep : isOperatorStart sep = true) (hP : ∀ u, P (sep :: u))
    (hQ : ∀ rest, Q rest → P rest ∧ Follow rest ∧ rest.head? ≠ some sep) :
    ItemExact (chain sep op item fuel) (Chain sep node Item) Q := by
  intro s t h terms ws rest hws hrest
  obtain ⟨hPrest, hfollow, hne⟩ := hQ rest hrest
  rcases chain_reaches hitem hhead hnode hsep hP h terms hws hPrest with h | ⟨f, r, h, hr⟩
  · exact Or.inl h
  · rw [h]
    cases f with
    | zero => exact Or.inl rfl
    | succ f =>
      refine Or.inr ⟨rest, ?_, skipSpace_append spaces_nil hfollow.not_space⟩
      rw [chainLoop, hr]
      cases rest with
      | nil => rfl
      | cons c rest => exact if_neg fun hc => hne (by rw [hc]; rfl)

end

def FollowConjunction (rest : Text) : Prop := Follow rest ∧ rest.head? ≠ some (byte '&')

theorem conjunction_sound (fuel : ℕ) : ItemSound (conjunction fuel) Conjunction :=
  chain_sound equation_sound fun _ _ => rfl

theorem disjunction_sound (fuel : ℕ) : ItemSound (disjunction fuel) Disjunction :=
  chain_sound (conjunction_sound fuel) fun _ _ => rfl

theorem conjunction_exact (fuel : ℕ) : ItemExact (conjunction fuel) Conjunction FollowConjunction :=
  chain_exact equation_exact (fun _ _ h => h.head) (fun _ _ => rfl) (by decide)
    (fun u c hc => by cases hc; decide) fun _ h => ⟨h.1, h.1, h.2⟩

theorem disjunction_exact (fuel : ℕ) : ItemExact (disjunction fuel) Disjunction (· = []) := by
  refine chain_exact (conjunction_exact fuel) (Chain.headed fun _ _ h => h.head) (fun _ _ => rfl) (by decide)
    (fun u => ⟨fun c hc => by cases hc; decide, by simp; decide⟩) ?_
  rintro rest rfl
  have hnil : Follow [] := fun c hc => by cases hc
  exact ⟨⟨hnil, nofun⟩, hnil, nofun⟩

/-! ## Queries -/

section
variable {text : Text} {terms : List QueryTerm} {t : Tree}

theorem parse_sound (h : parse text = some terms) :
    ∃ t, Derives text t ∧ terms = t.postorder ∧ terms.length ≤ kMaxQueryTerms := by
  rw [parse] at h
  split at h
  · cases h
  · obtain ⟨⟨terms', rest⟩, hd, h⟩ := Option.bind_eq_some_iff.1 h
    dsimp only at h
    split at h
    · next hrest =>
      cases h
      obtain ⟨s, ws, t, htext, hws, hs, hterms, hlen⟩ := disjunction_sound _ _ _ _ _ hd
      obtain ⟨w, hw, hwspaces, -⟩ := skipSpace_spec rest
      rw [hrest.1, List.append_nil] at hw
      subst hw
      exact ⟨t, ⟨s, ws ++ rest, by rw [htext, List.append_assoc], hws.append hwspaces, hs⟩, hterms, hlen⟩
    · cases h

theorem parse_exact (h : Derives text t) : parse text = none ∨ parse text = some t.postorder := by
  obtain ⟨s, ws, rfl, hws, hs⟩ := h
  rw [parse]
  split
  · exact Or.inl rfl
  · have hexact := disjunction_exact ((s ++ ws).length + 1) s t hs [] ws [] hws rfl
    rw [List.append_nil, List.nil_append] at hexact
    rcases hexact with hd | ⟨r, hd, hr⟩
    · exact Or.inl (by rw [hd]; rfl)
    · refine Or.inr ?_
      rw [hd, Option.bind_some]
      exact if_pos ⟨hr, t.postorder_ne_nil⟩

theorem evalTerms_tree (answer : QueryEquation → Bool) (h : t.postorder.length ≤ kMaxQueryTerms) :
    evalTerms answer t.postorder [] = some [t.value answer] := by
  have hroom : ([] : List Bool).length + t.leaves ≤ kMaxQueryTerms := by
    rw [List.length_nil, Nat.zero_add]
    exact t.leaves_le.trans h
  have heval := @evalTerms_postorder answer t [] [] hroom
  rwa [List.append_nil] at heval

/-- **A query's answer is its grammar's meaning.**  A text that is accepted derives a
    tree; the machine never lacks room or an operand on its terms, and its answer about
    any inode is the tree's value over the answers to the equations.  A text that derives
    nothing to its end, or a tree of too many terms, is not accepted. -/
theorem parse_eq_meaning (text : Text) :
    (∀ terms, parse text = some terms →
      ∃ t, Derives text t ∧ terms = t.postorder ∧ terms.length ≤ kMaxQueryTerms ∧
        ∀ x, evalTerms (matchEquation x) terms [] = some [t.value (matchEquation x)] ∧
          queryMatches x terms = t.value (matchEquation x)) ∧
    ((∀ t, ¬ Derives text t) → parse text = none) ∧
    ∀ t, Derives text t → kMaxQueryTerms < t.postorder.length → parse text = none := by
  refine ⟨fun terms h => ?_, fun h => ?_, fun t ht hlen => ?_⟩
  · obtain ⟨t, ht, rfl, hlen⟩ := parse_sound h
    refine ⟨t, ht, rfl, hlen, fun x => ?_⟩
    have heval := evalTerms_tree (matchEquation x) hlen
    exact ⟨heval, by rw [queryMatches, heval]⟩
  · rcases hp : parse text with _ | terms
    · rfl
    · obtain ⟨t, ht, -⟩ := parse_sound hp
      exact absurd ht (h t)
  · rcases parse_exact ht with hp | hp
    · exact hp
    · obtain ⟨t', -, -, hle⟩ := parse_sound hp
      omega

theorem parse_eq_meaning_fiveStars : ∃ t, Derives (word ['s', '>', '=', ' ', '4']) t ∧
    queryMatches fiveStars [.equation ⟨.greaterEqual, word ['s'], .integer 4⟩] = t.value (matchEquation fiveStars) := by
  obtain ⟨t, ht, -, -, hx⟩ := (parse_eq_meaning (word ['s', '>', '=', ' ', '4'])).1
    [.equation ⟨.greaterEqual, word ['s'], .integer 4⟩] (by decide)
  exact ⟨t, ht, (hx fiveStars).2⟩

end

end Aegir.Query
