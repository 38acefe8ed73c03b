/-
  The matcher of AmigaDOS patterns (aegir-pattern, `pattern.cc`).

  A span of the pattern or of the name is the list of its characters, and an index into a
  span is a number of characters from its start.  A loop over the places where a name may be
  cut is an `any` over their numbers.  `matchSub` is total: each span it is called for is
  shorter than the one before, whatever the text.
-/
import Aegir.Pattern.Grammar

namespace Aegir.Pattern

/-! ## Scans -/

/-- The loop of `expr_end` for a group: the characters up to the parenthesis that closes it. -/
def groupFrom : ℕ → List UInt8 → Option ℕ
  | _, [] => none
  | depth, c :: p =>
    if c = paren then (groupFrom (depth + 1) p).map (· + 1)
    else if c = parenEnd then
      if depth = 1 then some 1 else (groupFrom (depth - 1) p).map (· + 1)
    else (groupFrom depth p).map (· + 1)

/-- `expr_end`: the characters of the first expression. -/
def exprEnd : List UInt8 → ℕ
  | [] => 0
  | c :: p =>
    if c = quote then min 2 (p.length + 1)
    else if c = bracket then (p.idxOf? bracketEnd).elim (p.length + 1) fun i => i + 2
    else if c = paren then (groupFrom 1 p).elim (p.length + 1) fun n => n + 1
    else if c = hash ∨ c = tilde then exprEnd p + 1
    else 1

/-- `alternative_end` of what is left of a group, without the parenthesis that closes it. -/
def alternativeEnd : ℤ → List UInt8 → ℕ
  | _, [] => 0
  | depth, c :: p =>
    if c = paren then alternativeEnd (depth + 1) p + 1
    else if c = parenEnd then alternativeEnd (depth - 1) p + 1
    else if c = bar ∧ depth = 0 then 0
    else alternativeEnd depth p + 1

/-- The alternatives that the loop over a group comes to, of so many turns at most. -/
def alternativesFrom : ℕ → List UInt8 → List (List UInt8)
  | 0, _ => []
  | n + 1, body =>
    if body = [] then []
    else body.take (alternativeEnd 0 body) :: alternativesFrom n (body.drop (alternativeEnd 0 body + 1))

def alternatives (body : List UInt8) : List (List UInt8) := alternativesFrom body.length body

section
variable (le : UInt8 → UInt8 → Bool)

/-- The loop of `class_has`. -/
def classFrom (ch : UInt8) : List UInt8 → Bool → Bool
  | [], found => found
  | [c], found => if fold ch = fold c then true else found
  | [c, d], found => classFrom ch [d] (if fold ch = fold c then true else found)
  | c :: d :: e :: p, found =>
    if d = dash then classFrom ch p (if le (fold c) (fold ch) ∧ le (fold ch) (fold e) then true else found)
    else classFrom ch (d :: e :: p) (if fold ch = fold c then true else found)

/-- `class_has` of the text between the brackets. -/
def classHas (content : List UInt8) (ch : UInt8) : Bool :=
  if content.head? = some tilde then !classFrom le ch content.tail false else classFrom le ch content false

/-! ## Matching -/

/-- `match_rep`: repetitions of what `x` matches, and then what `rest` does. -/
def matchRep (x rest : List UInt8 → Bool) : ℕ → List UInt8 → Bool
  | 0, s => rest s
  | n + 1, s => rest s || (List.range s.length).any fun m => x (s.take (m + 1)) && matchRep x rest n (s.drop (m + 1))

theorem length_of_mem_alternativesFrom {n : ℕ} {body a : List UInt8} (h : a ∈ alternativesFrom n body) :
    a.length ≤ body.length := by
  induction n generalizing body with
  | zero => exact absurd h List.not_mem_nil
  | succ n ih =>
    unfold alternativesFrom at h
    split at h
    · exact absurd h List.not_mem_nil
    · rcases List.mem_cons.1 h with rfl | h
      · exact List.length_take_le' _ _
      · refine Nat.le_trans (ih h) ?_
        rw [List.length_drop]
        exact Nat.sub_le _ _

def matchSub : List UInt8 → List UInt8 → Bool
  | [], s => s.isEmpty
  | c :: p, s =>
    if c = hash then
      matchRep (fun t => matchSub (p.take (exprEnd p)) t) (fun t => matchSub (p.drop (exprEnd p)) t) s.length s
    else if c = tilde then
      (List.range (s.length + 1)).any fun m =>
        !matchSub (p.take (exprEnd p)) (s.take m) && matchSub (p.drop (exprEnd p)) (s.drop m)
    else if c = paren then
      -- `ge` counts the opening parenthesis too
      let ge := exprEnd (c :: p)
      if ge < 2 ∨ (c :: p)[ge - 1]? ≠ some parenEnd then false
      else
        (alternatives (p.take (ge - 2))).attach.any fun a => (List.range (s.length + 1)).any fun m =>
          matchSub a.1 (s.take m) && matchSub (p.drop (ge - 1)) (s.drop m)
    else if c = bracket then
      let ce := exprEnd (c :: p)
      if ce < 2 ∨ (c :: p)[ce - 1]? ≠ some bracketEnd then false
      else
        match s with
        | [] => false
        | ch :: s => classHas le (p.take (ce - 2)) ch && matchSub (p.drop (ce - 1)) s
    else if c = quote then
      match p, s with
      | q :: p, ch :: s => fold q == fold ch && matchSub p s
      | _, _ => false
    else if c = percent then matchSub p s
    else if c = question then
      match s with
      | [] => false
      | _ :: s => matchSub p s
    else
      match s with
      | [] => false
      | ch :: s => fold c == fold ch && matchSub p s
termination_by p => p.length
decreasing_by
  all_goals simp only [List.length_cons, List.length_take, List.length_drop]
  all_goals first
    | omega
    | (have hle := length_of_mem_alternativesFrom a.2
       rw [List.length_take] at hle
       omega)

def match_ (pattern name : List UInt8) : Bool := matchSub le pattern name

end

end Aegir.Pattern
