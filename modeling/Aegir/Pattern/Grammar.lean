/-
  AmigaDOS patterns and the names they denote (`specs/pattern.md`).
-/
import Mathlib

namespace Aegir.Pattern

open Computability

/-- `'`, `?`, `%`, `[`, `]`, `(`, `)`, `|`, `#`, `~` and `-` -/
def quote : UInt8 := 0x27
def question : UInt8 := 0x3f
def percent : UInt8 := 0x25
def bracket : UInt8 := 0x5b
def bracketEnd : UInt8 := 0x5d
def paren : UInt8 := 0x28
def parenEnd : UInt8 := 0x29
def bar : UInt8 := 0x7c
def hash : UInt8 := 0x23
def tilde : UInt8 := 0x7e
def dash : UInt8 := 0x2d

def fold (c : UInt8) : UInt8 := if 0x41 ≤ c ∧ c ≤ 0x5a then c + 0x20 else c

/-! ## Patterns -/

mutual

inductive Expr where
  | char (c : UInt8)
  | quoted (c : UInt8)
  | any
  | none_
  | class_ (content : List UInt8)
  | group (alternatives : Alternatives)
  | repeat_ (x : Expr)
  | not_ (x : Expr)

inductive Sequence where
  | nil
  | cons (x : Expr) (xs : Sequence)

inductive Alternatives where
  | last (xs : Sequence)
  | cons (xs : Sequence) (more : Alternatives)

end

mutual

/-- The text of a pattern. -/
def Expr.render : Expr → List UInt8
  | .char c => [c]
  | .quoted c => [quote, c]
  | .any => [question]
  | .none_ => [percent]
  | .class_ content => bracket :: content ++ [bracketEnd]
  | .group alternatives => paren :: alternatives.render ++ [parenEnd]
  | .repeat_ x => hash :: x.render
  | .not_ x => tilde :: x.render

def Sequence.render : Sequence → List UInt8
  | .nil => []
  | .cons x xs => x.render ++ xs.render

def Alternatives.render : Alternatives → List UInt8
  | .last xs => xs.render
  | .cons xs more => xs.render ++ bar :: more.render

end

mutual

/-- A character that is not a token stands for itself, a bar or a parenthesis only outside groups; and
    there is no closing bracket in a class. -/
def Expr.WellFormed (grouped : Bool) : Expr → Prop
  | .char c => c ∉ [quote, question, percent, bracket, paren, hash, tilde] ∧ (grouped = true → c ∉ [bar, parenEnd])
  | .class_ content => bracketEnd ∉ content
  | .group alternatives => alternatives.WellFormed
  | .repeat_ x => x.WellFormed grouped
  | .not_ x => x.WellFormed grouped
  | _ => True

def Sequence.WellFormed (grouped : Bool) : Sequence → Prop
  | .nil => True
  | .cons x xs => x.WellFormed grouped ∧ xs.WellFormed grouped

def Alternatives.WellFormed : Alternatives → Prop
  | .last xs => xs.WellFormed true
  | .cons xs more => xs.WellFormed true ∧ more.WellFormed

end

/-! ## What they denote -/

section
variable (le : UInt8 → UInt8 → Bool)

/-- A member of a class. -/
inductive ClassItem where
  | one (c : UInt8)
  | range (low high : UInt8)

def classItems : List UInt8 → List ClassItem
  | [] => []
  | [c] => [.one c]
  | [c, d] => [.one c, .one d]
  | c :: d :: e :: text => if d = dash then .range c e :: classItems text else .one c :: classItems (d :: e :: text)

def ClassItem.Names (c : UInt8) : ClassItem → Prop
  | .one d => c = fold d
  | .range low high => le (fold low) c ∧ le c (fold high)

def ClassHas (content : List UInt8) (c : UInt8) : Prop :=
  if content.head? = some tilde then ¬ ∃ item ∈ classItems content.tail, item.Names le c
  else ∃ item ∈ classItems content, item.Names le c

def single (P : UInt8 → Prop) : Language UInt8 := {w | ∃ c, w = [c] ∧ P c}

mutual

/-- The folded names that a pattern stands for. -/
def Expr.denote : Expr → Language UInt8
  | .char c => single (fold c = ·)
  | .quoted c => single (fold c = ·)
  | .any => single fun _ => True
  | .none_ => 1
  | .class_ content => single (ClassHas le content)
  | .group alternatives => alternatives.denote
  | .repeat_ x => x.denote∗
  | .not_ x => {w | w ∉ x.denote}

def Sequence.denote : Sequence → Language UInt8
  | .nil => 1
  | .cons x xs => x.denote * xs.denote

def Alternatives.denote : Alternatives → Language UInt8
  | .last xs => xs.denote
  | .cons xs more => xs.denote + more.denote

end

end

end Aegir.Pattern
