/-
  The command lines of the commands (`libs/freestanding/aegir-args`, `args.cc`).
-/
import Mathlib

namespace Aegir.Args

abbrev Text := List Char

def isSpace (c : Char) : Bool := c == ' ' || c == '\t'

def lower (c : Char) : Char :=
  if 'A' ≤ c ∧ c ≤ 'Z' then Char.ofNat (c.toNat - 'A'.toNat + 'a'.toNat) else c

def eqCi (a b : Text) : Bool := a.map lower == b.map lower

def isNumber (text : Text) : Bool :=
  let digits := if text.head? = some '-' ∨ text.head? = some '+' then text.tail else text
  digits != [] && digits.all fun c => '0' ≤ c && c ≤ '9'

/-! ## Templates -/

structure Item where
  name : Text
  required : Bool
  switch : Bool
  keyword : Bool
  multiple : Bool
  number : Bool
deriving DecidableEq

def parseItem (tmpl : Text) : Item × Text :=
  let text := tmpl.dropWhile isSpace
  let after := text.dropWhile fun c => c ≠ ',' ∧ c ≠ '/'
  let flags := if after.head? = some '/' then
    (after.tail.takeWhile fun c => !isSpace c && c != ',').map lower else []
  (⟨(text.takeWhile fun c => c ≠ ',' ∧ c ≠ '/').rdropWhile isSpace, flags.contains 'a', flags.contains 's',
    flags.contains 'k', flags.contains 'm', flags.contains 'n'⟩, after.dropWhile (· ≠ ','))

def itemAt (tmpl : Text) : ℕ → Option Item
  | 0 =>
    let item := (parseItem tmpl).1
    if item.name = [] then none else some item
  | index + 1 =>
    match (parseItem tmpl).2 with
    | [] => none
    | _ :: rest => itemAt rest index

/-- The items of the loops over `item_at`, which stop at the first that it does not have; there
    are no more items than characters, and one. -/
def items (tmpl : Text) : List Item :=
  (((List.range (tmpl.length + 1)).map (itemAt tmpl)).takeWhile Option.isSome).filterMap id

def itemByName (items : List Item) (name : Text) : Option Item := items.find? fun item => eqCi item.name name

def Item.positional (item : Item) : Bool := !item.switch && !item.keyword

def positionalItemAt (items : List Item) (index : ℕ) : Option Item := (items.filter Item.positional)[index]?

def positionalCount (items : List Item) : ℕ := (items.filter Item.positional).length

/-- The name and the value of `NAME=VALUE`. -/
def nameOf (token : Text) : Text := token.takeWhile (· ≠ '=')
def valueOf (token : Text) : Text := (token.dropWhile (· ≠ '=')).tail

/-- The switch or keyword that a token without `=` names. -/
def namedBare (items : List Item) (token : Text) : Option Item :=
  (itemByName items token).filter fun item => item.switch || item.keyword

/-! ## Lines -/

def positionalTokensAfter (items : List Item) : List Text → ℕ
  | [] => 0
  | token :: rest =>
    if '=' ∈ token then positionalTokensAfter items rest
    else match namedBare items token with
    | none => 1 + positionalTokensAfter items rest
    | some item =>
      if item.switch then positionalTokensAfter items rest
      else match rest with
      | [] => 0
      | _ :: rest => positionalTokensAfter items rest

/-- The tokens that a line says together, and how. -/
inductive Word where
  /-- `NAME=VALUE` -/
  | named (token : Text)
  | switch (token : Text)
  | keyword (token value : Text)
  /-- A keyword that nothing follows. -/
  | dangling (token : Text)
  | bare (token : Text)
deriving DecidableEq

def Word.tokens : Word → List Text
  | named token | switch token | dangling token | bare token => [token]
  | keyword token value => [token, value]

def Word.value? : Word → Option Text
  | named token => some (valueOf token)
  | keyword _ value => some value
  | bare token => some token
  | switch _ | dangling _ => none

/-- What a visit of `for_each` is told: the item and the tokens; there is no item when the line
    named none. -/
structure Supplied where
  item : Option Item
  word : Word
deriving DecidableEq

/-- The value of a visit: nothing for a switch, the first token where the item is not known. -/
def Supplied.value (s : Supplied) : Text :=
  if s.item.isSome then s.word.value?.getD [] else s.word.tokens.headD []

/-- `for_each`, from the positional item `positional` on. -/
def forEach (items : List Item) : ℕ → List Text → List Supplied
  | _, [] => []
  | positional, token :: rest =>
    if '=' ∈ token then ⟨itemByName items (nameOf token), .named token⟩ :: forEach items positional rest
    else match namedBare items token with
    | some item =>
      if item.switch then ⟨some item, .switch token⟩ :: forEach items positional rest
      else match rest with
      | [] => [⟨some item, .dangling token⟩]
      | value :: rest => ⟨some item, .keyword token value⟩ :: forEach items positional rest
    | none =>
      match positionalItemAt items positional with
      | none => ⟨none, .bare token⟩ :: forEach items positional rest
      | some place =>
        ⟨some place, .bare token⟩ :: forEach items
          (if place.multiple = false then positional + 1
          else if positionalTokensAfter items rest ≤ positionalCount items - positional - 1 then positional + 1
          else positional) rest

/-! ## Reading -/

/-- What is wrong with a line, and what with: the empty problem is none. -/
structure Result where
  problem : String
  missing : Text
deriving DecidableEq

/-- What is wrong with one visit. -/
def Supplied.problem (s : Supplied) : Option Result :=
  match s.item with
  | none => some ⟨"unknown argument", s.value⟩
  | some item => if item.number && !isNumber s.value then some ⟨"not a number", item.name⟩ else none

/-- `first_value_with`: whether some visit has the item of a name. -/
def found (supplied : List Supplied) (name : Text) : Bool :=
  supplied.any fun s => s.item.any fun item => eqCi item.name name

def read (tmpl : Text) (argv : List Text) : Result :=
  let items := items tmpl
  let supplied := forEach items 0 argv
  match supplied.findSome? Supplied.problem with
  | some result => result
  | none =>
    match items.find? fun item => item.required && !found supplied item.name with
    | some item => ⟨"a required argument is missing", item.name⟩
    | none => ⟨"", []⟩

end Aegir.Args
