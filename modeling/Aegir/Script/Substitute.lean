/-
  Variables, quotes and aliases of a line (`libs/hosted/aegir-script`, `substitute.cc`).
-/
import Aegir.Script.Frames

namespace Aegir.Script

/-! ## Arguments -/

/-- A script's arguments; a vector's size is a number of 64 bits. -/
structure Arguments where
  name : Text
  positional : List Text
  named : List (Text × Text)
  size_lt : positional.length < 2 ^ 64

abbrev Lookup := Text → Option Text

def Arguments.findNamed (arguments : Arguments) (name : Text) : Option Text :=
  (arguments.named.find? fun entry => entry.1 == name).map Prod.snd

def isNameChar (c : Char) : Bool :=
  ('a' ≤ c && c ≤ 'z') || ('A' ≤ c && c ≤ 'Z') || ('0' ≤ c && c ≤ '9') || c == '_'

def allDigits (text : Text) : Bool := text != [] && text.all fun c => '0' ≤ c && c ≤ '9'

def parameterIndex (name : Text) : ℕ :=
  name.foldl (fun index c => (index * 10 + (c.toNat - '0'.toNat)) % 2 ^ 64) 0

/-- `$0` is the script's name, `$1` the first of the arguments; there is nothing past the last. -/
def Arguments.parameter (arguments : Arguments) (index : ℕ) : Text :=
  if index = 0 then arguments.name else (arguments.positional[index - 1]?).getD []

def expand (arguments : Arguments) (environment : Lookup) (name : Text) : Text :=
  if allDigits name then arguments.parameter (parameterIndex name)
  else match arguments.findNamed name with
  | some value => value
  | none => (environment name).getD []

/-! ## Substitution -/

/-- What the scan keeps: the words that are made, the one that is being made, and whether it is
    within quotes and in a word. -/
structure Scan where
  words : List Text
  current : Text
  quoted : Bool
  started : Bool

namespace Scan

def pushWord (s : Scan) : Scan := { s with words := s.words ++ [s.current], current := [], started := false }

def push (s : Scan) (c : Char) : Scan := { s with current := s.current ++ [c], started := true }

def blank (s : Scan) : Scan := if s.started then s.pushWord else s

def appendUnquoted (s : Scan) (text : Text) : Scan :=
  text.foldl (fun s c => if isBlank c then s.blank else s.push c) s

/-- A `"`. -/
def quote (s : Scan) : Scan := { s with quoted := !s.quoted, started := true }

def literal (s : Scan) (c : Char) : Scan := if !s.quoted && isBlank c then s.blank else s.push c

def value (s : Scan) (text : Text) : Scan :=
  if s.quoted then { s with current := s.current ++ text, started := true } else s.appendUnquoted text

def finish (s : Scan) : Except String (List Text) :=
  if s.quoted then .error "unmatched quote" else .ok s.blank.words

end Scan

def braced (rest : Text) : Except String Text :=
  if '}' ∈ rest then .ok (rest.takeWhile (· ≠ '}')) else .error "unmatched brace"

/-- The reference a `$` or a `{` starts: its name, and how many characters it takes after the
    first.  A `$` before none is just that. -/
def reference (c : Char) (rest : Text) : Except String (Option (Text × ℕ)) :=
  if c = '{' then (braced rest).map fun name => some (name, name.length + 1)
  else if rest.head? = some '{' then (braced rest.tail).map fun name => some (name, name.length + 2)
  else
    let name := rest.takeWhile isNameChar
    .ok (if name = [] then none else some (name, name.length))

/-- The loop of `substitute_words` over what is left of the line, of which the reference before
    takes the first `skip`. -/
def substituteFrom (arguments : Arguments) (environment : Lookup) : Text → ℕ → Scan → Except String (List Text)
  | [], _, s => s.finish
  | _ :: rest, skip + 1, s => substituteFrom arguments environment rest skip s
  | c :: rest, 0, s =>
    if c = '"' then substituteFrom arguments environment rest 0 s.quote
    else if c ≠ '$' ∧ c ≠ '{' then substituteFrom arguments environment rest 0 (s.literal c)
    else match reference c rest with
    | .error e => .error e
    | .ok none => substituteFrom arguments environment rest 0 (s.push '$')
    | .ok (some (name, skip)) =>
      substituteFrom arguments environment rest skip (s.value (expand arguments environment name))

/-- `substitute_words`: the words, or what is wrong with the line. -/
def substituteWords (line : Text) (arguments : Arguments) (environment : Lookup) : Except String (List Text) :=
  substituteFrom arguments environment line 0 ⟨[], [], false, false⟩

/-! ## Aliases -/

/-- What `split_word` leaves after the first word. -/
def restAfterWord (line : Text) : Text :=
  ((line.dropWhile isBlank).dropWhile fun c => !isBlank c).dropWhile isBlank

abbrev AliasTable := List (Text × Text)

/-- One turn of `expand_aliases`: the word that is an alias, and the line with its value; nothing
    when the walk stops. -/
def aliasTurn (aliases : AliasTable) (seen : List Text) (line : Text) : Option (Text × Text) :=
  let word := firstWord line
  let rest := restAfterWord line
  if word = [] ∨ seen.any (equalsFolded · word) then none
  else (aliases.find? fun entry => equalsFolded entry.1 word).map fun entry =>
    (word, if rest = [] then entry.2 else entry.2 ++ ' ' :: rest)

/-- The loop of `expand_aliases`; nothing when it runs out of turns. -/
def expandFrom (aliases : AliasTable) : ℕ → List Text → Text → Option Text
  | 0, _, _ => none
  | turns + 1, seen, line =>
    match aliasTurn aliases seen line with
    | none => some line
    | some (word, expanded) => expandFrom aliases turns (seen ++ [word]) expanded

end Aegir.Script
