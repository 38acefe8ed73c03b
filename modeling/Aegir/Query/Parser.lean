/-
  The parser of queries and the machine that evaluates them (`query.cc`).

  The parser descends over `|` and `&` to equations and appends postfix terms, as many
  as `kMaxQueryTerms`.  What is left of the text stands for the position in it.  The
  two loops differ in their separator, operator and item only, and are one (`chain`).
-/
import Aegir.Query.Compare

namespace Aegir.Query

def kMaxQueryTerms : ℕ := 16

def kMaxName : ℕ := 255

/-- One term in postfix order. -/
inductive QueryTerm where
  | equation (e : QueryEquation)
  | operator (op : QueryOp)
deriving DecidableEq

/-! ## Scanning -/

def isSpace (c : UInt8) : Bool :=
  c == byte ' ' || c == byte '\t' || c == byte '\n' || c == byte '\r'

def isOperatorStart (c : UInt8) : Bool :=
  c == byte '=' || c == byte '!' || c == byte '<' || c == byte '>' || c == byte '&' || c == byte '|' ||
    c == byte ')'

def isQuote (c : UInt8) : Bool := c == byte '"' || c == byte '\''

def skipSpace (cs : Text) : Text := cs.dropWhile isSpace

/-- The byte at the front, or behind a backslash there, and the rest. -/
def unescape (c : UInt8) (cs : Text) : Option (UInt8 × Text) :=
  if c = byte '\\' then
    match cs with
    | d :: cs => some (d, cs)
    -- the last byte is taken as it is, and the quote is never closed
    | [] => none
  else some (c, cs)

/-- `read_quoted` behind the opening quote, with room for so many bytes: what is quoted,
    and the rest behind the closing quote. -/
def readQuoted (quote : UInt8) : ℕ → Text → Option (Text × Text)
  | _, [] => none
  | 0, c :: cs => if c = quote then some ([], cs) else none
  | capacity + 1, c :: cs =>
    if c = quote then some ([], cs)
    else (unescape c cs).bind fun (c, cs) =>
      (readQuoted quote capacity cs).map fun (out, rest) => (c :: out, rest)

/-- The first loop of `read_bare`. -/
def readRun : ℕ → Text → Option (Text × Text)
  | _, [] => some ([], [])
  | 0, c :: cs => if isOperatorStart c then some ([], c :: cs) else none
  | capacity + 1, c :: cs =>
    if isOperatorStart c then some ([], c :: cs)
    else (readRun capacity cs).map fun (out, rest) => (c :: out, rest)

def trimSpace (s : Text) : Text := (s.reverse.dropWhile isSpace).reverse

def readBare (capacity : ℕ) (cs : Text) : Option (Text × Text) :=
  (readRun capacity cs).map fun (out, rest) => (trimSpace out, rest)

/-- An operand, quoted or bare: whether it is quoted, its bytes and the rest. -/
def readOperand (capacity : ℕ) : Text → Option (Bool × Text × Text)
  | [] => none
  | c :: cs =>
    if isQuote c then (readQuoted c capacity cs).map fun r => (true, r)
    else (readBare capacity (c :: cs)).map fun r => (false, r)

/-- The text is behind an operator that may go on with this byte. -/
def skipByte (c : UInt8) : Text → Text
  | [] => []
  | d :: cs => if d = c then cs else d :: cs

/-- The switch over an equation's operator. -/
def readOp : Text → Option (QueryOp × Text)
  | [] => none
  | c :: cs =>
    if c = byte '=' then some (.equal, skipByte (byte '=') cs)
    else if c = byte '!' then
      match cs with
      | d :: cs => if d = byte '=' then some (.unequal, cs) else none
      | [] => none
    else if c = byte '<' then
      match cs with
      | d :: cs => if d = byte '=' then some (.lessEqual, cs) else some (.less, d :: cs)
      | [] => some (.less, [])
    else if c = byte '>' then
      match cs with
      | d :: cs => if d = byte '=' then some (.greaterEqual, cs) else some (.greater, d :: cs)
      | [] => some (.greater, [])
    else none

/-! ## The descent -/

/-- `push_equation`, `push_operator` -/
def push (terms : List QueryTerm) (t : QueryTerm) : Option (List QueryTerm) :=
  if kMaxQueryTerms ≤ terms.length then none else some (terms ++ [t])

def readEquation (cs : Text) : Option (QueryEquation × Text) :=
  (readOperand kMaxName (skipSpace cs)).bind fun (_, name, cs) =>
    if name = [] then none
    else (readOp (skipSpace cs)).bind fun (op, cs) =>
      (readOperand kMaxQueryValue (skipSpace cs)).bind fun (quoted, value, cs) =>
        if quoted = false ∧ value = [] then none else some (⟨op, name, literalFor quoted value⟩, cs)

def equation (terms : List QueryTerm) (cs : Text) : Option (List QueryTerm × Text) :=
  (readEquation cs).bind fun (e, cs) => (push terms (.equation e)).map fun terms => (terms, cs)

/-- The loop of `Parser::conjunction` and of `Parser::disjunction`, behind an item. -/
def chainLoop (sep : UInt8) (op : QueryOp) (item : List QueryTerm → Text → Option (List QueryTerm × Text)) :
    ℕ → List QueryTerm → Text → Option (List QueryTerm × Text)
  | 0, _, _ => none
  | fuel + 1, terms, cs =>
    match skipSpace cs with
    | [] => some (terms, [])
    | c :: cs =>
      if c = sep then
        (item terms (skipByte sep cs)).bind fun (terms, cs) =>
          (push terms (.operator op)).bind fun terms => chainLoop sep op item fuel terms cs
      else some (terms, c :: cs)

/-- Items between separators. -/
def chain (sep : UInt8) (op : QueryOp) (item : List QueryTerm → Text → Option (List QueryTerm × Text))
    (fuel : ℕ) (terms : List QueryTerm) (cs : Text) : Option (List QueryTerm × Text) :=
  (item terms cs).bind fun (terms, cs) => chainLoop sep op item fuel terms cs

def conjunction (fuel : ℕ) : List QueryTerm → Text → Option (List QueryTerm × Text) :=
  chain (byte '&') .and equation fuel

def disjunction (fuel : ℕ) : List QueryTerm → Text → Option (List QueryTerm × Text) :=
  chain (byte '|') .or (conjunction fuel) fuel

/-- `Query::parse`: the terms, when the text is a query. -/
def parse (text : Text) : Option (List QueryTerm) :=
  if text = [] then none
  else (disjunction (text.length + 1) [] text).bind fun (terms, rest) =>
    if skipSpace rest = [] ∧ terms ≠ [] then some terms else none

/-! ## Evaluation -/

/-- The loop of `Query::matches` over the terms: the stack it leaves, top first, or
    nothing when the stack has no room or too few operands. -/
def evalTerms (answer : QueryEquation → Bool) : List QueryTerm → List Bool → Option (List Bool)
  | [], stack => some stack
  | .equation e :: terms, stack =>
    if kMaxQueryTerms ≤ stack.length then none else evalTerms answer terms (answer e :: stack)
  | .operator op :: terms, right :: left :: stack =>
    evalTerms answer terms ((if op = .and then left && right else left || right) :: stack)
  | .operator _ :: _, _ => none

/-- `Query::matches` -/
def queryMatches (x : Candidate) (terms : List QueryTerm) : Bool :=
  match evalTerms (matchEquation x) terms [] with
  | some [b] => b
  | _ => false

end Aegir.Query
