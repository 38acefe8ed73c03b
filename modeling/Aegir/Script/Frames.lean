/-
  The command files of a shell: their lines, their control words and the stack of those running.
-/
import Mathlib

namespace Aegir.Script

/-! ## Lines -/

abbrev Text := List Char

def isBlank (c : Char) : Bool := c == ' ' || c == '\t'

def lower (c : Char) : Char :=
  if 'A' ≤ c ∧ c ≤ 'Z' then Char.ofNat (c.toNat - 'A'.toNat + 'a'.toNat) else c

def equalsFolded (a b : Text) : Bool := a.map lower == b.map lower

def firstWord (line : Text) : Text := (line.dropWhile isBlank).takeWhile (fun c => !isBlank c)

def afterFirstWord (line : Text) : Text :=
  (((line.dropWhile isBlank).dropWhile (fun c => !isBlank c)).dropWhile isBlank).rdropWhile isBlank

inductive Control where
  | lab | skip | if_ | else_ | endIf
  deriving DecidableEq

def controlWord (line : Text) : Option Control :=
  let word := firstWord line
  if equalsFolded word ['l', 'a', 'b'] || equalsFolded word ['l', 'a', 'b', 'e', 'l'] then some .lab
  else if equalsFolded word ['s', 'k', 'i', 'p'] then some .skip
  else if equalsFolded word ['i', 'f'] then some .if_
  else if equalsFolded word ['e', 'l', 's', 'e'] then some .else_
  else if equalsFolded word ['e', 'n', 'd', 'i', 'f'] then some .endIf
  else none

/-- A line as `script_lines` keeps it: without the CR at its end, and not at all when it is blank
    or a comment. -/
def keptLine (current : Text) : Option Text :=
  let line := if current.getLast? = some '\r' then current.dropLast else current
  match line.dropWhile isBlank with
  | [] => none
  | c :: _ => if c = ';' then none else some line

def scriptLines (text : Text) : List Text := (text.splitOn '\n').filterMap keptLine

/-- `.KEY`, alone or before a blank. -/
def isKeyLine (line : Text) : Bool :=
  match line.dropWhile isBlank with
  | '.' :: k :: e :: y :: rest =>
    equalsFolded [k, e, y] ['K', 'E', 'Y'] && (match rest with | [] => true | c :: _ => isBlank c)
  | _ => false

/-- A decimal number, as the 64 bits it is kept in. -/
def parseNumber (text : Text) : Option ℕ :=
  if text = [] then none
  else text.foldl (fun value c => value.bind fun n =>
    if c < '0' ∨ '9' < c then none else some ((n * 10 + (c.toNat - '0'.toNat)) % 2 ^ 64)) (some 0)

/-! ## The stack of command files -/

/-- A running command file and its cursor.  A line of `Eval` has no path. -/
structure Frame where
  path : Text
  lines : List Text
  next : ℕ

structure Frames where
  frames : List Frame
  failLevel : ℕ

/-- A level of 0 never aborts. -/
def fails (status failLevel : ℕ) : Bool := failLevel != 0 && failLevel ≤ status

namespace Frames

def initial : Frames := ⟨[], 10⟩

/-- A path already running is a cycle and is refused; a line of `Eval` never is. -/
def push (f : Frames) (path : Text) (lines : List Text) : Option Frames :=
  if path ≠ [] ∧ ∃ frame ∈ f.frames, frame.path = path then none
  else some { f with frames := ⟨path, lines, 0⟩ :: f.frames }

/-- The next line to run; a file at its end is dropped on the way. -/
def nextLine : List Frame → Option Text × List Frame
  | [] => (none, [])
  | frame :: outer =>
    match frame.lines[frame.next]? with
    | none => nextLine outer
    | some line => (some line, { frame with next := frame.next + 1 } :: outer)

def next (f : Frames) : Option Text × Frames :=
  ((nextLine f.frames).1, { f with frames := (nextLine f.frames).2 })

def abort (f : Frames) : Option Frames :=
  match f.frames with
  | [] => none
  | _ :: outer => some { f with frames := outer }

/-- Move the cursor of the innermost file to `next`. -/
def seek (f : Frames) (next : Option ℕ) : Option Frames :=
  match f.frames, next with
  | frame :: outer, some i => some { f with frames := { frame with next := i } :: outer }
  | _, _ => none

/-- The line after the first `Lab` of that name in the whole file. -/
def labelled (lines : List Text) (name : Text) : Option ℕ :=
  (lines.findIdx? fun line => controlWord line == some .lab && equalsFolded (afterFirstWord line) name).map (· + 1)

/-- The line after the `EndIf` that closes the block, or after its `Else` where that is looked
    for too: `lines` are the file's from line `i` on. -/
def blockEnd (orElse : Bool) : List Text → ℕ → ℕ → Option ℕ
  | [], _, _ => none
  | line :: lines, i, depth =>
    match controlWord line, depth with
    | some .if_, _ => blockEnd orElse lines (i + 1) (depth + 1)
    | some .endIf, 0 => some (i + 1)
    | some .endIf, depth + 1 => blockEnd orElse lines (i + 1) depth
    | some .else_, 0 => if orElse then some (i + 1) else blockEnd orElse lines (i + 1) 0
    | _, _ => blockEnd orElse lines (i + 1) depth

def jumpToLabel (f : Frames) (name : Text) : Option Frames :=
  f.seek (f.frames.head?.bind fun frame => labelled frame.lines name)

def skipToElseOrEndif (f : Frames) : Option Frames :=
  f.seek (f.frames.head?.bind fun frame => blockEnd true (frame.lines.drop frame.next) frame.next 0)

def skipToEndif (f : Frames) : Option Frames :=
  f.seek (f.frames.head?.bind fun frame => blockEnd false (frame.lines.drop frame.next) frame.next 0)

end Frames

end Aegir.Script
