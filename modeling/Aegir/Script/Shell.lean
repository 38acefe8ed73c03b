/-
  The shell's loop, and the outcome a boot shell reports.
-/
import Aegir.Script.Frames

namespace Aegir.Script

/-! ## What comes from outside -/

/-- A command file as it was read: its text, and whether the declarations of a `.KEY` line bind
    to the arguments it was given. -/
structure File where
  text : Text
  binds : Bool

/-- The condition of an `If`: `WARN`, `ERROR` and `FAIL` read the last return code, and `EXISTS`
    and the comparisons have the value the session gives them. -/
inductive Condition.Kind where
  | value (holds : Bool) | warn | error | fail

structure Condition where
  kind : Condition.Kind
  negate : Bool

/-- What a line that starts with no control word asks for.  `done` is a line that leaves the
    command files alone and is over at once: any other built-in, a directory, an empty line, or
    one refused (its words do not substitute, its redirection does not open). -/
inductive Command where
  | done (status : ℕ)
  | eval (args : List Text)
  | execute (target : Option (Text × Option File))
  | quit (code : Option Text)
  | failAt (level : Option Text)
  | endCli
  | program (started : Bool)

structure Turn where
  attnC : Bool
  attnD : Bool
  /-- The exit of the running command, when it has come. -/
  commandStatus : Option ℕ
  /-- The condition of an `If`, when it parses. -/
  condition : Option Condition
  command : Command
  /-- The line typed at the console, empty when none is ready. -/
  console : Text

/-! ## The shell -/

/-- What aborted a command file: the status of a line that finished in the shell, or that of a
    program a line started. -/
inductive Cause where
  | line | command
  deriving DecidableEq

inductive Event where
  | aborted (cause : Cause)
  | framesEmpty
  | endCli
  | word (status : ℕ)
  deriving DecidableEq

/-- The part of a shell that a boot session's outcome is made from. -/
structure Boot where
  bootStatus : Bool
  booting : Bool
  bootFailed : Bool
  bootForcedFail : Bool
  log : List Event

structure Shell extends Boot where
  busy : Bool
  frames : Frames
  lastStatus : ℕ
  lineStatus : ℕ
  bootView : Bool
  exited : Bool

inductive ScriptStart where
  | started | notFound | invalid | cycle
  deriving DecidableEq

/-- The lines a command file runs: without its `.KEY` line, which must bind. -/
def File.lines (file : File) : Option (List Text) :=
  match scriptLines file.text with
  | [] => some []
  | line :: lines => if isKeyLine line then (if file.binds then some lines else none) else some (line :: lines)

def startScript (f : Frames) (path : Text) (file : Option File) : ScriptStart × Frames :=
  match file with
  | none => (.notFound, f)
  | some file =>
    match file.lines with
    | none => (.invalid, f)
    | some lines =>
      match f.push path lines with
      | none => (.cycle, f)
      | some f => (.started, f)

namespace Shell

def note (s : Shell) (e : Event) : Shell := { s with log := s.log ++ [e] }

/-- The outcome, once: 10 when the sequence failed or the firmware forced a failure. -/
def bootDone (s : Shell) : Shell :=
  if s.booting then
    let status := if s.bootFailed || s.bootForcedFail then 10 else 0
    let s := { s with booting := false, bootView := s.bootView || status != 0 }
    if s.bootStatus then s.note (.word status) else s
  else s

/-! ## The built-ins that touch the command files -/

def withStatus (s : Shell) (status : ℕ) : Shell := { s with lineStatus := status }

/-- The stack an operation moved to, or a line status when it would not. -/
def moved (s : Shell) (f : Option Frames) (status : ℕ) : Shell :=
  match f with
  | some f => { s with frames := f }
  | none => s.withStatus status

def commandEval (s : Shell) (args : List Text) : Shell :=
  if args = [] then s.withStatus 5
  else { s with frames := (s.frames.push [] (scriptLines ([' '].intercalate args))).getD s.frames }

def commandExecute (s : Shell) (target : Option (Text × Option File)) : Shell :=
  match target with
  | none => s.withStatus 10
  | some (path, file) =>
    match startScript s.frames path file with
    | (.started, f) => { s with frames := f }
    | (_, _) => s.withStatus 10

def commandQuit (s : Shell) (code : Option Text) : Shell :=
  match code.elim (some 0) parseNumber with
  | none => s.withStatus 5
  | some code =>
    match s.frames.abort with
    | none => s.withStatus 5
    | some f => { s with frames := f, lineStatus := code }

def commandFailat (s : Shell) (level : Option Text) : Shell :=
  match level with
  | none => s
  | some text =>
    match parseNumber text with
    | none => s.withStatus 5
    | some level => { s with frames := { s.frames with failLevel := level } }

def commandEndcli (s : Shell) : Shell := { (s.note .endCli).bootDone with exited := true }

def conditionHolds (s : Shell) (c : Condition) : Bool :=
  c.negate ^^ (match c.kind with
    | .value holds => holds
    | .warn => decide (5 ≤ s.lastStatus)
    | .error => decide (10 ≤ s.lastStatus)
    | .fail => decide (20 ≤ s.lastStatus))

def commandLab (s : Shell) (rest : Text) : Shell := if rest = [] then s.withStatus 10 else s

def commandSkip (s : Shell) (rest : Text) : Shell :=
  if firstWord rest = [] then s.withStatus 10 else s.moved (s.frames.jumpToLabel (firstWord rest)) 10

/-- A condition that does not parse steps past the whole block. -/
def commandIf (s : Shell) (condition : Option Condition) : Shell :=
  match condition with
  | none => { s with lineStatus := 10, frames := s.frames.skipToEndif.getD s.frames }
  | some c => if s.conditionHolds c then s else s.moved s.frames.skipToElseOrEndif 20

def commandElse (s : Shell) : Shell := s.moved s.frames.skipToEndif 20

/-! ## A line -/

def restOf (line : Text) : Text :=
  ((line.dropWhile isBlank).dropWhile (fun c => !isBlank c)).dropWhile isBlank

def runCommand (s : Shell) (c : Command) : Shell :=
  match c with
  | .done status => s.withStatus status
  | .eval args => s.commandEval args
  | .execute target => s.commandExecute target
  | .quit code => s.commandQuit code
  | .failAt level => s.commandFailat level
  | .endCli => s.commandEndcli
  | .program started => if started then { s with busy := true } else s.withStatus 10

/-- A line finished here unless it started a program, which makes the shell busy. -/
def runLine (s : Shell) (line : Text) (t : Turn) : Shell :=
  let s := s.withStatus 0
  match controlWord line with
  | some .lab => s.commandLab (restOf line)
  | some .skip => s.commandSkip (restOf line)
  | some .if_ => s.commandIf t.condition
  | some .else_ => s.commandElse
  | some .endIf => s
  | none => s.runCommand t.command

/-! ## The loop -/

def abortFor (s : Shell) (cause : Cause) : Shell :=
  { s.note (.aborted cause) with frames := s.frames.abort.getD s.frames }

def aborts (s : Shell) (status : ℕ) : Bool := !s.frames.frames.isEmpty && fails status s.frames.failLevel

/-- **C** ends the shell and **D** halts the running command file. -/
def attention (s : Shell) (t : Turn) : Shell :=
  if t.attnC then { s with exited := true }
  else if t.attnD then { s with frames := s.frames.abort.getD s.frames }
  else s

/-- The running command's exit. -/
def takeStatus (s : Shell) (t : Turn) : Shell :=
  match s.busy, t.commandStatus with
  | true, some status =>
    let s := { s with busy := false, lastStatus := status }
    if s.aborts status then s.abortFor .command else s
  | _, _ => s

/-- A line of a command file is over, unless it ended the shell. -/
def lineDone (s : Shell) : Shell :=
  if s.exited || s.busy then s
  else
    let s := { s with lastStatus := s.lineStatus }
    if s.aborts s.lineStatus then
      (if s.booting then { s with bootFailed := true } else s).abortFor .line
    else s

/-- The console's turn: no command file is left. -/
def prompt (s : Shell) (t : Turn) : Shell :=
  let s := (s.note .framesEmpty).bootDone
  if s.bootView || t.console.isEmpty then s else s.runLine t.console t

/-- One turn of the loop. -/
def step (s : Shell) (t : Turn) : Shell :=
  if s.exited then s
  else
    let s := s.attention t
    if s.exited then s
    else
      let s := s.takeStatus t
      if s.busy then s
      else
        match s.frames.next with
        | (some line, f) => ({ s with frames := f }.runLine line t).lineDone
        | (none, f) => { s with frames := f }.prompt t

def run (s : Shell) (turns : List Turn) : Shell := turns.foldl step s

/-! ## The boot session's shell -/

/-- A shell that holds the boot status channel. -/
def fresh : Shell :=
  { bootStatus := true, booting := false, bootFailed := false, bootForcedFail := false, log := [], busy := false,
    frames := .initial, lastStatus := 0, lineStatus := 0, bootView := false, exited := false }

/-- Whether the firmware's boot flags force the failure view. -/
def forcesFail (bootargs : Option Text) : Bool :=
  bootargs.any fun args => decide (['f', 'a', 'i', 'l'] <:+: args)

def runBootScript (s : Shell) (path : Text) (file : Option File) (bootargs : Option Text) : Shell :=
  let s := { s with bootForcedFail := s.bootForcedFail || forcesFail bootargs }
  match startScript s.frames path file with
  | (.started, f) => { s with frames := f, booting := true }
  | (_, f) => { s with frames := f }

end Shell

end Aegir.Script
