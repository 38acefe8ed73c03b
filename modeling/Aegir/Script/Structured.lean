/-
  Command files whose blocks are nested, as the shell runs them (`interpreter.cc`, `main.cc`).
-/
import Aegir.Script.Shell

namespace Aegir.Script

/-! ## Nested blocks -/

inductive Block where
  | nil
  | line (text : Text) (rest : Block)
  | if_ (head : Text) (body : Block) (tail : Text) (rest : Block)
  | ifElse (head : Text) (body : Block) (mid : Text) (other : Block) (tail : Text) (rest : Block)

namespace Block

def lines : Block → List Text
  | nil => []
  | line text rest => text :: rest.lines
  | if_ head body tail rest => head :: (body.lines ++ tail :: rest.lines)
  | ifElse head body mid other tail rest => head :: (body.lines ++ mid :: (other.lines ++ tail :: rest.lines))

/-- The lines are what they stand for; no line is a `Skip`. -/
def Nested : Block → Prop
  | nil => True
  | line text rest => (controlWord text = none ∨ controlWord text = some .lab) ∧ rest.Nested
  | if_ head body tail rest =>
    controlWord head = some .if_ ∧ body.Nested ∧ controlWord tail = some .endIf ∧ rest.Nested
  | ifElse head body mid other tail rest =>
    controlWord head = some .if_ ∧ body.Nested ∧ controlWord mid = some .else_ ∧ other.Nested ∧
      controlWord tail = some .endIf ∧ rest.Nested

end Block

/-! ## What they do -/

inductive Ran where
  | line (text : Text)
  | call (text : Text) (lines : List Text)
  | choice (holds : Bool)

/-- A file's lines from its cursor on, and what follows the blocks around the cursor; the
    files that called it are behind it. -/
abbrev Position := Block × List Block

/-- The files do `ran`, and are left at the last positions. -/
inductive Structured : List Position → List Ran → List Position → Prop
  | here {files : List Position} : Structured files [] files
  | close {rest : Block} {outer : List Block} {files files' : List Position} {ran : List Ran} :
    Structured ((rest, outer) :: files) ran files' → Structured ((.nil, rest :: outer) :: files) ran files'
  | fileEnd {files files' : List Position} {ran : List Ran} :
    Structured files ran files' → Structured ((.nil, []) :: files) ran files'
  | line {text : Text} {rest : Block} {outer : List Block} {files files' : List Position} {ran : List Ran} :
    Structured ((rest, outer) :: files) ran files' →
    Structured ((.line text rest, outer) :: files) (.line text :: ran) files'
  | call {text : Text} {rest called : Block} {outer : List Block} {files files' : List Position} {ran : List Ran} :
    called.Nested → Structured ((called, []) :: (rest, outer) :: files) ran files' →
    Structured ((.line text rest, outer) :: files) (.call text called.lines :: ran) files'
  | if_ {head tail : Text} {body rest : Block} {outer : List Block} {files files' : List Position} {ran : List Ran} :
    Structured ((body, rest :: outer) :: files) ran files' →
    Structured ((.if_ head body tail rest, outer) :: files) (.choice true :: ran) files'
  | ifNot {head tail : Text} {body rest : Block} {outer : List Block} {files files' : List Position} {ran : List Ran} :
    Structured ((rest, outer) :: files) ran files' →
    Structured ((.if_ head body tail rest, outer) :: files) (.choice false :: ran) files'
  | ifElse {head mid tail : Text} {body other rest : Block} {outer : List Block} {files files' : List Position}
    {ran : List Ran} {holds : Bool} :
    Structured ((if holds then body else other, rest :: outer) :: files) ran files' →
    Structured ((.ifElse head body mid other tail rest, outer) :: files) (.choice holds :: ran) files'

/-! ## The shell's turns -/

/-- The lines a command calls; a file that is running is not called again. -/
def Command.called (f : Frames) : Command → Option (List Text)
  | .eval args => if args = [] then none else some (scriptLines ([' '].intercalate args))
  | .execute (some (path, some file)) => file.lines.bind fun lines => (f.push path lines).map fun _ => lines
  | _ => none

def Shell.ranLine (s : Shell) (line : Text) (t : Turn) : List Ran :=
  match controlWord line with
  | none => [(t.command.called s.frames).elim (.line line) (.call line)]
  | some .lab => [.line line]
  | some .if_ => t.condition.toList.map fun c => .choice (s.conditionHolds c)
  | _ => []

/-- What a turn of the shell runs. -/
def Shell.ran (s : Shell) (t : Turn) : List Ran :=
  if (s.takeStatus t).busy then []
  else
    match (s.takeStatus t).frames.next with
    | (some line, f) => { s.takeStatus t with frames := f }.ranLine line t
    | (none, _) => []

def Shell.allRan (s : Shell) : List Turn → List Ran
  | [] => []
  | t :: turns => s.ran t ++ (s.step t).allRan turns

/-- The line a turn runs leaves a status below the fail level. -/
def Shell.Below (s : Shell) (t : Turn) : Prop :=
  match s.frames.next with
  | (some line, f) =>
    let s := { s with frames := f }.runLine line t
    fails s.lineStatus s.frames.failLevel = false
  | (none, _) => True

/-- What a command calls is nested, and no command ends a file. -/
def Command.Tame : Command → Prop
  | .eval args => ∃ block : Block, block.Nested ∧ scriptLines ([' '].intercalate args) = block.lines
  | .execute (some (_, some file)) =>
    ∀ lines, file.lines = some lines → ∃ block : Block, block.Nested ∧ lines = block.lines
  | .quit _ | .endCli => False
  | _ => True

/-- A turn without a break, in which nothing is typed, a condition parses, and no status reaches
    the fail level. -/
structure Shell.Calm (s : Shell) (t : Turn) : Prop where
  attnC : t.attnC = false
  attnD : t.attnD = false
  console : t.console = []
  condition : t.condition ≠ none
  exit : ∀ status, t.commandStatus = some status → fails status s.frames.failLevel = false
  below : (s.takeStatus t).Below t
  command : t.command.Tame

def Shell.AllCalm (s : Shell) : List Turn → Prop
  | [] => True
  | t :: turns => s.Calm t ∧ (s.step t).AllCalm turns

/-! ## Blocks -/

/-- The lines behind a block in its file, and what follows the blocks around it. -/
inductive Closes : List Text → List Block → Prop
  | file : Closes [] []
  | endIf {tail : Text} {rest : Block} {lines : List Text} {outer : List Block} : controlWord tail = some .endIf →
    rest.Nested → Closes lines outer → Closes (tail :: (rest.lines ++ lines)) (rest :: outer)
  | else_ {mid tail : Text} {other rest : Block} {lines : List Text} {outer : List Block} :
    controlWord mid = some .else_ → other.Nested → controlWord tail = some .endIf → rest.Nested → Closes lines outer →
    Closes (mid :: (other.lines ++ tail :: (rest.lines ++ lines))) (rest :: outer)

def Frame.At (frame : Frame) (position : Position) : Prop :=
  position.1.Nested ∧ ∃ lines, frame.lines.drop frame.next = position.1.lines ++ lines ∧ Closes lines position.2

theorem Block.Nested.blockEnd {block : Block} (h : block.Nested) (orElse : Bool) (lines : List Text) (i depth : ℕ) :
    Frames.blockEnd orElse (block.lines ++ lines) i depth =
      Frames.blockEnd orElse lines (i + block.lines.length) depth := by
  induction block generalizing lines i depth with
  | nil => rfl
  | line text rest ih =>
    obtain ⟨htext, hrest⟩ := h
    have hnext : Frames.blockEnd orElse (text :: (rest.lines ++ lines)) i depth =
        Frames.blockEnd orElse (rest.lines ++ lines) (i + 1) depth := by
      rcases htext with htext | htext <;> simp only [Frames.blockEnd, htext]
    rw [Block.lines, List.cons_append, hnext, ih hrest, List.length_cons, Nat.add_assoc, Nat.add_comm 1]
  | if_ head body tail rest ihbody ihrest =>
    obtain ⟨hhead, hbody, htail, hrest⟩ := h
    simp only [Block.lines, List.cons_append, List.append_assoc, Frames.blockEnd, hhead, ihbody hbody, htail,
      ihrest hrest, List.length_cons, List.length_append]
    congr 1
    omega
  | ifElse head body mid other tail rest ihbody ihother ihrest =>
    obtain ⟨hhead, hbody, hmid, hother, htail, hrest⟩ := h
    simp only [Block.lines, List.cons_append, List.append_assoc, Frames.blockEnd, hhead, ihbody hbody, hmid,
      ihother hother, htail, ihrest hrest, List.length_cons, List.length_append]
    congr 1
    omega

section
variable {s : Shell} {t : Turn} {frame : Frame} {outer : List Frame} {files files₁ : List Position} {block : Block}
  {scripts : List Block} {line : Text} {lines rest : List Text}

theorem Block.lines_eq_nil (h : block.lines = []) : block = .nil := by
  cases block <;> first | rfl | cases h

/-- Doing nothing, or something, first. -/
def Leads (files : List Position) (ran : List Ran) (files' : List Position) : Prop :=
  ∀ {more : List Ran} {last : List Position}, Structured files' more last → Structured files (ran ++ more) last

theorem nextLine_leads {frames : List Frame} (h : List.Forall₂ Frame.At frames files) :
    Frames.nextLine frames = (none, []) ∧ Leads files [] [] ∨
    ∃ (frame : Frame) (outer : List Frame) (line : Text) (position : Position) (files₁ : List Position),
      Frames.nextLine frames = (some line, { frame with next := frame.next + 1 } :: outer) ∧
      frame.lines[frame.next]? = some line ∧ frame.At position ∧ List.Forall₂ Frame.At outer files₁ ∧
      Leads files [] (position :: files₁) := by
  induction h with
  | nil => exact Or.inl ⟨rfl, id⟩
  | @cons frame position outer files hat houter ih =>
    rw [Frames.nextLine]
    cases hline : frame.lines[frame.next]? with
    | some line => exact Or.inr ⟨frame, outer, line, position, files, rfl, hline, hat, houter, id⟩
    | none =>
      -- the file is at its end
      obtain ⟨block, scripts⟩ := position
      obtain ⟨-, lines, hdrop, hcloses⟩ := hat
      rw [List.drop_eq_nil_of_le (List.getElem?_eq_none_iff.1 hline)] at hdrop
      obtain ⟨hnil, rfl⟩ := List.append_eq_nil_iff.1 hdrop.symm
      obtain rfl := Block.lines_eq_nil hnil
      cases hcloses
      refine ih.imp (fun ⟨hnext, hleads⟩ => ⟨hnext, fun h => .fileEnd (hleads h)⟩) ?_
      rintro ⟨frame, outer, line, position, files₁, hnext, hline, hat, houter, hleads⟩
      exact ⟨frame, outer, line, position, files₁, hnext, hline, hat, houter, fun h => .fileEnd (hleads h)⟩

theorem seek_past {f : Frames} (hblock : block.Nested) (orElse : Bool) (hframes : f.frames = frame :: outer)
    (hdrop : frame.lines.drop frame.next = block.lines ++ line :: rest)
    (hline : controlWord line = some .endIf ∨ orElse = true ∧ controlWord line = some .else_) : ∃ next,
      f.seek (f.frames.head?.bind fun frame => Frames.blockEnd orElse (frame.lines.drop frame.next) frame.next 0) =
        some ⟨{ frame with next := next } :: outer, f.failLevel⟩ ∧ frame.lines.drop next = rest := by
  refine ⟨frame.next + block.lines.length + 1, ?_, ?_⟩
  · unfold Frames.seek
    simp only [hframes, List.head?_cons, Option.bind_some, hdrop, hblock.blockEnd]
    rcases hline with hline | ⟨rfl, hline⟩ <;> simp only [Frames.blockEnd, hline, if_true]
  · rw [Nat.add_assoc, ← List.drop_drop, hdrop, ← List.drop_drop, List.drop_left]
    rfl

theorem runCommand_frames {c : Command} (hc : c.Tame) (hexit : s.exited = false) :
    (s.runCommand c).exited = false ∧
      (c.called s.frames = none ∧ (s.runCommand c).frames.frames = s.frames.frames ∨
        ∃ path, ∃ called : Block, called.Nested ∧ c.called s.frames = some called.lines ∧
          (s.runCommand c).frames.frames = ⟨path, called.lines, 0⟩ :: s.frames.frames) := by
  cases c with
  | done status => exact ⟨hexit, Or.inl ⟨rfl, rfl⟩⟩
  | eval args =>
    obtain ⟨called, hcalled, hlines⟩ := hc
    dsimp only [Shell.runCommand, Shell.commandEval, Command.called]
    split_ifs
    · exact ⟨hexit, Or.inl ⟨rfl, rfl⟩⟩
    · rw [Frames.push, if_neg fun h => h.1 rfl, hlines]
      exact ⟨hexit, Or.inr ⟨[], called, hcalled, rfl, rfl⟩⟩
  | execute target =>
    unfold Shell.runCommand Shell.commandExecute
    rcases target with _ | ⟨path, _ | file⟩
    · exact ⟨hexit, Or.inl ⟨rfl, rfl⟩⟩
    · exact ⟨hexit, Or.inl ⟨rfl, rfl⟩⟩
    · dsimp only [startScript, Command.called]
      cases hlines : file.lines with
      | none => exact ⟨hexit, Or.inl ⟨rfl, rfl⟩⟩
      | some lines =>
        obtain ⟨called, hcalled, rfl⟩ := hc lines hlines
        dsimp only [Frames.push, Option.bind_some]
        by_cases hcycle : path ≠ [] ∧ ∃ frame ∈ s.frames.frames, frame.path = path
        · rw [if_pos hcycle]
          exact ⟨hexit, Or.inl ⟨rfl, rfl⟩⟩
        · rw [if_neg hcycle]
          exact ⟨hexit, Or.inr ⟨path, called, hcalled, rfl, rfl⟩⟩
  | quit code => exact hc.elim
  | failAt level =>
    dsimp only [Shell.runCommand, Shell.commandFailat]
    cases level with
    | none => exact ⟨hexit, Or.inl ⟨rfl, rfl⟩⟩
    | some text =>
      dsimp only
      cases parseNumber text <;> exact ⟨hexit, Or.inl ⟨rfl, rfl⟩⟩
  | endCli => exact hc.elim
  | program started =>
    dsimp only [Shell.runCommand]
    split_ifs <;> exact ⟨hexit, Or.inl ⟨rfl, rfl⟩⟩

theorem runLine_leads {position : Position} (hexit : s.exited = false) (hcondition : t.condition ≠ none)
    (hcommand : t.command.Tame) (hframes : s.frames.frames = { frame with next := frame.next + 1 } :: outer)
    (hline : frame.lines[frame.next]? = some line) (hat : frame.At position)
    (houter : List.Forall₂ Frame.At outer files) :
    (s.runLine line t).exited = false ∧ ∃ files', List.Forall₂ Frame.At (s.runLine line t).frames.frames files' ∧
      Leads (position :: files) (s.ranLine line t) files' := by
  obtain ⟨block, scripts⟩ := position
  obtain ⟨hblock, lines, hdrop, hcloses⟩ := hat
  obtain ⟨hlt, rfl⟩ := List.getElem?_eq_some_iff.1 hline
  rw [List.drop_eq_getElem_cons hlt] at hdrop
  cases block with
  | nil =>
    cases hcloses with
    | file => cases hdrop
    | @endIf tail rest lines outer htail hrest hcloses =>
      obtain ⟨hhead, hdrop⟩ := List.cons.inj hdrop
      simp only [Shell.runLine, Shell.ranLine, hhead, htail]
      exact ⟨hexit, (rest, outer) :: files, hframes ▸ .cons ⟨hrest, lines, hdrop, hcloses⟩ houter, fun h => .close h⟩
    | @else_ mid tail other rest lines outer hmid hother htail hrest hcloses =>
      obtain ⟨hhead, hdrop⟩ := List.cons.inj hdrop
      obtain ⟨next, hseek, hdrop⟩ := seek_past (f := s.frames) hother false hframes hdrop (Or.inl htail)
      simp only [Shell.runLine, Shell.ranLine, hhead, hmid]
      have hskip : (s.withStatus 0).frames.skipToEndif = _ := hseek
      rw [Shell.commandElse, hskip]
      exact ⟨hexit, (rest, outer) :: files, .cons ⟨hrest, lines, hdrop, hcloses⟩ houter, fun h => .close h⟩
  | line text rest =>
    obtain ⟨hhead, hdrop⟩ := List.cons.inj hdrop
    obtain ⟨htext, hrest⟩ := hblock
    have hnext : List.Forall₂ Frame.At s.frames.frames ((rest, scripts) :: files) :=
      hframes ▸ .cons ⟨hrest, lines, hdrop, hcloses⟩ houter
    rcases htext with htext | htext
    · simp only [Shell.runLine, Shell.ranLine, hhead, htext]
      obtain ⟨hexit', ⟨hnone, hsame⟩ | ⟨path, called, hcalled, hlines, hpushed⟩⟩ :=
        runCommand_frames (s := s.withStatus 0) hcommand hexit
      · rw [show t.command.called s.frames = none from hnone]
        exact ⟨hexit', _, hsame ▸ hnext, fun h => .line h⟩
      · rw [show t.command.called s.frames = some called.lines from hlines]
        refine ⟨hexit', (called, []) :: (rest, scripts) :: files, ?_, fun h => .call hcalled h⟩
        rw [hpushed]
        exact .cons ⟨hcalled, [], (List.append_nil _).symm, .file⟩ hnext
    · simp only [Shell.runLine, Shell.ranLine, hhead, htext, Shell.commandLab]
      split_ifs <;> exact ⟨hexit, _, hnext, fun h => .line h⟩
  | if_ head body tail rest =>
    obtain ⟨hhead, hdrop⟩ := List.cons.inj hdrop
    obtain ⟨hif, hbody, htail, hrest⟩ := hblock
    obtain ⟨c, hc⟩ := Option.ne_none_iff_exists'.1 hcondition
    replace hdrop : _ = body.lines ++ tail :: (rest.lines ++ lines) := hdrop.trans (List.append_assoc _ _ _)
    simp only [Shell.runLine, Shell.ranLine, hhead, hif, hc, Shell.commandIf, Option.toList_some, List.map_cons, List.map_nil]
    have hholds : (s.withStatus 0).conditionHolds c = s.conditionHolds c := rfl
    rw [hholds]
    split_ifs with hcond
    · rw [hcond]
      exact ⟨hexit, (body, rest :: scripts) :: files,
        hframes ▸ .cons ⟨hbody, _, hdrop, .endIf htail hrest hcloses⟩ houter, fun h => .if_ h⟩
    · rw [Bool.eq_false_iff.2 hcond]
      obtain ⟨next, hseek, hdrop⟩ := seek_past (f := s.frames) hbody true hframes hdrop (Or.inl htail)
      have hskip : (s.withStatus 0).frames.skipToElseOrEndif = _ := hseek
      rw [hskip]
      exact ⟨hexit, (rest, scripts) :: files, .cons ⟨hrest, lines, hdrop, hcloses⟩ houter, fun h => .ifNot h⟩
  | ifElse head body mid other tail rest =>
    obtain ⟨hhead, hdrop⟩ := List.cons.inj hdrop
    obtain ⟨hif, hbody, hmid, hother, htail, hrest⟩ := hblock
    obtain ⟨c, hc⟩ := Option.ne_none_iff_exists'.1 hcondition
    replace hdrop : _ = body.lines ++ mid :: (other.lines ++ tail :: (rest.lines ++ lines)) := hdrop.trans (by simp)
    simp only [Shell.runLine, Shell.ranLine, hhead, hif, hc, Shell.commandIf, Option.toList_some, List.map_cons, List.map_nil]
    have hholds : (s.withStatus 0).conditionHolds c = s.conditionHolds c := rfl
    rw [hholds]
    split_ifs with hcond
    · rw [hcond]
      exact ⟨hexit, (body, rest :: scripts) :: files,
        hframes ▸ .cons ⟨hbody, _, hdrop, .else_ hmid hother htail hrest hcloses⟩ houter, fun h => .ifElse h⟩
    · rw [Bool.eq_false_iff.2 hcond]
      obtain ⟨next, hseek, hdrop⟩ := seek_past (f := s.frames) hbody true hframes hdrop (Or.inr ⟨rfl, hmid⟩)
      have hskip : (s.withStatus 0).frames.skipToElseOrEndif = _ := hseek
      rw [hskip]
      exact ⟨hexit, (other, rest :: scripts) :: files, .cons ⟨hother, _, hdrop, .endIf htail hrest hcloses⟩ houter,
        fun h => .ifElse h⟩

/-! ## Turns -/

theorem Leads.trans {ran ran' : List Ran} {files' : List Position} (h : Leads files ran files₁)
    (h' : Leads files₁ ran' files') : Leads files (ran ++ ran') files' := by
  intro more last hlast
  rw [List.append_assoc]
  exact h (h' hlast)

theorem bootDone_kept (s : Shell) : s.bootDone.frames = s.frames ∧ s.bootDone.exited = s.exited := by
  unfold Shell.bootDone
  split
  · dsimp only
    split <;> exact ⟨rfl, rfl⟩
  · exact ⟨rfl, rfl⟩

theorem not_aborts {status : ℕ} (h : fails status s.frames.failLevel = false) : ¬s.aborts status = true := by
  rw [Shell.aborts, h, Bool.and_false]
  decide

theorem Shell.Calm.takeStatus (h : s.Calm t) :
    (s.takeStatus t).frames = s.frames ∧ (s.takeStatus t).exited = s.exited := by
  unfold Shell.takeStatus
  split
  · next status _ hstatus =>
    dsimp only
    split
    · next haborts => exact absurd haborts (not_aborts (h.exit status hstatus))
    · exact ⟨rfl, rfl⟩
  · exact ⟨rfl, rfl⟩

theorem lineDone_kept (h : fails s.lineStatus s.frames.failLevel = false) :
    s.lineDone.frames = s.frames ∧ s.lineDone.exited = s.exited := by
  unfold Shell.lineDone
  split
  · exact ⟨rfl, rfl⟩
  · dsimp only
    split
    · next haborts => exact absurd haborts (not_aborts h)
    · exact ⟨rfl, rfl⟩

theorem Shell.Calm.step_leads (h : s.Calm t) (hexit : s.exited = false)
    (hfiles : List.Forall₂ Frame.At s.frames.frames files) :
    (s.step t).exited = false ∧
      ∃ files', List.Forall₂ Frame.At (s.step t).frames.frames files' ∧ Leads files (s.ran t) files' := by
  obtain ⟨hframes, hexited⟩ := h.takeStatus
  have hbelow := h.below
  have hattention : s.attention t = s := by simp [Shell.attention, h.attnC, h.attnD]
  rw [Shell.step, if_neg (by rw [hexit]; decide), hattention, if_neg (by rw [hexit]; decide), Shell.ran]
  unfold Shell.Below at hbelow
  generalize s.takeStatus t = s₁ at *
  rw [hexit] at hexited
  rw [← hframes] at hfiles
  dsimp only
  by_cases hbusy : s₁.busy = true
  · rw [if_pos hbusy, if_pos hbusy]
    exact ⟨hexited, files, hfiles, id⟩
  rw [if_neg hbusy, if_neg hbusy]
  rcases nextLine_leads hfiles with ⟨hnext, hleads⟩ |
    ⟨frame, outer, line, position, files₁, hnext, hline, hat, houter, hleads⟩
  · simp only [Frames.next, hnext, Shell.prompt, h.console]
    obtain ⟨hboot, hbootExit⟩ := bootDone_kept ({ s₁ with frames := ⟨[], s₁.frames.failLevel⟩ }.note .framesEmpty)
    rw [if_pos (by simp)]
    refine ⟨hbootExit.trans hexited, [], ?_, hleads⟩
    rw [hboot]
    exact .nil
  · simp only [Frames.next, hnext] at hbelow ⊢
    obtain ⟨hdone, hdoneExit⟩ := lineDone_kept hbelow
    obtain ⟨hexit', files', hfiles', hran⟩ := runLine_leads
      (s := { s₁ with frames := ⟨{ frame with next := frame.next + 1 } :: outer, s₁.frames.failLevel⟩ }) hexited
      h.condition h.command rfl hline hat houter
    refine ⟨hdoneExit.trans hexit', files', hdone ▸ hfiles', ?_⟩
    exact hleads.trans hran

/-- **A shell runs nested files as they are nested**: what its turns run, and where its files then
    stand, is what the blocks say. -/
theorem run_structured {turns : List Turn} (hexit : s.exited = false)
    (hfiles : List.Forall₂ Frame.At s.frames.frames files) (h : s.AllCalm turns) :
    ∃ files', List.Forall₂ Frame.At (s.run turns).frames.frames files' ∧
      Structured files (s.allRan turns) files' := by
  suffices hleads : ∃ files', List.Forall₂ Frame.At (s.run turns).frames.frames files' ∧
      Leads files (s.allRan turns) files' by
    obtain ⟨files', hfiles', hleads⟩ := hleads
    refine ⟨files', hfiles', ?_⟩
    rw [← List.append_nil (s.allRan turns)]
    exact hleads .here
  induction turns generalizing s files with
  | nil => exact ⟨files, hfiles, id⟩
  | cons t turns ih =>
    obtain ⟨hexit₁, files₁, hfiles₁, hran⟩ := h.1.step_leads hexit hfiles
    obtain ⟨files', hfiles', hmore⟩ := ih hexit₁ hfiles₁ h.2
    exact ⟨files', hfiles', hran.trans hmore⟩

end

/-- A file whose `If` does not hold. -/
def sampleBlock : Block :=
  .ifElse ['I', 'f'] (.line ['a'] .nil) ['E', 'l', 's', 'e'] (.line ['b'] .nil) ['E', 'n', 'd', 'I', 'f'] .nil

def sampleTurn : Turn := ⟨false, false, none, some ⟨.warn, false⟩, .done 0, []⟩

def sampleShell : Shell := { Shell.fresh with frames := ⟨[⟨['s'], sampleBlock.lines, 0⟩], 10⟩ }

theorem run_structured_sample : ∃ files',
    List.Forall₂ Frame.At (sampleShell.run [sampleTurn, sampleTurn]).frames.frames files' ∧
    Structured [(sampleBlock, [])] [.choice false, .line ['b']] files' := by
  have hnested : sampleBlock.Nested :=
    ⟨by decide, ⟨by decide, trivial⟩, by decide, ⟨by decide, trivial⟩, by decide, trivial⟩
  have hcalm (s : Shell) (h : (s.takeStatus sampleTurn).Below sampleTurn) : s.Calm sampleTurn := by
    refine ⟨rfl, rfl, rfl, by decide, ?_, h, trivial⟩
    rintro status ⟨⟩
  have hran : sampleShell.allRan [sampleTurn, sampleTurn] = [.choice false, .line ['b']] := rfl
  rw [← hran]
  exact run_structured rfl (.cons ⟨hnested, [], rfl, .file⟩ .nil) ⟨hcalm _ rfl, hcalm _ rfl, trivial⟩

end Aegir.Script
