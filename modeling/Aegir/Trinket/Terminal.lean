/-
  The terminal's text (trinket, `terminal_buffer.cc`).

  A buffer is lines of cells, each a code point and the columns it takes, and a cursor that
  is a line and a cell of it.  What is written lands at the cursor: a character that takes
  columns is put over the cell there, or behind the line, and wraps where it does not fit;
  one that takes none is put before the cell there, and the cursor stays.

  The widths are a table that is generated from Unicode's data (`charWidth`).  A tab writes
  spaces until the cursor is at the next stop, and is run on fuel: where the stop is past
  the last column it never is (`tab_settles_iff`).

  The count of changes is left out, and lines and cells are counted without a bound.
-/
import Aegir.Lib.Fuel

namespace Aegir.Trinket

open Aegir.Lib

/-! ## The source -/

structure TerminalCell where
  cp : ℕ
  width : ℕ
deriving DecidableEq

abbrev TerminalLine := List TerminalCell

structure TerminalBuffer where
  columns : ℕ
  rows : ℕ
  lines : List TerminalLine
  cursorLine : ℕ
  cursorCell : ℕ
  /-- The most lines behind the viewport; zero is no bound. -/
  scrollbackBudget : ℕ
  scrollOffset : ℕ
deriving DecidableEq

/-- `\n`, `\r`, `\b`, `\t` and a space -/
def nl : ℕ := 0x0a
def cr : ℕ := 0x0d
def bs : ℕ := 0x08
def ht : ℕ := 0x09
def space : ℕ := 0x20

def columnsOf (cells : List TerminalCell) : ℕ := (cells.map TerminalCell.width).sum

namespace TerminalBuffer

/-- The constructor. -/
def empty (columns rows : ℕ) : TerminalBuffer where
  columns := max 1 columns
  rows := max 1 rows
  lines := [[]]
  cursorLine := 0
  cursorCell := 0
  scrollbackBudget := 0
  scrollOffset := 0

def ensureLine (b : TerminalBuffer) (index : ℕ) : TerminalBuffer :=
  { b with lines := b.lines ++ List.replicate (index + 1 - b.lines.length) [] }

def currentLine (b : TerminalBuffer) : TerminalLine := b.lines.getD b.cursorLine []

/-- The line at the cursor is changed; it is made where it is not there. -/
def editLine (b : TerminalBuffer) (f : TerminalLine → TerminalLine) : TerminalBuffer :=
  { b.ensureLine b.cursorLine with lines := (b.ensureLine b.cursorLine).lines.modify b.cursorLine f }

def cursorColumn (b : TerminalBuffer) : ℕ := columnsOf (b.currentLine.take b.cursorCell)

/-- `line_columns` of the line at the cursor -/
def lineColumns (b : TerminalBuffer) : ℕ := columnsOf b.currentLine

def scrollbackLines (b : TerminalBuffer) : ℕ := b.lines.length - b.rows

/-- The loop of `enforce_budget`; each turn drops a line. -/
def dropOldest : ℕ → TerminalBuffer → TerminalBuffer
  | 0, b => b
  | n + 1, b =>
    if 1 < b.lines.length ∧ b.scrollbackBudget < b.scrollbackLines then
      dropOldest n { b with lines := b.lines.tail, cursorLine := b.cursorLine - 1, scrollOffset := b.scrollOffset - 1 }
    else b

def enforceBudget (b : TerminalBuffer) : TerminalBuffer :=
  if b.scrollbackBudget = 0 then b else dropOldest b.lines.length b

def newline (b : TerminalBuffer) : TerminalBuffer :=
  enforceBudget { b.ensureLine (b.cursorLine + 1) with cursorLine := b.cursorLine + 1, cursorCell := 0, scrollOffset := 0 }

def carriageReturn (b : TerminalBuffer) : TerminalBuffer := { b with cursorCell := 0 }

/-- Cells to the left are passed as long as they take no column. -/
def passMarks (cells : TerminalLine) : ℕ → ℕ
  | 0 => 0
  | i + 1 => if (cells[i]?).any (fun cell => cell.width == 0) then passMarks cells i else i + 1

def backspace (b : TerminalBuffer) : TerminalBuffer :=
  { b.ensureLine b.cursorLine with
    cursorCell := passMarks b.currentLine (min b.cursorCell b.currentLine.length) - 1 }

def eraseToEndOfLine (b : TerminalBuffer) : TerminalBuffer := b.editLine fun line => line.take b.cursorCell

def clear (b : TerminalBuffer) : TerminalBuffer :=
  { b with lines := [[]], cursorLine := 0, cursorCell := 0, scrollOffset := 0 }

/-- `set_cursor`; a negative line or cell is zero. -/
def setCursor (b : TerminalBuffer) (line cell : ℤ) : TerminalBuffer :=
  let b := { b.ensureLine line.toNat with cursorLine := line.toNat }
  { b with cursorCell := min cell.toNat b.currentLine.length }

def resize (b : TerminalBuffer) (columns rows : ℕ) : TerminalBuffer :=
  { b.ensureLine b.cursorLine with
    columns := max 1 columns, rows := max 1 rows, cursorCell := min b.cursorCell b.currentLine.length, scrollOffset := 0 }

/-- A cell is put over the one at the cursor, or behind the line. -/
def place (b : TerminalBuffer) (cell : TerminalCell) : TerminalBuffer :=
  { b.editLine (fun line => if b.cursorCell < line.length then line.set b.cursorCell cell else line ++ [cell]) with
    cursorCell := b.cursorCell + 1 }

section
variable (charWidth : ℕ → ℕ)

def Wraps (b : TerminalBuffer) (cp : ℕ) : Prop := 0 < b.cursorColumn ∧ b.columns < b.cursorColumn + charWidth cp

instance (b : TerminalBuffer) (cp : ℕ) : Decidable (b.Wraps charWidth cp) :=
  inferInstanceAs (Decidable (0 < b.cursorColumn ∧ b.columns < b.cursorColumn + charWidth cp))

def put (b : TerminalBuffer) (cp : ℕ) : TerminalBuffer :=
  if charWidth cp = 0 then
    let at_ := min b.cursorCell b.currentLine.length
    { b.editLine (fun line => line.insertIdx at_ ⟨cp, 0⟩) with cursorCell := at_ }
  else (if b.Wraps charWidth cp then b.newline else b).place ⟨cp, charWidth cp⟩

/-- The loop of `tab`. -/
def tabFrom (next : ℕ) : ℕ → TerminalBuffer → Option TerminalBuffer
  | 0, _ => none
  | fuel + 1, b => if b.cursorColumn < next then tabFrom next fuel (b.put charWidth space) else some b

def nextStop (b : TerminalBuffer) : ℕ := (b.cursorColumn / 8 + 1) * 8

def tab (fuel : ℕ) (b : TerminalBuffer) : Option TerminalBuffer := tabFrom charWidth b.nextStop fuel b

def apply (fuel : ℕ) (b : TerminalBuffer) (cp : ℕ) : Option TerminalBuffer :=
  if cp = nl then some b.newline
  else if cp = cr then some b.carriageReturn
  else if cp = bs then some b.backspace
  else if cp = ht then b.tab charWidth fuel
  else some (b.put charWidth cp)

/-- The loop of `write`. -/
def applyAll (fuel : ℕ) (b : TerminalBuffer) (text : List ℕ) : Option TerminalBuffer :=
  text.foldlM (fun b cp => b.apply charWidth fuel cp) b

def write (fuel : ℕ) (b : TerminalBuffer) (text : List ℕ) : Option TerminalBuffer :=
  (b.applyAll charWidth fuel text).map fun b => { b with scrollOffset := 0 }

end

/-! ## Progress -/

variable {charWidth : ℕ → ℕ} {b b' : TerminalBuffer} {cp n : ℕ}

@[simp] theorem columnsOf_nil : columnsOf [] = 0 := rfl

theorem columnsOf_append (l l' : List TerminalCell) : columnsOf (l ++ l') = columnsOf l + columnsOf l' := by
  rw [columnsOf, List.map_append, List.sum_append, ← columnsOf, ← columnsOf]

theorem columnsOf_singleton (cell : TerminalCell) : columnsOf [cell] = cell.width := List.sum_singleton

theorem currentLine_ensured (b : TerminalBuffer) :
    (b.lines ++ List.replicate (b.cursorLine + 1 - b.lines.length) [])[b.cursorLine]? = some b.currentLine := by
  unfold currentLine
  by_cases h : b.cursorLine < b.lines.length
  · rw [List.getElem?_append_left h, List.getD_eq_getElem?_getD, List.getElem?_eq_getElem h, Option.getD_some]
  · rw [List.getElem?_append_right (Nat.le_of_not_lt h), List.getElem?_replicate, if_pos (by omega),
      List.getD_eq_getElem?_getD, List.getElem?_eq_none (Nat.le_of_not_lt h), Option.getD_none]

theorem currentLine_editLine (b : TerminalBuffer) (f : TerminalLine → TerminalLine) :
    (b.editLine f).currentLine = f b.currentLine := by
  have hline := currentLine_ensured b
  show ((b.lines ++ List.replicate (b.cursorLine + 1 - b.lines.length) []).modify b.cursorLine f).getD b.cursorLine [] = _
  rw [List.getD_eq_getElem?_getD, List.getElem?_modify, hline]
  simp

theorem dropOldest_cursorCell (n : ℕ) (b : TerminalBuffer) : (dropOldest n b).cursorCell = b.cursorCell := by
  induction n generalizing b with
  | zero => rfl
  | succ n ih =>
    unfold dropOldest
    split
    · exact ih _
    · rfl

theorem dropOldest_columns (n : ℕ) (b : TerminalBuffer) : (dropOldest n b).columns = b.columns := by
  induction n generalizing b with
  | zero => rfl
  | succ n ih =>
    unfold dropOldest
    split
    · exact ih _
    · rfl

theorem newline_cursorColumn (b : TerminalBuffer) : b.newline.cursorColumn = 0 := by
  have hcell : b.newline.cursorCell = 0 := by
    unfold newline enforceBudget
    split
    · rfl
    · exact dropOldest_cursorCell _ _
  rw [cursorColumn, hcell, List.take_zero, columnsOf_nil]

theorem newline_columns (b : TerminalBuffer) : b.newline.columns = b.columns := by
  unfold newline enforceBudget
  split
  · rfl
  · exact dropOldest_columns _ _

theorem place_cursorColumn (b : TerminalBuffer) (cell : TerminalCell) :
    (b.place cell).cursorColumn = b.cursorColumn + cell.width := by
  have hline : (b.place cell).currentLine =
      if b.cursorCell < b.currentLine.length then b.currentLine.set b.cursorCell cell else b.currentLine ++ [cell] :=
    currentLine_editLine b _
  have hcell : (b.place cell).cursorCell = b.cursorCell + 1 := rfl
  rw [cursorColumn, hline, hcell, cursorColumn]
  split
  · next h =>
    rw [List.take_add_one, List.take_set_of_le (Nat.le_refl _), List.getElem?_set_self h, columnsOf_append]
    rfl
  · next h =>
    rw [List.take_of_length_le (by rw [List.length_append, List.length_singleton]; omega),
      List.take_of_length_le (Nat.le_of_not_lt h), columnsOf_append, columnsOf_singleton]

theorem put_cursorColumn (h : charWidth cp ≠ 0) : (b.put charWidth cp).cursorColumn =
    (if b.Wraps charWidth cp then 0 else b.cursorColumn) + charWidth cp := by
  rw [put, if_neg h, place_cursorColumn]
  split
  · rw [newline_cursorColumn]
  · rfl

theorem put_columns (b : TerminalBuffer) (cp : ℕ) : (b.put charWidth cp).columns = b.columns := by
  unfold put
  split
  · rfl
  · split
    · exact newline_columns b
    · rfl

section
variable (hspace : charWidth space = 1)
include hspace

theorem put_space : (b.put charWidth space).cursorColumn =
    if 0 < b.cursorColumn ∧ b.columns ≤ b.cursorColumn then 1 else b.cursorColumn + 1 := by
  have hwraps : b.Wraps charWidth space ↔ 0 < b.cursorColumn ∧ b.columns ≤ b.cursorColumn := by
    unfold Wraps
    omega
  rw [put_cursorColumn (by omega), hspace]
  by_cases h : b.Wraps charWidth space
  · rw [if_pos h, if_pos (hwraps.1 h)]
  · rw [if_neg h, if_neg fun hfull => h (hwraps.2 hfull)]

theorem tabFrom_settles (hcol : b.cursorColumn ≤ n) (hn : n ≤ b.columns) :
    ∃ b', Settles (fun fuel => tabFrom charWidth n fuel b) b' := by
  obtain ⟨left, hleft⟩ := Nat.exists_eq_add_of_le hcol
  induction left generalizing b with
  | zero =>
    refine ⟨b, .last fun fuel => ?_⟩
    rw [tabFrom, if_neg (by omega)]
  | succ left ih =>
    have hnext : (b.put charWidth space).cursorColumn = b.cursorColumn + 1 := by
      rw [put_space hspace, if_neg (by omega)]
    obtain ⟨b', hb'⟩ := ih (b := b.put charWidth space) (by omega) (by rwa [put_columns]) (by omega)
    refine ⟨b', .step (fun fuel => ?_) hb'⟩
    rw [tabFrom, if_pos (by omega)]

theorem tabFrom_none (hn : b.columns < n) (hone : 1 < n) (fuel : ℕ) (hcol : b.cursorColumn < n) :
    tabFrom charWidth n fuel b = none := by
  induction fuel generalizing b with
  | zero => rfl
  | succ fuel ih =>
    rw [tabFrom, if_pos hcol]
    refine ih (by rwa [put_columns]) ?_
    rw [put_space hspace]
    split
    · exact hone
    · omega

theorem tab_settles_iff : (∃ b', Settles (fun fuel => b.tab charWidth fuel) b') ↔ b.nextStop ≤ b.columns := by
  have hstop : b.cursorColumn < b.nextStop ∧ 8 ≤ b.nextStop := by
    unfold nextStop
    omega
  constructor
  · rintro ⟨b', k, hk⟩
    by_contra hfar
    have hnone := tabFrom_none hspace (Nat.lt_of_not_le hfar) (by omega) k hstop.1
    have hsome := hk k (Nat.le_refl k)
    exact absurd (hnone.symm.trans hsome) (by simp)
  · exact tabFrom_settles hspace (Nat.le_of_lt hstop.1)

end

/-! ## Writing -/

/-- A character is written and the buffer after it. -/
def Applies (charWidth : ℕ → ℕ) (b : TerminalBuffer) (cp : ℕ) (b' : TerminalBuffer) : Prop :=
  Settles (fun fuel => b.apply charWidth fuel cp) b'

def AppliesAll (charWidth : ℕ → ℕ) (b : TerminalBuffer) (text : List ℕ) (b' : TerminalBuffer) : Prop :=
  Settles (fun fuel => b.applyAll charWidth fuel text) b'

theorem applies_of_ne (h : cp ≠ ht) : ∃ b', Applies charWidth b cp b' := by
  unfold Applies apply
  by_cases hnl : cp = nl
  · exact ⟨b.newline, .const fun _ => if_pos hnl⟩
  · by_cases hcr : cp = cr
    · exact ⟨b.carriageReturn, .const fun _ => by rw [if_neg hnl, if_pos hcr]⟩
    · by_cases hbs : cp = bs
      · exact ⟨b.backspace, .const fun _ => by rw [if_neg hnl, if_neg hcr, if_pos hbs]⟩
      · exact ⟨b.put charWidth cp, .const fun _ => by rw [if_neg hnl, if_neg hcr, if_neg hbs, if_neg h]⟩

theorem applies_iff (hspace : charWidth space = 1) :
    (∃ b', Applies charWidth b cp b') ↔ (cp = ht → b.nextStop ≤ b.columns) := by
  by_cases h : cp = ht
  · subst h
    rw [← tab_settles_iff hspace]
    exact ⟨fun h _ => h, fun h => h rfl⟩
  · exact ⟨fun _ htab => absurd htab h, fun _ => applies_of_ne h⟩

theorem tabFrom_mono {fuel : ℕ} (h : tabFrom charWidth n fuel b = some b') :
    tabFrom charWidth n (fuel + 1) b = some b' := by
  induction fuel generalizing b with
  | zero => cases h
  | succ fuel ih =>
    rw [tabFrom] at h ⊢
    split at h
    · next hlt =>
      rw [if_pos hlt]
      exact ih h
    · next hlt =>
      rw [if_neg hlt]
      exact h

theorem apply_mono {fuel : ℕ} (h : b.apply charWidth fuel cp = some b') : b.apply charWidth (fuel + 1) cp = some b' := by
  unfold apply at h ⊢
  split_ifs at h ⊢
  · exact h
  · exact h
  · exact h
  · exact tabFrom_mono h
  · exact h

theorem applyAll_mono {fuel : ℕ} {text : List ℕ} (h : b.applyAll charWidth fuel text = some b') :
    b.applyAll charWidth (fuel + 1) text = some b' := by
  induction text generalizing b with
  | nil => exact h
  | cons cp text ih =>
    obtain ⟨b₁, hfirst, hrest⟩ := Option.bind_eq_some_iff.1 h
    exact Option.bind_eq_some_iff.2 ⟨b₁, apply_mono hfirst, ih hrest⟩

theorem appliesAll_nil : AppliesAll charWidth b [] b := .const fun _ => rfl

theorem appliesAll_cons_iff {text : List ℕ} : AppliesAll charWidth b (cp :: text) b' ↔
    ∃ b₁, Applies charWidth b cp b₁ ∧ AppliesAll charWidth b₁ text b' := by
  constructor
  · rintro ⟨k, hk⟩
    obtain ⟨b₁, hfirst, -⟩ := Option.bind_eq_some_iff.1 (hk k (Nat.le_refl k))
    refine ⟨b₁, .of_mono (fun _ _ h => apply_mono h) hfirst, k, fun fuel hfuel => ?_⟩
    obtain ⟨b₂, hnext, hrest⟩ := Option.bind_eq_some_iff.1 (hk fuel hfuel)
    have hsame : b₂ = b₁ := by
      have hall : Applies charWidth b cp b₂ := .of_mono (fun _ _ h => apply_mono h) hnext
      exact hall.unique (.of_mono (fun _ _ h => apply_mono h) hfirst)
    rwa [hsame] at hrest
  · rintro ⟨b₁, hfirst, hrest⟩
    unfold AppliesAll at hrest
    exact Settles.bind (f := fun fuel b₁ => b₁.applyAll charWidth fuel text) hfirst hrest

theorem appliesAll_append_iff {text text' : List ℕ} : AppliesAll charWidth b (text ++ text') b' ↔
    ∃ b₁, AppliesAll charWidth b text b₁ ∧ AppliesAll charWidth b₁ text' b' := by
  induction text generalizing b with
  | nil =>
    constructor
    · exact fun h => ⟨b, appliesAll_nil, h⟩
    · rintro ⟨b₁, hnil, hrest⟩
      rwa [hnil.unique appliesAll_nil] at hrest
  | cons cp text ih =>
    rw [List.cons_append, appliesAll_cons_iff]
    constructor
    · rintro ⟨b₁, hfirst, hrest⟩
      obtain ⟨b₂, hmid, hlast⟩ := ih.1 hrest
      exact ⟨b₂, appliesAll_cons_iff.2 ⟨b₁, hfirst, hmid⟩, hlast⟩
    · rintro ⟨b₂, hall, hlast⟩
      obtain ⟨b₁, hfirst, hmid⟩ := appliesAll_cons_iff.1 hall
      exact ⟨b₁, hfirst, ih.2 ⟨b₂, hmid, hlast⟩⟩

theorem appliesAll_iff (hspace : charWidth space = 1) (text : List ℕ) : (∃ b', AppliesAll charWidth b text b') ↔
    ∀ before after, text = before ++ ht :: after → ∀ b', AppliesAll charWidth b before b' → b'.nextStop ≤ b'.columns := by
  constructor
  · rintro ⟨b', hall⟩ before after rfl b₁ hbefore
    obtain ⟨b₂, hfirst, hrest⟩ := appliesAll_append_iff.1 hall
    obtain ⟨b₃, htab, -⟩ := appliesAll_cons_iff.1 hrest
    rw [hbefore.unique hfirst]
    exact (applies_iff hspace).1 ⟨b₃, htab⟩ rfl
  · intro hstops
    induction text generalizing b with
    | nil => exact ⟨b, appliesAll_nil⟩
    | cons cp text ih =>
      have hfirst : ∃ b₁, Applies charWidth b cp b₁ := by
        refine (applies_iff hspace).2 fun htab => hstops [] text ?_ b appliesAll_nil
        rw [htab, List.nil_append]
      obtain ⟨b₁, hfirst⟩ := hfirst
      obtain ⟨b', hrest⟩ := ih fun before after heq b₂ hbefore =>
        hstops (cp :: before) after (by rw [heq]; rfl) b₂ (appliesAll_cons_iff.2 ⟨b₁, hfirst, hbefore⟩)
      exact ⟨b', appliesAll_cons_iff.2 ⟨b₁, hfirst, hrest⟩⟩

/-- A write comes to an end exactly where none of its tabs is met with the next stop past the last
    column, whatever the buffer it is written to. -/
theorem write_ends_iff (hspace : charWidth space = 1) (b : TerminalBuffer) (text : List ℕ) :
    (∃ b', Settles (fun fuel => b.write charWidth fuel text) b') ↔
      ∀ before after, text = before ++ ht :: after → ∀ b', AppliesAll charWidth b before b' → b'.nextStop ≤ b'.columns := by
  rw [← appliesAll_iff hspace]
  constructor
  · rintro ⟨b', k, hk⟩
    obtain ⟨b₁, hb₁, -⟩ := Option.map_eq_some_iff.1 (hk k (Nat.le_refl k))
    exact ⟨b₁, .of_mono (fun _ _ h => applyAll_mono h) hb₁⟩
  · rintro ⟨b', hb'⟩
    unfold write
    exact ⟨_, Settles.map (fun b : TerminalBuffer => { b with scrollOffset := 0 }) hb'⟩

/-- A tab is written where there are eight columns. -/
theorem write_ends_eight : ∃ b', Settles (fun fuel => (empty 8 5).write (fun _ => 1) fuel [ht]) b' := by
  refine (write_ends_iff rfl _ _).2 fun before after heq b' hbefore => ?_
  cases before with
  | nil =>
    rw [hbefore.unique appliesAll_nil]
    decide
  | cons cp before =>
    have hlen := congrArg List.length heq
    simp at hlen

/-- A tab never comes to its stop where there are four columns. -/
theorem tab_of_four : ¬ ∃ b', Settles (fun fuel => (empty 4 5).write (fun _ => 1) fuel [ht]) b' := by
  rintro ⟨b', k, hk⟩
  obtain ⟨b₁, hb₁, -⟩ := Option.map_eq_some_iff.1 (hk k (Nat.le_refl k))
  have hall : AppliesAll (fun _ => 1) (empty 4 5) [ht] b₁ := .of_mono (fun _ _ h => applyAll_mono h) hb₁
  have hstop := (appliesAll_iff rfl _).1 ⟨b₁, hall⟩ [] [] rfl (empty 4 5) appliesAll_nil
  exact absurd hstop (by decide)

end TerminalBuffer

end Aegir.Trinket
