/-
  What the terminal's lines keep of the text (trinket, `terminal_buffer.cc`).
-/
import Aegir.Trinket.Terminal

namespace Aegir.Trinket

open Aegir.Lib

/-! ## What is promised -/

/-- The lines have the text: each break between them is one of its newlines, or one of the wraps. -/
inductive Joined : List TerminalLine → List ℕ → Prop
  | line (l : TerminalLine) : Joined [l] (l.map TerminalCell.cp)
  | wrapped {ls : List TerminalLine} {text : List ℕ} (h : Joined ls text) (l : TerminalLine) :
      Joined (ls ++ [l]) (text ++ l.map TerminalCell.cp)
  | broken {ls : List TerminalLine} {text : List ℕ} (h : Joined ls text) (l : TerminalLine) :
      Joined (ls ++ [l]) (text ++ nl :: l.map TerminalCell.cp)

def TerminalBuffer.Fits (b : TerminalBuffer) : Prop := ∀ l ∈ b.lines, columnsOf l ≤ b.columns

def Printable (cp : ℕ) : Prop := cp ≠ nl ∧ cp ≠ cr ∧ cp ≠ bs ∧ cp ≠ ht

instance : DecidablePred Printable := fun cp => inferInstanceAs (Decidable (cp ≠ nl ∧ cp ≠ cr ∧ cp ≠ bs ∧ cp ≠ ht))

/-- Each run of marks of a text reads the same backwards and comes before a newline, the text's end
    or a character that goes to the next line.  The cursor is at the column `col`, and the marks of
    the present run are `marks`, the last one first. -/
def Kept (charWidth : ℕ → ℕ) (columns : ℕ) : ℕ → List ℕ → List ℕ → Prop
  | _, marks, [] => marks.reverse = marks
  | col, marks, cp :: text =>
    if cp = nl then marks.reverse = marks ∧ Kept charWidth columns 0 [] text
    else if charWidth cp = 0 then Kept charWidth columns col (cp :: marks) text
    else if 0 < col ∧ columns < col + charWidth cp then
      marks.reverse = marks ∧ Kept charWidth columns (charWidth cp) [] text
    else marks = [] ∧ Kept charWidth columns (col + charWidth cp) [] text

/-- A character is put over one so much narrower that its line gets too wide. -/
def TerminalBuffer.Overfills (charWidth : ℕ → ℕ) (b : TerminalBuffer) (cp : ℕ) : Prop :=
  charWidth cp ≠ 0 ∧ ¬ b.Wraps charWidth cp ∧
    ∃ cell, b.currentLine[b.cursorCell]? = some cell ∧ b.columns + cell.width < b.lineColumns + charWidth cp

/-! ## Where the cursor is -/

open TerminalBuffer

variable {charWidth : ℕ → ℕ} {b b' : TerminalBuffer} {closed : List TerminalLine} {written rest : List TerminalCell}
  {cp : ℕ}

/-- The cursor is in the last line, behind the cells `written` and before the cells `rest`. -/
structure At (b : TerminalBuffer) (closed : List TerminalLine) (written rest : List TerminalCell) : Prop where
  lines : b.lines = closed ++ [written ++ rest]
  cursorLine : b.cursorLine = closed.length
  cursorCell : b.cursorCell = written.length
  budget : b.scrollbackBudget = 0

theorem modify_last {α : Type} (l : List α) (a : α) (f : α → α) : (l ++ [a]).modify l.length f = l ++ [f a] := by
  induction l with
  | nil => rfl
  | cons x l ih => exact congrArg (x :: ·) ih

theorem insertIdx_length {α : Type} (l l' : List α) (a : α) : (l ++ l').insertIdx l.length a = l ++ a :: l' := by
  induction l with
  | nil => rfl
  | cons x l ih => exact congrArg (x :: ·) ih

namespace At

theorem currentLine (h : At b closed written rest) : b.currentLine = written ++ rest := by
  rw [TerminalBuffer.currentLine, h.lines, h.cursorLine, List.getD_eq_getElem?_getD,
    List.getElem?_append_right (Nat.le_refl _), Nat.sub_self]
  rfl

theorem cursorColumn (h : At b closed written rest) : b.cursorColumn = columnsOf written := by
  rw [TerminalBuffer.cursorColumn, h.currentLine, h.cursorCell, List.take_left]

theorem editLine (h : At b closed written rest) (f : TerminalLine → TerminalLine) :
    (b.editLine f).lines = closed ++ [f (written ++ rest)] := by
  have hensured : (b.ensureLine b.cursorLine).lines = closed ++ [written ++ rest] := by
    show b.lines ++ List.replicate (b.cursorLine + 1 - b.lines.length) [] = _
    rw [h.lines, h.cursorLine, List.length_append, List.length_singleton, Nat.sub_self, List.replicate_zero,
      List.append_nil]
  show (b.ensureLine b.cursorLine).lines.modify b.cursorLine f = _
  rw [hensured, h.cursorLine, modify_last]

theorem newline (h : At b closed written rest) : At b.newline (closed ++ [written ++ rest]) [] [] := by
  have hnew : b.newline = { b.ensureLine (b.cursorLine + 1) with
      cursorLine := b.cursorLine + 1, cursorCell := 0, scrollOffset := 0 } := by
    rw [TerminalBuffer.newline, enforceBudget]
    exact if_pos h.budget
  rw [hnew]
  refine ⟨?_, ?_, rfl, h.budget⟩
  · show b.lines ++ List.replicate (b.cursorLine + 1 + 1 - b.lines.length) [] = _
    rw [h.lines, h.cursorLine, List.length_append, List.length_singleton, Nat.add_sub_cancel_left]
    rfl
  · show b.cursorLine + 1 = _
    rw [h.cursorLine, List.length_append, List.length_singleton]

theorem carriageReturn (h : At b closed written rest) : At b.carriageReturn closed [] (written ++ rest) :=
  ⟨h.lines, h.cursorLine, rfl, h.budget⟩

theorem place (h : At b closed written rest) (cell : TerminalCell) :
    At (b.place cell) closed (written ++ [cell]) rest.tail := by
  refine ⟨?_, h.cursorLine, ?_, h.budget⟩
  · show (b.editLine _).lines = _
    rw [h.editLine, h.cursorCell]
    cases rest with
    | nil => rw [if_neg (by simp), List.append_nil, List.tail_nil, List.append_nil]
    | cons c rest =>
      rw [if_pos (by simp), List.set_append_right _ _ (Nat.le_refl _), Nat.sub_self, List.set_cons_zero, List.tail_cons,
        List.append_assoc, List.singleton_append]
  · show b.cursorCell + 1 = _
    rw [h.cursorCell, List.length_append, List.length_singleton]

theorem put_mark (h : At b closed written rest) (hcp : charWidth cp = 0) :
    At (b.put charWidth cp) closed written (⟨cp, 0⟩ :: rest) := by
  have hat : min b.cursorCell b.currentLine.length = written.length := by
    rw [h.cursorCell, h.currentLine, List.length_append]
    omega
  rw [put, if_pos hcp]
  dsimp only
  rw [hat]
  refine ⟨?_, h.cursorLine, rfl, h.budget⟩
  show (b.editLine _).lines = _
  rw [h.editLine]
  rw [insertIdx_length]

/-- A character is put on the next line, -/
theorem put_wraps (h : At b closed written rest) (hcp : charWidth cp ≠ 0) (hwraps : b.Wraps charWidth cp) :
    At (b.put charWidth cp) (closed ++ [written ++ rest]) [⟨cp, charWidth cp⟩] [] := by
  rw [put, if_neg hcp, if_pos hwraps]
  exact h.newline.place _

/-- or over the first cell behind the cursor. -/
theorem put_over (h : At b closed written rest) (hcp : charWidth cp ≠ 0) (hwraps : ¬ b.Wraps charWidth cp) :
    At (b.put charWidth cp) closed (written ++ [⟨cp, charWidth cp⟩]) rest.tail := by
  rw [put, if_neg hcp, if_neg hwraps]
  exact h.place _

theorem applies (h : At b closed written rest) (hcp : cp = nl ∨ Printable cp) (hb' : Applies charWidth b cp b') :
    b'.columns = b.columns ∧
      if cp = nl then At b' (closed ++ [written ++ rest]) [] []
      else if charWidth cp = 0 then At b' closed written (⟨cp, 0⟩ :: rest)
      else if 0 < columnsOf written ∧ b.columns < columnsOf written + charWidth cp then
        At b' (closed ++ [written ++ rest]) [⟨cp, charWidth cp⟩] []
      else At b' closed (written ++ [⟨cp, charWidth cp⟩]) rest.tail := by
  by_cases hnl : cp = nl
  · have heq : Applies charWidth b cp b.newline := .const fun _ => if_pos hnl
    rw [hb'.unique heq, if_pos hnl]
    exact ⟨newline_columns b, h.newline⟩
  · obtain ⟨-, hcr, hbs, hht⟩ := hcp.resolve_left hnl
    have heq : Applies charWidth b cp (b.put charWidth cp) := .const fun _ => by
      rw [apply, if_neg hnl, if_neg hcr, if_neg hbs, if_neg hht]
    rw [hb'.unique heq, if_neg hnl, ← h.cursorColumn]
    refine ⟨put_columns b cp, ?_⟩
    split_ifs with hmark hwraps
    · exact h.put_mark hmark
    · exact h.put_wraps hmark hwraps
    · exact h.put_over hmark hwraps

end At

/-! ## The text -/

theorem Joined.extend {ls : List TerminalLine} {l : TerminalLine} {text : List ℕ} (h : Joined (ls ++ [l]) text)
    (more : TerminalLine) : Joined (ls ++ [l ++ more]) (text ++ more.map TerminalCell.cp) := by
  generalize hall : ls ++ [l] = all at h
  cases h with
  | line l' =>
    obtain ⟨rfl, hl⟩ := List.append_inj' (hall.trans (List.nil_append [l']).symm) rfl
    cases hl
    rw [← List.map_append]
    exact .line _
  | wrapped h l' =>
    obtain ⟨rfl, hl⟩ := List.append_inj' hall rfl
    cases hl
    rw [List.append_assoc, ← List.map_append]
    exact .wrapped h _
  | broken h l' =>
    obtain ⟨rfl, hl⟩ := List.append_inj' hall rfl
    cases hl
    rw [List.append_assoc, List.cons_append, ← List.map_append]
    exact .broken h _

theorem Joined.cells {ls : List TerminalLine} {text : List ℕ} (h : Joined ls text) :
    text.filter (· ≠ nl) = (ls.flatten.map TerminalCell.cp).filter (· ≠ nl) := by
  induction h with
  | line l => rw [List.flatten_singleton]
  | wrapped _ l ih =>
    rw [List.filter_append, ih, List.flatten_append, List.map_append, List.filter_append, List.flatten_singleton]
  | broken _ l ih =>
    rw [List.filter_append, List.filter_cons_of_neg (by simp), ih, List.flatten_append, List.map_append,
      List.filter_append, List.flatten_singleton]

section
variable (charWidth : ℕ → ℕ) (columns : ℕ)

/-- The code points that the cells of a text come to have, the present run's marks among them. -/
def laid : ℕ → List ℕ → List ℕ → List ℕ
  | _, marks, [] => marks
  | col, marks, cp :: text =>
    if cp = nl then marks ++ laid 0 [] text
    else if charWidth cp = 0 then laid col (cp :: marks) text
    else if 0 < col ∧ columns < col + charWidth cp then marks ++ cp :: laid (charWidth cp) [] text
    else cp :: laid (col + charWidth cp) marks.tail text

variable {charWidth columns} {col : ℕ} {marks text : List ℕ}

theorem mem_laid {c : ℕ} (h : c ∈ laid charWidth columns col marks text) : c ∈ marks ∨ c ≠ nl := by
  induction text generalizing col marks with
  | nil => exact .inl h
  | cons cp text ih =>
    unfold laid at h
    split_ifs at h with hnl hmark hwraps
    · rcases List.mem_append.1 h with h | h
      · exact .inl h
      · exact (ih h).imp_left fun hnil => absurd hnil List.not_mem_nil
    · rcases ih h with hc | hc
      · rcases List.mem_cons.1 hc with rfl | hc
        · exact .inr hnl
        · exact .inl hc
      · exact .inr hc
    · rcases List.mem_append.1 h with h | h
      · exact .inl h
      · rcases List.mem_cons.1 h with rfl | h
        · exact .inr hnl
        · exact (ih h).imp_left fun hnil => absurd hnil List.not_mem_nil
    · rcases List.mem_cons.1 h with rfl | h
      · exact .inr hnl
      · exact (ih h).imp_left List.mem_of_mem_tail

theorem laid_length : (laid charWidth columns col marks text).length ≤ marks.length + (text.filter (· ≠ nl)).length := by
  induction text generalizing col marks with
  | nil => exact Nat.le_refl _
  | cons cp text ih =>
    unfold laid
    by_cases hnl : cp = nl
    · rw [if_pos hnl, List.filter_cons_of_neg (by simp [hnl]), List.length_append]
      have := @ih 0 []
      rw [List.length_nil] at this
      omega
    · rw [if_neg hnl, List.filter_cons_of_pos (by simp [hnl]), List.length_cons]
      split_ifs
      · have := @ih col (cp :: marks)
        rw [List.length_cons] at this
        omega
      · have := @ih (charWidth cp) []
        rw [List.length_append, List.length_cons]
        rw [List.length_nil] at this
        omega
      · have := @ih (col + charWidth cp) marks.tail
        rw [List.length_tail] at this
        rw [List.length_cons]
        omega

theorem laid_eq_iff : laid charWidth columns col marks text = marks.reverse ++ text.filter (· ≠ nl) ↔
    Kept charWidth columns col marks text := by
  induction text generalizing col marks with
  | nil =>
    rw [laid, Kept, List.filter_nil, List.append_nil]
    exact eq_comm
  | cons cp text ih =>
    unfold laid Kept
    by_cases hnl : cp = nl
    · rw [if_pos hnl, if_pos hnl, List.filter_cons_of_neg (by simp [hnl]), ← ih, List.reverse_nil, List.nil_append]
      constructor
      · intro h
        obtain ⟨hmarks, htext⟩ := List.append_inj h (List.length_reverse).symm
        exact ⟨hmarks.symm, htext⟩
      · rintro ⟨hmarks, htext⟩
        rw [hmarks, htext]
    · rw [if_neg hnl, if_neg hnl, List.filter_cons_of_pos (by simp [hnl])]
      by_cases hmark : charWidth cp = 0
      · rw [if_pos hmark, if_pos hmark, ← ih, List.reverse_cons, List.append_assoc, List.singleton_append]
      · rw [if_neg hmark, if_neg hmark]
        by_cases hwraps : 0 < col ∧ columns < col + charWidth cp
        · rw [if_pos hwraps, if_pos hwraps, ← ih, List.reverse_nil, List.nil_append]
          constructor
          · intro h
            obtain ⟨hmarks, htext⟩ := List.append_inj h (List.length_reverse).symm
            exact ⟨hmarks.symm, (List.cons.inj htext).2⟩
          · rintro ⟨hmarks, htext⟩
            rw [hmarks, htext]
        · rw [if_neg hwraps, if_neg hwraps, ← ih, List.reverse_nil, List.nil_append]
          constructor
          · -- a mark that is put over is not in the line any more
            intro h
            have hmost := @laid_length charWidth columns (col + charWidth cp) marks.tail text
            have hlen := congrArg List.length h
            rw [List.length_append, List.length_reverse, List.length_cons, List.length_cons] at hlen
            rw [List.length_tail] at hmost
            have hnil : marks = [] := List.eq_nil_of_length_eq_zero (by omega)
            subst hnil
            exact ⟨rfl, (List.cons.inj h).2⟩
          · rintro ⟨rfl, htext⟩
            rw [List.tail_nil, htext, List.reverse_nil, List.nil_append]

end

def markCells (marks : List ℕ) : List TerminalCell := marks.map fun m => ⟨m, 0⟩

theorem markCells_cp (marks : List ℕ) : (markCells marks).map TerminalCell.cp = marks := by
  unfold markCells
  rw [List.map_map]
  exact List.map_id _

theorem columnsOf_markCells (marks : List ℕ) : columnsOf (markCells marks) = 0 := by
  induction marks with
  | nil => rfl
  | cons m marks ih => exact (Nat.zero_add _).trans ih

theorem At.text {marks text : List ℕ} (h : At b closed written (markCells marks))
    (htext : ∀ cp ∈ text, cp = nl ∨ Printable cp) (hb' : AppliesAll charWidth b text b') :
    b'.lines.flatten.map TerminalCell.cp = (closed.flatten ++ written).map TerminalCell.cp ++
      laid charWidth b.columns (columnsOf written) marks text ∧
    ∀ before, Joined (closed ++ [written]) before → Kept charWidth b.columns (columnsOf written) marks text →
      Joined b'.lines (before ++ marks.reverse ++ text) := by
  induction text generalizing b closed written marks with
  | nil =>
    rw [hb'.unique appliesAll_nil, h.lines]
    refine ⟨?_, fun before hjoined hkept => ?_⟩
    · rw [laid, List.flatten_append, List.flatten_singleton, ← List.append_assoc, List.map_append, markCells_cp]
    · rw [show marks.reverse = marks from hkept, List.append_nil]
      have hext := hjoined.extend (markCells marks)
      rwa [markCells_cp] at hext
  | cons cp text ih =>
    obtain ⟨b₁, hfirst, hrest⟩ := appliesAll_cons_iff.1 hb'
    obtain ⟨hcolumns, hstep⟩ := h.applies (htext cp List.mem_cons_self) hfirst
    have htext' : ∀ c ∈ text, c = nl ∨ Printable c := fun c hc => htext c (List.mem_cons_of_mem _ hc)
    unfold laid Kept
    by_cases hnl : cp = nl
    · rw [if_pos hnl] at hstep
      have hat : At b₁ (closed ++ [written ++ markCells marks]) [] (markCells []) := hstep
      obtain ⟨hcells, hjoin⟩ := ih hat htext' hrest
      rw [hcolumns] at hcells hjoin
      rw [if_pos hnl, if_pos hnl]
      refine ⟨?_, ?_⟩
      · rw [hcells]
        simp [markCells_cp, columnsOf_nil]
      · rintro before hjoined ⟨hmarks, hkept⟩
        have hext := hjoined.extend (markCells marks)
        rw [markCells_cp] at hext
        have hlast := hjoin _ (hext.broken []) hkept
        rw [hmarks, hnl]
        simpa using hlast
    · rw [if_neg hnl] at hstep
      rw [if_neg hnl, if_neg hnl]
      by_cases hmark : charWidth cp = 0
      · rw [if_pos hmark] at hstep
        have hat : At b₁ closed written (markCells (cp :: marks)) := hstep
        obtain ⟨hcells, hjoin⟩ := ih hat htext' hrest
        rw [hcolumns] at hcells hjoin
        rw [if_pos hmark, if_pos hmark]
        refine ⟨hcells, fun before hjoined hkept => ?_⟩
        have hlast := hjoin before hjoined hkept
        rw [List.reverse_cons, List.append_assoc, List.append_assoc, List.singleton_append, ← List.append_assoc] at hlast
        exact hlast
      · rw [if_neg hmark] at hstep
        rw [if_neg hmark, if_neg hmark]
        by_cases hwraps : 0 < columnsOf written ∧ b.columns < columnsOf written + charWidth cp
        · rw [if_pos hwraps] at hstep
          have hat : At b₁ (closed ++ [written ++ markCells marks]) [⟨cp, charWidth cp⟩] (markCells []) := hstep
          obtain ⟨hcells, hjoin⟩ := ih hat htext' hrest
          rw [hcolumns, columnsOf_singleton] at hcells hjoin
          rw [if_pos hwraps, if_pos hwraps]
          refine ⟨?_, ?_⟩
          · rw [hcells]
            simp [markCells_cp]
          · rintro before hjoined ⟨hmarks, hkept⟩
            have hext := hjoined.extend (markCells marks)
            rw [markCells_cp] at hext
            have hlast := hjoin _ (hext.wrapped [⟨cp, charWidth cp⟩]) hkept
            rw [hmarks]
            simpa using hlast
        · rw [if_neg hwraps] at hstep
          have hat : At b₁ closed (written ++ [⟨cp, charWidth cp⟩]) (markCells marks.tail) := by
            rwa [markCells, List.map_tail]
          obtain ⟨hcells, hjoin⟩ := ih hat htext' hrest
          rw [hcolumns, columnsOf_append, columnsOf_singleton] at hcells hjoin
          rw [if_neg hwraps, if_neg hwraps]
          refine ⟨?_, ?_⟩
          · rw [hcells]
            simp
          · rintro before hjoined ⟨rfl, hkept⟩
            have hlast := hjoin _ (hjoined.extend [⟨cp, charWidth cp⟩]) hkept
            simpa using hlast

/-! ## The columns -/

theorem At.fits_iff (h : At b closed written rest) :
    b.Fits ↔ (∀ l ∈ closed, columnsOf l ≤ b.columns) ∧ columnsOf written + columnsOf rest ≤ b.columns := by
  unfold Fits
  rw [h.lines, List.forall_mem_append, List.forall_mem_singleton, columnsOf_append]

theorem At.applies_fits (h : At b closed written rest) (hwidth : ∀ c, charWidth c ≤ 2) (hcol : 2 ≤ b.columns)
    (hfits : b.Fits) (hcp : cp = nl ∨ Printable cp) (hb' : Applies charWidth b cp b') :
    b'.Fits ↔ (Printable cp → ¬ b.Overfills charWidth cp) := by
  obtain ⟨hclosed, hline⟩ := h.fits_iff.1 hfits
  obtain ⟨hcolumns, hstep⟩ := h.applies hcp hb'
  have hw := hwidth cp
  have hended : ∀ l ∈ closed ++ [written ++ rest], columnsOf l ≤ b.columns := by
    rw [List.forall_mem_append, List.forall_mem_singleton, columnsOf_append]
    exact ⟨hclosed, hline⟩
  unfold Overfills
  by_cases hnl : cp = nl
  · rw [if_pos hnl] at hstep
    rw [hstep.fits_iff, hcolumns]
    exact ⟨fun _ hprint => absurd hnl hprint.1, fun _ => ⟨hended, Nat.zero_le _⟩⟩
  · rw [if_neg hnl] at hstep
    have hprint := hcp.resolve_left hnl
    by_cases hmark : charWidth cp = 0
    · rw [if_pos hmark] at hstep
      rw [hstep.fits_iff, hcolumns]
      refine ⟨fun _ _ hover => hover.1 hmark, fun _ => ⟨hclosed, ?_⟩⟩
      rwa [← List.singleton_append, columnsOf_append, columnsOf_singleton, Nat.zero_add]
    · rw [if_neg hmark] at hstep
      have hwraps : b.Wraps charWidth cp ↔ 0 < columnsOf written ∧ b.columns < columnsOf written + charWidth cp := by
        rw [Wraps, h.cursorColumn]
      by_cases hnext : 0 < columnsOf written ∧ b.columns < columnsOf written + charWidth cp
      · rw [if_pos hnext] at hstep
        rw [hstep.fits_iff, hcolumns, columnsOf_singleton, columnsOf_nil]
        exact ⟨fun _ _ hover => hover.2.1 (hwraps.2 hnext), fun _ => ⟨hended, Nat.le_trans hw hcol⟩⟩
      · rw [if_neg hnext] at hstep
        have hat : b.currentLine[b.cursorCell]? = rest.head? := by
          rw [h.currentLine, h.cursorCell, List.getElem?_append_right (Nat.le_refl _), Nat.sub_self, ← List.head?_eq_getElem?]
        have hcols : b.lineColumns = columnsOf written + columnsOf rest := by
          rw [lineColumns, h.currentLine, columnsOf_append]
        rw [hstep.fits_iff, hcolumns, hat, hcols, columnsOf_append, columnsOf_singleton]
        cases rest with
        | nil =>
          -- behind the line the character has the columns that are left, or the line's
          rw [List.tail_nil, columnsOf_nil]
          constructor
          · rintro - - ⟨-, -, cell, hcell, -⟩
            cases hcell
          · intro _
            refine ⟨hclosed, ?_⟩
            dsimp only
            omega
        | cons cell rest =>
          have hrest : columnsOf (cell :: rest) = cell.width + columnsOf rest := List.sum_cons
          rw [List.tail_cons, hrest]
          dsimp only
          constructor
          · rintro ⟨-, hle⟩ - ⟨-, -, under, hunder, hlt⟩
            have hsame : cell = under := Option.some.inj hunder
            rw [hsame] at hlt
            omega
          · intro hno
            refine ⟨hclosed, Nat.le_of_not_lt fun hlt => hno hprint ⟨hmark, fun h => hnext (hwraps.1 h), cell, rfl, ?_⟩⟩
            omega

theorem At.standing (h : At b closed written rest) (hcp : cp = nl ∨ cp = cr ∨ Printable cp)
    (hb' : Applies charWidth b cp b') : b'.columns = b.columns ∧ ∃ closed written rest, At b' closed written rest := by
  by_cases hcr : cp = cr
  · have heq : Applies charWidth b cp b.carriageReturn := .const fun _ => by rw [apply, if_neg (by rw [hcr]; decide), if_pos hcr]
    rw [hb'.unique heq]
    exact ⟨rfl, _, _, _, h.carriageReturn⟩
  · obtain ⟨hcolumns, hstep⟩ := h.applies (hcp.imp_right fun h => h.resolve_left hcr) hb'
    refine ⟨hcolumns, ?_⟩
    split_ifs at hstep
    all_goals exact ⟨_, _, _, hstep⟩

theorem At.standing_all {text : List ℕ} (h : At b closed written rest)
    (htext : ∀ cp ∈ text, cp = nl ∨ cp = cr ∨ Printable cp) (hb' : AppliesAll charWidth b text b') :
    b'.columns = b.columns ∧ ∃ closed written rest, At b' closed written rest := by
  induction text generalizing b closed written rest with
  | nil =>
    rw [hb'.unique appliesAll_nil]
    exact ⟨rfl, _, _, _, h⟩
  | cons cp text ih =>
    obtain ⟨b₁, hfirst, hrest⟩ := appliesAll_cons_iff.1 hb'
    obtain ⟨hcolumns, closed', written', rest', hat⟩ := h.standing (htext cp List.mem_cons_self) hfirst
    obtain ⟨hcolumns', hstand⟩ := ih hat (fun c hc => htext c (List.mem_cons_of_mem _ hc)) hrest
    exact ⟨hcolumns'.trans hcolumns, hstand⟩

theorem At.step_fits (h : At b closed written rest) (hwidth : ∀ c, charWidth c ≤ 2) (hcol : 2 ≤ b.columns)
    (hfits : b.Fits) (hcp : cp = nl ∨ cp = cr ∨ Printable cp) (hb' : Applies charWidth b cp b') :
    b'.Fits ↔ (Printable cp → ¬ b.Overfills charWidth cp) := by
  by_cases hcr : cp = cr
  · have heq : Applies charWidth b cp b.carriageReturn := .const fun _ => by rw [apply, if_neg (by rw [hcr]; decide), if_pos hcr]
    rw [hb'.unique heq]
    exact ⟨fun _ hprint => absurd hcr hprint.2.1, fun _ => hfits⟩
  · exact h.applies_fits hwidth hcol hfits (hcp.imp_right fun h => h.resolve_left hcr) hb'

/-- No line gets too wide where no character is put over one too narrow, and only there. -/
theorem At.fits_all_iff {text : List ℕ} (h : At b closed written rest) (hwidth : ∀ c, charWidth c ≤ 2)
    (hcol : 2 ≤ b.columns) (hfits : b.Fits) (htext : ∀ cp ∈ text, cp = nl ∨ cp = cr ∨ Printable cp) :
    (∀ before after, text = before ++ after → ∀ b', AppliesAll charWidth b before b' → b'.Fits) ↔
      ∀ before cp after, text = before ++ cp :: after → Printable cp →
        ∀ b', AppliesAll charWidth b before b' → ¬ b'.Overfills charWidth cp := by
  constructor
  · rintro hall before cp after rfl hprint b₁ hbefore
    obtain ⟨hcolumns, _, _, _, hat⟩ :=
      h.standing_all (fun c hc => htext c (List.mem_append_left _ hc)) hbefore
    obtain ⟨b₂, hcp⟩ : ∃ b₂, Applies charWidth b₁ cp b₂ := applies_of_ne hprint.2.2.2
    have hfits₁ := hall before (cp :: after) rfl b₁ hbefore
    have hfits₂ := hall (before ++ [cp]) after (by rw [List.append_assoc, List.singleton_append]) b₂
      (appliesAll_append_iff.2 ⟨b₁, hbefore, appliesAll_cons_iff.2 ⟨b₂, hcp, appliesAll_nil⟩⟩)
    exact (hat.step_fits hwidth (by omega) hfits₁ (.inr (.inr hprint)) hcp).1 hfits₂ hprint
  · rintro hno before
    induction before using List.reverseRecOn with
    | nil =>
      intro after _ b' hb'
      rw [hb'.unique appliesAll_nil]
      exact hfits
    | append_singleton before cp ih =>
      rintro after rfl b' hb'
      obtain ⟨b₁, hbefore, hlast⟩ := appliesAll_append_iff.1 hb'
      obtain ⟨b₂, hcp, hnil⟩ := appliesAll_cons_iff.1 hlast
      rw [hnil.unique appliesAll_nil]
      have heq : before ++ [cp] ++ after = before ++ cp :: after := by rw [List.append_assoc, List.singleton_append]
      rw [heq] at htext hno ih
      obtain ⟨hcolumns, _, _, _, hat⟩ :=
        h.standing_all (fun c hc => htext c (List.mem_append_left _ hc)) hbefore
      have hfits₁ := ih (cp :: after) rfl b₁ hbefore
      have hstep := hat.step_fits hwidth (by omega) hfits₁
        (htext cp (List.mem_append_right _ List.mem_cons_self)) hcp
      exact hstep.2 fun hprint => hno before cp after rfl hprint b₁ hbefore

/-- Without carriage returns only marks are behind the cursor, -/
theorem At.marks_all {marks text : List ℕ} (h : At b closed written (markCells marks))
    (htext : ∀ cp ∈ text, cp = nl ∨ Printable cp) (hb' : AppliesAll charWidth b text b') :
    b'.columns = b.columns ∧ ∃ closed written marks, At b' closed written (markCells marks) := by
  induction text generalizing b closed written marks with
  | nil =>
    rw [hb'.unique appliesAll_nil]
    exact ⟨rfl, _, _, _, h⟩
  | cons cp text ih =>
    obtain ⟨b₁, hfirst, hrest⟩ := appliesAll_cons_iff.1 hb'
    obtain ⟨hcolumns, hstep⟩ := h.applies (htext cp List.mem_cons_self) hfirst
    have hstand : ∃ closed written marks, At b₁ closed written (markCells marks) := by
      split_ifs at hstep
      · exact ⟨_, _, [], hstep⟩
      · exact ⟨_, _, cp :: marks, hstep⟩
      · exact ⟨_, _, [], hstep⟩
      · refine ⟨closed, written ++ [⟨cp, charWidth cp⟩], marks.tail, ?_⟩
        rw [markCells, List.map_tail]
        exact hstep
    obtain ⟨_, _, _, hat⟩ := hstand
    obtain ⟨hcolumns', hlast⟩ := ih hat (fun c hc => htext c (List.mem_cons_of_mem _ hc)) hrest
    exact ⟨hcolumns'.trans hcolumns, hlast⟩

/-- and no character is put over one too narrow. -/
theorem At.not_overfills {marks : List ℕ} (h : At b closed written (markCells marks)) (hwidth : ∀ c, charWidth c ≤ 2)
    (hcol : 2 ≤ b.columns) : ¬ b.Overfills charWidth cp := by
  rintro ⟨-, hwraps, cell, hcell, hlt⟩
  have hw := hwidth cp
  rw [Wraps, h.cursorColumn] at hwraps
  rw [lineColumns, h.currentLine, columnsOf_append, columnsOf_markCells] at hlt
  omega

/-! ## The text and the columns -/

theorem empty_at (columns rows : ℕ) : At (empty columns rows) [] [] (markCells []) := ⟨rfl, rfl, rfl, rfl⟩

theorem empty_fits (columns rows : ℕ) : (empty columns rows).Fits := by
  intro l hl
  rw [List.mem_singleton.1 hl]
  exact Nat.zero_le _

theorem appliesAll_of_ne {text : List ℕ} (h : ∀ cp ∈ text, cp ≠ ht) : ∃ b', AppliesAll charWidth b text b' := by
  induction text generalizing b with
  | nil => exact ⟨b, appliesAll_nil⟩
  | cons cp text ih =>
    obtain ⟨b₁, hfirst⟩ : ∃ b₁, Applies charWidth b cp b₁ := applies_of_ne (h cp List.mem_cons_self)
    obtain ⟨b', hrest⟩ := ih (b := b₁) fun c hc => h c (List.mem_cons_of_mem _ hc)
    exact ⟨b', appliesAll_cons_iff.2 ⟨b₁, hfirst, hrest⟩⟩

/-- A text of characters and newlines: the lines fit and the cursor is in its line, and the lines have
    the text exactly where it is kept.  With carriage returns the lines fit as long as no character is
    put over one too narrow, and no longer. -/
theorem lines_have_text (hwidth : ∀ c, charWidth c ≤ 2) {columns : ℕ} (hcol : 2 ≤ columns) (rows : ℕ) :
    (∀ text : List ℕ, (∀ cp ∈ text, cp = nl ∨ Printable cp) →
      ∃ b', Settles (fun fuel => (empty columns rows).write charWidth fuel text) b' ∧ b'.Fits ∧
        b'.cursorLine < b'.lines.length ∧ b'.cursorCell ≤ b'.currentLine.length ∧
        (Joined b'.lines text ↔ Kept charWidth columns 0 [] text)) ∧
    ∀ text : List ℕ, (∀ cp ∈ text, cp = nl ∨ cp = cr ∨ Printable cp) →
      ((∀ before after, text = before ++ after → ∀ b', AppliesAll charWidth (empty columns rows) before b' → b'.Fits) ↔
        ∀ before cp after, text = before ++ cp :: after → Printable cp →
          ∀ b', AppliesAll charWidth (empty columns rows) before b' → ¬ b'.Overfills charWidth cp) := by
  have hcolumns : (empty columns rows).columns = columns := Nat.max_eq_right (by omega)
  have hstart := empty_at columns rows
  refine ⟨fun text htext => ?_, fun text htext =>
    hstart.fits_all_iff hwidth (by rwa [hcolumns]) (empty_fits columns rows) htext⟩
  have hne : ∀ cp ∈ text, cp ≠ ht := by
    intro cp hcp
    rcases htext cp hcp with rfl | hprint
    · decide
    · exact hprint.2.2.2
  obtain ⟨b', hb'⟩ : ∃ b', AppliesAll charWidth (empty columns rows) text b' := appliesAll_of_ne hne
  refine ⟨{ b' with scrollOffset := 0 }, ?_, ?_, ?_, ?_, ?_⟩
  · exact Settles.map (fun b : TerminalBuffer => { b with scrollOffset := 0 }) hb'
  · refine (hstart.fits_all_iff hwidth (by rwa [hcolumns]) (empty_fits columns rows)
      fun cp hcp => (htext cp hcp).imp_right .inr).2 ?_ text [] (List.append_nil _).symm b' hb'
    rintro before cp after rfl - b₁ hbefore
    obtain ⟨hsame, _, _, _, hat⟩ := hstart.marks_all (fun c hc => htext c (List.mem_append_left _ hc)) hbefore
    exact hat.not_overfills hwidth (by omega)
  · obtain ⟨-, _, _, _, hat⟩ := hstart.marks_all htext hb'
    show b'.cursorLine < b'.lines.length
    rw [hat.lines, hat.cursorLine, List.length_append, List.length_singleton]
    exact Nat.lt_succ_self _
  · obtain ⟨-, _, _, _, hat⟩ := hstart.marks_all htext hb'
    show b'.cursorCell ≤ b'.currentLine.length
    rw [hat.currentLine, hat.cursorCell, List.length_append]
    exact Nat.le_add_right _ _
  · show Joined b'.lines text ↔ _
    obtain ⟨hcells, hjoined⟩ := hstart.text htext hb'
    rw [hcolumns] at hcells hjoined
    constructor
    · intro hj
      refine laid_eq_iff.1 ?_
      rw [List.reverse_nil, List.nil_append, hj.cells, hcells]
      refine (List.filter_eq_self.2 fun c hc => ?_).symm
      have hmem := mem_laid (show c ∈ laid charWidth columns 0 [] text from hc)
      simpa using hmem
    · intro hkept
      have hlast := hjoined [] (.line []) hkept
      rwa [List.reverse_nil, List.nil_append, List.nil_append] at hlast

/-- The widths of some characters: an accent, a wide one and the narrow. -/
def someWidths (c : ℕ) : ℕ := if c = 0x301 then 0 else if c = 0x65e5 then 2 else 1

/-- A text of one wide character is kept. -/
theorem lines_have_wide : Joined [[⟨0x65e5, 2⟩]] [0x65e5] ∧
    ∃ b', Settles (fun fuel => (empty 2 5).write someWidths fuel [0x65e5]) b' ∧ Joined b'.lines [0x65e5] := by
  have hwidth : ∀ c, someWidths c ≤ 2 := by
    intro c
    unfold someWidths
    split_ifs <;> omega
  refine ⟨.line _, ?_⟩
  obtain ⟨b', hb', -, -, -, hiff⟩ := (lines_have_text hwidth (Nat.le_refl 2) 5).1 [0x65e5] (by decide)
  exact ⟨b', hb', hiff.2 (by simp [Kept, someWidths, nl])⟩

/-- An `e`, an accent and an `x` come to be an `e` and an `x`; and a wide character that is put over a
    narrow one makes a line of two columns one of three. -/
theorem accent_is_lost :
    (empty 20 5).write someWidths 0 [0x65, 0x301, 0x78] =
      some { empty 20 5 with lines := [[⟨0x65, 1⟩, ⟨0x78, 1⟩]], cursorCell := 2 } ∧
    ¬ Joined [[⟨0x65, 1⟩, ⟨0x78, 1⟩]] [0x65, 0x301, 0x78] ∧
    (empty 2 5).write someWidths 0 [0x61, 0x62, cr, 0x65e5] =
      some { empty 2 5 with lines := [[⟨0x65e5, 2⟩, ⟨0x62, 1⟩]], cursorCell := 1 } ∧
    columnsOf [⟨0x65e5, 2⟩, ⟨0x62, 1⟩] = 3 := by
  refine ⟨by decide, fun h => ?_, by decide, rfl⟩
  have hcells := h.cells
  exact absurd hcells (by decide)

end Aegir.Trinket
