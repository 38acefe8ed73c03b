/-
  A line as it is shown (trinket, `terminal_buffer.cc`).
-/
import Aegir.Trinket.Calm
import Aegir.Trinket.Lines

namespace Aegir.Trinket

open Aegir.Lib BidiClass

/-! ## The source -/

def reorders (t : Tables) (cp : ℕ) : Bool := t.bidiClass cp ∈ reorderingClasses

namespace TerminalBuffer
variable (b : TerminalBuffer) (t : Tables) (charWidth : ℕ → ℕ) (index : ℕ)

def line : List ℕ := (b.lines.getD index []).map TerminalCell.cp

def paragraph : BidiParagraph := analyzeParagraph t (b.line index) none

/-- A cell of the paragraph, mirrored where its level is odd. -/
def drawnCell (i : ℕ) : TerminalCell :=
  let cell := nth (b.lines.getD index []) ⟨space, 1⟩ i
  if nth (b.paragraph t index).levels 0 i % 2 ≠ 0 then { cell with cp := t.mirror cell.cp } else cell

def bidiCells : List TerminalCell := (b.paragraph t index).order.map (b.drawnCell t index)

/-- `visual_cells_into` -/
def visualCells : List TerminalCell :=
  if (b.line index).any (reorders t) then b.bidiCells t index else b.lines.getD index []

/-- The column of a cell in the paragraph's order; what has no place is at the first one. -/
def bidiColumn (i : ℕ) : ℕ :=
  let visual := if i < (b.line index).length then (logicalToVisual (b.paragraph t index).order i).getD 0
    else (b.paragraph t index).order.length
  (((b.paragraph t index).order.take visual).map fun j => charWidth (nth (b.line index) 0 j)).sum

def visualColumn (cell : ℤ) : ℕ :=
  if b.line index = [] then 0
  else if (b.line index).any (reorders t) then b.bidiColumn t charWidth index (min cell.toNat (b.line index).length)
  else (((b.line index).take (min cell.toNat (b.line index).length)).map charWidth).sum

def shown : List ℕ :=
  if (b.line index).any (reorders t) then (b.paragraph t index).order else List.range (b.line index).length

end TerminalBuffer

open TerminalBuffer

/-! ## Order -/

theorem reverseFrom_perm (levels : ℕ → ℕ) (lev : ℕ) (run order : List ℕ) :
    (reverseFrom levels lev run order).Perm (run ++ order) := by
  induction order generalizing run with
  | nil =>
    rw [List.append_nil]
    exact .refl _
  | cons i order ih =>
    unfold reverseFrom
    split
    · exact (List.Perm.cons i (ih [])).append_left run
    · exact (ih (i :: run)).trans List.perm_middle.symm

theorem reorder_perm (levels : ℕ → ℕ) (retained : List ℕ) : (reorder levels retained).Perm retained := by
  unfold reorder
  dsimp only
  generalize List.filter _ _ = levs
  have hfold : ∀ order : List ℕ, (levs.foldl (fun order lev => reverseFrom levels lev [] order) order).Perm order := by
    induction levs with
    | nil => exact fun _ => .refl _
    | cons lev levs ih => exact fun order => (ih _).trans (reverseFrom_perm levels lev [] order)
  exact hfold retained

theorem analyzeParagraph_perm (t : Tables) (text : List ℕ) : (analyzeParagraph t text none).order.Perm (retained t text) :=
  reorder_perm _ _

theorem retained_nodup (t : Tables) (text : List ℕ) : (retained t text).Nodup := List.nodup_range.filter _

theorem mem_retained {t : Tables} {text : List ℕ} {i : ℕ} :
    i ∈ retained t text ↔ ∃ cp, text[i]? = some cp ∧ isRemoved (t.bidiClass cp) = false := by
  unfold retained nth
  rw [List.mem_filter, List.mem_range, List.getD_eq_getElem?_getD, List.getElem?_map]
  constructor
  · rintro ⟨hlt, hleft⟩
    refine ⟨text[i], List.getElem?_eq_getElem hlt, ?_⟩
    rw [List.getElem?_eq_getElem hlt] at hleft
    simpa using hleft
  · rintro ⟨cp, hcp, hleft⟩
    obtain ⟨hlt, -⟩ := List.getElem?_eq_some_iff.1 hcp
    rw [hcp]
    exact ⟨hlt, by simpa using hleft⟩

theorem retained_eq_range_iff (t : Tables) (text : List ℕ) :
    (retained t text).length = text.length ↔ ∀ cp ∈ text, isRemoved (t.bidiClass cp) = false := by
  have hall := List.length_filter_eq_length_iff (l := List.range text.length)
    (p := fun i => !isRemoved (nth (text.map t.bidiClass) ON i))
  rw [List.length_range] at hall
  rw [retained, hall]
  constructor
  · intro h cp hcp
    obtain ⟨i, hi, rfl⟩ := List.mem_iff_getElem.1 hcp
    have hleft := h i (List.mem_range.2 hi)
    have hin := mem_retained.1 (List.mem_filter.2 ⟨List.mem_range.2 hi, hleft⟩)
    obtain ⟨cp', hcp', hleft'⟩ := hin
    rw [List.getElem?_eq_getElem hi] at hcp'
    rwa [Option.some.inj hcp']
  · intro h i hi
    have hlt := List.mem_range.1 hi
    exact (List.mem_filter.1 (mem_retained.2 ⟨_, List.getElem?_eq_getElem hlt, h _ (List.getElem_mem hlt)⟩)).2

theorem foldl_update_zipIdx (i : ℕ) (l : List ℕ) (n : ℕ) (mapping : ℕ → Option ℕ) (h : l.Nodup) :
    ((l.zipIdx n).foldl (fun mapping (i, v) => Function.update mapping i (some v)) mapping) i =
      if i ∈ l then some (n + l.idxOf i) else mapping i := by
  induction l generalizing n mapping with
  | nil => rfl
  | cons x l ih =>
    obtain ⟨hx, hl⟩ := List.nodup_cons.1 h
    rw [List.zipIdx_cons, List.foldl_cons, ih (n + 1) _ hl]
    dsimp only
    by_cases hi : i = x
    · subst hi
      rw [if_neg hx, if_pos List.mem_cons_self, List.idxOf_cons_self, Function.update_self]
      rfl
    · rw [Function.update_of_ne hi, List.idxOf_cons_ne _ (Ne.symm hi)]
      by_cases hmem : i ∈ l
      · rw [if_pos hmem, if_pos (List.mem_cons_of_mem _ hmem)]
        congr 1
        omega
      · rw [if_neg hmem, if_neg (by simp [hi, hmem])]

theorem logicalToVisual_eq {order : List ℕ} (h : order.Nodup) {i v : ℕ} :
    logicalToVisual order i = some v ↔ order[v]? = some i := by
  unfold logicalToVisual
  rw [foldl_update_zipIdx i order 0 _ h]
  by_cases hmem : i ∈ order
  · rw [if_pos hmem, Nat.zero_add]
    constructor
    · intro heq
      rw [← Option.some.inj heq]
      exact List.getElem?_idxOf hmem
    · intro hv
      obtain ⟨hlt, hat⟩ := List.getElem?_eq_some_iff.1 hv
      rw [← hat, h.idxOf_getElem]
  · rw [if_neg hmem]
    constructor
    · intro heq
      cases heq
    · intro hv
      exact absurd (List.mem_of_getElem? hv) hmem

/-! ## Widths -/

def Measured (charWidth : ℕ → ℕ) (b : TerminalBuffer) : Prop :=
  ∀ l ∈ b.lines, ∀ cell ∈ l, cell.width = charWidth cell.cp

section
variable {charWidth : ℕ → ℕ} {b b' : TerminalBuffer}

theorem Measured.ensureLine (h : Measured charWidth b) (index : ℕ) : Measured charWidth (b.ensureLine index) := by
  intro l hl
  rcases List.mem_append.1 hl with hl | hl
  · exact h l hl
  · rw [(List.mem_replicate.1 hl).2]
    exact fun _ hcell => absurd hcell List.not_mem_nil

theorem Measured.editLine (h : Measured charWidth b) {f : TerminalLine → TerminalLine}
    (hf : ∀ l : TerminalLine, (∀ cell ∈ l, cell.width = charWidth cell.cp) → ∀ cell ∈ f l, cell.width = charWidth cell.cp) :
    Measured charWidth (b.editLine f) := by
  intro l hl
  obtain ⟨i, hi⟩ := List.mem_iff_getElem?.1 hl
  have hmodify : (b.editLine f).lines = (b.ensureLine b.cursorLine).lines.modify b.cursorLine f := rfl
  rw [hmodify, List.getElem?_modify] at hi
  obtain ⟨l', hl', heq⟩ := Option.map_eq_some_iff.1 hi
  have hmem := h.ensureLine b.cursorLine l' (List.mem_of_getElem? hl')
  split at heq
  · rw [← heq]
    exact hf l' hmem
  · rw [← heq]
    exact hmem

theorem Measured.dropOldest (h : Measured charWidth b) (n : ℕ) : Measured charWidth (dropOldest n b) := by
  induction n generalizing b with
  | zero => exact h
  | succ n ih =>
    unfold TerminalBuffer.dropOldest
    split
    · exact ih fun l hl => h l (List.mem_of_mem_tail hl)
    · exact h

theorem Measured.newline (h : Measured charWidth b) : Measured charWidth b.newline := by
  have hnext : Measured charWidth { b.ensureLine (b.cursorLine + 1) with
      cursorLine := b.cursorLine + 1, cursorCell := 0, scrollOffset := 0 } := h.ensureLine (b.cursorLine + 1)
  unfold TerminalBuffer.newline enforceBudget
  split
  · exact hnext
  · exact hnext.dropOldest _

theorem Measured.place (h : Measured charWidth b) (cp : ℕ) : Measured charWidth (b.place ⟨cp, charWidth cp⟩) := by
  refine Measured.editLine (b := b) h fun l hl => ?_
  split
  · intro cell hcell
    rcases List.mem_or_eq_of_mem_set hcell with hcell | rfl
    · exact hl cell hcell
    · rfl
  · rw [List.forall_mem_append, List.forall_mem_singleton]
    exact ⟨hl, rfl⟩

theorem Measured.put (h : Measured charWidth b) (cp : ℕ) : Measured charWidth (b.put charWidth cp) := by
  unfold TerminalBuffer.put
  split
  · next hzero =>
    refine Measured.editLine (b := b) h fun l hl cell hcell => ?_
    rcases List.eq_or_mem_of_mem_insertIdx hcell with rfl | hcell
    · exact hzero.symm
    · exact hl cell hcell
  · refine Measured.place ?_ cp
    split
    · exact h.newline
    · exact h

theorem Measured.tabFrom (h : Measured charWidth b) {n fuel : ℕ} (hb' : tabFrom charWidth n fuel b = some b') :
    Measured charWidth b' := by
  induction fuel generalizing b with
  | zero => cases hb'
  | succ fuel ih =>
    rw [TerminalBuffer.tabFrom] at hb'
    split at hb'
    · exact ih (h.put space) hb'
    · cases hb'
      exact h

theorem Measured.applies (h : Measured charWidth b) {cp : ℕ} (hb' : Applies charWidth b cp b') : Measured charWidth b' := by
  obtain ⟨k, hk⟩ := hb'
  have hlast := hk k (Nat.le_refl k)
  dsimp only at hlast
  unfold apply at hlast
  split_ifs at hlast
  · cases hlast
    exact h.newline
  · cases hlast
    exact h
  · cases hlast
    exact h.ensureLine b.cursorLine
  · exact h.tabFrom hlast
  · cases hlast
    exact h.put cp

/-- The states of a buffer that is written to and edited. -/
inductive Reachable (charWidth : ℕ → ℕ) : TerminalBuffer → Prop
  | empty (columns rows : ℕ) : Reachable charWidth (.empty columns rows)
  | applies {b b' : TerminalBuffer} {cp : ℕ} (h : Reachable charWidth b) (hb' : Applies charWidth b cp b') :
      Reachable charWidth b'
  | eraseToEndOfLine {b : TerminalBuffer} (h : Reachable charWidth b) : Reachable charWidth b.eraseToEndOfLine
  | clear {b : TerminalBuffer} (h : Reachable charWidth b) : Reachable charWidth b.clear
  | setCursor {b : TerminalBuffer} (h : Reachable charWidth b) (line cell : ℤ) : Reachable charWidth (b.setCursor line cell)
  | resize {b : TerminalBuffer} (h : Reachable charWidth b) (columns rows : ℕ) : Reachable charWidth (b.resize columns rows)
  | scroll {b : TerminalBuffer} (h : Reachable charWidth b) (offset : ℕ) : Reachable charWidth { b with scrollOffset := offset }
  | budget {b : TerminalBuffer} (h : Reachable charWidth b) (lines : ℕ) :
      Reachable charWidth { b with scrollbackBudget := lines }

theorem Reachable.measured (h : Reachable charWidth b) : Measured charWidth b := by
  have hone : ∀ l ∈ [([] : TerminalLine)], ∀ cell ∈ l, cell.width = charWidth cell.cp := by simp
  induction h with
  | empty => exact hone
  | applies _ hb' ih => exact ih.applies hb'
  | eraseToEndOfLine _ ih => exact ih.editLine fun l hl cell hcell => hl cell (List.mem_of_mem_take hcell)
  | clear => exact hone
  | setCursor _ line _ ih => exact ih.ensureLine line.toNat
  | resize _ _ _ ih => exact Measured.ensureLine ih _
  | scroll _ _ ih => exact ih
  | budget _ _ ih => exact ih

/-! ## The two ways -/

variable {t : Tables} {index : ℕ}

theorem Measured.cells (h : Measured charWidth b) : b.lines.getD index [] = (b.line index).map fun cp => ⟨cp, charWidth cp⟩ := by
  have hmeasured : ∀ cell ∈ b.lines.getD index [], cell.width = charWidth cell.cp := by
    rw [List.getD_eq_getElem?_getD]
    cases hat : b.lines[index]? with
    | none => exact fun _ hcell => absurd hcell List.not_mem_nil
    | some l => exact h l (List.mem_of_getElem? hat)
  rw [line, List.map_map]
  refine ((List.map_congr_left fun cell hcell => ?_).trans (List.map_id _)).symm
  show (⟨cell.cp, charWidth cell.cp⟩ : TerminalCell) = cell
  rw [← hmeasured cell hcell]

theorem Measured.drawnCell_width (h : Measured charWidth b) {i : ℕ} (hi : i < (b.line index).length) :
    (b.drawnCell t index i).width = charWidth (nth (b.line index) 0 i) := by
  have hcell : nth (b.lines.getD index []) ⟨space, 1⟩ i =
      ⟨nth (b.line index) 0 i, charWidth (nth (b.line index) 0 i)⟩ := by
    unfold nth
    rw [h.cells, List.getD_eq_getElem?_getD, List.getD_eq_getElem?_getD, List.getElem?_map, List.getElem?_eq_getElem hi]
    rfl
  unfold drawnCell
  rw [hcell]
  dsimp only
  split <;> rfl

theorem order_lt {i : ℕ} (h : i ∈ (b.paragraph t index).order) : i < (b.line index).length :=
  List.mem_range.1 (List.mem_filter.1 ((analyzeParagraph_perm t (b.line index)).mem_iff.1 h)).1

theorem order_nodup (b : TerminalBuffer) (t : Tables) (index : ℕ) : (b.paragraph t index).order.Nodup :=
  (analyzeParagraph_perm t (b.line index)).nodup_iff.2 (retained_nodup t _)

theorem Measured.bidiColumn_eq (h : Measured charWidth b) {i v : ℕ} (hv : (b.paragraph t index).order[v]? = some i) :
    b.bidiColumn t charWidth index i = columnsOf ((b.bidiCells t index).take v) := by
  have hlt := order_lt (List.mem_of_getElem? hv)
  unfold bidiColumn bidiCells columnsOf
  dsimp only
  rw [if_pos hlt, (logicalToVisual_eq (order_nodup b t index)).2 hv, Option.getD_some, ← List.map_take, List.map_map]
  refine congrArg List.sum (List.map_congr_left fun j hj => ?_)
  exact (h.drawnCell_width (order_lt (List.mem_of_mem_take hj))).symm

theorem calm_of_reorders (h : (b.line index).any (reorders t) = false) : ∀ cp ∈ b.line index, t.bidiClass cp ∈ calm := by
  intro cp hcp
  have hno := List.any_eq_false.1 h cp hcp
  rw [reorders, decide_eq_true_eq] at hno
  exact mem_calm_iff.2 hno

theorem isRemoved_calm {c : BidiClass} (h : c ∈ calm) : isRemoved c = false ↔ c ≠ BN := by
  cases c <;> first | exact absurd h (by decide) | decide

theorem map_nth_range {α : Type} (l : List α) (d : α) : (List.range l.length).map (nth l d) = l := by
  refine List.ext_getElem (by rw [List.length_map, List.length_range]) fun i h₁ h₂ => ?_
  rw [List.getElem_map, List.getElem_range, nth, List.getD_eq_getElem?_getD, List.getElem?_eq_getElem h₂, Option.getD_some]

theorem calm_order (hcalm : ∀ cp ∈ b.line index, t.bidiClass cp ∈ calm)
    (hall : ∀ cp ∈ b.line index, t.bidiClass cp ≠ BN) :
    (b.paragraph t index).order = List.range (b.line index).length := by
  have hkept := (retained_eq_range_iff t (b.line index)).2 fun cp hcp => (isRemoved_calm (hcalm cp hcp)).2 (hall cp hcp)
  rw [paragraph, (analyzeParagraph_calm hcalm).1]
  refine (List.filter_sublist).eq_of_length ?_
  rw [List.length_range]
  exact hkept

/-- A calm line's cells in the paragraph's order are the line's where none is taken out. -/
theorem calm_cells_iff (hcalm : ∀ cp ∈ b.line index, t.bidiClass cp ∈ calm) :
    b.bidiCells t index = b.lines.getD index [] ↔ ∀ cp ∈ b.line index, t.bidiClass cp ≠ BN := by
  have hlength : (b.line index).length = (b.lines.getD index []).length := List.length_map _
  constructor
  · intro heq cp hcp
    have hlen := congrArg List.length heq
    rw [bidiCells, List.length_map, paragraph, (analyzeParagraph_calm hcalm).1, ← hlength] at hlen
    exact (isRemoved_calm (hcalm cp hcp)).1 ((retained_eq_range_iff t (b.line index)).1 hlen cp hcp)
  · intro hall
    rw [bidiCells, calm_order hcalm hall, hlength]
    refine (List.map_congr_left fun i _ => ?_).trans (map_nth_range _ ⟨space, 1⟩)
    have hlevel : nth (b.paragraph t index).levels 0 i = 0 := (analyzeParagraph_calm hcalm).2 i
    rw [drawnCell, hlevel]
    rfl

theorem calm_column (hcalm : ∀ cp ∈ b.line index, t.bidiClass cp ∈ calm)
    (hall : ∀ cp ∈ b.line index, t.bidiClass cp ≠ BN) {i : ℕ} (hi : i ≤ (b.line index).length) :
    b.bidiColumn t charWidth index i = (((b.line index).take i).map charWidth).sum := by
  have hvisual : (if i < (b.line index).length then (logicalToVisual (b.paragraph t index).order i).getD 0
      else (b.paragraph t index).order.length) = i := by
    split
    · next hlt =>
      have hat : (b.paragraph t index).order[i]? = some i := by
        rw [calm_order hcalm hall]
        exact List.getElem?_range hlt
      rw [(logicalToVisual_eq (order_nodup b t index)).2 hat, Option.getD_some]
    · rw [calm_order hcalm hall, List.length_range]
      omega
  unfold bidiColumn
  dsimp only
  rw [hvisual, calm_order hcalm hall]
  conv_rhs => rw [← map_nth_range (b.line index) 0]
  rw [← List.map_take, List.map_map]
  rfl

/-! ## Visual order -/

/-- A line that reorders nothing is shown as the algorithm would, cells and columns, exactly where it has
    no boundary neutral; and each character of a line has a cell, and the cell's column, exactly where
    the line reorders nothing or none of its characters is taken out. -/
theorem visual_order (charWidth : ℕ → ℕ) (t : Tables) {b : TerminalBuffer} (hb : Reachable charWidth b) (index : ℕ) :
    ((b.line index).any (reorders t) = false →
      ((b.visualCells t index = b.bidiCells t index ∧
          ∀ cell : ℤ, b.visualColumn t charWidth index cell =
            b.bidiColumn t charWidth index (min cell.toNat (b.line index).length)) ↔
        ∀ cp ∈ b.line index, t.bidiClass cp ≠ BN)) ∧
    ((∀ i < (b.line index).length, ∃ v, (b.shown t index)[v]? = some i ∧
        b.visualColumn t charWidth index i = columnsOf ((b.visualCells t index).take v)) ↔
      ((b.line index).any (reorders t) = true → ∀ cp ∈ b.line index, isRemoved (t.bidiClass cp) = false)) := by
  have hmeasured := hb.measured
  refine ⟨fun hno => ?_, ?_⟩
  · have hcalm := calm_of_reorders hno
    have hcells : b.visualCells t index = b.lines.getD index [] := by
      rw [visualCells, hno]
      rfl
    rw [hcells, ← calm_cells_iff hcalm]
    constructor
    · exact fun h => h.1.symm
    · intro heq
      have hall := (calm_cells_iff hcalm).1 heq
      refine ⟨heq.symm, fun cell => ?_⟩
      rw [calm_column hcalm hall (Nat.min_le_right _ _), visualColumn, hno]
      split
      · next hnil =>
        rw [hnil, List.take_nil]
        rfl
      · rfl
  · cases hre : (b.line index).any (reorders t) with
    | false =>
      refine ⟨fun _ hfalse => absurd hfalse Bool.false_ne_true, fun _ i hi => ⟨i, ?_, ?_⟩⟩
      · rw [shown, hre]
        exact List.getElem?_range hi
      · have hmin : min (i : ℤ).toNat (b.line index).length = i := Nat.min_eq_left (Nat.le_of_lt hi)
        have hne : b.line index ≠ [] := by
          intro hnil
          rw [hnil] at hi
          exact absurd hi (Nat.not_lt_zero i)
        rw [visualColumn, if_neg hne, hre, hmin, visualCells, hre]
        show _ = columnsOf ((b.lines.getD index []).take i)
        rw [hmeasured.cells, columnsOf, ← List.map_take, List.map_map]
        rfl
    | true =>
      have hshown : b.shown t index = (b.paragraph t index).order := by
        rw [shown, hre]
        rfl
      rw [hshown]
      constructor
      · intro h _ cp hcp
        obtain ⟨i, hi, rfl⟩ := List.mem_iff_getElem.1 hcp
        obtain ⟨v, hv, -⟩ := h i hi
        have hin := (analyzeParagraph_perm t (b.line index)).mem_iff.1 (List.mem_of_getElem? hv)
        obtain ⟨cp', hcp', hleft⟩ := mem_retained.1 hin
        rw [List.getElem?_eq_getElem hi] at hcp'
        rwa [Option.some.inj hcp']
      · intro h i hi
        have hin : i ∈ (b.paragraph t index).order := (analyzeParagraph_perm t (b.line index)).mem_iff.2
          (mem_retained.2 ⟨_, List.getElem?_eq_getElem hi, h rfl _ (List.getElem_mem hi)⟩)
        obtain ⟨v, hv⟩ := List.mem_iff_getElem?.1 hin
        have hmin : min (i : ℤ).toNat (b.line index).length = i := Nat.min_eq_left (Nat.le_of_lt hi)
        have hne : b.line index ≠ [] := by
          intro hnil
          rw [hnil] at hi
          exact absurd hi (Nat.not_lt_zero i)
        refine ⟨v, hv, ?_⟩
        rw [visualColumn, if_neg hne, hre, if_pos rfl, hmin, hmeasured.bidiColumn_eq hv, visualCells, hre]
        rfl

/-- The classes of some characters: a soft hyphen is a boundary neutral, a letter is not. -/
def someTables : Tables where
  bidiClass cp := if cp = 0xad then BN else if cp = 0x5d0 then R else L
  bracket _ := none
  mirror cp := cp

def hyphenWidths (cp : ℕ) : ℕ := if cp = 0xad then 0 else 1

def oneLetter : TerminalBuffer := { empty 20 5 with lines := [[⟨0x61, 1⟩]], cursorCell := 1 }

/-- A line of one letter. -/
theorem visual_order_letter : oneLetter.visualCells someTables 0 = oneLetter.bidiCells someTables 0 := by
  have hletter : Applies hyphenWidths (empty 20 5) 0x61 oneLetter := .const fun _ => rfl
  have hb : Reachable hyphenWidths oneLetter := .applies (.empty 20 5) hletter
  exact (((visual_order hyphenWidths someTables hb 0).1 (by decide)).2 (by decide)).1

def hyphenated : TerminalBuffer := { empty 20 5 with lines := [[⟨0x61, 1⟩, ⟨0xad, 0⟩]], cursorCell := 1 }

/-- A letter and a soft hyphen are shown as two cells, and by the algorithm as one. -/
theorem soft_hyphen : Reachable hyphenWidths hyphenated ∧ (hyphenated.line 0).any (reorders someTables) = false ∧
    hyphenated.visualCells someTables 0 = [⟨0x61, 1⟩, ⟨0xad, 0⟩] ∧
    hyphenated.bidiCells someTables 0 = [⟨0x61, 1⟩] := by
  have hletter : Applies hyphenWidths (empty 20 5) 0x61 oneLetter := .const fun _ => rfl
  have hhyphen : Applies hyphenWidths oneLetter 0xad hyphenated := .const fun _ => rfl
  refine ⟨.applies (.applies (.empty 20 5) hletter) hhyphen, by decide, by decide, ?_⟩
  decide +kernel

end

end Aegir.Trinket
