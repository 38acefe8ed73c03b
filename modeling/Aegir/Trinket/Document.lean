/-
  The text that an editor shows (aegir-trinket, `text_document.cc`).

  An `int` is not bounded here, and the callback of a change is left out.
-/
import Mathlib

namespace Aegir.Trinket

/-! ## The source -/

def lineBreak : ℕ := 10

structure TextDocument where
  lines : List (List ℕ)
  line : ℕ
  column : ℕ
  wantColumn : ℕ
  overwrite : Bool
  dirty : Bool

def clampInt (value lo hi : ℤ) : ℤ := if value < lo then lo else if hi < value then hi else value

/-- The loop of `set_text`. -/
def splitFrom (current : List ℕ) : List ℕ → List (List ℕ)
  | [] => [current]
  | cp :: text => if cp = lineBreak then current :: splitFrom [] text else splitFrom (current ++ [cp]) text

namespace TextDocument

variable (d : TextDocument)

def setText (text : List ℕ) : TextDocument :=
  { d with lines := splitFrom [] text, line := 0, column := 0, wantColumn := 0, dirty := false }

def text : List ℕ := [lineBreak].intercalate d.lines

def lineAt (row : ℕ) : List ℕ := (d.lines[row]?).getD []

def clampCursor : TextDocument :=
  let line := (clampInt d.line 0 (d.lines.length - 1)).toNat
  { d with line := line, column := (clampInt d.column 0 (d.lineAt line).length).toNat }

def changed : TextDocument := { d.clampCursor with dirty := true }

def setCursor (line column : ℤ) : TextDocument :=
  let line := (clampInt line 0 (d.lines.length - 1)).toNat
  let column := (clampInt column 0 (d.lineAt line).length).toNat
  { d with line := line, column := column, wantColumn := column }

def insert (cp : ℕ) : TextDocument :=
  let row := d.lineAt d.line
  let row := if d.overwrite ∧ d.column < row.length then row.set d.column cp else row.insertIdx d.column cp
  { d with lines := d.lines.set d.line row, column := d.column + 1, wantColumn := d.column + 1 }.changed

def newline : TextDocument :=
  let row := d.lineAt d.line
  { d with lines := (d.lines.set d.line (row.take d.column)).insertIdx (d.line + 1) (row.drop d.column), line := d.line + 1,
           column := 0, wantColumn := 0 }.changed

def backspace : TextDocument :=
  if 0 < d.column then
    { d with lines := d.lines.set d.line ((d.lineAt d.line).eraseIdx (d.column - 1)), column := d.column - 1,
             wantColumn := d.column - 1 }.changed
  else if 0 < d.line then
    let join := (d.lineAt (d.line - 1)).length
    { d with lines := (d.lines.set (d.line - 1) (d.lineAt (d.line - 1) ++ d.lineAt d.line)).eraseIdx d.line,
             line := d.line - 1, column := join, wantColumn := join }.changed
  else d

def erase : TextDocument :=
  let row := d.lineAt d.line
  if d.column < row.length then { d with lines := d.lines.set d.line (row.eraseIdx d.column) }.changed
  else if d.line + 1 < d.lines.length then
    { d with lines := (d.lines.set d.line (row ++ d.lineAt (d.line + 1))).eraseIdx (d.line + 1) }.changed
  else d

def moveLines (lines : ℤ) : TextDocument :=
  let target := (clampInt (d.line + lines) 0 (d.lines.length - 1)).toNat
  if target = d.line then d else { d with line := target, column := min d.wantColumn (d.lineAt target).length }

def moveColumns (columns : ℤ) : TextDocument :=
  let column := (clampInt (d.column + columns) 0 (d.lineAt d.line).length).toNat
  { d with column := column, wantColumn := column }

def move (columns lines : ℤ) : TextDocument :=
  let d := if lines = 0 then d else d.moveLines lines
  if columns = 0 then d else d.moveColumns columns

def home : TextDocument := { d with column := 0, wantColumn := 0 }

def end_ : TextDocument := { d with column := (d.lineAt d.line).length, wantColumn := (d.lineAt d.line).length }

end TextDocument

inductive Edit where
  | insert (cp : ℕ)
  | newline
  | backspace
  | erase
  | move (columns lines : ℤ)
  | home
  | end_
  | setCursor (line column : ℤ)
  | setText (text : List ℕ)
  | setMode (overwrite : Bool)
  | toggleMode

def Edit.apply (d : TextDocument) : Edit → TextDocument
  | insert cp => d.insert cp
  | newline => d.newline
  | backspace => d.backspace
  | erase => d.erase
  | move columns lines => d.move columns lines
  | home => d.home
  | end_ => d.end_
  | setCursor line column => d.setCursor line column
  | setText text => d.setText text
  | setMode overwrite => { d with overwrite := overwrite }
  | toggleMode => { d with overwrite := !d.overwrite }

/-! ## One text with a caret -/

structure FlatText where
  before : List ℕ
  after : List ℕ
  wantColumn : ℕ
  overwrite : Bool

namespace FlatText

variable (f : FlatText)

def text : List ℕ := f.before ++ f.after

def row : ℕ := f.before.count lineBreak

def column : ℕ := (f.before.reverse.takeWhile (· ≠ lineBreak)).length

def rows : List (List ℕ) := f.text.splitOn lineBreak

def rowLength (row : ℕ) : ℕ := ((f.rows[row]?).getD []).length

/-- The caret goes to a row and a column of it. -/
def goTo (row column : ℕ) : FlatText :=
  let offset := ((f.rows.take row).map fun l => l.length + 1).sum + column
  { f with before := f.text.take offset, after := f.text.drop offset }

def goToColumn (column : ℕ) : FlatText := { f.goTo f.row column with wantColumn := column }

def insert (cp : ℕ) : FlatText :=
  { f with before := f.before ++ [cp], wantColumn := f.column + 1,
           after := if f.overwrite ∧ f.after.head?.getD lineBreak ≠ lineBreak then f.after.tail else f.after }

def backspace : FlatText :=
  if f.before = [] then f
  else
    let g := { f with before := f.before.dropLast }
    { g with wantColumn := g.column }

def moveLines (lines : ℤ) : FlatText :=
  let target := (clampInt (f.row + lines) 0 (f.rows.length - 1)).toNat
  if target = f.row then f else f.goTo target (min f.wantColumn (f.rowLength target))

def move (columns lines : ℤ) : FlatText :=
  let f := if lines = 0 then f else f.moveLines lines
  if columns = 0 then f else f.goToColumn (clampInt (f.column + columns) 0 (f.rowLength f.row)).toNat

def setCursor (line column : ℤ) : FlatText :=
  let row := (clampInt line 0 (f.rows.length - 1)).toNat
  let column := (clampInt column 0 (f.rowLength row)).toNat
  { f.goTo row column with wantColumn := column }

def apply (f : FlatText) : Edit → FlatText
  | .insert cp => f.insert cp
  | .newline => { f with before := f.before ++ [lineBreak], wantColumn := 0 }
  | .backspace => f.backspace
  | .erase => { f with after := f.after.tail }
  | .move columns lines => f.move columns lines
  | .home => f.goToColumn 0
  | .end_ => f.goToColumn (f.rowLength f.row)
  | .setCursor line column => f.setCursor line column
  | .setText text => ⟨[], text, 0, f.overwrite⟩
  | .setMode overwrite => { f with overwrite := overwrite }
  | .toggleMode => { f with overwrite := !f.overwrite }

end FlatText

/-- The lines joined by breaks, with the caret as an offset into them. -/
def TextDocument.flat (d : TextDocument) : FlatText where
  before := (d.lines.take d.line).flatMap (· ++ [lineBreak]) ++ (d.lineAt d.line).take d.column
  after := (d.lineAt d.line).drop d.column ++ (d.lines.drop (d.line + 1)).flatMap (lineBreak :: ·)
  wantColumn := d.wantColumn
  overwrite := d.overwrite

/-- The cursor is in range, and no line holds a break. -/
structure TextDocument.Sound (d : TextDocument) : Prop where
  line : d.line < d.lines.length
  column : d.column ≤ (d.lineAt d.line).length
  unbroken : ∀ l ∈ d.lines, lineBreak ∉ l

/-! ## A document about its caret -/

/-- The document whose caret is between `pre` and `post`, with these lines above it and below. -/
def caret (above : List (List ℕ)) (pre post : List ℕ) (below : List (List ℕ)) (want : ℕ) (overwrite dirty : Bool) :
    TextDocument :=
  ⟨above ++ (pre ++ post) :: below, above.length, pre.length, want, overwrite, dirty⟩

section
variable {above below : List (List ℕ)} {pre post : List ℕ} {want : ℕ} {overwrite dirty : Bool} {d : TextDocument}

theorem lineAt_caret : (caret above pre post below want overwrite dirty).lineAt above.length = pre ++ post := by
  simp [TextDocument.lineAt, caret]

/-- No line holds a break. -/
def Unbroken (above : List (List ℕ)) (pre post : List ℕ) (below : List (List ℕ)) : Prop :=
  (∀ l ∈ above, lineBreak ∉ l) ∧ lineBreak ∉ pre ∧ lineBreak ∉ post ∧ ∀ l ∈ below, lineBreak ∉ l

theorem unbroken_iff : Unbroken above pre post below ↔ ∀ l ∈ above ++ (pre ++ post) :: below, lineBreak ∉ l := by
  simp only [Unbroken, List.mem_append, List.mem_cons, or_imp, forall_and, forall_eq, not_or, and_assoc]

theorem TextDocument.Sound.eq_caret (h : d.Sound) : ∃ above pre post below want overwrite dirty,
    d = caret above pre post below want overwrite dirty ∧ Unbroken above pre post below := by
  have hline := h.line
  have hrow : d.lineAt d.line = d.lines[d.line] := by simp [TextDocument.lineAt, hline]
  have hlines : d.lines = d.lines.take d.line ++ d.lineAt d.line :: d.lines.drop (d.line + 1) := by
    rw [hrow, List.cons_getElem_drop_succ, List.take_append_drop]
  refine ⟨d.lines.take d.line, (d.lineAt d.line).take d.column, (d.lineAt d.line).drop d.column, d.lines.drop (d.line + 1),
    d.wantColumn, d.overwrite, d.dirty, ?_, ?_⟩
  · rw [caret, List.take_append_drop, ← hlines, List.length_take, List.length_take,
      Nat.min_eq_left (Nat.le_of_lt h.line), Nat.min_eq_left h.column]
  · rw [unbroken_iff, List.take_append_drop, ← hlines]
    exact h.unbroken

theorem sound_caret (h : Unbroken above pre post below) :
    (caret above pre post below want overwrite dirty).Sound where
  line := by simp [caret]
  column := by
    show pre.length ≤ ((caret above pre post below want overwrite dirty).lineAt above.length).length
    rw [lineAt_caret, List.length_append]
    omega
  unbroken := unbroken_iff.1 h

theorem flat_caret : (caret above pre post below want overwrite dirty).flat =
    ⟨above.flatMap (· ++ [lineBreak]) ++ pre, post ++ below.flatMap (lineBreak :: ·), want, overwrite⟩ := by
  simp [TextDocument.flat, caret, TextDocument.lineAt]

theorem column_caret {after : List ℕ} (hpre : lineBreak ∉ pre) :
    FlatText.column ⟨above.flatMap (· ++ [lineBreak]) ++ pre, after, want, overwrite⟩ = pre.length := by
  have hline : ∀ cp ∈ pre.reverse, decide (cp ≠ lineBreak) = true := by
    intro cp hcp
    refine decide_eq_true ?_
    rintro rfl
    exact hpre (List.mem_reverse.1 hcp)
  have habove : ((above.flatMap (· ++ [lineBreak])).reverse.takeWhile fun cp => decide (cp ≠ lineBreak)) = [] := by
    rcases List.eq_nil_or_concat above with rfl | ⟨above, l, rfl⟩
    · rfl
    · simp
  rw [FlatText.column, List.reverse_append, List.takeWhile_append_of_pos hline, habove, List.append_nil, List.length_reverse]

theorem text_caret : (caret above pre post below want overwrite dirty).text =
    above.flatMap (· ++ [lineBreak]) ++ (pre ++ post ++ below.flatMap (lineBreak :: ·)) := by
  show [lineBreak].intercalate (above ++ (pre ++ post) :: below) = _
  generalize pre ++ post = row
  induction above with
  | nil =>
    induction below generalizing row with
    | nil => simp
    | cons l below ih => rw [List.nil_append, List.intercalate_cons_cons, ← List.nil_append (l :: below), ih]; simp
  | cons l above ih => rw [List.cons_append, List.intercalate_cons_of_ne_nil (by simp), ih]; simp

end

section
variable {d : TextDocument}

theorem clampInt_eq {value lo hi : ℤ} (h : lo ≤ value) (h' : value ≤ hi) : clampInt value lo hi = value := by
  rw [clampInt, if_neg (by omega), if_neg (by omega)]

theorem clampInt_le (value : ℤ) (n : ℕ) : (clampInt value 0 n).toNat ≤ n := by
  unfold clampInt
  split_ifs <;> omega

theorem clampInt_lt (value : ℤ) {n : ℕ} (h : 0 < n) : (clampInt value 0 (n - 1)).toNat < n := by
  unfold clampInt
  split_ifs <;> omega

theorem TextDocument.Sound.changed (h : d.Sound) : d.changed = { d with dirty := true } := by
  have hline : clampInt d.line 0 (d.lines.length - 1) = d.line := clampInt_eq (by omega) (by have := h.line; omega)
  have hcolumn : clampInt d.column 0 (d.lineAt d.line).length = d.column :=
    clampInt_eq (by omega) (by have := h.column; omega)
  simp only [TextDocument.changed, TextDocument.clampCursor, hline, Int.toNat_natCast, hcolumn]

/-- The document is sound, and stands for `f`. -/
def Acts (d : TextDocument) (f : FlatText) : Prop := d.Sound ∧ d.flat = f

namespace TextDocument.Sound

theorem text_eq (h : d.Sound) : d.flat.text = d.text := by
  obtain ⟨above, pre, post, below, want, overwrite, dirty, rfl, -⟩ := h.eq_caret
  rw [flat_caret, text_caret, FlatText.text]
  simp only [List.append_assoc]

theorem rows_eq (h : d.Sound) : d.flat.rows = d.lines := by
  rw [FlatText.rows, h.text_eq, TextDocument.text,
    List.splitOn_intercalate _ h.unbroken (List.ne_nil_of_length_pos (Nat.zero_lt_of_lt h.line))]

theorem rowLength_eq (h : d.Sound) (row : ℕ) : d.flat.rowLength row = (d.lineAt row).length := by
  rw [FlatText.rowLength, h.rows_eq, TextDocument.lineAt]

theorem row_eq (h : d.Sound) : d.flat.row = d.line := by
  obtain ⟨above, pre, post, below, want, overwrite, dirty, rfl, habove, hpre, -⟩ := h.eq_caret
  rw [flat_caret, FlatText.row, List.count_append, List.count_eq_zero.2 hpre]
  show _ = above.length
  clear h
  induction above with
  | nil => rfl
  | cons l above ih =>
    rw [List.flatMap_cons, List.count_append, List.count_append, List.count_eq_zero.2 (habove l List.mem_cons_self),
      Nat.zero_add, List.length_cons, Nat.add_assoc, ih fun l hl => habove l (List.mem_cons_of_mem _ hl),
      List.count_singleton_self, Nat.add_comm]

theorem column_eq (h : d.Sound) : d.flat.column = d.column := by
  obtain ⟨above, pre, post, below, want, overwrite, dirty, rfl, -, hpre, -⟩ := h.eq_caret
  rw [flat_caret, column_caret hpre]
  rfl

/-- The caret goes where the cursor goes. -/
theorem goTo {line column : ℕ} (h : d.Sound) (hline : line < d.lines.length) (hcolumn : column ≤ (d.lineAt line).length) :
    d.flat.goTo line column = TextDocument.flat { d with line := line, column := column } := by
  have h' : TextDocument.Sound { d with line := line, column := column } := ⟨hline, hcolumn, h.unbroken⟩
  obtain ⟨above, pre, post, below, want, overwrite, dirty, hd, -⟩ := h'.eq_caret
  have hlines : d.lines = above ++ (pre ++ post) :: below := congrArg TextDocument.lines hd
  obtain rfl : line = above.length := congrArg TextDocument.line hd
  obtain rfl : column = pre.length := congrArg TextDocument.column hd
  have hlength : ((above.map fun l => l.length + 1).sum) = (above.flatMap (· ++ [lineBreak])).length := by
    simp [List.length_flatMap]
  have htext : d.text = above.flatMap (· ++ [lineBreak]) ++ (pre ++ (post ++ below.flatMap (lineBreak :: ·))) := by
    rw [← List.append_assoc pre]
    exact (congrArg TextDocument.text hd).trans text_caret
  rw [FlatText.goTo, h.rows_eq, h.text_eq, hlines, List.take_left, hlength, htext, List.take_length_add_append,
    List.drop_length_add_append, List.take_left, List.drop_left]
  rw [← hlines, hd, flat_caret]
  obtain rfl : d.wantColumn = want := congrArg TextDocument.wantColumn hd
  obtain rfl : d.overwrite = overwrite := congrArg TextDocument.overwrite hd
  rfl

theorem toColumn {column : ℕ} (h : d.Sound) (hcolumn : column ≤ (d.lineAt d.line).length) :
    Acts { d with column := column, wantColumn := column } (d.flat.goToColumn column) := by
  refine ⟨⟨h.line, hcolumn, h.unbroken⟩, ?_⟩
  rw [FlatText.goToColumn, h.row_eq, h.goTo h.line hcolumn]
  rfl

theorem setCursor (h : d.Sound) (line column : ℤ) : Acts (d.setCursor line column) (d.flat.setCursor line column) := by
  have hline := clampInt_lt line (Nat.zero_lt_of_lt h.line)
  have hcolumn := clampInt_le column (d.lineAt (clampInt line 0 (d.lines.length - 1)).toNat).length
  refine ⟨⟨hline, hcolumn, h.unbroken⟩, ?_⟩
  simp only [FlatText.setCursor, h.rows_eq, h.rowLength_eq]
  rw [h.goTo hline hcolumn]
  rfl

theorem moveLines (h : d.Sound) (lines : ℤ) : Acts (d.moveLines lines) (d.flat.moveLines lines) := by
  have hline := clampInt_lt (d.line + lines) (Nat.zero_lt_of_lt h.line)
  simp only [TextDocument.moveLines, FlatText.moveLines, h.row_eq, h.rows_eq, h.rowLength_eq]
  split_ifs
  · exact ⟨h, rfl⟩
  · exact ⟨⟨hline, Nat.min_le_right _ _, h.unbroken⟩, (h.goTo hline (Nat.min_le_right _ _)).symm⟩

theorem moveColumns (h : d.Sound) (columns : ℤ) : Acts (d.moveColumns columns)
    (d.flat.goToColumn (clampInt (d.flat.column + columns) 0 (d.flat.rowLength d.flat.row)).toNat) := by
  rw [h.column_eq, h.row_eq, h.rowLength_eq]
  exact h.toColumn (clampInt_le _ _)

theorem move (h : d.Sound) (columns lines : ℤ) : Acts (d.move columns lines) (d.flat.move columns lines) := by
  have hmoved : Acts (if lines = 0 then d else d.moveLines lines) (if lines = 0 then d.flat else d.flat.moveLines lines) := by
    split_ifs
    · exact ⟨h, rfl⟩
    · exact h.moveLines lines
  unfold TextDocument.move FlatText.move
  rw [← hmoved.2]
  dsimp only
  generalize (if lines = 0 then d else d.moveLines lines) = d at hmoved ⊢
  split_ifs
  · exact ⟨hmoved.1, rfl⟩
  · exact hmoved.1.moveColumns columns

end TextDocument.Sound

section
variable {α : Type} (l l' : List α) (x : α)

theorem insertIdx_append (k : ℕ) : (l ++ l').insertIdx (l.length + k) x = l ++ l'.insertIdx k x := by
  induction l with
  | nil => rw [List.length_nil, Nat.zero_add]; rfl
  | cons y l ih => rw [List.cons_append, List.length_cons, Nat.add_right_comm, List.insertIdx_succ_cons, ih, List.cons_append]

theorem eraseIdx_append (k : ℕ) : (l ++ l').eraseIdx (l.length + k) = l ++ l'.eraseIdx k := by
  rw [List.eraseIdx_append_of_length_le (Nat.le_add_right _ _), Nat.add_sub_cancel_left]

theorem eraseIdx_length : (l ++ x :: l').eraseIdx l.length = l ++ l' := eraseIdx_append l (x :: l') 0

end

theorem acts_caret {above below : List (List ℕ)} {pre post : List ℕ} {want : ℕ} {overwrite dirty : Bool} {f : FlatText}
    (hd : d = (caret above pre post below want overwrite dirty).changed) (hbreak : Unbroken above pre post below)
    (hf : f = ⟨above.flatMap (· ++ [lineBreak]) ++ pre, post ++ below.flatMap (lineBreak :: ·), want, overwrite⟩) : Acts d f := by
  rw [hd, (sound_caret hbreak).changed, hf]
  exact ⟨sound_caret hbreak, flat_caret⟩

namespace TextDocument.Sound

theorem newline (h : d.Sound) : Acts d.newline (d.flat.apply .newline) := by
  obtain ⟨above, pre, post, below, want, overwrite, dirty, rfl, habove, hpre, hpost, hbelow⟩ := h.eq_caret
  refine @acts_caret _ (above ++ [pre]) below [] post 0 overwrite dirty _ ?_ ⟨?_, by simp, hpost, hbelow⟩ ?_
  · simp [TextDocument.newline, caret, TextDocument.lineAt, insertIdx_append]
  · simpa [or_imp, forall_and] using ⟨habove, hpre⟩
  · simp [FlatText.apply, flat_caret]

theorem insert {cp : ℕ} (h : d.Sound) (hcp : cp ≠ lineBreak) : Acts (d.insert cp) (d.flat.insert cp) := by
  have hcolumn := h.column_eq
  obtain ⟨above, pre, post, below, want, overwrite, dirty, rfl, habove, hpre, hpost, hbelow⟩ := h.eq_caret
  have hpre' : lineBreak ∉ pre ++ [cp] := by simpa [hpre] using Ne.symm hcp
  cases post with
  | nil =>
    refine @acts_caret _ above below (pre ++ [cp]) [] (pre.length + 1) overwrite dirty _ ?_ ⟨habove, hpre', hpost, hbelow⟩ ?_
    · simp [TextDocument.insert, caret, TextDocument.lineAt]
    · have hend : (below.flatMap (lineBreak :: ·)).head?.getD lineBreak = lineBreak := by cases below <;> rfl
      rw [FlatText.insert, hcolumn, flat_caret]
      simp [caret, hend]
  | cons x post =>
    have hx : x ≠ lineBreak := fun hx => hpost (by simp [hx])
    cases overwrite with
    | true =>
      refine @acts_caret _ above below (pre ++ [cp]) post (pre.length + 1) true dirty _ ?_
        ⟨habove, hpre', fun hmem => hpost (List.mem_cons_of_mem _ hmem), hbelow⟩ ?_
      · simp [TextDocument.insert, caret, TextDocument.lineAt]
      · rw [FlatText.insert, hcolumn, flat_caret]
        simp [caret, hx]
    | false =>
      have hrow : (pre ++ x :: post).insertIdx pre.length cp = pre ++ cp :: x :: post := insertIdx_append pre (x :: post) cp 0
      refine @acts_caret _ above below (pre ++ [cp]) (x :: post) (pre.length + 1) false dirty _ ?_ ⟨habove, hpre', hpost, hbelow⟩ ?_
      · simp [TextDocument.insert, caret, TextDocument.lineAt, hrow]
      · rw [FlatText.insert, hcolumn, flat_caret]
        simp [caret]

theorem backspace (h : d.Sound) : Acts d.backspace d.flat.backspace := by
  obtain ⟨above, pre, post, below, want, overwrite, dirty, rfl, habove, hpre, hpost, hbelow⟩ := h.eq_caret
  rw [FlatText.backspace, flat_caret]
  rcases List.eq_nil_or_concat' pre with rfl | ⟨pre, x, rfl⟩
  · rcases List.eq_nil_or_concat' above with rfl | ⟨above, l, rfl⟩
    · have hd : (Trinket.caret [] [] post below want overwrite dirty).backspace = Trinket.caret [] [] post below want overwrite dirty := by
        simp [TextDocument.backspace, caret]
      rw [hd]
      exact ⟨h, by rw [flat_caret]; rfl⟩
    · have hl := habove l (by simp)
      refine @acts_caret _ above below l post l.length overwrite dirty _ ?_
        ⟨fun l hl => habove l (by simp [hl]), hl, hpost, hbelow⟩ ?_
      · simp [TextDocument.backspace, caret, TextDocument.lineAt, eraseIdx_append]
      · simp [column_caret hl, ← List.append_assoc]
  · have hpre' : lineBreak ∉ pre := fun hmem => hpre (by simp [hmem])
    refine @acts_caret _ above below pre post pre.length overwrite dirty _ ?_ ⟨habove, hpre', hpost, hbelow⟩ ?_
    · simp [TextDocument.backspace, caret, TextDocument.lineAt, eraseIdx_length]
    · simp [column_caret hpre', ← List.append_assoc]

theorem erase (h : d.Sound) : Acts d.erase (d.flat.apply .erase) := by
  obtain ⟨above, pre, post, below, want, overwrite, dirty, rfl, habove, hpre, hpost, hbelow⟩ := h.eq_caret
  cases post with
  | nil =>
    cases below with
    | nil =>
      have hd : (Trinket.caret above pre [] [] want overwrite dirty).erase = Trinket.caret above pre [] [] want overwrite dirty := by
        simp [TextDocument.erase, caret, TextDocument.lineAt]
      rw [hd]
      exact ⟨h, by rw [flat_caret]; rfl⟩
    | cons l below =>
      refine @acts_caret _ above below pre l want overwrite dirty _ ?_
        ⟨habove, hpre, hbelow l List.mem_cons_self, fun l hl => hbelow l (List.mem_cons_of_mem _ hl)⟩ ?_
      · simp [TextDocument.erase, caret, TextDocument.lineAt, eraseIdx_append]
      · simp [FlatText.apply, flat_caret]
  | cons x post =>
    refine @acts_caret _ above below pre post want overwrite dirty _ ?_
      ⟨habove, hpre, fun hmem => hpost (List.mem_cons_of_mem _ hmem), hbelow⟩ ?_
    · simp [TextDocument.erase, caret, TextDocument.lineAt, eraseIdx_length]
    · simp [FlatText.apply, flat_caret]

end TextDocument.Sound

end

/-! ## Runs -/

theorem splitFrom_unbroken {current : List ℕ} (text : List ℕ) (h : lineBreak ∉ current) :
    ∀ l ∈ splitFrom current text, lineBreak ∉ l := by
  induction text generalizing current with
  | nil => simpa [splitFrom] using h
  | cons cp text ih =>
    rw [splitFrom]
    split_ifs with hcp
    · rintro l (_ | ⟨_, hl⟩)
      · exact h
      · exact ih List.not_mem_nil l hl
    · exact ih (by simpa [h] using Ne.symm hcp)

theorem splitFrom_ne_nil (current text : List ℕ) : splitFrom current text ≠ [] := by
  induction text generalizing current with
  | nil => exact List.cons_ne_nil _ _
  | cons cp text ih =>
    rw [splitFrom]
    split_ifs
    · exact List.cons_ne_nil _ _
    · exact ih _

theorem intercalate_splitFrom (current text : List ℕ) : [lineBreak].intercalate (splitFrom current text) = current ++ text := by
  induction text generalizing current with
  | nil => simp [splitFrom]
  | cons cp text ih =>
    rw [splitFrom]
    split_ifs with hcp
    · rw [List.intercalate_cons_of_ne_nil (splitFrom_ne_nil _ _), ih, hcp]
      simp
    · rw [ih, List.append_assoc]
      rfl

theorem acts_setText (d : TextDocument) (text : List ℕ) : Acts (d.setText text) ⟨[], text, 0, d.overwrite⟩ := by
  have h : (d.setText text).Sound :=
    ⟨List.length_pos_of_ne_nil (splitFrom_ne_nil _ _), Nat.zero_le _, splitFrom_unbroken text List.not_mem_nil⟩
  have htext : (d.setText text).flat.after = text := h.text_eq.trans (intercalate_splitFrom [] text)
  exact ⟨h, congrArg (fun after => FlatText.mk [] after 0 d.overwrite) htext⟩

theorem TextDocument.Sound.apply {d : TextDocument} (h : d.Sound) {e : Edit} (he : e ≠ .insert lineBreak) :
    Acts (e.apply d) (d.flat.apply e) := by
  cases e with
  | insert cp => exact h.insert fun hcp => he (by rw [hcp])
  | newline => exact h.newline
  | backspace => exact h.backspace
  | erase => exact h.erase
  | move columns lines => exact h.move columns lines
  | home => exact h.toColumn (Nat.zero_le _)
  | end_ =>
    show Acts d.end_ (d.flat.goToColumn (d.flat.rowLength d.flat.row))
    rw [h.row_eq, h.rowLength_eq]
    exact h.toColumn (Nat.le_refl _)
  | setCursor line column => exact h.setCursor line column
  | setText text => exact acts_setText d text
  | setMode | toggleMode => exact ⟨⟨h.line, h.column, h.unbroken⟩, rfl⟩

/-- The edits one after the other, from an empty document. -/
def edited (edits : List Edit) : TextDocument := edits.foldl Edit.apply ⟨[[]], 0, 0, 0, false, false⟩

def flatEdited (edits : List Edit) : FlatText := edits.foldl FlatText.apply ⟨[], [], 0, false⟩

theorem acts_run {d : TextDocument} (hd : d.Sound) {edits : List Edit} (h : .insert lineBreak ∉ edits) :
    Acts (edits.foldl Edit.apply d) (edits.foldl FlatText.apply d.flat) := by
  induction edits generalizing d with
  | nil => exact ⟨hd, rfl⟩
  | cons e edits ih =>
    have he : e ≠ .insert lineBreak := fun he => h (by rw [he]; exact List.mem_cons_self)
    have hstep := hd.apply he
    rw [List.foldl_cons, List.foldl_cons, ← hstep.2]
    exact ih hstep.1 fun hmem => h (List.mem_cons_of_mem _ hmem)

/-- **Whatever is typed**, the document is the flat text with its cursor where the caret is, and in range; only a
    line break that `insert` is given would be put into a line. -/
theorem document_refines {edits : List Edit} (h : .insert lineBreak ∉ edits) :
    (edited edits).Sound ∧ (edited edits).flat = flatEdited edits ∧ (edited edits).text = (flatEdited edits).text ∧
      (edited edits).line = (flatEdited edits).row ∧ (edited edits).column = (flatEdited edits).column := by
  have hempty : TextDocument.Sound ⟨[[]], 0, 0, 0, false, false⟩ := ⟨Nat.one_pos, Nat.le_refl _, by simp⟩
  obtain ⟨hsound, hflat⟩ : Acts (edited edits) (flatEdited edits) := acts_run hempty h
  exact ⟨hsound, hflat, hflat ▸ hsound.text_eq.symm, hflat ▸ hsound.row_eq.symm, hflat ▸ hsound.column_eq.symm⟩

theorem document_refines_sample :
    (edited [.setText [97, 10, 98], .move 0 1, .backspace, .newline, .insert 99]).text = [97, 10, 99, 98] := by
  obtain ⟨-, -, htext, -⟩ :=
    @document_refines [.setText [97, 10, 98], .move 0 1, .backspace, .newline, .insert 99] (by simp [lineBreak])
  rw [htext]
  decide

end Aegir.Trinket
