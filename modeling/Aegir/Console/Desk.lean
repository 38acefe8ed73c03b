/-
  The console's windows: its clients' slices, and the windows in z order.

  What is delivered to a client's event ring is left out: nothing here reads it.
-/
import Mathlib

namespace Aegir.Console

def kWindowBackdrop : ℕ := 1

/-- A frame of a slice: `1 << seL4_LargePageBits`. -/
def kLargePage : ℕ := 2 ^ 21

def sizeofWindow : ℕ := 80

/-- Whether a button on a backdrop takes the focus. -/
def kBackdropTakesFocus : Bool := false

/-- A word of the screen or of a backing, B8G8R8X8. -/
abbrev Pixel := ℕ

/-- `a - b` of two words. -/
def sub64 (a b : ℕ) : ℕ := (a + 2 ^ 64 - b) % 2 ^ 64

theorem sub64_of_le {a b : ℕ} (h : b ≤ a) (ha : a < 2 ^ 64) : sub64 a b = a - b := by
  unfold sub64
  omega

/-- What the display driver answers for its screen, in words of 32 bits. -/
structure Screen where
  width : ℕ
  height : ℕ
  width_lt : width < 2 ^ 32
  height_lt : height < 2 ^ 32

/-! ## Records -/

structure Slice where
  /-- Which of the slices made so far. -/
  serial : ℕ
  badge : ℕ
  frames : ℕ
  /-- Where the console reads the slice. -/
  base : ℕ
  mapped : base + frames * kLargePage ≤ 2 ^ 64
  deriving DecidableEq

def Slice.bytes (slice : Slice) : ℕ := slice.frames * kLargePage

instance : Inhabited Slice := ⟨⟨0, 0, 0, 0, by decide⟩⟩

structure Window where
  id : ℕ
  owner : ℕ
  x : ℕ
  y : ℕ
  width : ℕ
  height : ℕ
  offset : ℕ
  shown : Bool
  backdrop : Bool
  slice : Slice
  deriving DecidableEq, Inhabited

namespace Window

def Covers (w : Window) (x y : ℕ) : Prop :=
  (w.x ≤ x ∧ x < (w.x + w.width) % 2 ^ 64) ∧ w.y ≤ y ∧ y < (w.y + w.height) % 2 ^ 64

instance (w : Window) (x y : ℕ) : Decidable (w.Covers x y) := inferInstanceAs (Decidable (_ ∧ _))

/-- `&backing[(y - w->y) * w->width + (x - w->x)]` -/
def address (w : Window) (x y : ℕ) : ℕ :=
  (w.slice.base + w.offset + 4 * ((y - w.y) * w.width + (x - w.x))) % 2 ^ 64

def backing (w : Window) : ℕ × ℕ := (w.slice.base + w.offset, w.slice.base + w.offset + w.width * w.height * 4)

end Window

/-! ## The desk -/

structure Desk where
  /-- The windows' cells, bottom first. -/
  windows : List ℕ
  cell : ℕ → Window
  /-- How many cells the arena gave out. -/
  cells : ℕ
  nextId : ℕ
  slices : List Slice
  /-- How many slices were made. -/
  attached : ℕ
  barWindow : Option ℕ
  barHeight : ℕ
  layerWindow : Option ℕ
  layerX : ℕ
  layerY : ℕ
  layerWidth : ℕ
  layerHeight : ℕ
  focused : Option ℕ
  grab : Option ℕ
  pointerX : ℕ
  pointerY : ℕ
  motionPending : Bool

/-- The desk when the console starts to serve: the pointer is in the middle. -/
def Desk.start (g : Screen) : Desk where
  windows := []
  cell := fun _ => default
  cells := 0
  nextId := 0
  slices := []
  attached := 0
  barWindow := none
  barHeight := 0
  layerWindow := none
  layerX := 0
  layerY := 0
  layerWidth := 0
  layerHeight := 0
  focused := none
  grab := none
  pointerX := g.width / 2
  pointerY := g.height / 2
  motionPending := false

namespace Desk

variable (d : Desk)

def findSlice (badge : ℕ) : Option Slice := d.slices.find? (·.badge = badge)

def findWindow (id : ℕ) : Option ℕ := d.windows.find? fun a => (d.cell a).id = id

def findBackdrop : Option ℕ := d.windows.find? fun a => (d.cell a).backdrop

/-- Whether a pixel is in the marked rectangle. -/
def InLayer (x y : ℕ) : Prop :=
  (d.layerX ≤ x ∧ x < (d.layerX + d.layerWidth) % 2 ^ 64) ∧ d.layerY ≤ y ∧ y < (d.layerY + d.layerHeight) % 2 ^ 64

instance (x y : ℕ) : Decidable (d.InLayer x y) := inferInstanceAs (Decidable (_ ∧ _))

/-- The topmost window covering a point, the open menu's layer above them all. -/
def windowAt (x y : ℕ) : Option ℕ :=
  if d.layerWindow ≠ none ∧ d.InLayer x y then d.layerWindow else d.windows.reverse.find? fun a => (d.cell a).Covers x y

/-- The backings of the windows in the list whose slice is live. -/
def live : List (ℕ × ℕ) := (d.windows.filter fun a => (d.cell a).slice ∈ d.slices).map fun a => (d.cell a).backing

def set (a : ℕ) (w : Window) : Desk := { d with cell := Function.update d.cell a w }

/-- `arena.allocate(sizeof(Window))`, where `memory` is whether there was any.  What the arena gave
out it never takes back, and all of it is in one address space. -/
def allocate (memory : Bool) : Option ℕ := if memory ∧ (d.cells + 1) * sizeofWindow ≤ 2 ^ 64 then some d.cells else none

/-- A pointer to a window that leaves is dropped; the console compares the ids. -/
def forget (p : Option ℕ) (gone : Window) : Option ℕ := p.filter fun a => (d.cell a).id ≠ gone.id

/-- A window leaves the list, and the focus and the grab do not outlive it. -/
def unlink (a : ℕ) : Desk :=
  { d with
    windows := d.windows.erase a
    focused := d.forget d.focused (d.cell a)
    grab := d.forget d.grab (d.cell a) }

/-- A new window: a plain one on top, a backdrop beneath everything. -/
def insert (a : ℕ) (w : Window) : Desk :=
  { d with
    windows := if w.backdrop then a :: d.windows else d.windows ++ [a]
    cell := Function.update d.cell a w
    cells := d.cells + 1
    nextId := w.id }

/-- To the top. -/
def raise (a : ℕ) : Desk := { d with windows := d.windows.erase a ++ [a] }

/-- To the bottom among the plain windows: past the last backdrop at the head of the list. -/
def lower (a : ℕ) : Desk :=
  { d with
    windows := (d.windows.erase a).takeWhile (fun b => (d.cell b).backdrop) ++
      a :: (d.windows.erase a).dropWhile fun b => (d.cell b).backdrop }

end Desk

end Aegir.Console
