/-
  What the console draws: the cursor, the composite, and the shift of a moved window.
-/
import Aegir.Console.Desk
import Aegir.Lib.Raster

namespace Aegir.Console

open Aegir.Lib

/-- Workbench blue. -/
def kBackdrop : Pixel := 0x000055AA

/-- A word read of a backing. -/
structure Access where
  address : ℕ
  /-- The backings of the windows listed then. -/
  live : List (ℕ × ℕ)

def Access.Inside (access : Access) : Prop := ∃ b ∈ access.live, b.1 ≤ access.address ∧ access.address + 4 ≤ b.2

structure Display where
  screen : ℕ → ℕ → Pixel
  reads : List Access
  under : ℕ → Pixel
  originX : ℤ
  originY : ℤ
  drawn : Bool

namespace Display

def put (p : Display) (x y : ℕ) (pixel : Pixel) : Display :=
  { p with screen := fun x' y' => if x' = x ∧ y' = y then pixel else p.screen x' y' }

@[simp] theorem put_self (p : Display) (x y : ℕ) (pixel : Pixel) : (p.put x y pixel).screen x y = pixel := if_pos ⟨rfl, rfl⟩

theorem put_of_ne (p : Display) {x y x' y' : ℕ} (h : ¬(x' = x ∧ y' = y)) (pixel : Pixel) :
    (p.put x y pixel).screen x' y' = p.screen x' y' := if_neg h

/-- A word of a backing comes to the screen. -/
def copy (memory : ℕ → Pixel) (d : Desk) (w : Window) (p : Display) (x y : ℕ) : Display :=
  { p.put x y (memory (w.address x y)) with reads := ⟨w.address x y, d.live⟩ :: p.reads }

end Display

/-! ## The cursor -/

def kCursorSize : ℕ := 16

def kCursorSpan : ℕ := kCursorSize + 2

def kCursorShape : List ℕ :=
  [0x8000, 0xC000, 0xE000, 0xF000, 0xF800, 0xFC00, 0xFE00, 0xFF00, 0xFF80, 0xFFC0, 0xFFE0, 0xFFF0, 0xF000, 0xF000, 0xF000, 0xF000]

def cursorSet (mx my : ℤ) : Bool :=
  if mx < 0 ∨ my < 0 ∨ (kCursorSize : ℤ) ≤ mx ∨ (kCursorSize : ℤ) ≤ my then false
  else (kCursorShape.getD my.toNat 0 &&& (0x8000 >>> mx.toNat)) != 0

/-- Leave the screen alone. -/
def kTransparent : Pixel := 0xFFFFFFFF

/-- White inside, black one pixel around. -/
def cursorPixel (mx my : ℤ) : Pixel :=
  if cursorSet mx my then 0x00FFFFFF
  else if [-1, 0, 1].any fun dy => [-1, 0, 1].any fun dx => (dx != 0 || dy != 0) && cursorSet (mx + dx) (my + dy) then 0
  else kTransparent

variable (g : Screen)

def Screen.On (x y : ℤ) : Prop := ¬(x < 0 ∨ y < 0 ∨ (g.width : ℤ) ≤ x ∨ (g.height : ℤ) ≤ y)

instance (x y : ℤ) : Decidable (g.On x y) := inferInstanceAs (Decidable (¬ _))

namespace Display

/-- One place of the box: what is under it is saved. -/
def cursorDrawAt (originX originY : ℤ) (p : Display) (px : ℕ × ℕ) : Display :=
  let sx := originX + px.1
  let sy := originY + px.2
  let index := px.2 * kCursorSpan + px.1
  if g.On sx sy then
    let q := { p with under := Function.update p.under index (p.screen sx.toNat sy.toNat) }
    let colour := cursorPixel (px.1 - 1) (px.2 - 1)
    if colour ≠ kTransparent then q.put sx.toNat sy.toNat colour else q
  else { p with under := Function.update p.under index 0 }

def cursorDraw (d : Desk) (p : Display) : Display :=
  let originX : ℤ := d.pointerX - 1
  let originY : ℤ := d.pointerY - 1
  let q := (pixels 0 kCursorSpan 0 kCursorSpan).foldl (cursorDrawAt g originX originY) p
  { q with originX := originX, originY := originY, drawn := true }

def cursorEraseAt (originX originY : ℤ) (p : Display) (px : ℕ × ℕ) : Display :=
  let sx := originX + px.1
  let sy := originY + px.2
  if g.On sx sy then p.put sx.toNat sy.toNat (p.under (px.2 * kCursorSpan + px.1)) else p

def cursorErase (p : Display) : Display :=
  if p.drawn then { (pixels 0 kCursorSpan 0 kCursorSpan).foldl (cursorEraseAt g p.originX p.originY) p with drawn := false } else p

end Display

/-! ## The composite -/

variable (memory : ℕ → Pixel) (d : Desk)

namespace Display

/-- `out[xx] = window_pixel(from, xx, yy, out[xx])` -/
def windowPixel (source : Option ℕ) (p : Display) (x y : ℕ) : Display :=
  match source with
  | some a => if (d.cell a).shown ∧ (d.cell a).Covers x y then copy memory d (d.cell a) p x y else p
  | none => p

/-- A window of the list, over what is drawn: its part in the rectangle. -/
def drawWindow (sx ex sy ey : ℕ) (p : Display) (a : ℕ) : Display :=
  let w := d.cell a
  if w.shown then
    (pixels (max w.x sx) (min ((w.x + w.width) % 2 ^ 64) ex) (max w.y sy) (min ((w.y + w.height) % 2 ^ 64) ey)).foldl
      (fun p px => copy memory d w p px.1 px.2) p
  else p

/-- The bar and the marked rectangle, over every window. -/
def overlay (p : Display) (px : ℕ × ℕ) : Display :=
  let p := if d.barWindow ≠ none ∧ px.2 < d.barHeight then windowPixel memory d d.barWindow p px.1 px.2 else p
  if d.layerWindow ≠ none ∧ d.InLayer px.1 px.2 then windowPixel memory d d.layerWindow p px.1 px.2 else p

def compositeRect (sx sy width height : ℕ) (p : Display) : Display :=
  if g.width ≤ sx ∨ g.height ≤ sy then p
  else
    let ex := min ((sx + width) % 2 ^ 64) g.width
    let ey := min ((sy + height) % 2 ^ 64) g.height
    let p := (pixels sx ex sy ey).foldl (fun p px => p.put px.1 px.2 kBackdrop) p
    let p := d.windows.foldl (drawWindow memory d sx ex sy ey) p
    (pixels sx ex sy ey).foldl (overlay memory d) p

/-- A rectangle is composited with the cursor off, and pushed. -/
def repaint (sx sy width height : ℕ) (p : Display) : Display :=
  if g.width ≤ sx ∨ g.height ≤ sy then p
  else cursorDraw g d (compositeRect g memory d sx sy width height (cursorErase g p))

/-! ## A window moved -/

/-- The part of the rectangle at `(ax, ay)` that the equal one at `(kx, _)`, before the move, does
not cover. -/
def compositeUncovered (kx ax ay width height : ℕ) (dx dy : ℤ) (p : Display) : Display :=
  let ox0 := max kx ax
  let ox1 := min ((kx + width) % 2 ^ 64) ((ax + width) % 2 ^ 64)
  let p := if 0 < dx then compositeRect g memory d (sub64 ((ax + width) % 2 ^ 64) dx.toNat) ay dx.toNat height p
    else if dx < 0 then compositeRect g memory d ax ay (-dx).toNat height p
    else p
  if ox1 ≤ ox0 then p
  else if 0 < dy then compositeRect g memory d ox0 (sub64 ((ay + height) % 2 ^ 64) dy.toNat) (ox1 - ox0) dy.toNat p
  else if dy < 0 then compositeRect g memory d ox0 ay (ox1 - ox0) (-dy).toNat p
  else p

/-- The overlap of the old and the new rectangle is shifted, row after row. -/
def shift (x0 x1 y0 y1 : ℕ) (dx dy : ℤ) (p : Display) : Display :=
  let rows := List.range' y0 (y1 - y0)
  { p with screen := shiftRows dx dy x0 x1 (if 0 < dy then rows.reverse else rows) p.screen }

/-- Window `a` moved here from `(oldX, oldY)`. -/
def repaintMove (a oldX oldY : ℕ) (p : Display) : Display :=
  let w := d.cell a
  let dx : ℤ := w.x - oldX
  let dy : ℤ := w.y - oldY
  if dx = 0 ∧ dy = 0 then p
  else
    let ux := min oldX w.x
    let uy := min oldY w.y
    let uright := max ((oldX + w.width) % 2 ^ 64) ((w.x + w.width) % 2 ^ 64)
    let ubottom := max ((oldY + w.height) % 2 ^ 64) ((w.y + w.height) % 2 ^ 64)
    if d.windows.getLast? ≠ some a ∨ w.shown = false then repaint g memory d ux uy (sub64 uright ux) (sub64 ubottom uy) p
    else
      let p := cursorErase g p
      let p := shift (max oldX w.x) (min ((oldX + w.width) % 2 ^ 64) ((w.x + w.width) % 2 ^ 64))
        (max oldY w.y) (min ((oldY + w.height) % 2 ^ 64) ((w.y + w.height) % 2 ^ 64)) dx dy p
      let p := compositeUncovered g memory d oldX w.x w.y w.width w.height dx dy p
      let p := compositeUncovered g memory d w.x oldX oldY w.width w.height (-dx) (-dy) p
      cursorDraw g d p

end Display

end Aegir.Console
