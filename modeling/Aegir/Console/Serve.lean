/-
  The console's serve loop: the calls on its port, and the input devices' events.
-/
import Aegir.Console.Display

namespace Aegir.Console

open Aegir.Lib Display

structure St where
  desk : Desk
  display : Display

inductive Call where
  /-- `memory`: where the slice's frames were mapped, when there were any. -/
  | attach (bytes : ℕ) (memory : Option ℕ)
  | createWindow (x y width height offset flags : ℕ) (memory : Bool)
  | damage (id rx ry rw rh : ℕ)
  | destroyWindow (id : ℕ)
  | reap (target : ℕ)
  | move (id x y : ℕ)
  | raise (id : ℕ)
  | resize (id width height : ℕ)
  | lower (id : ℕ)
  | focus (id : ℕ)
  | info
  | screenBar (height : ℕ)
  | screenLayer (x y width height : ℕ)

inductive Event where
  | call (badge : ℕ) (call : Call)
  /-- A wakeup drains the devices that are ready, one after another. -/
  | drain (device : ℕ) (words : List ℕ)

namespace Desk

variable (d : Desk)

def owned (badge id : ℕ) : Option ℕ := (d.findWindow id).filter fun a => (d.cell a).owner = badge

/-- A plain window its owner names: no backdrop is raised, lowered or focused. -/
def plain (badge id : ℕ) : Option ℕ := (d.owned badge id).filter fun a => (d.cell a).backdrop = false

def ownBackdrop (badge : ℕ) : Option ℕ := d.findBackdrop.filter fun a => (d.cell a).owner = badge

end Desk

variable (g : Screen) (memory : ℕ → Pixel)

/-! ## Slices -/

/-- `(bytes + (1 << 21) - 1) >> 21` -/
def framesFor (bytes : ℕ) : ℕ := (bytes + kLargePage - 1) % 2 ^ 64 / kLargePage

/-- A slice is made: the pages are the address space's. -/
def attach (badge bytes : ℕ) (mapped : Option ℕ) (c : St) : List ℕ × St :=
  if bytes = 0 ∨ c.desk.findSlice badge ≠ none then ([0], c)
  else match mapped with
    | none => ([0], c)
    | some base =>
      if h : base + framesFor bytes * kLargePage ≤ 2 ^ 64 then
        let slice : Slice := ⟨c.desk.attached, badge, framesFor bytes, base, h⟩
        ([21, framesFor bytes], { c with desk := { c.desk with slices := slice :: c.desk.slices, attached := c.desk.attached + 1 } })
      else ([0], c)

/-! ## Windows -/

/-- A new window fits the screen, below the bar, and its backing the slice. -/
def fits (d : Desk) (slice : Slice) (x y width height offset : ℕ) (backdrop : Bool) : Prop :=
  width ≠ 0 ∧ height ≠ 0 ∧ width ≤ g.width ∧ height ≤ g.height ∧ x ≤ g.width - width ∧ y ≤ g.height - height ∧
    (backdrop = true ∨ d.barHeight ≤ y) ∧ offset % 4 = 0 ∧ (offset + width * height * 4) % 2 ^ 64 ≤ slice.bytes

instance (d : Desk) (slice : Slice) (x y width height offset : ℕ) (backdrop : Bool) :
    Decidable (fits g d slice x y width height offset backdrop) := inferInstanceAs (Decidable (_ ∧ _))

def createWindow (badge x y width height offset flags : ℕ) (granted : Bool) (c : St) : List ℕ × St :=
  let backdrop := flags % 2 = kWindowBackdrop
  match c.desk.findSlice badge with
  | none => ([0], c)
  | some slice =>
    if fits g c.desk slice x y width height offset backdrop then
      match c.desk.allocate granted with
      | none => ([0], c)
      | some a =>
        let id := (c.desk.nextId + 1) % 2 ^ 64
        ([id], { c with desk := c.desk.insert a ⟨id, badge, x, y, width, height, offset, false, backdrop, slice⟩ })
    else ([0], c)

/-- What of `[r, r + n)` is in a window of `size`: `rx + rw` is a sum of words. -/
def clip (r n size : ℕ) : ℕ := if size ≤ r then 0 else if size < (r + n) % 2 ^ 64 then size - r else n

def damage (badge id rx ry rw rh : ℕ) (c : St) : List ℕ × St :=
  match c.desk.owned badge id with
  | none => ([0], c)
  | some a =>
    let w := c.desk.cell a
    let d := c.desk.set a { w with shown := true }
    let cw := clip rx rw w.width
    let ch := clip ry rh w.height
    ([0], ⟨d, if cw ≠ 0 ∧ ch ≠ 0 then
      repaint g memory d ((w.x + rx) % 2 ^ 64) ((w.y + ry) % 2 ^ 64) cw ch c.display else c.display⟩)

/-- A window leaves, and what was under it is drawn. -/
def remove (a : ℕ) (c : St) : St :=
  let gone := c.desk.cell a
  let d := c.desk.unlink a
  ⟨d, repaint g memory d gone.x gone.y gone.width gone.height c.display⟩

def destroyWindow (badge id : ℕ) (c : St) : List ℕ × St :=
  match c.desk.owned badge id with
  | none => ([0], c)
  | some a => ([0], remove g memory a c)

/-- Every window of the badge goes as if destroyed, -/
def reapWindows (target : ℕ) (c : St) : St :=
  c.desk.windows.foldl (fun c a => if (c.desk.cell a).owner = target then remove g memory a c else c) c

/-- then its slice. -/
def reap (target : ℕ) (c : St) : List ℕ × St :=
  let c' := reapWindows g memory target c
  ([0], { c' with desk := { c'.desk with slices := c'.desk.slices.eraseP (·.badge = target) } })

/-- The rectangle stays on the screen, and a plain window below the bar. -/
def move (badge id x y : ℕ) (c : St) : List ℕ × St :=
  match c.desk.owned badge id with
  | none => ([0], c)
  | some a =>
    let w := c.desk.cell a
    if sub64 g.width w.width < x ∨ sub64 g.height w.height < y ∨ (w.backdrop = false ∧ y < c.desk.barHeight) then ([0], c)
    else
      let d := c.desk.set a { w with x := x, y := y }
      ([1], ⟨d, repaintMove g memory d a w.x w.y c.display⟩)

/-- The order changed, and the window's rectangle is drawn. -/
def restack (order : ℕ → Desk → Desk) (badge id : ℕ) (c : St) : List ℕ × St :=
  match c.desk.plain badge id with
  | none => ([0], c)
  | some a =>
    let w := c.desk.cell a
    let d := order a c.desk
    ([0], ⟨d, repaint g memory d w.x w.y w.width w.height c.display⟩)

def raise : ℕ → ℕ → St → List ℕ × St := restack g memory fun a d => d.raise a

def lower : ℕ → ℕ → St → List ℕ × St := restack g memory fun a d => d.lower a

def resize (badge id width height : ℕ) (c : St) : List ℕ × St :=
  match c.desk.owned badge id with
  | none => ([0], c)
  | some a =>
    let w := c.desk.cell a
    let bytes := ((c.desk.findSlice w.owner).map Slice.bytes).getD 0
    if width ≠ 0 ∧ height ≠ 0 ∧ width ≤ sub64 g.width w.x ∧ height ≤ sub64 g.height w.y ∧
        (w.offset + width * height * 4) % 2 ^ 64 ≤ bytes then
      let d := c.desk.set a { w with width := width, height := height }
      ([1], ⟨d, repaint g memory d w.x w.y (max w.width width) (max w.height height) c.display⟩)
    else ([0], c)

def focus (badge id : ℕ) (c : St) : List ℕ × St :=
  match c.desk.plain badge id with
  | none => ([0], c)
  | some a =>
    if c.desk.focused = some a then ([0], c)
    else ([0], { c with desk := { c.desk with focused := some a } })

/-! ## The screen's layer -/

/-- The backdrop's top strip is drawn above every window. -/
def screenBar (badge height : ℕ) (c : St) : List ℕ × St :=
  match c.desk.ownBackdrop badge with
  | none => ([0], c)
  | some backdrop =>
    let d := { c.desk with barWindow := if height ≠ 0 then some backdrop else none, barHeight := height }
    ([0], ⟨d, repaint g memory d 0 0 g.width (max c.desk.barHeight height) c.display⟩)

/-- The open menu's rectangle; the client damages the region itself. -/
def screenLayer (badge x y width height : ℕ) (c : St) : List ℕ × St :=
  match c.desk.ownBackdrop badge with
  | none => ([0], c)
  | some backdrop =>
    let layer := if x = 0 ∧ y = 0 ∧ width = 0 ∧ height = 0 then none else some backdrop
    ([0], { c with
      desk := { c.desk with layerWindow := layer, layerX := x, layerY := y, layerWidth := width, layerHeight := height } })

/-! ## Input -/

def kHidKbd : ℕ := 0
def kHidMouse : ℕ := 1
def kHidTablet : ℕ := 2

def kEvKey : ℕ := 1
def kEvRel : ℕ := 2
def kEvAbs : ℕ := 3

def kAxisX : ℕ := 0

def kBtnLeft : ℕ := 0x110
def kBtnMiddle : ℕ := 0x112

def eventType (word : ℕ) : ℕ := word % 2 ^ 16
def eventCode (word : ℕ) : ℕ := word / 2 ^ 16 % 2 ^ 16
def eventValue (word : ℕ) : ℕ := word / 2 ^ 32 % 2 ^ 32

/-- The motion of a drain goes out as one: the cursor is drawn where the pointer stands. -/
def flushMotion (c : St) : St :=
  if c.desk.motionPending then
    let d := { c.desk with motionPending := false }
    ⟨d, cursorDraw g d c.display⟩
  else c

def startMotion (c : St) : St :=
  if c.desk.motionPending then c else ⟨{ c.desk with motionPending := true }, cursorErase g c.display⟩

/-- A button-down focuses and grabs, the up lets the grab go. -/
def pointerButton (state : ℕ) (c : St) : St :=
  let under := c.desk.windowAt c.desk.pointerX c.desk.pointerY
  if state ≠ 0 then
    let takesFocus := ∀ a, under = some a → (c.desk.cell a).backdrop = true → kBackdropTakesFocus = true
    let focused := if under ≠ c.desk.focused ∧ takesFocus then under else c.desk.focused
    { c with desk := { c.desk with grab := under, focused := focused } }
  else { c with desk := { c.desk with grab := none } }

/-- A delta of 32 bits, clamped to the screen. -/
def motion (pointer value size : ℕ) : ℕ :=
  let next : ℤ := pointer + if value < 2 ^ 31 then (value : ℤ) else value - 2 ^ 32
  if next < 0 then 0 else if sub64 size 1 < next.toNat then sub64 size 1 else next.toNat

def pointAt (x y : ℕ) (c : St) : St := { c with desk := { c.desk with pointerX := x, pointerY := y } }

/-- One event from a device. -/
def route (device : ℕ) (c : St) (word : ℕ) : St :=
  let type := eventType word
  let code := eventCode word
  let value := eventValue word
  if device = kHidKbd ∧ type = kEvKey then flushMotion g c
  else if device = kHidMouse ∧ type = kEvRel then
    let c := startMotion g c
    if code = kAxisX then pointAt (motion c.desk.pointerX value g.width) c.desk.pointerY c
    else pointAt c.desk.pointerX (motion c.desk.pointerY value g.height) c
  else if device = kHidTablet ∧ type = kEvAbs then
    let c := startMotion g c
    if code = kAxisX then pointAt (value * g.width / 2 ^ 15) c.desk.pointerY c
    else pointAt c.desk.pointerX (value * g.height / 2 ^ 15) c
  else if device ≠ kHidKbd ∧ type = kEvKey ∧ kBtnLeft ≤ code ∧ code ≤ kBtnMiddle then pointerButton value (flushMotion g c)
  else c

def drain (device : ℕ) (words : List ℕ) (c : St) : St := flushMotion g (words.foldl (route g device) c)

/-! ## The loop -/

def answer (badge : ℕ) (c : St) : Call → List ℕ × St
  | .attach bytes mapped => attach badge bytes mapped c
  | .createWindow x y width height offset flags granted => createWindow g badge x y width height offset flags granted c
  | .damage id rx ry rw rh => damage g memory badge id rx ry rw rh c
  | .destroyWindow id => destroyWindow g memory badge id c
  | .reap target => reap g memory target c
  | .move id x y => move g memory badge id x y c
  | .raise id => raise g memory badge id c
  | .resize id width height => resize g memory badge id width height c
  | .lower id => lower g memory badge id c
  | .focus id => focus badge id c
  | .info => ([g.width, g.height], c)
  | .screenBar height => screenBar g memory badge height c
  | .screenLayer x y width height => screenLayer badge x y width height c

/-- One turn: the words answered, and the state after. -/
def serve (c : St) : Event → List ℕ × St
  | .call badge call => answer g memory badge c call
  | .drain device words => ([], drain g device words c)

/-- The backdrop is painted, and the cursor is over it. -/
def St.start : St :=
  ⟨.start g, cursorDraw g (.start g) ⟨fun _ _ => kBackdrop, [], fun _ => 0, 0, 0, false⟩⟩

/-- The states of the runs whose every turn meets `P`. -/
inductive Reaches (P : St → Event → Prop) : St → Prop
  | start : Reaches P (.start g)
  | step {c : St} {e : Event} (memory : ℕ → Pixel) (hreach : Reaches P c) (hturn : P c e) : Reaches P (serve g memory c e).2

theorem Reaches.induct {P : St → Event → Prop} {Q : St → Prop} {c : St} (h : Reaches g P c) (hstart : Q (.start g))
    (hstep : ∀ memory c e, Q c → P c e → Q (serve g memory c e).2) : Q c := by
  induction h with
  | start => exact hstart
  | step memory _ hturn ih => exact hstep memory _ _ ih hturn

def turns (events : List Event) (c : St) : St := events.foldl (fun c e => (serve g memory c e).2) c

theorem Reaches.turns {P : St → Event → Prop} {c : St} (h : Reaches g P c) {events : List Event} (hturns : ∀ e ∈ events, ∀ c, P c e) :
    Reaches g P (turns g memory events c) := by
  induction events generalizing c with
  | nil => exact h
  | cons e events ih =>
    exact ih (h.step memory (hturns e List.mem_cons_self c)) fun e' he' => hturns e' (List.mem_cons_of_mem _ he')

end Aegir.Console
