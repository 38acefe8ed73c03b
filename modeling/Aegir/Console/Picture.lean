/-
  The picture of a desk, and the composite that draws it.
-/
import Aegir.Console.Windows

namespace Aegir.Console

open Aegir.Lib Display

variable {g : Screen} {d : Desk} {c : St} {a : ℕ} {w : Window} {memory : ℕ → Pixel} {p : Display} {x y : ℕ}

/-! ## The picture -/

section

variable (memory : ℕ → Pixel) (d : Desk) (x y : ℕ)

def Desk.sight (a : ℕ) : Option Pixel :=
  if (d.cell a).shown ∧ (d.cell a).Covers x y then some (memory ((d.cell a).address x y)) else none

def Desk.mark (source : Option ℕ) : Option Pixel := (source.filter (· ∈ d.windows)).bind (d.sight memory x y)

/-- The bar's strip and, over it, the marked rectangle. -/
def Desk.marks : Option Pixel :=
  (if d.InLayer x y then d.mark memory x y d.layerWindow else none).or
    (if y < d.barHeight then d.mark memory x y d.barWindow else none)

def picture : Pixel := ((d.marks memory x y).or (d.windows.filterMap (d.sight memory x y)).getLast?).getD kBackdrop

end

def lifted (g : Screen) (p : Display) : ℕ → ℕ → Pixel := (cursorErase g p).screen

/-- The screen, with the cursor lifted, is the picture. -/
def Shows (g : Screen) (memory : ℕ → Pixel) (c : St) : Prop :=
  ∀ x < g.width, ∀ y < g.height, lifted g c.display x y = picture memory c.desk x y

instance (g : Screen) (memory : ℕ → Pixel) (c : St) : Decidable (Shows g memory c) :=
  inferInstanceAs (Decidable (∀ x < g.width, ∀ y < g.height, _))

/-! ## The cursor -/

theorem index_inj {px px' : ℕ × ℕ} (h : px ∈ pixels 0 kCursorSpan 0 kCursorSpan) (h' : px' ∈ pixels 0 kCursorSpan 0 kCursorSpan)
    (heq : px.2 * kCursorSpan + px.1 = px'.2 * kCursorSpan + px'.1) : px = px' := by
  obtain ⟨i, j⟩ := px
  obtain ⟨i', j'⟩ := px'
  simp only [mem_pixels, kCursorSpan, kCursorSize] at h h' heq
  rw [Prod.mk.injEq]
  omega

section

variable {originX originY : ℤ} {px : ℕ × ℕ}

/-- A place of the cursor's box that is this pixel of the screen. -/
structure At (g : Screen) (originX originY : ℤ) (px : ℕ × ℕ) (x y : ℕ) : Prop where
  left : originX + px.1 = x
  top : originY + px.2 = y
  on : g.On x y

theorem At.unique (h : At g originX originY px x y) {px' : ℕ × ℕ} (hne : px' ≠ px) : ¬ At g originX originY px' x y := by
  intro h'
  have hleft := h.left.trans h'.left.symm
  have htop := h.top.trans h'.top.symm
  refine hne (Prod.ext ?_ ?_) <;> omega

theorem drawAt_off (h : ¬ At g originX originY px x y) (p : Display) : (cursorDrawAt g originX originY p px).screen x y = p.screen x y := by
  unfold cursorDrawAt
  dsimp only
  split_ifs with hon
  · refine put_of_ne _ (fun heq => h ?_) _
    have hsigns := hon
    simp only [Screen.On] at hsigns
    have hleft : originX + px.1 = x := by omega
    have htop : originY + px.2 = y := by omega
    exact ⟨hleft, htop, hleft ▸ htop ▸ hon⟩
  · rfl
  · rfl

theorem eraseAt_off (h : ¬ At g originX originY px x y) (p : Display) : (cursorEraseAt g originX originY p px).screen x y = p.screen x y := by
  unfold cursorEraseAt
  dsimp only
  split_ifs with hon
  · refine put_of_ne _ (fun heq => h ?_) _
    have hsigns := hon
    simp only [Screen.On] at hsigns
    have hleft : originX + px.1 = x := by omega
    have htop : originY + px.2 = y := by omega
    exact ⟨hleft, htop, hleft ▸ htop ▸ hon⟩
  · rfl

theorem drawAt_under {px' : ℕ × ℕ} (hne : px'.2 * kCursorSpan + px'.1 ≠ px.2 * kCursorSpan + px.1) (p : Display) :
    (cursorDrawAt g originX originY p px).under (px'.2 * kCursorSpan + px'.1) = p.under (px'.2 * kCursorSpan + px'.1) := by
  unfold cursorDrawAt
  dsimp only
  split_ifs <;> exact Function.update_of_ne hne _ _

theorem drawAt_saves (h : At g originX originY px x y) (p : Display) :
    (cursorDrawAt g originX originY p px).under (px.2 * kCursorSpan + px.1) = p.screen x y := by
  have hon : g.On (originX + px.1) (originY + px.2) := h.left ▸ h.top ▸ h.on
  unfold cursorDrawAt
  dsimp only
  rw [if_pos hon, h.left, h.top]
  split_ifs <;> exact Function.update_self ..

theorem eraseAt_restores (h : At g originX originY px x y) (p : Display) :
    (cursorEraseAt g originX originY p px).screen x y = p.under (px.2 * kCursorSpan + px.1) := by
  have hon : g.On (originX + px.1) (originY + px.2) := h.left ▸ h.top ▸ h.on
  unfold cursorEraseAt
  dsimp only
  rw [if_pos hon, h.left, h.top]
  exact put_self ..

end

theorem eraseAt_under (originX originY : ℤ) (px : ℕ × ℕ) (p : Display) : (cursorEraseAt g originX originY p px).under = p.under := by
  unfold cursorEraseAt
  dsimp only
  split_ifs <;> rfl

theorem cursorErase_cursorDraw (g : Screen) (d : Desk) (p : Display) : (cursorErase g (cursorDraw g d p)).screen = p.screen := by
  unfold cursorErase cursorDraw
  dsimp only
  rw [if_pos rfl]
  dsimp only
  generalize (d.pointerX : ℤ) - 1 = originX
  generalize (d.pointerY : ℤ) - 1 = originY
  ext x y
  by_cases hat : ∃ px ∈ pixels 0 kCursorSpan 0 kCursorSpan, At g originX originY px x y
  · obtain ⟨px, hpx, hat⟩ := hat
    have hsplit := split_of_mem nodup_pixels hpx
    have hapart : ∀ px' ∈ pixels 0 kCursorSpan 0 kCursorSpan, px' ≠ px → px.2 * kCursorSpan + px.1 ≠ px'.2 * kCursorSpan + px'.1 :=
      fun px' hpx' hne heq => hne (index_inj hpx hpx' heq).symm
    generalize pixels 0 kCursorSpan 0 kCursorSpan = box at hsplit hapart
    obtain ⟨before, after, rfl, hbefore, hafter⟩ := hsplit
    have hoff : ∀ px', px' ≠ px → ¬ At g originX originY px' x y := fun _ hne => hat.unique hne
    have hne : ∀ px' ∈ before, px' ≠ px := fun _ hmem heq => hbefore (heq ▸ hmem)
    have hne' : ∀ px' ∈ after, px' ≠ px := fun _ hmem heq => hafter (heq ▸ hmem)
    simp only [List.foldl_append, List.foldl_cons]
    -- erased: the place is restored from what was saved under it
    rw [foldl_off (fun p => p.screen x y) fun px' hmem p => eraseAt_off (hoff px' (hne' px' hmem)) p, eraseAt_restores hat,
      foldl_off (fun p => p.under (px.2 * kCursorSpan + px.1)) fun px' _ p => congrFun (eraseAt_under _ _ px' p) _]
    -- drawn: it was saved at its turn, and not again
    dsimp only
    rw [foldl_off (fun p => p.under (px.2 * kCursorSpan + px.1)) fun px' hmem p =>
        drawAt_under (hapart px' (List.mem_append_right _ (List.mem_cons_of_mem _ hmem)) (hne' px' hmem)) p, drawAt_saves hat,
      foldl_off (fun p => p.screen x y) fun px' hmem p => drawAt_off (hoff px' (hne px' hmem)) p]
  · have hoff : ∀ px ∈ pixels 0 kCursorSpan 0 kCursorSpan, ¬ At g originX originY px x y := fun px hpx h => hat ⟨px, hpx, h⟩
    generalize pixels 0 kCursorSpan 0 kCursorSpan = box at hoff
    rw [foldl_off (fun p => p.screen x y) fun px hpx p => eraseAt_off (hoff px hpx) p]
    exact foldl_off (fun p => p.screen x y) (fun px hpx p => drawAt_off (hoff px hpx) p) p

@[simp] theorem lifted_cursorDraw (g : Screen) (d : Desk) (p : Display) : lifted g (cursorDraw g d p) = p.screen :=
  cursorErase_cursorDraw g d p

/-! ## The composite -/

theorem copy_screen (w : Window) (x' y' : ℕ) :
    (copy memory d w p x' y').screen x y = if x = x' ∧ y = y' then memory (w.address x' y') else p.screen x y := rfl

theorem mark_eq {source : Option ℕ} (hsource : ∀ a ∈ source, a ∈ d.windows) :
    d.mark memory x y source = source.bind (d.sight memory x y) := by
  cases source with
  | none => rfl
  | some a => simp [Desk.mark, Option.filter, hsource a rfl]

theorem windowPixel_screen (source : Option ℕ) :
    (windowPixel memory d source p x y).screen x y = (source.bind (d.sight memory x y)).getD (p.screen x y) := by
  cases source with
  | none => rfl
  | some a =>
    simp only [windowPixel, Option.bind_some, Desk.sight]
    split_ifs
    · rw [copy_screen, if_pos ⟨rfl, rfl⟩, Option.getD_some]
    · rfl

theorem windowPixel_off (source : Option ℕ) {x' y' : ℕ} (hne : ¬(x = x' ∧ y = y')) :
    (windowPixel memory d source p x' y').screen x y = p.screen x y := by
  cases source with
  | none => rfl
  | some a =>
    simp only [windowPixel]
    split_ifs
    · rw [copy_screen, if_neg hne]
    · rfl

theorem overlay_screen (h : Named d) (p : Display) : (overlay memory d p (x, y)).screen x y = (d.marks memory x y).getD (p.screen x y) := by
  have hbar : (if d.barWindow ≠ none ∧ y < d.barHeight then windowPixel memory d d.barWindow p x y else p).screen x y =
      (if y < d.barHeight then d.mark memory x y d.barWindow else none).getD (p.screen x y) := by
    rw [mark_eq h.bar]
    cases hsource : d.barWindow with
    | none => simp
    | some a =>
      by_cases hrow : y < d.barHeight
      · rw [if_pos ⟨by simp, hrow⟩, if_pos hrow, windowPixel_screen]
      · rw [if_neg fun hand => hrow hand.2, if_neg hrow, Option.getD_none]
  unfold overlay
  dsimp only
  generalize (if d.barWindow ≠ none ∧ y < d.barHeight then windowPixel memory d d.barWindow p x y else p) = q at hbar
  have hlayer : (if d.layerWindow ≠ none ∧ d.InLayer x y then windowPixel memory d d.layerWindow q x y else q).screen x y =
      (if d.InLayer x y then d.mark memory x y d.layerWindow else none).getD (q.screen x y) := by
    rw [mark_eq h.layer]
    cases hsource : d.layerWindow with
    | none => simp
    | some a =>
      by_cases hin : d.InLayer x y
      · rw [if_pos ⟨by simp, hin⟩, if_pos hin, windowPixel_screen]
      · rw [if_neg fun hand => hin hand.2, if_neg hin, Option.getD_none]
  rw [hlayer, hbar, Desk.marks]
  cases (if d.InLayer x y then d.mark memory x y d.layerWindow else none) <;> rfl

theorem overlay_off {px : ℕ × ℕ} (hne : px ≠ (x, y)) (p : Display) : (overlay memory d p px).screen x y = p.screen x y := by
  have hoff : ¬(x = px.1 ∧ y = px.2) := fun heq => hne (Prod.ext heq.1.symm heq.2.symm)
  unfold overlay
  dsimp only
  split_ifs <;> simp only [windowPixel_off _ hoff]

theorem drawWindow_screen {sx ex sy ey : ℕ} (hx : sx ≤ x ∧ x < ex) (hy : sy ≤ y ∧ y < ey) (p : Display) (a : ℕ) :
    (drawWindow memory d sx ex sy ey p a).screen x y = (d.sight memory x y a).getD (p.screen x y) := by
  unfold drawWindow Desk.sight
  dsimp only
  by_cases hshown : (d.cell a).shown = true
  · rw [if_pos hshown]
    by_cases hcovers : (d.cell a).Covers x y
    · rw [if_pos ⟨hshown, hcovers⟩, Option.getD_some]
      obtain ⟨hcx, hcy⟩ := hcovers
      refine foldl_at (k := (x, y)) (f := fun _ => memory ((d.cell a).address x y)) (fun p => p.screen x y) nodup_pixels ?_ ?_ ?_ p
      · rw [mem_pixels]
        omega
      · intro px _ hne p
        exact if_neg fun heq => hne (Prod.ext heq.1.symm heq.2.symm)
      · intro p
        exact if_pos ⟨rfl, rfl⟩
    · rw [if_neg fun hand => hcovers hand.2, Option.getD_none]
      refine foldl_off (fun p => p.screen x y) (fun px hpx p => ?_) p
      rw [copy_screen, if_neg]
      rintro ⟨rfl, rfl⟩
      rw [mem_pixels] at hpx
      refine hcovers ⟨⟨?_, ?_⟩, ?_, ?_⟩ <;> omega
  · rw [if_neg hshown, if_neg fun hand => hshown hand.1, Option.getD_none]

theorem drawWindow_off {sx ex sy ey : ℕ} (hout : ¬((sx ≤ x ∧ x < ex) ∧ sy ≤ y ∧ y < ey)) (p : Display) (a : ℕ) :
    (drawWindow memory d sx ex sy ey p a).screen x y = p.screen x y := by
  unfold drawWindow
  dsimp only
  split_ifs
  · refine foldl_off (fun p => p.screen x y) (fun px hpx p => ?_) p
    rw [copy_screen, if_neg]
    rintro ⟨rfl, rfl⟩
    rw [mem_pixels] at hpx
    omega
  · rfl

theorem compositeRect_screen (h : Named d) {sx sy width height : ℕ} (hsx : sx + width < 2 ^ 64) (hsy : sy + height < 2 ^ 64)
    (hx : x < g.width) (hy : y < g.height) (p : Display) :
    (compositeRect g memory d sx sy width height p).screen x y =
      if (sx ≤ x ∧ x < sx + width) ∧ sy ≤ y ∧ y < sy + height then picture memory d x y else p.screen x y := by
  unfold compositeRect
  rw [Nat.mod_eq_of_lt hsx, Nat.mod_eq_of_lt hsy]
  split_ifs with hout hin hin
  · omega
  · rfl
  · dsimp only
    have hpx : (x, y) ∈ pixels sx (min (sx + width) g.width) sy (min (sy + height) g.height) := by
      rw [mem_pixels]
      omega
    rw [foldl_at (k := (x, y)) (f := fun v => (d.marks memory x y).getD v) (fun p => p.screen x y) nodup_pixels hpx
        (fun px _ hne p => overlay_off hne p) (overlay_screen h),
      foldl_painter (f := d.sight memory x y) (fun p => p.screen x y)
        (fun a _ p => drawWindow_screen (by omega) (by omega) p a),
      foldl_at (k := (x, y)) (f := fun _ => kBackdrop) (fun p => p.screen x y) nodup_pixels hpx
        (fun px _ hne p => put_of_ne p (fun heq => hne (Prod.ext heq.1.symm heq.2.symm)) _) (fun p => put_self p x y _)]
    rw [picture]
    cases d.marks memory x y <;> rfl
  · dsimp only
    have hoff : ∀ px ∈ pixels sx (min (sx + width) g.width) sy (min (sy + height) g.height), px ≠ (x, y) := by
      rintro px hpx rfl
      rw [mem_pixels] at hpx
      omega
    rw [foldl_off (fun p => p.screen x y) fun px hpx p => overlay_off (hoff px hpx) p,
      foldl_off (fun p => p.screen x y) fun a _ p => drawWindow_off (by omega) p a]
    exact foldl_off (fun p => p.screen x y)
      (fun px hpx p => put_of_ne p (fun heq => hoff px hpx (Prod.ext heq.1.symm heq.2.symm)) _) p

theorem lifted_repaint (h : Named d) {sx sy width height : ℕ} (hsx : sx + width < 2 ^ 64) (hsy : sy + height < 2 ^ 64)
    (hx : x < g.width) (hy : y < g.height) (p : Display) :
    lifted g (repaint g memory d sx sy width height p) x y =
      if (sx ≤ x ∧ x < sx + width) ∧ sy ≤ y ∧ y < sy + height then picture memory d x y else lifted g p x y := by
  unfold repaint
  split_ifs with hout hin hin
  · omega
  · rfl
  · rw [lifted_cursorDraw, compositeRect_screen h hsx hsy hx hy, if_pos hin]
  · rw [lifted_cursorDraw, compositeRect_screen h hsx hsy hx hy, if_neg hin, lifted]

end Aegir.Console
