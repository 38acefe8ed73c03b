/-
  A turn redraws what it changes, and the screen stays the picture.
-/
import Aegir.Console.Picture

namespace Aegir.Console

open Aegir.Lib Display

variable {g : Screen} {d d' : Desk} {c : St} {a : ℕ} {w : Window} {memory memory' : ℕ → Pixel} {p : Display} {x y : ℕ}

/-! ## Turns -/

/-- The turns whose redraw is in question. -/
def Redraws (c : St) : Event → Prop
  | .call _ (.move _ _ _) | .call _ (.raise _) | .call _ (.lower _) | .call _ (.resize _ _ _) | .call _ (.destroyWindow _)
  | .call _ (.reap _) => True
  | .call badge (.damage id rx ry rw rh) => ∀ a, c.desk.owned badge id = some a →
      rx + rw ≤ (c.desk.cell a).width ∧ ry + rh ≤ (c.desk.cell a).height
  | _ => False

def Damaged (c : St) (e : Event) (a x y : ℕ) : Prop :=
  match e with
  | .call badge (.damage id rx ry rw rh) => c.desk.owned badge id = some a ∧
      ((c.desk.cell a).x + rx ≤ x ∧ x < (c.desk.cell a).x + rx + rw) ∧
      (c.desk.cell a).y + ry ≤ y ∧ y < (c.desk.cell a).y + ry + rh
  | _ => False

/-- No backing changed since but where the damage is. -/
def Still (memory memory' : ℕ → Pixel) (c : St) (e : Event) : Prop :=
  ∀ a ∈ c.desk.windows, (c.desk.cell a).shown = true → ∀ x y, (c.desk.cell a).Covers x y → ¬ Damaged c e a x y →
    memory' ((c.desk.cell a).address x y) = memory ((c.desk.cell a).address x y)

/-- Another window's pixel of the bar or of the layer is over this one. -/
def Desk.Overlaid (d : Desk) (a x y : ℕ) : Prop :=
  (y < d.barHeight ∧ ∃ b ∈ d.barWindow, b ≠ a ∧ (d.cell b).shown = true ∧ (d.cell b).Covers x y) ∨
    (d.InLayer x y ∧ ∃ b ∈ d.layerWindow, b ≠ a ∧ (d.cell b).shown = true ∧ (d.cell b).Covers x y)

/-- What moves with the topmost window `a` from `(oldX, oldY)` to `(x, y)` is its own. -/
def ShiftsOwn (d : Desk) (a x y : ℕ) : Prop :=
  d.windows.getLast? = some a → (d.cell a).shown = true → ∀ px py : ℕ,
    (d.cell a).Covers px py → Window.Covers { d.cell a with x := x, y := y } px py →
      ¬ d.Overlaid a px py ∧ ¬ d.Overlaid a (px - ((x : ℤ) - (d.cell a).x)).toNat (py - ((y : ℤ) - (d.cell a).y)).toNat

/-- The first damage is of the whole window, and a move shifts what is the window's. -/
def Clear (c : St) : Event → Prop
  | .call badge (.damage id rx ry rw rh) => ∀ a, c.desk.owned badge id = some a →
      (c.desk.cell a).shown = true ∨ rx = 0 ∧ ry = 0 ∧ rw = (c.desk.cell a).width ∧ rh = (c.desk.cell a).height
  | .call badge (.move id x y) => ∀ a, c.desk.owned badge id = some a → ShiftsOwn c.desk a x y
  | _ => True

/-! ## What an edit leaves of the picture -/

theorem sight_eq_none (hcovers : ¬ (d.cell a).Covers x y) : d.sight memory x y a = none := if_neg fun hand => hcovers hand.2

theorem sight_set_of_ne {b : ℕ} (hne : b ≠ a) : (d.set a w).sight memory x y b = d.sight memory x y b := by
  simp [Desk.sight, Desk.set, Function.update_of_ne hne]

@[simp] theorem set_cell : (d.set a w).cell a = w := Function.update_self ..

theorem picture_congr (hwindows : d'.windows.filterMap (d'.sight memory x y) = d.windows.filterMap (d.sight memory x y))
    (hmarks : d'.marks memory x y = d.marks memory x y) : picture memory d' x y = picture memory d x y := by
  rw [picture, picture, hwindows, hmarks]

theorem marks_congr (h : Named d) (h' : Named d') (hbar : d'.barWindow = d.barWindow) (hheight : d'.barHeight = d.barHeight)
    (hlayer : d'.layerWindow = d.layerWindow) (hin : d'.InLayer x y ↔ d.InLayer x y)
    (hsight : ∀ b, d'.sight memory x y b = d.sight memory x y b) : d'.marks memory x y = d.marks memory x y := by
  have hsame : d'.sight memory x y = d.sight memory x y := funext hsight
  rw [Desk.marks, Desk.marks, mark_eq h.bar, mark_eq h.layer, mark_eq h'.bar, mark_eq h'.layer, hbar, hheight, hlayer, hsame]
  simp only [hin]

theorem picture_set (hbefore : d.sight memory x y a = none) (hafter : (d.set a w).sight memory x y a = none) :
    picture memory (d.set a w) x y = picture memory d x y := by
  have hsight : (d.set a w).sight memory x y = d.sight memory x y := by
    ext1 b
    by_cases hb : b = a
    · rw [hb, hbefore, hafter]
    · exact sight_set_of_ne hb
  refine picture_congr ?_ ?_
  · rw [hsight]
    rfl
  · rw [Desk.marks, Desk.marks, Desk.mark, Desk.mark, Desk.mark, Desk.mark, hsight]
    rfl

theorem filterMap_erase {α β : Type} [DecidableEq α] {f : α → Option β} {k : α} (hk : f k = none) (l : List α) :
    (l.erase k).filterMap f = l.filterMap f := by
  induction l with
  | nil => rfl
  | cons j l ih =>
    by_cases hj : j = k
    · subst hj
      rw [List.erase_cons_head, List.filterMap_cons_none hk]
    · rw [List.erase_cons_tail (by simpa using hj), List.filterMap_cons, List.filterMap_cons, ih]

/-- A window that is not seen here leaves, -/
theorem picture_unlink (h : Named d) (hbar : a ∉ d.barWindow) (hlayer : a ∉ d.layerWindow) (hsight : d.sight memory x y a = none) :
    picture memory (d.unlink a) x y = picture memory d x y :=
  picture_congr (filterMap_erase hsight d.windows)
    (marks_congr h (h.unlink hbar hlayer) rfl rfl rfl Iff.rfl fun _ => rfl)

/-- is raised, -/
theorem picture_raise (h : Named d) (ha : a ∈ d.windows) (hsight : d.sight memory x y a = none) :
    picture memory (d.raise a) x y = picture memory d x y := by
  refine picture_congr ?_ (marks_congr h (h.perm (raise_perm ha)) rfl rfl rfl Iff.rfl fun _ => rfl)
  show (d.windows.erase a ++ [a]).filterMap (d.sight memory x y) = _
  rw [List.filterMap_append, List.filterMap_cons_none hsight, List.filterMap_nil, List.append_nil]
  exact filterMap_erase hsight d.windows

/-- or lowered. -/
theorem picture_lower (h : Named d) (ha : a ∈ d.windows) (hsight : d.sight memory x y a = none) :
    picture memory (d.lower a) x y = picture memory d x y := by
  refine picture_congr ?_ (marks_congr h (h.perm (lower_perm ha)) rfl rfl rfl Iff.rfl fun _ => rfl)
  show (List.takeWhile _ _ ++ a :: List.dropWhile _ _).filterMap (d.sight memory x y) = _
  rw [List.filterMap_append, List.filterMap_cons_none hsight, ← List.filterMap_append, List.takeWhile_append_dropWhile]
  exact filterMap_erase hsight d.windows

theorem picture_still {e : Event} (h : Named c.desk) (hstill : Still memory memory' c e) (hdamaged : ∀ a, ¬ Damaged c e a x y) :
    picture memory' c.desk x y = picture memory c.desk x y := by
  have hsight : ∀ a ∈ c.desk.windows, c.desk.sight memory' x y a = c.desk.sight memory x y a := by
    intro a ha
    unfold Desk.sight
    split_ifs with hseen
    · rw [hstill a ha hseen.1 x y hseen.2 (hdamaged a)]
    · rfl
  have hmark : ∀ source : Option ℕ, (∀ a ∈ source, a ∈ c.desk.windows) →
      c.desk.mark memory' x y source = c.desk.mark memory x y source := by
    intro source hsource
    rw [mark_eq hsource, mark_eq hsource]
    cases source with
    | none => rfl
    | some a => exact hsight a (hsource a rfl)
  rw [picture, picture, Desk.marks, Desk.marks, hmark _ h.bar, hmark _ h.layer, List.filterMap_congr hsight]

/-! ## A rectangle repainted -/

theorem shows_repaint (h : Named d) {sx sy width height : ℕ} (hsx : sx + width < 2 ^ 64) (hsy : sy + height < 2 ^ 64)
    (hrest : ∀ x < g.width, ∀ y < g.height, ¬((sx ≤ x ∧ x < sx + width) ∧ sy ≤ y ∧ y < sy + height) →
      lifted g p x y = picture memory d x y) :
    Shows g memory ⟨d, repaint g memory d sx sy width height p⟩ := by
  intro x hx y hy
  show lifted g (repaint g memory d sx sy width height p) x y = picture memory d x y
  rw [lifted_repaint h hsx hsy hx hy]
  split_ifs with hin
  · rfl
  · exact hrest x hx y hy hin

theorem Lies.right_lt {slices : List Slice} (h : Lies g slices w) : w.x + w.width < 2 ^ 64 :=
  lt_of_le_of_lt h.right (g.width_lt.trans (by decide))

theorem Lies.bottom_lt {slices : List Slice} (h : Lies g slices w) : w.y + w.height < 2 ^ 64 :=
  lt_of_le_of_lt h.bottom (g.height_lt.trans (by decide))

theorem remove_shows (h : Held g c.desk) (ha : a ∈ c.desk.windows) (hbar : a ∉ c.desk.barWindow) (hlayer : a ∉ c.desk.layerWindow)
    (hshows : Shows g memory c) : Shows g memory (remove g memory a c) := by
  have hlies := h.lies a ha
  refine shows_repaint (h.toNamed.unlink hbar hlayer) hlies.right_lt hlies.bottom_lt fun x hx y hy hout => ?_
  rw [hshows x hx y hy, picture_unlink h.toNamed hbar hlayer (sight_eq_none fun hcovers => hout (hlies.covers.1 hcovers))]

theorem destroyWindow_shows (h : Held g c.desk) {badge id : ℕ} (hspares : Spares c (.call badge (.destroyWindow id)))
    (hshows : Shows g memory c) : Shows g memory (destroyWindow g memory badge id c).2 := by
  unfold destroyWindow
  cases howned : c.desk.owned badge id with
  | none => exact hshows
  | some a =>
    obtain ⟨hbar, hlayer⟩ := hspares a howned
    exact remove_shows h (owned_mem howned).1 hbar hlayer hshows

theorem reap_shows (h : Held g c.desk) {badge target : ℕ} (hspares : Spares c (.call badge (.reap target)))
    (hshows : Shows g memory c) : Shows g memory (reap g memory target c).2 := by
  have hreaped : Shows g memory (reapWindows g memory target c) := by
    refine (reap_induct (Q := fun l c' => Reaping g c target l c'.desk ∧ (∀ a ∈ l, a ∈ c'.desk.windows) ∧ l.Nodup ∧ Shows g memory c')
      ?_ ?_ ⟨Reaping.start h target, fun _ ha => ha, h.once, hshows⟩).2.2.2
    · rintro a l c' ⟨hreaping, hmem, hnodup, hshows⟩ howner
      exact ⟨hreaping.skip howner, fun b hb => hmem b (List.mem_cons_of_mem _ hb), (List.nodup_cons.1 hnodup).2, hshows⟩
    · rintro a l c' ⟨hreaping, hmem, hnodup, hshows⟩ howner
      obtain ⟨hbar, hlayer⟩ := hreaping.spares hspares howner
      refine ⟨hreaping.unlink hspares howner, fun b hb => ?_, (List.nodup_cons.1 hnodup).2,
        remove_shows hreaping.toHeld (hmem a List.mem_cons_self) hbar hlayer hshows⟩
      refine (List.mem_erase_of_ne ?_).2 (hmem b (List.mem_cons_of_mem _ hb))
      rintro rfl
      exact (List.nodup_cons.1 hnodup).1 hb
  exact hreaped

theorem raise_shows (h : Held g c.desk) {badge id : ℕ} (hshows : Shows g memory c) : Shows g memory (raise g memory badge id c).2 := by
  unfold raise restack
  cases hplain : c.desk.plain badge id with
  | none => exact hshows
  | some a =>
    obtain ⟨ha, hbackdrop⟩ := plain_mem hplain
    have hlies := h.lies a ha
    refine shows_repaint (h.raise ha hbackdrop).toNamed hlies.right_lt hlies.bottom_lt fun x hx y hy hout => ?_
    rw [hshows x hx y hy, picture_raise h.toNamed ha (sight_eq_none fun hcovers => hout (hlies.covers.1 hcovers))]

theorem lower_shows (h : Held g c.desk) {badge id : ℕ} (hshows : Shows g memory c) : Shows g memory (lower g memory badge id c).2 := by
  unfold lower restack
  cases hplain : c.desk.plain badge id with
  | none => exact hshows
  | some a =>
    obtain ⟨ha, hbackdrop⟩ := plain_mem hplain
    have hlies := h.lies a ha
    refine shows_repaint (h.lower ha hbackdrop).toNamed hlies.right_lt hlies.bottom_lt fun x hx y hy hout => ?_
    rw [hshows x hx y hy, picture_lower h.toNamed ha (sight_eq_none fun hcovers => hout (hlies.covers.1 hcovers))]

theorem picture_set_out {slices : List Slice} (h : Lies g d.slices (d.cell a)) (hw : Lies g slices w)
    (hbefore : ¬(((d.cell a).x ≤ x ∧ x < (d.cell a).x + (d.cell a).width) ∧ (d.cell a).y ≤ y ∧ y < (d.cell a).y + (d.cell a).height))
    (hafter : ¬((w.x ≤ x ∧ x < w.x + w.width) ∧ w.y ≤ y ∧ y < w.y + w.height)) :
    picture memory (d.set a w) x y = picture memory d x y := by
  have hright := hw.right_lt
  have hbottom := hw.bottom_lt
  refine picture_set (sight_eq_none fun hcovers => hbefore (h.covers.1 hcovers)) (sight_eq_none fun hcovers => hafter ?_)
  rwa [set_cell, Window.Covers, Nat.mod_eq_of_lt hright, Nat.mod_eq_of_lt hbottom] at hcovers

theorem resize_shows (h : Held g c.desk) {badge id width height : ℕ} (hshows : Shows g memory c) :
    Shows g memory (resize g memory badge id width height c).2 := by
  have hheld : Held g (resize g memory badge id width height c).2.desk := resize_held h
  unfold resize at hheld ⊢
  cases howned : c.desk.owned badge id with
  | none => exact hshows
  | some a =>
    rw [howned] at hheld
    dsimp only at hheld ⊢
    split_ifs at hheld ⊢
    · have ha := (owned_mem howned).1
      have hlies := h.lies a ha
      have hnew := hheld.lies a ha
      rw [set_cell] at hnew
      have hright := hlies.right_lt
      have hbottom := hlies.bottom_lt
      have hright' := hnew.right_lt
      have hbottom' := hnew.bottom_lt
      dsimp only at hright' hbottom'
      refine shows_repaint hheld.toNamed (by omega) (by omega) fun x hx y hy hout => ?_
      rw [hshows x hx y hy, picture_set_out hlies hnew (by omega) (by dsimp only; omega)]
    · exact hshows

/-! ## A damage -/

theorem clip_eq {r n size : ℕ} (h : r + n ≤ size) (hsize : size < 2 ^ 64) : clip r n size = n := by
  unfold clip
  rw [Nat.mod_eq_of_lt (by omega)]
  split_ifs <;> omega

theorem damage_shows (h : Held g c.desk) {badge id rx ry rw rh : ℕ} (hin : Redraws c (.call badge (.damage id rx ry rw rh)))
    (hclear : Clear c (.call badge (.damage id rx ry rw rh))) (hstill : Still memory memory' c (.call badge (.damage id rx ry rw rh)))
    (hshows : Shows g memory c) : Shows g memory' (damage g memory' badge id rx ry rw rh c).2 := by
  have hheld : Held g (damage g memory' badge id rx ry rw rh c).2.desk := damage_held h
  unfold damage at hheld ⊢
  cases howned : c.desk.owned badge id with
  | none =>
    intro x hx y hy
    have hdamaged : ∀ a, ¬ Damaged c (.call badge (.damage id rx ry rw rh)) a x y := by
      rintro a ⟨ha, -⟩
      rw [howned] at ha
      cases ha
    rw [picture_still h.toNamed hstill hdamaged]
    exact hshows x hx y hy
  | some a =>
    rw [howned] at hheld
    have ha := (owned_mem howned).1
    have hlies := h.lies a ha
    have hright := hlies.right_lt
    have hbottom := hlies.bottom_lt
    obtain ⟨hrx, hry⟩ := hin a howned
    dsimp only at hheld ⊢
    rw [clip_eq hrx (by omega), clip_eq hry (by omega), Nat.mod_eq_of_lt (by omega), Nat.mod_eq_of_lt (by omega)]
    have hrest : ∀ x < g.width, ∀ y < g.height, ¬(((c.desk.cell a).x + rx ≤ x ∧ x < (c.desk.cell a).x + rx + rw) ∧
        (c.desk.cell a).y + ry ≤ y ∧ y < (c.desk.cell a).y + ry + rh) →
        lifted g c.display x y = picture memory' (c.desk.set a { c.desk.cell a with shown := true }) x y := by
      intro x hx y hy hout
      have hdamaged : ∀ b, ¬ Damaged c (.call badge (.damage id rx ry rw rh)) b x y := by
        rintro b ⟨hb, hrect⟩
        rw [howned, Option.some.injEq] at hb
        subst hb
        exact hout hrect
      rw [hshows x hx y hy, ← picture_still h.toNamed hstill hdamaged]
      rcases hclear a howned with hshown | ⟨rfl, rfl, rfl, rfl⟩
      · -- it was seen before
        have hsame : { c.desk.cell a with shown := true } = c.desk.cell a := by rw [← hshown]
        rw [hsame, Desk.set, Function.update_eq_self]
      · exact (picture_set_out hlies (hheld.lies a ha |> fun hnew => by rwa [set_cell] at hnew) (by omega) (by dsimp only; omega)).symm
    split_ifs with hempty
    · exact shows_repaint hheld.toNamed (by omega) (by omega) hrest
    · intro x hx y hy
      exact hrest x hx y hy (by omega)

/-! ## A move -/

theorem side_screen (memory : ℕ → Pixel) (h : Named d) {kx ax ay width height : ℕ} {dx : ℤ} (hkx : (kx : ℤ) = ax - dx) (hax : ax + width < 2 ^ 63)
    (hay : ay + height < 2 ^ 63) (hkw : kx + width < 2 ^ 63) (hx : x < g.width) (hy : y < g.height) (p : Display) :
    (if 0 < dx then compositeRect g memory d (sub64 ((ax + width) % 2 ^ 64) dx.toNat) ay dx.toNat height p
      else if dx < 0 then compositeRect g memory d ax ay (-dx).toNat height p else p).screen x y =
      if (kx + width ≤ x ∧ x < ax + width ∨ ax ≤ x ∧ x < kx) ∧ ay ≤ y ∧ y < ay + height then picture memory d x y
      else p.screen x y := by
  rw [Nat.mod_eq_of_lt (by omega)]
  split_ifs with hpos hin hneg
  · rw [sub64_of_le (by omega) (by omega), compositeRect_screen h (by omega) (by omega) hx hy, if_pos (by omega)]
  · rw [sub64_of_le (by omega) (by omega), compositeRect_screen h (by omega) (by omega) hx hy, if_neg (by omega)]
  · rw [compositeRect_screen h (by omega) (by omega) hx hy, if_pos (by omega)]
  · rw [compositeRect_screen h (by omega) (by omega) hx hy, if_neg (by omega)]
  · omega
  · rfl

theorem compositeUncovered_screen (memory : ℕ → Pixel) (h : Named d) (kx ky ax ay width height : ℕ) (dx dy : ℤ) (hkx : (kx : ℤ) = ax - dx)
    (hky : (ky : ℤ) = ay - dy) (hax : ax + width < 2 ^ 63) (hay : ay + height < 2 ^ 63) (hkw : kx + width < 2 ^ 63)
    (hkh : ky + height < 2 ^ 63) (hx : x < g.width) (hy : y < g.height) (p : Display) :
    ((compositeUncovered g memory d kx ax ay width height dx dy p).screen x y = picture memory d x y ∨
      (compositeUncovered g memory d kx ax ay width height dx dy p).screen x y = p.screen x y) ∧
    ((ax ≤ x ∧ x < ax + width) ∧ ay ≤ y ∧ y < ay + height → ¬((kx ≤ x ∧ x < kx + width) ∧ ky ≤ y ∧ y < ky + height) →
      (compositeUncovered g memory d kx ax ay width height dx dy p).screen x y = picture memory d x y) := by
  have hside := side_screen memory h hkx hax hay hkw hx hy p
  unfold compositeUncovered
  dsimp only
  generalize (if 0 < dx then _ else _ : Display) = q at hside
  rw [Nat.mod_eq_of_lt (by omega), Nat.mod_eq_of_lt (by omega)]
  split_ifs with hempty hpos hneg
  · rw [hside]
    split_ifs with hin
    · exact ⟨.inl rfl, fun _ _ => rfl⟩
    · exact ⟨.inr rfl, fun _ _ => by omega⟩
  · rw [sub64_of_le (by omega) (by omega), compositeRect_screen h (by omega) (by omega) hx hy, hside]
    split_ifs with hband hin
    · exact ⟨.inl rfl, fun _ _ => rfl⟩
    · exact ⟨.inl rfl, fun _ _ => rfl⟩
    · exact ⟨.inr rfl, fun _ _ => by omega⟩
  · rw [compositeRect_screen h (by omega) (by omega) hx hy, hside]
    split_ifs with hband hin
    · exact ⟨.inl rfl, fun _ _ => rfl⟩
    · exact ⟨.inl rfl, fun _ _ => rfl⟩
    · exact ⟨.inr rfl, fun _ _ => by omega⟩
  · rw [hside]
    split_ifs with hin
    · exact ⟨.inl rfl, fun _ _ => rfl⟩
    · exact ⟨.inr rfl, fun _ _ => by omega⟩

theorem shift_screen (x0 x1 y0 y1 : ℕ) (dx dy : ℤ) (p : Display) :
    (shift x0 x1 y0 y1 dx dy p).screen x y =
      if (x0 ≤ x ∧ x < x1) ∧ y0 ≤ y ∧ y < y1 then p.screen (x - dx).toNat (y - dy).toNat else p.screen x y := by
  unfold shift
  dsimp only
  split_ifs with hdy
  · rw [shiftRows_down hdy, if_pos (by assumption)]
  · rw [shiftRows_down hdy, if_neg (by assumption)]
  · rw [shiftRows_up (by omega), if_pos (by assumption)]
  · rw [shiftRows_up (by omega), if_neg (by assumption)]

theorem strips_screen (h : Named d) (oldX oldY newX newY width height : ℕ) (hold : oldX + width < 2 ^ 63 ∧ oldY + height < 2 ^ 63)
    (hnew : newX + width < 2 ^ 63 ∧ newY + height < 2 ^ 63) (hx : x < g.width) (hy : y < g.height) (p : Display)
    (hboth : (oldX ≤ x ∧ x < oldX + width) ∧ oldY ≤ y ∧ y < oldY + height → (newX ≤ x ∧ x < newX + width) ∧ newY ≤ y ∧ y < newY + height →
      p.screen (x - ((newX : ℤ) - oldX)).toNat (y - ((newY : ℤ) - oldY)).toNat = picture memory d x y)
    (hneither : ¬((oldX ≤ x ∧ x < oldX + width) ∧ oldY ≤ y ∧ y < oldY + height) →
      ¬((newX ≤ x ∧ x < newX + width) ∧ newY ≤ y ∧ y < newY + height) → p.screen x y = picture memory d x y) :
    (compositeUncovered g memory d newX oldX oldY width height (-((newX : ℤ) - oldX)) (-((newY : ℤ) - oldY))
      (compositeUncovered g memory d oldX newX newY width height ((newX : ℤ) - oldX) ((newY : ℤ) - oldY)
        (shift (max oldX newX) (min (oldX + width) (newX + width)) (max oldY newY) (min (oldY + height) (newY + height))
          ((newX : ℤ) - oldX) ((newY : ℤ) - oldY) p))).screen x y = picture memory d x y := by
  have hshift := shift_screen (x := x) (y := y) (max oldX newX) (min (oldX + width) (newX + width)) (max oldY newY)
    (min (oldY + height) (newY + height)) ((newX : ℤ) - oldX) ((newY : ℤ) - oldY) p
  generalize shift (max oldX newX) (min (oldX + width) (newX + width)) (max oldY newY) (min (oldY + height) (newY + height))
    ((newX : ℤ) - oldX) ((newY : ℤ) - oldY) p = q at hshift
  have hfirst := compositeUncovered_screen memory h oldX oldY newX newY width height ((newX : ℤ) - oldX)
    ((newY : ℤ) - oldY) (by omega) (by omega) hnew.1 hnew.2 hold.1 hold.2 hx hy q
  generalize compositeUncovered g memory d oldX newX newY width height ((newX : ℤ) - oldX) ((newY : ℤ) - oldY) q = r at hfirst
  have hsecond := compositeUncovered_screen memory h newX newY oldX oldY width height (-((newX : ℤ) - oldX))
    (-((newY : ℤ) - oldY)) (by omega) (by omega) hold.1 hold.2 hnew.1 hnew.2 hx hy r
  obtain ⟨hkeep, hrevealed⟩ := hfirst
  obtain ⟨hkeep', huncovered⟩ := hsecond
  -- once the first strips leave the picture, the second do
  have hlast : r.screen x y = picture memory d x y → _ := fun hr => hkeep'.elim id fun heq => heq.trans hr
  by_cases hin : (oldX ≤ x ∧ x < oldX + width) ∧ oldY ≤ y ∧ y < oldY + height
  · by_cases hin' : (newX ≤ x ∧ x < newX + width) ∧ newY ≤ y ∧ y < newY + height
    · rw [if_pos (by omega), hboth hin hin'] at hshift
      exact hlast (hkeep.elim id fun heq => heq.trans hshift)
    · exact huncovered hin hin'
  · by_cases hin' : (newX ≤ x ∧ x < newX + width) ∧ newY ≤ y ∧ y < newY + height
    · exact hlast (hrevealed hin' hin)
    · rw [if_neg (by omega), hneither hin hin'] at hshift
      exact hlast (hkeep.elim id fun heq => heq.trans hshift)

theorem picture_own (memory : ℕ → Pixel) (h : Named d) (hlast : d.windows.getLast? = some a) (hshown : (d.cell a).shown = true)
    (hcovers : (d.cell a).Covers x y) (hover : ¬ d.Overlaid a x y) : picture memory d x y = memory ((d.cell a).address x y) := by
  have hsight : d.sight memory x y a = some (memory ((d.cell a).address x y)) := if_pos ⟨hshown, hcovers⟩
  have hnone : ∀ b, ¬(b ≠ a ∧ (d.cell b).shown = true ∧ (d.cell b).Covers x y) →
      d.sight memory x y b = none ∨ d.sight memory x y b = d.sight memory x y a := by
    intro b hb
    by_cases hba : b = a
    · exact .inr (congrArg _ hba)
    · exact .inl (if_neg fun hseen => hb ⟨hba, hseen⟩)
  -- a mark is the window's own, or there is none
  have hmark : ∀ source : Option ℕ, (∀ b ∈ source, ¬(b ≠ a ∧ (d.cell b).shown = true ∧ (d.cell b).Covers x y)) →
      source.bind (d.sight memory x y) = none ∨ source.bind (d.sight memory x y) = d.sight memory x y a := by
    intro source hsource
    cases source with
    | none => exact .inl rfl
    | some b => exact hnone b (hsource b rfl)
  have hmarks : d.marks memory x y = none ∨ d.marks memory x y = d.sight memory x y a := by
    have hbar : (if y < d.barHeight then d.mark memory x y d.barWindow else none) = none ∨
        (if y < d.barHeight then d.mark memory x y d.barWindow else none) = d.sight memory x y a := by
      split_ifs with hrow
      · rw [mark_eq h.bar]
        exact hmark _ fun b hb hseen => hover (.inl ⟨hrow, b, hb, hseen⟩)
      · exact .inl rfl
    have hlayer : (if d.InLayer x y then d.mark memory x y d.layerWindow else none) = none ∨
        (if d.InLayer x y then d.mark memory x y d.layerWindow else none) = d.sight memory x y a := by
      split_ifs with hin
      · rw [mark_eq h.layer]
        exact hmark _ fun b hb hseen => hover (.inr ⟨hin, b, hb, hseen⟩)
      · exact .inl rfl
    rw [Desk.marks]
    rcases hlayer with hlayer | hlayer
    · rwa [hlayer, Option.none_or]
    · rw [hlayer, hsight, Option.some_or]
      exact .inr rfl
  have htop : (d.windows.filterMap (d.sight memory x y)).getLast? = some (memory ((d.cell a).address x y)) := by
    obtain ⟨below, hbelow⟩ := List.getLast?_eq_some_iff.1 hlast
    rw [hbelow, List.filterMap_append, List.filterMap_cons_some hsight, List.filterMap_nil, List.getLast?_concat]
  rw [picture, htop]
  rcases hmarks with hmarks | hmarks
  · rw [hmarks, Option.none_or, Option.getD_some]
  · rw [hmarks, hsight, Option.some_or, Option.getD_some]

theorem overlaid_set : (d.set a w).Overlaid a x y ↔ d.Overlaid a x y := by
  have hseen : ∀ b, b ≠ a → (d.set a w).cell b = d.cell b := fun b hb => Function.update_of_ne hb _ _
  unfold Desk.Overlaid
  constructor
  · rintro (⟨hrow, b, hb, hne, hshown, hcovers⟩ | ⟨hin, b, hb, hne, hshown, hcovers⟩)
    · rw [hseen b hne] at hshown hcovers
      exact .inl ⟨hrow, b, hb, hne, hshown, hcovers⟩
    · rw [hseen b hne] at hshown hcovers
      exact .inr ⟨hin, b, hb, hne, hshown, hcovers⟩
  · rintro (⟨hrow, b, hb, hne, hshown, hcovers⟩ | ⟨hin, b, hb, hne, hshown, hcovers⟩)
    · rw [← hseen b hne] at hshown hcovers
      exact .inl ⟨hrow, b, hb, hne, hshown, hcovers⟩
    · rw [← hseen b hne] at hshown hcovers
      exact .inr ⟨hin, b, hb, hne, hshown, hcovers⟩

def repaintUnion (g : Screen) (memory : ℕ → Pixel) (d : Desk) (a oldX oldY : ℕ) (p : Display) : Display :=
  let w := d.cell a
  repaint g memory d (min oldX w.x) (min oldY w.y) (max (oldX + w.width) (w.x + w.width) - min oldX w.x)
    (max (oldY + w.height) (w.y + w.height) - min oldY w.y) p

theorem picture_moved {newX newY : ℕ} (hlies : Lies g d.slices (d.cell a)) (hnew : Lies g d.slices { d.cell a with x := newX, y := newY })
    (hold : ¬ (d.cell a).Covers x y) (hnot : ¬ Window.Covers { d.cell a with x := newX, y := newY } x y) :
    picture memory (d.set a { d.cell a with x := newX, y := newY }) x y = picture memory d x y :=
  picture_set_out hlies hnew (fun hin => hold (hlies.covers.2 hin)) fun hin => hnot (hnew.covers.2 hin)

theorem repaintUnion_shows (memory : ℕ → Pixel) (h : Held g d) (ha : a ∈ d.windows) {newX newY : ℕ}
    (hnew : Lies g d.slices { d.cell a with x := newX, y := newY })
    (hshows : ∀ x < g.width, ∀ y < g.height, lifted g p x y = picture memory d x y) :
    Shows g memory ⟨d.set a { d.cell a with x := newX, y := newY },
      repaintUnion g memory (d.set a { d.cell a with x := newX, y := newY }) a (d.cell a).x (d.cell a).y p⟩ := by
  have hlies := h.lies a ha
  have hright := hlies.right_lt
  have hbottom := hlies.bottom_lt
  have hright' := hnew.right_lt
  have hbottom' := hnew.bottom_lt
  dsimp only at hright' hbottom'
  unfold repaintUnion
  rw [set_cell]
  dsimp only
  refine shows_repaint (h.set ha hnew rfl rfl).toNamed (by omega) (by omega) fun x hx y hy hnotin => ?_
  rw [hshows x hx y hy, picture_moved hlies hnew]
  · rw [hlies.covers]
    omega
  · rw [hnew.covers]
    dsimp only
    omega

theorem repaintMove_shows (h : Held g d) (ha : a ∈ d.windows) {newX newY : ℕ}
    (hnew : Lies g d.slices { d.cell a with x := newX, y := newY }) (hown : ShiftsOwn d a newX newY)
    (hshows : ∀ x < g.width, ∀ y < g.height, lifted g p x y = picture memory d x y) :
    Shows g memory ⟨d.set a { d.cell a with x := newX, y := newY },
      repaintMove g memory (d.set a { d.cell a with x := newX, y := newY }) a (d.cell a).x (d.cell a).y p⟩ := by
  have hlies := h.lies a ha
  have hnamed : Named (d.set a { d.cell a with x := newX, y := newY }) := (h.set ha hnew rfl rfl).toNamed
  have hright := hlies.right
  have hbottom := hlies.bottom
  have hright' := hnew.right
  have hbottom' := hnew.bottom
  have hwidth := g.width_lt
  have hheight := g.height_lt
  have hcovers : ∀ {x y : ℕ}, Window.Covers { d.cell a with x := newX, y := newY } x y ↔
      (newX ≤ x ∧ x < newX + (d.cell a).width) ∧ newY ≤ y ∧ y < newY + (d.cell a).height := fun {x y} => hnew.covers
  dsimp only at hright' hbottom'
  unfold repaintMove
  rw [set_cell]
  dsimp only
  rw [Nat.mod_eq_of_lt (by omega), Nat.mod_eq_of_lt (by omega), Nat.mod_eq_of_lt (by omega), Nat.mod_eq_of_lt (by omega)]
  split_ifs with hstays hgeneral
  · have hsame : { d.cell a with x := newX, y := newY } = d.cell a := by
      have hx : newX = (d.cell a).x := by omega
      have hy : newY = (d.cell a).y := by omega
      rw [hx, hy]
    intro x hx y hy
    rw [hsame, Desk.set, Function.update_eq_self]
    exact hshows x hx y hy
  · have hunion := repaintUnion_shows memory h ha hnew hshows
    rw [repaintUnion, set_cell] at hunion
    rw [sub64_of_le (by omega) (by omega), sub64_of_le (by omega) (by omega)]
    exact hunion
  · rw [not_or, not_not, Bool.not_eq_false] at hgeneral
    obtain ⟨hlast, hshown⟩ := hgeneral
    replace hlast : d.windows.getLast? = some a := hlast
    intro x hx y hy
    rw [lifted_cursorDraw]
    refine strips_screen hnamed _ _ _ _ _ _ (by omega) (by omega) hx hy _ (fun hin hin' => ?_) fun hin hin' => ?_
    · have hold : (d.cell a).Covers x y := hlies.covers.2 hin
      have hnow : Window.Covers { d.cell a with x := newX, y := newY } x y := hcovers.2 hin'
      obtain ⟨hover, hover'⟩ := hown hlast hshown x y hold hnow
      have hsource : (d.cell a).Covers (x - ((newX : ℤ) - (d.cell a).x)).toNat (y - ((newY : ℤ) - (d.cell a).y)).toNat := by
        rw [hlies.covers]
        omega
      have hbefore := hshows (x - ((newX : ℤ) - (d.cell a).x)).toNat (by omega) (y - ((newY : ℤ) - (d.cell a).y)).toNat (by omega)
      rw [picture_own memory h.toNamed hlast hshown hsource hover'] at hbefore
      have hafter := picture_own memory hnamed hlast (by rwa [set_cell]) (by rwa [set_cell]) (mt overlaid_set.1 hover)
      rw [set_cell] at hafter
      rw [hafter]
      refine hbefore.trans (congrArg memory ?_)
      rw [Window.address, Window.address]
      have hrow : (y - ((newY : ℤ) - (d.cell a).y)).toNat - (d.cell a).y = y - newY := by omega
      have hcolumn : (x - ((newX : ℤ) - (d.cell a).x)).toNat - (d.cell a).x = x - newX := by omega
      rw [hrow, hcolumn]
    · exact (hshows x hx y hy).trans (picture_moved hlies hnew (mt hlies.covers.1 hin) (mt hcovers.1 hin')).symm

theorem move_shows (h : Held g c.desk) {badge id newX newY : ℕ} (hclear : Clear c (.call badge (.move id newX newY)))
    (hshows : Shows g memory c) : Shows g memory (move g memory badge id newX newY c).2 := by
  have hheld : Held g (move g memory badge id newX newY c).2.desk := move_held h
  unfold move at hheld ⊢
  cases howned : c.desk.owned badge id with
  | none => exact hshows
  | some a =>
    rw [howned] at hheld
    dsimp only at hheld ⊢
    split_ifs at hheld ⊢
    · exact hshows
    · have ha := (owned_mem howned).1
      have hnew := hheld.lies a ha
      rw [set_cell] at hnew
      exact repaintMove_shows h ha hnew (hclear a howned) hshows

theorem move_union (h : Held g c.desk) {badge id newX newY : ℕ} (hclear : Clear c (.call badge (.move id newX newY)))
    (hshows : Shows g memory c) (howned : c.desk.owned badge id = some a) (htaken : (move g memory badge id newX newY c).1 = [1])
    (hx : x < g.width) (hy : y < g.height) :
    lifted g (move g memory badge id newX newY c).2.display x y =
      lifted g (repaintUnion g memory (move g memory badge id newX newY c).2.desk a (c.desk.cell a).x (c.desk.cell a).y c.display) x y := by
  have hheld : Held g (move g memory badge id newX newY c).2.desk := move_held h
  have hmoved := move_shows h hclear hshows x hx y hy
  rw [hmoved]
  unfold move at hheld htaken ⊢
  rw [howned] at hheld htaken ⊢
  dsimp only at hheld htaken ⊢
  split_ifs at hheld htaken ⊢
  · simp at htaken
  · have ha := (owned_mem howned).1
    have hnew := hheld.lies a ha
    rw [set_cell] at hnew
    exact (repaintUnion_shows memory h ha hnew hshows x hx y hy).symm

/-! ## Runs -/

theorem serve_shows {e : Event} (h : Held g c.desk) (hredraws : Redraws c e) (hspares : Spares c e) (hclear : Clear c e)
    (hstill : Still memory memory' c e) (hshows : Shows g memory c) : Shows g memory' (serve g memory' c e).2 := by
  cases e with
  | drain => cases hredraws
  | call badge call =>
    -- but for a damage, the backings show what they showed
    have hshows' : (∀ a x y, ¬ Damaged c (.call badge call) a x y) → Shows g memory' c := by
      intro hdamaged x hx y hy
      rw [picture_still h.toNamed hstill fun a => hdamaged a x y]
      exact hshows x hx y hy
    cases call with
    | damage => exact damage_shows h hredraws hclear hstill hshows
    | destroyWindow => exact destroyWindow_shows h hspares (hshows' fun _ _ _ => id)
    | reap => exact reap_shows h hspares (hshows' fun _ _ _ => id)
    | move => exact move_shows h hclear (hshows' fun _ _ _ => id)
    | raise => exact raise_shows h (hshows' fun _ _ _ => id)
    | lower => exact lower_shows h (hshows' fun _ _ _ => id)
    | resize => exact resize_shows h (hshows' fun _ _ _ => id)
    | attach => cases hredraws
    | createWindow => cases hredraws
    | focus => cases hredraws
    | info => cases hredraws
    | screenBar => cases hredraws
    | screenLayer => cases hredraws

theorem reaches_held (h : Reaches g Spares c) : Held g c.desk :=
  h.induct (Q := fun c => Held g c.desk) g Held.start fun _ _ _ hc hturn => serve_held hc hturn

/-- The incremental screen is the picture, a move leaves what its union composited would, and the
cursor restores what it covered. -/
theorem reaches_shows (hreach : Reaches g Spares c) {e : Event} (hredraws : Redraws c e) (hspares : Spares c e) (hclear : Clear c e)
    (hstill : Still memory memory' c e) (hshows : Shows g memory c) :
    Shows g memory' (serve g memory' c e).2 ∧
    (∀ badge id newX newY a, e = .call badge (.move id newX newY) → c.desk.owned badge id = some a →
      (serve g memory' c e).1 = [1] → ∀ x < g.width, ∀ y < g.height,
        lifted g (serve g memory' c e).2.display x y =
          lifted g (repaintUnion g memory' (serve g memory' c e).2.desk a (c.desk.cell a).x (c.desk.cell a).y c.display) x y) ∧
    ∀ (d : Desk) (p : Display), (cursorErase g (cursorDraw g d p)).screen = p.screen := by
  have hheld := reaches_held hreach
  refine ⟨serve_shows hheld hredraws hspares hclear hstill hshows, ?_, cursorErase_cursorDraw g⟩
  rintro badge id newX newY a rfl howned htaken x hx y hy
  have hshows' : Shows g memory' c := by
    intro x hx y hy
    rw [picture_still hheld.toNamed hstill fun _ => not_false]
    exact hshows x hx y hy
  exact move_union hheld hclear hshows' howned htaken hx hy

def smallScreen : Screen := ⟨3, 1, by decide, by decide⟩

def twoColours (address : ℕ) : Pixel := if address < 4096 then 7 else 5

def backdropUp : List Event :=
  [.call 1 (.attach 8192 (some 0)), .call 1 (.createWindow 0 0 3 1 0 1 true), .call 1 (.damage 1 0 0 3 1)]

def windowUp : List Event := [.call 1 (.createWindow 0 0 2 1 4096 0 true), .call 1 (.damage 2 0 0 2 1)]

def windowAlone : St := turns smallScreen twoColours (backdropUp ++ windowUp) (.start smallScreen)

def moveByOne : Event := .call 1 (.move 2 1 0)

set_option maxRecDepth 20000 in
theorem reaches_shows_sample : Shows smallScreen twoColours (serve smallScreen twoColours windowAlone moveByOne).2 := by
  have hreach : Reaches smallScreen Spares windowAlone := by
    refine Reaches.start.turns _ _ fun e he c => ?_
    simp only [backdropUp, windowUp, List.cons_append, List.nil_append, List.mem_cons, List.not_mem_nil, or_false] at he
    rcases he with rfl | rfl | rfl | rfl | rfl <;> trivial
  have hbar : windowAlone.desk.barWindow = none := by decide
  have hlayer : windowAlone.desk.layerWindow = none := by decide
  have hclear : Clear windowAlone moveByOne := by
    intro a _ _ _ px py _ _
    simp [Desk.Overlaid, hbar, hlayer]
  have hshows : Shows smallScreen twoColours windowAlone := by decide
  exact (reaches_shows (e := moveByOne) hreach trivial trivial hclear (fun _ _ _ _ _ _ _ => rfl) hshows).1

def windowUnderLayer : St :=
  turns smallScreen twoColours (backdropUp ++ .call 1 (.screenLayer 0 0 1 1) :: windowUp) (.start smallScreen)

set_option maxRecDepth 20000 in
/-- The window is moved, and the menu's pixel goes with it. -/
theorem shift_drags_layer : ¬ ∀ (g : Screen) (c : St) (e : Event) (memory : ℕ → Pixel), Reaches g (fun _ _ => True) c → Redraws c e →
    Still memory memory c e → Shows g memory c → Shows g memory (serve g memory c e).2 := by
  intro h
  have hreach : Reaches smallScreen (fun _ _ => True) windowUnderLayer := Reaches.start.turns _ _ fun _ _ _ => trivial
  have hshows : Shows smallScreen twoColours windowUnderLayer := by decide
  have hmoved := h smallScreen windowUnderLayer moveByOne twoColours hreach trivial (fun _ _ _ _ _ _ _ => rfl) hshows
  have hpixel : lifted smallScreen (serve smallScreen twoColours windowUnderLayer moveByOne).2.display 1 0 ≠
      picture twoColours (serve smallScreen twoColours windowUnderLayer moveByOne).2.desk 1 0 := by decide
  exact hpixel (hmoved 1 (by decide) 0 (by decide))

end Aegir.Console
