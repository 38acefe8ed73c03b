/-
  A composite reads what is a live window's.
-/
import Aegir.Console.Windows

namespace Aegir.Console

open Aegir.Lib Display

variable {g : Screen} {d : Desk} {c : St} {a : ℕ} {w : Window} {memory : ℕ → Pixel} {p : Display}

structure Sound (g : Screen) (c : St) : Prop where
  inside : ∀ a ∈ c.desk.windows, (c.desk.cell a).x + (c.desk.cell a).width ≤ g.width ∧
    (c.desk.cell a).y + (c.desk.cell a).height ≤ g.height
  /-- The backing is in the owner's live slice, as integers. -/
  backed : ∀ a ∈ c.desk.windows, ∃ slice, c.desk.findSlice (c.desk.cell a).owner = some slice ∧ (c.desk.cell a).slice = slice ∧
    (c.desk.cell a).offset + (c.desk.cell a).width * (c.desk.cell a).height * 4 ≤ slice.bytes
  named : Named c.desk
  order : c.desk.windows.Pairwise fun a b => (c.desk.cell b).backdrop = true → (c.desk.cell a).backdrop = true
  once : (c.desk.windows.map fun a => (c.desk.cell a).id).Nodup
  reads : ∀ access ∈ c.display.reads, access.Inside

/-- The end of the backing asked for does not wrap. -/
def Measures (c : St) : Event → Prop
  | .call _ (.createWindow _ _ width height offset _ _) => offset + width * height * 4 < 2 ^ 64
  | .call badge (.resize id width height) =>
    ∀ a, c.desk.owned badge id = some a → (c.desk.cell a).offset + width * height * 4 < 2 ^ 64
  | _ => True

def Backed (d : Desk) : Prop := ∀ a ∈ d.windows, (d.cell a).offset + (d.cell a).width * (d.cell a).height * 4 ≤ (d.cell a).slice.bytes

def Display.Kept (p : Display) : Prop := ∀ access ∈ p.reads, access.Inside

structure Framed (g : Screen) (c : St) : Prop extends Held g c.desk where
  backed : Backed c.desk
  kept : c.display.Kept

/-! ## One word -/

theorem address_inside (h : Held g d) (hbacked : Backed d) (ha : a ∈ d.windows) {x y : ℕ} (hcovers : (d.cell a).Covers x y) :
    Access.Inside ⟨(d.cell a).address x y, d.live⟩ := by
  have hlies := h.lies a ha
  obtain ⟨⟨hx, hright⟩, hy, hbottom⟩ := hlies.covers.1 hcovers
  have hbytes := hbacked a ha
  have hmapped := (d.cell a).slice.mapped
  have hrow : (y - (d.cell a).y) * (d.cell a).width + (x - (d.cell a).x) + 1 ≤ (d.cell a).width * (d.cell a).height := by
    calc (y - (d.cell a).y) * (d.cell a).width + (x - (d.cell a).x) + 1
        ≤ (y - (d.cell a).y) * (d.cell a).width + (d.cell a).width := by omega
      _ = (d.cell a).width * (y - (d.cell a).y + 1) := by ring
      _ ≤ (d.cell a).width * (d.cell a).height := Nat.mul_le_mul_left _ (by omega)
  rw [Slice.bytes] at hbytes
  refine ⟨(d.cell a).backing, List.mem_map.2 ⟨a, List.mem_filter.2 ⟨ha, by simpa using hlies.slice⟩, rfl⟩, ?_, ?_⟩
  · show (d.cell a).slice.base + (d.cell a).offset ≤ (d.cell a).address x y
    rw [Window.address, Nat.mod_eq_of_lt (by omega)]
    omega
  · show (d.cell a).address x y + 4 ≤ (d.cell a).slice.base + (d.cell a).offset + (d.cell a).width * (d.cell a).height * 4
    rw [Window.address, Nat.mod_eq_of_lt (by omega)]
    omega

theorem copy_kept (h : Held g d) (hbacked : Backed d) (hp : p.Kept) (ha : a ∈ d.windows) {x y : ℕ} (hcovers : (d.cell a).Covers x y) :
    (copy memory d (d.cell a) p x y).Kept := by
  intro access hmem
  rcases List.mem_cons.1 hmem with rfl | hmem
  · exact address_inside h hbacked ha hcovers
  · exact hp access hmem

/-! ## A composite -/

theorem windowPixel_kept (h : Held g d) (hbacked : Backed d) (hp : p.Kept) {source : Option ℕ} (hsource : ∀ a ∈ source, a ∈ d.windows)
    (x y : ℕ) : (windowPixel memory d source p x y).Kept := by
  cases source with
  | none => exact hp
  | some a =>
    unfold windowPixel
    dsimp only
    split_ifs with hcovers
    · exact copy_kept h hbacked hp (hsource a rfl) hcovers.2
    · exact hp

theorem drawWindow_kept (h : Held g d) (hbacked : Backed d) (hp : p.Kept) (ha : a ∈ d.windows) (sx ex sy ey : ℕ) :
    (drawWindow memory d sx ex sy ey p a).Kept := by
  unfold drawWindow
  dsimp only
  split_ifs
  · refine foldl_keeps (P := Display.Kept) (fun px hpx p hp => ?_) hp
    simp only [mem_pixels] at hpx
    refine copy_kept h hbacked hp ha ⟨⟨?_, ?_⟩, ?_, ?_⟩ <;> omega
  · exact hp

theorem overlay_kept (h : Held g d) (hbacked : Backed d) (hp : p.Kept) (px : ℕ × ℕ) : (overlay memory d p px).Kept := by
  have hbar : (windowPixel memory d d.barWindow p px.1 px.2).Kept := windowPixel_kept h hbacked hp h.bar px.1 px.2
  unfold overlay
  dsimp only
  split_ifs
  · exact windowPixel_kept h hbacked hbar h.layer px.1 px.2
  · exact windowPixel_kept h hbacked hp h.layer px.1 px.2
  · exact hbar
  · exact hp

theorem compositeRect_kept (h : Held g d) (hbacked : Backed d) (hp : p.Kept) (sx sy width height : ℕ) :
    (compositeRect g memory d sx sy width height p).Kept := by
  unfold compositeRect
  split_ifs
  · exact hp
  · refine foldl_keeps (P := Display.Kept) (fun px _ p hp => overlay_kept h hbacked hp px) ?_
    refine foldl_keeps (P := Display.Kept) (fun a ha p hp => drawWindow_kept h hbacked hp ha _ _ _ _) ?_
    exact foldl_keeps (P := Display.Kept) (fun (px : ℕ × ℕ) _ p hp => show (p.put px.1 px.2 kBackdrop).Kept from hp) hp

/-! ## The cursor, and a move -/

theorem cursorDraw_reads : (cursorDraw g d p).reads = p.reads := by
  have hturn : ∀ originX originY px p, (cursorDrawAt g originX originY p px).reads = p.reads := by
    intro originX originY px p
    unfold cursorDrawAt
    dsimp only
    split_ifs <;> rfl
  unfold cursorDraw
  dsimp only
  rw [foldl_off Display.reads fun px _ p => hturn _ _ px p]

theorem cursorErase_reads : (cursorErase g p).reads = p.reads := by
  have hturn : ∀ originX originY px p, (cursorEraseAt g originX originY p px).reads = p.reads := by
    intro originX originY px p
    unfold cursorEraseAt
    dsimp only
    split_ifs <;> rfl
  unfold cursorErase
  split_ifs
  · dsimp only
    rw [foldl_off Display.reads fun px _ p => hturn _ _ px p]
  · rfl

theorem cursorDraw_kept (hp : p.Kept) : (cursorDraw g d p).Kept := by
  intro access hmem
  rw [cursorDraw_reads] at hmem
  exact hp access hmem

theorem cursorErase_kept (hp : p.Kept) : (cursorErase g p).Kept := by
  intro access hmem
  rw [cursorErase_reads] at hmem
  exact hp access hmem

theorem repaint_kept (h : Held g d) (hbacked : Backed d) (hp : p.Kept) (sx sy width height : ℕ) :
    (repaint g memory d sx sy width height p).Kept := by
  unfold repaint
  split_ifs
  · exact hp
  · exact cursorDraw_kept (compositeRect_kept h hbacked (cursorErase_kept hp) _ _ _ _)

theorem compositeUncovered_kept (h : Held g d) (hbacked : Backed d) (hp : p.Kept) (kx ax ay width height : ℕ) (dx dy : ℤ) :
    (compositeUncovered g memory d kx ax ay width height dx dy p).Kept := by
  have hside : (if 0 < dx then compositeRect g memory d (sub64 ((ax + width) % 2 ^ 64) dx.toNat) ay dx.toNat height p
      else if dx < 0 then compositeRect g memory d ax ay (-dx).toNat height p else p).Kept := by
    split_ifs
    · exact compositeRect_kept h hbacked hp _ _ _ _
    · exact compositeRect_kept h hbacked hp _ _ _ _
    · exact hp
  unfold compositeUncovered
  dsimp only
  generalize (if 0 < dx then _ else _ : Display) = q at hside
  split_ifs
  · exact hside
  · exact compositeRect_kept h hbacked hside _ _ _ _
  · exact compositeRect_kept h hbacked hside _ _ _ _
  · exact hside

theorem repaintMove_kept (h : Held g d) (hbacked : Backed d) (hp : p.Kept) (a oldX oldY : ℕ) :
    (repaintMove g memory d a oldX oldY p).Kept := by
  unfold repaintMove
  dsimp only
  split_ifs
  · exact hp
  · exact repaint_kept h hbacked hp _ _ _ _
  · refine cursorDraw_kept (compositeUncovered_kept h hbacked (compositeUncovered_kept h hbacked ?_ _ _ _ _ _ _ _) _ _ _ _ _ _ _)
    exact cursorErase_kept hp

/-! ## The turns -/

theorem Backed.mono (h : Backed d) {d' : Desk} (hcell : d'.cell = d.cell) (hwindows : ∀ a ∈ d'.windows, a ∈ d.windows) : Backed d' := by
  intro a ha
  rw [hcell]
  exact h a (hwindows a ha)

theorem Backed.unlink (h : Backed d) (a : ℕ) : Backed (d.unlink a) :=
  h.mono rfl fun _ hb => List.mem_of_mem_erase hb

theorem Backed.set (h : Backed d) (a : ℕ) (hbytes : w.offset + w.width * w.height * 4 ≤ w.slice.bytes) : Backed (d.set a w) := by
  intro b hb
  by_cases hba : b = a
  · subst hba
    simpa [Desk.set] using hbytes
  · simpa [Desk.set, Function.update_of_ne hba] using h b hb

theorem Backed.insert (h : Backed d) (hbytes : w.offset + w.width * w.height * 4 ≤ w.slice.bytes) : Backed (d.insert a w) := by
  intro b hb
  have hmem : b = a ∨ b ∈ d.windows := by
    cases hback : w.backdrop <;> simpa [Desk.insert, hback, or_comm] using hb
  by_cases hba : b = a
  · subst hba
    simpa [Desk.insert] using hbytes
  · simpa [Desk.insert, Function.update_of_ne hba] using h b (hmem.resolve_left hba)

theorem attach_framed (h : Framed g c) {badge bytes : ℕ} {mapped : Option ℕ} : Framed g (attach badge bytes mapped c).2 := by
  have hheld : Held g (attach badge bytes mapped c).2.desk := attach_held h.toHeld
  refine ⟨hheld, h.backed.mono ?_ ?_, ?_⟩
  all_goals
    unfold attach
    split_ifs
    · simp [h.kept]
    · cases mapped with
      | none => simp [h.kept]
      | some base =>
        dsimp only
        split_ifs <;> simp [h.kept]

theorem createWindow_framed (h : Framed g c) {badge x y width height offset flags : ℕ} {granted : Bool}
    (hmeasure : offset + width * height * 4 < 2 ^ 64) :
    Framed g (createWindow g badge x y width height offset flags granted c).2 := by
  have hheld : Held g (createWindow g badge x y width height offset flags granted c).2.desk := createWindow_held h.toHeld
  unfold createWindow at hheld ⊢
  cases hslice : c.desk.findSlice badge with
  | none => exact h
  | some slice =>
    rw [hslice] at hheld
    dsimp only at hheld ⊢
    split_ifs at hheld ⊢ with hfits
    · cases hcell : c.desk.allocate granted with
      | none => exact h
      | some a =>
        rw [hcell] at hheld
        refine ⟨hheld, h.backed.insert ?_, h.kept⟩
        have hbytes := hfits.2.2.2.2.2.2.2.2
        rwa [Nat.mod_eq_of_lt hmeasure] at hbytes
    · exact h

theorem damage_framed (h : Framed g c) {badge id rx ry rw rh : ℕ} : Framed g (damage g memory badge id rx ry rw rh c).2 := by
  have hheld : Held g (damage g memory badge id rx ry rw rh c).2.desk := damage_held h.toHeld
  unfold damage at hheld ⊢
  cases howned : c.desk.owned badge id with
  | none => exact h
  | some a =>
    rw [howned] at hheld
    have hbacked := h.backed.set a (w := { c.desk.cell a with shown := true }) (h.backed a (owned_mem howned).1)
    refine ⟨hheld, hbacked, ?_⟩
    dsimp only
    split_ifs
    · exact repaint_kept hheld hbacked h.kept _ _ _ _
    · exact h.kept

theorem remove_framed (h : Framed g c) (hbar : a ∉ c.desk.barWindow) (hlayer : a ∉ c.desk.layerWindow) :
    Framed g (remove g memory a c) :=
  have hheld := h.toHeld.unlink hbar hlayer
  have hbacked := h.backed.unlink a
  ⟨hheld, hbacked, repaint_kept hheld hbacked h.kept _ _ _ _⟩

theorem destroyWindow_framed (h : Framed g c) {badge id : ℕ} (hspares : Spares c (.call badge (.destroyWindow id))) :
    Framed g (destroyWindow g memory badge id c).2 := by
  unfold destroyWindow
  cases howned : c.desk.owned badge id with
  | none => exact h
  | some a =>
    obtain ⟨hbar, hlayer⟩ := hspares a howned
    exact remove_framed h hbar hlayer

theorem reap_framed (h : Framed g c) {badge target : ℕ} (hspares : Spares c (.call badge (.reap target))) :
    Framed g (reap g memory target c).2 := by
  have hframed : Framed g (reapWindows g memory target c) := by
    refine (reap_induct (Q := fun l c' => Reaping g c target l c'.desk ∧ Framed g c') ?_ ?_ ⟨Reaping.start h.toHeld target, h⟩).2
    · rintro a l c' ⟨hreaping, hframed⟩ howner
      exact ⟨hreaping.skip howner, hframed⟩
    · rintro a l c' ⟨hreaping, hframed⟩ howner
      obtain ⟨hbar, hlayer⟩ := hreaping.spares hspares howner
      exact ⟨hreaping.unlink hspares howner, remove_framed hframed hbar hlayer⟩
  exact ⟨reap_held h.toHeld hspares, hframed.backed.mono rfl fun _ ha => ha, hframed.kept⟩

theorem move_framed (h : Framed g c) {badge id x y : ℕ} : Framed g (move g memory badge id x y c).2 := by
  have hheld : Held g (move g memory badge id x y c).2.desk := move_held h.toHeld
  unfold move at hheld ⊢
  cases howned : c.desk.owned badge id with
  | none => exact h
  | some a =>
    rw [howned] at hheld
    dsimp only at hheld ⊢
    split_ifs at hheld ⊢
    · exact h
    · have hbacked := h.backed.set a (w := { c.desk.cell a with x := x, y := y }) (h.backed a (owned_mem howned).1)
      exact ⟨hheld, hbacked, repaintMove_kept hheld hbacked h.kept _ _ _⟩

theorem raise_framed (h : Framed g c) {badge id : ℕ} : Framed g (raise g memory badge id c).2 := by
  have hheld : Held g (raise g memory badge id c).2.desk := raise_held h.toHeld
  unfold raise restack at hheld ⊢
  cases hplain : c.desk.plain badge id with
  | none => exact h
  | some a =>
    rw [hplain] at hheld
    have hbacked : Backed (c.desk.raise a) := h.backed.mono rfl fun b hb => (raise_perm (plain_mem hplain).1).mem_iff.1 hb
    exact ⟨hheld, hbacked, repaint_kept hheld hbacked h.kept _ _ _ _⟩

theorem lower_framed (h : Framed g c) {badge id : ℕ} : Framed g (lower g memory badge id c).2 := by
  have hheld : Held g (lower g memory badge id c).2.desk := lower_held h.toHeld
  unfold lower restack at hheld ⊢
  cases hplain : c.desk.plain badge id with
  | none => exact h
  | some a =>
    rw [hplain] at hheld
    have hbacked : Backed (c.desk.lower a) := h.backed.mono rfl fun b hb => (lower_perm (plain_mem hplain).1).mem_iff.1 hb
    exact ⟨hheld, hbacked, repaint_kept hheld hbacked h.kept _ _ _ _⟩

theorem findSlice_eq (h : Placed g d) (ha : a ∈ d.windows) : d.findSlice (d.cell a).owner = some (d.cell a).slice := by
  obtain ⟨-, -, hslice, howner⟩ := h.lies a ha
  have hbadges := h.badges
  rw [← howner, Desk.findSlice]
  generalize d.slices = slices at hslice hbadges
  induction slices with
  | nil => cases hslice
  | cons slice slices ih =>
    rw [List.map_cons, List.nodup_cons] at hbadges
    rcases List.mem_cons.1 hslice with heq | hslice
    · simp [heq]
    · have hne : slice.badge ≠ (d.cell a).slice.badge := by
        intro heq
        rw [heq] at hbadges
        exact hbadges.1 (List.mem_map_of_mem hslice)
      rw [List.find?_cons_of_neg (by simpa using hne)]
      exact ih hslice hbadges.2

theorem resize_framed (h : Framed g c) {badge id width height : ℕ} (hmeasure : Measures c (.call badge (.resize id width height))) :
    Framed g (resize g memory badge id width height c).2 := by
  have hheld : Held g (resize g memory badge id width height c).2.desk := resize_held h.toHeld
  unfold resize at hheld ⊢
  cases howned : c.desk.owned badge id with
  | none => exact h
  | some a =>
    rw [howned] at hheld
    dsimp only at hheld ⊢
    split_ifs at hheld ⊢ with hfits
    · have hbytes := hfits.2.2.2.2
      rw [findSlice_eq h.toPlaced (owned_mem howned).1, Nat.mod_eq_of_lt (hmeasure a howned)] at hbytes
      have hbacked := h.backed.set a (w := { c.desk.cell a with width := width, height := height }) hbytes
      exact ⟨hheld, hbacked, repaint_kept hheld hbacked h.kept _ _ _ _⟩
    · exact h

theorem focus_framed (h : Framed g c) {badge id : ℕ} : Framed g (focus badge id c).2 := by
  have hheld : Held g (focus badge id c).2.desk := focus_held h.toHeld
  unfold focus at hheld ⊢
  cases hplain : c.desk.plain badge id with
  | none => exact h
  | some a =>
    rw [hplain] at hheld
    dsimp only at hheld ⊢
    split_ifs at hheld ⊢
    · exact h
    · exact ⟨hheld, h.backed.mono rfl fun _ ha => ha, h.kept⟩

theorem screenBar_framed (h : Framed g c) {badge height : ℕ} : Framed g (screenBar g memory badge height c).2 := by
  have hheld : Held g (screenBar g memory badge height c).2.desk := screenBar_held h.toHeld
  unfold screenBar at hheld ⊢
  cases hbackdrop : c.desk.ownBackdrop badge with
  | none => exact h
  | some backdrop =>
    rw [hbackdrop] at hheld
    dsimp only at hheld ⊢
    have hbacked : Backed { c.desk with barWindow := if height ≠ 0 then some backdrop else none, barHeight := height } :=
      h.backed.mono rfl fun _ ha => ha
    exact ⟨hheld, hbacked, repaint_kept hheld hbacked h.kept _ _ _ _⟩

theorem screenLayer_framed (h : Framed g c) {badge x y width height : ℕ} :
    Framed g (screenLayer badge x y width height c).2 := by
  have hheld : Held g (screenLayer badge x y width height c).2.desk := screenLayer_held h.toHeld
  unfold screenLayer at hheld ⊢
  cases hbackdrop : c.desk.ownBackdrop badge with
  | none => exact h
  | some backdrop =>
    rw [hbackdrop] at hheld
    exact ⟨hheld, h.backed.mono rfl fun _ ha => ha, h.kept⟩

/-! ## Input -/

theorem flushMotion_framed (h : Framed g c) : Framed g (flushMotion g c) := by
  have hheld := flushMotion_held h.toHeld
  unfold flushMotion at hheld ⊢
  split_ifs at hheld ⊢
  · exact ⟨hheld, h.backed.mono rfl fun _ ha => ha, cursorDraw_kept h.kept⟩
  · exact h

theorem startMotion_framed (h : Framed g c) : Framed g (startMotion g c) := by
  have hheld := startMotion_held h.toHeld
  unfold startMotion at hheld ⊢
  split_ifs at hheld ⊢
  · exact h
  · exact ⟨hheld, h.backed.mono rfl fun _ ha => ha, cursorErase_kept h.kept⟩

theorem pointAt_framed (h : Framed g c) (x y : ℕ) : Framed g (pointAt x y c) :=
  ⟨pointAt_held h.toHeld x y, h.backed.mono rfl fun _ ha => ha, h.kept⟩

theorem pointerButton_framed (h : Framed g c) {state : ℕ} : Framed g (pointerButton state c) := by
  have hheld : Held g (pointerButton state c).desk := pointerButton_held h.toHeld
  unfold pointerButton at hheld ⊢
  dsimp only at hheld ⊢
  split_ifs at hheld ⊢
  · exact ⟨hheld, h.backed.mono rfl fun _ ha => ha, h.kept⟩
  · exact ⟨hheld, h.backed.mono rfl fun _ ha => ha, h.kept⟩
  · exact ⟨hheld, h.backed.mono rfl fun _ ha => ha, h.kept⟩

theorem route_framed (h : Framed g c) {device word : ℕ} : Framed g (route g device c word) := by
  unfold route
  dsimp only
  split_ifs
  · exact flushMotion_framed h
  · exact pointAt_framed (startMotion_framed h) _ _
  · exact pointAt_framed (startMotion_framed h) _ _
  · exact pointAt_framed (startMotion_framed h) _ _
  · exact pointAt_framed (startMotion_framed h) _ _
  · exact pointerButton_framed (flushMotion_framed h)
  · exact h

theorem drain_framed (h : Framed g c) {device : ℕ} {words : List ℕ} : Framed g (drain g device words c) :=
  flushMotion_framed (foldl_keeps (P := Framed g) (fun _ _ _ hc => route_framed hc) h)

/-! ## Runs -/

theorem serve_framed {e : Event} (h : Framed g c) (hspares : Spares c e) (hmeasures : Measures c e) :
    Framed g (serve g memory c e).2 := by
  cases e with
  | drain device words => exact drain_framed h
  | call badge call =>
    cases call with
    | attach => exact attach_framed h
    | createWindow => exact createWindow_framed h hmeasures
    | damage => exact damage_framed h
    | destroyWindow => exact destroyWindow_framed h hspares
    | reap => exact reap_framed h hspares
    | move => exact move_framed h
    | raise => exact raise_framed h
    | resize => exact resize_framed h hmeasures
    | lower => exact lower_framed h
    | focus => exact focus_framed h
    | info => exact h
    | screenBar => exact screenBar_framed h
    | screenLayer => exact screenLayer_framed h

theorem Framed.start : Framed g (.start g) := by
  refine ⟨Held.start, ?_, ?_⟩
  · intro a ha
    cases ha
  · refine cursorDraw_kept fun access hmem => ?_
    cases hmem

theorem Framed.sound (h : Framed g c) : Sound g c where
  inside a ha := ⟨(h.lies a ha).right, (h.lies a ha).bottom⟩
  backed a ha := ⟨(c.desk.cell a).slice, findSlice_eq h.toPlaced ha, rfl, h.backed a ha⟩
  named := h.toNamed
  order := h.order
  once := h.once.map_on fun _ ha _ hb hid => h.ids_inj ha hb hid
  reads := h.kept

/-- The window system is sound in every run whose backings do not wrap, and that takes away no
window the bar or the layer names. -/
theorem reaches_sound (h : Reaches g (fun c e => Spares c e ∧ Measures c e) c) : Sound g c := by
  have hframed : Framed g c := h.induct (Q := Framed g) g Framed.start fun _ _ _ hc hturn => serve_framed hc hturn.1 hturn.2
  exact hframed.sound

def sampleScreen : Screen := ⟨32, 24, by decide, by decide⟩

/-- A backdrop is put up and shown, and its top made the bar. -/
def sampleCalls : List Event :=
  [.call 1 (.attach 4096 (some 0x40000000)), .call 1 (.createWindow 0 0 32 24 0 1 true), .call 1 (.damage 1 0 0 32 24),
    .call 1 (.screenBar 4)]

/-- A backdrop, its bar, and a plain window below it. -/
theorem reaches_sound_sample :
    (turns sampleScreen (fun _ => 0) (sampleCalls ++ [.call 1 (.createWindow 2 4 8 8 4096 0 true)]) (.start sampleScreen)).desk.windows =
      [0, 1] ∧
    Sound sampleScreen (turns sampleScreen (fun _ => 0) (sampleCalls ++ [.call 1 (.createWindow 2 4 8 8 4096 0 true)])
      (.start sampleScreen)) := by
  refine ⟨by decide, reaches_sound (Reaches.start.turns _ _ fun e he c => ?_)⟩
  simp only [sampleCalls, List.cons_append, List.nil_append, List.mem_cons, List.not_mem_nil, or_false] at he
  rcases he with rfl | rfl | rfl | rfl | rfl <;> simp [Spares, Measures]

/-- The backdrop is destroyed, and the bar still names it. -/
theorem bar_outlives_window : ¬ ∀ (g : Screen) (c : St), Reaches g (fun _ _ => True) c → Sound g c := by
  intro h
  have hsound := h sampleScreen _ (Reaches.start.turns sampleScreen (fun _ => 0) fun e
    (_ : e ∈ sampleCalls ++ [.call 1 (.destroyWindow 1)]) _ => trivial)
  have hbar : (turns sampleScreen (fun _ => 0) (sampleCalls ++ [.call 1 (.destroyWindow 1)]) (.start sampleScreen)).desk.barWindow =
      some 0 := by decide
  have hgone : (turns sampleScreen (fun _ => 0) (sampleCalls ++ [.call 1 (.destroyWindow 1)]) (.start sampleScreen)).desk.windows =
      [] := by decide
  have hmem := hsound.named.bar 0 hbar
  rw [hgone] at hmem
  cases hmem

end Aegir.Console
