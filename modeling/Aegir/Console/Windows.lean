/-
  Where the windows are, and what names them.
-/
import Aegir.Console.Serve

namespace Aegir.Console

open Aegir.Lib Display

variable {g : Screen} {d : Desk} {c : St} {a : ℕ} {w : Window} {memory : ℕ → Pixel}

/-! ## The invariants -/

/-- A window on the screen, of a live slice. -/
structure Lies (g : Screen) (slices : List Slice) (w : Window) : Prop where
  right : w.x + w.width ≤ g.width
  bottom : w.y + w.height ≤ g.height
  slice : w.slice ∈ slices
  owner : w.slice.badge = w.owner

structure Placed (g : Screen) (d : Desk) : Prop where
  once : d.windows.Nodup
  order : d.windows.Pairwise fun a b => (d.cell b).backdrop = true → (d.cell a).backdrop = true
  lies : ∀ a ∈ d.windows, Lies g d.slices (d.cell a)
  given : ∀ a ∈ d.windows, a < d.cells
  ids : ∀ a < d.cells, (d.cell a).id = a + 1
  next : d.nextId = d.cells
  room : d.cells * sizeofWindow ≤ 2 ^ 64
  badges : (d.slices.map (·.badge)).Nodup

structure Named (d : Desk) : Prop where
  bar : ∀ a ∈ d.barWindow, a ∈ d.windows
  layer : ∀ a ∈ d.layerWindow, a ∈ d.windows
  focused : ∀ a ∈ d.focused, a ∈ d.windows
  grab : ∀ a ∈ d.grab, a ∈ d.windows

/-- What a call takes away is not what the bar or the layer names. -/
def Spares (c : St) : Event → Prop
  | .call badge (.destroyWindow id) => ∀ a, c.desk.owned badge id = some a → a ∉ c.desk.barWindow ∧ a ∉ c.desk.layerWindow
  | .call _ (.reap target) => ∀ a, a ∈ c.desk.barWindow ∨ a ∈ c.desk.layerWindow → (c.desk.cell a).owner ≠ target
  | _ => True

structure Held (g : Screen) (d : Desk) : Prop extends Placed g d, Named d

theorem Lies.mono {slices slices' : List Slice} (h : Lies g slices w) (hslice : w.slice ∈ slices') : Lies g slices' w :=
  ⟨h.right, h.bottom, hslice, h.owner⟩

theorem Lies.covers (h : Lies g d.slices w) {x y : ℕ} :
    w.Covers x y ↔ (w.x ≤ x ∧ x < w.x + w.width) ∧ w.y ≤ y ∧ y < w.y + w.height := by
  have hright := h.right
  have hbottom := h.bottom
  have hwidth := g.width_lt
  have hheight := g.height_lt
  rw [Window.Covers, Nat.mod_eq_of_lt (by omega), Nat.mod_eq_of_lt (by omega)]

theorem Placed.ids_inj (h : Placed g d) {a b : ℕ} (ha : a ∈ d.windows) (hb : b ∈ d.windows)
    (hid : (d.cell a).id = (d.cell b).id) : a = b := by
  rw [h.ids a (h.given a ha), h.ids b (h.given b hb)] at hid
  exact Nat.succ_injective hid

/-! ## Looking a window up -/

theorem owned_mem {badge id : ℕ} (h : d.owned badge id = some a) : a ∈ d.windows ∧ (d.cell a).id = id ∧ (d.cell a).owner = badge := by
  rw [Desk.owned, Option.filter_eq_some_iff] at h
  obtain ⟨hfind, howner⟩ := h
  exact ⟨List.mem_of_find?_eq_some hfind, by simpa using List.find?_some hfind, by simpa using howner⟩

theorem plain_mem {badge id : ℕ} (h : d.plain badge id = some a) : a ∈ d.windows ∧ (d.cell a).backdrop = false := by
  rw [Desk.plain, Option.filter_eq_some_iff] at h
  exact ⟨(owned_mem h.1).1, by simpa using h.2⟩

theorem ownBackdrop_mem {badge : ℕ} (h : d.ownBackdrop badge = some a) : a ∈ d.windows := by
  rw [Desk.ownBackdrop, Option.filter_eq_some_iff] at h
  exact List.mem_of_find?_eq_some h.1

theorem findSlice_mem {badge : ℕ} {slice : Slice} (h : d.findSlice badge = some slice) : slice ∈ d.slices ∧ slice.badge = badge :=
  ⟨List.mem_of_find?_eq_some h, by simpa using List.find?_some h⟩

theorem windowAt_mem (h : Named d) {x y : ℕ} (hat : d.windowAt x y = some a) : a ∈ d.windows := by
  unfold Desk.windowAt at hat
  split_ifs at hat
  · exact h.layer a hat
  · exact List.mem_reverse.1 (List.mem_of_find?_eq_some hat)

/-! ## The order of the list -/

theorem raise_perm (ha : a ∈ d.windows) : (d.raise a).windows.Perm d.windows :=
  List.perm_append_comm.trans (List.perm_cons_erase ha).symm

theorem lower_perm (ha : a ∈ d.windows) : (d.lower a).windows.Perm d.windows := by
  refine List.perm_middle.trans ?_
  rw [List.takeWhile_append_dropWhile]
  exact (List.perm_cons_erase ha).symm

theorem Placed.raise_order (h : Placed g d) (hplain : (d.cell a).backdrop = false) :
    (d.raise a).windows.Pairwise fun a b => (d.cell b).backdrop = true → (d.cell a).backdrop = true := by
  refine List.pairwise_append.2 ⟨h.order.sublist List.erase_sublist, List.pairwise_singleton _ _, fun b _ b' hb' hbackdrop => ?_⟩
  rw [List.mem_singleton.1 hb', hplain] at hbackdrop
  exact absurd hbackdrop Bool.false_ne_true

theorem dropWhile_plain {l : List ℕ} (h : l.Pairwise fun a b => (d.cell b).backdrop = true → (d.cell a).backdrop = true) :
    ∀ b ∈ l.dropWhile fun b => (d.cell b).backdrop, (d.cell b).backdrop = false := by
  induction l with
  | nil => simp
  | cons b l ih =>
    rw [List.pairwise_cons] at h
    by_cases hb : (d.cell b).backdrop = true
    · rw [List.dropWhile_cons, if_pos hb]
      exact ih h.2
    · rw [List.dropWhile_cons, if_neg hb]
      intro b' hb'
      rcases List.mem_cons.1 hb' with rfl | hb'
      · exact Bool.eq_false_iff.2 hb
      · exact Bool.eq_false_iff.2 fun hbackdrop => hb (h.1 b' hb' hbackdrop)

theorem Placed.lower_order (h : Placed g d) (hplain : (d.cell a).backdrop = false) :
    (d.lower a).windows.Pairwise fun a b => (d.cell b).backdrop = true → (d.cell a).backdrop = true := by
  have herase := h.order.sublist (List.erase_sublist (a := a))
  have htop : ∀ b ∈ a :: (d.windows.erase a).dropWhile fun b => (d.cell b).backdrop, (d.cell b).backdrop = false := by
    intro b hb
    rcases List.mem_cons.1 hb with rfl | hb
    · exact hplain
    · exact dropWhile_plain herase b hb
  refine List.pairwise_append.2 ⟨herase.sublist (List.takeWhile_sublist _), ?_, fun b hb b' hb' hbackdrop => ?_⟩
  · refine List.pairwise_of_forall_mem_list fun b _ b' hb' hbackdrop => ?_
    rw [htop b' hb'] at hbackdrop
    exact absurd hbackdrop Bool.false_ne_true
  · exact List.mem_takeWhile_imp (p := fun b => (d.cell b).backdrop) hb

/-! ## What an edit keeps -/

theorem Placed.perm (h : Placed g d) {windows : List ℕ} (hperm : windows.Perm d.windows)
    (horder : windows.Pairwise fun a b => (d.cell b).backdrop = true → (d.cell a).backdrop = true) :
    Placed g { d with windows := windows } :=
  { h with
    once := hperm.nodup_iff.2 h.once
    order := horder
    lies := fun b hb => h.lies b (hperm.mem_iff.1 hb)
    given := fun b hb => h.given b (hperm.mem_iff.1 hb) }

theorem Named.perm (h : Named d) {windows : List ℕ} (hperm : windows.Perm d.windows) : Named { d with windows := windows } :=
  ⟨fun b hb => hperm.mem_iff.2 (h.bar b hb), fun b hb => hperm.mem_iff.2 (h.layer b hb),
    fun b hb => hperm.mem_iff.2 (h.focused b hb), fun b hb => hperm.mem_iff.2 (h.grab b hb)⟩

theorem Placed.set (h : Placed g d) (ha : a ∈ d.windows) (hlies : Lies g d.slices w) (hid : w.id = (d.cell a).id)
    (hbackdrop : w.backdrop = (d.cell a).backdrop) : Placed g (d.set a w) := by
  have hsame : ∀ b, ((d.set a w).cell b).backdrop = (d.cell b).backdrop := by
    intro b
    by_cases hb : b = a
    · subst hb
      simpa [Desk.set] using hbackdrop
    · simp [Desk.set, Function.update_of_ne hb]
  refine { h with order := ?_, lies := ?_, ids := ?_ }
  · refine h.order.imp fun {b b'} hle => ?_
    rw [hsame, hsame]
    exact hle
  · intro b hb
    by_cases hba : b = a
    · subst hba
      simpa [Desk.set] using hlies
    · simpa [Desk.set, Function.update_of_ne hba] using h.lies b hb
  · intro b hb
    by_cases hba : b = a
    · subst hba
      simpa [Desk.set, hid] using h.ids b hb
    · simpa [Desk.set, Function.update_of_ne hba] using h.ids b hb

theorem Placed.unlink (h : Placed g d) (a : ℕ) : Placed g (d.unlink a) :=
  { h with
    once := h.once.erase a
    order := h.order.sublist List.erase_sublist
    lies := fun b hb => h.lies b (List.mem_of_mem_erase hb)
    given := fun b hb => h.given b (List.mem_of_mem_erase hb) }

theorem forget_mem {p : Option ℕ} (hp : ∀ b ∈ p, b ∈ d.windows) : ∀ b ∈ d.forget p (d.cell a), b ∈ d.windows.erase a := by
  intro b hb
  rw [Desk.forget, Option.mem_def, Option.filter_eq_some_iff] at hb
  obtain ⟨hb, hid⟩ := hb
  refine (List.mem_erase_of_ne ?_).2 (hp b hb)
  rintro rfl
  simp at hid

theorem Named.unlink (h : Named d) (hbar : a ∉ d.barWindow) (hlayer : a ∉ d.layerWindow) : Named (d.unlink a) := by
  refine ⟨fun b hb => ?_, fun b hb => ?_, forget_mem h.focused, forget_mem h.grab⟩
  · refine (List.mem_erase_of_ne ?_).2 (h.bar b hb)
    rintro rfl
    exact hbar hb
  · refine (List.mem_erase_of_ne ?_).2 (h.layer b hb)
    rintro rfl
    exact hlayer hb

theorem Held.unlink (h : Held g d) (hbar : a ∉ d.barWindow) (hlayer : a ∉ d.layerWindow) : Held g (d.unlink a) :=
  ⟨h.toPlaced.unlink a, h.toNamed.unlink hbar hlayer⟩

theorem Held.raise (h : Held g d) (ha : a ∈ d.windows) (hplain : (d.cell a).backdrop = false) : Held g (d.raise a) :=
  ⟨h.toPlaced.perm (raise_perm ha) (h.raise_order hplain), h.toNamed.perm (raise_perm ha)⟩

theorem Held.lower (h : Held g d) (ha : a ∈ d.windows) (hplain : (d.cell a).backdrop = false) : Held g (d.lower a) :=
  ⟨h.toPlaced.perm (lower_perm ha) (h.lower_order hplain), h.toNamed.perm (lower_perm ha)⟩

theorem Held.set (h : Held g d) (ha : a ∈ d.windows) (hlies : Lies g d.slices w) (hid : w.id = (d.cell a).id)
    (hbackdrop : w.backdrop = (d.cell a).backdrop) : Held g (d.set a w) :=
  ⟨h.toPlaced.set ha hlies hid hbackdrop, ⟨h.bar, h.layer, h.focused, h.grab⟩⟩

theorem Held.show (h : Held g d) (ha : a ∈ d.windows) : Held g (d.set a { d.cell a with shown := true }) := by
  obtain ⟨hright, hbottom, hslice, howner⟩ := h.lies a ha
  exact h.set ha ⟨hright, hbottom, hslice, howner⟩ rfl rfl

theorem Held.insert (h : Held g d) (hcells : (d.cells + 1) * sizeofWindow ≤ 2 ^ 64) (hlies : Lies g d.slices w)
    (hid : w.id = d.cells + 1) : Held g (d.insert d.cells w) := by
  have hnew : d.cells ∉ d.windows := fun hmem => lt_irrefl _ (h.given _ hmem)
  have hsame : ∀ b ∈ d.windows, (d.insert d.cells w).cell b = d.cell b := by
    intro b hb
    exact Function.update_of_ne (h.given b hb).ne _ _
  have hself : (d.insert d.cells w).cell d.cells = w := Function.update_self ..
  have hmem : ∀ b, b ∈ (d.insert d.cells w).windows ↔ b = d.cells ∨ b ∈ d.windows := by
    intro b
    cases hb : w.backdrop <;> simp [Desk.insert, hb, or_comm]
  have hold : ∀ b ∈ d.windows, b ∈ (d.insert d.cells w).windows := fun b hb => (hmem b).2 (.inr hb)
  refine ⟨⟨?_, ?_, ?_, ?_, ?_, hid, hcells, h.badges⟩, fun b hb => hold b (h.bar b hb), fun b hb => hold b (h.layer b hb),
    fun b hb => hold b (h.focused b hb), fun b hb => hold b (h.grab b hb)⟩
  · cases hb : w.backdrop
    · simpa [Desk.insert, hb] using h.once.concat hnew
    · simpa [Desk.insert, hb] using ⟨hnew, h.once⟩
  · have horder : d.windows.Pairwise fun a b =>
        ((d.insert d.cells w).cell b).backdrop = true → ((d.insert d.cells w).cell a).backdrop = true := by
      refine h.order.imp_of_mem fun {b b'} hb hb' hle => ?_
      rwa [hsame b hb, hsame b' hb']
    cases hb : w.backdrop
    · have hlist : (d.insert d.cells w).windows = d.windows ++ [d.cells] := by simp [Desk.insert, hb]
      rw [hlist]
      refine List.pairwise_append.2 ⟨horder, List.pairwise_singleton _ _, fun b _ b' hb' hbackdrop => ?_⟩
      rw [List.mem_singleton.1 hb', hself, hb] at hbackdrop
      exact absurd hbackdrop Bool.false_ne_true
    · have hlist : (d.insert d.cells w).windows = d.cells :: d.windows := by simp [Desk.insert, hb]
      rw [hlist]
      exact List.pairwise_cons.2 ⟨fun b _ _ => by rw [hself, hb], horder⟩
  · intro b hb
    rcases (hmem b).1 hb with rfl | hb
    · rw [hself]
      exact hlies
    · rw [hsame b hb]
      exact h.lies b hb
  · intro b hb
    rcases (hmem b).1 hb with rfl | hb
    · exact Nat.lt_succ_self _
    · exact Nat.lt_succ_of_lt (h.given b hb)
  · intro b hb
    rcases Nat.lt_succ_iff_lt_or_eq.1 hb with hb | rfl
    · rw [show (d.insert d.cells w).cell b = d.cell b from Function.update_of_ne hb.ne _ _]
      exact h.ids b hb
    · rw [hself]
      exact hid

/-! ## The turns -/

theorem attach_held (h : Held g c.desk) {badge bytes : ℕ} {mapped : Option ℕ} : Held g (attach badge bytes mapped c).2.desk := by
  unfold attach
  split_ifs with hrefused
  · exact h
  · cases mapped with
    | none => exact h
    | some base =>
      dsimp only
      split_ifs with hmapped
      · have hnew : c.desk.findSlice badge = none := by
          by_contra hsome
          exact hrefused (.inr hsome)
        have hfresh : badge ∉ c.desk.slices.map (·.badge) := by
          intro hmem
          obtain ⟨slice, hslice, hbadge⟩ := List.mem_map.1 hmem
          have hnot := List.find?_eq_none.1 hnew slice hslice
          simp [hbadge] at hnot
        exact ⟨{ h.toPlaced with
          lies := fun a ha => (h.lies a ha).mono (List.mem_cons_of_mem _ (h.lies a ha).slice)
          badges := List.nodup_cons.2 ⟨hfresh, h.badges⟩ }, ⟨h.bar, h.layer, h.focused, h.grab⟩⟩
      · exact h

theorem createWindow_held (h : Held g c.desk) {badge x y width height offset flags : ℕ} {granted : Bool} :
    Held g (createWindow g badge x y width height offset flags granted c).2.desk := by
  unfold createWindow
  cases hslice : c.desk.findSlice badge with
  | none => exact h
  | some slice =>
    dsimp only
    split_ifs with hfits
    · unfold Desk.allocate
      split_ifs with hroom
      · obtain ⟨-, -, hwidth, hheight, hx, hy, -⟩ := hfits
        obtain ⟨hmem, hbadge⟩ := findSlice_mem hslice
        refine h.insert hroom.2 ⟨?_, ?_, hmem, hbadge⟩ ?_
        · show x + width ≤ g.width
          omega
        · show y + height ≤ g.height
          omega
        · have hcells := hroom.2
          rw [sizeofWindow] at hcells
          show (c.desk.nextId + 1) % 2 ^ 64 = c.desk.cells + 1
          rw [h.next]
          omega
      · exact h
    · exact h

theorem damage_held (h : Held g c.desk) {badge id rx ry rw rh : ℕ} : Held g (damage g memory badge id rx ry rw rh c).2.desk := by
  unfold damage
  cases howned : c.desk.owned badge id with
  | none => exact h
  | some a => exact h.show (owned_mem howned).1

theorem destroyWindow_held (h : Held g c.desk) {badge id : ℕ} (hspares : Spares c (.call badge (.destroyWindow id))) :
    Held g (destroyWindow g memory badge id c).2.desk := by
  unfold destroyWindow
  cases howned : c.desk.owned badge id with
  | none => exact h
  | some a =>
    obtain ⟨hbar, hlayer⟩ := hspares a howned
    exact h.unlink hbar hlayer

theorem reap_induct {Q : List ℕ → St → Prop} {target : ℕ} (hskip : ∀ a l c, Q (a :: l) c → (c.desk.cell a).owner ≠ target → Q l c)
    (hremove : ∀ a l c, Q (a :: l) c → (c.desk.cell a).owner = target → Q l (remove g memory a c)) (hstart : Q c.desk.windows c) :
    Q [] (reapWindows g memory target c) := by
  unfold reapWindows
  generalize c.desk.windows = l at hstart ⊢
  induction l generalizing c with
  | nil => exact hstart
  | cons a l ih =>
    rw [List.foldl_cons]
    split_ifs with howner
    · exact ih (hremove a l c hstart howner)
    · exact ih (hskip a l c hstart howner)

/-- A reap under way: what is left of the badge is ahead. -/
structure Reaping (g : Screen) (c₀ : St) (target : ℕ) (ahead : List ℕ) (d : Desk) : Prop extends Held g d where
  same : d.cell = c₀.desk.cell
  sameBar : d.barWindow = c₀.desk.barWindow
  sameLayer : d.layerWindow = c₀.desk.layerWindow
  ahead : ∀ a ∈ d.windows, (d.cell a).owner = target → a ∈ ahead

theorem Reaping.start (h : Held g c.desk) (target : ℕ) : Reaping g c target c.desk.windows c.desk :=
  { h with same := rfl, sameBar := rfl, sameLayer := rfl, ahead := fun _ ha _ => ha }

theorem Reaping.skip {c₀ : St} {target : ℕ} {l : List ℕ} (h : Reaping g c₀ target (a :: l) d) (howner : (d.cell a).owner ≠ target) :
    Reaping g c₀ target l d :=
  { h with ahead := fun b hb hown => (List.mem_cons.1 (h.ahead b hb hown)).resolve_left (by rintro rfl; exact howner hown) }

theorem Reaping.spares {c₀ : St} {badge target : ℕ} {l : List ℕ} (h : Reaping g c₀ target (a :: l) d)
    (hspares : Spares c₀ (.call badge (.reap target))) (howner : (d.cell a).owner = target) : a ∉ d.barWindow ∧ a ∉ d.layerWindow := by
  rw [h.same] at howner
  rw [h.sameBar, h.sameLayer]
  exact ⟨fun ha => hspares a (.inl ha) howner, fun ha => hspares a (.inr ha) howner⟩

theorem Reaping.unlink {c₀ : St} {badge target : ℕ} {l : List ℕ} (h : Reaping g c₀ target (a :: l) d)
    (hspares : Spares c₀ (.call badge (.reap target))) (howner : (d.cell a).owner = target) :
    Reaping g c₀ target l (d.unlink a) := by
  obtain ⟨hbar, hlayer⟩ := h.spares hspares howner
  refine { h.toHeld.unlink hbar hlayer with
    same := h.same, sameBar := h.sameBar, sameLayer := h.sameLayer, ahead := fun b hb hown => ?_ }
  have hne : b ≠ a := by
    rintro rfl
    exact (h.once.mem_erase_iff.1 hb).1 rfl
  exact (List.mem_cons.1 (h.ahead b (List.mem_of_mem_erase hb) hown)).resolve_left hne

theorem Reaping.done {c₀ : St} {target : ℕ} (h : Reaping g c₀ target [] d) :
    Held g { d with slices := d.slices.eraseP (·.badge = target) } := by
  refine ⟨{ h.toPlaced with lies := fun a ha => ?_, badges := ?_ }, ⟨h.bar, h.layer, h.focused, h.grab⟩⟩
  · have hlies := h.lies a ha
    refine hlies.mono ((List.mem_eraseP_of_neg ?_).2 hlies.slice)
    intro hbadge
    have htarget : (d.cell a).owner = target := hlies.owner ▸ of_decide_eq_true hbadge
    exact absurd (h.ahead a ha htarget) List.not_mem_nil
  · exact h.badges.sublist (List.eraseP_sublist.map _)

theorem reap_held (h : Held g c.desk) {badge target : ℕ} (hspares : Spares c (.call badge (.reap target))) :
    Held g (reap g memory target c).2.desk := by
  refine (reap_induct (Q := fun l c' => Reaping g c target l c'.desk) ?_ ?_ (Reaping.start h target)).done
  · intro a l c' hreaping howner
    exact hreaping.skip howner
  · intro a l c' hreaping howner
    exact hreaping.unlink hspares howner

theorem move_held (h : Held g c.desk) {badge id x y : ℕ} : Held g (move g memory badge id x y c).2.desk := by
  unfold move
  cases howned : c.desk.owned badge id with
  | none => exact h
  | some a =>
    dsimp only
    split_ifs with hrefused
    · exact h
    · obtain ⟨ha, -⟩ := owned_mem howned
      obtain ⟨hright, hbottom, hslice, howner⟩ := h.lies a ha
      have hwidth := g.width_lt
      have hheight := g.height_lt
      rw [sub64_of_le (by omega) (by omega), sub64_of_le (by omega) (by omega)] at hrefused
      refine h.set ha ⟨?_, ?_, hslice, howner⟩ rfl rfl
      · show x + (c.desk.cell a).width ≤ g.width
        omega
      · show y + (c.desk.cell a).height ≤ g.height
        omega

theorem raise_held (h : Held g c.desk) {badge id : ℕ} : Held g (raise g memory badge id c).2.desk := by
  unfold raise restack
  cases hplain : c.desk.plain badge id with
  | none => exact h
  | some a =>
    obtain ⟨ha, hbackdrop⟩ := plain_mem hplain
    exact h.raise ha hbackdrop

theorem lower_held (h : Held g c.desk) {badge id : ℕ} : Held g (lower g memory badge id c).2.desk := by
  unfold lower restack
  cases hplain : c.desk.plain badge id with
  | none => exact h
  | some a =>
    obtain ⟨ha, hbackdrop⟩ := plain_mem hplain
    exact h.lower ha hbackdrop

theorem resize_held (h : Held g c.desk) {badge id width height : ℕ} : Held g (resize g memory badge id width height c).2.desk := by
  unfold resize
  cases howned : c.desk.owned badge id with
  | none => exact h
  | some a =>
    dsimp only
    split_ifs with hfits
    · obtain ⟨ha, -⟩ := owned_mem howned
      obtain ⟨hright, hbottom, hslice, howner⟩ := h.lies a ha
      have hwidth := g.width_lt
      have hheight := g.height_lt
      rw [sub64_of_le (by omega) (by omega), sub64_of_le (by omega) (by omega)] at hfits
      refine h.set ha ⟨?_, ?_, hslice, howner⟩ rfl rfl
      · show (c.desk.cell a).x + width ≤ g.width
        omega
      · show (c.desk.cell a).y + height ≤ g.height
        omega
    · exact h

theorem focus_held (h : Held g c.desk) {badge id : ℕ} : Held g (focus badge id c).2.desk := by
  unfold focus
  cases hplain : c.desk.plain badge id with
  | none => exact h
  | some a =>
    dsimp only
    split_ifs
    · exact h
    · refine ⟨{ h.toPlaced with }, { h.toNamed with focused := ?_ }⟩
      rintro _ ⟨⟩
      exact (plain_mem hplain).1

theorem screenBar_held (h : Held g c.desk) {badge height : ℕ} : Held g (screenBar g memory badge height c).2.desk := by
  unfold screenBar
  cases hbackdrop : c.desk.ownBackdrop badge with
  | none => exact h
  | some backdrop =>
    dsimp only
    refine ⟨{ h.toPlaced with }, { h.toNamed with bar := fun a ha => ?_ }⟩
    split_ifs at ha
    · cases ha
      exact ownBackdrop_mem hbackdrop
    · cases ha

theorem screenLayer_held (h : Held g c.desk) {badge x y width height : ℕ} :
    Held g (screenLayer badge x y width height c).2.desk := by
  unfold screenLayer
  cases hbackdrop : c.desk.ownBackdrop badge with
  | none => exact h
  | some backdrop =>
    dsimp only
    refine ⟨{ h.toPlaced with }, { h.toNamed with layer := fun a ha => ?_ }⟩
    split_ifs at ha
    · cases ha
    · cases ha
      exact ownBackdrop_mem hbackdrop

theorem flushMotion_held (h : Held g c.desk) : Held g (flushMotion g c).desk := by
  unfold flushMotion
  split_ifs
  · exact ⟨{ h.toPlaced with }, { h.toNamed with }⟩
  · exact h

theorem startMotion_held (h : Held g c.desk) : Held g (startMotion g c).desk := by
  unfold startMotion
  split_ifs
  · exact h
  · exact ⟨{ h.toPlaced with }, { h.toNamed with }⟩

theorem pointAt_held (h : Held g c.desk) (x y : ℕ) : Held g (pointAt x y c).desk :=
  ⟨{ h.toPlaced with }, { h.toNamed with }⟩

theorem pointerButton_held (h : Held g c.desk) {state : ℕ} : Held g (pointerButton state c).desk := by
  have hunder : ∀ a ∈ c.desk.windowAt c.desk.pointerX c.desk.pointerY, a ∈ c.desk.windows := fun a ha => windowAt_mem h.toNamed ha
  unfold pointerButton
  dsimp only
  split_ifs
  · exact ⟨{ h.toPlaced with }, { h.toNamed with grab := hunder, focused := hunder }⟩
  · exact ⟨{ h.toPlaced with }, { h.toNamed with grab := hunder }⟩
  · refine ⟨{ h.toPlaced with }, { h.toNamed with grab := ?_ }⟩
    rintro a ⟨⟩

theorem route_held (h : Held g c.desk) {device word : ℕ} : Held g (route g device c word).desk := by
  unfold route
  dsimp only
  split_ifs
  · exact flushMotion_held h
  · exact pointAt_held (startMotion_held h) _ _
  · exact pointAt_held (startMotion_held h) _ _
  · exact pointAt_held (startMotion_held h) _ _
  · exact pointAt_held (startMotion_held h) _ _
  · exact pointerButton_held (flushMotion_held h)
  · exact h

theorem drain_held (h : Held g c.desk) {device : ℕ} {words : List ℕ} : Held g (drain g device words c).desk :=
  flushMotion_held (foldl_keeps (P := fun c : St => Held g c.desk) (fun _ _ _ hc => route_held hc) h)

theorem serve_held {e : Event} (h : Held g c.desk) (hspares : Spares c e) : Held g (serve g memory c e).2.desk := by
  cases e with
  | drain device words => exact drain_held h
  | call badge call =>
    cases call with
    | attach => exact attach_held h
    | createWindow => exact createWindow_held h
    | damage => exact damage_held h
    | destroyWindow => exact destroyWindow_held h hspares
    | reap => exact reap_held h hspares
    | move => exact move_held h
    | raise => exact raise_held h
    | resize => exact resize_held h
    | lower => exact lower_held h
    | focus => exact focus_held h
    | info => exact h
    | screenBar => exact screenBar_held h
    | screenLayer => exact screenLayer_held h

theorem Held.start : Held g (.start g) := by
  refine ⟨⟨List.nodup_nil, List.Pairwise.nil, ?_, ?_, ?_, rfl, ?_, List.nodup_nil⟩, ?_, ?_, ?_, ?_⟩
  · intro a ha
    cases ha
  · intro a ha
    cases ha
  · intro a ha
    cases ha
  · simp [Desk.start]
  all_goals
    intro a ha
    cases ha

end Aegir.Console
