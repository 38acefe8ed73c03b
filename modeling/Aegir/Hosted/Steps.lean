/-
  What taking and mapping pages can do to the heap.
-/
import Aegir.Hosted.Mmap
import Aegir.Mem.Window

namespace Aegir.Hosted

open Aegir.Lib
open Aegir.Lib.Extent (cover cover_cons cover_nil cover_append mem_iff)
open Aegir.Mem (Window Scratch Alloc Growth kPage kLargePage pageBits)
open Aegir.Mem.Window (SameEnds sameEnds_pageMap sameEnds_pageTableMap mapAtGrowing_spec)

/-! ## The window -/

/-- The window keeps its base and its streaming end, and gives out no more than it had. -/
structure Lower (w w' : Window) : Prop where
  base : w'.scratch.base = w.scratch.base
  next : w'.scratch.next = w.scratch.next
  lastCap : w'.scratch.lastCap = w.scratch.lastCap
  mayGrow : w'.scratch.mayGrow = w.scratch.mayGrow
  fixed : w.scratch.mayGrow = false → w'.scratch.limit = w.scratch.limit
  limit : w.scratch.limit ≤ w'.scratch.limit
  high : w'.scratch.limit = w.scratch.limit → w'.scratch.high ≤ w.scratch.high
  order : w.scratch.next ≤ w.scratch.high → w.scratch.mayGrow = false →
    w'.scratch.next ≤ w'.scratch.high
  aligned : kPage ∣ w.scratch.high → w.scratch.mayGrow = false → kPage ∣ w'.scratch.high

namespace Lower
variable {w w' w'' : Window}

theorem refl (w : Window) : Lower w w :=
  ⟨rfl, rfl, rfl, rfl, fun _ => rfl, le_rfl, fun _ => le_rfl, fun h _ => h, fun h _ => h⟩

theorem trans (h : Lower w w') (h' : Lower w' w'') : Lower w w'' where
  base := h'.base.trans h.base
  next := h'.next.trans h.next
  lastCap := h'.lastCap.trans h.lastCap
  mayGrow := h'.mayGrow.trans h.mayGrow
  fixed hg := (h'.fixed (h.mayGrow.trans hg)).trans (h.fixed hg)
  limit := h.limit.trans h'.limit
  high he := by
    have h₁ := h.limit
    have h₂ := h'.limit
    exact (h'.high (by omega)).trans (h.high (by omega))
  order hn hg := h'.order (h.order hn hg) (h.mayGrow.trans hg)
  aligned ha hg := h'.aligned (h.aligned ha hg) (h.mayGrow.trans hg)

theorem of_sameEnds (h : SameEnds w w') : Lower w w' :=
  ⟨h.base, h.next, h.lastCap, h.mayGrow, fun _ => h.limit, h.limit.ge, fun _ => h.high.le,
    fun hn _ => by rw [h.next, h.high]; exact hn, fun ha _ => by rw [h.high]; exact ha⟩

theorem of_scratch (h : w'.scratch = w.scratch) : Lower w w' := by
  refine ⟨?_, ?_, ?_, ?_, fun _ => ?_, ?_, fun _ => ?_, fun hn _ => ?_, fun ha _ => ?_⟩
  all_goals rw [h]
  · exact hn
  · exact ha

end Lower

theorem growReserve_grows (need n : ℕ) (s : Scratch) : ∃ k,
    Scratch.growReserve need n s = { s with limit := s.limit + k, high := s.high + k } ∧
      (0 < n → s.high < need → 0 < k) := by
  induction n generalizing s with
  | zero => exact ⟨0, rfl, fun h => absurd h (Nat.lt_irrefl 0)⟩
  | succ n ih =>
    rw [Scratch.growReserve]
    split
    · next hle => exact ⟨0, rfl, fun _ hlt => absurd hlt (Nat.not_lt.2 hle)⟩
    · obtain ⟨k, hk, -⟩ := ih { s with limit := s.limit + kLargePage, high := s.high + kLargePage }
      refine ⟨kLargePage + k, ?_, fun _ _ => ?_⟩
      · rw [hk]
        simp only [Nat.add_assoc]
      · have := Mem.kLargePage_pos
        omega

theorem reserve_some {w w' : Window} {pages at_ : ℕ} (h : w.reserve pages = (some at_, w')) :
    Lower w w' ∧ w'.vspace = w.vspace ∧
      (w'.scratch.limit = w.scratch.limit ∧ at_ + pages * kPage = w.scratch.high ∧
        w.scratch.next ≤ at_ ∧ w'.scratch.high = at_ ∨
       w.scratch.limit < w'.scratch.limit ∧ w.scratch.mayGrow = true) := by
  unfold Window.reserve Scratch.reserve at h
  dsimp only at h
  by_cases hb : w.scratch.next + pages * kPage ≤ w.scratch.high
  · rw [if_pos hb] at h
    obtain ⟨h₁, rfl⟩ := Prod.mk.inj h
    obtain rfl := Option.some.inj h₁
    refine ⟨⟨rfl, rfl, rfl, rfl, fun _ => rfl, le_rfl, fun _ => Nat.sub_le _ _, fun _ _ => ?_,
      fun ha _ => Nat.dvd_sub ha (Nat.dvd_mul_left _ _)⟩, rfl, .inl ⟨rfl, ?_, ?_, rfl⟩⟩
    · simp only
      omega
    · omega
    · omega
  · rw [if_neg hb] at h
    by_cases hg : w.scratch.mayGrow = true
    · rw [if_pos hg] at h
      obtain ⟨-, rfl⟩ := Prod.mk.inj h
      obtain ⟨k, hk, hpos⟩ := growReserve_grows (w.scratch.next + pages * kPage)
        (Scratch.turns (w.scratch.next + pages * kPage)) w.scratch
      have hk0 : 0 < k := hpos (Nat.succ_pos _) (by omega)
      refine ⟨⟨?_, ?_, ?_, ?_, ?_, ?_, ?_, ?_, ?_⟩, rfl, .inr ⟨?_, hg⟩⟩
      all_goals simp only [hk]
      · rw [hg]
        exact nofun
      · omega
      · omega
      · rw [hg]
        exact nofun
      · rw [hg]
        exact nofun
      · omega
    · rw [if_neg hg] at h
      cases (Prod.mk.inj h).1

theorem reserve_none {w w' : Window} {pages : ℕ} (h : w.reserve pages = (none, w')) : w' = w := by
  unfold Window.reserve at h
  split at h
  · exact (Prod.mk.inj h).2.symm
  · cases (Prod.mk.inj h).1

theorem lower_growNodes (w : Window) (g : Growth) : Lower w (w.growNodesFromWindow g) := by
  unfold Window.growNodesFromWindow
  split
  · exact .refl w
  · rcases hr : w.reserve 1 with ⟨_ | at_, w'⟩
    · rw [reserve_none hr]
      exact .refl w
    · obtain ⟨hl, -, -⟩ := reserve_some hr
      dsimp only
      split
      · have hs := (sameEnds_pageMap w' g.frame pageBits at_).trans
          (mapAtGrowing_spec g.frame at_ 4 (w'.pageMap g.frame pageBits at_).1
            (w'.pageMap g.frame pageBits at_).2 g.tables).1
        exact hl.trans (.of_sameEnds hs)
      · exact hl

theorem lower_growths (gs : List Growth) (w : Window) :
    Lower w (gs.foldl Window.growNodesFromWindow w) := by
  induction gs generalizing w with
  | nil => exact .refl w
  | cons g gs ih => exact (lower_growNodes w g).trans (ih _)

theorem lower_allocObject (w : Window) (as : List Alloc) : Lower w (w.allocObject as).2.1 := by
  cases as with
  | nil => exact .refl w
  | cons a as => exact lower_growths a.growths w

theorem lower_freeObject (w : Window) (as : List Alloc) : Lower w (w.freeObject as) := by
  cases as with
  | nil => exact .refl w
  | cons a as => exact lower_growths a.freed w

theorem lower_mapAtFrom (frame bits address n : ℕ) (error : Mem.Error) (w : Window) (as : List Alloc) :
    Lower w (Window.mapAtFrom frame bits address n error w as).2.1 := by
  induction n generalizing error w as with
  | zero =>
    unfold Window.mapAtFrom
    split
    · exact .of_sameEnds ⟨rfl, rfl, rfl, rfl, rfl, rfl, rfl, rfl⟩
    · exact .of_sameEnds ⟨rfl, rfl, rfl, rfl, rfl, rfl, rfl, rfl⟩
  | succ n ih =>
    unfold Window.mapAtFrom
    split
    · have ha := lower_allocObject w as
      have ht : Lower w ((w.allocObject as).2.1.pageTableMap address).2 :=
        ha.trans (.of_sameEnds (sameEnds_pageTableMap _ address))
      dsimp only
      split
      · exact ha
      split
      · have hf := ht.trans (lower_freeObject _ as)
        exact (hf.trans (.of_sameEnds (sameEnds_pageMap _ frame bits address))).trans (ih _ _ _)
      split
      · exact (ht.trans (.of_sameEnds (sameEnds_pageMap _ frame bits address))).trans (ih _ _ _)
      · exact ht
    split
    · exact .of_sameEnds ⟨rfl, rfl, rfl, rfl, rfl, rfl, rfl, rfl⟩
    · exact .of_sameEnds ⟨rfl, rfl, rfl, rfl, rfl, rfl, rfl, rfl⟩

theorem lower_mapAt (w : Window) (address frame bits : ℕ) (as : List Alloc) :
    Lower w (w.mapAt address frame bits as).2.1 := by
  unfold Window.mapAt
  split
  · exact (Lower.of_sameEnds (sameEnds_pageMap w frame bits address)).trans
      (lower_mapAtFrom frame bits address 4 _ _ as)
  · exact .refl w

/-! ## The heap -/

/-- Extents that were taken off the top of a window, from one end of it to the other. -/
def Between (low high : ℕ) (l : List Extent) : Prop :=
  ∀ a, cover l a ≤ if low ≤ a ∧ a < high then 1 else 0

theorem Between.nil (low high : ℕ) : Between low high [] := fun _ => Nat.zero_le _

theorem Between.append {low mid high : ℕ} {l l' : List Extent} (h : Between mid high l)
    (h' : Between low mid l') (hlow : low ≤ mid) (hhigh : mid ≤ high) : Between low high (l' ++ l) := by
  intro a
  have h₁ := h a
  have h₂ := h' a
  rw [cover_append]
  split at h₁
  · split at h₂
    · omega
    · split
      · omega
      · omega
  · split
    · split at h₂
      · omega
      · omega
    · split at h₂
      · omega
      · omega

/-- Pages are mapped: nothing is released, and the bookkeeping's pages are new. -/
structure Mapped (s s' : Heap) : Prop where
  ready : s'.ready = s.ready
  base : s'.base = s.base
  limit : s'.limit = s.limit
  brk : s'.brk = s.brk
  regions : s'.regions = s.regions
  runs : s'.runs = s.runs
  record : s'.record = s.record
  capacity : s'.capacity = s.capacity
  files : s'.files = s.files
  memory : s'.memory = s.memory
  window : Lower s.window s'.window
  frames : s.frames <:+ s'.frames
  books : ∃ l, s'.books = l ++ s.books ∧
    (s.window.scratch.mayGrow = false → Between s'.window.scratch.high s.window.scratch.high l)

namespace Mapped
variable {s s' s'' : Heap}

theorem refl (s : Heap) : Mapped s s :=
  ⟨rfl, rfl, rfl, rfl, rfl, rfl, rfl, rfl, rfl, rfl, .refl _, List.suffix_rfl, [], rfl, fun _ => .nil _ _⟩

theorem trans (h : Mapped s s') (h' : Mapped s' s'') : Mapped s s'' := by
  obtain ⟨l, hl, hb⟩ := h.books
  obtain ⟨l', hl', hb'⟩ := h'.books
  refine ⟨h'.ready.trans h.ready, h'.base.trans h.base, h'.limit.trans h.limit, h'.brk.trans h.brk,
    h'.regions.trans h.regions, h'.runs.trans h.runs, h'.record.trans h.record, h'.capacity.trans h.capacity,
    h'.files.trans h.files, h'.memory.trans h.memory, h.window.trans h'.window,
    h.frames.trans h'.frames, l' ++ l, ?_, fun hg => ?_⟩
  · rw [hl', hl, List.append_assoc]
  · have hg' := h.window.mayGrow.trans hg
    exact (hb hg).append (hb' hg') (h'.window.high (h'.window.fixed hg')) (h.window.high (h.window.fixed hg))

theorem of_window {w : Window} {frames : List ℕ} {chunks : List FrameChunk} (hw : Lower s.window w)
    (hf : s.frames <:+ frames) :
    Mapped s { s with window := w, frames := frames, chunks := chunks } :=
  ⟨rfl, rfl, rfl, rfl, rfl, rfl, rfl, rfl, rfl, rfl, hw, hf, [], rfl, fun _ => .nil _ _⟩

end Mapped

variable {s s' : Heap}

theorem reserve_spec (s : Heap) (pages : ℕ) : Mapped s (s.reserve pages).2 ∧
    ((s.reserve pages).1 ≠ 0 → s.window.scratch.mayGrow = false →
      (s.reserve pages).1 + pages % 2 ^ 32 * kPage = s.window.scratch.high ∧
      (s.reserve pages).2.window.scratch.high = (s.reserve pages).1) := by
  unfold Heap.reserve
  rcases hr : s.window.reserve (pages % 2 ^ 32) with ⟨_ | at_, w⟩
  · exact ⟨.refl s, fun h => absurd rfl h⟩
  · obtain ⟨hl, -, hcase⟩ := reserve_some hr
    refine ⟨.of_window hl List.suffix_rfl, fun _ hg => ?_⟩
    rcases hcase with ⟨-, hat, -, hhigh⟩ | ⟨-, hgrow⟩
    · exact ⟨hat, hhigh⟩
    · rw [hg] at hgrow
      cases hgrow

theorem mapped_takeFrame (s : Heap) (as : List Alloc) : Mapped s (s.takeFrame as).2.1 := by
  unfold Heap.takeFrame
  refine .of_window (lower_allocObject s.window as) ?_
  split
  · exact List.suffix_rfl
  · exact List.suffix_cons _ _

theorem mapped_mapFrame (s : Heap) (address frame bits : ℕ) (as : List Alloc) :
    Mapped s (s.mapFrame address frame bits as).2.1 :=
  .of_window (lower_mapAt s.window address frame bits as) List.suffix_rfl

theorem Mapped.book {page : ℕ} {chunks : List FrameChunk}
    (hr : (s.reserve 1).1 = page) (hne : page ≠ 0) (h : Mapped (s.reserve 1).2 s') :
    Mapped s { s' with chunks := chunks, books := ⟨page, kPage⟩ :: s'.books } := by
  obtain ⟨hres, hat⟩ := reserve_spec s 1
  have hall := hres.trans h
  refine ⟨hall.ready, hall.base, hall.limit, hall.brk, hall.regions, hall.runs, hall.record, hall.capacity,
    hall.files, hall.memory, hall.window, hall.frames, ?_⟩
  obtain ⟨l, hl, hb⟩ := h.books
  obtain ⟨l', hl', hb'⟩ := hres.books
  refine ⟨⟨page, kPage⟩ :: l ++ l', by rw [hl, hl']; simp, fun hg => ?_⟩
  rw [hr] at hat
  obtain ⟨hend, hhigh⟩ := hat hne hg
  have hg' := hres.window.mayGrow.trans hg
  have hdown := h.window.high (h.window.fixed hg')
  have hlow := hb hg'
  have htop := hb' hg
  rw [hhigh] at hdown hlow htop
  have hone : 1 % 2 ^ 32 * kPage = kPage := by omega
  rw [hone] at hend
  -- the reservation itself added no page
  have hnil : l' = [] := by
    have hbooks : (s.reserve 1).2.books = s.books := by
      unfold Heap.reserve
      split
      · rfl
      · rfl
    rw [hbooks] at hl'
    simpa using hl'
  subst hnil
  intro a
  have h₁ := hlow a
  simp only [List.append_nil, cover_cons, mem_iff]
  split at h₁
  · rw [if_neg (by omega), if_pos ⟨by omega, by omega⟩]
    omega
  · split
    · rw [if_pos ⟨by omega, by omega⟩]
      omega
    · omega

theorem mapped_frameChunk (s : Heap) (index : ℕ) (as : List Alloc) :
    Mapped s (s.frameChunk index as).2.1 := by
  unfold Heap.frameChunk
  split
  · exact .refl s
  · split
    · exact .refl s
    · have hres := (reserve_spec s 1).1
      dsimp only
      split
      · exact hres
      · next hpage =>
        have htake := mapped_takeFrame (s.reserve 1).2 as
        split
        · exact hres.trans htake
        · have hmap := htake.trans (mapped_mapFrame _ (s.reserve 1).1 ((s.reserve 1).2.takeFrame as).1
            pageBits ((s.reserve 1).2.takeFrame as).2.2)
          split
          · exact hres.trans hmap
          · exact .book rfl hpage hmap

theorem mapped_remember (s : Heap) (address frame : ℕ) (as : List Alloc) :
    Mapped s (s.remember address frame as).1 := by
  have h := mapped_frameChunk s (s.index address) as
  unfold Heap.remember
  split
  · next heq => rwa [heq] at h
  · next heq =>
    rw [heq] at h
    exact h.trans (.of_window (.refl _) List.suffix_rfl)

theorem mapped_rememberPages (frame n : ℕ) (s : Heap) (address : ℕ) (as : List Alloc) :
    Mapped s (Heap.rememberPages frame n s address as).1 := by
  induction n generalizing s address as with
  | zero => exact .refl s
  | succ n ih => exact (mapped_remember s address frame as).trans (ih _ _ _)

theorem mapped_mapPagesOf (bits pages : ℕ) (s : Heap) (address : ℕ) (as : List Alloc) :
    Mapped s (Heap.mapPagesOf bits pages s address as).2.1 := by
  have htake := mapped_takeFrame s as
  unfold Heap.mapPagesOf
  dsimp only
  split
  · exact htake
  · have hmap := htake.trans (mapped_mapFrame _ address (s.takeFrame as).1 bits (s.takeFrame as).2.2)
    split
    · exact hmap
    split
    · exact hmap.trans (mapped_rememberPages _ _ _ _ _)
    · exact hmap

theorem mapped_mapPage (s : Heap) (address : ℕ) (as : List Alloc) :
    Mapped s (s.mapPage address as).2.1 :=
  mapped_mapPagesOf pageBits 1 s address as

theorem mapped_mapLargePage (s : Heap) (address : ℕ) (as : List Alloc) :
    Mapped s (s.mapLargePage address as).2.1 :=
  mapped_mapPagesOf Mem.largePageBits kMegaPages s address as

theorem mapped_mapAll {map : Heap → ℕ → List Alloc → Bool × Heap × List Alloc}
    (hmap : ∀ s address as, Mapped s (map s address as).2.1) (size n : ℕ) (s : Heap) (address : ℕ)
    (as : List Alloc) : Mapped s (Heap.mapAll map size n s address as).2.1 := by
  induction n generalizing s address as with
  | zero => exact .refl s
  | succ n ih =>
    have h := hmap s address as
    unfold Heap.mapAll
    split
    · next heq => rwa [heq] at h
    · next heq =>
      rw [heq] at h
      exact h.trans (ih _ _ _)

theorem mapped_mapRun (s : Heap) (fileBacked : Bool) (base pages : ℕ) (as : List Alloc) :
    Mapped s (s.mapRun fileBacked base pages as).2.1 := by
  unfold Heap.mapRun
  split
  · have hhead := mapped_mapAll mapped_mapPage kPage (Heap.headPages base pages) s base as
    dsimp only
    split
    · next heq => rwa [heq] at hhead
    · next s₁ as₁ heq =>
      rw [heq] at hhead
      generalize (if (base + Heap.headPages base pages * kPage) % kLargePage = 0 then
        (pages - Heap.headPages base pages) / kMegaPages else 0) = megas
      have hmegas := mapped_mapAll mapped_mapLargePage kLargePage megas s₁
        (base + Heap.headPages base pages * kPage) as₁
      split
      · next heq' =>
        rw [heq'] at hmegas
        exact hhead.trans hmegas
      · next heq' =>
        rw [heq'] at hmegas
        exact (hhead.trans hmegas).trans (mapped_mapAll mapped_mapPage kPage _ _ _ _)
  · exact mapped_mapAll mapped_mapPage kPage pages s base as

theorem mapped_bookPage (s : Heap) (as : List Alloc) : Mapped s (s.bookPage as).2.1 := by
  unfold Heap.bookPage
  split
  · exact .refl s
  · have hres := (reserve_spec s 1).1
    dsimp only
    split
    · exact hres
    · have hmap := mapped_mapPage (s.reserve 1).2 (s.reserve 1).1 as
      split
      · next heq =>
        rw [heq] at hmap
        exact hres.trans hmap
      · next heq =>
        rw [heq] at hmap
        exact hres.trans hmap

end Aegir.Hosted
