/-
  What mapping pages adds to the address space.

  Pages are only added while the heap maps some: none is unmapped, and a frame that is
  mapped is mapped nowhere else (`Adds`).  What is added meanwhile for the bookkeeping
  and for the allocator's nodes lies below what the window has left, so a page mapped
  above it is there with the frame it was given (`mapsPage_mapPagesOf`, `mapsRun_mapAll`).
-/
import Aegir.Hosted.Owners

namespace Aegir.Hosted

open Aegir.Lib
open Aegir.Lib.Extent (mem_iff)
open Aegir.Mem (Window VSpace Leaf Alloc Growth Error kPage kLargePage pageBits largePageBits)

/-- Leaves are added one by one, each with a frame that no leaf has. -/
inductive Adds (new : Leaf → Prop) (ls : List Leaf) : List Leaf → Prop where
  | refl : Adds new ls ls
  | cons {l : Leaf} {ls' : List Leaf} (h : Adds new ls ls') (hnew : new l)
      (hfresh : ∀ l' ∈ ls', l'.frame ≠ l.frame) : Adds new ls (l :: ls')

namespace Adds
variable {new new' : Leaf → Prop} {ls ls' ls'' : List Leaf} {l : Leaf}

theorem mono (h : Adds new ls ls') (hle : ∀ l, new l → new' l) : Adds new' ls ls' := by
  induction h with
  | refl => exact .refl
  | cons _ hnew hfresh ih => exact .cons ih (hle _ hnew) hfresh

theorem trans (h : Adds new ls ls') (h' : Adds new ls' ls'') : Adds new ls ls'' := by
  induction h' with
  | refl => exact h
  | cons _ hnew hfresh ih => exact .cons ih hnew hfresh

theorem kept (h : Adds new ls ls') (hl : l ∈ ls) : l ∈ ls' := by
  induction h with
  | refl => exact hl
  | cons _ _ _ ih => exact List.mem_cons_of_mem _ ih

theorem added (h : Adds new ls ls') (hl : l ∈ ls') : l ∈ ls ∨ new l := by
  induction h with
  | refl => exact .inl hl
  | cons _ hnew _ ih =>
    rcases List.mem_cons.1 hl with rfl | hl
    · exact .inr hnew
    · exact ih hl

theorem alone (h : Adds new ls ls') (hl : l ∈ ls') (hnot : l ∉ ls) :
    ∀ l' ∈ ls', l'.frame = l.frame → l' = l := by
  induction h with
  | refl => exact absurd hl hnot
  | cons _ _ hfresh ih =>
    intro l' hl' hframe
    rcases List.mem_cons.1 hl with heq | hl
    · rcases List.mem_cons.1 hl' with heq' | hl'
      · rw [heq, heq']
      · exact absurd (heq ▸ hframe) (hfresh l' hl')
    · rcases List.mem_cons.1 hl' with heq' | hl'
      · exact absurd (heq' ▸ hframe.symm) (hfresh l hl)
      · exact ih hl l' hl' hframe

end Adds

abbrev WindowAdds (new : Leaf → Prop) (w w' : Window) : Prop :=
  Adds new w.vspace.leaves w'.vspace.leaves

/-! ## The kernel -/

theorem adds_pageMap (w : Window) (frame bits address : ℕ) :
    WindowAdds (· = ⟨frame, address, bits⟩) w (w.pageMap frame bits address).2 ∧
      ((w.pageMap frame bits address).1 = .noError →
        ∃ l ∈ (w.pageMap frame bits address).2.vspace.leaves, l.frame = frame ∧ l.address = address) := by
  unfold Window.pageMap VSpace.pageMap
  split
  · exact ⟨.refl, nofun⟩
  split
  · exact ⟨.refl, nofun⟩
  split
  · exact ⟨.refl, nofun⟩
  split
  · next l hfind =>
    split
    · next hat =>
      have hframe : l.frame = frame := by simpa using List.find?_some hfind
      exact ⟨.refl, fun _ => ⟨l, List.mem_of_find?_eq_some hfind, hframe, hat⟩⟩
    · exact ⟨.refl, nofun⟩
  · next hnone =>
    split
    · exact ⟨.refl, nofun⟩
    · have hfresh : ∀ l ∈ w.vspace.leaves, l.frame ≠ frame := by simpa using hnone
      exact ⟨.cons .refl rfl hfresh, fun _ => ⟨_, List.mem_cons_self, rfl, rfl⟩⟩

theorem leaves_pageTableMap (w : Window) (address : ℕ) :
    (w.pageTableMap address).2.vspace.leaves = w.vspace.leaves := by
  unfold Window.pageTableMap VSpace.pageTableMap
  dsimp only
  split_ifs
  all_goals rfl

/-! ## The allocator's nodes -/

theorem adds_mapAtGrowing (frame address n : ℕ) (error : Error) (w : Window) (tables : List ℕ) :
    WindowAdds (fun l => l.address = address) w (Window.mapAtGrowing frame address n error w tables).2 := by
  induction n generalizing error w tables with
  | zero =>
    unfold Window.mapAtGrowing
    split
    · exact .refl
    · exact .refl
  | succ n ih =>
    unfold Window.mapAtGrowing
    split
    · split
      · exact .refl
      · exact .refl
      · dsimp only
        have hmap : WindowAdds (fun l => l.address = address) w
            ((w.pageTableMap address).2.pageMap frame pageBits address).2 := by
          have h := (adds_pageMap (w.pageTableMap address).2 frame pageBits address).1
          unfold WindowAdds at h
          rw [leaves_pageTableMap] at h
          exact h.mono fun l hl => by rw [hl]
        split
        · exact hmap.trans (ih _ _ _)
        · unfold WindowAdds
          rw [leaves_pageTableMap]
          exact .refl
    split
    · exact .refl
    · exact .refl

variable {w w' : Window}

theorem adds_growNodes (hg : w.scratch.mayGrow = false) (g : Growth) :
    WindowAdds (fun l => l.address < w.scratch.high) w (w.growNodesFromWindow g) := by
  unfold Window.growNodesFromWindow
  split
  · exact .refl
  rcases hr : w.reserve 1 with ⟨_ | at_, w'⟩
  · rw [reserve_none hr]
    exact .refl
  · obtain ⟨-, hv, ⟨-, hat, -, -⟩ | ⟨-, hgrow⟩⟩ := reserve_some hr
    · have hbelow : at_ < w.scratch.high := by
        have := Mem.kPage_pos
        omega
      dsimp only
      unfold WindowAdds
      rw [← hv]
      split
      · have hfirst : WindowAdds (fun l => l.address < w.scratch.high) w'
            (w'.pageMap g.frame pageBits at_).2 :=
          (adds_pageMap w' g.frame pageBits at_).1.mono fun l hl => by rw [hl]; exact hbelow
        exact hfirst.trans ((adds_mapAtGrowing _ _ _ _ _ _).mono fun l hl => hl.trans_lt hbelow)
      · exact .refl
    · rw [hg] at hgrow
      cases hgrow

theorem Lower.below (h : Lower w w') (hg : w.scratch.mayGrow = false) :
    w'.scratch.high ≤ w.scratch.high :=
  h.high (h.fixed hg)

theorem WindowAdds.of_lower {w'' : Window} (h : WindowAdds (fun l => l.address < w'.scratch.high) w' w'')
    (hl : Lower w w') (hg : w.scratch.mayGrow = false) :
    WindowAdds (fun l => l.address < w.scratch.high) w' w'' :=
  h.mono fun _ hlt => hlt.trans_le (hl.below hg)

theorem adds_growths (gs : List Growth) (hg : w.scratch.mayGrow = false) :
    WindowAdds (fun l => l.address < w.scratch.high) w (gs.foldl Window.growNodesFromWindow w) := by
  induction gs generalizing w with
  | nil => exact .refl
  | cons g gs ih =>
    have hl := lower_growNodes w g
    have hrest := ih (hl.mayGrow.trans hg)
    exact (adds_growNodes hg g).trans (WindowAdds.of_lower hrest hl hg)

theorem adds_allocObject (as : List Alloc) (hg : w.scratch.mayGrow = false) :
    WindowAdds (fun l => l.address < w.scratch.high) w (w.allocObject as).2.1 := by
  cases as with
  | nil => exact .refl
  | cons a as => exact adds_growths a.growths hg

theorem adds_freeObject (as : List Alloc) (hg : w.scratch.mayGrow = false) :
    WindowAdds (fun l => l.address < w.scratch.high) w (w.freeObject as) := by
  cases as with
  | nil => exact .refl
  | cons a as => exact adds_growths a.freed hg

theorem allocObject_left (w : Window) (as : List Alloc) : (w.allocObject as).2.2 <:+ as := by
  cases as with
  | nil => exact List.suffix_rfl
  | cons a as => exact List.suffix_cons _ _

theorem allocObject_cap {as : List Alloc} (h : (w.allocObject as).1 ≠ 0) :
    ∃ a ∈ as, a.cap = (w.allocObject as).1 := by
  cases as with
  | nil => exact absurd rfl h
  | cons a as => exact ⟨a, List.mem_cons_self, rfl⟩

/-! ## A page -/

/-- What comes of mapping a frame of `2 ^ bits` bytes at an address. -/
structure MapsAt (frame bits address : ℕ) (w : Window) (as : List Alloc)
    (r : Bool × Window × List Alloc) : Prop where
  adds : WindowAdds (fun l => l = ⟨frame, address, bits⟩ ∨ l.address < w.scratch.high) w r.2.1
  left : r.2.2 <:+ as
  mapped : r.1 = true → ∃ l ∈ r.2.1.vspace.leaves, l.frame = frame ∧ l.address = address

theorem mapsAt_mapAtFrom (frame bits address n : ℕ) (error : Error) (as : List Alloc)
    (hg : w.scratch.mayGrow = false)
    (h : error = .noError → ∃ l ∈ w.vspace.leaves, l.frame = frame ∧ l.address = address) :
    MapsAt frame bits address w as (Window.mapAtFrom frame bits address n error w as) := by
  induction n generalizing error w as with
  | zero =>
    unfold Window.mapAtFrom
    split
    · next hok => exact ⟨.refl, List.suffix_rfl, fun _ => h hok⟩
    · exact ⟨.refl, List.suffix_rfl, (fun hf => by cases hf)⟩
  | succ n ih =>
    unfold Window.mapAtFrom
    split
    · have hl := lower_allocObject w as
      have hga := hl.mayGrow.trans hg
      have ha : WindowAdds (fun l => l = ⟨frame, address, bits⟩ ∨ l.address < w.scratch.high) w
          (w.allocObject as).2.1 := (adds_allocObject as hg).mono fun l hlt => .inr hlt
      have hleft := allocObject_left w as
      dsimp only
      -- the frame is tried again in a window that went on, with the table there
      have hagain : ∀ {v : Window}, Lower w v →
          WindowAdds (fun l => l = ⟨frame, address, bits⟩ ∨ l.address < w.scratch.high) w v →
          MapsAt frame bits address w as (Window.mapAtFrom frame bits address n
            (v.pageMap frame bits address).1 (v.pageMap frame bits address).2 (w.allocObject as).2.2) := by
        intro v hlow hadds
        obtain ⟨hpage, hthere⟩ := adds_pageMap v frame bits address
        have hgv := hlow.mayGrow.trans hg
        obtain ⟨hrest, hsuffix, hmapped⟩ := ih (w := (v.pageMap frame bits address).2) _ _ hgv hthere
        refine ⟨(hadds.trans (hpage.mono fun l hl => .inl hl)).trans (hrest.mono ?_),
          hsuffix.trans hleft, hmapped⟩
        rintro l (rfl | hlt)
        · exact .inl rfl
        · exact .inr (hlt.trans_le (hlow.below hg))
      have ht : Lower w ((w.allocObject as).2.1.pageTableMap address).2 :=
        hl.trans (.of_sameEnds (Mem.Window.sameEnds_pageTableMap _ address))
      have htable : WindowAdds (fun l => l = ⟨frame, address, bits⟩ ∨ l.address < w.scratch.high) w
          ((w.allocObject as).2.1.pageTableMap address).2 := by
        unfold WindowAdds
        rw [leaves_pageTableMap]
        exact ha
      split
      · exact ⟨ha, hleft, (fun hf => by cases hf)⟩
      split
      · have hfree := WindowAdds.of_lower (adds_freeObject as (ht.mayGrow.trans hg)) ht hg
        exact hagain (ht.trans (lower_freeObject _ as)) (htable.trans (hfree.mono fun l hlt => .inr hlt))
      split
      · exact hagain ht htable
      · exact ⟨htable, hleft, (fun hf => by cases hf)⟩
    split
    · next hok => exact ⟨.refl, List.suffix_rfl, fun _ => h hok⟩
    · exact ⟨.refl, List.suffix_rfl, (fun hf => by cases hf)⟩

theorem mapsAt_mapAt (address frame bits : ℕ) (as : List Alloc) (hg : w.scratch.mayGrow = false) :
    MapsAt frame bits address w as (w.mapAt address frame bits as) := by
  unfold Window.mapAt
  split
  · obtain ⟨hpage, hthere⟩ := adds_pageMap w frame bits address
    obtain ⟨hrest, hleft, hmapped⟩ := mapsAt_mapAtFrom frame bits address 4
      (w.pageMap frame bits address).1 as (w := (w.pageMap frame bits address).2) hg hthere
    exact ⟨(hpage.mono fun l hl => .inl hl).trans hrest, hleft, hmapped⟩
  · exact ⟨.refl, List.suffix_rfl, nofun⟩

/-! ## The heap -/

variable {s t : Heap}

theorem leaves_reserve (s : Heap) (pages : ℕ) :
    (s.reserve pages).2.window.vspace.leaves = s.window.vspace.leaves := by
  unfold Heap.reserve
  rcases hr : s.window.reserve (pages % 2 ^ 32) with ⟨_ | at_, w⟩
  · rfl
  · exact congrArg VSpace.leaves (reserve_some hr).2.1

/-- What is added lies below what the window had left, and answers are used up in turn. -/
structure AddsBelow (s t : Heap) (as bs : List Alloc) : Prop where
  adds : WindowAdds (fun l => l.address < s.window.scratch.high) s.window t.window
  left : bs <:+ as

theorem AddsBelow.refl (s : Heap) (as : List Alloc) : AddsBelow s s as as := ⟨.refl, List.suffix_rfl⟩

theorem AddsBelow.trans {u : Heap} {as bs cs : List Alloc} (h : AddsBelow s t as bs)
    (h' : AddsBelow t u bs cs) (hl : Lower s.window t.window) (hg : s.window.scratch.mayGrow = false) :
    AddsBelow s u as cs :=
  ⟨h.adds.trans (WindowAdds.of_lower h'.adds hl hg), h'.left.trans h.left⟩

theorem addsBelow_reserve (s : Heap) (pages : ℕ) (as : List Alloc) :
    AddsBelow s (s.reserve pages).2 as as := by
  refine ⟨?_, List.suffix_rfl⟩
  unfold WindowAdds
  rw [leaves_reserve]
  exact .refl

theorem addsBelow_takeFrame (as : List Alloc) (hg : s.window.scratch.mayGrow = false) :
    AddsBelow s (s.takeFrame as).2.1 as (s.takeFrame as).2.2 :=
  ⟨adds_allocObject as hg, allocObject_left s.window as⟩

theorem addsBelow_mapFrame {address : ℕ} (frame bits : ℕ) (as : List Alloc)
    (hg : s.window.scratch.mayGrow = false) {high : ℕ} (hat : address < high)
    (hle : s.window.scratch.high ≤ high) :
    WindowAdds (fun l => l.address < high) s.window (s.mapFrame address frame bits as).2.1.window ∧
      (s.mapFrame address frame bits as).2.2 <:+ as := by
  obtain ⟨hadds, hleft, -⟩ := mapsAt_mapAt address frame bits as hg
  refine ⟨hadds.mono ?_, hleft⟩
  rintro l (rfl | hlt)
  · exact hat
  · exact hlt.trans_le hle

theorem addsBelow_frameChunk (index : ℕ) (as : List Alloc) (hg : s.window.scratch.mayGrow = false) :
    AddsBelow s (s.frameChunk index as).2.1 as (s.frameChunk index as).2.2 := by
  unfold Heap.frameChunk
  split
  · exact .refl s as
  split
  · exact .refl s as
  obtain ⟨hres, hat⟩ := reserve_spec s 1
  have hgr := hres.window.mayGrow.trans hg
  have hreserve := addsBelow_reserve s 1 as
  dsimp only
  split
  · exact hreserve
  next hpage =>
  have htake := hreserve.trans (addsBelow_takeFrame as hgr) hres.window hg
  have hmt := hres.trans (mapped_takeFrame (s.reserve 1).2 as)
  split
  · exact htake
  have hbelow : (s.reserve 1).1 < s.window.scratch.high := by
    have hend := (hat hpage hg).1
    have := Mem.kPage_pos
    omega
  obtain ⟨hmap, hleft⟩ := addsBelow_mapFrame ((s.reserve 1).2.takeFrame as).1 pageBits
    ((s.reserve 1).2.takeFrame as).2.2 (hmt.window.mayGrow.trans hg) hbelow (hmt.window.below hg)
  have hall : AddsBelow s _ as _ := ⟨htake.adds.trans hmap, hleft.trans htake.left⟩
  split
  · exact hall
  · exact ⟨hall.adds, hall.left⟩

theorem addsBelow_remember (address frame : ℕ) (as : List Alloc) (hg : s.window.scratch.mayGrow = false) :
    AddsBelow s (s.remember address frame as).1 as (s.remember address frame as).2 := by
  have h := addsBelow_frameChunk (s.index address) as hg
  unfold Heap.remember
  split
  · next heq => rwa [heq] at h
  · next heq =>
    rw [heq] at h
    exact ⟨h.adds, h.left⟩

theorem addsBelow_rememberPages (frame n address : ℕ) (as : List Alloc)
    (hg : s.window.scratch.mayGrow = false) :
    AddsBelow s (Heap.rememberPages frame n s address as).1 as
      (Heap.rememberPages frame n s address as).2 := by
  induction n generalizing s address as with
  | zero => exact .refl s as
  | succ n ih =>
    have hl := (mapped_remember s address frame as).window
    exact (addsBelow_remember address frame as hg).trans (ih _ _ (hl.mayGrow.trans hg)) hl hg

/-- What comes of mapping a page: it is the one leaf that may lie above what the window had
    left, and its frame is an answer of the allocator. -/
structure MapsPage (bits : ℕ) (s : Heap) (address : ℕ) (as : List Alloc)
    (r : Bool × Heap × List Alloc) : Prop where
  adds : WindowAdds (fun l => (∃ frame, l = ⟨frame, address, bits⟩) ∨ l.address < s.window.scratch.high)
    s.window r.2.1.window
  left : r.2.2 <:+ as
  mapped : r.1 = true → ∃ a ∈ as, a.cap ≠ 0 ∧
    ∃ l ∈ r.2.1.window.vspace.leaves, l.frame = a.cap ∧ l.address = address

theorem mapsPage_mapPagesOf (bits pages : ℕ) (s : Heap) (address : ℕ) (as : List Alloc)
    (hg : s.window.scratch.mayGrow = false) :
    MapsPage bits s address as (Heap.mapPagesOf bits pages s address as) := by
  have hl := (mapped_takeFrame s as).window
  obtain ⟨htake, hleft⟩ := addsBelow_takeFrame as hg
  unfold Heap.mapPagesOf
  dsimp only
  split
  · exact ⟨htake.mono fun l hlt => .inr hlt, hleft, nofun⟩
  next hframe =>
  obtain ⟨a, ha, hcap⟩ : ∃ a ∈ as, a.cap = (s.takeFrame as).1 := allocObject_cap hframe
  obtain ⟨hmap, hsuffix, hthere⟩ := mapsAt_mapAt address (s.takeFrame as).1 bits (s.takeFrame as).2.2
    (hl.mayGrow.trans hg)
  have hl' := hl.trans (mapped_mapFrame (s.takeFrame as).2.1 address (s.takeFrame as).1 bits
    (s.takeFrame as).2.2).window
  have hadds : WindowAdds (fun l => (∃ frame, l = ⟨frame, address, bits⟩) ∨
      l.address < s.window.scratch.high) s.window
      ((s.takeFrame as).2.1.mapFrame address (s.takeFrame as).1 bits (s.takeFrame as).2.2).2.1.window := by
    refine (htake.mono fun l hlt => .inr hlt).trans (hmap.mono ?_)
    rintro l (rfl | hlt)
    · exact .inl ⟨_, rfl⟩
    · exact .inr (hlt.trans_le (hl.below hg))
  split
  · exact ⟨hadds, hsuffix.trans hleft, nofun⟩
  next hok =>
  obtain ⟨l, hmem, hlf, hla⟩ := hthere (by simpa [Heap.mapFrame] using hok)
  have hnonzero : a.cap ≠ 0 := by rwa [hcap]
  split
  · obtain ⟨hrest, hused⟩ := addsBelow_rememberPages (s.takeFrame as).1 pages address
      ((s.takeFrame as).2.1.mapFrame address (s.takeFrame as).1 bits (s.takeFrame as).2.2).2.2
      (hl'.mayGrow.trans hg)
    refine ⟨hadds.trans ((WindowAdds.of_lower hrest hl' hg).mono fun l hlt => .inr hlt),
      hused.trans (hsuffix.trans hleft), fun _ => ⟨a, ha, hnonzero, l, hrest.kept hmem, ?_, hla⟩⟩
    rw [hlf, hcap]
  · exact ⟨hadds, hsuffix.trans hleft, fun _ => ⟨a, ha, hnonzero, l, hmem, hlf.trans hcap.symm, hla⟩⟩

/-! ## A run of pages -/

def leafExtent (l : Leaf) : Extent := ⟨l.address, 2 ^ l.bits⟩

/-- Each address of the run lies in a leaf of it whose frame is an answer of the allocator. -/
def Backs (as : List Alloc) (e : Extent) (ls : List Leaf) : Prop :=
  ∀ x ∈ e, ∃ l ∈ ls, x ∈ leafExtent l ∧ (leafExtent l).Within e ∧ ∃ a ∈ as, a.cap ≠ 0 ∧ a.cap = l.frame

/-- A frame the allocator has yet to answer with is mapped below the address, if at all. -/
def Clear (as : List Alloc) (address : ℕ) (w : Window) : Prop :=
  ∀ l ∈ w.vspace.leaves, ∀ a ∈ as, a.cap ≠ 0 → a.cap = l.frame → l.address < address

/-- What comes of mapping the pages of a run, once they are mapped. -/
structure MapsRun (s : Heap) (e : Extent) (as : List Alloc) (t : Heap) (bs : List Alloc) : Prop where
  lower : Lower s.window t.window
  adds : WindowAdds (fun _ => True) s.window t.window
  left : bs <:+ as
  clear : Clear bs e.stop t.window
  backs : Backs as e t.window.vspace.leaves

namespace MapsRun
variable {u : Heap} {as bs cs : List Alloc} {base m n : ℕ}

theorem nil (hclear : Clear as base s.window) : MapsRun s ⟨base, 0⟩ as s as := by
  refine ⟨.refl _, .refl, List.suffix_rfl, hclear, fun x hx => ?_⟩
  have := mem_iff.1 hx
  dsimp only at this
  omega

theorem append (h : MapsRun s ⟨base, m⟩ as t bs) (h' : MapsRun t ⟨base + m, n⟩ bs u cs) :
    MapsRun s ⟨base, m + n⟩ as u cs := by
  refine ⟨h.lower.trans h'.lower, h.adds.trans h'.adds, h'.left.trans h.left, ?_, ?_⟩
  · have hclear := h'.clear
    unfold Extent.stop at hclear ⊢
    rwa [Nat.add_assoc] at hclear
  · intro x hx
    have hin := mem_iff.1 hx
    dsimp only at hin
    rcases Nat.lt_or_ge x (base + m) with hlt | hge
    · obtain ⟨l, hl, hxl, ⟨hlow, hhigh⟩, ha⟩ := h.backs x (mem_iff.2 ⟨hin.1, hlt⟩)
      refine ⟨l, h'.adds.kept hl, hxl, ⟨hlow, ?_⟩, ha⟩
      unfold Extent.stop at hhigh ⊢
      dsimp only at hhigh ⊢
      omega
    · obtain ⟨l, hl, hxl, ⟨hlow, hhigh⟩, a, ha, hcap⟩ :=
        h'.backs x (mem_iff.2 ⟨hge, by dsimp only; omega⟩)
      refine ⟨l, hl, hxl, ⟨?_, ?_⟩, a, h.left.subset ha, hcap⟩
      · dsimp only at hlow ⊢
        omega
      · unfold Extent.stop at hhigh ⊢
        dsimp only at hhigh ⊢
        omega

end MapsRun

theorem MapsPage.run {bits address : ℕ} {as bs : List Alloc} (h : MapsPage bits s address as (true, t, bs))
    (hl : Lower s.window t.window) (hhigh : s.window.scratch.high ≤ address)
    (hclear : Clear as address s.window) : MapsRun s ⟨address, 2 ^ bits⟩ as t bs := by
  obtain ⟨hadds, hleft, hmapped⟩ := h
  obtain ⟨a, ha, hcap, l, hmem, hframe, hat⟩ := hmapped rfl
  have hpos : 0 < 2 ^ bits := Nat.two_pow_pos bits
  refine ⟨hl, hadds.mono fun _ _ => trivial, hleft, fun l' hl' b hb hne heq => ?_, fun x hx => ?_⟩
  · unfold Extent.stop
    dsimp only
    rcases hadds.added hl' with hold | ⟨frame, rfl⟩ | hlt
    · have := hclear l' hold b (hleft.subset hb) hne heq
      omega
    · exact Nat.lt_add_of_pos_right hpos
    · omega
  · -- the leaf at the address is the page that was mapped
    have hpage : l = ⟨l.frame, address, bits⟩ := by
      rcases hadds.added hmem with hold | ⟨frame, rfl⟩ | hlt
      · have := hclear l hold a ha hcap hframe.symm
        omega
      · rfl
      · omega
    have hextent : leafExtent l = ⟨address, 2 ^ bits⟩ := by rw [hpage]; rfl
    refine ⟨l, hmem, ?_, ?_, a, ha, hcap, hframe.symm⟩
    · rwa [hextent]
    · rw [hextent]
      exact ⟨le_rfl, le_rfl⟩

theorem mapsRun_mapAll {map : Heap → ℕ → List Alloc → Bool × Heap × List Alloc} {bits : ℕ}
    (hmapped : ∀ s address as, Mapped s (map s address as).2.1)
    (hpage : ∀ (s : Heap) address as, s.window.scratch.mayGrow = false →
      MapsPage bits s address as (map s address as))
    {n address : ℕ} {as bs : List Alloc} (hg : s.window.scratch.mayGrow = false)
    (hhigh : s.window.scratch.high ≤ address) (hclear : Clear as address s.window)
    (h : Heap.mapAll map (2 ^ bits) n s address as = (true, t, bs)) :
    MapsRun s ⟨address, n * 2 ^ bits⟩ as t bs := by
  induction n generalizing s address as with
  | zero =>
    unfold Heap.mapAll at h
    obtain ⟨-, rfl, rfl⟩ : true = true ∧ s = t ∧ as = bs := by simpa using h
    rw [Nat.zero_mul]
    exact .nil hclear
  | succ n ih =>
    have hl := (hmapped s address as).window
    have hfirst := hpage s address as hg
    unfold Heap.mapAll at h
    rcases heq : map s address as with ⟨_ | _, u, cs⟩
    · rw [heq] at h
      cases h
    rw [heq] at h hl hfirst
    have hrun := hfirst.run hl hhigh hclear
    have hdown := hl.below hg
    have hnext : Clear cs (address + 2 ^ bits) u.window := hrun.clear
    have hrest := ih (hl.mayGrow.trans hg) ((hdown.trans hhigh).trans (Nat.le_add_right _ _)) hnext h
    rw [Nat.succ_mul, Nat.add_comm]
    exact hrun.append hrest

theorem two_pow_pageBits : 2 ^ pageBits = kPage := by
  rw [Mem.kPage_eq]
  rfl

theorem two_pow_largePageBits : 2 ^ largePageBits = kLargePage := by
  rw [Mem.kLargePage_eq]
  rfl

theorem mapsRun_mapPages {n address : ℕ} {as bs : List Alloc} (hg : s.window.scratch.mayGrow = false)
    (hhigh : s.window.scratch.high ≤ address) (hclear : Clear as address s.window)
    (h : Heap.mapAll Heap.mapPage kPage n s address as = (true, t, bs)) :
    MapsRun s ⟨address, n * kPage⟩ as t bs := by
  rw [← two_pow_pageBits] at h ⊢
  exact mapsRun_mapAll mapped_mapPage (fun s address as => mapsPage_mapPagesOf pageBits 1 s address as)
    hg hhigh hclear h

theorem mapsRun_mapLargePages {n address : ℕ} {as bs : List Alloc}
    (hg : s.window.scratch.mayGrow = false) (hhigh : s.window.scratch.high ≤ address)
    (hclear : Clear as address s.window)
    (h : Heap.mapAll Heap.mapLargePage kLargePage n s address as = (true, t, bs)) :
    MapsRun s ⟨address, n * kLargePage⟩ as t bs := by
  rw [← two_pow_largePageBits] at h ⊢
  exact mapsRun_mapAll mapped_mapLargePage
    (fun s address as => mapsPage_mapPagesOf largePageBits kMegaPages s address as) hg hhigh hclear h

theorem mapsRun_mapRun {fileBacked : Bool} {base pages : ℕ} {as bs : List Alloc}
    (hg : s.window.scratch.mayGrow = false) (hhigh : s.window.scratch.high ≤ base)
    (hclear : Clear as base s.window) (h : s.mapRun fileBacked base pages as = (true, t, bs)) :
    MapsRun s ⟨base, pages * kPage⟩ as t bs := by
  rcases mapRun_true h with hall | ⟨head, megas, tail, u, cs, v, ds, hpages, hh, hm, ht⟩
  · exact mapsRun_mapPages hg hhigh hclear hall
  have hhead := mapsRun_mapPages hg hhigh hclear hh
  have hgu := hhead.lower.mayGrow.trans hg
  have hdown := hhead.lower.below hg
  have hnext : Clear cs (base + head * kPage) u.window := hhead.clear
  have hmid := mapsRun_mapLargePages hgu (by omega) hnext hm
  have hdown' := hmid.lower.below hgu
  have hnext' : Clear ds (base + head * kPage + megas * kLargePage) v.window := hmid.clear
  have htail := mapsRun_mapPages (hmid.lower.mayGrow.trans hgu) (by omega) hnext' ht
  rw [Nat.add_assoc] at htail
  rw [← hpages]
  exact (hhead.append hmid).append htail

end Aegir.Hosted
