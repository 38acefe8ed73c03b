/-
  What `mmap` and `brk` answer with is there, and reads zero.
-/
import Aegir.Hosted.Leaves
import Aegir.Hosted.Record

namespace Aegir.Hosted

open Aegir.Lib
open Aegir.Lib.Extent (cover_cons mem_iff Apart)
open Aegir.Mem (Window Leaf Alloc kPage kLargePage pageBits)

/-! ## What is asked for -/

namespace Heap

/-- The byte a mapping is to read at an index: zero, or the file's while it has one. -/
def byteAt (s : Heap) (c : MapCall) (i : ℕ) : UInt8 :=
  if c.anonymous then 0
  else
    match s.files.entryFor c.fd with
    | none => 0
    | some e => (s.files.bytes e.file).getD (c.offset.toNat + i) 0

/-- What a run must be apart from: what the window and the free regions have left, and what had
    an owner before it. -/
def others (s t : Heap) : List Extent :=
  t.left :: s.arena :: pageAt s.record ++ s.runs.map Run.extent ++ t.regions.free ++ s.books

end Heap

/-- The run `mmap` answered with, from the heap it was called on to the one it left. -/
structure Granted (s t : Heap) (c : Heap.MapCall) (base : ℕ) : Prop where
  ends : base + c.length ≤ 2 ^ 64
  apart : ∀ e ∈ s.others t, Apart ⟨base, c.length⟩ e
  /-- Every byte lies in a page within the run whose frame was mapped for it and is mapped nowhere
      else. -/
  mapped : ∀ x ∈ (⟨base, c.length⟩ : Extent), ∃ l ∈ t.window.vspace.leaves, x ∈ leafExtent l ∧
    (leafExtent l).Within ⟨base, alignUp c.length⟩ ∧ l ∉ s.window.vspace.leaves ∧
    ∀ l' ∈ t.window.vspace.leaves, l'.frame = l.frame → l' = l
  reads : ∀ i < c.length, t.memory (base + i) = s.byteAt c i

/-- A call that succeeds does what it was asked to. -/
def AsAsked (s : Heap) : Call → Prop
  | .mmap c as => 0 ≤ (s.sysMmap c as).1 → Granted s (s.sysMmap c as).2 c (s.sysMmap c as).1.toNat
  | .brk newBreak as =>
    ∀ a, s.brk ≤ a → a < (s.sysBrk newBreak as).1 → (s.sysBrk newBreak as).2.memory a = 0
  | _ => True

/-- A call that can be made: the length is a 64-bit number, and the allocator answers with frames
    that are not mapped. -/
def Callable (s : Heap) : Call → Prop
  | .mmap c as => c.length < 2 ^ 64 ∧
      ∀ a ∈ as, a.cap ≠ 0 → ∀ l ∈ s.window.vspace.leaves, l.frame ≠ a.cap
  | _ => True

namespace Heap

def refusesBrk (s : Heap) (newBreak : ℕ) : Prop :=
  s.ready = false ∨ newBreak = 0 ∨ newBreak < s.brk ∨ newBreak > s.limit

def brkPages (s : Heap) (newBreak : ℕ) : ℕ := (newBreak - s.brk + (kPage - 1)) / kPage

/-- `map_page` is refused for the `k`th page from the break on, and not before. -/
def StopsAt (s : Heap) (as : List Alloc) (k : ℕ) : Prop :=
  (mapAll mapPage kPage k s s.brk as).1 = true ∧ (mapAll mapPage kPage (k + 1) s s.brk as).1 = false

end Heap

/-- The length can be rounded up, or the call is refused in any case; and the pages mapped at the
    break before one that is refused are zero already. -/
def Rounded (s : Heap) : Call → Prop
  | .mmap c _ => Rounds c.length ∨ s.refusesMap c = true ∨ s.window.scratch.high = 0 ∨
      c.anonymous = false ∧ ∃ error, s.files.pread c.fd 0 c.offset = .inl error
  | .brk newBreak as => s.refusesBrk newBreak ∨ ∀ k < s.brkPages newBreak, s.StopsAt as k →
      ∀ a, s.brk ≤ a → a < s.brk + k * kPage → s.memory a = 0
  | _ => True

/-! ## Recording a run -/

variable {s t : Heap}

theorem adds_bookPage (as : List Alloc) (hg : s.window.scratch.mayGrow = false) :
    WindowAdds (fun _ => True) s.window (s.bookPage as).2.1.window := by
  have hres := (reserve_spec s 1).1.window
  have hreserve : WindowAdds (fun _ => True) s.window (s.reserve 1).2.window := by
    unfold WindowAdds
    rw [leaves_reserve]
    exact .refl
  have hpage := (mapsPage_mapPagesOf pageBits 1 (s.reserve 1).2 (s.reserve 1).1 as
    (hres.mayGrow.trans hg)).adds.mono fun _ _ => trivial
  unfold Heap.bookPage
  split
  · exact .refl
  dsimp only
  split
  · exact hreserve
  have hmap : (s.reserve 1).2.mapPage (s.reserve 1).1 as =
    Heap.mapPagesOf pageBits 1 (s.reserve 1).2 (s.reserve 1).1 as := rfl
  rw [← hmap] at hpage
  split
  · next heq =>
    rw [heq] at hpage
    exact hreserve.trans hpage
  · next heq =>
    rw [heq] at hpage
    exact hreserve.trans hpage

/-- Recording a run may map a page of the record, and changes neither the free regions nor memory. -/
structure Recorded (s t : Heap) : Prop where
  lower : Lower s.window t.window
  adds : WindowAdds (fun _ => True) s.window t.window
  regions : t.regions = s.regions
  memory : t.memory = s.memory

theorem recorded_recordRun (r : Run) (as : List Alloc) (hg : s.window.scratch.mayGrow = false) :
    Recorded s (s.recordRun r as) := by
  have hbook := mapped_bookPage s as
  have hgrow : Recorded s (s.growRunRecord as).2.1 := by
    have hadds := adds_bookPage as hg
    unfold Heap.growRunRecord
    dsimp only
    split
    · exact ⟨hbook.window, hadds, hbook.regions, hbook.memory⟩
    · exact ⟨hbook.window, hadds, hbook.regions, hbook.memory⟩
  unfold Heap.recordRun
  split
  · rcases heq : s.growRunRecord as with ⟨_ | _, t, bs⟩
    · rw [heq] at hgrow
      exact hgrow
    · rw [heq] at hgrow
      exact ⟨hgrow.lower, hgrow.adds, hgrow.regions, hgrow.memory⟩
  · exact ⟨.refl _, .refl, rfl, rfl⟩

/-! ## The bytes of a run -/

theorem pread_byteAt {c : Heap.MapCall} {count i : ℕ} {bytes : List UInt8} (hc : c.anonymous = false)
    (h : s.files.pread c.fd count c.offset = .inr bytes) (hi : i < count) :
    bytes.getD i 0 = s.byteAt c i := by
  unfold Heap.byteAt
  rw [hc, if_neg (by decide)]
  unfold Files.pread at h
  split at h
  · cases h
  next e he =>
  split at h
  · cases h
  split at h
  · cases h
  split at h
  · cases h
  obtain rfl := Sum.inr.inj h
  simp only [he, List.getD_eq_getElem?_getD, List.getElem?_take, List.getElem?_drop, if_pos hi]

theorem recording_reads {c : Heap.MapCall} {as : List Alloc} {i : ℕ} (hi : i < alignUp c.length)
    (hread : c.anonymous = true ∨ ∃ bytes, s.files.pread c.fd (alignUp c.length) c.offset = .inr bytes) :
    (s.recording c as).1.memory ((s.place (alignUp c.length)).1 + i) = s.byteAt c i := by
  have hzero : ((s.mapping c as).2.1.clear (s.place (alignUp c.length)).1 (alignUp c.length)).memory
      ((s.place (alignUp c.length)).1 + i) = 0 := by
    unfold Heap.clear
    exact if_pos ⟨Nat.le_add_right _ _, Nat.add_lt_add_left hi _⟩
  unfold Heap.recording
  dsimp only
  by_cases hc : c.anonymous = true
  · rw [if_pos hc, hzero]
    unfold Heap.byteAt
    rw [if_pos hc]
  · obtain ⟨bytes, hbytes⟩ := hread.resolve_left hc
    rw [if_neg hc, hbytes, ← pread_byteAt (by simpa using hc) hbytes hi]
    unfold Heap.fill
    dsimp only
    split
    · rw [Nat.add_sub_cancel_left]
    · next hout =>
      rw [hzero, List.getD_eq_getElem?_getD, List.getElem?_eq_none (by omega)]
      rfl

/-! ## mmap -/

theorem Laid.place_above (h : Laid [] s) {needed : ℕ} (hbase : (s.place needed).1 ≠ 0)
    (hsmall : needed / kPage < 2 ^ 32) (hpages : kPage ∣ needed) (hne : needed ≠ 0) :
    (s.place needed).2.window.scratch.high ≤ (s.place needed).1 ∧
      (s.place needed).1 + needed ≤ s.window.scratch.limit := by
  have hheld := h.place hbase hsmall hpages
  have hlimit := (place_spec s needed).2.2.2.2.fixed h.window.fixed
  have hin : ∀ x ∈ (⟨(s.place needed).1, needed⟩ : Extent), (s.place needed).2.window.scratch.high ≤ x ∧
      x < s.window.scratch.limit := by
    intro x hx
    have := hheld.between x
    rw [List.cons_append, cover_cons, if_pos hx, hlimit] at this
    split at this
    · next hbounds => exact hbounds
    · omega
  have hfirst := hin (s.place needed).1 (mem_iff.2 ⟨le_rfl, by dsimp only; omega⟩)
  have hlast := hin ((s.place needed).1 + (needed - 1))
    (mem_iff.2 ⟨Nat.le_add_right _ _, by dsimp only; omega⟩)
  omega

theorem Laid.place_apart (h : Laid [] s) {needed : ℕ} (hbase : (s.place needed).1 ≠ 0)
    (hsmall : needed / kPage < 2 ^ 32) (hpages : kPage ∣ needed) :
    ∀ e ∈ (s.place needed).2.owned, Apart ⟨(s.place needed).1, needed⟩ e := by
  have hheld := h.place hbase hsmall hpages
  have hpair : (⟨(s.place needed).1, needed⟩ :: (s.place needed).2.owned : List Extent).Pairwise Apart := by
    refine Extent.pairwise_apart_iff.2 fun a => ?_
    have := hheld.between a
    rw [List.cons_append, List.nil_append] at this
    split at this
    · exact this
    · omega
  exact (List.pairwise_cons.1 hpair).1

theorem mapping_mapsRun {c : Heap.MapCall} {as : List Alloc} (hlaid : Laid [] s)
    (hne : alignUp c.length ≠ 0) (hbase : (s.place (alignUp c.length)).1 ≠ 0)
    (hok : (s.mapping c as).1 = true)
    (hfresh : ∀ a ∈ as, a.cap ≠ 0 → ∀ l ∈ s.window.vspace.leaves, l.frame ≠ a.cap) :
    MapsRun (s.place (alignUp c.length)).2 ⟨(s.place (alignUp c.length)).1, alignUp c.length⟩ as
      (s.mapping c as).2.1 (s.mapping c as).2.2 := by
  have hpages := kPage_dvd_alignUp c.length
  obtain ⟨-, -, hleaves, -, hlower⟩ := place_spec s (alignUp c.length)
  have habove := (hlaid.place_above hbase (pages_lt hlaid.window hok) hpages hne).1
  have hclear : Clear as (s.place (alignUp c.length)).1 (s.place (alignUp c.length)).2.window := by
    intro l hl a ha hcap heq
    rw [hleaves] at hl
    exact absurd heq.symm (hfresh a ha hcap l hl)
  have hrun := mapsRun_mapRun (hlower.mayGrow.trans hlaid.window.fixed) habove hclear
    (Prod.ext hok rfl : s.mapping c as = (true, (s.mapping c as).2))
  rwa [Nat.div_mul_cancel hpages] at hrun

/-- The heap `mmap` leaves when it succeeds. -/
def Heap.recorded (s : Heap) (c : MapCall) (as : List Alloc) : Heap :=
  (s.recording c as).1.recordRun (s.runOf c) (s.recording c as).2

theorem recorded_spec (c : Heap.MapCall) (as : List Alloc) (hg : s.window.scratch.mayGrow = false) :
    WindowAdds (fun _ => True) (s.mapping c as).2.1.window (s.recorded c as).window ∧
      (s.recorded c as).window.scratch.high ≤ (s.place (alignUp c.length)).2.window.scratch.high ∧
      (s.recorded c as).regions = (s.place (alignUp c.length)).2.regions ∧
      (s.recorded c as).memory = (s.recording c as).1.memory := by
  have hplaced := (place_spec s (alignUp c.length)).2.2.2.2.mayGrow.trans hg
  have hmapped := mapped_mapping s c as
  obtain ⟨m, hm⟩ := recording_spec s c as
  have hwindow : (s.recording c as).1.window = (s.mapping c as).2.1.window := by rw [hm]
  have hregions : (s.recording c as).1.regions = (s.mapping c as).2.1.regions := by rw [hm]
  have hgt : (s.recording c as).1.window.scratch.mayGrow = false := by
    rw [hwindow]
    exact hmapped.window.mayGrow.trans hplaced
  obtain ⟨hlower, hadds, hsame, hmemory⟩ := recorded_recordRun (s.runOf c) (s.recording c as).2 hgt
  have hdown := hlower.below hgt
  rw [hwindow] at hdown
  unfold WindowAdds at hadds
  rw [hwindow] at hadds
  exact ⟨hadds, hdown.trans (hmapped.window.below hplaced), hsame.trans (hregions.trans hmapped.regions),
    hmemory⟩

theorem mmap_granted {c : Heap.MapCall} {as : List Alloc} (hlaid : Laid [] s) (hr : Rounds c.length)
    (hfresh : ∀ a ∈ as, a.cap ≠ 0 → ∀ l ∈ s.window.vspace.leaves, l.frame ≠ a.cap)
    (h : 0 ≤ (s.sysMmap c as).1) : Granted s (s.sysMmap c as).2 c (s.sysMmap c as).1.toNat := by
  obtain ⟨-, -, hlength, hbase, hok, hread⟩ := mmap_success h
  have hend : s.sysMmap c as = (((s.place (alignUp c.length)).1 : Int), s.recorded c as) := by
    rcases mmap_cases s c as with hend | hend | ⟨m, error, hneg, hend⟩ | ⟨-, -, -, -, -, hend⟩
    · rw [hend] at h
      exact absurd h (Int.not_le.2 neg_eInval)
    · rw [hend] at h
      exact absurd h (Int.not_le.2 neg_eNomem)
    · rw [hend] at h
      exact absurd h (Int.not_le.2 hneg)
    · exact hend
  have hlong := (alignUp_bounds hr).1
  have hne : alignUp c.length ≠ 0 := by omega
  have hsmall := pages_lt hlaid.window hok
  obtain ⟨habove, hlimit⟩ := hlaid.place_above hbase hsmall (kPage_dvd_alignUp c.length) hne
  have hapart := hlaid.place_apart hbase hsmall (kPage_dvd_alignUp c.length)
  have hrun := mapping_mapsRun hlaid hne hbase hok hfresh
  obtain ⟨hadds, hdown, hregions, hmemory⟩ := recorded_spec c as hlaid.window.fixed
  have hnext := (hlaid.sysMmap c as).window.next
  rw [hend] at hnext ⊢
  rw [Int.toNat_natCast]
  dsimp only at hnext ⊢
  refine ⟨?_, fun e he => ?_, fun x hx => ?_, fun i hi => ?_⟩
  · have htop := hlaid.window.top
    rw [Process.kUserTop] at htop
    omega
  · rcases List.mem_cons.1 he with rfl | he
    · refine Apart.symm (Extent.apart_of_le ?_)
      unfold Heap.left Extent.stop
      dsimp only
      omega
    · obtain ⟨w, regions, hplace, -, -⟩ := place_eq s (alignUp c.length)
      have howned : e ∈ (s.place (alignUp c.length)).2.owned := by
        rw [hregions, hplace] at he
        rw [hplace]
        exact he
      intro x hx
      have hin := mem_iff.1 hx
      dsimp only at hin
      exact hapart e howned x (mem_iff.2 ⟨hin.1, by dsimp only; omega⟩)
  · have hin := mem_iff.1 hx
    dsimp only at hin
    obtain ⟨l, hl, hxl, hwithin, a, ha, hcap, hframe⟩ :=
      hrun.backs x (mem_iff.2 ⟨hin.1, by dsimp only; omega⟩)
    have hnew : l ∉ s.window.vspace.leaves := fun hold => hfresh a ha hcap l hold hframe.symm
    have hkept := hadds.kept hl
    have hall : WindowAdds (fun _ => True) s.window (s.recorded c as).window := by
      have := hrun.adds.trans hadds
      unfold WindowAdds
      rwa [(place_spec s (alignUp c.length)).2.2.1] at this
    exact ⟨l, hkept, hxl, hwithin, hnew, hall.alone hkept hnew⟩
  · rw [hmemory]
    exact recording_reads (by omega) hread

theorem alignUp_eq_zero {n : ℕ} (h : ¬ Rounds n) (hn : n < 2 ^ 64) : alignUp n = 0 := by
  unfold Rounds at h
  unfold alignUp
  rw [Mem.kPage_eq] at *
  omega

theorem place_zero (hg : Given s.window) : (s.place 0).1 = s.window.scratch.high := by
  have hfits : s.window.scratch.next + 0 ≤ s.window.scratch.high := hg.next
  unfold Heap.place Regions.take Heap.reserve Window.reserve Mem.Scratch.reserve
  simp only [Nat.zero_div, Nat.zero_mod, Nat.zero_mul, Nat.sub_zero, if_true, if_pos hfits]

theorem mmap_wraps {c : Heap.MapCall} (as : List Alloc) (hlaid : Laid [] s) (hr : ¬ Rounds c.length)
    (hlength : c.length < 2 ^ 64) (hrefuses : s.refusesMap c = false) (hhigh : s.window.scratch.high ≠ 0)
    (hread : c.anonymous = true ∨ ∀ error, s.files.pread c.fd 0 c.offset ≠ .inl error) :
    (s.sysMmap c as).1 = (s.window.scratch.high : Int) ∧
      2 ^ 64 < s.window.scratch.high + c.length := by
  have hzero := alignUp_eq_zero hr hlength
  have hbase := place_zero hlaid.window
  have hfiles := (place_spec s 0).2.1
  constructor
  · unfold Heap.sysMmap
    rw [if_neg (by rw [hrefuses]; decide)]
    dsimp only
    rw [hzero, hbase, if_neg hhigh, Nat.zero_div, mapRun_zero]
    dsimp only
    split
    · rfl
    · next hanonymous =>
      have hsame : ((s.place 0).2.clear s.window.scratch.high 0).files = s.files := hfiles
      rw [hsame]
      rcases hp : s.files.pread c.fd 0 c.offset with error | bytes
      · exact absurd hp (hread.resolve_left hanonymous error)
      · rfl
  · have hpage : kPage ≤ s.window.scratch.high :=
      Nat.le_of_dvd (Nat.pos_of_ne_zero hhigh) hlaid.window.aligned
    unfold Rounds at hr
    rw [Mem.kPage_eq] at *
    omega

theorem mmap_asAsked_iff {c : Heap.MapCall} {as : List Alloc} (hlaid : Laid [] s)
    (hc : Callable s (.mmap c as)) : AsAsked s (.mmap c as) ↔ Rounded s (.mmap c as) := by
  obtain ⟨hlength, hfresh⟩ := hc
  constructor
  · intro h
    by_contra hnot
    simp only [Rounded, not_or, not_and, not_exists, Bool.not_eq_true] at hnot
    obtain ⟨hr, hrefuses, hhigh, hread⟩ := hnot
    have hread' : c.anonymous = true ∨ ∀ error, s.files.pread c.fd 0 c.offset ≠ .inl error := by
      cases hanonymous : c.anonymous with
      | true => exact .inl rfl
      | false => exact .inr (hread hanonymous)
    obtain ⟨hbase, hwraps⟩ := mmap_wraps as hlaid hr hlength hrefuses hhigh hread'
    have hends := (h (by rw [hbase]; exact Int.natCast_nonneg _)).ends
    rw [hbase, Int.toNat_natCast] at hends
    omega
  · intro h hpos
    obtain ⟨hbase, -, -, hplaced, -, hread⟩ := mmap_success hpos
    by_cases hr : Rounds c.length
    · exact mmap_granted hlaid hr hfresh hpos
    -- the other ways the condition holds, the call fails
    have hzero := alignUp_eq_zero hr hlength
    rw [hzero] at hplaced hread
    rcases h with h | h | h | ⟨hanonymous, error, herror⟩
    · exact absurd h hr
    · have hend : s.sysMmap c as = (-eInval, s) := if_pos h
      rw [hend] at hpos
      exact absurd hpos (Int.not_le.2 neg_eInval)
    · rw [place_zero hlaid.window] at hplaced
      exact absurd h hplaced
    · rcases hread with hread | ⟨bytes, hbytes⟩
      · rw [hanonymous] at hread
        cases hread
      · rw [herror] at hbytes
        cases hbytes

/-! ## brk -/

def Heap.breakAt (s : Heap) (b : ℕ) : Heap := { s with brk := b }

theorem frameChunk_breakAt (s : Heap) (b index : ℕ) (as : List Alloc) :
    (s.breakAt b).frameChunk index as =
      ((s.frameChunk index as).1, (s.frameChunk index as).2.1.breakAt b, (s.frameChunk index as).2.2) := by
  have hreserve : (s.breakAt b).reserve 1 = ((s.reserve 1).1, (s.reserve 1).2.breakAt b) := by
    unfold Heap.reserve
    dsimp only [Heap.breakAt]
    split
    · rfl
    · rfl
  have hchunk : (s.breakAt b).chunkOf index = s.chunkOf index := rfl
  have hready : (s.breakAt b).ready = s.ready := rfl
  unfold Heap.frameChunk
  rw [hchunk, hready, hreserve]
  split
  · rfl
  split
  · rfl
  dsimp only
  split
  · rfl
  have htake : ((s.reserve 1).2.breakAt b).takeFrame as = (((s.reserve 1).2.takeFrame as).1,
      ((s.reserve 1).2.takeFrame as).2.1.breakAt b, ((s.reserve 1).2.takeFrame as).2.2) := rfl
  rw [htake]
  dsimp only
  split
  · rfl
  have hmap : ∀ (t : Heap) page frame bits bs, (t.breakAt b).mapFrame page frame bits bs =
      ((t.mapFrame page frame bits bs).1, (t.mapFrame page frame bits bs).2.1.breakAt b,
        (t.mapFrame page frame bits bs).2.2) := fun _ _ _ _ _ => rfl
  rw [hmap]
  dsimp only
  split
  · rfl
  · rfl

theorem mapPage_breakAt (s : Heap) (b address : ℕ) (as : List Alloc) :
    (s.breakAt b).mapPage address as =
      ((s.mapPage address as).1, (s.mapPage address as).2.1.breakAt b, (s.mapPage address as).2.2) := by
  have htake : (s.breakAt b).takeFrame as = ((s.takeFrame as).1, (s.takeFrame as).2.1.breakAt b,
      (s.takeFrame as).2.2) := rfl
  have hmap : ∀ (t : Heap) page frame bits bs, (t.breakAt b).mapFrame page frame bits bs =
      ((t.mapFrame page frame bits bs).1, (t.mapFrame page frame bits bs).2.1.breakAt b,
        (t.mapFrame page frame bits bs).2.2) := fun _ _ _ _ _ => rfl
  have hremember : ∀ (t : Heap) address frame bs, (t.breakAt b).remember address frame bs =
      ((t.remember address frame bs).1.breakAt b, (t.remember address frame bs).2) := by
    intro t address frame bs
    have hindex : (t.breakAt b).index address = t.index address := rfl
    unfold Heap.remember
    rw [hindex, frameChunk_breakAt]
    rcases t.frameChunk (t.index address) bs with ⟨_ | i, u, cs⟩
    · rfl
    · rfl
  have hwindow : ∀ t : Heap, (t.breakAt b).inWindow address = t.inWindow address := fun _ => rfl
  unfold Heap.mapPage Heap.mapPagesOf Heap.rememberPages Heap.rememberPages
  rw [htake]
  dsimp only
  split
  · rfl
  rw [hmap]
  dsimp only
  split
  · rfl
  rw [hwindow, hremember]
  split
  · rfl
  · rfl

theorem mapAll_breakAt (n : ℕ) (s : Heap) (b address : ℕ) (as : List Alloc) :
    (Heap.mapAll Heap.mapPage kPage n (s.breakAt b) address as).1 =
      (Heap.mapAll Heap.mapPage kPage n s address as).1 := by
  induction n generalizing s address as with
  | zero => rfl
  | succ n ih =>
    unfold Heap.mapAll
    rw [mapPage_breakAt]
    rcases s.mapPage address as with ⟨_ | _, t, bs⟩
    · rfl
    · exact ih t (address + kPage) bs

theorem stopsAt_of_refused {n : ℕ} {as : List Alloc}
    (h : (Heap.mapAll Heap.mapPage kPage n s s.brk as).1 = false) : ∃ k < n, s.StopsAt as k := by
  induction n with
  | zero => cases h
  | succ n ih =>
    rcases hn : (Heap.mapAll Heap.mapPage kPage n s s.brk as).1 with _ | _
    · obtain ⟨k, hk, hstops⟩ := ih hn
      exact ⟨k, by omega, hstops⟩
    · exact ⟨n, by omega, hn, h⟩

theorem brkTo_stops {n k : ℕ} {as : List Alloc} (hk : k < n) (h : s.StopsAt as k) :
    (Heap.brkTo n s as).1 = false ∧ (Heap.brkTo n s as).2.brk = s.brk + k * kPage ∧
      (Heap.brkTo n s as).2.memory = s.memory := by
  induction n generalizing k s as with
  | zero => exact absurd hk (Nat.not_lt_zero k)
  | succ n ih =>
    have hpage := mapped_mapPage s s.brk as
    obtain ⟨hthere, hnext⟩ := h
    unfold Heap.mapAll at hnext
    unfold Heap.brkTo
    rcases heq : s.mapPage s.brk as with ⟨_ | _, t, bs⟩
    · rw [heq] at hpage
      cases k with
      | zero =>
        rw [Nat.zero_mul]
        exact ⟨rfl, hpage.brk, hpage.memory⟩
      | succ k =>
        unfold Heap.mapAll at hthere
        rw [heq] at hthere
        cases hthere
    · rw [heq] at hpage hnext
      dsimp only at hpage hnext
      cases k with
      | zero => cases hnext
      | succ k =>
        unfold Heap.mapAll at hthere
        rw [heq] at hthere
        dsimp only at hthere
        have hstops : (t.breakAt (t.brk + kPage)).StopsAt bs k := by
          have hat : (t.breakAt (t.brk + kPage)).brk = s.brk + kPage := by
            rw [← hpage.brk]
            rfl
          unfold Heap.StopsAt
          rw [mapAll_breakAt, mapAll_breakAt, hat]
          exact ⟨hthere, hnext⟩
        obtain ⟨hfalse, hbrk, hmemory⟩ := ih (Nat.lt_of_succ_lt_succ hk) hstops
        refine ⟨hfalse, hbrk.trans ?_, hmemory.trans hpage.memory⟩
        have hat : (t.breakAt (t.brk + kPage)).brk = s.brk + kPage := by
          rw [← hpage.brk]
          rfl
        rw [hat, Nat.succ_mul]
        omega

theorem brkTo_done {n : ℕ} {as : List Alloc}
    (h : (Heap.mapAll Heap.mapPage kPage n s s.brk as).1 = true) :
    (Heap.brkTo n s as).1 = true := by
  induction n generalizing s as with
  | zero => rfl
  | succ n ih =>
    have hpage := mapped_mapPage s s.brk as
    unfold Heap.mapAll at h
    unfold Heap.brkTo
    rcases heq : s.mapPage s.brk as with ⟨_ | _, t, bs⟩
    · rw [heq] at h
      cases h
    · rw [heq] at h hpage
      dsimp only at h hpage ⊢
      refine @ih (t.breakAt (t.brk + kPage)) bs ?_
      have hat : (t.breakAt (t.brk + kPage)).brk = s.brk + kPage := by
        rw [← hpage.brk]
        rfl
      rwa [mapAll_breakAt, hat]

theorem sysBrk_taken {s : Heap} {newBreak : ℕ} (as : List Alloc) (hrefuses : ¬ s.refusesBrk newBreak) :
    s.sysBrk newBreak as = match Heap.brkTo (s.brkPages newBreak) s as with
      | (false, s') => (s'.brk, s')
      | (true, s') => (s'.brk, s'.clear s.brk (s'.brk - s.brk)) := by
  unfold Heap.refusesBrk at hrefuses
  push Not at hrefuses
  obtain ⟨hready, hzero, hlow, hhigh⟩ := hrefuses
  unfold Heap.sysBrk
  rw [if_neg hready, if_neg (by omega)]
  rfl

theorem brk_asAsked_iff (s : Heap) (newBreak : ℕ) (as : List Alloc) :
    AsAsked s (.brk newBreak as) ↔ Rounded s (.brk newBreak as) := by
  unfold AsAsked Rounded
  dsimp only
  by_cases hrefuses : s.refusesBrk newBreak
  · -- the break stays where it is
    have hstays : (s.sysBrk newBreak as).1 ≤ s.brk := by
      unfold Heap.refusesBrk at hrefuses
      unfold Heap.sysBrk
      split
      · exact Nat.zero_le _
      · next hready =>
        rw [if_pos (hrefuses.resolve_left hready)]
    exact ⟨fun _ => .inl hrefuses, fun _ a hlow hhigh => by omega⟩
  have hbrk := sysBrk_taken as hrefuses
  rcases hall : (Heap.mapAll Heap.mapPage kPage (s.brkPages newBreak) s s.brk as).1 with _ | _
  · obtain ⟨k, hk, hstops⟩ := stopsAt_of_refused hall
    obtain ⟨hfalse, hat, hmemory⟩ := brkTo_stops hk hstops
    have hend : s.sysBrk newBreak as = (s.brk + k * kPage, (Heap.brkTo (s.brkPages newBreak) s as).2) := by
      rw [hbrk, ← hat]
      rcases heq : Heap.brkTo (s.brkPages newBreak) s as with ⟨_ | _, s'⟩
      · rfl
      · rw [heq] at hfalse
        cases hfalse
    rw [hend, hmemory]
    constructor
    · intro h
      refine .inr fun k' hk' hstops' a hlow hhigh => h a hlow ?_
      rwa [← (brkTo_stops hk' hstops').2.1, hat] at hhigh
    · intro h a hlow hhigh
      exact h.resolve_left hrefuses k hk hstops a hlow hhigh
  · have hdone := brkTo_done hall
    refine ⟨fun _ => .inr fun k hk hstops => ?_, fun _ a hlow hhigh => ?_⟩
    · rw [(brkTo_stops hk hstops).1] at hdone
      cases hdone
    · rcases heq : Heap.brkTo (s.brkPages newBreak) s as with ⟨_ | _, s'⟩
      · rw [heq] at hdone
        cases hdone
      · rw [heq] at hbrk
        rw [hbrk] at hhigh ⊢
        dsimp only at hhigh
        exact if_pos ⟨hlow, by omega⟩

/-! ## Every run -/

/-- Anonymous memory of all but one of the addresses there are. -/
def longMap : Heap.MapCall := ⟨2 ^ 64 - 1, true, true, false, true, false, -1, 0⟩

/-- A process with an arena of two pages, whose memory is not zero. -/
def usedProcess : Process where
  heap := (Heap.init smallWindow ⟨[], fun _ => []⟩ (fun _ => 1) 8192).get (by decide +kernel)
  live := []

/-- The arena's second page, for which the allocator has no frame after the first page's. -/
def askArena : Call := .brk (usedProcess.heap.base + 8192) [⟨[], 1, []⟩, ⟨[], 2, []⟩]

end Aegir.Hosted
