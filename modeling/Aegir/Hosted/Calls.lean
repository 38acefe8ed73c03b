/-
  What each call on the heap can do.

  One lemma for each of `mmap` (`mmap_cases`), `munmap` (`munmap_cases`) and `brk`
  (`brk_spec`): how the call ends, and what it is made of.  What holds of a process is
  proved from these.
-/
import Aegir.Hosted.Steps

namespace Aegir.Hosted

open Aegir.Lib
open Aegir.Lib.Extent (cover cover_cons cover_nil cover_append mem_iff)
open Aegir.Mem (Window Alloc kPage kLargePage pageBits)

variable {s s' t : Heap}

/-! ## Taking addresses -/

theorem place_eq (s : Heap) (needed : ℕ) : ∃ w regions,
    (s.place needed).2 = { s with window := w, regions := regions } ∧
      w.vspace = s.window.vspace ∧ Lower s.window w := by
  have hreserve : ∀ (t : Heap) (pages : ℕ), ∃ w, (t.reserve pages).2 = { t with window := w } ∧
      w.vspace = t.window.vspace ∧ Lower t.window w := by
    intro t pages
    unfold Heap.reserve
    rcases hr : t.window.reserve (pages % 2 ^ 32) with ⟨_ | at_, w⟩
    · exact ⟨t.window, rfl, rfl, .refl _⟩
    · obtain ⟨hl, hv, -⟩ := reserve_some hr
      exact ⟨w, rfl, hv, hl⟩
  unfold Heap.place
  split
  · obtain ⟨w, heq, hv, hl⟩ := hreserve s (needed / kPage)
    exact ⟨w, s.regions, heq, hv, hl⟩
  · next r _ =>
    split
    · obtain ⟨w, heq, hv, hl⟩ := hreserve { s with regions := r } (needed / kPage)
      exact ⟨w, r, heq, hv, hl⟩
    · exact ⟨s.window, r, rfl, rfl, .refl _⟩

theorem place_spec (s : Heap) (needed : ℕ) :
    (s.place needed).2.runs = s.runs ∧ (s.place needed).2.files = s.files ∧
      (s.place needed).2.window.vspace.leaves = s.window.vspace.leaves ∧
      (s.place needed).2.frames = s.frames ∧ Lower s.window (s.place needed).2.window := by
  obtain ⟨w, regions, heq, hv, hl⟩ := place_eq s needed
  rw [heq]
  exact ⟨rfl, rfl, congrArg _ hv, rfl, hl⟩

/-! ## mmap -/

namespace Heap

/-- The heap when `mmap` has its addresses and has mapped what it could of them. -/
def mapping (s : Heap) (c : MapCall) (as : List Alloc) : Bool × Heap × List Alloc :=
  (s.place (alignUp c.length)).2.mapRun (!c.anonymous) (s.place (alignUp c.length)).1
    (alignUp c.length / kPage) as

/-- The heap when `mmap` records its run, and the answers that are left. -/
def recording (s : Heap) (c : MapCall) (as : List Alloc) : Heap × List Alloc :=
  let base := (s.place (alignUp c.length)).1
  let zeroed := (s.mapping c as).2.1.clear base (alignUp c.length)
  if c.anonymous then (zeroed, (s.mapping c as).2.2)
  else
    match s.files.pread c.fd (alignUp c.length) c.offset with
    | .inl _ => (zeroed, (s.mapping c as).2.2)
    | .inr bytes => (zeroed.fill base bytes, (s.mapping c as).2.2)

/-- The run `mmap` records. -/
def runOf (s : Heap) (c : MapCall) : Run :=
  ⟨(s.place (alignUp c.length)).1, alignUp c.length, writeBackFd c, c.offset⟩

end Heap

theorem neg_eNomem : -eNomem < 0 := by decide

theorem neg_eInval : -eInval < 0 := by decide

theorem pread_error {f : Files} {fd : Int} {count : ℕ} {offset error : Int}
    (h : f.pread fd count offset = .inl error) : error < 0 := by
  unfold Files.pread at h
  split at h
  · cases h
    decide
  split at h
  · cases h
    decide
  split at h
  · cases h
    decide
  split at h
  · cases h
    decide
  · cases h

theorem mapped_mapping (s : Heap) (c : Heap.MapCall) (as : List Alloc) :
    Mapped (s.place (alignUp c.length)).2 (s.mapping c as).2.1 :=
  mapped_mapRun _ _ _ _ _

theorem recording_spec (s : Heap) (c : Heap.MapCall) (as : List Alloc) :
    ∃ m, (s.recording c as).1 = { (s.mapping c as).2.1 with memory := m } := by
  unfold Heap.recording
  dsimp only
  split
  · exact ⟨_, rfl⟩
  split
  · exact ⟨_, rfl⟩
  · exact ⟨_, rfl⟩

/-- How a call to `mmap` ends. -/
inductive MapEnds (s : Heap) (c : Heap.MapCall) (as : List Alloc) (r : Int × Heap) : Prop where
  | refused (h : r = (-eInval, s))
  /-- There is no address. -/
  | unplaced (h : r = (-eNomem, (s.place (alignUp c.length)).2))
  /-- A page or the file is refused. -/
  | failed (m : ℕ → UInt8) (error : Int) (hneg : error < 0)
      (h : r = (error, { (s.mapping c as).2.1 with memory := m }))
  | done (hready : s.ready = true) (hlength : c.length ≠ 0) (hbase : (s.place (alignUp c.length)).1 ≠ 0)
      (hmapped : (s.mapping c as).1 = true)
      (hread : c.anonymous = true ∨ ∃ bytes, s.files.pread c.fd (alignUp c.length) c.offset = .inr bytes)
      (h : r = (((s.place (alignUp c.length)).1 : Int),
        (s.recording c as).1.recordRun (s.runOf c) (s.recording c as).2))

theorem mmap_cases (s : Heap) (c : Heap.MapCall) (as : List Alloc) :
    MapEnds s c as (s.sysMmap c as) := by
  have hfiles : (s.mapping c as).2.1.files = s.files :=
    (mapped_mapping s c as).files.trans (place_spec s _).2.1
  have hread := hfiles
  have hmap : (s.place (alignUp c.length)).2.mapRun (!c.anonymous) (s.place (alignUp c.length)).1
    (alignUp c.length / kPage) as = s.mapping c as := rfl
  unfold Heap.sysMmap
  split
  · exact .refused rfl
  next hrefuses =>
  dsimp only
  split
  · exact .unplaced rfl
  next hbase =>
  rw [hmap]
  rcases hm : s.mapping c as with ⟨_ | _, t, bs⟩
  · refine .failed t.memory (-eNomem) neg_eNomem ?_
    rw [hm]
  · rw [hm] at hfiles
    have hok : (s.mapping c as).1 = true := by rw [hm]
    have hargs : s.ready = true ∧ c.length ≠ 0 := by
      simp only [Heap.refusesMap, Bool.or_eq_true, Bool.not_eq_true', beq_iff_eq, not_or] at hrefuses
      exact ⟨by simpa using hrefuses.1.1.1.1, hrefuses.1.1.2⟩
    dsimp only at hfiles ⊢
    split
    · next hanonymous =>
      refine .done hargs.1 hargs.2 hbase hok (.inl hanonymous) ?_
      unfold Heap.recording
      dsimp only
      rw [if_pos hanonymous, hm]
      rfl
    · next hanonymous =>
      have hsame : (t.clear (s.place (alignUp c.length)).1 (alignUp c.length)).files = s.files := hfiles
      rw [hsame]
      rcases hpread : s.files.pread c.fd (alignUp c.length) c.offset with error | bytes
      · refine .failed (t.clear (s.place (alignUp c.length)).1 (alignUp c.length)).memory error
          (pread_error hpread) ?_
        rw [hm]
        rfl
      · refine .done hargs.1 hargs.2 hbase hok (.inr ⟨bytes, hpread⟩) ?_
        unfold Heap.recording
        dsimp only
        rw [if_neg hanonymous, hpread, hm]
        rfl

/-! ## The record -/

def Heap.RoomFor (s : Heap) (as : List Alloc) : Prop :=
  s.runs.length = s.capacity → (s.growRunRecord as).1 = true

/-- The record's page and the window may change, and memory. -/
structure Steady (s t : Heap) : Prop where
  ready : t.ready = s.ready
  regions : t.regions = s.regions
  runs : t.runs = s.runs
  files : t.files = s.files

theorem Mapped.steady (h : Mapped s t) : Steady s t := ⟨h.ready, h.regions, h.runs, h.files⟩

theorem growRunRecord_spec (s : Heap) (as : List Alloc) : Steady s (s.growRunRecord as).2.1 ∧
    ((s.growRunRecord as).1 = true → (s.growRunRecord as).2.1.record ≠ 0 ∧
      (s.growRunRecord as).2.1.capacity = kPage / kRunBytes) ∧
    ((s.growRunRecord as).1 = false → (s.growRunRecord as).2.1.record = s.record ∧
      (s.growRunRecord as).2.1.capacity = s.capacity) := by
  have hbook := mapped_bookPage s as
  unfold Heap.growRunRecord
  dsimp only
  split
  · exact ⟨hbook.steady, nofun, fun _ => ⟨hbook.record, hbook.capacity⟩⟩
  · next hne => exact ⟨⟨hbook.ready, hbook.regions, hbook.runs, hbook.files⟩, fun _ => ⟨hne, rfl⟩, nofun⟩

/-- How a run is recorded. -/
inductive RecordEnds (s : Heap) (r : Run) (as : List Alloc) (t : Heap) : Prop where
  | room (hlt : s.runs.length ≠ s.capacity) (h : t = { s with runs := s.runs ++ [r] })
  | grown (u : Heap) (hu : Steady s u) (hrecord : u.record ≠ 0) (hcapacity : u.capacity = kPage / kRunBytes)
      (h : t = { u with runs := s.runs ++ [r] })
  | lost (hroom : ¬ s.RoomFor as) (ht : Steady s t) (hrecord : t.record = s.record)
      (hcapacity : t.capacity = s.capacity)

theorem recordRun_cases (s : Heap) (r : Run) (as : List Alloc) : RecordEnds s r as (s.recordRun r as) := by
  unfold Heap.recordRun
  split
  · next heq =>
    obtain ⟨hsteady, hhad, hnot⟩ := growRunRecord_spec s as
    have hroom : s.RoomFor as → (s.growRunRecord as).1 = true := fun h => h heq
    rcases hgrow : s.growRunRecord as with ⟨_ | _, t, bs⟩
    · rw [hgrow] at hsteady hnot hroom
      exact .lost (fun h => nomatch hroom h) hsteady (hnot rfl).1 (hnot rfl).2
    · rw [hgrow] at hsteady hhad
      refine .grown t hsteady (hhad rfl).1 (hhad rfl).2 ?_
      have hruns : t.runs = s.runs := hsteady.runs
      simp only [hruns]
  · next hne => exact .room hne rfl

theorem length_recordRun (s : Heap) (r : Run) (as : List Alloc) :
    (s.recordRun r as).runs.length ≤ s.runs.length + 1 := by
  rcases recordRun_cases s r as with ⟨-, h⟩ | ⟨u, -, -, -, h⟩ | ⟨-, h, -, -⟩
  · rw [h, List.length_append, List.length_singleton]
  · rw [h, List.length_append, List.length_singleton]
  · rw [h.runs]
    exact Nat.le_succ _

theorem mmap_success {c : Heap.MapCall} {as : List Alloc} (h : 0 ≤ (s.sysMmap c as).1) :
    (s.sysMmap c as).1 = ((s.place (alignUp c.length)).1 : Int) ∧ s.ready = true ∧ c.length ≠ 0 ∧
      (s.place (alignUp c.length)).1 ≠ 0 ∧ (s.mapping c as).1 = true ∧
      (c.anonymous = true ∨ ∃ bytes, s.files.pread c.fd (alignUp c.length) c.offset = .inr bytes) := by
  have hno : ∀ {error : Int} {t : Heap}, error < 0 → s.sysMmap c as = (error, t) → False := by
    intro error t hneg heq
    rw [heq] at h
    exact absurd h (Int.not_le.2 hneg)
  rcases mmap_cases s c as with hend | hend | ⟨m, error, hneg, hend⟩ | ⟨hready, hlength, hbase, hok, hread, hend⟩
  · exact (hno neg_eInval hend).elim
  · exact (hno neg_eNomem hend).elim
  · exact (hno hneg hend).elim
  · exact ⟨by rw [hend], hready, hlength, hbase, hok, hread⟩

/-- Neither the files change nor whether the heap is ready. -/
structure Keeps (s t : Heap) : Prop where
  ready : t.ready = s.ready
  files : t.files = s.files

/-- What `mmap` leaves of the runs. -/
inductive MapRuns (s : Heap) (c : Heap.MapCall) (as : List Alloc) (r : Int × Heap) : Prop where
  | failed (hneg : r.1 < 0) (hruns : r.2.runs = s.runs) (hrecord : r.2.record = s.record)
      (hcapacity : r.2.capacity = s.capacity)
  | recorded (hr : r.1 = ((s.place (alignUp c.length)).1 : Int)) (hruns : r.2.runs = s.runs ++ [s.runOf c])
      (hrecord : r.2.record = s.record ∧ r.2.capacity = s.capacity ∧ s.runs.length ≠ s.capacity ∨
        r.2.record ≠ 0 ∧ r.2.capacity = kPage / kRunBytes)
  | unrecorded (hr : r.1 = ((s.place (alignUp c.length)).1 : Int)) (hruns : r.2.runs = s.runs)
      (hrecord : r.2.record = s.record) (hcapacity : r.2.capacity = s.capacity)
      (hroom : ¬ (s.recording c as).1.RoomFor (s.recording c as).2)

theorem mmap_runs (s : Heap) (c : Heap.MapCall) (as : List Alloc) :
    Keeps s (s.sysMmap c as).2 ∧ MapRuns s c as (s.sysMmap c as) := by
  obtain ⟨w, regions, hplace, -, -⟩ := place_eq s (alignUp c.length)
  have hmapping := mapped_mapping s c as
  rw [hplace] at hmapping
  rcases mmap_cases s c as with hend | hend | ⟨m, error, hneg, hend⟩ | ⟨-, -, -, -, -, hend⟩
  · rw [hend]
    exact ⟨⟨rfl, rfl⟩, .failed neg_eInval rfl rfl rfl⟩
  · rw [hend, hplace]
    exact ⟨⟨rfl, rfl⟩, .failed neg_eNomem rfl rfl rfl⟩
  · rw [hend]
    exact ⟨⟨hmapping.ready, hmapping.files⟩,
      .failed hneg hmapping.runs hmapping.record hmapping.capacity⟩
  · rw [hend]
    obtain ⟨m, hm⟩ := recording_spec s c as
    have hready : (s.recording c as).1.ready = s.ready := by rw [hm]; exact hmapping.ready
    have hfiles : (s.recording c as).1.files = s.files := by rw [hm]; exact hmapping.files
    have hruns : (s.recording c as).1.runs = s.runs := by rw [hm]; exact hmapping.runs
    have hrecord : (s.recording c as).1.record = s.record := by rw [hm]; exact hmapping.record
    have hcapacity : (s.recording c as).1.capacity = s.capacity := by rw [hm]; exact hmapping.capacity
    rcases recordRun_cases (s.recording c as).1 (s.runOf c) (s.recording c as).2 with
      ⟨hlt, h⟩ | ⟨u, hu, hpage, hsize, h⟩ | ⟨hroom, h, hsame, hsame'⟩
    · rw [hruns, hcapacity] at hlt
      rw [h]
      refine ⟨⟨hready, hfiles⟩, .recorded rfl ?_ (.inl ⟨hrecord, hcapacity, hlt⟩)⟩
      rw [← hruns]
    · rw [h]
      refine ⟨⟨hu.ready.trans hready, hu.files.trans hfiles⟩, .recorded rfl ?_ (.inr ⟨hpage, hsize⟩)⟩
      rw [← hruns]
    · exact ⟨⟨h.ready.trans hready, h.files.trans hfiles⟩,
        .unrecorded rfl (h.runs.trans hruns) (hsame.trans hrecord) (hsame'.trans hcapacity) hroom⟩

/-! ## Where a run that was mapped lies -/

theorem mapPagesOf_within {bits pages address : ℕ} {as : List Alloc}
    (hg : s.window.scratch.mayGrow = false) (h : (Heap.mapPagesOf bits pages s address as).1 = true) :
    address + kPage ≤ s.window.scratch.limit := by
  have hlimit := (mapped_takeFrame s as).window.fixed hg
  unfold Heap.mapPagesOf at h
  dsimp only at h
  split at h
  · cases h
  split at h
  · cases h
  next hmap =>
  unfold Heap.mapFrame Window.mapAt at hmap
  dsimp only at hmap
  split at hmap
  · next hmay =>
    obtain ⟨-, -, -, hle⟩ := of_decide_eq_true hmay
    rwa [hlimit] at hle
  · exact absurd rfl hmap

theorem mapAll_within {map : Heap → ℕ → List Alloc → Bool × Heap × List Alloc} {size : ℕ}
    (hmap : ∀ s address as, Mapped s (map s address as).2.1)
    (hin : ∀ s address as, s.window.scratch.mayGrow = false → (map s address as).1 = true →
      address + size ≤ s.window.scratch.limit + kLargePage) (n : ℕ) (s : Heap) (address : ℕ) (as : List Alloc)
    (hg : s.window.scratch.mayGrow = false) (hn : n ≠ 0) (h : (Heap.mapAll map size n s address as).1 = true) :
    address + n * size ≤ s.window.scratch.limit + kLargePage := by
  induction n generalizing s address as with
  | zero => exact absurd rfl hn
  | succ n ih =>
    have hfirst := hin s address as hg
    have hw := (hmap s address as).window
    unfold Heap.mapAll at h
    rw [Nat.succ_mul]
    rcases heq : map s address as with ⟨_ | _, t, bs⟩
    · rw [heq] at h
      cases h
    rw [heq] at h hw hfirst
    have hfixed : t.window.scratch.limit = s.window.scratch.limit := hw.fixed hg
    by_cases hlast : n = 0
    · rw [hlast, Nat.zero_mul, Nat.zero_add]
      exact hfirst rfl
    · have hrest := ih t (address + size) bs (hw.mayGrow.trans hg) hlast h
      omega

theorem headPages_le (address n : ℕ) : Heap.headPages address n ≤ n := by
  induction n generalizing address with
  | zero => exact le_rfl
  | succ n ih =>
    unfold Heap.headPages
    split
    · exact Nat.zero_le _
    · exact Nat.succ_le_succ (ih _)

theorem mapRun_zero (s : Heap) (fileBacked : Bool) (base : ℕ) (as : List Alloc) :
    s.mapRun fileBacked base 0 as = (true, s, as) := by
  unfold Heap.mapRun
  simp [Heap.headPages, Heap.mapAll]

theorem mapRun_true {fileBacked : Bool} {base pages : ℕ} {s t : Heap} {as bs : List Alloc}
    (h : s.mapRun fileBacked base pages as = (true, t, bs)) :
    Heap.mapAll Heap.mapPage kPage pages s base as = (true, t, bs) ∨
    ∃ head megas tail u cs v ds, head * kPage + megas * kLargePage + tail * kPage = pages * kPage ∧
      Heap.mapAll Heap.mapPage kPage head s base as = (true, u, cs) ∧
      Heap.mapAll Heap.mapLargePage kLargePage megas u (base + head * kPage) cs = (true, v, ds) ∧
      Heap.mapAll Heap.mapPage kPage tail v (base + head * kPage + megas * kLargePage) ds = (true, t, bs) := by
  have hsize : kMegaPages * kPage = kLargePage := by
    rw [Mem.kPage_eq, Mem.kLargePage_eq]
    rfl
  unfold Heap.mapRun at h
  split at h
  · have hle := headPages_le base pages
    dsimp only at h
    generalize Heap.headPages base pages = head at h hle
    have hmega : (if (base + head * kPage) % kLargePage = 0 then (pages - head) / kMegaPages else 0) *
        kMegaPages ≤ pages - head := by
      split
      · exact Nat.div_mul_le_self _ _
      · rw [Nat.zero_mul]
        exact Nat.zero_le _
    generalize (if (base + head * kPage) % kLargePage = 0 then (pages - head) / kMegaPages else 0) = megas
      at h hmega
    rcases hhead : Heap.mapAll Heap.mapPage kPage head s base as with ⟨_ | _, u, cs⟩
    · rw [hhead] at h
      cases h
    rw [hhead] at h
    dsimp only at h
    rcases hmid : Heap.mapAll Heap.mapLargePage kLargePage megas u (base + head * kPage) cs with ⟨_ | _, v, ds⟩
    · rw [hmid] at h
      cases h
    rw [hmid] at h
    refine Or.inr ⟨head, megas, pages - head - megas * kMegaPages, u, cs, v, ds, ?_, hhead, hmid, h⟩
    rw [← hsize, ← Nat.mul_assoc, ← Nat.add_mul, ← Nat.add_mul]
    congr 1
    omega
  · exact Or.inl h

theorem mapRun_within {fileBacked : Bool} {base pages : ℕ} {as : List Alloc}
    (hg : s.window.scratch.mayGrow = false) (hn : pages ≠ 0)
    (h : (s.mapRun fileBacked base pages as).1 = true) :
    base + pages * kPage ≤ s.window.scratch.limit + kLargePage := by
  have hpage : ∀ (s : Heap) address as, s.window.scratch.mayGrow = false →
      (s.mapPage address as).1 = true → address + kPage ≤ s.window.scratch.limit + kLargePage :=
    fun _ _ _ hg h => (mapPagesOf_within hg h).trans (Nat.le_add_right _ _)
  have hlarge : ∀ (s : Heap) address as, s.window.scratch.mayGrow = false →
      (s.mapLargePage address as).1 = true → address + kLargePage ≤ s.window.scratch.limit + kLargePage :=
    fun _ _ _ hg h => Nat.add_le_add_right ((Nat.le_add_right _ _).trans (mapPagesOf_within hg h)) _
  rcases hrun : s.mapRun fileBacked base pages as with ⟨_ | _, t, bs⟩
  · rw [hrun] at h
    cases h
  rcases mapRun_true hrun with hall | ⟨head, megas, tail, u, cs, v, ds, hpages, hhead, hmid, htail⟩
  · exact mapAll_within mapped_mapPage hpage pages s base as hg hn (by rw [hall])
  have hu := (mapped_mapAll mapped_mapPage kPage head s base as).window
  have hv := (mapped_mapAll mapped_mapLargePage kLargePage megas u (base + head * kPage) cs).window
  rw [hhead] at hu
  rw [hmid] at hv
  have hgu := hu.mayGrow.trans hg
  have hlu : u.window.scratch.limit = s.window.scratch.limit := hu.fixed hg
  have hlv : v.window.scratch.limit = u.window.scratch.limit := hv.fixed hgu
  rw [← hpages]
  -- the last part that has pages
  rcases Nat.eq_zero_or_pos tail with rfl | hpos
  · rcases Nat.eq_zero_or_pos megas with rfl | hpos
    · have hne : head ≠ 0 := by
        rintro rfl
        have hone := Mem.kPage_eq
        rcases Nat.mul_eq_zero.1 (show pages * kPage = 0 by omega) with hzero | hzero
        · exact hn hzero
        · omega
      have := mapAll_within mapped_mapPage hpage head s base as hg hne (by rw [hhead])
      omega
    · have := mapAll_within mapped_mapLargePage hlarge megas u _ cs hgu hpos.ne' (by rw [hmid])
      omega
  · have := mapAll_within mapped_mapPage hpage tail v _ ds (hv.mayGrow.trans hgu) hpos.ne' (by rw [htail])
    omega

/-! ## munmap -/

theorem runFor_some {addr length i : ℕ} {r : Run} (h : s.runFor addr length = some (i, r)) :
    s.ready = true ∧ addr ≠ 0 ∧ length ≠ 0 ∧ s.runs[i]? = some r ∧ r.base = addr ∧
      r.bytes = alignUp length := by
  unfold Heap.runFor at h
  split at h
  · cases h
  next hargs =>
  push Not at hargs
  obtain ⟨j, hfind, h⟩ := Option.bind_eq_some_iff.1 h
  obtain ⟨r', hr, h⟩ := Option.bind_eq_some_iff.1 h
  split at h
  · cases h
  next hbytes =>
  obtain ⟨rfl, rfl⟩ : j = i ∧ r' = r := by simpa using h
  have hbase : r'.base = addr := by
    obtain ⟨hj, hp, -⟩ := List.findIdx?_eq_some_iff_getElem.1 hfind
    rw [List.getElem?_eq_getElem hj] at hr
    rw [← Option.some.inj hr]
    exact of_decide_eq_true hp
  exact ⟨by simpa using hargs.1, hargs.2.1, hargs.2.2, hr, hbase, not_not.1 hbytes⟩

theorem forgetRun_perm {runs : List Run} {i : ℕ} {r : Run} (h : runs[i]? = some r) :
    runs.Perm (r :: Heap.forgetRun runs i) := by
  obtain ⟨hi, rfl⟩ := List.getElem?_eq_some_iff.1 h
  have hne : runs ≠ [] := List.ne_nil_of_length_pos (by omega)
  obtain ⟨front, last, rfl⟩ := (List.eq_nil_or_concat' runs).resolve_left hne
  have hforget : Heap.forgetRun (front ++ [last]) i = ((front ++ [last]).set i last).dropLast := by
    unfold Heap.forgetRun
    rw [List.getLast?_concat]
  rw [hforget]
  rw [List.length_append, List.length_singleton] at hi
  rcases Nat.lt_or_ge i front.length with hlt | hge
  · rw [List.set_append_left _ _ hlt, List.dropLast_concat, List.getElem_append_left hlt]
    have hset : (front.set i last).Perm (last :: front.eraseIdx i) := List.set_perm_cons_eraseIdx hlt _
    have hget : (front[i] :: front.eraseIdx i).Perm front := List.getElem_cons_eraseIdx_perm hlt
    calc (front ++ [last]).Perm (last :: front) := List.perm_append_singleton last front
      _ |>.Perm (last :: front[i] :: front.eraseIdx i) := hget.symm.cons last
      _ |>.Perm (front[i] :: last :: front.eraseIdx i) := .swap _ _ _
      _ |>.Perm (front[i] :: front.set i last) := hset.symm.cons _
  · obtain rfl : i = front.length := by omega
    rw [List.set_append_right _ _ le_rfl, Nat.sub_self]
    simp only [List.set_cons_zero, List.dropLast_concat, List.getElem_concat_length]
    exact List.perm_append_singleton last front

theorem length_forgetRun {runs : List Run} {i : ℕ} {r : Run} (h : runs[i]? = some r) :
    runs.length = (Heap.forgetRun runs i).length + 1 := (forgetRun_perm h).length_eq

/-- How a run ends that is given to the free list. -/
inductive GiveEnds (s : Heap) (e : Extent) (as : List Alloc) (r : Bool × Heap × List Alloc) : Prop where
  | refused (hr : s.regions.refuses e = true) (h : r = (false, s, as))
  | short (hn : s.regions.nodes = 0) (hp : (s.bookPage as).1 = 0) (h : r = (false, (s.bookPage as).2))
  | taken (hr : s.regions.refuses e = false) (h : r = (true, { s with regions := s.regions.insert e }, as))
  | grown (hr : s.regions.refuses e = false) (hp : (s.bookPage as).1 ≠ 0)
      (h : r = (true, { (s.bookPage as).2.1 with
        regions := Regions.insert ⟨(s.bookPage as).2.1.regions.free,
          (s.bookPage as).2.1.regions.nodes + kPage / kNodeBytes⟩ e
        books := ⟨(s.bookPage as).1, kPage⟩ :: (s.bookPage as).2.1.books }, (s.bookPage as).2.2))

theorem give_cases (s : Heap) (e : Extent) (as : List Alloc) : GiveEnds s e as (s.give e as) := by
  unfold Heap.give
  split
  · next hr => exact .refused hr rfl
  next hr =>
  rw [Bool.not_eq_true] at hr
  split
  · exact .taken hr rfl
  next hn =>
  dsimp only
  split
  · next hp => exact .short (not_not.1 hn) hp rfl
  · next hp => exact .grown hr hp rfl

theorem give_steady (s : Heap) (e : Extent) (as : List Alloc) :
    (s.give e as).2.1.ready = s.ready ∧ (s.give e as).2.1.runs = s.runs ∧
      (s.give e as).2.1.files = s.files ∧ (s.give e as).2.1.record = s.record ∧
      (s.give e as).2.1.capacity = s.capacity := by
  have hbook := mapped_bookPage s as
  rcases give_cases s e as with ⟨-, hend⟩ | ⟨-, -, hend⟩ | ⟨-, hend⟩ | ⟨-, -, hend⟩
  · rw [hend]
    exact ⟨rfl, rfl, rfl, rfl, rfl⟩
  · rw [hend]
    exact ⟨hbook.ready, hbook.runs, hbook.files, hbook.record, hbook.capacity⟩
  · rw [hend]
    exact ⟨rfl, rfl, rfl, rfl, rfl⟩
  · rw [hend]
    exact ⟨hbook.ready, hbook.runs, hbook.files, hbook.record, hbook.capacity⟩

theorem lower_unmap {w : Window} {frame : ℕ} (h : frame ≠ w.scratch.lastCap) : Lower w (w.unmap frame) := by
  unfold Window.unmap
  split
  · exact .refl w
  · dsimp only
    rw [if_neg h]
    exact .of_scratch rfl

theorem dropFrames_spec (n : ℕ) (s : Heap) (address released : ℕ) (as : List Alloc) :
    ∃ w frames chunks, Heap.dropFrames n s address released as =
        { s with window := w, frames := frames, chunks := chunks } ∧
      (s.window.scratch.lastCap = 0 → Lower s.window w) := by
  induction n generalizing s address released as with
  | zero => exact ⟨s.window, s.frames, s.chunks, rfl, fun _ => .refl _⟩
  | succ n ih =>
    unfold Heap.dropFrames
    split
    · exact ih s _ _ _
    next i _ =>
    dsimp only
    split
    · exact ih s _ _ _
    next hframe =>
    split
    · obtain ⟨w, frames, chunks, heq, hw⟩ := ih (s.setFrame i (s.index address) 0) (address + kPage)
        released as
      exact ⟨w, frames, chunks, heq, hw⟩
    · generalize ((s.chunks[i]?.bind fun c => c.frames[s.index address - c.first]?).getD 0) = frame at hframe
      obtain ⟨w, frames, chunks, heq, hw⟩ := ih ((s.setFrame i (s.index address) 0).dropFrame frame as)
        (address + kPage) frame as.tail
      refine ⟨w, frames, chunks, heq, fun h => ?_⟩
      have hne : frame ≠ s.window.scratch.lastCap := by
        rw [h]
        exact hframe
      have hun := lower_unmap hne
      have hpage : Lower (s.window.unmap frame)
          { s.window.unmap frame with vspace := (s.window.unmap frame).vspace.pageUnmap frame } :=
        .of_scratch rfl
      have hlow : Lower s.window ((s.setFrame i (s.index address) 0).dropFrame frame as).window :=
        (hun.trans hpage).trans (lower_freeObject _ as)
      exact hlow.trans (hw (hlow.lastCap.trans h))

/-- How a call to `munmap` ends. -/
inductive UnmapEnds (s : Heap) (addr length : ℕ) (as : List Alloc) (r : Int × Heap) : Prop where
  | refused (hrun : s.runFor addr length = none) (h : r = (-eInval, s))
  /-- The run is forgotten, and the free list does not take it. -/
  | lost (i : ℕ) (run : Run) (hrun : s.runFor addr length = some (i, run)) (t : Heap) (bs : List Alloc)
      (hgive : (({ s with runs := Heap.forgetRun s.runs i } : Heap).writeBack run).give ⟨addr, run.bytes⟩ as =
        (false, t, bs))
      (h : r = (-eInval, t))
  | done (i : ℕ) (run : Run) (hrun : s.runFor addr length = some (i, run)) (t : Heap) (bs : List Alloc)
      (hgive : (({ s with runs := Heap.forgetRun s.runs i } : Heap).writeBack run).give ⟨addr, run.bytes⟩ as =
        (true, t, bs))
      (h : r = (0, { Heap.dropFrames (run.bytes / kPage) t addr 0 bs with
        window := (Heap.dropFrames (run.bytes / kPage) t addr 0 bs).window.release addr
          (run.bytes / kPage % 2 ^ 32) }))

theorem munmap_cases (s : Heap) (addr length : ℕ) (as : List Alloc) :
    UnmapEnds s addr length as (s.sysMunmap addr length as) := by
  unfold Heap.sysMunmap
  split
  · next hrun => exact .refused hrun rfl
  next i run hrun =>
  dsimp only
  rcases hgive : (({ s with runs := Heap.forgetRun s.runs i } : Heap).writeBack run).give
    ⟨addr, run.bytes⟩ as with ⟨_ | _, t, bs⟩
  · exact .lost i run hrun t bs hgive rfl
  · exact .done i run hrun t bs hgive rfl

theorem munmap_spec {addr length i : ℕ} {run : Run} (hrun : s.runFor addr length = some (i, run))
    (as : List Alloc) :
    (s.sysMunmap addr length as).2.ready = s.ready ∧
      (s.sysMunmap addr length as).2.runs = Heap.forgetRun s.runs i ∧
      (s.sysMunmap addr length as).2.files = (s.writeBack run).files ∧
      (s.sysMunmap addr length as).2.record = s.record ∧
      (s.sysMunmap addr length as).2.capacity = s.capacity := by
  have hback : (({ s with runs := Heap.forgetRun s.runs i } : Heap).writeBack run).ready = s.ready ∧
      (({ s with runs := Heap.forgetRun s.runs i } : Heap).writeBack run).runs = Heap.forgetRun s.runs i ∧
      (({ s with runs := Heap.forgetRun s.runs i } : Heap).writeBack run).files = (s.writeBack run).files ∧
      (({ s with runs := Heap.forgetRun s.runs i } : Heap).writeBack run).record = s.record ∧
      (({ s with runs := Heap.forgetRun s.runs i } : Heap).writeBack run).capacity = s.capacity := by
    unfold Heap.writeBack
    split
    · exact ⟨rfl, rfl, rfl, rfl, rfl⟩
    · exact ⟨rfl, rfl, rfl, rfl, rfl⟩
  have hgive := give_steady (({ s with runs := Heap.forgetRun s.runs i } : Heap).writeBack run)
    ⟨addr, run.bytes⟩ as
  rw [hback.1, hback.2.1, hback.2.2.1, hback.2.2.2.1, hback.2.2.2.2] at hgive
  rcases munmap_cases s addr length as with ⟨hnone, -⟩ | ⟨j, r, hr, t, bs, ht, hend⟩ |
    ⟨j, r, hr, t, bs, ht, hend⟩
  · rw [hnone] at hrun
    cases hrun
  · obtain ⟨rfl, rfl⟩ := Prod.mk.inj (Option.some.inj (hr.symm.trans hrun))
    rw [ht] at hgive
    rw [hend]
    exact hgive
  · obtain ⟨rfl, rfl⟩ := Prod.mk.inj (Option.some.inj (hr.symm.trans hrun))
    rw [ht] at hgive
    rw [hend]
    obtain ⟨w, frames, chunks, hdrop, -⟩ := dropFrames_spec (r.bytes / kPage) t addr 0 bs
    rw [hdrop]
    exact hgive

/-! ## brk -/

theorem brkTo_spec (n : ℕ) (s : Heap) (as : List Alloc) :
    ∃ t brk, Mapped s t ∧ (Heap.brkTo n s as).2 = { t with brk := brk } := by
  induction n generalizing s as with
  | zero => exact ⟨s, s.brk, .refl s, rfl⟩
  | succ n ih =>
    have h := mapped_mapPage s s.brk as
    unfold Heap.brkTo
    rcases heq : s.mapPage s.brk as with ⟨_ | _, t, bs⟩
    · rw [heq] at h
      exact ⟨t, t.brk, h, rfl⟩
    · rw [heq] at h
      obtain ⟨u, brk, hu, hend⟩ := ih { t with brk := t.brk + kPage } bs
      refine ⟨{ u with brk := t.brk }, brk, h.trans ?_, hend⟩
      exact ⟨hu.ready, hu.base, hu.limit, rfl, hu.regions, hu.runs, hu.record, hu.capacity, hu.files,
        hu.memory, hu.window, hu.frames, hu.books⟩

theorem brk_spec (s : Heap) (newBreak : ℕ) (as : List Alloc) :
    ∃ t brk m, Mapped s t ∧ (s.sysBrk newBreak as).2 = { t with brk := brk, memory := m } := by
  unfold Heap.sysBrk
  split
  · exact ⟨s, s.brk, s.memory, .refl s, rfl⟩
  split
  · exact ⟨s, s.brk, s.memory, .refl s, rfl⟩
  obtain ⟨t, brk, ht, hend⟩ := brkTo_spec ((newBreak - s.brk + (kPage - 1)) / kPage) s as
  rcases heq : Heap.brkTo ((newBreak - s.brk + (kPage - 1)) / kPage) s as with ⟨_ | _, u⟩
  · rw [heq] at hend
    exact ⟨t, brk, t.memory, ht, hend⟩
  · rw [heq] at hend
    obtain rfl := hend
    exact ⟨t, brk, _, ht, rfl⟩

end Aegir.Hosted
