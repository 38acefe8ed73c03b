/-
  The hosted heap's `mmap`, `munmap` and `brk` (aegir-heap, `heap.cc`).

  A process's heap takes runs of pages from the top of its window, which it was given
  (`Window`), or from the runs it has back (`Regions`), maps a frame at each page and
  records the run.  Its own bookkeeping, the record of runs, the record of frames and
  the nodes of the free regions, lies in pages it takes from the window in the same way.

  What the allocator answers is an input (`Alloc`), in the order it is asked: frames,
  page tables, and what it grows by meanwhile.  Addresses and lengths are numbers,
  wrapped where the source's arithmetic wraps.
-/
import Aegir.Hosted.Regions
import Aegir.Hosted.Files
import Aegir.Mem.Scratch

namespace Aegir.Hosted

open Aegir.Lib
open Aegir.Mem (Window Alloc kPage kLargePage pageBits largePageBits)

/-- One run `mmap` has handed out: its pages, and what it owes a file (-1: nothing). -/
structure Run where
  base : ℕ
  bytes : ℕ
  fileFd : Int
  fileOffset : Int
deriving DecidableEq

def kRunBytes : ℕ := 32

/-- The frames behind the pages whose index is `first` or one of those after it. -/
structure FrameChunk where
  first : ℕ
  frames : List ℕ

def kFramesPerChunk : ℕ := 510

def kMegaPages : ℕ := 512

structure Heap where
  ready : Bool
  /-- `g_scratch`, and the kernel's address space. -/
  window : Window
  /-- The arena; `mmap_` stays at its limit. -/
  base : ℕ
  limit : ℕ
  brk : ℕ
  regions : Regions
  runs : List Run
  /-- Where the record of runs is, zero before its first page, and the runs it has room for. -/
  record : ℕ
  capacity : ℕ
  chunks : List FrameChunk
  files : Files
  memory : ℕ → UInt8
  /-- The frames taken from the allocator and not deleted, which no function reads. -/
  frames : List ℕ
  /-- The pages of the heap's own bookkeeping other than the record's, which no function reads
      either. -/
  books : List Extent

def alignUp (value : ℕ) : ℕ := (value + (kPage - 1)) % 2 ^ 64 / kPage * kPage

namespace Heap

/-- `Scratch::reserve`; zero when it refuses. -/
def reserve (s : Heap) (pages : ℕ) : ℕ × Heap :=
  match s.window.reserve (pages % 2 ^ 32) with
  | (none, _) => (0, s)
  | (some at_, w) => (at_, { s with window := w })

/-- `g_allocator->alloc_object` of a frame. -/
def takeFrame (s : Heap) (as : List Alloc) : ℕ × Heap × List Alloc :=
  let (frame, w, as) := s.window.allocObject as
  (frame, { s with window := w, frames := if frame = 0 then s.frames else frame :: s.frames }, as)

/-- `Scratch::map_at` -/
def mapFrame (s : Heap) (address frame bits : ℕ) (as : List Alloc) : Bool × Heap × List Alloc :=
  let (mapped, w, as) := s.window.mapAt address frame bits as
  (mapped, { s with window := w }, as)

/-! ## The record of frames -/

/-- The arena page index of an address, from the arena's top. -/
def index (s : Heap) (address : ℕ) : ℕ := (s.limit + 2 ^ 64 - address) % 2 ^ 64 / kPage % 2 ^ 32

def chunkOf (s : Heap) (index : ℕ) : Option ℕ :=
  s.chunks.findIdx? fun c => decide (c.first ≤ index ∧ index - c.first < kFramesPerChunk)

/-- `frame_chunk`, made when it is not there. -/
def frameChunk (s : Heap) (index : ℕ) (as : List Alloc) : Option ℕ × Heap × List Alloc :=
  match s.chunkOf index with
  | some i => (some i, s, as)
  | none =>
    if s.ready = false then (none, s, as)
    else
      let (page, s) := s.reserve 1
      if page = 0 then (none, s, as)
      else
        let (frame, s, as) := s.takeFrame as
        if frame = 0 then (none, s, as)
        else
          let (mapped, s, as) := s.mapFrame page frame pageBits as
          if mapped = false then (none, s, as)
          else
            (some 0, { s with
              chunks := ⟨index - index % kFramesPerChunk, List.replicate kFramesPerChunk 0⟩ :: s.chunks
              books := ⟨page, kPage⟩ :: s.books }, as)

def setFrame (s : Heap) (i index frame : ℕ) : Heap :=
  { s with chunks := s.chunks.modify i fun c => { c with frames := c.frames.set (index - c.first) frame } }

/-- The frame is remembered for the page, if there is a chunk for it. -/
def remember (s : Heap) (address frame : ℕ) (as : List Alloc) : Heap × List Alloc :=
  match s.frameChunk (s.index address) as with
  | (none, s, as) => (s, as)
  | (some i, s, as) => (s.setFrame i (s.index address) frame, as)

/-- The same for each of `n` pages. -/
def rememberPages (frame : ℕ) : ℕ → Heap → ℕ → List Alloc → Heap × List Alloc
  | 0, s, _, as => (s, as)
  | n + 1, s, address, as =>
    let (s, as) := s.remember address frame as
    rememberPages frame n s (address + kPage) as

def inWindow (s : Heap) (address : ℕ) : Bool :=
  decide (s.window.scratch.base ≤ address ∧ address < s.window.scratch.limit)

/-- `map_page` and `map_large_page`: a frame of `2 ^ bits` bytes, remembered for its pages. -/
def mapPagesOf (bits pages : ℕ) (s : Heap) (address : ℕ) (as : List Alloc) : Bool × Heap × List Alloc :=
  let (frame, s, as) := s.takeFrame as
  if frame = 0 then (false, s, as)
  else
    let (mapped, s, as) := s.mapFrame address frame bits as
    if mapped = false then (false, s, as)
    else if s.inWindow address then
      let (s, as) := rememberPages frame pages s address as
      (true, s, as)
    else (true, s, as)

def mapPage (s : Heap) (address : ℕ) (as : List Alloc) : Bool × Heap × List Alloc :=
  mapPagesOf pageBits 1 s address as

def mapLargePage (s : Heap) (address : ℕ) (as : List Alloc) : Bool × Heap × List Alloc :=
  mapPagesOf largePageBits kMegaPages s address as

/-! ## Mapping a run -/

/-- `n` pages of `size` bytes from an address on, each mapped by `map`. -/
def mapAll (map : Heap → ℕ → List Alloc → Bool × Heap × List Alloc) (size : ℕ) :
    ℕ → Heap → ℕ → List Alloc → Bool × Heap × List Alloc
  | 0, s, _, as => (true, s, as)
  | n + 1, s, address, as =>
    match map s address as with
    | (false, s, as) => (false, s, as)
    | (true, s, as) => mapAll map size n s (address + size) as

/-- How many of `n` pages come before the first that a large page could start at. -/
def headPages (address : ℕ) : ℕ → ℕ
  | 0 => 0
  | n + 1 => if address % kLargePage = 0 then 0 else headPages (address + kPage) n + 1

/-- The pages of a run, a file's in large pages where they are aligned. -/
def mapRun (s : Heap) (fileBacked : Bool) (base pages : ℕ) (as : List Alloc) : Bool × Heap × List Alloc :=
  if fileBacked then
    let head := headPages base pages
    let megas := if (base + head * kPage) % kLargePage = 0 then (pages - head) / kMegaPages else 0
    match mapAll mapPage kPage head s base as with
    | (false, s, as) => (false, s, as)
    | (true, s, as) =>
      match mapAll mapLargePage kLargePage megas s (base + head * kPage) as with
      | (false, s, as) => (false, s, as)
      | (true, s, as) =>
        mapAll mapPage kPage (pages - head - megas * kMegaPages) s
          (base + head * kPage + megas * kLargePage) as
  else mapAll mapPage kPage pages s base as

/-! ## The record of runs -/

/-- A page for the heap's own bookkeeping; zero when there is none. -/
def bookPage (s : Heap) (as : List Alloc) : ℕ × Heap × List Alloc :=
  if s.ready = false then (0, s, as)
  else
    let (page, s) := s.reserve 1
    if page = 0 then (0, s, as)
    else
      match s.mapPage page as with
      | (false, s, as) => (0, s, as)
      | (true, s, as) => (page, s, as)

/-- `grow_run_record`: the entries move to a page of their own. -/
def growRunRecord (s : Heap) (as : List Alloc) : Bool × Heap × List Alloc :=
  let (page, s, as) := s.bookPage as
  if page = 0 then (false, s, as)
  else
    (true, { s with
      record := page
      capacity := kPage / kRunBytes
      books := if s.record = 0 then s.books else ⟨s.record, kPage⟩ :: s.books }, as)

/-- `record_run`; an entry past the page's room is kept here all the same. -/
def recordRun (s : Heap) (r : Run) (as : List Alloc) : Heap :=
  if s.runs.length = s.capacity then
    match s.growRunRecord as with
    | (false, s, _) => s
    | (true, s, _) => { s with runs := s.runs ++ [r] }
  else { s with runs := s.runs ++ [r] }

def findRun (s : Heap) (base : ℕ) : Option ℕ := s.runs.findIdx? fun r => decide (r.base = base)

/-- `forget_run`: the last entry takes the place. -/
def forgetRun (runs : List Run) (i : ℕ) : List Run :=
  match runs.getLast? with
  | none => runs
  | some r => (runs.set i r).dropLast

/-! ## Memory -/

/-- Bytes copied to an address. -/
def fill (s : Heap) (base : ℕ) (bytes : List UInt8) : Heap :=
  { s with memory := fun a => if base ≤ a ∧ a < base + bytes.length then bytes.getD (a - base) 0 else s.memory a }

/-- `memset` to zero. -/
def clear (s : Heap) (base size : ℕ) : Heap :=
  { s with memory := fun a => if base ≤ a ∧ a < base + size then 0 else s.memory a }

def bytesAt (s : Heap) (base size : ℕ) : List UInt8 := (List.range size).map fun i => s.memory (base + i)

/-! ## mmap -/

/-- What `mmap` reads of its arguments. -/
structure MapCall where
  length : ℕ
  /-- `PROT_WRITE` -/
  write : Bool
  /-- `MAP_ANONYMOUS`, `MAP_FIXED`, `MAP_PRIVATE`, `MAP_SHARED` -/
  anonymous : Bool
  fixed : Bool
  isPrivate : Bool
  shared : Bool
  fd : Int
  offset : Int

/-- The arguments `mmap` refuses. -/
def refusesMap (s : Heap) (c : MapCall) : Bool :=
  !s.ready || c.fixed || c.length == 0 || (!c.isPrivate && !c.shared) ||
    (!c.anonymous && decide (c.fd < 0))

/-- The address of a run: one the heap has back, or fresh from the window; zero for none. -/
def place (s : Heap) (needed : ℕ) : ℕ × Heap :=
  match s.regions.take needed with
  | none => s.reserve (needed / kPage)
  | some (at_, r) =>
    if at_ = 0 then ({ s with regions := r } : Heap).reserve (needed / kPage)
    else (at_, { s with regions := r })

def writeBackFd (c : MapCall) : Int := if !c.anonymous && c.shared && c.write then c.fd else -1

def sysMmap (s : Heap) (c : MapCall) (as : List Alloc) : Int × Heap :=
  if s.refusesMap c then (-eInval, s)
  else
    let needed := alignUp c.length
    let (base, s) := s.place needed
    if base = 0 then (-eNomem, s)
    else
      match s.mapRun (!c.anonymous) base (needed / kPage) as with
      | (false, s, _) => (-eNomem, s)
      | (true, s, as) =>
        let s := s.clear base needed
        let run : Run := ⟨base, needed, writeBackFd c, c.offset⟩
        if c.anonymous then (base, s.recordRun run as)
        else
          match s.files.pread c.fd needed c.offset with
          | .inl error => (error, s)
          | .inr bytes => (base, (s.fill base bytes).recordRun run as)

/-! ## munmap -/

/-- `Regions::give`, whose node source is a page of the heap's own. -/
def give (s : Heap) (e : Extent) (as : List Alloc) : Bool × Heap × List Alloc :=
  if s.regions.refuses e then (false, s, as)
  else if s.regions.nodes ≠ 0 then (true, { s with regions := s.regions.insert e }, as)
  else
    let (page, s, as) := s.bookPage as
    if page = 0 then (false, s, as)
    else
      (true, { s with
        regions := Regions.insert ⟨s.regions.free, s.regions.nodes + kPage / kNodeBytes⟩ e
        books := ⟨page, kPage⟩ :: s.books }, as)

/-- A frame unmapped, its capability deleted and its slot given back. -/
def dropFrame (s : Heap) (frame : ℕ) (as : List Alloc) : Heap :=
  let w := s.window.unmap frame
  let w : Window := { w with vspace := w.vspace.pageUnmap frame }
  { s with window := w.freeObject as, frames := s.frames.erase frame }

/-- The frames of `n` pages go back; a large page's are released with its first page. -/
def dropFrames : ℕ → Heap → ℕ → ℕ → List Alloc → Heap
  | 0, s, _, _, _ => s
  | n + 1, s, address, released, as =>
    match if s.inWindow address then s.chunkOf (s.index address) else none with
    | none => dropFrames n s (address + kPage) released as
    | some i =>
      let frame := (s.chunks[i]?.bind fun c => c.frames[s.index address - c.first]?).getD 0
      if frame = 0 then dropFrames n s (address + kPage) released as
      else
        let s := s.setFrame i (s.index address) 0
        if frame = released then dropFrames n s (address + kPage) released as
        else dropFrames n (s.dropFrame frame as) (address + kPage) frame as.tail

def writeBack (s : Heap) (r : Run) : Heap :=
  if r.fileFd < 0 then s
  else { s with files := (s.files.pwrite r.fileFd (s.bytesAt r.base r.bytes) r.fileOffset).2 }

/-- The run `munmap` is for, if the record has it and in that size. -/
def runFor (s : Heap) (addr length : ℕ) : Option (ℕ × Run) :=
  if s.ready = false ∨ addr = 0 ∨ length = 0 then none
  else
    (s.findRun addr).bind fun i => (s.runs[i]?).bind fun r =>
      if r.bytes ≠ alignUp length then none else some (i, r)

def sysMunmap (s : Heap) (addr length : ℕ) (as : List Alloc) : Int × Heap :=
  match s.runFor addr length with
  | none => (-eInval, s)
  | some (i, r) =>
    let s := ({ s with runs := forgetRun s.runs i } : Heap).writeBack r
    match s.give ⟨addr, r.bytes⟩ as with
    | (false, s, _) => (-eInval, s)
    | (true, s, as) =>
      let s := dropFrames (r.bytes / kPage) s addr 0 as
      (0, { s with window := s.window.release addr (r.bytes / kPage % 2 ^ 32) })

/-! ## brk and init -/

/-- The loop of `sys_brk`: the pages mapped up to the break that is wanted. -/
def brkTo : ℕ → Heap → List Alloc → Bool × Heap
  | 0, s, _ => (true, s)
  | n + 1, s, as =>
    match s.mapPage s.brk as with
    | (false, s, _) => (false, s)
    | (true, s, as) => brkTo n { s with brk := s.brk + kPage } as

def sysBrk (s : Heap) (newBreak : ℕ) (as : List Alloc) : ℕ × Heap :=
  if s.ready = false then (0, s)
  else if newBreak = 0 ∨ newBreak < s.brk ∨ newBreak > s.limit then (s.brk, s)
  else
    match brkTo ((newBreak - s.brk + (kPage - 1)) / kPage) s as with
    | (false, s') => (s'.brk, s')
    | (true, s') => (s'.brk, s'.clear s.brk (s'.brk - s.brk))

/-- `init`, in a window the process was given. -/
def init (w : Window) (files : Files) (memory : ℕ → UInt8) (bytes : ℕ) : Option Heap :=
  if bytes < kPage ∨ bytes > w.scratch.limit - w.scratch.base then none
  else
    let wanted := alignUp bytes / kPage % 2 ^ 32
    match w.reserve wanted with
    | (none, _) => none
    | (some base, w) =>
      if base = 0 then none
      else some { ready := true, window := w, base := base, limit := base + wanted * kPage, brk := base,
                  regions := ⟨[], 0⟩, runs := [], record := 0, capacity := 0, chunks := [], files := files,
                  memory := memory, frames := [], books := [] }

end Heap

end Aegir.Hosted
