/-
  The address window of a process (aegir/mem/vspace.cc).

  `Scratch` hands out addresses of one window from both ends: `map` and `mapLarge`
  stream up from the base, `reserve` walks down from the top, and they stop when
  they meet.  A service's window is the one its spawner gave it (`adopt`); the root
  task's (`initialise`) grows a large page at a time when an end runs out.

  Page tables come from the process's allocator, which may itself reserve and map
  a page of this window while it is asked: its node pool grows through
  `growNodesFromWindow`.  What the allocator answers is an input (`Alloc`): the
  node pages it grows by and the capability it gives.  Addresses are numbers; the
  windows of user space lie far below `2 ^ 64`.

  `Window` is the scratch and the kernel's address space, with the runs reserved
  and not released and the pages streamed and not unmapped, which no function
  reads.
-/
import Aegir.Lib.Extent
import Aegir.Mem.VSpace

namespace Aegir.Mem

open Aegir.Lib

def kMaxWindowSkip : ℕ := 64

structure Scratch where
  /-- `tables_ != nullptr` -/
  tables : Bool
  mayGrow : Bool
  base : ℕ
  next : ℕ
  limit : ℕ
  smallHigh : ℕ
  high : ℕ
  mappedBytes : ℕ
  lastCap : ℕ
  lastError : Error

def alignLarge (value : ℕ) : ℕ := (value + kLargePage - 1) / kLargePage * kLargePage

namespace Scratch

/-- `Scratch::adopt`: the window `[base, limit)` a service was given. -/
def adopt (base limit : ℕ) : Option Scratch :=
  if limit ≤ base ∨ base % kPage ≠ 0 ∨ limit % kPage ≠ 0 then none
  else some { tables := true, mayGrow := false, base := base, next := base, limit := limit,
              smallHigh := base, high := limit, mappedBytes := 0, lastCap := 0, lastError := .noError }

/-- `Scratch::initialise`: the root task's window, from the first address past what
    the kernel gave it. -/
def initialise (tables : Bool) (start : ℕ) : Scratch :=
  let base := (start + kPage - 1) / kPage * kPage
  { tables := tables, mayGrow := tables, base := base, next := base, limit := base + kLargePage,
    smallHigh := base, high := base + kLargePage, mappedBytes := 0, lastCap := 0,
    lastError := .noError }

/-- The growth of the streaming end, `while (need > high_) { limit_ += ...; high_ = limit_; }`. -/
def growMap (need : ℕ) : ℕ → Scratch → Scratch
  | 0, s => s
  | n + 1, s => if need ≤ s.high then s else
      growMap need n { s with limit := s.limit + kLargePage, high := s.limit + kLargePage }

/-- The growth of the reserving end, `while (high_ < need) { limit_ += ...; high_ += ...; }`. -/
def growReserve (need : ℕ) : ℕ → Scratch → Scratch
  | 0, s => s
  | n + 1, s => if need ≤ s.high then s else
      growReserve need n { s with limit := s.limit + kLargePage, high := s.high + kLargePage }

/-- The large pages the window may have to grow by to reach `need`. -/
def turns (need : ℕ) : ℕ := need / kLargePage + 1

/-- Room for the streaming end up to `need`, or the window is exhausted. -/
def roomMap (s : Scratch) (need : ℕ) : Option Scratch :=
  if need ≤ s.high then some s
  else if s.mayGrow then some (growMap need (turns need) s)
  else none

def reserve (s : Scratch) (pages : ℕ) : Option (ℕ × Scratch) :=
  let bytes := pages * kPage
  if s.next + bytes ≤ s.high then some (s.high - bytes, { s with high := s.high - bytes })
  else if s.mayGrow then
    let s := growReserve (s.next + bytes) (turns (s.next + bytes)) s
    some (s.high - bytes, { s with high := s.high - bytes })
  else none

def release (s : Scratch) (base pages : ℕ) : Scratch :=
  if base + pages * kPage = s.high then { s with high := base } else s

end Scratch

/-- What the node source gets while the allocator is asked: the frame for the page
    (0: none), and the answers to the page tables its mapping asks for. -/
structure Growth where
  frame : ℕ
  tables : List ℕ

/-- What the allocator does when it is asked for an object: it grows its node pool
    and gives a capability (0: refused); when the object is given back at once, its
    slot list may grow too. -/
structure Alloc where
  growths : List Growth
  cap : ℕ
  freed : List Growth

/-- A page the streaming end holds: the frame's capability and where it lies. -/
structure Streamed where
  frame : ℕ
  extent : Extent
  deriving DecidableEq

structure Window where
  scratch : Scratch
  vspace : VSpace
  /-- The runs reserved and not released. -/
  reserved : List Extent
  /-- The pages streamed and not unmapped. -/
  streamed : List Streamed

namespace Window

def reserve (w : Window) (pages : ℕ) : Option ℕ × Window :=
  match w.scratch.reserve pages with
  | none => (none, w)
  | some (at_, s) => (some at_, { w with scratch := s, reserved := ⟨at_, pages * kPage⟩ :: w.reserved })

/-- `Scratch::release` of the run at `base`. -/
def release (w : Window) (base pages : ℕ) : Window :=
  { w with scratch := w.scratch.release base pages,
           reserved := w.reserved.erase ⟨base, pages * kPage⟩ }

/-- `seL4_RISCV_Page_Map` -/
def pageMap (w : Window) (frame bits address : ℕ) : Error × Window :=
  ((w.vspace.pageMap frame bits address).1, { w with vspace := (w.vspace.pageMap frame bits address).2 })

/-- `seL4_RISCV_PageTable_Map` -/
def pageTableMap (w : Window) (address : ℕ) : Error × Window :=
  ((w.vspace.pageTableMap address).1, { w with vspace := (w.vspace.pageTableMap address).2 })

def setError (w : Window) (error : Error) : Window :=
  { w with scratch := { w.scratch with lastError := error } }

/-- The loop of `map_at`, with the node pool growing: its page tables are asked of an
    allocator that is not asked for nodes again. -/
def mapAtGrowing (frame address : ℕ) : ℕ → Error → Window → List ℕ → Bool × Window
  | 0, error, w, _ => if error = .noError then
      (true, { w with scratch := { w.scratch with mappedBytes := w.scratch.mappedBytes + kPage } })
      else (false, w.setError error)
  | n + 1, error, w, tables =>
    if error = .failedLookup ∧ w.scratch.tables then
      match tables with
      | [] | 0 :: _ => (false, w)
      | _ :: tables =>
        let (mapped, w) := w.pageTableMap address
        if mapped = .noError ∨ mapped = .deleteFirst then
          let (error, w) := w.pageMap frame pageBits address
          mapAtGrowing frame address n error w tables
        else (false, w)
    else if error = .noError then
      (true, { w with scratch := { w.scratch with mappedBytes := w.scratch.mappedBytes + kPage } })
    else (false, w.setError error)

/-- Whether `map_at` takes the address at all. -/
def mayMapAt (w : Window) (frame address : ℕ) : Bool :=
  decide (frame ≠ 0 ∧ address % kPage = 0 ∧ w.scratch.base ≤ address ∧
    address + kPage ≤ w.scratch.limit)

def growNodesFromWindow (w : Window) (g : Growth) : Window :=
  if g.frame = 0 then w
  else match w.reserve 1 with
    | (none, w) => w
    | (some at_, w) =>
      if w.mayMapAt g.frame at_ then
        let (error, w) := w.pageMap g.frame pageBits at_
        (mapAtGrowing g.frame at_ 4 error w g.tables).2
      else w

/-- `tables_->alloc_object(seL4_RISCV_PageTableObject, ...)`: the capability, and the
    answers that are left. -/
def allocObject (w : Window) : List Alloc → ℕ × Window × List Alloc
  | [] => (0, w, [])
  | a :: as => (a.cap, a.growths.foldl growNodesFromWindow w, as)

/-- `tables_->free_object(cookie, ...)` of the object the last answer gave. -/
def freeObject (w : Window) : List Alloc → Window
  | [] => w
  | a :: _ => a.freed.foldl growNodesFromWindow w

/-- The loop `while (error == seL4_FailedLookup && tables_ != nullptr && attempts < 4)` of
    `map` and `map_large`; without an error, they return `nullptr`. -/
@[irreducible] def makeTables (frame bits address : ℕ) : ℕ → Error → Window → List Alloc →
    Option Error × Window × List Alloc
  | 0, error, w, as => (some error, w, as)
  | n + 1, error, w, as =>
    if error = .failedLookup ∧ w.scratch.tables then
      let (table, w, as) := w.allocObject as
      if table = 0 then (none, w, as)
      else
        let (mapped, w) := w.pageTableMap address
        if mapped = .noError then
          let (error, w) := w.pageMap frame bits address
          makeTables frame bits address n error w as
        else (none, w, as)
    else (some error, w, as)

/-- A frame mapped at the cursor, with the page tables it asks for. -/
def tryNext (w : Window) (frame bits : ℕ) (as : List Alloc) : Option Error × Window × List Alloc :=
  makeTables frame bits w.scratch.next 4 (w.pageMap frame bits w.scratch.next).1
    (w.pageMap frame bits w.scratch.next).2 as

/-- The page `[address, address + size)` now streams, and the cursor stands past it. -/
def stream (w : Window) (frame address size : ℕ) : Window :=
  { w with scratch := { w.scratch with next := w.scratch.next + size
                                       mappedBytes := w.scratch.mappedBytes + size }
           streamed := ⟨frame, ⟨address, size⟩⟩ :: w.streamed }

/-- The loop of `Scratch::map` over the pages that are taken, `skips` of them at most. -/
def mapFrom (frame : ℕ) : ℕ → Window → List Alloc → Option ℕ × Window
  | 0, w, _ => (none, w.setError .deleteFirst)
  | skips + 1, w, as =>
    match w.scratch.roomMap (w.scratch.next + kPage) with
    | none => (none, w)
    | some s =>
      let address := s.next
      match ({ w with scratch := s } : Window).tryNext frame pageBits as with
      | (none, w, _) => (none, w)
      | (some error, w, as) =>
        if error = .deleteFirst then
          mapFrom frame skips { w with scratch := { w.scratch with next := w.scratch.next + kPage } } as
        else if error ≠ .noError then (none, w.setError error)
        else
          let w := w.stream frame address kPage
          (some address, { w with scratch := { w.scratch with
            lastCap := frame
            smallHigh := max w.scratch.smallHigh (address + kPage) } })

def map (w : Window) (frame : ℕ) (as : List Alloc) : Option ℕ × Window :=
  if frame = 0 then (none, w) else mapFrom frame (kMaxWindowSkip + 1) w as

def largeNext (s : Scratch) : ℕ := max (alignLarge s.next) (alignLarge s.smallHigh)

/-- What `map_large` makes of the mapping of a page of `size` bytes tried at `address`. -/
def largeMapped (size frame address : ℕ) : Option Error × Window × List Alloc → Option ℕ × Window
  | (none, w, _) => (none, w)
  | (some error, w, _) =>
    if error ≠ .noError then (none, w.setError error)
    else (some address, w.stream frame address size)

/-- `Scratch::map_large` once the cursor stands where the page goes. -/
def mapLargeFrom (size frame : ℕ) (w : Window) (as : List Alloc) : Option ℕ × Window :=
  match w.scratch.roomMap (w.scratch.next + size) with
  | none => (none, w)
  | some s =>
    largeMapped size frame s.next (({ w with scratch := s } : Window).tryNext frame largePageBits as)

def mapLarge (w : Window) (frame : ℕ) (as : List Alloc) : Option ℕ × Window :=
  if frame = 0 then (none, w)
  else mapLargeFrom kLargePage frame
    { w with scratch := { w.scratch with next := largeNext w.scratch } } as

/-- The loop of `map_at`: a table that is already there is given back. -/
def mapAtFrom (frame bits address : ℕ) : ℕ → Error → Window → List Alloc → Bool × Window × List Alloc
  | 0, error, w, as => if error = .noError then
      (true, { w with scratch := { w.scratch with mappedBytes := w.scratch.mappedBytes + kPage } }, as)
      else (false, w.setError error, as)
  | n + 1, error, w, as =>
    if error = .failedLookup ∧ w.scratch.tables then
      let (table, w, rest) := w.allocObject as
      if table = 0 then (false, w, rest)
      else
        let (mapped, w) := w.pageTableMap address
        if mapped = .deleteFirst then
          let w := w.freeObject as
          let (error, w) := w.pageMap frame bits address
          mapAtFrom frame bits address n error w rest
        else if mapped = .noError then
          let (error, w) := w.pageMap frame bits address
          mapAtFrom frame bits address n error w rest
        else (false, w, rest)
    else if error = .noError then
      (true, { w with scratch := { w.scratch with mappedBytes := w.scratch.mappedBytes + kPage } }, as)
    else (false, w.setError error, as)

/-- `Scratch::map_at` of a frame of `2 ^ bits` bytes. -/
def mapAt (w : Window) (address frame bits : ℕ) (as : List Alloc) : Bool × Window × List Alloc :=
  if w.mayMapAt frame address then
    let (error, w) := w.pageMap frame bits address
    mapAtFrom frame bits address 4 error w as
  else (false, w, as)

def unmap (w : Window) (frame : ℕ) : Window :=
  if frame = 0 then w
  else
    let w := { w with vspace := w.vspace.pageUnmap frame
                      streamed := w.streamed.filter fun p => p.frame ≠ frame }
    if frame = w.scratch.lastCap then
      { w with scratch := { w.scratch with next := w.scratch.next - kPage, lastCap := 0 } }
    else w

end Window

end Aegir.Mem
