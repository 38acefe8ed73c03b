/-
  The pipe service (aegir-fs-pipe, `main.cc`): named byte pipes in one memory grant.

  A quarter of the grant is the tables of pipes and of handles, the rest is cut into chunks.
  A chunk is on the free list, linked through its first four bytes, or in the chain of a
  pipe, linked through its last four.  A chunk's number is its index plus one; zero is none.

  The two tables are lists and the chunks' memory is a buffer from the first chunk on.  Calls
  come decoded: one whose words do not make its arguments is answered like a refused one and
  changes nothing.  The loops that follow a chain take a bound and answer `none` past it, and
  so does an index outside its table, so `none` is a call that is never answered.
-/
import Aegir.Lib.Bytes

namespace Aegir.PipeFs

open Aegir.Lib Aegir.Lib.Buf

def kPipeNameMax : ℕ := 32
def kChunkBytes : ℕ := 4096
/-- What a chunk holds of a pipe; the link to the next chunk is behind it. -/
def kChunkData : ℕ := 4092
/-- The sizes of a `Pipe` and of a `Handle` in their tables. -/
def kPipeBytes : ℕ := 64
def kHandleBytes : ℕ := 24
def kReadMax : ℕ := 936
def kWriteMax : ℕ := 936
def kOpenTruncate : ℕ := 2
def kOpenRead : ℕ := 4

inductive Kind where
  | read
  | write
deriving DecidableEq

structure Pipe where
  used : Bool
  writerOpen : Bool
  readerOpen : Bool
  readerEver : Bool
  openCount : ℕ
  size : ℕ
  firstChunk : ℕ
  lastChunk : ℕ
  lastUsed : ℕ
  name : List UInt8
deriving DecidableEq

structure Handle where
  serial : ℕ
  badge : ℕ
  pipe : ℕ
  kind : Kind
deriving DecidableEq

/-! ## Chunks -/

structure Chunks where
  memory : Buf
  count : ℕ
  freeHead : ℕ

/-- Where a chunk's data is (`chunk_data`). -/
def place (index : ℕ) : ℕ := (index - 1) * kChunkBytes

namespace Chunks

def freeNext (g : Chunks) (index : ℕ) : ℕ := le 4 g.memory (place index)

/-- `chunk_alloc` -/
def alloc (g : Chunks) : ℕ × Chunks :=
  if g.freeHead = 0 then (0, g) else (g.freeHead, { g with freeHead := g.freeNext g.freeHead })

/-- `chunk_free` -/
def free (g : Chunks) (index : ℕ) : Chunks :=
  { g with memory := put 4 g.memory (place index) g.freeHead, freeHead := index }

/-- `chunk_next` -/
def next (g : Chunks) (index : ℕ) : ℕ := le 4 g.memory (place index + kChunkData)

/-- `chunk_set_next` -/
def setNext (g : Chunks) (index next : ℕ) : Chunks :=
  { g with memory := put 4 g.memory (place index + kChunkData) next }

/-- The loop of `memory_init` that links the chunks, the last one first. -/
def link : ℕ → Chunks → Chunks
  | 0, g => g
  | i + 1, g => link i { g with memory := put 4 g.memory (i * kChunkBytes) g.freeHead, freeHead := i + 1 }

def freeChain : ℕ → Chunks → ℕ → Option Chunks
  | 0, g, chunk => if chunk = 0 then some g else none
  | n + 1, g, chunk => if chunk = 0 then some g else freeChain n (g.free chunk) (g.next chunk)

end Chunks

/-! ## A pipe's bytes -/

namespace Pipe

/-- The chain is freed and the pipe is empty. -/
def cut (g : Chunks) (p : Pipe) : Option (Chunks × Pipe) := do
  let g ← g.freeChain g.count p.firstChunk
  some (g, { p with firstChunk := 0, lastChunk := 0, lastUsed := 0, size := 0 })

/-- `pipe_release` -/
def release (g : Chunks) (p : Pipe) : Option (Chunks × Pipe) := do
  let (g, p) ← p.cut g
  some (g, { p with used := false, name := [] })

/-- `cut` or `release`, where the caller finds cause to. -/
def cutWhen (c : Bool) (g : Chunks) (p : Pipe) : Option (Chunks × Pipe) := if c then p.cut g else some (g, p)
def releaseWhen (c : Bool) (g : Chunks) (p : Pipe) : Option (Chunks × Pipe) :=
  if c then p.release g else some (g, p)

/-- A last chunk with room in it; `none` when the grant is full. -/
def room (g : Chunks) (p : Pipe) : Option (Chunks × Pipe) :=
  if p.lastChunk = 0 then
    let (chunk, g) := g.alloc
    if chunk = 0 then none
    else some (g.setNext chunk 0, { p with firstChunk := chunk, lastChunk := chunk, lastUsed := 0 })
  else if p.lastUsed = kChunkData then
    let (chunk, g) := g.alloc
    if chunk = 0 then none
    else some ((g.setNext chunk 0).setNext p.lastChunk chunk, { p with lastChunk := chunk, lastUsed := 0 })
  else some (g, p)

/-- The first `take` bytes of `data` behind those the last chunk has. -/
def fill (g : Chunks) (p : Pipe) (data : List UInt8) (take : ℕ) : Chunks × Pipe :=
  ({ g with memory := puts g.memory (place p.lastChunk + p.lastUsed) (data.take take) },
    { p with lastUsed := p.lastUsed + take, size := p.size + take })

/-- The loop of `pipe_append`, with what is left to take and the count taken. -/
def appendLoop : ℕ → Chunks → Pipe → List UInt8 → ℕ → Option (ℕ × Chunks × Pipe)
  | 0, g, p, rest, taken => if rest = [] then some (taken, g, p) else none
  | n + 1, g, p, rest, taken =>
    if rest = [] then some (taken, g, p)
    else match p.room g with
      | none => some (taken, g, p)
      | some (g, p) =>
        let take := min rest.length (kChunkData - p.lastUsed)
        let (g, p) := p.fill g rest take
        appendLoop n g p (rest.drop take) (taken + take)

/-- `pipe_append` -/
def append (g : Chunks) (p : Pipe) (data : List UInt8) : Option (ℕ × Chunks × Pipe) :=
  p.appendLoop data.length g data 0

def chunkBytes (p : Pipe) (chunk : ℕ) : ℕ := if chunk = p.lastChunk then p.lastUsed else kChunkData

/-- The first loop of `pipe_read_at`: the chunk the offset is in, and where its bytes start. -/
def seek (g : Chunks) (p : Pipe) (offset : ℕ) : ℕ → ℕ → ℕ → Option (ℕ × ℕ)
  | 0, chunk, position => if chunk = 0 then some (chunk, position) else none
  | n + 1, chunk, position =>
    if chunk = 0 then some (chunk, position)
    else if offset < position + p.chunkBytes chunk then some (chunk, position)
    else seek g p offset n (g.next chunk) (position + p.chunkBytes chunk)

/-- The second: the bytes copied so far, and those that follow them. -/
def copy (g : Chunks) (p : Pipe) (offset count : ℕ) : ℕ → ℕ → ℕ → List UInt8 → Option (List UInt8)
  | 0, chunk, _, out => if out.length < count ∧ chunk ≠ 0 then none else some out
  | n + 1, chunk, position, out =>
    if out.length < count ∧ chunk ≠ 0 then
      let within := offset + out.length - position
      if p.chunkBytes chunk ≤ within then
        copy g p offset count n (g.next chunk) (position + p.chunkBytes chunk) out
      else
        let take := min (count - out.length) (p.chunkBytes chunk - within)
        copy g p offset count n chunk position (out ++ bytes g.memory (place chunk + within) take)
    else some out

/-- `pipe_read_at` -/
def readAt (g : Chunks) (p : Pipe) (offset count : ℕ) : Option (List UInt8) :=
  if p.size ≤ offset then some []
  else do
    let (chunk, position) ← p.seek g offset g.count p.firstChunk 0
    p.copy g offset count (2 * g.count + 1) chunk position []

end Pipe

/-! ## The tables -/

structure Service where
  chunks : Chunks
  pipes : List Pipe
  handles : List Handle
  /-- The last serial given; serials are 64 bits wide and never run out. -/
  handleSerial : ℕ

/-- A row of the table of pipes before its first use, and one of the handles'. -/
def Pipe.unused : Pipe := ⟨false, false, false, false, 0, 0, 0, 0, 0, []⟩
def Handle.unused : Handle := ⟨0, 0, 0, .read⟩

/-- `memory_init` for a grant of `size` bytes. -/
def memoryInit (size : ℕ) : Service :=
  let meta_ := size / 4
  let pipeCapacity := meta_ / 2 / kPipeBytes
  let chunkCount := (size - meta_) / kChunkBytes
  { chunks := Chunks.link chunkCount ⟨zero, chunkCount, 0⟩
    pipes := List.replicate pipeCapacity Pipe.unused
    handles := List.replicate ((meta_ - pipeCapacity * kPipeBytes) / kHandleBytes) Handle.unused
    handleSerial := 0 }

inductive Call where
  | read (path : List UInt8) (offset wanted : ℕ)
  | readHandle (handle offset wanted : ℕ)
  | write (handle : ℕ) (data : List UInt8)
  | openPath (path : List UInt8) (flags : ℕ)
  | close (handle : ℕ)
deriving DecidableEq

inductive Answer where
  /-- No words. -/
  | nothing
  | word (w : ℕ)
  | data (got : List UInt8) (eof : Bool)
deriving DecidableEq

namespace Service

def nameFits (name : List UInt8) : Bool := decide (name.length ≠ 0 ∧ name.length ≤ kPipeNameMax)

/-- `pipe_find`, by the index of the row. -/
def pipeFind (s : Service) (name : List UInt8) : Option ℕ :=
  if nameFits name then s.pipes.findIdx? fun p => p.used && decide (p.name = name) else none

def pipeMake (s : Service) (name : List UInt8) : Option (ℕ × Service) :=
  if nameFits name then
    match s.pipeFind name with
    | some i => some (i, s)
    | none =>
      match s.pipes.findIdx? fun p => !p.used with
      | some i => some (i, { s with pipes := s.pipes.set i { Pipe.unused with used := true, name := name } })
      | none => none
  else none

def handleLookup (s : Service) (serial badge : ℕ) : Option (ℕ × Handle) :=
  if serial = 0 then none
  else do
    let i ← s.handles.findIdx? fun h => decide (h.serial = serial)
    let h ← s.handles[i]?
    if h.badge = badge then some (i, h) else none

/-- `handle_alloc`, with the pipe and the kind its caller puts in the row. -/
def handleAlloc (s : Service) (badge pipe : ℕ) (kind : Kind) : Option Service := do
  let i ← s.handles.findIdx? fun h => decide (h.serial = 0)
  some { s with
    handles := s.handles.set i ⟨s.handleSerial + 1, badge, pipe, kind⟩
    handleSerial := s.handleSerial + 1 }

/-- What a read answers: the bytes, and whether it is the end. -/
def readPipe (s : Service) (p : Pipe) (offset wanted : ℕ) : Option (Answer × Service) := do
  let got ← p.readAt s.chunks offset (min wanted kReadMax)
  some (.data got (decide (p.size ≤ offset + got.length) && !p.writerOpen), s)

def answerRead (s : Service) (path : List UInt8) (offset wanted : ℕ) : Option (Answer × Service) :=
  match s.pipeFind path with
  | none => some (.nothing, s)
  | some i => do
    let p ← s.pipes[i]?
    s.readPipe p offset wanted

def answerReadHandle (s : Service) (badge handle offset wanted : ℕ) : Option (Answer × Service) :=
  match s.handleLookup handle badge with
  | none => some (.nothing, s)
  | some (_, h) =>
    if h.kind ≠ .read ∨ h.pipe = 0 then some (.nothing, s)
    else do
      let p ← s.pipes[h.pipe - 1]?
      s.readPipe p offset wanted

def answerWrite (s : Service) (badge handle : ℕ) (data : List UInt8) : Option (Answer × Service) :=
  match s.handleLookup handle badge with
  | none => some (.word 0, s)
  | some (_, h) =>
    if h.kind ≠ .write ∨ h.pipe = 0 ∨ kWriteMax < data.length then some (.word 0, s)
    else do
      let p ← s.pipes[h.pipe - 1]?
      let (written, g, p) ← p.append s.chunks data
      some (.word written, { s with chunks := g, pipes := s.pipes.set (h.pipe - 1) p })

/-- A pipe one more handle is open on. -/
def attached (p : Pipe) (kind : Kind) : Pipe :=
  match kind with
  | .read => { p with openCount := p.openCount + 1, readerOpen := true, readerEver := true }
  | .write => { p with openCount := p.openCount + 1, writerOpen := true }

/-- A pipe one of whose handles is closed. -/
def detached (p : Pipe) (kind : Kind) : Pipe :=
  match kind with
  | .read => { p with openCount := p.openCount - 1, readerOpen := false }
  | .write => { p with openCount := p.openCount - 1, writerOpen := false }

def kindOf (flags : ℕ) : Kind := if flags &&& kOpenRead ≠ 0 then .read else .write

def truncates (flags : ℕ) : Bool := decide (kindOf flags = .write ∧ flags &&& kOpenTruncate ≠ 0)

def answerOpen (s : Service) (badge : ℕ) (path : List UInt8) (flags : ℕ) : Option (Answer × Service) :=
  match s.pipeMake path with
  | none => some (.word 0, s)
  | some (i, s) => do
    let p ← s.pipes[i]?
    let (g, p) ← p.cutWhen (truncates flags) s.chunks
    let s := { s with chunks := g, pipes := s.pipes.set i p }
    match s.handleAlloc badge (i + 1) (kindOf flags) with
    | none => some (.word 0, s)
    | some s => some (.word s.handleSerial, { s with pipes := s.pipes.set i (attached p (kindOf flags)) })

def answerClose (s : Service) (badge handle : ℕ) : Option (Answer × Service) :=
  match s.handleLookup handle badge with
  | none => some (.word 0, s)
  | some (j, h) =>
    if h.pipe = 0 then some (.word 0, s)
    else do
      let p ← s.pipes[h.pipe - 1]?
      let p := detached p h.kind
      let (g, p) ← p.releaseWhen (p.readerEver && decide (p.openCount = 0)) s.chunks
      some (.word 1, { s with
        chunks := g
        pipes := s.pipes.set (h.pipe - 1) p
        handles := s.handles.set j { h with serial := 0, pipe := 0 } })

/-- What a caller's call is answered, and the service behind it. -/
def step (s : Service) (badge : ℕ) : Call → Option (Answer × Service)
  | .read path offset wanted => s.answerRead path offset wanted
  | .readHandle handle offset wanted => s.answerReadHandle badge handle offset wanted
  | .write handle data => s.answerWrite badge handle data
  | .openPath path flags => s.answerOpen badge path flags
  | .close handle => s.answerClose badge handle

end Service

end Aegir.PipeFs
