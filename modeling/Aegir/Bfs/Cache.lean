/-
  Block reads through the cache (`volume.cc`, `journal.cc`).

  The device is a map of blocks beside the superblock's sector, a read of which
  may fail and leave its buffer as it was.  A volume keeps eight lines of blocks
  it has read; the open transaction's images come before them, and every block
  write drops them all.
-/
import Aegir.Bfs.Journal

namespace Aegir.Bfs

open Aegir.Lib Aegir.Lib.Buf

inductive Request where
  | block (block : ℕ) (img : Buf)
  | superblock (img : Buf)

/-- A device of blocks: what it holds, the writes it served, and which requests
    to come it refuses. -/
structure BlockDevice where
  blocks : ℕ → Buf
  sector : Buf
  served : List Request
  writes : ℕ
  refuse : ℕ → Bool
  reads : ℕ
  fails : ℕ → Bool

/-- An open volume with its journal and the lines it has read. -/
structure Cached where
  dev : BlockDevice
  vol : Volume
  jnl : Journal
  lines : ℕ → Option (ℕ × Buf)

namespace Cached

def kCacheLines : ℕ := 8

abbrev M := Fallible Cached

/-! ## The device -/

def readBlockNow (block : ℕ) : M Buf := fun c =>
  (if c.dev.fails c.dev.reads then none else some (c.dev.blocks block),
    { c with dev := { c.dev with reads := c.dev.reads + 1 } })

def devWrite (request : Request) : M Unit := fun c =>
  let d := { c.dev with writes := c.dev.writes + 1 }
  if c.dev.refuse c.dev.writes then (none, { c with dev := d })
  else
    (some (), { c with dev := { d with
      served := d.served ++ [request]
      blocks := match request with
        | .block block img => Function.update d.blocks block img
        | .superblock _ => d.blocks
      sector := match request with
        | .block _ _ => d.sector
        | .superblock img => img } })

def dropLines : M Unit := .modify fun c => { c with lines := fun _ => none }

def writeBlockNow (block : ℕ) (img : Buf) : M Unit := do
  dropLines
  let c ← .get
  .check c.vol.writable
  devWrite (.block block img)

def writeSuperblockNow : M Unit := do
  let c ← .get
  .check c.vol.writable
  devWrite (.superblock c.vol.superblock)

/-! ## The journal -/

def modifyVol (f : Volume → Volume) : M Unit := .modify fun c => { c with vol := f c.vol }
def modifyJnl (f : Journal → Journal) : M Unit := .modify fun c => { c with jnl := f c.jnl }

/-- `count_ = 0` -/
def dropEntries : M Unit := modifyJnl fun j => { j with entries := [] }

def begin : M Unit := .modify fun c =>
  { c with jnl := { c.jnl with
      active := true, entries := [], committed := false
      superblock := c.vol.superblock, snapshotValid := true } }

def log (block : ℕ) (img : Buf) : M Unit := do
  let c ← .get
  .check c.jnl.active
  if (c.jnl.peek block).isSome then
    modifyJnl fun j => { j with entries := Journal.setEntry block img j.entries }
  else do
    .check (c.jnl.entries.length < kMaxJournalBlocks)
    modifyJnl fun j => { j with entries := j.entries ++ [(block, img)] }

def abort : M Unit := .modify fun c =>
  { c with
    vol := if c.jnl.snapshotValid && !c.jnl.committed
      then c.vol.restoreSuperblock c.jnl.superblock else c.vol
    jnl := { c.jnl with snapshotValid := false, committed := false, active := false, entries := [] } }

/-- The data blocks of an entry, from `position` on around the log; answers the
    position past the last. -/
def writeLog (logBlock length : ℕ) : ℕ → List (ℕ × Buf) → M ℕ
  | position, [] => pure position
  | position, (_, img) :: order => do
    (writeBlockNow ((logBlock + position) % 2 ^ 64) img).onFail dropEntries
    writeLog logBlock length ((position + 1) % 2 ^ 64 % length) order

def checkpoint : List (ℕ × Buf) → M Unit :=
  .forEach fun e => (writeBlockNow e.1 e.2).onFail dropEntries

/-- The most runs of an entry: one less than an array's, in 32 bits. -/
def mostRuns (blockSize : ℕ) : ℕ :=
  let fits := (blockSize + (2 ^ 32 - RunArray.kFixed)) % 2 ^ 32 / 8
  ((if fits < 128 then fits else 127) + (2 ^ 32 - 1)) % 2 ^ 32

/-- The space check of `commit`. -/
def roomFor (v : Volume) (runs : ℕ) : Bool := decide (runs + 1 ≤ v.freeBlocks) && decide (runs ≤ mostRuns v.blockSize)

/-- The entry goes to the log from the log's end on, and the superblock commits it. -/
def record (entries : List (ℕ × Buf)) : M ℕ := do
  let c ← .get
  let order := sortEntries c.vol.toGeometry entries
  let length := c.vol.logLength
  let logBlock := c.vol.toBlock c.vol.log
  let arrayPosition := c.vol.logEnd
  (writeBlockNow ((logBlock + arrayPosition) % 2 ^ 64) (buildArray c.vol.toGeometry order)).onFail dropEntries
  let position ← writeLog logBlock length ((arrayPosition + 1) % 2 ^ 64 % length) order
  modifyVol fun v => (v.setLogEnd position).setFlags kDirty
  writeSuperblockNow.onFail dropEntries
  pure position

def commit : M Unit := do
  let c ← .get
  if !c.jnl.active then pure () else do
  modifyJnl fun j => { j with active := false }
  let entries := c.jnl.entries
  if entries.isEmpty then modifyJnl fun j => { j with snapshotValid := false } else do
  if !roomFor c.vol entries.length then do
    dropEntries
    .fail
  else do
  let position ← record entries
  modifyJnl fun j => { j with committed := true }
  checkpoint entries
  modifyVol fun v => (v.setLogStart position).setFlags kClean
  modifyJnl fun j => { j with entries := [], committed := false, snapshotValid := false }
  writeSuperblockNow

/-! ## Blocks -/

/-- The transaction's image, the line's, or the device's. -/
def readBlock (block : ℕ) : M Buf := do
  let c ← .get
  match c.jnl.peek block with
  | some img => pure img
  | none =>
    match (c.lines (block % kCacheLines)).filter fun line => line.1 = block with
    | some line => pure line.2
    | none => do
      let img ← readBlockNow block
      .modify fun c => { c with lines := Function.update c.lines (block % kCacheLines) (some (block, img)) }
      pure img

def writeBlock (block : ℕ) (img : Buf) : M Unit := do
  dropLines
  let c ← .get
  if c.jnl.active then log block img else writeBlockNow block img

def booted (dev : BlockDevice) (v : Volume) : Cached := ⟨dev, v, .idle, fun _ => none⟩

end Cached

end Aegir.Bfs
