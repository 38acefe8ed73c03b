/-
  The journal (`aegir/bfs/journal.h`, `journal.cc`): a redo log of metadata
  blocks.

  A transaction buffers the blocks it changes.  `commit` writes them to the log
  (a run array in ascending order, then one data block for each run), marks the
  volume dirty, writes them to their homes and retires the log; `replay` copies
  the entries of a log a crash left pending to their homes.  `mount` is what a
  service does with a disk: `Volume::open`, `Journal::open`, `Journal::replay`.
-/
import Aegir.Bfs.Volume

namespace Aegir.Bfs

open Aegir.Lib Aegir.Lib.Buf

/-! ## Transactions -/

/-- The order a run array wants: ascending allocation group, then start. -/
def runBefore (g : Geometry) (a b : ℕ) : Bool :=
  let left := g.toRun a
  let right := g.toRun b
  if left.allocationGroup ≠ right.allocationGroup then
    left.allocationGroup < right.allocationGroup
  else left.start < right.start

/-- One step of the insertion sort: put `e` into the sorted entries, given last
    one first, walking down from the last. -/
def insertEntry (g : Geometry) (e : ℕ × Buf) : List (ℕ × Buf) → List (ℕ × Buf)
  | [] => [e]
  | x :: xs => if runBefore g e.1 x.1 then x :: insertEntry g e xs else e :: x :: xs

def sortEntries (g : Geometry) (es : List (ℕ × Buf)) : List (ℕ × Buf) :=
  (es.foldl (fun sorted e => insertEntry g e sorted) []).reverse

/-- Put the runs that name `blocks` one after the other from position `i`. -/
def putRuns (g : Geometry) (b : Buf) : ℕ → List ℕ → Buf
  | _, [] => b
  | i, block :: blocks => putRuns g (putRun b i (g.toRun block)) (i + 8) blocks

/-- The run array that lists the blocks of `order`. -/
def buildArray (g : Geometry) (order : List (ℕ × Buf)) : Buf :=
  putRuns g
    (put 4 (put 4 zero RunArray.kCount order.length) RunArray.kMaxRuns (RunArray.maxRuns g.blockSize))
    RunArray.kRuns (order.map Prod.fst)

def Volume.freeBlocks (v : Volume) : ℕ :=
  v.logLength - (v.logEnd + v.logLength + (2 ^ 64 - v.logStart)) % 2 ^ 64 % v.logLength

namespace Journal

/-- The buffered image of `block`, when the open transaction changed it. -/
def peek (j : Journal) (block : ℕ) : Option Buf := j.entries.lookup block

/-- Give `block` the new image `img`, in place if it is there already. -/
def setEntry (block : ℕ) (img : Buf) : List (ℕ × Buf) → List (ℕ × Buf)
  | [] => []
  | (b, i) :: es => if b = block then (b, img) :: es else (b, i) :: setEntry block img es

/-- `count_ = 0` -/
def dropEntries : M Unit := modifyJnl fun j => { j with entries := [] }

def begin : M Unit := .modify fun w =>
  { w with jnl := { w.jnl with
      active := true, entries := [], committed := false
      superblock := w.vol.superblock, snapshotValid := true } }

def log (block : ℕ) (img : Buf) : M Unit := do
  let w ← .get
  .check w.jnl.active
  if (w.jnl.entries.lookup block).isSome then
    modifyJnl fun j => { j with entries := setEntry block img j.entries }
  else do
    .check (w.jnl.entries.length < kMaxJournalBlocks)
    modifyJnl fun j => { j with entries := j.entries ++ [(block, img)] }

def abort : M Unit := .modify fun w =>
  { w with
    vol := if w.jnl.snapshotValid && !w.jnl.committed
      then w.vol.restoreSuperblock w.jnl.superblock else w.vol
    jnl := { w.jnl with snapshotValid := false, committed := false, active := false, entries := [] } }

/-- The data blocks of an entry, from `position` on around the log; answers the
    position past the last. -/
def writeLog (logBlock length : ℕ) : ℕ → List (ℕ × Buf) → M ℕ
  | position, [] => pure position
  | position, (_, img) :: order => do
    (writeBlockNow (logBlock + position) img).onFail dropEntries
    writeLog logBlock length ((position + 1) % length) order

def checkpoint : List (ℕ × Buf) → M Unit :=
  .forEach fun e => (writeBlockNow e.1 e.2).onFail dropEntries

def commit : M Unit := do
  let w ← .get
  if !w.jnl.active then pure () else do
  modifyJnl fun j => { j with active := false }
  let entries := w.jnl.entries
  if entries.isEmpty then modifyJnl fun j => { j with snapshotValid := false } else do
  let runs := entries.length
  if w.vol.freeBlocks < runs + 1 ∨ RunArray.maxRuns w.vol.blockSize - 1 < runs then do
    dropEntries
    .fail
  else do
  let order := sortEntries w.vol.toGeometry entries
  let length := w.vol.logLength
  let logBlock := w.vol.toBlock w.vol.log
  let arrayPosition := w.vol.logEnd
  (writeBlockNow (logBlock + arrayPosition) (buildArray w.vol.toGeometry order)).onFail dropEntries
  let position ← writeLog logBlock length ((arrayPosition + 1) % length) order
  -- the commit record: only after it does any block go to its home
  modifyVol fun v => (v.setLogEnd position).setFlags kDirty
  writeSuperblockNow.onFail dropEntries
  modifyJnl fun j => { j with committed := true }
  checkpoint entries
  modifyVol fun v => (v.setLogStart position).setFlags kClean
  modifyJnl fun j => { j with entries := [], committed := false, snapshotValid := false }
  writeSuperblockNow

/-! ## Blocks through the journal -/

end Journal

/-- `read_block`: the image the open transaction gave the block, else the
    disk's. -/
def readBlock (w : World) (block : ℕ) : Buf := (w.jnl.peek block).getD (readBlockNow w block)

/-- `write_block`: to the open transaction, or to the device without one. -/
def writeBlock (block : ℕ) (img : Buf) : M Unit := do
  let w ← .get
  if w.jnl.active then Journal.log block img else writeBlockNow block img

def flushSuperblock : M Unit := do
  let w ← .get
  if w.jnl.active then pure () else writeSuperblockNow

namespace Journal

/-! ## Replay -/

/-- Copy the `count` data blocks from `position` on to the runs of `array`,
    from its `i`th on; answers the position past the last. -/
def replayRuns (g : Geometry) (array : Buf) (logBlock length : ℕ) : ℕ → ℕ → ℕ → M ℕ
  | 0, _, position => pure position
  | count + 1, i, position => do
    let w ← .get
    let img := readBlockNow w (logBlock + position)
    writeBlockNow (g.toBlock (leRun array (RunArray.kRuns + i * 8))) img
    replayRuns g array logBlock length count (i + 1) ((position + 1) % length)

/-- One entry of the log, at `start`: its array is checked, then copied home. -/
def replayEntry (g : Geometry) (logBlock length start : ℕ) : M ℕ := do
  let w ← .get
  let array := readBlockNow w (logBlock + start)
  let count := le 4 array RunArray.kCount
  let maxRuns := RunArray.maxRuns g.blockSize
  if le 4 array RunArray.kMaxRuns ≠ maxRuns ∨ count = 0 ∨ maxRuns - 1 < count then .fail else do
  .check ((List.range count).all fun i => g.validateRun (leRun array (RunArray.kRuns + i * 8)))
  replayRuns g array logBlock length count 0 ((start + 1) % length)

/-- The walk from `start` to `end_`, at most `fuel` entries. -/
def replayLoop (g : Geometry) (logBlock length end_ : ℕ) : ℕ → ℕ → M Unit
  | 0, _ => pure ()
  | fuel + 1, start => do
    let position ← replayEntry g logBlock length start
    if position = end_ then pure () else replayLoop g logBlock length end_ fuel position

def replay : M Unit := do
  let w ← .get
  let v := w.vol
  if v.logStart = v.logEnd then pure () else do
  .check v.writable
  replayLoop v.toGeometry (v.toBlock v.log) v.logLength v.logEnd v.logLength v.logStart
  modifyVol fun v' => (v'.setLogStart v.logEnd).setFlags kClean
  writeSuperblockNow

end Journal

def Journal.idle : Journal := ⟨false, [], false, false, zero⟩

/-- The state a service starts in, with the volume `v` open on the device. -/
def World.booted (dev : Device) (v : Volume) : World := ⟨dev, v, Journal.idle, ⟨zero, none⟩⟩

/-- `Journal::open` on a volume that opened for writing. -/
def Journal.openable (v : Volume) : Bool :=
  v.writable && decide (2 ≤ v.logLength) && decide (v.blockSize ≤ kMaxBlockSize)

/-- `Volume::open`, `Journal::open` and `Journal::replay` on a device that may
    have a discard transport; nothing when the volume does not open. -/
def mount (dev : Device) (discard : Bool) : Option (Option Unit × World) :=
  match Volume.open dev.disk true discard with
  | none => none
  | some v => if Journal.openable v then some (Journal.replay (.booted dev v)) else none

end Aegir.Bfs
