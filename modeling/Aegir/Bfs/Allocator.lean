/-
  The block allocator (`aegir/bfs/allocator.h`, `allocator.cc`): the allocation
  bitmap, first fit, and the freed run held back for a discard.

  The bitmap of a group takes `blocks_per_ag` blocks.  The allocator reads one
  of them at a time into its buffer of `kMaxBlockSize` bytes and writes the
  buffer's first block back; the rest of the buffer keeps what was there.
-/
import Aegir.Bfs.Journal

namespace Aegir.Bfs

open Aegir.Lib Aegir.Lib.Buf Aegir.Lib.Fallible

namespace Geometry

def bitsPerBlock (g : Geometry) : ℕ := g.blockSize * 8

/-- The blocks of `group` that lie inside the volume. -/
def groupBits (g : Geometry) (group : ℕ) : ℕ :=
  let first := group <<< g.agShift
  let span := 2 ^ g.agShift
  if g.numBlocks ≤ first then 0
  else if span < g.numBlocks - first then span else g.numBlocks - first

def bitmapBlock (g : Geometry) (group index : ℕ) : ℕ := 1 + group * g.blocksPerAg + index

end Geometry

namespace Allocator

/-- A run's length field holds no more. -/
def kMaxRun : ℕ := 65535

/-! ## Bits -/

/-- The byte that holds `bit`: bits are kept in little-endian 32-bit words. -/
def bitByte (bit : ℕ) : ℕ := bit / 32 * 4 + bit % 32 / 8

def bitSet (bitmap : Buf) (bit : ℕ) : Bool := (bitmap (bitByte bit)).toNat.testBit (bit % 8)

def setBit (bitmap : Buf) (bit : ℕ) : Buf :=
  Function.update bitmap (bitByte bit)
    (UInt8.ofNat ((bitmap (bitByte bit)).toNat ||| 2 ^ (bit % 8)))

def clearBit (bitmap : Buf) (bit : ℕ) : Buf :=
  Function.update bitmap (bitByte bit)
    (UInt8.ofNat ((bitmap (bitByte bit)).toNat &&& (255 ^^^ 2 ^ (bit % 8))))

/-- Set the `length` bits from `first` on. -/
def setBits (bitmap : Buf) (first length : ℕ) : Buf :=
  (List.range length).foldl (fun b k => setBit b (first + k)) bitmap

/-! ## Allocation -/

/-- Extend a free run of `length` blocks at `at_` by at most `room` blocks,
    while they are free and stay inside the `index`th bitmap block. -/
def extendRun (bitmap : Buf) (perBlock bits index at_ : ℕ) : ℕ → ℕ → ℕ
  | 0, length => length
  | room + 1, length =>
    if at_ + length < bits ∧ (at_ + length) / perBlock = index ∧
        bitSet bitmap (at_ + length) = false then
      extendRun bitmap perBlock bits index at_ room (length + 1)
    else length

/-- The first free run of `minBlocks` or more from `bit` on, among the next
    `left` bits of the `index`th bitmap block: its place in the group, and its
    length. -/
def scanBits (bitmap : Buf) (perBlock bits index maxBlocks minBlocks : ℕ) :
    ℕ → ℕ → Option (ℕ × ℕ)
  | 0, _ => none
  | left + 1, bit =>
    let at_ := index * perBlock + bit
    if bits ≤ at_ then none
    else if bitSet bitmap bit then
      scanBits bitmap perBlock bits index maxBlocks minBlocks left (bit + 1)
    else
      let length := extendRun bitmap perBlock bits index at_ (maxBlocks - 1) 1
      if length < minBlocks then
        scanBits bitmap perBlock bits index maxBlocks minBlocks left (bit + 1)
      else some (at_, length)

/-- Look through `left` bitmap blocks of `group` from the `index`th on, and take
    the first run that is long enough. -/
def allocateIn (group bits maxBlocks minBlocks : ℕ) : ℕ → ℕ → M (Option Run)
  | 0, _ => pure none
  | left + 1, index => do
    let w ← .get
    let at_ := w.vol.bitmapBlock group index
    if w.vol.numBlocks ≤ at_ then .fail else do
    let bitmap := blit w.alloc.bitmap 0 (readBlock w at_) w.vol.blockSize
    modifyAlloc fun a => { a with bitmap }
    match scanBits bitmap w.vol.bitsPerBlock bits index maxBlocks minBlocks w.vol.bitsPerBlock 0 with
    | none => allocateIn group bits maxBlocks minBlocks left (index + 1)
    | some (first, length) => do
      let bitmap := setBits bitmap first length
      modifyAlloc fun a => { a with bitmap }
      writeBlock at_ bitmap
      modifyVol fun v => v.setUsedBlocks ((v.usedBlocks + length) % 2 ^ 64)
      flushSuperblock.ignore
      pure (some ⟨group, first % 2 ^ 16, length % 2 ^ 16⟩)

/-- Look through `left` groups from `group` on. -/
def allocateFrom (maxBlocks minBlocks : ℕ) : ℕ → ℕ → M Run
  | 0, _ => .fail
  | left + 1, group => do
    let w ← .get
    let bits := w.vol.groupBits group
    if bits = 0 then .fail else do
    match ← allocateIn group bits maxBlocks minBlocks w.vol.blocksPerAg 0 with
    | some run => pure run
    | none => allocateFrom maxBlocks minBlocks left (group + 1)

def allocate (maxBlocks minBlocks : ℕ) : M Run := do
  if maxBlocks = 0 ∨ minBlocks = 0 then .fail else do
  let maxBlocks := if kMaxRun < maxBlocks then kMaxRun else maxBlocks
  let minBlocks := if maxBlocks < minBlocks then maxBlocks else minBlocks
  let w ← .get
  allocateFrom maxBlocks minBlocks w.vol.numAgs 0

/-! ## Freeing and discards -/

def discardRun (run : Run) : M Unit := do
  let w ← .get
  if !w.vol.discard || run.length == 0 then .fail else do
  let sectorsPerBlock := w.vol.blockSize / kSectorBytes
  devDiscard (w.vol.toBlock run * sectorsPerBlock) (run.length * sectorsPerBlock)

def flushDiscards : M Unit := do
  let w ← .get
  match w.alloc.pending with
  | some run => (discardRun run).ignore
  | none => pure ()
  modifyAlloc fun a => { a with pending := none }

def dropDiscards : M Unit := modifyAlloc fun a => { a with pending := none }

/-- The pending run grown by `run`, when the two touch in one group and fit one
    run together. -/
def mergeDiscard (pending run : Run) : Option Run :=
  if pending.allocationGroup = run.allocationGroup ∧ pending.length + run.length ≤ kMaxRun then
    if run.start = pending.start + pending.length then
      some { pending with length := (pending.length + run.length) % 2 ^ 16 }
    else if pending.start = run.start + run.length then
      some { pending with start := run.start, length := (pending.length + run.length) % 2 ^ 16 }
    else none
  else none

def queueDiscard (run : Run) : M Unit := do
  let w ← .get
  if !w.vol.discard || run.length == 0 then pure () else do
  match w.alloc.pending.bind (mergeDiscard · run) with
  | some merged => modifyAlloc fun a => { a with pending := some merged }
  | none => do
    flushDiscards
    modifyAlloc fun a => { a with pending := some run }

/-- Clear the bits of `run` from its `k`th on, `left` of them, one bitmap block
    write each. -/
def freeBits (run : Run) : ℕ → ℕ → M Unit
  | 0, _ => pure ()
  | left + 1, k => do
    let w ← .get
    let at_ := run.start + k
    let index := at_ / w.vol.bitsPerBlock
    let bit := at_ % w.vol.bitsPerBlock
    let block := w.vol.bitmapBlock run.allocationGroup index
    if w.vol.numBlocks ≤ block then .fail else do
    let bitmap := clearBit (blit w.alloc.bitmap 0 (readBlock w block) w.vol.blockSize) bit
    modifyAlloc fun a => { a with bitmap }
    writeBlock block bitmap
    freeBits run left (k + 1)

def free (run : Run) : M Unit := do
  if run.length = 0 then .fail else do
  freeBits run run.length 0
  modifyVol fun v =>
    v.setUsedBlocks (if run.length ≤ v.usedBlocks then v.usedBlocks - run.length else 0)
  flushSuperblock.ignore
  queueDiscard run

end Allocator

theorem discardRun_run (run : Run) (w : World) :
    Allocator.discardRun run w = if !w.vol.discard || run.length == 0 then (none, w) else
      (some (), { w with dev := { w.dev with trace := w.dev.trace ++
        [.discard (w.vol.toBlock run * (w.vol.blockSize / kSectorBytes))
          (run.length * (w.vol.blockSize / kSectorBytes))] } }) := by
  rw [Allocator.discardRun, get_bind_run]
  split_ifs <;> rfl

theorem flushDiscards_cases (w : World) : ∃ t, Allocator.flushDiscards w = (some (),
    { w with
      dev := { w.dev with trace := w.dev.trace ++ t }, alloc := { w.alloc with pending := none } }) ∧
    ∀ e ∈ t, Event.isWrite e = false := by
  rw [Allocator.flushDiscards, get_bind_run]
  rcases hp : w.alloc.pending with _ | run
  · refine ⟨[], ?_, by simp⟩
    simp only [List.append_nil]
    rfl
  · have hd := discardRun_run run w
    simp only [bind_run, ignore]
    rw [hd]
    split_ifs with hc
    · refine ⟨[], ?_, by simp⟩
      simp only [List.append_nil]
      rfl
    · exact ⟨_, rfl, by simp [Event.isWrite]⟩

end Aegir.Bfs
