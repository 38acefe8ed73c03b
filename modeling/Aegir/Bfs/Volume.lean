/-
  A Be File System volume (`aegir/bfs/volume.h`, `volume.cc`): the state every
  part of the library works on, opening a volume by its superblock, and whole
  block input and output.
-/
import Aegir.Bfs.Layout
import Aegir.Lib.Fallible

namespace Aegir.Bfs

open Aegir.Lib Aegir.Lib.Buf

/-! ## State -/

/-- A request the device served, or a mark of the library's progress. -/
inductive Event where
  /-- `len` bytes of `img` written at byte `pos` -/
  | write (pos : ℕ) (img : Buf) (len : ℕ)
  /-- `sectors` sectors from `sector` discarded -/
  | discard (sector sectors : ℕ)

/-- The block device: its bytes, the events so far, and which of the write
    requests to come it refuses. -/
structure Device where
  disk : Buf
  trace : List Event
  asked : ℕ
  refuse : ℕ → Bool

def Device.on (disk : Buf) (refuse : ℕ → Bool) : Device := ⟨disk, [], 0, refuse⟩

/-- What a volume's superblock fixes for good. -/
structure Geometry where
  blockShift : ℕ
  agShift : ℕ
  numAgs : ℕ
  blocksPerAg : ℕ
  numBlocks : ℕ
  log : Run
deriving DecidableEq

/-- The volume as it is held in memory. -/
structure Volume extends Geometry where
  writable : Bool
  discard : Bool
  usedBlocks : ℕ
  root : Run
  indices : Run
  logStart : ℕ
  logEnd : ℕ
  superblock : Buf

/-- The journal: the buffered blocks of the open transaction in the order they
    were first logged (`blocks_`, `data_` and `count_` of the source). -/
structure Journal where
  active : Bool
  entries : List (ℕ × Buf)
  snapshotValid : Bool
  committed : Bool
  superblock : Buf

/-- The allocator: the bitmap block it works on, and the freed run it holds back
    for a discard (`pending_discard_` while `discard_pending_`). -/
structure Allocator where
  bitmap : Buf
  pending : Option Run

structure World where
  dev : Device
  vol : Volume
  jnl : Journal
  alloc : Allocator

abbrev M := Fallible World

def modifyDev (f : Device → Device) : M Unit := .modify fun w => { w with dev := f w.dev }
def modifyVol (f : Volume → Volume) : M Unit := .modify fun w => { w with vol := f w.vol }
def modifyJnl (f : Journal → Journal) : M Unit := .modify fun w => { w with jnl := f w.jnl }
def modifyAlloc (f : Allocator → Allocator) : M Unit :=
  .modify fun w => { w with alloc := f w.alloc }

/-! ## The device -/

def Event.apply (d : Buf) : Event → Buf
  | .write pos img len => blit d pos img len
  | .discard _ _ => d

def Event.isWrite : Event → Bool
  | .write _ _ _ => true
  | .discard _ _ => false

def applyAll (d : Buf) (es : List Event) : Buf := es.foldl Event.apply d

/-- The transport's write: `len` bytes of `img` to byte `pos`. -/
def devWrite (pos : ℕ) (img : Buf) (len : ℕ) : M Unit := fun w =>
  let d := w.dev
  if d.refuse d.asked then (none, { w with dev := { d with asked := d.asked + 1 } })
  else (some (), { w with dev := { d with
    disk := blit d.disk pos img len
    trace := d.trace ++ [.write pos img len]
    asked := d.asked + 1 } })

/-- The transport's discard; the library does not look at its answer. -/
def devDiscard (sector sectors : ℕ) : M Unit :=
  modifyDev fun d => { d with trace := d.trace ++ [.discard sector sectors] }

/-! ## Opening a volume -/

namespace Geometry

def blockSize (g : Geometry) : ℕ := 2 ^ g.blockShift
def logLength (g : Geometry) : ℕ := g.log.length

/-- A run's first block number: `(group << ag_shift) | start`. -/
def toBlock (g : Geometry) (r : Run) : ℕ := (r.allocationGroup <<< g.agShift) ||| r.start

/-- The one-block run that names `block`. -/
def toRun (g : Geometry) (block : ℕ) : Run where
  allocationGroup := (block >>> g.agShift) % 2 ^ 32
  start := (block &&& (2 ^ g.agShift - 1)) % 2 ^ 16
  length := 1

def validateRun (g : Geometry) (r : Run) : Bool :=
  if r.length = 0 ∨ g.numAgs ≤ r.allocationGroup then false
  else if 2 ^ g.agShift < r.start + r.length then false
  else g.toBlock r + r.length ≤ g.numBlocks

/-- The bytes a block's sectors cover: `block_size() / kSectorBytes` sectors. -/
def blockBytes (g : Geometry) : ℕ := g.blockSize / kSectorBytes * kSectorBytes

end Geometry

theorem toBlock_eq (g : Geometry) {r : Run} (hr : r.start < 2 ^ g.agShift) :
    g.toBlock r = r.allocationGroup * 2 ^ g.agShift + r.start := by
  rw [Geometry.toBlock, ← Nat.shiftLeft_add_eq_or_of_lt hr, Nat.shiftLeft_eq]

namespace Volume

/-- The volume a superblock image describes, when it is one a little-endian
    reader speaks. -/
def ofSuperblock (sb : Buf) (writable discard : Bool) : Option Volume :=
  let blockSize := le 4 sb Superblock.kBlockSize
  let blockShift := le 4 sb Superblock.kBlockShift
  let agShift := le 4 sb Superblock.kAgShift
  let numAgs := le 4 sb Superblock.kNumAgs
  let blocksPerAg := le 4 sb Superblock.kBlocksPerAg
  let numBlocks := le 8 sb Superblock.kNumBlocks
  if le 4 sb Superblock.kMagic1 ≠ kMagic1 ∨ le 4 sb Superblock.kMagic2 ≠ kMagic2 ∨
      le 4 sb Superblock.kMagic3 ≠ kMagic3 ∨
      le 4 sb Superblock.kByteOrder ≠ kByteOrderLittleEndian then none
  else if blockSize = 0 ∨ kMaxBlockSize < blockSize ∨ blockSize ≠ le 4 sb Superblock.kInodeSize ∨
      2 ^ blockShift ≠ blockSize ∨ agShift < 1 ∨ 30 < agShift ∨ numAgs < 1 ∨ blocksPerAg < 1 ∨
      numBlocks < 10 then none
  else if numAgs ≠ ((numBlocks + 2 ^ agShift - 1) % 2 ^ 64) >>> agShift then none
  else some {
    writable, discard, blockShift, agShift, numAgs, blocksPerAg, numBlocks
    usedBlocks := le 8 sb Superblock.kUsedBlocks
    root := leRun sb Superblock.kRootDir
    indices := leRun sb Superblock.kIndices
    log := leRun sb Superblock.kLog
    logStart := le 8 sb Superblock.kLogStart
    logEnd := le 8 sb Superblock.kLogEnd
    superblock := sb }

/-- The superblock on a disk: the 512 bytes of sector 1. -/
def readSuperblock (disk : Buf) : Buf := blit zero 0 (slice disk kSuperblockOffset) kSuperblockBytes

/-- `Volume::open`: read the superblock off the disk and check it. -/
def «open» (disk : Buf) (writable discard : Bool) : Option Volume :=
  ofSuperblock (readSuperblock disk) writable discard

def clean (v : Volume) : Bool := le 4 v.superblock Superblock.kFlags == kClean

def setLogStart (v : Volume) (position : ℕ) : Volume :=
  { v with logStart := position, superblock := put 8 v.superblock Superblock.kLogStart position }

def setLogEnd (v : Volume) (position : ℕ) : Volume :=
  { v with logEnd := position, superblock := put 8 v.superblock Superblock.kLogEnd position }

def setUsedBlocks (v : Volume) (used : ℕ) : Volume :=
  { v with usedBlocks := used, superblock := put 8 v.superblock Superblock.kUsedBlocks used }

def setFlags (v : Volume) (flags : ℕ) : Volume :=
  { v with superblock := put 4 v.superblock Superblock.kFlags flags }

/-- `restore_superblock`: the image, and the three fields read back from it. -/
def restoreSuperblock (v : Volume) (image : Buf) : Volume :=
  { v with
    superblock := image
    usedBlocks := le 8 image Superblock.kUsedBlocks
    logStart := le 8 image Superblock.kLogStart
    logEnd := le 8 image Superblock.kLogEnd }

@[simp] theorem restoreSuperblock_toGeometry (v : Volume) (image : Buf) :
    (v.restoreSuperblock image).toGeometry = v.toGeometry := by
  unfold restoreSuperblock; rfl

end Volume

/-! ## Whole-block input and output -/

/-- `read_block_now`: the block's image on the disk. -/
def readBlockNow (w : World) (block : ℕ) : Buf := slice w.dev.disk (block * w.vol.blockBytes)

def writeBlockNow (block : ℕ) (img : Buf) : M Unit := do
  let w ← .get
  .check w.vol.writable
  devWrite (block * w.vol.blockBytes) img w.vol.blockBytes

def writeSuperblockNow : M Unit := do
  let w ← .get
  .check w.vol.writable
  devWrite kSuperblockOffset w.vol.superblock kSuperblockBytes

/-! ## The superblock image

The in-memory fields of an open volume are those of its superblock image, and
the setters keep them so; writing the image and opening the disk again gives
the same volume. -/

namespace Volume

variable {v : Volume} {sb disk : Buf} {wr di : Bool}

/-- The fields are those of the image, and the image is 512 bytes long. -/
structure Coherent (v : Volume) : Prop where
  fields : ofSuperblock v.superblock v.writable v.discard = some v
  size : ∀ i, kSuperblockBytes ≤ i → v.superblock i = 0

theorem readSuperblock_size (disk : Buf) {i : ℕ} (h : kSuperblockBytes ≤ i) :
    readSuperblock disk i = 0 := blit_of_notMem (Or.inr (by omega))

theorem ofSuperblock_some (h : ofSuperblock sb wr di = some v) :
    v.superblock = sb ∧ v.writable = wr ∧ v.discard = di := by
  unfold ofSuperblock at h
  simp only at h
  split_ifs at h
  cases h
  exact ⟨rfl, rfl, rfl⟩

theorem Coherent.of_open (h : Volume.open disk wr di = some v) : v.Coherent := by
  obtain ⟨h₁, h₂, h₃⟩ := ofSuperblock_some h
  exact ⟨by rw [h₁, h₂, h₃]; exact h, fun i hi => by rw [h₁]; exact readSuperblock_size disk hi⟩

theorem open_discard (h : Volume.open disk wr di = some v) : v.writable = wr ∧ v.discard = di :=
  (ofSuperblock_some h).2

theorem Coherent.open_written (hv : v.Coherent) (d : Buf) :
    Volume.open (blit d kSuperblockOffset v.superblock kSuperblockBytes) v.writable v.discard =
      some v := by
  have h : readSuperblock (blit d kSuperblockOffset v.superblock kSuperblockBytes) = v.superblock := by
    funext i
    by_cases hi : i < kSuperblockBytes
    · rw [readSuperblock, blit_of_mem (Nat.zero_le i) (by omega), slice_apply, Nat.sub_zero,
        blit_of_mem (Nat.le_add_right _ i) (by omega), Nat.add_sub_cancel_left]
    · rw [readSuperblock_size _ (by omega), hv.size i (by omega)]
  rw [Volume.open, h]; exact hv.fields

theorem open_congr {d d' : Buf}
    (h : ∀ a, kSuperblockOffset ≤ a → a < kSuperblockOffset + kSuperblockBytes → d a = d' a) :
    Volume.open d wr di = Volume.open d' wr di := by
  have : readSuperblock d = readSuperblock d' := by
    funext i
    by_cases hi : i < kSuperblockBytes
    · rw [readSuperblock, readSuperblock, blit_of_mem (Nat.zero_le i) (by omega),
        blit_of_mem (Nat.zero_le i) (by omega), slice_apply, slice_apply,
        h _ (by omega) (by omega)]
    · rw [readSuperblock_size _ (by omega), readSuperblock_size _ (by omega)]
  rw [Volume.open, this, Volume.open]

/-- The bytes of the image that no setter writes. -/
def Fixed (i : ℕ) : Prop :=
  (i < Superblock.kUsedBlocks ∨ Superblock.kUsedBlocks + 8 ≤ i) ∧
  (i < Superblock.kFlags ∨ Superblock.kFlags + 4 ≤ i) ∧
  (i < Superblock.kLogStart ∨ Superblock.kLogEnd + 8 ≤ i)

/-- Two images that agree outside the setters' bytes describe volumes that
    differ in the setters' fields only. -/
theorem ofSuperblock_of_agree {sb' : Buf} (h : ∀ i, Fixed i → sb i = sb' i) :
    ofSuperblock sb' wr di = (ofSuperblock sb wr di).map fun u => { u with
      usedBlocks := le 8 sb' Superblock.kUsedBlocks
      logStart := le 8 sb' Superblock.kLogStart
      logEnd := le 8 sb' Superblock.kLogEnd
      superblock := sb' } := by
  have hd : ∀ w i, (i + w ≤ 56 ∨ (64 ≤ i ∧ i + w ≤ 84) ∨ (88 ≤ i ∧ i + w ≤ 96) ∨ 112 ≤ i) →
      le w sb' i = le w sb i := fun w i hi => (le_congr fun k hk => h _ (by
    simp only [Fixed, Superblock.kUsedBlocks, Superblock.kFlags, Superblock.kLogStart,
      Superblock.kLogEnd]; omega)).symm
  have hr : ∀ i, (i + 8 ≤ 56 ∨ (64 ≤ i ∧ i + 8 ≤ 84) ∨ (88 ≤ i ∧ i + 8 ≤ 96) ∨ 112 ≤ i) →
      leRun sb' i = leRun sb i := fun i hi => (leRun_congr fun k hk => h _ (by
    simp only [Fixed, Superblock.kUsedBlocks, Superblock.kFlags, Superblock.kLogStart,
      Superblock.kLogEnd]; omega)).symm
  unfold ofSuperblock
  simp (disch := decide) only [hd, hr]
  split_ifs <;> rfl

/-- An image that keeps the fixed bytes of a coherent volume's image, with the
    setters' fields read from it, is coherent again. -/
theorem Coherent.of_agree (hv : v.Coherent) {u : Volume}
    (hf : ∀ i, Fixed i → v.superblock i = u.superblock i)
    (hz : ∀ i, kSuperblockBytes ≤ i → u.superblock i = 0)
    (hu : u = { v with
      usedBlocks := le 8 u.superblock Superblock.kUsedBlocks
      logStart := le 8 u.superblock Superblock.kLogStart
      logEnd := le 8 u.superblock Superblock.kLogEnd
      superblock := u.superblock }) : u.Coherent := by
  refine ⟨?_, hz⟩
  have hw : u.writable = v.writable := by rw [hu]
  have hdi : u.discard = v.discard := by rw [hu]
  rw [hw, hdi, ofSuperblock_of_agree hf, hv.fields, Option.map_some, ← hu]

theorem Coherent.cursors (hv : v.Coherent) :
    v.usedBlocks = le 8 v.superblock Superblock.kUsedBlocks ∧
    v.logStart = le 8 v.superblock Superblock.kLogStart ∧
    v.logEnd = le 8 v.superblock Superblock.kLogEnd := by
  have h := hv.fields
  rw [ofSuperblock_of_agree fun i _ => (rfl : v.superblock i = v.superblock i), hv.fields,
    Option.map_some] at h
  have h' := Option.some.inj h
  exact ⟨by rw [← h'], by rw [← h'], by rw [← h']⟩

/-- What opening a volume checks of its geometry, and what the widths of the
    superblock's fields say of it. -/
structure Checked (v : Volume) : Prop where
  blockSize : v.blockSize ≤ kMaxBlockSize
  numAgs : 1 ≤ v.numAgs ∧ v.numAgs < 2 ^ 32
  groups : v.numAgs = ((v.numBlocks + 2 ^ v.agShift - 1) % 2 ^ 64) >>> v.agShift
  agShift : 1 ≤ v.agShift ∧ v.agShift ≤ 30
  numBlocks : v.numBlocks < 2 ^ 64
  log : v.log.Fits

theorem Coherent.checked (hv : v.Coherent) : v.Checked := by
  have h := hv.fields
  unfold ofSuperblock at h
  simp only at h
  split_ifs at h with h₁ h₂ h₃
  have h₄ := le_lt 4 v.superblock Superblock.kNumAgs
  have h₅ := le_lt 8 v.superblock Superblock.kNumBlocks
  rw [← Option.some.inj h]
  push Not at h₂ h₃
  obtain ⟨-, h₆, -, h₇, h₈, h₉, h₁₀, -, -⟩ := h₂
  exact ⟨h₇.trans_le h₆, ⟨h₁₀, by simpa using h₄⟩, h₃, ⟨h₈, h₉⟩, by simpa using h₅, leRun_fits _ _⟩

theorem Checked.span (hc : v.Checked) : v.numBlocks ≤ v.numAgs * 2 ^ v.agShift := by
  have hs : 0 < 2 ^ v.agShift := Nat.two_pow_pos _
  have hag : 2 ^ v.agShift ≤ 2 ^ 30 := Nat.pow_le_pow_right (by norm_num) hc.agShift.2
  have hg := hc.groups
  have hpos := hc.numAgs.1
  have hnb := hc.numBlocks
  rw [Nat.shiftRight_eq_div_pow] at hg
  by_cases hlt : v.numBlocks + 2 ^ v.agShift - 1 < 2 ^ 64
  · rw [Nat.mod_eq_of_lt hlt] at hg
    have h₁ := Nat.div_add_mod (v.numBlocks + 2 ^ v.agShift - 1) (2 ^ v.agShift)
    have h₂ := Nat.mod_lt (v.numBlocks + 2 ^ v.agShift - 1) hs
    rw [← hg, Nat.mul_comm] at h₁
    omega
  · -- the sum wrapped around, which leaves no group
    exfalso
    have h₁ : (v.numBlocks + 2 ^ v.agShift - 1) % 2 ^ 64 = v.numBlocks + 2 ^ v.agShift - 1 - 2 ^ 64 := by
      rw [Nat.mod_eq_sub_mod (by omega), Nat.mod_eq_of_lt (by omega)]
    rw [h₁, Nat.div_eq_of_lt (by omega)] at hg
    omega

section
variable (hv : v.Coherent) {p : ℕ}
include hv

theorem Coherent.of_put {w at' : ℕ} {u : Volume} (hs : u.superblock = put w v.superblock at' p)
    (hfree : ∀ i, Fixed i → i < at' ∨ at' + w ≤ i) (hin : at' + w ≤ kSuperblockBytes)
    (hu : u = { v with
      usedBlocks := le 8 u.superblock Superblock.kUsedBlocks
      logStart := le 8 u.superblock Superblock.kLogStart
      logEnd := le 8 u.superblock Superblock.kLogEnd
      superblock := u.superblock }) : u.Coherent :=
  hv.of_agree (fun i hi => by rw [hs, put_of_notMem (hfree i hi)])
    (fun i hi => by rw [hs, put_of_notMem (.inr (hin.trans hi)), hv.size i hi]) hu

theorem Coherent.setLogStart (hp : p < 2 ^ 64) : (v.setLogStart p).Coherent := by
  obtain ⟨h₁, -, h₃⟩ := hv.cursors
  refine hv.of_put rfl (by simp only [Fixed, Superblock.kLogStart, Superblock.kLogEnd]; omega) (by decide) ?_
  simp only [Volume.setLogStart]
  rw [le_put_of_disjoint (by decide), le_put_of_lt (by simpa using hp),
    le_put_of_disjoint (by decide), ← h₁, ← h₃]

theorem Coherent.setLogEnd (hp : p < 2 ^ 64) : (v.setLogEnd p).Coherent := by
  obtain ⟨h₁, h₂, -⟩ := hv.cursors
  refine hv.of_put rfl (by simp only [Fixed, Superblock.kLogStart, Superblock.kLogEnd]; omega) (by decide) ?_
  simp only [Volume.setLogEnd]
  rw [le_put_of_disjoint (by decide), le_put_of_disjoint (by decide),
    le_put_of_lt (by simpa using hp), ← h₁, ← h₂]

theorem Coherent.setUsedBlocks (hp : p < 2 ^ 64) : (v.setUsedBlocks p).Coherent := by
  obtain ⟨-, h₂, h₃⟩ := hv.cursors
  refine hv.of_put rfl (by simp only [Fixed, Superblock.kUsedBlocks]; omega) (by decide) ?_
  simp only [Volume.setUsedBlocks]
  rw [le_put_of_lt (by simpa using hp), le_put_of_disjoint (by decide),
    le_put_of_disjoint (by decide), ← h₂, ← h₃]

theorem Coherent.setFlags (flags : ℕ) : (v.setFlags flags).Coherent := by
  obtain ⟨h₁, h₂, h₃⟩ := hv.cursors
  refine hv.of_put rfl (by simp only [Fixed, Superblock.kFlags]; omega) (by decide) ?_
  simp only [Volume.setFlags]
  rw [le_put_of_disjoint (by decide), le_put_of_disjoint (by decide),
    le_put_of_disjoint (by decide), ← h₁, ← h₂, ← h₃]

end

end Volume

end Aegir.Bfs
