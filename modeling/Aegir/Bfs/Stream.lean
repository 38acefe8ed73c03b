/-
  Inodes and their data streams (`aegir/bfs/inode.h`, `volume.cc`): reading an
  inode, the block runs its data stream lists, and reading bytes of the stream.

  A stream's bytes are those of its runs, one run after the other; `readStream`
  reads zeros where no run reaches.  The batched read of the source, taken while
  no transaction is open and hence nothing is buffered, reads the same blocks.
-/
import Aegir.Bfs.Journal

namespace Aegir.Bfs

open Aegir.Lib Aegir.Lib.Buf

def kInodeMagic1 : ℕ := 0x3bbe0ad9
def kInodeInUse : ℕ := 0x00000001
def kMaxName : ℕ := 255
def kFileNameName : ℕ := 0x13

/-! The inode's field offsets. -/
namespace InodeField

def kMagic1 : ℕ := 0
def kInodeNum : ℕ := 4
def kUid : ℕ := 12
def kGid : ℕ := 16
def kMode : ℕ := 20
def kFlags : ℕ := 24
def kLastModified : ℕ := 36
def kParent : ℕ := 44
def kAttributes : ℕ := 52
def kType : ℕ := 60
def kInodeSize : ℕ := 64
def kData : ℕ := 72
def kSmallData : ℕ := 232

end InodeField

/-! The data stream's field offsets, relative to its start. -/
namespace DataField

def kDirect : ℕ := 0
def kDirectCount : ℕ := 12
def kMaxDirectRange : ℕ := 96
def kIndirect : ℕ := 104
def kMaxIndirectRange : ℕ := 112
def kDoubleIndirect : ℕ := 120
def kMaxDoubleIndirectRange : ℕ := 128
def kSize : ℕ := 136
def kBytes : ℕ := 144

end DataField

/-! ## Inodes -/

/-- What a caller needs of an inode; `size` and `mtime` are the raw 64 bits. -/
structure Inode where
  mode : ℕ
  uid : ℕ
  gid : ℕ
  type : ℕ
  size : ℕ
  mtime : ℕ
  run : Run
  parent : Run
  attributes : Run
  name : List UInt8
  data : Buf

/-- The bytes of the small data entry at `pos`, or nothing when it overruns the
    inode. -/
def entrySize (block : Buf) (inodeSize pos : ℕ) : Option ℕ :=
  let size := 8 + le 2 block (pos + 4) + 3 + le 2 block (pos + 6) + 1
  if pos + size ≤ inodeSize then some size else none

def dropZeros (s : List UInt8) : List UInt8 := (s.reverse.dropWhile (· = 0)).reverse

/-- `small_file_name`: the name among the small data entries from `pos` on. -/
def smallFileName (block : Buf) (inodeSize : ℕ) : ℕ → ℕ → Option (List UInt8)
  | 0, _ => none
  | fuel + 1, pos =>
    if pos + 8 ≤ inodeSize ∧ le 2 block (pos + 4) ≠ 0 then
      match entrySize block inodeSize pos with
      | none => none
      | some size =>
        if le 2 block (pos + 4) = 1 ∧ (block (pos + 8)).toNat = kFileNameName then
          let name := dropZeros (bytes block (pos + 8 + 1 + 3) (le 2 block (pos + 6)))
          if kMaxName < name.length then none else some name
        else smallFileName block inodeSize fuel (pos + size)
    else none

/-- The inode a block's image is, when it is one in use. -/
def parseInode (blockSize : ℕ) (b : Buf) : Option Inode :=
  if le 4 b InodeField.kMagic1 ≠ kInodeMagic1 ∨ le 4 b InodeField.kFlags &&& kInodeInUse = 0 ∨
      le 4 b InodeField.kInodeSize ≠ blockSize then none
  else
    let inodeSize := le 4 b InodeField.kInodeSize
    some {
      mode := le 4 b InodeField.kMode
      uid := le 4 b InodeField.kUid
      gid := le 4 b InodeField.kGid
      type := le 4 b InodeField.kType
      size := le 8 b (InodeField.kData + DataField.kSize)
      mtime := le 8 b InodeField.kLastModified
      run := leRun b InodeField.kInodeNum
      parent := leRun b InodeField.kParent
      attributes := leRun b InodeField.kAttributes
      name := (smallFileName b inodeSize inodeSize InodeField.kSmallData).getD []
      data := slice b InodeField.kData }

/-- `read_inode`: the inode in `block`, when it holds one. -/
def readInode (w : World) (block : ℕ) : Option Inode :=
  if w.vol.numBlocks ≤ block then none else parseInode w.vol.blockSize (readBlock w block)

/-! ## Data streams -/

/-- The `n` runs at position `i`, up to the zero run that ends them. -/
def runsAt (b : Buf) (i n : ℕ) : List Run :=
  ((List.range n).map fun k => leRun b (i + k * 8)).takeWhile fun r => !runIsZero r

/-- The runs the blocks of `r` list. -/
def arrayRuns (w : World) (r : Run) : List Run :=
  (List.range r.length).flatMap fun b =>
    runsAt (readBlock w (w.vol.toBlock r + b)) 0 (w.vol.blockSize / 8)

/-- The runs of a data stream in order: direct, indirect and double indirect. -/
def streamRuns (w : World) (data : Buf) : List Run :=
  let indirect := leRun data DataField.kIndirect
  let doubleIndirect := leRun data DataField.kDoubleIndirect
  runsAt data DataField.kDirect DataField.kDirectCount ++
    (if runIsZero indirect then [] else arrayRuns w indirect) ++
    (if runIsZero doubleIndirect then [] else (arrayRuns w doubleIndirect).flatMap (arrayRuns w))

def Geometry.runBytes (g : Geometry) (r : Run) : ℕ := r.length * g.blockSize

/-- `read_part`: the bytes of a run from its `skip`th on, each from the block it
    lies in. -/
def readPart (w : World) (r : Run) (skip : ℕ) : Buf := fun j =>
  let byte := w.vol.toBlock r * w.vol.blockSize + skip + j
  readBlock w (byte / w.vol.blockSize) (byte % w.vol.blockSize)

/-- Fill `out`, which starts at `offset`, with what `length` bytes from there the
    runs cover; the first run starts at `pos`. -/
def fillStream (w : World) (offset length : ℕ) : ℕ → List Run → Buf → Buf
  | _, [], out => out
  | pos, r :: rs, out =>
    let lo := max offset pos
    let hi := min (offset + length) (pos + w.vol.runBytes r)
    let out := if hi ≤ lo then out else blit out (lo - offset) (readPart w r (lo - pos)) (hi - lo)
    fillStream w offset length (pos + w.vol.runBytes r) rs out

/-- `read_stream`: `length` bytes of the stream from `offset`. -/
def readStream (w : World) (data : Buf) (offset length : ℕ) : Buf :=
  fillStream w offset length 0 (streamRuns w data) zero

/-! ## A stream of one run -/

section
variable {w : World} {data : Buf} {r : Run}

/-- The data stream lists the run `r` and nothing else. -/
structure SingleRun (data : Buf) (r : Run) : Prop where
  first : leRun data DataField.kDirect = r
  nonzero : runIsZero r = false
  second : runIsZero (leRun data (DataField.kDirect + 8)) = true
  indirect : runIsZero (leRun data DataField.kIndirect) = true
  doubleIndirect : runIsZero (leRun data DataField.kDoubleIndirect) = true

theorem SingleRun.runs (h : SingleRun data r) (w : World) : streamRuns w data = [r] := by
  have hd : runsAt data DataField.kDirect DataField.kDirectCount = [r] := by
    have h₁ : leRun data (DataField.kDirect + 0 * 8) = r := h.first
    have h₂ : runIsZero (leRun data (DataField.kDirect + 1 * 8)) = true := h.second
    rw [runsAt, show DataField.kDirectCount = 2 + 10 from rfl, List.range_succ_eq_map,
      List.map_cons, h₁, List.takeWhile_cons_of_pos (by simp [h.nonzero])]
    rw [show 2 + 9 = 1 + 10 from rfl, List.range_succ_eq_map]
    simp [h₂]
  simp only [streamRuns, hd, h.indirect, h.doubleIndirect, if_true, List.append_nil]

/-- **A stream of one run reads the run's blocks.** -/
theorem readStream_single (h : SingleRun data r) {offset length j : ℕ}
    (hj : j < length) (hr : offset + length ≤ w.vol.runBytes r) :
    readStream w data offset length j = readPart w r 0 (offset + j) := by
  have hlo : max offset 0 = offset := Nat.max_eq_left (Nat.zero_le _)
  have hhi : min (offset + length) (0 + w.vol.runBytes r) = offset + length :=
    Nat.min_eq_left (by omega)
  simp only [readStream, h.runs w, fillStream, hlo, hhi]
  rw [if_neg (by omega), blit_of_mem (by omega) (by omega)]
  simp only [readPart]
  rw [show w.vol.toBlock r * w.vol.blockSize + (offset - 0) + (j - (offset - offset)) =
    w.vol.toBlock r * w.vol.blockSize + 0 + (offset + j) by omega]

end

end Aegir.Bfs
