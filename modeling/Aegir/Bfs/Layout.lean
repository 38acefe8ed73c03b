/-
  The Be File System's on-disk structures (`aegir/bfs/layout.h`): the magic
  numbers, the field offsets of the superblock, and the eight-byte block run
  with its byte readers and writers.  The source's `le16`, `le32`, `le64` and
  their `put_` forms are `le` and `put` at the widths 2, 4 and 8.
-/
import Aegir.Lib.Bytes

namespace Aegir.Bfs

open Aegir.Lib Aegir.Lib.Buf

def kMaxBlockSize : ℕ := 8192
def kSectorBytes : ℕ := 512
def kSuperblockOffset : ℕ := 512
def kSuperblockBytes : ℕ := 512

def kMagic1 : ℕ := 0x42465331
def kMagic2 : ℕ := 0xdd121031
def kMagic3 : ℕ := 0x15b6830e
def kByteOrderLittleEndian : ℕ := 0x42494745
def kClean : ℕ := 0x434c454e
def kDirty : ℕ := 0x44495254

def kMaxJournalBlocks : ℕ := 32

/-! ## Block runs -/

/-- One block run, eight bytes packed. -/
structure Run where
  allocationGroup : ℕ
  start : ℕ
  length : ℕ
deriving DecidableEq, Repr

/-- The fields of a run fit their on-disk widths. -/
structure Run.Fits (r : Run) : Prop where
  allocationGroup : r.allocationGroup < 2 ^ 32
  start : r.start < 2 ^ 16
  length : r.length < 2 ^ 16

def leRun (b : Buf) (i : ℕ) : Run := ⟨le 4 b i, le 2 b (i + 4), le 2 b (i + 6)⟩

def putRun (b : Buf) (i : ℕ) (r : Run) : Buf :=
  put 2 (put 2 (put 4 b i r.allocationGroup) (i + 4) r.start) (i + 6) r.length

def runIsZero (r : Run) : Bool := r.allocationGroup == 0 && r.start == 0 && r.length == 0

/-! The superblock's field offsets, relative to the struct. -/
namespace Superblock

def kMagic1 : ℕ := 32
def kByteOrder : ℕ := 36
def kBlockSize : ℕ := 40
def kBlockShift : ℕ := 44
def kNumBlocks : ℕ := 48
def kUsedBlocks : ℕ := 56
def kInodeSize : ℕ := 64
def kMagic2 : ℕ := 68
def kBlocksPerAg : ℕ := 72
def kAgShift : ℕ := 76
def kNumAgs : ℕ := 80
def kFlags : ℕ := 84
def kLog : ℕ := 88
def kLogStart : ℕ := 96
def kLogEnd : ℕ := 104
def kMagic3 : ℕ := 112
def kRootDir : ℕ := 116
def kIndices : ℕ := 124

end Superblock

/-! The journal's run array: a block-sized header listing the target blocks. -/
namespace RunArray

def kCount : ℕ := 0
def kMaxRuns : ℕ := 4
def kRuns : ℕ := 8
def kFixed : ℕ := 8

/-- The `max_runs` field, capped at 127 no matter the block size. -/
def maxRuns (blockSize : ℕ) : ℕ :=
  let fits := (blockSize - kFixed) / 8
  if fits < 128 then fits else 127

end RunArray

/-! ## A run reads back -/

theorem leRun_putRun {b : Buf} {i : ℕ} {r : Run} (h : r.Fits) : leRun (putRun b i r) i = r := by
  have h₁ : le 4 (putRun b i r) i = r.allocationGroup := by
    unfold putRun
    rw [le_put_of_disjoint (by omega), le_put_of_disjoint (by omega),
      le_put_of_lt (by simpa using h.allocationGroup)]
  have h₂ : le 2 (putRun b i r) (i + 4) = r.start := by
    unfold putRun
    rw [le_put_of_disjoint (by omega), le_put_of_lt (by simpa using h.start)]
  have h₃ : le 2 (putRun b i r) (i + 6) = r.length := by
    unfold putRun
    rw [le_put_of_lt (by simpa using h.length)]
  rw [leRun, h₁, h₂, h₃]

theorem putRun_of_notMem {b : Buf} {i j : ℕ} {r : Run} (h : j < i ∨ i + 8 ≤ j) :
    putRun b i r j = b j := by
  unfold putRun
  rw [put_of_notMem (by omega), put_of_notMem (by omega), put_of_notMem (by omega)]

theorem leRun_congr {a b : Buf} {i i' : ℕ} (h : ∀ k < 8, a (i + k) = b (i' + k)) :
    leRun a i = leRun b i' := by
  have h₁ : le 4 a i = le 4 b i' := le_congr fun k hk => h k (by omega)
  have h₂ : le 2 a (i + 4) = le 2 b (i' + 4) := le_congr fun k hk => by
    simpa only [Nat.add_assoc] using h (4 + k) (by omega)
  have h₃ : le 2 a (i + 6) = le 2 b (i' + 6) := le_congr fun k hk => by
    simpa only [Nat.add_assoc] using h (6 + k) (by omega)
  rw [leRun, leRun, h₁, h₂, h₃]

theorem le_putRun_of_disjoint {w i j : ℕ} {b : Buf} {r : Run} (h : i + w ≤ j ∨ j + 8 ≤ i) :
    le w (putRun b j r) i = le w b i := le_congr fun _ _ => putRun_of_notMem (by omega)

theorem leRun_put_of_disjoint {w i j v : ℕ} {b : Buf} (h : i + 8 ≤ j ∨ j + w ≤ i) :
    leRun (put w b j v) i = leRun b i := leRun_congr fun _ _ => put_of_notMem (by omega)

theorem leRun_putRun_of_disjoint {i j : ℕ} {b : Buf} {r : Run} (h : i + 8 ≤ j ∨ j + 8 ≤ i) :
    leRun (putRun b j r) i = leRun b i := leRun_congr fun _ _ => putRun_of_notMem (by omega)

theorem leRun_zero (i : ℕ) : leRun zero i = ⟨0, 0, 0⟩ := by
  simp only [leRun, le_zero]

theorem leRun_fits (b : Buf) (i : ℕ) : (leRun b i).Fits :=
  ⟨(le_lt 4 b i).trans_eq (by norm_num), (le_lt 2 b (i + 4)).trans_eq (by norm_num),
    (le_lt 2 b (i + 6)).trans_eq (by norm_num)⟩

end Aegir.Bfs
