/-
  Trees as the image builder places them (`scripts/mkfs_bfs.py`, `_inode` and the
  placing in `make_bfs`): an inode whose data stream is one run, and the tree's
  bytes in the blocks of that run.
-/
import Aegir.Mkfs.Tree

namespace Aegir.Mkfs

open Aegir.Lib Aegir.Lib.Buf Aegir.Lib.BTree Aegir.Bfs

def INODE_MAGIC1 : ℕ := 0x3BBE0AD9
def INODE_IN_USE : ℕ := 1
def S_IFDIR : ℕ := 0o040000
def S_INDEX_DIR : ℕ := 0o04000000000
def S_STR_INDEX : ℕ := 0o00100000000
def S_LONG_LONG_INDEX : ℕ := 0o00010000000
def TYPE_CSTR : ℕ := 0x43535452
def TYPE_LLNG : ℕ := 0x4C4C4E47
def FILE_NAME_TYPE : ℕ := 0x43535452
def FILE_NAME_NAME : UInt8 := 0x13
def ZERO_RUN : Run := ⟨0, 0, 0⟩

/-! ## Inodes -/

/-- `_small_data` at `pos`: the type, the two lengths, the name, three zeros, the
    data and a terminator. -/
def putSmallData (b : Buf) (pos typeCode : ℕ) (name data : List UInt8) : Buf :=
  let b := put 4 b pos typeCode
  let b := put 2 b (pos + 4) name.length
  let b := put 2 b (pos + 6) data.length
  puts b (pos + 8) (name ++ [0, 0, 0] ++ data ++ [0])

/-- The first `n` of `runs` from `pos` on, with zero runs after them. -/
def putDirect : ℕ → Buf → ℕ → List Run → Buf
  | 0, b, _, _ => b
  | n + 1, b, pos, runs => putDirect n (putRun b pos (runs.headD ZERO_RUN)) (pos + 8) runs.tail

def inode (run parent attributes : Run) (mode size time typeCode : ℕ) (runs : List Run)
    (name : Option Key) : Buf :=
  let b := put 4 zero 0 INODE_MAGIC1
  let b := putRun b 4 run
  let b := put 4 b 12 0
  let b := put 4 b 16 0
  let b := put 4 b 20 mode
  let b := put 4 b 24 INODE_IN_USE
  let b := put 8 b 28 time
  let b := put 8 b 36 time
  let b := putRun b 44 parent
  let b := putRun b 52 attributes
  let b := put 4 b 60 typeCode
  let b := put 4 b 64 BLOCK
  let b := put 4 b 68 0
  let b := putDirect 12 b 72 runs
  let covered := (runs.map fun r => r.length * BLOCK).sum
  let b := if runs.isEmpty then b else put 8 b 168 covered
  let b := putRun b 176 ZERO_RUN
  let b := putRun b 192 ZERO_RUN
  let b := put 8 b 208 size
  let b := put 8 b 216 time
  match name with
  | none => b
  | some n => putSmallData b 232 FILE_NAME_TYPE [FILE_NAME_NAME] n

/-! ## What is read back -/

section
variable {run parent attributes r : Run} {mode size time typeCode : ℕ} {name : Option Key}

theorem le_putRun_of_disjoint {w : ℕ} {b : Buf} {i j : ℕ} {r : Run} (h : j + w ≤ i ∨ i + 8 ≤ j) :
    le w (putRun b i r) j = le w b j := le_congr fun _ _ => putRun_of_notMem (by omega)

theorem leRun_putRun_of_disjoint {b : Buf} {i j : ℕ} {r : Run} (h : j + 8 ≤ i ∨ i + 8 ≤ j) :
    leRun (putRun b i r) j = leRun b j := leRun_congr fun _ _ => putRun_of_notMem (by omega)

theorem leRun_put_of_disjoint {w : ℕ} {b : Buf} {i j v : ℕ} (h : j + 8 ≤ i ∨ i + w ≤ j) :
    leRun (put w b i v) j = leRun b j := leRun_congr fun _ _ => put_of_notMem (by omega)

theorem putSmallData_of_lt {b : Buf} {pos j : ℕ} {n d : List UInt8} (h : j < pos) :
    putSmallData b pos typeCode n d j = b j := by
  simp only [putSmallData]
  rw [puts_of_notMem (Or.inl (by omega)), put_of_notMem (Or.inl (by omega)),
    put_of_notMem (Or.inl (by omega)), put_of_notMem (Or.inl h)]

theorem inode_of_lt {runs : List Run} {j : ℕ} (h : j < 232) :
    inode run parent attributes mode size time typeCode runs name j =
      inode run parent attributes mode size time typeCode runs none j := by
  cases name with
  | none => rfl
  | some n => exact putSmallData_of_lt h

theorem inode_fields (hr : r.Fits) :
    let b := inode run parent attributes mode size time typeCode [r] name
    le 4 b InodeField.kMagic1 = kInodeMagic1 ∧ le 4 b InodeField.kFlags = kInodeInUse ∧
    le 4 b InodeField.kInodeSize = BLOCK ∧ leRun b 72 = r ∧ leRun b 80 = ZERO_RUN ∧
    leRun b 176 = ZERO_RUN ∧ leRun b 192 = ZERO_RUN := by
  intro b
  have hle : ∀ w i, i + w ≤ 232 → le w b i =
      le w (inode run parent attributes mode size time typeCode [r] none) i := fun w i hi =>
    le_congr fun k hk => inode_of_lt (by omega)
  have hrun : ∀ i, i + 8 ≤ 232 → leRun b i =
      leRun (inode run parent attributes mode size time typeCode [r] none) i := fun i hi =>
    leRun_congr fun k hk => inode_of_lt (by omega)
  have hz : ZERO_RUN.Fits := ⟨by decide, by decide, by decide⟩
  rw [hle _ _ (by decide), hle _ _ (by decide), hle _ _ (by decide), hrun _ (by decide),
    hrun _ (by decide), hrun _ (by decide), hrun _ (by decide)]
  simp only [inode, putDirect, List.isEmpty_cons, Bool.false_eq_true, if_false, List.headD_cons,
    List.tail_cons, List.headD_nil, List.tail_nil, Nat.reduceAdd]
  simp (disch := decide) only [le_put_of_disjoint, le_putRun_of_disjoint, leRun_put_of_disjoint,
    leRun_putRun_of_disjoint, leRun_putRun hz, leRun_putRun hr]
  exact ⟨(le_put 4 _ _ _).trans (by decide), (le_put 4 _ _ _).trans (by decide),
    (le_put 4 _ _ _).trans (by decide), trivial, trivial, trivial, trivial⟩

end

/-! ## A tree on a volume -/

/-- The world is a mounted volume as it was formatted, where `block` holds an
    inode of one run and the blocks from `base` on the bytes of `t`. -/
structure Placed (w : World) (block base : ℕ) (t : Tree) : Prop where
  idle : w.jnl.entries = []
  blockShift : w.vol.blockShift = 11
  agShift : 14 ≤ w.vol.agShift ∧ w.vol.agShift ≤ 16
  block_lt : block < w.vol.numBlocks
  base_lt : base < 2 ^ 46
  blocks : t.total ≤ 65535 * BLOCK
  nonempty : 0 < t.total
  inode : ∃ run parent attributes mode size time typeCode name, ∀ j < BLOCK,
    w.dev.disk (block * BLOCK + j) = Mkfs.inode run parent attributes mode size time typeCode
      [Mkfs.run base ((t.total + BLOCK - 1) / BLOCK) w.vol.agShift] name j
  tree : ∀ j < t.total, w.dev.disk (base * BLOCK + j) = t.bytes j

section
variable {w : World} {block base : ℕ} {t : Tree} (h : Placed w block base t)
include h

theorem Placed.blockSize : w.vol.blockSize = BLOCK := by
  rw [Geometry.blockSize, h.blockShift]; rfl

theorem Placed.readBlock (b : ℕ) : readBlock w b = slice w.dev.disk (b * BLOCK) := by
  have hbytes : w.vol.blockBytes = BLOCK := by
    rw [Geometry.blockBytes, h.blockSize]; rfl
  rw [Bfs.readBlock, Journal.peek, h.idle, readBlockNow, hbytes]
  rfl

theorem Placed.run_fits : (run base ((t.total + BLOCK - 1) / BLOCK) w.vol.agShift).Fits := by
  have hB : BLOCK = 2048 := rfl
  have := h.blocks
  refine Mkfs.run_fits h.base_lt ?_ h.agShift.1 h.agShift.2
  rw [hB] at *
  omega

omit h in
theorem toBlock_run (g : Geometry) (base length : ℕ) :
    g.toBlock (run base length g.agShift) = base := by
  have hlt : base &&& (2 ^ g.agShift - 1) < 2 ^ g.agShift := by
    rw [Nat.and_two_pow_sub_one_eq_mod]
    exact Nat.mod_lt _ (Nat.two_pow_pos _)
  rw [toBlock_eq g hlt, run]
  simp only
  rw [Nat.and_two_pow_sub_one_eq_mod, Nat.shiftRight_eq_div_pow, Nat.mul_comm, Nat.div_add_mod]

/-- **The inode is one the volume reads**, with a data stream of one run. -/
theorem Placed.readInode : ∃ dir, readInode w block = some dir ∧
    SingleRun dir.data (run base ((t.total + BLOCK - 1) / BLOCK) w.vol.agShift) := by
  obtain ⟨run, parent, attributes, mode, size, time, typeCode, name, hi⟩ := h.inode
  obtain ⟨h₁, h₂, h₃, h₄, h₅, h₆, h₇⟩ := @inode_fields run parent attributes _ mode size time typeCode
    name h.run_fits
  generalize Mkfs.inode run parent attributes mode size time typeCode _ name = b at *
  have hB : BLOCK = 2048 := rfl
  have hle : ∀ v i, i + v ≤ 232 → le v (Bfs.readBlock w block) i = le v b i := fun v i hiv =>
    le_congr fun k hk => by rw [h.readBlock, slice_apply, hi _ (by omega)]
  have hrun : ∀ i, i + 8 ≤ 160 → leRun (slice (Bfs.readBlock w block) InodeField.kData) i =
      leRun b (72 + i) := fun i hiv =>
    leRun_congr fun k hk => by
      rw [h.readBlock, slice_apply, slice_apply, hi _ (by
        rw [show InodeField.kData = 72 from rfl]; omega), show InodeField.kData = 72 from rfl,
        Nat.add_assoc]
  rw [Bfs.readInode, if_neg (by have := h.block_lt; omega)]
  simp only [parseInode]
  rw [hle 4 _ (by decide), hle 4 _ (by decide), hle 4 _ (by decide), h₁, h₂, h₃, h.blockSize,
    if_neg (by simp [kInodeInUse])]
  refine ⟨_, rfl, ?_, ?_, ?_, ?_, ?_⟩
  · rw [hrun _ (by decide)]; exact h₄
  · have hpos := h.nonempty
    have hlen : (t.total + BLOCK - 1) / BLOCK ≠ 0 := by rw [hB]; omega
    simp [runIsZero, Mkfs.run, hlen]
  · rw [hrun _ (by decide)]
    exact (congrArg runIsZero h₅).trans (by decide)
  · rw [hrun _ (by decide)]
    exact (congrArg runIsZero h₆).trans (by decide)
  · rw [hrun _ (by decide)]
    exact (congrArg runIsZero h₇).trans (by decide)

/-- **The data stream reads as the tree's bytes.** -/
theorem Placed.readStream {data : Buf}
    (hd : SingleRun data (run base ((t.total + BLOCK - 1) / BLOCK) w.vol.agShift))
    {offset length j : ℕ} (hj : j < length) (hl : offset + length ≤ t.total) :
    readStream w data offset length j = t.bytes (offset + j) := by
  have hB : BLOCK = 2048 := rfl
  have hbytes : offset + length ≤
      w.vol.runBytes (run base ((t.total + BLOCK - 1) / BLOCK) w.vol.agShift) := by
    rw [Geometry.runBytes, h.blockSize, run, hB]
    simp only
    omega
  rw [readStream_single hd hj hbytes, ← h.tree _ (by omega)]
  simp only [readPart]
  rw [toBlock_run, h.blockSize, h.readBlock, slice_apply, Nat.div_add_mod', Nat.add_zero]

end

/-! ## Placing a tree -/

/-- The volume `make_bfs` lays out in `size` bytes, opened for reading. -/
def volume (size usedBlocks rootBlock indicesBlock : ℕ) (label : List UInt8) : Volume where
  toGeometry := formatGeometry size
  writable := false
  discard := false
  usedBlocks := usedBlocks
  root := run rootBlock 1 (formatGeometry size).agShift
  indices := run indicesBlock 1 (formatGeometry size).agShift
  logStart := (formatGeometry size).numAgs * (formatGeometry size).blocksPerAg + 1
  logEnd := (formatGeometry size).numAgs * (formatGeometry size).blocksPerAg + 1
  superblock := superblock size usedBlocks rootBlock indicesBlock label

/-- A disk with a tree of `make_bfs`: an inode in `block` whose one run is the
    blocks from `base` on, and the tree's bytes there. -/
def placeTree (disk : Buf) (agShift block base : ℕ) (parent : Run) (mode time typeCode : ℕ)
    (name : Option Key) (t : Tree) : Buf :=
  let disk := blit disk (base * BLOCK) t.bytes t.total
  blit disk (block * BLOCK) (inode (run block 1 agShift) parent ZERO_RUN mode t.total time typeCode
    [run base ((t.total + BLOCK - 1) / BLOCK) agShift] name) BLOCK

/-- **What the builder writes for a tree is a placed tree.** -/
theorem placeTree_placed {size used root indices block base mode time typeCode : ℕ} {parent : Run}
    {label : List UInt8} {name : Option Key} {t : Tree} {disk : Buf} (hblock : block < size / BLOCK)
    (hbase : block < base) (hlt : base < 2 ^ 46) (htotal : t.total ≤ 65535 * BLOCK)
    (hpos : 0 < t.total) :
    Placed (.booted (.on (placeTree disk (formatGeometry size).agShift block base parent mode time
      typeCode name t) fun _ => false) (volume size used root indices label)) block base t := by
  obtain ⟨j, hj, hag, -⟩ := formatGeometry_cases size
  have hB : BLOCK = 2048 := rfl
  refine ⟨rfl, rfl, ?_, hblock, hlt, htotal, hpos, ?_, fun j hj => ?_⟩
  · show 14 ≤ (formatGeometry size).agShift ∧ (formatGeometry size).agShift ≤ 16
    omega
  · refine ⟨run block 1 (formatGeometry size).agShift, parent, ZERO_RUN, mode, t.total, time, typeCode,
      name, fun j hj => ?_⟩
    exact (blit_of_mem (by omega) (by omega)).trans (by rw [Nat.add_sub_cancel_left]; rfl)
  · have h₁ : block * BLOCK + BLOCK ≤ base * BLOCK := by
      rw [← Nat.succ_mul]; exact Nat.mul_le_mul_right _ hbase
    exact (blit_of_notMem (Or.inr (by omega))).trans
      ((blit_of_mem (by omega) (by omega)).trans (by rw [Nat.add_sub_cancel_left]))

end Aegir.Mkfs
