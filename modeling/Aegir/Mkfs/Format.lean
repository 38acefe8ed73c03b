/-
  A volume as the image builder formats it (`scripts/mkfs_bfs.py`): the
  allocation-group geometry and the superblock of `make_bfs`.
-/
import Aegir.Bfs.Volume

namespace Aegir.Mkfs

open Aegir.Lib Aegir.Lib.Buf Aegir.Bfs

def BLOCK : ℕ := 2048
def NODE : ℕ := 4096

/-! ## Geometry -/

/-- Double `i` up to the bits of a block, counting up from `shift`. -/
def groupShift : ℕ → ℕ → ℕ → ℕ
  | 0, _, shift => shift
  | fuel + 1, i, shift => if i < BLOCK * 8 then groupShift fuel (i * 2) (shift + 1) else shift

/-- Double the group while there are more than 56 of them and its shift is
    below 16; `left` is what the shift is short of 16. -/
def growGroups (bitmapBlocks : ℕ) : ℕ → ℕ → ℕ × ℕ × ℕ
  | 0, perGroup => (16, perGroup, (bitmapBlocks + perGroup - 1) / perGroup)
  | left + 1, perGroup =>
    let numGroups := (bitmapBlocks + perGroup - 1) / perGroup
    if 56 < numGroups then growGroups bitmapBlocks left (perGroup * 2)
    else (16 - (left + 1), perGroup, numGroups)

/-- The group shift, the bitmap blocks of a group, and the number of groups. -/
def geometry (numBlocks : ℕ) : ℕ × ℕ × ℕ :=
  growGroups ((numBlocks + BLOCK * 8 - 1) / (BLOCK * 8)) (16 - groupShift 8 8192 13) 1

/-- The block run of `length` blocks at `block`. -/
def run (block length agShift : ℕ) : Run :=
  ⟨block >>> agShift, block &&& (2 ^ agShift - 1), length⟩

/-- What `make_bfs` lays out in `size` bytes before anything else. -/
def formatGeometry (size : ℕ) : Geometry :=
  let numBlocks := size / BLOCK
  let (agShift, blocksPerAg, numAgs) := geometry numBlocks
  let logSize := if numBlocks ≤ 20480 then 512 else if 2 ^ 30 < size then 4096 else 2048
  { blockShift := 11, agShift, blocksPerAg, numAgs, numBlocks
    log := run (numAgs * blocksPerAg + 1) logSize agShift }

/-- The superblock `make_bfs` writes. -/
def superblock (size usedBlocks rootBlock indicesBlock : ℕ) (label : List UInt8) : Buf :=
  let g := formatGeometry size
  let logStart := g.numAgs * g.blocksPerAg + 1
  let sb := puts zero 0 (label.take 31)
  let sb := put 4 sb 32 kMagic1
  let sb := put 4 sb 36 kByteOrderLittleEndian
  let sb := put 4 sb 40 BLOCK
  let sb := put 4 sb 44 g.blockShift
  let sb := put 8 sb 48 g.numBlocks
  let sb := put 8 sb 56 usedBlocks
  let sb := put 4 sb 64 BLOCK
  let sb := put 4 sb 68 kMagic2
  let sb := put 4 sb 72 g.blocksPerAg
  let sb := put 4 sb 76 g.agShift
  let sb := put 4 sb 80 g.numAgs
  let sb := put 4 sb 84 kClean
  let sb := putRun sb 88 g.log
  let sb := put 8 sb 96 logStart
  let sb := put 8 sb 104 logStart
  let sb := put 4 sb 112 kMagic3
  let sb := putRun sb 116 (run rootBlock 1 g.agShift)
  putRun sb 124 (run indicesBlock 1 g.agShift)

/-! ## What the geometry is -/

theorem groupShift_eq : groupShift 8 8192 13 = 14 := by decide

theorem geometry_cases (n : ℕ) :
    ∃ j ≤ 2, geometry n = (14 + j, 2 ^ j, (n + 2 ^ (14 + j) - 1) / 2 ^ (14 + j)) := by
  have hceil : ∀ j ≤ 2, ((n + BLOCK * 8 - 1) / (BLOCK * 8) + 2 ^ j - 1) / 2 ^ j =
      (n + 2 ^ (14 + j) - 1) / 2 ^ (14 + j) := by
    intro j hj
    have hb : BLOCK * 8 = 2 ^ 14 := by decide
    have hp : 0 < 2 ^ j := Nat.two_pow_pos j
    rw [hb, pow_add]
    rcases Nat.eq_zero_or_pos n with rfl | hn
    · have h₁ : (0 + 2 ^ 14 - 1) / 2 ^ 14 = 0 := by decide
      rw [h₁, Nat.zero_add, Nat.div_eq_of_lt (by omega), Nat.zero_add, Nat.div_eq_of_lt (by omega)]
    · have h₁ : (n + 2 ^ 14 - 1) / 2 ^ 14 = (n - 1) / 2 ^ 14 + 1 := by
        rw [show n + 2 ^ 14 - 1 = n - 1 + 2 ^ 14 by omega, Nat.add_div_right _ (by norm_num)]
      have h₂ : (n + 2 ^ 14 * 2 ^ j - 1) / (2 ^ 14 * 2 ^ j) = (n - 1) / (2 ^ 14 * 2 ^ j) + 1 := by
        rw [show n + 2 ^ 14 * 2 ^ j - 1 = n - 1 + 2 ^ 14 * 2 ^ j by omega,
          Nat.add_div_right _ (by omega)]
      rw [h₁, h₂, show (n - 1) / 2 ^ 14 + 1 + 2 ^ j - 1 = (n - 1) / 2 ^ 14 + 2 ^ j by omega,
        Nat.add_div_right _ hp, Nat.div_div_eq_div_mul]
  have h₀ := hceil 0 (by norm_num)
  have h₁ := hceil 1 (by norm_num)
  have h₂ := hceil 2 (by norm_num)
  rw [geometry, groupShift_eq]
  simp only [growGroups]
  norm_num at h₀ h₁ h₂ ⊢
  by_cases hc₀ : 56 < (n + BLOCK * 8 - 1) / (BLOCK * 8)
  · by_cases hc₁ : 56 < ((n + BLOCK * 8 - 1) / (BLOCK * 8) + 1) / 2
    · exact ⟨2, by norm_num, by simp [hc₀, hc₁]; omega⟩
    · exact ⟨1, by norm_num, by simp [hc₀, hc₁]; omega⟩
  · exact ⟨0, by norm_num, by simp [hc₀]; omega⟩

theorem geometry_large {n : ℕ} (h : (geometry n).2.1 ≠ 1) : 56 * (BLOCK * 8) < n := by
  have hb : BLOCK * 8 = 16384 := by decide
  by_contra hc
  refine h ?_
  have hsmall : ¬ 56 < ((n + BLOCK * 8 - 1) / (BLOCK * 8) + 1 - 1) / 1 := by
    rw [Nat.div_one, Nat.add_sub_cancel, hb]
    omega
  rw [geometry, groupShift_eq]
  simp only [growGroups]
  rw [if_neg hsmall]

section
variable {size : ℕ}

theorem formatGeometry_cases (size : ℕ) : ∃ j ≤ 2, (formatGeometry size).agShift = 14 + j ∧
    (formatGeometry size).blocksPerAg = 2 ^ j ∧
    (formatGeometry size).numAgs = (size / BLOCK + 2 ^ (14 + j) - 1) / 2 ^ (14 + j) ∧
    (formatGeometry size).log = run ((formatGeometry size).numAgs * 2 ^ j + 1)
      (formatGeometry size).log.length (14 + j) := by
  obtain ⟨j, hj, hg⟩ := geometry_cases (size / BLOCK)
  refine ⟨j, hj, ?_, ?_, ?_, ?_⟩ <;> simp only [formatGeometry, hg]
  rfl

theorem formatGeometry_blocks_le (size : ℕ) :
    size / BLOCK ≤ (formatGeometry size).numAgs * 2 ^ (formatGeometry size).agShift := by
  obtain ⟨j, -, hag, -, hna, -⟩ := formatGeometry_cases size
  have hp : 0 < 2 ^ (14 + j) := Nat.two_pow_pos _
  have := Nat.div_add_mod (size / BLOCK + 2 ^ (14 + j) - 1) (2 ^ (14 + j))
  have := Nat.mod_lt (size / BLOCK + 2 ^ (14 + j) - 1) hp
  rw [hag, hna, Nat.mul_comm]
  omega

theorem formatGeometry_log_length (size : ℕ) :
    512 ≤ (formatGeometry size).log.length ∧ (formatGeometry size).log.length ≤ 4096 := by
  simp only [formatGeometry, run]
  split_ifs <;> decide

theorem run_fits {block length agShift : ℕ} (hb : block < 2 ^ 46) (hl : length < 2 ^ 16)
    (ha : 14 ≤ agShift) (ha' : agShift ≤ 16) : (run block length agShift).Fits := by
  have h₁ : 2 ^ 14 ≤ 2 ^ agShift := Nat.pow_le_pow_right (by norm_num) ha
  have h₂ : 2 ^ agShift ≤ 2 ^ 16 := Nat.pow_le_pow_right (by norm_num) ha'
  refine ⟨?_, ?_, hl⟩
  · rw [run, Nat.shiftRight_eq_div_pow]
    refine Nat.div_lt_of_lt_mul (hb.trans_le ?_)
    calc 2 ^ 46 = 2 ^ 14 * 2 ^ 32 := by norm_num
      _ ≤ 2 ^ agShift * 2 ^ 32 := Nat.mul_le_mul_right _ h₁
  · rw [run, Nat.and_two_pow_sub_one_eq_mod]
    exact (Nat.mod_lt _ (Nat.two_pow_pos _)).trans_le h₂

theorem le_superblock (size usedBlocks rootBlock indicesBlock : ℕ) (label : List UInt8) :
    let sb := superblock size usedBlocks rootBlock indicesBlock label
    let g := formatGeometry size
    (le 4 sb Superblock.kMagic1 = kMagic1 ∧ le 4 sb Superblock.kMagic2 = kMagic2 ∧
      le 4 sb Superblock.kMagic3 = kMagic3 ∧ le 4 sb Superblock.kByteOrder = kByteOrderLittleEndian ∧
      le 4 sb Superblock.kBlockSize = BLOCK ∧ le 4 sb Superblock.kInodeSize = BLOCK ∧
      le 4 sb Superblock.kBlockShift = 11 ∧ le 4 sb Superblock.kFlags = kClean) ∧
    le 8 sb Superblock.kNumBlocks = g.numBlocks % 256 ^ 8 ∧
    le 8 sb Superblock.kUsedBlocks = usedBlocks % 256 ^ 8 ∧
    le 4 sb Superblock.kBlocksPerAg = g.blocksPerAg % 256 ^ 4 ∧
    le 4 sb Superblock.kAgShift = g.agShift % 256 ^ 4 ∧
    le 4 sb Superblock.kNumAgs = g.numAgs % 256 ^ 4 ∧
    le 8 sb Superblock.kLogStart = (g.numAgs * g.blocksPerAg + 1) % 256 ^ 8 ∧
    le 8 sb Superblock.kLogEnd = (g.numAgs * g.blocksPerAg + 1) % 256 ^ 8 ∧
    leRun sb Superblock.kLog = ⟨g.log.allocationGroup % 256 ^ 4, g.log.start % 256 ^ 2,
      g.log.length % 256 ^ 2⟩ := by
  simp (disch := decide) only [superblock, leRun, putRun, Superblock.kLog, Superblock.kMagic1, Superblock.kMagic2,
    Superblock.kMagic3, Superblock.kByteOrder, Superblock.kBlockSize, Superblock.kInodeSize,
    Superblock.kBlockShift, Superblock.kFlags, Superblock.kNumBlocks, Superblock.kUsedBlocks,
    Superblock.kBlocksPerAg, Superblock.kAgShift, Superblock.kNumAgs, Superblock.kLogStart,
    Superblock.kLogEnd, le_put_of_disjoint, le_put]
  exact ⟨⟨rfl, rfl, rfl, rfl, rfl, rfl, rfl, rfl⟩, by simp only [and_self]⟩

/-- **A formatted volume opens** when its groups can be counted in 32 bits. -/
theorem superblock_opens_of_groups {usedBlocks : ℕ} (rootBlock indicesBlock : ℕ) (label : List UInt8)
    (hn : 10 ≤ size / BLOCK) (hags : (formatGeometry size).numAgs < 2 ^ 32) (hu : usedBlocks < 2 ^ 64)
    (wr di : Bool) :
    ∃ v, Volume.ofSuperblock (superblock size usedBlocks rootBlock indicesBlock label) wr di =
        some v ∧ v.toGeometry = formatGeometry size ∧ v.usedBlocks = usedBlocks ∧
      v.logStart = v.numAgs * v.blocksPerAg + 1 ∧ v.logEnd = v.logStart ∧ v.clean = true ∧
      v.superblock = superblock size usedBlocks rootBlock indicesBlock label ∧
      v.root = leRun v.superblock Superblock.kRootDir ∧
      v.indices = leRun v.superblock Superblock.kIndices := by
  obtain ⟨j, hj, hag, hbp, hna, hlog⟩ := formatGeometry_cases size
  obtain ⟨-, hl₂⟩ := formatGeometry_log_length size
  obtain ⟨⟨hm₁, hm₂, hm₃, hbo, hbs, his, hsh, hfl⟩, hnb, hub, hpa, has, hns, hst, hen, hrun⟩ :=
    le_superblock size usedBlocks rootBlock indicesBlock label
  have hB : BLOCK = 2 ^ 11 := rfl
  have hp₁ : 2 ^ 14 ≤ 2 ^ (14 + j) := Nat.pow_le_pow_right (by norm_num) (by omega)
  have hp₂ : 2 ^ (14 + j) ≤ 2 ^ 16 := Nat.pow_le_pow_right (by norm_num) (by omega)
  have hpj : 2 ^ j ≤ 2 ^ 2 := Nat.pow_le_pow_right (by norm_num) hj
  have hblocks : size / BLOCK ≤ 2 ^ 48 := by
    have := formatGeometry_blocks_le size
    have := Nat.mul_le_mul (Nat.le_of_lt hags) hp₂
    rw [hag] at *
    omega
  have hstart : (formatGeometry size).numAgs * 2 ^ j + 1 < 2 ^ 46 := by
    have := Nat.mul_le_mul_left (formatGeometry size).numAgs hpj
    omega
  have hnb' : (formatGeometry size).numBlocks = size / BLOCK := rfl
  rw [Nat.mod_eq_of_lt (by rw [hnb']; omega), hnb'] at hnb
  rw [Nat.mod_eq_of_lt (by omega)] at hub
  rw [Nat.mod_eq_of_lt (by omega)] at hpa has hns
  rw [hbp, Nat.mod_eq_of_lt (by omega)] at hst hen
  have hfit : (formatGeometry size).log.Fits := by
    rw [hlog]; exact run_fits hstart (by omega) (by omega) (by omega)
  rw [Nat.mod_eq_of_lt (by simpa using hfit.allocationGroup),
    Nat.mod_eq_of_lt (by simpa using hfit.start),
    Nat.mod_eq_of_lt (by simpa using hfit.length)] at hrun
  refine ⟨{ formatGeometry size with
    writable := wr
    discard := di
    usedBlocks := usedBlocks
    root := leRun (superblock size usedBlocks rootBlock indicesBlock label) Superblock.kRootDir
    indices := leRun (superblock size usedBlocks rootBlock indicesBlock label) Superblock.kIndices
    logStart := (formatGeometry size).numAgs * 2 ^ j + 1
    logEnd := (formatGeometry size).numAgs * 2 ^ j + 1
    superblock := superblock size usedBlocks rootBlock indicesBlock label },
    ?_, rfl, rfl, by simp only [hbp], rfl, ?_, rfl, rfl, rfl⟩
  · have hmagic : ¬ (kMagic1 ≠ kMagic1 ∨ kMagic2 ≠ kMagic2 ∨ kMagic3 ≠ kMagic3 ∨
        kByteOrderLittleEndian ≠ kByteOrderLittleEndian) := by simp
    have hfields : ¬ (BLOCK = 0 ∨ kMaxBlockSize < BLOCK ∨ BLOCK ≠ BLOCK ∨ 2 ^ 11 ≠ BLOCK ∨
        (formatGeometry size).agShift < 1 ∨ 30 < (formatGeometry size).agShift ∨
        (formatGeometry size).numAgs < 1 ∨ (formatGeometry size).blocksPerAg < 1 ∨
        size / BLOCK < 10) := by
      have h₁ : 1 ≤ (formatGeometry size).numAgs := by
        rw [hna, Nat.one_le_div_iff (Nat.two_pow_pos _)]; omega
      have h₂ : 0 < 2 ^ j := Nat.two_pow_pos j
      have h₃ : kMaxBlockSize = 8192 := rfl
      omega
    have hgroups : ¬ (formatGeometry size).numAgs ≠ ((size / BLOCK +
        2 ^ (formatGeometry size).agShift - 1) % 2 ^ 64) >>> (formatGeometry size).agShift := by
      rw [hag, Nat.mod_eq_of_lt (by omega), Nat.shiftRight_eq_div_pow, ← hna]; simp
    simp only [Volume.ofSuperblock, hm₁, hm₂, hm₃, hbo, hbs, his, hsh, hnb, hub, hpa, has, hns, hst,
      hen, hrun]
    rw [if_neg hmagic, if_neg hfields, if_neg hgroups]
    rfl
  · simp only [Volume.clean, hfl, beq_self_eq_true]

theorem superblock_refused {usedBlocks rootBlock indicesBlock : ℕ} {label : List UInt8} {wr di : Bool}
    (hlog : (formatGeometry size).log.Fits) (hags : 2 ^ 32 ≤ (formatGeometry size).numAgs) :
    Volume.ofSuperblock (superblock size usedBlocks rootBlock indicesBlock label) wr di = none := by
  obtain ⟨j, hj, hag, -, hna, hlogEq⟩ := formatGeometry_cases size
  obtain ⟨-, hnb, -, -, has, hns, -, -, -⟩ :=
    le_superblock size usedBlocks rootBlock indicesBlock label
  have hp₁ : 2 ^ 14 ≤ 2 ^ (14 + j) := Nat.pow_le_pow_right (by norm_num) (by omega)
  have hp₂ : 2 ^ (14 + j) ≤ 2 ^ 16 := Nat.pow_le_pow_right (by norm_num) (by omega)
  have hnb' : (formatGeometry size).numBlocks = size / BLOCK := rfl
  -- the log's run has its group in 32 bits, and it lies behind the bitmap
  have hstart : (formatGeometry size).numAgs * 2 ^ j + 1 < 2 ^ (14 + j) * 2 ^ 32 := by
    have h := hlog.allocationGroup
    rw [hlogEq, run, Nat.shiftRight_eq_div_pow] at h
    exact (Nat.div_lt_iff_lt_mul (Nat.two_pow_pos _)).1 h |>.trans_eq (Nat.mul_comm _ _)
  have hfew : (formatGeometry size).numAgs < 2 ^ 46 := by
    have hpow : 2 ^ (14 + j) * 2 ^ 32 = 2 ^ 46 * 2 ^ j := by rw [pow_add]; ring
    rw [hpow] at hstart
    exact Nat.lt_of_mul_lt_mul_right (Nat.lt_of_succ_lt hstart)
  have hblocks : size / BLOCK ≤ 2 ^ 62 := by
    have := formatGeometry_blocks_le size
    have := Nat.mul_le_mul (Nat.le_of_lt hfew) hp₂
    rw [hag] at *
    omega
  rw [Nat.mod_eq_of_lt (by rw [hnb']; omega), hnb'] at hnb
  rw [Nat.mod_eq_of_lt (by omega)] at has
  have hgroups : (formatGeometry size).numAgs % 256 ^ 4 ≠ ((size / BLOCK +
      2 ^ (formatGeometry size).agShift - 1) % 2 ^ 64) >>> (formatGeometry size).agShift := by
    have hmod : (size / BLOCK + 2 ^ (14 + j) - 1) % 2 ^ 64 = size / BLOCK + 2 ^ (14 + j) - 1 :=
      Nat.mod_eq_of_lt (by omega)
    rw [hag, hmod, Nat.shiftRight_eq_div_pow, ← hna]
    omega
  simp only [Volume.ofSuperblock, hnb, has, hns]
  rw [if_pos hgroups, ite_self, ite_self]

theorem superblock_size (size usedBlocks rootBlock indicesBlock : ℕ) (label : List UInt8) {i : ℕ}
    (hi : kSuperblockBytes ≤ i) : superblock size usedBlocks rootBlock indicesBlock label i = 0 := by
  have h₁ : kSuperblockBytes = 512 := rfl
  have h₂ : (label.take 31).length ≤ 31 := List.length_take_le 31 label
  simp only [superblock]
  rw [putRun_of_notMem (by omega), putRun_of_notMem (by omega)]
  simp (disch := omega) only [put_of_notMem, putRun_of_notMem, puts_of_notMem, zero_apply]

/-- The disk of a formatted volume, with `d` everywhere but in its superblock. -/
def formatted (size usedBlocks rootBlock indicesBlock : ℕ) (label : List UInt8) (d : Buf) : Buf :=
  blit d kSuperblockOffset (superblock size usedBlocks rootBlock indicesBlock label) kSuperblockBytes

end

end Aegir.Mkfs
