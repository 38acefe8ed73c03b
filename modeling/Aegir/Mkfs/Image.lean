/-
  The runs in an image of `make_bfs` (`scripts/mkfs_bfs.py`), as `Volume::open` and
  `Volume::validate_run` judge them (`libs/freestanding/aegir-bfs/src/volume.cc`).
-/
import Aegir.Mkfs.Groups

namespace Aegir.Mkfs

open Aegir.Lib Aegir.Lib.Buf Aegir.Lib.BTree Aegir.Bfs
open Aegir.Lib.Extent (inRow inRow_bounds inRow_apart mem_iff Apart)

/-! ## The runs of an inode -/

/-- The runs set in an inode beside its own and its parent's: the attributes', the twelve
    direct ones and the two that stand for more. -/
def setRuns (b : Buf) : List Run :=
  (leRun b InodeField.kAttributes :: (List.range 12).map (fun i => leRun b (InodeField.kData + 8 * i)) ++
    [leRun b 176, leRun b 192]).filter fun r => !runIsZero r

def ownedRuns (b : Buf) : List Run := leRun b InodeField.kInodeNum :: setRuns b

def inodeRuns (b : Buf) : List Run := leRun b InodeField.kParent :: ownedRuns b

def runExtent (g : Geometry) (r : Run) : Extent := ⟨g.toBlock r, r.length⟩

/-- The volume on `disk` opens, every run of its superblock and of the inodes in the given
    blocks is one it takes, and no two of the runs owned share a block. -/
def Legal (disk : Buf) (inodes : List ℕ) : Prop :=
  ∃ v, Volume.open disk true false = some v ∧
    (∀ r ∈ v.log :: v.root :: v.indices ::
      inodes.flatMap (fun b => inodeRuns (slice disk (b * BLOCK))), v.validateRun r = true) ∧
    (v.log :: inodes.flatMap fun b => ownedRuns (slice disk (b * BLOCK))).Pairwise fun r r' =>
      (runExtent v.toGeometry r).Apart (runExtent v.toGeometry r')

section
variable {b : Buf} {pos i n : ℕ} {rs : List Run}

theorem putDirect_of_notMem {j : ℕ} (h : j < pos ∨ pos + 8 * n ≤ j) : putDirect n b pos rs j = b j := by
  induction n generalizing b pos rs with
  | zero => rfl
  | succ n ih => rw [putDirect, ih (by omega), putRun_of_notMem (by omega)]

theorem leRun_putDirect_of_disjoint (h : i + 8 ≤ pos ∨ pos + 8 * n ≤ i) :
    leRun (putDirect n b pos rs) i = leRun b i :=
  leRun_congr fun _ _ => putDirect_of_notMem (by omega)

theorem leRun_putDirect (hr : ∀ r ∈ rs, r.Fits) (hi : i < n) :
    leRun (putDirect n b pos rs) (pos + 8 * i) = (rs[i]?).getD ZERO_RUN := by
  induction n generalizing b pos rs i with
  | zero => exact absurd hi (Nat.not_lt_zero _)
  | succ n ih =>
    cases i with
    | zero =>
      have hfits : (rs.headD ZERO_RUN).Fits := by
        cases rs with
        | nil => exact ⟨by decide, by decide, by decide⟩
        | cons r rs => exact hr r List.mem_cons_self
      rw [putDirect, leRun_putDirect_of_disjoint (by omega), Nat.mul_zero, Nat.add_zero,
        leRun_putRun hfits]
      cases rs <;> rfl
    | succ i =>
      rw [putDirect, show pos + 8 * (i + 1) = pos + 8 + 8 * i by omega,
        ih (fun r h => hr r (List.mem_of_mem_tail h)) (by omega)]
      cases rs <;> rfl

theorem setDirect (hone : rs.length ≤ 1) (hset : ∀ r ∈ rs, runIsZero r = false) :
    ((List.range 12).map fun i => (rs[i]?).getD ZERO_RUN).filter (fun r => !runIsZero r) = rs := by
  have hz : runIsZero ZERO_RUN = true := by decide
  match rs, hone with
  | [], _ => simp [hz]
  | [r], _ =>
    have h := hset r List.mem_cons_self
    simp [List.range, List.range.loop, h, hz]

end

/-- **An inode's bytes hold its runs.** -/
theorem inode_bytes_runs {agShift next : ℕ} {p : NewInode} {b : Buf} (hp : p.Laid agShift next)
    (hset : ∀ r ∈ p.runs, runIsZero r = false) (hb : ∀ j < 232, b j = p.bytes j) :
    leRun b InodeField.kInodeNum = p.run ∧ leRun b InodeField.kParent = p.parent ∧ setRuns b = p.runs := by
  obtain ⟨hrun, hparent, hruns⟩ := hp.fits
  have hz : ZERO_RUN.Fits := ⟨by decide, by decide, by decide⟩
  have hread : ∀ i, i + 8 ≤ 232 → leRun b i = leRun (inode p.run p.parent ZERO_RUN p.mode p.size p.time
      p.typeCode p.runs none) i := fun i hi =>
    leRun_congr fun k hk => (hb _ (by omega)).trans (inode_of_lt (by omega))
  have hcovered : ∀ (b : Buf) (c i : ℕ), i + 8 ≤ 168 ∨ 176 ≤ i →
      leRun (if p.runs.isEmpty = true then b else put 8 b 168 c) i = leRun b i := by
    intro b c i hi
    split_ifs
    · rfl
    · exact leRun_put_of_disjoint (by omega)
  have hat : ∀ i < 12, leRun b (InodeField.kData + 8 * i) = (p.runs[i]?).getD ZERO_RUN := by
    intro i hi
    have hpos : InodeField.kData = 72 := rfl
    rw [hread _ (by omega), hpos]
    simp only [inode]
    rw [leRun_put_of_disjoint (by omega), leRun_put_of_disjoint (by omega),
      leRun_putRun_of_disjoint (by omega), leRun_putRun_of_disjoint (by omega), hcovered _ _ _ (by omega),
      leRun_putDirect hruns hi]
  have hdirect : (List.range 12).map (fun i => leRun b (InodeField.kData + 8 * i)) =
      (List.range 12).map fun i => (p.runs[i]?).getD ZERO_RUN :=
    List.map_congr_left fun i hi => hat i (List.mem_range.1 hi)
  have hrest : leRun b InodeField.kInodeNum = p.run ∧ leRun b InodeField.kParent = p.parent ∧
      leRun b InodeField.kAttributes = ZERO_RUN ∧ leRun b 176 = ZERO_RUN ∧ leRun b 192 = ZERO_RUN := by
    rw [hread _ (by decide), hread _ (by decide), hread _ (by decide), hread _ (by decide),
      hread _ (by decide)]
    simp only [inode, InodeField.kInodeNum, InodeField.kParent, InodeField.kAttributes]
    simp (disch := decide) only [leRun_put_of_disjoint, leRun_putRun_of_disjoint, hcovered,
      leRun_putDirect_of_disjoint, leRun_putRun hz, leRun_putRun hrun, leRun_putRun hparent, and_self]
  obtain ⟨h₁, h₂, h₃, h₄, h₅⟩ := hrest
  refine ⟨h₁, h₂, ?_⟩
  rw [setRuns, hdirect, h₃, h₄, h₅, List.cons_append, List.filter_cons, List.filter_append,
    setDirect hp.runs hset]
  simp [ZERO_RUN, runIsZero]

/-! ## What is written -/

section
variable {α : Type} {ws : List α} {pos len : α → ℕ} {img : α → Buf} {b : Buf} {j : ℕ}

theorem foldl_blit_of_notMem (h : ∀ w ∈ ws, j < pos w ∨ pos w + len w ≤ j) :
    ws.foldl (fun b w => blit b (pos w) (img w) (len w)) b j = b j := by
  induction ws generalizing b with
  | nil => rfl
  | cons w ws ih =>
    rw [List.foldl_cons, ih fun w' hw' => h w' (List.mem_cons_of_mem _ hw'),
      blit_of_notMem (h w List.mem_cons_self)]

theorem foldl_blit_of_mem {w : α}
    (hp : ws.Pairwise fun v w => pos v ≤ j → j < pos v + len v → ¬ (pos w ≤ j ∧ j < pos w + len w))
    (hw : w ∈ ws) (h₁ : pos w ≤ j) (h₂ : j < pos w + len w) :
    ws.foldl (fun b w => blit b (pos w) (img w) (len w)) b j = img w (j - pos w) := by
  induction ws generalizing b with
  | nil => cases hw
  | cons v ws ih =>
    obtain ⟨hv, hrest⟩ := List.pairwise_cons.1 hp
    rw [List.foldl_cons]
    rcases List.mem_cons.1 hw with rfl | hw
    · rw [foldl_blit_of_notMem, blit_of_mem h₁ h₂]
      intro w' hw'
      have := hv w' hw' h₁ h₂
      omega
    · exact ih hrest hw

end

theorem block_mem {e : Extent} {offset length j : ℕ} (hl : length ≤ e.size * BLOCK)
    (h₁ : offset + e.base * BLOCK ≤ j) (h₂ : j < offset + e.base * BLOCK + length) :
    (j - offset) / BLOCK ∈ e := by
  have hB : 0 < BLOCK := by decide
  rw [mem_iff]
  refine ⟨(Nat.le_div_iff_mul_le hB).2 (by omega), (Nat.div_lt_iff_lt_mul hB).2 ?_⟩
  rw [Nat.add_mul]
  omega

theorem length_le_blocks (n : ℕ) : n ≤ blocksOf n * BLOCK := by
  have hB : BLOCK = 2048 := rfl
  rw [blocksOf, hB]
  omega

section
variable {buf : Buf} {offset size : ℕ} {label : List UInt8} {es : Entries} {l : Layout}

theorem writeImage_of_le {i : ℕ} (hi : logBase size * BLOCK ≤ i) :
    slice (writeImage buf offset size label l) offset i =
      l.built.dataBlocks.foldl (fun b d => blit b (offset + d.base * BLOCK) d.bytes d.length)
        (l.built.inodes.foldl (fun b p => blit b (offset + p.block * BLOCK) p.bytes p.length) buf)
        (offset + i) := by
  have hB : BLOCK = 2048 := rfl
  have hS : SECTOR = 512 := rfl
  have hbase : BLOCK + (formatGeometry size).numAgs * (formatGeometry size).blocksPerAg * BLOCK =
      logBase size * BLOCK := by
    rw [logBase, Nat.add_mul, Nat.one_mul, Nat.add_comm]
  rw [slice_apply, writeImage]
  rw [blit_of_notMem (by omega), blit_of_notMem (by omega), blit_of_notMem (by omega),
    blit_of_notMem (by omega)]

/-- **Every inode is in the image as it was laid out.** -/
theorem image_inode (hl : l.Holds size es) (hnames : ∀ p ∈ l.built.inodes, p.length = BLOCK)
    {p : NewInode} (hp : p ∈ l.built.inodes) {k : ℕ} (hk : k < BLOCK) :
    slice (writeImage buf offset size label l) offset (p.block * BLOCK + k) = p.bytes k := by
  have hpart := (hl.gathered.held.pairwise_iff fun h => h.symm).2
    (inRow_apart (dataStart size) es.allLengths)
  obtain ⟨hinodes, -, hdata⟩ := List.pairwise_append.1 hpart
  have hmem : (⟨p.block, 1⟩ : Extent) ∈ l.built.inodes.map fun p => (⟨p.block, 1⟩ : Extent) :=
    List.mem_map.2 ⟨p, hp, rfl⟩
  have hrow := inRow_bounds (hl.gathered.held.mem_iff.1 (List.mem_append_left _ hmem))
  have hlow : logBase size * BLOCK ≤ p.block * BLOCK + k := by
    have := Nat.mul_le_mul_right BLOCK (Nat.le_trans (Nat.le_add_right _ _) hrow.1)
    exact Nat.le_trans this (Nat.le_add_right _ _)
  have hown : (offset + (p.block * BLOCK + k) - offset) / BLOCK ∈ (⟨p.block, 1⟩ : Extent) :=
    @block_mem ⟨p.block, 1⟩ offset BLOCK _ (by simp) (by simp only; omega) (by simp only; omega)
  rw [writeImage_of_le hlow, foldl_blit_of_notMem, foldl_blit_of_mem ?_ hp (by omega)
    (by rw [hnames p hp]; omega)]
  · congr 1
    omega
  · refine (List.pairwise_map.1 hinodes).imp_of_mem fun {q r} hq hr hqr hq₁ hq₂ hr₁ => ?_
    rw [hnames q hq] at hq₂
    rw [hnames r hr] at hr₁
    exact hqr _ (@block_mem ⟨q.block, 1⟩ offset BLOCK _ (by simp) hq₁ hq₂)
      (@block_mem ⟨r.block, 1⟩ offset BLOCK _ (by simp) hr₁.1 hr₁.2)
  · intro d hd
    by_contra hc
    push Not at hc
    exact hdata _ hmem _ (List.mem_map_of_mem hd) _ hown
      (block_mem (length_le_blocks d.length) hc.1 hc.2)

/-- **The superblock is in the image as it was laid out.** -/
theorem image_superblock : Volume.readSuperblock (slice (writeImage buf offset size label l) offset) =
    superblock size l.built.nextBlock (dataStart size) l.indicesBlock label := by
  have hS : SECTOR = 512 := rfl
  have hO : kSuperblockOffset = 512 := rfl
  funext i
  rcases Nat.lt_or_ge i kSuperblockBytes with hi | hi
  · have hlt : i < 512 := hi
    rw [Volume.readSuperblock, blit_of_mem (Nat.zero_le _) (by omega), slice_apply, slice_apply, writeImage]
    rw [blit_of_notMem (by omega), blit_of_notMem (by omega), blit_of_mem (by omega) (by omega)]
    refine congrArg (superblock _ _ _ _ _) ?_
    omega
  · rw [Volume.readSuperblock, blit_of_notMem (Or.inr (by omega)), superblock_size _ _ _ _ _ hi]
    rfl

end

/-! ## Legal images -/

theorem validateRun_run {g : Geometry} {block length : ℕ} (hpos : 0 < length)
    (hags : g.numBlocks ≤ g.numAgs * 2 ^ g.agShift) (hle : block + length ≤ g.numBlocks) :
    g.validateRun (run block length g.agShift) = true ↔
      block % 2 ^ g.agShift + length ≤ 2 ^ g.agShift := by
  have hgroup : block >>> g.agShift < g.numAgs := by
    rw [Nat.shiftRight_eq_div_pow]
    exact (Nat.div_lt_iff_lt_mul (Nat.two_pow_pos _)).2 (by omega)
  have hno : ¬ ((run block length g.agShift).length = 0 ∨
      g.numAgs ≤ (run block length g.agShift).allocationGroup) := by
    simp only [run]
    omega
  rw [Geometry.validateRun, if_neg hno, toBlock_run]
  simp only [run, Nat.and_two_pow_sub_one_eq_mod]
  split_ifs with h
  · exact iff_of_false (by decide) (by omega)
  · exact iff_of_true (decide_eq_true hle) (by omega)

theorem inGroups_iff {span base : ℕ} {sizes : List ℕ} :
    inGroups span base sizes ↔ ∀ e ∈ inRow base sizes, e.base % span + e.size ≤ span := by
  induction sizes generalizing base with
  | nil => simp [inGroups, inRow]
  | cons n sizes ih => simp [inGroups, inRow, ih]

section
variable {buf : Buf} {offset size : ℕ} {label : List UInt8} {es : Entries} {l : Layout}

theorem Layout.Holds.bounds (hl : l.Holds size es) {e : Extent}
    (he : e ∈ inRow (dataStart size) es.allLengths) :
    dataStart size ≤ e.base ∧ e.stop ≤ l.built.nextBlock := by
  rw [hl.used]
  exact inRow_bounds he

theorem Layout.Holds.data_mem (hl : l.Holds size es) {d : DataBlocks} (hd : d ∈ l.built.dataBlocks) :
    d.extent ∈ inRow (dataStart size) es.allLengths :=
  hl.gathered.held.mem_iff.1 (List.mem_append_right _ (List.mem_map_of_mem hd))

theorem Layout.Holds.runs_mem (hl : l.Holds size es) {p : NewInode} (hp : p ∈ l.built.inodes) {r : Run}
    (hr : r ∈ p.runs) : ∃ d ∈ l.built.dataBlocks, d.run (formatGeometry size).agShift = r :=
  List.mem_map.1 (hl.gathered.runs.mem_iff.1 (List.mem_flatMap.2 ⟨p, hp, hr⟩))

theorem blocksOf_pos {n : ℕ} (h : 0 < n) : 0 < blocksOf n := by
  have hB : BLOCK = 2048 := rfl
  rw [blocksOf, hB]
  omega

theorem run_ne_zero {block length agShift : ℕ} (hb : 0 < length) :
    runIsZero (run block length agShift) = false := by
  have hne : length ≠ 0 := Nat.ne_of_gt hb
  simp [runIsZero, run, hne]

theorem Layout.Holds.inode_runs (hl : l.Holds size es) (hnames : ∀ p ∈ l.built.inodes, p.length = BLOCK)
    {p : NewInode} (hp : p ∈ l.built.inodes) :
    ownedRuns (slice (slice (writeImage buf offset size label l) offset) (p.block * BLOCK)) =
        p.run :: p.runs ∧
      inodeRuns (slice (slice (writeImage buf offset size label l) offset) (p.block * BLOCK)) =
        p.parent :: p.run :: p.runs := by
  have hset : ∀ r ∈ p.runs, runIsZero r = false := by
    intro r hr
    obtain ⟨d, hd, rfl⟩ := hl.runs_mem hp hr
    exact run_ne_zero (blocksOf_pos (hl.gathered.data d hd))
  have hbytes : ∀ j < 232, slice (slice (writeImage buf offset size label l) offset) (p.block * BLOCK) j =
      p.bytes j := fun j hj => by
    rw [slice_apply]
    exact image_inode hl hnames hp (hj.trans (by decide))
  obtain ⟨h₁, h₂, h₃⟩ := inode_bytes_runs (hl.gathered.laid p hp) hset hbytes
  rw [inodeRuns, ownedRuns, h₁, h₂, h₃]
  exact ⟨rfl, rfl⟩

theorem Layout.Holds.owned (hl : l.Holds size es) :
    ((l.built.inodes.flatMap fun p => p.run :: p.runs).map (runExtent (formatGeometry size))).Perm
      (inRow (dataStart size) es.allLengths) := by
  refine List.Perm.trans ?_ hl.gathered.held
  have hinodes : l.built.inodes.map (fun p => runExtent (formatGeometry size) p.run) =
      l.built.inodes.map fun p => (⟨p.block, 1⟩ : Extent) :=
    List.map_congr_left fun p hp => by
      rw [(hl.gathered.laid p hp).run, runExtent, toBlock_run]
      rfl
  have hdata : (l.built.dataBlocks.map (DataBlocks.run (formatGeometry size).agShift)).map
      (runExtent (formatGeometry size)) = l.built.dataBlocks.map DataBlocks.extent := by
    rw [List.map_map]
    refine List.map_congr_left fun d _ => ?_
    rw [Function.comp_apply, DataBlocks.run, runExtent, toBlock_run]
    rfl
  rw [← hinodes, ← hdata, List.map_flatMap]
  refine (List.map_append_flatMap_perm _ _ _).symm.trans (List.Perm.append_left _ ?_)
  rw [← List.map_flatMap]
  exact hl.gathered.runs.map _

theorem Layout.Holds.dataStart_lt (hl : l.Holds size es) : dataStart size < l.built.nextBlock := by
  rw [hl.used, Entries.allLengths, List.cons_append, List.sum_cons]
  omega

theorem mem_row_iff {e : Extent} :
    e ∈ inRow (logBase size) ((formatGeometry size).log.length :: es.allLengths) ↔
      e = ⟨logBase size, (formatGeometry size).log.length⟩ ∨ e ∈ inRow (dataStart size) es.allLengths :=
  List.mem_cons

theorem formatGeometry_log (size : ℕ) : (formatGeometry size).log =
    run (logBase size) (formatGeometry size).log.length (formatGeometry size).agShift := rfl

theorem root_runs {root indices used : ℕ} (hags : (formatGeometry size).numAgs < 2 ^ 32)
    (hroot : root < size / BLOCK) (hindices : indices < size / BLOCK) :
    leRun (superblock size used root indices label) Superblock.kRootDir =
        run root 1 (formatGeometry size).agShift ∧
      leRun (superblock size used root indices label) Superblock.kIndices =
        run indices 1 (formatGeometry size).agShift := by
  obtain ⟨j, hj, hag, -⟩ := formatGeometry_cases size
  have hfits : ∀ block < size / BLOCK, (run block 1 (formatGeometry size).agShift).Fits := by
    intro block hblock
    have hle := formatGeometry_blocks_le size
    have hp : 2 ^ (14 + j) ≤ 2 ^ 16 := Nat.pow_le_pow_right (by norm_num) (by omega)
    refine ⟨?_, ?_, by simp [run]⟩
    · rw [run, Nat.shiftRight_eq_div_pow]
      exact ((Nat.div_lt_iff_lt_mul (Nat.two_pow_pos _)).2 (hblock.trans_le hle)).trans hags
    · rw [run, Nat.and_two_pow_sub_one_eq_mod, hag]
      exact (Nat.mod_lt _ (Nat.two_pow_pos _)).trans_le hp
  have h₁ : Superblock.kRootDir = 116 := rfl
  have h₂ : Superblock.kIndices = 124 := rfl
  simp only [superblock, h₁, h₂]
  rw [leRun_putRun_of_disjoint (Or.inl (Nat.le_refl _)), leRun_putRun (hfits _ hroot),
    leRun_putRun (hfits _ hindices)]
  exact ⟨rfl, rfl⟩

/-- **An image is legal exactly when its runs fit the groups.** -/
theorem legal_iff (hl : l.Holds size es) (hnames : ∀ p ∈ l.built.inodes, p.length = BLOCK)
    (hfit : l.built.nextBlock ≤ size / BLOCK) :
    Legal (slice (writeImage buf offset size label l) offset) (l.built.inodes.map NewInode.block) ↔
      RunsFit size es := by
  have hstart := hl.dataStart_lt
  have hlog : 512 ≤ (formatGeometry size).log.length := (formatGeometry_log_length size).1
  have hags := formatGeometry_blocks_le size
  have hnum : (formatGeometry size).numBlocks = size / BLOCK := rfl
  have hlogEnd : logBase size + (formatGeometry size).log.length = dataStart size := rfl
  -- which runs are judged
  have hall : (l.built.inodes.map NewInode.block).flatMap (fun b => inodeRuns
      (slice (slice (writeImage buf offset size label l) offset) (b * BLOCK))) =
      l.built.inodes.flatMap fun p => p.parent :: p.run :: p.runs := by
    rw [List.flatMap_map]
    exact List.flatMap_congr fun p hp => (hl.inode_runs hnames hp).2
  have howned : (l.built.inodes.map NewInode.block).flatMap (fun b => ownedRuns
      (slice (slice (writeImage buf offset size label l) offset) (b * BLOCK))) =
      l.built.inodes.flatMap fun p => p.run :: p.runs := by
    rw [List.flatMap_map]
    exact List.flatMap_congr fun p hp => (hl.inode_runs hnames hp).1
  have hvalid : ∀ {block length : ℕ}, 0 < length → block + length ≤ size / BLOCK →
      ((formatGeometry size).validateRun (run block length (formatGeometry size).agShift) = true ↔
        block % 2 ^ (formatGeometry size).agShift + length ≤ 2 ^ (formatGeometry size).agShift) :=
    fun hpos hle => validateRun_run hpos hags hle
  have hone : ∀ {block : ℕ}, block < l.built.nextBlock →
      (formatGeometry size).validateRun (run block 1 (formatGeometry size).agShift) = true := by
    intro block hlt
    exact (hvalid Nat.one_pos (by omega)).2 (Nat.mod_lt _ (Nat.two_pow_pos _))
  have hdata : ∀ d ∈ l.built.dataBlocks, ((formatGeometry size).validateRun
      (d.run (formatGeometry size).agShift) = true ↔ d.extent.base % 2 ^ (formatGeometry size).agShift +
        d.extent.size ≤ 2 ^ (formatGeometry size).agShift) := by
    intro d hd
    have := (hl.bounds (hl.data_mem hd)).2
    simp only [Extent.stop] at this
    exact hvalid (blocksOf_pos (hl.gathered.data d hd)) (this.trans hfit)
  have hten : 10 ≤ size / BLOCK := by omega
  have hlogGroup := @hvalid (logBase size) (formatGeometry size).log.length (by omega) (by omega)
  have hused : (formatGeometry size).numAgs < 2 ^ 32 → l.built.nextBlock < 2 ^ 64 := by
    intro hfew
    obtain ⟨j, hj, hag, -⟩ := formatGeometry_cases size
    have hp : 2 ^ (14 + j) ≤ 2 ^ 16 := Nat.pow_le_pow_right (by norm_num) (by omega)
    have := Nat.mul_le_mul (Nat.le_of_lt hfew) hp
    rw [← hag] at this
    omega
  rw [Legal, Volume.open, image_superblock, hall, howned, RunsFit, inGroups_iff]
  simp only [mem_row_iff]
  constructor
  · rintro ⟨v, hv, hruns, -⟩
    have hfew : (formatGeometry size).numAgs < 2 ^ 32 := by
      by_contra hc
      rw [superblock_refused hl.log (by omega)] at hv
      cases hv
    obtain ⟨v', hv', hg, -⟩ := superblock_opens_of_groups (dataStart size) l.indicesBlock label
      hten hfew (hused hfew) true false
    obtain rfl := Option.some.inj (hv.symm.trans hv')
    rw [hg] at hruns
    refine ⟨hfew, ?_⟩
    rintro e (rfl | he)
    · exact hlogGroup.1 (hruns _ List.mem_cons_self)
    · rcases List.mem_append.1 (hl.gathered.held.mem_iff.2 he) with he | he
      · obtain ⟨p, -, rfl⟩ := List.mem_map.1 he
        exact Nat.mod_lt _ (Nat.two_pow_pos _)
      · obtain ⟨d, hd, rfl⟩ := List.mem_map.1 he
        have hmem := hl.gathered.runs.mem_iff.2 (List.mem_map_of_mem hd)
        obtain ⟨p, hp, hr⟩ := List.mem_flatMap.1 hmem
        refine (hdata d hd).1 (hruns _ ?_)
        simp only [List.mem_cons, List.mem_flatMap]
        exact Or.inr (Or.inr (Or.inr ⟨p, hp, Or.inr (Or.inr hr)⟩))
  · rintro ⟨hfew, hgroups⟩
    obtain ⟨v, hv, hg, -, -, -, -, hsb, hroot, hindices⟩ := superblock_opens_of_groups (dataStart size)
      l.indicesBlock label hten hfew (hused hfew) true false
    obtain ⟨hroot', hindices'⟩ := @root_runs _ label _ _ l.built.nextBlock hfew
      (hstart.trans_le hfit) (hl.indices.trans_le hfit)
    refine ⟨v, hv, ?_, ?_⟩
    · rw [hroot, hindices, hsb, hroot', hindices', hg]
      intro r hr
      simp only [List.mem_cons, List.mem_flatMap] at hr
      rcases hr with rfl | rfl | rfl | ⟨p, hp, rfl | rfl | hr⟩
      · exact hlogGroup.2 (hgroups _ (Or.inl rfl))
      · exact hone hstart
      · exact hone hl.indices
      · obtain ⟨q, hq, hparent⟩ := (hl.gathered.laid p hp).parent
        rw [hparent]
        exact hone hq
      · rw [(hl.gathered.laid p hp).run]
        exact hone (hl.gathered.laid p hp).block
      · obtain ⟨d, hd, rfl⟩ := hl.runs_mem hp hr
        exact (hdata d hd).2 (hgroups _ (Or.inr (hl.data_mem hd)))
    · rw [hg, ← List.pairwise_map, List.map_cons]
      have hlogExtent : runExtent (formatGeometry size) (formatGeometry size).log =
          ⟨logBase size, (formatGeometry size).log.length⟩ := by
        rw [runExtent, formatGeometry_log, toBlock_run]
      have hperm := hl.owned.cons (runExtent (formatGeometry size) (formatGeometry size).log)
      refine (hperm.pairwise_iff fun h => h.symm).2 ?_
      rw [hlogExtent]
      exact inRow_apart (logBase size) ((formatGeometry size).log.length :: es.allLengths)

end

/-! ## The claim on a whole image -/

def NamesFit (es : Entries) : Prop := ∀ name ∈ es.allNames, 232 + (name.length + 13) ≤ BLOCK

theorem Layout.Holds.inode_length {size : ℕ} {es : Entries} {l : Layout} (hl : l.Holds size es)
    (hnames : NamesFit es) : ∀ p ∈ l.built.inodes, p.length = BLOCK := by
  intro p hp
  rcases hl.names p hp with hnone | ⟨name, hname, hsome⟩
  · rw [NewInode.length, hnone]
  · have := hnames name hname
    rw [NewInode.length, hsome]
    exact Nat.max_eq_left this

/-- **The runs `make_bfs` writes are legal exactly when they fit the groups.** -/
theorem mkfs_runs_legal_iff {size : ℕ} {es : Entries} {l : Layout} (h : layout size es = some l)
    (hfit : l.built.nextBlock ≤ size / BLOCK) (hnames : NamesFit es) (buf : Buf) (offset : ℕ)
    (label : List UInt8) : ∃ image, makeBfs buf offset size label es = some (image, l.built.nextBlock) ∧
      (Legal (slice image offset) (l.built.inodes.map NewInode.block) ↔ RunsFit size es) := by
  have hl := layout_holds h
  refine ⟨writeImage buf offset size label l, ?_, legal_iff hl (hl.inode_length hnames) hfit⟩
  rw [makeBfs, h, Option.map_some]

def fewFiles : Entries := .file [97] [72, 105] .nil

theorem mkfs_runs_legal_few : ∃ l image, layout (4096 * BLOCK) fewFiles = some l ∧
    makeBfs zero 0 (4096 * BLOCK) [65] fewFiles = some (image, l.built.nextBlock) ∧
    Legal (slice image 0) (l.built.inodes.map NewInode.block) := by
  obtain ⟨l, hl⟩ : ∃ l, layout (4096 * BLOCK) fewFiles = some l :=
    layout_some (by decide) (by decide +kernel) (by decide +kernel)
  have hused : l.built.nextBlock = 546 := by
    rw [(layout_holds hl).used]
    decide +kernel
  obtain ⟨image, himage, hiff⟩ := mkfs_runs_legal_iff hl (by rw [hused]; decide)
    (by unfold NamesFit; decide) zero 0 [65]
  exact ⟨l, image, hl, himage, hiff.2 (by decide +kernel)⟩

/-- A file of as many blocks as a group has, on a volume of 40 MiB. -/
def longFile : Entries := .file [97] (List.replicate (16384 * 2048) 0) .nil

theorem mkfs_runs_reach_over : ∃ l image, layout (20480 * BLOCK) longFile = some l ∧
    makeBfs zero 0 (20480 * BLOCK) [65] longFile = some (image, l.built.nextBlock) ∧
    l.built.nextBlock ≤ 20480 * BLOCK / BLOCK ∧
    ¬ Legal (slice image 0) (l.built.inodes.map NewInode.block) := by
  have hlen : (List.replicate (16384 * 2048) (0 : UInt8)).length = 16384 * 2048 := List.length_replicate
  have hlens : longFile.allLengths = 1 :: [1, 16384] ++ directoryBlocks [[97]] ::
      indexLengths [[97]] [packInt64 FIXTURE_TIME] [packInt64 (16384 * 2048)] := by
    simp only [longFile, Entries.allLengths, Entries.lengths, Entries.names, Entries.allNames,
      Entries.fileSizes, hlen]
    rfl
  have hnames : longFile.allNames = [[97]] := rfl
  obtain ⟨l, hl⟩ : ∃ l, layout (20480 * BLOCK) longFile = some l :=
    layout_some (by rw [hnames]; decide) (by rw [hlens]; decide +kernel) (by rw [hlens]; decide +kernel)
  have hused : l.built.nextBlock = 16930 := by
    rw [(layout_holds hl).used, hlens]
    decide +kernel
  have hfit : l.built.nextBlock ≤ 20480 * BLOCK / BLOCK := by
    rw [hused]
    decide
  refine ⟨l, writeImage zero 0 (20480 * BLOCK) [65] l, hl, by rw [makeBfs, hl, Option.map_some], hfit, ?_⟩
  rw [legal_iff (layout_holds hl) ((layout_holds hl).inode_length fun n hn => ?_) hfit, RunsFit, hlens]
  · decide
  · rw [hnames] at hn
    rw [List.mem_singleton.1 hn]
    decide

end Aegir.Mkfs
