/-
  What the writer's edits of an inode's block keep of the inode (`inode.cc`,
  `attribute.cc`).
-/
import Aegir.Bfs.Attribute

namespace Aegir.Bfs

open Aegir.Lib Aegir.Lib.Buf

/-! ## Fields of an image -/

def SameSmall (b b' : Buf) : Prop := ∀ i, InodeField.kSmallData ≤ i → b' i = b i

theorem smallFileName_congr {b b' : Buf} (h : SameSmall b b') (inodeSize : ℕ) {fuel pos : ℕ}
    (hpos : InodeField.kSmallData ≤ pos) :
    smallFileName b' inodeSize fuel pos = smallFileName b inodeSize fuel pos := by
  induction fuel generalizing pos with
  | zero => rfl
  | succ fuel ih =>
    have hname : le 2 b' (pos + 4) = le 2 b (pos + 4) := le_congr fun k _ => h _ (by omega)
    have hdata : le 2 b' (pos + 6) = le 2 b (pos + 6) := le_congr fun k _ => h _ (by omega)
    have hbytes : ∀ n, bytes b' (pos + 8 + 1 + 3) n = bytes b (pos + 8 + 1 + 3) n :=
      fun n => bytes_congr fun k _ => h _ (by omega)
    have hsize : entrySize b' inodeSize pos = entrySize b inodeSize pos := by
      rw [entrySize, entrySize, hname, hdata]
    unfold smallFileName
    rw [hname, hsize, hdata, h (pos + 8) (by omega), hbytes]
    split
    · split
      · rfl
      · split
        · rfl
        · exact ih (by omega)
    · rfl

theorem smallFindFrom_congr {b b' : Buf} (h : SameSmall b b') (inodeSize : ℕ) (name : Key) {fuel pos : ℕ}
    (hpos : InodeField.kSmallData ≤ pos) :
    smallFindFrom b' inodeSize name fuel pos = smallFindFrom b inodeSize name fuel pos := by
  induction fuel generalizing pos with
  | zero => rfl
  | succ fuel ih =>
    have hname : le 2 b' (pos + 4) = le 2 b (pos + 4) := le_congr fun k _ => h _ (by omega)
    have hdata : le 2 b' (pos + 6) = le 2 b (pos + 6) := le_congr fun k _ => h _ (by omega)
    have htype : le 4 b' pos = le 4 b pos := le_congr fun k _ => h _ (by omega)
    have hbytes : ∀ i n, pos ≤ i → bytes b' i n = bytes b i n :=
      fun i n hi => bytes_congr fun k _ => h _ (by omega)
    have hsize : entrySize b' inodeSize pos = entrySize b inodeSize pos := by
      rw [entrySize, entrySize, hname, hdata]
    have hentry : entryName b' pos = entryName b pos := by
      rw [entryName, entryName, hname, hbytes _ _ (by omega)]
    have hfile : isFileName b' pos = isFileName b pos := by
      rw [isFileName, isFileName, hname, h (pos + 8) (by omega)]
    unfold smallFindFrom
    rw [hname, hsize, hdata, htype, hentry, hfile, hbytes _ _ (by omega)]
    split
    · split
      · rfl
      · split
        · rfl
        · exact ih (by omega)
    · rfl

def Inode.withStream (i : Inode) (b : Buf) : Inode :=
  { i with size := inodeSize b, data := slice b InodeField.kData }

/-- The blocks agree outside the stream and the time after it. -/
def Restreamed (b b' : Buf) : Prop :=
  ∀ i, (i < InodeField.kData ∨ InodeField.kData + DataField.kBytes + 8 ≤ i) → b' i = b i

theorem Restreamed.refl (b : Buf) : Restreamed b b := fun _ _ => rfl

theorem Restreamed.trans {b b' b'' : Buf} (h : Restreamed b b') (h' : Restreamed b' b'') :
    Restreamed b b'' := fun i hi => (h' i hi).trans (h i hi)

section
variable {b b' : Buf} (h : Restreamed b b')
include h

theorem Restreamed.le {w i : ℕ} (hi : i + w ≤ InodeField.kData) : le w b' i = le w b i :=
  le_congr fun k _ => h _ (Or.inl (by omega))

theorem Restreamed.leRun {i : ℕ} (hi : i + 8 ≤ InodeField.kData) : leRun b' i = leRun b i :=
  leRun_congr fun k _ => h _ (Or.inl (by omega))

theorem Restreamed.sameSmall : SameSmall b b' := fun i hi =>
  h i (Or.inr (by simp only [InodeField.kSmallData, InodeField.kData, DataField.kBytes] at *; omega))

theorem Restreamed.parse (blockSize : ℕ) :
    parseInode blockSize b' = (parseInode blockSize b).map (Inode.withStream · b') := by
  have hle : ∀ w i, i + w ≤ 72 → Buf.le w b' i = Buf.le w b i := fun w i hi => h.le hi
  have hrun : ∀ i, i + 8 ≤ 72 → Bfs.leRun b' i = Bfs.leRun b i := fun i hi => h.leRun hi
  unfold parseInode
  simp only [smallFileName_congr h.sameSmall _ (le_refl _)]
  rw [hle _ InodeField.kMagic1 (by decide), hle _ InodeField.kFlags (by decide),
    hle _ InodeField.kInodeSize (by decide), hle _ InodeField.kMode (by decide),
    hle _ InodeField.kUid (by decide), hle _ InodeField.kGid (by decide),
    hle _ InodeField.kType (by decide), hle _ InodeField.kLastModified (by decide),
    hrun _ (by decide), hrun _ (by decide), hrun _ (by decide)]
  split
  · rfl
  · rfl

end

theorem inodeSetStream_restreamed (b stream : Buf) (size : ℕ) {time : ℕ}
    (ht : time % 2 ^ 64 = inodeMtime b) : Restreamed b (inodeSetStream b stream size time) := by
  intro i hi
  have hb : InodeField.kData = 72 := rfl
  have hn : DataField.kBytes = 144 := rfl
  have hs : DataField.kSize = 136 := rfl
  have hm : InodeField.kLastModified = 36 := rfl
  unfold inodeSetStream
  by_cases hmem : InodeField.kLastModified ≤ i ∧ i < InodeField.kLastModified + 8
  · -- the time is the one that was there
    have hfield : le 8 (put 8 b InodeField.kLastModified time) InodeField.kLastModified =
        le 8 b InodeField.kLastModified := by
      rw [le_put]
      exact (by norm_num : (256 : ℕ) ^ 8 = 2 ^ 64) ▸ ht
    have hbyte := bytes_of_le_eq hfield (i - InodeField.kLastModified) (by omega)
    rw [show InodeField.kLastModified + (i - InodeField.kLastModified) = i by omega] at hbyte
    rw [put_of_notMem (by omega), put_of_mem (by omega) (by omega), ← hbyte,
      put_of_mem (by omega) (by omega)]
  · rw [put_of_notMem (by omega), put_of_notMem (by omega), put_of_notMem (by omega),
      blit_of_notMem (by omega)]

/-- The blocks agree in what makes an inode this one: its magic, run, mode, flags,
    parent and size of the block. -/
def SameHead (b b' : Buf) : Prop := ∀ i, (i < InodeField.kCreateTime ∨
  InodeField.kParent ≤ i ∧ i < InodeField.kAttributes ∨ InodeField.kInodeSize ≤ i ∧ i < InodeField.kEtc) →
    b' i = b i

theorem Restreamed.sameHead {b b' : Buf} (h : Restreamed b b') : SameHead b b' := by
  intro i hi
  simp only [InodeField.kCreateTime, InodeField.kParent, InodeField.kAttributes, InodeField.kInodeSize,
    InodeField.kEtc] at hi
  exact h i (Or.inl (by simp only [InodeField.kData]; omega))

theorem inodeSetStream_sameHead (b stream : Buf) (size time : ℕ) :
    SameHead b (inodeSetStream b stream size time) := by
  intro i hi
  simp only [InodeField.kCreateTime, InodeField.kParent, InodeField.kAttributes, InodeField.kInodeSize,
    InodeField.kEtc] at hi
  unfold inodeSetStream
  simp only [InodeField.kData, DataField.kSize, DataField.kBytes, InodeField.kLastModified]
  rw [put_of_notMem (by omega), put_of_notMem (by omega), put_of_notMem (by omega),
    blit_of_notMem (by omega)]

theorem SameHead.parse {b b' : Buf} (h : SameHead b b') (blockSize : ℕ) :
    (parseInode blockSize b = none ∧ parseInode blockSize b' = none) ∨
      ∃ i i', parseInode blockSize b = some i ∧ parseInode blockSize b' = some i' ∧
        i'.run = i.run ∧ i'.parent = i.parent ∧ i'.mode = i.mode := by
  have hle : ∀ w i, i + w ≤ 28 ∨ 64 ≤ i ∧ i + w ≤ 68 → le w b' i = le w b i := by
    intro w i hi
    refine le_congr fun k _ => h _ ?_
    simp only [InodeField.kCreateTime, InodeField.kInodeSize, InodeField.kEtc]
    omega
  have hrun : ∀ i, i + 8 ≤ 28 ∨ 44 ≤ i ∧ i + 8 ≤ 52 → leRun b' i = leRun b i := by
    intro i hi
    refine leRun_congr fun k _ => h _ ?_
    simp only [InodeField.kCreateTime, InodeField.kParent, InodeField.kAttributes]
    omega
  unfold parseInode
  rw [hle _ InodeField.kMagic1 (by decide), hle _ InodeField.kFlags (by decide),
    hle _ InodeField.kInodeSize (by decide)]
  split
  · exact Or.inl ⟨rfl, rfl⟩
  · refine Or.inr ⟨_, _, rfl, rfl, ?_, ?_, ?_⟩
    · exact hrun _ (by decide)
    · exact hrun _ (by decide)
    · exact hle _ _ (by decide)

/-! ## Owner and mode -/

/-- The blocks agree outside owner and mode, and in the mode's type bits. -/
structure Remoded (b b' : Buf) : Prop where
  agree : ∀ i, (i < InodeField.kUid ∨ InodeField.kFlags ≤ i) → b' i = b i
  type : le 4 b' InodeField.kMode / 2 ^ 12 = le 4 b InodeField.kMode / 2 ^ 12

/-- The inodes differ in owner and mode only, and not in the mode's type bits. -/
structure SameNode (i i' : Inode) : Prop where
  fields : i' = { i with uid := i'.uid, gid := i'.gid, mode := i'.mode }
  type : i'.mode / 2 ^ 12 = i.mode / 2 ^ 12

theorem Remoded.refl (b : Buf) : Remoded b b := ⟨fun _ _ => rfl, rfl⟩

theorem and_eq_of_div_eq {m m' : ℕ} (k : ℕ) (h : m' / 2 ^ 12 = m / 2 ^ 12) :
    m' &&& (k * 2 ^ 12) = m &&& (k * 2 ^ 12) := by
  refine Nat.eq_of_testBit_eq fun i => ?_
  rw [Nat.testBit_and, Nat.testBit_and]
  by_cases hi : i < 12
  · rw [Nat.mul_comm k, Nat.testBit_two_pow_mul]
    simp [Nat.not_le.mpr hi]
  · have hshift : ∀ n : ℕ, n.testBit i = (n / 2 ^ 12).testBit (i - 12) := fun n => by
      rw [Nat.testBit_div_two_pow, Nat.sub_add_cancel (by omega)]
    rw [hshift m, hshift m', h]

theorem isRegularNode_of_div_eq {m m' : ℕ} (h : m' / 2 ^ 12 = m / 2 ^ 12) :
    isRegularNode m' = isRegularNode m := by
  have := and_eq_of_div_eq 0x38000 h
  unfold isRegularNode
  rw [show kModeAttrDir ||| kModeAttr ||| kModeIndexDir = 0x38000 * 2 ^ 12 from rfl, this]

theorem isIndexedFile_of_div_eq {m m' : ℕ} (h : m' / 2 ^ 12 = m / 2 ^ 12) :
    isIndexedFile m' = isIndexedFile m := by
  have := and_eq_of_div_eq 0x3800f h
  unfold isIndexedFile
  rw [show kModeTypeMask ||| kModeAttrDir ||| kModeAttr ||| kModeIndexDir = 0x3800f * 2 ^ 12 from rfl, this]

theorem modeIsDirectory_of_div_eq {m m' : ℕ} (h : m' / 2 ^ 12 = m / 2 ^ 12) :
    modeIsDirectory m' = modeIsDirectory m := by
  have := and_eq_of_div_eq 0xf h
  unfold modeIsDirectory
  rw [show kModeTypeMask = 0xf * 2 ^ 12 from rfl, this]

theorem Remoded.parse {b b' : Buf} (h : Remoded b b') (blockSize : ℕ) :
    (parseInode blockSize b = none ∧ parseInode blockSize b' = none) ∨
      ∃ i i', parseInode blockSize b = some i ∧ parseInode blockSize b' = some i' ∧ SameNode i i' := by
  have hle : ∀ w i, i + w ≤ 12 ∨ 24 ≤ i → le w b' i = le w b i := fun w i hi =>
    le_congr fun k _ => h.agree _ (by simp only [InodeField.kUid, InodeField.kFlags]; omega)
  have hrun : ∀ i, i + 8 ≤ 12 ∨ 24 ≤ i → leRun b' i = leRun b i := fun i hi =>
    leRun_congr fun k _ => h.agree _ (by simp only [InodeField.kUid, InodeField.kFlags]; omega)
  have hsmall : SameSmall b b' := fun i hi =>
    h.agree i (Or.inr (le_trans (by decide) hi))
  have hdata : slice b' InodeField.kData = slice b InodeField.kData := by
    funext i
    exact h.agree _ (Or.inr (by simp only [InodeField.kFlags, InodeField.kData]; omega))
  unfold parseInode
  simp only [smallFileName_congr hsmall _ (le_refl _)]
  rw [hle _ InodeField.kMagic1 (by decide), hle _ InodeField.kFlags (by decide),
    hle _ InodeField.kInodeSize (by decide), hle _ InodeField.kType (by decide),
    hle _ InodeField.kLastModified (by decide), hle 8 (InodeField.kData + DataField.kSize) (by decide),
    hrun _ (by decide), hrun _ (by decide), hrun _ (by decide), hdata]
  split
  · exact Or.inl ⟨rfl, rfl⟩
  · exact Or.inr ⟨_, _, rfl, rfl, rfl, h.type⟩

theorem inodeSetMode_remoded (b : Buf) (uid gid : ℕ) {mode : ℕ} (hm : mode < 2 ^ 32)
    (h : mode / 2 ^ 12 = le 4 b InodeField.kMode / 2 ^ 12) :
    Remoded b (inodeSetMode (inodeSetOwner b uid gid) mode) := by
  constructor
  · intro i hi
    simp only [InodeField.kUid, InodeField.kFlags] at hi
    unfold inodeSetMode inodeSetOwner
    simp only [InodeField.kUid, InodeField.kGid, InodeField.kMode]
    rw [put_of_notMem (by omega), put_of_notMem (by omega), put_of_notMem (by omega)]
  · unfold inodeSetMode
    rw [le_put_of_lt (by simpa using hm), h]

/-! ## A new inode -/

theorem writeSmallName_of_lt (b : Buf) (blockSize : ℕ) (name : Key) {i : ℕ}
    (h : i < InodeField.kSmallData) : writeSmallName b blockSize name i = b i := by
  unfold writeSmallName
  dsimp only
  split
  · rfl
  · rw [puts_of_notMem (Or.inl (by omega)), put_of_notMem (Or.inl (by omega)),
      put_of_notMem (Or.inl (by omega)), put_of_notMem (Or.inl (by omega))]

section
variable (blockSize : ℕ) (run parent : Run) (mode uid gid time : ℕ) (name : Key)

def inodeHead : Buf :=
  put 8 (put 8 (put 4 (put 4 (put 4 (putRun (putRun (put 8 (put 8 (put 4 (put 4 (put 4 (put 4
    (putRun (put 4 zero 0 kInodeMagic1) 4 run) 12 uid) 16 gid) 20 mode) 24 kInodeInUse) 28 time)
    36 time) 44 parent) 52 ⟨0, 0, 0⟩) 60 0) 64 blockSize) 68 0) 208 0) 216 time

theorem le_inodeBuild {w i : ℕ} (h : i + w ≤ InodeField.kSmallData) :
    le w (inodeBuild blockSize run parent mode uid gid time name) i =
      le w (inodeHead blockSize run parent mode uid gid time) i :=
  le_congr fun _ _ => writeSmallName_of_lt _ _ _ (by omega)

theorem leRun_inodeBuild {i : ℕ} (h : i + 8 ≤ InodeField.kSmallData) :
    leRun (inodeBuild blockSize run parent mode uid gid time name) i =
      leRun (inodeHead blockSize run parent mode uid gid time) i :=
  leRun_congr fun _ _ => writeSmallName_of_lt _ _ _ (by omega)

theorem inodeHead_fields (hr : run.Fits) (hp : parent.Fits) :
    le 4 (inodeHead blockSize run parent mode uid gid time) InodeField.kMagic1 = kInodeMagic1 ∧
    leRun (inodeHead blockSize run parent mode uid gid time) InodeField.kInodeNum = run ∧
    le 4 (inodeHead blockSize run parent mode uid gid time) InodeField.kUid = uid % 2 ^ 32 ∧
    le 4 (inodeHead blockSize run parent mode uid gid time) InodeField.kGid = gid % 2 ^ 32 ∧
    le 4 (inodeHead blockSize run parent mode uid gid time) InodeField.kMode = mode % 2 ^ 32 ∧
    le 4 (inodeHead blockSize run parent mode uid gid time) InodeField.kFlags = kInodeInUse ∧
    le 8 (inodeHead blockSize run parent mode uid gid time) InodeField.kLastModified = time % 2 ^ 64 ∧
    leRun (inodeHead blockSize run parent mode uid gid time) InodeField.kParent = parent ∧
    leRun (inodeHead blockSize run parent mode uid gid time) InodeField.kAttributes = ⟨0, 0, 0⟩ ∧
    le 4 (inodeHead blockSize run parent mode uid gid time) InodeField.kType = 0 ∧
    le 4 (inodeHead blockSize run parent mode uid gid time) InodeField.kInodeSize = blockSize % 2 ^ 32 ∧
    inodeSize (inodeHead blockSize run parent mode uid gid time) = 0 := by
  have hz : Run.Fits ⟨0, 0, 0⟩ := ⟨by decide, by decide, by decide⟩
  unfold inodeHead inodeSize
  simp (disch := decide) only [InodeField.kMagic1, InodeField.kInodeNum, InodeField.kUid,
    InodeField.kGid, InodeField.kMode, InodeField.kFlags, InodeField.kLastModified,
    InodeField.kParent, InodeField.kAttributes, InodeField.kType, InodeField.kInodeSize,
    InodeField.kData, DataField.kSize, le_put_of_disjoint, le_putRun_of_disjoint,
    leRun_put_of_disjoint, leRun_putRun_of_disjoint, le_put, leRun_putRun hr, leRun_putRun hp,
    leRun_putRun hz]
  exact ⟨rfl, trivial, rfl, rfl, rfl, rfl, rfl, trivial, trivial, rfl, rfl, rfl⟩

theorem inodeMtime_build (hr : run.Fits) (hp : parent.Fits) :
    inodeMtime (inodeBuild blockSize run parent mode uid gid time name) = time % 2 ^ 64 := by
  obtain ⟨-, -, -, -, -, -, h, -⟩ := inodeHead_fields blockSize run parent mode uid gid time hr hp
  rw [inodeMtime, le_inodeBuild _ _ _ _ _ _ _ _ (by decide), h]

theorem leRun_inodeNum_build (hr : run.Fits) (hp : parent.Fits) :
    leRun (inodeBuild blockSize run parent mode uid gid time name) InodeField.kInodeNum = run := by
  obtain ⟨-, h, -⟩ := inodeHead_fields blockSize run parent mode uid gid time hr hp
  rw [leRun_inodeBuild _ _ _ _ _ _ _ _ (by decide), h]

/-- **A new inode is read back.** -/
theorem parseInode_build (hb : blockSize < 2 ^ 32) (hr : run.Fits) (hp : parent.Fits) :
    parseInode blockSize (inodeBuild blockSize run parent mode uid gid time name) = some {
      mode := mode % 2 ^ 32, uid := uid % 2 ^ 32, gid := gid % 2 ^ 32, type := 0, size := 0
      mtime := time % 2 ^ 64, run, parent, attributes := ⟨0, 0, 0⟩
      name := (smallFileName (inodeBuild blockSize run parent mode uid gid time name) blockSize
        blockSize InodeField.kSmallData).getD []
      data := slice (inodeBuild blockSize run parent mode uid gid time name) InodeField.kData } := by
  obtain ⟨h₁, h₂, h₃, h₄, h₅, h₆, h₇, h₈, h₉, h₁₀, h₁₁, h₁₂⟩ :=
    inodeHead_fields blockSize run parent mode uid gid time hr hp
  rw [Nat.mod_eq_of_lt hb] at h₁₁
  unfold inodeSize at h₁₂
  unfold parseInode
  dsimp only
  rw [le_inodeBuild _ _ _ _ _ _ _ _ (by decide), h₁, le_inodeBuild _ _ _ _ _ _ _ _ (by decide), h₆,
    le_inodeBuild _ _ _ _ _ _ _ _ (by decide), h₁₁, if_neg (by simp [kInodeInUse]),
    le_inodeBuild _ _ _ _ _ _ _ _ (by decide), h₅, le_inodeBuild _ _ _ _ _ _ _ _ (by decide), h₃,
    le_inodeBuild _ _ _ _ _ _ _ _ (by decide), h₄, le_inodeBuild _ _ _ _ _ _ _ _ (by decide), h₁₀,
    le_inodeBuild _ _ _ _ _ _ _ _ (by decide), h₁₂, le_inodeBuild _ _ _ _ _ _ _ _ (by decide), h₇,
    leRun_inodeBuild _ _ _ _ _ _ _ _ (by decide), h₂, leRun_inodeBuild _ _ _ _ _ _ _ _ (by decide), h₈,
    leRun_inodeBuild _ _ _ _ _ _ _ _ (by decide), h₉]

end

end Aegir.Bfs
