/-
  `make_bfs` (`scripts/mkfs_bfs.py`): a tree of files and directories, the four
  standard indices over it, and the image they are written to.
-/
import Aegir.Lib.Extent
import Aegir.Mkfs.Index

namespace Aegir.Mkfs

open Aegir.Lib Aegir.Lib.Buf Aegir.Lib.BTree Aegir.Bfs

def SECTOR : ℕ := 512
def FIXTURE_SECONDS : ℕ := 1790329260
def FIXTURE_TIME : ℕ := FIXTURE_SECONDS <<< 16
def S_IFREG : ℕ := 0o100000

/-- A list of entries, each of `("file", name, content)` or `("dir", name, subtree)`. -/
inductive Entries where
  | nil
  | file (name : Key) (content : List UInt8) (rest : Entries)
  | dir (name : Key) (subtree rest : Entries)

/-- An inode to be written to `block`, as `_inode` is called for it. -/
structure NewInode where
  block : ℕ
  run : Run
  mode : ℕ
  parent : Run
  size : ℕ
  runs : List Run
  name : Option Key
  time : ℕ
  typeCode : ℕ

namespace NewInode

def bytes (p : NewInode) : Buf :=
  inode p.run p.parent ZERO_RUN p.mode p.size p.time p.typeCode p.runs p.name

/-- The inode's bytes: a block, or more when the name reaches past it. -/
def length (p : NewInode) : ℕ :=
  match p.name with
  | none => BLOCK
  | some name => max BLOCK (232 + (name.length + 13))

end NewInode

/-- The blocks that `n` bytes fill. -/
def blocksOf (n : ℕ) : ℕ := (n + BLOCK - 1) / BLOCK

/-- Bytes to be written from the block `base` on. -/
structure DataBlocks where
  base : ℕ
  bytes : Buf
  length : ℕ

def DataBlocks.extent (d : DataBlocks) : Extent := ⟨d.base, blocksOf d.length⟩

/-- What `build` gathers: the counter, what is to be written, and the entries of the
    indices. -/
structure Builder where
  nextBlock : ℕ
  inodes : List NewInode
  dataBlocks : List DataBlocks
  nameIndex : List Entry
  sizeIndex : List Entry
  mtimeIndex : List Entry

/-- `struct.pack("<iHH", ..)` of a run: nothing when a field does not fit. -/
def packRun (block length agShift : ℕ) : Option Run :=
  let r := run block length agShift
  if r.allocationGroup < 2 ^ 31 ∧ r.start < 2 ^ 16 ∧ r.length < 2 ^ 16 then some r else none

/-- `struct.pack("<q", ..)` -/
def packInt64 (v : ℕ) : Key := Buf.bytes (put 8 zero 0 v) 0 8

/-- `_tree` of a directory's table: nothing when a name alone is too long for a node. -/
def directoryTree (table : List Entry) : Option Tree :=
  if ∀ c ∈ plan table, keyAlign (28 + keyBytes c) + c.length * (2 + 8) ≤ NODE then tree table else none

namespace Builder

def take (s : Builder) (count : ℕ) : Builder := { s with nextBlock := s.nextBlock + count }

def addContent (s : Builder) (agShift : ℕ) (content : List UInt8) : Option (Builder × List Run) :=
  let blocks := blocksOf content.length
  if content.length = 0 then some (s, [])
  else if 65535 < blocks then none
  else do
    let r ← packRun s.nextBlock blocks agShift
    some ({ s.take blocks with
      dataBlocks := s.dataBlocks ++ [⟨s.nextBlock, ofList content, content.length⟩] }, [r])

/-- A file of the directory in `own`, whose inode goes to `child`. -/
def addFile (s : Builder) (agShift own child : ℕ) (name : Key) (content : List UInt8) :
    Option Builder := do
  let (s, runs) ← s.addContent agShift content
  let childRun ← packRun child 1 agShift
  let parent ← packRun own 1 agShift
  some { s with
    inodes := s.inodes ++ [{
      block := child, run := childRun, mode := S_IFREG ||| 0o644, parent, size := content.length, runs
      name := some name, time := FIXTURE_TIME, typeCode := 0 }]
    nameIndex := s.nameIndex ++ [(name, child)]
    sizeIndex := s.sizeIndex ++ [(packInt64 content.length, child)]
    mtimeIndex := s.mtimeIndex ++ [(packInt64 FIXTURE_TIME, child)] }

/-- A directory's tree and then its inode, once its entries are in `table`. -/
def addDirectory (s : Builder) (agShift own parent : ℕ) (name : Option Key) (table : List Entry) :
    Option Builder := do
  let t ← directoryTree (ordered .string (table ++ [([46], own), ([46, 46], parent)]))
  let blocks := blocksOf t.total
  let ownRun ← packRun own 1 agShift
  let parentRun ← packRun parent 1 agShift
  let r ← packRun s.nextBlock blocks agShift
  some { s.take blocks with
    dataBlocks := s.dataBlocks ++ [⟨s.nextBlock, t.bytes, t.total⟩]
    inodes := s.inodes ++ [{
      block := own, run := ownRun, mode := S_IFDIR ||| S_STR_INDEX ||| 0o755, parent := parentRun
      size := t.total, runs := [r], name, time := FIXTURE_TIME, typeCode := 0 }] }

end Builder

/-- The loop of `build` over the entries of the directory in `own`. -/
def buildEntries (agShift : ℕ) : ℕ → Entries → List Entry → Builder → Option (List Entry × Builder)
  | _, .nil, table, s => some (table, s)
  | own, .file name content rest, table, s => do
    let child := s.nextBlock
    let s ← (s.take 1).addFile agShift own child name content
    buildEntries agShift own rest (table ++ [(name, child)]) s
  | own, .dir name subtree rest, table, s => do
    let child := s.nextBlock
    let s := { s.take 1 with nameIndex := s.nameIndex ++ [(name, child)] }
    let (names, s) ← buildEntries agShift child subtree [] s
    let s ← s.addDirectory agShift child own (some name) names
    buildEntries agShift own rest (table ++ [(name, child)]) s

/-- An index's block and, behind it, its tree (`take` and `place_tree`). -/
def Builder.placeIndex (s : Builder) (agShift : ℕ) (t : Tree) : Option (ℕ × Run × Builder) := do
  let base := s.nextBlock + 1
  let r ← packRun base (blocksOf t.total) agShift
  some (s.nextBlock, r, { s.take (1 + blocksOf t.total) with
    dataBlocks := s.dataBlocks ++ [⟨base, t.bytes, t.total⟩] })

def indexInode (block : ℕ) (ownRun indicesRoot : Run) (mode typeCode : ℕ) (t : Tree) (r : Run) :
    NewInode where
  block := block
  run := ownRun
  mode := mode
  parent := indicesRoot
  size := t.total
  runs := [r]
  name := none
  time := 0
  typeCode := typeCode

/-- The names the indices go by. -/
def APP_SIG : Key := "BEOS:APP_SIG".toUTF8.toList
def LAST_MODIFIED : Key := "last_modified".toUTF8.toList
def NAME : Key := "name".toUTF8.toList
def SIZE : Key := "size".toUTF8.toList

def Builder.addIndices (s : Builder) (agShift : ℕ) : Option (ℕ × Builder) := do
  let nameTree := typedTree .string s.nameIndex
  let appsigTree := typedTree .string []
  let mtimeTree := typedTree .int64 s.mtimeIndex
  let sizeTree := typedTree .int64 s.sizeIndex
  let (nameBlock, nameRun, s) ← s.placeIndex agShift nameTree
  let (appsigBlock, appsigRun, s) ← s.placeIndex agShift appsigTree
  let (mtimeBlock, mtimeRun, s) ← s.placeIndex agShift mtimeTree
  let (sizeBlock, sizeRun, s) ← s.placeIndex agShift sizeTree
  let indicesTree := typedTree .string
    [(APP_SIG, appsigBlock), (LAST_MODIFIED, mtimeBlock), (NAME, nameBlock), (SIZE, sizeBlock)]
  let (rootBlock, indicesRun, s) ← s.placeIndex agShift indicesTree
  let rootRun ← packRun rootBlock 1 agShift
  let nameOwn ← packRun nameBlock 1 agShift
  let appsigOwn ← packRun appsigBlock 1 agShift
  let mtimeOwn ← packRun mtimeBlock 1 agShift
  let sizeOwn ← packRun sizeBlock 1 agShift
  some (rootBlock, { s with inodes := s.inodes ++ [
    indexInode rootBlock rootRun rootRun (S_INDEX_DIR ||| S_STR_INDEX ||| S_IFDIR ||| 0o700) 0
      indicesTree indicesRun,
    indexInode nameBlock nameOwn rootRun std_str TYPE_CSTR nameTree nameRun,
    indexInode appsigBlock appsigOwn rootRun std_str TYPE_CSTR appsigTree appsigRun,
    indexInode mtimeBlock mtimeOwn rootRun std_i64 TYPE_LLNG mtimeTree mtimeRun,
    indexInode sizeBlock sizeOwn rootRun std_i64 TYPE_LLNG sizeTree sizeRun] })

def logBase (size : ℕ) : ℕ := (formatGeometry size).numAgs * (formatGeometry size).blocksPerAg + 1

def dataStart (size : ℕ) : ℕ := logBase size + (formatGeometry size).log.length

/-- What is to be written, with the block of the indices' root. -/
structure Layout where
  indicesBlock : ℕ
  built : Builder

/-- Everything `make_bfs` lays out before it writes. -/
def layout (size : ℕ) (es : Entries) : Option Layout := do
  let agShift := (formatGeometry size).agShift
  let root := dataStart size
  let (table, s) ← buildEntries agShift root es [] ⟨root + 1, [], [], [], [], []⟩
  let s ← s.addDirectory agShift root root none table
  let (indicesBlock, s) ← s.addIndices agShift
  let _ ← packRun (logBase size) (formatGeometry size).log.length agShift
  some ⟨indicesBlock, s⟩

/-! ## The image -/

/-- The block bitmap: every block below `used` is marked. -/
def blockBitmap : ℕ → Buf
  | 0 => zero
  | block + 1 =>
    let b := blockBitmap block
    let i := block / 32 * 4 + block % 32 / 8
    put 1 b i ((b i).toNat ||| 1 <<< (block % 8))

/-- The bytes of an image, with what was in `buf` around them. -/
def writeImage (buf : Buf) (offset size : ℕ) (label : List UInt8) (l : Layout) : Buf :=
  let g := formatGeometry size
  let buf := l.built.inodes.foldl (fun b p => blit b (offset + p.block * BLOCK) p.bytes p.length) buf
  let buf := l.built.dataBlocks.foldl (fun b d => blit b (offset + d.base * BLOCK) d.bytes d.length) buf
  let buf := blit buf (offset + 1 * BLOCK) (blockBitmap l.built.nextBlock)
    (g.numAgs * g.blocksPerAg * BLOCK)
  let buf := blit buf (offset + 512)
    (superblock size l.built.nextBlock (dataStart size) l.indicesBlock label) SECTOR
  let buf := blit buf offset zero SECTOR
  blit buf (offset + 1024) zero SECTOR

/-- `make_bfs`: the image and the blocks used. -/
def makeBfs (buf : Buf) (offset size : ℕ) (label : List UInt8) (es : Entries) : Option (Buf × ℕ) :=
  (layout size es).map fun l => (writeImage buf offset size label l, l.built.nextBlock)

/-! ## What the tree needs -/

def directoryBlocks (names : List Key) : ℕ :=
  ((tree (ordered .string ((names ++ [[46], [46, 46]]).map fun k => (k, 0)))).map
    fun t => blocksOf t.total).getD 0

def indexBlocks (ty : IndexType) (keys : List Key) : ℕ :=
  blocksOf (typedTree ty (keys.map fun k => (k, 0))).total

/-- The blocks taken for the indices, each one's inode and its tree. -/
def indexLengths (names times sizes : List Key) : List ℕ :=
  [1, indexBlocks .string names, 1, indexBlocks .string [], 1, indexBlocks .int64 times,
    1, indexBlocks .int64 sizes, 1, indexBlocks .string [APP_SIG, LAST_MODIFIED, NAME, SIZE]]

namespace Entries

def names : Entries → List Key
  | nil => []
  | file name _ rest | dir name _ rest => name :: rest.names

/-- The names in the whole tree, as the name index gathers them. -/
def allNames : Entries → List Key
  | nil => []
  | file name _ rest => name :: rest.allNames
  | dir name subtree rest => name :: subtree.allNames ++ rest.allNames

theorem names_subset (es : Entries) {name : Key} (h : name ∈ es.names) : name ∈ es.allNames := by
  induction es with
  | nil => exact h
  | file n content rest ih =>
    rcases List.mem_cons.1 h with rfl | h
    · exact List.mem_cons_self
    · exact List.mem_cons_of_mem _ (ih h)
  | dir n subtree rest _ ih =>
    rcases List.mem_cons.1 h with rfl | h
    · simp [allNames]
    · simp [allNames, ih h]

def fileSizes : Entries → List ℕ
  | nil => []
  | file _ content rest => content.length :: rest.fileSizes
  | dir _ subtree rest => subtree.fileSizes ++ rest.fileSizes

/-- The blocks taken for the entries, take by take. -/
def lengths : Entries → List ℕ
  | nil => []
  | file _ content rest =>
    1 :: (if content.length = 0 then [] else [blocksOf content.length]) ++ rest.lengths
  | dir _ subtree rest => 1 :: subtree.lengths ++ directoryBlocks subtree.names :: rest.lengths

/-- The blocks taken for a whole volume: the root, its entries and its tree, and then the
    indices. -/
def allLengths (es : Entries) : List ℕ :=
  1 :: es.lengths ++ directoryBlocks es.names ::
    indexLengths es.allNames (es.fileSizes.map fun _ => packInt64 FIXTURE_TIME)
      (es.fileSizes.map packInt64)

end Entries

/-- Extents of these sizes, one after another from `base` on, are each inside one group
    of `span` blocks. -/
def inGroups (span : ℕ) : ℕ → List ℕ → Prop
  | _, [] => True
  | base, n :: sizes => base % span + n ≤ span ∧ inGroups span (base + n) sizes

instance decidableInGroups (span : ℕ) : ∀ base sizes, Decidable (inGroups span base sizes)
  | _, [] => .isTrue trivial
  | base, n :: sizes =>
    have := decidableInGroups span (base + n) sizes
    inferInstanceAs (Decidable (_ ∧ _))

/-- The groups of the volume can be counted in 32 bits, and neither the log nor anything
    the tree needs behind it reaches over the end of a group. -/
def RunsFit (size : ℕ) (es : Entries) : Prop :=
  (formatGeometry size).numAgs < 2 ^ 32 ∧
    inGroups (2 ^ (formatGeometry size).agShift) (logBase size)
      ((formatGeometry size).log.length :: es.allLengths)

instance (size : ℕ) (es : Entries) : Decidable (RunsFit size es) :=
  inferInstanceAs (Decidable (_ ∧ _))

end Aegir.Mkfs
