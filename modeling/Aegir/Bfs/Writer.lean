/-
  The writer's operations (`aegir/bfs/writer.h`, `writer.cc`): making, removing
  and renaming an entry, writing and resizing a file, attributes, and the standard
  indices that follow all of these.

  An operation is one transaction: `begin`, the work of its `_blocks` form, and
  `finish`, which commits when the work succeeded and gives up otherwise.

  The operations are written over the layers below them: blocks, the allocator,
  data streams and trees are a parameter `Lower σ` over a store `σ`.
-/
import Aegir.Bfs.Attribute
import Aegir.Bfs.Tree

namespace Aegir.Bfs

open Aegir.Lib Aegir.Lib.Buf Aegir.Lib.Fallible Writer

/-- What the operations ask of the layers below.  `streamBlocks` and the fields
    after it are about the stream in `stream_`, which is the one of the inode in
    `inode_`. -/
structure Lower (σ : Type) where
  geometry : σ → Geometry
  /-- the root directory, and the indices' one -/
  root : σ → Run
  indices : σ → Run
  readBlock : σ → ℕ → Buf
  /-- `length` bytes of an inode's stream from `offset` -/
  readStream : σ → Inode → ℕ → ℕ → Buf
  dirFind : σ → Inode → Key → Option ℕ
  /-- a directory holds dot and dotdot, and nothing else -/
  dirEmpty : σ → Inode → Bool
  active : σ → Bool
  begin : Act σ Unit
  finish : Bool → Act σ Unit
  allocate : ℕ → ℕ → Act σ Run
  free : Run → Act σ Unit
  writeBlock : ℕ → Buf → Act σ Unit
  treeEdit : ℕ → Key → ℕ → Bool → Act σ Bool
  indexInsertBlocks : ℕ → Key → ℕ → Act σ Unit
  indexRemoveBlocks : ℕ → Key → ℕ → Act σ Bool
  streamBlocks : Act σ ℕ
  growTo : ℕ → ℕ → Act σ Unit
  trimStream : ℕ → Act σ Unit
  freeStream : Act σ Unit
  zeroRange : ℕ → ℕ → Act σ Unit
  /-- `length` bytes from `offset` on, each block at once -/
  writeStreamDirect : ℕ → Buf → ℕ → Act σ Unit
  /-- a header and one leaf of the entries, at the start of the stream -/
  writeTree : List Entry → Act σ Unit

/-- `inode_view`: what the stream readers need of an inode's block. -/
def inodeView (b : Buf) : Inode where
  mode := le 4 b InodeField.kMode
  uid := 0
  gid := 0
  type := 0
  size := le 8 b (InodeField.kData + DataField.kSize)
  mtime := le 8 b InodeField.kLastModified
  run := leRun b InodeField.kInodeNum
  parent := leRun b InodeField.kParent
  attributes := ⟨0, 0, 0⟩
  name := []
  data := slice b InodeField.kData

def modeIsAttr (mode : ℕ) : Bool := mode &&& kModeAttr != 0

/-- The standard indices' names. -/
def kNameIndex : Key := [110, 97, 109, 101]
def kSizeIndex : Key := [115, 105, 122, 101]
def kLastModifiedIndex : Key := [108, 97, 115, 116, 95, 109, 111, 100, 105, 102, 105, 101, 100]
def kAppSigIndex : Key := [66, 69, 79, 83, 58, 65, 80, 80, 95, 83, 73, 71]

/-- The most bytes of a value an attribute index keys on. -/
def kMaxIndexKey : ℕ := 255

def numberKey (v : ℕ) : Key := bytes (put 8 zero 0 v) 0 8

namespace Lower

variable {σ α : Type} (B : Lower σ)

def blockSize (s : σ) : ℕ := (B.geometry s).blockSize
def toBlock (s : σ) (r : Run) : ℕ := (B.geometry s).toBlock r

def readInode (s : σ) (block : ℕ) : Option Inode :=
  if (B.geometry s).numBlocks ≤ block then none else parseInode (B.blockSize s) (B.readBlock s block)

/-! ## Reading an attribute -/

def attrDirInode (s : σ) (inode : Inode) : Option Inode :=
  if runIsZero inode.attributes then none else B.readInode s (B.toBlock s inode.attributes)

/-- `inode_raw`: the inode's block, when its size is one. -/
def inodeRaw (s : σ) (inode : Inode) : Option (Buf × ℕ) :=
  let b := B.readBlock s (B.toBlock s inode.run)
  let inodeSize := le 4 b InodeField.kInodeSize
  if inodeSize ≤ kMaxBlockSize ∧ InodeField.kSmallData ≤ inodeSize then some (b, inodeSize) else none

/-- `attr_inode`: the inode of an attribute in the attribute directory. -/
def attrInode (s : σ) (inode : Inode) (name : Key) : Option Inode := do
  let dir ← B.attrDirInode s inode
  let block ← B.dirFind s dir name
  let found ← B.readInode s block
  if modeIsAttr found.mode then some found else none

def smallAttr (s : σ) (inode : Inode) (name : Key) : Option SmallAttribute :=
  (B.inodeRaw s inode).bind fun (b, inodeSize) => smallFind b inodeSize name

/-- `attr_stat`: its type and size. -/
def attrStat (s : σ) (inode : Inode) (name : Key) : Option (ℕ × ℕ) :=
  match B.smallAttr s inode name with
  | some entry => some (entry.type, entry.data.length)
  | none => (B.attrInode s inode name).map fun found => (found.type, found.size)

/-- `attr_read`: at most `length` bytes from `offset`. -/
def attrRead (s : σ) (inode : Inode) (name : Key) (offset length : ℕ) : Option (List UInt8) :=
  match B.smallAttr s inode name with
  | some entry => some ((entry.data.drop offset).take length)
  | none => (B.attrInode s inode name).map fun found =>
      if found.size < offset then []
      else
        let got := min length (found.size - offset)
        bytes (B.readStream s found offset got) 0 got

/-- `attribute_key`: the first bytes of an attribute, its key in an index. -/
def attributeKey (s : σ) (inodeBlock : ℕ) (name : Key) : Option Key := do
  let inode ← B.readInode s inodeBlock
  let (_, size) ← B.attrStat s inode name
  B.attrRead s inode name 0 (min kMaxIndexKey size)

/-- `index_inode`: the block of an index, when the volume has it. -/
def indexInode (s : σ) (name : Key) : Option ℕ :=
  if runIsZero (B.indices s) then none
  else (B.readInode s (B.toBlock s (B.indices s))).bind fun dir => B.dirFind s dir name

/-- `read_inode_block`, into `inode_` -/
def readInodeBlock (block : ℕ) : Act σ Unit := do
  let s ← .get
  let b := B.readBlock s.store block
  buffers fun s => { s with inode := b }
  .check (le 4 b InodeField.kMagic1 == kInodeMagic1 && le 4 b InodeField.kFlags &&& kInodeInUse != 0)

/-- `inode_get_stream` of `inode_` into `stream_` -/
def loadStream : Act σ Unit := buffers fun s => { s with stream := inodeGetStream s.inode }

/-- `inode_set_stream` of `stream_` into `inode_`, which goes to its block -/
def storeStream (block size time : ℕ) : Act σ Unit := do
  buffers fun s => { s with inode := inodeSetStream s.inode s.stream size time }
  let s ← .get
  B.writeBlock block s.inode

/-! ## The indices -/

/-- `index_add`: nothing on a volume without the index. -/
def indexAdd (index key : Key) (value : ℕ) : Act σ Unit := do
  let s ← .get
  .whenSome (B.indexInode s.store index) fun block => B.indexInsertBlocks block key value

def indexDrop (index key : Key) (value : ℕ) : Act σ Unit := do
  let s ← .get
  .whenSome (B.indexInode s.store index) fun block => do
    let _ ← B.indexRemoveBlocks block key value
    pure ()

/-- `index_on_create` and `index_on_remove`, which differ in what they do with a key. -/
def indexOn (act : Key → Key → ℕ → Act σ Unit) (block : ℕ) (name : Key) (mode size time : ℕ) :
    Act σ Unit := do
  .when (isRegularNode mode) (act kNameIndex name block)
  .when (isIndexedFile mode) do
    act kSizeIndex (numberKey size) block
    act kLastModifiedIndex (numberKey time) block

def indexOnCreate (block : ℕ) (name : Key) (mode size time : ℕ) : Act σ Unit :=
  indexOn (B.indexAdd) block name mode size time

def indexOnRemove (block : ℕ) (name : Key) (mode size time : ℕ) : Act σ Unit :=
  indexOn (B.indexDrop) block name mode size time

def indexOnRename (block : ℕ) (source target : Key) : Act σ Unit := do
  B.indexDrop kNameIndex source block
  B.indexAdd kNameIndex target block

/-- `index_on_resize` and `index_on_time`, each with its own index. -/
def indexOnNumber (index : Key) (block mode old new : ℕ) : Act σ Unit := do
  if old = new ∨ isIndexedFile mode = false then pure () else do
  B.indexDrop index (numberKey old) block
  B.indexAdd index (numberKey new) block

def indexOnResize (block mode oldSize newSize : ℕ) : Act σ Unit :=
  B.indexOnNumber kSizeIndex block mode oldSize newSize

def indexOnTime (block mode oldTime newTime : ℕ) : Act σ Unit :=
  B.indexOnNumber kLastModifiedIndex block mode oldTime newTime

/-! ## Making an entry -/

def allocateTree : Act σ Run := do
  let s ← .get
  let blocks := blocksFor (kTreeNodeSize * 2) (B.blockSize s.store)
  let run ← B.allocate blocks blocks
  if run.length < blocks then do
    .when (run.length ≠ 0) (.ignore (B.free run))
    .fail
  else pure run

/-- The run of a directory's tree; the inode's run goes back when there is none. -/
def treeRunFor (directory : Bool) (inodeRun : Run) : Act σ (Option Run) :=
  if directory then do
    let run ← (B.allocateTree).onFail (.ignore (B.free inodeRun))
    pure (some run)
  else pure none

/-- The stream of a fresh tree in `run`, in `stream_` and in `inode_`. -/
def freshStream (run : Run) (time : ℕ) : Act σ Unit := do
  buffers fun s => { s with
    stream := put 8 (putRun zero DataField.kDirect run) DataField.kMaxDirectRange (kTreeNodeSize * 2) }
  buffers fun s => { s with inode := inodeSetStream s.inode s.stream (kTreeNodeSize * 2) time }

def giveBack (tree : Option Run) (inode : Run) : Act σ Unit := do
  .whenSome tree fun run => .ignore (B.free run)
  .ignore (B.free inode)

/-- `create_blocks`: answers the new inode's block. -/
def createBlocks (parentBlock : ℕ) (name : Key) (mode uid gid time : ℕ) : Act σ ℕ := do
  .check (name.length ≠ 0 && name.length ≤ kMaxName)
  B.readInodeBlock parentBlock
  let s ← .get
  let parentRun := leRun s.inode InodeField.kInodeNum
  let inodeRun ← B.allocate 1 1
  let block := B.toBlock s.store inodeRun
  let directory := modeIsDirectory mode
  let mode := if directory then mode ||| kModeStrIndex else mode
  let treeRun ← B.treeRunFor directory inodeRun
  buffers fun s => { s with
    inode := inodeBuild (B.blockSize s.store) inodeRun parentRun mode uid gid time name }
  .whenSome treeRun fun run => freshStream run time
  let s ← .get
  (B.writeBlock block s.inode).onFail (B.giveBack treeRun inodeRun)
  .whenSome treeRun fun _ =>
    (B.writeTree [([46], block), ([46, 46], B.toBlock s.store parentRun)]).onFail
      (B.giveBack treeRun inodeRun)
  let existed ← (B.treeEdit parentBlock name block true).onFail (B.giveBack treeRun inodeRun)
  if existed then do
    B.giveBack treeRun inodeRun
    .fail
  else do
  B.indexOnCreate block name mode 0 time
  pure block

def setOwnerModeBlocks (inodeBlock uid gid mode : ℕ) : Act σ Unit := do
  B.readInodeBlock inodeBlock
  buffers fun s => { s with inode := inodeSetMode (inodeSetOwner s.inode uid gid) mode }
  let s ← .get
  B.writeBlock inodeBlock s.inode

/-! ## Removing and renaming an entry -/

def dirIsEmpty (dirBlock : ℕ) : Act σ Unit := do
  B.readInodeBlock dirBlock
  loadStream
  let s ← .get
  .check (B.dirEmpty s.store (inodeView s.inode))

/-- `destroy`: the stream's runs, then the inode's block. -/
def destroy (block : ℕ) : Act σ Unit := do
  B.readInodeBlock block
  loadStream
  let s ← .get
  let inodeRun := leRun s.inode InodeField.kInodeNum
  B.freeStream
  B.free inodeRun

def removeBlocks (parentBlock : ℕ) (name : Key) : Act σ Unit := do
  B.readInodeBlock parentBlock
  let s ← .get
  let child ← .ofOption (B.dirFind s.store (inodeView s.inode) name)
  B.readInodeBlock child
  let s ← .get
  let mode := inodeMode s.inode
  let size := inodeSize s.inode
  let time := inodeMtime s.inode
  .when (modeIsDirectory mode) (B.dirIsEmpty child)
  let present ← B.treeEdit parentBlock name 0 false
  .check present
  B.indexOnRemove child name mode size time
  B.destroy child

def renameBlocks (parentBlock : ℕ) (source target : Key) : Act σ Unit := do
  B.readInodeBlock parentBlock
  let s ← .get
  let parent := inodeView s.inode
  let child ← .ofOption (B.dirFind s.store parent source)
  .check (B.dirFind s.store parent target).isNone
  let present ← B.treeEdit parentBlock source 0 false
  .check present
  let restore : Act σ Unit := .ignore (B.treeEdit parentBlock source child true)
  let existed ← (B.treeEdit parentBlock target child true).onFail restore
  if existed then do
    restore
    .fail
  else B.indexOnRename child source target

/-! ## Writing and resizing a file -/

/-- `write_blocks`; sizes and times are the raw 64 bits. -/
def writeBlocks (inodeBlock offset : ℕ) (src : Buf) (length time : ℕ) : Act σ Unit := do
  B.readInodeBlock inodeBlock
  loadStream
  let s ← .get
  let mode := inodeMode s.inode
  let oldSize := inodeSize s.inode
  let oldTime := inodeMtime s.inode
  let end_ := (offset + length) % 2 ^ 64
  let newSize := if end_ < oldSize then oldSize else end_
  let needed := (offset + length + B.blockSize s.store - 1) % 2 ^ 64 / B.blockSize s.store
  let covered ← B.streamBlocks
  .when (covered < needed) (B.growTo needed covered)
  .when (oldSize < offset) (B.zeroRange oldSize offset)
  B.writeStreamDirect offset src length
  B.storeStream inodeBlock newSize time
  B.indexOnResize inodeBlock mode oldSize newSize
  B.indexOnTime inodeBlock mode oldTime time

def truncateBlocks (inodeBlock size time : ℕ) : Act σ Unit := do
  B.readInodeBlock inodeBlock
  loadStream
  let s ← .get
  let mode := inodeMode s.inode
  let oldSize := inodeSize s.inode
  let oldTime := inodeMtime s.inode
  let newBlocks := (size + B.blockSize s.store - 1) % 2 ^ 64 / B.blockSize s.store
  let covered ← B.streamBlocks
  .when (newBlocks < covered) (B.trimStream newBlocks)
  .when (oldSize < size) do
    let covered ← B.streamBlocks
    let coveredBytes := covered * B.blockSize s.store
    let hi := if size < coveredBytes then size else coveredBytes
    .when (oldSize < hi) (B.zeroRange oldSize hi)
  B.storeStream inodeBlock size time
  B.indexOnResize inodeBlock mode oldSize size
  B.indexOnTime inodeBlock mode oldTime time

/-! ## Attributes -/

/-- `attr_dir`: the attribute directory's block, made when there is none. -/
def attrDir (inodeBlock time : ℕ) : Act σ ℕ := do
  B.readInodeBlock inodeBlock
  let s ← .get
  let attributes := leRun s.inode InodeField.kAttributes
  if runIsZero attributes = false then pure (B.toBlock s.store attributes) else do
  let ownerRun := leRun s.inode InodeField.kInodeNum
  let inodeRun ← B.allocate 1 1
  let block := B.toBlock s.store inodeRun
  let treeRun ← (B.allocateTree).onFail (.ignore (B.free inodeRun))
  let mode := kModeAttrDir ||| kModeDirectory ||| kModeStrIndex ||| 0o666
  buffers fun s => { s with
    inode := inodeBuild (B.blockSize s.store) inodeRun ownerRun mode 0 0 time [] }
  freshStream treeRun time
  let s ← .get
  (B.writeBlock block s.inode).onFail (B.giveBack (some treeRun) inodeRun)
  (B.writeTree []).onFail (B.giveBack (some treeRun) inodeRun)
  B.readInodeBlock inodeBlock
  buffers fun s => { s with inode := putRun s.inode InodeField.kAttributes inodeRun }
  let s ← .get
  (B.writeBlock inodeBlock s.inode).onFail (B.giveBack (some treeRun) inodeRun)
  pure block

/-- `attr_inode_create`: answers the attribute inode's block. -/
def attrInodeCreate (dirBlock : ℕ) (name : Key) (type time : ℕ) : Act σ ℕ := do
  B.readInodeBlock dirBlock
  let s ← .get
  let dirRun := leRun s.inode InodeField.kInodeNum
  let inodeRun ← B.allocate 1 1
  let block := B.toBlock s.store inodeRun
  let mode := kModeAttr ||| kModeRegular ||| 0o666
  buffers fun s => { s with
    inode := put 4
      (inodeSetType (inodeBuild (B.blockSize s.store) inodeRun dirRun mode 0 0 time []) type)
      InodeField.kFlags (kInodeInUse ||| kInodeAttrInode) }
  let s ← .get
  (B.writeBlock block s.inode).onFail (B.giveBack none inodeRun)
  let existed ← (B.treeEdit dirBlock name block true).onFail (B.giveBack none inodeRun)
  if existed then do
    B.giveBack none inodeRun
    .fail
  else pure block

/-- The value of an attribute with `data` written over it at `offset`, which is cut to
    32 bits as the buffer's index is. -/
def overlay (old data : List UInt8) (offset : ℕ) : Buf := fun j =>
  let i := (j + 2 ^ 32 - offset % 2 ^ 32) % 2 ^ 32
  if i < data.length then data.getD i 0 else old.getD j 0

/-- The attribute in an inode of its own, with `length` bytes of `src` at `offset`. -/
def attrCreate (inodeBlock : ℕ) (name : Key) (type offset : ℕ) (src : Buf) (length time : ℕ) :
    Act σ Unit := do
  let dirBlock ← B.attrDir inodeBlock time
  let attrBlock ← B.attrInodeCreate dirBlock name type time
  B.writeBlocks attrBlock offset src length time

/-- An attribute of the inode in `inode_` that is in its small data as `entry`. -/
def attrWriteSmall (inodeBlock : ℕ) (name : Key) (type offset : ℕ) (data : List UInt8) (time : ℕ)
    (entry : SmallAttribute) : Act σ Unit := do
  .check (entry.type == type)
  let s ← .get
  let inodeSize := le 4 s.inode InodeField.kInodeSize
  let newLength := max (offset + data.length) entry.data.length % 2 ^ 32
  .check (newLength ≤ kMaxBlockSize)
  let attr := overlay entry.data data offset
  match smallSet s.inode inodeSize type name (bytes attr 0 newLength) with
  | some b => do
    buffers fun s => { s with inode := b }
    B.writeBlock inodeBlock b
  | none => do
    B.attrCreate inodeBlock name type 0 attr newLength time
    B.readInodeBlock inodeBlock
    let s ← .get
    let b ← .ofOption (smallRemove s.inode inodeSize name)
    buffers fun s => { s with inode := b }
    B.writeBlock inodeBlock b

/-- An attribute that is not there yet: into the small data of the inode in `inode_`
    when it fits, else into an inode of its own. -/
def attrWriteNew (inodeBlock : ℕ) (name : Key) (type offset : ℕ) (data : List UInt8) (time : ℕ) :
    Act σ Unit := do
  let s ← .get
  let inodeSize := le 4 s.inode InodeField.kInodeSize
  let fits := if offset + data.length ≤ kMaxBlockSize then
      smallSet s.inode inodeSize type name (bytes (overlay [] data offset) 0 (offset + data.length))
    else none
  match fits with
  | some b => do
    buffers fun s => { s with inode := b }
    B.writeBlock inodeBlock b
  | none => B.attrCreate inodeBlock name type offset (ofList data) data.length time

def attrWriteImpl (inodeBlock : ℕ) (name : Key) (type offset : ℕ) (data : List UInt8) (time : ℕ) :
    Act σ Unit := do
  .check (name.length ≠ 0 && name.length ≤ kMaxName && offset + data.length < 2 ^ 64)
  B.readInodeBlock inodeBlock
  let s ← .get
  match smallFind s.inode (le 4 s.inode InodeField.kInodeSize) name with
  | some entry => B.attrWriteSmall inodeBlock name type offset data time entry
  | none =>
    let attributes := leRun s.inode InodeField.kAttributes
    let found := if runIsZero attributes then none
      else (B.readInode s.store (B.toBlock s.store attributes)).bind fun dir => B.dirFind s.store dir name
    match found with
    | some attrBlock => do
      let found ← .ofOption (B.readInode s.store attrBlock)
      .check (found.type == type)
      B.writeBlocks attrBlock offset (ofList data) data.length time
    | none => B.attrWriteNew inodeBlock name type offset data time

/-- `attr_write_blocks`: the index of the attribute follows a write at its start. -/
def attrWriteBlocks (inodeBlock : ℕ) (name : Key) (type offset : ℕ) (data : List UInt8) (time : ℕ) :
    Act σ Unit := do
  let s ← .get
  if offset ≠ 0 ∨ name ≠ kAppSigIndex then B.attrWriteImpl inodeBlock name type offset data time
  else do
  let old := B.attributeKey s.store inodeBlock name
  B.attrWriteImpl inodeBlock name type offset data time
  let s ← .get
  let new := B.attributeKey s.store inodeBlock name
  if old = new then pure () else do
  .whenSome old fun key => B.indexDrop kAppSigIndex key inodeBlock
  .whenSome new fun key => B.indexAdd kAppSigIndex key inodeBlock

def attrRemoveImpl (inodeBlock : ℕ) (name : Key) : Act σ Unit := do
  .check (name.length ≠ 0 && name.length ≤ kMaxName)
  B.readInodeBlock inodeBlock
  let s ← .get
  let inodeSize := le 4 s.inode InodeField.kInodeSize
  match smallFind s.inode inodeSize name with
  | some _ => do
    let b ← .ofOption (smallRemove s.inode inodeSize name)
    buffers fun s => { s with inode := b }
    B.writeBlock inodeBlock b
  | none => do
    let attributes := leRun s.inode InodeField.kAttributes
    .check (!runIsZero attributes)
    let dirBlock := B.toBlock s.store attributes
    let dir ← .ofOption (B.readInode s.store dirBlock)
    let attrBlock ← .ofOption (B.dirFind s.store dir name)
    let existed ← B.treeEdit dirBlock name 0 false
    .check existed
    B.destroy attrBlock

def attrRemoveBlocks (inodeBlock : ℕ) (name : Key) : Act σ Unit := do
  let s ← .get
  let old := if name = kAppSigIndex then B.attributeKey s.store inodeBlock name else none
  B.attrRemoveImpl inodeBlock name
  .whenSome old fun key => B.indexDrop kAppSigIndex key inodeBlock

/-! ## What the operations keep

A relation of the store that the layers below keep, the work of every operation
keeps. -/

/-- The layers below keep `R` where they deal with blocks, inodes and trees. -/
class SteadyMeta (B : Lower σ) (R : σ → σ → Prop) : Prop where
  allocate : ∀ maxBlocks minBlocks, Keeps (OnStore R) (B.allocate maxBlocks minBlocks)
  free : ∀ run, Keeps (OnStore R) (B.free run)
  writeBlock : ∀ block img, Keeps (OnStore R) (B.writeBlock block img)
  treeEdit : ∀ block name value insert, Keeps (OnStore R) (B.treeEdit block name value insert)
  indexInsertBlocks : ∀ block key value, Keeps (OnStore R) (B.indexInsertBlocks block key value)
  indexRemoveBlocks : ∀ block key value, Keeps (OnStore R) (B.indexRemoveBlocks block key value)
  freeStream : Keeps (OnStore R) B.freeStream
  writeTree : ∀ es, Keeps (OnStore R) (B.writeTree es)

/-- The layers below keep `R`, begin and end of a transaction aside. -/
class Steady (B : Lower σ) (R : σ → σ → Prop) : Prop extends SteadyMeta B R where
  streamBlocks : Keeps (OnStore R) B.streamBlocks
  growTo : ∀ needed covered, Keeps (OnStore R) (B.growTo needed covered)
  trimStream : ∀ newBlocks, Keeps (OnStore R) (B.trimStream newBlocks)
  zeroRange : ∀ lo hi, Keeps (OnStore R) (B.zeroRange lo hi)
  writeStreamDirect : ∀ offset src length, Keeps (OnStore R) (B.writeStreamDirect offset src length)

attribute [instance] SteadyMeta.allocate SteadyMeta.free SteadyMeta.writeBlock SteadyMeta.treeEdit
  SteadyMeta.indexInsertBlocks SteadyMeta.indexRemoveBlocks SteadyMeta.freeStream SteadyMeta.writeTree
  Steady.streamBlocks Steady.growTo Steady.trimStream Steady.zeroRange Steady.writeStreamDirect

section
variable {R : σ → σ → Prop} [IsPreorder σ R]

instance : Keeps (OnStore R) (loadStream) := by
  unfold loadStream
  infer_instance

instance (run : Run) (time : ℕ) : Keeps (OnStore R) (freshStream run time) := by
  unfold freshStream
  infer_instance

instance {act : Key → Key → ℕ → Act σ Unit} [∀ index key value, Keeps (OnStore R) (act index key value)]
    (block : ℕ) (name : Key) (mode size time : ℕ) :
    Keeps (OnStore R) (indexOn act block name mode size time) := by
  unfold indexOn
  infer_instance

instance (block : ℕ) : Keeps (OnStore R) (B.readInodeBlock block) := by
  unfold readInodeBlock
  infer_instance

section
variable [SteadyMeta B R]

instance (block size time : ℕ) : Keeps (OnStore R) (B.storeStream block size time) := by
  unfold storeStream
  infer_instance

instance (index key : Key) (value : ℕ) : Keeps (OnStore R) (B.indexAdd index key value) := by
  unfold indexAdd
  infer_instance

instance (index key : Key) (value : ℕ) : Keeps (OnStore R) (B.indexDrop index key value) := by
  unfold indexDrop
  infer_instance

instance (block : ℕ) (name : Key) (mode size time : ℕ) : Keeps (OnStore R) (B.indexOnCreate block name mode size time) := by
  unfold indexOnCreate
  infer_instance

instance (block : ℕ) (name : Key) (mode size time : ℕ) : Keeps (OnStore R) (B.indexOnRemove block name mode size time) := by
  unfold indexOnRemove
  infer_instance

instance (block : ℕ) (source target : Key) : Keeps (OnStore R) (B.indexOnRename block source target) := by
  unfold indexOnRename
  infer_instance

instance (index : Key) (block mode old new : ℕ) : Keeps (OnStore R) (B.indexOnNumber index block mode old new) := by
  unfold indexOnNumber
  infer_instance

instance (block mode oldSize newSize : ℕ) : Keeps (OnStore R) (B.indexOnResize block mode oldSize newSize) := by
  unfold indexOnResize
  infer_instance

instance (block mode oldTime newTime : ℕ) : Keeps (OnStore R) (B.indexOnTime block mode oldTime newTime) := by
  unfold indexOnTime
  infer_instance

instance : Keeps (OnStore R) (B.allocateTree) := by
  unfold allocateTree
  dsimp only
  infer_instance

instance (directory : Bool) (inodeRun : Run) : Keeps (OnStore R) (B.treeRunFor directory inodeRun) := by
  unfold treeRunFor
  infer_instance

instance (tree : Option Run) (inode : Run) : Keeps (OnStore R) (B.giveBack tree inode) := by
  unfold giveBack
  infer_instance

instance (parentBlock : ℕ) (name : Key) (mode uid gid time : ℕ) : Keeps (OnStore R) (B.createBlocks parentBlock name mode uid gid time) := by
  unfold createBlocks
  dsimp only
  repeat' first | infer_instance | refine keeps_bind ?_ fun _ => ?_

instance (inodeBlock uid gid mode : ℕ) : Keeps (OnStore R) (B.setOwnerModeBlocks inodeBlock uid gid mode) := by
  unfold setOwnerModeBlocks
  infer_instance

instance (dirBlock : ℕ) : Keeps (OnStore R) (B.dirIsEmpty dirBlock) := by
  unfold dirIsEmpty
  infer_instance

instance (block : ℕ) : Keeps (OnStore R) (B.destroy block) := by
  unfold destroy
  infer_instance

instance (parentBlock : ℕ) (name : Key) : Keeps (OnStore R) (B.removeBlocks parentBlock name) := by
  unfold removeBlocks
  dsimp only
  repeat' first | infer_instance | refine keeps_bind ?_ fun _ => ?_

instance (parentBlock : ℕ) (source target : Key) : Keeps (OnStore R) (B.renameBlocks parentBlock source target) := by
  unfold renameBlocks
  dsimp only
  repeat' first | infer_instance | refine keeps_bind ?_ fun _ => ?_

instance (inodeBlock : ℕ) (name : Key) : Keeps (OnStore R) (B.attrRemoveImpl inodeBlock name) := by
  unfold attrRemoveImpl
  dsimp only
  repeat' first | infer_instance | refine keeps_bind ?_ fun _ => ?_ | split

instance (inodeBlock : ℕ) (name : Key) : Keeps (OnStore R) (B.attrRemoveBlocks inodeBlock name) := by
  unfold attrRemoveBlocks
  dsimp only
  infer_instance

end

section
variable [Steady B R]

instance (inodeBlock offset : ℕ) (src : Buf) (length time : ℕ) : Keeps (OnStore R) (B.writeBlocks inodeBlock offset src length time) := by
  unfold writeBlocks
  dsimp only
  repeat' first | infer_instance | refine keeps_bind ?_ fun _ => ?_

instance (inodeBlock size time : ℕ) : Keeps (OnStore R) (B.truncateBlocks inodeBlock size time) := by
  unfold truncateBlocks
  dsimp only
  repeat' first | infer_instance | refine keeps_bind ?_ fun _ => ?_

instance (inodeBlock time : ℕ) : Keeps (OnStore R) (B.attrDir inodeBlock time) := by
  unfold attrDir
  dsimp only
  repeat' first | infer_instance | refine keeps_bind ?_ fun _ => ?_ | split

instance (dirBlock : ℕ) (name : Key) (type time : ℕ) : Keeps (OnStore R) (B.attrInodeCreate dirBlock name type time) := by
  unfold attrInodeCreate
  dsimp only
  repeat' first | infer_instance | refine keeps_bind ?_ fun _ => ?_

instance (inodeBlock : ℕ) (name : Key) (type offset : ℕ) (src : Buf) (length time : ℕ) : Keeps (OnStore R) (B.attrCreate inodeBlock name type offset src length time) := by
  unfold attrCreate
  infer_instance

instance (inodeBlock : ℕ) (name : Key) (type offset : ℕ) (data : List UInt8) (time : ℕ)
    (entry : SmallAttribute) : Keeps (OnStore R) (B.attrWriteSmall inodeBlock name type offset data time entry) := by
  unfold attrWriteSmall
  dsimp only
  repeat' first | infer_instance | refine keeps_bind ?_ fun _ => ?_ | split

instance (inodeBlock : ℕ) (name : Key) (type offset : ℕ) (data : List UInt8) (time : ℕ) : Keeps (OnStore R) (B.attrWriteNew inodeBlock name type offset data time) := by
  unfold attrWriteNew
  dsimp only
  repeat' first | infer_instance | refine keeps_bind ?_ fun _ => ?_ | split

instance (inodeBlock : ℕ) (name : Key) (type offset : ℕ) (data : List UInt8) (time : ℕ) : Keeps (OnStore R) (B.attrWriteImpl inodeBlock name type offset data time) := by
  unfold attrWriteImpl
  dsimp only
  repeat' first | infer_instance | refine keeps_bind ?_ fun _ => ?_ | split

instance (inodeBlock : ℕ) (name : Key) (type offset : ℕ) (data : List UInt8) (time : ℕ) : Keeps (OnStore R) (B.attrWriteBlocks inodeBlock name type offset data time) := by
  unfold attrWriteBlocks
  dsimp only
  repeat' first | infer_instance | refine keeps_bind ?_ fun _ => ?_

end

end

/-! ## Operations -/

/-- One transaction around `m`. -/
def transaction (m : Act σ α) : Act σ α := do
  let s ← .get
  .check (!B.active s.store)
  B.begin
  let r ← m.attempt
  B.finish r.isSome
  .ofOption r

def create (parentBlock : ℕ) (name : Key) (mode uid gid time : ℕ) : Act σ ℕ :=
  B.transaction (B.createBlocks parentBlock name mode uid gid time)

def setOwnerMode (inodeBlock uid gid mode : ℕ) : Act σ Unit :=
  B.transaction (B.setOwnerModeBlocks inodeBlock uid gid mode)

def remove (parentBlock : ℕ) (name : Key) : Act σ Unit :=
  B.transaction (B.removeBlocks parentBlock name)

def rename (parentBlock : ℕ) (source target : Key) : Act σ Unit :=
  B.transaction (B.renameBlocks parentBlock source target)

def write (inodeBlock offset : ℕ) (data : List UInt8) (time : ℕ) : Act σ Unit :=
  B.transaction (B.writeBlocks inodeBlock offset (ofList data) data.length time)

def truncate (inodeBlock size time : ℕ) : Act σ Unit :=
  B.transaction (B.truncateBlocks inodeBlock size time)

def attrWrite (inodeBlock : ℕ) (name : Key) (type offset : ℕ) (data : List UInt8) (time : ℕ) :
    Act σ Unit :=
  B.transaction (B.attrWriteBlocks inodeBlock name type offset data time)

def attrRemove (inodeBlock : ℕ) (name : Key) : Act σ Unit :=
  B.transaction (B.attrRemoveBlocks inodeBlock name)

end Lower

/-- The writer's public operations. -/
inductive Op where
  | create (parentBlock : ℕ) (name : Key) (mode uid gid time : ℕ)
  | setOwnerMode (inodeBlock uid gid mode : ℕ)
  | remove (parentBlock : ℕ) (name : Key)
  | rename (parentBlock : ℕ) (source target : Key)
  | write (inodeBlock offset : ℕ) (data : List UInt8) (time : ℕ)
  | truncate (inodeBlock size time : ℕ)
  | attrWrite (inodeBlock : ℕ) (name : Key) (type offset : ℕ) (data : List UInt8) (time : ℕ)
  | attrRemove (inodeBlock : ℕ) (name : Key)
  | indexInsert (indexBlock : ℕ) (key : Key) (value : ℕ)
  | indexRemove (indexBlock : ℕ) (key : Key) (value : ℕ)

namespace Op

variable {σ : Type} (B : Lower σ)

/-- The work of an operation. -/
def blocks : Op → Act σ Unit
  | create parentBlock name mode uid gid time => do
    let _ ← B.createBlocks parentBlock name mode uid gid time
    pure ()
  | setOwnerMode inodeBlock uid gid mode => B.setOwnerModeBlocks inodeBlock uid gid mode
  | remove parentBlock name => B.removeBlocks parentBlock name
  | rename parentBlock source target => B.renameBlocks parentBlock source target
  | write inodeBlock offset data time => B.writeBlocks inodeBlock offset (ofList data) data.length time
  | truncate inodeBlock size time => B.truncateBlocks inodeBlock size time
  | attrWrite inodeBlock name type offset data time =>
    B.attrWriteBlocks inodeBlock name type offset data time
  | attrRemove inodeBlock name => B.attrRemoveBlocks inodeBlock name
  | indexInsert indexBlock key value => B.indexInsertBlocks indexBlock key value
  | indexRemove indexBlock key value => do
    let _ ← B.indexRemoveBlocks indexBlock key value
    pure ()

def run (op : Op) : Act σ Unit := B.transaction (op.blocks B)

instance {R : σ → σ → Prop} [IsPreorder σ R] [B.Steady R] (op : Op) :
    Keeps (OnStore R) (op.blocks B) := by
  cases op <;> unfold blocks <;>
    infer_instance

end Op

end Aegir.Bfs
