/-
  Rebuilding nodes and inodes in memory (`bplustree.cc`, `inode.cc`,
  `writer.cc`): what the writer puts into its scratch buffers before it writes
  them out.

  A scratch buffer is set whole: the bytes past the node or the block that the
  source leaves in it are never written out.
-/
import Aegir.Bfs.Index

namespace Aegir.Bfs

open Aegir.Lib Aegir.Lib.Buf Aegir.Lib.BTree

/-- The most entries one node holds: the fixed part, then two bytes of key length
    and eight of value an entry. -/
def kMaxNodeEntries : ℕ := (kTreeNodeSize - 28) / (2 + 8)

/-! ## Nodes -/

/-- `build_node`: a leaf has no overflow link. -/
def buildNode (leaf : Bool) (left right overflow : ℕ) (es : List Entry) : Buf :=
  layNode left right (if leaf then kNullLink else overflow) (keyBytes es) es

/-- The `count` entries a node lists. -/
def nodeEntries (b : Buf) (count : ℕ) : List Entry :=
  (List.range count).map fun i => (keyAt b i, valueAt b count i)

/-- `es` with `e` put before its `i`th entry. -/
def insertEntryAt (es : List Entry) (i : ℕ) (e : Entry) : List Entry := es.take i ++ e :: es.drop i

/-- A node with other entries, `allKeyLength` bytes of keys and the old links. -/
def rebuildNode (b : Buf) (allKeyLength : ℕ) (es : List Entry) : Buf :=
  layNode (le 8 b NodeField.kLeftLink) (le 8 b NodeField.kRightLink) (le 8 b NodeField.kOverflowLink)
    allKeyLength es

/-- `node_insert`: the node with `name` in it, and whether it was there. -/
def nodeInsert (nodeSize dataType : ℕ) (b : Buf) (name : Key) (value : ℕ) : Option (Buf × Bool) :=
  if name.length = 0 ∨ kMaxKeyLength < name.length then none else
  match nodeInfo b nodeSize with
  | none => none
  | some info =>
    let es := nodeEntries b info.count
    let i := es.findIdx fun e => keyCompareTyped dataType e.1 name ≠ .lt
    if (es[i]?.map fun e => keyCompareTyped dataType e.1 name) = some .eq then
      some (put 8 b (keyLengthsAt b + info.count * 2 + i * 8) value, true)
    else
      let newAll := info.allKeyLength + name.length
      if nodeSize < keyAlign (NodeField.kFixed + newAll) + (info.count + 1) * (2 + 8) then none
      else some (rebuildNode b newAll (insertEntryAt es i (name, value)), false)

/-- `node_remove`: the node without `name`, and whether it was there. -/
def nodeRemove (nodeSize dataType : ℕ) (b : Buf) (name : Key) : Option (Buf × Bool) :=
  match nodeInfo b nodeSize with
  | none => none
  | some info =>
    let es := nodeEntries b info.count
    let i := es.findIdx fun e => keyCompareTyped dataType e.1 name = .eq
    match es[i]? with
    | none => some (b, false)
    | some e => some (rebuildNode b (info.allKeyLength - e.1.length) (es.eraseIdx i), true)

def nodeSetValue (nodeSize : ℕ) (b : Buf) (index value : ℕ) : Option Buf :=
  match nodeInfo b nodeSize with
  | none => none
  | some info =>
    if info.count ≤ index then none
    else some (put 8 b (keyLengthsAt b + info.count * 2 + index * 8) value)

def duplicateBuild (left right : ℕ) (values : List ℕ) : Buf :=
  let b := put 8 zero NodeField.kLeftLink left
  let b := put 8 b NodeField.kRightLink right
  let b := put 8 b NodeField.kOverflowLink values.length
  putArray 8 b (NodeField.kOverflowLink + 8) values

/-! ## New trees -/

def newTreeHeader : TreeHeader where
  nodeSize := kTreeNodeSize
  maxLevels := 1
  dataType := kTreeStringType
  root := kTreeNodeSize
  freeNode := kNullLink
  maximum := kTreeNodeSize * 2

/-- A header and one leaf. -/
def buildTree (es : List Entry) : Buf :=
  blit (treeHeaderBuild zero newTreeHeader) kTreeNodeSize
    (buildNode true kNullLink kNullLink kNullLink es) kTreeNodeSize

/-! ## Inodes -/

def kFileNameType : ℕ := 0x43535452
def kInodeAttrInode : ℕ := 0x00000004

def kModeTypeMask : ℕ := 0xf000
def kModeDirectory : ℕ := 0x4000
def kModeRegular : ℕ := 0x8000
def kModeAttrDir : ℕ := 0x08000000
def kModeAttr : ℕ := 0x10000000
def kModeIndexDir : ℕ := 0x20000000
def kModeStrIndex : ℕ := 0x01000000

namespace InodeField

def kCreateTime : ℕ := 28
def kEtc : ℕ := 68

end InodeField

def modeIsDirectory (mode : ℕ) : Bool := mode &&& kModeTypeMask == kModeDirectory

/-- `is_regular_node`: a file, a directory or a symlink. -/
def isRegularNode (mode : ℕ) : Bool := mode &&& (kModeAttrDir ||| kModeAttr ||| kModeIndexDir) == 0

/-- `is_indexed_file`: a plain file. -/
def isIndexedFile (mode : ℕ) : Bool :=
  mode &&& (kModeTypeMask ||| kModeAttrDir ||| kModeAttr ||| kModeIndexDir) == kModeRegular

def writeSmallName (b : Buf) (blockSize : ℕ) (name : Key) : Buf :=
  let pos := InodeField.kSmallData
  if name.length = 0 ∨ kMaxName < name.length ∨ blockSize < pos + 13 + name.length then b else
  let b := put 4 b pos kFileNameType
  let b := put 2 b (pos + 4) 1
  let b := put 2 b (pos + 6) name.length
  puts b (pos + 8) ([UInt8.ofNat kFileNameName, 0, 0, 0] ++ name ++ [0])

def inodeBuild (blockSize : ℕ) (run parent : Run) (mode uid gid time : ℕ) (name : Key) : Buf :=
  let b := put 4 zero InodeField.kMagic1 kInodeMagic1
  let b := putRun b InodeField.kInodeNum run
  let b := put 4 b InodeField.kUid uid
  let b := put 4 b InodeField.kGid gid
  let b := put 4 b InodeField.kMode mode
  let b := put 4 b InodeField.kFlags kInodeInUse
  let b := put 8 b InodeField.kCreateTime time
  let b := put 8 b InodeField.kLastModified time
  let b := putRun b InodeField.kParent parent
  let b := putRun b InodeField.kAttributes ⟨0, 0, 0⟩
  let b := put 4 b InodeField.kType 0
  let b := put 4 b InodeField.kInodeSize blockSize
  let b := put 4 b InodeField.kEtc 0
  let b := put 8 b (InodeField.kData + DataField.kSize) 0
  let b := put 8 b (InodeField.kData + DataField.kBytes) time
  writeSmallName b blockSize name

def inodeSetOwner (b : Buf) (uid gid : ℕ) : Buf := put 4 (put 4 b InodeField.kUid uid) InodeField.kGid gid

def inodeSetMode (b : Buf) (mode : ℕ) : Buf := put 4 b InodeField.kMode mode

def inodeSetType (b : Buf) (type : ℕ) : Buf := put 4 b InodeField.kType type

def inodeMode (b : Buf) : ℕ := le 4 b InodeField.kMode

def inodeSize (b : Buf) : ℕ := le 8 b (InodeField.kData + DataField.kSize)

def inodeMtime (b : Buf) : ℕ := le 8 b InodeField.kLastModified

def inodeGetStream (b : Buf) : Buf := blit zero 0 (slice b InodeField.kData) DataField.kBytes

def inodeSetStream (b stream : Buf) (size mtime : ℕ) : Buf :=
  let b := blit b InodeField.kData stream DataField.kBytes
  let b := put 8 b (InodeField.kData + DataField.kSize) size
  let b := put 8 b InodeField.kLastModified mtime
  put 8 b (InodeField.kData + DataField.kBytes) mtime

end Aegir.Bfs
