/-
  Editing a tree (`aegir/bfs/writer.h`, `writer.cc`): inserting and removing a
  key, splitting nodes on the way up, and the values under an index's key.

  The writer works in member buffers, one for each purpose, and its functions
  share them: `insert_into` recurses with one `parent_`, and growing the stream
  reads indirect blocks into `node_` and `work_`.  A `Writer` has the buffers as
  fields, so a function sees what the one it called left in them.

  What lies below the tree, a data stream that can be read, written and grown, is
  a parameter: `Streams σ` over a store `σ`.
-/
import Aegir.Bfs.Edit

namespace Aegir.Bfs

open Aegir.Lib Aegir.Lib.Buf Aegir.Lib.Fallible

/-- The depth the recursion of `insert_into` and `remove_into`, which has no bound
    of its own, is followed to: a tree of 64 levels has more nodes than a stream has
    bytes. -/
def kTreeDepth : ℕ := 64

/-- The writer's members: the store it works on, its buffers, the inode whose tree
    it edits and that tree's key type. -/
structure Writer (σ : Type) where
  store : σ
  inode : Buf
  stream : Buf
  hdr : Buf
  node : Buf
  parent : Buf
  splitSrc : Buf
  work : Buf
  fresh : Buf
  attr : Buf
  editParent : ℕ
  treeType : ℕ

abbrev Act (σ : Type) := Fallible (Writer σ)

/-- What the tree functions ask of the layers below; `streamBlocks` and `growTo`
    are about the stream in `stream_`. -/
structure Streams (σ : Type) where
  blockSize : σ → ℕ
  readBlock : σ → ℕ → Buf
  /-- `length` bytes of a data stream from `offset` -/
  readStream : σ → Buf → ℕ → ℕ → Buf
  writeBlock : ℕ → Buf → Fallible σ Unit
  /-- `length` bytes into a data stream from `offset` -/
  writeStreamRaw : Buf → ℕ → Buf → ℕ → Fallible σ Unit
  streamBlocks : Act σ ℕ
  /-- grow the stream to the needed blocks, from those it covers -/
  growTo : ℕ → ℕ → Act σ Unit

/-- A node was split: the greatest key of the left one, and the two offsets. -/
structure TreeSplit where
  separator : Key
  left : ℕ
  right : ℕ
deriving DecidableEq

def blocksFor (bytes blockSize : ℕ) : ℕ := (bytes + blockSize - 1) % 2 ^ 64 / blockSize % 2 ^ 32

namespace Writer

variable {σ α : Type} (B : Streams σ)

def onStore (m : Fallible σ α) : Act σ α := fun s =>
  ((m s.store).1, { s with store := (m s.store).2 })

def buffers (f : Writer σ → Writer σ) : Act σ Unit := .modify fun s => { f s with store := s.store }

/-! ## Inodes and headers -/

/-- `read_inode_block`, into `inode_` -/
def readInodeBlock (block : ℕ) : Act σ Unit := do
  let s ← .get
  let b := B.readBlock s.store block
  buffers fun s => { s with inode := b }
  .check (le 4 b InodeField.kMagic1 == kInodeMagic1 && le 4 b InodeField.kFlags &&& kInodeInUse != 0)

/-- `read_stream` of the inode in `inode_` -/
def readTree (s : Writer σ) (offset length : ℕ) : Buf :=
  B.readStream s.store (inodeGetStream s.inode) offset length

def treeHeader (parentBlock : ℕ) : Act σ TreeHeader := do
  readInodeBlock B parentBlock
  buffers fun s => { s with stream := inodeGetStream s.inode }
  buffers fun s => { s with hdr := readTree B s 0 TreeHeaderField.kBytes }
  let s ← .get
  let h ← .ofOption (treeHeaderParse s.hdr)
  buffers fun s => { s with treeType := h.dataType }
  pure h

def nodeWrite (offset nodeSize : ℕ) (b : Buf) : Act σ Unit := do
  let s ← .get
  onStore (B.writeStreamRaw s.stream offset b nodeSize)

def headerWrite : Act σ Unit := do
  let s ← .get
  onStore (B.writeStreamRaw s.stream 0 s.hdr TreeHeaderField.kBytes)

/-- `append_node`: room for one more node at the tree's end. -/
def appendNode (parentBlock nodeSize : ℕ) : Act σ ℕ := do
  let s ← .get
  let offset := le 8 s.hdr TreeHeaderField.kMaximumSize
  let end_ := (offset + nodeSize) % 2 ^ 64
  let needed := blocksFor end_ (B.blockSize s.store)
  let covered ← B.streamBlocks
  .when (covered < needed) (B.growTo needed covered)
  buffers fun s => { s with hdr := put 8 s.hdr TreeHeaderField.kMaximumSize end_ }
  buffers fun s => { s with inode := inodeSetStream s.inode s.stream end_ (inodeMtime s.inode) }
  let s ← .get
  onStore (B.writeBlock parentBlock s.inode)
  headerWrite B
  pure offset

/-! ## Inserting -/

/-- `gather`: the entries of a node. -/
def gather (b : Buf) (nodeSize : ℕ) : Option (List Entry) :=
  match nodeInfo b nodeSize with
  | none => none
  | some info => if kMaxNodeEntries < info.count then none else some (nodeEntries b info.count)

/-- The entries of a node that is split, with the new one in its place. -/
def combined (dataType : ℕ) (es : List Entry) (name : Key) (value : ℕ) : ℕ × List Entry :=
  let pos := es.findIdx fun e => keyCompareTyped dataType name e.1 = .lt
  (pos, insertEntryAt es pos (name, value))

/-- The right neighbour of a node that was split gets the new node to its left. -/
def relink (nodeSize oldRight other : ℕ) : Act σ Unit := do
  .when (oldRight ≠ kNullLink ∧ oldRight ≠ kFreeLink) do
    buffers fun s => { s with node := readTree B s oldRight nodeSize }
    buffers fun s => { s with node := put 8 s.node NodeField.kLeftLink other }
    let s ← .get
    nodeWrite B oldRight nodeSize s.node

/-- `split_leaf` of the node in `node_` -/
def splitLeaf (nodeSize offset : ℕ) (name : Key) (value : ℕ) : Act σ TreeSplit := do
  buffers fun s => { s with splitSrc := s.node }
  let s ← .get
  let es ← .ofOption (gather s.splitSrc nodeSize)
  .check (es.length + 1 ≤ kMaxNodeEntries)
  let c := (combined s.treeType es name value).2
  let m := (es.length + 1) / 2
  let oldLeft := le 8 s.splitSrc NodeField.kLeftLink
  let oldRight := le 8 s.splitSrc NodeField.kRightLink
  let other ← appendNode B s.editParent nodeSize
  buffers fun s => { s with fresh := buildNode true oldLeft other kNullLink (c.take m) }
  buffers fun s => { s with work := buildNode true offset oldRight kNullLink (c.drop m) }
  let s ← .get
  nodeWrite B offset nodeSize s.fresh
  nodeWrite B other nodeSize s.work
  relink B nodeSize oldRight other
  pure ⟨(c.getD (m - 1) ([], 0)).1, offset, other⟩

/-- `split_internal` of the node in `parent_`: the child at the new key's place is
    split into `value` and `replaceWith`. -/
def splitInternal (nodeSize offset : ℕ) (name : Key) (value replaceWith : ℕ) : Act σ TreeSplit := do
  buffers fun s => { s with splitSrc := s.parent }
  let s ← .get
  let es ← .ofOption (gather s.splitSrc nodeSize)
  .check (es.length + 1 ≤ kMaxNodeEntries)
  let (pos, c) := combined s.treeType es name value
  let total := es.length + 1
  let overflow := le 8 s.splitSrc NodeField.kOverflowLink
  let (c, overflow) := if pos + 1 ≤ total - 1 then (c.modify (pos + 1) fun e => (e.1, replaceWith), overflow)
    else (c, replaceWith)
  let j := total / 2
  let j := if j < 1 then 1 else j
  let j := if total ≤ j then total - 1 else j
  let oldLeft := le 8 s.splitSrc NodeField.kLeftLink
  let oldRight := le 8 s.splitSrc NodeField.kRightLink
  let other ← appendNode B s.editParent nodeSize
  buffers fun s => { s with
    fresh := buildNode false oldLeft other (c.getD j ([], 0)).2 (c.take j) }
  buffers fun s => { s with work := buildNode false offset oldRight overflow (c.drop (j + 1)) }
  let s ← .get
  nodeWrite B offset nodeSize s.fresh
  nodeWrite B other nodeSize s.work
  relink B nodeSize oldRight other
  pure ⟨(c.getD j ([], 0)).1, offset, other⟩

/-- The node an inner node becomes when its `childIndex`th child was split and it
    has room: the new key in its place, the right half after it. -/
def withRight (b : Buf) (childIndex right : ℕ) : Buf :=
  let count := le 2 b NodeField.kKeyCount
  if childIndex + 1 < count then put 8 b (keyLengthsAt b + count * 2 + (childIndex + 1) * 8) right
  else put 8 b NodeField.kOverflowLink right

/-- `insert_into`: under the node at `offset`; answers how that node was split. -/
def insertInto (nodeSize : ℕ) (name : Key) (value : ℕ) : ℕ → ℕ → Act σ (Option TreeSplit)
  | 0, _ => .fail
  | depth + 1, offset => do
    buffers fun s => { s with node := readTree B s offset nodeSize }
    let s ← .get
    let info ← .ofOption (nodeInfo s.node nodeSize)
    if info.overflow = kNullLink then
      match nodeInsert nodeSize s.treeType s.node name value with
      | none => do
        let split ← splitLeaf B nodeSize offset name value
        pure (some split)
      | some (b, _) => do
        buffers fun s => { s with work := b }
        nodeWrite B offset nodeSize b
        pure none
    else do
      buffers fun s => { s with parent := s.node }
      let (childIndex, child) ← .ofOption
        (childSearch (keyCompareTyped s.treeType name) s.node nodeSize info.count 0)
      match ← insertInto nodeSize name value depth child with
      | none => pure none
      | some split => do
        -- `parent_` is what the recursion left there
        let s ← .get
        match nodeInsert nodeSize s.treeType s.parent split.separator split.left with
        | some (b, _) => do
          let b := withRight b childIndex split.right
          buffers fun s => { s with work := b }
          nodeWrite B offset nodeSize b
          pure none
        | none => do
          let split ← splitInternal B nodeSize offset split.separator split.left split.right
          pure (some split)

/-- `write_new_root`: a root above the two halves of the old one. -/
def writeNewRoot (split : TreeSplit) (nodeSize : ℕ) : Act σ Unit := do
  let s ← .get
  let newRoot ← appendNode B s.editParent nodeSize
  buffers fun s => { s with
    fresh := buildNode false kNullLink kNullLink split.right [(split.separator, split.left)] }
  let s ← .get
  nodeWrite B newRoot nodeSize s.fresh
  buffers fun s => { s with hdr := put 8 s.hdr TreeHeaderField.kRootNode newRoot }
  buffers fun s => { s with
    hdr := put 4 s.hdr TreeHeaderField.kMaxLevels (le 4 s.hdr TreeHeaderField.kMaxLevels + 1) }
  headerWrite B

/-- The insertion of `tree_edit` and `index_insert_blocks`, from the root. -/
def insertRoot (h : TreeHeader) (name : Key) (value : ℕ) : Act σ Unit := do
  match ← insertInto B h.nodeSize name value kTreeDepth h.root with
  | none => pure ()
  | some split => writeNewRoot B split h.nodeSize

/-! ## Removing -/

/-- `remove_into`: answers whether the key was there. -/
def removeInto (nodeSize : ℕ) (name : Key) : ℕ → ℕ → Act σ Bool
  | 0, _ => .fail
  | depth + 1, offset => do
    buffers fun s => { s with node := readTree B s offset nodeSize }
    let s ← .get
    let info ← .ofOption (nodeInfo s.node nodeSize)
    if info.overflow = kNullLink then do
      let (b, present) ← .ofOption (nodeRemove nodeSize s.treeType s.node name)
      buffers fun s => { s with work := b }
      if present then do
        nodeWrite B offset nodeSize b
        pure true
      else pure false
    else do
      let (_, child) ← .ofOption
        (childSearch (keyCompareTyped s.treeType name) s.node nodeSize info.count 0)
      removeInto nodeSize name depth child

/-- `tree_edit`: insert a key or remove it; answers whether it was there. -/
def treeEdit (parentBlock : ℕ) (name : Key) (value : ℕ) (insert : Bool) : Act σ Bool := do
  let h ← treeHeader B parentBlock
  .check (h.nodeSize ≤ kMaxBlockSize && (h.root + h.nodeSize) % 2 ^ 64 ≤ h.maximum)
  buffers fun s => { s with editParent := parentBlock }
  let s ← .get
  if insert then
    if (dirFindIn (readTree B s) name).isSome then pure true
    else do
      insertRoot B h name value
      pure false
  else removeInto B h.nodeSize name kTreeDepth h.root

/-! ## The values under an index's key -/

def duplicateValues (b : Buf) (nodeSize : ℕ) : List ℕ :=
  (List.range (duplicateCount b nodeSize)).map fun i => le 8 b (NodeField.kOverflowLink + 8 + i * 8)

/-- A duplicate node with other values, written over the old ones. -/
def withValues (b : Buf) (values : List ℕ) : Buf :=
  put 8 (putArray 8 b (NodeField.kOverflowLink + 8) values) NodeField.kOverflowLink values.length

/-- The loop of `index_add_value` along the duplicate nodes from `offset`. -/
def addToChain (nodeSize value : ℕ) : ℕ → ℕ → Act σ Unit
  | 0, _ => .fail
  | depth + 1, offset => do
    buffers fun s => { s with node := readTree B s offset nodeSize }
    let s ← .get
    let values := duplicateValues s.node nodeSize
    if values.length < duplicateCapacity nodeSize then do
      let i := values.findIdx fun v => value < v
      buffers fun s => { s with node := withValues s.node (values.take i ++ value :: values.drop i) }
      let s ← .get
      nodeWrite B offset nodeSize s.node
    else
      let right := le 8 s.node NodeField.kRightLink
      if right = kNullLink then do
        let fresh ← appendNode B s.editParent nodeSize
        -- into `node_` as growing the stream left it
        buffers fun s => { s with node := put 8 s.node NodeField.kRightLink fresh }
        let s ← .get
        nodeWrite B offset nodeSize s.node
        buffers fun s => { s with fresh := duplicateBuild offset kNullLink [value] }
        let s ← .get
        nodeWrite B fresh nodeSize s.fresh
      else if right = kFreeLink then .fail
      else addToChain nodeSize value depth right

/-- `index_add_value`: one more value under the `index`th key of `leaf`. -/
def indexAddValue (leaf index oldValue value nodeSize : ℕ) : Act σ Unit := do
  if linkIsDuplicate oldValue then
    if linkType oldValue ≠ kDuplicateNode then .fail
    else addToChain B nodeSize value 4096 (linkOffset oldValue)
  else do
    let s ← .get
    let fresh ← appendNode B s.editParent nodeSize
    let values := if value < oldValue then [value, oldValue] else [oldValue, value]
    buffers fun s => { s with fresh := duplicateBuild kNullLink kNullLink values }
    let s ← .get
    nodeWrite B fresh nodeSize s.fresh
    buffers fun s => { s with node := readTree B s leaf nodeSize }
    let s ← .get
    let b ← .ofOption (nodeSetValue nodeSize s.node index (makeLink kDuplicateNode fresh))
    buffers fun s => { s with work := b }
    nodeWrite B leaf nodeSize b

def freeTreeNode (offset nodeSize : ℕ) : Act σ Unit := do
  buffers fun s => { s with work := readTree B s offset nodeSize }
  buffers fun s => { s with
    work := put 8 (put 8 s.work NodeField.kLeftLink (le 8 s.hdr TreeHeaderField.kFreeNode))
      NodeField.kOverflowLink kFreeLink }
  let s ← .get
  nodeWrite B offset nodeSize s.work
  buffers fun s => { s with hdr := put 8 s.hdr TreeHeaderField.kFreeNode offset }
  headerWrite B

/-- The `index`th value of `leaf`, whose node is in `node_`, becomes `value`. -/
def setLeafValue (leaf nodeSize index value : ℕ) : Act σ Unit := do
  let s ← .get
  let b ← .ofOption (nodeSetValue nodeSize s.node index value)
  buffers fun s => { s with work := b }
  nodeWrite B leaf nodeSize b

/-- The node at `offset` gets another link, at the field `field`. -/
def setLink (offset nodeSize field link : ℕ) : Act σ Unit := do
  buffers fun s => { s with splitSrc := readTree B s offset nodeSize }
  buffers fun s => { s with splitSrc := put 8 s.splitSrc field link }
  let s ← .get
  nodeWrite B offset nodeSize s.splitSrc

/-- The empty duplicate node at `offset` goes out of its chain. -/
def unchain (leaf index : ℕ) (key : Key) (offset previous left right nodeSize : ℕ) : Act σ Unit := do
  if left = kNullLink then do
    buffers fun s => { s with node := readTree B s leaf nodeSize }
    if right = kNullLink then do
      let s ← .get
      let (b, present) ← .ofOption (nodeRemove nodeSize s.treeType s.node key)
      buffers fun s => { s with work := b }
      .when present (nodeWrite B leaf nodeSize b)
    else do
      setLink B right nodeSize NodeField.kLeftLink kNullLink
      setLeafValue B leaf nodeSize index (makeLink kDuplicateNode right)
      freeTreeNode B offset nodeSize
  else do
    setLink B previous nodeSize NodeField.kRightLink right
    .when (right ≠ kNullLink) (setLink B right nodeSize NodeField.kLeftLink left)
    freeTreeNode B offset nodeSize

/-- The duplicate node at `offset`, in `node_` without a value that was taken out of
    it and with `leftCount` left: a lone node of one value becomes a plain value
    again, and an empty node goes. -/
def takeOut (leaf index : ℕ) (key : Key) (nodeSize offset previous leftCount : ℕ) : Act σ Unit := do
  let s ← .get
  let left := le 8 s.node NodeField.kLeftLink
  let right := le 8 s.node NodeField.kRightLink
  if left = kNullLink ∧ right = kNullLink ∧ leftCount = 1 then do
    let remaining := le 8 s.node (NodeField.kOverflowLink + 8)
    buffers fun s => { s with node := readTree B s leaf nodeSize }
    setLeafValue B leaf nodeSize index remaining
    freeTreeNode B offset nodeSize
  else if leftCount = 0 then unchain B leaf index key offset previous left right nodeSize
  else nodeWrite B offset nodeSize s.node

/-- The loop of `index_drop_value` along the duplicate nodes from `offset`; answers
    whether the value was there. -/
def dropFromChain (leaf index : ℕ) (key : Key) (value nodeSize : ℕ) : ℕ → ℕ → ℕ → Act σ Bool
  | 0, _, _ => .fail
  | depth + 1, offset, previous => do
    buffers fun s => { s with node := readTree B s offset nodeSize }
    let s ← .get
    let values := duplicateValues s.node nodeSize
    let i := values.findIdx (· = value)
    if i = values.length then
      let right := le 8 s.node NodeField.kRightLink
      if right = kNullLink then pure false
      else dropFromChain leaf index key value nodeSize depth right offset
    else do
      buffers fun s => { s with node := withValues s.node (values.eraseIdx i) }
      takeOut B leaf index key nodeSize offset previous (values.length - 1)
      pure true

def indexDropValue (leaf index oldValue : ℕ) (key : Key) (value nodeSize : ℕ) : Act σ Bool := do
  if linkType oldValue ≠ kDuplicateNode then .fail
  else dropFromChain B leaf index key value nodeSize 4096 (linkOffset oldValue) kNullLink

/-- The tree of an index, open for editing, and where the descent for `key` ends;
    the nodes it reads into `node_` are read again before they are used. -/
def indexOpen (indexBlock : ℕ) (key : Key) : Act σ (TreeHeader × Descent) := do
  .check (key.length ≠ 0 && key.length ≤ kMaxKeyLength)
  let h ← treeHeader B indexBlock
  .check ((h.root + h.nodeSize) % 2 ^ 64 ≤ h.maximum)
  buffers fun s => { s with editParent := indexBlock }
  let s ← .get
  let d ← .ofOption
    (descendFrom (fun off => readTree B s off h.nodeSize) h.nodeSize s.treeType key 32 h.root)
  pure (h, d)

def indexInsertBlocks (indexBlock : ℕ) (key : Key) (value : ℕ) : Act σ Unit := do
  let (h, d) ← indexOpen B indexBlock key
  match d.entry with
  | none => insertRoot B h key value
  | some (index, oldValue) => indexAddValue B d.leaf index oldValue value h.nodeSize

/-- `index_remove_blocks`: answers whether the value was there. -/
def indexRemoveBlocks (indexBlock : ℕ) (key : Key) (value : ℕ) : Act σ Bool := do
  let (h, d) ← indexOpen B indexBlock key
  match d.entry with
  | none => pure false
  | some (index, oldValue) =>
    if linkIsDuplicate oldValue then indexDropValue B d.leaf index oldValue key value h.nodeSize
    else if oldValue ≠ value then pure false
    else do
      buffers fun s => { s with node := readTree B s d.leaf h.nodeSize }
      let s ← .get
      let (b, present) ← .ofOption (nodeRemove h.nodeSize s.treeType s.node key)
      buffers fun s => { s with work := b }
      if present then do
        nodeWrite B d.leaf h.nodeSize b
        pure true
      else pure false

/-! ## What the tree functions keep

A relation of the store that the layers below keep, every tree function keeps:
elsewhere it only sets buffers. -/

def OnStore (R : σ → σ → Prop) (s s' : Writer σ) : Prop := R s.store s'.store

section
variable {R : σ → σ → Prop} [IsPreorder σ R]

instance : IsPreorder (Writer σ) (OnStore R) where
  refl s := refl_of R s.store
  trans _ _ _ h h' := trans_of R h h'

instance keeps_onStore {m : Fallible σ α} [h : Keeps R m] : Keeps (OnStore R) (onStore m) :=
  ⟨fun s => h.keeps s.store⟩

instance (f : Writer σ → Writer σ) : Keeps (OnStore R) (buffers f) := ⟨fun s => refl_of R s.store⟩

end

section
variable {R : σ → σ → Prop} [IsPreorder σ R]
  [∀ block img, Keeps R (B.writeBlock block img)]
  [∀ stream offset src length, Keeps R (B.writeStreamRaw stream offset src length)]
  [Keeps (OnStore R) B.streamBlocks] [∀ needed covered, Keeps (OnStore R) (B.growTo needed covered)]

instance (block : ℕ) : Keeps (OnStore R) (readInodeBlock B block) := by
  unfold readInodeBlock
  infer_instance

instance (parentBlock : ℕ) : Keeps (OnStore R) (treeHeader B parentBlock) := by
  unfold treeHeader
  with_reducible repeat' first | infer_instance | refine keeps_bind ?_ fun _ => ?_

instance (offset nodeSize : ℕ) (b : Buf) : Keeps (OnStore R) (nodeWrite B offset nodeSize b) := by
  unfold nodeWrite
  infer_instance

instance : Keeps (OnStore R) (headerWrite B) := by
  unfold headerWrite
  infer_instance

instance (parentBlock nodeSize : ℕ) : Keeps (OnStore R) (appendNode B parentBlock nodeSize) := by
  unfold appendNode
  with_reducible repeat' first | infer_instance | refine keeps_bind ?_ fun _ => ?_

instance (nodeSize oldRight other : ℕ) : Keeps (OnStore R) (relink B nodeSize oldRight other) := by
  unfold relink
  infer_instance

instance (nodeSize offset : ℕ) (name : Key) (value : ℕ) : Keeps (OnStore R) (splitLeaf B nodeSize offset name value) := by
  unfold splitLeaf
  with_reducible repeat' first | infer_instance | refine keeps_bind ?_ fun _ => ?_

instance (nodeSize offset : ℕ) (name : Key) (value replaceWith : ℕ) : Keeps (OnStore R) (splitInternal B nodeSize offset name value replaceWith) := by
  unfold splitInternal
  with_reducible repeat' first | infer_instance | refine keeps_bind ?_ fun _ => ?_

instance (nodeSize : ℕ) (name : Key) (value depth offset : ℕ) : Keeps (OnStore R) (insertInto B nodeSize name value depth offset) := by
  induction depth generalizing offset with
  | zero => exact keeps_fail
  | succ depth ih =>
    unfold insertInto
    with_reducible repeat' first | infer_instance | refine keeps_bind ?_ fun _ => ?_ | split

instance (split : TreeSplit) (nodeSize : ℕ) : Keeps (OnStore R) (writeNewRoot B split nodeSize) := by
  unfold writeNewRoot
  with_reducible repeat' first | infer_instance | refine keeps_bind ?_ fun _ => ?_

instance (h : TreeHeader) (name : Key) (value : ℕ) : Keeps (OnStore R) (insertRoot B h name value) := by
  unfold insertRoot
  with_reducible repeat' first | infer_instance | refine keeps_bind ?_ fun _ => ?_ | split

instance (nodeSize : ℕ) (name : Key) (depth offset : ℕ) : Keeps (OnStore R) (removeInto B nodeSize name depth offset) := by
  induction depth generalizing offset with
  | zero => exact keeps_fail
  | succ depth ih =>
    unfold removeInto
    with_reducible repeat' first | infer_instance | refine keeps_bind ?_ fun _ => ?_

instance (parentBlock : ℕ) (name : Key) (value : ℕ) (insert : Bool) : Keeps (OnStore R) (treeEdit B parentBlock name value insert) := by
  unfold treeEdit
  with_reducible repeat' first | infer_instance | refine keeps_bind ?_ fun _ => ?_

instance (nodeSize value depth offset : ℕ) : Keeps (OnStore R) (addToChain B nodeSize value depth offset) := by
  induction depth generalizing offset with
  | zero => exact keeps_fail
  | succ depth ih =>
    unfold addToChain
    dsimp only
    with_reducible repeat' first | infer_instance | refine keeps_bind ?_ fun _ => ?_ | split

instance (leaf index oldValue value nodeSize : ℕ) : Keeps (OnStore R) (indexAddValue B leaf index oldValue value nodeSize) := by
  unfold indexAddValue
  with_reducible repeat' first | infer_instance | refine keeps_bind ?_ fun _ => ?_ | split

instance (offset nodeSize : ℕ) : Keeps (OnStore R) (freeTreeNode B offset nodeSize) := by
  unfold freeTreeNode
  with_reducible repeat' first | infer_instance | refine keeps_bind ?_ fun _ => ?_

instance (leaf nodeSize index value : ℕ) : Keeps (OnStore R) (setLeafValue B leaf nodeSize index value) := by
  unfold setLeafValue
  infer_instance

instance (offset nodeSize field link : ℕ) : Keeps (OnStore R) (setLink B offset nodeSize field link) := by
  unfold setLink
  infer_instance

instance (leaf index : ℕ) (key : Key) (offset previous left right nodeSize : ℕ) : Keeps (OnStore R) (unchain B leaf index key offset previous left right nodeSize) := by
  unfold unchain
  with_reducible repeat' first | infer_instance | split

instance (leaf index : ℕ) (key : Key) (nodeSize offset previous leftCount : ℕ) : Keeps (OnStore R) (takeOut B leaf index key nodeSize offset previous leftCount) := by
  unfold takeOut
  dsimp only
  infer_instance

instance (leaf index : ℕ) (key : Key) (value nodeSize depth offset previous : ℕ) : Keeps (OnStore R) (dropFromChain B leaf index key value nodeSize depth offset previous) := by
  induction depth generalizing offset previous with
  | zero => exact keeps_fail
  | succ depth ih =>
    unfold dropFromChain
    dsimp only
    infer_instance

instance (leaf index oldValue : ℕ) (key : Key) (value nodeSize : ℕ) : Keeps (OnStore R) (indexDropValue B leaf index oldValue key value nodeSize) := by
  unfold indexDropValue
  infer_instance

instance (indexBlock : ℕ) (key : Key) : Keeps (OnStore R) (indexOpen B indexBlock key) := by
  unfold indexOpen
  with_reducible repeat' first | infer_instance | refine keeps_bind ?_ fun _ => ?_

instance (indexBlock : ℕ) (key : Key) (value : ℕ) : Keeps (OnStore R) (indexInsertBlocks B indexBlock key value) := by
  unfold indexInsertBlocks
  with_reducible repeat' first | infer_instance | refine keeps_bind ?_ fun _ => ?_ | split

instance (indexBlock : ℕ) (key : Key) (value : ℕ) : Keeps (OnStore R) (indexRemoveBlocks B indexBlock key value) := by
  unfold indexRemoveBlocks
  with_reducible repeat' first | infer_instance | refine keeps_bind ?_ fun _ => ?_ | split

end

end Writer

end Aegir.Bfs
