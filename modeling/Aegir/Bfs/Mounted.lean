/-
  The writer on a mounted volume: its layers below are the journal, the allocator,
  the data streams and the trees of the source.
-/
import Aegir.Bfs.Session
import Aegir.Bfs.Transaction
import Aegir.Bfs.Writer

namespace Aegir.Bfs

open Aegir.Lib Aegir.Lib.Buf Aegir.Lib.Fallible

/-! ## An empty directory -/

def isDotName (key : Key) : Bool := key == [46] || key == [46, 46]

/-- The entries of the leaves from `offset` on, up to `count` of them before, and
    whether all are dot names. -/
def countEntries (w : World) (dir : Inode) (nodeSize maximum : ℕ) : ℕ → ℕ → ℕ → Bool → Option (ℕ × Bool)
  | 0, _, entries, ok => some (entries, ok)
  | fuel + 1, offset, entries, ok =>
    if maximum < (offset + nodeSize) % 2 ^ 64 then some (entries, ok) else
    let tree := readStream w dir.data offset nodeSize
    if le 8 tree NodeField.kOverflowLink ≠ kNullLink then none else
    match (List.range (le 2 tree NodeField.kKeyCount)).mapM (nodeEntry tree nodeSize) with
    | none => none
    | some es =>
      let entries := entries + es.length
      let ok := ok && es.all fun e => isDotName e.1
      let right := le 8 tree NodeField.kRightLink
      if right = kNullLink ∨ right = kFreeLink then some (entries, ok)
      else countEntries w dir nodeSize maximum fuel right entries ok

/-- `dir_is_empty`, from the directory's inode on. -/
def dirIsEmpty (w : World) (dir : Inode) : Bool :=
  match nodeHeader w dir with
  | none => false
  | some h =>
    match leftmost w dir h.nodeSize h.maximum 16 h.root with
    | none => false
    | some offset =>
      match countEntries w dir h.nodeSize h.maximum (h.maximum / h.nodeSize + 2) offset 0 true with
      | none => false
      | some (entries, ok) => ok && entries == 2

/-! ## The layers -/

namespace Session

def lift {α : Type} (m : M α) : Fallible Session α := fun s =>
  ((m s.world).1, { s with world := (m s.world).2 })

def begin : Fallible Session Unit := fun s =>
  ((Journal.begin s.world).1, ⟨(Journal.begin s.world).2, []⟩)

end Session

open Writer in
def layers : Lower Session where
  geometry s := s.world.vol.toGeometry
  root s := s.world.vol.root
  indices s := s.world.vol.indices
  readBlock s block := readBlock s.world block
  readStream s inode offset length := readStream s.world inode.data offset length
  dirFind s inode name := dirFind s.world inode name
  dirEmpty s inode := dirIsEmpty s.world inode
  active s := s.world.jnl.active
  begin := onStore Session.begin
  finish ok := onStore (Session.lift (finish ok))
  allocate := Writer.allocate
  free := Writer.free
  writeBlock := Writer.writeBlock
  treeEdit := Writer.treeEdit streams
  indexInsertBlocks := Writer.indexInsertBlocks streams
  indexRemoveBlocks := Writer.indexRemoveBlocks streams
  streamBlocks := streamBlocks
  growTo := growTo
  trimStream := trimStream
  freeStream := freeStream
  zeroRange := zeroRange
  writeStreamDirect offset src length := do
    let s ← .get
    onStore (Session.writeStreamDirect s.stream offset src length)
  writeTree es := do
    let s ← .get
    onStore (Session.writeStreamRaw s.stream 0 (buildTree es) (kTreeNodeSize * 2))

open Session Writer

instance (block : ℕ) (img : Buf) : Keeps Issues (streams.writeBlock block img) :=
  inferInstanceAs (Keeps Issues (Session.writeBlock block img))

instance (stream : Buf) (offset : ℕ) (src : Buf) (length : ℕ) :
    Keeps Issues (streams.writeStreamRaw stream offset src length) :=
  inferInstanceAs (Keeps Issues (Session.writeStreamRaw stream offset src length))

instance : Keeps (OnStore Issues) streams.streamBlocks :=
  inferInstanceAs (Keeps (OnStore Issues) Writer.streamBlocks)

instance (needed covered : ℕ) : Keeps (OnStore Issues) (streams.growTo needed covered) :=
  inferInstanceAs (Keeps (OnStore Issues) (Writer.growTo needed covered))

/-- **Every operation works by calls**: the world it leaves is the world its calls
    make. -/
instance : layers.Steady Issues where
  allocate _ _ := inferInstanceAs (Keeps _ (Writer.allocate _ _))
  free _ := inferInstanceAs (Keeps _ (Writer.free _))
  writeBlock _ _ := inferInstanceAs (Keeps _ (Writer.writeBlock _ _))
  treeEdit _ _ _ _ := inferInstanceAs (Keeps _ (Writer.treeEdit _ _ _ _ _))
  indexInsertBlocks _ _ _ := inferInstanceAs (Keeps _ (Writer.indexInsertBlocks _ _ _ _))
  indexRemoveBlocks _ _ _ := inferInstanceAs (Keeps _ (Writer.indexRemoveBlocks _ _ _ _))
  streamBlocks := inferInstanceAs (Keeps _ Writer.streamBlocks)
  growTo _ _ := inferInstanceAs (Keeps _ (Writer.growTo _ _))
  trimStream _ := inferInstanceAs (Keeps _ (Writer.trimStream _))
  freeStream := inferInstanceAs (Keeps _ Writer.freeStream)
  zeroRange _ _ := inferInstanceAs (Keeps _ (Writer.zeroRange _ _))
  writeStreamDirect _ _ _ := keeps_bind keeps_get fun _ => inferInstance
  writeTree _ := keeps_bind keeps_get fun _ => inferInstance

end Aegir.Bfs
