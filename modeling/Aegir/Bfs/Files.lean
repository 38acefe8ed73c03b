/-
  A volume as the writer's operations see it: inodes, the trees of directories, the
  pairs of indices and the bytes of streams, without the blocks and nodes that the
  layers below keep them in.

  What those layers decide for themselves, a `Decision` says: whether a call is
  refused, which run is allocated, and what a stream that grew or shrank looks like
  in its inode.  The decisions are any sequence of them, so what holds for `files`
  holds however the layers below decide.
-/
import Aegir.Bfs.Mounted

namespace Aegir.Bfs

open Aegir.Lib Aegir.Lib.Buf Aegir.Lib.Fallible

structure Contents where
  /-- what the inode blocks hold -/
  image : ℕ → Buf
  /-- the blocks of inodes, and the runs of an operation that is under way -/
  taken : ℕ → Bool
  /-- the entries of an inode's stream, when its bytes are a tree -/
  tree : ℕ → Option (List Entry)
  /-- the pairs of an index -/
  pairs : ℕ → List Entry
  /-- the bytes of an inode's stream -/
  bytes : ℕ → Buf

/-- What the layers below decide in one call. -/
structure Decision where
  refuse : Bool
  run : Run
  /-- a stream that changed, and its size -/
  stream : Buf
  size : ℕ
  /-- what the bytes written into a stream are as a tree -/
  tree : Option (List Entry)

/-- A volume, and the transaction that is open on it: what was there when it began,
    and the inodes whose bytes were written past the journal since. -/
structure Files extends Contents where
  geometry : Geometry
  root : Run
  indices : Run
  decisions : ℕ → Decision
  asked : ℕ
  active : Bool
  saved : Contents
  direct : List ℕ

namespace Files

def runBlocks (g : Geometry) (r : Run) : List ℕ := (List.range r.length).map (g.toBlock r + ·)

def bump (s : Writer Files) : Writer Files :=
  { s with store := { s.store with asked := s.store.asked + 1 } }

def call {α : Type} (f : Decision → Writer Files → Option (α × Writer Files)) : Act Files α := fun s =>
  let d := s.store.decisions s.store.asked
  if d.refuse then (none, bump s) else
  match f d (bump s) with
  | some (a, s') => (some a, s')
  | none => (none, bump s)

/-- Change what is there. -/
def put (s : Writer Files) (f : Contents → Contents) : Writer Files :=
  { s with store := { s.store with toContents := f s.store.toContents } }

/-- The buffers hold something else after a call. -/
def scratch (s : Writer Files) (d : Decision) : Writer Files :=
  { s with inode := d.stream, stream := d.stream, node := d.stream, work := d.stream }

def restream (b : Buf) (d : Decision) : Buf := inodeSetStream b d.stream d.size (inodeMtime b)

/-- The block of the inode in `inode_`. -/
def inodeBlock (s : Writer Files) : ℕ := s.store.geometry.toBlock (leRun s.inode InodeField.kInodeNum)

/-- `read_inode_block` takes it. -/
def inUse (b : Buf) : Bool :=
  le 4 b InodeField.kMagic1 == kInodeMagic1 && le 4 b InodeField.kFlags &&& kInodeInUse != 0

open Function (update)

def allocate (maxBlocks minBlocks : ℕ) : Act Files Run := call fun d s =>
  let r := d.run
  if r.length ≤ maxBlocks ∧ minBlocks ≤ r.length ∧ r.allocationGroup < 2 ^ 32 ∧ r.start < 2 ^ 16 ∧
      r.length < 2 ^ 16 ∧ s.store.geometry.validateRun r ∧
      ∀ b ∈ runBlocks s.store.geometry r, s.store.taken b = false then
    some (r, put s fun c => { c with
      taken := fun b => c.taken b || decide (b ∈ runBlocks s.store.geometry r) })
  else none

def free (r : Run) : Act Files Unit := call fun _ s =>
  some ((), put s fun c => { c with
    taken := fun b => c.taken b && decide (b ∉ runBlocks s.store.geometry r) })

def writeBlock (block : ℕ) (img : Buf) : Act Files Unit := call fun _ s =>
  some ((), put s fun c => { c with image := update c.image block img })

/-- The entries of the tree in an inode's stream, for an edit. -/
def entriesOf (s : Writer Files) (block : ℕ) : Option (List Entry) :=
  if inUse (s.store.image block) then s.store.tree block else none

def treeEdit (block : ℕ) (name : Key) (value : ℕ) (insert : Bool) : Act Files Bool := call fun d s =>
  (entriesOf s block).map fun es =>
    let present := (es.lookup name).isSome
    let c := fun c : Contents =>
      if insert then
        if present then c else { c with
          tree := update c.tree block (some ((name, value) :: es))
          image := update c.image block (restream (c.image block) d) }
      else { c with tree := update c.tree block (some (es.filter fun e => e.1 ≠ name)) }
    (present, scratch (put s c) d)

def indexInsertBlocks (block : ℕ) (key : Key) (value : ℕ) : Act Files Unit := call fun d s =>
  if key.length ≠ 0 ∧ key.length ≤ kMaxKeyLength then
    some ((), scratch (put s fun c => { c with
      pairs := update c.pairs block ((key, value) :: c.pairs block)
      image := update c.image block (restream (c.image block) d) }) d)
  else none

def indexRemoveBlocks (block : ℕ) (key : Key) (value : ℕ) : Act Files Bool := call fun d s =>
  if key.length ≠ 0 ∧ key.length ≤ kMaxKeyLength then
    some (decide ((key, value) ∈ s.store.pairs block), scratch (put s fun c => { c with
      pairs := update c.pairs block ((c.pairs block).erase (key, value)) }) d)
  else none

/-- A walk along the stream; it answers how many blocks it covers. -/
def streamBlocks : Act Files ℕ := call fun d s => some (d.size, { s with node := d.stream, work := d.stream })

def freeStream : Act Files Unit := call fun d s => some ((), { s with node := d.stream, work := d.stream })

/-- A function that changes the stream in `stream_`. -/
def changeStream : Act Files Unit := call fun d s =>
  some ((), { s with stream := d.stream, node := d.stream, work := d.stream })

def writeBytes (offset : ℕ) (src : Buf) (length : ℕ) : Act Files Unit := call fun d s =>
  let b := inodeBlock s
  let s := put s fun c => { c with
    bytes := update c.bytes b (blit (c.bytes b) offset src length), tree := update c.tree b d.tree }
  some ((), { s with store := { s.store with direct := b :: s.store.direct } })

/-- The first run of the stream becomes a tree, and the stream's own. -/
def writeTree (es : List Entry) : Act Files Unit := call fun _ s =>
  let r := leRun s.stream DataField.kDirect
  some ((), put s fun c => { c with
    tree := update c.tree (inodeBlock s) (some es)
    taken := fun b => c.taken b && decide (b ∉ runBlocks s.store.geometry r) })

/-- What was there at the transaction's begin, but for the bytes written since. -/
def restored (s : Files) : Contents :=
  { s.saved with
    bytes := s.bytes, tree := fun b => if b ∈ s.direct then s.tree b else s.saved.tree b }

def begin : Act Files Unit := fun s =>
  (some (), { s with store := { s.store with active := true, saved := s.store.toContents, direct := [] } })

def finish (ok : Bool) : Act Files Unit := fun s =>
  let d := s.store.decisions s.store.asked
  let f := { s.store with asked := s.store.asked + 1, active := false }
  if ok && !d.refuse then (some (), { s with store := f })
  else (none, { s with store := { f with toContents := restored s.store } })

end Files

/-- The layers below the operations, on a volume taken as its files. -/
def files : Lower Files where
  geometry s := s.geometry
  root s := s.root
  indices s := s.indices
  readBlock s block := s.image block
  readStream s inode offset _ := slice (s.bytes (s.geometry.toBlock inode.run)) offset
  dirFind s inode name := (s.tree (s.geometry.toBlock inode.run)).bind fun es => es.lookup name
  dirEmpty s inode := match s.tree (s.geometry.toBlock inode.run) with
    | some es => es.length == 2 && es.all fun e => isDotName e.1
    | none => false
  active s := s.active
  begin := Files.begin
  finish := Files.finish
  allocate := Files.allocate
  free := Files.free
  writeBlock := Files.writeBlock
  treeEdit := Files.treeEdit
  indexInsertBlocks := Files.indexInsertBlocks
  indexRemoveBlocks := Files.indexRemoveBlocks
  streamBlocks := Files.streamBlocks
  growTo _ _ := Files.changeStream
  trimStream _ := Files.changeStream
  freeStream := Files.freeStream
  zeroRange lo hi := Files.writeBytes lo zero (hi - lo)
  writeStreamDirect := Files.writeBytes
  writeTree := Files.writeTree

namespace Files

/-! ## Calls -/

theorem call_cases {α : Type} (f : Decision → Writer Files → Option (α × Writer Files)) (s : Writer Files) :
    call f s = (none, bump s) ∨ ∃ d a s', f d (bump s) = some (a, s') ∧ call f s = (some a, s') := by
  unfold call
  dsimp only
  split
  · exact Or.inl rfl
  · rcases hf : f _ (bump s) with _ | ⟨a, s'⟩
    · exact Or.inl rfl
    · exact Or.inr ⟨_, a, s', hf, rfl⟩

theorem call_some {α : Type} {f : Decision → Writer Files → Option (α × Writer Files)} {s s' : Writer Files}
    {a : α} (h : call f s = (some a, s')) : ∃ d, f d (bump s) = some (a, s') := by
  rcases call_cases f s with hn | ⟨d, a', s'', hf, hc⟩
  · rw [hn] at h; cases h
  · rw [hc] at h; cases h; exact ⟨d, hf⟩

theorem readInodeBlock_run (block : ℕ) (s : Writer Files) : files.readInodeBlock block s =
    (if inUse (s.store.image block) then some () else none, { s with inode := s.store.image block }) := by
  unfold Lower.readInodeBlock
  rw [get_bind_run]
  show (check (inUse (s.store.image block)) : Act Files Unit) { s with inode := s.store.image block } = _
  unfold check
  split <;> rfl

theorem readInodeBlock_some {block : ℕ} {s s' : Writer Files} {u : Unit}
    (h : files.readInodeBlock block s = (some u, s')) :
    inUse (s.store.image block) = true ∧ s' = { s with inode := s.store.image block } := by
  rw [readInodeBlock_run] at h
  split at h
  · cases h; exact ⟨‹_›, rfl⟩
  · cases h

theorem readInodeBlock_some' {block : ℕ} {s s' : Writer Files} {u : Unit}
    (h : files.readInodeBlock block s = (some u, s')) :
    inUse (s.store.image block) = true ∧ s'.store = s.store ∧ s'.inode = s.store.image block := by
  obtain ⟨huse, rfl⟩ := readInodeBlock_some h
  exact ⟨huse, rfl, rfl⟩

theorem setInode_bind_some {α : Type} {f : Writer Files → Buf} {k : Unit → Act Files α} {s s' : Writer Files}
    {a : α} (h : (Writer.buffers (fun s => { s with inode := f s }) >>= k) s = (some a, s')) :
    ∃ s₁, s₁.store = s.store ∧ s₁.inode = f s ∧ s₁.stream = s.stream ∧ k () s₁ = (some a, s') :=
  ⟨{ s with inode := f s }, rfl, rfl, rfl, h⟩

theorem writeBlock_cases (block : ℕ) (img : Buf) (s : Writer Files) :
    files.writeBlock block img s = (none, bump s) ∨ files.writeBlock block img s = (some (),
      put (bump s) fun c => { c with image := Function.update c.image block img }) := by
  rcases call_cases (fun _ s => some ((), put s fun c => { c with
      image := Function.update c.image block img })) s with h | ⟨d, a, s', hf, hc⟩
  · exact Or.inl h
  · cases hf; exact Or.inr hc

/-! What a call that answered has done. -/

/-- What no call changes. -/
structure Fixed (s s' : Files) : Prop where
  geometry : s'.geometry = s.geometry
  root : s'.root = s.root
  indices : s'.indices = s.indices
  active : s'.active = s.active
  saved : s'.saved = s.saved

instance : IsPreorder Files Fixed where
  refl _ := ⟨rfl, rfl, rfl, rfl, rfl⟩
  trans := by
    rintro s s' s'' ⟨h₁, h₂, h₃, h₄, h₅⟩ ⟨h₁', h₂', h₃', h₄', h₅'⟩
    exact ⟨h₁'.trans h₁, h₂'.trans h₂, h₃'.trans h₃, h₄'.trans h₄, h₅'.trans h₅⟩

/-- A call that answered: what is there now, with the buffers of the inode as before. -/
structure Called (s s' : Writer Files) (c : Contents) : Prop where
  contents : s'.store.toContents = c
  fixed : Fixed s.store s'.store
  direct : s'.store.direct = s.store.direct
  inode : s'.inode = s.inode
  stream : s'.stream = s.stream

section
variable {s s' : Writer Files} {u : Unit}

theorem allocate_some {maxBlocks minBlocks : ℕ} {r : Run}
    (h : files.allocate maxBlocks minBlocks s = (some r, s')) :
    r.length ≤ maxBlocks ∧ minBlocks ≤ r.length ∧ r.Fits ∧ s.store.geometry.validateRun r = true ∧
      (∀ b ∈ runBlocks s.store.geometry r, s.store.taken b = false) ∧
      Called s s' { s.store.toContents with
        taken := fun b => s.store.taken b || decide (b ∈ runBlocks s.store.geometry r) } := by
  change Files.allocate maxBlocks minBlocks s = _ at h
  obtain ⟨d, h⟩ := call_some h
  dsimp only at h
  split at h
  · obtain ⟨h₁, h₂, h₃, h₄, h₅, h₆, h₇⟩ := ‹_ ∧ _›
    cases h
    exact ⟨h₁, h₂, ⟨h₃, h₄, h₅⟩, h₆, h₇, rfl, ⟨rfl, rfl, rfl, rfl, rfl⟩, rfl, rfl, rfl⟩
  · cases h

theorem free_some {r : Run} (h : files.free r s = (some u, s')) :
    Called s s' { s.store.toContents with
      taken := fun b => s.store.taken b && decide (b ∉ runBlocks s.store.geometry r) } := by
  change Files.free r s = _ at h
  obtain ⟨d, h⟩ := call_some h
  cases h
  exact ⟨rfl, ⟨rfl, rfl, rfl, rfl, rfl⟩, rfl, rfl, rfl⟩

theorem writeBlock_some {block : ℕ} {img : Buf} (h : files.writeBlock block img s = (some u, s')) :
    Called s s' { s.store.toContents with image := Function.update s.store.image block img } := by
  change Files.writeBlock block img s = _ at h
  obtain ⟨d, h⟩ := call_some h
  cases h
  exact ⟨rfl, ⟨rfl, rfl, rfl, rfl, rfl⟩, rfl, rfl, rfl⟩

theorem treeEdit_insert_some {block : ℕ} {name : Key} {value : ℕ} {present : Bool}
    (h : files.treeEdit block name value true s = (some present, s')) :
    ∃ es, inUse (s.store.image block) = true ∧ s.store.tree block = some es ∧
      present = (es.lookup name).isSome ∧ Fixed s.store s'.store ∧
      (present = false → ∃ d, s'.store.toContents = { s.store.toContents with
          tree := Function.update s.store.tree block (some ((name, value) :: es))
          image := Function.update s.store.image block (restream (s.store.image block) d) }) := by
  change Files.treeEdit block name value true s = _ at h
  obtain ⟨d, h⟩ := call_some h
  obtain ⟨es, he, h⟩ := Option.map_eq_some_iff.mp h
  unfold entriesOf at he
  split at he
  · cases h
    refine ⟨es, ‹_›, he, rfl, ⟨rfl, rfl, rfl, rfl, rfl⟩, fun hp => ⟨d, ?_⟩⟩
    simp only [scratch, put, hp, if_true, Bool.false_eq_true, if_false]
    rfl
  · cases he

theorem treeEdit_remove_some {block : ℕ} {name : Key} {value : ℕ} {present : Bool}
    (h : files.treeEdit block name value false s = (some present, s')) :
    ∃ es, inUse (s.store.image block) = true ∧ s.store.tree block = some es ∧
      present = (es.lookup name).isSome ∧ Fixed s.store s'.store ∧
      s'.store.toContents = { s.store.toContents with
        tree := Function.update s.store.tree block (some (es.filter fun e => e.1 ≠ name)) } := by
  change Files.treeEdit block name value false s = _ at h
  obtain ⟨d, h⟩ := call_some h
  obtain ⟨es, he, h⟩ := Option.map_eq_some_iff.mp h
  unfold entriesOf at he
  split at he
  · cases h
    exact ⟨es, ‹_›, he, rfl, ⟨rfl, rfl, rfl, rfl, rfl⟩, rfl⟩
  · cases he

theorem indexInsertBlocks_some {block : ℕ} {key : Key} {value : ℕ}
    (h : files.indexInsertBlocks block key value s = (some u, s')) :
    Fixed s.store s'.store ∧ ∃ d, s'.store.toContents = { s.store.toContents with
      pairs := Function.update s.store.pairs block ((key, value) :: s.store.pairs block)
      image := Function.update s.store.image block (restream (s.store.image block) d) } := by
  change Files.indexInsertBlocks block key value s = _ at h
  obtain ⟨d, h⟩ := call_some h
  split at h
  · cases h
    exact ⟨⟨rfl, rfl, rfl, rfl, rfl⟩, d, rfl⟩
  · cases h

theorem indexRemoveBlocks_some {block : ℕ} {key : Key} {value : ℕ} {removed : Bool}
    (h : files.indexRemoveBlocks block key value s = (some removed, s')) :
    Fixed s.store s'.store ∧ s'.store.toContents = { s.store.toContents with
      pairs := Function.update s.store.pairs block ((s.store.pairs block).erase (key, value)) } := by
  change Files.indexRemoveBlocks block key value s = _ at h
  obtain ⟨d, h⟩ := call_some h
  split at h
  · cases h
    exact ⟨⟨rfl, rfl, rfl, rfl, rfl⟩, rfl⟩
  · cases h

theorem streamBlocks_some {n : ℕ} (h : files.streamBlocks s = (some n, s')) :
    Called s s' s.store.toContents := by
  change Files.streamBlocks s = _ at h
  obtain ⟨d, h⟩ := call_some h
  cases h
  exact ⟨rfl, ⟨rfl, rfl, rfl, rfl, rfl⟩, rfl, rfl, rfl⟩

theorem freeStream_some (h : files.freeStream s = (some u, s')) :
    Called s s' s.store.toContents := by
  change Files.freeStream s = _ at h
  obtain ⟨d, h⟩ := call_some h
  cases h
  exact ⟨rfl, ⟨rfl, rfl, rfl, rfl, rfl⟩, rfl, rfl, rfl⟩

theorem changeStream_some (h : Files.changeStream s = (some u, s')) :
    s'.store.toContents = s.store.toContents ∧ Fixed s.store s'.store ∧
      s'.store.direct = s.store.direct ∧ s'.inode = s.inode := by
  obtain ⟨d, h⟩ := call_some h
  cases h
  exact ⟨rfl, ⟨rfl, rfl, rfl, rfl, rfl⟩, rfl, rfl⟩

theorem writeBytes_some {offset length : ℕ} {src : Buf}
    (h : Files.writeBytes offset src length s = (some u, s')) :
    ∃ t, s'.store.toContents = { s.store.toContents with
        bytes := Function.update s.store.bytes (inodeBlock s)
          (blit (s.store.bytes (inodeBlock s)) offset src length)
        tree := Function.update s.store.tree (inodeBlock s) t } ∧
      Fixed s.store s'.store ∧ s'.inode = s.inode ∧ s'.stream = s.stream := by
  obtain ⟨d, h⟩ := call_some h
  cases h
  exact ⟨d.tree, rfl, ⟨rfl, rfl, rfl, rfl, rfl⟩, rfl, rfl⟩

theorem writeTree_some {es : List Entry} (h : files.writeTree es s = (some u, s')) :
    Called s s' { s.store.toContents with
      tree := Function.update s.store.tree (inodeBlock s) (some es)
      taken := fun b => s.store.taken b &&
        decide (b ∉ runBlocks s.store.geometry (leRun s.stream DataField.kDirect)) } := by
  change Files.writeTree es s = _ at h
  obtain ⟨d, h⟩ := call_some h
  cases h
  exact ⟨rfl, ⟨rfl, rfl, rfl, rfl, rfl⟩, rfl, rfl, rfl⟩

end

/-! ## Transactions -/

open Writer (OnStore)

theorem keeps_call {α : Type} {R : Files → Files → Prop} [IsPreorder Files R]
    {f : Decision → Writer Files → Option (α × Writer Files)}
    (hb : ∀ s, R s.store (bump s).store) (h : ∀ d s a s', f d s = some (a, s') → R s.store s'.store) :
    Keeps (OnStore R) (call f) := by
  constructor
  intro s
  rcases call_cases f s with hr | ⟨d, a, s', hf, hr⟩
  · rw [hr]; exact hb s
  · rw [hr]; exact trans_of R (hb s) (h d _ a s' hf)

theorem bump_fixed (s : Writer Files) : Fixed s.store (bump s).store := ⟨rfl, rfl, rfl, rfl, rfl⟩

instance (maxBlocks minBlocks : ℕ) : Keeps (OnStore Fixed) (allocate maxBlocks minBlocks) := by
  refine keeps_call bump_fixed fun d s a s' h => ?_
  dsimp only at h
  split at h
  · cases h; exact ⟨rfl, rfl, rfl, rfl, rfl⟩
  · cases h

instance (r : Run) : Keeps (OnStore Fixed) (free r) :=
  keeps_call bump_fixed fun d s a s' h => by cases h; exact ⟨rfl, rfl, rfl, rfl, rfl⟩

instance (block : ℕ) (img : Buf) : Keeps (OnStore Fixed) (writeBlock block img) :=
  keeps_call bump_fixed fun d s a s' h => by cases h; exact ⟨rfl, rfl, rfl, rfl, rfl⟩

instance (block : ℕ) (name : Key) (value : ℕ) (insert : Bool) :
    Keeps (OnStore Fixed) (treeEdit block name value insert) := by
  refine keeps_call bump_fixed fun d s a s' h => ?_
  rcases he : entriesOf s block with _ | es
  · rw [he] at h; cases h
  · rw [he] at h; cases h; exact ⟨rfl, rfl, rfl, rfl, rfl⟩

instance (block : ℕ) (key : Key) (value : ℕ) : Keeps (OnStore Fixed) (indexInsertBlocks block key value) := by
  refine keeps_call bump_fixed fun d s a s' h => ?_
  split at h
  · cases h; exact ⟨rfl, rfl, rfl, rfl, rfl⟩
  · cases h

instance (block : ℕ) (key : Key) (value : ℕ) : Keeps (OnStore Fixed) (indexRemoveBlocks block key value) := by
  refine keeps_call bump_fixed fun d s a s' h => ?_
  split at h
  · cases h; exact ⟨rfl, rfl, rfl, rfl, rfl⟩
  · cases h

instance : Keeps (OnStore Fixed) streamBlocks :=
  keeps_call bump_fixed fun d s a s' h => by cases h; exact ⟨rfl, rfl, rfl, rfl, rfl⟩

instance : Keeps (OnStore Fixed) freeStream :=
  keeps_call bump_fixed fun d s a s' h => by cases h; exact ⟨rfl, rfl, rfl, rfl, rfl⟩

instance : Keeps (OnStore Fixed) changeStream :=
  keeps_call bump_fixed fun d s a s' h => by cases h; exact ⟨rfl, rfl, rfl, rfl, rfl⟩

instance (offset : ℕ) (src : Buf) (length : ℕ) : Keeps (OnStore Fixed) (writeBytes offset src length) :=
  keeps_call bump_fixed fun d s a s' h => by cases h; exact ⟨rfl, rfl, rfl, rfl, rfl⟩

instance (es : List Entry) : Keeps (OnStore Fixed) (writeTree es) :=
  keeps_call bump_fixed fun d s a s' h => by cases h; exact ⟨rfl, rfl, rfl, rfl, rfl⟩

instance : files.Steady Fixed where
  allocate _ _ := inferInstanceAs (Keeps _ (Files.allocate _ _))
  free _ := inferInstanceAs (Keeps _ (Files.free _))
  writeBlock _ _ := inferInstanceAs (Keeps _ (Files.writeBlock _ _))
  treeEdit _ _ _ _ := inferInstanceAs (Keeps _ (Files.treeEdit _ _ _ _))
  indexInsertBlocks _ _ _ := inferInstanceAs (Keeps _ (Files.indexInsertBlocks _ _ _))
  indexRemoveBlocks _ _ _ := inferInstanceAs (Keeps _ (Files.indexRemoveBlocks _ _ _))
  streamBlocks := inferInstanceAs (Keeps _ Files.streamBlocks)
  growTo _ _ := inferInstanceAs (Keeps _ Files.changeStream)
  trimStream _ := inferInstanceAs (Keeps _ Files.changeStream)
  freeStream := inferInstanceAs (Keeps _ Files.freeStream)
  zeroRange _ _ := inferInstanceAs (Keeps _ (Files.writeBytes _ _ _))
  writeStreamDirect _ _ _ := inferInstanceAs (Keeps _ (Files.writeBytes _ _ _))
  writeTree _ := inferInstanceAs (Keeps _ (Files.writeTree _))

/-- The state in which a transaction's work starts. -/
def begun (s : Writer Files) : Writer Files :=
  { s with store := { s.store with active := true, saved := s.store.toContents, direct := [] } }

/-- The volume is the same one. -/
structure SameVolume (s s' : Files) : Prop where
  geometry : s'.geometry = s.geometry
  root : s'.root = s.root
  indices : s'.indices = s.indices

theorem transaction_eq {α : Type} (m : Act Files α) (s : Writer Files) (ha : s.store.active = false) :
    files.transaction m s = match finish (m (begun s)).1.isSome (m (begun s)).2 with
      | (some _, s') => ((m (begun s)).1, s')
      | (none, s') => (none, s') := by
  have hactive : (!files.active s.store) = true := by
    show (!s.store.active) = true
    rw [ha]
    rfl
  have hwork : m.attempt (begun s) = (some (m (begun s)).1, (m (begun s)).2) := rfl
  have hbegin : files.begin s = (some (), begun s) := rfl
  rw [Lower.transaction, get_bind_run, hactive, bind_of_some (m := .check true) rfl,
    bind_of_some hbegin, bind_of_some hwork, bind_run]
  show _ = match files.finish (m (begun s)).1.isSome (m (begun s)).2 with
    | (some _, s') => ((m (begun s)).1, s')
    | (none, s') => (none, s')
  rcases files.finish (m (begun s)).1.isSome (m (begun s)).2 with ⟨_ | _, s'⟩
  · rfl
  · rcases (m (begun s)).1 with _ | _ <;> rfl

/-- **A transaction** either leaves what its work left, or what was there before, but
    for the bytes that were written past the journal. -/
theorem transaction_cases {α : Type} (m : Act Files α) [Keeps (OnStore Fixed) m] (s : Writer Files)
    (ha : s.store.active = false) :
    SameVolume s.store (files.transaction m s).2.store ∧
    (files.transaction m s).2.store.active = false ∧
    ((∃ a s₁, m (begun s) = (some a, s₁) ∧ (files.transaction m s).1 = some a ∧
        (files.transaction m s).2.store.toContents = s₁.store.toContents) ∨
      ((files.transaction m s).1 = none ∧
        (files.transaction m s).2.store.toContents = { s.store.toContents with
          bytes := (m (begun s)).2.store.bytes
          tree := fun b => if b ∈ (m (begun s)).2.store.direct then (m (begun s)).2.store.tree b
            else s.store.tree b })) := by
  have hm : Fixed (begun s).store (m (begun s)).2.store := Keeps.keeps (R := OnStore Fixed) (m := m) (begun s)
  have hsame : SameVolume s.store (m (begun s)).2.store := ⟨hm.geometry, hm.root, hm.indices⟩
  have hsaved : (m (begun s)).2.store.saved = s.store.toContents := hm.saved
  rw [transaction_eq m s ha]
  rcases hr : m (begun s) with ⟨a, s₁⟩
  rw [hr] at hsame hsaved
  dsimp only at hsame hsaved ⊢
  unfold finish
  dsimp only
  by_cases hok : (a.isSome && !(s₁.store.decisions s₁.store.asked).refuse) = true
  · rw [if_pos hok]
    rcases a with _ | a
    · cases hok
    · exact ⟨⟨hsame.geometry, hsame.root, hsame.indices⟩, rfl, Or.inl ⟨a, s₁, rfl, rfl, rfl⟩⟩
  · rw [if_neg hok]
    refine ⟨⟨hsame.geometry, hsame.root, hsame.indices⟩, rfl, Or.inr ⟨rfl, ?_⟩⟩
    show restored s₁.store = _
    rw [restored, hsaved]

theorem transaction_active {α : Type} (m : Act Files α) (s : Writer Files) (ha : s.store.active = true) :
    files.transaction m s = (none, s) := by
  have hactive : (!files.active s.store) = false := by
    show (!s.store.active) = false
    rw [ha]
    rfl
  rw [Lower.transaction, get_bind_run, hactive]
  rfl

end Files

end Aegir.Bfs
