/-
  A directory as the image builder writes it, read by the volume.
-/
import Aegir.Mkfs.Place

namespace Aegir.Mkfs

open Aegir.Lib Aegir.Lib.Buf Aegir.Lib.BTree Aegir.Bfs

/-- The entries of a directory: distinct names of 1 to 255 bytes in their order,
    each with an inode's block. -/
structure Listing (es : List Entry) : Prop where
  nonempty : es ≠ []
  sorted : Sorted keyCompare es
  names : ∀ e ∈ es, 1 ≤ e.1.length ∧ e.1.length ≤ kMaxName
  blocks : ∀ e ∈ es, e.2 < 2 ^ 64

/-- The inode in `block` is read as a directory of exactly these entries: they are
    enumerated in order and then no more, and every name is found or not as it is
    listed. -/
def ReadsAs (w : World) (block : ℕ) (es : List Entry) : Prop :=
  ∃ dir, readInode w block = some dir ∧ (∀ i, dirEntry w dir i = es[i]?) ∧
    ∀ name, dirFind w dir name = es.lookup name

/-- Packing the names one after the other, `count` of them with `size` bytes in the
    node begun, no node's keys end past a block. -/
def packsInBlock : ℕ → ℕ → List Entry → Bool
  | _, _, [] => true
  | count, size, e :: es =>
    if 0 < count ∧ fits (count + 1) (size + e.1.length) = false then
      28 + e.1.length ≤ BLOCK && packsInBlock 1 e.1.length es
    else 28 + (size + e.1.length) ≤ BLOCK && packsInBlock (count + 1) (size + e.1.length) es

theorem packsInBlock_iff : ∀ {chunk es : List Entry},
    (∀ c ∈ planFrom fits chunk (keyBytes chunk) es, 28 + keyBytes c ≤ BLOCK) ↔
      28 + keyBytes chunk ≤ BLOCK ∧ packsInBlock chunk.length (keyBytes chunk) es = true
  | chunk, [] => by simp [planFrom, packsInBlock]
  | chunk, e :: es => by
    have hiff : (0 < chunk.length) ↔ chunk ≠ [] := List.length_pos_iff
    rw [planFrom, packsInBlock]
    simp only [hiff]
    split_ifs with hc
    · have ih := @packsInBlock_iff [e] es
      rw [keyBytes_singleton] at ih
      rw [List.forall_mem_cons, ih]
      simp
    · have ih := @packsInBlock_iff (chunk ++ [e]) es
      rw [keyBytes_append, keyBytes_singleton, List.length_append, List.length_singleton] at ih
      rw [ih, Bool.and_eq_true, decide_eq_true_eq]
      constructor
      · rintro ⟨h₁, h₂⟩
        exact ⟨by omega, h₁, h₂⟩
      · rintro ⟨-, h⟩
        exact h

theorem leavesOf_inBlock_iff {g : Geometry} (hg : g.blockSize = BLOCK) (es : List Entry) :
    (∀ l ∈ leavesOf es, InBlock g l) ↔ packsInBlock 0 0 es = true := by
  have h := @packsInBlock_iff [] es
  have hzero : 28 + keyBytes [] ≤ BLOCK := by decide
  simp only [hzero, true_and] at h
  refine Iff.trans ?_ h
  simp only [InBlock, hg, leavesOf]
  constructor
  · intro hall c hc
    obtain ⟨i, hi, rfl⟩ := List.getElem_of_mem hc
    exact hall ⟨NODE * (i + 1), _⟩ (List.mem_mapIdx.2 ⟨i, hi, rfl⟩)
  · intro hall l hl
    obtain ⟨i, hi, rfl⟩ := List.mem_mapIdx.1 hl
    exact hall _ (List.getElem_mem hi)

/-- The tree that the readers find of a directory placed on a volume. -/
theorem directory_tree {es : List Entry} {t : Tree} {w : World} {block base : ℕ}
    (hes : Listing es) (ht : tree es = some t) (hp : Placed w block base t) :
    ∃ dir h depth, readInode w block = some dir ∧ nodeHeader w dir = some h ∧ depth ≤ 15 ∧
      (leavesOf es).length ≤ h.maximum / h.nodeSize + 2 ∧
      TreeAt keyCompare (fun _ => True) (fun off => readStream w dir.data off h.nodeSize) h depth (leavesOf es) := by
  obtain ⟨dir, hdir, hrun⟩ := hp.readInode
  have hname : ∀ e ∈ es, e.1.length ≤ kMaxName := fun e he => (hes.names e he).2
  obtain ⟨h, depth, hparse, hsize, hmax, hdepth, hroom, htree⟩ :=
    @tree_treeAt es (fun off => readStream w dir.data off NODE) t ht hes.nonempty hes.sorted hname
      hes.blocks hp.blocks fun off j hoff hj => hp.readStream hrun hj hoff
  have hheader : nodeHeader w dir = some h := by
    rw [nodeHeader, ← hparse]
    have hle : NODE ≤ t.total := by
      have := Nat.lt_of_le_of_lt (Nat.zero_le _) hroom
      exact (Nat.div_pos_iff.1 this).2
    exact treeHeaderParse_congr fun j hj => by
      rw [hp.readStream hrun hj (Nat.le_trans (by decide) hle), Nat.zero_add]
  rw [← hsize] at htree
  refine ⟨dir, h, depth, hdir, hheader, by omega, ?_, htree⟩
  rw [leavesOf, List.length_mapIdx, hmax, hsize]
  omega

/-- A directory placed on a volume: the search finds every name and no other, and
    the entries come in order as far as they are inside a block. -/
theorem directory_placed {es : List Entry} {t : Tree} {w : World} {block base : ℕ}
    (hes : Listing es) (ht : tree es = some t) (hp : Placed w block base t) :
    ∃ dir, readInode w block = some dir ∧
      (∀ i, dirEntry w dir i = entryInBlock w.vol.toGeometry (leavesOf es) i) ∧
      ∀ name, dirFind w dir name = es.lookup name := by
  obtain ⟨dir, h, depth, hdir, hheader, hdepth, hroom, htree⟩ := directory_tree hes ht hp
  refine ⟨dir, hdir, fun i => htree.dirEntry (by omega) hheader hroom i, fun name => ?_⟩
  rw [htree.dirFind hdepth hheader, contents_leavesOf]

theorem readsAs_iff {es : List Entry} {t : Tree} {w : World} {block base : ℕ}
    (hes : Listing es) (ht : tree es = some t) (hp : Placed w block base t) :
    ReadsAs w block es ↔ packsInBlock 0 0 es = true := by
  obtain ⟨dir, hdir, hentry, hfind⟩ := directory_placed hes ht hp
  have hg : NodeField.kFixed ≤ w.vol.blockSize := by rw [hp.blockSize]; decide
  rw [← leavesOf_inBlock_iff hp.blockSize, ← entryInBlock_eq_iff hg, contents_leavesOf]
  constructor
  · rintro ⟨dir', hdir', hall, -⟩ i
    obtain rfl := Option.some.inj (hdir.symm.trans hdir')
    rw [← hentry, hall]
  · intro hall
    exact ⟨dir, hdir, fun i => by rw [hentry, hall], hfind⟩

/-! ## Placing a directory -/

/-- A disk with a directory of `make_bfs`: its inode in `block`, with the parent
    `parent`, and its tree in the blocks from `base` on. -/
def placeDirectory (disk : Buf) (agShift block parent base time : ℕ) (name : Option Key) (t : Tree) :
    Buf :=
  placeTree disk agShift block base (run parent 1 agShift) (S_IFDIR ||| S_STR_INDEX ||| 0o755) time 0
    name t

/-! ## Directories of the builder -/

/-- **A directory of the builder is read as it was written exactly when no node of
    the packing has a key that ends past a block.** -/
theorem mkfs_directory_reads_iff {es : List Entry} (hes : Listing es) :
    ∃ t, tree es = some t ∧ ∀ w block base, Placed w block base t →
      (ReadsAs w block es ↔ packsInBlock 0 0 es = true) := by
  obtain ⟨t, ht⟩ := tree_some fun e he => (hes.names e he).2
  exact ⟨t, ht, fun w block base hp => readsAs_iff hes ht hp⟩

theorem placed_of_total {es : List Entry} {t : Tree} (ht : tree es = some t)
    (htotal : (tree es).map Tree.total = some 8192) :
    ∃ w, w.vol.toGeometry = formatGeometry (4096 * BLOCK) ∧ Placed w 600 601 t := by
  rw [ht] at htotal
  have htotal : t.total = 8192 := Option.some.inj htotal
  exact ⟨.booted (.on (placeDirectory zero (formatGeometry (4096 * BLOCK)).agShift 600 600 601 0 none t)
      fun _ => false) (volume (4096 * BLOCK) 700 600 650 []), rfl,
    placeTree_placed (by decide) (by decide) (by decide) (by rw [htotal]; decide) (by rw [htotal]; decide)⟩

def fewNames : List Entry := [([46], 600), ([46, 46], 600), ([72, 69, 76, 76, 79], 605)]

theorem fewNames_listing : Listing fewNames where
  nonempty := by decide
  sorted := by unfold Sorted; decide
  names := by decide
  blocks := by decide

theorem mkfs_directory_reads_few : ∃ t w, tree fewNames = some t ∧ Placed w 600 601 t ∧
    ReadsAs w 600 fewNames := by
  obtain ⟨t, ht, hreads⟩ := mkfs_directory_reads_iff fewNames_listing
  obtain ⟨w, -, hp⟩ := placed_of_total ht (by decide)
  exact ⟨t, _, ht, hp, (hreads _ 600 601 hp).2 (by decide)⟩

/-- A directory of eight names of 255 bytes, besides its own two. -/
def longNames : List Entry :=
  [([46], 600), ([46, 46], 600)] ++
    (List.range 8).map fun i => (List.replicate 254 97 ++ [UInt8.ofNat (97 + i)], 610 + i)

set_option maxRecDepth 20000 in
theorem longNames_listing : Listing longNames where
  nonempty := by decide
  sorted := by unfold Sorted; decide
  names := by decide
  blocks := by decide

set_option maxRecDepth 20000 in
/-- The last of eight long names is not enumerated: its key ends past the first
    block of the node. -/
theorem mkfs_directory_cut_short : ∃ t w, tree longNames = some t ∧ Placed w 600 601 t ∧
    longNames.length = 10 ∧ (∃ dir, readInode w 600 = some dir ∧ dirEntry w dir 9 = none) ∧
    ¬ ReadsAs w 600 longNames := by
  obtain ⟨t, ht⟩ := tree_some fun e he => (longNames_listing.names e he).2
  obtain ⟨w, hgeometry, hp⟩ := placed_of_total ht (by decide)
  obtain ⟨dir, hdir, hentry, -⟩ := directory_placed longNames_listing ht hp
  refine ⟨t, w, ht, hp, by decide, ⟨dir, hdir, ?_⟩, ?_⟩
  · rw [hentry, hgeometry]
    decide
  · rw [readsAs_iff longNames_listing ht hp]
    decide

end Aegir.Mkfs
