/-
  What the writer's operations do to a volume (`writer.cc`, the `_blocks` forms).
-/
import Aegir.Bfs.Files
import Aegir.Bfs.Image

namespace Aegir.Bfs

open Aegir.Lib Aegir.Lib.Buf Aegir.Lib.Fallible

/-! ## Index edits -/

/-- A pair that an index gets, or loses. -/
structure IndexEdit where
  add : Bool
  index : Key
  key : Key
  value : ℕ

/-- The pairs after an edit, where `ix` says which inode an index is. -/
def IndexEdit.apply (ix : Key → Option ℕ) (pairs : ℕ → List Entry) (e : IndexEdit) : ℕ → List Entry :=
  match ix e.index with
  | none => pairs
  | some block => Function.update pairs block
      (if e.add then (e.key, e.value) :: pairs block else (pairs block).erase (e.key, e.value))

/-- The indices were edited: an index's inode may have another stream, and nothing else
    changed. -/
structure Reindexed (ix : Key → Option ℕ) (edits : List IndexEdit) (c c' : Contents) : Prop where
  taken : c'.taken = c.taken
  tree : c'.tree = c.tree
  bytes : c'.bytes = c.bytes
  pairs : c'.pairs = edits.foldl (IndexEdit.apply ix) c.pairs
  restreamed : ∀ b, Restreamed (c.image b) (c'.image b)
  image : ∀ b, (∀ name, ix name ≠ some b) → c'.image b = c.image b

theorem Reindexed.refl (ix : Key → Option ℕ) (c : Contents) : Reindexed ix [] c c :=
  ⟨rfl, rfl, rfl, rfl, fun _ => .refl _, fun _ _ => rfl⟩

theorem Reindexed.trans {ix : Key → Option ℕ} {es es' : List IndexEdit} {c c' c'' : Contents}
    (h : Reindexed ix es c c') (h' : Reindexed ix es' c' c'') : Reindexed ix (es ++ es') c c'' where
  taken := h'.taken.trans h.taken
  tree := h'.tree.trans h.tree
  bytes := h'.bytes.trans h.bytes
  pairs := by rw [h'.pairs, h.pairs, List.foldl_append]
  restreamed b := (h.restreamed b).trans (h'.restreamed b)
  image b hb := (h'.image b hb).trans (h.image b hb)

/-- The volume `s` with other contents. -/
def Files.holding (s : Files) (c : Contents) : Files := { s with toContents := c }

/-- Which inode an index is, on the volume `s` with the contents `c`. -/
def Files.index (s : Files) (c : Contents) : Key → Option ℕ := files.indexInode (s.holding c)

namespace Files

@[simp] theorem put_contents (s : Writer Files) (f : Contents → Contents) :
    (put s f).store.toContents = f s.store.toContents := rfl

@[simp] theorem bump_contents (s : Writer Files) : (bump s).store.toContents = s.store.toContents := rfl

@[simp] theorem scratch_store (s : Writer Files) (d : Decision) : (scratch s d).store = s.store := rfl

theorem restream_restreamed (b : Buf) (d : Decision) : Restreamed b (restream b d) := by
  refine inodeSetStream_restreamed b d.stream d.size ?_
  exact Nat.mod_eq_of_lt ((le_lt 8 _ _).trans_eq (by norm_num))

theorem indexInode_congr {s s' : Files} (h : SameVolume s s') (ht : s'.tree = s.tree)
    (hi : ∀ b, Restreamed (s.image b) (s'.image b)) : files.indexInode s' = files.indexInode s := by
  funext name
  have hread : ∀ b, files.readInode s' b = (files.readInode s b).map (Inode.withStream · (s'.image b)) := by
    intro b
    have hg : files.geometry s' = files.geometry s := h.geometry
    unfold Lower.readInode Lower.blockSize
    rw [hg]
    split
    · rfl
    · exact (hi b).parse _
  have hind : files.indices s' = files.indices s := h.indices
  have hblock : ∀ r, files.toBlock s' r = files.toBlock s r := fun r => congrArg (Geometry.toBlock · r) h.geometry
  unfold Lower.indexInode
  rw [hind, hblock, hread]
  split
  · rfl
  · rcases files.readInode s (files.toBlock s (files.indices s)) with _ | dir
    · rfl
    · show (s'.tree (s'.geometry.toBlock dir.run)).bind _ = (s.tree (s.geometry.toBlock dir.run)).bind _
      rw [ht, h.geometry]

theorem Fixed.sameVolume {s s' : Files} (h : Fixed s s') : SameVolume s s' := ⟨h.geometry, h.root, h.indices⟩

theorem SameVolume.index {s s' : Files} (h : SameVolume s s') : files.indexInode s' = s.index s'.toContents :=
  indexInode_congr (s := s.holding s'.toContents) ⟨h.geometry, h.root, h.indices⟩ rfl fun _ => .refl _

/-- A state's indices follow by `edits`. -/
structure Follows (edits : List IndexEdit) (s s' : Writer Files) : Prop where
  fixed : Fixed s.store s'.store
  reindexed : Reindexed (files.indexInode s.store) edits s.store.toContents s'.store.toContents

theorem Follows.refl (s : Writer Files) : Follows [] s s := ⟨refl_of Fixed _, .refl _ _⟩

theorem Follows.trans {es es' : List IndexEdit} {s s' s'' : Writer Files} (h : Follows es s s')
    (h' : Follows es' s' s'') : Follows (es ++ es') s s'' := by
  refine ⟨trans_of Fixed h.fixed h'.fixed, h.reindexed.trans ?_⟩
  rw [← indexInode_congr h.fixed.sameVolume h.reindexed.tree h.reindexed.restreamed]
  exact h'.reindexed

theorem Follows.indexed {es : List IndexEdit} {s s₁ s' : Writer Files} (h : Follows es s₁ s')
    (hf : Fixed (begun s).store s₁.store) :
    Reindexed (s.store.index s₁.store.toContents) es s₁.store.toContents s'.store.toContents := by
  rw [← SameVolume.index (s := s.store) ⟨hf.geometry, hf.root, hf.indices⟩]
  exact h.reindexed

section
variable {s s' : Writer Files} {u : Unit} {index key : Key} {value : ℕ}

theorem follows_of_update {block : ℕ} {add : Bool} (hf : Fixed s.store s'.store)
    (hb : files.indexInode s.store index = some block) {img : Buf}
    (him : Restreamed (s.store.image block) img)
    (hc : s'.store.toContents = { s.store.toContents with
      pairs := Function.update s.store.pairs block (if add then (key, value) :: s.store.pairs block
        else (s.store.pairs block).erase (key, value))
      image := Function.update s.store.image block img }) :
    Follows [⟨add, index, key, value⟩] s s' := by
  refine ⟨hf, ?_⟩
  rw [hc]
  refine ⟨rfl, rfl, rfl, ?_, fun b => ?_, fun b hne => ?_⟩
  · simp only [List.foldl_cons, List.foldl_nil, IndexEdit.apply, hb]
  · show Restreamed _ (Function.update s.store.image block img b)
    by_cases hbb : b = block
    · rw [hbb, Function.update_self]; exact him
    · rw [Function.update_of_ne hbb]; exact .refl _
  · exact Function.update_of_ne (fun hbb => hne index (by rw [hb, hbb])) _ _

theorem follows_none {add : Bool} (hb : files.indexInode s.store index = none) :
    Follows [⟨add, index, key, value⟩] s s := by
  refine ⟨refl_of Fixed _, rfl, rfl, rfl, ?_, fun _ => .refl _, fun _ _ => rfl⟩
  simp only [List.foldl_cons, List.foldl_nil, IndexEdit.apply, hb]

theorem indexAdd_some (h : files.indexAdd index key value s = (some u, s')) :
    Follows [⟨true, index, key, value⟩] s s' := by
  rw [Lower.indexAdd, get_bind_run] at h
  rcases whenSome_eq_some h with ⟨hn, rfl⟩ | ⟨block, hb, h⟩
  · exact follows_none hn
  · obtain ⟨hfix, d, hc⟩ := indexInsertBlocks_some h
    exact follows_of_update hfix hb (restream_restreamed _ d) hc

theorem indexDrop_some (h : files.indexDrop index key value s = (some u, s')) :
    Follows [⟨false, index, key, value⟩] s s' := by
  rw [Lower.indexDrop, get_bind_run] at h
  rcases whenSome_eq_some h with ⟨hn, rfl⟩ | ⟨block, hb, h⟩
  · exact follows_none hn
  · obtain ⟨r, s₁, h, h'⟩ := bind_eq_some h
    cases h'
    obtain ⟨hfix, hc⟩ := indexRemoveBlocks_some h
    refine follows_of_update hfix hb (.refl _) ?_
    rw [Function.update_eq_self]
    exact hc

end

def entryEdits (add : Bool) (block : ℕ) (name : Key) (mode size time : ℕ) : List IndexEdit :=
  (if isRegularNode mode then [⟨add, kNameIndex, name, block⟩] else []) ++
    if isIndexedFile mode then
      [⟨add, kSizeIndex, numberKey size, block⟩, ⟨add, kLastModifiedIndex, numberKey time, block⟩] else []

def numberEdits (index : Key) (block mode old new : ℕ) : List IndexEdit :=
  if old = new ∨ isIndexedFile mode = false then []
  else [⟨false, index, numberKey old, block⟩, ⟨true, index, numberKey new, block⟩]

section
variable {s s' : Writer Files} {u : Unit}

theorem indexOn_some {add : Bool} (act : Key → Key → ℕ → Act Files Unit)
    (hact : ∀ {index key value} {s s' : Writer Files} {u : Unit},
      act index key value s = (some u, s') → Follows [⟨add, index, key, value⟩] s s')
    {block : ℕ} {name : Key} {mode size time : ℕ}
    (h : Lower.indexOn act block name mode size time s = (some u, s')) :
    Follows (entryEdits add block name mode size time) s s' := by
  rw [Lower.indexOn] at h
  obtain ⟨_, s₁, h₁, h₂⟩ := bind_eq_some h
  have hname : Follows (if isRegularNode mode then [⟨add, kNameIndex, name, block⟩] else []) s s₁ := by
    rcases when_eq_some h₁ with ⟨hc, h₁⟩ | ⟨hc, rfl⟩
    · rw [if_pos hc]; exact hact h₁
    · rw [if_neg hc]; exact .refl _
  refine hname.trans ?_
  rcases when_eq_some h₂ with ⟨hc, h₂⟩ | ⟨hc, rfl⟩
  · rw [if_pos hc]
    obtain ⟨_, s₂, h₂, h₃⟩ := bind_eq_some h₂
    exact (hact h₂).trans (hact h₃)
  · rw [if_neg hc]; exact .refl _

theorem indexOnNumber_some {index : Key} {block mode old new : ℕ}
    (h : files.indexOnNumber index block mode old new s = (some u, s')) :
    Follows (numberEdits index block mode old new) s s' := by
  rw [Lower.indexOnNumber] at h
  unfold numberEdits
  split at h
  · cases h
    rw [if_pos ‹_›]
    exact .refl _
  · rw [if_neg ‹_›]
    obtain ⟨_, s₁, h₁, h₂⟩ := bind_eq_some h
    exact (indexDrop_some h₁).trans (indexAdd_some h₂)

theorem indexOnRename_some {block : ℕ} {source target : Key}
    (h : files.indexOnRename block source target s = (some u, s')) :
    Follows [⟨false, kNameIndex, source, block⟩, ⟨true, kNameIndex, target, block⟩] s s' := by
  obtain ⟨_, s₁, h₁, h₂⟩ := bind_eq_some h
  exact (indexDrop_some h₁).trans (indexAdd_some h₂)

end

/-! ## Making an entry -/

theorem runBlocks_one (g : Geometry) {r : Run} (h : r.length = 1) : runBlocks g r = [g.toBlock r] := by
  unfold runBlocks
  rw [h]
  rfl

theorem allocateTree_some {s s' : Writer Files} {r : Run} (h : files.allocateTree s = (some r, s')) :
    r.Fits ∧ (∀ b ∈ runBlocks s.store.geometry r, s.store.taken b = false) ∧
      Called s s' { s.store.toContents with
        taken := fun b => s.store.taken b || decide (b ∈ runBlocks s.store.geometry r) } := by
  rw [Lower.allocateTree, get_bind_run] at h
  obtain ⟨r', s₁, h₁, h₂⟩ := bind_eq_some h
  obtain ⟨-, -, hfits, -, hfree, hc⟩ := allocate_some h₁
  split at h₂
  · obtain ⟨_, _, _, h₂⟩ := bind_eq_some h₂
    cases h₂
  · cases h₂
    exact ⟨hfits, hfree, hc⟩

def nodeMode (mode : ℕ) : ℕ := if modeIsDirectory mode then mode ||| kModeStrIndex else mode

def dots (block parent : ℕ) : List Entry := [([46], block), ([46, 46], parent)]

/-- An inode was made in `run` and entered into the directory in `parent`. -/
structure Made (g : Geometry) (parent : ℕ) (name : Key) (mode uid gid time : ℕ) (run : Run)
    (c c' : Contents) : Prop where
  fits : run.Fits
  length : run.length = 1
  valid : g.validateRun run = true
  free : c.taken (g.toBlock run) = false
  taken : ∀ b, c'.taken b = (c.taken b || decide (b = g.toBlock run))
  built : Restreamed (inodeBuild g.blockSize run (leRun (c.image parent) InodeField.kInodeNum)
    (nodeMode mode) uid gid time name) (c'.image (g.toBlock run))
  builtFile : modeIsDirectory mode = false → c'.image (g.toBlock run) =
    inodeBuild g.blockSize run (leRun (c.image parent) InodeField.kInodeNum) mode uid gid time name
  parentImage : Restreamed (c.image parent) (c'.image parent)
  image : ∀ b, b ≠ g.toBlock run → b ≠ parent → c'.image b = c.image b
  entries : ∃ es, c.tree parent = some es ∧ es.lookup name = none ∧
    c'.tree parent = some ((name, g.toBlock run) :: es)
  dots : modeIsDirectory mode = true → c'.tree (g.toBlock run) =
    some (dots (g.toBlock run) (g.toBlock (leRun (c.image parent) InodeField.kInodeNum)))
  tree : ∀ b, b ≠ g.toBlock run → b ≠ parent → c'.tree b = c.tree b
  pairs : c'.pairs = c.pairs
  bytes : c'.bytes = c.bytes

theorem enter_some {parent : ℕ} {name : Key} {block mode time b : ℕ} {undo : Act Files Unit}
    {s s' : Writer Files} (h : (do
      let existed ← (files.treeEdit parent name block true).onFail undo
      if existed then do
        undo
        .fail
      else do
      files.indexOnCreate block name mode 0 time
      pure block : Act Files ℕ) s = (some b, s')) :
    b = block ∧ ∃ es s₁, s.store.tree parent = some es ∧ es.lookup name = none ∧
      Fixed s.store s₁.store ∧ (∃ img, Restreamed (s.store.image parent) img ∧
        s₁.store.toContents = { s.store.toContents with
          tree := Function.update s.store.tree parent (some ((name, block) :: es))
          image := Function.update s.store.image parent img }) ∧
      Follows (entryEdits true block name mode 0 time) s₁ s' := by
  obtain ⟨existed, s₁, h₁, h⟩ := bind_eq_some h
  obtain ⟨es, -, htree, hpresent, hfix, hc⟩ := treeEdit_insert_some (onFail_eq_some h₁)
  rcases existed
  · obtain ⟨_, s₂, h₂, h⟩ := bind_eq_some h
    cases h
    have hnone : es.lookup name = none := by
      rcases hl : es.lookup name with _ | v
      · rfl
      · rw [hl] at hpresent; cases hpresent
    obtain ⟨d, hc⟩ := hc rfl
    exact ⟨rfl, es, s₁, htree, hnone, hfix, ⟨_, restream_restreamed _ d, hc⟩,
      indexOn_some files.indexAdd indexAdd_some h₂⟩
  · obtain ⟨_, _, _, h⟩ := bind_eq_some h
    cases h

def freshBuf (r : Run) : Buf :=
  Buf.put 8 (putRun zero DataField.kDirect r) DataField.kMaxDirectRange (kTreeNodeSize * 2)

theorem leRun_freshBuf {r : Run} (h : r.Fits) : leRun (freshBuf r) DataField.kDirect = r := by
  rw [freshBuf, leRun_put_of_disjoint (Or.inl (by decide)), leRun_putRun h]

theorem freshStream_some {r : Run} {time : ℕ} {s s' : Writer Files} {u : Unit}
    (h : Lower.freshStream r time s = (some u, s')) :
    s'.store = s.store ∧ s'.stream = freshBuf r ∧
      s'.inode = inodeSetStream s.inode (freshBuf r) (kTreeNodeSize * 2) time := by
  cases h
  exact ⟨rfl, rfl, rfl⟩

theorem freshTree_some {α : Type} {built : Buf} {r : Run} {block time : ℕ} {undo undo' : Act Files Unit}
    {es : Writer Files → List Entry} {k : Writer Files → Act Files α} {s s' : Writer Files} {a : α}
    (hr : r.Fits) (hi : s.inode = built)
    (hb : s.store.geometry.toBlock (leRun built InodeField.kInodeNum) = block)
    (ht : time % 2 ^ 64 = inodeMtime built)
    (h : (do
      Lower.freshStream r time
      let s ← .get
      (files.writeBlock block s.inode).onFail undo
      (files.writeTree (es s)).onFail undo'
      k s : Act Files α) s = (some a, s')) :
    ∃ s₀ s₁ img, s₀.store = s.store ∧ k s₀ s₁ = (some a, s') ∧ Restreamed built img ∧
      Fixed s.store s₁.store ∧ s₁.store.toContents = { s.store.toContents with
        image := Function.update s.store.image block img
        tree := Function.update s.store.tree block (some (es s₀))
        taken := fun b => s.store.taken b && decide (b ∉ runBlocks s.store.geometry r) } := by
  have himg := inodeSetStream_restreamed built (freshBuf r) (kTreeNodeSize * 2) ht
  obtain ⟨_, s₁, h₁, h⟩ := bind_eq_some h
  obtain ⟨hst, hstream, hinode⟩ := freshStream_some h₁
  rw [hi] at hinode
  rw [get_bind_run] at h
  obtain ⟨_, s₂, h₂, h⟩ := bind_eq_some h
  have hc₂ := writeBlock_some (onFail_eq_some h₂)
  obtain ⟨_, s₃, h₃, h⟩ := bind_eq_some h
  have hc₃ := writeTree_some (onFail_eq_some h₃)
  have hg : s₂.store.geometry = s.store.geometry := hst ▸ hc₂.fixed.geometry
  have hblock : inodeBlock s₂ = block := by
    rw [inodeBlock, hg, hc₂.inode, hinode, himg.leRun (by decide), hb]
  refine ⟨s₁, s₃, _, hst, h, himg, hst ▸ trans_of Fixed hc₂.fixed hc₃.fixed, ?_⟩
  rw [hc₃.contents, hblock, hg, hc₂.stream, hstream, leRun_freshBuf hr, hc₂.contents, hinode, hst]

/-- A new inode and its tree, if it is a directory, before it is entered anywhere. -/
structure Fresh (block : ℕ) (built : Buf) (tree : Option (List Entry)) (c c' : Contents) : Prop where
  taken : ∀ b, c'.taken b = (c.taken b || decide (b = block))
  image : ∃ img, Restreamed built img ∧ (tree = none → img = built) ∧
    c'.image = Function.update c.image block img
  tree : c'.tree = tree.elim c.tree fun es => Function.update c.tree block (some es)
  pairs : c'.pairs = c.pairs
  bytes : c'.bytes = c.bytes

theorem Fresh.made {g : Geometry} {parent : ℕ} {name : Key} {mode uid gid time : ℕ} {run : Run}
    {c c₁ c₂ : Contents} (hfits : run.Fits) (hlen : run.length = 1) (hvalid : g.validateRun run = true)
    (hfree : c.taken (g.toBlock run) = false) (hp : c.taken parent = true)
    (hf : Fresh (g.toBlock run) (inodeBuild g.blockSize run (leRun (c.image parent) InodeField.kInodeNum)
        (nodeMode mode) uid gid time name)
      (if modeIsDirectory mode then some (dots (g.toBlock run)
        (g.toBlock (leRun (c.image parent) InodeField.kInodeNum))) else none) c c₁)
    {es : List Entry} (htree : c₁.tree parent = some es) (hnone : es.lookup name = none) {img : Buf}
    (himg : Restreamed (c₁.image parent) img)
    (hc : c₂ = { c₁ with
      tree := Function.update c₁.tree parent (some ((name, g.toBlock run) :: es))
      image := Function.update c₁.image parent img }) :
    Made g parent name mode uid gid time run c c₂ := by
  have hne : parent ≠ g.toBlock run := by
    rintro rfl
    rw [hfree] at hp
    cases hp
  obtain ⟨im, him, himf, hima⟩ := hf.image
  have htr : ∀ b, b ≠ g.toBlock run → c₁.tree b = c.tree b := by
    intro b hb
    rw [hf.tree]
    split
    · exact Function.update_of_ne hb _ _
    · rfl
  have hpi : c₁.image parent = c.image parent := by
    rw [hima]
    exact Function.update_of_ne hne _ _
  subst hc
  refine ⟨hfits, hlen, hvalid, hfree, hf.taken, ?_, fun hd => ?_, ?_, fun b hb hbp => ?_, ?_,
    fun hd => ?_, fun b hb hbp => ?_, hf.pairs, hf.bytes⟩
  · show Restreamed _ (Function.update c₁.image parent img (g.toBlock run))
    rw [Function.update_of_ne hne.symm, hima, Function.update_self]
    exact him
  · show Function.update c₁.image parent img (g.toBlock run) = _
    rw [Function.update_of_ne hne.symm, hima, Function.update_self, himf (by rw [hd]; rfl), nodeMode, hd]
    rfl
  · show Restreamed _ (Function.update c₁.image parent img parent)
    rw [Function.update_self, ← hpi]
    exact himg
  · show Function.update c₁.image parent img b = _
    rw [Function.update_of_ne hbp, hima, Function.update_of_ne hb]
  · exact ⟨es, (htr _ hne).symm.trans htree, hnone, Function.update_self ..⟩
  · show Function.update c₁.tree parent _ (g.toBlock run) = _
    rw [Function.update_of_ne hne.symm, hf.tree, hd]
    exact Function.update_self ..
  · show Function.update c₁.tree parent _ b = _
    rw [Function.update_of_ne hbp, htr b hb]

/-- **Making an entry**, in a directory that is there. -/
theorem createBlocks_some {parent : ℕ} {name : Key} {mode uid gid time block : ℕ} {s s' : Writer Files}
    (hp : s.store.taken parent = true)
    (h : files.createBlocks parent name mode uid gid time s = (some block, s')) :
    name.length ≠ 0 ∧ name.length ≤ kMaxName ∧ inUse (s.store.image parent) = true ∧
    ∃ run s₁, block = s.store.geometry.toBlock run ∧ Fixed s.store s₁.store ∧
      Made s.store.geometry parent name mode uid gid time run s.store.toContents s₁.store.toContents ∧
      Follows (entryEdits true block name (nodeMode mode) 0 time) s₁ s' := by
  rw [Lower.createBlocks] at h
  obtain ⟨hname, h⟩ := check_bind_eq_some h
  simp only [Bool.and_eq_true, decide_eq_true_eq] at hname
  obtain ⟨_, s₁, h₁, h⟩ := bind_eq_some h
  obtain ⟨huse, hst₁, hin₁⟩ := readInodeBlock_some' h₁
  rw [get_bind_run] at h
  obtain ⟨run, s₂, h₂, h⟩ := bind_eq_some h
  obtain ⟨hle, hge, hfits, hvalid, hfree, hc₂⟩ := allocate_some h₂
  rw [hst₁] at hvalid hfree hc₂
  have hlen : run.length = 1 := by omega
  have hfree' : s.store.taken (s.store.geometry.toBlock run) = false :=
    hfree _ (by rw [runBlocks_one _ hlen]; exact List.mem_singleton_self _)
  have hparent : leRun s₁.inode InodeField.kInodeNum = leRun (s.store.image parent) InodeField.kInodeNum := by
    rw [hin₁]
  have hblock : files.toBlock s₁.store run = s.store.geometry.toBlock run := by rw [hst₁]; rfl
  have hfix₂ : Fixed s.store s₂.store := hst₁ ▸ hc₂.fixed
  have hc₂ := hc₂.contents
  rw [runBlocks_one _ hlen] at hc₂
  rw [hparent, hblock] at h
  refine ⟨hname.1, hname.2, huse, run, ?_⟩
  obtain ⟨treeRun, s₃, h₃, h⟩ := bind_eq_some h
  rcases hdir : modeIsDirectory mode
  · -- a file: the inode alone
    rw [hdir] at h₃ h
    cases h₃
    obtain ⟨s₄, hst₄, hin₄, -, h⟩ := setInode_bind_some h
    dsimp only [whenSome] at h
    rw [pure_bind_run, get_bind_run] at h
    obtain ⟨_, s₅, h₅, h⟩ := bind_eq_some h
    have hc₅ := writeBlock_some (onFail_eq_some h₅)
    rw [hst₄] at hc₅
    rw [pure_bind_run] at h
    obtain ⟨rfl, es, s₆, htree, hnone, hfix, ⟨img, himg, hc⟩, hfollows⟩ := enter_some h
    have hbs : files.blockSize s₂.store = s.store.geometry.blockSize := congrArg Geometry.blockSize hfix₂.geometry
    rw [hbs] at hin₄
    have hcont := hc₅.contents
    rw [hc₂, hin₄] at hcont
    refine ⟨s₆, rfl, trans_of Fixed hfix₂ (trans_of Fixed (hst₄ ▸ hc₅.fixed) hfix), ?_, ?_⟩
    · refine Fresh.made hfits hlen hvalid hfree' hp ?_ htree hnone himg hc
      rw [hdir, nodeMode, hdir, hcont]
      exact ⟨fun b => by simp, ⟨_, .refl _, fun _ => rfl, rfl⟩, rfl, rfl, rfl⟩
    · rw [nodeMode, hdir]
      exact hfollows
  · -- a directory: its tree as well
    rw [hdir] at h₃ h
    rw [Lower.treeRunFor, if_pos rfl] at h₃
    obtain ⟨r, s₃', h₃, h₃'⟩ := bind_eq_some h₃
    cases h₃'
    obtain ⟨s₄, hst₄, hin₄, -, h⟩ := setInode_bind_some h
    obtain ⟨hrfits, hrfree, hc₃⟩ := allocateTree_some (onFail_eq_some h₃)
    dsimp only [whenSome] at h
    have hfix₃ : Fixed s.store s₃.store := trans_of Fixed hfix₂ hc₃.fixed
    have hpf : (leRun (s.store.image parent) InodeField.kInodeNum).Fits := leRun_fits _ _
    have hbs : files.blockSize s₃.store = s.store.geometry.blockSize := congrArg Geometry.blockSize hfix₃.geometry
    rw [hbs] at hin₄
    obtain ⟨s₅, s₆, img', hst₅, h, himg', hfix₆, hc₆⟩ := freshTree_some hrfits hin₄
      (by rw [leRun_inodeNum_build _ _ _ _ _ _ _ _ hfits hpf, hst₄, hfix₃.geometry])
      (inodeMtime_build _ _ _ _ _ _ _ _ hfits hpf).symm h
    rw [hst₄] at hst₅ hfix₆ hc₆
    obtain ⟨rfl, es, s₇, htree, hnone, hfix, ⟨img, himg, hc⟩, hfollows⟩ := enter_some h
    refine ⟨s₇, rfl, trans_of Fixed hfix₃ (trans_of Fixed hfix₆ hfix), ?_, ?_⟩
    · refine Fresh.made hfits hlen hvalid hfree' hp ?_ htree hnone himg hc
      have hdots : files.toBlock s₅.store (leRun (s.store.image parent) InodeField.kInodeNum) =
          s.store.geometry.toBlock (leRun (s.store.image parent) InodeField.kInodeNum) := by
        rw [hst₅]
        exact congrArg (Geometry.toBlock · _) hfix₃.geometry
      rw [hdots, hc₃.contents, hc₂, hfix₃.geometry] at hc₆
      rw [hfix₂.geometry, hc₂] at hrfree
      rw [hfix₂.geometry] at hc₆
      rw [hdir, nodeMode, hdir, hc₆]
      refine ⟨fun b => ?_, ⟨_, himg', (fun hn => by cases hn), rfl⟩, rfl, rfl, rfl⟩
      by_cases hmem : b ∈ runBlocks s.store.geometry r
      · have hb := hrfree b hmem
        simp only [Bool.or_eq_false_iff] at hb
        simp [hmem, hb.1]
        simpa using hb.2
      · simp [hmem]
    · rw [nodeMode, hdir]
      exact hfollows

/-! ## Removing and renaming an entry -/

section
variable {s s' : Writer Files} {u : Unit}

theorem opened_some {α : Type} {block : ℕ} {k : Unit → Act Files α} {a : α}
    (h : (files.readInodeBlock block >>= fun _ => Lower.loadStream >>= k) s = (some a, s')) :
    inUse (s.store.image block) = true ∧
      ∃ s₁, s₁.store = s.store ∧ s₁.inode = s.store.image block ∧ k () s₁ = (some a, s') := by
  obtain ⟨_, s₁, h₁, h⟩ := bind_eq_some h
  obtain ⟨huse, hst, hin⟩ := readInodeBlock_some' h₁
  exact ⟨huse, { s₁ with stream := inodeGetStream s₁.inode }, hst, hin, h⟩

theorem dirIsEmpty_some {block : ℕ} (h : files.dirIsEmpty block s = (some u, s')) :
    files.dirEmpty s.store (inodeView (s.store.image block)) = true ∧ s'.store = s.store := by
  rw [Lower.dirIsEmpty] at h
  obtain ⟨-, s₁, hst, hin, h⟩ := opened_some h
  rw [get_bind_run, hst, hin] at h
  unfold check at h
  split at h
  · cases h
    exact ⟨‹_›, hst⟩
  · cases h

theorem destroy_some {block : ℕ} (h : files.destroy block s = (some u, s')) :
    inUse (s.store.image block) = true ∧ Fixed s.store s'.store ∧
      s'.store.toContents = { s.store.toContents with
        taken := fun b => s.store.taken b && decide (b ∉ runBlocks s.store.geometry
          (leRun (s.store.image block) InodeField.kInodeNum)) } := by
  rw [Lower.destroy] at h
  obtain ⟨huse, s₂, hst, hin, h⟩ := opened_some h
  rw [get_bind_run, hin] at h
  obtain ⟨_, s₃, h₃, h⟩ := bind_eq_some h
  have hc₃ := freeStream_some h₃
  have hc₄ := free_some h
  refine ⟨huse, hst ▸ trans_of Fixed hc₃.fixed hc₄.fixed, ?_⟩
  rw [hc₄.contents, hc₃.contents, hc₃.fixed.geometry, hst]

/-- **Removing an entry.** -/
theorem removeBlocks_some {parent : ℕ} {name : Key} (h : files.removeBlocks parent name s = (some u, s')) :
    ∃ child es s₁ s₂, files.dirFind s.store (inodeView (s.store.image parent)) name = some child ∧
      inUse (s.store.image child) = true ∧
      (modeIsDirectory (inodeMode (s.store.image child)) = true →
        files.dirEmpty s.store (inodeView (s.store.image child)) = true) ∧
      s.store.tree parent = some es ∧ Fixed s.store s₁.store ∧
      s₁.store.toContents = { s.store.toContents with
        tree := Function.update s.store.tree parent (some (es.filter fun e => e.1 ≠ name)) } ∧
      Follows (entryEdits false child name (inodeMode (s.store.image child))
        (inodeSize (s.store.image child)) (inodeMtime (s.store.image child))) s₁ s₂ ∧
      Fixed s₂.store s'.store ∧ s'.store.toContents = { s₂.store.toContents with
        taken := fun b => s₂.store.taken b && decide (b ∉ runBlocks s.store.geometry
          (leRun (s₂.store.image child) InodeField.kInodeNum)) } := by
  rw [Lower.removeBlocks] at h
  obtain ⟨_, s₁, h₁, h⟩ := bind_eq_some h
  obtain ⟨-, hst₁, hin₁⟩ := readInodeBlock_some' h₁
  rw [get_bind_run, hst₁, hin₁] at h
  obtain ⟨child, hchild, h⟩ := ofOption_bind_eq_some h
  obtain ⟨_, s₂, h₂, h⟩ := bind_eq_some h
  obtain ⟨huse, hst₂, hin₂⟩ := readInodeBlock_some' h₂
  rw [hst₁] at huse hst₂ hin₂
  rw [get_bind_run, hin₂] at h
  obtain ⟨_, s₃, h₃, h⟩ := bind_eq_some h
  have hempty : (modeIsDirectory (inodeMode (s.store.image child)) = true →
      files.dirEmpty s.store (inodeView (s.store.image child)) = true) ∧ s₃.store = s.store := by
    rcases when_eq_some h₃ with ⟨hd, h₃⟩ | ⟨hd, rfl⟩
    · obtain ⟨he, hst₃⟩ := dirIsEmpty_some h₃
      rw [hst₂] at he hst₃
      exact ⟨fun _ => he, hst₃⟩
    · exact ⟨fun hd' => absurd hd' hd, hst₂⟩
  obtain ⟨hempty, hst₃⟩ := hempty
  obtain ⟨present, s₄, h₄, h⟩ := bind_eq_some h
  obtain ⟨es, -, htree, -, hfix₄, hc₄⟩ := treeEdit_remove_some h₄
  rw [hst₃] at htree hfix₄ hc₄
  obtain ⟨-, h⟩ := check_bind_eq_some h
  obtain ⟨_, s₅, h₅, h⟩ := bind_eq_some h
  have hf := indexOn_some files.indexDrop indexDrop_some h₅
  obtain ⟨-, hfix, hc⟩ := destroy_some h
  rw [hf.fixed.geometry, hfix₄.geometry] at hc
  exact ⟨child, es, s₄, s₅, hchild, huse, hempty, htree, hfix₄, hc₄, hf, hfix, hc⟩

/-- **Renaming an entry.** -/
theorem renameBlocks_some {parent : ℕ} {source target : Key}
    (h : files.renameBlocks parent source target s = (some u, s')) :
    ∃ child es s₁, files.dirFind s.store (inodeView (s.store.image parent)) source = some child ∧
      files.dirFind s.store (inodeView (s.store.image parent)) target = none ∧
      s.store.tree parent = some es ∧ Fixed s.store s₁.store ∧
      (∃ img, Restreamed (s.store.image parent) img ∧ s₁.store.toContents = { s.store.toContents with
        tree := Function.update s.store.tree parent
          (some ((target, child) :: es.filter fun e => e.1 ≠ source))
        image := Function.update s.store.image parent img }) ∧
      Follows [⟨false, kNameIndex, source, child⟩, ⟨true, kNameIndex, target, child⟩] s₁ s' := by
  rw [Lower.renameBlocks] at h
  obtain ⟨_, s₁, h₁, h⟩ := bind_eq_some h
  obtain ⟨-, hst₁, hin₁⟩ := readInodeBlock_some' h₁
  rw [get_bind_run, hst₁, hin₁] at h
  obtain ⟨child, hchild, h⟩ := ofOption_bind_eq_some h
  obtain ⟨hnone, h⟩ := check_bind_eq_some h
  obtain ⟨present, s₂, h₂, h⟩ := bind_eq_some h
  obtain ⟨es, -, htree, -, hfix₂, hc₂⟩ := treeEdit_remove_some h₂
  rw [hst₁] at htree hfix₂ hc₂
  obtain ⟨-, h⟩ := check_bind_eq_some h
  obtain ⟨existed, s₃, h₃, h⟩ := bind_eq_some h
  obtain ⟨es', -, htree', -, hfix₃, hc₃⟩ := treeEdit_insert_some (onFail_eq_some h₃)
  rcases existed
  · obtain ⟨d, hc₃⟩ := hc₃ rfl
    rw [hc₂] at htree' hc₃
    simp only [Function.update_self, Option.some.injEq] at htree'
    subst htree'
    refine ⟨child, es, s₃, hchild, by simpa using hnone, htree, trans_of Fixed hfix₂ hfix₃,
      ⟨_, restream_restreamed _ d, ?_⟩, indexOnRename_some h⟩
    rw [hc₃]
    simp only [Function.update_idem]
  · obtain ⟨_, _, _, h⟩ := bind_eq_some h
    cases h

end

/-! ## Writing and resizing a file -/

section
variable {s s' : Writer Files} {u : Unit}

/-- The inode in a block has another stream, and its bytes changed. -/
structure Written (block : ℕ) (img bytes : Buf) (c c' : Contents) : Prop where
  taken : c'.taken = c.taken
  pairs : c'.pairs = c.pairs
  image : c'.image = Function.update c.image block img
  bytes : c'.bytes = Function.update c.bytes block bytes
  tree : ∀ b, b ≠ block → c'.tree b = c.tree b

/-- The stream's functions at work: they change bytes of the inode in `inode_`, and
    nothing else. -/
structure Streaming (s s' : Writer Files) (bytes : Buf) : Prop where
  fixed : Fixed s.store s'.store
  inode : s'.inode = s.inode
  taken : s'.store.taken = s.store.taken
  pairs : s'.store.pairs = s.store.pairs
  image : s'.store.image = s.store.image
  bytes : s'.store.bytes = Function.update s.store.bytes (inodeBlock s) bytes
  tree : ∀ b, b ≠ inodeBlock s → s'.store.tree b = s.store.tree b

theorem Streaming.of_contents (hc : s'.store.toContents = s.store.toContents) (hf : Fixed s.store s'.store)
    (hi : s'.inode = s.inode) : Streaming s s' (s.store.bytes (inodeBlock s)) := by
  refine ⟨hf, hi, ?_, ?_, ?_, ?_, fun b _ => ?_⟩
  · rw [hc]
  · rw [hc]
  · rw [hc]
  · rw [hc, Function.update_eq_self]
  · rw [hc]

theorem Streaming.block {bytes : Buf} (h : Streaming s s' bytes) : inodeBlock s' = inodeBlock s := by
  rw [inodeBlock, inodeBlock, h.fixed.geometry, h.inode]

theorem Streaming.bytes_at {bytes : Buf} (h : Streaming s s' bytes) :
    s'.store.bytes (inodeBlock s') = bytes := by
  rw [h.block, h.bytes, Function.update_self]

theorem Streaming.trans {s₁ s₂ s₃ : Writer Files} {bytes bytes' : Buf} (h : Streaming s₁ s₂ bytes)
    (h' : Streaming s₂ s₃ bytes') : Streaming s₁ s₃ bytes' := by
  have hb := h.block
  refine ⟨trans_of Fixed h.fixed h'.fixed, h'.inode.trans h.inode, h'.taken.trans h.taken,
    h'.pairs.trans h.pairs, h'.image.trans h.image, ?_, fun b hne => ?_⟩
  · rw [h'.bytes, h.bytes, hb, Function.update_idem]
  · rw [h'.tree b (hb ▸ hne), h.tree b hne]

theorem streamBlocks_streaming {n : ℕ} (h : files.streamBlocks s = (some n, s')) :
    Streaming s s' (s.store.bytes (inodeBlock s)) := by
  have hc := streamBlocks_some h
  exact .of_contents hc.contents hc.fixed hc.inode

theorem changeStream_streaming {c : Prop} [Decidable c] (h : when c Files.changeStream s = (some u, s')) :
    Streaming s s' (s.store.bytes (inodeBlock s)) := by
  rcases when_eq_some h with ⟨-, h⟩ | ⟨-, rfl⟩
  · obtain ⟨hc, hf, -, hi⟩ := changeStream_some h
    exact .of_contents hc hf hi
  · exact .of_contents rfl (refl_of Fixed _) rfl

theorem writeBytes_streaming {offset length : ℕ} {src : Buf}
    (h : Files.writeBytes offset src length s = (some u, s')) :
    Streaming s s' (blit (s.store.bytes (inodeBlock s)) offset src length) := by
  obtain ⟨t, hc, hf, hi, -⟩ := writeBytes_some h
  refine ⟨hf, hi, ?_, ?_, ?_, ?_, fun b hne => ?_⟩
  · rw [hc]
  · rw [hc]
  · rw [hc]
  · rw [hc]
  · rw [hc]
    exact Function.update_of_ne hne _ _

theorem zeroRange_streaming {c : Prop} [Decidable c] {lo hi : ℕ}
    (h : when c (files.zeroRange lo hi) s = (some u, s')) :
    Streaming s s' (if c then blit (s.store.bytes (inodeBlock s)) lo zero (hi - lo)
      else s.store.bytes (inodeBlock s)) := by
  rcases when_eq_some h with ⟨hc, h⟩ | ⟨hc, rfl⟩
  · rw [if_pos hc]; exact writeBytes_streaming h
  · rw [if_neg hc]; exact .of_contents rfl (refl_of Fixed _) rfl

theorem storeStream_some {block size time : ℕ} (h : files.storeStream block size time s = (some u, s')) :
    Fixed s.store s'.store ∧ s'.store.toContents = { s.store.toContents with
      image := Function.update s.store.image block (inodeSetStream s.inode s.stream size time) } := by
  rw [Lower.storeStream] at h
  obtain ⟨s₁, hst, hin, -, h⟩ := setInode_bind_some h
  rw [get_bind_run, hin] at h
  have hc := writeBlock_some h
  rw [hst] at hc
  exact ⟨hst ▸ hc.fixed, hc.contents⟩

theorem Streaming.written {s₀ s₁ s₂ s₃ : Writer Files} {block size time : ℕ} {bytes : Buf}
    (h : Streaming s₁ s₂ bytes) (hb : inodeBlock s₁ = block) (hst : s₁.store = s₀.store)
    (hin : s₁.inode = s₀.store.image block) (hc : s₃.store.toContents = { s₂.store.toContents with
      image := Function.update s₂.store.image block (inodeSetStream s₂.inode s₂.stream size time) }) :
    Written block (inodeSetStream (s₀.store.image block) s₂.stream size time) bytes
      s₀.store.toContents s₃.store.toContents := by
  rw [hc]
  refine ⟨?_, ?_, ?_, ?_, fun b hne => ?_⟩
  · show s₂.store.taken = _
    rw [h.taken, hst]
  · show s₂.store.pairs = _
    rw [h.pairs, hst]
  · show Function.update s₂.store.image block _ = _
    rw [h.image, h.inode, hst, hin]
  · show s₂.store.bytes = _
    rw [h.bytes, hb, hst]
  · show s₂.store.tree b = _
    rw [h.tree b (hb ▸ hne), hst]

def sizeAfter (old offset length : ℕ) : ℕ :=
  if (offset + length) % 2 ^ 64 < old then old else (offset + length) % 2 ^ 64

/-- The bytes after a write: what lies between the old end and the write is zero. -/
def bytesAfter (b : Buf) (old offset : ℕ) (src : Buf) (length : ℕ) : Buf :=
  blit (if old < offset then blit b old zero (offset - old) else b) offset src length

section
-- unification would evaluate the comparison of the sizes
attribute [local irreducible] inodeSize

/-- **Writing a file.** -/
theorem writeBlocks_some {block offset length time : ℕ} {src : Buf}
    (hb : s.store.geometry.toBlock (leRun (s.store.image block) InodeField.kInodeNum) = block)
    (h : files.writeBlocks block offset src length time s = (some u, s')) :
    inUse (s.store.image block) = true ∧ ∃ stream s₁, Fixed s.store s₁.store ∧
      Written block (inodeSetStream (s.store.image block) stream
          (sizeAfter (inodeSize (s.store.image block)) offset length) time)
        (bytesAfter (s.store.bytes block) (inodeSize (s.store.image block)) offset src length)
        s.store.toContents s₁.store.toContents ∧
      Follows (numberEdits kSizeIndex block (inodeMode (s.store.image block))
          (inodeSize (s.store.image block)) (sizeAfter (inodeSize (s.store.image block)) offset length) ++
        numberEdits kLastModifiedIndex block (inodeMode (s.store.image block))
          (inodeMtime (s.store.image block)) time) s₁ s' := by
  rw [Lower.writeBlocks] at h
  obtain ⟨huse, s₂, hst, hin, h⟩ := opened_some h
  rw [get_bind_run, hin] at h
  obtain ⟨covered, s₃, h₃, h⟩ := bind_eq_some h
  obtain ⟨_, s₄, h₄, h⟩ := bind_eq_some h
  obtain ⟨_, s₅, h₅, h⟩ := bind_eq_some h
  obtain ⟨_, s₆, h₆, h⟩ := bind_eq_some h
  have hs₄ := (streamBlocks_streaming h₃).trans (changeStream_streaming h₄)
  have hs₅ := zeroRange_streaming h₅
  have hs₆ := writeBytes_streaming h₆
  have hall := (hs₄.trans hs₅).trans hs₆
  obtain ⟨_, s₇, h₇, h⟩ := bind_eq_some h
  obtain ⟨hfix₇, hc₇⟩ := storeStream_some h₇
  obtain ⟨_, s₈, h₈, h⟩ := bind_eq_some h
  have hfix : Fixed s.store s₆.store := by rw [← hst]; exact hall.fixed
  refine ⟨huse, s₆.stream, s₇, trans_of Fixed hfix hfix₇, ?_, ?_⟩
  · have hblock : inodeBlock s₂ = block := by rw [inodeBlock, hst, hin, hb]
    have hbytes : s₄.store.bytes (inodeBlock s₄) = s.store.bytes block := by
      rw [hs₄.bytes_at, (streamBlocks_streaming h₃).bytes_at, hblock, hst]
    rw [hs₅.bytes_at, hbytes] at hall
    exact hall.written hblock hst hin hc₇
  · exact (indexOnNumber_some h₈).trans (indexOnNumber_some h)

/-- **Resizing a file.** -/
theorem truncateBlocks_some {block size time : ℕ}
    (hb : s.store.geometry.toBlock (leRun (s.store.image block) InodeField.kInodeNum) = block)
    (h : files.truncateBlocks block size time s = (some u, s')) :
    inUse (s.store.image block) = true ∧ ∃ stream bytes s₁, Fixed s.store s₁.store ∧
      Written block (inodeSetStream (s.store.image block) stream size time) bytes
        s.store.toContents s₁.store.toContents ∧
      Follows (numberEdits kSizeIndex block (inodeMode (s.store.image block))
          (inodeSize (s.store.image block)) size ++
        numberEdits kLastModifiedIndex block (inodeMode (s.store.image block))
          (inodeMtime (s.store.image block)) time) s₁ s' := by
  rw [Lower.truncateBlocks] at h
  obtain ⟨huse, s₂, hst, hin, h⟩ := opened_some h
  rw [get_bind_run, hin] at h
  obtain ⟨covered, s₃, h₃, h⟩ := bind_eq_some h
  obtain ⟨_, s₄, h₄, h⟩ := bind_eq_some h
  obtain ⟨_, s₅, h₅, h⟩ := bind_eq_some h
  have hs₄ := (streamBlocks_streaming h₃).trans (changeStream_streaming h₄)
  have hs₅ : ∃ bytes, Streaming s₄ s₅ bytes := by
    rcases when_eq_some h₅ with ⟨-, h₅⟩ | ⟨-, rfl⟩
    · obtain ⟨n, s₆, h₆, h₇⟩ := bind_eq_some h₅
      exact ⟨_, (streamBlocks_streaming h₆).trans (zeroRange_streaming h₇)⟩
    · exact ⟨_, .of_contents rfl (refl_of Fixed _) rfl⟩
  obtain ⟨bytes, hs₅⟩ := hs₅
  have hall := hs₄.trans hs₅
  obtain ⟨_, s₆, h₆, h⟩ := bind_eq_some h
  obtain ⟨hfix₆, hc₆⟩ := storeStream_some h₆
  obtain ⟨_, s₇, h₇, h⟩ := bind_eq_some h
  have hfix : Fixed s.store s₅.store := by rw [← hst]; exact hall.fixed
  refine ⟨huse, s₅.stream, bytes, s₆, trans_of Fixed hfix hfix₆, ?_, ?_⟩
  · exact hall.written (by rw [inodeBlock, hst, hin, hb]) hst hin hc₆
  · exact (indexOnNumber_some h₇).trans (indexOnNumber_some h)

end

/-- **Setting owner and mode.** -/
theorem setOwnerModeBlocks_some {block uid gid mode : ℕ}
    (h : files.setOwnerModeBlocks block uid gid mode s = (some u, s')) :
    inUse (s.store.image block) = true ∧ Fixed s.store s'.store ∧
      s'.store.toContents = { s.store.toContents with
        image := Function.update s.store.image block
          (inodeSetMode (inodeSetOwner (s.store.image block) uid gid) mode) } := by
  rw [Lower.setOwnerModeBlocks] at h
  obtain ⟨_, s₁, h₁, h⟩ := bind_eq_some h
  obtain ⟨huse, hst₁, hin₁⟩ := readInodeBlock_some' h₁
  obtain ⟨s₂, hst₂, hin₂, -, h⟩ := setInode_bind_some h
  rw [get_bind_run, hin₂, hin₁] at h
  have hc := writeBlock_some h
  rw [hst₂, hst₁] at hc
  exact ⟨huse, (hst₂.trans hst₁) ▸ hc.fixed, hc.contents⟩

end

/-! ## Bytes written past the journal -/

/-- No bytes were written past the journal. -/
structure Journaled (s s' : Files) : Prop where
  direct : s'.direct = s.direct
  bytes : s'.bytes = s.bytes

instance : IsPreorder Files Journaled where
  refl _ := ⟨rfl, rfl⟩
  trans := by
    rintro s s' s'' ⟨h₁, h₂⟩ ⟨h₁', h₂'⟩
    exact ⟨h₁'.trans h₁, h₂'.trans h₂⟩

open Writer (OnStore)

theorem bump_journaled (s : Writer Files) : Journaled s.store (bump s).store := ⟨rfl, rfl⟩

/-- Blocks, inodes and trees go through the journal. -/
instance : files.SteadyMeta Journaled where
  allocate _ _ := by
    change Keeps (OnStore Journaled) (Files.allocate _ _)
    refine keeps_call bump_journaled fun d s a s' h => ?_
    dsimp only at h
    split at h
    · cases h; exact ⟨rfl, rfl⟩
    · cases h
  free _ := by
    change Keeps (OnStore Journaled) (Files.free _)
    exact keeps_call bump_journaled fun d s a s' h => by cases h; exact ⟨rfl, rfl⟩
  writeBlock _ _ := by
    change Keeps (OnStore Journaled) (Files.writeBlock _ _)
    exact keeps_call bump_journaled fun d s a s' h => by cases h; exact ⟨rfl, rfl⟩
  treeEdit block _ _ _ := by
    change Keeps (OnStore Journaled) (Files.treeEdit block _ _ _)
    refine keeps_call bump_journaled fun d s a s' h => ?_
    obtain ⟨es, -, h⟩ := Option.map_eq_some_iff.mp h
    cases h
    refine ⟨rfl, ?_⟩
    simp only [scratch_store, put_contents]
    split
    · split <;> rfl
    · rfl
  indexInsertBlocks _ _ _ := by
    change Keeps (OnStore Journaled) (Files.indexInsertBlocks _ _ _)
    refine keeps_call bump_journaled fun d s a s' h => ?_
    split at h
    · cases h; exact ⟨rfl, rfl⟩
    · cases h
  indexRemoveBlocks _ _ _ := by
    change Keeps (OnStore Journaled) (Files.indexRemoveBlocks _ _ _)
    refine keeps_call bump_journaled fun d s a s' h => ?_
    split at h
    · cases h; exact ⟨rfl, rfl⟩
    · cases h
  freeStream := by
    change Keeps (OnStore Journaled) Files.freeStream
    exact keeps_call bump_journaled fun d s a s' h => by cases h; exact ⟨rfl, rfl⟩
  writeTree _ := by
    change Keeps (OnStore Journaled) (Files.writeTree _)
    exact keeps_call bump_journaled fun d s a s' h => by cases h; exact ⟨rfl, rfl⟩

/-- Bytes of the inode in `block` were written at most, of all that were there. -/
structure Past (block : ℕ) (bytes : ℕ → Buf) (s : Writer Files) : Prop where
  direct : ∀ b ∈ s.store.direct, b = block
  bytes : ∀ b, b ≠ block → s.store.bytes b = bytes b

/-- The inode in `inode_` is the one in `block`, and no other's bytes were written. -/
structure Aimed (block : ℕ) (bytes : ℕ → Buf) (s : Writer Files) : Prop extends Past block bytes s where
  aim : inodeBlock s = block

section
variable {s : Writer Files} {block : ℕ} {bytes : ℕ → Buf}

theorem Past.keeps {α : Type} (h : Past block bytes s) (m : Act Files α) [Keeps (OnStore Journaled) m] :
    Past block bytes (m s).2 := by
  have hd : Journaled s.store (m s).2.store := Keeps.keeps (R := OnStore Journaled) (m := m) s
  refine ⟨fun b hb => h.direct b (hd.direct ▸ hb), fun b hb => ?_⟩
  rw [hd.bytes]
  exact h.bytes b hb

theorem Past.post {α : Type} (h : Past block bytes s) (m : Act Files α) [Keeps (OnStore Journaled) m] :
    Post (fun _ => Past block bytes) (Past block bytes) (m s) := by
  have hk := h.keeps m
  rcases hr : m s with ⟨_ | a, s'⟩
  · rw [hr] at hk; exact hk
  · rw [hr] at hk; exact hk

theorem Aimed.call {α : Type} {f : Decision → Writer Files → Option (α × Writer Files)}
    (h : Aimed block bytes s) (hf : ∀ d a s', f d (bump s) = some (a, s') → Aimed block bytes s') :
    Post (fun _ => Aimed block bytes) (Past block bytes) (Files.call f s) := by
  rcases call_cases f s with hr | ⟨d, a, s', hs, hr⟩
  · rw [hr]; exact ⟨h.direct, h.bytes⟩
  · rw [hr]; exact hf d a s' hs

theorem Aimed.streamBlocks (h : Aimed block bytes s) :
    Post (fun _ => Aimed block bytes) (Past block bytes) (files.streamBlocks s) := by
  change Post _ _ (Files.streamBlocks s)
  refine h.call fun d a s' hs => ?_
  cases hs
  exact ⟨⟨h.direct, h.bytes⟩, h.aim⟩

theorem Aimed.changeStream (h : Aimed block bytes s) :
    Post (fun _ => Aimed block bytes) (Past block bytes) (Files.changeStream s) := by
  refine h.call fun d a s' hs => ?_
  cases hs
  exact ⟨⟨h.direct, h.bytes⟩, h.aim⟩

theorem Aimed.writeBytes (h : Aimed block bytes s) (offset : ℕ) (src : Buf) (length : ℕ) :
    Post (fun _ => Aimed block bytes) (Past block bytes) (Files.writeBytes offset src length s) := by
  refine h.call fun d a s' hs => ?_
  cases hs
  refine ⟨⟨fun b hb => ?_, fun b hb => ?_⟩, h.aim⟩
  · rcases List.mem_cons.mp hb with rfl | hb
    · exact h.aim
    · exact h.direct b hb
  · show Function.update s.store.bytes (inodeBlock s) _ b = _
    rw [h.aim, Function.update_of_ne hb]
    exact h.bytes b hb

theorem Aimed.when {c : Prop} [Decidable c] {m : Act Files Unit} (h : Aimed block bytes s)
    (hm : Post (fun _ => Aimed block bytes) (Past block bytes) (m s)) :
    Post (fun _ => Aimed block bytes) (Past block bytes) (Fallible.when c m s) := by
  by_cases hc : c
  · rw [when_pos hc]; exact hm
  · rw [when_neg hc]; exact h

theorem Past.opened
    (hb : s.store.geometry.toBlock (leRun (s.store.image block) InodeField.kInodeNum) = block)
    (hd : Past block bytes s) {k : Writer Files → ℕ → Act Files Unit}
    (hk : ∀ s₁ n s₂, Aimed block bytes s₂ → Post (fun _ => Past block bytes) (Past block bytes) (k s₁ n s₂)) :
    Past block bytes ((do
      files.readInodeBlock block
      Lower.loadStream
      let s ← .get
      let covered ← files.streamBlocks
      k s covered : Act Files Unit) s).2 := by
  refine Post.elim (Q := fun _ => Past block bytes) (E := Past block bytes) ?_ (fun _ _ h => h) fun _ h => h
  have hread : Post (fun _ => Aimed block bytes) (Past block bytes) (files.readInodeBlock block s) := by
    rw [readInodeBlock_run]
    split
    · exact ⟨⟨hd.direct, hd.bytes⟩, hb⟩
    · exact ⟨hd.direct, hd.bytes⟩
  refine hread.bind fun _ s₁ h₁ => ?_
  have h₂ : Aimed block bytes { s₁ with stream := inodeGetStream s₁.inode } := ⟨⟨h₁.direct, h₁.bytes⟩, h₁.aim⟩
  exact h₂.streamBlocks.bind (hk _)

theorem Aimed.store (h : Aimed block bytes s) (size time mode old new oldTime newTime : ℕ) :
    Post (fun _ => Past block bytes) (Past block bytes) ((do
      files.storeStream block size time
      files.indexOnResize block mode old new
      files.indexOnTime block mode oldTime newTime : Act Files Unit) s) := by
  refine (h.toPast.post (files.storeStream block size time)).bind fun _ s₁ h₁ => ?_
  refine (h₁.post (files.indexOnNumber kSizeIndex block mode old new)).bind fun _ s₂ h₂ => ?_
  exact h₂.post (files.indexOnNumber kLastModifiedIndex block mode oldTime newTime)

theorem writeBlocks_past
    (hb : s.store.geometry.toBlock (leRun (s.store.image block) InodeField.kInodeNum) = block)
    (hd : Past block bytes s) (offset : ℕ) (src : Buf) (length time : ℕ) :
    Past block bytes (files.writeBlocks block offset src length time s).2 := by
  rw [Lower.writeBlocks]
  refine hd.opened hb fun _ _ s₃ h₃ => ?_
  refine (h₃.when h₃.changeStream).bind fun _ s₄ h₄ => ?_
  refine (h₄.when (h₄.writeBytes _ _ _)).bind fun _ s₅ h₅ => ?_
  refine (h₅.writeBytes _ _ _).bind fun _ s₆ h₆ => ?_
  exact h₆.store ..

theorem truncateBlocks_past
    (hb : s.store.geometry.toBlock (leRun (s.store.image block) InodeField.kInodeNum) = block)
    (hd : Past block bytes s) (size time : ℕ) :
    Past block bytes (files.truncateBlocks block size time s).2 := by
  rw [Lower.truncateBlocks]
  refine hd.opened hb fun _ _ s₃ h₃ => ?_
  refine (h₃.when h₃.changeStream).bind fun _ s₄ h₄ => ?_
  refine Post.bind (Q := fun _ => Aimed block bytes) (h₄.when ?_) fun _ s₅ h₅ => h₅.store ..
  exact h₄.streamBlocks.bind fun _ s₅ h₅ => h₅.when (h₅.writeBytes _ _ _)

end

/-! ## Operations -/

/-- A volume that is left as it was, but for the bytes of one inode. -/
structure Untouched (block : ℕ) (c c' : Contents) : Prop where
  image : c'.image = c.image
  taken : c'.taken = c.taken
  pairs : c'.pairs = c.pairs
  bytes : ∀ b, b ≠ block → c'.bytes b = c.bytes b
  tree : ∀ b, b ≠ block → c'.tree b = c.tree b

/-- The ends of an operation on the volume `s`: it is refused into `E`, or answers into
    `Q`; the volume is ready for the next one. -/
structure Ended {α : Type} (s : Files) (E : Contents → Prop) (Q : α → Contents → Prop)
    (r : Option α × Writer Files) : Prop where
  same : SameVolume s r.2.store
  idle : r.2.store.active = false
  outcome : (r.1 = none ∧ E r.2.store.toContents) ∨ ∃ a, r.1 = some a ∧ Q a r.2.store.toContents

theorem past_begun (block : ℕ) (s : Writer Files) : Past block s.store.bytes (begun s) :=
  ⟨fun _ hb => absurd hb List.not_mem_nil, fun _ _ => rfl⟩

section
variable {s : Writer Files} (ha : s.store.active = false)
include ha

section
variable {α : Type} {m : Act Files α} [Keeps (OnStore Fixed) m] {E : Contents → Prop} {Q : α → Contents → Prop}
  (hQ : ∀ a s', m (begun s) = (some a, s') → Q a s'.store.toContents)
include hQ

theorem Ended.transaction (hE : E { s.store.toContents with
      bytes := (m (begun s)).2.store.bytes
      tree := fun b => if b ∈ (m (begun s)).2.store.direct then (m (begun s)).2.store.tree b
        else s.store.tree b }) : Ended s.store E Q (files.transaction m s) := by
  obtain ⟨hv, hidle, ⟨a, s', hs', h₁, h₂⟩ | ⟨h₁, h₂⟩⟩ := transaction_cases m s ha
  · exact ⟨hv, hidle, Or.inr ⟨a, h₁, h₂ ▸ hQ a s' hs'⟩⟩
  · exact ⟨hv, hidle, Or.inl ⟨h₁, h₂ ▸ hE⟩⟩

theorem Ended.journaled [Keeps (OnStore Journaled) m] :
    Ended s.store (fun c => c = s.store.toContents) Q (files.transaction m s) := by
  have hj : Journaled (begun s).store (m (begun s)).2.store := Keeps.keeps (R := OnStore Journaled) (m := m) (begun s)
  refine .transaction ha hQ ?_
  rw [hj.direct, hj.bytes]
  rfl

theorem Ended.past {block : ℕ} (hp : Past block s.store.bytes (m (begun s)).2) :
    Ended s.store (Untouched block s.store.toContents) Q (files.transaction m s) :=
  .transaction ha hQ ⟨rfl, rfl, rfl, hp.bytes, fun b hb => if_neg fun hmem => hb (hp.direct b hmem)⟩

end

theorem create_ended {parent : ℕ} (hp : s.store.taken parent = true) (name : Key) (mode uid gid time : ℕ) :
    Ended s.store (fun c => c = s.store.toContents)
      (fun block c => name.length ≠ 0 ∧ name.length ≤ kMaxName ∧ ∃ run c₁,
        block = s.store.geometry.toBlock run ∧
        Made s.store.geometry parent name mode uid gid time run s.store.toContents c₁ ∧
        Reindexed (s.store.index c₁) (entryEdits true block name (nodeMode mode) 0 time) c₁ c)
      (files.create parent name mode uid gid time s) := by
  refine .journaled (m := files.createBlocks parent name mode uid gid time) ha fun block s' hs' => ?_
  obtain ⟨hn, hl, -, run, s₁, hb, hf, hm, hfol⟩ := createBlocks_some (s := begun s) hp hs'
  exact ⟨hn, hl, run, s₁.store.toContents, hb, hm, hfol.indexed hf⟩

theorem remove_ended (parent : ℕ) (name : Key) :
    Ended s.store (fun c => c = s.store.toContents)
      (fun _ c => ∃ child es c₁ c₂,
        files.dirFind s.store (inodeView (s.store.image parent)) name = some child ∧
        (modeIsDirectory (inodeMode (s.store.image child)) = true →
          files.dirEmpty s.store (inodeView (s.store.image child)) = true) ∧
        s.store.tree parent = some es ∧
        c₁ = { s.store.toContents with
          tree := Function.update s.store.tree parent (some (es.filter fun e => e.1 ≠ name)) } ∧
        Reindexed (s.store.index c₁) (entryEdits false child name (inodeMode (s.store.image child))
          (inodeSize (s.store.image child)) (inodeMtime (s.store.image child))) c₁ c₂ ∧
        c = { c₂ with taken := fun b => c₂.taken b && decide (b ∉ runBlocks s.store.geometry
          (leRun (c₂.image child) InodeField.kInodeNum)) })
      (files.remove parent name s) := by
  refine .journaled (m := files.removeBlocks parent name) ha fun _ s' hs' => ?_
  obtain ⟨child, es, s₁, s₂, hchild, -, hempty, htree, hf, hc₁, hfol, -, hc⟩ := removeBlocks_some hs'
  exact ⟨child, es, s₁.store.toContents, s₂.store.toContents, hchild, hempty, htree, hc₁,
    hfol.indexed hf, hc⟩

theorem rename_ended (parent : ℕ) (source target : Key) :
    Ended s.store (fun c => c = s.store.toContents)
      (fun _ c => ∃ child es c₁ img,
        files.dirFind s.store (inodeView (s.store.image parent)) source = some child ∧
        files.dirFind s.store (inodeView (s.store.image parent)) target = none ∧
        s.store.tree parent = some es ∧ Restreamed (s.store.image parent) img ∧
        c₁ = { s.store.toContents with
          tree := Function.update s.store.tree parent
            (some ((target, child) :: es.filter fun e => e.1 ≠ source))
          image := Function.update s.store.image parent img } ∧
        Reindexed (s.store.index c₁)
          [⟨false, kNameIndex, source, child⟩, ⟨true, kNameIndex, target, child⟩] c₁ c)
      (files.rename parent source target s) := by
  refine .journaled (m := files.renameBlocks parent source target) ha fun _ s' hs' => ?_
  obtain ⟨child, es, s₁, hchild, htarget, htree, hf, ⟨img, himg, hc₁⟩, hfol⟩ := renameBlocks_some hs'
  exact ⟨child, es, s₁.store.toContents, img, hchild, htarget, htree, himg, hc₁, hfol.indexed hf⟩

theorem setOwnerMode_ended (block uid gid mode : ℕ) :
    Ended s.store (fun c => c = s.store.toContents)
      (fun _ c => c = { s.store.toContents with
        image := Function.update s.store.image block
          (inodeSetMode (inodeSetOwner (s.store.image block) uid gid) mode) })
      (files.setOwnerMode block uid gid mode s) := by
  refine .journaled (m := files.setOwnerModeBlocks block uid gid mode) ha fun _ s' hs' => ?_
  obtain ⟨-, -, hc⟩ := setOwnerModeBlocks_some hs'
  exact hc

variable {block : ℕ}
  (hb : s.store.geometry.toBlock (leRun (s.store.image block) InodeField.kInodeNum) = block)
include hb

theorem write_ended (offset : ℕ) (data : List UInt8) (time : ℕ) :
    Ended s.store (Untouched block s.store.toContents)
      (fun _ c => ∃ stream c₁,
        Written block (inodeSetStream (s.store.image block) stream
            (sizeAfter (inodeSize (s.store.image block)) offset data.length) time)
          (bytesAfter (s.store.bytes block) (inodeSize (s.store.image block)) offset (ofList data) data.length)
          s.store.toContents c₁ ∧
        Reindexed (s.store.index c₁) (numberEdits kSizeIndex block (inodeMode (s.store.image block))
            (inodeSize (s.store.image block))
            (sizeAfter (inodeSize (s.store.image block)) offset data.length) ++
          numberEdits kLastModifiedIndex block (inodeMode (s.store.image block))
            (inodeMtime (s.store.image block)) time) c₁ c)
      (files.write block offset data time s) := by
  refine .past ha (fun _ s' hs' => ?_)
    (writeBlocks_past (s := begun s) hb (past_begun block s) offset (ofList data) data.length time)
  obtain ⟨-, stream, s₁, hf, hw, hfol⟩ := writeBlocks_some (s := begun s) hb hs'
  exact ⟨stream, s₁.store.toContents, hw, hfol.indexed hf⟩

theorem truncate_ended (size time : ℕ) :
    Ended s.store (Untouched block s.store.toContents)
      (fun _ c => ∃ stream bytes c₁,
        Written block (inodeSetStream (s.store.image block) stream size time) bytes s.store.toContents c₁ ∧
        Reindexed (s.store.index c₁) (numberEdits kSizeIndex block (inodeMode (s.store.image block))
            (inodeSize (s.store.image block)) size ++
          numberEdits kLastModifiedIndex block (inodeMode (s.store.image block))
            (inodeMtime (s.store.image block)) time) c₁ c)
      (files.truncate block size time s) := by
  refine .past ha (fun _ s' hs' => ?_) (truncateBlocks_past (s := begun s) hb (past_begun block s) size time)
  obtain ⟨-, stream, bytes, s₁, hf, hw, hfol⟩ := truncateBlocks_some (s := begun s) hb hs'
  exact ⟨stream, bytes, s₁.store.toContents, hw, hfol.indexed hf⟩

end

end Files

end Aegir.Bfs
