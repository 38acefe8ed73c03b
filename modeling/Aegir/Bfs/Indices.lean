/-
  The standard indices follow the tree of names (`writer.cc`, `index_on_create` to
  `index_on_time` and the operations that call them).
-/
import Aegir.Bfs.Namespace

namespace Aegir.Bfs

open Aegir.Lib Aegir.Lib.Buf Aegir.Lib.Fallible Files

/-! ## Pairs and their edits -/

/-- The list has the pairs of `S`, each once. -/
structure HoldsExactly (l : List Entry) (S : Set Entry) : Prop where
  nodup : l.Nodup
  mem : ∀ e, e ∈ l ↔ e ∈ S

section
variable {l : List Entry} {S : Set Entry} {e : Entry}

theorem HoldsExactly.insert (h : HoldsExactly l S) (he : e ∉ S) : HoldsExactly (e :: l) (insert e S) := by
  refine ⟨List.nodup_cons.mpr ⟨fun hmem => he ((h.mem e).mp hmem), h.nodup⟩, fun e' => ?_⟩
  rw [List.mem_cons, Set.mem_insert_iff, h.mem]

theorem HoldsExactly.erase (h : HoldsExactly l S) (e : Entry) : HoldsExactly (l.erase e) (S \ {e}) := by
  refine ⟨h.nodup.erase e, fun e' => ?_⟩
  rw [h.nodup.mem_erase_iff, h.mem, Set.mem_sdiff, Set.mem_singleton_iff, and_comm]

theorem HoldsExactly.replace (h : HoldsExactly l S) {e' : Entry} (he : e' ∉ S \ {e}) :
    HoldsExactly (e' :: l.erase e) (Insert.insert e' (S \ {e})) := (h.erase e).insert he

end

def editPairs (index : Key) (edits : List IndexEdit) (l : List Entry) : List Entry :=
  edits.foldl (fun l e => if e.index = index then
    if e.add then (e.key, e.value) :: l else l.erase (e.key, e.value) else l) l

theorem foldl_apply {ix : Key → Option ℕ} (hinj : ∀ name name' b, ix name = some b → ix name' = some b → name = name')
    {index : Key} {block : ℕ} (hb : ix index = some block) (edits : List IndexEdit) (pairs : ℕ → List Entry) :
    edits.foldl (IndexEdit.apply ix) pairs block = editPairs index edits (pairs block) := by
  induction edits generalizing pairs with
  | nil => rfl
  | cons e edits ih =>
    rw [List.foldl_cons, ih, editPairs, editPairs, List.foldl_cons]
    congr 1
    unfold IndexEdit.apply
    by_cases he : e.index = index
    · rw [he, hb, if_pos rfl]
      exact Function.update_self ..
    · rw [if_neg he]
      rcases hi : ix e.index with _ | b
      · rfl
      · refine Function.update_of_ne ?_ _ _
        rintro rfl
        exact he (hinj _ _ _ hi hb)

/-! ## The indices of a volume -/

def Contents.inodeAt (g : Geometry) (c : Contents) (b : ℕ) : Option Inode :=
  if c.taken b = true ∧ b < g.numBlocks then parseInode g.blockSize (c.image b) else none

theorem nodeAt_eq (g : Geometry) (c : Contents) (b : ℕ) : c.nodeAt g b = (c.inodeAt g b).map Inode.node := by
  unfold Contents.nodeAt Contents.inodeAt
  split <;> rfl

def Contents.fileAt (g : Geometry) (c : Contents) (b : ℕ) : Option Inode :=
  (c.inodeAt g b).filter fun i => isIndexedFile i.mode

/-- Every entry that is no dot entry. -/
def namePairs (g : Geometry) (c : Contents) : Set Entry :=
  { e | ∃ d m es, c.nodeAt g d = some m ∧ m.directory = true ∧ c.tree d = some es ∧ e ∈ es ∧
    isDotName e.1 = false }

def numberPairs (number : Inode → ℕ) (g : Geometry) (c : Contents) : Set Entry :=
  { e | ∃ i, c.fileAt g e.2 = some i ∧ e.1 = numberKey (number i) }

def Files.indicesBlock (s : Files) : ℕ := s.geometry.toBlock s.indices

/-- The indices' directory and the indices are inodes of their own, no files and no
    directories of the tree. -/
structure HasIndices (s : Files) : Prop where
  dir : runIsZero s.indices = false →
    ∃ n, s.node s.indicesBlock = some n ∧ n.regular = false ∧ n.dirMode = true
  index : ∀ name b, files.indexInode s name = some b →
    ∃ n, s.node b = some n ∧ n.regular = false ∧ n.dirMode = true
  distinct : ∀ name name' b, files.indexInode s name = some b → files.indexInode s name' = some b →
    name = name'

/-- The standard indices are exact. -/
structure Indices (s : Files) : Prop extends HasIndices s where
  name : ∀ b, files.indexInode s kNameIndex = some b → HoldsExactly (s.pairs b) (namePairs s.geometry s.toContents)
  size : ∀ b, files.indexInode s kSizeIndex = some b →
    HoldsExactly (s.pairs b) (numberPairs Inode.size s.geometry s.toContents)
  time : ∀ b, files.indexInode s kLastModifiedIndex = some b →
    HoldsExactly (s.pairs b) (numberPairs Inode.mtime s.geometry s.toContents)

/-- A change that leaves the inodes that are no files and no directories of the tree,
    and what is a tree among them. -/
structure Spares (s : Files) (c : Contents) : Prop where
  node : ∀ b n, s.node b = some n → n.regular = false → c.nodeAt s.geometry b = some n
  tree : ∀ b n, s.node b = some n → n.regular = false → n.dirMode = true → c.tree b = s.tree b

section
variable {P : Key → Prop} {s s' : Files} {c c₁ c₂ : Contents}

theorem indexInode_of_node {n : Node} (hz : runIsZero s.indices = false)
    (hn : c.nodeAt s.geometry s.indicesBlock = some n) (name : Key) :
    s.index c name = (c.tree (s.geometry.toBlock n.run)).bind fun es => es.lookup name := by
  obtain ⟨hlt, i, hi, rfl⟩ := nodeAt_parse hn
  have hread : files.readInode (s.holding c) s.indicesBlock = some i := by
    unfold Lower.readInode
    exact (if_neg (Nat.not_le.mpr hlt)).trans hi
  show (if runIsZero s.indices then none
    else (files.readInode (s.holding c) s.indicesBlock).bind fun dir => files.dirFind (s.holding c) dir name) = _
  rw [hz, hread]
  rfl

/-- The indices are found as before, -/
theorem Spares.index_eq (hs : Spares s c) (h : HasIndices s) (hf : Formed P s) :
    s.index c = files.indexInode s := by
  have hself : files.indexInode s = s.index s.toContents := rfl
  funext name
  rcases hz : runIsZero s.indices
  · obtain ⟨n, hn, hreg, hd⟩ := h.dir hz
    rw [hself, indexInode_of_node hz hn, indexInode_of_node hz (hs.node _ n hn hreg),
      show s.geometry.toBlock n.run = s.indicesBlock from hf.names.toBlock_run hn, hs.tree _ n hn hreg hd]
  · show (if runIsZero s.indices then none else _) = (if runIsZero s.indices then none else _)
    rw [hz]
    rfl

/-- and so they are there. -/
theorem Spares.hasIndices (hs : Spares s s'.toContents) (h : HasIndices s) (hf : Formed P s)
    (hv : SameVolume s s') : HasIndices s' ∧ files.indexInode s' = files.indexInode s := by
  have hix : files.indexInode s' = files.indexInode s := hv.index.trans (hs.index_eq h hf)
  have hnode : ∀ b n, s.node b = some n → n.regular = false → s'.node b = some n := by
    intro b n hn hreg
    unfold Files.node
    rw [hv.geometry]
    exact hs.node b n hn hreg
  refine ⟨⟨fun hz => ?_, fun name b hb => ?_, fun name name' b hb hb' => ?_⟩, hix⟩
  · rw [hv.indices] at hz
    obtain ⟨n, hn, hreg, hd⟩ := h.dir hz
    refine ⟨n, ?_, hreg, hd⟩
    unfold Files.indicesBlock
    rw [hv.geometry, hv.indices]
    exact hnode _ n hn hreg
  · rw [hix] at hb
    obtain ⟨n, hn, hreg, hd⟩ := h.index name b hb
    exact ⟨n, hnode b n hn hreg, hreg, hd⟩
  · rw [hix] at hb hb'
    exact h.distinct name name' b hb hb'

end

/-! ## Numbers of plain files -/

theorem numberKey_mod (v : ℕ) : numberKey (v % 2 ^ 64) = numberKey v := by
  unfold numberKey
  refine bytes_congr fun k hk => ?_
  have hle : le 8 (Buf.put 8 zero 0 (v % 2 ^ 64)) 0 = le 8 (Buf.put 8 zero 0 v) 0 := by
    rw [le_put, le_put]
    exact Nat.mod_mod v (2 ^ 64)
  exact bytes_of_le_eq hle k hk

theorem isIndexedFile_regular {mode : ℕ} (h : isIndexedFile mode = true) :
    isRegularNode mode = true ∧ modeIsDirectory mode = false := by
  unfold isIndexedFile at h
  rw [beq_iff_eq] at h
  have hand : ∀ k, (mode &&& (kModeTypeMask ||| kModeAttrDir ||| kModeAttr ||| kModeIndexDir)) &&& k =
      kModeRegular &&& k := fun k => by rw [h]
  constructor
  · have := hand (kModeAttrDir ||| kModeAttr ||| kModeIndexDir)
    rw [Nat.and_assoc] at this
    unfold isRegularNode
    rw [beq_iff_eq]
    exact this
  · have := hand kModeTypeMask
    rw [Nat.and_assoc] at this
    unfold modeIsDirectory
    rw [show mode &&& kModeTypeMask = kModeRegular &&& kModeTypeMask from this]
    rfl

section
variable {g : Geometry} {c c' : Contents} {b : ℕ} {number : Inode → ℕ}

def Contents.numberAt (number : Inode → ℕ) (g : Geometry) (c : Contents) (b : ℕ) : Option ℕ :=
  (c.fileAt g b).map number

theorem mem_numberPairs {e : Entry} :
    e ∈ numberPairs number g c ↔ ∃ v, c.numberAt number g e.2 = some v ∧ e.1 = numberKey v := by
  constructor
  · rintro ⟨i, hi, hk⟩
    exact ⟨number i, by rw [Contents.numberAt, hi]; rfl, hk⟩
  · rintro ⟨v, hv, hk⟩
    obtain ⟨i, hi, rfl⟩ := Option.map_eq_some_iff.mp hv
    exact ⟨i, hi, hk⟩

theorem fileAt_eq_none {n : Node} (hn : c.nodeAt g b = some n) (h : n.regular = false ∨ n.dirMode = true) :
    c.fileAt g b = none := by
  rw [nodeAt_eq] at hn
  obtain ⟨i, hi, rfl⟩ := Option.map_eq_some_iff.mp hn
  unfold Contents.fileAt
  rw [hi]
  rcases hx : isIndexedFile i.mode
  · simp [hx]
  · obtain ⟨hreg, hdir⟩ := isIndexedFile_regular hx
    rcases h with h | h
    · rw [show isRegularNode i.mode = false from h] at hreg; cases hreg
    · rw [show modeIsDirectory i.mode = true from h] at hdir; cases hdir

theorem fileAt_congr (ht : c'.taken b = c.taken b) (hi : c'.image b = c.image b) :
    c'.fileAt g b = c.fileAt g b := by
  unfold Contents.fileAt Contents.inodeAt
  rw [ht, hi]

theorem numberAt_remoded (hnumber : number = Inode.size ∨ number = Inode.mtime) (ht : c'.taken b = c.taken b)
    (hi : Remoded (c.image b) (c'.image b)) : c'.numberAt number g b = c.numberAt number g b := by
  unfold Contents.numberAt Contents.fileAt Contents.inodeAt
  rw [ht]
  split
  · rcases hi.parse g.blockSize with ⟨h₁, h₂⟩ | ⟨i, i', h₁, h₂, hsame⟩
    · rw [h₁, h₂]
    · have hsize : number i' = number i := by
        rcases hnumber with rfl | rfl <;> rw [hsame.fields]
      have hindexed := isIndexedFile_of_div_eq hsame.type
      rw [h₁, h₂, Option.filter_some, Option.filter_some, hindexed]
      split
      · rw [Option.map_some, Option.map_some, hsize]
      · rfl
  · rfl

/-- The list of a number's pairs when the file in one block changes. -/
def retarget (b : ℕ) (old new : Option ℕ) (l : List Entry) : List Entry :=
  new.elim (old.elim l fun v => l.erase (numberKey v, b)) fun v =>
    (numberKey v, b) :: old.elim l fun v => l.erase (numberKey v, b)

/-- **A number of one file changes**, comes or goes. -/
theorem HoldsExactly.retarget {l : List Entry} (h : HoldsExactly l (numberPairs number g c))
    (ho : ∀ b', b' ≠ b → c'.numberAt number g b' = c.numberAt number g b') :
    HoldsExactly (retarget b (c.numberAt number g b) (c'.numberAt number g b) l) (numberPairs number g c') := by
  have hdrop : HoldsExactly ((c.numberAt number g b).elim l fun v => l.erase (numberKey v, b))
      (numberPairs number g c \ { e | e.2 = b }) := by
    rcases hv : c.numberAt number g b with _ | v
    · refine ⟨h.nodup, fun e => ?_⟩
      rw [Option.elim, h.mem, Set.mem_sdiff, iff_self_and]
      intro he heq
      obtain ⟨v, hv', -⟩ := mem_numberPairs.mp he
      rw [show e.2 = b from heq, hv] at hv'
      cases hv'
    · refine ⟨h.nodup.erase _, fun e => ?_⟩
      rw [Option.elim, h.nodup.mem_erase_iff, h.mem, Set.mem_sdiff, and_comm, and_congr_right_iff]
      intro he
      rw [not_iff_not, Set.mem_ofPred_eq]
      constructor
      · rintro rfl; rfl
      · intro heq
        obtain ⟨v', hv', hk⟩ := mem_numberPairs.mp he
        rw [heq, hv] at hv'
        cases hv'
        exact Prod.ext hk heq
  have hrest : ∀ e : Entry, e.2 ≠ b → (e ∈ numberPairs number g c' ↔ e ∈ numberPairs number g c) := by
    intro e he
    rw [mem_numberPairs, mem_numberPairs, ho e.2 he]
  unfold Bfs.retarget
  rcases hv : c'.numberAt number g b with _ | v
  · refine ⟨hdrop.nodup, fun e => ?_⟩
    rw [Option.elim, hdrop.mem, Set.mem_sdiff, Set.mem_ofPred_eq]
    by_cases he : e.2 = b
    · refine ⟨fun h => absurd he h.2, fun hmem => ?_⟩
      obtain ⟨v, hv', -⟩ := mem_numberPairs.mp hmem
      rw [he, hv] at hv'
      cases hv'
    · rw [hrest e he]
      exact ⟨fun h => h.1, fun h => ⟨h, he⟩⟩
  · have hnew := hdrop.insert (e := (numberKey v, b)) fun hmem => hmem.2 rfl
    refine ⟨hnew.nodup, fun e => ?_⟩
    rw [Option.elim, hnew.mem, Set.mem_insert_iff, Set.mem_sdiff, Set.mem_ofPred_eq]
    by_cases he : e.2 = b
    · constructor
      · rintro (rfl | ⟨-, hne⟩)
        · exact mem_numberPairs.mpr ⟨v, hv, rfl⟩
        · exact absurd he hne
      · intro hmem
        obtain ⟨v', hv', hk⟩ := mem_numberPairs.mp hmem
        rw [he, hv] at hv'
        cases hv'
        exact Or.inl (Prod.ext hk he)
    · rw [hrest e he]
      constructor
      · rintro (rfl | ⟨hmem, -⟩)
        · exact absurd rfl he
        · exact hmem
      · exact fun hmem => Or.inr ⟨hmem, he⟩

theorem HoldsExactly.sameNumbers {l : List Entry} (h : HoldsExactly l (numberPairs number g c))
    (ho : ∀ b, c'.numberAt number g b = c.numberAt number g b) : HoldsExactly l (numberPairs number g c') := by
  refine ⟨h.nodup, fun e => ?_⟩
  rw [h.mem, mem_numberPairs, mem_numberPairs, ho]

end

/-! ## An operation and its edits -/

section
variable {g : Geometry} {c c' : Contents} {b : ℕ} {n : Node} {number : Inode → ℕ}

theorem namePairs_congr (hn : ∀ b, c'.nodeAt g b = c.nodeAt g b)
    (ht : ∀ b n, c.nodeAt g b = some n → n.directory = true → c'.tree b = c.tree b) :
    namePairs g c' = namePairs g c := by
  ext e
  constructor
  · rintro ⟨d, m, es, hm, hd, hes, he⟩
    rw [hn] at hm
    exact ⟨d, m, es, hm, hd, (ht d m hm hd) ▸ hes, he⟩
  · rintro ⟨d, m, es, hm, hd, hes, he⟩
    exact ⟨d, m, es, (hn d).trans hm, hd, (ht d m hm hd).trans hes, he⟩

theorem numberAt_of_node (hn : c.nodeAt g b = some n) (h : n.regular = false ∨ n.dirMode = true)
    (hn' : c'.nodeAt g b = c.nodeAt g b) : c'.numberAt number g b = c.numberAt number g b := by
  unfold Contents.numberAt
  rw [fileAt_eq_none hn h, fileAt_eq_none (hn'.trans hn) h]

end

section
variable {P : Key → Prop} {s s' : Files} {c₁ : Contents}

/-- **An operation follows**: its edits make of each index what the volume then says. -/
theorem Indices.follow {edits : List IndexEdit} (h : Indices s) (hf : Formed P s) (hv : SameVolume s s')
    (hs₁ : Spares s c₁) (hp : c₁.pairs = s.pairs)
    (hr : Reindexed (s.index c₁) edits c₁ s'.toContents)
    (hname : ∀ l, HoldsExactly l (namePairs s.geometry s.toContents) →
      HoldsExactly (editPairs kNameIndex edits l) (namePairs s.geometry c₁))
    (hsize : ∀ l, HoldsExactly l (numberPairs Inode.size s.geometry s.toContents) →
      HoldsExactly (editPairs kSizeIndex edits l) (numberPairs Inode.size s.geometry c₁))
    (htime : ∀ l, HoldsExactly l (numberPairs Inode.mtime s.geometry s.toContents) →
      HoldsExactly (editPairs kLastModifiedIndex edits l) (numberPairs Inode.mtime s.geometry c₁)) :
    Indices s' := by
  have hnode : ∀ b, s'.toContents.nodeAt s.geometry b = c₁.nodeAt s.geometry b :=
    fun b => nodeAt_congr (congrFun hr.taken b) (hr.restreamed b).sameHead
  have hs : Spares s s'.toContents := by
    refine ⟨fun b n hn hreg => (hnode b).trans (hs₁.node b n hn hreg), fun b n hn hreg hd => ?_⟩
    rw [hr.tree]
    exact hs₁.tree b n hn hreg hd
  have hix₁ := hs₁.index_eq h.toHasIndices hf
  -- the edits of the indices change no inode but the indices' own
  have hnumber : ∀ (number : Inode → ℕ) b,
      s'.toContents.numberAt number s.geometry b = c₁.numberAt number s.geometry b := by
    intro number b
    by_cases hb : ∃ name, s.index c₁ name = some b
    · obtain ⟨name, hb⟩ := hb
      rw [hix₁] at hb
      obtain ⟨n, hn, hreg, -⟩ := h.index name b hb
      exact numberAt_of_node (hs₁.node b n hn hreg) (Or.inl hreg) (hnode b)
    · unfold Contents.numberAt
      rw [fileAt_congr (congrFun hr.taken b) (hr.image b fun name hn => hb ⟨name, hn⟩)]
  have hpairs : ∀ {index b}, files.indexInode s index = some b →
      s'.pairs b = editPairs index edits (s.pairs b) := by
    intro index b hb
    rw [hr.pairs, hix₁, hp]
    exact foldl_apply h.distinct hb edits s.pairs
  obtain ⟨hhas, hix⟩ := hs.hasIndices h.toHasIndices hf hv
  refine ⟨hhas, fun b hb => ?_, fun b hb => ?_, fun b hb => ?_⟩
  · rw [hix] at hb
    rw [hpairs hb, hv.geometry, namePairs_congr hnode fun b _ _ _ => congrFun hr.tree b]
    exact hname _ (h.name b hb)
  · rw [hix] at hb
    rw [hpairs hb, hv.geometry]
    exact (hsize _ (h.size b hb)).sameNumbers (hnumber _)
  · rw [hix] at hb
    rw [hpairs hb, hv.geometry]
    exact (htime _ (h.time b hb)).sameNumbers (hnumber _)

theorem Indices.spared (h : Indices s) (hf : Formed P s) (hv : SameVolume s s') (hs : Spares s s'.toContents)
    (hp : s'.pairs = s.pairs) (hname : namePairs s.geometry s'.toContents = namePairs s.geometry s.toContents)
    (hnumber : ∀ number, number = Inode.size ∨ number = Inode.mtime → ∀ b,
      s'.toContents.numberAt number s.geometry b = s.toContents.numberAt number s.geometry b) :
    Indices s' := by
  refine h.follow hf hv hs hp (.refl _ _) (fun l hl => ?_) (fun l hl => ?_) fun l hl => ?_
  · rw [hname]; exact hl
  · exact hl.sameNumbers (hnumber _ (Or.inl rfl))
  · exact hl.sameNumbers (hnumber _ (Or.inr rfl))

end

/-! ## What the edits of an operation do -/

theorem editPairs_append (index : Key) (es es' : List IndexEdit) (l : List Entry) :
    editPairs index (es ++ es') l = editPairs index es' (editPairs index es l) := by
  unfold editPairs
  rw [List.foldl_append]

theorem editPairs_numberEdits (index : Key) (b mode old new : ℕ) (l : List Entry) :
    editPairs index (numberEdits index b mode old new) l =
      if old = new ∨ isIndexedFile mode = false then l
      else (numberKey new, b) :: l.erase (numberKey old, b) := by
  unfold editPairs numberEdits
  split <;> simp

theorem editPairs_numberEdits_of_ne {index index' : Key} (h : index' ≠ index) (b mode old new : ℕ)
    (l : List Entry) : editPairs index (numberEdits index' b mode old new) l = l := by
  unfold editPairs numberEdits
  split <;> simp [h]

section
variable (add : Bool) (b : ℕ) (name : Key) (mode size time : ℕ) (l : List Entry)

theorem editPairs_entryEdits_name : editPairs kNameIndex (entryEdits add b name mode size time) l =
    if isRegularNode mode then if add then (name, b) :: l else l.erase (name, b) else l := by
  have h₁ : kSizeIndex ≠ kNameIndex := by decide
  have h₂ : kLastModifiedIndex ≠ kNameIndex := by decide
  unfold editPairs entryEdits
  split <;> split <;> simp [h₁, h₂]

theorem editPairs_entryEdits_size : editPairs kSizeIndex (entryEdits add b name mode size time) l =
    if isIndexedFile mode then
      if add then (numberKey size, b) :: l else l.erase (numberKey size, b) else l := by
  have h₁ : kNameIndex ≠ kSizeIndex := by decide
  have h₂ : kLastModifiedIndex ≠ kSizeIndex := by decide
  unfold editPairs entryEdits
  split <;> split <;> simp [h₁, h₂]

theorem editPairs_entryEdits_time : editPairs kLastModifiedIndex (entryEdits add b name mode size time) l =
    if isIndexedFile mode then
      if add then (numberKey time, b) :: l else l.erase (numberKey time, b) else l := by
  have h₁ : kNameIndex ≠ kLastModifiedIndex := by decide
  have h₂ : kSizeIndex ≠ kLastModifiedIndex := by decide
  unfold editPairs entryEdits
  split <;> split <;> simp [h₁, h₂]

end

/-- A number of an inode is a 64-bit field of its block. -/
structure FieldOf (number : Inode → ℕ) (field : Buf → ℕ) : Prop where
  lt : ∀ img, field img < 2 ^ 64
  parse : ∀ {blockSize img i}, parseInode blockSize img = some i → number i = field img

theorem parseInode_some {blockSize : ℕ} {img : Buf} {i : Inode} (h : parseInode blockSize img = some i) :
    i.mode = inodeMode img ∧ i.size = inodeSize img ∧ i.mtime = inodeMtime img := by
  unfold parseInode at h
  split at h
  · cases h
  · cases h
    exact ⟨rfl, rfl, rfl⟩

theorem fieldOf_size : FieldOf Inode.size inodeSize :=
  ⟨fun _ => le_lt .., fun h => (parseInode_some h).2.1⟩

theorem fieldOf_mtime : FieldOf Inode.mtime inodeMtime :=
  ⟨fun _ => le_lt .., fun h => (parseInode_some h).2.2⟩

section
variable {g : Geometry} {c c' : Contents} {b : ℕ} {n : Node} {number : Inode → ℕ} {field : Buf → ℕ}
  (hf : FieldOf number field)
include hf

theorem FieldOf.numberAt (hn : c.nodeAt g b = some n) : c.numberAt number g b =
    if isIndexedFile (inodeMode (c.image b)) then some (field (c.image b)) else none := by
  obtain ⟨hlt, i, hi, -⟩ := nodeAt_parse hn
  obtain ⟨hmode, -⟩ := parseInode_some hi
  unfold Contents.numberAt Contents.fileAt Contents.inodeAt
  rw [if_pos ⟨nodeAt_taken hn, hlt⟩, hi, ← hmode, ← hf.parse hi]
  rcases hx : isIndexedFile i.mode <;> simp [hx]

variable {l : List Entry} (h : HoldsExactly l (numberPairs number g c))
  (ho : ∀ b', b' ≠ b → c'.numberAt number g b' = c.numberAt number g b')
include h ho

/-- **A number of a live inode changes.** -/
theorem FieldOf.change {new : ℕ} (hn : c.nodeAt g b = some n) (hn' : c'.nodeAt g b = some n)
    (hmode : inodeMode (c'.image b) = inodeMode (c.image b)) (hnew : field (c'.image b) = new % 2 ^ 64) :
    HoldsExactly (if field (c.image b) = new ∨ isIndexedFile (inodeMode (c.image b)) = false then l
      else (numberKey new, b) :: l.erase (numberKey (field (c.image b)), b)) (numberPairs number g c') := by
  have hold := hf.numberAt hn
  have hnow := hf.numberAt hn'
  rw [hmode, hnew] at hnow
  split
  · rename_i hsame
    refine h.sameNumbers fun b' => ?_
    by_cases hb : b' = b
    · subst hb
      rw [hold, hnow]
      rcases hsame with hsame | hsame
      · rw [← hsame, Nat.mod_eq_of_lt (hf.lt _)]
      · rw [hsame]
        rfl
    · exact ho b' hb
  · rename_i hdiff
    rw [not_or, Bool.not_eq_false] at hdiff
    have := h.retarget ho
    rw [hold, hnow, hdiff.2, if_pos rfl, if_pos rfl] at this
    unfold Bfs.retarget at this
    rw [Option.elim, Option.elim, numberKey_mod] at this
    exact this

end

/-! ## Writing and resizing -/

section
variable {b : ℕ} {img stream : Buf} {size time : ℕ}

theorem inodeMode_setStream : inodeMode (inodeSetStream img stream size time) = inodeMode img :=
  le_congr fun k hk => inodeSetStream_sameHead img stream size time _ <| by
    simp only [InodeField.kMode, InodeField.kCreateTime]
    omega

theorem inodeSize_setStream : inodeSize (inodeSetStream img stream size time) = size % 2 ^ 64 := by
  unfold inodeSize inodeSetStream
  rw [le_put_of_disjoint (by decide), le_put_of_disjoint (by decide)]
  exact le_put 8 _ _ size

theorem inodeMtime_setStream : inodeMtime (inodeSetStream img stream size time) = time % 2 ^ 64 := by
  unfold inodeMtime inodeSetStream
  rw [le_put_of_disjoint (by decide)]
  exact le_put 8 _ _ time

end

section
variable {P : Key → Prop} {s s' : Files} {c : Contents} {b : ℕ} {n : Node} {stream bytes : Buf} {size time : ℕ}

/-- **A file is written or resized.** -/
theorem Indices.written (h : Indices s) (hf : Formed P s) (hv : SameVolume s s') (hn : s.node b = some n)
    (hd : n.dirMode = false)
    (hw : Written b (inodeSetStream (s.image b) stream size time) bytes s.toContents c)
    (hr : Reindexed (s.index c) (numberEdits kSizeIndex b (inodeMode (s.image b)) (inodeSize (s.image b)) size ++
      numberEdits kLastModifiedIndex b (inodeMode (s.image b)) (inodeMtime (s.image b)) time)
      c s'.toContents) : Indices s' := by
  have himg : c.image b = inodeSetStream (s.image b) stream size time := by
    rw [hw.image, Function.update_self]
  have hother : ∀ b', b' ≠ b → c.image b' = s.image b' := by
    intro b' hb
    rw [hw.image, Function.update_of_ne hb]
  have hnode : ∀ b', c.nodeAt s.geometry b' = s.node b' := by
    intro b'
    refine nodeAt_congr (congrFun hw.taken b') ?_
    by_cases hb : b' = b
    · rw [hb, himg]; exact inodeSetStream_sameHead _ _ _ _
    · rw [hother b' hb]; exact fun _ _ => rfl
  have hnumber : ∀ (number : Inode → ℕ) b', b' ≠ b →
      c.numberAt number s.geometry b' = s.toContents.numberAt number s.geometry b' := by
    intro number b' hb
    unfold Contents.numberAt
    rw [fileAt_congr (congrFun hw.taken b') (hother b' hb)]
  -- a block with a tree is not the one that was written
  have htree : ∀ b' n', s.node b' = some n' → n'.dirMode = true → c.tree b' = s.tree b' := by
    intro b' n' hn' hd'
    refine hw.tree b' ?_
    rintro rfl
    rw [hn] at hn'
    cases hn'
    rw [hd] at hd'
    cases hd'
  have hmode : inodeMode (c.image b) = inodeMode (s.image b) := by rw [himg, inodeMode_setStream]
  have hne : kLastModifiedIndex ≠ kSizeIndex := by decide
  have hne' : kSizeIndex ≠ kLastModifiedIndex := by decide
  refine h.follow hf hv ⟨fun b' n' hn' _ => (hnode b').trans hn', fun b' n' hn' _ hd' => htree b' n' hn' hd'⟩
    hw.pairs hr (fun l hl => ?_) (fun l hl => ?_) fun l hl => ?_
  · rw [editPairs_append, editPairs_numberEdits_of_ne (by decide), editPairs_numberEdits_of_ne (by decide),
      namePairs_congr hnode fun b' n' hn' hd' => htree b' n' hn' (Bool.and_eq_true_iff.mp hd').2]
    exact hl
  · rw [editPairs_append, editPairs_numberEdits_of_ne hne, editPairs_numberEdits]
    exact fieldOf_size.change hl (hnumber _) hn ((hnode b).trans hn) hmode (by rw [himg, inodeSize_setStream])
  · rw [editPairs_append, editPairs_numberEdits_of_ne hne', editPairs_numberEdits]
    exact fieldOf_mtime.change hl (hnumber _) hn ((hnode b).trans hn) hmode (by rw [himg, inodeMtime_setStream])

theorem Indices.untouched (h : Indices s) (hf : Formed P s) (hv : SameVolume s s') (hn : s.node b = some n)
    (hd : n.dirMode = false) (hu : Untouched b s.toContents s'.toContents) : Indices s' := by
  have hnode : ∀ b', s'.toContents.nodeAt s.geometry b' = s.node b' := by
    intro b'
    refine nodeAt_congr (congrFun hu.taken b') ?_
    rw [hu.image]
    exact fun _ _ => rfl
  have htree : ∀ b' n', s.node b' = some n' → n'.dirMode = true → s'.tree b' = s.tree b' := by
    intro b' n' hn' hd'
    refine hu.tree b' ?_
    rintro rfl
    rw [hn] at hn'
    cases hn'
    rw [hd] at hd'
    cases hd'
  refine h.spared hf hv ⟨fun b' n' hn' _ => (hnode b').trans hn', fun b' n' hn' _ hd' => htree b' n' hn' hd'⟩
    hu.pairs ?_ fun number _ b' => ?_
  · exact namePairs_congr hnode fun b' n' hn' hd' => htree b' n' hn' (Bool.and_eq_true_iff.mp hd').2
  · unfold Contents.numberAt
    rw [fileAt_congr (congrFun hu.taken b') (congrFun hu.image b')]

end

section
variable {P : Key → Prop} {s : Writer Files} {b : ℕ} {n : Node} (hf : Formed P s.store) (h : Indices s.store)
include hf h

theorem Indices.write (hn : s.store.node b = some n) (hd : n.dirMode = false) (offset : ℕ)
    (data : List UInt8) (time : ℕ) : Indices (files.write b offset data time s).2.store := by
  have hb : s.store.geometry.toBlock (leRun (s.store.image b) InodeField.kInodeNum) = b := by
    rw [leRun_of_nodeAt hn, hf.names.toBlock_run hn]
  have he := write_ended hf.idle hb offset data time
  rcases he.outcome with ⟨-, hu⟩ | ⟨-, -, stream, c₁, hw, hr⟩
  · exact h.untouched hf he.same hn hd hu
  · exact h.written hf he.same hn hd hw hr

theorem Indices.truncate (hn : s.store.node b = some n) (hd : n.dirMode = false) (size time : ℕ) :
    Indices (files.truncate b size time s).2.store := by
  have hb : s.store.geometry.toBlock (leRun (s.store.image b) InodeField.kInodeNum) = b := by
    rw [leRun_of_nodeAt hn, hf.names.toBlock_run hn]
  have he := truncate_ended hf.idle hb size time
  rcases he.outcome with ⟨-, hu⟩ | ⟨-, -, stream, bytes, c₁, hw, hr⟩
  · exact h.untouched hf he.same hn hd hu
  · exact h.written hf he.same hn hd hw hr

end

/-! ## Entries that come, go and change -/

section
variable {P : Key → Prop} {g : Geometry} {root : ℕ} {c c' : Contents} {n : Node} {p : ℕ} {name : Key}

section
variable {mode uid gid time : ℕ} {run : Run} (hm : Made g p name mode uid gid time run c c')
include hm

theorem Files.Made.namePairs (h : Namespace P g root c) (hn : c.nodeAt g p = some n) (hd : n.directory = true)
    (hbs : g.blockSize < 2 ^ 32) (hreg : isRegularNode mode = true) (hmode : mode < 2 ^ 32) :
    namePairs g c' = insert (name, g.toBlock run) (namePairs g c) := by
  have hnew := hm.nodeAt_new hn hbs hreg hmode
  obtain ⟨es, hes, hnone, hes'⟩ := hm.entries
  obtain ⟨es₀, hes₀, hl⟩ := h.listing p n hn hd
  rw [hes] at hes₀
  cases hes₀
  ext e
  constructor
  · rintro ⟨d, m, es₁, hdm, hdir, hes₁, he, hdot⟩
    by_cases hdn : d = g.toBlock run
    · -- a new directory has its dots only
      subst hdn
      rw [hnew] at hdm
      cases hdm
      rw [hm.dots hdir] at hes₁
      cases hes₁
      rw [mem_dots he] at hdot
      cases hdot
    · rw [hm.nodeAt_of_ne hdn] at hdm
      by_cases hdp : d = p
      · subst hdp
        rw [hes'] at hes₁
        cases hes₁
        rcases List.mem_cons.mp he with he | he
        · exact Or.inl he
        · exact Or.inr ⟨d, m, es, hdm, hdir, hes, he, hdot⟩
      · exact Or.inr ⟨d, m, es₁, hdm, hdir, (hm.tree d hdn hdp) ▸ hes₁, he, hdot⟩
  · rintro (rfl | ⟨d, m, es₁, hdm, hdir, hes₁, he, hdot⟩)
    · exact ⟨p, n, _, hm.nodeAt hn, hd, hes', List.mem_cons_self, hl.not_dot hnone⟩
    · by_cases hdp : d = p
      · subst hdp
        rw [hes] at hes₁
        cases hes₁
        exact ⟨d, m, _, hm.nodeAt hdm, hdir, hes', List.mem_cons_of_mem _ he, hdot⟩
      · exact ⟨d, m, es₁, hm.nodeAt hdm, hdir, (hm.tree d (hm.ne hdm) hdp).trans hes₁, he, hdot⟩

theorem Files.Made.not_named (h : Namespace P g root c) : (name, g.toBlock run) ∉ Bfs.namePairs g c := by
  rintro ⟨d, m, es, hdm, hdir, hes, he, hdot⟩
  obtain ⟨es₀, hes₀, hl⟩ := h.listing d m hdm hdir
  rw [hes] at hes₀
  cases hes₀
  obtain ⟨-, m', hm', -⟩ := hl.child _ _ he hdot
  exact hm.ne hm' rfl

end

section
variable {child : ℕ} {es : List Entry} (h : Namespace P g root c) (hn : c.nodeAt g p = some n)
  (hd : n.directory = true) (hname : isDotName name = false) (hes : c.tree p = some es)
  (hchild : es.lookup name = some child)
include h hn hd hname hes hchild

theorem entry_child {d : ℕ} {m : Node} {es₁ : List Entry} {name' : Key} (hm : c.nodeAt g d = some m)
    (hdir : m.directory = true) (hes₁ : c.tree d = some es₁) (he : (name', child) ∈ es₁)
    (hdot : isDotName name' = false) : d = p ∧ name' = name := by
  obtain ⟨es₀, hes₀, hl⟩ := h.listing p n hn hd
  rw [hes] at hes₀
  cases hes₀
  exact h.entry_unique hm hdir hes₁ he hdot hn hd hes (hl.lookup_iff.mp hchild) hname

omit hname in
theorem mem_filter_names {e : Entry} (he : e ∈ es) :
    e ∈ (es.filter fun e => e.1 ≠ name) ↔ e ≠ (name, child) := by
  obtain ⟨es₀, hes₀, hl⟩ := h.listing p n hn hd
  rw [hes] at hes₀
  cases hes₀
  rw [List.mem_filter, decide_eq_true_eq, and_iff_right he, not_iff_not]
  constructor
  · intro heq
    have hlook : es.lookup name = some e.2 := hl.lookup_iff.mpr (heq ▸ he)
    rw [hchild] at hlook
    cases hlook
    exact Prod.ext heq rfl
  · rintro rfl
    rfl

theorem namePairs_remove
    (hempty : ∀ m, c.nodeAt g child = some m → m.directory = true →
      ∃ es', c.tree child = some es' ∧ ∀ e ∈ es', isDotName e.1 = true)
    (ht : c'.tree = Function.update c.tree p (some (es.filter fun e => e.1 ≠ name)))
    (hk : ∀ b, b ≠ child → c'.nodeAt g b = c.nodeAt g b) (hgone : c'.nodeAt g child = none) :
    namePairs g c' = namePairs g c \ {(name, child)} := by
  ext e
  constructor
  · rintro ⟨d, m, es₁, hdm, hdir, hes₁, he, hdot⟩
    have hdc : d ≠ child := by
      rintro rfl
      rw [hgone] at hdm
      cases hdm
    rw [hk d hdc] at hdm
    rw [ht] at hes₁
    by_cases hdp : d = p
    · subst hdp
      rw [Function.update_self] at hes₁
      cases hes₁
      have hmem := List.mem_of_mem_filter he
      exact ⟨⟨d, m, es, hdm, hdir, hes, hmem, hdot⟩, (mem_filter_names h hn hd hes hchild hmem).mp he⟩
    · rw [Function.update_of_ne hdp] at hes₁
      refine ⟨⟨d, m, es₁, hdm, hdir, hes₁, he, hdot⟩, ?_⟩
      rintro rfl
      exact hdp (entry_child h hn hd hname hes hchild hdm hdir hes₁ he hdot).1
  · rintro ⟨⟨d, m, es₁, hdm, hdir, hes₁, he, hdot⟩, hne⟩
    have hdc : d ≠ child := by
      rintro rfl
      obtain ⟨es', hes', hall⟩ := hempty m hdm hdir
      rw [hes₁] at hes'
      cases hes'
      rw [hall e he] at hdot
      cases hdot
    by_cases hdp : d = p
    · subst hdp
      rw [hes] at hes₁
      cases hes₁
      refine ⟨d, m, _, (hk d hdc).trans hdm, hdir, by rw [ht, Function.update_self], ?_, hdot⟩
      exact (mem_filter_names h hn hd hes hchild he).mpr hne
    · refine ⟨d, m, es₁, (hk d hdc).trans hdm, hdir, ?_, he, hdot⟩
      rw [ht, Function.update_of_ne hdp]
      exact hes₁

theorem namePairs_rename {target : Key} (htarget : es.lookup target = none)
    (ht : c'.tree = Function.update c.tree p (some ((target, child) :: es.filter fun e => e.1 ≠ name)))
    (hk : ∀ b, c'.nodeAt g b = c.nodeAt g b) :
    namePairs g c' = insert (target, child) (namePairs g c \ {(name, child)}) := by
  obtain ⟨es₀, hes₀, hl⟩ := h.listing p n hn hd
  rw [hes] at hes₀
  cases hes₀
  ext e
  constructor
  · rintro ⟨d, m, es₁, hdm, hdir, hes₁, he, hdot⟩
    rw [hk d] at hdm
    rw [ht] at hes₁
    by_cases hdp : d = p
    · subst hdp
      rw [Function.update_self] at hes₁
      cases hes₁
      rcases List.mem_cons.mp he with he | he
      · exact Or.inl he
      · have hmem := List.mem_of_mem_filter he
        exact Or.inr ⟨⟨d, m, es, hdm, hdir, hes, hmem, hdot⟩,
          (mem_filter_names h hn hd hes hchild hmem).mp he⟩
    · rw [Function.update_of_ne hdp] at hes₁
      refine Or.inr ⟨⟨d, m, es₁, hdm, hdir, hes₁, he, hdot⟩, ?_⟩
      rintro rfl
      exact hdp (entry_child h hn hd hname hes hchild hdm hdir hes₁ he hdot).1
  · rintro (rfl | ⟨⟨d, m, es₁, hdm, hdir, hes₁, he, hdot⟩, hne⟩)
    · exact ⟨p, n, _, (hk p).trans hn, hd, by rw [ht, Function.update_self], List.mem_cons_self,
        hl.not_dot htarget⟩
    · by_cases hdp : d = p
      · subst hdp
        rw [hes] at hes₁
        cases hes₁
        refine ⟨d, m, _, (hk d).trans hdm, hdir, by rw [ht, Function.update_self], ?_, hdot⟩
        exact List.mem_cons_of_mem _ ((mem_filter_names h hn hd hes hchild he).mpr hne)
      · refine ⟨d, m, es₁, (hk d).trans hdm, hdir, ?_, he, hdot⟩
        rw [ht, Function.update_of_ne hdp]
        exact hes₁

theorem not_named_rename {target : Key} (htarget : es.lookup target = none) :
    (target, child) ∉ namePairs g c := by
  rintro ⟨d, m, es₁, hdm, hdir, hes₁, he, hdot⟩
  obtain ⟨-, rfl⟩ := entry_child h hn hd hname hes hchild hdm hdir hes₁ he hdot
  rw [hchild] at htarget
  cases htarget

end

end

section
variable {g : Geometry} {c c' : Contents} {b mode v : ℕ} {number : Inode → ℕ} {l : List Entry}
  (h : HoldsExactly l (numberPairs number g c))
  (ho : ∀ b', b' ≠ b → c'.numberAt number g b' = c.numberAt number g b')
include h ho

theorem HoldsExactly.come (hnone : c.numberAt number g b = none)
    (hnew : c'.numberAt number g b = if isIndexedFile mode then some (v % 2 ^ 64) else none) :
    HoldsExactly (if isIndexedFile mode then (numberKey v, b) :: l else l) (numberPairs number g c') := by
  have := h.retarget ho
  rw [hnone, hnew] at this
  rcases hx : isIndexedFile mode
  · rw [hx] at this
    exact this
  · rw [hx, if_pos rfl, Bfs.retarget, Option.elim, numberKey_mod] at this
    exact this

theorem HoldsExactly.go (hold : c.numberAt number g b = if isIndexedFile mode then some v else none)
    (hnone : c'.numberAt number g b = none) :
    HoldsExactly (if isIndexedFile mode then l.erase (numberKey v, b) else l) (numberPairs number g c') := by
  have := h.retarget ho
  rw [hnone, hold] at this
  rcases hx : isIndexedFile mode <;> rw [hx] at this <;> exact this

end

section
variable {g : Geometry} {c c' : Contents} {p : ℕ} {n : Node} {name : Key} {mode uid gid time : ℕ} {run : Run}
  (hm : Made g p name mode uid gid time run c c')
include hm

theorem Files.Made.numberAt_of_ne (hn : c.nodeAt g p = some n) (hd : n.directory = true) (number : Inode → ℕ)
    {b : ℕ} (hb : b ≠ g.toBlock run) : c'.numberAt number g b = c.numberAt number g b := by
  by_cases hbp : b = p
  · subst hbp
    exact numberAt_of_node hn (Or.inr (Bool.and_eq_true_iff.mp hd).2) (hm.nodeAt_of_ne hb)
  · unfold Contents.numberAt
    rw [fileAt_congr ?_ (hm.image b hb hbp)]
    rw [hm.taken]
    simp [hb]

theorem Files.Made.numberAt_free (number : Inode → ℕ) : c.numberAt number g (g.toBlock run) = none := by
  unfold Contents.numberAt Contents.fileAt Contents.inodeAt
  rw [if_neg (by simp [hm.free])]
  rfl

theorem Files.Made.numberAt_new {number : Inode → ℕ} {field : Buf → ℕ} (hf : FieldOf number field)
    (hn : c.nodeAt g p = some n) (hbs : g.blockSize < 2 ^ 32) (hreg : isRegularNode mode = true)
    (hmode : mode < 2 ^ 32) {v : ℕ} (hv : ∀ parent : Run, parent.Fits →
      field (inodeBuild g.blockSize run parent mode uid gid time name) = v % 2 ^ 64) :
    c'.numberAt number g (g.toBlock run) =
      if isIndexedFile (nodeMode mode) then some (v % 2 ^ 64) else none := by
  have hnode := hm.nodeAt_new hn hbs hreg hmode
  have himg : inodeMode (c'.image (g.toBlock run)) = nodeMode mode := by
    have hparse := parseInode_build g.blockSize run (leRun (c.image p) InodeField.kInodeNum)
      (nodeMode mode) uid gid time name hbs hm.fits (leRun_fits _ _)
    rw [inodeMode, hm.built.le (by decide)]
    exact (parseInode_some hparse).1.symm.trans (Nat.mod_eq_of_lt (nodeMode_lt hmode))
  rw [hf.numberAt hnode, himg]
  rcases hx : isIndexedFile (nodeMode mode)
  · rfl
  · obtain ⟨-, hdir⟩ := isIndexedFile_regular hx
    rw [modeIsDirectory_nodeMode] at hdir
    rw [hm.builtFile hdir, hv _ (leRun_fits _ _)]

end

section
variable {P : Key → Prop} {s : Writer Files} {p : ℕ} {n : Node} (hf : Formed P s.store) (h : Indices s.store)
include hf h

theorem Indices.refused {s' : Files} (hv : SameVolume s.store s') (hc : s'.toContents = s.store.toContents) :
    Indices s' := by
  refine h.spared hf hv ⟨fun b m hm _ => ?_, fun b _ _ _ _ => ?_⟩ ?_ ?_ fun number _ b => ?_
  · rw [hc]; exact hm
  · rw [hc]
  · rw [hc]
  · rw [hc]
  · rw [hc]

theorem Indices.create (hn : s.store.node p = some n) (hd : n.directory = true) (name : Key)
    (mode uid gid time : ℕ) (hreg : isRegularNode mode = true) (hmode : mode < 2 ^ 32) :
    Indices (files.create p name mode uid gid time s).2.store := by
  have he := create_ended hf.idle (nodeAt_taken hn) name mode uid gid time
  rcases he.outcome with ⟨-, hc⟩ | ⟨block, -, -, -, run, c₁, rfl, hm, hr⟩
  · exact h.refused hf he.same hc
  have hbs := hf.blockSize
  refine h.follow hf he.same ⟨fun b m hbm _ => hm.nodeAt hbm, fun b m hbm hbreg _ => ?_⟩ hm.pairs hr
    (fun l hl => ?_) (fun l hl => ?_) fun l hl => ?_
  · refine hm.tree b (hm.ne hbm) ?_
    rintro rfl
    rw [hn] at hbm
    cases hbm
    rw [nodeAt_regular hn hd] at hbreg
    cases hbreg
  · rw [editPairs_entryEdits_name, isRegularNode_nodeMode, hreg, if_pos rfl, if_pos rfl,
      hm.namePairs hf.names hn hd hbs hreg hmode]
    exact hl.insert (hm.not_named hf.names)
  · rw [editPairs_entryEdits_size]
    refine hl.come (fun b hb => hm.numberAt_of_ne hn hd _ hb) (hm.numberAt_free _) ?_
    refine hm.numberAt_new fieldOf_size hn hbs hreg hmode fun parent hp => ?_
    exact (parseInode_some (parseInode_build _ _ _ _ _ _ _ _ hbs hm.fits hp)).2.1.symm
  · rw [editPairs_entryEdits_time]
    refine hl.come (fun b hb => hm.numberAt_of_ne hn hd _ hb) (hm.numberAt_free _) ?_
    exact hm.numberAt_new fieldOf_mtime hn hbs hreg hmode fun parent hp => inodeMtime_build _ _ _ _ _ _ _ _ hm.fits hp

theorem Indices.remove (hn : s.store.node p = some n) (hd : n.directory = true) {name : Key}
    (hname : isDotName name = false) : Indices (files.remove p name s).2.store := by
  have hv := (remove_ended hf.idle p name).same
  rcases hf.removed hn hd hname with hc | ⟨child, es, m, hes, hchild, hm, hmreg, hempty, hr⟩
  · exact h.refused hf hv hc
  have hnode : ∀ b, b ≠ child →
      (s.store.without p es name child).nodeAt s.store.geometry b = s.store.node b := by
    intro b hb
    refine nodeAt_congr ?_ fun _ _ => rfl
    show (s.store.taken b && decide (b ≠ child)) = s.store.taken b
    simp [hb]
  have hgone : (s.store.without p es name child).inodeAt s.store.geometry child = none :=
    if_neg (by simp [Files.without])
  -- what is no file or directory of the tree is neither the child nor the directory
  have hspare : ∀ {b m'}, s.store.node b = some m' → m'.regular = false → b ≠ child ∧ b ≠ p := by
    intro b m' hbm hbreg
    constructor
    · rintro rfl
      rw [hm] at hbm
      cases hbm
      rw [hmreg] at hbreg
      cases hbreg
    · rintro rfl
      rw [hn] at hbm
      cases hbm
      rw [nodeAt_regular hn hd] at hbreg
      cases hbreg
  have hs : Spares s.store (s.store.without p es name child) :=
    ⟨fun b m' hbm hbreg => (hnode b (hspare hbm hbreg).1).trans hbm,
      fun b m' hbm hbreg _ => Function.update_of_ne (hspare hbm hbreg).2 _ _⟩
  have hs' : Spares s.store { s.store.toContents with
      tree := Function.update s.store.tree p (some (es.filter fun e => e.1 ≠ name)) } :=
    ⟨fun b m' hbm _ => hbm, fun b m' hbm hbreg _ => Function.update_of_ne (hspare hbm hbreg).2 _ _⟩
  rw [hs'.index_eq h.toHasIndices hf, ← hs.index_eq h.toHasIndices hf] at hr
  have hnumber : ∀ (number : Inode → ℕ) b, b ≠ child →
      (s.store.without p es name child).numberAt number s.store.geometry b =
        s.store.toContents.numberAt number s.store.geometry b := by
    intro number b hb
    refine congrArg (Option.map number) (fileAt_congr ?_ rfl)
    show (s.store.taken b && decide (b ≠ child)) = s.store.taken b
    simp [hb]
  have hnone : ∀ number : Inode → ℕ,
      (s.store.without p es name child).numberAt number s.store.geometry child = none := by
    intro number
    unfold Contents.numberAt Contents.fileAt
    rw [hgone]
    rfl
  refine h.follow hf hv hs rfl hr (fun l hl => ?_) (fun l hl => ?_) fun l hl => ?_
  · obtain ⟨-, i, hi, rfl⟩ := nodeAt_parse hm
    rw [editPairs_entryEdits_name, ← (parseInode_some hi).1, show isRegularNode i.mode = true from hmreg,
      if_pos rfl, if_neg (by decide),
      namePairs_remove hf.names hn hd hname hes hchild hempty rfl hnode (by rw [nodeAt_eq, hgone]; rfl)]
    exact hl.erase _
  · rw [editPairs_entryEdits_size]
    exact hl.go (hnumber _) (fieldOf_size.numberAt hm) (hnone _)
  · rw [editPairs_entryEdits_time]
    exact hl.go (hnumber _) (fieldOf_mtime.numberAt hm) (hnone _)

theorem Indices.rename (hn : s.store.node p = some n) (hd : n.directory = true) {source target : Key}
    (hname : isDotName source = false) : Indices (files.rename p source target s).2.store := by
  have he := rename_ended hf.idle p source target
  rcases he.outcome with ⟨-, hc⟩ | ⟨-, -, child, es, c₁, img, hchild, htarget, hes, himg, rfl, hr⟩
  · exact h.refused hf he.same hc
  rw [hf.dirFind hn, hes] at hchild htarget
  set c₁ : Contents := { s.store.toContents with
    tree := Function.update s.store.tree p (some ((target, child) :: es.filter fun e => e.1 ≠ source))
    image := Function.update s.store.image p img }
  have hother : ∀ b, b ≠ p → c₁.image b = s.store.image b := fun b hb => Function.update_of_ne hb _ _
  have hnode : ∀ b, c₁.nodeAt s.store.geometry b = s.store.node b := by
    intro b
    refine nodeAt_congr rfl ?_
    by_cases hb : b = p
    · rw [hb, show c₁.image p = img from Function.update_self ..]; exact himg.sameHead
    · rw [hother b hb]; exact fun _ _ => rfl
  have hnumber : ∀ (number : Inode → ℕ) b, c₁.numberAt number s.store.geometry b =
      s.store.toContents.numberAt number s.store.geometry b := by
    intro number b
    by_cases hb : b = p
    · subst hb
      exact numberAt_of_node hn (Or.inr (Bool.and_eq_true_iff.mp hd).2) (hnode b)
    · exact congrArg (Option.map number) (fileAt_congr rfl (hother b hb))
  refine h.follow hf he.same ⟨fun b m hbm _ => (hnode b).trans hbm, fun b m hbm hbreg _ => ?_⟩ rfl hr
    (fun l hl => ?_) (fun l hl => ?_) fun l hl => ?_
  · refine Function.update_of_ne ?_ _ _
    rintro rfl
    rw [hn] at hbm
    cases hbm
    rw [nodeAt_regular hn hd] at hbreg
    cases hbreg
  · rw [namePairs_rename hf.names hn hd hname hes hchild htarget rfl hnode]
    exact hl.replace fun hmem => not_named_rename hf.names hn hd hname hes hchild htarget hmem.1
  · exact hl.sameNumbers (hnumber _)
  · exact hl.sameNumbers (hnumber _)

theorem Indices.setOwnerMode {b uid gid mode : ℕ} (hmode : mode < 2 ^ 32)
    (htype : mode / 2 ^ 12 = inodeMode (s.store.image b) / 2 ^ 12) :
    Indices (files.setOwnerMode b uid gid mode s).2.store := by
  have he := setOwnerMode_ended hf.idle b uid gid mode
  rcases he.outcome with ⟨-, hc⟩ | ⟨-, -, hc⟩
  · exact h.refused hf he.same hc
  have hremoded := update_remoded uid gid hmode htype
  have hnode : ∀ b', (files.setOwnerMode b uid gid mode s).2.store.toContents.nodeAt s.store.geometry b' =
      s.store.node b' := by
    intro b'
    refine nodeAt_remoded ?_ ?_
    · rw [hc]
    · rw [hc]; exact hremoded b'
  refine h.spared hf he.same ⟨fun b' m hbm _ => (hnode b').trans hbm, fun _ _ _ _ _ => by rw [hc]⟩
    (by rw [hc]) (namePairs_congr hnode fun _ _ _ _ => by rw [hc]) fun number hnumber b' => ?_
  refine numberAt_remoded hnumber ?_ ?_
  · rw [hc]
  · rw [hc]; exact hremoded b'

end

/-! ## Runs -/

/-- The operation is on inodes and directories that are there, makes a file or a
    directory, leaves dot entries alone and types as they are, and writes no tree. -/
def Op.Sound (s : Files) : Op → Prop
  | .create p _ mode _ _ _ => IsDirectory s p ∧ isRegularNode mode = true ∧ mode < 2 ^ 32
  | .remove p name => IsDirectory s p ∧ isDotName name = false
  | .rename p source _ => IsDirectory s p ∧ isDotName source = false
  | .write b _ _ _ => ∃ n, s.node b = some n ∧ n.dirMode = false
  | .truncate b _ _ => ∃ n, s.node b = some n ∧ n.dirMode = false
  | .setOwnerMode b _ _ mode => mode < 2 ^ 32 ∧ mode / 2 ^ 12 = inodeMode (s.image b) / 2 ^ 12
  | .attrWrite .. => False
  | .attrRemove .. => False
  | .indexInsert .. => False
  | .indexRemove .. => False

def runAll (ops : List Op) (s : Writer Files) : Writer Files :=
  ops.foldl (fun s op => (op.run files s).2) s

def SoundRun : List Op → Writer Files → Prop
  | [], _ => True
  | op :: ops, s => op.Sound s.store ∧ SoundRun ops (op.run files s).2

theorem transaction_void {α : Type} (m : Act Files α) (s : Writer Files) (ha : s.store.active = false) :
    (files.transaction (do let _ ← m; pure ()) s).2 = (files.transaction m s).2 := by
  have hrun : ((do let _ ← m; pure () : Act Files Unit)) (begun s) =
      ((m (begun s)).1.map fun _ => (), (m (begun s)).2) := by
    rw [bind_run]
    rcases m (begun s) with ⟨_ | _, _⟩ <;> rfl
  rw [transaction_eq _ s ha, transaction_eq m s ha, hrun]
  simp only [Option.isSome_map]
  rcases Files.finish (m (begun s)).1.isSome (m (begun s)).2 with ⟨_ | _, _⟩ <;> rfl

/-- A volume between operations, with exact indices. -/
structure Tended (s : Files) : Prop where
  formed : Formed (fun _ => True) s
  indices : Indices s

/-- **One operation.** -/
theorem Tended.step {s : Writer Files} (h : Tended s.store) {op : Op} (ho : op.Sound s.store) :
    Tended (op.run files s).2.store := by
  obtain ⟨hf, hi⟩ := h
  cases op with
  | create p name mode uid gid time =>
    obtain ⟨⟨n, hn, hd⟩, hreg, hmode⟩ := ho
    rw [Op.run, Op.blocks, transaction_void _ _ hf.idle]
    exact ⟨(hf.create (fun _ _ _ => trivial) hn hd name mode uid gid time hreg hmode).1,
      hi.create hf hn hd name mode uid gid time hreg hmode⟩
  | setOwnerMode b uid gid mode => exact ⟨hf.setOwnerMode ho.1 ho.2, hi.setOwnerMode hf ho.1 ho.2⟩
  | remove p name =>
    obtain ⟨⟨n, hn, hd⟩, hname⟩ := ho
    exact ⟨hf.remove hn hd hname, hi.remove hf hn hd hname⟩
  | rename p source target =>
    obtain ⟨⟨n, hn, hd⟩, hname⟩ := ho
    exact ⟨hf.rename hn hd trivial hname, hi.rename hf hn hd hname⟩
  | write b offset data time =>
    obtain ⟨n, hn, hd⟩ := ho
    exact ⟨hf.write hn (by simp [Node.directory, hd]) offset data time, hi.write hf hn hd offset data time⟩
  | truncate b size time =>
    obtain ⟨n, hn, hd⟩ := ho
    exact ⟨hf.truncate hn (by simp [Node.directory, hd]) size time, hi.truncate hf hn hd size time⟩
  | attrWrite => cases ho
  | attrRemove => cases ho
  | indexInsert => cases ho
  | indexRemove => cases ho

/-- A volume with the empty file `f` in its root directory and the three indices, and
    layers that do what they are asked. -/
def indexedVolume : Files where
  image b :=
    if b = 514 then inodeBuild 2048 ⟨0, 514, 1⟩ ⟨0, 514, 1⟩ (kModeDirectory ||| kModeStrIndex ||| 0o755) 0 0 0 [114]
    else if b = 515 then inodeBuild 2048 ⟨0, 515, 1⟩ ⟨0, 515, 1⟩ (kModeIndexDir ||| kModeStrIndex ||| kModeDirectory) 0 0 0 []
    else if b = 516 then inodeBuild 2048 ⟨0, 516, 1⟩ ⟨0, 515, 1⟩ (kModeIndexDir ||| kModeStrIndex ||| kModeDirectory) 0 0 0 []
    else if b = 517 then inodeBuild 2048 ⟨0, 517, 1⟩ ⟨0, 515, 1⟩ (kModeIndexDir ||| kModeDirectory) 0 0 0 []
    else if b = 518 then inodeBuild 2048 ⟨0, 518, 1⟩ ⟨0, 515, 1⟩ (kModeIndexDir ||| kModeDirectory) 0 0 0 []
    else if b = 600 then inodeBuild 2048 ⟨0, 600, 1⟩ ⟨0, 514, 1⟩ (kModeRegular ||| 0o644) 0 0 5 [102]
    else zero
  taken b := [514, 515, 516, 517, 518, 600].contains b
  tree b :=
    if b = 514 then some [([46], 514), ([46, 46], 514), ([102], 600)]
    else if b = 515 then some [(kLastModifiedIndex, 518), (kNameIndex, 516), (kSizeIndex, 517)]
    else none
  pairs b :=
    if b = 516 then [([102], 600)] else if b = 517 then [(numberKey 0, 600)]
    else if b = 518 then [(numberKey 5, 600)] else []
  bytes _ := zero
  geometry := ⟨11, 14, 1, 1, 2048, ⟨0, 2, 512⟩⟩
  root := ⟨0, 514, 1⟩
  indices := ⟨0, 515, 1⟩
  decisions n := ⟨false, ⟨0, 700 + 8 * n, if n % 2 = 0 then 1 else 4⟩, zero, 0, none⟩
  asked := 0
  active := false
  saved := ⟨fun _ => zero, fun _ => false, fun _ => none, fun _ => [], fun _ => zero⟩
  direct := []

def indexedWriter : Writer Files := ⟨indexedVolume, zero, zero, zero, zero, zero, zero, zero, zero, zero, 0, 0⟩

/-- Its inodes. -/
def indexedNodes : List (ℕ × Node) :=
  [(514, ⟨⟨0, 514, 1⟩, ⟨0, 514, 1⟩, true, true⟩), (515, ⟨⟨0, 515, 1⟩, ⟨0, 515, 1⟩, false, true⟩),
    (516, ⟨⟨0, 516, 1⟩, ⟨0, 515, 1⟩, false, true⟩), (517, ⟨⟨0, 517, 1⟩, ⟨0, 515, 1⟩, false, true⟩),
    (518, ⟨⟨0, 518, 1⟩, ⟨0, 515, 1⟩, false, true⟩), (600, ⟨⟨0, 600, 1⟩, ⟨0, 514, 1⟩, true, false⟩)]

theorem indexedVolume_taken {b : ℕ} (hb : indexedVolume.taken b = true) :
    ∃ n, (b, n) ∈ indexedNodes ∧ indexedVolume.node b = some n := by
  have hall : ∀ e ∈ indexedNodes, indexedVolume.node e.1 = some e.2 := by decide
  have hb' : b ∈ indexedNodes.map Prod.fst := by simpa [indexedVolume, indexedNodes] using hb
  obtain ⟨e, he, rfl⟩ := List.mem_map.mp hb'
  exact ⟨e.2, he, hall e he⟩

theorem indexedVolume_node (b : ℕ) (n : Node) : indexedVolume.node b = some n ↔ (b, n) ∈ indexedNodes := by
  have hall : ∀ e ∈ indexedNodes, indexedVolume.node e.1 = some e.2 := by decide
  constructor
  · intro h
    obtain ⟨n', hn', h'⟩ := indexedVolume_taken (nodeAt_taken h)
    rw [h] at h'
    cases h'
    exact hn'
  · exact hall (b, n)

theorem indexedVolume_index {name : Key} {b : ℕ} (h : files.indexInode indexedVolume name = some b) :
    (name, b) ∈ [(kLastModifiedIndex, 518), (kNameIndex, 516), (kSizeIndex, 517)] := by
  have hn : indexedVolume.node indexedVolume.indicesBlock = some ⟨⟨0, 515, 1⟩, ⟨0, 515, 1⟩, false, true⟩ :=
    (indexedVolume_node _ _).mpr (by decide)
  have hix : files.indexInode indexedVolume name = _ :=
    indexInode_of_node (s := indexedVolume) (c := indexedVolume.toContents) rfl hn name
  rw [hix] at h
  obtain ⟨l₁, l₂, heq, -⟩ := List.lookup_eq_some_iff.mp h
  rw [heq]
  simp

theorem indexedVolume_formed : Formed (fun _ => True) indexedVolume := by
  refine ⟨rfl, by decide, Namespace.flat ⟨⟨0, 514, 1⟩, ⟨0, 514, 1⟩, true, true⟩ indexedVolume_node (fun b hb => ?_)
    (by decide) (by decide) (by decide) rfl (fun _ _ => trivial) (by decide) (by decide) (by decide) (by decide)
    (by decide) (by decide)⟩
  obtain ⟨n, hn, -⟩ := indexedVolume_taken hb
  exact ⟨n, hn⟩

theorem indexedVolume_names (e : Entry) :
    e ∈ namePairs indexedVolume.geometry indexedVolume.toContents ↔ e = ([102], 600) := by
  constructor
  · rintro ⟨d, m, es, hm, hd, hes, he, hdot⟩
    have hall : ∀ e ∈ indexedNodes, e.2.directory = true → e.1 = 514 := by decide
    obtain rfl := hall (d, m) ((indexedVolume_node _ _).mp hm) hd
    cases hes
    simp only [List.mem_cons, List.not_mem_nil, or_false] at he
    rcases he with rfl | rfl | rfl
    · cases hdot
    · cases hdot
    · rfl
  · rintro rfl
    exact ⟨514, ⟨⟨0, 514, 1⟩, ⟨0, 514, 1⟩, true, true⟩, _, (indexedVolume_node _ _).mpr (by decide), rfl, rfl,
      by decide, rfl⟩

theorem indexedVolume_numbers {number : Inode → ℕ} {v : ℕ}
    (hv : indexedVolume.toContents.numberAt number indexedVolume.geometry 600 = some v) (e : Entry) :
    e ∈ numberPairs number indexedVolume.geometry indexedVolume.toContents ↔ e = (numberKey v, 600) := by
  rw [mem_numberPairs]
  constructor
  · rintro ⟨v', hv', hk⟩
    have hb : e.2 = 600 := by
      by_contra hne
      have hnone : indexedVolume.toContents.fileAt indexedVolume.geometry e.2 = none := by
        by_cases ht : indexedVolume.taken e.2 = true
        · obtain ⟨n, hn, hnode⟩ := indexedVolume_taken ht
          have hall : ∀ e ∈ indexedNodes, e.1 ≠ 600 → e.2.regular = false ∨ e.2.dirMode = true := by decide
          exact fileAt_eq_none hnode (hall _ hn hne)
        · unfold Contents.fileAt Contents.inodeAt
          rw [if_neg fun h => ht h.1]
          rfl
      rw [Contents.numberAt, hnone] at hv'
      cases hv'
    rw [hb, hv] at hv'
    cases hv'
    exact Prod.ext hk hb
  · rintro rfl
    exact ⟨v, hv, rfl⟩

theorem indexedVolume_tended : Tended indexedVolume := by
  refine ⟨indexedVolume_formed, ⟨fun _ => ?_, fun name b hb => ?_, fun name name' b hb hb' => ?_⟩,
    fun b hb => ?_, fun b hb => ?_, fun b hb => ?_⟩
  · exact ⟨⟨⟨0, 515, 1⟩, ⟨0, 515, 1⟩, false, true⟩, (indexedVolume_node _ _).mpr (by decide), rfl, rfl⟩
  · have := indexedVolume_index hb
    simp only [List.mem_cons, Prod.mk.injEq, List.not_mem_nil, or_false] at this
    rcases this with ⟨-, rfl⟩ | ⟨-, rfl⟩ | ⟨-, rfl⟩
    · exact ⟨⟨⟨0, 518, 1⟩, ⟨0, 515, 1⟩, false, true⟩, (indexedVolume_node _ _).mpr (by decide), rfl, rfl⟩
    · exact ⟨⟨⟨0, 516, 1⟩, ⟨0, 515, 1⟩, false, true⟩, (indexedVolume_node _ _).mpr (by decide), rfl, rfl⟩
    · exact ⟨⟨⟨0, 517, 1⟩, ⟨0, 515, 1⟩, false, true⟩, (indexedVolume_node _ _).mpr (by decide), rfl, rfl⟩
  · have hall : ∀ e ∈ [(kLastModifiedIndex, 518), (kNameIndex, 516), (kSizeIndex, 517)],
        ∀ e' ∈ [(kLastModifiedIndex, 518), (kNameIndex, 516), (kSizeIndex, 517)], e.2 = e'.2 → e.1 = e'.1 := by
      decide
    exact hall _ (indexedVolume_index hb) _ (indexedVolume_index hb') rfl
  · have hall : ∀ e ∈ [(kLastModifiedIndex, 518), (kNameIndex, 516), (kSizeIndex, 517)],
        e.1 = kNameIndex → e.2 = 516 := by decide
    obtain rfl := hall _ (indexedVolume_index hb) rfl
    exact ⟨by decide, fun e => by rw [indexedVolume_names]; exact List.mem_singleton⟩
  · have hall : ∀ e ∈ [(kLastModifiedIndex, 518), (kNameIndex, 516), (kSizeIndex, 517)],
        e.1 = kSizeIndex → e.2 = 517 := by decide
    obtain rfl := hall _ (indexedVolume_index hb) rfl
    have hv : indexedVolume.toContents.numberAt Inode.size indexedVolume.geometry 600 = some 0 := by
      decide
    exact ⟨by decide, fun e => by rw [indexedVolume_numbers hv]; exact List.mem_singleton⟩
  · have hall : ∀ e ∈ [(kLastModifiedIndex, 518), (kNameIndex, 516), (kSizeIndex, 517)],
        e.1 = kLastModifiedIndex → e.2 = 518 := by decide
    obtain rfl := hall _ (indexedVolume_index hb) rfl
    have hv : indexedVolume.toContents.numberAt Inode.mtime indexedVolume.geometry 600 = some 5 := by
      decide
    exact ⟨by decide, fun e => by rw [indexedVolume_numbers hv]; exact List.mem_singleton⟩

end Aegir.Bfs
