/-
  Walking all the values under a key (`Volume::index_walk`) of a well-formed index.
-/
import Aegir.Bfs.Edit
import Aegir.Bfs.Transaction

namespace Aegir.Bfs

open Aegir.Lib Aegir.Lib.Buf Aegir.Lib.BTree

/-! ## The descent -/

section
variable {w : World} {index : Inode} {h : TreeHeader} {depth : ℕ} {ls : List (Leaf Key ℕ)}

/-- **The descent answers what the leaves hold under the key**; sixteen levels is
    as far down as it goes. -/
theorem IndexAt.find (ht : IndexAt (fun off => readStream w index.data off h.nodeSize) h depth ls)
    (key : Key) : indexFindFrom w index h.nodeSize h.maximum h.dataType key 16 h.root =
      if depth < 16 then (contents ls).lookup key else none := by
  obtain ⟨ns, hsub⟩ := ht.tree
  have o := keyOrder h.dataType
  have hwithin := hsub.within o (fun _ hl => absurd hl (by simp)) fun _ hl => absurd hl (by simp)
  have hleaf : ∀ l ∈ ls, ∀ e ∈ l.entries, KeyOf h.dataType e.1 := fun l hl e he =>
    (hwithin.inRange e (List.mem_flatMap.2 ⟨l, hl, he⟩)).1
  by_cases hd : depth < 16
  · have hfuel : 16 = 15 - depth + 1 + depth := by omega
    rw [if_pos hd, hfuel]
    by_cases hkey : KeyOf h.dataType key
    · obtain ⟨pre, l, post, rfl, hdown, hpre, hpost⟩ :=
        hsub.descends_route o (fun _ hl => absurd hl (by simp)) (fun _ hl => absurd hl (by simp)) hkey
          (inRange_all key)
      obtain ⟨hl, hs⟩ := hsub.leaves l (by simp)
      have hpre' : (contents pre).lookup key = none := lookup_eq_none_of_forall fun e he heq =>
        o.irrefl hkey (heq ▸ hpre e he)
      have hpost' : (contents post).lookup key = none := lookup_eq_none_of_forall fun e he heq =>
        o.irrefl hkey (heq ▸ hpost e he)
      rw [indexFindFrom_descends ht.nodeSize ht.maximum _ hdown,
        indexFindFrom_bottom ht.nodeSize ht.maximum _ hl hs (hleaf l (by simp)), contents_append,
        contents_cons, List.lookup_append, hpre', Option.none_or, List.lookup_append, hpost',
        Option.or_none]
    · -- no key of the tree has that length
      obtain ⟨l, hl, hdown⟩ := hsub.descends_mem key
      obtain ⟨hstore, hs⟩ := hsub.leaves l hl
      have habs : (contents ls).lookup key = none := lookup_eq_none_of_forall fun e he heq =>
        hkey (heq ▸ (hwithin.inRange e he).1)
      rw [indexFindFrom_descends ht.nodeSize ht.maximum _ hdown,
        indexFindFrom_bottom ht.nodeSize ht.maximum _ hstore hs (hleaf l hl), habs]
      exact lookup_eq_none_of_forall fun e he heq => hkey (heq ▸ hleaf l hl e he)
  · obtain ⟨l, -, hdown⟩ := hsub.descends_mem key
    rw [if_neg hd, indexFindFrom_deep ht.nodeSize ht.maximum (by omega) hdown]

end

/-! ## What is stored under a key -/

/-- A chain of duplicate nodes from `chain` on, each with values. -/
inductive ChainAt (w : World) (index : Inode) (nodeSize : ℕ) : ℕ → List (List ℕ) → Prop
  | last {chain : ℕ} {vs : List ℕ} :
      DuplicateAt (readStream w index.data chain nodeSize) kNullLink vs →
      vs.length ≤ duplicateCapacity nodeSize → vs ≠ [] → ChainAt w index nodeSize chain [vs]
  | cons {chain right : ℕ} {vs : List ℕ} {vss : List (List ℕ)} :
      DuplicateAt (readStream w index.data chain nodeSize) right vs →
      vs.length ≤ duplicateCapacity nodeSize → vs ≠ [] → right ≠ kNullLink →
      ChainAt w index nodeSize right vss → ChainAt w index nodeSize chain (vs :: vss)

/-- The values a key's entry stands for, node by node. -/
inductive ValuesAt (w : World) (index : Inode) (nodeSize : ℕ) : Option ℕ → List (List ℕ) → Prop
  | absent : ValuesAt w index nodeSize none []
  | lone {value : ℕ} : value < 2 ^ 62 → ValuesAt w index nodeSize (some value) [[value]]
  | chain {link : ℕ} {vss : List (List ℕ)} : linkType link = kDuplicateNode →
      ChainAt w index nodeSize (linkOffset link) vss → ValuesAt w index nodeSize (some link) vss

theorem ChainAt.first {w : World} {index : Inode} {nodeSize chain : ℕ} {vss : List (List ℕ)}
    (hc : ChainAt w index nodeSize chain vss) : ∃ right vs vss', vss = vs :: vss' ∧
      DuplicateAt (readStream w index.data chain nodeSize) right vs ∧
      vs.length ≤ duplicateCapacity nodeSize ∧ vs ≠ [] := by
  cases hc with
  | last h₁ h₂ h₃ => exact ⟨_, _, _, rfl, h₁, h₂, h₃⟩
  | cons h₁ h₂ h₃ _ _ => exact ⟨_, _, _, rfl, h₁, h₂, h₃⟩

/-! ## Walks -/

section
variable {w : World} {indexBlock : ℕ} {index : Inode} {h : TreeHeader} {key : Key}
variable (hi : readInode w indexBlock = some index) (hh : nodeHeader w index = some h)
include hi hh

theorem indexWalk_link {link : ℕ} (hlink : linkType link = kDuplicateNode)
    (hf : indexFindFrom w index h.nodeSize h.maximum h.dataType key 16 h.root = some link)
    (position : ℕ) : indexWalk w indexBlock key position =
      walkChain w index h.nodeSize 4096 (linkOffset link) position := by
  have hdup : linkIsDuplicate link = true := by rw [linkIsDuplicate, hlink]; decide
  simp only [indexWalk, hi, hh, hf, hdup, hlink]
  rw [if_neg (by simp), if_neg (by simp)]

variable {depth : ℕ} {ls : List (Leaf Key ℕ)} {vss : List (List ℕ)}

/-- **A walk from the beginning hands out each value once, and then no more, exactly
    when the values lie in one node** of a tree that is not too deep for the descent. -/
theorem walks_iff (ht : IndexAt (fun off => readStream w index.data off h.nodeSize) h depth ls)
    (hv : ValuesAt w index h.nodeSize ((contents ls).lookup key) vss) :
    (∃ vs, vs.Perm vss.flatten ∧ Walks w indexBlock key 0 vs) ↔
      vss = [] ∨ depth < 16 ∧ vss.length = 1 := by
  have hfind := ht.find key
  by_cases hd : depth < 16
  · rw [if_pos hd] at hfind
    generalize hl : (contents ls).lookup key = o at hfind hv
    cases hv with
    | absent =>
      refine iff_of_true ⟨[], by simp, ?_⟩ (Or.inl rfl)
      rw [Walks, indexWalk_none hi hh hfind]
    | lone hlt => exact iff_of_true ⟨_, by simp, walks_lone hi hh hlt hfind⟩ (Or.inr ⟨hd, rfl⟩)
    | chain hlink hc =>
      have hwalk := indexWalk_link hi hh hlink hfind
      cases hc with
      | last hdup hcap hne =>
        exact iff_of_true ⟨_, by simp, walks_node hwalk hdup hcap 0⟩ (Or.inr ⟨hd, rfl⟩)
      | cons hdup hcap hne hright hrest =>
        obtain ⟨right', us, vss', rfl, hdup', hcap', hne'⟩ := hrest.first
        refine iff_of_false ?_ (by simp)
        rintro ⟨rs, -, hw⟩
        have hpos := List.length_pos_of_ne_nil hne
        exact not_walks hwalk hright hne hne' hdup hcap hdup' hcap' rs 0 (by omega) hw
  · rw [if_neg hd] at hfind
    have hnone : (indexWalk w indexBlock key 0).1 = none := by rw [indexWalk_none hi hh hfind]
    constructor
    · rintro ⟨vs, hperm, hw⟩
      cases vs with
      | nil =>
        -- nothing is handed out, so nothing was stored
        generalize (contents ls).lookup key = o at hv
        cases hv with
        | absent => exact Or.inl rfl
        | lone _ => exact absurd hperm.symm (by simp)
        | chain _ hc =>
          obtain ⟨right, us, vss', rfl, -, -, hne⟩ := hc.first
          simp [hne] at hperm
      | cons v vs =>
        obtain ⟨position', hv', -⟩ := hw
        rw [hv'] at hnone
        cases hnone
    · rintro (rfl | ⟨hd', -⟩)
      · exact ⟨[], by simp, hnone⟩
      · exact absurd hd' hd

end

/-! ## Two nodes -/

theorem duplicateBuild_holds (left : ℕ) {right : ℕ} {vs : List ℕ} (hright : right < 2 ^ 64)
    (hlen : vs.length ≤ kNumDuplicateValues) (hvs : ∀ v ∈ vs, v < 2 ^ 64) :
    DuplicateAt (duplicateBuild left right vs) right vs := by
  have hk : kNumDuplicateValues = 125 := rfl
  refine ⟨?_, ?_, fun i hi => ?_, hlen⟩
  · simp only [duplicateBuild]
    rw [le_putArray_of_disjoint (Or.inl (by decide)), le_put_of_disjoint (by decide),
      le_put_of_lt (by simpa using hright)]
  · simp only [duplicateBuild]
    rw [le_putArray_of_disjoint (Or.inl (by decide)), le_put_of_lt (by omega)]
  · simp only [duplicateBuild]
    rw [Nat.mul_comm i 8, le_putArray hi]
    exact Nat.mod_eq_of_lt ((hvs _ (List.getElem_mem hi)).trans_eq (by norm_num))

theorem DuplicateAt.congr {a b : Buf} {right : ℕ} {vs : List ℕ} (hd : DuplicateAt a right vs)
    (h : ∀ j < 24 + vs.length * 8, a j = b j) : DuplicateAt b right vs := by
  have hle : ∀ i, i + 8 ≤ 24 + vs.length * 8 → le 8 b i = le 8 a i := fun i hi =>
    le_congr fun k hk => (h _ (by omega)).symm
  have h₁ : NodeField.kRightLink = 8 := rfl
  have h₂ : NodeField.kOverflowLink = 16 := rfl
  refine ⟨?_, ?_, fun i hi => ?_, hd.length⟩
  · rw [hle _ (by omega), hd.right]
  · rw [hle _ (by omega), hd.count]
  · rw [hle _ (by omega), hd.values i hi]

def chainHeader : TreeHeader := ⟨kTreeNodeSize, 1, kTreeInt32Type, 4096, kNullLink, 16384⟩

def chainEntry : Entry := ([1, 0, 0, 0], makeLink kDuplicateNode 8192)

/-- An index of one key: its inode in block 600, its stream the eight blocks after; the
    key's values are those of a first node and of the one `right` links to. -/
def chainDisk (right : ℕ) : Buf :=
  let inode := putRun (put 4 (put 4 (put 4 zero InodeField.kMagic1 kInodeMagic1) InodeField.kFlags
    kInodeInUse) InodeField.kInodeSize 2048) InodeField.kData ⟨0, 601, 8⟩
  let b := blit zero (600 * 2048) inode 2048
  let b := blit b (601 * 2048) (treeHeaderBuild zero chainHeader) TreeHeaderField.kBytes
  let b := blit b (601 * 2048 + 4096) (buildNode true kNullLink kNullLink kNullLink
    [chainEntry]) kTreeNodeSize
  let b := blit b (601 * 2048 + 8192) (duplicateBuild kNullLink right [620, 621]) kTreeNodeSize
  blit b (601 * 2048 + 12288) (duplicateBuild 8192 kNullLink [622]) kTreeNodeSize

def chainWorld (right : ℕ) : World where
  dev := .on (chainDisk right) fun _ => false
  vol := sampleVolume
  jnl := .idle
  alloc := ⟨zero, none⟩

/-- The index there is read. -/
structure Chained (right : ℕ) (index : Inode) : Prop where
  inode : readInode (chainWorld right) 600 = some index
  runs : SingleRun index.data ⟨0, 601, 8⟩
  header : nodeHeader (chainWorld right) index = some chainHeader

theorem chained {right : ℕ} (h : right = kNullLink ∨ right = 12288) : ∃ index, Chained right index := by
  rcases h with rfl | rfl
  · refine ⟨(readInode (chainWorld kNullLink) 600).get (by decide), (Option.some_get _).symm,
      ⟨?_, ?_, ?_, ?_, ?_⟩, ?_⟩
    all_goals decide
  · refine ⟨(readInode (chainWorld 12288) 600).get (by decide), (Option.some_get _).symm,
      ⟨?_, ?_, ?_, ?_, ?_⟩, ?_⟩
    all_goals decide

section
variable {right : ℕ} {index : Inode} (h : Chained right index)
include h

theorem Chained.read {offset j : ℕ} (hj : j < kTreeNodeSize) (ho : offset + kTreeNodeSize ≤ 16384) :
    readStream (chainWorld right) index.data offset kTreeNodeSize j =
      chainDisk right (601 * 2048 + offset + j) := by
  have hvol : (chainWorld right).vol = sampleVolume := rfl
  have hbytes : sampleVolume.blockBytes = 2048 := by decide
  have hsize : sampleVolume.blockSize = 2048 := by decide
  have hrun : sampleVolume.toBlock ⟨0, 601, 8⟩ = 601 := by decide
  have hrange : sampleVolume.runBytes ⟨0, 601, 8⟩ = 16384 := by decide
  have hblock : ∀ b, readBlock (chainWorld right) b = slice (chainDisk right) (b * 2048) := by
    intro b
    rw [readBlock, readBlockNow, hvol, hbytes]
    rfl
  rw [readStream_single h.runs hj (by rw [hvol, hrange]; exact ho)]
  simp only [readPart, hblock, hvol, hsize, hrun, slice_apply]
  exact congrArg (chainDisk right) (by omega)

theorem Chained.leafBytes {j : ℕ} (hj : j < kTreeNodeSize) :
    readStream (chainWorld right) index.data 4096 kTreeNodeSize j =
      buildNode true kNullLink kNullLink kNullLink [chainEntry] j := by
  simp only [kTreeNodeSize] at hj
  rw [h.read hj (by decide)]
  simp only [chainDisk]
  rw [blit_of_notMem (by omega), blit_of_notMem (by omega),
    blit_of_mem (by omega) (by simp only [kTreeNodeSize]; omega), Nat.add_sub_cancel_left]

theorem Chained.leaf : Holds (readStream (chainWorld right) index.data 4096 kTreeNodeSize) [chainEntry] := by
  have hl : Holds (buildNode true kNullLink kNullLink kNullLink [chainEntry]) [chainEntry] :=
    layNode_holds (by decide) (by decide) (by decide)
  refine hl.congr fun j hj => (h.leafBytes ?_).symm
  have hj' : j < 42 := hj
  simp only [kTreeNodeSize]
  omega

theorem Chained.first (hright : right < 2 ^ 64) :
    DuplicateAt (readStream (chainWorld right) index.data 8192 kTreeNodeSize) right [620, 621] := by
  refine (duplicateBuild_holds kNullLink hright (by decide) (by decide)).congr fun j hj => ?_
  have hj' : j < 40 := hj
  rw [h.read (by simp only [kTreeNodeSize]; omega) (by decide)]
  simp only [chainDisk]
  rw [blit_of_notMem (by omega), blit_of_mem (by omega) (by simp only [kTreeNodeSize]; omega),
    Nat.add_sub_cancel_left]

theorem Chained.second :
    DuplicateAt (readStream (chainWorld right) index.data 12288 kTreeNodeSize) kNullLink [622] := by
  refine (duplicateBuild_holds 8192 (by decide) (by decide) (by decide)).congr fun j hj => ?_
  have hj' : j < 32 := hj
  rw [h.read (by simp only [kTreeNodeSize]; omega) (by decide)]
  simp only [chainDisk]
  rw [blit_of_mem (by omega) (by simp only [kTreeNodeSize]; omega), Nat.add_sub_cancel_left]

theorem Chained.indexAt : IndexAt (fun off => readStream (chainWorld right) index.data off kTreeNodeSize)
    chainHeader 0 [⟨4096, [chainEntry]⟩] := by
  refine ⟨by decide, by decide, [4096], [chainEntry], ⟨⟨h.leaf, by decide, by decide⟩, ?_⟩,
    List.pairwise_singleton _ _, ?_, rfl, rfl⟩
  · have hlink : le 8 (buildNode true kNullLink kNullLink kNullLink [chainEntry]) NodeField.kOverflowLink =
        kNullLink := (le_layNode_links (by decide) (by decide) (by decide) (Nat.le_refl _)).2.2
    refine Eq.trans (le_congr fun k hk => ?_) hlink
    exact h.leafBytes (by simp only [NodeField.kOverflowLink, kTreeNodeSize]; omega)
  · intro e he
    rw [List.mem_singleton.1 he]
    refine ⟨fun n hn => ?_, inRange_all _⟩
    cases hn
    rfl

end

theorem walks_iff_sample : ∃ vs, vs.Perm [620, 621] ∧ Walks (chainWorld kNullLink) 600 chainEntry.1 0 vs := by
  obtain ⟨index, h⟩ := chained (Or.inl rfl)
  have hv : ValuesAt (chainWorld kNullLink) index kTreeNodeSize
      ((contents [⟨4096, [chainEntry]⟩]).lookup chainEntry.1) [[620, 621]] :=
    .chain (by decide) (.last (h.first (by decide)) (by decide) (by decide))
  exact (walks_iff h.inode h.header h.indexAt hv).2 (Or.inr (by decide))

/-- **Two nodes are walked round and round**: the index is well formed and the key's
    values are 620, 621 and 622, but no number of calls hands them out and then ends. -/
theorem twoNodes_repeat : ∃ index, readInode (chainWorld 12288) 600 = some index ∧
    nodeHeader (chainWorld 12288) index = some chainHeader ∧
    IndexAt (fun off => readStream (chainWorld 12288) index.data off kTreeNodeSize) chainHeader 0
      [⟨4096, [chainEntry]⟩] ∧
    ValuesAt (chainWorld 12288) index kTreeNodeSize ([chainEntry].lookup chainEntry.1) [[620, 621], [622]] ∧
    ¬ ∃ vs : List ℕ, vs.Perm [620, 621, 622] ∧ Walks (chainWorld 12288) 600 chainEntry.1 0 vs := by
  obtain ⟨index, h⟩ := chained (Or.inr rfl)
  have hfind := IndexAt.find (h := chainHeader) h.indexAt chainEntry.1
  have hlookup : (contents [⟨4096, [chainEntry]⟩]).lookup chainEntry.1 = some chainEntry.2 := by decide
  rw [if_pos (by decide), hlookup] at hfind
  refine ⟨index, h.inode, h.header, h.indexAt, ?_, ?_⟩
  · exact .chain (by decide) (.cons (h.first (by decide)) (by decide) (by decide) (by decide)
      (.last h.second (by decide) (by decide)))
  · rintro ⟨vs, -, hw⟩
    exact not_walks (indexWalk_link h.inode h.header (by decide) hfind) (by decide) (by decide) (by decide)
      (h.first (by decide)) (by decide) h.second (by decide) vs 0 (by decide) hw

end Aegir.Bfs
