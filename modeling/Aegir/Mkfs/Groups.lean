/-
  The blocks `make_bfs` takes (`scripts/mkfs_bfs.py`), and the groups they lie in.
-/
import Aegir.Mkfs.Builder

namespace Aegir.Mkfs

open Aegir.Lib Aegir.Lib.Buf Aegir.Lib.BTree Aegir.Bfs
open Aegir.Lib.Extent (inRow inRow_append inRow_bounds inRow_apart)

/-! ## Only the keys count -/

section
variable {es es' : List Entry} {ty : IndexType}

theorem plan_keys (h : es.map Prod.fst = es'.map Prod.fst) :
    (plan es).map (List.map Prod.fst) = (plan es').map (List.map Prod.fst) := by
  have hzero : ∀ l : List Entry, (plan l).map (List.map Prod.fst) =
      (plan (l.map fun e => (e.1, 0))).map (List.map Prod.fst) := fun l => by
    have := @planFrom_map fits (fun e => (e.1, 0)) (fun _ => rfl) [] 0 l
    rw [plan, plan]
    refine Eq.trans ?_ (congrArg (List.map (List.map Prod.fst)) this).symm
    simp [Function.comp_def]
  have hkeys : ∀ l : List Entry, l.map (fun e => (e.1, 0)) = (l.map Prod.fst).map fun k => (k, 0) :=
    fun l => by rw [List.map_map]; rfl
  rw [hzero es, hzero es', hkeys, hkeys, h]

theorem lastKey_keys (es : List Entry) : lastKey es = ((es.map Prod.fst).getLast?).getD [] := by
  rw [lastKey, List.getLast?_map]

theorem nextKeys (h : es.map Prod.fst = es'.map Prod.fst) (addr addr' : ℕ → ℕ) :
    ((plan es).mapIdx fun i c => (lastKey c, addr i)).map Prod.fst =
      ((plan es').mapIdx fun i c => (lastKey c, addr' i)).map Prod.fst := by
  have hkeys : ∀ (l : List (List Entry)) (f : ℕ → ℕ),
      (l.mapIdx fun i c => (lastKey c, f i)).map Prod.fst =
        (l.map (List.map Prod.fst)).map fun ks => ks.getLast?.getD [] := fun l f => by
    apply List.ext_getElem
    · simp
    · intro i hi hi'
      simp [lastKey_keys]
  rw [hkeys, hkeys, plan_keys h]

theorem levelsUp_congr {fuel : ℕ} {nodes nodes' : List Buf} {root root' depth depth' : ℕ}
    (h : es.map Prod.fst = es'.map Prod.fst) (hn : nodes.length = nodes'.length) :
    (levelsUp fuel es nodes root depth).map (fun r => r.1.length) =
      (levelsUp fuel es' nodes' root' depth').map fun r => r.1.length := by
  have hlen : es.length = es'.length := by simpa using congrArg List.length h
  have hplan : (plan es).length = (plan es').length := by
    simpa using congrArg List.length (plan_keys h)
  induction fuel generalizing es es' nodes nodes' root root' depth depth' with
  | zero =>
    rw [levelsUp, levelsUp, hlen]
    split_ifs
    · simpa using hn
    · rfl
  | succ fuel ih =>
    rw [levelsUp, levelsUp, hlen]
    split_ifs
    · simpa using hn
    · have hnext := nextKeys h (fun i => NODE * (1 + nodes.length + i))
        fun i => NODE * (1 + nodes'.length + i)
      refine ih hnext (by simp [hn, hplan]) (by simp [hplan]) ?_
      simpa using congrArg List.length (plan_keys hnext)

theorem total_levels (r : Option (List Buf × ℕ × ℕ)) :
    (r.map fun (nodes, root, depth) => layTree kTreeStringType root depth nodes).map Tree.total =
      (r.map fun r => r.1.length).map fun n => NODE * (1 + n) := by
  cases r <;> rfl

theorem tree_total_congr (h : es.map Prod.fst = es'.map Prod.fst) :
    (tree es).map Tree.total = (tree es').map Tree.total := by
  have hplan : (plan es).length = (plan es').length := by
    simpa using congrArg List.length (plan_keys h)
  have hlevels := @levelsUp_congr _ _ (plan es).length (leafNodes (plan es)) (leafNodes (plan es'))
    NODE NODE 1 1 (nextKeys h (fun i => NODE * (i + 1)) fun i => NODE * (i + 1))
    (by simp [leafNodes, hplan])
  rw [tree, tree, total_levels, total_levels, hlevels, hplan]

theorem ordered_keys (h : es.map Prod.fst = es'.map Prod.fst) :
    (ordered ty es).map Prod.fst = (ordered ty es').map Prod.fst := by
  cases ty with
  | int64 =>
    simp only [ordered]
    rw [List.map_insertionSort _ (fun a b : Key => signed 8 (keyNumber 8 a) ≤ signed 8 (keyNumber 8 b))
      _ _ fun _ _ _ _ => Iff.rfl, List.map_insertionSort _ (fun a b : Key =>
      signed 8 (keyNumber 8 a) ≤ signed 8 (keyNumber 8 b)) _ _ fun _ _ _ _ => Iff.rfl, h]
  | string =>
    simp only [ordered]
    rw [List.map_insertionSort _ (fun a b : Key => keyCompare a b ≠ .gt) _ _ fun _ _ _ _ => Iff.rfl,
      List.map_insertionSort _ (fun a b : Key => keyCompare a b ≠ .gt) _ _ fun _ _ _ _ => Iff.rfl, h]

theorem groupKeys_zero (es : List Entry) :
    groupKeys (es.map fun e => (e.1, 0)) = (groupKeys es).map fun g => (g.1, g.2.map fun _ => 0) := by
  induction es with
  | nil => rfl
  | cons e es ih =>
    simp only [List.map_cons, groupKeys, ih]
    cases groupKeys es with
    | nil => rfl
    | cons g gs =>
      simp only [List.map_cons]
      split_ifs <;> rfl

theorem groupsOf_shape (h : es.map Prod.fst = es'.map Prod.fst) :
    (groupsOf ty es).map (fun g => (g.1, g.2.length)) =
      (groupsOf ty es').map fun g => (g.1, g.2.length) := by
  have hzero : ∀ l : List Entry, (groupsOf ty l).map (fun g => (g.1, g.2.length)) =
      (groupKeys (((ordered ty l).map Prod.fst).map fun k => (k, 0))).map
        fun g => (g.1, g.2.length) := fun l => by
    have hkeys : ((ordered ty l).map Prod.fst).map (fun k => (k, 0)) =
        (ordered ty l).map fun e => (e.1, 0) := by rw [List.map_map]; rfl
    rw [hkeys, groupKeys_zero, groupsOf, List.map_map, List.map_map]
    refine List.map_congr_left fun g _ => ?_
    simp
  rw [hzero, hzero, ordered_keys h]

theorem chunksOf_length : ∀ {fuel : ℕ} {vs vs' : List ℕ}, vs.length = vs'.length →
    (chunksOf fuel vs).length = (chunksOf fuel vs').length
  | 0, _, _, _ => rfl
  | fuel + 1, vs, vs', h => by
    have hnil : vs = [] ↔ vs' = [] := by rw [← List.length_eq_zero_iff, h, List.length_eq_zero_iff]
    have ih := @chunksOf_length fuel (vs.drop NUM_DUPLICATE_VALUES) (vs'.drop NUM_DUPLICATE_VALUES)
      (by simp [h])
    simp only [chunksOf, hnil]
    split_ifs
    · rfl
    · rw [List.length_cons, List.length_cons, ih]

theorem chainNodes_length : ∀ (offset : ℕ) (cs : List (List ℕ)),
    (chainNodes offset cs).length = cs.length
  | _, [] => rfl
  | offset, c :: cs => by rw [chainNodes, List.length_cons, chainNodes_length, List.length_cons]

theorem duplicates_length : ∀ {offset offset' : ℕ} {gs gs' : List Group},
    gs.map (fun g => g.2.length) = gs'.map (fun g => g.2.length) →
    (duplicates offset gs).2.length = (duplicates offset' gs').2.length
  | _, _, [], [], _ => rfl
  | _, _, [], _ :: _, h => by cases h
  | _, _, _ :: _, [], h => by cases h
  | offset, offset', (k, vs) :: gs, (k', vs') :: gs', h => by
    obtain ⟨hlen, htail⟩ := List.cons.inj h
    dsimp only at hlen
    rw [duplicates, duplicates, hlen]
    split_ifs
    · simp only [List.length_append, chainNodes_length, chunksOf_length hlen]
      rw [duplicates_length htail]
    · exact duplicates_length htail

theorem typedTree_total (ty : IndexType) (es : List Entry) : (typedTree ty es).total =
    NODE * (1 + ((typedPlan (indexParts ty es).1).length + (indexParts ty es).2.length)) := by
  simp only [typedTree, layTree, leafNodes, List.length_append, List.length_mapIdx]

theorem typedTree_pos (ty : IndexType) (es : List Entry) : 0 < (typedTree ty es).total := by
  rw [typedTree_total, Nat.mul_add]
  exact Nat.lt_of_lt_of_le (by decide) (Nat.le_add_right _ _)

theorem typedTree_total_congr (h : es.map Prod.fst = es'.map Prod.fst) :
    (typedTree ty es).total = (typedTree ty es').total := by
  have hshape := @groupsOf_shape _ _ ty h
  have hkeys : (groupsOf ty es).map Prod.fst = (groupsOf ty es').map Prod.fst := by
    simpa [Function.comp_def] using congrArg (List.map Prod.fst) hshape
  have hlens : (groupsOf ty es).map (fun g => g.2.length) =
      (groupsOf ty es').map fun g => g.2.length := by
    simpa [Function.comp_def] using congrArg (List.map Prod.snd) hshape
  have hparts : (indexParts ty es).1.map Prod.fst = (indexParts ty es').1.map Prod.fst := by
    rw [indexParts_keys, indexParts_keys, hkeys]
  have hnodes : (indexParts ty es).2.length = (indexParts ty es').2.length := duplicates_length hlens
  rw [typedTree_total, typedTree_total, typedPlan_length_congr hparts, hnodes]

/-- **An index's blocks depend on its keys only.** -/
theorem typedTree_blocks (ty : IndexType) (es : List Entry) :
    blocksOf (typedTree ty es).total = indexBlocks ty (es.map Prod.fst) := by
  rw [indexBlocks, typedTree_total_congr]
  simp [Function.comp_def]

theorem directoryTree_pos {table : List Entry} {t : Tree} (h : directoryTree table = some t) :
    0 < t.total := by
  rw [directoryTree] at h
  split_ifs at h
  obtain ⟨⟨nodes, root, depth⟩, -, rfl⟩ := Option.map_eq_some_iff.1 h
  simp only [layTree, Nat.mul_add]
  exact Nat.lt_of_lt_of_le (by decide) (Nat.le_add_right _ _)

/-- **A directory's blocks depend on the names in it only.** -/
theorem directoryTree_blocks {table : List Entry} {own parent : ℕ} {t : Tree}
    (h : directoryTree (ordered .string (table ++ [([46], own), ([46, 46], parent)])) = some t) :
    blocksOf t.total = directoryBlocks (table.map Prod.fst) := by
  rw [directoryTree] at h
  split_ifs at h
  have hkeys := @tree_total_congr
    (ordered .string (table ++ [([46], own), ([46, 46], parent)]))
    (ordered .string ((table.map Prod.fst ++ [[46], [46, 46]]).map fun k => (k, 0)))
    (ordered_keys (by simp [Function.comp_def]))
  rw [h, Option.map_some] at hkeys
  obtain ⟨t', ht', htotal⟩ := Option.map_eq_some_iff.1 hkeys.symm
  rw [directoryBlocks, ht', Option.map_some, Option.getD_some, htotal]

end

/-! ## What has been taken -/

/-- An inode is laid out for its block, below `next`, as its parent is. -/
structure NewInode.Laid (agShift next : ℕ) (p : NewInode) : Prop where
  run : p.run = Mkfs.run p.block 1 agShift
  block : p.block < next
  parent : ∃ q < next, p.parent = Mkfs.run q 1 agShift
  runs : p.runs.length ≤ 1
  fits : p.run.Fits ∧ p.parent.Fits ∧ ∀ r ∈ p.runs, r.Fits

def DataBlocks.run (agShift : ℕ) (d : DataBlocks) : Run := Mkfs.run d.base (blocksOf d.length) agShift

/-- The builder holds each of the extents `taken` once, as an inode's block or as data, and
    the data are in the inodes' runs. -/
structure Gathered (agShift : ℕ) (s : Builder) (taken : List Extent) : Prop where
  held : (s.inodes.map (fun p => (⟨p.block, 1⟩ : Extent)) ++
    s.dataBlocks.map DataBlocks.extent).Perm taken
  runs : (s.inodes.flatMap NewInode.runs).Perm (s.dataBlocks.map (DataBlocks.run agShift))
  laid : ∀ p ∈ s.inodes, p.Laid agShift s.nextBlock
  data : ∀ d ∈ s.dataBlocks, 0 < d.length

/-- The counter and the keys of the indices move on from `s` to `s'`. -/
structure MovesOn (s s' : Builder) (lengths : List ℕ) (names : List Key) (sizes : List ℕ) : Prop where
  next : s'.nextBlock = s.nextBlock + lengths.sum
  nameKeys : s'.nameIndex.map Prod.fst = s.nameIndex.map Prod.fst ++ names
  sizeKeys : s'.sizeIndex.map Prod.fst = s.sizeIndex.map Prod.fst ++ sizes.map packInt64
  timeKeys : s'.mtimeIndex.map Prod.fst =
    s.mtimeIndex.map Prod.fst ++ sizes.map fun _ => packInt64 FIXTURE_TIME

section
variable {agShift : ℕ} {s s' s'' : Builder} {taken : List Extent}

theorem packRun_some {block length : ℕ} {r : Run} (h : packRun block length agShift = some r) :
    r = run block length agShift ∧ r.Fits := by
  simp only [packRun, Option.ite_none_right_eq_some, Option.some.injEq] at h
  obtain ⟨⟨h₁, h₂, h₃⟩, rfl⟩ := h
  exact ⟨rfl, by omega, h₂, h₃⟩

theorem MovesOn.trans {ls ls' : List ℕ} {ns ns' : List Key} {zs zs' : List ℕ}
    (h : MovesOn s s' ls ns zs) (h' : MovesOn s' s'' ls' ns' zs') :
    MovesOn s s'' (ls ++ ls') (ns ++ ns') (zs ++ zs') where
  next := by rw [h'.next, h.next, List.sum_append, Nat.add_assoc]
  nameKeys := by rw [h'.nameKeys, h.nameKeys, List.append_assoc]
  sizeKeys := by rw [h'.sizeKeys, h.sizeKeys, List.map_append, List.append_assoc]
  timeKeys := by rw [h'.timeKeys, h.timeKeys, List.map_append, List.append_assoc]

theorem NewInode.Laid.mono {next next' : ℕ} {p : NewInode} (h : p.Laid agShift next)
    (hn : next ≤ next') : p.Laid agShift next' := by
  obtain ⟨q, hq, hp⟩ := h.parent
  exact { h with block := h.block.trans_le hn, parent := ⟨q, hq.trans_le hn, hp⟩ }

theorem Gathered.mono (h : Gathered agShift s taken) (hi : s'.inodes.Perm s.inodes)
    (hd : s'.dataBlocks = s.dataBlocks) (hn : s.nextBlock ≤ s'.nextBlock) :
    Gathered agShift s' taken where
  held := by rw [hd]; exact ((hi.map _).append_right _).trans h.held
  runs := by rw [hd]; exact (hi.flatMap_right _).trans h.runs
  laid p hp := (h.laid p (hi.mem_iff.1 hp)).mono hn
  data d hmem := h.data d (hd ▸ hmem)

theorem Gathered.perm {taken' : List Extent} (h : Gathered agShift s taken) (hp : taken.Perm taken') :
    Gathered agShift s taken' := { h with held := h.held.trans hp }

theorem Gathered.add {p : NewInode} {new : List DataBlocks} {block : ℕ} {extents : List Extent}
    (h : Gathered agShift s taken) (hi : s'.inodes = s.inodes ++ [p])
    (hd : s'.dataBlocks = s.dataBlocks ++ new) (hb : p.block = block)
    (he : new.map DataBlocks.extent = extents) (hr : p.runs = new.map (DataBlocks.run agShift))
    (hn : s.nextBlock ≤ s'.nextBlock) (hp : p.Laid agShift s'.nextBlock)
    (hpos : ∀ d ∈ new, 0 < d.length) :
    Gathered agShift s' (taken ++ ⟨block, 1⟩ :: extents) where
  held := by
    rw [← hb, ← he, hi, hd, List.map_append, List.map_append, List.map_singleton]
    refine List.Perm.trans ?_ (h.held.append_right _)
    rw [List.append_assoc, List.append_assoc, List.singleton_append]
    exact List.Perm.append_left _ List.perm_middle.symm
  runs := by
    rw [hi, hd, List.flatMap_append, List.map_append, List.flatMap_singleton, hr]
    exact h.runs.append_right _
  laid q hq := by
    rw [hi] at hq
    rcases List.mem_append.1 hq with hq | hq
    · exact (h.laid q hq).mono hn
    · exact List.mem_singleton.1 hq ▸ hp
  data d hmem := by
    rw [hd] at hmem
    exact (List.mem_append.1 hmem).elim (h.data d) (hpos d)

theorem addContent_some {content : List UInt8} {runs : List Run}
    (h : s.addContent agShift content = some (s', runs)) :
    ∃ new, s' = { s.take ((if content.length = 0 then [] else [blocksOf content.length]).sum) with
        dataBlocks := s.dataBlocks ++ new } ∧ runs = new.map (DataBlocks.run agShift) ∧
      new.map DataBlocks.extent = inRow s.nextBlock
        (if content.length = 0 then [] else [blocksOf content.length]) ∧
      runs.length ≤ 1 ∧ (∀ r ∈ runs, r.Fits) ∧ ∀ d ∈ new, 0 < d.length := by
  simp only [Builder.addContent] at h
  split_ifs at h with hempty hlong
  · obtain ⟨rfl, rfl⟩ := Prod.mk.inj (Option.some.inj h)
    refine ⟨[], ?_, rfl, ?_, by simp, by simp, by simp⟩
    · simp [hempty, Builder.take]
    · simp [hempty, inRow]
  · obtain ⟨r, hr, h⟩ := Option.bind_eq_some_iff.1 h
    obtain ⟨rfl, rfl⟩ := Prod.mk.inj (Option.some.inj h)
    obtain ⟨rfl, hfits⟩ := packRun_some hr
    refine ⟨[⟨s.nextBlock, ofList content, content.length⟩], ?_, rfl, ?_, by simp, by simpa using hfits,
      by simpa using Nat.pos_of_ne_zero hempty⟩
    · simp [hempty]
    · simp [hempty, inRow, DataBlocks.extent]

theorem addFile_gathered {own : ℕ} {name : Key} {content : List UInt8}
    (h : (s.take 1).addFile agShift own s.nextBlock name content = some s')
    (hown : own < s.nextBlock) (hs : Gathered agShift s taken) :
    MovesOn s s' (1 :: if content.length = 0 then [] else [blocksOf content.length]) [name]
      [content.length] ∧
    Gathered agShift s' (taken ++ inRow s.nextBlock
      (1 :: if content.length = 0 then [] else [blocksOf content.length])) := by
  generalize hlens : (if content.length = 0 then [] else [blocksOf content.length]) = lens
  obtain ⟨⟨s₁, runs⟩, hcontent, h⟩ := Option.bind_eq_some_iff.1 h
  obtain ⟨new, hs₁, hruns, hnew, hone, hfits, hpos⟩ := addContent_some hcontent
  obtain ⟨childRun, hchild, h⟩ := Option.bind_eq_some_iff.1 h
  obtain ⟨parentRun, hparent, h⟩ := Option.bind_eq_some_iff.1 h
  obtain ⟨rfl, hchildFits⟩ := packRun_some hchild
  obtain ⟨rfl, hparentFits⟩ := packRun_some hparent
  rw [hlens] at hs₁ hnew
  subst hs₁
  cases h
  have hnext : s.nextBlock < s.nextBlock + 1 + lens.sum := by omega
  refine ⟨⟨?_, by simp [Builder.take], by simp [Builder.take], by simp [Builder.take]⟩, ?_⟩
  · simp [Builder.take, Nat.add_assoc]
  · refine hs.add rfl rfl rfl hnew hruns (Nat.le_of_lt hnext) ?_ hpos
    exact ⟨rfl, hnext, ⟨own, hown.trans hnext, rfl⟩, hone, hchildFits, hparentFits, hfits⟩

theorem addDirectory_gathered {own parent : ℕ} {name : Option Key} {table : List Entry}
    (h : s.addDirectory agShift own parent name table = some s') (hown : own < s.nextBlock)
    (hparent : parent < s.nextBlock) (hs : Gathered agShift s taken) :
    MovesOn s s' [directoryBlocks (table.map Prod.fst)] [] [] ∧
    Gathered agShift s'
      (taken ++ [⟨own, 1⟩, ⟨s.nextBlock, directoryBlocks (table.map Prod.fst)⟩]) := by
  obtain ⟨t, ht, h⟩ := Option.bind_eq_some_iff.1 h
  obtain ⟨ownRun, hownRun, h⟩ := Option.bind_eq_some_iff.1 h
  obtain ⟨parentRun, hparentRun, h⟩ := Option.bind_eq_some_iff.1 h
  obtain ⟨r, hr, h⟩ := Option.bind_eq_some_iff.1 h
  obtain ⟨rfl, hownFits⟩ := packRun_some hownRun
  obtain ⟨rfl, hparentFits⟩ := packRun_some hparentRun
  obtain ⟨rfl, hrFits⟩ := packRun_some hr
  cases h
  rw [← directoryTree_blocks ht]
  have hnext : s.nextBlock ≤ s.nextBlock + blocksOf t.total := Nat.le_add_right _ _
  refine ⟨⟨by simp [Builder.take], by simp [Builder.take], by simp [Builder.take],
    by simp [Builder.take]⟩, ?_⟩
  refine hs.add rfl rfl rfl rfl rfl hnext ?_ fun d hd => List.mem_singleton.1 hd ▸ directoryTree_pos ht
  exact ⟨rfl, hown.trans_le hnext, ⟨parent, hparent.trans_le hnext, rfl⟩, Nat.le_refl 1, hownFits,
    hparentFits, fun r hr => List.mem_singleton.1 hr ▸ hrFits⟩

/-- **What is taken for the entries of a directory** is taken in a row, and held. -/
theorem buildEntries_gathered {own : ℕ} {es : Entries} {table table' : List Entry}
    (h : buildEntries agShift own es table s = some (table', s')) (hown : own < s.nextBlock)
    (hs : Gathered agShift s taken) :
    table'.map Prod.fst = table.map Prod.fst ++ es.names ∧
    MovesOn s s' es.lengths es.allNames es.fileSizes ∧
    Gathered agShift s' (taken ++ inRow s.nextBlock es.lengths) := by
  induction es generalizing own table table' s s' taken with
  | nil =>
    cases h
    refine ⟨by simp [Entries.names], ⟨?_, ?_, ?_, ?_⟩, by simpa [Entries.lengths, inRow] using hs⟩
    all_goals simp [Entries.lengths, Entries.allNames, Entries.fileSizes]
  | file name content rest ih =>
    obtain ⟨s₁, hfile, h⟩ := Option.bind_eq_some_iff.1 h
    obtain ⟨hmoves, hs₁⟩ := addFile_gathered hfile hown hs
    have hnext := hmoves.next
    obtain ⟨htable, hmoves', hs'⟩ := ih h (by omega) hs₁
    refine ⟨?_, hmoves.trans hmoves', ?_⟩
    · rw [htable, List.map_append, List.append_assoc]
      rfl
    · rw [hnext, List.append_assoc, ← inRow_append] at hs'
      exact hs'
  | dir name subtree rest ihSubtree ih =>
    obtain ⟨⟨names, s₁⟩, hsubtree, h⟩ := Option.bind_eq_some_iff.1 h
    obtain ⟨s₂, hdir, h⟩ := Option.bind_eq_some_iff.1 h
    have htake : Gathered agShift { s.take 1 with nameIndex := s.nameIndex ++ [(name, s.nextBlock)] }
        taken := hs.mono (List.Perm.refl _) rfl (Nat.le_succ _)
    have hmoves : MovesOn s { s.take 1 with nameIndex := s.nameIndex ++ [(name, s.nextBlock)] } [1]
        [name] [] := ⟨by simp [Builder.take], by simp, by simp [Builder.take], by simp [Builder.take]⟩
    obtain ⟨hnames, hmoves₁, hs₁⟩ := ihSubtree hsubtree (Nat.lt_succ_self _) htake
    have hnext₁ := hmoves.trans hmoves₁
    obtain ⟨hmoves₂, hs₂⟩ := addDirectory_gathered hdir
      (by rw [hnext₁.next, List.sum_append, List.sum_singleton]; omega)
      (by rw [hnext₁.next]; exact hown.trans_le (Nat.le_add_right _ _)) hs₁
    have hnext₂ := hnext₁.trans hmoves₂
    rw [hnames, List.map_nil, List.nil_append] at hmoves₂ hs₂ hnext₂
    obtain ⟨htable, hmoves₃, hs₃⟩ := ih h
      (by rw [hnext₂.next]; exact hown.trans_le (Nat.le_add_right _ _)) hs₂
    have hall := hnext₂.trans hmoves₃
    refine ⟨?_, ?_, hs₃.perm ?_⟩
    · rw [htable, List.map_append, List.append_assoc]
      rfl
    · simpa [Entries.lengths, Entries.allNames, Entries.fileSizes] using hall
    · have hn₁ : s₁.nextBlock = s.nextBlock + 1 + subtree.lengths.sum := by
        simpa [Nat.add_assoc] using hnext₁.next
      have hn₂ : s₂.nextBlock = s₁.nextBlock + directoryBlocks subtree.names := by
        simpa using hmoves₂.next
      have hrow : inRow s.nextBlock (Entries.dir name subtree rest).lengths =
          ⟨s.nextBlock, 1⟩ :: (inRow (s.nextBlock + 1) subtree.lengths ++
            ⟨s₁.nextBlock, directoryBlocks subtree.names⟩ :: inRow s₂.nextBlock rest.lengths) := by
        simp only [Entries.lengths, List.cons_append, inRow, inRow_append, hn₂, hn₁]
      rw [hrow, List.append_assoc, List.append_assoc]
      exact List.Perm.append_left _ List.perm_middle

theorem addFile_inodes {own child : ℕ} {name : Key} {content : List UInt8}
    (h : s.addFile agShift own child name content = some s') :
    ∃ p, s'.inodes = s.inodes ++ [p] ∧ p.name = some name := by
  obtain ⟨⟨s₁, runs⟩, hcontent, h⟩ := Option.bind_eq_some_iff.1 h
  obtain ⟨new, rfl, -⟩ := addContent_some hcontent
  obtain ⟨childRun, -, h⟩ := Option.bind_eq_some_iff.1 h
  obtain ⟨parentRun, -, h⟩ := Option.bind_eq_some_iff.1 h
  cases h
  exact ⟨_, rfl, rfl⟩

theorem addDirectory_inodes {own parent : ℕ} {name : Option Key} {table : List Entry}
    (h : s.addDirectory agShift own parent name table = some s') :
    ∃ p, s'.inodes = s.inodes ++ [p] ∧ p.name = name := by
  obtain ⟨t, -, h⟩ := Option.bind_eq_some_iff.1 h
  obtain ⟨ownRun, -, h⟩ := Option.bind_eq_some_iff.1 h
  obtain ⟨parentRun, -, h⟩ := Option.bind_eq_some_iff.1 h
  obtain ⟨r, -, h⟩ := Option.bind_eq_some_iff.1 h
  cases h
  exact ⟨_, rfl, rfl⟩

theorem buildEntries_names {own : ℕ} {es : Entries} {table table' : List Entry}
    (h : buildEntries agShift own es table s = some (table', s')) {p : NewInode} (hp : p ∈ s'.inodes) :
    p ∈ s.inodes ∨ ∃ name ∈ es.allNames, p.name = some name := by
  induction es generalizing own table table' s s' p with
  | nil =>
    cases h
    exact Or.inl hp
  | file name content rest ih =>
    obtain ⟨s₁, hfile, h⟩ := Option.bind_eq_some_iff.1 h
    obtain ⟨q, hq, hname⟩ := addFile_inodes hfile
    rcases ih h hp with hp | ⟨n, hn, hp⟩
    · rw [hq] at hp
      rcases List.mem_append.1 hp with hp | hp
      · exact Or.inl hp
      · exact Or.inr ⟨name, List.mem_cons_self, by rw [List.mem_singleton.1 hp, hname]⟩
    · exact Or.inr ⟨n, List.mem_cons_of_mem _ hn, hp⟩
  | dir name subtree rest ihSubtree ih =>
    obtain ⟨⟨names, s₁⟩, hsubtree, h⟩ := Option.bind_eq_some_iff.1 h
    obtain ⟨s₂, hdir, h⟩ := Option.bind_eq_some_iff.1 h
    obtain ⟨q, hq, hname⟩ := addDirectory_inodes hdir
    rw [Entries.allNames]
    rcases ih h hp with hp | ⟨n, hn, hp⟩
    · rw [hq] at hp
      rcases List.mem_append.1 hp with hp | hp
      · rcases ihSubtree hsubtree hp with hp | ⟨n, hn, hp⟩
        · exact Or.inl hp
        · exact Or.inr ⟨n, List.mem_append_left _ (List.mem_cons_of_mem _ hn), hp⟩
      · exact Or.inr ⟨name, by simp, by rw [List.mem_singleton.1 hp, hname]⟩
    · exact Or.inr ⟨n, List.mem_append_right _ hn, hp⟩

theorem placeIndex_some {t : Tree} {block : ℕ} {r : Run}
    (h : s.placeIndex agShift t = some (block, r, s')) :
    block = s.nextBlock ∧ r = run (block + 1) (blocksOf t.total) agShift ∧ r.Fits ∧
    s'.nextBlock = block + (1 + blocksOf t.total) ∧ s'.inodes = s.inodes ∧
    s'.dataBlocks = s.dataBlocks ++ [⟨block + 1, t.bytes, t.total⟩] := by
  obtain ⟨r', hr, h⟩ := Option.bind_eq_some_iff.1 h
  obtain ⟨rfl, hfits⟩ := packRun_some hr
  cases h
  exact ⟨rfl, rfl, hfits, rfl, rfl, rfl⟩

theorem Gathered.addIndex {block root : ℕ} {t : Tree} (h : Gathered agShift s taken)
    (mode typeCode : ℕ) (hblock : block < s.nextBlock) (hroot : root < s.nextBlock)
    (hown : (run block 1 agShift).Fits) (hparent : (run root 1 agShift).Fits)
    (hrun : (run (block + 1) (blocksOf t.total) agShift).Fits) (hpos : 0 < t.total) :
    Gathered agShift { s with
      inodes := s.inodes ++ [indexInode block (run block 1 agShift) (run root 1 agShift) mode typeCode t
        (run (block + 1) (blocksOf t.total) agShift)]
      dataBlocks := s.dataBlocks ++ [⟨block + 1, t.bytes, t.total⟩] }
      (taken ++ inRow block [1, blocksOf t.total]) := by
  refine h.add rfl rfl rfl rfl rfl (Nat.le_refl _) ?_ fun d hd => List.mem_singleton.1 hd ▸ hpos
  exact ⟨rfl, hblock, ⟨root, hroot, rfl⟩, Nat.le_refl 1, hown, hparent,
    fun r hr => List.mem_singleton.1 hr ▸ hrun⟩

/-- **The indices are taken in a row**, and held. -/
theorem addIndices_gathered {root : ℕ} (h : s.addIndices agShift = some (root, s'))
    (hs : Gathered agShift s taken) :
    s'.nextBlock = s.nextBlock + (indexLengths (s.nameIndex.map Prod.fst) (s.mtimeIndex.map Prod.fst)
      (s.sizeIndex.map Prod.fst)).sum ∧ root < s'.nextBlock ∧
    Gathered agShift s' (taken ++ inRow s.nextBlock (indexLengths (s.nameIndex.map Prod.fst)
      (s.mtimeIndex.map Prod.fst) (s.sizeIndex.map Prod.fst))) ∧
    ∃ new, s'.inodes = s.inodes ++ new ∧ ∀ p ∈ new, p.name = none := by
  obtain ⟨⟨nameBlock, nameRun, s₁⟩, h₁, h⟩ := Option.bind_eq_some_iff.1 h
  obtain ⟨⟨appsigBlock, appsigRun, s₂⟩, h₂, h⟩ := Option.bind_eq_some_iff.1 h
  obtain ⟨⟨mtimeBlock, mtimeRun, s₃⟩, h₃, h⟩ := Option.bind_eq_some_iff.1 h
  obtain ⟨⟨sizeBlock, sizeRun, s₄⟩, h₄, h⟩ := Option.bind_eq_some_iff.1 h
  obtain ⟨⟨rootBlock, indicesRun, s₅⟩, h₅, h⟩ := Option.bind_eq_some_iff.1 h
  obtain ⟨rootRun, hroot, h⟩ := Option.bind_eq_some_iff.1 h
  obtain ⟨nameOwn, hname, h⟩ := Option.bind_eq_some_iff.1 h
  obtain ⟨appsigOwn, happsig, h⟩ := Option.bind_eq_some_iff.1 h
  obtain ⟨mtimeOwn, hmtime, h⟩ := Option.bind_eq_some_iff.1 h
  obtain ⟨sizeOwn, hsize, h⟩ := Option.bind_eq_some_iff.1 h
  have hz₁ := typedTree_blocks .string s.nameIndex
  have hz₂ := typedTree_blocks .string []
  have hz₃ := typedTree_blocks .int64 s.mtimeIndex
  have hz₄ := typedTree_blocks .int64 s.sizeIndex
  have hz₅ := typedTree_blocks .string
    [(APP_SIG, appsigBlock), (LAST_MODIFIED, mtimeBlock), (NAME, nameBlock), (SIZE, sizeBlock)]
  simp only [List.map_cons, List.map_nil] at hz₂ hz₅
  rw [indexLengths, ← hz₁, ← hz₂, ← hz₃, ← hz₄, ← hz₅]
  have hpos₁ := typedTree_pos .string s.nameIndex
  have hpos₂ := typedTree_pos .string []
  have hpos₃ := typedTree_pos .int64 s.mtimeIndex
  have hpos₄ := typedTree_pos .int64 s.sizeIndex
  have hpos₅ := typedTree_pos .string
    [(APP_SIG, appsigBlock), (LAST_MODIFIED, mtimeBlock), (NAME, nameBlock), (SIZE, sizeBlock)]
  generalize typedTree .string s.nameIndex = t₁ at *
  generalize typedTree .string [] = t₂ at *
  generalize typedTree .int64 s.mtimeIndex = t₃ at *
  generalize typedTree .int64 s.sizeIndex = t₄ at *
  generalize typedTree .string [(APP_SIG, appsigBlock), (LAST_MODIFIED, mtimeBlock),
    (NAME, nameBlock), (SIZE, sizeBlock)] = t₅ at *
  clear hz₁ hz₂ hz₃ hz₄ hz₅
  obtain ⟨hb₁, rfl, hfits₁, hn₁, hi₁, hd₁⟩ := placeIndex_some h₁
  obtain ⟨hb₂, rfl, hfits₂, hn₂, hi₂, hd₂⟩ := placeIndex_some h₂
  obtain ⟨hb₃, rfl, hfits₃, hn₃, hi₃, hd₃⟩ := placeIndex_some h₃
  obtain ⟨hb₄, rfl, hfits₄, hn₄, hi₄, hd₄⟩ := placeIndex_some h₄
  obtain ⟨hb₅, rfl, hfits₅, hn₅, hi₅, hd₅⟩ := placeIndex_some h₅
  obtain ⟨rfl, hroot⟩ := packRun_some hroot
  obtain ⟨rfl, hname⟩ := packRun_some hname
  obtain ⟨rfl, happsig⟩ := packRun_some happsig
  obtain ⟨rfl, hmtime⟩ := packRun_some hmtime
  obtain ⟨rfl, hsize⟩ := packRun_some hsize
  cases h
  -- with the counter where it ends, each index in turn adds its inode and its tree
  have hs₀ : Gathered agShift { s with nextBlock := s₅.nextBlock } taken :=
    hs.mono (List.Perm.refl _) rfl (by simp only; omega)
  have hs₁ := hs₀.addIndex std_str TYPE_CSTR (by simp only; omega) (by simp only; omega)
    hname hroot hfits₁ hpos₁
  have hs₂ := hs₁.addIndex std_str TYPE_CSTR (by simp only; omega) (by simp only; omega)
    happsig hroot hfits₂ hpos₂
  have hs₃ := hs₂.addIndex std_i64 TYPE_LLNG (by simp only; omega) (by simp only; omega)
    hmtime hroot hfits₃ hpos₃
  have hs₄ := hs₃.addIndex std_i64 TYPE_LLNG (by simp only; omega) (by simp only; omega)
    hsize hroot hfits₄ hpos₄
  have hs₅ := hs₄.addIndex (S_INDEX_DIR ||| S_STR_INDEX ||| S_IFDIR ||| 0o700) 0 (by simp only; omega)
    (by simp only; omega) hroot hroot hfits₅ hpos₅
  refine ⟨?_, by simp only; omega, Gathered.perm (hs₅.mono ?_ ?_ (Nat.le_refl _)) (List.Perm.of_eq ?_),
    _, by rw [hi₅, hi₄, hi₃, hi₂, hi₁], by simp [indexInode]⟩
  · simp only [List.sum_cons, List.sum_nil]
    omega
  · rw [hi₅, hi₄, hi₃, hi₂, hi₁]
    simp only [List.append_assoc]
    exact List.Perm.append_left _ (List.perm_append_singleton _ [_, _, _, _]).symm
  · rw [hd₅, hd₄, hd₃, hd₂, hd₁]
  · simp only [List.append_assoc, inRow, List.cons_append, List.nil_append, List.append_cancel_left_eq,
      List.cons.injEq, Extent.mk.injEq, and_true]
    omega

/-- What a layout of the tree holds: what the tree needs, in a row behind the log, in inodes
    that have names of the tree or none. -/
structure Layout.Holds (size : ℕ) (es : Entries) (l : Layout) : Prop where
  used : l.built.nextBlock = dataStart size + es.allLengths.sum
  indices : l.indicesBlock < l.built.nextBlock
  gathered : Gathered (formatGeometry size).agShift l.built (inRow (dataStart size) es.allLengths)
  log : (run (logBase size) (formatGeometry size).log.length (formatGeometry size).agShift).Fits
  names : ∀ p ∈ l.built.inodes, p.name = none ∨ ∃ name ∈ es.allNames, p.name = some name

/-- **A layout holds what its tree needs.** -/
theorem layout_holds {size : ℕ} {es : Entries} {l : Layout} (h : layout size es = some l) :
    l.Holds size es := by
  obtain ⟨⟨table, s₁⟩, hbuild, h⟩ := Option.bind_eq_some_iff.1 h
  obtain ⟨s₂, hroot, h⟩ := Option.bind_eq_some_iff.1 h
  obtain ⟨⟨indicesBlock, s₃⟩, hindices, h⟩ := Option.bind_eq_some_iff.1 h
  obtain ⟨r, hlog, h⟩ := Option.bind_eq_some_iff.1 h
  obtain ⟨rfl, hfits⟩ := packRun_some hlog
  cases h
  have hempty : Gathered (formatGeometry size).agShift ⟨dataStart size + 1, [], [], [], [], []⟩ [] :=
    ⟨List.Perm.refl _, List.Perm.refl _, fun p hp => (by cases hp), fun d hd => (by cases hd)⟩
  obtain ⟨htable, hmoves₁, hs₁⟩ := buildEntries_gathered hbuild (Nat.lt_succ_self _) hempty
  have hn₁ : s₁.nextBlock = dataStart size + 1 + es.lengths.sum := hmoves₁.next
  obtain ⟨hmoves₂, hs₂⟩ := addDirectory_gathered hroot (by omega) (by omega) hs₁
  have hmoves := hmoves₁.trans hmoves₂
  obtain ⟨hn₃, hlt, hs₃, new, hnew, hnone⟩ := addIndices_gathered hindices hs₂
  rw [hmoves.nameKeys, hmoves.timeKeys, hmoves.sizeKeys] at hn₃ hs₃
  simp only [List.map_nil, List.nil_append, List.append_nil] at htable hmoves hn₃ hs₃
  rw [htable] at hmoves hs₃
  have hn₂ : s₂.nextBlock = s₁.nextBlock + directoryBlocks es.names := by
    have hn₂ := hmoves.next
    simp only [List.sum_append, List.sum_singleton] at hn₂
    omega
  have hall : inRow (dataStart size) es.allLengths =
      ⟨dataStart size, 1⟩ :: (inRow (dataStart size + 1) es.lengths ++
        ⟨s₁.nextBlock, directoryBlocks es.names⟩ :: inRow s₂.nextBlock (indexLengths es.allNames
          (es.fileSizes.map fun _ => packInt64 FIXTURE_TIME) (es.fileSizes.map packInt64))) := by
    simp only [Entries.allLengths, List.cons_append, inRow, inRow_append, hn₁, hn₂]
  refine ⟨?_, hlt, hs₃.perm ?_, hfits, fun p hp => ?_⟩
  · rw [hn₃, hn₂, hn₁, Entries.allLengths, List.cons_append, List.sum_cons, List.sum_append,
      List.sum_cons]
    omega
  · rw [hall, List.append_assoc]
    exact List.perm_middle
  · obtain ⟨q, hq, hroot⟩ := addDirectory_inodes hroot
    rw [hnew, hq, List.append_assoc] at hp
    rcases List.mem_append.1 hp with hp | hp
    · rcases buildEntries_names hbuild hp with hp | hp
      · cases hp
      · exact Or.inr hp
    · rcases List.mem_append.1 hp with hp | hp
      · exact Or.inl (by rw [List.mem_singleton.1 hp, hroot])
      · exact Or.inl (hnone p hp)

end

/-! ## What is accepted -/

section
variable {agShift : ℕ} {s s' : Builder} {taken : List Extent} (ha : 14 ≤ agShift) (ha' : agShift ≤ 16)
include ha ha'

theorem packRun_of_lt {block length : ℕ} (hb : block < 2 ^ 45) (hl : length < 2 ^ 16) :
    packRun block length agShift = some (run block length agShift) := by
  have h₁ : 2 ^ 14 ≤ 2 ^ agShift := Nat.pow_le_pow_right (by norm_num) ha
  have h₂ : 2 ^ agShift ≤ 2 ^ 16 := Nat.pow_le_pow_right (by norm_num) ha'
  have hgroup : block >>> agShift < 2 ^ 31 := by
    rw [Nat.shiftRight_eq_div_pow]
    refine Nat.div_lt_of_lt_mul (hb.trans_le ?_)
    have : 2 ^ 14 * 2 ^ 31 ≤ 2 ^ agShift * 2 ^ 31 := Nat.mul_le_mul_right _ h₁
    omega
  have hstart : block &&& (2 ^ agShift - 1) < 2 ^ 16 := by
    rw [Nat.and_two_pow_sub_one_eq_mod]
    exact (Nat.mod_lt _ (Nat.two_pow_pos _)).trans_le h₂
  exact if_pos ⟨hgroup, hstart, hl⟩

omit ha ha' in
theorem directoryTree_some {table : List Entry} (h : ∀ e ∈ table, e.1.length ≤ kMaxName) :
    ∃ t, directoryTree table = some t := by
  obtain ⟨t, ht⟩ := tree_some h
  refine ⟨t, ?_⟩
  rw [directoryTree, if_pos, ht]
  intro c hc
  have := plan_fits h c hc
  simp only [fits, Bool.and_eq_true, decide_eq_true_eq] at this
  exact this.2

theorem addFile_some {own child : ℕ} {name : Key} {content : List UInt8} (hown : own < 2 ^ 45)
    (hchild : child < 2 ^ 45) (hnext : s.nextBlock < 2 ^ 45) (hlen : blocksOf content.length < 2 ^ 16) :
    ∃ s', s.addFile agShift own child name content = some s' := by
  obtain ⟨⟨s₁, runs⟩, hr⟩ : ∃ r, s.addContent agShift content = some r := by
    simp only [Builder.addContent, packRun_of_lt ha ha' hnext hlen]
    split_ifs with hempty hlong
    · exact ⟨_, rfl⟩
    · omega
    · exact ⟨_, rfl⟩
  simp only [Builder.addFile, hr, packRun_of_lt ha ha' hown (by norm_num : 1 < 2 ^ 16),
    packRun_of_lt ha ha' hchild (by norm_num : 1 < 2 ^ 16), Option.bind_eq_bind, Option.bind_some,
    Option.some.injEq, exists_eq']

theorem addDirectory_some {own parent : ℕ} {name : Option Key} {table : List Entry}
    (hown : own < 2 ^ 45) (hparent : parent < 2 ^ 45) (hnext : s.nextBlock < 2 ^ 45)
    (hnames : ∀ e ∈ table, e.1.length ≤ kMaxName)
    (hlen : directoryBlocks (table.map Prod.fst) < 2 ^ 16) :
    ∃ s', s.addDirectory agShift own parent name table = some s' := by
  have hall : ∀ e ∈ ordered .string (table ++ [([46], own), ([46, 46], parent)]),
      e.1.length ≤ kMaxName := by
    intro e he
    rcases List.mem_append.1 ((ordered_perm _ _).mem_iff.1 he) with he | he
    · exact hnames e he
    · simp only [List.mem_cons, List.not_mem_nil, or_false] at he
      rcases he with rfl | rfl <;> simp [kMaxName]
  obtain ⟨t, ht⟩ := directoryTree_some hall
  rw [← directoryTree_blocks ht] at hlen
  simp only [Builder.addDirectory, ht, packRun_of_lt ha ha' hown (by norm_num : 1 < 2 ^ 16),
    packRun_of_lt ha ha' hparent (by norm_num : 1 < 2 ^ 16), packRun_of_lt ha ha' hnext hlen,
    Option.bind_eq_bind, Option.bind_some, Option.some.injEq, exists_eq']

theorem buildEntries_some {own : ℕ} {es : Entries} {table : List Entry} (hs : Gathered agShift s taken)
    (hown : own < s.nextBlock) (hend : s.nextBlock + es.lengths.sum < 2 ^ 45)
    (hnames : ∀ n ∈ es.allNames, n.length ≤ kMaxName) (hlens : ∀ n ∈ es.lengths, n < 2 ^ 16) :
    ∃ r, buildEntries agShift own es table s = some r := by
  induction es generalizing own table s taken with
  | nil => exact ⟨_, rfl⟩
  | file name content rest ih =>
    rw [Entries.lengths, List.sum_append] at hend
    have hrest : ∀ n ∈ rest.lengths, n < 2 ^ 16 := fun n hn => hlens n (List.mem_append_right _ hn)
    have hlen : blocksOf content.length < 2 ^ 16 := by
      rcases Nat.eq_zero_or_pos content.length with hempty | hpos
      · rw [hempty]
        decide
      · exact hlens _ (by simp [Entries.lengths, Nat.ne_of_gt hpos])
    have hsum : 1 ≤ (1 :: if content.length = 0 then [] else [blocksOf content.length]).sum := by
      rw [List.sum_cons]
      exact Nat.le_add_right _ _
    obtain ⟨s₁, hfile⟩ := @addFile_some _ (s.take 1) ha ha' own s.nextBlock name content (by omega)
      (by omega) (by simp only [Builder.take]; omega) hlen
    obtain ⟨hmoves, hs₁⟩ := addFile_gathered hfile hown hs
    have hnext := hmoves.next
    obtain ⟨r, hr⟩ := @ih s₁ _ own (table ++ [(name, s.nextBlock)]) hs₁ (by omega) (by omega)
      (fun n hn => hnames n (List.mem_cons_of_mem _ hn)) hrest
    exact ⟨r, by simp only [buildEntries, hfile, Option.bind_eq_bind, Option.bind_some, hr]⟩
  | dir name subtree rest ihSubtree ih =>
    simp only [Entries.lengths, List.sum_append, List.sum_cons, List.cons_append] at hend
    have hsubtree : ∀ n ∈ subtree.lengths, n < 2 ^ 16 := fun n hn => hlens n (by
      simp [Entries.lengths, hn])
    have hrest : ∀ n ∈ rest.lengths, n < 2 ^ 16 := fun n hn => hlens n (by simp [Entries.lengths, hn])
    have hlen : directoryBlocks subtree.names < 2 ^ 16 := hlens _ (by simp [Entries.lengths])
    have hall : ∀ n ∈ subtree.allNames, n.length ≤ kMaxName := fun n hn => hnames n (by
      simp [Entries.allNames, hn])
    have htake : Gathered agShift { s.take 1 with nameIndex := s.nameIndex ++ [(name, s.nextBlock)] }
        taken := hs.mono (List.Perm.refl _) rfl (Nat.le_succ _)
    obtain ⟨⟨names, s₁⟩, hbuild⟩ := @ihSubtree _ _ s.nextBlock [] htake (Nat.lt_succ_self _)
      (by simp only [Builder.take]; omega) hall hsubtree
    obtain ⟨htable, hmoves₁, hs₁⟩ := buildEntries_gathered hbuild (Nat.lt_succ_self _) htake
    rw [List.map_nil, List.nil_append] at htable
    have hn₁ : s₁.nextBlock = s.nextBlock + 1 + subtree.lengths.sum := hmoves₁.next
    obtain ⟨s₂, hdir⟩ := @addDirectory_some _ s₁ ha ha' s.nextBlock own (some name) names (by omega)
      (by omega) (by omega) (fun e he => hall _ (subtree.names_subset (by
        rw [← htable]; exact List.mem_map_of_mem he))) (by rw [htable]; exact hlen)
    obtain ⟨hmoves₂, hs₂⟩ := addDirectory_gathered hdir (by omega) (by omega) hs₁
    have hn₂ := hmoves₂.next
    rw [htable, List.sum_singleton] at hn₂
    obtain ⟨r, hr⟩ := @ih s₂ _ own (table ++ [(name, s.nextBlock)]) hs₂ (by omega) (by omega)
      (fun n hn => hnames n (by simp [Entries.allNames, hn])) hrest
    exact ⟨r, by simp only [buildEntries, hbuild, hdir, Option.bind_eq_bind, Option.bind_some, hr]⟩

theorem placeIndex_of_lt {t : Tree} (hnext : s.nextBlock + 1 < 2 ^ 45) (hlen : blocksOf t.total < 2 ^ 16) :
    ∃ s', s.placeIndex agShift t = some (s.nextBlock, run (s.nextBlock + 1) (blocksOf t.total) agShift, s') ∧
      s'.nextBlock = s.nextBlock + (1 + blocksOf t.total) := by
  simp only [Builder.placeIndex, packRun_of_lt ha ha' hnext hlen, Option.bind_eq_bind, Option.bind_some,
    Option.some.injEq, Prod.mk.injEq, true_and, exists_eq_left']
  rfl

theorem addIndices_some {names times sizes : List Key} (hnames : s.nameIndex.map Prod.fst = names)
    (htimes : s.mtimeIndex.map Prod.fst = times) (hsizes : s.sizeIndex.map Prod.fst = sizes)
    (hend : s.nextBlock + (indexLengths names times sizes).sum < 2 ^ 45)
    (hlens : ∀ n ∈ indexLengths names times sizes, n < 2 ^ 16) :
    ∃ r, s.addIndices agShift = some r := by
  subst hnames htimes hsizes
  have hz₁ := typedTree_blocks .string s.nameIndex
  have hz₂ := typedTree_blocks .string []
  have hz₃ := typedTree_blocks .int64 s.mtimeIndex
  have hz₄ := typedTree_blocks .int64 s.sizeIndex
  have hz₅ := fun a b c d =>
    typedTree_blocks .string [(APP_SIG, a), (LAST_MODIFIED, b), (NAME, c), (SIZE, d)]
  simp only [List.map_cons, List.map_nil] at hz₂ hz₅
  simp only [indexLengths, List.forall_mem_cons, List.sum_cons, List.sum_nil] at hend hlens
  rw [← hz₁, ← hz₂, ← hz₃, ← hz₄] at hend hlens
  obtain ⟨-, hl₁, -, hl₂, -, hl₃, -, hl₄, -, hl₅, -⟩ := hlens
  obtain ⟨s₁, h₁, hn₁⟩ := @placeIndex_of_lt _ s ha ha' _ (by omega) hl₁
  obtain ⟨s₂, h₂, hn₂⟩ := @placeIndex_of_lt _ s₁ ha ha' _ (by omega) hl₂
  obtain ⟨s₃, h₃, hn₃⟩ := @placeIndex_of_lt _ s₂ ha ha' _ (by omega) hl₃
  obtain ⟨s₄, h₄, hn₄⟩ := @placeIndex_of_lt _ s₃ ha ha' _ (by omega) hl₄
  have hl₅' := hz₅ s₁.nextBlock s₂.nextBlock s.nextBlock s₃.nextBlock
  obtain ⟨s₅, h₅, -⟩ := @placeIndex_of_lt _ s₄ ha ha' _ (by omega) (hl₅'.trans_lt hl₅)
  have hone : 1 < 2 ^ 16 := by norm_num
  simp only [Builder.addIndices, h₁, h₂, h₃, h₄, h₅, Option.bind_eq_bind, Option.bind_some,
    packRun_of_lt ha ha' (show s.nextBlock < 2 ^ 45 by omega) hone,
    packRun_of_lt ha ha' (show s₁.nextBlock < 2 ^ 45 by omega) hone,
    packRun_of_lt ha ha' (show s₂.nextBlock < 2 ^ 45 by omega) hone,
    packRun_of_lt ha ha' (show s₃.nextBlock < 2 ^ 45 by omega) hone,
    packRun_of_lt ha ha' (show s₄.nextBlock < 2 ^ 45 by omega) hone, Option.some.injEq, exists_eq']

end

/-- **Every tree of names the volume can read is accepted** whose files and trees are each
    at most 65535 blocks, on a volume that does not end beyond what a run can name. -/
theorem layout_some {size : ℕ} {es : Entries} (hnames : ∀ n ∈ es.allNames, n.length ≤ kMaxName)
    (hlens : ∀ n ∈ es.allLengths, n < 2 ^ 16) (hend : dataStart size + es.allLengths.sum < 2 ^ 45) :
    ∃ l, layout size es = some l := by
  obtain ⟨j, hj, hag, -⟩ := formatGeometry_cases size
  have ha : 14 ≤ (formatGeometry size).agShift := by omega
  have ha' : (formatGeometry size).agShift ≤ 16 := by omega
  have hlog := formatGeometry_log_length size
  have hstart : dataStart size = logBase size + (formatGeometry size).log.length := rfl
  simp only [Entries.allLengths, List.cons_append, List.sum_cons, List.sum_append] at hend
  obtain ⟨-, hlens⟩ := List.forall_mem_cons.1 hlens
  have hentries : ∀ n ∈ es.lengths, n < 2 ^ 16 := fun n hn => hlens n (List.mem_append_left _ hn)
  obtain ⟨hdirectory, hindices⟩ := List.forall_mem_cons.1 fun n hn =>
    hlens n (List.mem_append_right _ hn)
  have hempty : Gathered (formatGeometry size).agShift ⟨dataStart size + 1, [], [], [], [], []⟩ [] :=
    ⟨List.Perm.refl _, List.Perm.refl _, fun p hp => (by cases hp), fun d hd => (by cases hd)⟩
  obtain ⟨⟨table, s₁⟩, hbuild⟩ := @buildEntries_some _ _ _ ha ha' (dataStart size) es [] hempty
    (Nat.lt_succ_self _) (by simp only; omega) hnames hentries
  obtain ⟨htable, hmoves₁, hs₁⟩ := buildEntries_gathered hbuild (Nat.lt_succ_self _) hempty
  rw [List.map_nil, List.nil_append] at htable
  have hn₁ : s₁.nextBlock = dataStart size + 1 + es.lengths.sum := hmoves₁.next
  obtain ⟨s₂, hroot⟩ := @addDirectory_some _ s₁ ha ha' (dataStart size) (dataStart size) none table
    (by omega) (by omega) (by omega) (fun e he => hnames _ (es.names_subset (by
      rw [← htable]; exact List.mem_map_of_mem he))) (by rw [htable]; exact hdirectory)
  obtain ⟨hmoves₂, hs₂⟩ := addDirectory_gathered hroot (by omega) (by omega) hs₁
  have hmoves := hmoves₁.trans hmoves₂
  have hn₂ := hmoves₂.next
  rw [htable, List.sum_singleton] at hn₂
  obtain ⟨⟨indicesBlock, s₃⟩, hadd⟩ := @addIndices_some _ s₂ ha ha' es.allNames
    (es.fileSizes.map fun _ => packInt64 FIXTURE_TIME) (es.fileSizes.map packInt64)
    (by simpa using hmoves.nameKeys) (by simpa using hmoves.timeKeys) (by simpa using hmoves.sizeKeys)
    (by omega) hindices
  have hpack := @packRun_of_lt _ ha ha' (logBase size) (formatGeometry size).log.length (by omega)
    (by omega)
  exact ⟨⟨indicesBlock, s₃⟩, by
    simp only [layout, hbuild, hroot, hadd, hpack, Option.bind_eq_bind, Option.bind_some]⟩

end Aegir.Mkfs
