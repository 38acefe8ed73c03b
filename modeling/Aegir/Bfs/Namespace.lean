/-
  The tree of names on a volume.

  A directory's entries name the inodes in it, dot names itself and dotdot its
  parent; every inode that can be named is named once, the root aside.
-/
import Aegir.Bfs.Effects

namespace Aegir.Bfs

open Aegir.Lib Aegir.Lib.Buf Aegir.Lib.Fallible Files

/-! ## Directories -/

/-- What an inode is in the tree of names. -/
structure Node where
  run : Run
  parent : Run
  /-- a file or a directory, not an attribute or an index -/
  regular : Bool
  /-- its mode is a directory's -/
  dirMode : Bool
deriving DecidableEq

def Node.directory (n : Node) : Bool := n.regular && n.dirMode

def Inode.node (i : Inode) : Node where
  run := i.run
  parent := i.parent
  regular := isRegularNode i.mode
  dirMode := modeIsDirectory i.mode

/-- The inode in a block that is taken. -/
def Contents.nodeAt (g : Geometry) (c : Contents) (b : ℕ) : Option Node :=
  if c.taken b = true ∧ b < g.numBlocks then (parseInode g.blockSize (c.image b)).map Inode.node else none

/-- The entries of the directory `n` in the block `d`, with names that `P` allows. -/
structure Listing (P : Key → Prop) (g : Geometry) (root : ℕ) (c : Contents) (d : ℕ) (n : Node) (es : List Entry) : Prop where
  allowed : ∀ e ∈ es, P e.1
  nodup : (es.map Prod.fst).Nodup
  dot : ([46], d) ∈ es
  dotdot : ([46, 46], g.toBlock n.parent) ∈ es
  child : ∀ name b, (name, b) ∈ es → isDotName name = false →
    b ≠ root ∧ ∃ m, c.nodeAt g b = some m ∧ m.regular = true ∧ m.parent = n.run
  once : ∀ name name' b, (name, b) ∈ es → (name', b) ∈ es → isDotName name = false →
    isDotName name' = false → name = name'

/-- The tree of names. -/
structure Namespace (P : Key → Prop) (g : Geometry) (root : ℕ) (c : Contents) : Prop where
  node : ∀ b, c.taken b = true → ∃ n, c.nodeAt g b = some n ∧ g.toBlock n.run = b ∧ n.run.length = 1
  rootDirectory : ∃ n, c.nodeAt g root = some n ∧ n.directory = true ∧ n.parent = n.run
  listing : ∀ d n, c.nodeAt g d = some n → n.directory = true →
    ∃ es, c.tree d = some es ∧ Listing P g root c d n es
  named : ∀ b n, c.nodeAt g b = some n → n.regular = true → b ≠ root →
    ∃ d m es name, c.nodeAt g d = some m ∧ m.directory = true ∧ c.tree d = some es ∧ (name, b) ∈ es ∧
      isDotName name = false

section
variable {P : Key → Prop} {g : Geometry} {root : ℕ} {c c' : Contents} {b : ℕ} {n : Node}

theorem nodeAt_taken (h : c.nodeAt g b = some n) : c.taken b = true := by
  unfold Contents.nodeAt at h
  split at h
  · exact (‹_ ∧ _›).1
  · cases h

theorem nodeAt_parse (h : c.nodeAt g b = some n) :
    b < g.numBlocks ∧ ∃ i, parseInode g.blockSize (c.image b) = some i ∧ i.node = n := by
  unfold Contents.nodeAt at h
  split at h
  · exact ⟨(‹_ ∧ _›).2, Option.map_eq_some_iff.mp h⟩
  · cases h

theorem nodeAt_regular (h : c.nodeAt g b = some n) (hd : n.directory = true) : n.regular = true := by
  obtain ⟨-, i, -, rfl⟩ := nodeAt_parse h
  exact (Bool.and_eq_true_iff.mp hd).1

theorem leRun_of_nodeAt (h : c.nodeAt g b = some n) : leRun (c.image b) InodeField.kInodeNum = n.run := by
  obtain ⟨-, i, hi, rfl⟩ := nodeAt_parse h
  unfold parseInode at hi
  split at hi
  · cases hi
  · cases hi; rfl

theorem nodeAt_congr (ht : c'.taken b = c.taken b) (hi : SameHead (c.image b) (c'.image b)) :
    c'.nodeAt g b = c.nodeAt g b := by
  unfold Contents.nodeAt
  rw [ht]
  split
  · rcases hi.parse g.blockSize with ⟨h₁, h₂⟩ | ⟨i, i', h₁, h₂, hr, hp, hm⟩
    · rw [h₁, h₂]
    · rw [h₁, h₂]
      simp only [Option.map_some, Inode.node, hr, hp, hm]
  · rfl

theorem lookup_iff_mem {es : List Entry} (hnd : (es.map Prod.fst).Nodup) {name : Key} {v : ℕ} :
    es.lookup name = some v ↔ (name, v) ∈ es := by
  induction es with
  | nil => simp
  | cons e es ih =>
    obtain ⟨k, w⟩ := e
    rw [List.map_cons, List.nodup_cons] at hnd
    rw [List.lookup_cons]
    by_cases hk : name = k
    · subst hk
      have hnot : (name, v) ∉ es := fun hmem => hnd.1 (List.mem_map.mpr ⟨_, hmem, rfl⟩)
      simp only [beq_self_eq_true, Option.some.injEq, List.mem_cons, Prod.mk.injEq, true_and, hnot,
        or_false]
      exact eq_comm
    · rw [beq_eq_false_iff_ne.mpr hk]
      simp [hk, ih hnd.2]

theorem nodeAt_remoded (ht : c'.taken b = c.taken b) (hi : Remoded (c.image b) (c'.image b)) :
    c'.nodeAt g b = c.nodeAt g b := by
  unfold Contents.nodeAt
  rw [ht]
  split
  · rcases hi.parse g.blockSize with ⟨h₁, h₂⟩ | ⟨i, i', h₁, h₂, hsame⟩
    · rw [h₁, h₂]
    · have hrun : i'.run = i.run := by rw [hsame.fields]
      have hparent : i'.parent = i.parent := by rw [hsame.fields]
      rw [h₁, h₂]
      simp only [Option.map_some, Inode.node, hrun, hparent, isRegularNode_of_div_eq hsame.type,
        modeIsDirectory_of_div_eq hsame.type]
  · rfl

namespace Listing

variable {d : ℕ} {es : List Entry} (h : Listing P g root c d n es)
include h

theorem lookup_iff {name : Key} {v : ℕ} : es.lookup name = some v ↔ (name, v) ∈ es := lookup_iff_mem h.nodup

theorem not_dot {name : Key} (hn : es.lookup name = none) : isDotName name = false := by
  rcases hd : isDotName name
  · rfl
  · unfold isDotName at hd
    simp only [Bool.or_eq_true, beq_iff_eq] at hd
    rcases hd with rfl | rfl
    · rw [h.lookup_iff.mpr h.dot] at hn; cases hn
    · rw [h.lookup_iff.mpr h.dotdot] at hn; cases hn

theorem mono (hc : ∀ name b m, (name, b) ∈ es → isDotName name = false → c.nodeAt g b = some m →
    c'.nodeAt g b = some m) : Listing P g root c' d n es := by
  refine ⟨h.allowed, h.nodup, h.dot, h.dotdot, fun name b hmem hdot => ?_, h.once⟩
  obtain ⟨hne, m, hm, hreg, hp⟩ := h.child name b hmem hdot
  exact ⟨hne, m, hc name b m hmem hdot hm, hreg, hp⟩

theorem cons {name : Key} {m : Node} (hP : P name) (hnone : es.lookup name = none) (hb : b ≠ root)
    (hm : c.nodeAt g b = some m) (hreg : m.regular = true) (hp : m.parent = n.run)
    (hfresh : ∀ name', (name', b) ∈ es → isDotName name' = true) : Listing P g root c d n ((name, b) :: es) := by
  refine ⟨?_, ?_, List.mem_cons_of_mem _ h.dot, List.mem_cons_of_mem _ h.dotdot, ?_, ?_⟩
  · intro e he
    rcases List.mem_cons.mp he with rfl | he
    · exact hP
    · exact h.allowed e he
  · rw [List.map_cons, List.nodup_cons]
    refine ⟨fun hmem => ?_, h.nodup⟩
    obtain ⟨⟨k, v⟩, he, hk⟩ := List.mem_map.mp hmem
    cases hk
    rw [h.lookup_iff.mpr he] at hnone
    cases hnone
  · intro name' b' hmem hdot
    rcases List.mem_cons.mp hmem with he | hmem
    · cases he
      exact ⟨hb, m, hm, hreg, hp⟩
    · exact h.child name' b' hmem hdot
  · intro k k' b' hmem hmem' hk hk'
    rcases List.mem_cons.mp hmem with he | hmem
    · cases he
      rcases List.mem_cons.mp hmem' with he | hmem'
      · cases he; rfl
      · rw [hfresh _ hmem'] at hk'; cases hk'
    · rcases List.mem_cons.mp hmem' with he | hmem'
      · cases he
        rw [hfresh _ hmem] at hk; cases hk
      · exact h.once k k' b' hmem hmem' hk hk'

theorem filter {name : Key} (hname : isDotName name = false) :
    Listing P g root c d n (es.filter fun e => e.1 ≠ name) := by
  have hmem : ∀ {e}, e ∈ es.filter (fun e => e.1 ≠ name) → e ∈ es := fun he => List.mem_of_mem_filter he
  refine ⟨fun e he => h.allowed e (hmem he), h.nodup.sublist (List.filter_sublist.map _), ?_, ?_, ?_, ?_⟩
  · refine List.mem_filter.mpr ⟨h.dot, ?_⟩
    rw [decide_eq_true_eq]
    rintro rfl
    cases hname
  · refine List.mem_filter.mpr ⟨h.dotdot, ?_⟩
    rw [decide_eq_true_eq]
    rintro rfl
    cases hname
  · exact fun name' b' he hdot => h.child name' b' (hmem he) hdot
  · exact fun k k' b' he he' hk hk' => h.once k k' b' (hmem he) (hmem he') hk hk'

end Listing

theorem mem_dots {d parent : ℕ} {name : Key} (h : (name, b) ∈ dots d parent) : isDotName name = true := by
  simp only [dots, List.mem_cons, Prod.mk.injEq, List.not_mem_nil, or_false] at h
  rcases h with ⟨rfl, -⟩ | ⟨rfl, -⟩
  · rfl
  · rfl

def Allows (P : Key → Prop) : Prop := ∀ name : Key, name.length ≠ 0 → name.length ≤ kMaxName → P name

theorem listing_dots (hP : Allows P) (d : ℕ) : Listing P g root c d n (dots d (g.toBlock n.parent)) := by
  refine ⟨fun e he => ?_, (by decide : [[46], ([46, 46] : Key)].Nodup), List.mem_cons_self,
    List.mem_cons_of_mem _ (List.mem_singleton_self _), ?_, ?_⟩
  · simp only [dots, List.mem_cons, List.not_mem_nil, or_false] at he
    rcases he with rfl | rfl
    · exact hP [46] (by decide) (by decide)
    · exact hP [46, 46] (by decide) (by decide)
  · intro name b hmem hdot
    rw [mem_dots hmem] at hdot
    cases hdot
  · intro name name' b hmem _ hdot _
    rw [mem_dots hmem] at hdot
    cases hdot

theorem Namespace.congr (h : Namespace P g root c)
    (hn : ∀ b, c'.taken b = true → ∃ n, c'.nodeAt g b = some n ∧ g.toBlock n.run = b ∧ n.run.length = 1)
    (hr : ∀ b n, n.regular = true → (c'.nodeAt g b = some n ↔ c.nodeAt g b = some n))
    (ht : ∀ d n, c.nodeAt g d = some n → n.directory = true → c'.tree d = c.tree d) :
    Namespace P g root c' := by
  have hd : ∀ d n, n.directory = true → (c'.nodeAt g d = some n ↔ c.nodeAt g d = some n) := by
    intro d n hdir
    constructor
    · exact fun hc => (hr d n (nodeAt_regular hc hdir)).mp hc
    · exact fun hc => (hr d n (nodeAt_regular hc hdir)).mpr hc
  obtain ⟨rn, hrn, hrd, hrp⟩ := h.rootDirectory
  refine ⟨hn, ⟨rn, (hd _ _ hrd).mpr hrn, hrd, hrp⟩, ?_, ?_⟩
  · intro d n hc hdir
    have hc₀ := (hd d n hdir).mp hc
    obtain ⟨es, hes, hl⟩ := h.listing d n hc₀ hdir
    refine ⟨es, (ht d n hc₀ hdir).trans hes, hl.allowed, hl.nodup, hl.dot, hl.dotdot, ?_, hl.once⟩
    intro name b hmem hdot
    obtain ⟨hne, m, hm, hreg, hp⟩ := hl.child name b hmem hdot
    exact ⟨hne, m, (hr b m hreg).mpr hm, hreg, hp⟩
  · intro b n hc hreg hne
    obtain ⟨d, m, es, name, hm, hdir, hes, hmem, hdot⟩ := h.named b n ((hr b n hreg).mp hc) hreg hne
    exact ⟨d, m, es, name, (hd d m hdir).mpr hm, hdir, (ht d m hm hdir).trans hes, hmem, hdot⟩

theorem Namespace.of_nodes (h : Namespace P g root c) (hk : c'.taken = c.taken)
    (hn : ∀ b, c'.nodeAt g b = c.nodeAt g b)
    (ht : ∀ d n, c.nodeAt g d = some n → n.directory = true → c'.tree d = c.tree d) :
    Namespace P g root c' := by
  refine h.congr (fun b hb => ?_) (fun b n _ => by rw [hn]) ht
  rw [hn]
  exact h.node b (hk ▸ hb)

theorem Namespace.of_sameHead (h : Namespace P g root c) (hk : c'.taken = c.taken)
    (hi : ∀ b, c.taken b = true → SameHead (c.image b) (c'.image b))
    (ht : ∀ d n, c.nodeAt g d = some n → n.directory = true → c'.tree d = c.tree d) :
    Namespace P g root c' := by
  have hnode : ∀ b, c'.nodeAt g b = c.nodeAt g b := by
    intro b
    rcases hb : c.taken b
    · unfold Contents.nodeAt
      rw [hk, hb, if_neg (by simp), if_neg (by simp)]
    · exact nodeAt_congr (congrFun hk b) (hi b hb)
  exact h.of_nodes hk hnode ht

theorem Namespace.reindexed {ix : Key → Option ℕ} {edits : List IndexEdit} (h : Namespace P g root c)
    (hr : Reindexed ix edits c c') : Namespace P g root c' :=
  h.of_sameHead hr.taken (fun b _ => (hr.restreamed b).sameHead) fun d _ _ _ => congrFun hr.tree d

theorem Namespace.toBlock_run (h : Namespace P g root c) (hn : c.nodeAt g b = some n) : g.toBlock n.run = b := by
  obtain ⟨n', hn', hb, -⟩ := h.node b (nodeAt_taken hn)
  rw [hn] at hn'
  cases hn'
  exact hb

theorem Namespace.entry_unique (h : Namespace P g root c) {d d' : ℕ} {m m' : Node} {es es' : List Entry}
    {name name' : Key} (hm : c.nodeAt g d = some m) (hd : m.directory = true) (hes : c.tree d = some es)
    (he : (name, b) ∈ es) (hn : isDotName name = false) (hm' : c.nodeAt g d' = some m')
    (hd' : m'.directory = true) (hes' : c.tree d' = some es') (he' : (name', b) ∈ es')
    (hn' : isDotName name' = false) : d = d' ∧ name = name' := by
  obtain ⟨es₁, hes₁, hl⟩ := h.listing d m hm hd
  rw [hes] at hes₁
  cases hes₁
  obtain ⟨es₂, hes₂, hl'⟩ := h.listing d' m' hm' hd'
  rw [hes'] at hes₂
  cases hes₂
  obtain ⟨-, n₁, hn₁, -, hp₁⟩ := hl.child name b he hn
  obtain ⟨-, n₂, hn₂, -, hp₂⟩ := hl'.child name' b he' hn'
  rw [hn₁] at hn₂
  cases hn₂
  have hdd : d = d' := by rw [← h.toBlock_run hm, ← hp₁, hp₂, h.toBlock_run hm']
  subst hdd
  rw [hes] at hes'
  cases hes'
  exact ⟨rfl, hl.once name name' b he he' hn hn'⟩

theorem Namespace.flat {table : List (ℕ × Node)} {es : List Entry} (rn : Node)
    (hnode : ∀ b n, c.nodeAt g b = some n ↔ (b, n) ∈ table)
    (htaken : ∀ b, c.taken b = true → ∃ n, (b, n) ∈ table)
    (hrun : ∀ e ∈ table, g.toBlock e.2.run = e.1 ∧ e.2.run.length = 1)
    (hroot : (root, rn) ∈ table ∧ rn.directory = true ∧ rn.parent = rn.run)
    (honly : ∀ e ∈ table, e.2.directory = true → e = (root, rn)) (htree : c.tree root = some es)
    (hP : ∀ e ∈ es, P e.1) (hnodup : (es.map Prod.fst).Nodup) (hdot : ([46], root) ∈ es)
    (hdotdot : ([46, 46], root) ∈ es)
    (hchild : ∀ e ∈ es, isDotName e.1 = false → e.2 ≠ root ∧
      ∃ e' ∈ table, e'.1 = e.2 ∧ e'.2.regular = true ∧ e'.2.parent = rn.run)
    (honce : ∀ e ∈ es, ∀ e' ∈ es, isDotName e.1 = false → isDotName e'.1 = false → e.2 = e'.2 → e.1 = e'.1)
    (hnamed : ∀ e ∈ table, e.2.regular = true → e.1 ≠ root → ∃ e' ∈ es, e'.2 = e.1 ∧ isDotName e'.1 = false) :
    Namespace P g root c := by
  refine ⟨fun b hb => ?_, ⟨rn, (hnode _ _).mpr hroot.1, hroot.2⟩, fun d n hn hd => ?_, fun b n hn hreg hb => ?_⟩
  · obtain ⟨n, hn⟩ := htaken b hb
    exact ⟨n, (hnode b n).mpr hn, hrun _ hn⟩
  · cases honly _ ((hnode d n).mp hn) hd
    refine ⟨es, htree, hP, hnodup, hdot, ?_, fun name b he hd' => ?_, fun name name' b he he' hd' hd'' => ?_⟩
    · rw [hroot.2.2, (hrun _ hroot.1).1]
      exact hdotdot
    · obtain ⟨hne, e', he', rfl, hreg, hparent⟩ := hchild _ he hd'
      exact ⟨hne, e'.2, (hnode _ _).mpr he', hreg, hparent⟩
    · exact honce _ he _ he' hd' hd'' rfl
  · obtain ⟨e', he', rfl, hd'⟩ := hnamed _ ((hnode b n).mp hn) hreg hb
    exact ⟨root, rn, es, e'.1, (hnode _ _).mpr hroot.1, hroot.2.1, htree, he', hd'⟩

/-! ## Making an entry -/

theorem isRegularNode_nodeMode (mode : ℕ) : isRegularNode (nodeMode mode) = isRegularNode mode := by
  unfold nodeMode
  split
  · unfold isRegularNode
    rw [Nat.and_or_distrib_right,
      show kModeStrIndex &&& (kModeAttrDir ||| kModeAttr ||| kModeIndexDir) = 0 from rfl, Nat.or_zero]
  · rfl

theorem modeIsDirectory_nodeMode (mode : ℕ) : modeIsDirectory (nodeMode mode) = modeIsDirectory mode := by
  unfold nodeMode
  split
  · unfold modeIsDirectory
    rw [Nat.and_or_distrib_right, show kModeStrIndex &&& kModeTypeMask = 0 from rfl, Nat.or_zero]
  · rfl

theorem nodeMode_lt {mode : ℕ} (h : mode < 2 ^ 32) : nodeMode mode < 2 ^ 32 := by
  unfold nodeMode
  split
  · exact Nat.or_lt_two_pow h (by decide)
  · exact h

section
variable {p : ℕ} {name : Key} {mode uid gid time : ℕ} {run : Run}
  (hm : Made g p name mode uid gid time run c c')
include hm

theorem Files.Made.block_lt : g.toBlock run < g.numBlocks := by
  have hv := hm.valid
  unfold Geometry.validateRun at hv
  rw [hm.length] at hv
  split at hv
  · cases hv
  · split at hv
    · cases hv
    · exact of_decide_eq_true hv

theorem Files.Made.nodeAt_of_ne {b : ℕ} (hb : b ≠ g.toBlock run) : c'.nodeAt g b = c.nodeAt g b := by
  refine nodeAt_congr ?_ ?_
  · rw [hm.taken]
    simp [hb]
  · by_cases hbp : b = p
    · rw [hbp]; exact hm.parentImage.sameHead
    · rw [hm.image b hb hbp]; exact fun _ _ => rfl

/-- An inode that was there is not the new one, -/
theorem Files.Made.ne {b : ℕ} {m : Node} (hb : c.nodeAt g b = some m) : b ≠ g.toBlock run := by
  rintro rfl
  have := nodeAt_taken hb
  rw [hm.free] at this
  cases this

/-- and it still is. -/
theorem Files.Made.nodeAt {b : ℕ} {m : Node} (hb : c.nodeAt g b = some m) : c'.nodeAt g b = some m :=
  (hm.nodeAt_of_ne (hm.ne hb)).trans hb

theorem Files.Made.nodeAt_new (hn : c.nodeAt g p = some n) (hbs : g.blockSize < 2 ^ 32)
    (hreg : isRegularNode mode = true) (hmode : mode < 2 ^ 32) :
    c'.nodeAt g (g.toBlock run) = some ⟨run, n.run, true, modeIsDirectory mode⟩ := by
  have htaken : c'.taken (g.toBlock run) = true := by rw [hm.taken]; simp
  have hparse := parseInode_build g.blockSize run (leRun (c.image p) InodeField.kInodeNum)
    (nodeMode mode) uid gid time name hbs hm.fits (leRun_fits _ _)
  rw [Nat.mod_eq_of_lt (nodeMode_lt hmode)] at hparse
  unfold Contents.nodeAt
  rw [if_pos ⟨htaken, hm.block_lt⟩, hm.built.parse, hparse]
  simp only [Option.map_some, Inode.node, Inode.withStream, isRegularNode_nodeMode,
    modeIsDirectory_nodeMode, hreg, leRun_of_nodeAt hn]

/-- **Making an entry keeps the tree.** -/
theorem Namespace.create (h : Namespace P g root c) (hn : c.nodeAt g p = some n) (hd : n.directory = true)
    (hP : Allows P) (hname : name.length ≠ 0 ∧ name.length ≤ kMaxName) (hbs : g.blockSize < 2 ^ 32)
    (hreg : isRegularNode mode = true) (hmode : mode < 2 ^ 32) : Namespace P g root c' := by
  have hnew := hm.nodeAt_new hn hbs hreg hmode
  obtain ⟨es, hes, hnone, hes'⟩ := hm.entries
  obtain ⟨rn, hrn, hrd, hrp⟩ := h.rootDirectory
  obtain ⟨es₀, hes₀, hlp⟩ := h.listing p n hn hd
  rw [hes] at hes₀
  cases hes₀
  have hmono : ∀ {d m es}, Listing P g root c d m es → Listing P g root c' d m es :=
    fun hl => hl.mono fun _ _ _ _ _ hb => hm.nodeAt hb
  refine ⟨fun b hb => ?_, ⟨rn, hm.nodeAt hrn, hrd, hrp⟩, fun d m hdm hdir => ?_, fun b m hbm hbreg hbne => ?_⟩
  · by_cases hbn : b = g.toBlock run
    · exact ⟨_, hbn ▸ hnew, hbn.symm, hm.length⟩
    · rw [hm.taken] at hb
      simp only [hbn, decide_false, Bool.or_false] at hb
      rw [hm.nodeAt_of_ne hbn]
      exact h.node b hb
  · by_cases hdn : d = g.toBlock run
    · -- a new directory has its dots
      subst hdn
      rw [hnew] at hdm
      cases hdm
      refine ⟨_, hm.dots hdir, ?_⟩
      rw [leRun_of_nodeAt hn]
      exact listing_dots hP _
    · rw [hm.nodeAt_of_ne hdn] at hdm
      by_cases hdp : d = p
      · -- the directory it was made in
        subst hdp
        rw [hn] at hdm
        cases hdm
        refine ⟨_, hes', (hmono hlp).cons (hP name hname.1 hname.2) hnone (hm.ne hrn).symm hnew rfl rfl fun name' hmem => ?_⟩
        rcases hdot : isDotName name'
        · obtain ⟨-, m', hm', -⟩ := hlp.child name' _ hmem hdot
          exact absurd rfl (hm.ne hm')
        · rfl
      · obtain ⟨es₀, hes₀, hl⟩ := h.listing d m hdm hdir
        exact ⟨es₀, (hm.tree d hdn hdp).trans hes₀, hmono hl⟩
  · by_cases hbn : b = g.toBlock run
    · subst hbn
      exact ⟨p, n, _, name, hm.nodeAt hn, hd, hes', List.mem_cons_self, hlp.not_dot hnone⟩
    · rw [hm.nodeAt_of_ne hbn] at hbm
      obtain ⟨d, m', es₀, name', hm', hd', hes₀, hmem, hdot'⟩ := h.named b m hbm hbreg hbne
      by_cases hdp : d = p
      · subst hdp
        rw [hes] at hes₀
        cases hes₀
        exact ⟨d, m', _, name', hm.nodeAt hm', hd', hes', List.mem_cons_of_mem _ hmem, hdot'⟩
      · exact ⟨d, m', es₀, name', hm.nodeAt hm', hd', (hm.tree d (hm.ne hm') hdp).trans hes₀, hmem, hdot'⟩

end

/-! ## Removing and renaming an entry -/

section
variable {p child : ℕ} {name : Key} {es : List Entry}

/-- **Removing an entry keeps the tree**, a dot entry aside. -/
theorem Namespace.remove (h : Namespace P g root c) (hn : c.nodeAt g p = some n) (hd : n.directory = true)
    (hname : isDotName name = false) (hes : c.tree p = some es) (hchild : es.lookup name = some child)
    (hempty : ∀ m, c.nodeAt g child = some m → m.directory = true →
      ∃ es', c.tree child = some es' ∧ ∀ e ∈ es', isDotName e.1 = true)
    (ht : c'.tree = Function.update c.tree p (some (es.filter fun e => e.1 ≠ name)))
    (hk : ∀ b, c'.taken b = (c.taken b && decide (b ≠ child)))
    (hi : ∀ b, SameHead (c.image b) (c'.image b)) : Namespace P g root c' := by
  obtain ⟨es₀, hes₀, hl⟩ := h.listing p n hn hd
  rw [hes] at hes₀
  cases hes₀
  have hmem := hl.lookup_iff.mp hchild
  obtain ⟨hcroot, -⟩ := hl.child name child hmem hname
  have hcp : child ≠ p := by
    rintro rfl
    obtain ⟨es', hes', hall⟩ := hempty n hn hd
    rw [hes] at hes'
    cases hes'
    rw [hall _ hmem] at hname
    cases hname
  have hne : ∀ {b m'}, b ≠ child → (c'.nodeAt g b = some m' ↔ c.nodeAt g b = some m') := by
    intro b m' hb
    rw [nodeAt_congr (by rw [hk]; simp [hb]) (hi b)]
  have hgone : ∀ {b m'}, c'.nodeAt g b = some m' → b ≠ child := by
    rintro b m' hb rfl
    have := nodeAt_taken hb
    rw [hk] at this
    simp at this
  -- no other entry names the child
  have hother : ∀ {d m' es' name'}, c.nodeAt g d = some m' → m'.directory = true → c.tree d = some es' →
      (name', child) ∈ es' → isDotName name' = false → d = p ∧ name' = name :=
    fun hm' hd' hes' hmem' hdot' => h.entry_unique hm' hd' hes' hmem' hdot' hn hd hes hmem hname
  obtain ⟨rn, hrn, hrd, hrp⟩ := h.rootDirectory
  refine ⟨fun b hb => ?_, ⟨rn, (hne hcroot.symm).mpr hrn, hrd, hrp⟩, fun d m' hdm hdir => ?_,
    fun b m' hbm hbreg hbne => ?_⟩
  · rw [hk] at hb
    simp only [Bool.and_eq_true, decide_eq_true_eq] at hb
    obtain ⟨n', hn', hb', hlen⟩ := h.node b hb.1
    exact ⟨n', (hne hb.2).mpr hn', hb', hlen⟩
  · have hdm' := (hne (hgone hdm)).mp hdm
    rw [ht]
    by_cases hdp : d = p
    · subst hdp
      rw [hn] at hdm'
      cases hdm'
      refine ⟨_, Function.update_self .., (hl.filter hname).mono fun name' b' m'' he hdot' hb' => ?_⟩
      refine (hne ?_).mpr hb'
      rintro rfl
      obtain ⟨-, rfl⟩ := hother hn hd hes (List.mem_of_mem_filter he) hdot'
      simp at he
    · obtain ⟨es₁, hes₁, hl₁⟩ := h.listing d m' hdm' hdir
      refine ⟨es₁, (Function.update_of_ne hdp _ _).trans hes₁, hl₁.mono fun name' b' m'' he hdot' hb' => ?_⟩
      refine (hne ?_).mpr hb'
      rintro rfl
      exact hdp (hother hdm' hdir hes₁ he hdot').1
  · have hbc := hgone hbm
    obtain ⟨d, m₁, es₁, name', hm₁, hd₁, hes₁, hmem₁, hdot₁⟩ := h.named b m' ((hne hbc).mp hbm) hbreg hbne
    have hdc : d ≠ child := by
      rintro rfl
      obtain ⟨es', hes', hall⟩ := hempty m₁ hm₁ hd₁
      rw [hes₁] at hes'
      cases hes'
      rw [hall _ hmem₁] at hdot₁
      cases hdot₁
    rw [ht]
    by_cases hdp : d = p
    · subst hdp
      rw [hes] at hes₁
      cases hes₁
      refine ⟨d, m₁, _, name', (hne hdc).mpr hm₁, hd₁, Function.update_self .., ?_, hdot₁⟩
      refine List.mem_filter.mpr ⟨hmem₁, ?_⟩
      rw [decide_eq_true_eq]
      rintro rfl
      have := hl.lookup_iff.mpr hmem₁
      rw [hchild] at this
      cases this
      exact hbc rfl
    · exact ⟨d, m₁, es₁, name', (hne hdc).mpr hm₁, hd₁, (Function.update_of_ne hdp _ _).trans hes₁, hmem₁,
        hdot₁⟩

/-- **Renaming an entry keeps the tree**, a dot entry aside. -/
theorem Namespace.rename {target : Key} (hP : P target) (h : Namespace P g root c) (hn : c.nodeAt g p = some n)
    (hd : n.directory = true) (hname : isDotName name = false) (hes : c.tree p = some es)
    (hchild : es.lookup name = some child) (htarget : es.lookup target = none)
    (ht : c'.tree = Function.update c.tree p (some ((target, child) :: es.filter fun e => e.1 ≠ name)))
    (hk : c'.taken = c.taken) (hi : ∀ b, SameHead (c.image b) (c'.image b)) : Namespace P g root c' := by
  obtain ⟨es₀, hes₀, hl⟩ := h.listing p n hn hd
  rw [hes] at hes₀
  cases hes₀
  have hmem := hl.lookup_iff.mp hchild
  obtain ⟨hcroot, m, hm, hmreg, hmp⟩ := hl.child name child hmem hname
  have hnode : ∀ b, c'.nodeAt g b = c.nodeAt g b := fun b => nodeAt_congr (congrFun hk b) (hi b)
  have hmono : ∀ {d m es}, Listing P g root c d m es → Listing P g root c' d m es :=
    fun hl => hl.mono fun _ _ _ _ _ hb => (hnode _).trans hb
  have hfilter := hl.filter hname
  have hl' : Listing P g root c p n ((target, child) :: es.filter fun e => e.1 ≠ name) := by
    refine hfilter.cons hP ?_ hcroot hm hmreg hmp fun name' he => ?_
    · rcases hlook : (es.filter fun e => e.1 ≠ name).lookup target with _ | v
      · exact hlook
      · have := hl.lookup_iff.mpr (List.mem_of_mem_filter (hfilter.lookup_iff.mp hlook))
        rw [htarget] at this
        cases this
    · rcases hdot : isDotName name'
      · have := hl.once _ _ _ (List.mem_of_mem_filter he) hmem hdot hname
        subst this
        simp at he
      · rfl
  obtain ⟨rn, hrn, hrd, hrp⟩ := h.rootDirectory
  refine ⟨fun b hb => ?_, ⟨rn, (hnode _).trans hrn, hrd, hrp⟩, fun d m' hdm hdir => ?_,
    fun b m' hbm hbreg hbne => ?_⟩
  · rw [hnode]
    exact h.node b (hk ▸ hb)
  · rw [hnode] at hdm
    rw [ht]
    by_cases hdp : d = p
    · subst hdp
      rw [hn] at hdm
      cases hdm
      exact ⟨_, Function.update_self .., hmono hl'⟩
    · obtain ⟨es₁, hes₁, hl₁⟩ := h.listing d m' hdm hdir
      exact ⟨es₁, (Function.update_of_ne hdp _ _).trans hes₁, hmono hl₁⟩
  · rw [hnode] at hbm
    obtain ⟨d, m₁, es₁, name', hm₁, hd₁, hes₁, hmem₁, hdot₁⟩ := h.named b m' hbm hbreg hbne
    rw [ht]
    by_cases hdp : d = p
    · subst hdp
      rw [hes] at hes₁
      cases hes₁
      by_cases hsrc : name' = name
      · -- it is the renamed one
        subst hsrc
        have := hl.lookup_iff.mpr hmem₁
        rw [hchild] at this
        cases this
        exact ⟨d, m₁, _, target, (hnode _).trans hm₁, hd₁, Function.update_self .., List.mem_cons_self,
          hl.not_dot htarget⟩
      · refine ⟨d, m₁, _, name', (hnode _).trans hm₁, hd₁, Function.update_self .., ?_, hdot₁⟩
        exact List.mem_cons_of_mem _ (List.mem_filter.mpr ⟨hmem₁, by simpa using hsrc⟩)
    · exact ⟨d, m₁, es₁, name', (hnode _).trans hm₁, hd₁, (Function.update_of_ne hdp _ _).trans hes₁, hmem₁,
        hdot₁⟩

end

end

/-! ## Operations -/

def Files.rootBlock (s : Files) : ℕ := s.geometry.toBlock s.root

/-- A volume between operations, with its tree of names. -/
structure Formed (P : Key → Prop) (s : Files) : Prop where
  idle : s.active = false
  blockSize : s.geometry.blockSize < 2 ^ 32
  names : Namespace P s.geometry s.rootBlock s.toContents

/-- The inode in a block of the volume `s`. -/
def Files.node (s : Files) (b : ℕ) : Option Node := s.toContents.nodeAt s.geometry b

def IsDirectory (s : Files) (b : ℕ) : Prop := ∃ n, s.node b = some n ∧ n.directory = true

theorem IsDirectory.taken {s : Files} {b : ℕ} (h : IsDirectory s b) : s.taken b = true := by
  obtain ⟨n, hn, -⟩ := h
  exact nodeAt_taken hn

section
variable {P : Key → Prop} {s s' : Files}

theorem Formed.of_names (h : Formed P s) (hv : SameVolume s s') (ha : s'.active = false)
    (hn : Namespace P s.geometry s.rootBlock s'.toContents) : Formed P s' := by
  refine ⟨ha, hv.geometry ▸ h.blockSize, ?_⟩
  unfold Files.rootBlock
  rw [hv.geometry, hv.root]
  exact hn

variable {b : ℕ} {n : Node} {i : Inode} (h : Formed P s)
include h

theorem Formed.readInode (hb : s.taken b = true) (hi : files.readInode s b = some i) :
    s.node b = some i.node ∧ s.geometry.toBlock i.run = b := by
  have hnode : s.node b = some i.node := by
    unfold Lower.readInode at hi
    split at hi
    · cases hi
    · rename_i hlt
      change parseInode s.geometry.blockSize (s.image b) = some i at hi
      unfold Files.node Contents.nodeAt
      rw [if_pos ⟨hb, Nat.lt_of_not_le hlt⟩, hi]
      rfl
  exact ⟨hnode, h.names.toBlock_run hnode⟩

theorem Formed.dirFind (hn : s.node b = some n) (name : Key) :
    files.dirFind s (inodeView (s.image b)) name = (s.tree b).bind fun es => es.lookup name := by
  show (s.tree (s.geometry.toBlock (leRun (s.image b) InodeField.kInodeNum))).bind _ = _
  rw [leRun_of_nodeAt hn, h.names.toBlock_run hn]

theorem Formed.dirEmpty (hn : s.node b = some n) (he : files.dirEmpty s (inodeView (s.image b)) = true) :
    ∃ es, s.tree b = some es ∧ ∀ e ∈ es, isDotName e.1 = true := by
  have htree : s.tree (s.geometry.toBlock (inodeView (s.image b)).run) = s.tree b := by
    change s.tree (s.geometry.toBlock (leRun (s.image b) InodeField.kInodeNum)) = _
    rw [leRun_of_nodeAt hn, h.names.toBlock_run hn]
  simp only [files, htree] at he
  rcases hes : s.tree b with _ | es
  · rw [hes] at he; cases he
  · rw [hes] at he
    simp only [Bool.and_eq_true, List.all_eq_true] at he
    exact ⟨es, rfl, he.2⟩

theorem Formed.parent (hn : s.node b = some n) (hd : n.directory = true) :
    IsDirectory s (s.geometry.toBlock n.parent) := by
  by_cases hb : b = s.rootBlock
  · obtain ⟨rn, hrn, hrd, hrp⟩ := h.names.rootDirectory
    rw [← hb] at hrn
    have heq : rn = n := Option.some.inj (hrn.symm.trans hn)
    subst heq
    rw [hrp, h.names.toBlock_run hn]
    exact ⟨rn, hn, hd⟩
  · obtain ⟨d, m, es, name, hm, hmd, hes, hmem, hdot⟩ := h.names.named b n hn (nodeAt_regular hn hd) hb
    obtain ⟨es', hes', hl⟩ := h.names.listing d m hm hmd
    rw [hes] at hes'
    cases hes'
    obtain ⟨-, n', hn', -, hp⟩ := hl.child name b hmem hdot
    have heq : n' = n := Option.some.inj (hn'.symm.trans hn)
    subst heq
    rw [hp, h.names.toBlock_run hm]
    exact ⟨m, hm, hmd⟩

theorem Formed.find (hd : IsDirectory s b) {name : Key} {b' : ℕ}
    (hf : ((s.tree b).bind fun es => es.lookup name) = some b') :
    ∃ m, s.node b' = some m ∧ m.regular = true := by
  obtain ⟨n, hn, hdir⟩ := hd
  obtain ⟨es, hes, hl⟩ := h.names.listing b n hn hdir
  rw [hes] at hf
  have hmem := hl.lookup_iff.mp hf
  rcases hdot : isDotName name
  · obtain ⟨-, m, hm, hreg, -⟩ := hl.child name b' hmem hdot
    exact ⟨m, hm, hreg⟩
  · unfold isDotName at hdot
    simp only [Bool.or_eq_true, beq_iff_eq] at hdot
    rcases hdot with rfl | rfl
    · have hlook := hl.lookup_iff.mpr hl.dot
      rw [hl.lookup_iff.mpr hmem] at hlook
      cases hlook
      exact ⟨n, hn, nodeAt_regular hn hdir⟩
    · have hlook := hl.lookup_iff.mpr hl.dotdot
      rw [hl.lookup_iff.mpr hmem] at hlook
      cases hlook
      obtain ⟨m, hm, hmd⟩ := h.parent hn hdir
      exact ⟨m, hm, nodeAt_regular hm hmd⟩

end

theorem update_remoded {image : ℕ → Buf} {b : ℕ} (uid gid : ℕ) {mode : ℕ} (hmode : mode < 2 ^ 32)
    (htype : mode / 2 ^ 12 = inodeMode (image b) / 2 ^ 12) (b' : ℕ) : Remoded (image b')
      (Function.update image b (inodeSetMode (inodeSetOwner (image b) uid gid) mode) b') := by
  by_cases hb : b' = b
  · rw [hb, Function.update_self]
    exact inodeSetMode_remoded (image b) uid gid hmode htype
  · rw [Function.update_of_ne hb]
    exact .refl _

section
variable {P : Key → Prop} {s : Writer Files} {p : ℕ} {n : Node} (h : Formed P s.store)
include h

theorem Formed.create (hP : Allows P) (hn : s.store.node p = some n) (hd : n.directory = true) (name : Key)
    (mode uid gid time : ℕ) (hreg : isRegularNode mode = true) (hmode : mode < 2 ^ 32) :
    Formed P (files.create p name mode uid gid time s).2.store ∧
      ∀ block, (files.create p name mode uid gid time s).1 = some block → ∃ m,
        (files.create p name mode uid gid time s).2.store.node block = some m ∧ m.regular = true ∧
          m.dirMode = modeIsDirectory mode := by
  have he := create_ended h.idle (nodeAt_taken hn) name mode uid gid time
  have hv := he.same
  rcases he.outcome with ⟨hnone, hc⟩ | ⟨block, hsome, hne, hle, run, c₁, rfl, hm, hr⟩
  · refine ⟨h.of_names hv he.idle (hc ▸ h.names), fun block hb => ?_⟩
    rw [hnone] at hb
    cases hb
  · have hnames := h.names.create hm hn hd hP ⟨hne, hle⟩ h.blockSize hreg hmode
    refine ⟨h.of_names hv he.idle (hnames.reindexed hr), fun block hb => ?_⟩
    rw [hsome] at hb
    cases hb
    refine ⟨⟨run, n.run, true, modeIsDirectory mode⟩, ?_, rfl, rfl⟩
    unfold Files.node
    rw [hv.geometry, nodeAt_congr (congrFun hr.taken _) (hr.restreamed _).sameHead]
    exact hm.nodeAt_new hn h.blockSize hreg hmode

/-- The volume without an entry and the inode it named, before the indices follow. -/
def Files.without (s : Files) (p : ℕ) (es : List Entry) (name : Key) (child : ℕ) : Contents :=
  { s.toContents with
    tree := Function.update s.tree p (some (es.filter fun e => e.1 ≠ name))
    taken := fun b => s.taken b && decide (b ≠ child) }

theorem Formed.removed (hn : s.store.node p = some n) (hd : n.directory = true) {name : Key}
    (hname : isDotName name = false) :
    (files.remove p name s).2.store.toContents = s.store.toContents ∨ ∃ child es m,
      s.store.tree p = some es ∧ es.lookup name = some child ∧ s.store.node child = some m ∧ m.regular = true ∧
      (∀ m, s.store.node child = some m → m.directory = true →
        ∃ es', s.store.tree child = some es' ∧ ∀ e ∈ es', isDotName e.1 = true) ∧
      Reindexed (s.store.index { s.store.toContents with
          tree := Function.update s.store.tree p (some (es.filter fun e => e.1 ≠ name)) })
        (entryEdits false child name (inodeMode (s.store.image child)) (inodeSize (s.store.image child))
          (inodeMtime (s.store.image child)))
        (s.store.without p es name child) (files.remove p name s).2.store.toContents := by
  rcases (remove_ended h.idle p name).outcome with
    ⟨-, hc⟩ | ⟨-, -, child, es, c₁, c₂, hchild, hempty, htree, rfl, hr, hc⟩
  · exact Or.inl hc
  rw [h.dirFind hn, htree] at hchild
  obtain ⟨es', hes', hl⟩ := h.names.listing p n hn hd
  rw [htree] at hes'
  cases hes'
  obtain ⟨-, m, hm, hreg, -⟩ := hl.child name child (hl.lookup_iff.mp hchild) hname
  obtain ⟨m', hm', hmb, hlen⟩ := h.names.node child (nodeAt_taken hm)
  have heq : m' = m := Option.some.inj (hm'.symm.trans hm)
  subst heq
  have hrun : leRun (c₂.image child) InodeField.kInodeNum = m'.run := by
    rw [(hr.restreamed child).leRun (by decide)]
    exact leRun_of_nodeAt hm
  refine Or.inr ⟨child, es, m', htree, hchild, hm, hreg, fun m'' hm'' hdir => ?_, ?_⟩
  · refine h.dirEmpty hm'' (hempty ?_)
    obtain ⟨-, i, hi, rfl⟩ := nodeAt_parse hm''
    have hmode : inodeMode (s.store.image child) = i.mode := by
      unfold parseInode at hi
      split at hi
      · cases hi
      · cases hi; rfl
    rw [hmode]
    exact (Bool.and_eq_true_iff.mp hdir).2
  · rw [hc]
    refine ⟨?_, hr.tree, hr.bytes, hr.pairs, hr.restreamed, hr.image⟩
    funext b
    show (c₂.taken b && _) = (s.store.taken b && _)
    rw [hrun, runBlocks_one _ hlen, hmb, hr.taken]
    simp only [List.mem_singleton, ne_eq]

theorem Formed.remove (hn : s.store.node p = some n) (hd : n.directory = true) {name : Key}
    (hname : isDotName name = false) : Formed P (files.remove p name s).2.store := by
  have he := remove_ended h.idle p name
  refine h.of_names he.same he.idle ?_
  rcases h.removed hn hd hname with hc | ⟨child, es, m, htree, hchild, -, -, hempty, hr⟩
  · exact hc ▸ h.names
  · refine Namespace.reindexed ?_ hr
    exact h.names.remove hn hd hname htree hchild hempty rfl (fun _ => rfl) fun _ _ _ => rfl

theorem Formed.rename (hn : s.store.node p = some n) (hd : n.directory = true) {source target : Key}
    (hP : P target) (hname : isDotName source = false) : Formed P (files.rename p source target s).2.store := by
  have he := rename_ended h.idle p source target
  refine h.of_names he.same he.idle ?_
  rcases he.outcome with ⟨-, hc⟩ | ⟨-, -, child, es, c₁, img, hchild, htarget, htree, himg, rfl, hr⟩
  · exact hc ▸ h.names
  · rw [h.dirFind hn, htree] at hchild htarget
    refine Namespace.reindexed ?_ hr
    refine h.names.rename hP hn hd hname htree hchild htarget rfl rfl fun b => ?_
    show SameHead (s.store.image b) (Function.update s.store.image p img b)
    by_cases hbp : b = p
    · rw [hbp, Function.update_self]; exact himg.sameHead
    · rw [Function.update_of_ne hbp]; exact fun _ _ => rfl

theorem Formed.untouched {c : Contents} {b : ℕ} (hn : s.store.node b = some n) (hd : n.directory = false)
    (hu : Untouched b s.store.toContents c) : Namespace P s.store.geometry s.store.rootBlock c := by
  refine h.names.of_sameHead hu.taken (fun b _ => ?_) fun d m hm hdir => hu.tree d ?_
  · rw [hu.image]; exact fun _ _ => rfl
  · rintro rfl
    have heq : m = n := Option.some.inj (hm.symm.trans hn)
    rw [heq, hd] at hdir
    cases hdir

theorem Formed.written {c : Contents} {b : ℕ} {img bytes : Buf} (hn : s.store.node b = some n)
    (hd : n.directory = false) (hi : SameHead (s.store.image b) img)
    (hw : Written b img bytes s.store.toContents c) : Namespace P s.store.geometry s.store.rootBlock c := by
  refine h.names.of_sameHead hw.taken (fun b' _ => ?_) fun d m hm hdir => hw.tree d ?_
  · rw [hw.image]
    by_cases hb : b' = b
    · rw [hb, Function.update_self]; exact hi
    · rw [Function.update_of_ne hb]; exact fun _ _ => rfl
  · rintro rfl
    have heq : m = n := Option.some.inj (hm.symm.trans hn)
    rw [heq, hd] at hdir
    cases hdir

theorem Formed.write {b : ℕ} (hn : s.store.node b = some n) (hd : n.directory = false) (offset : ℕ)
    (data : List UInt8) (time : ℕ) : Formed P (files.write b offset data time s).2.store := by
  have hb : s.store.geometry.toBlock (leRun (s.store.image b) InodeField.kInodeNum) = b := by
    rw [leRun_of_nodeAt hn, h.names.toBlock_run hn]
  have he := write_ended h.idle hb offset data time
  refine h.of_names he.same he.idle ?_
  rcases he.outcome with ⟨-, hu⟩ | ⟨-, -, stream, c₁, hw, hr⟩
  · exact h.untouched hn hd hu
  · exact (h.written hn hd (inodeSetStream_sameHead _ _ _ _) hw).reindexed hr

theorem Formed.truncate {b : ℕ} (hn : s.store.node b = some n) (hd : n.directory = false) (size time : ℕ) :
    Formed P (files.truncate b size time s).2.store := by
  have hb : s.store.geometry.toBlock (leRun (s.store.image b) InodeField.kInodeNum) = b := by
    rw [leRun_of_nodeAt hn, h.names.toBlock_run hn]
  have he := truncate_ended h.idle hb size time
  refine h.of_names he.same he.idle ?_
  rcases he.outcome with ⟨-, hu⟩ | ⟨-, -, stream, bytes, c₁, hw, hr⟩
  · exact h.untouched hn hd hu
  · exact (h.written hn hd (inodeSetStream_sameHead _ _ _ _) hw).reindexed hr

theorem Formed.setOwnerMode {b uid gid mode : ℕ} (hmode : mode < 2 ^ 32)
    (htype : mode / 2 ^ 12 = inodeMode (s.store.image b) / 2 ^ 12) :
    Formed P (files.setOwnerMode b uid gid mode s).2.store := by
  have he := setOwnerMode_ended h.idle b uid gid mode
  refine h.of_names he.same he.idle ?_
  rcases he.outcome with ⟨-, hc⟩ | ⟨-, -, hc⟩
  · exact hc ▸ h.names
  · rw [hc]
    refine h.names.of_nodes rfl (fun b' => nodeAt_remoded rfl ?_) fun _ _ _ _ => rfl
    exact update_remoded uid gid hmode htype b'

/-! ### The inodes that stay -/

theorem Formed.create_node {p b : ℕ} {m : Node} (hp : s.store.taken p = true) (name : Key)
    (mode uid gid time : ℕ) (hm : s.store.node b = some m) :
    (files.create p name mode uid gid time s).2.store.node b = some m := by
  have he := create_ended h.idle hp name mode uid gid time
  unfold Files.node
  rw [he.same.geometry]
  rcases he.outcome with ⟨-, hc⟩ | ⟨block, -, -, -, run, c₁, rfl, hmade, hr⟩
  · rw [hc]; exact hm
  · rw [nodeAt_congr (congrFun hr.taken _) (hr.restreamed _).sameHead]
    exact hmade.nodeAt hm

theorem Formed.remove_node (hn : s.store.node p = some n) (hd : n.directory = true) {name : Key}
    (hname : isDotName name = false) {b : ℕ}
    (hb : ((s.store.tree p).bind fun es => es.lookup name) ≠ some b) :
    (files.remove p name s).2.store.node b = s.store.node b := by
  have hv := (remove_ended h.idle p name).same
  unfold Files.node
  rw [hv.geometry]
  rcases h.removed hn hd hname with hc | ⟨child, es, m, hes, hchild, -, -, -, hr⟩
  · rw [hc]
  · rw [hes] at hb
    have hne : b ≠ child := fun heq => hb (heq ▸ hchild)
    rw [nodeAt_congr (congrFun hr.taken _) (hr.restreamed _).sameHead]
    refine nodeAt_congr ?_ fun _ _ => rfl
    show (s.store.taken b && decide (b ≠ child)) = s.store.taken b
    simp [hne]

theorem Formed.rename_node (p : ℕ) (source target : Key) (b : ℕ) :
    (files.rename p source target s).2.store.node b = s.store.node b := by
  have he := rename_ended h.idle p source target
  unfold Files.node
  rw [he.same.geometry]
  rcases he.outcome with ⟨-, hc⟩ | ⟨-, -, child, es, c₁, img, -, -, -, himg, rfl, hr⟩
  · rw [hc]
  · rw [nodeAt_congr (congrFun hr.taken _) (hr.restreamed _).sameHead]
    refine nodeAt_congr rfl ?_
    show SameHead (s.store.image b) (Function.update s.store.image p img b)
    by_cases hb : b = p
    · rw [hb, Function.update_self]; exact himg.sameHead
    · rw [Function.update_of_ne hb]; exact fun _ _ => rfl

omit h in
theorem Files.Untouched.nodeAt {g : Geometry} {c c' : Contents} {block : ℕ} (hu : Untouched block c c') (b : ℕ) :
    c'.nodeAt g b = c.nodeAt g b :=
  nodeAt_congr (congrFun hu.taken b) (by rw [hu.image]; exact fun _ _ => rfl)

omit h in
theorem Files.Written.nodeAt {g : Geometry} {c c' : Contents} {block : ℕ} {img bytes : Buf}
    (hw : Written block img bytes c c') (hi : SameHead (c.image block) img) (b : ℕ) :
    c'.nodeAt g b = c.nodeAt g b := by
  refine nodeAt_congr (congrFun hw.taken b) ?_
  rw [hw.image]
  by_cases hb : b = block
  · rw [hb, Function.update_self]; exact hi
  · rw [Function.update_of_ne hb]; exact fun _ _ => rfl

theorem Formed.write_node {block : ℕ} (hn : s.store.node block = some n) (offset : ℕ) (data : List UInt8)
    (time b : ℕ) : (files.write block offset data time s).2.store.node b = s.store.node b := by
  have hb : s.store.geometry.toBlock (leRun (s.store.image block) InodeField.kInodeNum) = block := by
    rw [leRun_of_nodeAt hn, h.names.toBlock_run hn]
  have he := write_ended h.idle hb offset data time
  unfold Files.node
  rw [he.same.geometry]
  rcases he.outcome with ⟨-, hu⟩ | ⟨-, -, stream, c₁, hw, hr⟩
  · exact hu.nodeAt b
  · rw [nodeAt_congr (congrFun hr.taken _) (hr.restreamed _).sameHead]
    exact hw.nodeAt (inodeSetStream_sameHead _ _ _ _) b

theorem Formed.truncate_node {block : ℕ} (hn : s.store.node block = some n) (size time b : ℕ) :
    (files.truncate block size time s).2.store.node b = s.store.node b := by
  have hb : s.store.geometry.toBlock (leRun (s.store.image block) InodeField.kInodeNum) = block := by
    rw [leRun_of_nodeAt hn, h.names.toBlock_run hn]
  have he := truncate_ended h.idle hb size time
  unfold Files.node
  rw [he.same.geometry]
  rcases he.outcome with ⟨-, hu⟩ | ⟨-, -, stream, bytes, c₁, hw, hr⟩
  · exact hu.nodeAt b
  · rw [nodeAt_congr (congrFun hr.taken _) (hr.restreamed _).sameHead]
    exact hw.nodeAt (inodeSetStream_sameHead _ _ _ _) b

end

end Aegir.Bfs
