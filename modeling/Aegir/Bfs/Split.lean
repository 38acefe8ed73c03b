/-
  Where a full node is cut (`writer.cc`, `Writer::split_leaf`,
  `Writer::split_internal`): the entries with the new one among them are halved
  by their number, and either half gets a node of its own.
-/
import Aegir.Bfs.NodeMap
import Aegir.Bfs.Tree

namespace Aegir.Bfs

open Aegir.Lib Aegir.Lib.Buf Aegir.Lib.Fallible

/-! ## The room of a node -/

/-- The key bytes a node of `count` entries has room for. -/
def keyRoom (nodeSize count : ℕ) : ℕ := (nodeSize - count * (2 + 8)) / 8 * 8 - NodeField.kFixed

theorem nodeUsed_le_iff {es : List Entry} {nodeSize : ℕ}
    (h : es.length * (2 + 8) + 2 * NodeField.kFixed ≤ nodeSize) :
    nodeUsed es ≤ nodeSize ↔ keyBytes es ≤ keyRoom nodeSize es.length := by
  simp only [nodeUsed, keyRoom, keyAlign, NodeField.kFixed] at h ⊢
  omega

theorem keyBytes_le {es : List Entry} {n : ℕ} (h : ∀ e ∈ es, e.1.length ≤ n) :
    keyBytes es ≤ es.length * n := by
  have hsum := List.sum_le_card_nsmul (es.map fun e => e.1.length) n fun k hk => by
    obtain ⟨e, he, rfl⟩ := List.mem_map.1 hk
    exact h e he
  simpa [keyBytes] using hsum

/-! ## A half -/

/-- What `node_write` stores of the buffer is a node of the entries. -/
def Stored (b : Buf) (es : List Entry) : Prop :=
  ∀ a : Buf, (∀ j < kTreeNodeSize, b j = a j) → Holds a es

section
variable {es : List Entry} (leaf : Bool) (left right overflow : ℕ)
variable (hname : ∀ e ∈ es, e.1.length ≤ kMaxName) (hcount : es.length ≤ 204)
include hname hcount

theorem half_keyBytes_lt : keyBytes es < 2 ^ 16 := by
  have hle := keyBytes_le hname
  simp only [kMaxName] at hle
  omega

theorem buildNode_holds (hval : ∀ e ∈ es, e.2 < 2 ^ 64) :
    Holds (buildNode leaf left right overflow es) es :=
  layNode_holds (by omega) (half_keyBytes_lt hname hcount) hval

/-- **A half is accepted exactly when its keys leave room for the rest.** -/
theorem buildNode_accepted (hval : ∀ e ∈ es, e.2 < 2 ^ 64) :
    (nodeInfo (buildNode leaf left right overflow es) kTreeNodeSize).isSome = true ↔
      keyBytes es ≤ keyRoom kTreeNodeSize es.length := by
  have hh := buildNode_holds leaf left right overflow hname hcount hval
  rw [← nodeUsed_le_iff (by simp only [kTreeNodeSize, NodeField.kFixed]; omega)]
  constructor
  · intro hsome
    obtain ⟨info, hinfo⟩ := Option.isSome_iff_exists.1 hsome
    simp only [nodeInfo, hh.keyLengthsAt, hh.count] at hinfo
    by_contra hnot
    rw [nodeUsed] at hnot
    rw [if_neg (by decide), if_neg hnot] at hinfo
    cases hinfo
  · intro hfit
    rw [hh.nodeInfo hfit]
    rfl

theorem buildNode_stored (hval : ∀ e ∈ es, e.2 < 2 ^ 64)
    (hroom : keyBytes es ≤ keyRoom kTreeNodeSize es.length) :
    Stored (buildNode leaf left right overflow es) es := by
  have hfit : nodeUsed es ≤ kTreeNodeSize :=
    (nodeUsed_le_iff (by simp only [kTreeNodeSize, NodeField.kFixed]; omega)).2 hroom
  exact fun a ha => (buildNode_holds leaf left right overflow hname hcount hval).congr fun j hj => ha j (by omega)

end

/-! ## Balance -/

/-- Either side of a cut has room in a node of its own: the first `m` entries, and
    those from the `k`th on. -/
def Balanced (es : List Entry) (m k : ℕ) : Prop :=
  keyBytes (es.take m) ≤ keyRoom kTreeNodeSize (es.take m).length ∧
    keyBytes (es.drop k) ≤ keyRoom kTreeNodeSize (es.drop k).length

instance (es : List Entry) (m k : ℕ) : Decidable (Balanced es m k) := inferInstanceAs (Decidable (_ ∧ _))

section
variable {es : List Entry} {m k : ℕ} {leaf : Bool} {left right overflow left' right' overflow' : ℕ}
variable {b b' : Buf}

theorem halves_fit (hname : ∀ e ∈ es, e.1.length ≤ kMaxName) (hval : ∀ e ∈ es, e.2 < 2 ^ 64)
    (hm : (es.take m).length ≤ 204) (hk : (es.drop k).length ≤ 204)
    (hb : b = buildNode leaf left right overflow (es.take m))
    (hb' : b' = buildNode leaf left' right' overflow' (es.drop k)) :
    ((nodeInfo b kTreeNodeSize).isSome = true ∧ (nodeInfo b' kTreeNodeSize).isSome = true ↔
      Balanced es m k) ∧
    (Balanced es m k → Stored b (es.take m) ∧ Stored b' (es.drop k)) := by
  have hname₁ : ∀ e ∈ es.take m, e.1.length ≤ kMaxName := fun e he => hname e (List.mem_of_mem_take he)
  have hname₂ : ∀ e ∈ es.drop k, e.1.length ≤ kMaxName := fun e he => hname e (List.mem_of_mem_drop he)
  have hval₁ : ∀ e ∈ es.take m, e.2 < 2 ^ 64 := fun e he => hval e (List.mem_of_mem_take he)
  have hval₂ : ∀ e ∈ es.drop k, e.2 < 2 ^ 64 := fun e he => hval e (List.mem_of_mem_drop he)
  subst hb hb'
  constructor
  · rw [buildNode_accepted leaf left right overflow hname₁ hm hval₁,
      buildNode_accepted leaf left' right' overflow' hname₂ hk hval₂]
    rfl
  · rintro ⟨h₁, h₂⟩
    exact ⟨buildNode_stored leaf left right overflow hname₁ hm hval₁ h₁,
      buildNode_stored leaf left' right' overflow' hname₂ hk hval₂ h₂⟩

theorem gather_eq_some {info : NodeInfo} {nodeSize : ℕ} (hinfo : nodeInfo b nodeSize = some info)
    (h : Writer.gather b nodeSize = some es) :
    es = nodeEntries b info.count ∧ es.length ≤ kMaxNodeEntries := by
  simp only [Writer.gather, hinfo] at h
  split at h
  · cases h
  · cases h
    refine ⟨rfl, ?_⟩
    simp only [nodeEntries, List.length_map, List.length_range]
    omega

end

/-! ## Cutting -/

namespace Writer

variable {σ : Type} (B : Streams σ) {s s' : Writer σ}

def SameHalves (s s' : Writer σ) : Prop := s'.fresh = s.fresh ∧ s'.work = s.work

instance : IsPreorder (Writer σ) SameHalves where
  refl _ := ⟨rfl, rfl⟩
  trans _ _ _ h h' := ⟨h'.1.trans h.1, h'.2.trans h.2⟩

instance {α : Type} (m : Fallible σ α) : Keeps SameHalves (onStore m) := ⟨fun _ => ⟨rfl, rfl⟩⟩

instance (offset nodeSize : ℕ) (b : Buf) : Keeps SameHalves (nodeWrite B offset nodeSize b) :=
  keeps_bind keeps_get fun _ => inferInstance

instance (nodeSize oldRight other : ℕ) : Keeps SameHalves (relink B nodeSize oldRight other) := by
  refine keeps_when (keeps_bind ⟨fun _ => ⟨rfl, rfl⟩⟩ fun _ => keeps_bind ⟨fun _ => ⟨rfl, rfl⟩⟩ fun _ => ?_)
  exact keeps_bind keeps_get fun _ => inferInstance

theorem sameHalves_writeOut {α : Type} {nodeSize offset other oldRight : ℕ} {left right : Buf} {r a : α}
    (h : (do
      nodeWrite B offset nodeSize left
      nodeWrite B other nodeSize right
      relink B nodeSize oldRight other
      pure r : Act σ α) s = (some a, s')) : SameHalves s s' := by
  obtain ⟨_, s₁, h₁, h⟩ := bind_eq_some h
  obtain ⟨_, s₂, h₂, h⟩ := bind_eq_some h
  obtain ⟨_, s₃, h₃, h⟩ := bind_eq_some h
  cases h
  have hk₁ : SameHalves s _ := Keeps.keeps (m := nodeWrite B offset nodeSize left) s
  have hk₂ : SameHalves s₁ _ := Keeps.keeps (m := nodeWrite B other nodeSize right) s₁
  have hk₃ : SameHalves s₂ _ := Keeps.keeps (m := relink B nodeSize oldRight other) s₂
  rw [h₁] at hk₁
  rw [h₂] at hk₂
  rw [h₃] at hk₃
  exact trans_of SameHalves (trans_of SameHalves hk₁ hk₂) hk₃

theorem buffers_bind_run {α : Type} (f : Writer σ → Writer σ) (k : Unit → Act σ α) (s : Writer σ) :
    (buffers f >>= k) s = k () { f s with store := s.store } := rfl

/-- **The halves of a leaf** are in the two buffers it was built in. -/
theorem splitLeaf_halves {nodeSize offset value : ℕ} {name : Key} {split : TreeSplit}
    (h : splitLeaf B nodeSize offset name value s = (some split, s')) :
    ∃ es oldLeft oldRight other, gather s.node nodeSize = some es ∧
      s'.fresh = buildNode true oldLeft other kNullLink
        ((combined s.treeType es name value).2.take ((es.length + 1) / 2)) ∧
      s'.work = buildNode true offset oldRight kNullLink
        ((combined s.treeType es name value).2.drop ((es.length + 1) / 2)) := by
  rw [splitLeaf, buffers_bind_run, get_bind_run] at h
  obtain ⟨es, hes, h⟩ := ofOption_bind_eq_some h
  obtain ⟨-, h⟩ := check_bind_eq_some h
  obtain ⟨other, s₁, -, h⟩ := bind_eq_some h
  rw [buffers_bind_run, buffers_bind_run, get_bind_run] at h
  have hk := sameHalves_writeOut B h
  exact ⟨es, le 8 s.node NodeField.kLeftLink, le 8 s.node NodeField.kRightLink, other, hes, hk⟩

/-- Where the entries of an inner node are cut: the one there goes up. -/
def innerCut (total : ℕ) : ℕ :=
  let j := total / 2
  let j := if j < 1 then 1 else j
  if total ≤ j then total - 1 else j

/-- The entries of an inner node that is split: the child past the new key is the
    right half of the one that was there. -/
def replaced (dataType : ℕ) (es : List Entry) (name : Key) (value replaceWith : ℕ) : List Entry :=
  let (pos, c) := combined dataType es name value
  if pos + 1 ≤ es.length then c.modify (pos + 1) fun e => (e.1, replaceWith) else c

/-- **The halves of an inner node**, without the entry that goes up. -/
theorem splitInternal_halves {nodeSize offset value replaceWith : ℕ} {name : Key} {split : TreeSplit}
    (h : splitInternal B nodeSize offset name value replaceWith s = (some split, s')) :
    ∃ es oldLeft oldRight other overflow overflow', gather s.parent nodeSize = some es ∧
      s'.fresh = buildNode false oldLeft other overflow
        ((replaced s.treeType es name value replaceWith).take (innerCut (es.length + 1))) ∧
      s'.work = buildNode false offset oldRight overflow'
        ((replaced s.treeType es name value replaceWith).drop (innerCut (es.length + 1) + 1)) := by
  rw [splitInternal, buffers_bind_run, get_bind_run] at h
  obtain ⟨es, hes, h⟩ := ofOption_bind_eq_some h
  obtain ⟨-, h⟩ := check_bind_eq_some h
  rcases hc : combined s.treeType es name value with ⟨pos, cs⟩
  simp only [hc, Nat.add_sub_cancel] at h
  obtain ⟨other, s₁, -, h⟩ := bind_eq_some h
  rw [buffers_bind_run, buffers_bind_run, get_bind_run] at h
  obtain ⟨hf, hw⟩ := sameHalves_writeOut B h
  by_cases hpos : pos + 1 ≤ es.length
  · have hr : replaced s.treeType es name value replaceWith =
        cs.modify (pos + 1) fun e => (e.1, replaceWith) := by
      simp only [replaced, hc, hpos, if_true]
    simp only [hpos, if_true, ← hr] at hf hw
    exact ⟨es, _, _, other, _, _, hes, hf, hw⟩
  · have hr : replaced s.treeType es name value replaceWith = cs := by
      simp only [replaced, hc, hpos, if_false]
    simp only [hpos, if_false, ← hr] at hf hw
    exact ⟨es, _, _, other, _, _, hes, hf, hw⟩

/-! ## Both halves fit -/

section
variable {dataType value replaceWith : ℕ} {es : List Entry} {name : Key} {e : Entry}

theorem mem_combined (h : e ∈ (combined dataType es name value).2) : e = (name, value) ∨ e ∈ es :=
  List.mem_cons.1 ((insertEntryAt_perm _ _ _).subset h)

variable (dataType value es name) in
theorem length_combined : (combined dataType es name value).2.length = es.length + 1 :=
  (insertEntryAt_perm _ _ _).length_eq

variable (dataType value replaceWith es name) in
theorem length_replaced : (replaced dataType es name value replaceWith).length = es.length + 1 := by
  rw [← length_combined dataType value es name]
  simp only [replaced]
  split
  · exact List.length_modify ..
  · rfl

theorem mem_replaced (h : e ∈ replaced dataType es name value replaceWith) :
    ∃ x ∈ (combined dataType es name value).2, e.1 = x.1 ∧ (e.2 = x.2 ∨ e.2 = replaceWith) := by
  rcases hc : combined dataType es name value with ⟨pos, cs⟩
  simp only [replaced, hc] at h
  split at h
  · obtain ⟨i, hi, rfl⟩ := List.mem_iff_getElem.1 h
    rw [List.length_modify] at hi
    refine ⟨cs[i], List.getElem_mem hi, ?_⟩
    rw [List.getElem_modify]
    split
    · exact ⟨rfl, Or.inr rfl⟩
    · exact ⟨rfl, Or.inl rfl⟩
  · exact ⟨e, h, rfl, Or.inl rfl⟩

end

/-- **Both halves of a node that is split are accepted**, and stored whole, exactly when
    the cut leaves the keys of either side room. -/
theorem split_fits (offset value : ℕ) (name : Key) (hname : name.length ≤ kMaxName)
    (hvalue : value < 2 ^ 64) (split : TreeSplit) (info : NodeInfo) :
    (nodeInfo s.node kTreeNodeSize = some info →
      (∀ e ∈ nodeEntries s.node info.count, e.1.length ≤ kMaxName) →
      splitLeaf B kTreeNodeSize offset name value s = (some split, s') →
      let es := (combined s.treeType (nodeEntries s.node info.count) name value).2
      let m := es.length / 2
      ((nodeInfo s'.fresh kTreeNodeSize).isSome = true ∧ (nodeInfo s'.work kTreeNodeSize).isSome = true ↔
        Balanced es m m) ∧
      (Balanced es m m → Stored s'.fresh (es.take m) ∧ Stored s'.work (es.drop m))) ∧
    ∀ replaceWith < 2 ^ 64, nodeInfo s.parent kTreeNodeSize = some info →
      (∀ e ∈ nodeEntries s.parent info.count, e.1.length ≤ kMaxName) →
      splitInternal B kTreeNodeSize offset name value replaceWith s = (some split, s') →
      let es := replaced s.treeType (nodeEntries s.parent info.count) name value replaceWith
      let j := innerCut es.length
      ((nodeInfo s'.fresh kTreeNodeSize).isSome = true ∧ (nodeInfo s'.work kTreeNodeSize).isSome = true ↔
        Balanced es j (j + 1)) ∧
      (Balanced es j (j + 1) → Stored s'.fresh (es.take j) ∧ Stored s'.work (es.drop (j + 1))) := by
  constructor
  · intro hinfo hnames h
    obtain ⟨es, oldLeft, oldRight, other, hes, hf, hw⟩ := splitLeaf_halves B h
    obtain ⟨hes, hlen⟩ := gather_eq_some hinfo hes
    rw [← hes] at hnames ⊢
    have hval : ∀ e ∈ es, e.2 < 2 ^ 64 := hes ▸ nodeEntries_value_lt _ _
    have hc := length_combined s.treeType value es name
    rw [← hc] at hf hw
    have hmax : kMaxNodeEntries = 406 := by decide
    refine halves_fit (fun e he => ?_) (fun e he => ?_) ?_ ?_ hf hw
    · rcases mem_combined he with rfl | he
      · exact hname
      · exact hnames e he
    · rcases mem_combined he with rfl | he
      · exact hvalue
      · exact hval e he
    · rw [List.length_take]; omega
    · rw [List.length_drop]; omega
  · intro replaceWith hreplace hinfo hnames h
    obtain ⟨es, oldLeft, oldRight, other, overflow, overflow', hes, hf, hw⟩ := splitInternal_halves B h
    obtain ⟨hes, hlen⟩ := gather_eq_some hinfo hes
    rw [← hes] at hnames ⊢
    have hval : ∀ e ∈ es, e.2 < 2 ^ 64 := hes ▸ nodeEntries_value_lt _ _
    have hc := length_replaced s.treeType value replaceWith es name
    rw [← hc] at hf hw
    have hmax : kMaxNodeEntries = 406 := by decide
    refine halves_fit (fun e he => ?_) (fun e he => ?_) ?_ ?_ hf hw
    · obtain ⟨x, hx, h₁, -⟩ := mem_replaced he
      rw [h₁]
      rcases mem_combined hx with rfl | hx
      · exact hname
      · exact hnames x hx
    · obtain ⟨x, hx, -, h₂⟩ := mem_replaced he
      rcases h₂ with h₂ | h₂
      · rw [h₂]
        rcases mem_combined hx with rfl | hx
        · exact hvalue
        · exact hval x hx
      · rw [h₂]; exact hreplace
    · rw [List.length_take, hc]
      unfold innerCut
      dsimp only
      split_ifs <;> omega
    · rw [List.length_drop, hc]
      unfold innerCut
      dsimp only
      split_ifs <;> omega

/-! ## Long names before short ones -/

/-- A store of bytes with room for every node. -/
def flatStreams : Streams Buf where
  blockSize _ := 1024
  readBlock _ _ := zero
  readStream s _ offset _ := slice s offset
  writeBlock _ _ := pure ()
  writeStreamRaw _ offset src length := .modify fun s => blit s offset src length
  streamBlocks := pure (2 ^ 20)
  growTo _ _ := pure ()

/-- Fifteen names of 244 bytes, and sixteen of one byte after them. -/
def skewed : List Entry :=
  (List.range 15).map (fun i => (UInt8.ofNat (65 + i) :: List.replicate 243 97, i)) ++
    (List.range 16).map fun i => ([UInt8.ofNat (97 + i)], i)

@[irreducible] def skewedNode : Buf := buildNode true kNullLink kNullLink kNullLink skewed

theorem skewedNode_holds : Holds skewedNode skewed := by
  unfold skewedNode
  exact layNode_holds (by decide) (by decide +kernel) (by decide)

def longName (c : UInt8) : Key := List.replicate 255 c

/-- A writer at that node. -/
def atSkewed : Writer Buf where
  store := zero
  inode := zero
  stream := zero
  hdr := zero
  node := skewedNode
  parent := skewedNode
  splitSrc := zero
  work := zero
  fresh := zero
  attr := zero
  editParent := 0
  treeType := kTreeStringType

set_option maxRecDepth 20000 in
theorem atSkewed_info : nodeInfo atSkewed.node kTreeNodeSize = some {
    count := skewed.length
    allKeyLength := keyBytes skewed
    overflow := le 8 skewedNode NodeField.kOverflowLink
    used := nodeUsed skewed } :=
  skewedNode_holds.nodeInfo (by decide)

theorem atSkewed_entries : nodeEntries atSkewed.node skewed.length = skewed := by
  rw [show atSkewed.node = skewedNode from rfl, skewedNode_holds.nodeEntries]

theorem run_eq {r : Option TreeSplit × Writer Buf} (h : r.1.isSome = true) :
    ∃ split s', r = (some split, s') := by
  obtain ⟨split, hsplit⟩ := Option.isSome_iff_exists.1 h
  exact ⟨split, r.2, Prod.ext hsplit rfl⟩

theorem split_fits_sample :
    (∃ split s', splitLeaf flatStreams kTreeNodeSize kTreeNodeSize (longName 122) 7 atSkewed =
      (some split, s') ∧ (nodeInfo s'.fresh kTreeNodeSize).isSome = true ∧
        (nodeInfo s'.work kTreeNodeSize).isSome = true) ∧
    ∃ split s', splitInternal flatStreams kTreeNodeSize kTreeNodeSize (longName 122) 7 8 atSkewed =
      (some split, s') ∧ (nodeInfo s'.fresh kTreeNodeSize).isSome = true ∧
        (nodeInfo s'.work kTreeNodeSize).isSome = true := by
  have hnames : ∀ e ∈ nodeEntries atSkewed.node skewed.length, e.1.length ≤ kMaxName := by
    rw [atSkewed_entries]
    decide +kernel
  obtain ⟨split, s₁, hrun⟩ := run_eq (r := splitLeaf flatStreams kTreeNodeSize kTreeNodeSize
    (longName 122) 7 atSkewed) (by decide +kernel)
  obtain ⟨split', s₂, hrun'⟩ := run_eq (r := splitInternal flatStreams kTreeNodeSize kTreeNodeSize
    (longName 122) 7 8 atSkewed) (by decide +kernel)
  have h := (split_fits (s := atSkewed) flatStreams kTreeNodeSize 7 (longName 122) (by decide +kernel)
    (by decide) split _).1 atSkewed_info hnames hrun
  have h' := (split_fits (s := atSkewed) flatStreams kTreeNodeSize 7 (longName 122) (by decide +kernel)
    (by decide) split' _).2 8 (by decide) atSkewed_info hnames hrun'
  refine ⟨⟨split, s₁, hrun, h.1.2 ?_⟩, split', s₂, hrun', h'.1.2 ?_⟩
  · rw [atSkewed_entries]
    decide +kernel
  · have hentries : nodeEntries atSkewed.parent skewed.length = skewed := atSkewed_entries
    rw [hentries]
    decide +kernel

/-- **A longer name before all of them** has the long names in one half, which has no room
    for them. -/
theorem split_cuts_off : ∃ info split s', nodeInfo atSkewed.node kTreeNodeSize = some info ∧
    (nodeEntries atSkewed.node info.count).Pairwise
      (fun a b => keyCompareTyped atSkewed.treeType a.1 b.1 = .lt) ∧
    (∀ e ∈ nodeEntries atSkewed.node info.count, 1 ≤ e.1.length ∧ e.1.length ≤ 255) ∧
    (longName 48).length = 255 ∧
    nodeInsert kTreeNodeSize atSkewed.treeType atSkewed.node (longName 48) 7 = none ∧
    splitLeaf flatStreams kTreeNodeSize kTreeNodeSize (longName 48) 7 atSkewed = (some split, s') ∧
    nodeInfo s'.fresh kTreeNodeSize = none := by
  obtain ⟨split, s₁, hrun⟩ := run_eq (r := splitLeaf flatStreams kTreeNodeSize kTreeNodeSize
    (longName 48) 7 atSkewed) (by decide +kernel)
  obtain ⟨es, oldLeft, oldRight, other, hes, hf, -⟩ := splitLeaf_halves flatStreams hrun
  obtain ⟨rfl, -⟩ := gather_eq_some atSkewed_info hes
  rw [atSkewed_entries] at hf
  refine ⟨_, split, s₁, atSkewed_info, ?_, ?_, by decide +kernel, ?_, hrun, ?_⟩
  · rw [atSkewed_entries]
    decide
  · rw [atSkewed_entries]
    decide +kernel
  · simp only [nodeInsert, atSkewed_info, atSkewed_entries]
    decide +kernel
  · rw [← Option.not_isSome_iff_eq_none, hf, buildNode_accepted true oldLeft other kNullLink]
    all_goals decide +kernel

end Writer

end Aegir.Bfs
