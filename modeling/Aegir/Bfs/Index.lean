/-
  Reading an index (`volume.cc`, `Volume::index_walk`; `writer.cc`,
  `Writer::index_descend`): descending to the leaf that holds a key by the
  index's type, and walking the values under it.
-/
import Aegir.Bfs.Directory

namespace Aegir.Bfs

open Aegir.Lib Aegir.Lib.Buf Aegir.Lib.BTree

def kDuplicateNode : ℕ := 2
def kDuplicateFragment : ℕ := 3
def kNumDuplicateValues : ℕ := 125

/-! ## Links to duplicates -/

def linkType (link : ℕ) : ℕ := link >>> 62

def linkIsDuplicate (link : ℕ) : Bool := linkType link &&& (kDuplicateNode ||| kDuplicateFragment) ≠ 0

/-- The node offset a link names; the low ten bits are a fragment index. -/
def linkOffset (link : ℕ) : ℕ := link &&& 0x3ffffffffffffc00

def makeLink (type offset : ℕ) : ℕ := (type <<< 62) ||| (offset &&& 0x3ffffffffffffc00)

theorem and_offset {chain : ℕ} (hlt : chain < 2 ^ 62) (halign : chain % 2 ^ 10 = 0) :
    chain &&& 0x3ffffffffffffc00 = chain := by
  have hmask : ∀ i < 62, 10 ≤ i → Nat.testBit 0x3ffffffffffffc00 i = true := by decide
  refine Nat.eq_of_testBit_eq fun i => ?_
  rw [Nat.testBit_and]
  by_cases h₁ : i < 10
  · have : (chain % 2 ^ 10).testBit i = chain.testBit i := by
      rw [Nat.testBit_mod_two_pow, decide_eq_true h₁, Bool.true_and]
    rw [← this, halign]
    simp
  · by_cases h₂ : i < 62
    · rw [hmask i h₂ (by omega), Bool.and_true]
    · rw [Nat.testBit_lt_two_pow (hlt.trans_le (Nat.pow_le_pow_right (by decide) (by omega)))]
      rfl

theorem linkType_makeLink {chain : ℕ} (hlt : chain < 2 ^ 62) (halign : chain % 2 ^ 10 = 0) :
    linkType (makeLink kDuplicateNode chain) = kDuplicateNode := by
  rw [linkType, makeLink, and_offset hlt halign, ← Nat.shiftLeft_add_eq_or_of_lt hlt,
    Nat.shiftRight_eq_div_pow, Nat.shiftLeft_eq, kDuplicateNode]
  omega

theorem linkOffset_makeLink {chain : ℕ} (hlt : chain < 2 ^ 62) (halign : chain % 2 ^ 10 = 0) :
    linkOffset (makeLink kDuplicateNode chain) = chain := by
  have hzero : kDuplicateNode <<< 62 &&& 0x3ffffffffffffc00 = 0 := by decide
  rw [linkOffset, makeLink, and_offset hlt halign, Nat.and_or_distrib_right, hzero,
    and_offset hlt halign, Nat.zero_or]

/-! ## Duplicate nodes -/

/-- How many values a duplicate node may hold. -/
def duplicateCapacity (nodeSize : ℕ) : ℕ :=
  let base := NodeField.kOverflowLink + 8
  if nodeSize ≤ base then 0 else
  let fits := (nodeSize - base) / 8
  if fits < kNumDuplicateValues then fits else kNumDuplicateValues

def duplicateCount (b : Buf) (nodeSize : ℕ) : ℕ :=
  let capacity := duplicateCapacity nodeSize
  let counted := le 8 b NodeField.kOverflowLink % 2 ^ 32
  if counted < capacity then counted else capacity

def duplicateValue (b : Buf) (nodeSize index : ℕ) : Option ℕ :=
  if duplicateCount b nodeSize ≤ index then none
  else some (le 8 b (NodeField.kOverflowLink + 8 + index * 8))

/-! ## Walking the values under a key -/

/-- Descend to the leaf holding the key, and the value under it there. -/
def indexFindFrom (w : World) (index : Inode) (nodeSize maximum dataType : ℕ) (key : Key) :
    ℕ → ℕ → Option ℕ
  | 0, _ => none
  | depth + 1, offset =>
    if maximum < (offset + nodeSize) % 2 ^ 64 then none else
    let tree := readStream w index.data offset nodeSize
    let overflow := le 8 tree NodeField.kOverflowLink
    let count := le 2 tree NodeField.kKeyCount
    if 512 < count then none else
    let (lengths, valuesAt) := nodeKeyLengths tree count
    match scanKeys (keyCompareTyped dataType key) (fun _ => false)
        (readKeys tree NodeField.kFixed lengths) 0 with
    | none => none
    | some (child, equal) =>
      if overflow = kNullLink then
        if equal then some (le 8 tree (valuesAt + child * 8)) else none
      else indexFindFrom w index nodeSize maximum dataType key depth
        (if child = count then overflow else le 8 tree (valuesAt + child * 8))

/-- Along the duplicate nodes from `chain`: a value, and the caller's position. -/
def walkChain (w : World) (index : Inode) (nodeSize : ℕ) : ℕ → ℕ → ℕ → Option ℕ × ℕ
  | 0, _, position => (none, position)
  | depth + 1, chain, position =>
    let tree := readStream w index.data chain nodeSize
    let count := duplicateCount tree nodeSize
    if position < count then
      match duplicateValue tree nodeSize position with
      | none => (none, position)
      | some value => (some value, position + 1)
    else
      let right := le 8 tree NodeField.kRightLink
      if right = kNullLink then (none, position - count)
      else walkChain w index nodeSize depth right (position - count)

/-- `index_walk`: the next inode's block under `key`, and the position after. -/
def indexWalk (w : World) (indexBlock : ℕ) (key : Key) (position : ℕ) : Option ℕ × ℕ :=
  match readInode w indexBlock with
  | none => (none, position)
  | some index =>
    match nodeHeader w index with
    | none => (none, position)
    | some h =>
      match indexFindFrom w index h.nodeSize h.maximum h.dataType key 16 h.root with
      | none => (none, position)
      | some value =>
        if linkIsDuplicate value = false then
          if position ≠ 0 then (none, position) else (some value, 1)
        else if linkType value ≠ kDuplicateNode then (none, position)
        else walkChain w index h.nodeSize 4096 (linkOffset value) position

/-- The calls of a walk from `position` on hand out exactly `vs`, and then no more. -/
def Walks (w : World) (indexBlock : ℕ) (key : Key) : ℕ → List ℕ → Prop
  | position, [] => (indexWalk w indexBlock key position).1 = none
  | position, v :: vs => ∃ position', indexWalk w indexBlock key position = (some v, position') ∧
      Walks w indexBlock key position' vs

/-! ## The writer's descent -/

/-- Where `index_descend` ends: the leaf, and the entry there if the key has one. -/
structure Descent where
  leaf : ℕ
  entry : Option (ℕ × ℕ)
deriving DecidableEq

/-- The entry under the key, among the `count` of a leaf from the `i`th on. -/
def leafSearch (order : Key → Ordering) (b : Buf) (nodeSize : ℕ) : ℕ → ℕ → Option (Option (ℕ × ℕ))
  | 0, _ => some none
  | count + 1, i =>
    match nodeEntry b nodeSize i with
    | none => none
    | some (k, v) =>
      if order k = .eq then some (some (i, v)) else leafSearch order b nodeSize count (i + 1)

/-- The first of `count` keys the key is not above, from the `i`th on, and the
    child it names; past the last one, the overflow child. -/
def childSearch (order : Key → Ordering) (b : Buf) (nodeSize : ℕ) : ℕ → ℕ → Option (ℕ × ℕ)
  | 0, i => some (i, le 8 b NodeField.kOverflowLink)
  | count + 1, i =>
    match nodeEntry b nodeSize i with
    | none => none
    | some (k, v) =>
      if order k = .gt then childSearch order b nodeSize count (i + 1) else some (i, v)

/-- The descent from `offset`, where the node at an offset is what `read` gives. -/
def descendFrom (read : ℕ → Buf) (nodeSize dataType : ℕ) (key : Key) : ℕ → ℕ → Option Descent
  | 0, _ => none
  | depth + 1, offset =>
    let node := read offset
    match nodeInfo node nodeSize with
    | none => none
    | some info =>
      if info.overflow = kNullLink then
        (leafSearch (keyCompareTyped dataType key) node nodeSize info.count 0).map fun e => ⟨offset, e⟩
      else
        match childSearch (keyCompareTyped dataType key) node nodeSize info.count 0 with
        | none => none
        | some (_, child) => descendFrom read nodeSize dataType key depth child

/-- `Writer::tree_header`: the stream of the inode in `block`, and the header of
    the tree it holds. -/
def treeHeader (w : World) (block : ℕ) : Option (Buf × TreeHeader) :=
  let b := readBlock w block
  if le 4 b InodeField.kMagic1 ≠ kInodeMagic1 ∨ le 4 b InodeField.kFlags &&& kInodeInUse = 0 then none
  else
    let data := slice b InodeField.kData
    (treeHeaderParse (readStream w data 0 TreeHeaderField.kBytes)).map fun h => (data, h)

/-- `tree_header` and `index_descend`, as an index's insertion and removal begin. -/
def indexDescend (w : World) (indexBlock : ℕ) (key : Key) : Option Descent :=
  match treeHeader w indexBlock with
  | none => none
  | some (data, h) =>
    if h.maximum < (h.root + h.nodeSize) % 2 ^ 64 then none
    else descendFrom (fun off => readStream w data off h.nodeSize) h.nodeSize h.dataType key 32 h.root

/-! ## Keys in a leaf -/

theorem keyCompareTyped_eq_iff {dataType : ℕ} {a b : Key} :
    keyCompareTyped dataType a b = .eq ↔ a = b := by
  unfold keyCompareTyped
  split_ifs with h₁ h₂ h₃ h₄
  · rw [compare_eq_iff_eq]
    exact ⟨fun h => signed_keyNumber_inj h₁.2.1 h₁.2.2 h, fun h => by rw [h]⟩
  · rw [compare_eq_iff_eq]
    exact ⟨fun h => keyNumber_inj h₂.2.1 h₂.2.2 h, fun h => by rw [h]⟩
  · rw [compare_eq_iff_eq]
    exact ⟨fun h => signed_keyNumber_inj h₃.2.1 h₃.2.2 h, fun h => by rw [h]⟩
  · rw [compare_eq_iff_eq]
    exact ⟨fun h => keyNumber_inj h₄.2.1 h₄.2.2 h, fun h => by rw [h]⟩
  · exact keyCompare_eq_iff

theorem scanKeys_absent {order : Key → Ordering} : ∀ {ks : List Key} (i : ℕ),
    (∀ k ∈ ks, order k ≠ .eq) → ∃ j, scanKeys order (fun _ => false) ks i = some (j, false)
  | [], i, _ => ⟨i, rfl⟩
  | k :: ks, i, h => by
    have hk := h k List.mem_cons_self
    by_cases hgt : order k = .gt
    · obtain ⟨j, hj⟩ := scanKeys_absent (i + 1) fun k hk => h k (List.mem_cons_of_mem _ hk)
      exact ⟨j, by simp [scanKeys, hgt, hj]⟩
    · exact ⟨i, by simp [scanKeys, hgt, hk]⟩

theorem lookup_eq_none_of_forall {es : List Entry} {key : Key} (h : ∀ e ∈ es, e.1 ≠ key) :
    es.lookup key = none :=
  List.lookup_eq_none_iff.2 fun e he => by simpa using fun hne => h e he hne.symm

/-! ## Well-formed indexes -/

/-- A node of the entries `es` at the offset `p` of an index's stream. -/
structure KeyedAt (read : ℕ → Buf) (nodeSize maximum p : ℕ) (es : List Entry) : Prop where
  holds : Holds (read p) es
  fits : nodeUsed es ≤ nodeSize
  inside : p + nodeSize ≤ maximum

def indexStore (read : ℕ → Buf) (nodeSize maximum : ℕ) : Store Key ℕ where
  leaf p es := KeyedAt read nodeSize maximum p es ∧ le 8 (read p) NodeField.kOverflowLink = kNullLink
  inner p es last := KeyedAt read nodeSize maximum p es ∧
    le 8 (read p) NodeField.kOverflowLink = last ∧ last ≠ kNullLink

/-- An index's tree of depth `depth` with the leaves `ls`. -/
structure IndexAt (read : ℕ → Buf) (h : TreeHeader) (depth : ℕ) (ls : List (Leaf Key ℕ)) : Prop where
  nodeSize : h.nodeSize ≤ kTreeNodeSize
  maximum : h.maximum < 2 ^ 64
  tree : ∃ ns, Subtree (keyCompareTyped h.dataType) (KeyOf h.dataType)
    (indexStore read h.nodeSize h.maximum) depth none none h.root ls ns

section
variable {w : World} {index : Inode} {nodeSize maximum dataType p : ℕ} {es : List Entry} {key : Key}
variable (hsize : nodeSize ≤ kTreeNodeSize) (hmax : maximum < 2 ^ 64)
include hsize hmax

theorem indexFindFrom_node (fuel : ℕ)
    (hn : KeyedAt (fun off => readStream w index.data off nodeSize) nodeSize maximum p es) :
    indexFindFrom w index nodeSize maximum dataType key (fuel + 1) p =
      match scanKeys (keyCompareTyped dataType key) (fun _ => false) (es.map fun e => e.1) 0 with
      | none => none
      | some (child, equal) =>
        let node := readStream w index.data p nodeSize
        if le 8 node NodeField.kOverflowLink = kNullLink then
          if equal then some (valueAt node es.length child) else none
        else indexFindFrom w index nodeSize maximum dataType key fuel
          (if child = es.length then le 8 node NodeField.kOverflowLink else valueAt node es.length child) := by
  have hal := keyAlign_ge (NodeField.kFixed + keyBytes es)
  have hf := hn.fits
  have hi := hn.inside
  rw [nodeUsed] at hf
  simp only [kTreeNodeSize, NodeField.kFixed] at hsize hal hf
  rw [indexFindFrom, if_neg (by omega)]
  simp only [hn.holds.count, hn.holds.nodeKeyLengths, hn.holds.readKeys]
  rw [if_neg (by omega)]
  rfl

theorem indexFindFrom_inner {last : ℕ} (fuel : ℕ)
    (h : (indexStore (fun off => readStream w index.data off nodeSize) nodeSize maximum).inner p es last) :
    indexFindFrom w index nodeSize maximum dataType key (fuel + 1) p =
      indexFindFrom w index nodeSize maximum dataType key fuel
        (route (keyCompareTyped dataType) key es last) := by
  obtain ⟨hn, ho, hne⟩ := h
  obtain ⟨j, equal, h₁, h₂, h₃⟩ :=
    scanKeys_route (keyCompareTyped dataType) (fun _ => false) key last es 0 fun _ _ => rfl
  have hchild : (if j = es.length then last else
      valueAt (readStream w index.data p nodeSize) es.length j) =
      route (keyCompareTyped dataType) key es last := by
    rw [← h₃]
    split_ifs with hj
    · rw [hj, List.getD_eq_default _ _ (by simp)]
    · have hlt : j < es.length := by omega
      rw [hn.holds.values j hlt, List.getD_eq_getElem _ _ (by simpa using hlt), List.getElem_map]
  rw [indexFindFrom_node hsize hmax fuel hn, h₁, ← hchild]
  simp only [ho, hne, if_false, Nat.zero_add]

theorem indexFindFrom_descends {d q : ℕ} (fuel : ℕ)
    (h : Descends (indexStore (fun off => readStream w index.data off nodeSize) nodeSize maximum)
      (route (keyCompareTyped dataType) key) d p q) :
    indexFindFrom w index nodeSize maximum dataType key (fuel + d) p =
      indexFindFrom w index nodeSize maximum dataType key fuel q := by
  induction h with
  | here => rfl
  | @down d p q last es hin _ ih =>
    rw [← Nat.add_assoc, indexFindFrom_inner hsize hmax (fuel + d) hin, ih]

theorem indexFindFrom_deep {d q : ℕ} {fuel : ℕ} (hd : fuel ≤ d)
    (h : Descends (indexStore (fun off => readStream w index.data off nodeSize) nodeSize maximum)
      (route (keyCompareTyped dataType) key) d p q) :
    indexFindFrom w index nodeSize maximum dataType key fuel p = none := by
  induction h generalizing fuel with
  | here => rw [Nat.le_zero.1 hd]; rfl
  | @down d p q last es hin _ ih =>
    cases fuel with
    | zero => rfl
    | succ fuel => rw [indexFindFrom_inner hsize hmax fuel hin, ih (by omega)]

theorem indexFindFrom_bottom (fuel : ℕ)
    (h : (indexStore (fun off => readStream w index.data off nodeSize) nodeSize maximum).leaf p es)
    (hs : Sorted (keyCompareTyped dataType) es) (hP : ∀ e ∈ es, KeyOf dataType e.1) :
    indexFindFrom w index nodeSize maximum dataType key (fuel + 1) p = es.lookup key := by
  obtain ⟨hn, ho⟩ := h
  rw [indexFindFrom_node hsize hmax fuel hn]
  simp only [ho, if_true]
  by_cases hkey : ∃ e ∈ es, e.1 = key
  · obtain ⟨e, he, rfl⟩ := hkey
    rcases scanKeys_find (fun _ => false) (keyOrder dataType) (hP e he) es 0 (fun _ _ => rfl) hP hs
      with ⟨j, hj, h₁, h₂⟩ | ⟨-, h₂⟩
    · rw [h₁, ← h₂, hs.lookup (keyOrder dataType) hP _ (List.getElem_mem hj)]
      simp only [Nat.zero_add, if_true, hn.holds.values j hj]
    · exact absurd rfl (h₂ e he)
  · have habs : ∀ e ∈ es, e.1 ≠ key := fun e he heq => hkey ⟨e, he, heq⟩
    obtain ⟨j, hj⟩ := @scanKeys_absent (keyCompareTyped dataType key) (es.map fun e => e.1) 0 (by
      intro k hk heq
      obtain ⟨e, he, rfl⟩ := List.mem_map.1 hk
      exact habs e he (keyCompareTyped_eq_iff.1 heq).symm)
    rw [hj, lookup_eq_none_of_forall habs]
    rfl

end

section
variable {w : World} {nodeSize maximum dataType p : ℕ} {es : List Entry} {key : Key}

/-- **A leaf answers the value under the key**, if it has one. -/
theorem indexFindFrom_leaf {index : Inode} (hsize : nodeSize ≤ kTreeNodeSize)
    (hmax : maximum < 2 ^ 64) (fuel : ℕ)
    (h : (treeStore (fun off => readStream w index.data off nodeSize) nodeSize maximum).leaf p es)
    (hs : Sorted (keyCompareTyped dataType) es) (hP : ∀ e ∈ es, KeyOf dataType e.1) :
    indexFindFrom w index nodeSize maximum dataType key (fuel + 1) p = es.lookup key :=
  indexFindFrom_bottom hsize hmax fuel ⟨⟨h.1.holds, h.1.fits, h.1.inside⟩, h.2⟩ hs hP

theorem leafSearch_eq {b : Buf} (hh : Holds b es) (hfit : nodeUsed es ≤ nodeSize)
    (hname : ∀ e ∈ es, e.1.length ≤ kMaxName) : ∀ (count i : ℕ), i + count = es.length →
    ∃ r, leafSearch (keyCompareTyped dataType key) b nodeSize count i = some r ∧
      (r.isSome = true ↔ ∃ e ∈ es.drop i, e.1 = key)
  | 0, i, hi => by
    refine ⟨none, rfl, ?_⟩
    rw [List.drop_of_length_le (by omega)]
    simp
  | count + 1, i, hi => by
    have hlt : i < es.length := by omega
    have hentry := hh.nodeEntry hfit hlt (hname _ (List.getElem_mem hlt))
    obtain ⟨r, hr, hiff⟩ := leafSearch_eq hh hfit hname count (i + 1) (by omega)
    rw [leafSearch, hentry, List.drop_eq_getElem_cons hlt]
    by_cases heq : keyCompareTyped dataType key es[i].1 = .eq
    · refine ⟨some (i, es[i].2), by simp only [heq, if_true], ?_⟩
      exact iff_of_true rfl ⟨es[i], List.mem_cons_self, (keyCompareTyped_eq_iff.1 heq).symm⟩
    · refine ⟨r, by simp only [heq, if_false, hr], hiff.trans ?_⟩
      constructor
      · rintro ⟨e, he, h⟩
        exact ⟨e, List.mem_cons_of_mem _ he, h⟩
      · rintro ⟨e, he, h⟩
        rcases List.mem_cons.1 he with rfl | he
        · exact absurd (keyCompareTyped_eq_iff.2 h.symm) heq
        · exact ⟨e, he, h⟩

/-- **The descent ends at a leaf**, and finds the key there if it is there. -/
theorem descendFrom_leaf {read : ℕ → Buf} (fuel : ℕ)
    (h : (treeStore read nodeSize maximum).leaf p es) :
    ∃ d, descendFrom read nodeSize dataType key (fuel + 1) p = some d ∧ d.leaf = p ∧
      (d.entry.isSome = true ↔ ∃ e ∈ es, e.1 = key) := by
  obtain ⟨hn, ho⟩ := h
  obtain ⟨r, hr, hiff⟩ := @leafSearch_eq nodeSize dataType es key _ hn.holds hn.fits hn.names
    es.length 0 (Nat.zero_add _)
  rw [descendFrom, hn.holds.nodeInfo hn.fits]
  simp only [ho, if_true, hr, Option.map_some]
  exact ⟨_, rfl, rfl, hiff⟩

end

/-! ## Duplicate nodes -/

/-- The buffer is a duplicate node of the values `vs`. -/
structure DuplicateAt (b : Buf) (right : ℕ) (vs : List ℕ) : Prop where
  right : le 8 b NodeField.kRightLink = right
  count : le 8 b NodeField.kOverflowLink = vs.length
  values : ∀ i (h : i < vs.length), le 8 b (NodeField.kOverflowLink + 8 + i * 8) = vs[i]
  length : vs.length ≤ kNumDuplicateValues

section
variable {w : World} {index : Inode} {nodeSize chain right position : ℕ} {vs : List ℕ}

theorem walkChain_node (h : DuplicateAt (readStream w index.data chain nodeSize) right vs)
    (hcap : vs.length ≤ duplicateCapacity nodeSize) (fuel : ℕ) :
    walkChain w index nodeSize (fuel + 1) chain position =
      if hp : position < vs.length then (some vs[position], position + 1)
      else if right = kNullLink then (none, position - vs.length)
      else walkChain w index nodeSize fuel right (position - vs.length) := by
  have hlen := h.length
  have hcount : duplicateCount (readStream w index.data chain nodeSize) nodeSize = vs.length := by
    rw [duplicateCount, h.count]
    simp only [kNumDuplicateValues] at hlen
    split_ifs <;> omega
  rw [Bfs.walkChain]
  simp only [hcount, h.right]
  split_ifs with hp hn
  · rw [duplicateValue, hcount, if_neg (by omega), h.values position hp]
  · rfl
  · rfl

theorem capacity_kTreeNodeSize : duplicateCapacity kTreeNodeSize = kNumDuplicateValues := by decide

end

/-! ## Walks -/

section
variable {w : World} {indexBlock nodeSize chain right : ℕ} {index : Inode} {key : Key} {vs : List ℕ}
variable (hwalk : ∀ position, indexWalk w indexBlock key position =
  walkChain w index nodeSize 4096 chain position)
include hwalk

theorem walks_node (hd : DuplicateAt (readStream w index.data chain nodeSize) kNullLink vs)
    (hcap : vs.length ≤ duplicateCapacity nodeSize) (position : ℕ) :
    Walks w indexBlock key position (vs.drop position) := by
  have hstep := hwalk position
  rw [walkChain_node hd hcap] at hstep
  by_cases hp : position < vs.length
  · rw [List.drop_eq_getElem_cons hp]
    exact ⟨position + 1, by rw [hstep, dif_pos hp], walks_node hd hcap (position + 1)⟩
  · rw [List.drop_of_length_le (by omega), Walks, hstep, dif_neg hp, if_pos rfl]
termination_by vs.length - position

/-- Two nodes that have values are walked round and round: past the first node
    the position counts from the second, and the next call takes it for the first. -/
theorem not_walks {us : List ℕ} {right' : ℕ} (hright : right ≠ kNullLink) (hvs : vs ≠ []) (hus : us ≠ [])
    (hd : DuplicateAt (readStream w index.data chain nodeSize) right vs)
    (hcap : vs.length ≤ duplicateCapacity nodeSize)
    (hd' : DuplicateAt (readStream w index.data right nodeSize) right' us)
    (hcap' : us.length ≤ duplicateCapacity nodeSize) (rs : List ℕ) :
    ∀ position < vs.length + us.length, ¬ Walks w indexBlock key position rs := by
  have hstep : ∀ position < vs.length + us.length, ∃ v, ∃ position' < vs.length + us.length,
      indexWalk w indexBlock key position = (some v, position') := by
    intro position hp
    have hpos := List.length_pos_of_ne_nil hvs
    have hpos' := List.length_pos_of_ne_nil hus
    have hone := hwalk position
    rw [walkChain_node hd hcap] at hone
    by_cases hlt : position < vs.length
    · exact ⟨_, position + 1, by omega, by rw [hone, dif_pos hlt]⟩
    · have hsub : position - vs.length < us.length := by omega
      refine ⟨us[position - vs.length], position - vs.length + 1, by omega, ?_⟩
      rw [hone, dif_neg hlt, if_neg hright, walkChain_node hd' hcap', dif_pos hsub]
  induction rs with
  | nil =>
    intro position hp hw
    obtain ⟨v, position', -, hv⟩ := hstep position hp
    rw [Walks, hv] at hw
    cases hw
  | cons r rs ih =>
    intro position hp hw
    obtain ⟨v, position', hp', hv⟩ := hstep position hp
    obtain ⟨position'', hr, hrest⟩ := hw
    rw [hv] at hr
    obtain ⟨-, rfl⟩ := Prod.mk.inj hr
    exact ih position' hp' hrest

end

section
variable {w : World} {indexBlock : ℕ} {index : Inode} {h : TreeHeader} {key : Key}
variable (hi : readInode w indexBlock = some index) (hh : nodeHeader w index = some h)
include hi hh

theorem indexWalk_none {position : ℕ}
    (hf : indexFindFrom w index h.nodeSize h.maximum h.dataType key 16 h.root = none) :
    indexWalk w indexBlock key position = (none, position) := by
  simp only [indexWalk, hi, hh, hf]

theorem walks_lone {value : ℕ} (hv : value < 2 ^ 62)
    (hf : indexFindFrom w index h.nodeSize h.maximum h.dataType key 16 h.root = some value) :
    Walks w indexBlock key 0 [value] := by
  have hdup : linkIsDuplicate value = false := by
    have : linkType value = 0 := by
      rw [linkType, Nat.shiftRight_eq_div_pow]
      exact Nat.div_eq_of_lt hv
    simp [linkIsDuplicate, this]
  have hwalk : ∀ position, indexWalk w indexBlock key position =
      if position ≠ 0 then (none, position) else (some value, 1) := by
    intro position
    simp only [indexWalk, hi, hh, hf, hdup, if_true]
  exact ⟨1, by rw [hwalk]; rfl, by rw [Walks, hwalk]; rfl⟩

variable {chain right : ℕ} {vs : List ℕ} (hsize : h.nodeSize = kTreeNodeSize)
variable (hd : DuplicateAt (readStream w index.data chain kTreeNodeSize) right vs)
variable (hf : indexFindFrom w index h.nodeSize h.maximum h.dataType key 16 h.root =
  some (makeLink kDuplicateNode chain))
variable (hchain : chain < 2 ^ 62) (halign : chain % 2 ^ 10 = 0)
include hf hchain halign hsize

theorem indexWalk_chain (position : ℕ) : indexWalk w indexBlock key position =
    walkChain w index kTreeNodeSize 4096 chain position := by
  have ht := linkType_makeLink hchain halign
  have hdup : linkIsDuplicate (makeLink kDuplicateNode chain) = true := by
    rw [linkIsDuplicate, ht]; decide
  simp only [indexWalk, hi, hh, hf, hdup, ht, linkOffset_makeLink hchain halign]
  rw [if_neg (by simp), if_neg (by simp), hsize]

theorem walks_chain (hd : DuplicateAt (readStream w index.data chain kTreeNodeSize) kNullLink vs)
    (position : ℕ) : Walks w indexBlock key position (vs.drop position) :=
  walks_node (indexWalk_chain hi hh hsize hf hchain halign) hd (capacity_kTreeNodeSize ▸ hd.length) position

theorem not_walks_chain {us : List ℕ} {right' : ℕ} (hright : right ≠ kNullLink)
    (hfull : vs.length = kNumDuplicateValues) (hus : us ≠ [])
    (hd : DuplicateAt (readStream w index.data chain kTreeNodeSize) right vs)
    (hd' : DuplicateAt (readStream w index.data right kTreeNodeSize) right' us) (rs : List ℕ) :
    ∀ position ≤ kNumDuplicateValues, ¬ Walks w indexBlock key position rs := by
  intro position hp
  have hpos := List.length_pos_of_ne_nil hus
  have hvs : vs ≠ [] := List.ne_nil_of_length_pos (by rw [hfull]; decide)
  refine not_walks (indexWalk_chain hi hh hsize hf hchain halign) hright hvs hus hd
    (capacity_kTreeNodeSize ▸ hd.length) hd' (capacity_kTreeNodeSize ▸ hd'.length) rs position ?_
  omega

end

theorem treeHeader_of_readInode {w : World} {block : ℕ} {dir : Inode}
    (h : readInode w block = some dir) :
    treeHeader w block = (nodeHeader w dir).map fun t => (dir.data, t) := by
  simp only [readInode, parseInode] at h
  split_ifs at h with h₁ h₂
  obtain rfl := Option.some.inj h
  push Not at h₂
  rw [treeHeader, if_neg (by push Not; exact ⟨h₂.1, h₂.2.1⟩)]
  rfl

end Aegir.Bfs
