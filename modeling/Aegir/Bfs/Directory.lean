/-
  Reading a directory's tree (`volume.cc`): the tree header, finding a name, and
  enumerating the entries in order.
-/
import Aegir.Bfs.Node
import Aegir.Lib.BTree

namespace Aegir.Bfs

open Aegir.Lib Aegir.Lib.Buf Aegir.Lib.BTree

/-! ## One node -/

/-- The step from the cumulative length before to the `i`th one. -/
def keyLength (b : Buf) (i : ℕ) : ℕ :=
  let previous := if i = 0 then 0 else le 2 b (keyLengthsAt b + (i - 1) * 2)
  (le 2 b (keyLengthsAt b + i * 2) + 2 ^ 16 - previous) % 2 ^ 16

/-- `node_key_lengths`: the keys' lengths, and where the values are. -/
def nodeKeyLengths (b : Buf) (count : ℕ) : List ℕ × ℕ :=
  ((List.range count).map (keyLength b), keyLengthsAt b + count * 2)

/-- The keys of the given lengths, one after the other from `pos`. -/
def readKeys (b : Buf) : ℕ → List ℕ → List Key
  | _, [] => []
  | pos, l :: ls => bytes b pos l :: readKeys b (pos + l) ls

/-- The first key that `order` does not put below the one looked for, and whether
    it is that one; the number of keys past the last.  A key whose length `bad`
    refuses ends the search. -/
def scanKeys (order : Key → Ordering) (bad : ℕ → Bool) : List Key → ℕ → Option (ℕ × Bool)
  | [], i => some (i, false)
  | k :: ks, i =>
    if bad k.length then none
    else if order k = .gt then scanKeys order bad ks (i + 1)
    else some (i, order k == .eq)

/-- `node_key`: the `index`th key, which has to end inside a block. -/
def nodeKey (g : Geometry) (b : Buf) (count index : ℕ) : Option Key :=
  if count ≤ index ∨ 512 < count then none else
  let lengths := (nodeKeyLengths b count).1
  let pos := NodeField.kFixed + (lengths.take index).sum
  let length := lengths.getD index 0
  if kMaxName < length ∨ g.blockSize < pos + length then none else some (bytes b pos length)

/-- `node_header`: the tree header at the start of the stream. -/
def nodeHeader (w : World) (dir : Inode) : Option TreeHeader :=
  treeHeaderParse (readStream w dir.data 0 TreeHeaderField.kBytes)

/-! ## Finding a name -/

/-- One level after the other from `offset`, then along the leaves. -/
def dirFindFrom (read : ℕ → Buf) (nodeSize maximum : ℕ) (name : Key) : ℕ → ℕ → Option ℕ
  | 0, _ => none
  | depth + 1, offset =>
    if maximum < (offset + nodeSize) % 2 ^ 64 then none else
    let tree := read offset
    let overflow := le 8 tree NodeField.kOverflowLink
    let count := le 2 tree NodeField.kKeyCount
    if 512 < count then none else
    let (lengths, valuesAt) := nodeKeyLengths tree count
    match scanKeys (keyCompare name) (kMaxName < ·) (readKeys tree NodeField.kFixed lengths) 0 with
    | none => none
    | some (child, equal) =>
      if overflow = kNullLink then
        if equal then some (le 8 tree (valuesAt + child * 8))
        else
          let right := le 8 tree NodeField.kRightLink
          if right = kNullLink ∨ right = kFreeLink then none
          else dirFindFrom read nodeSize maximum name depth right
      else dirFindFrom read nodeSize maximum name depth
        (if child = count then overflow else le 8 tree (valuesAt + child * 8))

/-- `dir_find` in the stream whose `length` bytes at `offset` are
    `read offset length`. -/
def dirFindIn (read : ℕ → ℕ → Buf) (name : Key) : Option ℕ :=
  match treeHeaderParse (read 0 TreeHeaderField.kBytes) with
  | none => none
  | some h => dirFindFrom (fun off => read off h.nodeSize) h.nodeSize h.maximum name 16 h.root

/-- `dir_find`: the inode's block under `name`. -/
def dirFind (w : World) (dir : Inode) (name : Key) : Option ℕ := dirFindIn (readStream w dir.data) name

/-! ## Enumerating -/

/-- Down to the leftmost leaf: the first child of each inner node. -/
def leftmost (w : World) (dir : Inode) (nodeSize maximum : ℕ) : ℕ → ℕ → Option ℕ
  | 0, offset => some offset
  | depth + 1, offset =>
    if maximum < (offset + nodeSize) % 2 ^ 64 then none else
    let tree := readStream w dir.data offset nodeSize
    let overflow := le 8 tree NodeField.kOverflowLink
    if overflow = kNullLink then some offset else
    let count := le 2 tree NodeField.kKeyCount
    let valuesAt := (nodeKeyLengths tree count).2
    leftmost w dir nodeSize maximum depth (if 0 < count then le 8 tree valuesAt else overflow)

/-- Along the leaves from `offset`, `remaining` entries on; `fuel` is the nodes
    the stream has room for. -/
def walkLeaves (w : World) (dir : Inode) (nodeSize maximum : ℕ) : ℕ → ℕ → ℕ → Option Entry
  | 0, _, _ => none
  | fuel + 1, offset, remaining =>
    if maximum < (offset + nodeSize) % 2 ^ 64 then none else
    let tree := readStream w dir.data offset nodeSize
    if le 8 tree NodeField.kOverflowLink ≠ kNullLink then none else
    let count := le 2 tree NodeField.kKeyCount
    if remaining < count then
      let valuesAt := (nodeKeyLengths tree count).2
      (nodeKey w.vol.toGeometry tree count remaining).map fun key =>
        (key, le 8 tree (valuesAt + remaining * 8))
    else
      let right := le 8 tree NodeField.kRightLink
      if right = kNullLink ∨ right = kFreeLink then none
      else walkLeaves w dir nodeSize maximum fuel right (remaining - count)

/-- `dir_entry`: the `index`th entry, with its name and the inode's block. -/
def dirEntry (w : World) (dir : Inode) (index : ℕ) : Option Entry :=
  match nodeHeader w dir with
  | none => none
  | some h =>
    match leftmost w dir h.nodeSize h.maximum 16 h.root with
    | none => none
    | some offset =>
      walkLeaves w dir h.nodeSize h.maximum (h.maximum / h.nodeSize + 2) offset index

/-! ## What the readers get out of a node -/

section
variable {b : Buf} {es : List Entry}

theorem Holds.keyLength (h : Holds b es) {i : ℕ} (hi : i < es.length) :
    keyLength b i = es[i].1.length := by
  have hlen := congrArg List.length (h.keyAt hi)
  rw [Bfs.keyAt, length_bytes] at hlen
  exact hlen

theorem Holds.nodeKeyLengths (h : Holds b es) :
    nodeKeyLengths b es.length =
      (es.map fun e => e.1.length, Bfs.keyLengthsAt b + es.length * 2) := by
  rw [Bfs.nodeKeyLengths]
  refine Prod.ext (List.ext_getElem (by simp) fun i h₁ h₂ => ?_) rfl
  have hi : i < es.length := by simpa using h₂
  simp only [List.getElem_map, List.getElem_range, h.keyLength hi]

theorem readKeys_eq : ∀ {es : List Entry} {pos : ℕ},
    (∀ i (hi : i < es.length), bytes b (pos + keyStart es i) es[i].1.length = es[i].1) →
    readKeys b pos (es.map fun e => e.1.length) = es.map fun e => e.1
  | [], _, _ => rfl
  | e :: es, pos, h => by
    have h₀ : bytes b pos e.1.length = e.1 := h 0 (Nat.succ_pos _)
    have hrest : ∀ i (hi : i < es.length),
        bytes b (pos + e.1.length + keyStart es i) es[i].1.length = es[i].1 := by
      intro i hi
      have hs : keyStart (e :: es) (i + 1) = e.1.length + keyStart es i := by simp [keyStart]
      have := h (i + 1) (Nat.succ_lt_succ hi)
      rw [hs, ← Nat.add_assoc] at this
      exact this
    simp only [List.map_cons, readKeys, h₀, readKeys_eq hrest]

theorem Holds.readKeys (h : Holds b es) :
    readKeys b NodeField.kFixed (es.map fun e => e.1.length) = es.map fun e => e.1 :=
  readKeys_eq h.keys

variable (cmp : Key → Key → Ordering) {P : Key → Prop} (bad : ℕ → Bool) {name : Key}

theorem scanKeys_route (name : Key) (last : ℕ) : ∀ (es : List Entry) (i : ℕ),
    (∀ e ∈ es, bad e.1.length = false) →
    ∃ j equal, scanKeys (cmp name) bad (es.map fun e => e.1) i = some (i + j, equal) ∧
      j ≤ es.length ∧ (es.map fun e => e.2).getD j last = route cmp name es last
  | [], i, _ => ⟨0, false, rfl, Nat.le_refl 0, rfl⟩
  | e :: es, i, hbad => by
    have he := hbad e List.mem_cons_self
    by_cases hgt : cmp name e.1 = .gt
    · obtain ⟨j, equal, h₁, h₂, h₃⟩ :=
        scanKeys_route name last es (i + 1) fun e he => hbad e (List.mem_cons_of_mem _ he)
      refine ⟨j + 1, equal, ?_, Nat.succ_le_succ h₂, ?_⟩
      · simp only [List.map_cons, scanKeys, he, hgt, if_true, h₁]
        simp only [Bool.false_eq_true, if_false]
        rw [show i + 1 + j = i + (j + 1) by omega]
      · simp only [route, hgt, if_true, List.map_cons, List.getD_cons_succ, h₃]
    · refine ⟨0, cmp name e.1 == .eq, ?_, Nat.zero_le _, ?_⟩
      · simp only [List.map_cons, scanKeys, he, hgt, if_false, Nat.add_zero]
        rfl
      · simp only [route, hgt, if_false, List.map_cons, List.getD_cons_zero]

variable {cmp}

theorem scanKeys_find (o : KeyOrder cmp P) (hname : P name) : ∀ (es : List Entry) (i : ℕ),
    (∀ e ∈ es, bad e.1.length = false) → (∀ e ∈ es, P e.1) → Sorted cmp es →
    (∃ j, ∃ h : j < es.length, scanKeys (cmp name) bad (es.map fun e => e.1) i = some (i + j, true) ∧
      es[j].1 = name) ∨
    ((∃ j, scanKeys (cmp name) bad (es.map fun e => e.1) i = some (j, false)) ∧
      ∀ e ∈ es, e.1 ≠ name)
  | [], i, _, _, _ => Or.inr ⟨⟨i, rfl⟩, by simp⟩
  | e :: es, i, hbad, hP, hs => by
    have he := hbad e List.mem_cons_self
    have hPe := hP e List.mem_cons_self
    obtain ⟨hhead, htail⟩ := List.pairwise_cons.1 hs
    rcases hc : cmp name e.1 with _ | _ | _
    · -- below the first key: below all of them
      refine Or.inr ⟨⟨i, by simp [scanKeys, he, hc]⟩, fun e' he' heq => ?_⟩
      have hlt : cmp name e'.1 = .lt := by
        rcases List.mem_cons.1 he' with rfl | he'
        · exact hc
        · exact o.trans hname hPe (hP e' (List.mem_cons_of_mem _ he')) hc (hhead e' he')
      rw [heq] at hlt
      exact o.irrefl hname hlt
    · refine Or.inl ⟨0, Nat.succ_pos _, by simp [scanKeys, he, hc], ?_⟩
      exact ((o.eq_iff hname hPe).1 hc).symm
    · have hstep : scanKeys (cmp name) bad ((e :: es).map fun e => e.1) i =
          scanKeys (cmp name) bad (es.map fun e => e.1) (i + 1) := by
        simp [scanKeys, he, hc]
      rcases scanKeys_find o hname es (i + 1) (fun e he => hbad e (List.mem_cons_of_mem _ he))
        (fun e he => hP e (List.mem_cons_of_mem _ he)) htail with ⟨j, hj, h₁, h₂⟩ | ⟨⟨j, h₁⟩, h₂⟩
      · refine Or.inl ⟨j + 1, Nat.succ_lt_succ hj, ?_, h₂⟩
        rw [hstep, h₁, show i + 1 + j = i + (j + 1) by omega]
      · refine Or.inr ⟨⟨j, by rw [hstep, h₁]⟩, fun e' he' heq => ?_⟩
        rcases List.mem_cons.1 he' with rfl | he'
        · rw [(o.eq_iff hname hPe).2 heq.symm] at hc
          cases hc
        · exact h₂ e' he' heq

end

/-! ## Well-formed trees -/

/-- A node of the entries `es` at the offset `p` of a stream, inside the tree. -/
structure NodeAt (read : ℕ → Buf) (nodeSize maximum p : ℕ) (es : List Entry) : Prop where
  holds : Holds (read p) es
  fits : nodeUsed es ≤ nodeSize
  inside : p + nodeSize ≤ maximum
  names : ∀ e ∈ es, e.1.length ≤ kMaxName

/-- The nodes a stream holds: a leaf is one whose overflow link is none. -/
def treeStore (read : ℕ → Buf) (nodeSize maximum : ℕ) : Store Key ℕ where
  leaf p es := NodeAt read nodeSize maximum p es ∧ le 8 (read p) NodeField.kOverflowLink = kNullLink
  inner p es last := NodeAt read nodeSize maximum p es ∧
    le 8 (read p) NodeField.kOverflowLink = last ∧ last ≠ kNullLink

/-- The leaves are joined by their links, the first one after `prev`. -/
def Linked (read : ℕ → Buf) : ℕ → List (Leaf Key ℕ) → Prop
  | _, [] => True
  | prev, l :: ls => le 8 (read l.addr) NodeField.kLeftLink = prev ∧
      le 8 (read l.addr) NodeField.kRightLink = (ls.head?.map Leaf.addr).getD kNullLink ∧
      Linked read l.addr ls

/-- A tree of depth `depth` with the leaves `ls`, in a stream whose node at each
    offset is what `read` gives there. -/
structure TreeAt (cmp : Key → Key → Ordering) (P : Key → Prop) (read : ℕ → Buf) (h : TreeHeader)
    (depth : ℕ) (ls : List (Leaf Key ℕ)) : Prop where
  nodeSize : h.nodeSize ≤ kTreeNodeSize
  maximum : h.maximum < 2 ^ 64
  tree : ∃ ns, Subtree cmp P (treeStore read h.nodeSize h.maximum) depth none none h.root ls ns
  links : Linked read kNullLink ls

theorem subtree_inside {cmp : Key → Key → Ordering} {P : Key → Prop} {read : ℕ → Buf}
    {nodeSize maximum d p : ℕ} {lo hi : Option Key} {ls : List (Leaf Key ℕ)} {ns : List ℕ}
    (h : Subtree cmp P (treeStore read nodeSize maximum) d lo hi p ls ns) : p + nodeSize ≤ maximum := by
  cases d with
  | zero =>
    obtain ⟨es, hl, -⟩ := h
    exact hl.1.inside
  | succ d =>
    obtain ⟨es, last, ns', hin, -⟩ := h
    exact hin.1.inside

section
variable {read : ℕ → Buf} {nodeSize maximum p : ℕ} {es : List Entry}
variable (hsize : nodeSize ≤ kTreeNodeSize) (hmax : maximum < 2 ^ 64)
variable (hn : NodeAt read nodeSize maximum p es)
include hn

include hsize in
theorem NodeAt.length_le : es.length ≤ 406 := by
  have hal := keyAlign_ge (NodeField.kFixed + keyBytes es)
  have hf := hn.fits
  rw [nodeUsed] at hf
  simp only [kTreeNodeSize, NodeField.kFixed] at hsize hal hf
  omega

include hmax in
theorem NodeAt.lt_free : p < kFreeLink := by
  have hal := keyAlign_ge (NodeField.kFixed + keyBytes es)
  have hf := hn.fits
  have hi := hn.inside
  rw [nodeUsed] at hf
  simp only [NodeField.kFixed, kFreeLink] at hal hf ⊢
  omega

include hmax in
theorem NodeAt.inside_mod : ¬ maximum < (p + nodeSize) % 2 ^ 64 := by
  have hi := hn.inside
  omega

variable {name : Key}

theorem dirFindFrom_node (hsize : nodeSize ≤ kTreeNodeSize) (hmax : maximum < 2 ^ 64) (depth : ℕ) :
    dirFindFrom read nodeSize maximum name (depth + 1) p =
      match scanKeys (keyCompare name) (kMaxName < ·) (es.map fun e => e.1) 0 with
      | none => none
      | some (child, equal) =>
        if le 8 (read p) NodeField.kOverflowLink = kNullLink then
          if equal then some (valueAt (read p) es.length child)
          else
            let right := le 8 (read p) NodeField.kRightLink
            if right = kNullLink ∨ right = kFreeLink then none
            else dirFindFrom read nodeSize maximum name depth right
        else dirFindFrom read nodeSize maximum name depth
          (if child = es.length then le 8 (read p) NodeField.kOverflowLink
            else valueAt (read p) es.length child) := by
  have hlen := hn.length_le hsize
  have hcount := hn.holds.count
  rw [dirFindFrom, if_neg (hn.inside_mod hmax)]
  simp only [hcount, hn.holds.nodeKeyLengths, hn.holds.readKeys]
  rw [if_neg (by omega)]
  rfl

end

/-! ## Finding a name in a well-formed tree -/

section
variable {read : ℕ → Buf} {nodeSize maximum : ℕ} {name : Key}
variable (hsize : nodeSize ≤ kTreeNodeSize) (hmax : maximum < 2 ^ 64)
include hsize hmax

theorem dirFindFrom_inner {p last : ℕ} {es : List Entry} (fuel : ℕ)
    (h : (treeStore read nodeSize maximum).inner p es last) :
    dirFindFrom read nodeSize maximum name (fuel + 1) p =
      dirFindFrom read nodeSize maximum name fuel (route keyCompare name es last) := by
  obtain ⟨hn, ho, hne⟩ := h
  have hbad : ∀ e ∈ es, decide (kMaxName < e.1.length) = false := fun e he => by
    have := hn.names e he
    simp only [decide_eq_false_iff_not]; omega
  obtain ⟨j, equal, h₁, h₂, h₃⟩ := scanKeys_route keyCompare (kMaxName < ·) name last es 0 hbad
  have hchild : (if j = es.length then last else
      valueAt (read p) es.length j) = route keyCompare name es last := by
    rw [← h₃]
    split_ifs with hj
    · rw [hj, List.getD_eq_default _ _ (by simp)]
    · have hlt : j < es.length := by omega
      rw [hn.holds.values j hlt, List.getD_eq_getElem _ _ (by simpa using hlt), List.getElem_map]
  rw [dirFindFrom_node hn hsize hmax, h₁, ← hchild]
  simp only [ho, hne, if_false, Nat.zero_add]

theorem dirFindFrom_descends {d p q : ℕ} (fuel : ℕ)
    (h : Descends (treeStore read nodeSize maximum)
      (route keyCompare name) d p q) :
    dirFindFrom read nodeSize maximum name (fuel + d) p =
      dirFindFrom read nodeSize maximum name fuel q := by
  induction h with
  | here => rfl
  | @down d p q last es hin _ ih =>
    rw [← Nat.add_assoc, dirFindFrom_inner hsize hmax (fuel + d) hin, ih]

theorem dirFindFrom_leaf {p : ℕ} {es : List Entry} (fuel : ℕ)
    (h : (treeStore read nodeSize maximum).leaf p es)
    (hs : Sorted keyCompare es) :
    (∃ e ∈ es, e.1 = name ∧ dirFindFrom read nodeSize maximum name (fuel + 1) p = some e.2) ∨
    ((∀ e ∈ es, e.1 ≠ name) ∧ dirFindFrom read nodeSize maximum name (fuel + 1) p =
      let right := le 8 (read p) NodeField.kRightLink
      if right = kNullLink ∨ right = kFreeLink then none
      else dirFindFrom read nodeSize maximum name fuel right) := by
  obtain ⟨hn, ho⟩ := h
  have hbad : ∀ e ∈ es, decide (kMaxName < e.1.length) = false := fun e he => by
    have := hn.names e he
    simp only [decide_eq_false_iff_not]; omega
  rw [dirFindFrom_node hn hsize hmax]
  rcases scanKeys_find (kMaxName < ·) keyCompare_order trivial es 0 hbad (fun _ _ => trivial) hs with
    ⟨j, hj, h₁, h₂⟩ | ⟨⟨j, h₁⟩, h₂⟩
  · refine Or.inl ⟨es[j], List.getElem_mem hj, h₂, ?_⟩
    simp only [h₁, ho, if_true, Nat.zero_add, hn.holds.values j hj]
  · refine Or.inr ⟨h₂, ?_⟩
    simp only [h₁, ho, if_true, Bool.false_eq_true, if_false]

theorem dirFindFrom_absent (ls : List (Leaf Key ℕ)) : ∀ {l : Leaf Key ℕ} {prev : ℕ} (fuel : ℕ),
    (∀ l' ∈ l :: ls, (treeStore read nodeSize
      maximum).leaf l'.addr l'.entries ∧ Sorted keyCompare l'.entries) →
    Linked read prev (l :: ls) →
    (∀ e ∈ contents (l :: ls), e.1 ≠ name) →
    dirFindFrom read nodeSize maximum name fuel l.addr = none := by
  induction ls with
  | nil =>
    intro l prev fuel hl hlink habs
    obtain ⟨hleaf, hs⟩ := hl l List.mem_cons_self
    cases fuel with
    | zero => rfl
    | succ fuel =>
      rcases dirFindFrom_leaf hsize hmax fuel hleaf hs with ⟨e, he, heq, -⟩ | ⟨-, hr⟩
      · exact absurd heq (habs e (by simp [he]))
      · rw [hr]
        exact if_pos (Or.inl hlink.2.1)
  | cons l' ls ih =>
    intro l prev fuel hl hlink habs
    obtain ⟨hleaf, hs⟩ := hl l List.mem_cons_self
    obtain ⟨hleaf', -⟩ := hl l' (by simp)
    have hlt := hleaf'.1.lt_free hmax
    have hright : le 8 (read l.addr) NodeField.kRightLink = l'.addr :=
      hlink.2.1
    cases fuel with
    | zero => rfl
    | succ fuel =>
      rcases dirFindFrom_leaf hsize hmax fuel hleaf hs with ⟨e, he, heq, -⟩ | ⟨-, hr⟩
      · exact absurd heq (habs e (by simp [he]))
      · rw [hr]
        simp only [hright]
        rw [if_neg (by simp only [kNullLink, kFreeLink] at hlt ⊢; omega)]
        refine ih fuel (fun l₁ h₁ => hl l₁ (List.mem_cons_of_mem _ h₁)) hlink.2.2 fun e he => ?_
        exact habs e (by rw [contents_cons]; exact List.mem_append_right _ he)

end

theorem Linked.drop {read : ℕ → Buf} {prev : ℕ} {pre ls : List (Leaf Key ℕ)}
    (h : Linked read prev (pre ++ ls)) : ∃ prev', Linked read prev' ls := by
  induction pre generalizing prev with
  | nil => exact ⟨prev, h⟩
  | cons l pre ih => exact ih h.2.2

/-- **A name is found exactly when some leaf holds it**, with its value. -/
theorem TreeAt.dirFindIn {read : ℕ → ℕ → Buf} {h : TreeHeader} {depth : ℕ} {ls : List (Leaf Key ℕ)}
    (ht : TreeAt keyCompare (fun _ => True) (fun off => read off h.nodeSize) h depth ls)
    (hd : depth ≤ 15) (hh : treeHeaderParse (read 0 TreeHeaderField.kBytes) = some h) (name : Key) :
    dirFindIn read name = (contents ls).lookup name := by
  obtain ⟨ns, hsub⟩ := ht.tree
  obtain ⟨pre, l, post, rfl, hdown, hpre, hpost⟩ :=
    hsub.descends_route keyCompare_order (fun _ _ => trivial) (fun _ _ => trivial) trivial
      (inRange_all name)
  have hleaves := hsub.leaves
  obtain ⟨hleaf, hs⟩ := hleaves l (by simp)
  have hfuel : 16 = 15 - depth + 1 + depth := by omega
  have hnone : ∀ es : List Entry, (∀ e ∈ es, e.1 ≠ name) → es.lookup name = none := by
    intro es hes
    exact List.lookup_eq_none_iff.2 fun e he => by simpa using fun hne => hes e he hne.symm
  have hpre' : (contents pre).lookup name = none := hnone _ fun e he heq =>
    keyCompare_order.irrefl trivial (heq ▸ hpre e he)
  have hpost' : ∀ e ∈ contents post, e.1 ≠ name := fun e he heq =>
    keyCompare_order.irrefl trivial (heq ▸ hpost e he)
  rw [contents_append, contents_cons, List.lookup_append, hpre', Option.none_or, List.lookup_append,
    hnone _ hpost', Option.or_none, Bfs.dirFindIn, hh]
  simp only
  rw [hfuel, dirFindFrom_descends ht.nodeSize ht.maximum _ hdown]
  rcases dirFindFrom_leaf ht.nodeSize ht.maximum (15 - depth) hleaf hs with
    ⟨e, he, heq, hfound⟩ | ⟨habs, -⟩
  · rw [hfound, ← heq, hs.lookup keyCompare_order (fun _ _ => trivial) e he]
  · -- not in the one leaf it could be in, so in none of those along the links
    obtain ⟨prev, hlink⟩ := ht.links.drop
    rw [hnone _ habs]
    refine dirFindFrom_absent ht.nodeSize ht.maximum post _ (fun l' hl' => hleaves l' (by simp_all))
      hlink fun e he => ?_
    rw [contents_cons] at he
    exact (List.mem_append.1 he).elim (habs e) (hpost' e)

section
variable {w : World} {dir : Inode} {h : TreeHeader} {depth : ℕ} {ls : List (Leaf Key ℕ)}
variable (ht : TreeAt keyCompare (fun _ => True) (fun off => readStream w dir.data off h.nodeSize) h
  depth ls)
include ht

theorem TreeAt.dirFind (hd : depth ≤ 15) (hh : nodeHeader w dir = some h) (name : Key) :
    dirFind w dir name = (contents ls).lookup name := ht.dirFindIn hd hh name

end

/-! ## Enumerating a well-formed tree -/

/-- The `i`th entry of the leaves, when its key ends inside a block. -/
def entryInBlock (g : Geometry) : List (Leaf Key ℕ) → ℕ → Option Entry
  | [], _ => none
  | l :: ls, i =>
    if i < l.entries.length then
      if g.blockSize < NodeField.kFixed + keyStart l.entries (i + 1) then none else l.entries[i]?
    else entryInBlock g ls (i - l.entries.length)

theorem Holds.nodeKey {b : Buf} {es : List Entry} (h : Holds b es) (g : Geometry)
    (hlen : es.length ≤ 512) {i : ℕ} (hi : i < es.length) (hname : es[i].1.length ≤ kMaxName) :
    nodeKey g b es.length i =
      if g.blockSize < NodeField.kFixed + keyStart es (i + 1) then none else some es[i].1 := by
  have hsum : ((es.map fun e => e.1.length).take i).sum = keyStart es i := by
    rw [keyStart, List.map_take]
  have hget : (es.map fun e => e.1.length).getD i 0 = es[i].1.length := by
    rw [List.getD_eq_getElem _ _ (by simpa using hi), List.getElem_map]
  rw [Bfs.nodeKey, if_neg (by omega), h.nodeKeyLengths]
  simp only [hsum, hget, h.keys i hi, keyStart_succ hi, ← Nat.add_assoc]
  simp only [Nat.not_lt.2 hname, false_or]

section
variable {w : World} {dir : Inode} {nodeSize maximum : ℕ}
variable (hsize : nodeSize ≤ kTreeNodeSize) (hmax : maximum < 2 ^ 64)
include hmax

theorem leftmost_leaf {p : ℕ} {es : List Entry} (fuel : ℕ)
    (h : (treeStore (fun off => readStream w dir.data off nodeSize) nodeSize maximum).leaf p es) :
    leftmost w dir nodeSize maximum fuel p = some p := by
  cases fuel with
  | zero => rfl
  | succ fuel =>
    rw [leftmost, if_neg (h.1.inside_mod hmax)]
    exact if_pos h.2

theorem leftmost_descends {d p q : ℕ} (fuel : ℕ)
    (h : Descends (treeStore (fun off => readStream w dir.data off nodeSize) nodeSize maximum)
      firstChild d p q) :
    leftmost w dir nodeSize maximum (fuel + d) p = leftmost w dir nodeSize maximum fuel q := by
  induction h with
  | here => rfl
  | @down d p q last es hin _ ih =>
    obtain ⟨hn, ho, hne⟩ := hin
    have hchild : (if 0 < es.length then
        le 8 (readStream w dir.data p nodeSize)
          (keyLengthsAt (readStream w dir.data p nodeSize) + es.length * 2)
        else last) = firstChild es last := by
      cases es with
      | nil => rfl
      | cons e es => exact hn.holds.values 0 (Nat.succ_pos _)
    rw [← ih, ← hchild, ← Nat.add_assoc, leftmost, if_neg (hn.inside_mod hmax)]
    simp only [ho, hne, if_false, hn.holds.count, hn.holds.nodeKeyLengths]

include hsize

theorem walkLeaves_leaf {p : ℕ} {es : List Entry} (fuel i : ℕ)
    (h : (treeStore (fun off => readStream w dir.data off nodeSize) nodeSize maximum).leaf p es) :
    walkLeaves w dir nodeSize maximum (fuel + 1) p i =
      if i < es.length then
        if w.vol.blockSize < NodeField.kFixed + keyStart es (i + 1) then none else es[i]?
      else
        let right := le 8 (readStream w dir.data p nodeSize) NodeField.kRightLink
        if right = kNullLink ∨ right = kFreeLink then none
        else walkLeaves w dir nodeSize maximum fuel right (i - es.length) := by
  obtain ⟨hn, ho⟩ := h
  have hlen := hn.length_le hsize
  have hcount := hn.holds.count
  rw [walkLeaves, if_neg (hn.inside_mod hmax)]
  simp only [ho, ne_eq, not_true_eq_false, if_false, hcount]
  by_cases hi : i < es.length
  · have hname := hn.names es[i] (List.getElem_mem hi)
    have hval := hn.holds.values i hi
    rw [valueAt] at hval
    rw [if_pos hi, if_pos hi, hn.holds.nodeKey _ (by omega) hi hname, hn.holds.nodeKeyLengths]
    simp only [hval]
    split_ifs
    · rfl
    · rw [List.getElem?_eq_getElem hi]; rfl
  · rw [if_neg hi, if_neg hi]

theorem walkLeaves_eq (ls : List (Leaf Key ℕ)) : ∀ {l : Leaf Key ℕ} {prev : ℕ} (fuel i : ℕ),
    (∀ l' ∈ l :: ls, (treeStore (fun off => readStream w dir.data off nodeSize) nodeSize
      maximum).leaf l'.addr l'.entries) →
    Linked (fun off => readStream w dir.data off nodeSize) prev (l :: ls) → ls.length < fuel →
    walkLeaves w dir nodeSize maximum fuel l.addr i = entryInBlock w.vol.toGeometry (l :: ls) i := by
  induction ls with
  | nil =>
    intro l prev fuel i hl hlink hfuel
    obtain ⟨fuel, rfl⟩ := Nat.exists_eq_succ_of_ne_zero (Nat.pos_iff_ne_zero.1 hfuel)
    have hright : le 8 (readStream w dir.data l.addr nodeSize) NodeField.kRightLink = kNullLink :=
      hlink.2.1
    rw [Nat.succ_eq_add_one, walkLeaves_leaf hsize hmax fuel i (hl l List.mem_cons_self)]
    simp only [hright, true_or, if_true, entryInBlock]
  | cons l' ls ih =>
    intro l prev fuel i hl hlink hfuel
    obtain ⟨fuel, rfl⟩ := Nat.exists_eq_succ_of_ne_zero (Nat.ne_of_gt (Nat.zero_lt_of_lt hfuel))
    have hright : le 8 (readStream w dir.data l.addr nodeSize) NodeField.kRightLink = l'.addr :=
      hlink.2.1
    have hlt := (hl l' (by simp)).1.lt_free hmax
    have hlive : ¬ (l'.addr = kNullLink ∨ l'.addr = kFreeLink) := by
      simp only [kNullLink, kFreeLink] at hlt ⊢; omega
    rw [Nat.succ_eq_add_one, walkLeaves_leaf hsize hmax fuel i (hl l List.mem_cons_self)]
    rw [entryInBlock, ← ih fuel (i - l.entries.length)
      (fun l₁ h₁ => hl l₁ (List.mem_cons_of_mem _ h₁)) hlink.2.2
      (Nat.lt_of_succ_lt_succ (by simpa using hfuel))]
    simp only [hright, hlive, if_false]

end

section
variable {w : World} {dir : Inode} {h : TreeHeader} {depth : ℕ} {ls : List (Leaf Key ℕ)}
variable (ht : TreeAt keyCompare (fun _ => True) (fun off => readStream w dir.data off h.nodeSize) h
  depth ls)
include ht

/-- **The entries come in order**, as far as their keys end inside a block. -/
theorem TreeAt.dirEntry (hd : depth ≤ 16) (hh : nodeHeader w dir = some h)
    (hroom : ls.length ≤ h.maximum / h.nodeSize + 2) (i : ℕ) :
    dirEntry w dir i = entryInBlock w.vol.toGeometry ls i := by
  obtain ⟨ns, hsub⟩ := ht.tree
  obtain ⟨l, post, rfl, hdown⟩ := hsub.descends_first
  have hleaves := hsub.leaves
  have hfuel : 16 = 16 - depth + depth := by omega
  rw [Bfs.dirEntry, hh]
  simp only
  rw [hfuel, leftmost_descends ht.maximum _ hdown,
    leftmost_leaf ht.maximum _ (hleaves l List.mem_cons_self).1]
  simp only
  exact walkLeaves_eq ht.nodeSize ht.maximum post _ i (fun l' hl' => (hleaves l' hl').1) ht.links
    (Nat.lt_of_lt_of_le (Nat.lt_succ_self _) hroom)

end

def InBlock (g : Geometry) (l : Leaf Key ℕ) : Prop :=
  NodeField.kFixed + keyBytes l.entries ≤ g.blockSize

/-- **The walk gives all entries exactly when every leaf's keys end inside a
    block.** -/
theorem entryInBlock_eq_iff {g : Geometry} (hg : NodeField.kFixed ≤ g.blockSize)
    (ls : List (Leaf Key ℕ)) :
    (∀ i, entryInBlock g ls i = (contents ls)[i]?) ↔ ∀ l ∈ ls, InBlock g l := by
  induction ls with
  | nil => simp [entryInBlock]
  | cons l ls ih =>
    rw [List.forall_mem_cons, ← ih]
    constructor
    · intro hall
      refine ⟨?_, fun i => ?_⟩
      · rcases List.eq_nil_or_concat l.entries with hnil | ⟨es, e, hes⟩
        · rw [InBlock, hnil]; simpa [keyBytes] using hg
        · -- the last entry of the leaf
          have hlen : es.length < l.entries.length := by rw [hes]; simp
          have hlast := hall es.length
          rw [entryInBlock, if_pos hlen, contents_cons, List.getElem?_append_left hlen,
            List.getElem?_eq_getElem hlen] at hlast
          have hstart : keyStart l.entries (es.length + 1) = keyBytes l.entries := by
            rw [← keyStart_length, hes]; simp
          rw [hstart] at hlast
          by_contra hc
          rw [if_pos (by unfold InBlock at hc; omega)] at hlast
          cases hlast
      · have h := hall (l.entries.length + i)
        rw [entryInBlock, if_neg (by omega), Nat.add_sub_cancel_left, contents_cons,
          List.getElem?_append_right (by omega), Nat.add_sub_cancel_left] at h
        exact h
    · rintro ⟨hl, hrest⟩ i
      rw [entryInBlock, contents_cons]
      split_ifs with hi hb
      · have := keyStart_le l.entries (i + 1)
        unfold InBlock at hl
        omega
      · rw [List.getElem?_append_left hi]
      · rw [List.getElem?_append_right (by omega)]
        exact hrest _

section
variable {w : World} {dir : Inode} {h : TreeHeader} {depth : ℕ} {ls : List (Leaf Key ℕ)}

theorem entryInBlock_some {g : Geometry} {i : ℕ} {e : Entry} (h : entryInBlock g ls i = some e) :
    (contents ls)[i]? = some e := by
  induction ls generalizing i with
  | nil => cases h
  | cons l ls ih =>
    rw [entryInBlock] at h
    rw [contents_cons]
    split_ifs at h with hi
    · rwa [List.getElem?_append_left hi]
    · rw [List.getElem?_append_right (Nat.le_of_not_lt hi)]
      exact ih h

def Agrees (w : World) (dir : Inode) : Prop :=
  ∀ name v, dirFind w dir name = some v ↔ ∃ i, dirEntry w dir i = some (name, v)

end

end Aegir.Bfs
