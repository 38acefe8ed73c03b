/-
  A node's operations as those of a sorted map (`bplustree.cc`: `node_find`,
  `node_entry`, `node_insert`, `node_remove`).
-/
import Aegir.Bfs.Edit
import Aegir.Lib.SortedList

namespace Aegir.Bfs

open Aegir.Lib Aegir.Lib.Buf Aegir.Lib.BTree

/-! ## Reading -/

/-- `node_find`: the value under the first key that compares equal. -/
def nodeFind (nodeSize dataType : ℕ) (b : Buf) (name : Key) : Option ℕ :=
  match nodeInfo b nodeSize with
  | none => none
  | some info => ((nodeEntries b info.count).find? fun e =>
      keyCompareTyped dataType e.1 name = .eq).map fun e => e.2

def decode (b : Buf) : List Entry := nodeEntries b (le 2 b NodeField.kKeyCount)

/-- The `i`th cumulative length. -/
def keyEnd (b : Buf) (i : ℕ) : ℕ := le 2 b (keyLengthsAt b + i * 2)

/-- The cumulative lengths ascend, and end at the length of all keys. -/
structure Packed (b : Buf) : Prop where
  ascend : ∀ i, i + 1 < le 2 b NodeField.kKeyCount → keyEnd b i ≤ keyEnd b (i + 1)
  last : ∀ i, i + 1 = le 2 b NodeField.kKeyCount → keyEnd b i = le 2 b NodeField.kAllKeyLength
  empty : le 2 b NodeField.kKeyCount = 0 → le 2 b NodeField.kAllKeyLength = 0

/-- A node that is accepted, packed, and whose keys ascend. -/
structure SortedNode (nodeSize dataType : ℕ) (b : Buf) : Prop where
  accepted : (nodeInfo b nodeSize).isSome = true
  packed : Packed b
  sorted : Sorted (keyCompareTyped dataType) (decode b)

def SameLinks (b b' : Buf) : Prop :=
  le 8 b' NodeField.kLeftLink = le 8 b NodeField.kLeftLink ∧
    le 8 b' NodeField.kRightLink = le 8 b NodeField.kRightLink ∧
    le 8 b' NodeField.kOverflowLink = le 8 b NodeField.kOverflowLink

section
variable {b : Buf} {es : List Entry} {i : ℕ}

theorem Holds.nodeEntries (h : Holds b es) : nodeEntries b es.length = es := by
  refine List.ext_getElem (by simp [Bfs.nodeEntries]) fun i h₁ h₂ => ?_
  simp only [Bfs.nodeEntries, List.getElem_map, List.getElem_range, h.keyAt h₂, h.values i h₂]

theorem Holds.decode (h : Holds b es) : decode b = es := by
  rw [Bfs.decode, h.count, h.nodeEntries]

theorem length_decode (b : Buf) : (decode b).length = le 2 b NodeField.kKeyCount := by
  simp [decode, nodeEntries]

theorem getElem_decode (h : i < (decode b).length) :
    (decode b)[i] = (keyAt b i, valueAt b (le 2 b NodeField.kKeyCount) i) := by
  simp [decode, nodeEntries]

/-- **A packed node reads as its entries.** -/
theorem Packed.holds (h : Packed b) : Holds b (decode b) := by
  have hlen := length_decode b
  have hend : ∀ i, keyEnd b i < 2 ^ 16 := fun i => (le_lt 2 b _).trans_eq (by norm_num)
  -- a key's length is the step from the cumulative length before
  have hkey : ∀ i (hi : i < (decode b).length), (decode b)[i].1.length =
      (keyEnd b i + 2 ^ 16 - (if i = 0 then 0 else keyEnd b (i - 1))) % 2 ^ 16 := by
    intro i hi
    rw [getElem_decode hi, keyAt, length_bytes]
    rfl
  have hstart : ∀ i ≤ (decode b).length, keyStart (decode b) i = if i = 0 then 0 else keyEnd b (i - 1) := by
    intro i
    induction i with
    | zero => exact fun _ => rfl
    | succ i ih =>
      intro hi
      have h₁ := hend i
      rw [keyStart_succ (by omega), ih (by omega), hkey i (by omega), if_neg (Nat.succ_ne_zero i),
        Nat.add_sub_cancel]
      by_cases h₀ : i = 0
      · rw [if_pos h₀]
        omega
      · have hstep := h.ascend (i - 1) (by omega)
        rw [Nat.sub_add_cancel (by omega)] at hstep
        rw [if_neg h₀]
        omega
  have hall : le 2 b NodeField.kAllKeyLength = keyBytes (decode b) := by
    rw [← keyStart_length, hstart _ (Nat.le_refl _), hlen]
    split_ifs with h₀
    · exact h.empty h₀
    · exact (h.last _ (by omega)).symm
  refine ⟨hlen.symm, hall, fun i hi => ?_, fun i hi => ?_, fun i hi => ?_⟩
  · rw [hstart i (by omega), hkey i hi, getElem_decode hi]
    rfl
  · rw [hstart (i + 1) (by omega), if_neg (Nat.succ_ne_zero i), Nat.add_sub_cancel]
    rfl
  · rw [getElem_decode hi, hlen]

theorem Holds.packed (h : Holds b es) : Packed b := by
  refine ⟨fun i hi => ?_, fun i hi => ?_, fun h₀ => ?_⟩
  · rw [h.count] at hi
    rw [keyEnd, keyEnd, h.ends i (by omega), h.ends (i + 1) hi, keyStart_succ hi]
    exact Nat.le_add_right _ _
  · rw [h.count] at hi
    rw [keyEnd, h.ends i (by omega), hi, keyStart_length, h.all]
  · rw [h.count] at h₀
    rw [h.all, List.eq_nil_of_length_eq_zero h₀]
    rfl

theorem keyStart_congr {es' : List Entry} (h : es.map (·.1) = es'.map (·.1)) (i : ℕ) :
    keyStart es i = keyStart es' i := by
  have hlen := congrArg (fun ks => ((ks.take i).map List.length).sum) h
  simp only [← List.map_take, List.map_map] at hlen
  exact hlen

theorem keyBytes_congr {es' : List Entry} (h : es.map (·.1) = es'.map (·.1)) : keyBytes es = keyBytes es' := by
  have hlen := congrArg (fun ks => (ks.map List.length).sum) h
  simp only [List.map_map] at hlen
  exact hlen

theorem keyBytes_append (es es' : List Entry) : keyBytes (es ++ es') = keyBytes es + keyBytes es' := by
  rw [keyBytes, List.map_append, List.sum_append, keyBytes, keyBytes]

theorem keyBytes_cons (e : Entry) (es : List Entry) : keyBytes (e :: es) = e.1.length + keyBytes es := by
  rw [keyBytes, List.map_cons, List.sum_cons, keyBytes]

theorem insertEntryAt_perm (es : List Entry) (i : ℕ) (e : Entry) : (insertEntryAt es i e).Perm (e :: es) := by
  have hm : (es.take i ++ e :: es.drop i).Perm (e :: (es.take i ++ es.drop i)) := List.perm_middle
  rwa [List.take_append_drop] at hm

theorem keyBytes_perm {es' : List Entry} (h : es.Perm es') : keyBytes es = keyBytes es' :=
  (h.map _).sum_nat

theorem nodeUsed_perm {es' : List Entry} (h : es.Perm es') : nodeUsed es = nodeUsed es' := by
  rw [nodeUsed, nodeUsed, keyBytes_perm h, h.length_eq]

theorem Holds.fits {nodeSize : ℕ} (h : Holds b es) (ha : (Bfs.nodeInfo b nodeSize).isSome = true) :
    nodeUsed es ≤ nodeSize := by
  obtain ⟨info, hinfo⟩ := Option.isSome_iff_exists.1 ha
  simp only [Bfs.nodeInfo, h.keyLengthsAt, h.count] at hinfo
  by_contra hnot
  rw [nodeUsed] at hnot
  rw [if_neg hnot] at hinfo
  split at hinfo
  · cases hinfo
  · cases hinfo

/-! ## Editing -/

theorem Holds.setValue {value : ℕ} (h : Holds b es) (hi : i < es.length) (hv : value < 2 ^ 64) :
    Holds (put 8 b (Bfs.keyLengthsAt b + es.length * 2 + i * 8) value) (es.set i (es[i].1, value)) := by
  have hal := keyAlign_ge (NodeField.kFixed + keyBytes es)
  have hat := h.keyLengthsAt
  have hfix : NodeField.kFixed = 28 := rfl
  have hcnt : NodeField.kKeyCount = 24 := rfl
  have hlenAt : NodeField.kAllKeyLength = 26 := rfl
  have hmap : (es.set i (es[i].1, value)).map (·.1) = es.map (·.1) := by
    refine List.ext_getElem (by simp) fun j h₁ h₂ => ?_
    rw [List.getElem_map, List.getElem_map, List.getElem_set]
    split_ifs with hij
    · simp only [hij]
    · rfl
  have hkey : ∀ j (hj : j < (es.set i (es[i].1, value)).length) (hj' : j < es.length),
      (es.set i (es[i].1, value))[j].1 = es[j].1 := by
    intro j hj hj'
    rw [List.getElem_set]
    split_ifs with hij
    · simp only [hij]
    · rfl
  have hall : le 2 (put 8 b (Bfs.keyLengthsAt b + es.length * 2 + i * 8) value) NodeField.kAllKeyLength =
      keyBytes es := by
    rw [le_put_of_disjoint (by omega), h.all]
  have hat' : Bfs.keyLengthsAt (put 8 b (Bfs.keyLengthsAt b + es.length * 2 + i * 8) value) =
      Bfs.keyLengthsAt b := by
    rw [Bfs.keyLengthsAt, hall, h.keyLengthsAt]
  refine ⟨?_, ?_, fun j hj => ?_, fun j hj => ?_, fun j hj => ?_⟩
  · rw [le_put_of_disjoint (by omega), h.count, List.length_set]
  · rw [hall, keyBytes_congr hmap]
  · have hj' : j < es.length := by simpa using hj
    have hs := keyStart_le es (j + 1)
    rw [keyStart_succ hj'] at hs
    rw [hkey j hj hj', keyStart_congr hmap]
    refine (bytes_congr fun k hk => put_of_notMem (by omega)).trans (h.keys j hj')
  · have hj' : j < es.length := by simpa using hj
    rw [hat', le_put_of_disjoint (by omega), h.ends j hj', keyStart_congr hmap]
  · have hj' : j < es.length := by simpa using hj
    rw [valueAt, hat', List.length_set, List.getElem_set]
    split_ifs with hij
    · subst hij
      rw [le_put_of_lt (by simpa using hv)]
    · rw [le_put_of_disjoint (by omega)]
      exact h.values j hj'

theorem nodeUsed_bounds {nodeSize : ℕ} (hsize : nodeSize ≤ kMaxBlockSize) (hfit : nodeUsed es ≤ nodeSize) :
    es.length < 2 ^ 16 ∧ keyBytes es < 2 ^ 16 := by
  have hal := keyAlign_ge (NodeField.kFixed + keyBytes es)
  rw [nodeUsed] at hfit
  simp only [kMaxBlockSize, NodeField.kFixed] at hsize hal hfit
  omega

theorem rebuildNode_holds {all : ℕ} (b : Buf) (hall : all = keyBytes es)
    (hbound : es.length < 2 ^ 16 ∧ keyBytes es < 2 ^ 16) (hv : ∀ e ∈ es, e.2 < 2 ^ 64) :
    Holds (rebuildNode b all es) es ∧ SameLinks b (rebuildNode b all es) := by
  subst hall
  have hlink : ∀ i, le 8 b i < 2 ^ 64 := fun i => (le_lt 8 b i).trans_eq (by norm_num)
  exact ⟨layNode_holds hbound.1 hbound.2 hv,
    le_layNode_links (hlink _) (hlink _) (hlink _) (Nat.le_refl _)⟩

theorem sameLinks_put {value at_ : ℕ} (hat : 24 ≤ at_) : SameLinks b (put 8 b at_ value) := by
  have h₁ : NodeField.kLeftLink = 0 := rfl
  have h₂ : NodeField.kRightLink = 8 := rfl
  have h₃ : NodeField.kOverflowLink = 16 := rfl
  exact ⟨le_put_of_disjoint (by omega), le_put_of_disjoint (by omega), le_put_of_disjoint (by omega)⟩

section
variable {nodeSize dataType value : ℕ} {name : Key} (h : Holds b es) (hfit : nodeUsed es ≤ nodeSize)
variable (hs : Sorted (keyCompareTyped dataType) es)

include hs in
theorem sorted_findIdx (hi : i < es.length) (hname : es[i].1 = name) :
    (es.findIdx fun e => keyCompareTyped dataType e.1 name = .eq) = i ∧
      (es.findIdx fun e => keyCompareTyped dataType e.1 name ≠ .lt) = i := by
  have hbelow : ∀ j (hj : j < i), keyCompareTyped dataType (es.get ⟨j, hj.trans hi⟩).1 name = .lt :=
    fun j hj => hname ▸ List.pairwise_iff_getElem.1 hs j i (hj.trans hi) hi hj
  have hself : keyCompareTyped dataType es[i].1 name = .eq := keyCompareTyped_eq_iff.2 hname
  refine ⟨(List.findIdx_eq hi).2 ⟨by simp [hself], fun j hj => ?_⟩,
    (List.findIdx_eq hi).2 ⟨by simp [hself], fun j hj => ?_⟩⟩
  · have := hbelow j hj
    simp only [List.get_eq_getElem] at this
    simp [this]
  · have := hbelow j hj
    simp only [List.get_eq_getElem] at this
    simp [this]

theorem find_eq_lookup (dataType : ℕ) (name : Key) (es : List Entry) :
    ((es.find? fun e => keyCompareTyped dataType e.1 name = .eq).map fun e => e.2) = es.lookup name := by
  induction es with
  | nil => rfl
  | cons e es ih =>
    by_cases heq : e.1 = name
    · rw [List.find?_cons_of_pos (by simp [keyCompareTyped_eq_iff.2 heq]), ← heq]
      simp [List.lookup]
    · rw [List.find?_cons_of_neg (by simpa using fun hc => heq (keyCompareTyped_eq_iff.1 hc)), ih,
        List.lookup, beq_false_of_ne (Ne.symm heq)]

include h hfit in
theorem nodeFind_eq : nodeFind nodeSize dataType b name = es.lookup name := by
  rw [nodeFind, h.nodeInfo hfit]
  simp only [h.nodeEntries]
  exact find_eq_lookup dataType name es

include h hfit hs in
theorem nodeInsert_present (hlen : ¬ (name.length = 0 ∨ kMaxKeyLength < name.length))
    (hi : i < es.length) (hname : es[i].1 = name) : nodeInsert nodeSize dataType b name value =
      some (put 8 b (keyLengthsAt b + es.length * 2 + i * 8) value, true) := by
  rw [nodeInsert, if_neg hlen, h.nodeInfo hfit]
  simp only [h.nodeEntries, (sorted_findIdx hs hi hname).2, List.getElem?_eq_getElem hi, Option.map_some,
    keyCompareTyped_eq_iff.2 hname, if_true]

include h hfit in
theorem nodeInsert_new (hlen : ¬ (name.length = 0 ∨ kMaxKeyLength < name.length))
    (habs : ∀ e ∈ es, e.1 ≠ name) : nodeInsert nodeSize dataType b name value =
      if nodeSize < nodeUsed ((name, value) :: es) then none
      else some (rebuildNode b (keyBytes es + name.length) (insertEntryAt es
        (es.findIdx fun e => keyCompareTyped dataType e.1 name ≠ .lt) (name, value)), false) := by
  have hne : ¬ (es[es.findIdx fun e => keyCompareTyped dataType e.1 name ≠ .lt]?.map fun e =>
      keyCompareTyped dataType e.1 name) = some .eq := by
    intro heq
    obtain ⟨e, he, hcmp⟩ := Option.map_eq_some_iff.1 heq
    exact habs e (List.mem_of_getElem? he) (keyCompareTyped_eq_iff.1 hcmp)
  rw [nodeInsert, if_neg hlen, h.nodeInfo hfit]
  simp only [h.nodeEntries]
  rw [if_neg hne, nodeUsed, keyBytes_cons, List.length_cons, Nat.add_comm name.length]

include h hfit hs in
theorem nodeRemove_present (hi : i < es.length) (hname : es[i].1 = name) :
    nodeRemove nodeSize dataType b name =
      some (rebuildNode b (keyBytes es - name.length) (es.eraseIdx i), true) := by
  rw [nodeRemove, h.nodeInfo hfit]
  simp only [h.nodeEntries, (sorted_findIdx hs hi hname).1, List.getElem?_eq_getElem hi, hname]

include h hfit in
theorem nodeRemove_absent (habs : ∀ e ∈ es, e.1 ≠ name) :
    nodeRemove nodeSize dataType b name = some (b, false) := by
  have hidx : (es.findIdx fun e => keyCompareTyped dataType e.1 name = .eq) = es.length :=
    List.findIdx_eq_length.2 fun e he => by
      simpa using fun hcmp => habs e he (keyCompareTyped_eq_iff.1 hcmp)
  rw [nodeRemove, h.nodeInfo hfit]
  simp only [h.nodeEntries, hidx, List.getElem?_eq_none (Nat.le_refl _)]

end

/-! ## A sorted map -/

theorem SortedNode.of_holds {nodeSize dataType : ℕ} (h : Holds b es) (hfit : nodeUsed es ≤ nodeSize)
    (hs : Sorted (keyCompareTyped dataType) es) : SortedNode nodeSize dataType b ∧ decode b = es :=
  ⟨⟨by rw [h.nodeInfo hfit]; rfl, h.packed, h.decode.symm ▸ hs⟩, h.decode⟩

/-- What an edit leaves: a sorted node with the same links, whose entries are looked up
    as `f` says. -/
structure Edited (nodeSize dataType : ℕ) (b b' : Buf) (f : Key → Option ℕ) : Prop where
  node : SortedNode nodeSize dataType b'
  links : SameLinks b b'
  lookup : ∀ k, (decode b').lookup k = f k

theorem nodeEntries_value_lt (b : Buf) (count : ℕ) : ∀ e ∈ nodeEntries b count, e.2 < 2 ^ 64 := by
  intro e he
  obtain ⟨i, -, rfl⟩ := List.mem_map.1 he
  exact (le_lt 8 b _).trans_eq (by norm_num)

theorem SortedNode.fits {nodeSize dataType : ℕ} (h : SortedNode nodeSize dataType b) :
    nodeUsed (decode b) ≤ nodeSize := h.packed.holds.fits h.accepted

theorem ne_of_lt {dataType : ℕ} {k k' : Key} (h : keyCompareTyped dataType k k' = .lt) : k ≠ k' := by
  rintro rfl
  rw [keyCompareTyped_eq_iff.2 rfl] at h
  cases h

section
variable {nodeSize dataType value w : ℕ} {name : Key} {pre post : List Entry}
variable (h : SortedNode nodeSize dataType b)
include h

theorem SortedNode.cut (hpres : ∃ e ∈ decode b, e.1 = name) : ∃ pre w post,
    decode b = pre ++ (name, w) :: post ∧ (∀ e ∈ pre, e.1 ≠ name) ∧ ∀ e ∈ post, e.1 ≠ name := by
  obtain ⟨e, he, rfl⟩ := hpres
  obtain ⟨pre, post, hes⟩ := List.append_of_mem he
  have hs := h.sorted
  rw [hes] at hs
  obtain ⟨-, h₂, h₃⟩ := List.pairwise_append.1 hs
  refine ⟨pre, e.2, post, hes, fun a ha => ne_of_lt (h₃ a ha e List.mem_cons_self), fun a ha => ?_⟩
  exact (ne_of_lt ((List.pairwise_cons.1 h₂).1 a ha)).symm

theorem nodeInsert_edits_present (hvalue : value < 2 ^ 64)
    (hlen : ¬ (name.length = 0 ∨ kMaxKeyLength < name.length)) (hpres : ∃ e ∈ decode b, e.1 = name) :
    ∃ b', nodeInsert nodeSize dataType b name value = some (b', true) ∧ Edited nodeSize dataType b b'
      fun k => if k = name then some value else (decode b).lookup k := by
  obtain ⟨pre, w, post, hes, hpre, -⟩ := h.cut hpres
  have hh := h.packed.holds
  have hfit := h.fits
  have hs := h.sorted
  rw [hes] at hh hfit hs
  have hi : pre.length < (pre ++ (name, w) :: post).length := by simp
  have hget : (pre ++ (name, w) :: post)[pre.length] = (name, w) := by simp
  have hset := hh.setValue hi hvalue
  rw [hget, show (pre ++ (name, w) :: post).set pre.length (name, value) = pre ++ (name, value) :: post by
    simp] at hset
  have hused : nodeUsed (pre ++ (name, value) :: post) = nodeUsed (pre ++ (name, w) :: post) := by
    simp only [nodeUsed, keyBytes_append, keyBytes_cons, List.length_append, List.length_cons]
  obtain ⟨hnode, hdecode⟩ := SortedNode.of_holds hset (hused.trans_le hfit) hs.replace
  have hat := keyAlign_ge (NodeField.kFixed + keyBytes (pre ++ (name, w) :: post))
  refine ⟨_, nodeInsert_present hh hfit hs hlen hi (by rw [hget]), hnode, sameLinks_put ?_, fun k => ?_⟩
  · rw [hh.keyLengthsAt]
    simp only [NodeField.kFixed] at hat ⊢
    omega
  · rw [hdecode, hes]
    by_cases hk : k = name
    · rw [if_pos hk, hk, lookup_cut hpre]
    · rw [if_neg hk, lookup_cut_ne hk, lookup_cut_ne hk]

theorem nodeInsert_edits_new (hsize : nodeSize ≤ kMaxBlockSize) (hvalue : value < 2 ^ 64)
    (hlen : ¬ (name.length = 0 ∨ kMaxKeyLength < name.length)) (habs : ∀ e ∈ decode b, e.1 ≠ name)
    (hkeys : ∀ e ∈ decode b, KeyOf dataType e.1) (hname : KeyOf dataType name)
    (hroom : nodeUsed ((name, value) :: decode b) ≤ nodeSize) :
    ∃ b', nodeInsert nodeSize dataType b name value = some (b', false) ∧ Edited nodeSize dataType b b'
      fun k => if k = name then some value else (decode b).lookup k := by
  have hh := h.packed.holds
  have hrun : nodeInsert nodeSize dataType b name value = _ := nodeInsert_new hh h.fits hlen habs
  rw [if_neg (by omega)] at hrun
  have hbelow := below (keyCompareTyped dataType) (decode b) name
  have habove := h.sorted.above (keyOrder dataType) hkeys hname fun e he heq =>
    habs e (List.mem_of_getElem? he) (keyCompareTyped_eq_iff.1 heq)
  generalize (decode b).findIdx (fun e => keyCompareTyped dataType e.1 name ≠ .lt) = i at hrun hbelow habove
  have hperm := insertEntryAt_perm (decode b) i (name, value)
  have hbytes : keyBytes (decode b) + name.length = keyBytes (insertEntryAt (decode b) i (name, value)) := by
    rw [keyBytes_perm hperm, keyBytes_cons, Nat.add_comm]
  have hfit : nodeUsed (insertEntryAt (decode b) i (name, value)) ≤ nodeSize := (nodeUsed_perm hperm).trans_le hroom
  have hval : ∀ e ∈ insertEntryAt (decode b) i (name, value), e.2 < 2 ^ 64 := by
    intro e he
    rcases List.mem_cons.1 (hperm.subset he) with rfl | he
    · exact hvalue
    · exact nodeEntries_value_lt b _ e he
  have hs : Sorted (keyCompareTyped dataType) (insertEntryAt (decode b) i (name, value)) :=
    Sorted.insert (by rw [List.take_append_drop]; exact h.sorted) hbelow habove
  obtain ⟨hnew, hlinks⟩ := rebuildNode_holds b hbytes (nodeUsed_bounds hsize hfit) hval
  obtain ⟨hnode, hdecode⟩ := SortedNode.of_holds hnew hfit hs
  refine ⟨_, hrun, hnode, hlinks, fun k => ?_⟩
  rw [hdecode, insertEntryAt]
  by_cases hk : k = name
  · rw [if_pos hk, hk, lookup_cut fun e he => ne_of_lt (hbelow e he)]
  · rw [if_neg hk, lookup_cut_ne hk, List.take_append_drop]

theorem nodeRemove_edits_present (hsize : nodeSize ≤ kMaxBlockSize) (hpres : ∃ e ∈ decode b, e.1 = name) :
    ∃ b', nodeRemove nodeSize dataType b name = some (b', true) ∧ Edited nodeSize dataType b b'
      fun k => if k = name then none else (decode b).lookup k := by
  obtain ⟨pre, w, post, hes, hpre, hpost⟩ := h.cut hpres
  have hh := h.packed.holds
  have hfit := h.fits
  have hs := h.sorted
  have hval : ∀ e ∈ decode b, e.2 < 2 ^ 64 := nodeEntries_value_lt b _
  rw [hes] at hh hfit hs hval
  have hi : pre.length < (pre ++ (name, w) :: post).length := by simp
  have hget : (pre ++ (name, w) :: post)[pre.length] = (name, w) := by simp
  have hrun := nodeRemove_present hh hfit hs hi (by rw [hget])
  rw [List.eraseIdx_append_of_length_le (Nat.le_refl _), Nat.sub_self, List.eraseIdx_cons_zero] at hrun
  have hbytes : keyBytes (pre ++ (name, w) :: post) - name.length = keyBytes (pre ++ post) := by
    have hcons : keyBytes ((name, w) :: post) = name.length + keyBytes post := keyBytes_cons _ _
    rw [keyBytes_append, keyBytes_append, hcons]
    omega
  have hless : nodeUsed (pre ++ post) ≤ nodeSize := by
    have hcons : keyBytes ((name, w) :: post) = name.length + keyBytes post := keyBytes_cons _ _
    have hmono := keyAlign_mono (u := NodeField.kFixed + keyBytes (pre ++ post))
      (v := NodeField.kFixed + keyBytes (pre ++ (name, w) :: post)) (by
        rw [keyBytes_append, keyBytes_append, hcons]; omega)
    rw [nodeUsed] at hfit ⊢
    simp only [List.length_append, List.length_cons] at hfit ⊢
    omega
  have hsub : (pre ++ post).Sublist (pre ++ (name, w) :: post) :=
    List.Sublist.append_left (List.sublist_cons_self _ _) pre
  obtain ⟨hnew, hlinks⟩ := rebuildNode_holds b hbytes (nodeUsed_bounds hsize hless)
    fun e he => hval e (hsub.subset he)
  obtain ⟨hnode, hdecode⟩ := SortedNode.of_holds hnew hless (hs.sublist hsub)
  refine ⟨_, hrun, hnode, hlinks, fun k => ?_⟩
  rw [hdecode, hes]
  by_cases hk : k = name
  · rw [if_pos hk, hk]
    exact lookup_eq_none fun e he => (List.mem_append.1 he).elim (hpre e) (hpost e)
  · rw [if_neg hk, lookup_cut_ne hk]

end

end

section
variable {nodeSize dataType : ℕ} {b : Buf}

theorem lookup_isSome_iff {b : Buf} {name : Key} : ((decode b).lookup name).isSome = true ↔ ∃ e ∈ decode b, e.1 = name := by
  rw [List.lookup_isSome_iff]
  constructor
  · rintro ⟨e, he, heq⟩
    exact ⟨e, he, (beq_iff_eq.1 heq).symm⟩
  · rintro ⟨e, he, heq⟩
    exact ⟨e, he, beq_iff_eq.2 heq.symm⟩

/-- **A node's operations are those of a sorted map**: a key is found as it is looked
    up, an entry is listed in its place, an insertion replaces a value or puts the key
    where it belongs and fails only for want of room or for the key's length, and a
    removal takes out that key; what is left is such a node again, with the same links. -/
theorem node_sortedMap (hsize : nodeSize ≤ kMaxBlockSize) (h : SortedNode nodeSize dataType b) (name : Key)
    (value : ℕ) (hvalue : value < 2 ^ 64) :
    nodeFind nodeSize dataType b name = (decode b).lookup name ∧
    (∀ i, (decode b).length ≤ i → nodeEntry b nodeSize i = none) ∧
    (∀ i (hi : i < (decode b).length), (decode b)[i].1.length ≤ kMaxName →
      nodeEntry b nodeSize i = some (decode b)[i]) ∧
    (nodeInsert nodeSize dataType b name value = none ↔
      (name.length = 0 ∨ kMaxKeyLength < name.length) ∨
        (decode b).lookup name = none ∧ nodeSize < nodeUsed ((name, value) :: decode b)) ∧
    (∀ b' existed, nodeInsert nodeSize dataType b name value = some (b', existed) →
      existed = ((decode b).lookup name).isSome ∧
      ((existed = false → KeyOf dataType name ∧ ∀ e ∈ decode b, KeyOf dataType e.1) →
        Edited nodeSize dataType b b' fun k => if k = name then some value else (decode b).lookup k)) ∧
    ∃ b' removed, nodeRemove nodeSize dataType b name = some (b', removed) ∧
      removed = ((decode b).lookup name).isSome ∧
      Edited nodeSize dataType b b' fun k => if k = name then none else (decode b).lookup k := by
  have hh := h.packed.holds
  have hfit := h.fits
  refine ⟨nodeFind_eq hh hfit, fun i hi => ?_, fun i hi hlen => hh.nodeEntry hfit hi hlen, ?_, ?_, ?_⟩
  · rw [nodeEntry, hh.nodeInfo hfit]
    exact if_pos (Or.inl hi)
  · by_cases hlen : name.length = 0 ∨ kMaxKeyLength < name.length
    · exact iff_of_true (if_pos hlen) (Or.inl hlen)
    · by_cases hpres : ∃ e ∈ decode b, e.1 = name
      · obtain ⟨b', hrun, -⟩ := nodeInsert_edits_present h hvalue hlen hpres
        have hsome := lookup_isSome_iff.2 hpres
        rw [hrun]
        refine iff_of_false (by simp) ?_
        rintro (hbad | ⟨hnone, -⟩)
        · exact hlen hbad
        · rw [hnone] at hsome
          cases hsome
      · have habs : ∀ e ∈ decode b, e.1 ≠ name := fun e he heq => hpres ⟨e, he, heq⟩
        rw [nodeInsert_new hh hfit hlen habs, lookup_eq_none habs]
        split_ifs with hroom
        · exact iff_of_true rfl (Or.inr ⟨rfl, hroom⟩)
        · refine iff_of_false (by simp) ?_
          rintro (hbad | ⟨-, hless⟩)
          · exact hlen hbad
          · exact hroom hless
  · intro b' existed hrun
    by_cases hlen : name.length = 0 ∨ kMaxKeyLength < name.length
    · rw [nodeInsert, if_pos hlen] at hrun
      cases hrun
    by_cases hpres : ∃ e ∈ decode b, e.1 = name
    · obtain ⟨b₁, hrun₁, hedit⟩ := nodeInsert_edits_present h hvalue hlen hpres
      rw [hrun₁] at hrun
      cases hrun
      exact ⟨(lookup_isSome_iff.2 hpres).symm, fun _ => hedit⟩
    · have habs : ∀ e ∈ decode b, e.1 ≠ name := fun e he heq => hpres ⟨e, he, heq⟩
      have hrun' := hrun
      rw [nodeInsert_new hh hfit hlen habs] at hrun'
      split_ifs at hrun' with hroom
      cases hrun'
      rw [lookup_eq_none habs]
      refine ⟨rfl, fun hkeys => ?_⟩
      obtain ⟨hname, hall⟩ := hkeys rfl
      obtain ⟨b₁, hrun₁, hedit⟩ := nodeInsert_edits_new h hsize hvalue hlen habs hall hname (by omega)
      rw [hrun₁] at hrun
      cases hrun
      exact hedit
  · by_cases hpres : ∃ e ∈ decode b, e.1 = name
    · obtain ⟨b', hrun, hedit⟩ := nodeRemove_edits_present h hsize hpres
      exact ⟨b', true, hrun, (lookup_isSome_iff.2 hpres).symm, hedit⟩
    · have habs : ∀ e ∈ decode b, e.1 ≠ name := fun e he heq => hpres ⟨e, he, heq⟩
      refine ⟨b, false, nodeRemove_absent hh hfit habs, by rw [lookup_eq_none habs]; rfl,
        h, ⟨rfl, rfl, rfl⟩, fun k => ?_⟩
      by_cases hk : k = name
      · rw [if_pos hk, hk, lookup_eq_none habs]
      · rw [if_neg hk]

/-! ## Keys of another length -/

def mixedEntries : List Entry := [([1, 0, 0, 0], 1), ([0, 1, 0, 0], 2)]

theorem mixed_node : SortedNode kTreeNodeSize kTreeInt32Type
    (buildNode true kNullLink kNullLink kNullLink mixedEntries) ∧
    decode (buildNode true kNullLink kNullLink kNullLink mixedEntries) = mixedEntries :=
  SortedNode.of_holds (layNode_holds (by decide) (by decide) (by decide)) (by decide)
    (by unfold Sorted; decide)

def longEntries : List Entry := [(List.replicate 256 97, 1)]

set_option maxRecDepth 20000 in
theorem long_node : SortedNode kTreeNodeSize kTreeStringType
    (buildNode true kNullLink kNullLink kNullLink longEntries) ∧
    decode (buildNode true kNullLink kNullLink kNullLink longEntries) = longEntries :=
  SortedNode.of_holds (layNode_holds (by decide) (by decide) (by decide)) (by decide)
    (List.pairwise_singleton _ _)

theorem node_sortedMap_sample :
    nodeFind kTreeNodeSize kTreeInt32Type (buildNode true kNullLink kNullLink kNullLink mixedEntries)
      [0, 1, 0, 0] = some 2 := by
  have h := (node_sortedMap (by decide) mixed_node.1 [0, 1, 0, 0] 7 (by decide)).1
  rw [h, mixed_node.2]
  rfl

set_option maxRecDepth 20000 in
/-- **A key of two bytes** is below the one 32-bit key and above the other, bytewise, and these
    are in the order of their numbers; and a key of 256 bytes is never listed. -/
theorem node_mixed :
    (∃ b, SortedNode kTreeNodeSize kTreeInt32Type b ∧ ∃ b',
      nodeInsert kTreeNodeSize kTreeInt32Type b [0, 2] 3 = some (b', false) ∧
      ¬ Sorted (keyCompareTyped kTreeInt32Type) (decode b')) ∧
    ∃ b, SortedNode kTreeNodeSize kTreeStringType b ∧ decode b = longEntries ∧
      nodeEntry b kTreeNodeSize 0 = none := by
  constructor
  · obtain ⟨hnode, hdecode⟩ := mixed_node
    have hh := hnode.packed.holds
    have hfit := hnode.fits
    rw [hdecode] at hh hfit
    have hrun : nodeInsert kTreeNodeSize kTreeInt32Type _ [0, 2] 3 = _ :=
      nodeInsert_new hh hfit (by decide) (by decide)
    rw [if_neg (by decide)] at hrun
    refine ⟨_, hnode, _, hrun, ?_⟩
    rw [(rebuildNode_holds _ (by decide) (by decide) (by decide)).1.decode, Sorted]
    decide
  · obtain ⟨hnode, hdecode⟩ := long_node
    refine ⟨_, hnode, hdecode, ?_⟩
    have hh := hnode.packed.holds
    have hfit := hnode.fits
    rw [hdecode] at hh hfit
    rw [nodeEntry, hh.nodeInfo hfit]
    refine if_pos (Or.inr ?_)
    rw [hh.keyAt (by decide)]
    decide

end

end Aegir.Bfs
