/-
  The Be File System's B+tree nodes (`aegir/bfs/bplustree.h`, `bplustree.cc`):
  the tree header, the order of keys, and reading and rebuilding one node.

  A node is its fixed part, the keys packed in order, an array of cumulative key
  lengths at an eight-byte boundary, and an array of values.  `layNode` lays one
  out; `Holds b es` says that the buffer `b` reads as a node of the entries `es`.
-/
import Aegir.Bfs.Stream
import Aegir.Lib.KeyOrder

namespace Aegir.Bfs

open Aegir.Lib Aegir.Lib.Buf

abbrev Key := List UInt8

def kTreeMagic : ℕ := 0x69f6c2e8
def kTreeNodeSize : ℕ := 4096
def kMaxKeyLength : ℕ := 256
/-- The end of a tree's links, `-1` as 64 bits. -/
def kNullLink : ℕ := 2 ^ 64 - 1
/-- The link of a free node, `-2` as 64 bits. -/
def kFreeLink : ℕ := 2 ^ 64 - 2

def kTreeStringType : ℕ := 0
def kTreeInt32Type : ℕ := 1
def kTreeUInt32Type : ℕ := 2
def kTreeInt64Type : ℕ := 3
def kTreeUInt64Type : ℕ := 4

/-! The tree header's field offsets. -/
namespace TreeHeaderField

def kMagic : ℕ := 0
def kNodeSize : ℕ := 4
def kMaxLevels : ℕ := 8
def kDataType : ℕ := 12
def kRootNode : ℕ := 16
def kFreeNode : ℕ := 24
def kMaximumSize : ℕ := 32
def kBytes : ℕ := 40

end TreeHeaderField

/-! A node's field offsets. -/
namespace NodeField

def kLeftLink : ℕ := 0
def kRightLink : ℕ := 8
def kOverflowLink : ℕ := 16
def kKeyCount : ℕ := 24
def kAllKeyLength : ℕ := 26
def kFixed : ℕ := 28

end NodeField

def keyAlign (value : ℕ) : ℕ := (value + 7) / 8 * 8

/-! ## The tree header -/

structure TreeHeader where
  nodeSize : ℕ
  maxLevels : ℕ
  dataType : ℕ
  root : ℕ
  freeNode : ℕ
  maximum : ℕ
deriving DecidableEq

def treeHeaderParse (b : Buf) : Option TreeHeader :=
  if le 4 b TreeHeaderField.kMagic ≠ kTreeMagic then none else
  let h : TreeHeader := {
    nodeSize := le 4 b TreeHeaderField.kNodeSize
    maxLevels := le 4 b TreeHeaderField.kMaxLevels
    dataType := le 4 b TreeHeaderField.kDataType
    root := le 8 b TreeHeaderField.kRootNode
    freeNode := le 8 b TreeHeaderField.kFreeNode
    maximum := le 8 b TreeHeaderField.kMaximumSize }
  if h.nodeSize ≠ 0 ∧ h.nodeSize ≤ kMaxBlockSize then some h else none

def treeHeaderBuild (b : Buf) (h : TreeHeader) : Buf :=
  let b := put 4 b TreeHeaderField.kMagic kTreeMagic
  let b := put 4 b TreeHeaderField.kNodeSize h.nodeSize
  let b := put 4 b TreeHeaderField.kMaxLevels h.maxLevels
  let b := put 4 b TreeHeaderField.kDataType h.dataType
  let b := put 8 b TreeHeaderField.kRootNode h.root
  let b := put 8 b TreeHeaderField.kFreeNode h.freeNode
  put 8 b TreeHeaderField.kMaximumSize h.maximum

theorem treeHeaderParse_congr {a b : Buf} (h : ∀ j < TreeHeaderField.kBytes, a j = b j) :
    treeHeaderParse a = treeHeaderParse b := by
  have hle : ∀ w i, i + w ≤ 40 → le w a i = le w b i := fun w i hi =>
    le_congr fun k hk => h _ (by rw [show TreeHeaderField.kBytes = 40 from rfl]; omega)
  simp (disch := decide) only [treeHeaderParse, hle]

/-- **A header built parses to itself.** -/
theorem treeHeaderParse_build {b : Buf} {h : TreeHeader} (hn : h.nodeSize ≠ 0)
    (hn' : h.nodeSize ≤ kMaxBlockSize) (hl : h.maxLevels < 2 ^ 32) (hd : h.dataType < 2 ^ 32)
    (hr : h.root < 2 ^ 64) (hf : h.freeNode < 2 ^ 64) (hm : h.maximum < 2 ^ 64) :
    treeHeaderParse (treeHeaderBuild b h) = some h := by
  have hmb : kMaxBlockSize = 8192 := rfl
  have hmagic : kTreeMagic % 256 ^ 4 = kTreeMagic := by decide
  have h₁ : h.nodeSize % 256 ^ 4 = h.nodeSize := Nat.mod_eq_of_lt (by omega)
  have h₂ : h.maxLevels % 256 ^ 4 = h.maxLevels := Nat.mod_eq_of_lt (by omega)
  have h₃ : h.dataType % 256 ^ 4 = h.dataType := Nat.mod_eq_of_lt (by omega)
  have h₄ : h.root % 256 ^ 8 = h.root := Nat.mod_eq_of_lt (by omega)
  have h₅ : h.freeNode % 256 ^ 8 = h.freeNode := Nat.mod_eq_of_lt (by omega)
  have h₆ : h.maximum % 256 ^ 8 = h.maximum := Nat.mod_eq_of_lt (by omega)
  simp (disch := decide) only [treeHeaderParse, treeHeaderBuild, le_put_of_disjoint, le_put, hmagic,
    h₁, h₂, h₃, h₄, h₅, h₆]
  rw [if_neg (by simp), if_pos ⟨hn, hn'⟩]

/-! ## The order of keys -/

/-- `key_compare`: bytewise, a shorter prefix first. -/
def keyCompare : Key → Key → Ordering
  | [], [] => .eq
  | [], _ :: _ => .lt
  | _ :: _, [] => .gt
  | x :: a, y :: b => if x ≠ y then (if x < y then .lt else .gt) else keyCompare a b

/-- The number a key of `w` bytes holds. -/
def keyNumber (w : ℕ) (k : Key) : ℕ := le w (ofList k) 0

/-- A `w`-byte number as a signed one. -/
def signed (w v : ℕ) : ℤ := if v < 2 ^ (8 * w - 1) then v else v - 2 ^ (8 * w)

/-- `key_compare_typed`: the numeric types compare as numbers where the lengths
    are the type's; everything else compares as bytes. -/
def keyCompareTyped (dataType : ℕ) (a b : Key) : Ordering :=
  if dataType = kTreeInt32Type ∧ a.length = 4 ∧ b.length = 4 then
    compare (signed 4 (keyNumber 4 a)) (signed 4 (keyNumber 4 b))
  else if dataType = kTreeUInt32Type ∧ a.length = 4 ∧ b.length = 4 then
    compare (keyNumber 4 a) (keyNumber 4 b)
  else if dataType = kTreeInt64Type ∧ a.length = 8 ∧ b.length = 8 then
    compare (signed 8 (keyNumber 8 a)) (signed 8 (keyNumber 8 b))
  else if dataType = kTreeUInt64Type ∧ a.length = 8 ∧ b.length = 8 then
    compare (keyNumber 8 a) (keyNumber 8 b)
  else keyCompare a b

/-- The length of the keys of a numeric type. -/
def keyWidth (dataType : ℕ) : Option ℕ :=
  if dataType = kTreeInt32Type ∨ dataType = kTreeUInt32Type then some 4
  else if dataType = kTreeInt64Type ∨ dataType = kTreeUInt64Type then some 8
  else none

def KeyOf (dataType : ℕ) (k : Key) : Prop := ∀ w, keyWidth dataType = some w → k.length = w

theorem keyCompare_eq_iff : ∀ {a b : Key}, keyCompare a b = .eq ↔ a = b
  | [], [] => by simp [keyCompare]
  | [], _ :: _ => by simp [keyCompare]
  | _ :: _, [] => by simp [keyCompare]
  | x :: a, y :: b => by
    have ih := @keyCompare_eq_iff a b
    by_cases h : x = y
    · simp [keyCompare, h, ih]
    · simp only [keyCompare, ne_eq, h, not_false_eq_true, if_true, List.cons.injEq, false_and,
        iff_false]
      split <;> decide

theorem keyCompare_swap : ∀ a b : Key, keyCompare b a = (keyCompare a b).swap
  | [], [] => rfl
  | [], _ :: _ => rfl
  | _ :: _, [] => rfl
  | x :: a, y :: b => by
    by_cases h : x = y
    · simp [keyCompare, h, keyCompare_swap a b]
    · rcases UInt8.lt_or_lt_of_ne h with hlt | hlt
      · simp [keyCompare, h, Ne.symm h, hlt, UInt8.not_lt.2 (UInt8.le_of_lt hlt)]
      · simp [keyCompare, h, Ne.symm h, hlt, UInt8.not_lt.2 (UInt8.le_of_lt hlt)]

theorem keyCompare_trans : ∀ {a b c : Key}, keyCompare a b = .lt → keyCompare b c = .lt →
    keyCompare a c = .lt
  | [], _, [], h₁, h₂ => by
    rename_i b
    cases b <;> simp [keyCompare] at h₁ h₂
  | [], _, _ :: _, _, _ => rfl
  | _ :: _, [], _, h₁, _ => by simp [keyCompare] at h₁
  | _ :: _, _ :: _, [], _, h₂ => by simp [keyCompare] at h₂
  | x :: a, y :: b, z :: c, h₁, h₂ => by
    simp only [keyCompare, ne_eq, ite_not] at h₁ h₂ ⊢
    split_ifs at h₁ with hxy hlt₁
    · subst hxy
      split_ifs at h₂ with hyz hlt₂
      · rw [if_pos hyz]; exact keyCompare_trans h₁ h₂
      · rw [if_neg hyz, if_pos hlt₂]
    · have hxz : x < z := by
        split_ifs at h₂ with hyz hlt₂
        · exact hyz ▸ hlt₁
        · exact UInt8.lt_trans hlt₁ hlt₂
      rw [if_neg (UInt8.ne_of_lt hxz), if_pos hxz]

theorem keyCompare_order : KeyOrder keyCompare fun _ => True :=
  ⟨fun _ _ => keyCompare_eq_iff, fun _ _ => keyCompare_swap _ _, fun _ _ _ => keyCompare_trans⟩

theorem keyNumber_inj {w : ℕ} {a b : Key} (ha : a.length = w) (hb : b.length = w)
    (h : keyNumber w a = keyNumber w b) : a = b := by
  refine List.ext_getElem (by omega) fun k h₁ h₂ => ?_
  have := bytes_of_le_eq h k (by omega)
  rwa [Nat.zero_add, ofList_of_lt h₁, ofList_of_lt h₂] at this

theorem keyNumber_lt (w : ℕ) (k : Key) : keyNumber w k < 256 ^ w := le_lt w _ 0

theorem signed_inj {w u v : ℕ} (hu : u < 2 ^ (8 * w)) (hv : v < 2 ^ (8 * w))
    (h : signed w u = signed w v) : u = v := by
  have hu' : (u : ℤ) < (2 : ℤ) ^ (8 * w) := by exact_mod_cast hu
  have hv' : (v : ℤ) < (2 : ℤ) ^ (8 * w) := by exact_mod_cast hv
  unfold signed at h
  split_ifs at h <;> omega

theorem signed_keyNumber_inj {w : ℕ} {a b : Key} (ha : a.length = w) (hb : b.length = w)
    (h : signed w (keyNumber w a) = signed w (keyNumber w b)) : a = b := by
  refine keyNumber_inj ha hb (signed_inj ?_ ?_ h)
  · simpa only [Nat.pow_mul] using keyNumber_lt w a
  · simpa only [Nat.pow_mul] using keyNumber_lt w b

theorem keyOrder_of_rank {L : Type} [LinearOrder L] {dataType w : ℕ} (rank : Key → L)
    (hw : keyWidth dataType = some w)
    (hcmp : ∀ a b : Key, a.length = w → b.length = w →
      keyCompareTyped dataType a b = compare (rank a) (rank b))
    (hinj : ∀ a b : Key, a.length = w → b.length = w → rank a = rank b → a = b) :
    KeyOrder (keyCompareTyped dataType) (KeyOf dataType) :=
  KeyOrder.of_injOn rank (fun a b ha hb => hcmp a b (ha w hw) (hb w hw))
    fun a ha b hb h => hinj a b (ha w hw) (hb w hw) h

/-- **The comparison of a tree's type is an order on the keys of that type.** -/
theorem keyOrder (dataType : ℕ) : KeyOrder (keyCompareTyped dataType) (KeyOf dataType) := by
  by_cases h₁ : dataType = kTreeInt32Type
  · subst h₁
    exact keyOrder_of_rank (fun k => signed 4 (keyNumber 4 k)) rfl
      (fun a b ha hb => if_pos ⟨rfl, ha, hb⟩) fun a b ha hb h => signed_keyNumber_inj ha hb h
  by_cases h₂ : dataType = kTreeUInt32Type
  · subst h₂
    refine keyOrder_of_rank (keyNumber 4) rfl (fun a b ha hb => ?_) fun a b ha hb => keyNumber_inj ha hb
    rw [keyCompareTyped, if_neg (fun h => h₁ h.1), if_pos ⟨rfl, ha, hb⟩]
  by_cases h₃ : dataType = kTreeInt64Type
  · subst h₃
    refine keyOrder_of_rank (fun k => signed 8 (keyNumber 8 k)) rfl (fun a b ha hb => ?_)
      fun a b ha hb h => signed_keyNumber_inj ha hb h
    rw [keyCompareTyped, if_neg (fun h => h₁ h.1), if_neg (fun h => h₂ h.1), if_pos ⟨rfl, ha, hb⟩]
  by_cases h₄ : dataType = kTreeUInt64Type
  · subst h₄
    refine keyOrder_of_rank (keyNumber 8) rfl (fun a b ha hb => ?_) fun a b ha hb => keyNumber_inj ha hb
    rw [keyCompareTyped, if_neg (fun h => h₁ h.1), if_neg (fun h => h₂ h.1),
      if_neg (fun h => h₃ h.1), if_pos ⟨rfl, ha, hb⟩]
  · have hbytes : ∀ a b, keyCompareTyped dataType a b = keyCompare a b := by
      intro a b
      rw [keyCompareTyped, if_neg (fun h => h₁ h.1), if_neg (fun h => h₂ h.1),
        if_neg (fun h => h₃ h.1), if_neg (fun h => h₄ h.1)]
    refine ⟨fun _ _ => ?_, fun _ _ => ?_, fun _ _ _ => ?_⟩
    · rw [hbytes]; exact keyCompare_eq_iff
    · rw [hbytes, hbytes]; exact keyCompare_swap _ _
    · rw [hbytes, hbytes, hbytes]; exact keyCompare_trans

/-! ## Nodes -/

/-- A key with its value: an inode's block in a leaf, a child's offset above. -/
abbrev Entry := Key × ℕ

/-- Where the `i`th key starts, past the fixed part. -/
def keyStart (es : List Entry) (i : ℕ) : ℕ := ((es.take i).map fun e => e.1.length).sum

def keyBytes (es : List Entry) : ℕ := (es.map fun e => e.1.length).sum

def nodeUsed (es : List Entry) : ℕ := keyAlign (NodeField.kFixed + keyBytes es) + es.length * (2 + 8)

/-- Lay out a node: its links, the number of keys and their bytes, the keys
    packed in order, the cumulative lengths, the values. -/
def layNode (left right overflow allKeyLength : ℕ) (es : List Entry) : Buf :=
  let b := put 8 zero NodeField.kLeftLink left
  let b := put 8 b NodeField.kRightLink right
  let b := put 8 b NodeField.kOverflowLink overflow
  let b := put 2 b NodeField.kKeyCount es.length
  let b := put 2 b NodeField.kAllKeyLength allKeyLength
  let b := puts b NodeField.kFixed (es.flatMap fun e => e.1)
  let lengths := keyAlign (NodeField.kFixed + allKeyLength)
  let b := putArray 2 b lengths ((List.range es.length).map fun i => keyStart es (i + 1))
  putArray 8 b (lengths + es.length * 2) (es.map fun e => e.2)

def keyLengthsAt (b : Buf) : ℕ := keyAlign (NodeField.kFixed + le 2 b NodeField.kAllKeyLength)

/-- `key_at`: the stored lengths are cumulative, so a key starts where the one
    before ends. -/
def keyAt (b : Buf) (index : ℕ) : Key :=
  let finish := le 2 b (keyLengthsAt b + index * 2)
  let start := if index = 0 then 0 else le 2 b (keyLengthsAt b + (index - 1) * 2)
  bytes b (NodeField.kFixed + start) ((finish + 2 ^ 16 - start) % 2 ^ 16)

/-- The value under the `index`th of `count` keys. -/
def valueAt (b : Buf) (count index : ℕ) : ℕ := le 8 b (keyLengthsAt b + count * 2 + index * 8)

/-- A node's fixed facts; `used` is the bytes the entries occupy. -/
structure NodeInfo where
  count : ℕ
  allKeyLength : ℕ
  overflow : ℕ
  used : ℕ

def nodeInfo (b : Buf) (nodeSize : ℕ) : Option NodeInfo :=
  if nodeSize < NodeField.kFixed then none else
  let count := le 2 b NodeField.kKeyCount
  let used := keyLengthsAt b + count * (2 + 8)
  if used ≤ nodeSize then some {
    count, used
    allKeyLength := le 2 b NodeField.kAllKeyLength
    overflow := le 8 b NodeField.kOverflowLink }
  else none

/-- `node_entry`: the `index`th entry in key order. -/
def nodeEntry (b : Buf) (nodeSize index : ℕ) : Option Entry :=
  match nodeInfo b nodeSize with
  | none => none
  | some info =>
    if info.count ≤ index ∨ kMaxName < (keyAt b index).length then none
    else some (keyAt b index, valueAt b info.count index)

/-! ## What a node holds -/

/-- The buffer reads as a node of the entries `es`. -/
structure Holds (b : Buf) (es : List Entry) : Prop where
  count : le 2 b NodeField.kKeyCount = es.length
  all : le 2 b NodeField.kAllKeyLength = keyBytes es
  keys : ∀ i (h : i < es.length),
    bytes b (NodeField.kFixed + keyStart es i) es[i].1.length = es[i].1
  ends : ∀ i < es.length, le 2 b (keyLengthsAt b + i * 2) = keyStart es (i + 1)
  values : ∀ i (h : i < es.length), valueAt b es.length i = es[i].2

section
variable {es : List Entry} {b : Buf} {i : ℕ}

theorem keyStart_succ (h : i < es.length) :
    keyStart es (i + 1) = keyStart es i + es[i].1.length := by
  rw [keyStart, List.take_add_one, List.getElem?_eq_getElem h, Option.toList_some, List.map_append,
    List.sum_append, List.map_singleton, List.sum_singleton, keyStart]

theorem keyStart_length (es : List Entry) : keyStart es es.length = keyBytes es := by
  rw [keyStart, List.take_length, keyBytes]

theorem keyStart_le (es : List Entry) (i : ℕ) : keyStart es i ≤ keyBytes es := by
  have h : keyBytes es = keyStart es i + ((es.drop i).map (·.1.length)).sum := by
    rw [keyBytes, keyStart, ← List.sum_append, ← List.map_append, List.take_append_drop]
  rw [h]
  exact Nat.le_add_right _ _

theorem keyAlign_ge (v : ℕ) : v ≤ keyAlign v := by unfold keyAlign; omega

theorem keyAlign_mono {u v : ℕ} (h : u ≤ v) : keyAlign u ≤ keyAlign v := by unfold keyAlign; omega

theorem getElem_flatMap_keys (h : i < es.length) {k : ℕ} (hk : k < es[i].1.length) :
    (es.flatMap fun e => e.1)[keyStart es i + k]? = some es[i].1[k] := by
  induction es generalizing i with
  | nil => exact absurd h (Nat.not_lt_zero i)
  | cons e es ih =>
    cases i with
    | zero =>
      have hk' : k < e.1.length := hk
      rw [List.flatMap_cons, keyStart, List.take_zero, List.map_nil, List.sum_nil, Nat.zero_add,
        List.getElem?_append_left hk', List.getElem?_eq_getElem hk']
      rfl
    | succ i =>
      have hs : keyStart (e :: es) (i + 1) = e.1.length + keyStart es i := by simp [keyStart]
      rw [List.flatMap_cons, hs, List.getElem?_append_right (by omega),
        show e.1.length + keyStart es i + k - e.1.length = keyStart es i + k by omega]
      exact ih (Nat.lt_of_succ_lt_succ h) hk

theorem length_flatMap_keys (es : List Entry) :
    (es.flatMap fun e => e.1).length = keyBytes es := by
  rw [List.length_flatMap, keyBytes]

/-- **A node laid out reads as its entries.** -/
theorem layNode_holds {left right overflow : ℕ} (hcount : es.length < 2 ^ 16)
    (hall : keyBytes es < 2 ^ 16) (hval : ∀ e ∈ es, e.2 < 2 ^ 64) :
    Holds (layNode left right overflow (keyBytes es) es) es := by
  have hal := keyAlign_ge (NodeField.kFixed + keyBytes es)
  have hfix : NodeField.kFixed = 28 := rfl
  have hflat := length_flatMap_keys es
  have hcnt : ∀ w i, i + w ≤ 28 → le w (layNode left right overflow (keyBytes es) es) i =
      le w (put 2 (put 2 (put 8 (put 8 (put 8 zero NodeField.kLeftLink left) NodeField.kRightLink
        right) NodeField.kOverflowLink overflow) NodeField.kKeyCount es.length)
        NodeField.kAllKeyLength (keyBytes es)) i := by
    intro w i hi
    simp only [layNode]
    rw [le_putArray_of_disjoint (by omega), le_putArray_of_disjoint (by omega)]
    exact le_congr fun k hk => puts_of_notMem (by omega)
  have hcount' : le 2 (layNode left right overflow (keyBytes es) es) NodeField.kKeyCount =
      es.length := by
    rw [hcnt 2 _ (by decide), le_put_of_disjoint (by decide), le_put_of_lt (by simpa using hcount)]
  have hall' : le 2 (layNode left right overflow (keyBytes es) es) NodeField.kAllKeyLength =
      keyBytes es := by
    rw [hcnt 2 _ (by decide), le_put_of_lt (by simpa using hall)]
  have hlen : keyLengthsAt (layNode left right overflow (keyBytes es) es) =
      keyAlign (NodeField.kFixed + keyBytes es) := by rw [keyLengthsAt, hall']
  refine ⟨hcount', hall', fun i hi => ?_, fun i hi => ?_, fun i hi => ?_⟩
  · refine bytes_eq_of_forall fun k hk => ?_
    have hle := keyStart_le es (i + 1)
    rw [keyStart_succ hi] at hle
    have hlt : keyStart es i + k < (es.flatMap fun e => e.1).length := by omega
    simp only [layNode]
    rw [putArray_of_notMem (by omega), putArray_of_notMem (by omega),
      Nat.add_assoc, puts_of_mem hlt]
    exact Option.some.inj ((List.getElem?_eq_getElem hlt).symm.trans (getElem_flatMap_keys hi hk))
  · have hr : i < ((List.range es.length).map fun i => keyStart es (i + 1)).length := by
      simpa using hi
    have hk := keyStart_le es (i + 1)
    rw [hlen]
    simp only [layNode]
    rw [le_putArray_of_disjoint (by omega), Nat.mul_comm i 2, le_putArray hr]
    simp only [List.getElem_map, List.getElem_range]
    exact Nat.mod_eq_of_lt (by omega)
  · have hr : i < (es.map fun e => e.2).length := by simpa using hi
    have hv := hval es[i] (List.getElem_mem hi)
    rw [valueAt, hlen]
    simp only [layNode]
    rw [Nat.mul_comm i 8, le_putArray hr, List.getElem_map]
    exact Nat.mod_eq_of_lt (by omega)

theorem le_layNode_links {left right overflow all : ℕ} (hl : left < 2 ^ 64) (hr : right < 2 ^ 64)
    (ho : overflow < 2 ^ 64) (h : keyBytes es ≤ all) :
    le 8 (layNode left right overflow all es) NodeField.kLeftLink = left ∧
    le 8 (layNode left right overflow all es) NodeField.kRightLink = right ∧
    le 8 (layNode left right overflow all es) NodeField.kOverflowLink = overflow := by
  have hal := keyAlign_ge (NodeField.kFixed + all)
  have hfix : NodeField.kFixed = 28 := rfl
  have hcut : ∀ i, i + 8 ≤ 24 → le 8 (layNode left right overflow all es) i =
      le 8 (put 8 (put 8 (put 8 zero NodeField.kLeftLink left) NodeField.kRightLink right)
        NodeField.kOverflowLink overflow) i := by
    intro i hi
    have h₁ : NodeField.kKeyCount = 24 := rfl
    have h₂ : NodeField.kAllKeyLength = 26 := rfl
    simp only [layNode]
    rw [le_putArray_of_disjoint (by omega), le_putArray_of_disjoint (by omega)]
    refine (le_congr fun k hk => puts_of_notMem (by omega)).trans ?_
    rw [le_put_of_disjoint (by omega), le_put_of_disjoint (by omega)]
  refine ⟨?_, ?_, ?_⟩
  · rw [hcut _ (by decide), le_put_of_disjoint (by decide), le_put_of_disjoint (by decide),
      le_put_of_lt (by simpa using hl)]
  · rw [hcut _ (by decide), le_put_of_disjoint (by decide), le_put_of_lt (by simpa using hr)]
  · rw [hcut _ (by decide), le_put_of_lt (by simpa using ho)]

namespace Holds

variable (h : Holds b es)
include h

theorem keyLengthsAt : keyLengthsAt b = keyAlign (NodeField.kFixed + keyBytes es) := by
  rw [Bfs.keyLengthsAt, h.all]

theorem keyBytes_lt : keyBytes es < 2 ^ 16 := by
  rw [← h.all]; exact (le_lt 2 b _).trans_eq (by norm_num)

theorem congr {a : Buf} (hab : ∀ j < nodeUsed es, b j = a j) : Holds a es := by
  have hal := keyAlign_ge (NodeField.kFixed + keyBytes es)
  have hfix : NodeField.kFixed = 28 := rfl
  have hused : nodeUsed es = keyAlign (NodeField.kFixed + keyBytes es) + es.length * (2 + 8) := rfl
  have hle : ∀ w i, i + w ≤ nodeUsed es → le w a i = le w b i := fun w i hi =>
    le_congr fun k hk => (hab _ (by omega)).symm
  have hall : le 2 a NodeField.kAllKeyLength = keyBytes es := by
    rw [hle 2 _ (by rw [show NodeField.kAllKeyLength = 26 from rfl]; omega), h.all]
  have hat : Bfs.keyLengthsAt a = Bfs.keyLengthsAt b := by rw [Bfs.keyLengthsAt, hall, h.keyLengthsAt]
  have hlen := h.keyLengthsAt
  refine ⟨?_, hall, fun i hi => ?_, fun i hi => ?_, fun i hi => ?_⟩
  · rw [hle 2 _ (by rw [show NodeField.kKeyCount = 24 from rfl]; omega), h.count]
  · have hs := keyStart_le es (i + 1)
    rw [keyStart_succ hi] at hs
    rw [← bytes_congr fun k hk => hab (NodeField.kFixed + keyStart es i + k) (by omega)]
    exact h.keys i hi
  · rw [hat, hle 2 _ (by omega), h.ends i hi]
  · rw [valueAt, hat, hle 8 _ (by omega)]
    exact h.values i hi

theorem keyAt (hi : i < es.length) : keyAt b i = es[i].1 := by
  have hlt := h.keyBytes_lt
  have hs := keyStart_le es (i + 1)
  have hstart : (if i = 0 then 0 else le 2 b (Bfs.keyLengthsAt b + (i - 1) * 2)) = keyStart es i := by
    split_ifs with h₀
    · rw [h₀]; rfl
    · rw [h.ends (i - 1) (by omega), Nat.sub_add_cancel (by omega)]
  rw [keyStart_succ hi] at hs
  rw [Bfs.keyAt, hstart, h.ends i hi, keyStart_succ hi,
    show (keyStart es i + es[i].1.length + 2 ^ 16 - keyStart es i) % 2 ^ 16 = es[i].1.length by omega]
  exact h.keys i hi

theorem nodeInfo {nodeSize : ℕ} (hfit : nodeUsed es ≤ nodeSize) :
    nodeInfo b nodeSize = some {
      count := es.length
      allKeyLength := keyBytes es
      overflow := le 8 b NodeField.kOverflowLink
      used := nodeUsed es } := by
  have hal := keyAlign_ge (NodeField.kFixed + keyBytes es)
  have hused : nodeUsed es = keyAlign (NodeField.kFixed + keyBytes es) + es.length * (2 + 8) := rfl
  rw [Bfs.nodeInfo, if_neg (by omega), h.count, h.all, h.keyLengthsAt]
  exact if_pos hfit

theorem nodeEntry {nodeSize : ℕ} (hfit : nodeUsed es ≤ nodeSize) (hi : i < es.length)
    (hname : es[i].1.length ≤ kMaxName) : nodeEntry b nodeSize i = some es[i] := by
  rw [Bfs.nodeEntry, h.nodeInfo hfit]
  simp only [h.keyAt hi, h.values i hi]
  rw [if_neg (by omega)]

end Holds

end

end Aegir.Bfs
