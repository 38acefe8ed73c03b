/-
  The indices of the image builder (`scripts/mkfs_bfs.py`, `_typed_tree`), read by
  the volume and the writer.
-/
import Aegir.Bfs.Index
import Aegir.Mkfs.Place

namespace Aegir.Mkfs

open Aegir.Lib Aegir.Lib.Buf Aegir.Lib.BTree Aegir.Bfs

def NUM_DUPLICATE_VALUES : ℕ := 125

/-- The key types the builder knows. -/
inductive IndexType where
  | string
  | int64
deriving DecidableEq

/-- `BPLUSTREE_STRING_TYPE`, `BPLUSTREE_INT64_TYPE` -/
def IndexType.code : IndexType → ℕ
  | string => kTreeStringType
  | int64 => kTreeInt64Type

/-! ## The builder -/

/-- The pairs in the order of their keys, pairs of one key as they came. -/
def ordered : IndexType → List Entry → List Entry
  | .int64, es =>
    es.insertionSort fun a b => signed 8 (keyNumber 8 a.1) ≤ signed 8 (keyNumber 8 b.1)
  | .string, es => es.insertionSort fun a b => keyCompare a.1 b.1 ≠ .gt

abbrev Group := Key × List ℕ

def groupKeys : List Entry → List Group
  | [] => []
  | (k, v) :: es =>
    match groupKeys es with
    | [] => [(k, [v])]
    | (k', vs) :: gs => if k = k' then (k, v :: vs) :: gs else (k, [v]) :: (k', vs) :: gs

def groupsOf (ty : IndexType) (es : List Entry) : List Group :=
  (groupKeys (ordered ty es)).map fun g => (g.1, g.2.insertionSort (· ≤ ·))

/-- Whether one leaf of an index holds `count` keys of `keyBytes` bytes. -/
def typedFits (count keyBytes : ℕ) : Bool := keyAlign (28 + keyBytes) + count * (2 + 8) ≤ NODE

/-- The values of a key, at most 125 to a node. -/
def chunksOf : ℕ → List ℕ → List (List ℕ)
  | 0, _ => []
  | fuel + 1, vs =>
    if vs = [] then []
    else vs.take NUM_DUPLICATE_VALUES :: chunksOf fuel (vs.drop NUM_DUPLICATE_VALUES)

def duplicateNode (right : ℕ) (vs : List ℕ) : Buf :=
  let b := put 8 zero 0 kNullLink
  let b := put 8 b 8 right
  let b := put 8 b 16 vs.length
  putArray 8 b 24 vs

/-- A chain of duplicate nodes from `offset` on. -/
def chainNodes : ℕ → List (List ℕ) → List Buf
  | _, [] => []
  | offset, c :: cs =>
    duplicateNode (if cs = [] then kNullLink else offset + NODE) c :: chainNodes (offset + NODE) cs

/-- The entries of the leaves, and the duplicate nodes from `offset` on: a key of
    one value has it, a key of more a link to its chain. -/
def duplicates : ℕ → List Group → List Entry × List Buf
  | _, [] => ([], [])
  | offset, (k, vs) :: gs =>
    if 1 < vs.length then
      let nodes := chainNodes offset (chunksOf vs.length vs)
      let rest := duplicates (offset + NODE * nodes.length) gs
      ((k, makeLink 2 offset) :: rest.1, nodes ++ rest.2)
    else
      let rest := duplicates offset gs
      ((k, vs.headD 0) :: rest.1, rest.2)

def typedPlan (es : List Entry) : List (List Entry) := planFrom typedFits [] 0 es

/-- The entries of the leaves and the duplicate nodes, which come after the leaves. -/
def indexParts (ty : IndexType) (es : List Entry) : List Entry × List Buf :=
  let groups := groupsOf ty es
  let leafCount := (typedPlan (groups.map fun g => (g.1, 0))).length
  duplicates (NODE * (1 + leafCount)) groups

def typedTree (ty : IndexType) (es : List Entry) : Tree :=
  let (entries, nodes) := indexParts ty es
  layTree ty.code NODE 1 (leafNodes (typedPlan entries) ++ nodes)

/-! ## Sorting and grouping -/

section
variable {ty : IndexType} {es : List Entry}

theorem ordered_perm (ty : IndexType) (es : List Entry) : (ordered ty es).Perm es := by
  cases ty <;> exact List.perm_insertionSort _ _

theorem keyCompareTyped_int64 {a b : Key} (ha : a.length = 8) (hb : b.length = 8) :
    keyCompareTyped IndexType.int64.code a b =
      compare (signed 8 (keyNumber 8 a)) (signed 8 (keyNumber 8 b)) := by
  simp [keyCompareTyped, IndexType.code, kTreeInt64Type, kTreeInt32Type, kTreeUInt32Type, ha, hb]

theorem keyCompareTyped_string (a b : Key) :
    keyCompareTyped IndexType.string.code a b = keyCompare a b := by
  simp [keyCompareTyped, IndexType.code, kTreeStringType, kTreeInt64Type, kTreeInt32Type,
    kTreeUInt32Type, kTreeUInt64Type]

theorem keyOf_int64 {k : Key} : KeyOf IndexType.int64.code k ↔ k.length = 8 := by
  have hw : keyWidth IndexType.int64.code = some 8 := by decide
  simp [KeyOf, hw, eq_comm]

theorem ordered_sorted (h : ∀ e ∈ es, KeyOf ty.code e.1) :
    (ordered ty es).Pairwise fun a b => keyCompareTyped ty.code a.1 b.1 ≠ .gt := by
  have hmem : ∀ e ∈ ordered ty es, KeyOf ty.code e.1 := fun e he =>
    h e ((ordered_perm ty es).mem_iff.1 he)
  cases ty with
  | int64 =>
    have htotal : Std.Total fun a b : Entry =>
        signed 8 (keyNumber 8 a.1) ≤ signed 8 (keyNumber 8 b.1) := ⟨fun _ _ => le_total _ _⟩
    have htrans : IsTrans Entry fun a b =>
        signed 8 (keyNumber 8 a.1) ≤ signed 8 (keyNumber 8 b.1) := ⟨fun _ _ _ => le_trans⟩
    refine (List.pairwise_insertionSort _ es).imp_of_mem fun {a b} ha hb hab => ?_
    rw [keyCompareTyped_int64 (keyOf_int64.1 (hmem a ha)) (keyOf_int64.1 (hmem b hb))]
    exact compare_le_iff_le.2 hab
  | string =>
    have htotal : Std.Total fun a b : Entry => keyCompare a.1 b.1 ≠ .gt := ⟨fun a b => by
      rw [keyCompare_swap b.1 a.1]
      cases keyCompare b.1 a.1 <;> decide⟩
    have htrans : IsTrans Entry fun a b => keyCompare a.1 b.1 ≠ .gt :=
      ⟨fun _ _ _ => keyCompare_order.ne_gt_trans trivial trivial trivial⟩
    refine (List.pairwise_insertionSort _ es).imp fun {a b} hab => ?_
    rw [keyCompareTyped_string]
    exact hab

end

def valuesUnder (es : List Entry) (key : Key) : List ℕ :=
  (es.filter fun e => e.1 = key).map fun e => e.2

section
variable {cmp : Key → Key → Ordering} {P : Key → Prop} (o : KeyOrder cmp P)

def Group.pairs (g : Group) : List Entry := g.2.map fun v => (g.1, v)

theorem groupKeys_pairs (es : List Entry) : (groupKeys es).flatMap Group.pairs = es := by
  induction es with
  | nil => rfl
  | cons e es ih =>
    obtain ⟨k, v⟩ := e
    simp only [groupKeys]
    rcases hg : groupKeys es with _ | ⟨⟨k', vs⟩, gs⟩
    · rw [hg] at ih
      rw [← ih]
      rfl
    · rw [hg] at ih
      rw [← ih]
      simp only
      split_ifs with hk
      · subst hk; rfl
      · rfl

theorem groupKeys_nonempty (es : List Entry) : ∀ g ∈ groupKeys es, g.2 ≠ [] := by
  induction es with
  | nil => simp [groupKeys]
  | cons e es ih =>
    obtain ⟨k, v⟩ := e
    simp only [groupKeys]
    rcases hg : groupKeys es with _ | ⟨⟨k', vs⟩, gs⟩
    · simp
    · rw [hg, List.forall_mem_cons] at ih
      simp only
      split_ifs with hk
      · exact List.forall_mem_cons.2 ⟨by simp, ih.2⟩
      · exact List.forall_mem_cons.2 ⟨by simp, List.forall_mem_cons.2 ih⟩

theorem mem_groupKeys {es : List Entry} {k : Key} :
    (∃ g ∈ groupKeys es, g.1 = k) ↔ ∃ e ∈ es, e.1 = k := by
  constructor
  · rintro ⟨g, hg, rfl⟩
    obtain ⟨v, hv⟩ := List.exists_mem_of_ne_nil _ (groupKeys_nonempty es g hg)
    refine ⟨(g.1, v), ?_, rfl⟩
    rw [← groupKeys_pairs es]
    exact List.mem_flatMap.2 ⟨g, hg, List.mem_map.2 ⟨v, hv, rfl⟩⟩
  · rintro ⟨e, he, rfl⟩
    rw [← groupKeys_pairs es] at he
    obtain ⟨g, hg, hmem⟩ := List.mem_flatMap.1 he
    obtain ⟨v, -, rfl⟩ := List.mem_map.1 hmem
    exact ⟨g, hg, rfl⟩

include o

theorem groupKeys_sorted {es : List Entry} (hP : ∀ e ∈ es, P e.1)
    (hs : es.Pairwise fun a b => cmp a.1 b.1 ≠ .gt) : Sorted cmp (groupKeys es) := by
  induction es with
  | nil => exact List.Pairwise.nil
  | cons e es ih =>
    obtain ⟨k, v⟩ := e
    obtain ⟨hhead, htail⟩ := List.pairwise_cons.1 hs
    have ih := ih (fun e he => hP e (List.mem_cons_of_mem _ he)) htail
    have hk : P k := hP (k, v) List.mem_cons_self
    have hle : ∀ g ∈ groupKeys es, P g.1 ∧ cmp k g.1 ≠ .gt := by
      intro g hg
      obtain ⟨e, he, heq⟩ := mem_groupKeys.1 ⟨g, hg, rfl⟩
      rw [← heq]
      exact ⟨hP e (List.mem_cons_of_mem _ he), hhead e he⟩
    simp only [groupKeys]
    rcases hg : groupKeys es with _ | ⟨⟨k', vs⟩, gs⟩
    · exact List.pairwise_singleton _ _
    · rw [hg] at ih hle
      simp only
      split_ifs with hkk
      · subst hkk
        obtain ⟨h₁, h₂⟩ := List.pairwise_cons.1 ih
        exact List.pairwise_cons.2 ⟨h₁, h₂⟩
      · obtain ⟨hPk', hne⟩ := hle (k', vs) List.mem_cons_self
        have hlt : cmp k k' = .lt := by
          rcases hc : cmp k k' with _ | _ | _
          · rfl
          · exact absurd ((o.eq_iff hk hPk').1 hc) hkk
          · exact absurd hc hne
        refine List.pairwise_cons.2 ⟨fun g hmem => ?_, ih⟩
        rcases List.mem_cons.1 hmem with rfl | hmem
        · exact hlt
        · exact o.trans hk hPk' (hle g (List.mem_cons_of_mem _ hmem)).1 hlt
            ((List.pairwise_cons.1 ih).1 g hmem)

theorem valuesUnder_pairs {gs : List Group} (hP : ∀ g ∈ gs, P g.1) (hs : Sorted cmp gs) (key : Key) :
    valuesUnder (gs.flatMap Group.pairs) key = (gs.lookup key).getD [] := by
  have hfilter : ∀ g : Group, valuesUnder g.pairs key = if g.1 = key then g.2 else [] := by
    intro g
    by_cases hg : g.1 = key
    · rw [if_pos hg]
      simp [valuesUnder, Group.pairs, hg, List.filter_map, Function.comp_def]
    · rw [if_neg hg]
      simp [valuesUnder, Group.pairs, hg]
  induction gs with
  | nil => rfl
  | cons g gs ih =>
    obtain ⟨hhead, htail⟩ := List.pairwise_cons.1 hs
    have ih := ih (fun g hg => hP g (List.mem_cons_of_mem _ hg)) htail
    have happ : valuesUnder ((g :: gs).flatMap Group.pairs) key =
        valuesUnder g.pairs key ++ valuesUnder (gs.flatMap Group.pairs) key := by
      simp [valuesUnder, List.flatMap_cons]
    rw [happ, hfilter, ih]
    obtain ⟨k, vs⟩ := g
    by_cases hk : k = key
    · subst hk
      have hnone : gs.lookup k = none := List.lookup_eq_none_iff.2 fun g hg => by
        have hlt := hhead g hg
        have hne : k ≠ g.1 := fun heq => o.irrefl (hP g (List.mem_cons_of_mem _ hg)) (heq ▸ hlt)
        simpa using hne
      simp [hnone, List.lookup]
    · have hb : (key == k) = false := beq_false_of_ne (Ne.symm hk)
      simp [hk, List.lookup, hb]

end

theorem lookup_map_snd {A B : Type} (f : A → B) (l : List (Key × A)) (key : Key) :
    (l.map fun e => (e.1, f e.2)).lookup key = (l.lookup key).map f := by
  induction l with
  | nil => rfl
  | cons e l ih =>
    obtain ⟨k, a⟩ := e
    rw [List.map_cons, List.lookup_cons, List.lookup_cons]
    cases key == k
    · exact ih
    · rfl

theorem valuesUnder_perm {es es' : List Entry} (h : es.Perm es') (key : Key) :
    (valuesUnder es key).Perm (valuesUnder es' key) := (h.filter _).map _

section
variable {ty : IndexType} {es : List Entry} (h : ∀ e ∈ es, KeyOf ty.code e.1)
include h

theorem groupsOf_keyOf : ∀ g ∈ groupsOf ty es, KeyOf ty.code g.1 ∧ g.2 ≠ [] := by
  intro g hg
  obtain ⟨g', hg', rfl⟩ := List.mem_map.1 hg
  obtain ⟨e, he, heq⟩ := mem_groupKeys.1 ⟨g', hg', rfl⟩
  refine ⟨?_, fun hnil => groupKeys_nonempty _ g' hg' ?_⟩
  · show KeyOf ty.code g'.1
    rw [← heq]
    exact h e ((ordered_perm ty es).mem_iff.1 he)
  · exact List.length_eq_zero_iff.1 (by simpa using congrArg List.length hnil)

theorem groupsOf_sorted : Sorted (keyCompareTyped ty.code) (groupsOf ty es) := by
  have hP : ∀ e ∈ ordered ty es, KeyOf ty.code e.1 := fun e he =>
    h e ((ordered_perm ty es).mem_iff.1 he)
  exact List.pairwise_map.2 (groupKeys_sorted (keyOrder ty.code) hP (ordered_sorted h))

/-- **The values listed under a key are those of its group.** -/
theorem groupsOf_values (key : Key) :
    (valuesUnder es key).Perm (((groupsOf ty es).lookup key).getD []) := by
  have hP : ∀ e ∈ ordered ty es, KeyOf ty.code e.1 := fun e he =>
    h e ((ordered_perm ty es).mem_iff.1 he)
  have hgP : ∀ g ∈ groupKeys (ordered ty es), KeyOf ty.code g.1 := fun g hg => by
    obtain ⟨e, he, heq⟩ := mem_groupKeys.1 ⟨g, hg, rfl⟩
    exact heq ▸ hP e he
  have hv := valuesUnder_pairs (keyOrder ty.code) hgP
    (groupKeys_sorted (keyOrder ty.code) hP (ordered_sorted h)) key
  rw [groupKeys_pairs] at hv
  refine (valuesUnder_perm (ordered_perm ty es).symm key).trans ?_
  rw [hv, groupsOf, lookup_map_snd fun vs : List ℕ => vs.insertionSort (· ≤ ·)]
  cases (groupKeys (ordered ty es)).lookup key with
  | none => exact List.Perm.refl _
  | some vs => exact (List.perm_insertionSort _ vs).symm

omit h in
theorem mem_groupsOf_key {k : Key} : k ∈ (groupsOf ty es).map Prod.fst ↔ k ∈ es.map Prod.fst := by
  have hmem : ∀ e, e ∈ ordered ty es ↔ e ∈ es := fun e => (ordered_perm ty es).mem_iff
  have := @mem_groupKeys (ordered ty es) k
  simp only [hmem] at this
  simpa [groupsOf] using this

theorem groupsOf_keys : ((groupsOf ty es).map Prod.fst).Perm (es.map Prod.fst).dedup := by
  refine (List.perm_ext_iff_of_nodup ?_ (List.nodup_dedup _)).2 fun k => ?_
  · refine List.pairwise_map.2 ((groupsOf_sorted h).imp_of_mem fun {a b} ha hb hlt heq => ?_)
    rw [heq] at hlt
    exact (keyOrder ty.code).irrefl (groupsOf_keyOf h b hb).1 hlt
  · rw [List.mem_dedup, mem_groupsOf_key]

end

/-! ## Packing keys into leaves -/

section
variable {es : List Entry}

theorem typedFits_mono {c c' n n' : ℕ} (hc : c ≤ c') (hn : n ≤ n') (h : typedFits c' n' = true) :
    typedFits c n = true := by
  have hm := keyAlign_mono (Nat.add_le_add_left hn 28)
  simp only [typedFits, decide_eq_true_eq] at h ⊢
  omega

theorem fits_of_typedFits {c n : ℕ} (h : typedFits c n = true) : fits c n = true := by
  have hal := keyAlign_ge (28 + n)
  have hN : NODE = 4096 := rfl
  have hM : MAX_ENTRIES = 406 := rfl
  simp only [typedFits, decide_eq_true_eq] at h
  simp only [fits, Bool.and_eq_true, decide_eq_true_eq]
  exact ⟨by omega, h⟩

theorem typedFits_one {n : ℕ} (h : n ≤ kMaxName) : typedFits 1 n = true :=
  typedFits_mono (Nat.le_refl 1) h (by decide)

theorem planFrom_pos (room : ℕ → ℕ → Bool) : ∀ (chunk : List Entry) (size : ℕ) (es : List Entry),
    planFrom room chunk size es ≠ []
  | _, _, [] => by simp [planFrom]
  | chunk, size, e :: es => by
    rw [planFrom]
    split_ifs
    · simp
    · exact planFrom_pos room _ _ es

theorem planFrom_single : ∀ {chunk : List Entry} {es : List Entry}, chunk ≠ [] →
    typedFits chunk.length (keyBytes chunk) = true →
    ((planFrom typedFits chunk (keyBytes chunk) es).length = 1 ↔
      typedFits (chunk ++ es).length (keyBytes (chunk ++ es)) = true)
  | chunk, [], _, hf => by simpa [planFrom] using hf
  | chunk, e :: es, hne, hf => by
    have happ : chunk ++ e :: es = (chunk ++ [e]) ++ es := by simp
    rw [planFrom]
    split_ifs with hc
    · refine iff_of_false ?_ fun hfit => ?_
      · have := List.length_pos_of_ne_nil (planFrom_pos typedFits [e] e.1.length es)
        simp only [List.length_cons]
        omega
      · have hsub := typedFits_mono (c := chunk.length + 1) (n := keyBytes chunk + e.1.length)
          (by simp) (by rw [happ, keyBytes_append, keyBytes_append, keyBytes_singleton]; omega) hfit
        rw [hc.2] at hsub
        cases hsub
    · have hf' : typedFits (chunk ++ [e]).length (keyBytes (chunk ++ [e])) = true := by
        have := not_and.1 hc hne
        rw [keyBytes_append, keyBytes_singleton, List.length_append, List.length_singleton]
        simpa using this
      have := @planFrom_single (chunk ++ [e]) es (by simp) hf'
      rw [keyBytes_append chunk, keyBytes_singleton] at this
      rw [happ]
      exact this

/-- **The keys take one leaf exactly when one leaf has room for them.** -/
theorem typedPlan_single (hn : ∀ e ∈ es, e.1.length ≤ kMaxName) :
    (typedPlan es).length = 1 ↔ typedFits es.length (keyBytes es) = true := by
  cases es with
  | nil => exact iff_of_true rfl (by decide)
  | cons e es =>
    have hone : typedFits [e].length (keyBytes [e]) = true := by
      rw [keyBytes_singleton]
      exact typedFits_one (hn e List.mem_cons_self)
    have hstep : typedPlan (e :: es) = planFrom typedFits [e] (keyBytes [e]) es := by
      simp [typedPlan, planFrom]
    rw [hstep]
    exact planFrom_single (by simp) hone

theorem planFrom_map {room : ℕ → ℕ → Bool} {f : Entry → Entry} (hf : ∀ e, (f e).1 = e.1) :
    ∀ (chunk : List Entry) (size : ℕ) (es : List Entry),
    planFrom room (chunk.map f) size (es.map f) = (planFrom room chunk size es).map (List.map f)
  | chunk, size, [] => rfl
  | chunk, size, e :: es => by
    simp only [List.map_cons, planFrom, hf, List.length_map, ne_eq, List.map_eq_nil_iff]
    split_ifs
    · rw [List.map_cons, ← planFrom_map hf [e]]; rfl
    · rw [← planFrom_map hf (chunk ++ [e]), List.map_append]; rfl

theorem typedPlan_length_congr {es es' : List Entry} (h : es.map Prod.fst = es'.map Prod.fst) :
    (typedPlan es).length = (typedPlan es').length := by
  have hkeys : ∀ l : List Entry, l.map (fun e => (e.1, 0)) = (l.map Prod.fst).map fun k => (k, 0) :=
    fun l => by rw [List.map_map]; rfl
  have hlen : ∀ l : List Entry, (typedPlan (l.map fun e => (e.1, 0))).length = (typedPlan l).length :=
    fun l => by
      have := @planFrom_map typedFits (fun e => (e.1, 0)) (fun _ => rfl) [] 0 l
      rw [typedPlan, typedPlan]
      exact (congrArg List.length this).trans (List.length_map _)
  rw [← hlen es, ← hlen es', hkeys, hkeys, h]

end

/-! ## Duplicate nodes -/

section
variable {gs : List Group} {vs : List ℕ}

theorem duplicates_keys : ∀ (offset : ℕ) (gs : List Group),
    (duplicates offset gs).1.map Prod.fst = gs.map Prod.fst
  | _, [] => rfl
  | offset, (k, vs) :: gs => by
    rw [duplicates]
    split_ifs
    · simp only [List.map_cons, duplicates_keys _ gs]
    · simp only [List.map_cons, duplicates_keys _ gs]

theorem duplicates_spec : ∀ (offset : ℕ) {gs : List Group} {k : Key} {vs : List ℕ}, (k, vs) ∈ gs →
    vs ≠ [] →
    (∃ v, vs = [v] ∧ (k, v) ∈ (duplicates offset gs).1) ∨
    (1 < vs.length ∧ ∃ i, (k, makeLink 2 (offset + NODE * i)) ∈ (duplicates offset gs).1 ∧
      chainNodes (offset + NODE * i) (chunksOf vs.length vs) <+: (duplicates offset gs).2.drop i)
  | offset, (a, us) :: gs, k, vs, hmem, hne => by
    rw [duplicates]
    split_ifs with hlen
    · rcases List.mem_cons.1 hmem with heq | hmem
      · obtain ⟨rfl, rfl⟩ := Prod.mk.inj heq
        refine Or.inr ⟨hlen, 0, ?_, ?_⟩
        · simp
        · simp
      · rcases duplicates_spec (offset + NODE * (chainNodes offset (chunksOf us.length us)).length)
          hmem hne with ⟨v, h₁, h₂⟩ | ⟨h₁, i, h₂, h₃⟩
        · exact Or.inl ⟨v, h₁, List.mem_cons_of_mem _ h₂⟩
        · have hoff : offset + NODE * ((chainNodes offset (chunksOf us.length us)).length + i) =
              offset + NODE * (chainNodes offset (chunksOf us.length us)).length + NODE * i := by
            rw [Nat.mul_add, Nat.add_assoc]
          refine Or.inr ⟨h₁, (chainNodes offset (chunksOf us.length us)).length + i, ?_, ?_⟩
          · rw [hoff]
            exact List.mem_cons_of_mem _ h₂
          · rw [hoff, List.drop_append, List.drop_of_length_le (by omega), List.nil_append,
              Nat.add_sub_cancel_left]
            exact h₃
    · rcases List.mem_cons.1 hmem with heq | hmem
      · obtain ⟨rfl, rfl⟩ := Prod.mk.inj heq
        have hpos := List.length_pos_of_ne_nil hne
        obtain ⟨v, rfl⟩ := List.length_eq_one_iff.1 (show vs.length = 1 by omega)
        exact Or.inl ⟨v, rfl, by simp⟩
      · rcases duplicates_spec offset hmem hne with ⟨v, h₁, h₂⟩ | ⟨h₁, i, h₂, h₃⟩
        · exact Or.inl ⟨v, h₁, List.mem_cons_of_mem _ h₂⟩
        · exact Or.inr ⟨h₁, i, List.mem_cons_of_mem _ h₂, h₃⟩

theorem makeLink_lt (offset : ℕ) : makeLink 2 offset < 2 ^ 64 :=
  Nat.or_lt_two_pow (by decide) (Nat.lt_of_le_of_lt Nat.and_le_right (by decide))

theorem duplicates_lt : ∀ (offset : ℕ) {gs : List Group}, (∀ g ∈ gs, ∀ v ∈ g.2, v < 2 ^ 62) →
    ∀ e ∈ (duplicates offset gs).1, e.2 < 2 ^ 64
  | _, [], _ => by simp [duplicates]
  | offset, (k, vs) :: gs, hgs => by
    obtain ⟨hhead, htail⟩ := List.forall_mem_cons.1 hgs
    rw [duplicates]
    split_ifs with hlen
    · exact List.forall_mem_cons.2 ⟨makeLink_lt _, duplicates_lt _ htail⟩
    · refine List.forall_mem_cons.2 ⟨?_, duplicates_lt _ htail⟩
      cases vs with
      | nil => exact Nat.two_pow_pos 64
      | cons v vs => exact (hhead v List.mem_cons_self).trans (by decide)

theorem chunksOf_of_le (hne : vs ≠ []) (h : vs.length ≤ NUM_DUPLICATE_VALUES) :
    chunksOf vs.length vs = [vs] := by
  obtain ⟨n, hn⟩ := Nat.exists_eq_succ_of_ne_zero (Nat.ne_of_gt (List.length_pos_of_ne_nil hne))
  rw [hn, Nat.succ_eq_add_one, chunksOf, if_neg hne, List.take_of_length_le h,
    List.drop_of_length_le h]
  cases n <;> simp [chunksOf]

theorem chunksOf_of_lt (h : NUM_DUPLICATE_VALUES < vs.length) : ∃ us cs, us ≠ [] ∧
    us.length ≤ NUM_DUPLICATE_VALUES ∧ (∀ v ∈ us, v ∈ vs) ∧
    chunksOf vs.length vs = vs.take NUM_DUPLICATE_VALUES :: us :: cs := by
  have hN : NUM_DUPLICATE_VALUES = 125 := rfl
  obtain ⟨n, hn⟩ : ∃ n, vs.length = n + 2 := ⟨vs.length - 2, by omega⟩
  have hne : vs ≠ [] := fun hnil => by simp [hnil] at hn
  have hrest : vs.drop NUM_DUPLICATE_VALUES ≠ [] := fun hnil => by
    have := congrArg List.length hnil
    rw [List.length_drop, List.length_nil] at this
    omega
  refine ⟨(vs.drop NUM_DUPLICATE_VALUES).take NUM_DUPLICATE_VALUES, chunksOf n
    ((vs.drop NUM_DUPLICATE_VALUES).drop NUM_DUPLICATE_VALUES), ?_, List.length_take_le _ _, fun v hv =>
      List.mem_of_mem_drop (List.mem_of_mem_take hv), ?_⟩
  · intro hnil
    rcases List.take_eq_nil_iff.1 hnil with h₀ | h₀
    · exact absurd h₀ (by decide)
    · exact hrest h₀
  · rw [hn, chunksOf, if_neg hne, chunksOf, if_neg hrest]

theorem duplicateNode_at {right : ℕ} {b : Buf} (hb : ∀ j < NODE, duplicateNode right vs j = b j)
    (hr : right < 2 ^ 64) (hlen : vs.length ≤ NUM_DUPLICATE_VALUES) (hv : ∀ v ∈ vs, v < 2 ^ 64) :
    DuplicateAt b right vs := by
  have hN : NODE = 4096 := rfl
  have hD : NUM_DUPLICATE_VALUES = 125 := rfl
  have hle : ∀ i, i + 8 ≤ NODE → le 8 b i = le 8 (duplicateNode right vs) i := fun i hi =>
    le_congr fun k hk => (hb _ (by omega)).symm
  have ho : NodeField.kOverflowLink = 16 := rfl
  have hrl : NodeField.kRightLink = 8 := rfl
  refine ⟨?_, ?_, fun i hi => ?_, hlen⟩
  · rw [hle _ (by omega), duplicateNode, hrl, le_putArray_of_disjoint (by omega),
      le_put_of_disjoint (by omega), le_put_of_lt (by omega)]
  · rw [hle _ (by omega), duplicateNode, ho, le_putArray_of_disjoint (by omega),
      le_put_of_lt (by omega)]
  · rw [hle _ (by omega), duplicateNode, ho, Nat.mul_comm i 8, le_putArray hi]
    exact Nat.mod_eq_of_lt (hv _ (List.getElem_mem hi))

end

/-! ## An index on a volume -/

/-- The inode in `block` is read as an index of exactly these pairs: a walk under
    any key hands out the values listed under it and then no more, and the writer's
    descent finds every key. -/
structure ReadsIndex (w : World) (block : ℕ) (es : List Entry) : Prop where
  walk : ∀ key, ∃ vs, vs.Perm (valuesUnder es key) ∧ Walks w block key 0 vs
  descend : ∀ e ∈ es, ∃ d, indexDescend w block e.1 = some d ∧ d.entry.isSome = true

/-- The pairs of an index: keys of its type, up to 255 bytes long, and inodes'
    blocks. -/
structure Pairs (ty : IndexType) (es : List Entry) : Prop where
  keyOf : ∀ e ∈ es, KeyOf ty.code e.1
  names : ∀ e ∈ es, e.1.length ≤ kMaxName
  blocks : ∀ e ∈ es, e.2 < 2 ^ 62

section
variable {ty : IndexType} {es : List Entry} (hes : Pairs ty es)

theorem indexParts_keys (ty : IndexType) (es : List Entry) :
    (indexParts ty es).1.map Prod.fst = (groupsOf ty es).map Prod.fst := duplicates_keys _ _

theorem indexParts_count (ty : IndexType) (es : List Entry) :
    (typedPlan ((groupsOf ty es).map fun g => (g.1, 0))).length =
      (typedPlan (indexParts ty es).1).length :=
  typedPlan_length_congr (by rw [indexParts_keys, List.map_map]; rfl)

theorem mem_indexParts {e : Entry} (he : e ∈ (indexParts ty es).1) : ∃ e' ∈ es, e'.1 = e.1 := by
  have hk : e.1 ∈ es.map Prod.fst := by
    rw [← @mem_groupsOf_key ty, ← indexParts_keys]
    exact List.mem_map_of_mem he
  exact List.mem_map.1 hk

include hes

theorem indexParts_sorted : Sorted (keyCompareTyped ty.code) (indexParts ty es).1 := by
  have h : ((groupsOf ty es).map Prod.fst).Pairwise fun a b => keyCompareTyped ty.code a b = .lt :=
    List.pairwise_map.2 (groupsOf_sorted hes.keyOf)
  rw [← indexParts_keys] at h
  exact List.pairwise_map.1 h

theorem indexParts_keyOf : ∀ e ∈ (indexParts ty es).1, KeyOf ty.code e.1 := by
  intro e he
  obtain ⟨e', he', heq⟩ := mem_indexParts he
  exact heq ▸ hes.keyOf e' he'

theorem indexParts_names : ∀ e ∈ (indexParts ty es).1, e.1.length ≤ kMaxName := by
  intro e he
  obtain ⟨e', he', heq⟩ := mem_indexParts he
  exact heq ▸ hes.names e' he'

theorem groupsOf_blocks {g : Group} (hg : g ∈ groupsOf ty es) : ∀ v ∈ g.2, v < 2 ^ 62 := by
  intro v hv
  have hl := (groupsOf_sorted hes.keyOf).lookup (keyOrder ty.code)
    (fun g hg => (groupsOf_keyOf hes.keyOf g hg).1) g hg
  have hperm := groupsOf_values hes.keyOf g.1
  rw [hl, Option.getD_some] at hperm
  obtain ⟨e, he, rfl⟩ := List.mem_map.1 (hperm.mem_iff.2 hv)
  exact hes.blocks e (List.mem_of_mem_filter he)

theorem typedPlan_indexParts :
    (typedPlan (indexParts ty es).1).length = 1 ↔
      typedFits (es.map Prod.fst).dedup.length (((es.map Prod.fst).dedup.map List.length).sum) =
        true := by
  have hperm := groupsOf_keys hes.keyOf
  rw [← indexParts_keys] at hperm
  have hlen : (indexParts ty es).1.length = (es.map Prod.fst).dedup.length := by
    rw [← hperm.length_eq, List.length_map]
  have hbytes : keyBytes (indexParts ty es).1 = ((es.map Prod.fst).dedup.map List.length).sum := by
    rw [← (hperm.map List.length).sum_nat, List.map_map]
    rfl
  rw [typedPlan_single (indexParts_names hes), hlen, hbytes]

end

/-- What the readers of a placed index have to go on. -/
structure IndexAt (w : World) (block : ℕ) (ty : IndexType) (es c : List Entry) (index : Inode)
    (h : TreeHeader) : Prop where
  inode : readInode w block = some index
  header : nodeHeader w index = some h
  nodeSize : h.nodeSize = NODE
  root : h.root = NODE
  dataType : h.dataType = ty.code
  maximum : h.maximum = NODE * (1 + (leafNodes (typedPlan (indexParts ty es).1) ++
    (indexParts ty es).2).length)
  inside : h.maximum < 2 ^ 62
  first : (typedPlan (indexParts ty es).1).head? = some c
  leaf : (treeStore (fun off => readStream w index.data off NODE) NODE h.maximum).leaf NODE c
  stores : Stores (fun off => readStream w index.data off NODE)
    (leafNodes (typedPlan (indexParts ty es).1) ++ (indexParts ty es).2)

theorem index_placed {ty : IndexType} {es : List Entry} {w : World} {block base : ℕ}
    (hes : Pairs ty es) (hp : Placed w block base (typedTree ty es)) :
    ∃ c index h, IndexAt w block ty es c index h := by
  obtain ⟨index, hindex, hrun⟩ := hp.readInode
  set final := leafNodes (typedPlan (indexParts ty es).1) ++ (indexParts ty es).2 with hfinal
  have ht : typedTree ty es = layTree ty.code NODE 1 final := rfl
  rw [ht] at hp hrun
  have htotal := hp.blocks
  have hN : NODE = 4096 := rfl
  rw [show (layTree ty.code NODE 1 final).total = NODE * (1 + final.length) from rfl, node_mul,
    show 65535 * BLOCK = 65535 * 2048 from rfl] at htotal
  have hread : ∀ off j, off + NODE ≤ (layTree ty.code NODE 1 final).total → j < NODE →
      readStream w index.data off NODE j = (layTree ty.code NODE 1 final).bytes (off + j) :=
    fun off j hoff hj => hp.readStream hrun hj hoff
  have hst : Stores (fun off => readStream w index.data off NODE) final := layTree_stores hread
  have hpre : leafNodes (typedPlan (indexParts ty es).1) <+: final := List.prefix_append _ _
  obtain ⟨c, cs, hplan⟩ := List.exists_cons_of_ne_nil (planFrom_pos typedFits [] 0 (indexParts ty es).1)
  have hplan : typedPlan (indexParts ty es).1 = c :: cs := hplan
  have hfit : typedFits c.length (keyBytes c) = true :=
    @planFrom_room typedFits [] (indexParts ty es).1 (fun e he => typedFits_one
      (indexParts_names hes e he)) (by decide) c (by
        rw [show planFrom typedFits [] (keyBytes []) (indexParts ty es).1 = c :: cs from hplan]
        exact List.mem_cons_self)
  have hmem : ∀ e ∈ c, e ∈ (indexParts ty es).1 := by
    intro e he
    have hflat : (typedPlan (indexParts ty es).1).flatten = (indexParts ty es).1 :=
      planFrom_flatten typedFits [] 0 _
    rw [← hflat, hplan]
    exact List.mem_flatten.2 ⟨c, List.mem_cons_self, he⟩
  have hi : 0 < (typedPlan (indexParts ty es).1).length := by rw [hplan]; exact Nat.succ_pos _
  obtain ⟨hk, hnode⟩ := leaf_of_prefix hpre hi
  have hget : (typedPlan (indexParts ty es).1)[0] = c := by simp only [hplan, List.getElem_cons_zero]
  rw [hget] at hnode
  have hlinks := leafLinks_of_stores hst hpre (by omega) hi
  have hheader : nodeHeader w index = some ⟨NODE, 1, ty.code, NODE, kNullLink,
      NODE * (1 + final.length)⟩ := by
    rw [← @treeHeaderParse_build zero ⟨NODE, 1, ty.code, NODE, kNullLink, NODE * (1 + final.length)⟩
      (show NODE ≠ 0 by decide) (show NODE ≤ kMaxBlockSize by decide) (show 1 < 2 ^ 32 by decide)
      (show ty.code < 2 ^ 32 by cases ty <;> decide) (show NODE < 2 ^ 64 by decide)
      (show kNullLink < 2 ^ 64 by decide) (show NODE * (1 + final.length) < 2 ^ 64 by rw [node_mul]; omega)]
    refine treeHeaderParse_congr fun j hj => ?_
    have hj' : j < NODE := hj.trans (by decide)
    rw [hp.readStream hrun hj (Nat.le_trans (by decide) (show NODE * 1 ≤ NODE * (1 + final.length) from
      Nat.mul_le_mul_left _ (Nat.le_add_right _ _))), Nat.zero_add]
    exact blitNodes_of_lt hj'
  refine ⟨c, index, _, hindex, hheader, rfl, rfl, rfl, rfl, ?_, by rw [hplan]; rfl, ⟨?_, hlinks.2.2⟩, hst⟩
  · show NODE * (1 + final.length) < 2 ^ 62
    rw [node_mul]; omega
  · refine nodeAt_of_stores hst hk rfl hnode (fits_of_typedFits hfit) (fun e he => ?_)
      fun e he => indexParts_names hes e (hmem e he)
    exact duplicates_lt _ (fun g hg => groupsOf_blocks hes hg) e (hmem e he)

section
variable {w : World} {block : ℕ} {ty : IndexType} {es c : List Entry} {index : Inode} {h : TreeHeader}
variable (hat : IndexAt w block ty es c index h)
include hat

theorem IndexAt.isPrefix : c <+: (indexParts ty es).1 := by
  have hflat : (typedPlan (indexParts ty es).1).flatten = (indexParts ty es).1 :=
    planFrom_flatten typedFits [] 0 _
  obtain ⟨cs, hplan⟩ := List.head?_eq_some_iff.1 hat.first
  rw [hplan, List.flatten_cons] at hflat
  exact ⟨_, hflat⟩

theorem IndexAt.find (hes : Pairs ty es) (key : Key) :
    indexFindFrom w index h.nodeSize h.maximum h.dataType key 16 h.root = c.lookup key := by
  have hmem : ∀ e ∈ c, e ∈ (indexParts ty es).1 := fun e he => hat.isPrefix.subset he
  have hinside := hat.inside
  rw [hat.nodeSize, hat.dataType, hat.root]
  exact indexFindFrom_leaf (by decide) (by omega) 15 hat.leaf
    ((indexParts_sorted hes).sublist hat.isPrefix.sublist)
    fun e he => indexParts_keyOf hes e (hmem e he)

theorem IndexAt.descend (key : Key) : ∃ d, indexDescend w block key = some d ∧
    (d.entry.isSome = true ↔ ∃ e ∈ c, e.1 = key) := by
  have hinside := hat.inside
  have hmax := hat.maximum
  have hN : NODE = 4096 := rfl
  obtain ⟨d, hd, -, hiff⟩ := @descendFrom_leaf NODE h.maximum ty.code NODE c key _ 31 hat.leaf
  refine ⟨d, ?_, hiff⟩
  obtain ⟨cs, hplan⟩ := List.head?_eq_some_iff.1 hat.first
  rw [node_mul, hplan, List.length_append, leafNodes, List.length_mapIdx, List.length_cons] at hmax
  rw [indexDescend, treeHeader_of_readInode hat.inode, hat.header]
  simp only [Option.map_some, hat.nodeSize, hat.root, hat.dataType]
  rw [if_neg (by omega)]
  exact hd

theorem IndexAt.duplicate {k : ℕ} (hk : k < (indexParts ty es).2.length) :
    (∀ j < NODE, (indexParts ty es).2[k] j = readStream w index.data
      (NODE * (1 + (typedPlan (indexParts ty es).1).length) + NODE * k) NODE j) ∧
    NODE * (1 + (typedPlan (indexParts ty es).1).length) + NODE * k + NODE ≤ h.maximum := by
  have hleaves : (leafNodes (typedPlan (indexParts ty es).1)).length =
      (typedPlan (indexParts ty es).1).length := List.length_mapIdx
  have hst := hat.stores (k + (leafNodes (typedPlan (indexParts ty es).1)).length) (by
    rw [List.length_append]; omega)
  constructor
  · intro j hj
    have hoff : NODE * (1 + (typedPlan (indexParts ty es).1).length) + NODE * k =
        NODE * (k + (leafNodes (typedPlan (indexParts ty es).1)).length + 1) := by
      rw [hleaves, ← Nat.mul_add]; congr 1; omega
    rw [hoff, List.getElem_append_right' (leafNodes (typedPlan (indexParts ty es).1)) hk]
    exact hst j hj
  · rw [hat.maximum, List.length_append, hleaves, node_mul, node_mul, node_mul, show NODE = 4096 from rfl]
    omega

theorem IndexAt.chain {key : Key} {vs : List ℕ} (hmem : (key, vs) ∈ groupsOf ty es)
    (hlen : 1 < vs.length) : ∃ chain, (key, makeLink kDuplicateNode chain) ∈ (indexParts ty es).1 ∧
      chain % 2 ^ 10 = 0 ∧ ∀ i (hi : i < (chainNodes chain (chunksOf vs.length vs)).length),
        (∀ j < NODE, (chainNodes chain (chunksOf vs.length vs))[i] j =
          readStream w index.data (chain + NODE * i) NODE j) ∧ chain + NODE * i + NODE < 2 ^ 62 := by
  rcases duplicates_spec (NODE * (1 + (typedPlan ((groupsOf ty es).map fun g => (g.1, 0))).length))
    hmem (List.ne_nil_of_length_pos (by omega)) with ⟨v, rfl, -⟩ | ⟨-, i, hentry, hpre⟩
  · exact absurd hlen (by simp)
  · refine ⟨_, hentry, by rw [node_mul, node_mul]; omega, fun k hk => ?_⟩
    obtain ⟨more, heq⟩ := hpre
    have hdrop : i + k < (indexParts ty es).2.length := by
      have := congrArg List.length heq
      rw [List.length_append, List.length_drop] at this
      show i + k < (duplicates _ _).2.length
      omega
    have hget : (chainNodes _ (chunksOf vs.length vs))[k] = (indexParts ty es).2[i + k] := by
      have : (List.drop i (indexParts ty es).2)[k]? = _ := congrArg (fun l => l[k]?) heq.symm
      rw [List.getElem?_drop, List.getElem?_append_left hk, List.getElem?_eq_getElem hdrop,
        List.getElem?_eq_getElem hk] at this
      exact (Option.some.inj this).symm
    obtain ⟨hread, hle⟩ := hat.duplicate hdrop
    have hinside := hat.inside
    rw [← indexParts_count, Nat.mul_add NODE i k, ← Nat.add_assoc] at hread hle
    rw [hget]
    exact ⟨hread, by omega⟩

variable (hes : Pairs ty es)
include hes

theorem IndexAt.lookup {key : Key} {v : ℕ} (he : (key, v) ∈ c) :
    indexFindFrom w index h.nodeSize h.maximum h.dataType key 16 h.root = some v := by
  have hs : Sorted (keyCompareTyped ty.code) c :=
    (indexParts_sorted hes).sublist hat.isPrefix.sublist
  rw [hat.find hes]
  exact hs.lookup (keyOrder ty.code)
    (fun e he => indexParts_keyOf hes e (hat.isPrefix.subset he)) (key, v) he

theorem IndexAt.walks (hc : c = (indexParts ty es).1) {key : Key}
    (hfew : (valuesUnder es key).length ≤ NUM_DUPLICATE_VALUES) :
    ∃ vs, vs.Perm (valuesUnder es key) ∧ Walks w block key 0 vs := by
  have hperm := groupsOf_values hes.keyOf key
  rcases hg : (groupsOf ty es).lookup key with _ | vs
  · -- a key that is not listed
    rw [hg] at hperm
    refine ⟨[], hperm.symm, ?_⟩
    have hnone : c.lookup key = none := lookup_eq_none_of_forall fun e he heq => by
      have hk : key ∈ (groupsOf ty es).map Prod.fst := by
        rw [← indexParts_keys, ← hc]
        exact List.mem_map.2 ⟨e, he, heq⟩
      obtain ⟨g, hmem, rfl⟩ := List.mem_map.1 hk
      have := List.lookup_eq_none_iff.1 hg g hmem
      simp at this
    rw [Walks, indexWalk_none hat.inode hat.header ((hat.find hes key).trans hnone)]
  · rw [hg, Option.getD_some] at hperm
    refine ⟨vs, hperm.symm, ?_⟩
    obtain ⟨l₁, l₂, hsplit, -⟩ := List.lookup_eq_some_iff.1 hg
    have hmem : (key, vs) ∈ groupsOf ty es := by rw [hsplit]; simp
    have hvs := groupsOf_blocks hes hmem
    have hne : vs ≠ [] := (groupsOf_keyOf hes.keyOf _ hmem).2
    by_cases hlen : 1 < vs.length
    · obtain ⟨chain, hentry, halign, hnodes⟩ := hat.chain hmem hlen
      rw [hperm.length_eq] at hfew
      rw [chunksOf_of_le hne hfew] at hnodes
      obtain ⟨hread, hlt⟩ := hnodes 0 (by simp [chainNodes])
      have hd : DuplicateAt (readStream w index.data chain kTreeNodeSize) kNullLink vs :=
        duplicateNode_at hread (show kNullLink < 2 ^ 64 by decide) hfew
          fun v hv => (hvs v hv).trans (by decide)
      rw [← hc] at hentry
      exact walks_chain hat.inode hat.header hat.nodeSize (hat.lookup hes hentry) (by omega) halign
        hd 0
    · have hone : vs.length = 1 := by
        have := List.length_pos_of_ne_nil hne
        omega
      obtain ⟨v, rfl⟩ := List.length_eq_one_iff.1 hone
      rcases duplicates_spec (NODE * (1 + (typedPlan ((groupsOf ty es).map fun g => (g.1, 0))).length))
        hmem hne with ⟨v', heq, hentry⟩ | ⟨h₁, -⟩
      · obtain rfl : v = v' := by simpa using heq
        have hentry : (key, v) ∈ c := by rw [hc]; exact hentry
        exact walks_lone hat.inode hat.header (hvs v List.mem_cons_self) (hat.lookup hes hentry)
      · exact absurd h₁ hlen

theorem IndexAt.not_walks (hc : c = (indexParts ty es).1) {key : Key}
    (hmany : NUM_DUPLICATE_VALUES < (valuesUnder es key).length) (rs : List ℕ) :
    ¬ Walks w block key 0 rs := by
  have hperm := groupsOf_values hes.keyOf key
  rcases hg : (groupsOf ty es).lookup key with _ | vs
  · rw [hg, Option.getD_none] at hperm
    rw [hperm.length_eq] at hmany
    simp at hmany
  · rw [hg, Option.getD_some] at hperm
    rw [hperm.length_eq] at hmany
    obtain ⟨l₁, l₂, hsplit, -⟩ := List.lookup_eq_some_iff.1 hg
    have hmem : (key, vs) ∈ groupsOf ty es := by rw [hsplit]; simp
    have hvs := groupsOf_blocks hes hmem
    have hD : NUM_DUPLICATE_VALUES = 125 := rfl
    obtain ⟨chain, hentry, halign, hnodes⟩ := hat.chain hmem (by omega)
    obtain ⟨us, cs, hus, husLen, husMem, hchunks⟩ := chunksOf_of_lt hmany
    have hnodesEq : chainNodes chain (chunksOf vs.length vs) =
        duplicateNode (chain + NODE) (vs.take NUM_DUPLICATE_VALUES) ::
          duplicateNode (if cs = [] then kNullLink else chain + NODE + NODE) us ::
            chainNodes (chain + NODE + NODE) cs := by
      rw [hchunks]
      simp [chainNodes]
    rw [hnodesEq] at hnodes
    obtain ⟨hread₀, hlt₀⟩ := hnodes 0 (by simp)
    obtain ⟨hread₁, hlt₁⟩ := hnodes 1 (by simp)
    have hN : NODE = 4096 := rfl
    have hfull : (vs.take NUM_DUPLICATE_VALUES).length = kNumDuplicateValues := by
      rw [List.length_take, Nat.min_eq_left hmany.le]; rfl
    have hd : DuplicateAt (readStream w index.data chain kTreeNodeSize) (chain + NODE)
        (vs.take NUM_DUPLICATE_VALUES) := duplicateNode_at hread₀ (by omega) hfull.le
      fun v hv => (hvs v (List.mem_of_mem_take hv)).trans (by decide)
    have hlink : (if cs = [] then kNullLink else chain + NODE + NODE) < 2 ^ 64 := by
      split_ifs
      · decide
      · omega
    have hd' : DuplicateAt (readStream w index.data (chain + NODE) kTreeNodeSize) _ us :=
      duplicateNode_at hread₁ hlink husLen fun v hv => (hvs v (husMem v hv)).trans (by decide)
    rw [← hc] at hentry
    have hright : chain + NODE ≠ kNullLink := by
      have : kNullLink = 2 ^ 64 - 1 := rfl
      omega
    exact not_walks_chain hat.inode hat.header hat.nodeSize (hat.lookup hes hentry) (by omega)
      halign hright hfull hus hd hd' rs 0 (Nat.zero_le _)

theorem IndexAt.single (hd : ∀ e ∈ es, ∃ d, indexDescend w block e.1 = some d ∧ d.entry.isSome = true) :
    (typedPlan (indexParts ty es).1).length = 1 := by
  obtain ⟨cs, hplan⟩ := List.head?_eq_some_iff.1 hat.first
  have hflat : (typedPlan (indexParts ty es).1).flatten = (indexParts ty es).1 :=
    planFrom_flatten typedFits [] 0 _
  cases cs with
  | nil => rw [hplan]; rfl
  | cons c' cs =>
    have hparts : (indexParts ty es).1 ≠ [] := fun hnil => by
      rw [hnil] at hplan
      simp [typedPlan, planFrom] at hplan
    have hne : c' ≠ [] := planFrom_ne_nil typedFits 0 (Or.inr hparts) c' (by
      show c' ∈ typedPlan _
      rw [hplan]; simp)
    obtain ⟨e, he⟩ := List.exists_mem_of_ne_nil _ hne
    rw [hplan, List.flatten_cons, List.flatten_cons] at hflat
    have hsorted := indexParts_sorted hes
    have hmem : e ∈ (indexParts ty es).1 := by rw [← hflat]; simp [he]
    obtain ⟨e', he', heq⟩ := mem_indexParts hmem
    obtain ⟨d, hd, hsome⟩ := hd e' he'
    obtain ⟨d', hd', hiff⟩ := hat.descend e'.1
    obtain rfl := Option.some.inj (hd.symm.trans hd')
    obtain ⟨a, ha, hae⟩ := hiff.1 hsome
    -- the key found in the first leaf is below that of the second
    rw [← hflat, Sorted, List.pairwise_append] at hsorted
    have hlt := hsorted.2.2 a ha e (by simp [he])
    rw [hae, heq] at hlt
    exact absurd hlt ((keyOrder ty.code).irrefl (indexParts_keyOf hes e hmem))

end

/-! ## Indices of the builder -/

def std_str : ℕ := S_INDEX_DIR ||| S_IFDIR ||| S_STR_INDEX
def std_i64 : ℕ := S_INDEX_DIR ||| S_IFDIR ||| S_LONG_LONG_INDEX

/-- A disk with an index of `make_bfs`: its inode in `block`, under the indices'
    root, and its tree in the blocks from `base` on. -/
def placeIndex (disk : Buf) (agShift block indicesRoot base : ℕ) (ty : IndexType) (t : Tree) : Buf :=
  match ty with
  | .string => placeTree disk agShift block base (run indicesRoot 1 agShift) std_str 0 TYPE_CSTR none t
  | .int64 => placeTree disk agShift block base (run indicesRoot 1 agShift) std_i64 0 TYPE_LLNG none t

/-- **An index of the builder is read as it was written exactly when one leaf has
    room for its keys and no key has more values than a duplicate node holds.** -/
theorem mkfs_index_reads_iff {ty : IndexType} {es : List Entry} (hes : Pairs ty es) {w : World}
    {block base : ℕ} (hp : Placed w block base (typedTree ty es)) :
    ReadsIndex w block es ↔
      typedFits (es.map Prod.fst).dedup.length (((es.map Prod.fst).dedup.map List.length).sum) = true ∧
      ∀ key, (valuesUnder es key).length ≤ NUM_DUPLICATE_VALUES := by
  obtain ⟨c, index, h, hat⟩ := index_placed hes hp
  rw [← typedPlan_indexParts hes]
  have hone : (typedPlan (indexParts ty es).1).length = 1 → c = (indexParts ty es).1 := by
    intro hlen
    have hflat : (typedPlan (indexParts ty es).1).flatten = (indexParts ty es).1 :=
      planFrom_flatten typedFits [] 0 _
    obtain ⟨c', hc'⟩ := List.length_eq_one_iff.1 hlen
    have hfirst := hat.first
    rw [hc', List.head?_cons, Option.some_inj] at hfirst
    rw [← hflat, hc', hfirst, List.flatten_singleton]
  constructor
  · intro hr
    have hsingle := hat.single hes hr.descend
    refine ⟨hsingle, fun key => Nat.not_lt.1 fun hmany => ?_⟩
    obtain ⟨rs, -, hwalks⟩ := hr.walk key
    exact hat.not_walks hes (hone hsingle) hmany rs hwalks
  · rintro ⟨hsingle, hfew⟩
    refine ⟨fun key => hat.walks hes (hone hsingle) (hfew key), fun e he => ?_⟩
    obtain ⟨d, hd, hiff⟩ := hat.descend e.1
    refine ⟨d, hd, hiff.2 ?_⟩
    have hk : e.1 ∈ (indexParts ty es).1.map Prod.fst := by
      rw [indexParts_keys, mem_groupsOf_key]
      exact List.mem_map_of_mem he
    rw [hone hsingle]
    exact List.mem_map.1 hk

def fewPairs : List Entry := [([98], 605), ([97], 604), ([98], 603), ([99, 99], 602)]

theorem fewPairs_pairs : Pairs .string fewPairs where
  keyOf := by simp only [KeyOf]; decide
  names := by decide
  blocks := by decide

theorem mkfs_index_reads_few : ∃ w, Placed w 650 651 (typedTree .string fewPairs) ∧
    ReadsIndex w 650 fewPairs := by
  have hp : Placed (.booted (.on (placeIndex zero (formatGeometry (4096 * BLOCK)).agShift 650 640 651
      .string (typedTree .string fewPairs)) fun _ => false) (volume (4096 * BLOCK) 700 600 640 [])) 650
      651 (typedTree .string fewPairs) :=
    placeTree_placed (by decide) (by decide) (by decide) (by decide) (by decide)
  refine ⟨_, hp, (mkfs_index_reads_iff fewPairs_pairs hp).2 ⟨by decide, fun key => ?_⟩⟩
  have hle : (valuesUnder fewPairs key).length ≤ fewPairs.length := by
    rw [valuesUnder, List.length_map]
    exact List.length_filter_le _ _
  exact hle.trans (by decide)

def manyPairs : List Entry :=
  (List.range 20).map fun i => (UInt8.ofNat (97 + i) :: List.replicate 199 120, 1000 + i)

set_option maxRecDepth 20000 in
theorem manyPairs_pairs : Pairs .string manyPairs where
  keyOf := by simp only [KeyOf]; decide
  names := by decide
  blocks := by decide

set_option maxRecDepth 20000 in
/-- The last of the twenty names is in the second leaf, which nothing leads to. -/
theorem mkfs_index_second_leaf : ∃ w, Placed w 650 651 (typedTree .string manyPairs) ∧
    valuesUnder manyPairs (116 :: List.replicate 199 120) = [1019] ∧
    (indexWalk w 650 (116 :: List.replicate 199 120) 0).1 = none ∧ ¬ ReadsIndex w 650 manyPairs := by
  have hp : Placed (.booted (.on (placeIndex zero (formatGeometry (4096 * BLOCK)).agShift 650 640 651
      .string (typedTree .string manyPairs)) fun _ => false) (volume (4096 * BLOCK) 700 600 640 [])) 650
      651 (typedTree .string manyPairs) :=
    placeTree_placed (by decide) (by decide) (by decide) (by decide) (by decide)
  obtain ⟨c, index, h, hat⟩ := index_placed manyPairs_pairs hp
  refine ⟨_, hp, by decide, ?_, fun hr => ?_⟩
  · have hfirst : (typedPlan (indexParts .string manyPairs).1).head?.bind
        (fun c => c.lookup (116 :: List.replicate 199 120)) = none := by decide
    rw [hat.first, Option.bind_some, ← hat.find manyPairs_pairs] at hfirst
    rw [indexWalk_none hat.inode hat.header hfirst]
  · have hroom : typedFits (manyPairs.map Prod.fst).dedup.length
        (((manyPairs.map Prod.fst).dedup.map List.length).sum) = false := by decide
    rw [(typedPlan_indexParts manyPairs_pairs).1 (hat.single manyPairs_pairs hr.descend)] at hroom
    cases hroom

end Aegir.Mkfs
