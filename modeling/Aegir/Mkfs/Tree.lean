/-
  The directory trees of the image builder (`scripts/mkfs_bfs.py`, `_tree`): the
  entries packed greedily into leaves, and levels of inner nodes over them until
  one node is left.
-/
import Aegir.Bfs.Directory
import Aegir.Mkfs.Format

namespace Aegir.Mkfs

open Aegir.Lib Aegir.Lib.Buf Aegir.Lib.BTree Aegir.Bfs

def MAX_ENTRIES : ℕ := (NODE - 28) / (2 + 8)

/-! ## Packing -/

/-- Whether one node holds `count` entries whose keys total `keyBytes`. -/
def fits (count keyBytes : ℕ) : Bool :=
  count ≤ MAX_ENTRIES && keyAlign (28 + keyBytes) + count * (2 + 8) ≤ NODE

/-- Fill the node begun with `chunk`, whose keys total `size`, while there is room
    for one more, and then begin the next. -/
def planFrom (room : ℕ → ℕ → Bool) : List Entry → ℕ → List Entry → List (List Entry)
  | chunk, _, [] => [chunk]
  | chunk, size, e :: es =>
    if chunk ≠ [] ∧ room (chunk.length + 1) (size + e.1.length) = false then
      chunk :: planFrom room [e] e.1.length es
    else planFrom room (chunk ++ [e]) (size + e.1.length) es

def plan (es : List Entry) : List (List Entry) := planFrom fits [] 0 es

/-! ## The tree -/

def nodeBytes (left right overflow : ℕ) (es : List Entry) : Buf :=
  layNode left right overflow (keyBytes es) es

def lastKey (es : List Entry) : Key := (es.getLast?.map Prod.fst).getD []

/-- The leaves, joined by their links; the `i`th node is at `NODE * (i + 1)`. -/
def leafNodes (leaves : List (List Entry)) : List Buf :=
  leaves.mapIdx fun i es => nodeBytes
    (if i = 0 then kNullLink else NODE * i)
    (if i + 1 = leaves.length then kNullLink else NODE * (i + 2)) kNullLink es

/-- A node over `children`: every one but the last as an entry, the last as its
    overflow child. -/
def innerNode (children : List Entry) : Buf :=
  nodeBytes kNullLink kNullLink ((children.getLast?.map Prod.snd).getD 0) children.dropLast

/-- The levels above: one entry per child, its greatest key and its offset, until
    one node is left.  Answers the nodes, the root's offset and the levels. -/
def levelsUp : ℕ → List Entry → List Buf → ℕ → ℕ → Option (List Buf × ℕ × ℕ)
  | fuel, level, nodes, root, depth =>
    if level.length ≤ 1 then some (nodes, root, depth) else
    match fuel with
    | 0 => none
    | fuel + 1 =>
      let p := plan level
      levelsUp fuel (p.mapIdx fun i c => (lastKey c, NODE * (1 + nodes.length + i)))
        (nodes ++ p.map innerNode) (NODE * (1 + nodes.length)) (depth + 1)

/-- The nodes from the offset `pos` on, one after the other. -/
def blitNodes : Buf → ℕ → List Buf → Buf
  | b, _, [] => b
  | b, pos, n :: ns => blitNodes (blit b pos n NODE) (pos + NODE) ns

/-- A tree as it is written: its bytes, as many as `total`. -/
structure Tree where
  bytes : Buf
  total : ℕ

/-- The header and the nodes. -/
def layTree (dataType root depth : ℕ) (nodes : List Buf) : Tree :=
  let total := NODE * (1 + nodes.length)
  let header := treeHeaderBuild zero {
    nodeSize := NODE, maxLevels := depth, dataType, root, freeNode := kNullLink, maximum := total }
  ⟨blitNodes header NODE nodes, total⟩

/-- `_tree`: nothing when the levels would not end. -/
def tree (es : List Entry) : Option Tree :=
  let leaves := plan es
  let level := leaves.mapIdx fun i c => (lastKey c, NODE * (i + 1))
  (levelsUp leaves.length level (leafNodes leaves) NODE 1).map fun (nodes, root, depth) =>
    layTree kTreeStringType root depth nodes

/-! ## What the packing does -/

section
variable {es chunk : List Entry} {size : ℕ}

theorem planFrom_flatten (room : ℕ → ℕ → Bool) : ∀ (chunk : List Entry) (size : ℕ) (es : List Entry),
    (planFrom room chunk size es).flatten = chunk ++ es
  | chunk, size, [] => by simp [planFrom]
  | chunk, size, e :: es => by
    rw [planFrom]
    split_ifs with h
    · simp [planFrom_flatten]
    · simp [planFrom_flatten]

@[simp] theorem plan_flatten (es : List Entry) : (plan es).flatten = es := by
  rw [plan, planFrom_flatten, List.nil_append]

theorem planFrom_ne_nil (room : ℕ → ℕ → Bool) : ∀ {chunk : List Entry} (size : ℕ) {es : List Entry},
    chunk ≠ [] ∨ es ≠ [] → ∀ c ∈ planFrom room chunk size es, c ≠ []
  | chunk, size, [], h => by simpa [planFrom] using h
  | chunk, size, e :: es, h => by
    rw [planFrom]
    split_ifs with hc
    · intro c hmem
      rcases List.mem_cons.1 hmem with rfl | hmem
      · exact hc.1
      · exact planFrom_ne_nil room _ (Or.inl (by simp)) c hmem
    · exact planFrom_ne_nil room _ (Or.inl (by simp))

theorem plan_ne_nil (h : es ≠ []) : ∀ c ∈ plan es, c ≠ [] := planFrom_ne_nil fits 0 (Or.inr h)

theorem keyBytes_append (a b : List Entry) : keyBytes (a ++ b) = keyBytes a + keyBytes b := by
  simp [keyBytes]

@[simp] theorem keyBytes_singleton (e : Entry) : keyBytes [e] = e.1.length := by simp [keyBytes]

theorem keyBytes_le (h : ∀ e ∈ es, e.1.length ≤ kMaxName) : keyBytes es ≤ es.length * kMaxName := by
  induction es with
  | nil => simp [keyBytes]
  | cons e es ih =>
    have h₁ := h e List.mem_cons_self
    have h₂ := ih fun e he => h e (List.mem_cons_of_mem _ he)
    rw [List.length_cons, Nat.succ_mul, show keyBytes (e :: es) = e.1.length + keyBytes es by
      simp [keyBytes]]
    omega

theorem fits_of_le {count : ℕ} (hc : count ≤ 15) (hs : size ≤ count * kMaxName) :
    fits count size = true := by
  have h₁ : MAX_ENTRIES = 406 := rfl
  have h₂ : NODE = 4096 := rfl
  have h₃ : kMaxName = 255 := rfl
  rw [h₃] at hs
  simp only [fits, keyAlign, h₁, h₂, Bool.and_eq_true, decide_eq_true_eq]
  constructor <;> omega

theorem planFrom_room {room : ℕ → ℕ → Bool} : ∀ {chunk : List Entry} {es : List Entry},
    (∀ e ∈ es, room 1 e.1.length = true) → room chunk.length (keyBytes chunk) = true →
    ∀ c ∈ planFrom room chunk (keyBytes chunk) es, room c.length (keyBytes c) = true
  | chunk, [], _, hf => by simpa [planFrom] using hf
  | chunk, e :: es, hn, hf => by
    have hone := hn e List.mem_cons_self
    have hrest : ∀ e' ∈ es, room 1 e'.1.length = true := fun e' he' =>
      hn e' (List.mem_cons_of_mem _ he')
    rw [← keyBytes_singleton e, ← List.length_singleton (a := e)] at hone
    rw [planFrom]
    split_ifs with hc
    · intro c hmem
      rcases List.mem_cons.1 hmem with rfl | hmem
      · exact hf
      · refine planFrom_room hrest hone c ?_
        rwa [keyBytes_singleton]
    · have hf' : room (chunk ++ [e]).length (keyBytes (chunk ++ [e])) = true := by
        rcases Classical.em (chunk = []) with rfl | hne
        · exact hone
        · have := not_and.1 hc hne
          rw [keyBytes_append, keyBytes_singleton, List.length_append, List.length_singleton]
          simpa using this
      have := planFrom_room hrest hf'
      rwa [keyBytes_append, keyBytes_singleton] at this

theorem plan_fits (hn : ∀ e ∈ es, e.1.length ≤ kMaxName) :
    ∀ c ∈ plan es, fits c.length (keyBytes c) = true :=
  @planFrom_room fits [] es (fun e he => fits_of_le (by decide) (by simpa using hn e he)) (by decide)

theorem planFrom_length : ∀ {chunk : List Entry} {es : List Entry},
    (∀ e ∈ chunk ++ es, e.1.length ≤ kMaxName) → chunk ++ es ≠ [] →
    15 * ((planFrom fits chunk (keyBytes chunk) es).length - 1) < chunk.length + es.length
  | chunk, [], _, hne => by
    have := List.length_pos_of_ne_nil hne
    simpa [planFrom] using this
  | chunk, e :: es, hn, _ => by
    have he := hn e (by simp)
    rw [planFrom]
    split_ifs with hc
    · -- a node is full only past fifteen entries
      have hfull : 15 ≤ chunk.length := by
        by_contra hlt
        have hk := keyBytes_le fun e he => hn e (List.mem_append_left _ he)
        have hfit : fits (chunk.length + 1) (keyBytes chunk + e.1.length) = true :=
          fits_of_le (by omega) (by rw [Nat.succ_mul]; omega)
        rw [hc.2] at hfit
        cases hfit
      have ih := @planFrom_length [e] es
        (fun e' he' => hn e' (List.mem_append_right _ he')) (by simp)
      rw [keyBytes_singleton] at ih
      simp only [List.length_cons, List.length_nil] at ih ⊢
      omega
    · have ih := @planFrom_length (chunk ++ [e]) es
        (fun e' he' => hn e' (by simpa using he')) (by simp)
      rw [keyBytes_append, keyBytes_singleton] at ih
      simp only [List.length_cons, List.length_nil, List.length_append] at ih ⊢
      omega

theorem plan_length (hn : ∀ e ∈ es, e.1.length ≤ kMaxName) (hne : es ≠ []) :
    15 * ((plan es).length - 1) < es.length := by
  have := @planFrom_length [] es (by simpa using hn) (by simpa using hne)
  simpa [plan, keyBytes] using this

end

/-! ## The nodes in the tree's bytes -/

section
variable {ns : List Buf} {b : Buf} {pos j : ℕ}

theorem blitNodes_of_lt (h : j < pos) : blitNodes b pos ns j = b j := by
  induction ns generalizing b pos with
  | nil => rfl
  | cons n ns ih => rw [blitNodes, ih (by omega), blit_of_notMem (Or.inl h)]

theorem blitNodes_apply {k : ℕ} (hk : k < ns.length) (hj : j < NODE) :
    blitNodes b pos ns (pos + NODE * k + j) = ns[k] j := by
  induction ns generalizing b pos k with
  | nil => exact absurd hk (Nat.not_lt_zero k)
  | cons n ns ih =>
    cases k with
    | zero =>
      rw [blitNodes, blitNodes_of_lt (by omega), blit_of_mem (by omega) (by omega)]
      congr 1
      omega
    | succ k =>
      rw [blitNodes, Nat.mul_succ, show pos + (NODE * k + NODE) + j = pos + NODE + NODE * k + j by omega,
        ih (Nat.lt_of_succ_lt_succ hk)]
      rfl

end

def Stores (read : ℕ → Buf) (nodes : List Buf) : Prop :=
  ∀ k (h : k < nodes.length), ∀ j < NODE, nodes[k] j = read (NODE * (k + 1)) j

theorem layTree_stores {dataType root depth : ℕ} {nodes : List Buf} {read : ℕ → Buf}
    (hread : ∀ off j, off + NODE ≤ (layTree dataType root depth nodes).total → j < NODE →
      read off j = (layTree dataType root depth nodes).bytes (off + j)) : Stores read nodes := by
  intro k hk j hj
  have htotal : (layTree dataType root depth nodes).total = NODE * (1 + nodes.length) := rfl
  have hle : NODE * (k + 1) + NODE ≤ NODE * (1 + nodes.length) := by
    rw [← Nat.mul_succ]; exact Nat.mul_le_mul_left _ (by omega)
  rw [hread _ _ (by rw [htotal]; exact hle) hj, show NODE * (k + 1) + j = NODE + NODE * k + j by
    rw [Nat.mul_succ]; omega]
  exact (blitNodes_apply hk hj).symm

/-! ## The levels -/

section
variable {level es c : List Entry} {nodes : List Buf} {fuel root depth : ℕ}

theorem lastKey_append (es : List Entry) (e : Entry) : lastKey (es ++ [e]) = e.1 := by
  simp [lastKey]

theorem lastKey_length (h : ∀ e ∈ es, e.1.length ≤ kMaxName) : (lastKey es).length ≤ kMaxName := by
  rcases List.eq_nil_or_concat es with rfl | ⟨es', e, rfl⟩
  · decide
  · rw [List.concat_eq_append, lastKey_append]
    exact h e (by simp)

theorem names_of_plan (h : ∀ e ∈ level, e.1.length ≤ kMaxName) (hc : c ∈ plan level) :
    ∀ e ∈ c, e.1.length ≤ kMaxName := fun e he => h e (by
  rw [← plan_flatten level]
  exact List.mem_flatten.2 ⟨c, hc, he⟩)

theorem names_next (h : ∀ e ∈ level, e.1.length ≤ kMaxName) (addr : ℕ → ℕ) :
    ∀ e ∈ (plan level).mapIdx fun i c => (lastKey c, addr i), e.1.length ≤ kMaxName := by
  intro e he
  obtain ⟨i, hi, rfl⟩ := List.mem_mapIdx.1 he
  exact lastKey_length (names_of_plan h (List.getElem_mem hi))

theorem plan_shorter (h : ∀ e ∈ level, e.1.length ≤ kMaxName) (hl : ¬ level.length ≤ 1) :
    (plan level).length < level.length := by
  have hne : level ≠ [] := fun hnil => hl (by simp [hnil])
  have := plan_length h hne
  omega

/-- **The levels end.** -/
theorem levelsUp_some (h : ∀ e ∈ level, e.1.length ≤ kMaxName) (hf : level.length ≤ fuel + 1) :
    ∃ r, levelsUp fuel level nodes root depth = some r := by
  induction fuel generalizing level nodes root depth with
  | zero =>
    rw [levelsUp, if_pos hf]
    exact ⟨_, rfl⟩
  | succ fuel ih =>
    rw [levelsUp]
    split_ifs with hl
    · exact ⟨_, rfl⟩
    · have := plan_shorter h hl
      exact ih (names_next h _) (by simp only [List.length_mapIdx]; omega)

theorem tree_some (h : ∀ e ∈ es, e.1.length ≤ kMaxName) : ∃ t, tree es = some t := by
  obtain ⟨r, hr⟩ := @levelsUp_some ((plan es).mapIdx fun i c => (lastKey c, NODE * (i + 1)))
    (leafNodes (plan es)) (plan es).length NODE 1 (names_next h _)
    (by rw [List.length_mapIdx]; exact Nat.le_succ _)
  exact ⟨_, by rw [tree, hr]; rfl⟩

theorem levelsUp_cases {r : List Buf × ℕ × ℕ}
    (hr : levelsUp fuel level nodes root depth = some r) :
    (level.length ≤ 1 ∧ r = (nodes, root, depth)) ∨
    (1 < level.length ∧ ∃ fuel', fuel = fuel' + 1 ∧
      levelsUp fuel' ((plan level).mapIdx fun i c => (lastKey c, NODE * (1 + nodes.length + i)))
        (nodes ++ (plan level).map innerNode) (NODE * (1 + nodes.length)) (depth + 1) = some r) := by
  cases fuel with
  | zero =>
    rw [levelsUp] at hr
    split_ifs at hr with hl
    exact Or.inl ⟨hl, (Option.some.inj hr).symm⟩
  | succ fuel =>
    rw [levelsUp] at hr
    split_ifs at hr with hl
    · exact Or.inl ⟨hl, (Option.some.inj hr).symm⟩
    · exact Or.inr ⟨by omega, fuel, rfl, hr⟩

theorem levelsUp_depth {k : ℕ} {r : List Buf × ℕ × ℕ} (h : ∀ e ∈ level, e.1.length ≤ kMaxName)
    (hk : level.length ≤ 15 ^ k) (hr : levelsUp fuel level nodes root depth = some r) :
    r.2.2 ≤ depth + k := by
  induction k generalizing fuel level nodes root depth with
  | zero =>
    rcases levelsUp_cases hr with ⟨-, rfl⟩ | ⟨hl, -⟩
    · exact Nat.le_refl _
    · rw [Nat.pow_zero] at hk
      omega
  | succ k ih =>
    rcases levelsUp_cases hr with ⟨-, rfl⟩ | ⟨hl, fuel', -, hr'⟩
    · exact Nat.le_add_right _ _
    · have hne : level ≠ [] := fun hnil => by simp [hnil] at hl
      have hp := plan_length h hne
      have hpow : 15 ^ (k + 1) = 15 * 15 ^ k := Nat.pow_succ'
      have := ih (names_next h _) (by simp only [List.length_mapIdx]; omega) hr'
      omega

theorem levelsUp_prefix {r : List Buf × ℕ × ℕ}
    (hr : levelsUp fuel level nodes root depth = some r) : nodes <+: r.1 := by
  induction fuel generalizing level nodes root depth with
  | zero =>
    rcases levelsUp_cases hr with ⟨-, rfl⟩ | ⟨-, fuel', hf, -⟩
    · exact List.prefix_refl _
    · exact absurd hf (by omega)
  | succ fuel ih =>
    rcases levelsUp_cases hr with ⟨-, rfl⟩ | ⟨-, fuel', hf, hr'⟩
    · exact List.prefix_refl _
    · obtain rfl := Nat.succ.inj hf
      exact (List.prefix_append _ _).trans (ih hr')

/-! ## The tree is well formed -/

section
variable {read : ℕ → Buf} {maximum : ℕ} {k : ℕ} {final : List Buf}

theorem nodeAt_of_stores (hst : Stores read final) (hk : k < final.length)
    (hmax : maximum = NODE * (1 + final.length)) {left right overflow : ℕ}
    (hnode : final[k] = nodeBytes left right overflow es)
    (hfit : fits es.length (keyBytes es) = true) (hval : ∀ e ∈ es, e.2 < 2 ^ 64)
    (hname : ∀ e ∈ es, e.1.length ≤ kMaxName) :
    NodeAt read NODE maximum (NODE * (k + 1)) es := by
  simp only [fits, Bool.and_eq_true, decide_eq_true_eq] at hfit
  have hN : NODE = 4096 := rfl
  have hM : MAX_ENTRIES = 406 := rfl
  have hal := keyAlign_ge (28 + keyBytes es)
  have hused : nodeUsed es ≤ NODE := hfit.2
  refine ⟨?_, hused, ?_, hname⟩
  · have hh : Holds final[k] es := by
      rw [hnode]
      exact layNode_holds (by omega) (by omega) hval
    exact hh.congr fun j hj => hst k hk j (by omega)
  · rw [hmax, ← Nat.mul_succ]
    exact Nat.mul_le_mul_left _ (by omega)

theorem links_of_stores (hst : Stores read final) (hk : k < final.length) {left right overflow : ℕ}
    (hnode : final[k] = nodeBytes left right overflow es) (hl : left < 2 ^ 64) (hr : right < 2 ^ 64)
    (ho : overflow < 2 ^ 64) :
    le 8 (read (NODE * (k + 1))) NodeField.kLeftLink = left ∧
    le 8 (read (NODE * (k + 1))) NodeField.kRightLink = right ∧
    le 8 (read (NODE * (k + 1))) NodeField.kOverflowLink = overflow := by
  have hN : NODE = 4096 := rfl
  have hcongr : ∀ i, i + 8 ≤ 24 → le 8 (read (NODE * (k + 1))) i = le 8 final[k] i := fun i hi =>
    le_congr fun j hj => (hst k hk (i + j) (by omega)).symm
  have := le_layNode_links hl hr ho (Nat.le_refl (keyBytes es))
  rw [hcongr _ (by decide), hcongr _ (by decide), hcongr _ (by decide), hnode]
  exact this

theorem fits_dropLast (h : fits es.length (keyBytes es) = true) :
    fits es.dropLast.length (keyBytes es.dropLast) = true := by
  have hk : keyBytes es.dropLast ≤ keyBytes es := by
    rcases List.eq_nil_or_concat es with rfl | ⟨es', e, rfl⟩
    · exact Nat.le_refl _
    · rw [List.concat_eq_append, List.dropLast_concat, keyBytes_append]
      exact Nat.le_add_right _ _
  have hm := keyAlign_mono (Nat.add_le_add_left hk 28)
  simp only [fits, Bool.and_eq_true, decide_eq_true_eq, List.length_dropLast] at h ⊢
  omega

theorem levelsUp_done {cmp : Key → Key → Ordering} {P : Key → Prop} {ls : List (Leaf Key ℕ)}
    {st : Store Key ℕ} {d r dep : ℕ} (hl : level.length ≤ 1)
    (heq : (final, r, dep) = (nodes, root, depth)) (hroot : level.head?.map Prod.snd = some root)
    (hrow : Row cmp P (Subtree cmp P st d) none level ls) :
    ∃ d' ns, d' + depth = d + dep ∧ Subtree cmp P st d' none none r ls ns := by
  obtain ⟨-, rfl, rfl⟩ : final = nodes ∧ r = root ∧ dep = depth := by simpa using heq
  cases hrow with
  | nil => simp at hroot
  | @cons _ s c es ls₁ ls₂ ns hs hP hlt hrest =>
    obtain rfl : c = r := by simpa using hroot
    obtain rfl : es = [] := List.eq_nil_of_length_eq_zero (by simpa using hl)
    cases hrest
    exact ⟨d, ns, rfl, by simpa using hs.unbounded⟩

/-- **The levels over a row of subtrees make one tree of it.** -/
theorem levelsUp_subtree {cmp : Key → Key → Ordering} {P : Key → Prop} (o : KeyOrder cmp P)
    {ls : List (Leaf Key ℕ)} {d r dep : ℕ}
    (hst : Stores read final) (hmax : maximum = NODE * (1 + final.length)) (hlt : maximum < 2 ^ 64)
    (hr : levelsUp fuel level nodes root depth = some (final, r, dep))
    (hname : ∀ e ∈ level, e.1.length ≤ kMaxName) (hval : ∀ e ∈ level, e.2 < kNullLink)
    (hroot : level.head?.map Prod.snd = some root)
    (hrow : Row cmp P (Subtree cmp P (treeStore read NODE maximum) d) none level ls) :
    ∃ d' ns, d' + depth = d + dep ∧
      Subtree cmp P (treeStore read NODE maximum) d' none none r ls ns := by
  induction fuel generalizing level nodes root depth d with
  | zero =>
    rcases levelsUp_cases hr with ⟨hl, heq⟩ | ⟨-, fuel', hf, -⟩
    · exact levelsUp_done hl heq hroot hrow
    · exact absurd hf (by omega)
  | succ fuel ih =>
    rcases levelsUp_cases hr with ⟨hl, heq⟩ | ⟨hl, fuel', hf, hr'⟩
    · exact levelsUp_done hl heq hroot hrow
    · obtain rfl := Nat.succ.inj hf
      have hne : level ≠ [] := fun hnil => by simp [hnil] at hl
      obtain ⟨more, hmore⟩ := levelsUp_prefix hr'
      have hmore : final = nodes ++ (plan level).map innerNode ++ more := hmore.symm
      have hat : ∀ i (hi : i < (plan level).length), ∃ hk : nodes.length + i < final.length,
          final[nodes.length + i] = innerNode (plan level)[i] := by
        intro i hi
        refine ⟨by rw [hmore]; simp only [List.length_append, List.length_map]; omega, ?_⟩
        simp only [hmore]
        rw [List.getElem_append_left (by simp only [List.length_append, List.length_map]; omega),
          List.getElem_append_right (by omega)]
        simp
      have hinner : ∀ i (hi : i < (plan level).length), ∃ es s a, (plan level)[i] = es ++ [(s, a)] ∧
          lastKey (plan level)[i] = s ∧
          (treeStore read NODE maximum).inner (NODE * (1 + nodes.length + i)) es a := by
        intro i hi
        obtain ⟨hk, hnode⟩ := hat i hi
        have hmem : (plan level)[i] ∈ plan level := List.getElem_mem hi
        have hfit := plan_fits hname _ hmem
        have hsub : ∀ e ∈ (plan level)[i], e ∈ level := fun e he => by
          rw [← plan_flatten level]
          exact List.mem_flatten.2 ⟨_, hmem, he⟩
        generalize (plan level)[i] = c at *
        obtain ⟨es, ⟨s, a⟩, rfl⟩ : ∃ es e, c = es ++ [e] :=
          (List.eq_nil_or_concat' c).resolve_left (plan_ne_nil hne c hmem)
        have hvals : ∀ e ∈ es, e.2 < 2 ^ 64 := fun e he => by
          have := hval e (hsub e (List.mem_append_left _ he))
          simp only [kNullLink] at this
          omega
        have ha : a < kNullLink := hval (s, a) (hsub _ (by simp))
        have hnode' : final[nodes.length + i] = nodeBytes kNullLink kNullLink a es := by
          rw [hnode, innerNode]
          simp
        have hpos : NODE * (1 + nodes.length + i) = NODE * (nodes.length + i + 1) := by
          rw [show 1 + nodes.length + i = nodes.length + i + 1 by omega]
        have hfit' := fits_dropLast hfit
        rw [List.dropLast_concat] at hfit'
        have hnull : kNullLink < 2 ^ 64 := by decide
        refine ⟨es, s, a, rfl, lastKey_append es (s, a), ?_⟩
        rw [hpos]
        refine ⟨nodeAt_of_stores hst hk hmax hnode' hfit' hvals fun e he => ?_, ?_, by omega⟩
        · exact hname e (hsub e (List.mem_append_left _ he))
        · exact (links_of_stores hst hk hnode' hnull hnull (by omega)).2.2
      rw [← plan_flatten level] at hrow
      have hnext := Row.group o lastKey (plan level) (fun i => NODE * (1 + nodes.length + i))
        (by simp) hrow hinner
      suffices hrest : _ ∧ _ by
        obtain ⟨d', ns, hd, hsub⟩ := ih hr' (names_next hname _) hrest.1 hrest.2 hnext
        exact ⟨d', ns, by omega, hsub⟩
      refine ⟨fun e he => ?_, ?_⟩
      · obtain ⟨i, hi, rfl⟩ := List.mem_mapIdx.1 he
        obtain ⟨hk, -⟩ := hat i hi
        have : NODE * (1 + nodes.length + i) ≤ NODE * final.length :=
          Nat.mul_le_mul_left _ (by omega)
        have hN : NODE * (1 + final.length) = NODE + NODE * final.length := by ring
        have hN' : NODE = 4096 := rfl
        simp only [kNullLink]
        omega
      · obtain ⟨c, cs, hp⟩ : ∃ c cs, plan level = c :: cs := by
          rcases hp : plan level with _ | ⟨c, cs⟩
          · rw [← plan_flatten level, hp] at hne
            exact absurd rfl hne
          · exact ⟨c, cs, rfl⟩
        rw [hp, List.mapIdx_cons]
        rfl

def leavesOf (es : List Entry) : List (Leaf Key ℕ) :=
  (plan es).mapIdx fun i c => ⟨NODE * (i + 1), c⟩

theorem contents_mapIdx (addr : ℕ → ℕ) (cs : List (List Entry)) :
    contents (cs.mapIdx fun i c => (⟨addr i, c⟩ : Leaf Key ℕ)) = cs.flatten := by
  induction cs generalizing addr with
  | nil => rfl
  | cons c cs ih => rw [List.mapIdx_cons, contents_cons, List.flatten_cons, ih fun i => addr (i + 1)]

@[simp] theorem contents_leavesOf (es : List Entry) : contents (leavesOf es) = es := by
  rw [leavesOf, contents_mapIdx, plan_flatten]

theorem linked_mapIdx (cs : List (List Entry)) : ∀ (n prev : ℕ),
    (∀ i < cs.length, le 8 (read (NODE * (n + i + 1))) NodeField.kLeftLink =
        (if i = 0 then prev else NODE * (n + i)) ∧
      le 8 (read (NODE * (n + i + 1))) NodeField.kRightLink =
        if i + 1 = cs.length then kNullLink else NODE * (n + i + 2)) →
    Linked read prev (cs.mapIdx fun i c => ⟨NODE * (n + i + 1), c⟩) := by
  induction cs with
  | nil => exact fun _ _ _ => trivial
  | cons c cs ih =>
    intro n prev h
    obtain ⟨hl, hr⟩ := h 0 (Nat.succ_pos _)
    rw [List.mapIdx_cons]
    refine ⟨hl, ?_, ?_⟩
    · rw [hr]
      cases cs with
      | nil => rfl
      | cons c' cs => simp
    · have hshift : (fun i c => (⟨NODE * (n + (i + 1) + 1), c⟩ : Leaf Key ℕ)) =
          fun i c => ⟨NODE * (n + 1 + i + 1), c⟩ := by
        funext i c
        rw [show n + (i + 1) + 1 = n + 1 + i + 1 by omega]
      rw [hshift]
      refine ih (n + 1) _ fun i hi => ?_
      obtain ⟨hl', hr'⟩ := h (i + 1) (Nat.succ_lt_succ hi)
      rw [show n + (i + 1) + 1 = n + 1 + i + 1 by omega] at hl' hr'
      rw [hl', hr', if_neg (by omega), List.length_cons]
      refine ⟨?_, ?_⟩
      · split_ifs with h₀
        · rw [h₀]
        · rw [show n + (i + 1) = n + 1 + i by omega]
      · simp only [Nat.add_right_cancel_iff, show n + (i + 1) + 2 = n + 1 + i + 2 by omega]

theorem node_mul (k : ℕ) : NODE * k = 4096 * k := rfl

theorem mem_of_plan {i : ℕ} (hi : i < (plan es).length) : ∀ e ∈ (plan es)[i], e ∈ es := by
  intro e he
  rw [← plan_flatten es]
  exact List.mem_flatten.2 ⟨_, List.getElem_mem hi, he⟩

theorem leaf_of_prefix {leaves : List (List Entry)} (hpre : leafNodes leaves <+: final) {i : ℕ}
    (hi : i < leaves.length) : ∃ hk : i < final.length, final[i] = nodeBytes
      (if i = 0 then kNullLink else NODE * i)
      (if i + 1 = leaves.length then kNullLink else NODE * (i + 2)) kNullLink leaves[i] := by
  have hlen : (leafNodes leaves).length = leaves.length := List.length_mapIdx
  obtain ⟨more, rfl⟩ := hpre
  refine ⟨by rw [List.length_append]; omega, ?_⟩
  rw [List.getElem_append_left (by omega)]
  simp [leafNodes]

theorem leafLinks_of_stores (hst : Stores read final) {leaves : List (List Entry)}
    (hpre : leafNodes leaves <+: final) (hfinal : final.length < 2 ^ 32) {i : ℕ}
    (hi : i < leaves.length) :
    le 8 (read (NODE * (i + 1))) NodeField.kLeftLink = (if i = 0 then kNullLink else NODE * i) ∧
    le 8 (read (NODE * (i + 1))) NodeField.kRightLink =
      (if i + 1 = leaves.length then kNullLink else NODE * (i + 2)) ∧
    le 8 (read (NODE * (i + 1))) NodeField.kOverflowLink = kNullLink := by
  have hnull : kNullLink < 2 ^ 64 := by decide
  obtain ⟨hk, hnode⟩ := leaf_of_prefix hpre hi
  refine links_of_stores hst hk hnode ?_ ?_ hnull
  · split_ifs
    · exact hnull
    · rw [node_mul]; omega
  · split_ifs
    · exact hnull
    · rw [node_mul]; omega

theorem leaves_row (hst : Stores read final) (hpre : leafNodes (plan es) <+: final)
    (hfinal : final.length < 2 ^ 32) (hne : es ≠ []) (hs : Sorted keyCompare es)
    (hname : ∀ e ∈ es, e.1.length ≤ kMaxName) (hval : ∀ e ∈ es, e.2 < 2 ^ 64) :
    Row keyCompare (fun _ => True) (Subtree keyCompare (fun _ => True)
      (treeStore read NODE (NODE * (1 + final.length))) 0) none
      ((plan es).mapIdx fun i c => (lastKey c, NODE * (i + 1))) (leavesOf es) := by
  refine Row.leaves keyCompare_order lastKey (plan es) (fun i => NODE * (i + 1)) (fun _ _ => trivial)
    (by simp) (by rw [plan_flatten]; exact hs) (fun _ _ => trivial) fun i hi => ⟨?_, ?_⟩
  · obtain ⟨c, e, hc⟩ := (List.eq_nil_or_concat' (plan es)[i]).resolve_left
      (plan_ne_nil hne _ (List.getElem_mem hi))
    exact ⟨c, e, hc, by rw [hc, lastKey_append]⟩
  · obtain ⟨hk, hnode⟩ := leaf_of_prefix hpre hi
    have hfit := plan_fits hname _ (List.getElem_mem hi)
    exact ⟨nodeAt_of_stores hst hk rfl hnode hfit (fun e he => hval e (mem_of_plan hi e he))
      (fun e he => hname e (mem_of_plan hi e he)), (leafLinks_of_stores hst hpre hfinal hi).2.2⟩

/-- **The tree the builder writes is a well-formed tree of the entries**, at most
    four levels of inner nodes deep. -/
theorem tree_treeAt {t : Tree} (ht : tree es = some t) (hne : es ≠ [])
    (hs : Sorted keyCompare es) (hname : ∀ e ∈ es, e.1.length ≤ kMaxName)
    (hval : ∀ e ∈ es, e.2 < 2 ^ 64) (htotal : t.total ≤ 65535 * BLOCK)
    (hread : ∀ off j, off + NODE ≤ t.total → j < NODE → read off j = t.bytes (off + j)) :
    ∃ h depth, treeHeaderParse t.bytes = some h ∧ h.nodeSize = NODE ∧ h.maximum = t.total ∧
      depth ≤ 4 ∧ (plan es).length < t.total / NODE ∧
      TreeAt keyCompare (fun _ => True) read h depth (leavesOf es) := by
  rw [tree, Option.map_eq_some_iff] at ht
  obtain ⟨⟨final, r, dep⟩, hr, rfl⟩ := ht
  have hnull : kNullLink < 2 ^ 64 := by decide
  have hmax : (layTree kTreeStringType r dep final).total = NODE * (1 + final.length) := rfl
  have hst : Stores read final := layTree_stores hread
  have hpre := levelsUp_prefix hr
  have hcount : (plan es).length ≤ final.length := by
    have := hpre.length_le
    rwa [leafNodes, List.length_mapIdx] at this
  simp only [hmax] at htotal ⊢
  rw [node_mul, show 65535 * BLOCK = 65535 * 2048 from rfl] at htotal
  have hp : plan es ≠ [] := fun hnil => hne (by rw [← plan_flatten es, hnil]; rfl)
  have hroot : ((plan es).mapIdx fun i c => (lastKey c, NODE * (i + 1))).head?.map Prod.snd =
      some NODE := by
    obtain ⟨c, cs, hcs⟩ := List.exists_cons_of_ne_nil hp
    rw [hcs, List.mapIdx_cons]
    rfl
  have hoff : ∀ e ∈ (plan es).mapIdx fun i c => (lastKey c, NODE * (i + 1)), e.2 < kNullLink := by
    intro e he
    obtain ⟨i, hi, rfl⟩ := List.mem_mapIdx.1 he
    simp only [kNullLink, node_mul]
    omega
  obtain ⟨d, ns, hd, hsub⟩ := levelsUp_subtree keyCompare_order hst rfl
    (by rw [node_mul]; omega) hr (names_next hname _) hoff hroot
    (leaves_row hst hpre (by omega) hne hs hname hval)
  have hdep := @levelsUp_depth _ _ _ _ _ 4 _ (names_next hname _)
    (by simp only [List.length_mapIdx]; omega) hr
  simp only at hdep
  have hinside := subtree_inside hsub
  rw [node_mul] at hinside
  have hheader : treeHeaderParse (layTree kTreeStringType r dep final).bytes = some
      ⟨NODE, dep, kTreeStringType, r, kNullLink, NODE * (1 + final.length)⟩ := by
    rw [← @treeHeaderParse_build zero ⟨NODE, dep, kTreeStringType, r, kNullLink,
      NODE * (1 + final.length)⟩ (show NODE ≠ 0 by decide) (show NODE ≤ kMaxBlockSize by decide)
      (show dep < 2 ^ 32 by omega) (show kTreeStringType < 2 ^ 32 by decide) (show r < 2 ^ 64 by omega)
      hnull (show NODE * (1 + final.length) < 2 ^ 64 by rw [node_mul]; omega)]
    exact treeHeaderParse_congr fun j hj => blitNodes_of_lt (hj.trans (by decide))
  refine ⟨_, d, hheader, rfl, rfl, by omega, ?_, show NODE ≤ kTreeNodeSize by decide, ?_,
    ⟨ns, hsub⟩, ?_⟩
  · rw [Nat.mul_div_cancel_left _ (by decide)]
    omega
  · show NODE * (1 + final.length) < 2 ^ 64
    rw [node_mul]; omega
  · have := @linked_mapIdx read (plan es) 0 kNullLink fun i hi => by
      have := leafLinks_of_stores hst hpre (by omega) hi
      simp only [Nat.zero_add]
      exact ⟨this.1, this.2.1⟩
    simpa only [Nat.zero_add, leavesOf] using this

end

end

end Aegir.Mkfs
