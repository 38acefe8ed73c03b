/-
  Search trees over addressed nodes.

  A store says which address holds a leaf, with its entries, and which an inner
  node, with its separators, each before a child, and a last child.  `Subtree`
  is the tree below an address: all leaves at one depth, a range of keys handed
  down from node to node and cut at the separators (a child holds the keys up to
  its separator and past the one before), and its leaves and nodes in order.

  * `Subtree.within`: the entries of the leaves, one leaf
    after the other, ascend and lie in the range;
  * `Subtree.descends_route`: following at every node the first separator a key
    is not above leads to the one leaf that may hold the key;
  * `Subtree.descends_first`: following the first child leads to the first leaf;
  * `Row.leaves`, `Row.group`: a tree built from its leaves, level by level.
-/
import Aegir.Lib.KeyOrder

namespace Aegir.Lib.BTree

variable {K V : Type}

/-- Which addresses hold which nodes. -/
structure Store (K V : Type) where
  leaf : ℕ → List (K × V) → Prop
  inner : ℕ → List (K × ℕ) → ℕ → Prop

/-- A leaf with its address. -/
structure Leaf (K V : Type) where
  addr : ℕ
  entries : List (K × V)

def contents (ls : List (Leaf K V)) : List (K × V) := ls.flatMap Leaf.entries

@[simp] theorem contents_nil : contents ([] : List (Leaf K V)) = [] := rfl

@[simp] theorem contents_cons (l : Leaf K V) (ls : List (Leaf K V)) :
    contents (l :: ls) = l.entries ++ contents ls := List.flatMap_cons

@[simp] theorem contents_append (ls ls' : List (Leaf K V)) :
    contents (ls ++ ls') = contents ls ++ contents ls' := List.flatMap_append

section
variable (cmp : K → K → Ordering)

/-- The key is past `lo` and up to `hi`, where these are there. -/
structure InRange (lo hi : Option K) (k : K) : Prop where
  past : ∀ l, lo = some l → cmp l k = .lt
  upTo : ∀ h, hi = some h → cmp k h ≠ .gt

def Sorted {W : Type} (es : List (K × W)) : Prop := es.Pairwise fun a b => cmp a.1 b.1 = .lt

/-- The child a key is looked for in: that of the first separator it is not
    above, or the last. -/
def route (k : K) : List (K × ℕ) → ℕ → ℕ
  | [], last => last
  | (s, c) :: es, last => if cmp k s = .gt then route k es last else c

/-- The children of an inner node, each with the part of the range the
    separators leave it. -/
inductive Chain (P : K → Prop) (sub : Option K → Option K → ℕ → List (Leaf K V) → List ℕ → Prop) :
    Option K → Option K → List (K × ℕ) → ℕ → List (Leaf K V) → List ℕ → Prop
  | last {lo hi : Option K} {c : ℕ} {ls : List (Leaf K V)} {ns : List ℕ} :
      sub lo hi c ls ns → Chain P sub lo hi [] c ls ns
  | cons {lo hi : Option K} {s : K} {c last : ℕ} {es : List (K × ℕ)} {ls ls' : List (Leaf K V)}
      {ns ns' : List ℕ} : sub lo (some s) c ls ns → P s → InRange cmp lo hi s →
      Chain P sub (some s) hi es last ls' ns' →
      Chain P sub lo hi ((s, c) :: es) last (ls ++ ls') (ns ++ ns')

/-- The tree of depth `d` below the address `p` for the keys past `lo` and up to
    `hi`: its leaves in order, and the addresses of its nodes. -/
def Subtree (P : K → Prop) (st : Store K V) :
    ℕ → Option K → Option K → ℕ → List (Leaf K V) → List ℕ → Prop
  | 0, lo, hi, p, ls, ns => ∃ es, st.leaf p es ∧ Sorted cmp es ∧
      (∀ e ∈ es, P e.1 ∧ InRange cmp lo hi e.1) ∧ ls = [⟨p, es⟩] ∧ ns = [p]
  | d + 1, lo, hi, p, ls, ns => ∃ es last ns', st.inner p es last ∧
      Chain cmp P (Subtree P st d) lo hi es last ls ns' ∧ ns = p :: ns'

/-- From `p` down `d` inner nodes, at each to the child `pick` names, to `q`. -/
inductive Descends (st : Store K V) (pick : List (K × ℕ) → ℕ → ℕ) : ℕ → ℕ → ℕ → Prop
  | here {p : ℕ} : Descends st pick 0 p p
  | down {d p q last : ℕ} {es : List (K × ℕ)} : st.inner p es last →
      Descends st pick d (pick es last) q → Descends st pick (d + 1) p q

end

def firstChild : List (K × ℕ) → ℕ → ℕ
  | [], last => last
  | (_, c) :: _, _ => c

/-! ## Ranges -/

section
variable {cmp : K → K → Ordering} {P : K → Prop} (o : KeyOrder cmp P)

theorem inRange_all (k : K) : InRange cmp none none k :=
  ⟨fun _ h => absurd h (by simp), fun _ h => absurd h (by simp)⟩

variable {lo hi : Option K} {s k : K} (hs : P s) (hk : P k)
variable (hlo : ∀ l, lo = some l → P l) (hhi : ∀ h, hi = some h → P h)
include o hs hk

include hhi in
theorem InRange.of_upTo (h : InRange cmp lo (some s) k) (hr : InRange cmp lo hi s) :
    InRange cmp lo hi k :=
  ⟨h.past, fun u hu => o.ne_gt_trans hk hs (hhi u hu) (h.upTo s rfl) (hr.upTo u hu)⟩

include hlo in
theorem InRange.of_past (h : InRange cmp (some s) hi k) (hr : InRange cmp lo hi s) :
    InRange cmp lo hi k :=
  ⟨fun l hl => o.trans (hlo l hl) hs hk (hr.past l hl) (h.past s rfl), h.upTo⟩

end

/-! ## The entries of a tree -/

section
variable {cmp : K → K → Ordering} {P : K → Prop} {st : Store K V} (o : KeyOrder cmp P)
variable {sub : Option K → Option K → ℕ → List (Leaf K V) → List ℕ → Prop}

/-- What a subtree says of its entries: they are in the range, and ascend. -/
structure Within (cmp : K → K → Ordering) (P : K → Prop) (lo hi : Option K)
    (ls : List (Leaf K V)) : Prop where
  inRange : ∀ e ∈ contents ls, P e.1 ∧ InRange cmp lo hi e.1
  sorted : Sorted cmp (contents ls)

include o

theorem Chain.within {lo hi : Option K} {es : List (K × ℕ)} {last : ℕ} {ls : List (Leaf K V)}
    {ns : List ℕ} (hc : Chain cmp P sub lo hi es last ls ns)
    (hsub : ∀ {lo hi c ls ns}, (∀ l, lo = some l → P l) → (∀ h, hi = some h → P h) →
      sub lo hi c ls ns → Within cmp P lo hi ls)
    (hlo : ∀ l, lo = some l → P l) (hhi : ∀ h, hi = some h → P h) : Within cmp P lo hi ls := by
  induction hc with
  | last hs => exact hsub hlo hhi hs
  | @cons lo hi s c last es ls ls' ns ns' hs hP hr hrest ih =>
    have h₁ := hsub hlo (fun h hh => Option.some.inj hh ▸ hP) hs
    have h₂ := ih (fun l hl => Option.some.inj hl ▸ hP) hhi
    refine ⟨fun e he => ?_, ?_⟩
    · rw [contents_append, List.mem_append] at he
      rcases he with he | he
      · obtain ⟨hPe, hre⟩ := h₁.inRange e he
        exact ⟨hPe, hre.of_upTo o hP hPe hhi hr⟩
      · obtain ⟨hPe, hre⟩ := h₂.inRange e he
        exact ⟨hPe, hre.of_past o hP hPe hlo hr⟩
    · rw [contents_append]
      refine List.pairwise_append.2 ⟨h₁.sorted, h₂.sorted, fun a ha b hb => ?_⟩
      -- an entry before the separator and one past it
      obtain ⟨hPa, hra⟩ := h₁.inRange a ha
      obtain ⟨hPb, hrb⟩ := h₂.inRange b hb
      exact o.lt_of_ne_gt_of_lt hPa hP hPb (hra.upTo s rfl) (hrb.past s rfl)

theorem Subtree.within {d p : ℕ} {lo hi : Option K} {ls : List (Leaf K V)} {ns : List ℕ}
    (hlo : ∀ l, lo = some l → P l) (hhi : ∀ h, hi = some h → P h)
    (h : Subtree cmp P st d lo hi p ls ns) : Within cmp P lo hi ls := by
  induction d generalizing lo hi p ls ns with
  | zero =>
    obtain ⟨es, -, hs, hr, rfl, -⟩ := h
    exact ⟨by simpa using hr, by simpa using hs⟩
  | succ d ih =>
    obtain ⟨es, last, ns', -, hc, -⟩ := h
    exact hc.within o (fun hlo hhi h => ih hlo hhi h) hlo hhi

/-- Ascending entries are looked up by their keys. -/
theorem Sorted.lookup {W : Type} [BEq K] [LawfulBEq K] {es : List (K × W)} (hs : Sorted cmp es)
    (hP : ∀ e ∈ es, P e.1) : ∀ e ∈ es, es.lookup e.1 = some e.2 := by
  induction es with
  | nil => simp
  | cons a es ih =>
    intro e he
    obtain ⟨hhead, htail⟩ := List.pairwise_cons.1 hs
    rcases List.mem_cons.1 he with rfl | he
    · simp [List.lookup]
    · have hne : e.1 ≠ a.1 := fun heq =>
        o.irrefl (hP a List.mem_cons_self) (heq ▸ hhead e he)
      rw [List.lookup, beq_false_of_ne hne]
      exact ih htail (fun e he => hP e (List.mem_cons_of_mem _ he)) e he

/-! ## Descending -/

/-- The child a key is routed to, among the leaves of a chain. -/
theorem Chain.route {lo hi : Option K} {es : List (K × ℕ)} {last : ℕ} {ls : List (Leaf K V)}
    {ns : List ℕ} {k : K} (hc : Chain cmp P sub lo hi es last ls ns)
    (hsub : ∀ {lo hi c ls ns}, (∀ l, lo = some l → P l) → (∀ h, hi = some h → P h) →
      sub lo hi c ls ns → Within cmp P lo hi ls)
    (hlo : ∀ l, lo = some l → P l) (hhi : ∀ h, hi = some h → P h) (hk : P k)
    (hr : InRange cmp lo hi k) :
    ∃ lo' hi' pre ls' post ns', sub lo' hi' (route cmp k es last) ls' ns' ∧
      InRange cmp lo' hi' k ∧ (∀ l, lo' = some l → P l) ∧ (∀ h, hi' = some h → P h) ∧
      ls = pre ++ ls' ++ post ∧ (∀ e ∈ contents pre, cmp e.1 k = .lt) ∧
      ∀ e ∈ contents post, cmp k e.1 = .lt := by
  induction hc with
  | @last lo hi c ls ns hs =>
    exact ⟨lo, hi, [], ls, [], ns, hs, hr, hlo, hhi, by simp, by simp, by simp⟩
  | @cons lo hi s c last es ls ls' ns ns' hs hP hrs hrest ih =>
    have hPs : ∀ h, some s = some h → P h := fun h hh => Option.some.inj hh ▸ hP
    by_cases hgt : cmp k s = .gt
    · -- past the separator: nothing of this child is the key
      have hsk : cmp s k = .lt := (o.gt_iff hk hP).1 hgt
      obtain ⟨lo', hi', pre, ls₁, post, ns₁, h₁, h₂, h₃, h₄, rfl, h₅, h₆⟩ :=
        ih hPs hhi ⟨fun l hl => Option.some.inj hl ▸ hsk, hr.upTo⟩
      have hw := hsub hlo hPs hs
      refine ⟨lo', hi', ls ++ pre, ls₁, post, ns₁, ?_, h₂, h₃, h₄, by simp, ?_, h₆⟩
      · rw [BTree.route, if_pos hgt]; exact h₁
      · intro e he
        rw [contents_append, List.mem_append] at he
        rcases he with he | he
        · obtain ⟨hPe, hre⟩ := hw.inRange e he
          exact o.lt_of_ne_gt_of_lt hPe hP hk (hre.upTo s rfl) hsk
        · exact h₅ e he
    · have hw := hrest.within o hsub hPs hhi
      refine ⟨lo, some s, [], ls, ls', ns, ?_,
        ⟨hr.past, fun h hh => Option.some.inj hh ▸ hgt⟩, hlo, hPs, by simp, by simp, ?_⟩
      · rw [BTree.route, if_neg hgt]; exact hs
      · intro e he
        obtain ⟨hPe, hre⟩ := hw.inRange e he
        exact o.lt_of_ne_gt_of_lt hk hP hPe hgt (hre.past s rfl)

/-- **A key is looked for in the one leaf that may hold it.** -/
theorem Subtree.descends_route {d p : ℕ} {lo hi : Option K} {ls : List (Leaf K V)} {ns : List ℕ}
    {k : K} (h : Subtree cmp P st d lo hi p ls ns) (hlo : ∀ l, lo = some l → P l)
    (hhi : ∀ h, hi = some h → P h) (hk : P k) (hr : InRange cmp lo hi k) :
    ∃ pre l post, ls = pre ++ l :: post ∧ Descends st (route cmp k) d p l.addr ∧
      (∀ e ∈ contents pre, cmp e.1 k = .lt) ∧ ∀ e ∈ contents post, cmp k e.1 = .lt := by
  induction d generalizing lo hi p ls ns with
  | zero =>
    obtain ⟨es, -, -, -, rfl, -⟩ := h
    exact ⟨[], ⟨p, es⟩, [], rfl, .here, by simp, by simp⟩
  | succ d ih =>
    obtain ⟨es, last, ns', hin, hc, -⟩ := h
    obtain ⟨lo', hi', pre, ls', post, ns', h₁, h₂, h₃, h₄, rfl, h₅, h₆⟩ :=
      hc.route o (fun hlo hhi h => Subtree.within o hlo hhi h) hlo hhi hk hr
    obtain ⟨pre', l, post', rfl, h₇, h₈, h₉⟩ := ih h₁ h₃ h₄ h₂
    refine ⟨pre ++ pre', l, post' ++ post, by simp, .down hin h₇, ?_, ?_⟩
    · intro e he
      rw [contents_append, List.mem_append] at he
      exact he.elim (h₅ e) (h₈ e)
    · intro e he
      rw [contents_append, List.mem_append] at he
      exact he.elim (h₉ e) (h₆ e)

omit o

theorem Chain.leaves {Q : Leaf K V → Prop} {lo hi : Option K} {es : List (K × ℕ)} {last : ℕ}
    {ls : List (Leaf K V)} {ns : List ℕ} (hc : Chain cmp P sub lo hi es last ls ns)
    (hsub : ∀ {lo hi c ls ns}, sub lo hi c ls ns → ∀ l ∈ ls, Q l) : ∀ l ∈ ls, Q l := by
  induction hc with
  | last hs => exact hsub hs
  | cons hs _ _ _ ih =>
    intro l hl
    exact (List.mem_append.1 hl).elim (hsub hs l) (ih l)

/-- Every leaf of a tree is one of the store, its entries ascending. -/
theorem Subtree.leaves {d p : ℕ} {lo hi : Option K} {ls : List (Leaf K V)} {ns : List ℕ}
    (h : Subtree cmp P st d lo hi p ls ns) :
    ∀ l ∈ ls, st.leaf l.addr l.entries ∧ Sorted cmp l.entries := by
  induction d generalizing lo hi p ls ns with
  | zero =>
    obtain ⟨es, hl, hs, -, rfl, -⟩ := h
    intro l hmem
    rw [List.mem_singleton.1 hmem]
    exact ⟨hl, hs⟩
  | succ d ih =>
    obtain ⟨es, last, ns', -, hc, -⟩ := h
    exact hc.leaves fun h => ih h

/-- A key no separator need be comparable to is routed to a child all the same. -/
theorem Chain.route_mem {lo hi : Option K} {es : List (K × ℕ)} {last : ℕ} {ls : List (Leaf K V)}
    {ns : List ℕ} (k : K) (hc : Chain cmp P sub lo hi es last ls ns) :
    ∃ lo' hi' ls' ns', sub lo' hi' (BTree.route cmp k es last) ls' ns' ∧ ls' ⊆ ls := by
  induction hc with
  | @last lo hi c ls ns hs => exact ⟨lo, hi, ls, ns, hs, fun _ h => h⟩
  | @cons lo hi s c last es ls ls' ns ns' hs hP hr hrest ih =>
    by_cases hgt : cmp k s = .gt
    · obtain ⟨lo', hi', ls₁, ns₁, h₁, h₂⟩ := ih
      refine ⟨lo', hi', ls₁, ns₁, ?_, fun l hl => List.mem_append_right _ (h₂ hl)⟩
      rw [BTree.route, if_pos hgt]; exact h₁
    · refine ⟨lo, some s, ls, ns, ?_, fun l hl => List.mem_append_left _ hl⟩
      rw [BTree.route, if_neg hgt]; exact hs

/-- Every key is looked for in some leaf. -/
theorem Subtree.descends_mem {d p : ℕ} {lo hi : Option K} {ls : List (Leaf K V)} {ns : List ℕ}
    (k : K) (h : Subtree cmp P st d lo hi p ls ns) :
    ∃ l ∈ ls, Descends st (BTree.route cmp k) d p l.addr := by
  induction d generalizing lo hi p ls ns with
  | zero =>
    obtain ⟨es, -, -, -, rfl, -⟩ := h
    exact ⟨⟨p, es⟩, List.mem_singleton_self _, .here⟩
  | succ d ih =>
    obtain ⟨es, last, ns', hin, hc, -⟩ := h
    obtain ⟨lo', hi', ls', ns', h₁, h₂⟩ := hc.route_mem k
    obtain ⟨l, hl, h₃⟩ := ih h₁
    exact ⟨l, h₂ hl, .down hin h₃⟩

/-- **The first children lead to the first leaf.** -/
theorem Subtree.descends_first {d p : ℕ} {lo hi : Option K} {ls : List (Leaf K V)} {ns : List ℕ}
    (h : Subtree cmp P st d lo hi p ls ns) :
    ∃ l post, ls = l :: post ∧ Descends st firstChild d p l.addr := by
  induction d generalizing lo hi p ls ns with
  | zero =>
    obtain ⟨es, -, -, -, rfl, -⟩ := h
    exact ⟨⟨p, es⟩, [], rfl, .here⟩
  | succ d ih =>
    obtain ⟨es, last, ns', hin, hc, -⟩ := h
    cases hc with
    | last hs =>
      obtain ⟨l, post, rfl, h₁⟩ := ih hs
      exact ⟨l, post, rfl, .down hin h₁⟩
    | @cons _ _ s c _ es' ls₁ ls₂ ns₁ ns₂ hs hP hr hrest =>
      obtain ⟨l, post, rfl, h₁⟩ := ih hs
      exact ⟨l, post ++ ls₂, rfl, .down hin h₁⟩

end

/-! ## Building a tree level by level

A row of subtrees side by side, each under its greatest key; inner nodes that
take the row a few children at a time make a row of the next depth. -/

section
variable (cmp : K → K → Ordering)

/-- Subtrees side by side: the keys of each lie past the key of the one before
    and up to its own. -/
inductive Row (P : K → Prop) (sub : Option K → Option K → ℕ → List (Leaf K V) → List ℕ → Prop) :
    Option K → List (K × ℕ) → List (Leaf K V) → Prop
  | nil {lo : Option K} : Row P sub lo [] []
  | cons {lo : Option K} {s : K} {c : ℕ} {es : List (K × ℕ)} {ls ls' : List (Leaf K V)}
      {ns : List ℕ} : sub lo (some s) c ls ns → P s → (∀ l, lo = some l → cmp l s = .lt) →
      Row P sub (some s) es ls' → Row P sub lo ((s, c) :: es) (ls ++ ls')

end

section
variable {cmp : K → K → Ordering} {P : K → Prop} {st : Store K V} (o : KeyOrder cmp P)
variable {sub : Option K → Option K → ℕ → List (Leaf K V) → List ℕ → Prop}

/-- A row can be cut in two. -/
theorem Row.split {c rest : List (K × ℕ)} {lo : Option K} {ls : List (Leaf K V)} {s : K} {a : ℕ}
    (h : Row cmp P sub lo (c ++ (s, a) :: rest) ls) :
    ∃ ls₁ ls₂, ls = ls₁ ++ ls₂ ∧ Row cmp P sub lo (c ++ [(s, a)]) ls₁ ∧
      Row cmp P sub (some s) rest ls₂ := by
  induction c generalizing lo ls with
  | nil =>
    cases h with
    | @cons _ _ _ _ ls₁ ls₂ _ hs hP hlt hrest =>
      exact ⟨ls₁, ls₂, rfl, by simpa using Row.cons hs hP hlt .nil, hrest⟩
  | cons e c ih =>
    cases h with
    | @cons _ _ _ _ ls₁ ls₂ _ hs hP hlt hrest =>
      obtain ⟨ls₃, ls₄, rfl, h₁, h₂⟩ := ih hrest
      exact ⟨ls₁ ++ ls₃, ls₄, by simp, .cons hs hP hlt h₁, h₂⟩

include o

/-- The last key of a row is the greatest. -/
theorem Row.last_mem {es : List (K × ℕ)} {lo : Option K} {ls : List (Leaf K V)} {s : K} {a : ℕ}
    (hlo : ∀ l, lo = some l → P l) (h : Row cmp P sub lo (es ++ [(s, a)]) ls) :
    P s ∧ ∀ l, lo = some l → cmp l s = .lt := by
  induction es generalizing lo ls with
  | nil =>
    cases h with
    | cons _ hP hlt _ => exact ⟨hP, hlt⟩
  | cons e es ih =>
    cases h with
    | @cons _ s' _ _ _ _ _ _ hP hlt hrest =>
      obtain ⟨h₁, h₂⟩ := ih (fun l hl => Option.some.inj hl ▸ hP) hrest
      exact ⟨h₁, fun l hl => o.trans (hlo l hl) hP h₁ (hlt l hl) (h₂ s' rfl)⟩

/-- A row under one inner node, the last child past the last separator. -/
theorem Row.chain {es : List (K × ℕ)} {lo : Option K} {ls : List (Leaf K V)} {s : K} {a : ℕ}
    (h : Row cmp P sub lo (es ++ [(s, a)]) ls) :
    ∃ ns, Chain cmp P sub lo (some s) es a ls ns := by
  induction es generalizing lo ls with
  | nil =>
    cases h with
    | @cons _ _ _ _ ls₁ _ ns hs _ _ hrest =>
      cases hrest
      exact ⟨ns, by simpa using Chain.last hs⟩
  | cons e es ih =>
    cases h with
    | @cons _ s' _ _ ls₁ ls₂ ns hs hP hlt hrest =>
      obtain ⟨ns', hc⟩ := ih hrest
      obtain ⟨hPs, hlast⟩ := hrest.last_mem o fun l hl => Option.some.inj hl ▸ hP
      refine ⟨ns ++ ns', Chain.cons hs hP ⟨hlt, fun h hh => ?_⟩ hc⟩
      rw [← Option.some.inj hh, hlast s' rfl]
      decide

/-- **Inner nodes over a row make a row of the next depth.** -/
theorem Row.group {d : ℕ} (key : List (K × ℕ) → K) (cs : List (List (K × ℕ))) :
    ∀ {lo : Option K} {ls : List (Leaf K V)} (addr : ℕ → ℕ), (∀ l, lo = some l → P l) →
    Row cmp P (Subtree cmp P st d) lo cs.flatten ls →
    (∀ i (h : i < cs.length), ∃ es s a, cs[i] = es ++ [(s, a)] ∧ key cs[i] = s ∧
      st.inner (addr i) es a) →
    Row cmp P (Subtree cmp P st (d + 1)) lo (cs.mapIdx fun i c => (key c, addr i)) ls := by
  induction cs with
  | nil =>
    intro lo ls addr _ h _
    cases h
    exact .nil
  | cons c cs ih =>
    intro lo ls addr hlo h hin
    obtain ⟨es, s, a, hc, hkey, hinner⟩ := hin 0 (Nat.succ_pos _)
    rw [List.getElem_cons_zero] at hc hkey
    subst hc
    rw [List.flatten_cons, List.append_assoc] at h
    obtain ⟨ls₁, ls₂, rfl, h₁, h₂⟩ := h.split
    obtain ⟨ns, hchain⟩ := h₁.chain o
    obtain ⟨hPs, hlt⟩ := h₁.last_mem o hlo
    have hsub : Subtree cmp P st (d + 1) lo (some s) (addr 0) ls₁ (addr 0 :: ns) :=
      ⟨es, a, ns, hinner, hchain, rfl⟩
    rw [List.mapIdx_cons, hkey]
    refine .cons hsub hPs hlt ?_
    exact ih (fun i => addr (i + 1)) (fun l hl => Option.some.inj hl ▸ hPs) h₂
      fun i hi => hin (i + 1) (Nat.succ_lt_succ hi)

omit o

/-- Leaves of ascending entries side by side are a row. -/
theorem Row.leaves (o : KeyOrder cmp P) (key : List (K × V) → K) (cs : List (List (K × V))) :
    ∀ {lo : Option K} (addr : ℕ → ℕ), (∀ l, lo = some l → P l) →
    (∀ l, lo = some l → ∀ e ∈ cs.flatten, cmp l e.1 = .lt) →
    Sorted cmp cs.flatten → (∀ e ∈ cs.flatten, P e.1) →
    (∀ i (h : i < cs.length), (∃ es e, cs[i] = es ++ [e] ∧ key cs[i] = e.1) ∧
      st.leaf (addr i) cs[i]) →
    Row cmp P (Subtree cmp P st 0) lo (cs.mapIdx fun i c => (key c, addr i))
      (cs.mapIdx fun i c => ⟨addr i, c⟩) := by
  induction cs with
  | nil => exact fun _ _ _ _ _ _ => .nil
  | cons c cs ih =>
    intro lo addr hlo hpast hs hP hin
    obtain ⟨⟨es, e, hc, hkey⟩, hleaf⟩ := hin 0 (Nat.succ_pos _)
    rw [List.getElem_cons_zero] at hc hkey hleaf
    rw [List.flatten_cons] at hs hP hpast
    obtain ⟨hs₁, hs₂, hs₃⟩ := List.pairwise_append.1 hs
    have he : e ∈ c := by rw [hc]; simp
    have hPe : P e.1 := hP e (List.mem_append_left _ he)
    have hup : ∀ e' ∈ c, cmp e'.1 e.1 ≠ .gt := by
      intro e' he'
      rw [hc] at hs₁ he'
      rcases List.mem_append.1 he' with hmem | hmem
      · rw [(List.pairwise_append.1 hs₁).2.2 e' hmem e (List.mem_singleton_self e)]; decide
      · rw [List.mem_singleton.1 hmem, (o.eq_iff hPe hPe).2 rfl]; decide
    have hsub : Subtree cmp P st 0 lo (some e.1) (addr 0) [⟨addr 0, c⟩] [addr 0] := by
      refine ⟨c, hleaf, hs₁, fun e' he' => ?_, rfl, rfl⟩
      refine ⟨hP e' (List.mem_append_left _ he'), fun l hl => hpast l hl e' ?_, fun h hh => ?_⟩
      · exact List.mem_append_left _ he'
      · exact Option.some.inj hh ▸ hup e' he'
    rw [List.mapIdx_cons, List.mapIdx_cons, hkey]
    refine .cons hsub hPe (fun l hl => hpast l hl e (List.mem_append_left _ he)) ?_
    refine ih (fun i => addr (i + 1)) (fun l hl => Option.some.inj hl ▸ hPe) (fun l hl e' he' => ?_)
      hs₂ (fun e' he' => hP e' (List.mem_append_right _ he'))
      fun i hi => hin (i + 1) (Nat.succ_lt_succ hi)
    exact Option.some.inj hl ▸ hs₃ e he e' he'

/-- A tree is one for every key past `lo` as well. -/
theorem Subtree.unbounded {d p : ℕ} {lo hi : Option K} {ls : List (Leaf K V)} {ns : List ℕ}
    (h : Subtree cmp P st d lo hi p ls ns) : Subtree cmp P st d lo none p ls ns := by
  induction d generalizing lo hi p ls ns with
  | zero =>
    obtain ⟨es, hl, hs, hr, hls, hns⟩ := h
    exact ⟨es, hl, hs, fun e he => ⟨(hr e he).1, (hr e he).2.past, by simp⟩, hls, hns⟩
  | succ d ih =>
    obtain ⟨es, last, ns', hin, hc, hns⟩ := h
    refine ⟨es, last, ns', hin, ?_, hns⟩
    clear hin hns
    induction hc with
    | last hs => exact .last (ih hs)
    | cons hs hP hr _ ih' => exact .cons hs hP ⟨hr.past, by simp⟩ ih'

end

end Aegir.Lib.BTree
