/-
  The list of free regions, node by node (aegir-heap, `regions.h`).
-/
import Aegir.Lib.Chain
import Aegir.Hosted.Coalesced

namespace Aegir.Hosted

open Aegir.Lib

/-- `Regions::Node` -/
structure RegionNode where
  next : ℕ
  base : ℕ
  bytes : ℕ

/-- `Regions` -/
structure RegionList where
  node : ℕ → RegionNode
  head : ℕ
  freeNodes : ℕ
  /-- The nodes that were adopted; no list is longer. -/
  owned : List ℕ

namespace RegionList

def empty : RegionList := { node := fun _ => ⟨0, 0, 0⟩, head := 0, freeNodes := 0, owned := [] }

def setNode (s : RegionList) (n : ℕ) (v : RegionNode) : RegionList := { s with node := Function.update s.node n v }

/-- `*link` -/
def readLink (s : RegionList) (link : ℕ) : ℕ := if link = 0 then s.head else (s.node link).next

/-- `*link = n` -/
def writeLink (s : RegionList) (link n : ℕ) : RegionList :=
  if link = 0 then { s with head := n } else s.setNode link { s.node link with next := n }

def freeNode (s : RegionList) (n : ℕ) : RegionList :=
  { s.setNode n { s.node n with next := s.freeNodes } with freeNodes := n }

/-- `adopt` of a region that holds these nodes. -/
def adopt (s : RegionList) : List ℕ → RegionList
  | [] => s
  | n :: ns => adopt { s.freeNode n with owned := n :: s.owned } ns

/-- `alloc_node`: the node, or zero, and the list. -/
def allocNode (s : RegionList) (source : List ℕ) : ℕ × RegionList :=
  let s := if s.freeNodes = 0 then s.adopt source else s
  if s.freeNodes = 0 then (0, s) else (s.freeNodes, { s with freeNodes := (s.node s.freeNodes).next })

/-- The loop of `take`, from a link on. -/
def takeFrom (bytes : ℕ) : ℕ → ℕ → RegionList → ℕ × RegionList
  | 0, _, s => (0, s)
  | fuel + 1, link, s =>
    let n := s.readLink link
    if n = 0 then (0, s)
    else if bytes ≤ (s.node n).bytes then
      if (s.node n).bytes = bytes then ((s.node n).base, (s.writeLink link (s.node n).next).freeNode n)
      else (((s.node n).base + ((s.node n).bytes - bytes)) % 2 ^ 64,
        s.setNode n { s.node n with bytes := (s.node n).bytes - bytes })
    else takeFrom bytes fuel n s

/-- `take`: where the run is, or zero. -/
def take (s : RegionList) (bytes : ℕ) : ℕ × RegionList :=
  if bytes = 0 then (0, s) else takeFrom bytes (s.owned.length + 1) 0 s

/-- The loop of `give`: the link at which a region from `base` on goes. -/
def findLink (s : RegionList) (base : ℕ) : ℕ → ℕ → ℕ
  | 0, link => link
  | fuel + 1, link =>
    if s.readLink link ≠ 0 ∧ (s.node (s.readLink link)).base < base then findLink s base fuel (s.readLink link)
    else link

/-- The node `n`, with the region after it when they touch. -/
def joinAfter (s : RegionList) (n after : ℕ) : RegionList :=
  if after ≠ 0 ∧ ((s.node n).base + (s.node n).bytes) % 2 ^ 64 = (s.node after).base then
    (s.setNode n { s.node n with
      bytes := ((s.node n).bytes + (s.node after).bytes) % 2 ^ 64, next := (s.node after).next }).freeNode after
  else s

/-- The node `n` put at a link, or made part of the region before it. -/
def joinBefore (s : RegionList) (link n : ℕ) : RegionList :=
  if link ≠ 0 ∧ ((s.node link).base + (s.node link).bytes) % 2 ^ 64 = (s.node n).base then
    (s.setNode link { s.node link with
      bytes := ((s.node link).bytes + (s.node n).bytes) % 2 ^ 64, next := (s.node n).next }).freeNode n
  else s.writeLink link n

def give (s : RegionList) (base bytes : ℕ) (source : List ℕ) : Bool × RegionList :=
  if bytes = 0 ∨ base % kNodeAlign ≠ 0 then (false, s) else
  let link := s.findLink base (s.owned.length + 1) 0
  let after := s.readLink link
  if after ≠ 0 ∧ (s.node after).base < (base + bytes) % 2 ^ 64 then (false, s)
  else if link ≠ 0 ∧ base < ((s.node link).base + (s.node link).bytes) % 2 ^ 64 then (false, s)
  else
    let r := s.allocNode source
    if r.1 = 0 then (false, r.2)
    else (true, ((r.2.setNode r.1 ⟨after, base, bytes⟩).joinAfter r.1 after).joinBefore link r.1)

/-! ## What is listed -/

def extent (s : RegionList) (n : ℕ) : Extent := ⟨(s.node n).base, (s.node n).bytes⟩

def nodesFrom (s : RegionList) : ℕ → ℕ → List ℕ
  | 0, _ => []
  | fuel + 1, n => if n = 0 then [] else n :: s.nodesFrom fuel (s.node n).next

def listed (s : RegionList) : List Extent := (s.nodesFrom s.owned.length s.head).map s.extent

/-- The nodes of the list and of the pool: they are those that were adopted, each once. -/
structure Lists (s : RegionList) (l pool : List ℕ) : Prop where
  used : Chain (fun n => (s.node n).next) s.head l
  spare : Chain (fun n => (s.node n).next) s.freeNodes pool
  owned : (l ++ pool).Perm s.owned
  nodup : s.owned.Nodup

variable {s : RegionList} {l pool k k' rest : List ℕ} {link n v fuel bytes base : ℕ}

namespace Lists

theorem disjoint (h : Lists s l pool) : l.Nodup ∧ pool.Nodup ∧ ∀ n ∈ l, n ∉ pool := by
  have hn := h.owned.nodup_iff.mpr h.nodup
  obtain ⟨h₁, h₂, h₃⟩ := List.nodup_append.mp hn
  exact ⟨h₁, h₂, fun n hl hp => h₃ n hl n hp rfl⟩

theorem length_le (h : Lists s l pool) : l.length ≤ s.owned.length := by
  have := h.owned.length_eq
  rw [List.length_append] at this
  omega

theorem nodesFrom_eq (h : Chain (fun n => (s.node n).next) n l) (hf : l.length ≤ fuel) : s.nodesFrom fuel n = l := by
  induction l generalizing n fuel with
  | nil =>
    obtain rfl : n = 0 := h
    cases fuel with
    | zero => rfl
    | succ fuel => rw [nodesFrom, if_pos rfl]
  | cons a l ih =>
    obtain ⟨rfl, ha, h⟩ := h
    cases fuel with
    | zero => exact absurd hf (Nat.not_succ_le_zero _)
    | succ fuel => rw [nodesFrom, if_neg ha, ih h (Nat.le_of_succ_le_succ hf)]

theorem listed_eq (h : Lists s l pool) : s.listed = l.map s.extent := by
  rw [listed, nodesFrom_eq h.used h.length_le]

end Lists

/-! ## Walking -/

/-- The link that the cells `k` lead to. -/
def linkOf (k : List ℕ) (link : ℕ) : ℕ := k.getLast?.getD link

theorem linkOf_cons (n : ℕ) (k : List ℕ) (link : ℕ) : linkOf (n :: k) link = linkOf k n := by
  rw [linkOf, linkOf, List.getLast?_cons]
  cases k.getLast? <;> rfl

theorem readLink_node (h : n ≠ 0) : s.readLink n = (s.node n).next := by rw [readLink, if_neg h]

theorem readLink_linkOf (h : Chain (fun n => (s.node n).next) (s.readLink link) (k ++ rest)) :
    Chain (fun n => (s.node n).next) (s.readLink (linkOf k link)) rest := by
  induction k generalizing link with
  | nil => exact h
  | cons n k ih =>
    obtain ⟨hn, hz, h⟩ := h
    rw [linkOf_cons]
    exact ih (by rw [readLink_node hz]; exact h)

theorem takeFrom_skip (fuel : ℕ) (h : Chain (fun n => (s.node n).next) (s.readLink link) (k ++ rest))
    (hk : ∀ n ∈ k, (s.node n).bytes < bytes) :
    takeFrom bytes (k.length + fuel) link s = takeFrom bytes fuel (linkOf k link) s := by
  induction k generalizing link with
  | nil =>
    rw [List.length_nil, Nat.zero_add]
    rfl
  | cons n k ih =>
    obtain ⟨hn, hz, h⟩ := h
    rw [List.length_cons, Nat.succ_add, takeFrom, hn, if_neg hz, if_neg (Nat.not_le.mpr (hk n List.mem_cons_self)), linkOf_cons]
    exact ih (by rw [readLink_node hz]; exact h) fun m hm => hk m (List.mem_cons_of_mem _ hm)

theorem findLink_eq (h : Chain (fun n => (s.node n).next) (s.readLink link) l) (hf : l.length < fuel) :
    s.findLink base fuel link = linkOf (l.takeWhile fun n => (s.node n).base < base) link := by
  induction l generalizing link fuel with
  | nil =>
    obtain ⟨fuel, rfl⟩ := Nat.exists_eq_succ_of_ne_zero (Nat.ne_of_gt hf)
    rw [findLink, if_neg fun hc => hc.1 h]
    rfl
  | cons n l ih =>
    obtain ⟨hn, hz, h⟩ := h
    obtain ⟨fuel, rfl⟩ := Nat.exists_eq_succ_of_ne_zero (Nat.ne_of_gt (Nat.zero_lt_of_lt hf))
    rw [findLink, hn, List.takeWhile_cons]
    by_cases hlt : (s.node n).base < base
    · rw [if_pos ⟨hz, hlt⟩, if_pos (decide_eq_true hlt), linkOf_cons]
      exact ih (by rw [readLink_node hz]; exact h) (Nat.lt_of_succ_lt_succ hf)
    · rw [if_neg fun hc => hlt hc.2, if_neg (by simpa using hlt)]
      rfl

/-! ## List surgery -/

section
variable {t : RegionList} {m : ℕ}

theorem setNode_ne {r : RegionNode} (h : m ≠ n) : (s.setNode n r).node m = s.node m := Function.update_of_ne h ..

theorem setNode_self (s : RegionList) (n : ℕ) (r : RegionNode) : (s.setNode n r).node n = r := Function.update_self ..

theorem freeNode_ne (h : m ≠ n) : (s.freeNode n).node m = s.node m := setNode_ne h

theorem freeNode_next (s : RegionList) (n : ℕ) : ((s.freeNode n).node n).next = s.freeNodes :=
  congrArg RegionNode.next (setNode_self s n _)

theorem freeNode_extent (s : RegionList) (n m : ℕ) : (s.freeNode n).extent m = s.extent m := by
  rcases eq_or_ne m n with rfl | h
  · rw [extent, freeNode, show ({ s.setNode m _ with freeNodes := m } : RegionList).node m = _ from setNode_self s m _, extent]
  · rw [extent, freeNode_ne h, extent]

theorem writeLink_ne (h : m ≠ link) : (s.writeLink link v).node m = s.node m := by
  rw [writeLink]
  split
  · rfl
  · exact setNode_ne h

theorem writeLink_extent (s : RegionList) (link v m : ℕ) : (s.writeLink link v).extent m = s.extent m := by
  rcases eq_or_ne m link with rfl | h
  · rw [writeLink]
    split
    · rfl
    · rw [extent, setNode_self, extent]
  · rw [extent, writeLink_ne h, extent]

theorem linkOf_concat (k : List ℕ) (n link : ℕ) : linkOf (k ++ [n]) link = n := by
  rw [linkOf, List.getLast?_concat, Option.getD_some]

@[simp] theorem writeLink_freeNodes (s : RegionList) (link v : ℕ) : (s.writeLink link v).freeNodes = s.freeNodes := by
  rw [writeLink]
  split <;> rfl

@[simp] theorem writeLink_owned (s : RegionList) (link v : ℕ) : (s.writeLink link v).owned = s.owned := by
  rw [writeLink]
  split <;> rfl

theorem chain_writeLink (h : Leads (fun n => (s.node n).next) s.head k) (hk : k.Nodup)
    (h' : Chain (fun n => ((s.writeLink (linkOf k 0) v).node n).next) v k') :
    Chain (fun n => ((s.writeLink (linkOf k 0) v).node n).next) (s.writeLink (linkOf k 0) v).head (k ++ k') := by
  have hhead : (s.writeLink (linkOf k 0) v).head = if k = [] then v else s.head := by
    rcases List.eq_nil_or_concat k with rfl | ⟨k, n, rfl⟩
    · rfl
    · have hn : n ≠ 0 := h.ne_zero (by simp)
      rw [List.concat_eq_append, linkOf_concat, writeLink, if_neg hn, if_neg (by simp)]
      rfl
  rw [hhead]
  refine h.splice (fun n hn => ?_) (fun n hn => ?_) h'
  · -- the link is the last of them, and comes once
    refine congrArg RegionNode.next (writeLink_ne ?_)
    rintro rfl
    rcases List.eq_nil_or_concat k with rfl | ⟨k, n, rfl⟩
    · cases hn
    · rw [List.concat_eq_append] at hk hn
      rw [List.dropLast_concat, linkOf_concat] at hn
      exact (List.nodup_append.mp hk).2.2 n hn n List.mem_cons_self rfl
  · have hz : n ≠ 0 := h.ne_zero (List.mem_of_getLast? hn)
    have hlink : linkOf k 0 = n := by rw [linkOf, hn, Option.getD_some]
    rw [hlink, writeLink, if_neg hz, setNode_self]

/-- The node `n` is in neither list, and its `next` leads to the nodes `k'` that shall
    follow the nodes `k`. -/
structure Loose (s : RegionList) (k k' pool : List ℕ) (n : ℕ) : Prop where
  front : Leads (fun n => (s.node n).next) s.head k
  back : Chain (fun n => (s.node n).next) (s.node n).next k'
  spare : Chain (fun n => (s.node n).next) s.freeNodes pool
  owned : (k ++ n :: k' ++ pool).Perm s.owned
  nodup : s.owned.Nodup
  ne_zero : n ≠ 0

theorem Lists.loose (h : Lists s (k ++ n :: k') pool) : Loose s k k' pool n := by
  obtain ⟨-, hn, hback⟩ := h.used.suffix
  exact ⟨.of_chain h.used, hback, h.spare, h.owned, h.nodup, hn⟩

section
variable (h : Loose s k k' pool n)
include h

theorem Loose.apart : k.Nodup ∧ (∀ m ∈ k, m ≠ n ∧ m ∉ k' ∧ m ∉ pool) ∧ n ∉ k' ∧ n ∉ pool ∧ ∀ m ∈ k', m ∉ pool := by
  have hn := h.owned.nodup_iff.mpr h.nodup
  simp only [List.nodup_append, List.nodup_cons, List.mem_append, List.mem_cons] at hn
  obtain ⟨⟨hk, ⟨hnk, -⟩, hx⟩, -, hy⟩ := hn
  exact ⟨hk, fun m hm => ⟨hx m hm n (Or.inl rfl), fun hc => hx m hm m (Or.inr hc) rfl, fun hc => hy m (Or.inl hm) m hc rfl⟩,
    hnk, fun hc => hy n (Or.inr (Or.inl rfl)) n hc rfl, fun m hm hc => hy m (Or.inr (Or.inr hm)) m hc rfl⟩

theorem Loose.link_apart : linkOf k 0 ∉ k' ∧ linkOf k 0 ∉ pool ∧ linkOf k 0 ≠ n := by
  obtain ⟨-, hk, -⟩ := h.apart
  rcases List.eq_nil_or_concat k with rfl | ⟨k, b, rfl⟩
  · exact ⟨fun hc => h.back.ne_zero hc rfl, fun hc => h.spare.ne_zero hc rfl, h.ne_zero.symm⟩
  · rw [List.concat_eq_append] at hk ⊢
    rw [linkOf_concat]
    obtain ⟨h₁, h₂, h₃⟩ := hk b (List.mem_append_right _ List.mem_cons_self)
    exact ⟨h₂, h₃, h₁⟩

/-- **The node goes to its place.** -/
theorem Loose.linked : Lists (s.writeLink (linkOf k 0) n) (k ++ n :: k') pool := by
  obtain ⟨hk', hp, hn⟩ := h.link_apart
  have hne {m : ℕ} (hm : m ≠ linkOf k 0) : ((s.writeLink (linkOf k 0) n).node m).next = (s.node m).next :=
    congrArg RegionNode.next (writeLink_ne hm)
  refine ⟨chain_writeLink h.front h.apart.1 ⟨rfl, h.ne_zero, ?_⟩, ?_, ?_, ?_⟩
  · show Chain _ ((s.writeLink (linkOf k 0) n).node n).next k'
    rw [hne hn.symm]
    exact h.back.congr fun m hm => hne fun hc => hk' (hc ▸ hm)
  · rw [writeLink_freeNodes]
    exact h.spare.congr fun m hm => hne fun hc => hp (hc ▸ hm)
  · rw [writeLink_owned]
    exact h.owned
  · rw [writeLink_owned]
    exact h.nodup

/-- **The node goes to the pool**, once what precedes it is linked to what follows it. -/
theorem Loose.unlinked : Lists ((s.writeLink (linkOf k 0) (s.node n).next).freeNode n) (k ++ k') (n :: pool) := by
  obtain ⟨hk', hp, hn⟩ := h.link_apart
  obtain ⟨hkn, hk, hnk, hnp, -⟩ := h.apart
  have hne {m : ℕ} (hm : m ≠ linkOf k 0) : ((s.writeLink (linkOf k 0) (s.node n).next).node m).next = (s.node m).next :=
    congrArg RegionNode.next (writeLink_ne hm)
  have hne' {m : ℕ} (hm : m ≠ n) : (((s.writeLink (linkOf k 0) (s.node n).next).freeNode n).node m).next =
      ((s.writeLink (linkOf k 0) (s.node n).next).node m).next := congrArg RegionNode.next (freeNode_ne hm)
  have hchain := chain_writeLink h.front hkn (h.back.congr fun m hm => hne fun hc => hk' (hc ▸ hm))
  refine ⟨hchain.congr fun m hm => hne' ?_, ⟨rfl, h.ne_zero, ?_⟩, ?_, ?_⟩
  · rcases List.mem_append.mp hm with hm | hm
    · exact (hk m hm).1
    · exact fun hc => hnk (hc ▸ hm)
  · show Chain _ (((s.writeLink (linkOf k 0) (s.node n).next).freeNode n).node n).next pool
    rw [freeNode_next, writeLink_freeNodes]
    exact h.spare.congr fun m hm => (hne' fun hc => hnp (hc ▸ hm)).trans (hne fun hc => hp (hc ▸ hm))
  · show (k ++ k' ++ n :: pool).Perm (s.writeLink (linkOf k 0) (s.node n).next).owned
    rw [writeLink_owned]
    refine List.Perm.trans ?_ h.owned
    simp only [List.append_assoc, List.cons_append]
    exact List.perm_middle.append_left k
  · show (s.writeLink (linkOf k 0) (s.node n).next).owned.Nodup
    rw [writeLink_owned]
    exact h.nodup

end

theorem Loose.joined {a : ℕ} {r : RegionNode} (h : Loose s k (a :: k') pool n) (hr : r.next = (s.node a).next) :
    Loose ((s.setNode n r).freeNode a) k k' (a :: pool) n := by
  obtain ⟨-, hk, hnk, hnp, hkp⟩ := h.apart
  obtain ⟨-, ha, hback⟩ := h.back
  have hna : n ≠ a := fun hc => hnk (hc ▸ List.mem_cons_self)
  have hak : a ∉ k' := fun hc => by
    have hn := h.owned.nodup_iff.mpr h.nodup
    simp only [List.nodup_append, List.nodup_cons] at hn
    exact hn.1.2.1.2.1 hc
  have hne {m : ℕ} (hm : m ≠ n) (hm' : m ≠ a) : (((s.setNode n r).freeNode a).node m).next = (s.node m).next :=
    congrArg RegionNode.next ((freeNode_ne hm').trans (setNode_ne hm))
  refine ⟨h.front.congr fun m hm => hne (hk m hm).1 fun hc => (hk m hm).2.1 (hc ▸ List.mem_cons_self), ?_, ⟨rfl, ha, ?_⟩, ?_,
    h.nodup, h.ne_zero⟩
  · rw [freeNode_ne hna, setNode_self, hr]
    exact hback.congr fun m hm => hne (fun hc => hnk (hc ▸ List.mem_cons_of_mem _ hm)) fun hc => hak (hc ▸ hm)
  · show Chain _ (((s.setNode n r).freeNode a).node a).next pool
    rw [freeNode_next]
    exact h.spare.congr fun m hm => hne (fun hc => hnp (hc ▸ hm)) fun hc => hkp a List.mem_cons_self (hc ▸ hm)
  · show (k ++ n :: k' ++ a :: pool).Perm s.owned
    refine List.Perm.trans ?_ h.owned
    simp only [List.append_assoc, List.cons_append]
    exact (List.perm_middle.cons n).append_left k

theorem Lists.congr {t : RegionList} (h : Lists s l pool) (hn : ∀ m, (t.node m).next = (s.node m).next) (hh : t.head = s.head)
    (hf : t.freeNodes = s.freeNodes) (ho : t.owned = s.owned) : Lists t l pool := by
  refine ⟨?_, ?_, ho ▸ h.owned, ho ▸ h.nodup⟩
  · rw [hh]
    exact h.used.congr fun m _ => hn m
  · rw [hf]
    exact h.spare.congr fun m _ => hn m

theorem setNode_next {r : RegionNode} (hr : r.next = (s.node n).next) (m : ℕ) :
    ((s.setNode n r).node m).next = (s.node m).next := by
  rcases eq_or_ne m n with rfl | h
  · rw [setNode_self, hr]
  · rw [setNode_ne h]

end

/-! ## Taking -/

/-- **A take does to the list what `Regions.take` does to its regions.** -/
theorem take_refines (h : Lists s l pool) (hc : Coalesced s.listed) (hb : 0 < bytes) :
    match Regions.takeFrom bytes s.listed with
    | none => s.take bytes = (0, s)
    | some (at_, regions, _) => (s.take bytes).1 = at_ ∧ (∃ l' pool', Lists (s.take bytes).2 l' pool') ∧
        (s.take bytes).2.listed = regions := by
  have hlist := h.listed_eq
  have hlen := h.length_le
  rw [take, if_neg (Nat.pos_iff_ne_zero.mp hb)]
  rcases ht : Regions.takeFrom bytes s.listed with _ | ⟨at_, regions, count⟩
  · -- past every region
    dsimp only
    rw [Regions.takeFrom_eq_none, hlist] at ht
    have hl : Chain (fun n => (s.node n).next) (s.readLink 0) (l ++ []) := by
      rw [List.append_nil]
      exact h.used
    have hskip := takeFrom_skip (s.owned.length + 1 - l.length) hl fun n hn => ht _ (List.mem_map_of_mem hn)
    rw [Nat.add_sub_cancel' (by omega)] at hskip
    have hend : s.readLink (linkOf l 0) = 0 := readLink_linkOf hl
    rw [hskip, show s.owned.length + 1 - l.length = s.owned.length - l.length + 1 by omega, takeFrom, if_pos hend]
  · dsimp only
    obtain ⟨l₁, e, l₂, hl, hsmall, hle, rfl, rfl, -⟩ := Regions.takeFrom_eq_some ht
    rw [hlist] at hl
    obtain ⟨k, k₂, rfl, rfl, hk₂⟩ := List.map_eq_append_iff.mp hl
    obtain ⟨n, k', rfl, rfl, rfl⟩ := List.map_eq_cons_iff.mp hk₂
    -- the loop comes to the node `n`
    have hl : Chain (fun n => (s.node n).next) (s.readLink 0) (k ++ n :: k') := h.used
    have hskip := takeFrom_skip (s.owned.length + 1 - k.length) hl fun m hm => hsmall _ (List.mem_map_of_mem hm)
    rw [List.length_append, List.length_cons] at hlen
    rw [Nat.add_sub_cancel' (by omega)] at hskip
    obtain ⟨hread, hn, -⟩ := readLink_linkOf hl
    have hbytes : bytes ≤ (s.node n).bytes := hle
    rw [hskip, show s.owned.length + 1 - k.length = s.owned.length - k.length + 1 by omega, takeFrom, hread, if_neg hn,
      if_pos hbytes]
    by_cases heq : (s.node n).bytes = bytes
    · have heq' : (s.extent n).size = bytes := heq
      rw [if_pos heq, if_pos heq']
      have hlists := h.loose.unlinked
      refine ⟨?_, ⟨_, _, hlists⟩, ?_⟩
      · show _ = (s.node n).base + ((s.node n).bytes - bytes)
        rw [heq, Nat.sub_self, Nat.add_zero]
      · have hext : ((s.writeLink (linkOf k 0) (s.node n).next).freeNode n).extent = s.extent :=
          funext fun m => (freeNode_extent _ n m).trans (writeLink_extent s _ _ m)
        rw [hlists.listed_eq, hext, List.map_append]
    · have heq' : (s.extent n).size ≠ bytes := heq
      rw [if_neg heq, if_neg heq']
      have hlists : Lists (s.setNode n { s.node n with bytes := (s.node n).bytes - bytes }) (k ++ n :: k') pool :=
        h.congr (setNode_next rfl) rfl rfl rfl
      have hmem : s.extent n ∈ s.listed := hlist ▸ List.mem_map_of_mem (by simp)
      have hwithin : (s.node n).base + (s.node n).bytes ≤ 2 ^ 64 := hc.within _ hmem
      refine ⟨?_, ⟨_, _, hlists⟩, ?_⟩
      · show ((s.node n).base + ((s.node n).bytes - bytes)) % 2 ^ 64 = (s.node n).base + ((s.node n).bytes - bytes)
        exact Nat.mod_eq_of_lt (by omega)
      · obtain ⟨-, hk, hnk, -⟩ := h.loose.apart
        rw [hlists.listed_eq, List.map_append, List.map_cons]
        refine congrArg₂ _ (List.map_congr_left fun m hm => ?_) (congrArg₂ _ ?_ (List.map_congr_left fun m hm => ?_))
        · rw [extent, setNode_ne (hk m hm).1, extent]
        · rw [extent, setNode_self, extent]
        · rw [extent, setNode_ne (fun hc : m = n => hnk (hc ▸ hm)), extent]

/-! ## Giving -/

/-- The nodes of a region that the source hands over are nobody's yet. -/
structure Fresh (s : RegionList) (source : List ℕ) : Prop where
  nodup : source.Nodup
  new : ∀ n ∈ source, n ≠ 0 ∧ n ∉ s.owned

theorem Lists.adopt {source : List ℕ} (h : Lists s l pool) (hf : Fresh s source) :
    Lists (s.adopt source) l (source.reverse ++ pool) ∧ (s.adopt source).extent = s.extent := by
  induction source generalizing s pool with
  | nil => exact ⟨h, rfl⟩
  | cons n source ih =>
    obtain ⟨hn, hnew⟩ := hf.new n List.mem_cons_self
    obtain ⟨hnot, hnodup⟩ := List.nodup_cons.mp hf.nodup
    have hnl : n ∉ l ++ pool := fun hc => hnew (h.owned.mem_iff.mp hc)
    rw [List.mem_append, not_or] at hnl
    have hne {m : ℕ} (hm : m ≠ n) : ((s.freeNode n).node m).next = (s.node m).next := congrArg RegionNode.next (freeNode_ne hm)
    have hadopted : Lists { s.freeNode n with owned := n :: s.owned } l (n :: pool) := by
      refine ⟨h.used.congr fun m hm => hne fun hc => hnl.1 (hc ▸ hm), ⟨rfl, hn, ?_⟩, ?_, List.nodup_cons.mpr ⟨hnew, h.nodup⟩⟩
      · show Chain _ ((s.freeNode n).node n).next pool
        rw [freeNode_next]
        exact h.spare.congr fun m hm => hne fun hc => hnl.2 (hc ▸ hm)
      · exact List.perm_middle.trans (h.owned.cons n)
    have hfresh : Fresh { s.freeNode n with owned := n :: s.owned } source := by
      refine ⟨hnodup, fun m hm => ⟨(hf.new m (List.mem_cons_of_mem _ hm)).1, fun hc => ?_⟩⟩
      rcases List.mem_cons.mp hc with rfl | hc
      · exact hnot hm
      · exact (hf.new m (List.mem_cons_of_mem _ hm)).2 hc
    obtain ⟨hlists, hext⟩ := ih hadopted hfresh
    rw [List.reverse_cons, List.append_assoc]
    exact ⟨hlists, hext.trans (funext fun m => freeNode_extent s n m)⟩

theorem Lists.allocNode {source : List ℕ} (h : Lists s l pool) (hf : Fresh s source) (hav : pool ≠ [] ∨ source ≠ []) :
    ∃ s' n pool', s.allocNode source = (n, { s' with freeNodes := (s'.node n).next }) ∧ Lists s' l (n :: pool') ∧
      s'.extent = s.extent := by
  have hsome : ∃ s' pool', (if s.freeNodes = 0 then s.adopt source else s) = s' ∧ Lists s' l pool' ∧ pool' ≠ [] ∧
      s'.extent = s.extent := by
    by_cases hz : s.freeNodes = 0
    · obtain rfl := h.spare.eq_nil_iff.mpr hz
      obtain ⟨hlists, hext⟩ := h.adopt hf
      refine ⟨_, _, if_pos hz, hlists, ?_, hext⟩
      have hs := hav.resolve_left fun hc => hc rfl
      simpa using hs
    · exact ⟨s, pool, if_neg hz, h, fun hc => hz (h.spare.eq_nil_iff.mp hc), rfl⟩
  obtain ⟨s', pool', hs', hlists, hne, hext⟩ := hsome
  obtain ⟨n, pool', rfl⟩ := List.exists_cons_of_ne_nil hne
  obtain ⟨hfree, hn, -⟩ := hlists.spare
  refine ⟨s', n, pool', ?_, hlists, hext⟩
  rw [RegionList.allocNode, hs', hfree, if_neg hn]

theorem Lists.taken {r : RegionNode} (h : Lists s (k ++ k') (n :: pool)) (hr : r.next = k'.head?.getD 0) :
    Loose ({ s with freeNodes := (s.node n).next }.setNode n r) k k' pool n := by
  obtain ⟨hfree, hn, hspare⟩ := h.spare
  obtain ⟨-, hp, hd⟩ := h.disjoint
  have hnl : n ∉ k ++ k' := fun hc => hd n hc List.mem_cons_self
  have hnp : n ∉ pool := (List.nodup_cons.mp hp).1
  have hne {m : ℕ} (hm : m ≠ n) : (({ s with freeNodes := (s.node n).next } : RegionList).setNode n r).node m = s.node m :=
    setNode_ne hm
  have hused : Chain (fun n => (s.node n).next) (s.readLink 0) (k ++ k') := h.used
  have hback := readLink_linkOf hused
  refine ⟨(Leads.of_chain h.used).congr fun m hm => ?_, ?_, hspare.congr fun m hm => ?_, ?_, h.nodup, hn⟩
  · exact congrArg _ (hne fun hc => hnl (hc ▸ List.mem_append_left _ hm))
  · rw [setNode_self, hr, ← hback.head_eq]
    exact hback.congr fun m hm => congrArg _ (hne fun hc => hnl (hc ▸ List.mem_append_right _ hm))
  · exact congrArg _ (hne fun hc => hnp (hc ▸ hm))
  · refine List.Perm.trans ?_ h.owned
    simp only [List.append_assoc, List.cons_append]
    exact (List.perm_middle.symm).append_left k

/-- An address that neither the node's region holds nor those that follow. -/
def Hole (s : RegionList) (n : ℕ) (k : List ℕ) (a : ℕ) : Prop := a < 2 ^ 64 ∧ a ∉ s.extent n ∧ ∀ m ∈ k, a ∉ s.extent m

/-- **The region after the node's is taken in** when they touch. -/
theorem joinAfter_refines {a : ℕ} (h : Loose s k k' pool n) (hc : Coalesced (k'.map s.extent))
    (hle : ∀ f ∈ k'.map s.extent, (s.extent n).stop ≤ f.base) (ha : Hole s n k' a) :
    ∃ k'' pool', Loose (s.joinAfter n (k'.head?.getD 0)) k k'' pool' n ∧
      (s.joinAfter n (k'.head?.getD 0)).extent n :: k''.map (s.joinAfter n (k'.head?.getD 0)).extent =
        (Regions.mergeAbove (s.extent n) (k'.map s.extent)).1 ∧
      (∀ m ∈ k, (s.joinAfter n (k'.head?.getD 0)).node m = s.node m) ∧ Hole (s.joinAfter n (k'.head?.getD 0)) n k'' a := by
  cases k' with
  | nil =>
    have hsame : s.joinAfter n (([] : List ℕ).head?.getD 0) = s := if_neg fun hc => hc.1 rfl
    rw [hsame]
    exact ⟨[], pool, h, rfl, fun _ _ => rfl, ha⟩
  | cons b k' =>
    obtain ⟨-, hk, hnk, -⟩ := h.apart
    obtain ⟨-, hb, -⟩ := h.back
    obtain ⟨⟨hbn, hbw⟩, -, -⟩ := Coalesced.cons_iff.mp hc
    have hstop : (s.node n).base + (s.node n).bytes ≤ (s.node b).base := hle _ List.mem_cons_self
    have hbw : (s.node b).base + (s.node b).bytes ≤ 2 ^ 64 := hbw
    have hbn : (s.node b).bytes ≠ 0 := hbn
    have hmod : ((s.node n).base + (s.node n).bytes) % 2 ^ 64 = (s.node n).base + (s.node n).bytes := Nat.mod_eq_of_lt (by omega)
    have hna : n ≠ b := fun hc => hnk (hc ▸ List.mem_cons_self)
    rw [List.map_cons, Regions.mergeAbove, show (b :: k').head?.getD 0 = b from rfl]
    by_cases htouch : (s.node n).base + (s.node n).bytes = (s.node b).base
    · -- not the whole address space
      have hsum : ((s.node n).bytes + (s.node b).bytes) % 2 ^ 64 = (s.node n).bytes + (s.node b).bytes := by
        obtain ⟨hlt, hn, hall⟩ := ha
        have hb' := hall b List.mem_cons_self
        rw [Extent.mem_iff] at hn hb'
        have hn : ¬((s.node n).base ≤ a ∧ a < (s.node n).base + (s.node n).bytes) := hn
        have hb' : ¬((s.node b).base ≤ a ∧ a < (s.node b).base + (s.node b).bytes) := hb'
        exact Nat.mod_eq_of_lt (by omega)
      have htouch' : (s.extent n).base + (s.extent n).size = (s.extent b).base := htouch
      rw [if_pos htouch', show s.joinAfter n b = (s.setNode n { s.node n with
        bytes := (s.node n).bytes + (s.node b).bytes, next := (s.node b).next }).freeNode b by
          rw [joinAfter, hmod, if_pos ⟨hb, htouch⟩, hsum]]
      have hjoined := h.joined (r := { s.node n with
        bytes := (s.node n).bytes + (s.node b).bytes, next := (s.node b).next }) rfl
      have hext {m : ℕ} (hm : m ≠ n) : ((s.setNode n { s.node n with
          bytes := (s.node n).bytes + (s.node b).bytes, next := (s.node b).next }).freeNode b).extent m = s.extent m := by
        rw [freeNode_extent, extent, setNode_ne hm, extent]
      have hextn : ((s.setNode n { s.node n with
          bytes := (s.node n).bytes + (s.node b).bytes, next := (s.node b).next }).freeNode b).extent n =
            ⟨(s.node n).base, (s.node n).bytes + (s.node b).bytes⟩ := by
        rw [freeNode_extent, extent, setNode_self]
      refine ⟨k', _, hjoined, ?_, fun m hm => ?_, ha.1, ?_, fun m hm => ?_⟩
      · rw [hextn, List.map_congr_left fun m hm => hext fun hc : m = n => hnk (hc ▸ List.mem_cons_of_mem _ hm)]
        rfl
      · rw [freeNode_ne fun hc : m = b => (hk m hm).2.1 (hc ▸ List.mem_cons_self), setNode_ne (hk m hm).1]
      · rw [hextn, Extent.mem_iff]
        have hn := ha.2.1
        have hb' := ha.2.2 b List.mem_cons_self
        rw [Extent.mem_iff] at hn hb'
        have hn : ¬((s.node n).base ≤ a ∧ a < (s.node n).base + (s.node n).bytes) := hn
        have hb' : ¬((s.node b).base ≤ a ∧ a < (s.node b).base + (s.node b).bytes) := hb'
        dsimp only
        omega
      · rw [hext fun hc : m = n => hnk (hc ▸ List.mem_cons_of_mem _ hm)]
        exact ha.2.2 m (List.mem_cons_of_mem _ hm)
    · have htouch' : ¬(s.extent n).base + (s.extent n).size = (s.extent b).base := htouch
      rw [if_neg htouch', show s.joinAfter n b = s by rw [joinAfter, hmod, if_neg fun hc => htouch hc.2]]
      exact ⟨b :: k', pool, h, rfl, fun _ _ => rfl, ha⟩

/-- **The node goes to its place, or into the region before it** when they touch. -/
theorem joinBefore_refines {a : ℕ} (h : Loose s k k' pool n) (hle : ∀ f ∈ k.map s.extent, f.stop ≤ (s.extent n).base)
    (hn : (s.extent n).size ≠ 0) (hw : (s.extent n).stop ≤ 2 ^ 64) (ha : Hole s n k a) :
    ∃ l' pool', Lists (s.joinBefore (linkOf k 0) n) l' pool' ∧ l'.map (s.joinBefore (linkOf k 0) n).extent =
      (Regions.mergeBelow (k.map s.extent) (s.extent n :: k'.map s.extent)).1 := by
  have hw : (s.node n).base + (s.node n).bytes ≤ 2 ^ 64 := hw
  have hn : (s.node n).bytes ≠ 0 := hn
  rcases List.eq_nil_or_concat k with rfl | ⟨k, b, rfl⟩
  · -- the first of the list
    have hsame : s.joinBefore (linkOf [] 0) n = s.writeLink (linkOf [] 0) n := if_neg fun hc => hc.1 rfl
    rw [hsame]
    refine ⟨_, _, h.linked, ?_⟩
    rw [List.nil_append, List.map_cons, writeLink_extent, show (s.writeLink (linkOf [] 0) n).extent = s.extent from
      funext fun m => writeLink_extent s _ _ m]
    rfl
  rw [List.concat_eq_append] at h hle ha ⊢
  obtain ⟨hnodup, hk, hnk, -⟩ := h.apart
  obtain ⟨hbn, hbk', -⟩ := hk b (by simp)
  have hb : b ≠ 0 := h.front.ne_zero (by simp)
  have hbstop : (s.node b).base + (s.node b).bytes ≤ (s.node n).base := hle (s.extent b) (List.mem_map_of_mem (by simp))
  have hmod : ((s.node b).base + (s.node b).bytes) % 2 ^ 64 = (s.node b).base + (s.node b).bytes := Nat.mod_eq_of_lt (by omega)
  rw [linkOf_concat, Regions.mergeBelow, List.map_append, List.map_singleton, List.getLast?_concat, List.dropLast_concat]
  dsimp only
  by_cases htouch : (s.node b).base + (s.node b).bytes = (s.node n).base
  · have hsum : ((s.node b).bytes + (s.node n).bytes) % 2 ^ 64 = (s.node b).bytes + (s.node n).bytes := by
      obtain ⟨hlt, hna, hall⟩ := ha
      have hba := hall b (by simp)
      rw [Extent.mem_iff] at hna hba
      have hna : ¬((s.node n).base ≤ a ∧ a < (s.node n).base + (s.node n).bytes) := hna
      have hba : ¬((s.node b).base ≤ a ∧ a < (s.node b).base + (s.node b).bytes) := hba
      exact Nat.mod_eq_of_lt (by omega)
    have htouch' : (s.extent b).base + (s.extent b).size = (s.extent n).base := htouch
    set r : RegionNode := { s.node b with
      bytes := (s.node b).bytes + (s.node n).bytes, next := (s.node n).next } with hr
    rw [if_pos htouch', show s.joinBefore b n = (s.setNode b r).freeNode n by
      rw [joinBefore, hmod, if_pos ⟨hb, htouch⟩, hsum]]
    -- the links are those of the list without the node
    have hlists : Lists ((s.setNode b r).freeNode n) (k ++ [b] ++ k') (n :: pool) := by
      refine h.unlinked.congr (fun m => ?_) ?_ rfl ?_
      · rw [linkOf_concat, writeLink, if_neg hb]
        rcases eq_or_ne m n with rfl | hm
        · rw [freeNode_next, freeNode_next]
          rfl
        · rw [freeNode_ne hm, freeNode_ne hm]
          rcases eq_or_ne m b with rfl | hmb
          · rw [setNode_self, setNode_self]
          · rw [setNode_ne hmb, setNode_ne hmb]
      · rw [linkOf_concat, writeLink, if_neg hb]
        rfl
      · rw [linkOf_concat, writeLink, if_neg hb]
        rfl
    have hext {m : ℕ} (hm : m ≠ b) : ((s.setNode b r).freeNode n).extent m = s.extent m := by
      rw [freeNode_extent, extent, setNode_ne hm, extent]
    have hextb : ((s.setNode b r).freeNode n).extent b = ⟨(s.node b).base, (s.node b).bytes + (s.node n).bytes⟩ := by
      rw [freeNode_extent, extent, setNode_self]
    have hbk : b ∉ k := fun hc => (List.nodup_append.mp hnodup).2.2 b hc b List.mem_cons_self rfl
    refine ⟨_, _, hlists, ?_⟩
    rw [List.append_assoc, List.map_append, List.singleton_append, List.map_cons, hextb,
      List.map_congr_left fun m hm => hext fun hc : m = b => hbk (hc ▸ hm),
      List.map_congr_left fun m hm => hext fun hc : m = b => hbk' (hc ▸ hm)]
    rfl
  · have htouch' : ¬(s.extent b).base + (s.extent b).size = (s.extent n).base := htouch
    rw [if_neg htouch', show s.joinBefore b n = s.writeLink (linkOf (k ++ [b]) 0) n by
      rw [joinBefore, hmod, if_neg fun hc => htouch hc.2, linkOf_concat]]
    refine ⟨_, _, h.linked, ?_⟩
    rw [show (s.writeLink (linkOf (k ++ [b]) 0) n).extent = s.extent from funext fun m => writeLink_extent s _ _ m]
    simp only [List.map_append, List.map_cons, List.map_nil]

theorem Lists.split (h : Lists s l pool) (base : ℕ) : ∃ k k', l = k ++ k' ∧
    s.findLink base (s.owned.length + 1) 0 = linkOf k 0 ∧ s.readLink (linkOf k 0) = k'.head?.getD 0 ∧
      k.map s.extent = (⟨s.listed, pool.length⟩ : Regions).below base ∧
        k'.map s.extent = (⟨s.listed, pool.length⟩ : Regions).above base := by
  have hused : Chain (fun n => (s.node n).next) (s.readLink 0) l := h.used
  have hsplit := List.takeWhile_append_dropWhile (p := fun n => decide ((s.node n).base < base)) (l := l)
  refine ⟨_, _, hsplit.symm, findLink_eq hused (Nat.lt_succ_of_le h.length_le), ?_, ?_, ?_⟩
  · rw [← hsplit] at hused
    exact (readLink_linkOf hused).head_eq
  · rw [Regions.below, h.listed_eq, List.takeWhile_map]
    rfl
  · rw [Regions.above, h.listed_eq, List.dropWhile_map]
    rfl

/-- **A give of a run that overlaps no region does to the list what `Regions.insert` does to
    its regions.** -/
theorem give_refines {e : Extent} {source : List ℕ} {a : ℕ} (h : Lists s l pool) (hc : Coalesced s.listed)
    (hn : e.size ≠ 0) (halign : e.base % kNodeAlign = 0) (hw : e.stop ≤ 2 ^ 64) (hapart : ∀ f ∈ s.listed, e.Apart f)
    (hf : Fresh s source) (hav : pool ≠ [] ∨ source ≠ []) (ha : a < 2 ^ 64 ∧ a ∉ e ∧ ∀ f ∈ s.listed, a ∉ f) :
    (s.give e.base e.size source).1 = true ∧ ∃ l' pool', Lists (s.give e.base e.size source).2 l' pool' ∧
      (s.give e.base e.size source).2.listed = ((⟨s.listed, pool.length⟩ : Regions).insert e).free := by
  obtain ⟨k, k', rfl, hlink, hafter, hbelow, habove⟩ := h.split e.base
  have hupper : ∀ f ∈ k'.map s.extent, e.stop ≤ f.base := fun f hf =>
    Regions.stop_le_of_mem_above (r := ⟨s.listed, pool.length⟩) hc hapart (habove ▸ hf)
  have hlower : ∀ f ∈ k.map s.extent, f.stop ≤ e.base := fun f hf =>
    Regions.stop_le_of_mem_below (r := ⟨s.listed, pool.length⟩) hn hapart (hbelow ▸ hf)
  have hlist := h.listed_eq
  rw [List.map_append] at hlist
  -- neither comparison finds an overlap
  have hafter' : ¬(k'.head?.getD 0 ≠ 0 ∧ (s.node (k'.head?.getD 0)).base < (e.base + e.size) % 2 ^ 64) := by
    rintro ⟨hne, hlt⟩
    cases k' with
    | nil => exact hne rfl
    | cons b k' =>
      have hle : e.base + e.size ≤ (s.node b).base := hupper _ List.mem_cons_self
      have hmod := Nat.mod_le (e.base + e.size) (2 ^ 64)
      have hlt : (s.node b).base < (e.base + e.size) % 2 ^ 64 := hlt
      omega
  have hbefore : ¬(linkOf k 0 ≠ 0 ∧ e.base < ((s.node (linkOf k 0)).base + (s.node (linkOf k 0)).bytes) % 2 ^ 64) := by
    rintro ⟨hne, hlt⟩
    rcases List.eq_nil_or_concat k with rfl | ⟨k, b, rfl⟩
    · exact hne rfl
    · rw [List.concat_eq_append, linkOf_concat] at hlt
      have hle : (s.node b).base + (s.node b).bytes ≤ e.base := hlower (s.extent b) (List.mem_map_of_mem (by simp))
      have hmod := Nat.mod_le ((s.node b).base + (s.node b).bytes) (2 ^ 64)
      omega
  obtain ⟨s', n, pool', hnode, hlists, hext⟩ := h.allocNode hf hav
  have hn' : n ≠ 0 := hlists.spare.2.1
  have hgive : s.give e.base e.size source = (true, (({ s' with freeNodes := (s'.node n).next }.setNode n
      ⟨k'.head?.getD 0, e.base, e.size⟩).joinAfter n (k'.head?.getD 0)).joinBefore (linkOf k 0) n) := by
    rw [give, if_neg (not_or.mpr ⟨hn, not_not.mpr halign⟩)]
    dsimp only
    rw [hlink, hafter, if_neg hafter', if_neg hbefore, hnode, if_neg hn']
  rw [hgive]
  have hloose := hlists.taken (r := ⟨k'.head?.getD 0, e.base, e.size⟩) rfl
  generalize ht : ({ s' with freeNodes := (s'.node n).next } : RegionList).setNode n ⟨k'.head?.getD 0, e.base, e.size⟩ = t at hloose ⊢
  have htn : t.extent n = e := by rw [← ht, extent, setNode_self]
  have htm {m : ℕ} (hm : m ≠ n) : t.extent m = s.extent m := by
    rw [← ht, extent, setNode_ne hm, ← hext]
    rfl
  obtain ⟨-, hk, hnk, -⟩ := hloose.apart
  have hk's : k'.map t.extent = k'.map s.extent := List.map_congr_left fun m hm => htm fun hc : m = n => hnk (hc ▸ hm)
  have hupperc : Coalesced (k'.map s.extent) := (Coalesced.append_iff.mp (hlist ▸ hc)).2.1
  -- the region after it
  obtain ⟨e', l', hmerge, hbase, hmc⟩ := Regions.coalesced_mergeAbove hupperc hn hw hupper
  obtain ⟨k'', pool'', hloose', hjoined, hsame, hhole⟩ := joinAfter_refines hloose (hk's ▸ hupperc) (by rwa [hk's, htn])
    ⟨ha.1, by rw [htn]; exact ha.2.1, fun m hm => by
      rw [htm fun hc : m = n => hnk (hc ▸ hm)]
      exact ha.2.2 _ (hlist ▸ List.mem_append_right _ (List.mem_map_of_mem hm))⟩
  rw [htn, hk's, hmerge] at hjoined
  generalize t.joinAfter n (k'.head?.getD 0) = u at hloose' hjoined hsame hhole ⊢
  obtain ⟨hun, hul⟩ := List.cons.inj hjoined
  have hus {m : ℕ} (hm : m ∈ k) : u.extent m = s.extent m := by
    rw [extent, hsame m hm]
    exact htm (hk m hm).1
  have hks : k.map u.extent = k.map s.extent := List.map_congr_left fun m hm => hus hm
  -- and the one before
  obtain ⟨⟨hen, hew⟩, -, -⟩ := Coalesced.cons_iff.mp hmc
  obtain ⟨l₂, pool₂, hlists₂, hall⟩ := joinBefore_refines hloose' (by rwa [hks, hun, hbase]) (by rwa [hun]) (by rwa [hun])
    ⟨ha.1, hhole.2.1, fun m hm => by
      rw [hus hm]
      exact ha.2.2 _ (hlist ▸ List.mem_append_left _ (List.mem_map_of_mem hm))⟩
  refine ⟨rfl, l₂, pool₂, hlists₂, ?_⟩
  rw [hlists₂.listed_eq, hall, hks, hun, hul, ← hmerge, hbelow, habove]
  rfl

end RegionList

end Aegir.Hosted
