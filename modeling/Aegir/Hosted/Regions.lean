/-
  The regions the hosted heap has free (aegir-heap, `regions.h`).
-/
import Aegir.Lib.Extent

namespace Aegir.Hosted

open Aegir.Lib
open Aegir.Lib.Extent (cover cover_cons cover_nil cover_append cover_perm cover_split mem_iff)

/-- `Regions`: the free regions in address order, and the nodes in the pool. -/
structure Regions where
  free : List Extent
  nodes : ℕ

/-- `sizeof(Node)` and `alignof(Node)` -/
def kNodeBytes : ℕ := 24
def kNodeAlign : ℕ := 8

namespace Regions

/-- The loop of `take`: where the run is, the regions that are left and the nodes they leave. -/
def takeFrom (bytes : ℕ) : List Extent → Option (ℕ × List Extent × ℕ)
  | [] => none
  | r :: rs =>
    if r.size < bytes then (takeFrom bytes rs).map fun t => (t.1, r :: t.2.1, t.2.2)
    else if r.size = bytes then some (r.base, rs, 1)
    else some (r.base + (r.size - bytes), ⟨r.base, r.size - bytes⟩ :: rs, 0)

def take (r : Regions) (bytes : ℕ) : Option (ℕ × Regions) :=
  if bytes = 0 then none
  else (takeFrom bytes r.free).map fun t => (t.1, ⟨t.2.1, r.nodes + t.2.2⟩)

def below (r : Regions) (base : ℕ) : List Extent := r.free.takeWhile (·.base < base)
def above (r : Regions) (base : ℕ) : List Extent := r.free.dropWhile (·.base < base)

/-- Why `give` refuses a run before it asks for a node: it is empty, not aligned, or overlaps
    the region on either side. -/
def refuses (r : Regions) (e : Extent) : Bool :=
  decide (e.size = 0 ∨ e.base % kNodeAlign ≠ 0) ||
    (r.above e.base).head?.any (fun a => e.base + e.size > a.base) ||
    (r.below e.base).getLast?.any (fun b => b.base + b.size > e.base)

/-- The run with the region that starts where it stops, if there is one. -/
def mergeAbove (e : Extent) : List Extent → List Extent × ℕ
  | [] => ([e], 0)
  | a :: as => if e.base + e.size = a.base then (⟨e.base, e.size + a.size⟩ :: as, 1) else (e :: a :: as, 0)

/-- The same with the region that stops where it starts. -/
def mergeBelow (below : List Extent) : List Extent → List Extent × ℕ
  | [] => (below, 0)
  | e :: es =>
    match below.getLast? with
    | none => (e :: es, 0)
    | some b =>
      if b.base + b.size = e.base then (below.dropLast ++ ⟨b.base, b.size + e.size⟩ :: es, 1)
      else (below ++ e :: es, 0)

/-- The rest of `give`, with a node of the pool. -/
def insert (r : Regions) (e : Extent) : Regions :=
  let upper := mergeAbove e (r.above e.base)
  let all := mergeBelow (r.below e.base) upper.1
  ⟨all.1, r.nodes - 1 + upper.2 + all.2⟩

/-! ## What the regions cover -/

variable {r r' : Regions} {e : Extent} {bytes at_ a : ℕ}

theorem cover_takeFrom {l l' : List Extent} {n : ℕ} (h : takeFrom bytes l = some (at_, l', n)) :
    cover l a = cover (⟨at_, bytes⟩ :: l') a := by
  induction l generalizing l' with
  | nil => cases h
  | cons x xs ih =>
    obtain ⟨base, size⟩ := x
    unfold takeFrom at h
    split at h
    · obtain ⟨⟨at', l'', n'⟩, ht, he⟩ := Option.map_eq_some_iff.1 h
      obtain ⟨rfl, rfl, rfl⟩ : at' = at_ ∧ ⟨base, size⟩ :: l'' = l' ∧ n' = n := by simpa using he
      have := ih ht
      simp only [cover_cons] at this ⊢
      omega
    · split at h
      · next hle heq =>
        obtain ⟨rfl, rfl, -⟩ : base = at_ ∧ xs = l' ∧ 1 = n := by simpa using h
        rw [← heq]
      · next hle hne =>
        obtain ⟨rfl, rfl, -⟩ : base + (size - bytes) = at_ ∧ ⟨base, size - bytes⟩ :: xs = l' ∧
          0 = n := by simpa using h
        -- the top of the region and what stays of it
        have hsplit := cover_split base (size - bytes) bytes a
        have hsize : size - bytes + bytes = size := Nat.sub_add_cancel (Nat.not_lt.1 hle)
        rw [hsize] at hsplit
        simp only [cover_cons, cover_nil] at hsplit ⊢
        omega

theorem cover_take (h : r.take bytes = some (at_, r')) :
    cover r.free a = cover (⟨at_, bytes⟩ :: r'.free) a := by
  unfold take at h
  split at h
  · cases h
  · obtain ⟨⟨at', l', n⟩, ht, he⟩ := Option.map_eq_some_iff.1 h
    obtain ⟨rfl, rfl⟩ : at' = at_ ∧ ⟨l', r.nodes + n⟩ = r' := by simpa using he
    exact cover_takeFrom ht

theorem cover_mergeAbove (e : Extent) (l : List Extent) (a : ℕ) :
    cover (mergeAbove e l).1 a = cover (e :: l) a := by
  cases l with
  | nil => rfl
  | cons x xs =>
    obtain ⟨base, size⟩ := x
    obtain ⟨start, bytes⟩ := e
    simp only [mergeAbove]
    split
    · next heq =>
      have hsplit := cover_split start bytes size a
      rw [heq] at hsplit
      simp only [cover_cons, cover_nil] at hsplit ⊢
      omega
    · rfl

theorem cover_mergeBelow (l es : List Extent) (a : ℕ) :
    cover (mergeBelow l es).1 a = cover (l ++ es) a := by
  unfold mergeBelow
  split
  · rw [List.append_nil]
  · next e es =>
    split
    · next hlast =>
      rw [List.getLast?_eq_none_iff.1 hlast]
      rfl
    · next b hlast =>
      obtain ⟨start, size⟩ := b
      obtain ⟨base, bytes⟩ := e
      split
      · next heq =>
        obtain ⟨front, rfl⟩ := List.getLast?_eq_some_iff.1 hlast
        have hsplit := cover_split start size bytes a
        rw [heq] at hsplit
        rw [List.dropLast_concat]
        simp only [cover_append, cover_cons, cover_nil] at hsplit ⊢
        omega
      · rfl

theorem cover_insert (r : Regions) (e : Extent) (a : ℕ) :
    cover (r.insert e).free a = cover (e :: r.free) a := by
  have hall : r.below e.base ++ r.above e.base = r.free := List.takeWhile_append_dropWhile
  have hfree : (r.insert e).free = (mergeBelow (r.below e.base) (mergeAbove e (r.above e.base)).1).1 := rfl
  rw [hfree, cover_mergeBelow, cover_append, cover_mergeAbove, cover_cons, cover_cons, ← hall,
    cover_append]
  omega

/-! ## Regions of whole units -/

def Whole (unit : ℕ) (e : Extent) : Prop := unit ∣ e.base ∧ unit ∣ e.size ∧ e.size ≠ 0

variable {unit : ℕ}

theorem whole_takeFrom {l l' : List Extent} {n : ℕ} (hl : ∀ f ∈ l, Whole unit f) (hb : unit ∣ bytes)
    (h : takeFrom bytes l = some (at_, l', n)) : unit ∣ at_ ∧ ∀ f ∈ l', Whole unit f := by
  induction l generalizing l' with
  | nil => cases h
  | cons x xs ih =>
    have hx := hl x List.mem_cons_self
    have hxs : ∀ f ∈ xs, Whole unit f := fun f hf => hl f (List.mem_cons_of_mem x hf)
    unfold takeFrom at h
    split at h
    · obtain ⟨⟨at', l'', n'⟩, ht, he⟩ := Option.map_eq_some_iff.1 h
      obtain ⟨rfl, rfl, rfl⟩ : at' = at_ ∧ x :: l'' = l' ∧ n' = n := by simpa using he
      obtain ⟨hat, hrest⟩ := ih hxs ht
      exact ⟨hat, List.forall_mem_cons.2 ⟨hx, hrest⟩⟩
    next hle =>
    split at h
    · obtain ⟨rfl, rfl, -⟩ : x.base = at_ ∧ xs = l' ∧ 1 = n := by simpa using h
      exact ⟨hx.1, hxs⟩
    next hne =>
    obtain ⟨rfl, rfl, -⟩ : x.base + (x.size - bytes) = at_ ∧ ⟨x.base, x.size - bytes⟩ :: xs = l' ∧
      0 = n := by simpa using h
    have hsize : unit ∣ x.size - bytes := Nat.dvd_sub hx.2.1 hb
    refine ⟨Nat.dvd_add hx.1 hsize, List.forall_mem_cons.2 ⟨⟨hx.1, hsize, ?_⟩, hxs⟩⟩
    dsimp only
    omega

theorem whole_take (hr : ∀ f ∈ r.free, Whole unit f) (hb : unit ∣ bytes)
    (h : r.take bytes = some (at_, r')) : unit ∣ at_ ∧ ∀ f ∈ r'.free, Whole unit f := by
  unfold take at h
  split at h
  · cases h
  · obtain ⟨⟨at', l', n⟩, ht, he⟩ := Option.map_eq_some_iff.1 h
    obtain ⟨rfl, rfl⟩ : at' = at_ ∧ ⟨l', r.nodes + n⟩ = r' := by simpa using he
    exact whole_takeFrom hr hb ht

theorem whole_mergeAbove {l : List Extent} (he : Whole unit e) (hl : ∀ f ∈ l, Whole unit f) :
    ∀ f ∈ (mergeAbove e l).1, Whole unit f := by
  cases l with
  | nil => exact List.forall_mem_cons.2 ⟨he, hl⟩
  | cons x xs =>
    have hx := hl x List.mem_cons_self
    have hxs : ∀ f ∈ xs, Whole unit f := fun f hf => hl f (List.mem_cons_of_mem x hf)
    simp only [mergeAbove]
    split
    · have hpos := he.2.2
      have hjoined : Whole unit ⟨e.base, e.size + x.size⟩ :=
        ⟨he.1, Nat.dvd_add he.2.1 hx.2.1, by dsimp only; omega⟩
      exact List.forall_mem_cons.2 ⟨hjoined, hxs⟩
    · exact List.forall_mem_cons.2 ⟨he, hl⟩

theorem whole_mergeBelow {l es : List Extent} (hl : ∀ f ∈ l, Whole unit f) (hes : ∀ f ∈ es, Whole unit f) :
    ∀ f ∈ (mergeBelow l es).1, Whole unit f := by
  unfold mergeBelow
  split
  · exact hl
  · next x xs =>
    have hx := hes x List.mem_cons_self
    have hxs : ∀ f ∈ xs, Whole unit f := fun f hf => hes f (List.mem_cons_of_mem x hf)
    split
    · exact hes
    · next b hlast =>
      have hb := hl b (List.mem_of_getLast? hlast)
      split
      · have hfront : ∀ f ∈ l.dropLast, Whole unit f := fun f hf => hl f (List.dropLast_subset l hf)
        have hpos := hb.2.2
        have hjoined : Whole unit ⟨b.base, b.size + x.size⟩ :=
          ⟨hb.1, Nat.dvd_add hb.2.1 hx.2.1, by dsimp only; omega⟩
        exact List.forall_mem_append.2 ⟨hfront, List.forall_mem_cons.2 ⟨hjoined, hxs⟩⟩
      · exact List.forall_mem_append.2 ⟨hl, hes⟩

theorem whole_insert (hr : ∀ f ∈ r.free, Whole unit f) (he : Whole unit e) :
    ∀ f ∈ (r.insert e).free, Whole unit f := by
  have hbelow : ∀ f ∈ r.below e.base, Whole unit f :=
    fun f hf => hr f ((List.takeWhile_sublist _).subset hf)
  have habove : ∀ f ∈ r.above e.base, Whole unit f :=
    fun f hf => hr f ((List.dropWhile_sublist _).subset hf)
  exact whole_mergeBelow hbelow (whole_mergeAbove he habove)

theorem not_refuses (hr : ∀ f ∈ r.free, Whole unit f) (he : Whole unit e) (hunit : kNodeAlign ∣ unit)
    (happart : ∀ a, cover (e :: r.free) a ≤ 1) : r.refuses e = false := by
  have htwice : ∀ f ∈ r.free, ∀ a, a ∈ e → a ∉ f := by
    intro f hf a hae haf
    have hpos : 0 < cover r.free a := Extent.cover_pos.2 ⟨f, hf, haf⟩
    have := happart a
    rw [cover_cons, if_pos hae] at this
    omega
  have hsize : 0 < e.size := Nat.pos_of_ne_zero he.2.2
  unfold refuses
  rw [Bool.or_eq_false_iff, Bool.or_eq_false_iff]
  refine ⟨⟨?_, ?_⟩, ?_⟩
  · have halign := Nat.mod_eq_zero_of_dvd (Nat.dvd_trans hunit he.1)
    exact decide_eq_false (by simp [halign, he.2.2])
  · rcases hhead : (r.above e.base).head? with _ | x
    · rfl
    · have hx : x ∈ r.free := (List.dropWhile_sublist _).subset (List.mem_of_mem_head? hhead)
      have hnot := List.head?_dropWhile_not (fun f : Extent => decide (f.base < e.base)) r.free
      have hdrop : (List.dropWhile (fun f : Extent => decide (f.base < e.base)) r.free).head? = some x := hhead
      rw [hdrop] at hnot
      have hle : e.base ≤ x.base := by simpa using hnot
      have := (hr x hx).2.2
      have hout : ¬ e.base + e.size > x.base := fun hlt =>
        htwice x hx x.base (mem_iff.2 ⟨hle, hlt⟩) (mem_iff.2 ⟨Nat.le_refl _, by omega⟩)
      simp [hout]
  · rcases hlast : (r.below e.base).getLast? with _ | x
    · rfl
    · have hmem := List.mem_of_getLast? hlast
      have hx : x ∈ r.free := (List.takeWhile_sublist _).subset hmem
      have hlt : x.base < e.base := by
        have := List.mem_takeWhile_imp hmem
        simpa using this
      have hout : ¬ x.base + x.size > e.base := fun hgt =>
        htwice x hx e.base (mem_iff.2 ⟨Nat.le_refl _, by omega⟩) (mem_iff.2 ⟨Nat.le_of_lt hlt, hgt⟩)
      simp [hout]

end Regions

end Aegir.Hosted
