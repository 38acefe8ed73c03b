/-
  The free regions as a set of bytes (aegir-heap, `regions.h`).
-/
import Aegir.Hosted.FreeNodes

namespace Aegir.Hosted

open Aegir.Lib

/-- A range of pages of the 64-bit address space, of which the size is a number too. -/
structure PageRange where
  page : ℕ
  pages : ℕ
  pos : 0 < pages
  within : (page + pages) * 4096 ≤ 2 ^ 64
  size_lt : pages * 4096 < 2 ^ 64

def PageRange.extent (p : PageRange) : Extent := ⟨p.page * 4096, p.pages * 4096⟩

theorem PageRange.extent_spec (p : PageRange) :
    p.extent.size ≠ 0 ∧ p.extent.base % kNodeAlign = 0 ∧ p.extent.stop ≤ 2 ^ 64 := by
  have hpos := p.pos
  have hwithin := p.within
  have halign : p.page * 4096 % kNodeAlign = 0 := by
    unfold kNodeAlign
    omega
  rw [Nat.add_mul] at hwithin
  exact ⟨Nat.mul_ne_zero hpos.ne' (by omega), halign, hwithin⟩

def Holds (l : List Extent) (a : ℕ) : Prop := ∃ f ∈ l, a ∈ f

theorem holds_iff {l : List Extent} {a : ℕ} : Holds l a ↔ 0 < Extent.cover l a := Extent.cover_pos.symm

namespace RegionList

variable {s : RegionList} {l pool source : List ℕ} {e : Extent} {n : ℕ} {free : ℕ → Prop}

def Clear (s : RegionList) (e : Extent) : Prop := ∀ f ∈ s.listed, e.Apart f

/-- What `give` is for. -/
structure GiveExact (s : RegionList) (e : Extent) (source : List ℕ) : Prop where
  given : s.Clear e → (s.give e.base e.size source).1 = true ∧
    ∀ a, Holds (s.give e.base e.size source).2.listed a ↔ a ∈ e ∨ Holds s.listed a
  refused : ¬s.Clear e → s.give e.base e.size source = (false, s)

/-- What `take` is for: `n` bytes, or no region is large enough. -/
structure TakeExact (s : RegionList) (n : ℕ) : Prop where
  taken : (s.take n).1 ≠ 0 → ∀ a, (a ∈ (⟨(s.take n).1, n⟩ : Extent) → Holds s.listed a) ∧
    (Holds (s.take n).2.listed a ↔ Holds s.listed a ∧ a ∉ (⟨(s.take n).1, n⟩ : Extent))
  failed : (s.take n).1 = 0 → (∀ f ∈ s.listed, f.size < n) ∧ (s.take n).2 = s

/-! ## The conditions -/

/-- An overlap is with a region such that the first of the two ends below `2 ^ 64`. -/
def Seen (s : RegionList) (e : Extent) : Prop :=
  ¬s.Clear e → ∃ f ∈ s.listed, ¬e.Apart f ∧ (if f.base < e.base then f.stop else e.stop) < 2 ^ 64

/-- A run that overlaps no region leaves an address that is not free. -/
def Spare (s : RegionList) (e : Extent) : Prop := s.Clear e → ∃ a < 2 ^ 64, a ∉ e ∧ ¬Holds s.listed a

/-- The first region that is large enough is not all taken at address zero. -/
def NotNull (s : RegionList) (n : ℕ) : Prop := (s.listed.find? fun f => decide (n ≤ f.size)) ≠ some ⟨0, n⟩

/-- Any calls that meet the conditions, with a node in hand for each run that is given, and
    the bytes that were given and not taken. -/
inductive Run : RegionList → (ℕ → Prop) → Prop where
  | empty : Run .empty fun _ => False
  | adopt {s : RegionList} {free : ℕ → Prop} {nodes : List ℕ} (h : Run s free) (hf : Fresh s nodes) : Run (s.adopt nodes) free
  | give {s : RegionList} {free : ℕ → Prop} {source : List ℕ} (p : PageRange) (h : Run s free) (hf : Fresh s source)
      (hav : s.freeNodes ≠ 0 ∨ source ≠ []) (hseen : s.Seen p.extent) (hspare : s.Spare p.extent) :
      Run (s.give p.extent.base p.extent.size source).2 fun a =>
        free a ∨ (s.give p.extent.base p.extent.size source).1 = true ∧ a ∈ p.extent
  | take {s : RegionList} {free : ℕ → Prop} (n : ℕ) (h : Run s free) (hnull : s.NotNull n) :
      Run (s.take n).2 fun a => free a ∧ ¬((s.take n).1 ≠ 0 ∧ a ∈ (⟨(s.take n).1, n⟩ : Extent))

/-! ## One call -/

theorem apart_iff {e f : Extent} (he : e.size ≠ 0) (hf : f.size ≠ 0) : ¬e.Apart f ↔ e.base < f.stop ∧ f.base < e.stop := by
  rw [Extent.stop, Extent.stop]
  constructor
  · intro h
    simp only [Extent.Apart, not_forall, not_not] at h
    obtain ⟨a, hae, haf⟩ := h
    rw [Extent.mem_iff] at hae haf
    omega
  · rintro ⟨h, h'⟩ hap
    rcases Nat.le_total e.base f.base with hle | hle
    · exact hap f.base (Extent.mem_iff.mpr ⟨hle, h'⟩) (Extent.mem_iff.mpr ⟨le_refl _, by omega⟩)
    · exact hap e.base (Extent.mem_iff.mpr ⟨le_refl _, by omega⟩) (Extent.mem_iff.mpr ⟨hle, h⟩)

/-- **An overlap that is seen is refused.** -/
theorem Lists.give_refused (h : Lists s l pool) (hc : Coalesced s.listed) (hn : e.size ≠ 0) (hseen : s.Seen e)
    (ho : ¬s.Clear e) : s.give e.base e.size source = (false, s) := by
  obtain ⟨f, hf, hover, hend⟩ := hseen ho
  rw [apart_iff hn (hc.nonempty f hf), Extent.stop, Extent.stop] at hover
  obtain ⟨k, k', rfl, hlink, hafter, hbelow, habove⟩ := h.split e.base
  have hlist := h.listed_eq
  rw [List.map_append] at hlist
  obtain ⟨hck, hck', -⟩ := Coalesced.append_iff.mp (hlist ▸ hc)
  have hle : ∀ g ∈ k'.map s.extent, e.base ≤ g.base := fun g hg =>
    Regions.le_of_mem_above (r := ⟨s.listed, pool.length⟩) hc (habove ▸ hg)
  have hlt : ∀ g ∈ k.map s.extent, g.base < e.base := fun g hg =>
    Regions.lt_of_mem_below (r := ⟨s.listed, pool.length⟩) (hbelow ▸ hg)
  -- one of the comparisons finds the region
  have hfound : (k'.head?.getD 0 ≠ 0 ∧ (s.node (k'.head?.getD 0)).base < (e.base + e.size) % 2 ^ 64) ∨
      (linkOf k 0 ≠ 0 ∧ e.base < ((s.node (linkOf k 0)).base + (s.node (linkOf k 0)).bytes) % 2 ^ 64) := by
    rw [hlist, List.mem_append] at hf
    rcases hf with hf | hf
    · rw [if_pos (hlt f hf), Extent.stop] at hend
      rcases List.eq_nil_or_concat k with rfl | ⟨k, b, rfl⟩
      · cases hf
      rw [List.concat_eq_append] at hf hck h ⊢
      rw [List.map_append, List.mem_append] at hf
      rw [List.map_append, Coalesced.append_iff] at hck
      have hfb : f = s.extent b := by
        rcases hf with hf | hf
        · -- one before the last ends below the last
          have hstop := hck.2.2 f hf (s.extent b) (by simp)
          have hbe := hlt (s.extent b) (by simp)
          rw [Extent.stop] at hstop
          omega
        · simpa using hf
      subst hfb
      have hend : (s.node b).base + (s.node b).bytes < 2 ^ 64 := hend
      rw [linkOf_concat, Nat.mod_eq_of_lt hend]
      exact Or.inr ⟨h.used.ne_zero (by simp), hover.1⟩
    · rw [if_neg (Nat.not_lt.mpr (hle f hf)), Extent.stop] at hend
      cases k' with
      | nil => cases hf
      | cons c k' =>
        refine Or.inl ⟨h.used.ne_zero (by simp), ?_⟩
        show (s.node c).base < _
        rw [Nat.mod_eq_of_lt hend]
        have hcb : (s.node c).base ≤ f.base := by
          rcases List.mem_cons.mp hf with rfl | hf
          · exact le_refl _
          · have hstop := (Coalesced.cons_iff.mp hck').2.2 f hf
            have hstop : (s.node c).base + (s.node c).bytes < f.base := hstop
            omega
        omega
  rw [give]
  split
  · rfl
  dsimp only
  rw [hlink, hafter]
  split
  · rfl
  · rename_i h₁
    rw [if_pos (hfound.resolve_left h₁)]

/-- **A give does what it is for**, when its overlaps are seen. -/
theorem Lists.giveExact (h : Lists s l pool) (hc : Coalesced s.listed) (p : PageRange) (hf : Fresh s source)
    (hav : s.freeNodes ≠ 0 ∨ source ≠ []) (hseen : s.Seen p.extent) (hspare : s.Spare p.extent) :
    GiveExact s p.extent source ∧
      ∃ l' pool', Lists (s.give p.extent.base p.extent.size source).2 l' pool' ∧
        Coalesced (s.give p.extent.base p.extent.size source).2.listed := by
  obtain ⟨hn, halign, hw⟩ := p.extent_spec
  by_cases hclear : s.Clear p.extent
  · obtain ⟨a, ha, hae, haf⟩ := hspare hclear
    have hav' : pool ≠ [] ∨ source ≠ [] := hav.imp_left fun hz hp => hz (h.spare.eq_nil_iff.mp hp)
    obtain ⟨hok, l', pool', hlists, hregions⟩ := give_refines h hc hn halign hw hclear hf hav'
      ⟨ha, hae, fun f hf hc => haf ⟨f, hf, hc⟩⟩
    refine ⟨⟨fun _ => ⟨hok, fun a => ?_⟩, fun hc => absurd hclear hc⟩, l', pool', hlists, ?_⟩
    · rw [hregions, holds_iff, holds_iff, Regions.cover_insert, Extent.cover_cons]
      split_ifs with hmem
      · exact iff_of_true (by omega) (Or.inl hmem)
      · rw [Nat.zero_add]
        exact (or_iff_right hmem).symm
    · rw [hregions]
      exact Regions.coalesced_insert (r := ⟨s.listed, pool.length⟩) hc hn hw hclear
  · have hrefused : s.give p.extent.base p.extent.size source = (false, s) := h.give_refused hc hn hseen hclear
    refine ⟨⟨fun hc => absurd hc hclear, fun _ => hrefused⟩, l, pool, ?_, ?_⟩
    · rwa [hrefused]
    · rwa [hrefused]

/-- **A take does what it is for**, when nothing is taken at address zero. -/
theorem Lists.takeExact (h : Lists s l pool) (hc : Coalesced s.listed) (hn : 0 < n) (hnull : s.NotNull n) :
    TakeExact s n ∧ ∃ l' pool', Lists (s.take n).2 l' pool' ∧ Coalesced (s.take n).2.listed := by
  have href := take_refines h hc hn
  rcases ht : Regions.takeFrom n s.listed with _ | ⟨at_, regions, count⟩
  · rw [ht] at href
    have htake : s.take n = (0, s) := href
    refine ⟨⟨fun hz => ?_, fun _ => ⟨Regions.takeFrom_eq_none.mp ht, ?_⟩⟩, l, pool, ?_, ?_⟩
    · rw [htake] at hz
      exact absurd rfl hz
    · rw [htake]
    · rwa [htake]
    · rwa [htake]
  · rw [ht] at href
    obtain ⟨hat, ⟨l', pool', hlists⟩, hregions⟩ := href
    have hcover := fun a => Regions.cover_takeFrom ht (a := a)
    have hne : (s.take n).1 ≠ 0 := by
      obtain ⟨l₁, e, l₂, hl, hsmall, hle, hbase, -, -⟩ := Regions.takeFrom_eq_some ht
      intro hz
      -- the region is all of the first `n` bytes
      have he : e = ⟨0, n⟩ := by
        obtain ⟨base, size⟩ := e
        simp only [Extent.mk.injEq]
        dsimp only at hle hbase
        omega
      refine hnull ?_
      rw [hl, List.find?_append, List.find?_eq_none.mpr fun f hf => by simpa using hsmall f hf, Option.none_or,
        List.find?_cons_of_pos (by simpa using hle), he]
    refine ⟨⟨fun _ a => ?_, fun hz => absurd hz hne⟩, l', pool', hlists, hregions ▸ Regions.coalesced_takeFrom hc hn ht⟩
    have hone := hc.cover_le a
    have ha := hcover a
    rw [Extent.cover_cons, ← hat] at ha
    rw [hregions, holds_iff, holds_iff]
    split_ifs at ha with hmem
    · exact ⟨fun _ => by omega, iff_of_false (by omega) fun hc => hc.2 hmem⟩
    · exact ⟨fun hc => absurd hc hmem, by rw [and_iff_left hmem]; omega⟩

/-! ## Any run -/

theorem Lists.empty : Lists .empty [] [] := ⟨rfl, rfl, .refl _, List.nodup_nil⟩

/-- What every run keeps: the nodes are in two lists, the regions in order, and they hold
    what is free. -/
structure Ordered (s : RegionList) (free : ℕ → Prop) : Prop where
  lists : ∃ l pool, Lists s l pool
  coalesced : Coalesced s.listed
  holds : ∀ a, free a ↔ Holds s.listed a

theorem Ordered.give {p : PageRange} (h : Ordered s free) (hf : Fresh s source) (hav : s.freeNodes ≠ 0 ∨ source ≠ [])
    (hseen : s.Seen p.extent) (hspare : s.Spare p.extent) : Ordered (s.give p.extent.base p.extent.size source).2 fun a =>
      free a ∨ (s.give p.extent.base p.extent.size source).1 = true ∧ a ∈ p.extent := by
  obtain ⟨l, pool, hl⟩ := h.lists
  obtain ⟨hexact, l', pool', hl', hc⟩ := hl.giveExact h.coalesced p hf hav hseen hspare
  refine ⟨⟨l', pool', hl'⟩, hc, fun a => ?_⟩
  by_cases hclear : s.Clear p.extent
  · obtain ⟨hok, hall⟩ := hexact.given hclear
    rw [hall, h.holds, hok]
    exact ⟨fun ha => ha.elim Or.inr fun ha => Or.inl ha.2, fun ha => ha.elim (fun ha => Or.inr ⟨rfl, ha⟩) Or.inl⟩
  · rw [hexact.refused hclear, h.holds]
    exact or_iff_left fun hc => Bool.false_ne_true hc.1

theorem Ordered.take (h : Ordered s free) (hnull : s.NotNull n) :
    Ordered (s.take n).2 fun a => free a ∧ ¬((s.take n).1 ≠ 0 ∧ a ∈ (⟨(s.take n).1, n⟩ : Extent)) := by
  obtain ⟨l, pool, hl⟩ := h.lists
  rcases Nat.eq_zero_or_pos n with rfl | hn
  · -- nothing is asked for
    have hzero : s.take 0 = (0, s) := if_pos rfl
    rw [hzero]
    exact ⟨h.lists, h.coalesced, fun a => (and_iff_left fun hc => hc.1 rfl).trans (h.holds a)⟩
  · obtain ⟨hexact, l', pool', hl', hc⟩ := hl.takeExact h.coalesced hn hnull
    refine ⟨⟨l', pool', hl'⟩, hc, fun a => ?_⟩
    by_cases hz : (s.take n).1 = 0
    · rw [(hexact.failed hz).2, h.holds]
      exact and_iff_left fun hc => hc.1 hz
    · rw [(hexact.taken hz a).2, h.holds]
      exact and_congr_right fun _ => not_congr (and_iff_right hz)

theorem Run.ordered (h : Run s free) : Ordered s free := by
  induction h with
  | empty => exact ⟨⟨[], [], .empty⟩, .nil, fun a => iff_of_false id fun ⟨_, hf, _⟩ => nomatch hf⟩
  | @adopt s free nodes h hf ih =>
    obtain ⟨l, pool, hl⟩ := ih.lists
    obtain ⟨hl', hext⟩ := hl.adopt hf
    have hlisted : (s.adopt nodes).listed = s.listed := by rw [hl'.listed_eq, hext, hl.listed_eq]
    exact ⟨⟨_, _, hl'⟩, hlisted ▸ ih.coalesced, hlisted ▸ ih.holds⟩
  | give p h hf hav hseen hspare ih => exact ih.give hf hav hseen hspare
  | take n h hnull ih => exact ih.take hnull

/-- **The free regions are a set of bytes**: in order and apart, they hold what was given and
    not taken, and each call does what it is for. -/
theorem regions_free_bytes (h : Run s free) :
    Coalesced s.listed ∧ (∀ a, free a ↔ Holds s.listed a) ∧ (∀ n, 0 < n → s.NotNull n → TakeExact s n) ∧
      ∀ (p : PageRange) (source : List ℕ), Fresh s source → (s.freeNodes ≠ 0 ∨ source ≠ []) → s.Seen p.extent →
        s.Spare p.extent → GiveExact s p.extent source := by
  obtain ⟨⟨l, pool, hl⟩, hc, hholds⟩ := h.ordered
  exact ⟨hc, hholds, fun n hn hnull => (hl.takeExact hc hn hnull).1,
    fun p source hf hav hseen hspare => (hl.giveExact hc p hf hav hseen hspare).1⟩

/-- The last page of the address space, and the first. -/
def lastPage : PageRange := ⟨2 ^ 52 - 1, 1, Nat.one_pos, by decide, by decide⟩
def firstPage : PageRange := ⟨0, 1, Nat.one_pos, by decide, by decide⟩

def twoNodes : RegionList := RegionList.empty.adopt [16, 40]

theorem twoNodes_run : Run twoNodes fun _ => False :=
  .adopt .empty ⟨by decide, fun n hn => ⟨by rintro rfl; simp at hn, List.not_mem_nil⟩⟩

theorem twoNodes_fresh : Fresh twoNodes [] := ⟨List.nodup_nil, fun _ h => nomatch h⟩

theorem twoNodes_seen (e : Extent) : twoNodes.Seen e := fun h => absurd (fun _ hf => nomatch hf) h

/-- **The last page is given twice**, and the first page taken is lost. -/
theorem edge_pages : Run twoNodes (fun _ => False) ∧ (twoNodes.give lastPage.extent.base lastPage.extent.size []).1 = true ∧
    ¬GiveExact (twoNodes.give lastPage.extent.base lastPage.extent.size []).2 lastPage.extent [] ∧
      (twoNodes.give firstPage.extent.base firstPage.extent.size []).1 = true ∧
        ¬TakeExact (twoNodes.give firstPage.extent.base firstPage.extent.size []).2 4096 := by
  have hlisted : (twoNodes.give lastPage.extent.base lastPage.extent.size []).2.listed = [lastPage.extent] := by decide
  have hgiven : ((twoNodes.give lastPage.extent.base lastPage.extent.size []).2.give
      lastPage.extent.base lastPage.extent.size []).1 = true := by decide
  refine ⟨twoNodes_run, by decide, fun h => ?_, by decide, fun h => ?_⟩
  swap
  · -- the page is a region that is large enough
    have hfailed := (h.failed (by decide)).1 firstPage.extent (by decide)
    exact absurd hfailed (lt_irrefl _)
  have hclear : ¬(twoNodes.give lastPage.extent.base lastPage.extent.size []).2.Clear lastPage.extent := by
    intro hc
    have hmem : 2 ^ 64 - 4096 ∈ lastPage.extent := by decide
    exact hc lastPage.extent (by rw [hlisted]; exact List.mem_cons_self) _ hmem hmem
  rw [h.refused hclear] at hgiven
  cases hgiven

/-- The last page is given once, and taken. -/
theorem regions_free_bytes_page : TakeExact (twoNodes.give lastPage.extent.base lastPage.extent.size []).2 4096 := by
  have hrun : Run (twoNodes.give lastPage.extent.base lastPage.extent.size []).2 _ :=
    .give lastPage twoNodes_run twoNodes_fresh (Or.inl (by decide)) (twoNodes_seen _)
      fun _ => ⟨0, by decide, by decide, fun ⟨_, hf, _⟩ => nomatch hf⟩
  exact (regions_free_bytes hrun).2.2.1 4096 (by decide) (by rw [NotNull]; decide)

end RegionList

end Aegir.Hosted
