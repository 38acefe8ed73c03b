/-
  What a failing `mmap` or `munmap` leaves behind.
-/
import Aegir.Hosted.Calls

namespace Aegir.Hosted

open Aegir.Lib
open Aegir.Mem (Window Alloc kPage kLargePage pageBits)

namespace Heap

/-- The addresses that are free: the regions, and what the window has left. -/
def space (s : Heap) : List Extent × ℕ × ℕ × ℕ :=
  (s.regions.free, s.window.scratch.next, s.window.scratch.high, s.window.scratch.limit)

end Heap

/-- The same runs, the same pages mapped, the same addresses free and the same frames taken. -/
structure Kept (s s' : Heap) : Prop where
  runs : s'.runs = s.runs
  pages : s'.window.vspace.leaves = s.window.vspace.leaves
  space : s'.space = s.space
  frames : s'.frames = s.frames

theorem Kept.refl (s : Heap) : Kept s s := ⟨rfl, rfl, rfl, rfl⟩

theorem Kept.trans {s s' s'' : Heap} (h : Kept s s') (h' : Kept s' s'') : Kept s s'' :=
  ⟨h'.runs.trans h.runs, h'.pages.trans h.pages, h'.space.trans h.space, h'.frames.trans h.frames⟩

/-! ## The condition -/

namespace Heap

/-- The call to `mmap` has its addresses, a frame for each page, and the file's bytes. -/
def MapCompletes (s : Heap) (c : MapCall) (as : List Alloc) : Prop :=
  (s.place (alignUp c.length)).1 ≠ 0 ∧
    ((s.place (alignUp c.length)).2.mapRun (!c.anonymous) (s.place (alignUp c.length)).1
      (alignUp c.length / kPage) as).1 = true ∧
    (c.anonymous = true ∨ ∃ bytes, s.files.pread c.fd (alignUp c.length) c.offset = .inr bytes)

/-- The call takes no address: there is none, or a run of no pages is asked for, or the window
    takes the number of pages for none and the first frame is refused. -/
def MapTakesNothing (s : Heap) (c : MapCall) (as : List Alloc) : Prop :=
  (s.place (alignUp c.length)).2.space = s.space ∧
    ((s.place (alignUp c.length)).1 = 0 ∨ alignUp c.length / kPage = 0 ∨
      ((s.place (alignUp c.length)).2.takeFrame as).1 = 0 ∧
        Kept (s.place (alignUp c.length)).2 ((s.place (alignUp c.length)).2.takeFrame as).2.1)

/-- `mmap` is refused before it takes anything, or nothing it needs is refused. -/
def MapKeeps (s : Heap) (c : MapCall) (as : List Alloc) : Prop :=
  s.refusesMap c = true ∨ s.MapCompletes c as ∨ s.MapTakesNothing c as

/-- The free list takes the run `munmap` has forgotten and written back. -/
def UnmapKeeps (s : Heap) (addr length : ℕ) (as : List Alloc) : Prop :=
  ∀ i r, s.runFor addr length = some (i, r) →
    ((({ s with runs := forgetRun s.runs i } : Heap).writeBack r).give ⟨addr, r.bytes⟩ as).1 = true

end Heap

/-! ## Taking addresses -/

variable {s s' s'' : Heap}

theorem space_of_mapped (hl : Lower s.window s'.window) (hm : Mapped s' s'')
    (h : s''.space = s.space) : s'.space = s.space := by
  obtain ⟨hfree, hnext, hhigh, hlimit⟩ : s''.regions.free = s.regions.free ∧
      s''.window.scratch.next = s.window.scratch.next ∧
      s''.window.scratch.high = s.window.scratch.high ∧
      s''.window.scratch.limit = s.window.scratch.limit := by
    simpa only [Heap.space, Prod.mk.injEq] using h
  have h₁ := hl.limit
  have h₂ := hm.window.limit
  have hlimit' : s'.window.scratch.limit = s.window.scratch.limit := by omega
  have h₃ := hl.high hlimit'
  have h₄ := hm.window.high (by omega)
  have hhigh' : s'.window.scratch.high = s.window.scratch.high := by omega
  rw [Heap.space, Heap.space, ← hm.regions, hfree, hl.next, hhigh', hlimit']

/-! ## The first frame -/

/-- What is made of a run's pages starts with a frame: it stops there when that is refused,
    and a frame is taken when it is not. -/
structure Starts (s : Heap) (as : List Alloc) (r : Bool × Heap × List Alloc) : Prop where
  refused : (s.takeFrame as).1 = 0 → r.1 = false ∧ r.2.1 = (s.takeFrame as).2.1
  taken : (s.takeFrame as).1 ≠ 0 → s.frames.length < r.2.1.frames.length

theorem starts_mapPagesOf (bits pages : ℕ) (s : Heap) (address : ℕ) (as : List Alloc) :
    Starts s as (Heap.mapPagesOf bits pages s address as) := by
  refine ⟨fun h => ?_, fun h => ?_⟩
  · unfold Heap.mapPagesOf
    dsimp only
    rw [if_pos h]
    exact ⟨rfl, rfl⟩
  · have hone : s.frames.length < (s.takeFrame as).2.1.frames.length := by
      unfold Heap.takeFrame at h ⊢
      dsimp only at h ⊢
      rw [if_neg h, List.length_cons]
      exact Nat.lt_succ_self _
    have hmap := mapped_mapFrame (s.takeFrame as).2.1 address (s.takeFrame as).1 bits (s.takeFrame as).2.2
    unfold Heap.mapPagesOf
    dsimp only
    rw [if_neg h]
    split
    · exact hone.trans_le hmap.frames.length_le
    split
    · exact hone.trans_le (hmap.trans (mapped_rememberPages _ _ _ _ _)).frames.length_le
    · exact hone.trans_le hmap.frames.length_le

theorem Starts.more {as : List Alloc} {r r' : Bool × Heap × List Alloc} (h : Starts s as r)
    (hstop : r.1 = false → r' = r) (hmore : r.1 = true → Mapped r.2.1 r'.2.1) : Starts s as r' := by
  refine ⟨fun hzero => ?_, fun hne => ?_⟩
  · have hrefused := h.refused hzero
    rw [hstop hrefused.1]
    exact hrefused
  · have hlong := h.taken hne
    rcases hr : r.1 with _ | _
    · rwa [hstop hr]
    · exact hlong.trans_le (hmore hr).frames.length_le

theorem starts_mapAll {map : Heap → ℕ → List Alloc → Bool × Heap × List Alloc}
    (hmap : ∀ s address as, Mapped s (map s address as).2.1)
    (hfirst : ∀ s address as, Starts s as (map s address as)) (size : ℕ) {n : ℕ} (hn : n ≠ 0)
    (s : Heap) (address : ℕ) (as : List Alloc) :
    Starts s as (Heap.mapAll map size n s address as) := by
  obtain ⟨m, rfl⟩ := Nat.exists_eq_succ_of_ne_zero hn
  have h := hfirst s address as
  unfold Heap.mapAll
  rcases heq : map s address as with ⟨_ | _, t, bs⟩
  · rwa [heq] at h
  · rw [heq] at h
    exact h.more (fun hf => by cases hf) fun _ => mapped_mapAll hmap size m t (address + size) bs

theorem starts_mapPage (s : Heap) (address : ℕ) (as : List Alloc) : Starts s as (s.mapPage address as) :=
  starts_mapPagesOf pageBits 1 s address as

/-- Large pages and what comes after them, where a run's first pages are mapped. -/
theorem starts_mapMegas {megas rest : ℕ} (hor : megas ≠ 0 ∨ rest ≠ 0) (s : Heap) (address : ℕ)
    (as : List Alloc) : Starts s as
      (match Heap.mapAll Heap.mapLargePage kLargePage megas s address as with
        | (false, s, as) => (false, s, as)
        | (true, s, as) => Heap.mapAll Heap.mapPage kPage rest s (address + megas * kLargePage) as) := by
  by_cases hmegas : megas = 0
  · subst hmegas
    exact starts_mapAll mapped_mapPage starts_mapPage kPage (by omega) s _ as
  · have h := starts_mapAll mapped_mapLargePage (starts_mapPagesOf Mem.largePageBits kMegaPages) kLargePage
      hmegas s address as
    rcases heq : Heap.mapAll Heap.mapLargePage kLargePage megas s address as with ⟨_ | _, t, bs⟩
    · rwa [heq] at h
    · rw [heq] at h
      exact h.more (fun hf => by cases hf) fun _ => mapped_mapAll mapped_mapPage kPage _ t _ bs

theorem starts_mapRun (fileBacked : Bool) (base : ℕ) {pages : ℕ} (hn : pages ≠ 0) (s : Heap)
    (as : List Alloc) : Starts s as (s.mapRun fileBacked base pages as) := by
  unfold Heap.mapRun
  split
  · dsimp only
    generalize Heap.headPages base pages = head
    generalize (if (base + head * kPage) % kLargePage = 0 then (pages - head) / kMegaPages else 0) = megas
    by_cases hhead : head = 0
    · subst hhead
      refine starts_mapMegas ?_ s _ as
      rcases Nat.eq_zero_or_pos megas with rfl | hpos
      · exact .inr (by omega)
      · exact .inl hpos.ne'
    · have h := starts_mapAll mapped_mapPage starts_mapPage kPage hhead s base as
      rcases heq : Heap.mapAll Heap.mapPage kPage head s base as with ⟨_ | _, t, bs⟩
      · rwa [heq] at h
      · rw [heq] at h
        refine h.more (fun hf => by cases hf) fun _ => ?_
        have hmid := mapped_mapAll mapped_mapLargePage kLargePage megas t (base + head * kPage) bs
        dsimp only
        split
        · next heq' => rwa [heq'] at hmid
        · next heq' =>
          rw [heq'] at hmid
          exact hmid.trans (mapped_mapAll mapped_mapPage kPage _ _ _ _)
  · exact starts_mapAll mapped_mapPage starts_mapPage kPage hn s base as

/-! ## mmap -/

/-- What the pages of a run leave behind is what there was where there are none to map, or where
    the first frame is refused and leaves nothing. -/
theorem kept_mapRun_iff (s : Heap) (needed : ℕ) (fileBacked : Bool) (as : List Alloc) :
    Kept s ((s.place needed).2.mapRun fileBacked (s.place needed).1 (needed / kPage) as).2.1 ↔
      (s.place needed).2.space = s.space ∧ (needed / kPage = 0 ∨
        ((s.place needed).2.takeFrame as).1 = 0 ∧
          Kept (s.place needed).2 ((s.place needed).2.takeFrame as).2.1) := by
  obtain ⟨hruns, -, hleaves, hframes, hlower⟩ := place_spec s needed
  have hmapped := mapped_mapRun (s.place needed).2 fileBacked (s.place needed).1 (needed / kPage) as
  have hplaced : (s.place needed).2.space = s.space → Kept s (s.place needed).2 :=
    fun hspace => ⟨hruns, hleaves, hspace, hframes⟩
  by_cases hn : needed / kPage = 0
  · have hnone : ((s.place needed).2.mapRun fileBacked (s.place needed).1 (needed / kPage) as).2.1 =
        (s.place needed).2 := by
      rw [hn, mapRun_zero]
    rw [hnone]
    exact ⟨fun hkept => ⟨hkept.space, .inl hn⟩, fun h => hplaced h.1⟩
  · have hstart := starts_mapRun fileBacked (s.place needed).1 hn (s.place needed).2 as
    by_cases hzero : ((s.place needed).2.takeFrame as).1 = 0
    · rw [(hstart.refused hzero).2] at hmapped ⊢
      constructor
      · intro hkept
        have hspace := space_of_mapped hlower hmapped hkept.space
        exact ⟨hspace, .inr ⟨hzero, hkept.runs.trans hruns.symm, hkept.pages.trans hleaves.symm,
          hkept.space.trans hspace.symm, hkept.frames.trans hframes.symm⟩⟩
      · rintro ⟨hspace, hnone | ⟨-, hkept⟩⟩
        · exact absurd hnone hn
        · exact (hplaced hspace).trans hkept
    · constructor
      · intro hkept
        have hlong := hstart.taken hzero
        rw [hkept.frames, hframes] at hlong
        exact absurd hlong (Nat.lt_irrefl _)
      · rintro ⟨-, hnone | ⟨hrefused, -⟩⟩
        · exact absurd hnone hn
        · exact absurd hrefused hzero

theorem mmap_keeps (s : Heap) (c : Heap.MapCall) (as : List Alloc) :
    ((s.sysMmap c as).1 < 0 → Kept s (s.sysMmap c as).2) ↔ s.MapKeeps c as := by
  have hfiles := (place_spec s (alignUp c.length)).2.1
  have hkept := kept_mapRun_iff s (alignUp c.length) (!c.anonymous) as
  have hmapped := mapped_mapRun (s.place (alignUp c.length)).2 (!c.anonymous)
    (s.place (alignUp c.length)).1 (alignUp c.length / kPage) as
  unfold Heap.MapKeeps Heap.MapCompletes Heap.MapTakesNothing Heap.sysMmap
  by_cases hrefuses : s.refusesMap c = true
  · rw [if_pos hrefuses]
    exact ⟨fun _ => .inl hrefuses, fun _ _ => .refl s⟩
  rw [if_neg hrefuses]
  dsimp only
  have hspec := place_spec s (alignUp c.length)
  rcases hplace : s.place (alignUp c.length) with ⟨base, s₁⟩
  rw [hplace] at hkept hmapped hfiles hspec
  dsimp only at hkept hmapped hfiles hspec ⊢
  by_cases hbase : base = 0
  · -- no address was had
    rw [if_pos hbase]
    constructor
    · intro h
      exact .inr (.inr ⟨(h neg_eNomem).space, .inl hbase⟩)
    · rintro (h | ⟨h, -⟩ | ⟨hspace, -⟩) _
      · exact absurd h hrefuses
      · exact absurd hbase h
      · exact ⟨hspec.1, hspec.2.2.1, hspace, hspec.2.2.2.1⟩
  rw [if_neg hbase]
  rcases hrun : s₁.mapRun (!c.anonymous) base (alignUp c.length / kPage) as with ⟨_ | _, s₂, as₂⟩
  · -- a frame or a mapping was refused
    rw [hrun] at hkept
    dsimp only at hkept ⊢
    constructor
    · intro h
      obtain ⟨hspace, hnone⟩ := hkept.1 (h neg_eNomem)
      exact .inr (.inr ⟨hspace, .inr hnone⟩)
    · rintro (h | ⟨-, h, -⟩ | ⟨hspace, h | hnone⟩) _
      · exact absurd h hrefuses
      · cases h
      · exact absurd h hbase
      · exact hkept.2 ⟨hspace, hnone⟩
  · rw [hrun] at hkept hmapped
    dsimp only at hkept hmapped ⊢
    by_cases hanonymous : c.anonymous = true
    · rw [if_pos hanonymous]
      refine ⟨fun _ => .inr (.inl ⟨hbase, rfl, .inl hanonymous⟩), fun _ h => ?_⟩
      exact absurd h (Int.not_lt.2 (Int.natCast_nonneg base))
    rw [if_neg hanonymous]
    have hread : (s₂.clear base (alignUp c.length)).files = s.files := hmapped.files.trans hfiles
    rw [hread]
    rcases hpread : s.files.pread c.fd (alignUp c.length) c.offset with error | bytes
    · -- the file was not read, with every page mapped
      dsimp only
      constructor
      · intro h
        have hk := h (pread_error hpread)
        obtain ⟨hspace, hnone⟩ := hkept.1 ⟨hk.runs, hk.pages, hk.space, hk.frames⟩
        exact .inr (.inr ⟨hspace, .inr hnone⟩)
      · rintro (h | ⟨-, -, h | ⟨_, h⟩⟩ | ⟨hspace, h | hnone⟩) _
        · exact absurd h hrefuses
        · exact absurd h hanonymous
        · cases h
        · exact absurd h hbase
        · have hk := hkept.2 ⟨hspace, hnone⟩
          exact ⟨hk.runs, hk.pages, hk.space, hk.frames⟩
    · refine ⟨fun _ => .inr (.inl ⟨hbase, rfl, .inr ⟨bytes, rfl⟩⟩), fun _ h => ?_⟩
      exact absurd h (Int.not_lt.2 (Int.natCast_nonneg base))

/-! ## munmap -/

theorem munmap_keeps (s : Heap) (addr length : ℕ) (as : List Alloc) :
    ((s.sysMunmap addr length as).1 < 0 → Kept s (s.sysMunmap addr length as).2) ↔
      s.UnmapKeeps addr length as := by
  unfold Heap.UnmapKeeps Heap.sysMunmap
  rcases hfor : s.runFor addr length with _ | ⟨i, r⟩
  · exact ⟨fun _ => nofun, fun _ _ => .refl s⟩
  dsimp only
  have hruns := (give_steady (({ s with runs := Heap.forgetRun s.runs i } : Heap).writeBack r)
    ⟨addr, r.bytes⟩ as).2.1
  rcases hgive : (({ s with runs := Heap.forgetRun s.runs i } : Heap).writeBack r).give
    ⟨addr, r.bytes⟩ as with ⟨_ | _, s₁, as₁⟩
  · rw [hgive] at hruns
    have hforgot : s₁.runs = Heap.forgetRun s.runs i := by
      refine hruns.trans ?_
      unfold Heap.writeBack
      split
      · rfl
      · rfl
    constructor
    · intro h
      have hlength := length_forgetRun (runFor_some hfor).2.2.2.1
      rw [← hforgot, (h neg_eInval).runs] at hlength
      omega
    · intro h
      have := h i r rfl
      rw [hgive] at this
      cases this
  · constructor
    · intro _ j q hq
      obtain ⟨rfl, rfl⟩ := Prod.mk.inj (Option.some.inj hq)
      rw [hgive]
    · intro _ h
      exact absurd h (Int.lt_irrefl 0)

def eightPages : Heap where
  ready := true
  window :=
    { scratch := { tables := true, mayGrow := false, base := 2 ^ 30, next := 2 ^ 30,
                   limit := 2 ^ 30 + 32768, smallHigh := 2 ^ 30, high := 2 ^ 30 + 32768,
                   mappedBytes := 0, lastCap := 0, lastError := .noError }
      vspace := ⟨2 ^ 38, [Mem.VSpace.upper (2 ^ 30), Mem.VSpace.lower (2 ^ 30)], []⟩
      reserved := []
      streamed := [] }
  base := 2 ^ 30 + 32768
  limit := 2 ^ 30 + 32768
  brk := 2 ^ 30 + 32768
  regions := ⟨[], 0⟩
  runs := []
  record := 0
  capacity := 0
  chunks := []
  files := ⟨[], fun _ => []⟩
  memory := fun _ => 0
  frames := []
  books := []

def askTwoPages : Heap.MapCall := ⟨8192, true, true, false, true, false, -1, 0⟩

def twoFrames : List Alloc := [⟨[], 7, []⟩, ⟨[], 8, []⟩, ⟨[], 0, []⟩]

end Aegir.Hosted
