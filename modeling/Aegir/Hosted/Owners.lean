/-
  One space, one owner: what a process's heap has in its window.
-/
import Aegir.Hosted.Calls
import Aegir.Hosted.Process

namespace Aegir.Hosted

open Aegir.Lib
open Aegir.Lib.Extent (cover cover_cons cover_nil cover_append cover_perm cover_pos mem_iff Apart)
open Aegir.Mem (Window Scratch Alloc kPage kLargePage pageBits)

def Run.extent (r : Run) : Extent := ⟨r.base, r.bytes⟩

namespace Heap

def arena (s : Heap) : Extent := ⟨s.base, s.limit - s.base⟩

def left (s : Heap) : Extent := ⟨s.window.scratch.next, s.window.scratch.high - s.window.scratch.next⟩

def whole (s : Heap) : Extent := ⟨s.window.scratch.base, s.window.scratch.limit - s.window.scratch.base⟩

/-- The record of runs: its page, or what its entries take when that is more. -/
def recordExtent (s : Heap) : List Extent :=
  if s.record = 0 then [] else [⟨s.record, max kPage (s.runs.length * kRunBytes)⟩]

def owners (s : Heap) : List Extent :=
  s.left :: s.arena :: s.recordExtent ++ s.runs.map Run.extent ++ s.regions.free ++ s.books

end Heap

/-- No address of the window has two owners, and no other address has one. -/
def OneOwner (s : Heap) : Prop :=
  s.owners.Pairwise Apart ∧ ∀ e ∈ s.owners, ∀ a ∈ e, a ∈ s.whole

def kRecordRuns : ℕ := kPage / kRunBytes

/-- `mmap` is called with room in the record's page. -/
def RoomForRun (s : Heap) : Call → Prop
  | .mmap _ _ => s.runs.length < kRecordRuns
  | _ => True

/-! ## The invariant -/

def pageAt (record : ℕ) : List Extent := if record = 0 then [] else [⟨record, kPage⟩]

/-- What is taken of the window and has an owner, with the record's page as it is. -/
def Heap.owned (s : Heap) : List Extent :=
  s.arena :: pageAt s.record ++ s.runs.map Run.extent ++ s.regions.free ++ s.books

/-- A window that was given: it does not grow, and nothing streams over what is reserved. -/
structure Given (w : Window) : Prop where
  fixed : w.scratch.mayGrow = false
  streamed : w.scratch.lastCap = 0
  base : w.scratch.base ≤ w.scratch.next
  next : w.scratch.next ≤ w.scratch.high
  high : w.scratch.high ≤ w.scratch.limit
  top : w.scratch.limit ≤ Process.kUserTop
  aligned : kPage ∣ w.scratch.high

/-- What is held and what has an owner was taken off the window's top, each address once. -/
structure Laid (held : List Extent) (s : Heap) : Prop where
  window : Given s.window
  between : Between s.window.scratch.high s.window.scratch.limit (held ++ s.owned)

variable {s s' : Heap} {held held' : List Extent}

theorem Given.lower {w w' : Window} (h : Given w) (hl : Lower w w') : Given w' where
  fixed := hl.mayGrow.trans h.fixed
  streamed := hl.lastCap.trans h.streamed
  base := by
    rw [hl.base, hl.next]
    exact h.base
  next := hl.order h.next h.fixed
  high := by
    have hlimit := hl.fixed h.fixed
    have := hl.high hlimit
    have := h.high
    omega
  top := by
    rw [hl.fixed h.fixed]
    exact h.top
  aligned := hl.aligned h.aligned h.fixed

theorem cover_owned (s : Heap) (a : ℕ) : cover s.owned a =
    cover [⟨s.base, s.limit - s.base⟩] a + cover (pageAt s.record) a + cover (s.runs.map Run.extent) a +
      cover s.regions.free a + cover s.books a := by
  unfold Heap.owned Heap.arena
  simp only [List.cons_append, cover_cons, cover_append, cover_nil]
  omega

theorem Between.of_cover {low high : ℕ} {l l' : List Extent} (h : Between low high l)
    (hle : ∀ a, cover l' a ≤ cover l a) : Between low high l' :=
  fun a => (hle a).trans (h a)

namespace Laid

theorem of_cover (h : Laid held s) (hw : s'.window = s.window)
    (hle : ∀ a, cover (held' ++ s'.owned) a ≤ cover (held ++ s.owned) a) : Laid held' s' := by
  refine ⟨?_, ?_⟩
  · rw [hw]
    exact h.window
  · rw [hw]
    exact h.between.of_cover hle

theorem drop {e : Extent} (h : Laid (e :: held) s) : Laid held s := by
  refine h.of_cover rfl fun a => ?_
  rw [List.cons_append, cover_cons]
  omega

theorem lower (h : Laid held s) (hl : Lower s.window s'.window) (ho : s'.owned = s.owned) :
    Laid held s' := by
  have hlimit := hl.fixed h.window.fixed
  refine ⟨h.window.lower hl, ?_⟩
  rw [ho, hlimit]
  intro a
  have hdown := hl.high hlimit
  have := h.between a
  split at this
  · rw [if_pos ⟨by omega, by omega⟩]
    exact this
  · omega

theorem mapped (h : Laid held s) (hm : Mapped s s') : Laid held s' := by
  obtain ⟨l, hbooks, hnew⟩ := hm.books
  have hlimit := hm.window.fixed h.window.fixed
  have hdown := hm.window.high hlimit
  have hhigh := h.window.high
  refine ⟨h.window.lower hm.window, ?_⟩
  rw [hlimit]
  refine (h.between.append (hnew h.window.fixed) hdown hhigh).of_cover fun a => ?_
  simp only [cover_append, cover_owned, hm.base, hm.limit, hm.record, hm.runs, hm.regions, hbooks]
  omega

theorem reserve (h : Laid held s) (pages : ℕ) (hne : (s.reserve pages).1 ≠ 0) :
    Laid (⟨(s.reserve pages).1, pages % 2 ^ 32 * kPage⟩ :: held) (s.reserve pages).2 := by
  obtain ⟨hm, hat⟩ := reserve_spec s pages
  obtain ⟨hend, hhigh⟩ := hat hne h.window.fixed
  have hl := hm.window
  have hlimit := hl.fixed h.window.fixed
  have howned : (s.reserve pages).2.owned = s.owned := by
    unfold Heap.reserve
    split
    · rfl
    · rfl
  refine ⟨h.window.lower hl, ?_⟩
  rw [howned, hlimit, hhigh]
  have hnew : Between (s.reserve pages).1 s.window.scratch.high
      [⟨(s.reserve pages).1, pages % 2 ^ 32 * kPage⟩] := by
    intro a
    simp only [cover_cons, cover_nil, mem_iff, hend]
    exact le_rfl
  exact h.between.append hnew (by omega) h.window.high

theorem place (h : Laid held s) {needed : ℕ} (hne : (s.place needed).1 ≠ 0)
    (hsmall : needed / kPage < 2 ^ 32) (hpages : kPage ∣ needed) :
    Laid (⟨(s.place needed).1, needed⟩ :: held) (s.place needed).2 := by
  have hsize : needed / kPage % 2 ^ 32 * kPage = needed := by
    rw [Nat.mod_eq_of_lt hsmall, Nat.div_mul_cancel hpages]
  unfold Heap.place at hne ⊢
  split at hne
  · have := h.reserve (needed / kPage) hne
    rwa [hsize] at this
  · next at_ r htake =>
    have hcover : ∀ a, cover s.regions.free a = cover (⟨at_, needed⟩ :: r.free) a :=
      fun a => Regions.cover_take htake
    split at hne
    · next hzero =>
      have hlost : Laid held { s with regions := r } := by
        refine h.of_cover rfl fun a => ?_
        have := hcover a
        simp only [cover_append, cover_owned, cover_cons] at this ⊢
        omega
      have := hlost.reserve (needed / kPage) hne
      rw [hsize] at this
      simpa only [hzero, if_true] using this
    · next hpos =>
      rw [if_neg hpos]
      refine h.of_cover rfl fun a => ?_
      have := hcover a
      simp only [List.cons_append, cover_append, cover_owned, cover_cons] at this ⊢
      omega

theorem placed (h : Laid held s) (needed : ℕ) : Laid held (s.place needed).2 := by
  have hreserve : ∀ {t : Heap}, Laid held t → Laid held (t.reserve (needed / kPage)).2 :=
    fun ht => ht.mapped (reserve_spec _ _).1
  unfold Heap.place
  split
  · exact hreserve h
  · next at_ r htake =>
    have hlost : Laid held { s with regions := r } := by
      refine h.of_cover rfl fun a => ?_
      have hcover : cover s.regions.free a = cover (⟨at_, needed⟩ :: r.free) a := Regions.cover_take htake
      simp only [cover_append, cover_owned, cover_cons] at hcover ⊢
      omega
    split
    · exact hreserve hlost
    · exact hlost

theorem bookPage (h : Laid held s) {as : List Alloc} (hne : (s.bookPage as).1 ≠ 0) :
    Laid (⟨(s.bookPage as).1, kPage⟩ :: held) (s.bookPage as).2.1 := by
  have hone : 1 % 2 ^ 32 * kPage = kPage := by rw [Nat.one_mod_eq_one.2 (by decide), Nat.one_mul]
  unfold Heap.bookPage at hne ⊢
  split at hne
  · exact absurd rfl hne
  next hready =>
  rw [if_neg hready]
  dsimp only at hne ⊢
  split at hne
  · exact absurd rfl hne
  next hpage =>
  rw [if_neg hpage]
  have hheld := h.reserve 1 hpage
  rw [hone] at hheld
  have hmap := hheld.mapped (mapped_mapPage (s.reserve 1).2 (s.reserve 1).1 as)
  rcases heq : (s.reserve 1).2.mapPage (s.reserve 1).1 as with ⟨_ | _, t, bs⟩
  · rw [heq] at hne
    exact absurd rfl hne
  · rw [heq] at hmap
    exact hmap

theorem growRunRecord (h : Laid held s) (as : List Alloc) : Laid held (s.growRunRecord as).2.1 := by
  have hlost := h.mapped (mapped_bookPage s as)
  have hpage : (s.bookPage as).1 ≠ 0 → Laid (⟨(s.bookPage as).1, kPage⟩ :: held) (s.bookPage as).2.1 :=
    fun hne => h.bookPage hne
  unfold Heap.growRunRecord
  rcases heq : s.bookPage as with ⟨page, t, bs⟩
  rw [heq] at hlost hpage
  dsimp only at hlost hpage ⊢
  split
  · exact hlost
  · next hne =>
    -- the entries' old page is kept for nothing
    refine (hpage hne).of_cover rfl fun a => ?_
    by_cases hrecord : t.record = 0
    · simp only [List.cons_append, cover_append, cover_owned, cover_cons, pageAt, hne, hrecord, if_false,
        if_true, cover_nil]
      omega
    · simp only [List.cons_append, cover_append, cover_owned, cover_cons, pageAt, hne, hrecord, if_false,
        cover_nil]
      omega

theorem recordRun {r : Run} (h : Laid (r.extent :: held) s) (as : List Alloc) :
    Laid held (s.recordRun r as) := by
  have hrecord : ∀ {t : Heap}, Laid (r.extent :: held) t → Laid held { t with runs := t.runs ++ [r] } := by
    intro t ht
    refine ht.of_cover rfl fun a => ?_
    simp only [List.cons_append, cover_append, cover_owned, cover_cons, List.map_append, List.map_cons,
      List.map_nil, cover_nil]
    omega
  unfold Heap.recordRun
  split
  · have hgrow := h.growRunRecord as
    rcases heq : s.growRunRecord as with ⟨_ | _, t, bs⟩
    · rw [heq] at hgrow
      exact hgrow.drop
    · rw [heq] at hgrow
      exact hrecord hgrow
  · exact hrecord h

end Laid

/-! ## What a call keeps -/

theorem kPage_dvd_alignUp (n : ℕ) : kPage ∣ alignUp n := Nat.dvd_mul_left _ _

theorem pages_lt {c : Heap.MapCall} {as : List Alloc} (hg : Given s.window)
    (h : (s.mapping c as).1 = true) : alignUp c.length / kPage < 2 ^ 32 := by
  by_cases hn : alignUp c.length / kPage = 0
  · rw [hn]
    decide
  · have hp := (place_spec s (alignUp c.length)).2.2.2.2
    have hwithin := mapRun_within (hp.mayGrow.trans hg.fixed) hn h
    have htop := hg.top
    rw [hp.fixed hg.fixed] at hwithin
    rw [Process.kUserTop] at htop
    rw [Mem.kPage_eq, Mem.kLargePage_eq] at *
    omega

theorem Laid.sysMmap (h : Laid [] s) (c : Heap.MapCall) (as : List Alloc) :
    Laid [] (s.sysMmap c as).2 := by
  have hmapped := (h.placed (alignUp c.length)).mapped (mapped_mapping s c as)
  rcases mmap_cases s c as with hend | hend | ⟨m, error, -, hend⟩ | ⟨-, -, hbase, hok, -, hend⟩
  · rw [hend]
    exact h
  · rw [hend]
    exact h.placed _
  · rw [hend]
    exact hmapped.of_cover rfl fun a => le_rfl
  · rw [hend]
    have hheld := (h.place hbase (pages_lt h.window hok) (kPage_dvd_alignUp _)).mapped (mapped_mapping s c as)
    obtain ⟨m, hm⟩ := recording_spec s c as
    refine Laid.recordRun ?_ _
    rw [hm]
    exact hheld.of_cover rfl fun a => le_rfl

theorem give_size {e : Extent} {r : Regions} (h : r.refuses e = false) : e.size ≠ 0 := by
  intro hzero
  unfold Regions.refuses at h
  simp [hzero] at h

theorem Laid.give {e : Extent} (h : Laid (e :: held) s) (as : List Alloc) :
    Laid held (s.give e as).2.1 ∧
      ((s.give e as).1 = true → (s.give e as).2.1.window.scratch.high ≤ e.base) := by
  -- a run that is not empty is taken off the window's top
  have habove : ∀ {t : Heap}, Laid (e :: held) t → e.size ≠ 0 → t.window.scratch.high ≤ e.base := by
    intro t ht hsize
    have := ht.between e.base
    rw [List.cons_append, cover_cons, if_pos (mem_iff.2 ⟨le_rfl, by omega⟩)] at this
    split at this
    · next hin => exact hin.1
    · omega
  have htake : ∀ {t : Heap} (r : Regions), Laid (e :: held) t → r.free = t.regions.free →
      Laid held { t with regions := r.insert e } := by
    intro t r ht hr
    refine ht.of_cover rfl fun a => ?_
    simp only [List.cons_append, cover_append, cover_owned, cover_cons, Regions.cover_insert, hr]
    omega
  rcases give_cases s e as with ⟨-, hend⟩ | ⟨-, -, hend⟩ | ⟨hr, hend⟩ | ⟨hr, hne, hend⟩
  · rw [hend]
    exact ⟨h.drop, nofun⟩
  · rw [hend]
    exact ⟨h.drop.mapped (mapped_bookPage s as), nofun⟩
  · rw [hend]
    have hbase := habove h (give_size hr)
    exact ⟨htake _ h rfl, fun _ => hbase⟩
  · rw [hend]
    have hbook := h.bookPage hne
    have hbase := habove (h.mapped (mapped_bookPage s as)) (give_size hr)
    refine ⟨?_, fun _ => hbase⟩
    refine hbook.of_cover rfl fun a => ?_
    simp only [List.cons_append, cover_append, cover_owned, cover_cons, Regions.cover_insert]
    omega

theorem release_above {w : Window} {base : ℕ} (h : w.scratch.high ≤ base) (pages : ℕ) :
    (w.release base pages).scratch = w.scratch := by
  unfold Window.release Scratch.release
  split
  · next heq =>
    obtain rfl : base = w.scratch.high := by omega
    rfl
  · rfl

theorem Laid.sysMunmap (h : Laid [] s) (addr length : ℕ) (as : List Alloc) :
    Laid [] (s.sysMunmap addr length as).2 := by
  have hforget : ∀ {i run}, s.runFor addr length = some (i, run) →
      Laid [⟨addr, run.bytes⟩] (({ s with runs := Heap.forgetRun s.runs i } : Heap).writeBack run) := by
    intro i run hrun
    obtain ⟨-, -, -, hget, rfl, -⟩ := runFor_some hrun
    have hruns : Laid [run.extent] { s with runs := Heap.forgetRun s.runs i } := by
      refine h.of_cover rfl fun a => ?_
      have hperm := cover_perm ((forgetRun_perm hget).map Run.extent) a
      simp only [List.map_cons, cover_cons, List.cons_append, List.nil_append, cover_owned] at hperm ⊢
      omega
    unfold Heap.writeBack
    split
    · exact hruns
    · exact hruns.of_cover rfl fun a => le_rfl
  rcases munmap_cases s addr length as with ⟨-, hend⟩ | ⟨i, run, hrun, t, bs, hgive, hend⟩ |
    ⟨i, run, hrun, t, bs, hgive, hend⟩
  · rw [hend]
    exact h
  · have hgiven := ((hforget hrun).give as).1
    rw [hgive] at hgiven
    rw [hend]
    exact hgiven
  · obtain ⟨hgiven, habove⟩ := (hforget hrun).give as
    rw [hgive] at hgiven habove
    have habove := habove rfl
    obtain ⟨w, frames, chunks, hdrop, hw⟩ := dropFrames_spec (run.bytes / kPage) t addr 0 bs
    have hw := hw hgiven.window.streamed
    have hdropped : Laid [] (Heap.dropFrames (run.bytes / kPage) t addr 0 bs) := by
      rw [hdrop]
      exact hgiven.lower hw rfl
    rw [hend]
    have hhigh : (Heap.dropFrames (run.bytes / kPage) t addr 0 bs).window.scratch.high ≤ addr := by
      rw [hdrop]
      exact (hw.high (hw.fixed hgiven.window.fixed)).trans habove
    exact hdropped.lower (.of_scratch (release_above hhigh _)) rfl

theorem Laid.sysBrk (h : Laid [] s) (newBreak : ℕ) (as : List Alloc) :
    Laid [] (s.sysBrk newBreak as).2 := by
  obtain ⟨t, brk, m, ht, hend⟩ := brk_spec s newBreak as
  rw [hend]
  exact (h.mapped ht).of_cover rfl fun a => le_rfl

theorem Laid.step {p : Process} (h : Laid [] p.heap) (call : Call) : Laid [] (p.step call).heap := by
  cases call with
  | mmap c as => exact h.sysMmap c as
  | munmap addr length as => exact h.sysMunmap addr length as
  | brk newBreak as => exact h.sysBrk newBreak as
  | openat | close | store | change => exact h.of_cover rfl fun a => le_rfl

theorem kPage_dvd {n : ℕ} (h : n % kPage = 0) : kPage ∣ n := Nat.dvd_of_mod_eq_zero h

theorem Process.Started.laid {p : Process} (h : p.Started) :
    Laid [] p.heap ∧ p.heap.ready = true ∧ p.heap.runs = [] ∧ p.heap.regions = ⟨[], 0⟩ ∧
      p.heap.record = 0 ∧ p.heap.capacity = 0 ∧ p.live = [] := by
  obtain ⟨base, limit, scratch, vspace, files, memory, bytes, hadopt, htop, hinit, hlive⟩ := h
  unfold Scratch.adopt at hadopt
  split at hadopt
  · cases hadopt
  next hargs =>
  push Not at hargs
  obtain rfl := Option.some.inj hadopt
  unfold Heap.init at hinit
  dsimp only at hinit
  split at hinit
  · cases hinit
  split at hinit
  · cases hinit
  next at_ w hreserve =>
  split at hinit
  · cases hinit
  obtain ⟨hl, -, hcase⟩ := reserve_some hreserve
  obtain ⟨hlimit, hend, -, hhigh⟩ | ⟨-, hgrow⟩ := hcase
  · have hgiven : Given w := Given.lower (w := ⟨_, vspace, [], []⟩)
      ⟨rfl, rfl, le_rfl, hargs.1.le, le_rfl, htop, kPage_dvd hargs.2.2⟩ hl
    have heap := (Option.some.inj hinit).symm
    rw [heap]
    refine ⟨⟨hgiven, fun a => ?_⟩, rfl, rfl, rfl, rfl, rfl, hlive⟩
    dsimp only at hlimit hend hhigh ⊢
    simp only [List.nil_append, cover_owned, pageAt, if_true, List.map_nil, cover_cons, cover_nil, mem_iff]
    rw [hlimit, hhigh]
    split
    · rw [if_pos ⟨by omega, by omega⟩]
    · omega
  · cases hgrow

theorem Process.Run.laid {Safe : Heap → Call → Prop} {p q : Process} (h : Process.Run Safe p q)
    (hp : Laid [] p.heap) : Laid [] q.heap :=
  Process.Run.induct (fun p => Laid [] p.heap) h (fun _ call _ hp => hp.step call) hp

/-! ## The record stays in its page -/

theorem length_mmap (s : Heap) (c : Heap.MapCall) (as : List Alloc) :
    (s.sysMmap c as).2.runs.length ≤ s.runs.length + 1 := by
  have hmapping := (mapped_mapping s c as).runs.trans (place_spec s _).1
  rcases mmap_cases s c as with hend | hend | ⟨m, error, -, hend⟩ | ⟨-, -, -, -, -, hend⟩
  · rw [hend]
    exact Nat.le_succ _
  · rw [hend, (place_spec s _).1]
    exact Nat.le_succ _
  · rw [hend]
    dsimp only
    rw [hmapping]
    exact Nat.le_succ _
  · rw [hend]
    obtain ⟨m, hm⟩ := recording_spec s c as
    have := length_recordRun (s.recording c as).1 (s.runOf c) (s.recording c as).2
    have hruns : (s.recording c as).1.runs = s.runs := by rw [hm, hmapping]
    rwa [hruns] at this

theorem length_munmap (s : Heap) (addr length : ℕ) (as : List Alloc) :
    (s.sysMunmap addr length as).2.runs.length ≤ s.runs.length := by
  rcases hrun : s.runFor addr length with _ | ⟨i, run⟩
  · have hend : s.sysMunmap addr length as = (-eInval, s) := by
      unfold Heap.sysMunmap
      rw [hrun]
    rw [hend]
  · rw [(munmap_spec hrun as).2.1, length_forgetRun (runFor_some hrun).2.2.2.1]
    exact Nat.le_succ _

theorem length_step {p : Process} {call : Call} (hs : RoomForRun p.heap call)
    (h : p.heap.runs.length ≤ kRecordRuns) : (p.step call).heap.runs.length ≤ kRecordRuns := by
  cases call with
  | mmap c as => exact (length_mmap p.heap c as).trans hs
  | munmap addr length as => exact (length_munmap p.heap addr length as).trans h
  | brk newBreak as =>
    obtain ⟨t, brk, m, ht, hend⟩ := brk_spec p.heap newBreak as
    have hruns : (p.heap.sysBrk newBreak as).2.runs = p.heap.runs := by
      rw [hend]
      exact ht.runs
    exact (congrArg List.length hruns).trans_le h
  | openat | close | store | change => exact h

theorem Laid.oneOwner (h : Laid [] s) (hruns : s.runs.length ≤ kRecordRuns) : OneOwner s := by
  have hrecord : s.recordExtent = pageAt s.record := by
    have hsize : max kPage (s.runs.length * kRunBytes) = kPage := by
      have hdiv : kRecordRuns * kRunBytes ≤ kPage := Nat.div_mul_le_self _ _
      exact max_eq_left ((Nat.mul_le_mul_right _ hruns).trans hdiv)
    unfold Heap.recordExtent pageAt
    rw [hsize]
  have howners : s.owners = s.left :: s.owned := by
    unfold Heap.owners Heap.owned
    rw [hrecord]
    rfl
  have hbetween := h.between
  have hw := h.window
  rw [List.nil_append] at hbetween
  have hleft : ∀ a, a ∈ s.left → s.window.scratch.next ≤ a ∧ a < s.window.scratch.high := by
    intro a ha
    have hin := mem_iff.1 ha
    have := hw.next
    dsimp only [Heap.left] at hin
    omega
  have hwhole : ∀ a, s.window.scratch.base ≤ a → a < s.window.scratch.limit → a ∈ s.whole := by
    intro a hbase hlimit
    refine mem_iff.2 ⟨hbase, ?_⟩
    dsimp only [Heap.whole]
    omega
  rw [OneOwner, howners]
  refine ⟨Extent.pairwise_apart_iff.2 fun a => ?_, fun e he a ha => ?_⟩
  · have := hbetween a
    rw [cover_cons]
    split at this
    · next hin =>
      rw [if_neg fun ha => by have := hleft a ha; omega]
      omega
    · split
      · omega
      · omega
  · rcases List.mem_cons.1 he with rfl | he
    · have := hleft a ha
      have := hw.base
      have := hw.high
      exact hwhole a (by omega) (by omega)
    · have hpos : 0 < cover s.owned a := cover_pos.2 ⟨e, he, ha⟩
      have := hbetween a
      split at this
      · next hin =>
        have := hw.base
        have := hw.next
        exact hwhole a (by omega) hin.2
      · omega

/-- In every run whose calls to `mmap` find room in the record's page, no address has two
    owners. -/
theorem one_owner {p q : Process} (hp : p.Started) (h : Process.Run RoomForRun p q) :
    OneOwner q.heap := by
  obtain ⟨hlaid, -, hruns, -⟩ := hp.laid
  have hlength : q.heap.runs.length ≤ kRecordRuns := by
    refine Process.Run.induct (fun p => p.heap.runs.length ≤ kRecordRuns) h (fun _ _ hs => length_step hs) ?_
    rw [hruns]
    exact Nat.zero_le _
  exact (h.laid hlaid).oneOwner hlength

/-! ## The 129th run -/

def smallWindow : Window where
  scratch := (Scratch.adopt (2 ^ 30) (2 ^ 30 + 256 * 4096)).get (by decide +kernel)
  vspace := ⟨2 ^ 38, [Mem.VSpace.upper (2 ^ 30), Mem.VSpace.lower (2 ^ 30)], []⟩
  reserved := []
  streamed := []

def smallProcess : Process where
  heap := (Heap.init smallWindow ⟨[], fun _ => []⟩ (fun _ => 0) 4096).get (by decide +kernel)
  live := []

theorem smallProcess_started : smallProcess.Started :=
  ⟨2 ^ 30, 2 ^ 30 + 256 * 4096, smallWindow.scratch, smallWindow.vspace, _, _, 4096,
    (Option.some_get _).symm, by decide, (Option.some_get _).symm, rfl⟩

/-- A page of anonymous memory, for which the allocator has what it is asked for. -/
def askPage (i : ℕ) : Call :=
  .mmap ⟨4096, true, true, false, true, false, -1, 0⟩
    [⟨[], 3 * i + 1, []⟩, ⟨[], 3 * i + 2, []⟩, ⟨[], 3 * i + 3, []⟩]

def manyPages : Process := ((List.range 129).map askPage).foldl Process.step smallProcess

/-- The entry of the 129th run lies in the page above the record's, which another part of the
    bookkeeping owns. -/
theorem record_runs_over : smallProcess.Started ∧
    Process.Run (fun _ _ => True) smallProcess manyPages ∧ ¬ OneOwner manyPages.heap := by
  refine ⟨smallProcess_started, .of_calls _ _, fun h => ?_⟩
  have htwice : cover manyPages.heap.owners (manyPages.heap.record + 4096) = 2 := by decide +kernel
  have hone := Extent.pairwise_apart_iff.1 h.1 (manyPages.heap.record + 4096)
  omega

theorem one_owner_small : OneOwner (smallProcess.step (askPage 0)).heap := by
  have hroom : RoomForRun smallProcess.heap (askPage 0) := by
    have hlt : smallProcess.heap.runs.length < kRecordRuns := by decide +kernel
    exact hlt
  exact one_owner smallProcess_started (.cons (askPage 0) hroom (.nil _))

end Aegir.Hosted
