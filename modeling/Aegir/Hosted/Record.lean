/-
  The record of runs is exact.
-/
import Aegir.Hosted.Owners

namespace Aegir.Hosted

open Aegir.Lib
open Aegir.Lib.Extent (cover cover_cons cover_nil cover_append cover_perm cover_pos mem_iff Apart)
open Aegir.Mem (Window Scratch Alloc kPage kLargePage pageBits)
open Regions (Whole)

/-! ## Lengths -/

def Rounds (length : ℕ) : Prop := length + (kPage - 1) < 2 ^ 64

theorem alignUp_bounds {n : ℕ} (h : Rounds n) : n ≤ alignUp n ∧ alignUp n < n + kPage := by
  unfold Rounds at h
  unfold alignUp
  rw [Nat.mod_eq_of_lt h]
  have hpos := Mem.kPage_pos
  have := Nat.div_add_mod' (n + (kPage - 1)) kPage
  have := Nat.mod_lt (n + (kPage - 1)) hpos
  omega

theorem whole_alignUp {base n : ℕ} (hb : kPage ∣ base) (hn : n ≠ 0) (h : Rounds n) :
    Whole kPage ⟨base, alignUp n⟩ := by
  have := (alignUp_bounds h).1
  exact ⟨hb, kPage_dvd_alignUp n, by dsimp only; omega⟩

/-! ## The condition -/

/-- `mmap` is called with a length that can be rounded up and with room in the record's page. -/
def FitsRecord (s : Heap) : Call → Prop
  | .mmap c _ => Rounds c.length ∧ s.runs.length < kRecordRuns
  | _ => True

def RecordsRun (s : Heap) : Call → Prop
  | .mmap c as => FitsRecord s (.mmap c as) ∧ (s.recording c as).1.RoomFor (s.recording c as).2
  | _ => True

/-- The free list has a node for a run `munmap` gives it, or gets a page of them. -/
def NodeFor (s : Heap) (addr length : ℕ) (as : List Alloc) : Prop :=
  ∀ i r, s.runFor addr length = some (i, r) → s.regions.nodes ≠ 0 ∨
    ((({ s with runs := Heap.forgetRun s.runs i } : Heap).writeBack r).bookPage as).1 ≠ 0

/-- The record holds exactly the mappings the process has. -/
structure Exact (p : Process) : Prop where
  /-- The entries are in the record's page. -/
  stored : p.heap.runs.length * kRunBytes ≤ kPage ∧ (p.heap.runs ≠ [] → p.heap.record ≠ 0)
  found : ∀ base, (p.heap.findRun base).isSome ↔ ∃ m ∈ p.live, m.base = base
  sizes : ∀ m ∈ p.live, ∀ i, p.heap.findRun m.base = some i →
    (p.heap.runs[i]?).map (·.bytes) = some (alignUp m.length)
  released : ∀ m ∈ p.live, ∀ as, NodeFor p.heap m.base m.length as →
    (p.heap.sysMunmap m.base m.length as).1 = 0

/-! ## The record and the free list -/

/-- The runs and the free regions are whole pages, and the record is in one page. -/
structure Sound (s : Heap) : Prop where
  ready : s.ready = true
  laid : Laid [] s
  free : ∀ e ∈ s.regions.free, Whole kPage e
  runs : ∀ r ∈ s.runs, Whole kPage r.extent
  page : s.record = 0 ∧ s.capacity = 0 ∧ s.runs = [] ∨ s.record ≠ 0 ∧ s.capacity = kRecordRuns
  room : s.runs.length ≤ kRecordRuns

variable {s t : Heap}

theorem place_whole (hg : Given s.window) (hf : ∀ e ∈ s.regions.free, Whole kPage e) {needed : ℕ}
    (hn : kPage ∣ needed) : (∀ e ∈ (s.place needed).2.regions.free, Whole kPage e) ∧
      ((s.place needed).1 ≠ 0 → kPage ∣ (s.place needed).1) := by
  have hreserve : ∀ (t : Heap), t.window = s.window → ((t.reserve (needed / kPage)).2.regions = t.regions ∧
      ((t.reserve (needed / kPage)).1 ≠ 0 → kPage ∣ (t.reserve (needed / kPage)).1)) := by
    intro t ht
    obtain ⟨hm, hat⟩ := reserve_spec t (needed / kPage)
    refine ⟨hm.regions, fun hne => ?_⟩
    have hg' : Given t.window := by rw [ht]; exact hg
    obtain ⟨-, hhigh⟩ := hat hne hg'.fixed
    rw [← hhigh]
    exact (hg'.lower hm.window).aligned
  unfold Heap.place
  split
  · obtain ⟨hsame, hdvd⟩ := hreserve s rfl
    rw [hsame]
    exact ⟨hf, hdvd⟩
  · next at_ r htake =>
    obtain ⟨hat, hrest⟩ := Regions.whole_take hf hn htake
    split
    · obtain ⟨hsame, hdvd⟩ := hreserve { s with regions := r } rfl
      rw [hsame]
      exact ⟨hrest, hdvd⟩
    · exact ⟨hrest, fun _ => hat⟩

theorem mmap_regions (s : Heap) (c : Heap.MapCall) (as : List Alloc) :
    (s.sysMmap c as).2.regions = s.regions ∨
      (s.sysMmap c as).2.regions = (s.place (alignUp c.length)).2.regions := by
  have hmapping := (mapped_mapping s c as).regions
  rcases mmap_cases s c as with hend | hend | ⟨m, error, -, hend⟩ | ⟨-, -, -, -, -, hend⟩
  · rw [hend]
    exact .inl rfl
  · rw [hend]
    exact .inr rfl
  · rw [hend]
    exact .inr hmapping
  · rw [hend]
    obtain ⟨m, hm⟩ := recording_spec s c as
    have hregions : (s.recording c as).1.regions = (s.place (alignUp c.length)).2.regions := by
      rw [hm]
      exact hmapping
    rw [← hregions]
    rcases recordRun_cases (s.recording c as).1 (s.runOf c) (s.recording c as).2 with
      ⟨-, h⟩ | ⟨u, hu, -, -, h⟩ | ⟨-, h, -, -⟩
    · rw [h]
      exact .inr rfl
    · rw [h]
      exact .inr hu.regions
    · exact .inr h.regions

namespace Sound

theorem sysMmap (h : Sound s) {c : Heap.MapCall} (hfits : Rounds c.length)
    (hroom : s.runs.length < kRecordRuns) (as : List Alloc) : Sound (s.sysMmap c as).2 := by
  obtain ⟨hkeeps, hends⟩ := mmap_runs s c as
  obtain ⟨hfree, hbase⟩ := place_whole h.laid.window h.free (kPage_dvd_alignUp c.length)
  have hwhole : ∀ e ∈ (s.sysMmap c as).2.regions.free, Whole kPage e := by
    rcases mmap_regions s c as with heq | heq
    · rw [heq]
      exact h.free
    · rw [heq]
      exact hfree
  have hpage : ∀ {t : Heap}, t.record = s.record → t.capacity = s.capacity → t.runs = s.runs →
      t.record = 0 ∧ t.capacity = 0 ∧ t.runs = [] ∨ t.record ≠ 0 ∧ t.capacity = kRecordRuns := by
    intro t hr hc hs
    rw [hr, hc, hs]
    exact h.page
  refine ⟨hkeeps.ready.trans h.ready, h.laid.sysMmap c as, hwhole, ?_, ?_, ?_⟩
  · rcases hends with ⟨-, hruns, -, -⟩ | ⟨hr, hruns, -⟩ | ⟨-, hruns, -, -, -⟩
    · rw [hruns]
      exact h.runs
    · rw [hruns]
      have hpos : 0 ≤ (s.sysMmap c as).1 := by
        rw [hr]
        exact Int.natCast_nonneg _
      obtain ⟨-, -, hlength, hne, -⟩ := mmap_success hpos
      refine List.forall_mem_append.2 ⟨h.runs, List.forall_mem_cons.2 ⟨?_, List.forall_mem_nil _⟩⟩
      exact whole_alignUp (hbase hne) hlength hfits
    · rw [hruns]
      exact h.runs
  · rcases hends with ⟨-, hruns, hr, hc⟩ | ⟨-, hruns, ⟨hr, hc, hne⟩ | ⟨hr, hc⟩⟩ | ⟨-, hruns, hr, hc, -⟩
    · exact hpage hr hc hruns
    · rcases h.page with ⟨-, hzero, hnil⟩ | ⟨hrecord, hcapacity⟩
      · rw [hzero, hnil] at hne
        exact absurd rfl hne
      · exact .inr ⟨by rw [hr]; exact hrecord, hc.trans hcapacity⟩
    · exact .inr ⟨hr, hc⟩
    · exact hpage hr hc hruns
  · exact (length_mmap s c as).trans hroom

theorem whole_give {e : Extent} (hf : ∀ f ∈ s.regions.free, Whole kPage f) (he : Whole kPage e)
    (as : List Alloc) : ∀ f ∈ (s.give e as).2.1.regions.free, Whole kPage f := by
  have hbook := (mapped_bookPage s as).regions
  rcases give_cases s e as with ⟨-, hend⟩ | ⟨-, -, hend⟩ | ⟨-, hend⟩ | ⟨-, -, hend⟩
  · rw [hend]
    exact hf
  · rw [hend]
    intro f hin
    exact hf f (hbook ▸ hin)
  · rw [hend]
    exact Regions.whole_insert hf he
  · rw [hend]
    refine Regions.whole_insert (fun f hin => ?_) he
    exact hf f (hbook ▸ hin)

theorem munmap_free {addr length i : ℕ} {run : Run} (hrun : s.runFor addr length = some (i, run))
    (as : List Alloc) : (s.sysMunmap addr length as).2.regions =
      ((({ s with runs := Heap.forgetRun s.runs i } : Heap).writeBack run).give ⟨addr, run.bytes⟩ as).2.1.regions := by
  rcases munmap_cases s addr length as with ⟨hnone, -⟩ | ⟨j, r, hr, t, bs, ht, hend⟩ |
    ⟨j, r, hr, t, bs, ht, hend⟩
  · rw [hnone] at hrun
    cases hrun
  · obtain ⟨rfl, rfl⟩ := Prod.mk.inj (Option.some.inj (hr.symm.trans hrun))
    rw [hend, ht]
  · obtain ⟨rfl, rfl⟩ := Prod.mk.inj (Option.some.inj (hr.symm.trans hrun))
    obtain ⟨w, frames, chunks, hdrop, -⟩ := dropFrames_spec (r.bytes / kPage) t addr 0 bs
    rw [hend, ht, hdrop]

theorem writeBack_regions (s : Heap) (r : Run) : (s.writeBack r).regions = s.regions := by
  unfold Heap.writeBack
  split
  · rfl
  · rfl

theorem munmap_refused {addr length : ℕ} (h : s.runFor addr length = none) (as : List Alloc) :
    s.sysMunmap addr length as = (-eInval, s) := by
  unfold Heap.sysMunmap
  rw [h]

theorem sysMunmap (h : Sound s) (addr length : ℕ) (as : List Alloc) :
    Sound (s.sysMunmap addr length as).2 := by
  rcases hrun : s.runFor addr length with _ | ⟨i, run⟩
  · rw [munmap_refused hrun]
    exact h
  obtain ⟨-, -, -, hget, rfl, -⟩ := runFor_some hrun
  obtain ⟨hready, hruns, -, hrecord, hcapacity⟩ := munmap_spec hrun as
  have hmem : ∀ r ∈ Heap.forgetRun s.runs i, r ∈ s.runs :=
    fun r hr => (forgetRun_perm hget).mem_iff.2 (List.mem_cons_of_mem _ hr)
  refine ⟨hready.trans h.ready, h.laid.sysMunmap run.base length as, ?_, ?_, ?_, ?_⟩
  · rw [munmap_free hrun]
    refine whole_give ?_ (h.runs run (List.mem_of_getElem? hget)) as
    rw [writeBack_regions]
    exact h.free
  · rw [hruns]
    exact fun r hr => h.runs r (hmem r hr)
  · rw [hruns, hrecord, hcapacity]
    rcases h.page with ⟨-, -, hnil⟩ | hpage
    · rw [hnil] at hget
      cases hget
    · exact .inr hpage
  · exact (length_munmap s run.base length as).trans h.room

theorem sysBrk (h : Sound s) (newBreak : ℕ) (as : List Alloc) : Sound (s.sysBrk newBreak as).2 := by
  have hlaid := h.laid.sysBrk newBreak as
  obtain ⟨t, brk, m, ht, hend⟩ := brk_spec s newBreak as
  rw [hend] at hlaid ⊢
  refine ⟨ht.ready.trans h.ready, hlaid, ?_, ?_, ?_, ?_⟩
  · simpa only [ht.regions] using h.free
  · simpa only [ht.runs] using h.runs
  · simpa only [ht.record, ht.capacity, ht.runs] using h.page
  · simpa only [ht.runs] using h.room

theorem step {p : Process} {call : Call} (h : Sound p.heap) (hs : FitsRecord p.heap call) :
    Sound (p.step call).heap := by
  cases call with
  | mmap c as => exact h.sysMmap hs.1 hs.2 as
  | munmap addr length as => exact h.sysMunmap addr length as
  | brk newBreak as => exact h.sysBrk newBreak as
  | openat | close | store | change =>
    exact ⟨h.ready, h.laid.of_cover rfl fun a => le_rfl, h.free, h.runs, h.page, h.room⟩

theorem of_started {p : Process} (h : p.Started) : Sound p.heap := by
  obtain ⟨hlaid, hready, hruns, hregions, hrecord, hcapacity, -⟩ := h.laid
  refine ⟨hready, hlaid, ?_, ?_, .inl ⟨hrecord, hcapacity, hruns⟩, ?_⟩
  · rw [hregions]
    exact List.forall_mem_nil _
  · rw [hruns]
    exact List.forall_mem_nil _
  · rw [hruns]
    exact Nat.zero_le _

/-! ## The run of a mapping -/

theorem nodup (h : Sound s) : (s.runs.map Run.base).Nodup := by
  have hapart : (s.runs.map Run.extent).Pairwise Apart := by
    refine Extent.pairwise_apart_iff.2 fun a => ?_
    have := h.laid.between a
    rw [List.nil_append, cover_owned] at this
    split at this
    · omega
    · omega
  rw [List.pairwise_map] at hapart
  refine List.pairwise_map.2 (hapart.imp_of_mem fun {r r'} hr hr' hne heq => ?_)
  have hsize := (h.runs r hr).2.2
  have hsize' := (h.runs r' hr').2.2
  refine hne r.base (mem_iff.2 ⟨le_rfl, ?_⟩) (mem_iff.2 ⟨heq.ge, ?_⟩)
  · exact Nat.lt_add_of_pos_right (Nat.pos_of_ne_zero hsize)
  · rw [show r.base = r'.extent.base from heq]
    exact Nat.lt_add_of_pos_right (Nat.pos_of_ne_zero hsize')

theorem eq_of_base (h : Sound s) {r r' : Run} (hr : r ∈ s.runs) (hr' : r' ∈ s.runs)
    (heq : r.base = r'.base) : r = r' :=
  List.inj_on_of_nodup_map h.nodup hr hr' heq

theorem base_notMem (h : Sound s) {i : ℕ} {r r' : Run} (hget : s.runs[i]? = some r)
    (hr' : r' ∈ Heap.forgetRun s.runs i) : r'.base ≠ r.base := by
  have hnodup := ((forgetRun_perm hget).map Run.base).nodup_iff.1 h.nodup
  rw [List.map_cons, List.nodup_cons] at hnodup
  exact fun heq => hnodup.1 (heq ▸ List.mem_map_of_mem hr')

theorem findRun_some (h : Sound s) {r : Run} (hr : r ∈ s.runs) :
    ∃ i, s.findRun r.base = some i ∧ s.runs[i]? = some r := by
  have hsome : (s.findRun r.base).isSome := by
    unfold Heap.findRun
    rw [List.findIdx?_isSome, List.any_eq_true]
    exact ⟨r, hr, decide_eq_true rfl⟩
  obtain ⟨i, hi⟩ := Option.isSome_iff_exists.1 hsome
  obtain ⟨hlt, hbase, -⟩ := List.findIdx?_eq_some_iff_getElem.1 hi
  have heq := h.eq_of_base (List.getElem_mem hlt) hr (of_decide_eq_true hbase)
  exact ⟨i, hi, by rw [List.getElem?_eq_getElem hlt, heq]⟩

theorem runFor_of_mem (h : Sound s) {r : Run} {length : ℕ} (hr : r ∈ s.runs) (hbase : r.base ≠ 0)
    (hlength : length ≠ 0) (hbytes : r.bytes = alignUp length) :
    ∃ i, s.runFor r.base length = some (i, r) := by
  obtain ⟨i, hfind, hget⟩ := h.findRun_some hr
  refine ⟨i, ?_⟩
  unfold Heap.runFor
  rw [if_neg (by simp [h.ready, hbase, hlength]), hfind]
  simp [hget, hbytes]

theorem released (h : Sound s) {i addr length : ℕ} {r : Run} (hrun : s.runFor addr length = some (i, r))
    {as : List Alloc} (hnode : NodeFor s addr length as) : (s.sysMunmap addr length as).1 = 0 := by
  obtain ⟨-, -, -, hget, rfl, -⟩ := runFor_some hrun
  have hmem := List.mem_of_getElem? hget
  have happart : ∀ a, cover (r.extent :: s.regions.free) a ≤ 1 := by
    intro a
    have := h.laid.between a
    have hperm := cover_perm ((forgetRun_perm hget).map Run.extent) a
    rw [List.map_cons, cover_cons] at hperm
    rw [List.nil_append, cover_owned] at this
    rw [cover_cons]
    split at this
    · omega
    · omega
  have hnot : s.regions.refuses ⟨r.base, r.bytes⟩ = false :=
    Regions.not_refuses h.free (h.runs r hmem) (by rw [Mem.kPage_eq]; exact ⟨512, rfl⟩) happart
  have hregions := writeBack_regions { s with runs := Heap.forgetRun s.runs i } r
  rcases munmap_cases s r.base length as with ⟨hnone, -⟩ | ⟨j, q, hq, t, bs, ht, -⟩ |
    ⟨j, q, hq, t, bs, ht, hend⟩
  · rw [hnone] at hrun
    cases hrun
  · obtain ⟨rfl, rfl⟩ := Prod.mk.inj (Option.some.inj (hq.symm.trans hrun))
    rcases give_cases (({ s with runs := Heap.forgetRun s.runs j } : Heap).writeBack q)
      ⟨q.base, q.bytes⟩ as with ⟨hr, -⟩ | ⟨hn, hp, -⟩ | ⟨-, hg⟩ | ⟨-, -, hg⟩
    · rw [hregions, hnot] at hr
      cases hr
    · rw [hregions] at hn
      rcases hnode j q hrun with hsome | hpage
      · exact absurd hn hsome
      · exact absurd hp hpage
    · rw [hg] at ht
      cases ht
    · rw [hg] at ht
      cases ht
  · rw [hend]

end Sound

/-! ## Exactness -/

def Stands (r : Run) (m : Mapping) : Prop := r.base = m.base ∧ r.bytes = alignUp m.length

theorem Stands.stays {i addr length : ℕ} {run r : Run} {live : List Mapping} {m : Mapping}
    (hstands : Stands r m) (hrun : s.runFor addr length = some (i, run))
    (hm : m ∈ Process.released live addr length) (hr : r ∈ s.runs) : r ∈ Heap.forgetRun s.runs i := by
  obtain ⟨-, -, hlength, hget, hbase, hbytes⟩ := runFor_some hrun
  rcases List.mem_cons.1 ((forgetRun_perm hget).mem_iff.1 hr) with rfl | hin
  · have hout := (List.mem_filter.1 hm).2
    rw [Bool.not_eq_true', decide_eq_false_iff_not] at hout
    exact absurd ⟨hlength, hstands.1.symm.trans hbase, hstands.2.symm.trans hbytes⟩ hout
  · exact hin

/-- The mappings and the entries are each other's. -/
structure Matched (p : Process) : Prop where
  run : ∀ m ∈ p.live, ∃ r ∈ p.heap.runs, Stands r m
  mapping : ∀ r ∈ p.heap.runs, ∃ m ∈ p.live, Stands r m
  nonzero : ∀ m ∈ p.live, m.base ≠ 0 ∧ m.length ≠ 0

namespace Matched
variable {p : Process}

theorem of_runs {q : Process} (h : Matched p) (hruns : q.heap.runs = p.heap.runs) (hlive : q.live = p.live) :
    Matched q := by
  refine ⟨?_, ?_, ?_⟩
  · rw [hruns, hlive]
    exact h.run
  · rw [hruns, hlive]
    exact h.mapping
  · rw [hlive]
    exact h.nonzero

theorem mmap (h : Matched p) {c : Heap.MapCall} {as : List Alloc}
    (hroom : (p.heap.recording c as).1.RoomFor (p.heap.recording c as).2) :
    Matched (p.step (.mmap c as)) := by
  obtain ⟨-, hends⟩ := mmap_runs p.heap c as
  rcases hends with ⟨hneg, hruns, -, -⟩ | ⟨hr, hruns, -⟩ | ⟨-, -, -, -, hno⟩
  · refine h.of_runs hruns ?_
    simp only [Process.step, if_neg (Int.not_le.2 hneg)]
  · have hpos : 0 ≤ (p.heap.sysMmap c as).1 := by
      rw [hr]
      exact Int.natCast_nonneg _
    obtain ⟨-, -, hlength, hbase, -⟩ := mmap_success hpos
    have hlive : (p.step (.mmap c as)).live =
        ⟨(p.heap.place (alignUp c.length)).1, c.length, p.heap.owes c⟩ :: p.live := by
      simp only [Process.step, hr, Int.toNat_natCast, Int.natCast_nonneg, if_true]
    have hheap : (p.step (.mmap c as)).heap.runs = p.heap.runs ++ [p.heap.runOf c] := hruns
    refine ⟨?_, ?_, ?_⟩
    · rw [hlive, hheap]
      refine List.forall_mem_cons.2 ⟨?_, fun m hm => ?_⟩
      · exact ⟨p.heap.runOf c, List.mem_append_right _ List.mem_cons_self, rfl, rfl⟩
      · obtain ⟨r, hin, hst⟩ := h.run m hm
        exact ⟨r, List.mem_append_left _ hin, hst⟩
    · rw [hlive, hheap]
      refine List.forall_mem_append.2 ⟨fun r hin => ?_, List.forall_mem_cons.2 ⟨?_, List.forall_mem_nil _⟩⟩
      · obtain ⟨m, hm, hst⟩ := h.mapping r hin
        exact ⟨m, List.mem_cons_of_mem _ hm, hst⟩
      · exact ⟨_, List.mem_cons_self, rfl, rfl⟩
    · rw [hlive]
      exact List.forall_mem_cons.2 ⟨⟨hbase, hlength⟩, h.nonzero⟩
  · exact absurd hroom hno

theorem munmap (h : Matched p) (hs : Sound p.heap) (addr length : ℕ) (as : List Alloc) :
    Matched (p.step (.munmap addr length as)) := by
  have hsub : ∀ m ∈ Process.released p.live addr length, m ∈ p.live := fun m hm => (List.mem_filter.1 hm).1
  rcases hrun : p.heap.runFor addr length with _ | ⟨i, run⟩
  · -- nothing is released that was there
    have hnone : Process.released p.live addr length = p.live := by
      refine List.filter_eq_self.2 fun m hm => ?_
      obtain ⟨r, hr, hbase, hbytes⟩ := h.run m hm
      obtain ⟨hne, -⟩ := h.nonzero m hm
      rw [Bool.not_eq_true', decide_eq_false_iff_not]
      rintro ⟨hlength, rfl, hsame⟩
      obtain ⟨i, hi⟩ := hs.runFor_of_mem hr (hbase ▸ hne) hlength (hbytes.trans hsame)
      rw [hbase, hrun] at hi
      cases hi
    refine h.of_runs ?_ hnone
    exact congrArg (fun t => t.2.runs) (Sound.munmap_refused hrun as)
  · obtain ⟨-, -, -, hget, hbase, -⟩ := runFor_some hrun
    have hruns : (p.step (.munmap addr length as)).heap.runs = Heap.forgetRun p.heap.runs i :=
      (munmap_spec hrun as).2.1
    refine ⟨?_, ?_, fun m hm => h.nonzero m (hsub m hm)⟩
    · rw [hruns]
      intro m hm
      obtain ⟨r, hr, hst⟩ := h.run m (hsub m hm)
      exact ⟨r, hst.stays hrun hm hr, hst⟩
    · rw [hruns]
      intro r hr
      obtain ⟨m, hm, hst⟩ := h.mapping r ((forgetRun_perm hget).mem_iff.2 (List.mem_cons_of_mem _ hr))
      refine ⟨m, List.mem_filter.2 ⟨hm, ?_⟩, hst⟩
      have hne := hs.base_notMem hget hr
      rw [hbase, hst.1] at hne
      simp [hne]

theorem step {call : Call} (h : Matched p) (hs : Sound p.heap) (hr : RecordsRun p.heap call) :
    Matched (p.step call) := by
  cases call with
  | mmap c as => exact h.mmap hr.2
  | munmap addr length as => exact h.munmap hs addr length as
  | brk newBreak as =>
    obtain ⟨t, brk, m, ht, hend⟩ := brk_spec p.heap newBreak as
    refine h.of_runs ?_ rfl
    have hruns : (p.heap.sysBrk newBreak as).2.runs = p.heap.runs := by
      rw [hend]
      exact ht.runs
    exact hruns
  | openat | close | store | change => exact h.of_runs rfl rfl

theorem exact (h : Matched p) (hs : Sound p.heap) : Exact p := by
  refine ⟨⟨?_, fun hne => ?_⟩, fun base => ?_, fun m hm i hi => ?_, fun m hm as hnode => ?_⟩
  · calc p.heap.runs.length * kRunBytes ≤ kRecordRuns * kRunBytes := Nat.mul_le_mul_right _ hs.room
      _ ≤ kPage := Nat.div_mul_le_self _ _
  · rcases hs.page with ⟨-, -, hnil⟩ | ⟨hrecord, -⟩
    · exact absurd hnil hne
    · exact hrecord
  · unfold Heap.findRun
    rw [List.findIdx?_isSome, List.any_eq_true]
    constructor
    · rintro ⟨r, hr, hbase⟩
      obtain ⟨m, hm, hst⟩ := h.mapping r hr
      exact ⟨m, hm, hst.1.symm.trans (of_decide_eq_true hbase)⟩
    · rintro ⟨m, hm, rfl⟩
      obtain ⟨r, hr, hst⟩ := h.run m hm
      exact ⟨r, hr, decide_eq_true hst.1⟩
  · obtain ⟨r, hr, hbase, hbytes⟩ := h.run m hm
    obtain ⟨j, hj, hget⟩ := hs.findRun_some hr
    rw [hbase, hi] at hj
    obtain rfl := Option.some.inj hj
    rw [hget, Option.map_some, hbytes]
  · obtain ⟨r, hr, hbase, hbytes⟩ := h.run m hm
    obtain ⟨hne, hlength⟩ := h.nonzero m hm
    obtain ⟨i, hi⟩ := hs.runFor_of_mem hr (hbase ▸ hne) hlength hbytes
    rw [hbase] at hi
    exact hs.released hi hnode

end Matched

/-- In every run whose calls to `mmap` have room in the record, the record is exact. -/
theorem record_exact {p q : Process} (hp : p.Started) (h : Process.Run RecordsRun p q) : Exact q := by
  obtain ⟨-, -, hruns, -, -, -, hlive⟩ := hp.laid
  have hboth : Sound q.heap ∧ Matched q := by
    refine Process.Run.induct (fun p => Sound p.heap ∧ Matched p) h (fun p call hr hp => ?_) ?_
    · have hfits : FitsRecord p.heap call := by
        cases call with
        | mmap c as => exact hr.1
        | munmap | brk | openat | close | store | change => trivial
      exact ⟨hp.1.step hfits, hp.2.step hp.1 hr⟩
    · refine ⟨.of_started hp, ?_, ?_, ?_⟩
      · rw [hlive]
        exact List.forall_mem_nil _
      · rw [hruns]
        exact List.forall_mem_nil _
      · rw [hlive]
        exact List.forall_mem_nil _
  exact hboth.2.exact hboth.1

/-! ## The 129th entry -/

/-- The entry of the 129th run is past the page the record has. -/
theorem record_overrun : smallProcess.Started ∧
    Process.Run (fun _ _ => True) smallProcess manyPages ∧ ¬ Exact manyPages := by
  refine ⟨smallProcess_started, .of_calls _ _, fun h => ?_⟩
  have hstored := h.stored.1
  revert hstored
  decide +kernel

theorem record_exact_small : Exact (smallProcess.step (askPage 0)) := by
  have hfits : FitsRecord smallProcess.heap (askPage 0) := by
    have hlength : 4096 + (kPage - 1) < 2 ^ 64 := by decide +kernel
    have hroom : smallProcess.heap.runs.length < kRecordRuns := by decide +kernel
    exact ⟨hlength, hroom⟩
  exact record_exact smallProcess_started (.cons (askPage 0) ⟨hfits, fun _ => by decide +kernel⟩ (.nil _))

end Aegir.Hosted
