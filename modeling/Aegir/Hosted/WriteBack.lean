/-
  What `munmap` writes back to a file.
-/
import Aegir.Hosted.Record

namespace Aegir.Hosted

open Aegir.Lib
open Aegir.Mem (Alloc kPage)

/-! ## What is to be written -/

/-- The file's bytes under the mapping are the memory's, the others and the file's size stay, and
    no other file changes. -/
structure WrittenBack (s s' : Heap) (m : Mapping) (file offset : ℕ) : Prop where
  under : ∀ i, offset ≤ i → i < min (offset + m.length) (s.files.bytes file).length →
    (s'.files.bytes file)[i]? = some (s.memory (m.base + (i - offset)))
  beside : ∀ i, ¬ (offset ≤ i ∧ i < offset + m.length) →
    (s'.files.bytes file)[i]? = (s.files.bytes file)[i]?
  size : (s'.files.bytes file).length = (s.files.bytes file).length
  others : ∀ f, f ≠ file → s'.files.bytes f = s.files.bytes f

/-- The mapping's pages lie in the file, and past its length they hold what the file does. -/
def TailKept (s : Heap) (m : Mapping) (file offset : ℕ) : Prop :=
  offset + alignUp m.length ≤ (s.files.bytes file).length ∧
    ∀ i, offset + m.length ≤ i → i < offset + alignUp m.length →
      (s.files.bytes file)[i]? = some (s.memory (m.base + (i - offset)))

/-- `mmap` is called with a length that can be rounded up and with room in the record, and, for a
    shared and writable mapping, through a descriptor open for writing and with a place in the
    record; no descriptor is closed that a run is to be written back through. -/
def KeepsFile (s : Heap) : Call → Prop
  | .mmap c as => FitsRecord s (.mmap c as) ∧ (0 ≤ Heap.writeBackFd c →
      (∀ e, s.files.entryFor c.fd = some e → e.writable = true) ∧
        (s.recording c as).1.RoomFor (s.recording c as).2)
  | .close fd => ∀ r ∈ s.runs, r.fileFd ≠ fd
  | _ => True

/-! ## Patching a file -/

theorem length_patch (f data : List UInt8) (offset : ℕ) (hd : data ≠ []) :
    (patch f offset data).length = max f.length (offset + data.length) := by
  have hpos := List.length_pos_iff.2 hd
  unfold patch
  simp only [List.length_append, List.length_take, List.length_replicate, List.length_drop]
  omega

theorem getElem?_patch_under (f data : List UInt8) (offset i : ℕ) (h : offset ≤ i)
    (h' : i < offset + data.length) : (patch f offset data)[i]? = data[i - offset]? := by
  have hlen : ((f ++ List.replicate (offset - f.length) 0).take offset).length = offset := by
    simp only [List.length_take, List.length_append, List.length_replicate]
    omega
  unfold patch
  rw [List.append_assoc, List.getElem?_append_right (by omega), hlen, List.getElem?_append_left (by omega)]

theorem getElem?_patch_beside (f data : List UInt8) (offset i : ℕ) (hin : offset + data.length ≤ f.length)
    (h : ¬ (offset ≤ i ∧ i < offset + data.length)) : (patch f offset data)[i]? = f[i]? := by
  have hzero : offset - f.length = 0 := by omega
  unfold patch
  rw [hzero, List.replicate_zero, List.append_nil]
  have hlen : (f.take offset).length = offset := by
    rw [List.length_take]
    omega
  rcases Nat.lt_or_ge i offset with hlt | hge
  · rw [List.append_assoc, List.getElem?_append_left (by omega), List.getElem?_take_of_lt hlt]
  · have hpast : offset + data.length ≤ i := by omega
    rw [List.getElem?_append_right (by rw [List.length_append]; omega), List.length_append, hlen,
      List.getElem?_drop]
    congr 1
    omega

theorem length_bytesAt (s : Heap) (base size : ℕ) : (s.bytesAt base size).length = size := by
  rw [Heap.bytesAt, List.length_map, List.length_range]

theorem getElem?_bytesAt (s : Heap) (base : ℕ) {size i : ℕ} (h : i < size) :
    (s.bytesAt base size)[i]? = some (s.memory (base + i)) := by
  rw [Heap.bytesAt, List.getElem?_map, List.getElem?_range h, Option.map_some]

/-- Pages written over a file are what was to be written exactly where the tail is kept. -/
theorem writtenBack_iff {s s' : Heap} {m : Mapping} {file offset : ℕ} (hr : Rounds m.length)
    (hne : m.length ≠ 0)
    (h : s'.files.bytes = fun f => if f = file then
      patch (s.files.bytes file) offset (s.bytesAt m.base (alignUp m.length)) else s.files.bytes f) :
    WrittenBack s s' m file offset ↔ TailKept s m file offset := by
  obtain ⟨hle, -⟩ := alignUp_bounds hr
  have hfile : s'.files.bytes file =
      patch (s.files.bytes file) offset (s.bytesAt m.base (alignUp m.length)) := by
    rw [h]
    exact if_pos rfl
  have hothers : ∀ f, f ≠ file → s'.files.bytes f = s.files.bytes f := by
    intro f hf
    rw [h]
    exact if_neg hf
  have hlength := length_bytesAt s m.base (alignUp m.length)
  have hdata : s.bytesAt m.base (alignUp m.length) ≠ [] := by
    refine List.ne_nil_of_length_pos ?_
    omega
  have hpage : ∀ i, offset ≤ i → i < offset + alignUp m.length →
      (s'.files.bytes file)[i]? = some (s.memory (m.base + (i - offset))) := by
    intro i hlow hhigh
    rw [hfile, getElem?_patch_under _ _ _ _ hlow (by omega), getElem?_bytesAt _ _ (by omega)]
  constructor
  · rintro ⟨-, hbeside, hsize, -⟩
    have hin : offset + alignUp m.length ≤ (s.files.bytes file).length := by
      rw [hfile, length_patch _ _ _ hdata, hlength] at hsize
      omega
    refine ⟨hin, fun i hlow hhigh => ?_⟩
    rw [← hbeside i (by omega)]
    exact hpage i (by omega) hhigh
  · rintro ⟨hin, htail⟩
    refine ⟨fun i hlow hhigh => hpage i hlow (by omega), fun i hout => ?_, ?_, hothers⟩
    · by_cases hlast : offset ≤ i ∧ i < offset + alignUp m.length
      · rw [hpage i hlast.1 hlast.2, htail i (by omega) hlast.2]
      · rw [hfile, getElem?_patch_beside _ _ _ _ (by omega) (by omega)]
    · rw [hfile, length_patch _ _ _ hdata, hlength]
      omega

/-! ## Descriptors -/

theorem entryFor_install {f : Files} {fd : Int} {e : Entry} (h : f.entryFor fd = some e) (e' : Entry) :
    (f.install e').2.entryFor fd = some e := by
  unfold Files.entryFor at h ⊢
  split at h
  · cases h
  next hfd =>
  rw [if_neg hfd]
  obtain ⟨hlt, hget⟩ := List.getElem?_eq_some_iff.1 (Option.join_eq_some_iff.1 h)
  unfold Files.install
  split
  · next i hi =>
    obtain ⟨hi, hnone, -⟩ := List.findIdx?_eq_some_iff_getElem.1 hi
    -- the descriptor that is given is not the one that is open
    have hne : i ≠ fd.toNat - kFirstFd := by
      rintro rfl
      rw [hget] at hnone
      cases hnone
    dsimp only
    rw [List.getElem?_set_ne hne, List.getElem?_eq_getElem hlt, hget]
    rfl
  · dsimp only
    rw [List.getElem?_append_left hlt, List.getElem?_eq_getElem hlt, hget]
    rfl

theorem entryFor_openat {f : Files} {fd : Int} {e : Entry} (h : f.entryFor fd = some e) (file : ℕ)
    (directory write readWrite truncate : Bool) :
    (f.openat file directory write readWrite truncate).2.entryFor fd = some e := by
  unfold Files.openat
  split
  · split
    · exact h
    · refine entryFor_install ?_ _
      split
      · exact h
      · exact h
  · exact entryFor_install h _

theorem entryFor_close {f : Files} {fd fd' : Int} {e : Entry} (h : f.entryFor fd = some e)
    (hne : fd ≠ fd') : (f.close fd').2.entryFor fd = some e := by
  unfold Files.close
  rcases hclosed : f.entryFor fd' with _ | e'
  · exact h
  have hopen : ∀ {d : Int} {x : Entry}, f.entryFor d = some x → ¬ d < kFirstFd := by
    intro d x hd hlt
    rw [Files.entryFor, if_pos hlt] at hd
    cases hd
  have hlow := hopen h
  have hlow' := hopen hclosed
  unfold Files.entryFor at h ⊢
  rw [if_neg hlow] at h ⊢
  have hother : fd'.toNat - kFirstFd ≠ fd.toNat - kFirstFd := by omega
  rw [List.getElem?_set_ne hother]
  exact h

theorem pwrite_entry (f : Files) (fd fd' : Int) (data : List UInt8) (offset : Int) :
    (f.pwrite fd' data offset).2.entryFor fd = f.entryFor fd := by
  unfold Files.pwrite
  split
  · rfl
  split
  · rfl
  split
  · rfl
  · rfl

theorem pread_some {f : Files} {fd offset : Int} {count : ℕ} {bytes : List UInt8}
    (h : f.pread fd count offset = .inr bytes) : (∃ e, f.entryFor fd = some e) ∧ 0 ≤ offset := by
  unfold Files.pread at h
  split at h
  · cases h
  next e he =>
  split at h
  · cases h
  next hoffset => exact ⟨⟨e, he⟩, Int.not_lt.1 hoffset⟩

/-! ## The file a mapping is of -/

/-- The entry of a run the mapping's file is written back through. -/
structure Owes (s : Heap) (r : Run) (file offset : ℕ) : Prop where
  owed : 0 ≤ r.fileFd
  offset : r.fileOffset = offset
  entry : ∃ e, s.files.entryFor r.fileFd = some e ∧ e.file = file ∧ e.writable = true

/-- If the mapping owes a file its bytes, its run is in the record and its descriptor open. -/
def Backed (s : Heap) (m : Mapping) : Prop :=
  ∀ file offset, m.owes = some (file, offset) → m.base ≠ 0 ∧ m.length ≠ 0 ∧ Rounds m.length ∧
    ∃ r ∈ s.runs, Stands r m ∧ Owes s r file offset

variable {s t : Heap}

theorem Backed.mono {m : Mapping} (h : Backed s m) (hruns : ∀ r ∈ s.runs, Stands r m → r ∈ t.runs)
    (hentry : ∀ r ∈ s.runs, ∀ e, s.files.entryFor r.fileFd = some e →
      t.files.entryFor r.fileFd = some e) : Backed t m := by
  intro file offset ho
  obtain ⟨hbase, hlength, hrounds, r, hr, hst, howed, hoffset, e, he, hfile⟩ := h file offset ho
  exact ⟨hbase, hlength, hrounds, r, hruns r hr hst, hst, howed, hoffset, e, hentry r hr e he, hfile⟩

theorem backed_mmap {c : Heap.MapCall} {as : List Alloc} (hr : 0 ≤ (s.sysMmap c as).1)
    (hrounds : Rounds c.length) (hwritable : 0 ≤ Heap.writeBackFd c →
      ∀ e, s.files.entryFor c.fd = some e → e.writable = true)
    (hruns : 0 ≤ Heap.writeBackFd c → s.runOf c ∈ (s.sysMmap c as).2.runs) :
    Backed (s.sysMmap c as).2 ⟨(s.place (alignUp c.length)).1, c.length, s.owes c⟩ := by
  obtain ⟨-, -, hlength, hbase, -, hread⟩ := mmap_success hr
  have hfiles := (mmap_runs s c as).1.files
  intro file offset ho
  unfold Heap.owes at ho
  dsimp only at ho
  split at ho
  · next howed =>
    -- the descriptor is the call's own, and the file was read through it
    have hshared : c.anonymous = false ∧ Heap.writeBackFd c = c.fd := by
      unfold Heap.writeBackFd at howed ⊢
      split at howed
      · next hall =>
        rw [if_pos hall]
        simp only [Bool.and_eq_true, Bool.not_eq_true'] at hall
        exact ⟨hall.1.1, rfl⟩
      · exact absurd howed (by decide)
    obtain ⟨e, he, hmade⟩ := Option.map_eq_some_iff.1 ho
    obtain ⟨rfl, rfl⟩ : e.file = file ∧ c.offset.toNat = offset := by simpa using hmade
    rcases hread with hanonymous | ⟨bytes, hbytes⟩
    · rw [hshared.1] at hanonymous
      cases hanonymous
    · obtain ⟨-, hoffset⟩ := pread_some hbytes
      refine ⟨hbase, hlength, hrounds, s.runOf c, hruns howed, ⟨rfl, rfl⟩, howed, ?_, e, ?_, rfl,
        hwritable howed e he⟩
      · exact (Int.toNat_of_nonneg hoffset).symm
      · rw [hfiles]
        exact (congrArg s.files.entryFor hshared.2).trans he
  · cases ho

def Owed (p : Process) : Prop := ∀ m ∈ p.live, Backed p.heap m

namespace Owed
variable {p : Process}

theorem mmap (h : Owed p) {c : Heap.MapCall} {as : List Alloc} (hk : KeepsFile p.heap (.mmap c as)) :
    Owed (p.step (.mmap c as)) := by
  obtain ⟨⟨hrounds, -⟩, hshared⟩ := hk
  obtain ⟨hkeeps, hends⟩ := mmap_runs p.heap c as
  have hold : (∀ r ∈ p.heap.runs, r ∈ (p.heap.sysMmap c as).2.runs) →
      ∀ m ∈ p.live, Backed (p.heap.sysMmap c as).2 m := fun hruns m hm =>
    (h m hm).mono (fun r hr _ => hruns r hr) fun r _ e he => by rwa [hkeeps.files]
  rcases hends with ⟨hneg, hruns, -, -⟩ | ⟨hr, hruns, -⟩ | ⟨hr, hruns, -, -, hno⟩
  · have hlive : (p.step (.mmap c as)).live = p.live := by
      simp only [Process.step, if_neg (Int.not_le.2 hneg)]
    intro m hm
    rw [hlive] at hm
    exact hold (fun r hin => by rwa [hruns]) m hm
  · have hpos : 0 ≤ (p.heap.sysMmap c as).1 := by
      rw [hr]
      exact Int.natCast_nonneg _
    have hlive : (p.step (.mmap c as)).live =
        ⟨(p.heap.place (alignUp c.length)).1, c.length, p.heap.owes c⟩ :: p.live := by
      simp only [Process.step, hr, Int.toNat_natCast, Int.natCast_nonneg, if_true]
    have hnew := backed_mmap hpos hrounds (fun howed => (hshared howed).1) fun _ => by
      rw [hruns]
      exact List.mem_append_right _ List.mem_cons_self
    intro m hm
    rw [hlive] at hm
    rcases List.mem_cons.1 hm with rfl | hm
    · exact hnew
    · exact hold (fun r hin => by rw [hruns]; exact List.mem_append_left _ hin) m hm
  · have hpos : 0 ≤ (p.heap.sysMmap c as).1 := by
      rw [hr]
      exact Int.natCast_nonneg _
    have hlive : (p.step (.mmap c as)).live =
        ⟨(p.heap.place (alignUp c.length)).1, c.length, p.heap.owes c⟩ :: p.live := by
      simp only [Process.step, hr, Int.toNat_natCast, Int.natCast_nonneg, if_true]
    -- the run is not recorded, and owes nothing
    have hnew := backed_mmap hpos hrounds (fun howed => (hshared howed).1) fun howed =>
      absurd (hshared howed).2 hno
    intro m hm
    rw [hlive] at hm
    rcases List.mem_cons.1 hm with rfl | hm
    · exact hnew
    · exact hold (fun r hin => by rwa [hruns]) m hm

theorem munmap (h : Owed p) (addr length : ℕ) (as : List Alloc) :
    Owed (p.step (.munmap addr length as)) := by
  have hsub : ∀ m ∈ Process.released p.live addr length, m ∈ p.live := fun m hm => (List.mem_filter.1 hm).1
  rcases hrun : p.heap.runFor addr length with _ | ⟨i, run⟩
  · have hend := congrArg Prod.snd (Sound.munmap_refused hrun as)
    intro m hm
    refine (h m (hsub m hm)).mono (fun r hr _ => ?_) fun r _ e he => ?_
    · exact (congrArg Heap.runs hend) ▸ hr
    · exact (congrArg Heap.files hend) ▸ he
  · obtain ⟨-, hruns, hfiles, -⟩ := munmap_spec hrun as
    intro m hm
    refine (h m (hsub m hm)).mono (fun r hr hst => ?_) fun r _ e he => ?_
    · exact hruns ▸ hst.stays hrun hm hr
    · have hback : (p.heap.writeBack run).files.entryFor r.fileFd = p.heap.files.entryFor r.fileFd := by
        unfold Heap.writeBack
        split
        · rfl
        · exact pwrite_entry _ _ _ _ _
      exact (congrArg (fun f => Files.entryFor f r.fileFd) hfiles).trans (hback.trans he)

theorem step {call : Call} (h : Owed p) (hk : KeepsFile p.heap call) : Owed (p.step call) := by
  cases call with
  | mmap c as => exact h.mmap hk
  | munmap addr length as => exact h.munmap addr length as
  | brk newBreak as =>
    obtain ⟨t, brk, m, ht, hend⟩ := brk_spec p.heap newBreak as
    have hruns : (p.heap.sysBrk newBreak as).2.runs = p.heap.runs := by
      rw [hend]
      exact ht.runs
    have hfiles : (p.heap.sysBrk newBreak as).2.files = p.heap.files := by
      rw [hend]
      exact ht.files
    exact fun m hm => (h m hm).mono (fun r hr _ => hruns ▸ hr) fun r _ e he => hfiles ▸ he
  | openat file directory write readWrite truncate =>
    exact fun m hm => (h m hm).mono (fun r hr _ => hr) fun r _ e he => entryFor_openat he _ _ _ _ _
  | close fd =>
    exact fun m hm => (h m hm).mono (fun r hr _ => hr) fun r hr e he => entryFor_close he (hk r hr)
  | store memory => exact fun m hm => (h m hm).mono (fun r hr _ => hr) fun r _ e he => he
  | change file bytes => exact fun m hm => (h m hm).mono (fun r hr _ => hr) fun r _ e he => he

end Owed

/-! ## munmap -/

theorem munmap_writes {p : Process} (hs : Sound p.heap) {m : Mapping} (h : Backed p.heap m)
    {file offset : ℕ} (ho : m.owes = some (file, offset)) (as : List Alloc) :
    (p.heap.sysMunmap m.base m.length as).2.files.bytes = fun f => if f = file then
      patch (p.heap.files.bytes file) offset (p.heap.bytesAt m.base (alignUp m.length))
        else p.heap.files.bytes f := by
  obtain ⟨hbase, hlength, -, r, hr, ⟨hrbase, hbytes⟩, howed, hoffset, e, he, rfl, hwritable⟩ := h file offset ho
  obtain ⟨i, hrun⟩ := hs.runFor_of_mem hr (hrbase ▸ hbase) hlength hbytes
  rw [hrbase] at hrun
  rw [(munmap_spec hrun as).2.2.1]
  unfold Heap.writeBack
  rw [if_neg (Int.not_lt.2 howed)]
  unfold Files.pwrite
  rw [he, hoffset]
  simp only [Int.not_lt.2 (Int.natCast_nonneg offset), if_false, hwritable, Bool.true_eq_false,
    Int.toNat_natCast, Files.put, hrbase, hbytes]

/-- In every run whose calls keep the files of the mappings, `munmap` makes of a mapping's file
    what it should exactly where the last page keeps the file's bytes past the mapping's length. -/
theorem writes_back {p q : Process} (hp : p.Started) (h : Process.Run KeepsFile p q) {m : Mapping}
    (hm : m ∈ q.live) {file offset : ℕ} (ho : m.owes = some (file, offset)) (as : List Alloc) :
    WrittenBack q.heap (q.heap.sysMunmap m.base m.length as).2 m file offset ↔
      TailKept q.heap m file offset := by
  have hboth : Sound q.heap ∧ Owed q := by
    refine Process.Run.induct (fun p => Sound p.heap ∧ Owed p) h (fun p call hk hp => ?_) ?_
    · have hfits : FitsRecord p.heap call := by
        cases call with
        | mmap c as => exact hk.1
        | munmap | brk | openat | close | store | change => trivial
      exact ⟨hp.1.step hfits, hp.2.step hk⟩
    · refine ⟨.of_started hp, fun m hin => ?_⟩
      rw [hp.laid.2.2.2.2.2.2] at hin
      cases hin
  have hbacked := hboth.2 m hm
  obtain ⟨-, hlength, hrounds, -⟩ := hbacked file offset ho
  exact writtenBack_iff hrounds hlength (munmap_writes hboth.1 hbacked ho as)

/-! ## A file of three bytes -/

def fileProcess : Process where
  heap := (Heap.init smallWindow ⟨[], fun f => if f = 0 then [1, 2, 3] else []⟩ (fun _ => 0) 4096).get
    (by decide +kernel)
  live := []

theorem fileProcess_started : fileProcess.Started :=
  ⟨2 ^ 30, 2 ^ 30 + 256 * 4096, smallWindow.scratch, smallWindow.vspace, _, _, 4096,
    (Option.some_get _).symm, by decide, (Option.some_get _).symm, rfl⟩

def openFile : Call := .openat 0 false false true false

/-- Its three bytes are mapped, shared and writable, through the descriptor `open` gave. -/
def mapFile : Call :=
  .mmap ⟨3, true, false, false, false, true, 3, 0⟩ [⟨[], 1, []⟩, ⟨[], 2, []⟩, ⟨[], 3, []⟩]

def sharedFile : Process := (fileProcess.step openFile).step mapFile

def sharedMapping : Mapping := ⟨2 ^ 30 + 254 * 4096, 3, some (0, 0)⟩

/-- The file has a page after `munmap`, of which three bytes were mapped. -/
theorem short_file_grows : fileProcess.Started ∧ Process.Run (fun _ _ => True) fileProcess sharedFile ∧
    sharedMapping ∈ sharedFile.live ∧
    ¬ WrittenBack sharedFile.heap
      (sharedFile.heap.sysMunmap sharedMapping.base sharedMapping.length []).2 sharedMapping 0 0 := by
  refine ⟨fileProcess_started, .of_calls [openFile, mapFile] _, by decide +kernel, fun h => ?_⟩
  have hsize := h.size
  revert hsize
  decide +kernel

theorem writes_back_shared : WrittenBack sharedFile.heap
    (sharedFile.heap.sysMunmap sharedMapping.base sharedMapping.length []).2 sharedMapping 0 0 ↔
      TailKept sharedFile.heap sharedMapping 0 0 := by
  have hfits : KeepsFile (fileProcess.step openFile).heap mapFile := by
    have hlength : 3 + (kPage - 1) < 2 ^ 64 := by decide +kernel
    have hroom : (fileProcess.step openFile).heap.runs.length < kRecordRuns := by decide +kernel
    have hentry : (fileProcess.step openFile).heap.files.entryFor 3 = some ⟨0, false, true, true⟩ := by
      decide +kernel
    refine ⟨⟨hlength, hroom⟩, fun _ => ⟨fun e he => ?_, fun _ => by decide +kernel⟩⟩
    rw [← Option.some.inj (hentry.symm.trans he)]
  have hrun : Process.Run KeepsFile fileProcess sharedFile :=
    .cons openFile trivial (.cons mapFile hfits (.nil _))
  exact writes_back fileProcess_started hrun (by decide +kernel) rfl []

end Aegir.Hosted
