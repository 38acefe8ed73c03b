/-
  What block reads are for: a map of blocks under an open transaction.
-/
import Aegir.Bfs.Bitmap
import Aegir.Bfs.Ring

namespace Aegir.Bfs

open Aegir.Lib Aegir.Lib.Buf Aegir.Lib.Fallible

/-- What a superblock tells of the volume's use. -/
structure Cursors where
  usedBlocks : ℕ
  logStart : ℕ
  logEnd : ℕ

def Volume.cursors (v : Volume) : Cursors := ⟨v.usedBlocks, v.logStart, v.logEnd⟩

def imageCursors (sb : Buf) : Cursors :=
  ⟨le 8 sb Superblock.kUsedBlocks, le 8 sb Superblock.kLogStart, le 8 sb Superblock.kLogEnd⟩

namespace Volume

variable {v : Volume} {p : ℕ}

def Synced (v : Volume) : Prop := imageCursors v.superblock = v.cursors

theorem Coherent.synced (hv : v.Coherent) : v.Synced := by
  obtain ⟨hused, hstart, hend⟩ := hv.cursors
  rw [Synced, imageCursors, Volume.cursors, ← hused, ← hstart, ← hend]

section
variable (hv : v.Synced)
include hv

theorem Synced.fields : le 8 v.superblock Superblock.kUsedBlocks = v.usedBlocks ∧
    le 8 v.superblock Superblock.kLogStart = v.logStart ∧ le 8 v.superblock Superblock.kLogEnd = v.logEnd := by
  rw [Synced, imageCursors, cursors, Cursors.mk.injEq] at hv
  exact hv

theorem Synced.setUsedBlocks (hp : p < 2 ^ 64) : (v.setUsedBlocks p).Synced := by
  obtain ⟨-, hstart, hend⟩ := hv.fields
  simp only [Synced, imageCursors, cursors, Volume.setUsedBlocks]
  rw [le_put_of_lt (by simpa using hp), le_put_of_disjoint (by decide), le_put_of_disjoint (by decide), hstart, hend]

theorem Synced.setLogStart (hp : p < 2 ^ 64) : (v.setLogStart p).Synced := by
  obtain ⟨hused, -, hend⟩ := hv.fields
  simp only [Synced, imageCursors, cursors, Volume.setLogStart]
  rw [le_put_of_disjoint (by decide), le_put_of_lt (by simpa using hp), le_put_of_disjoint (by decide), hused, hend]

theorem Synced.setLogEnd (hp : p < 2 ^ 64) : (v.setLogEnd p).Synced := by
  obtain ⟨hused, hstart, -⟩ := hv.fields
  simp only [Synced, imageCursors, cursors, Volume.setLogEnd]
  rw [le_put_of_disjoint (by decide), le_put_of_disjoint (by decide), le_put_of_lt (by simpa using hp), hused, hstart]

theorem Synced.setFlags (flags : ℕ) : (v.setFlags flags).Synced := by
  obtain ⟨hused, hstart, hend⟩ := hv.fields
  simp only [Synced, imageCursors, cursors, Volume.setFlags]
  rw [le_put_of_disjoint (by decide), le_put_of_disjoint (by decide), le_put_of_disjoint (by decide), hused, hstart, hend]

end

theorem restoreSuperblock_cursors (v : Volume) (sb : Buf) : (v.restoreSuperblock sb).cursors = imageCursors sb := by
  rw [cursors, Volume.restoreSuperblock, imageCursors]

theorem restoreSuperblock_synced (v : Volume) (sb : Buf) : (v.restoreSuperblock sb).Synced :=
  (restoreSuperblock_cursors v sb).symm

theorem restoreSuperblock_writable (v : Volume) (sb : Buf) : (v.restoreSuperblock sb).writable = v.writable := by
  rw [Volume.restoreSuperblock]

end Volume

/-! ## Operations -/

inductive BlockOp where
  | read (block : ℕ)
  | write (block : ℕ) (img : Buf)
  | writeNow (block : ℕ) (img : Buf)
  | setUsed (used : ℕ)
  | begin
  | commit
  | abort

namespace Cached

/-- An operation, with the image that a read answers. -/
def exec : BlockOp → M (Option Buf)
  | .read block => do
    let img ← readBlock block
    pure (some img)
  | .write block img => do
    writeBlock block img
    pure none
  | .writeNow block img => do
    writeBlockNow block img
    pure none
  | .setUsed used => do
    modifyVol fun v => v.setUsedBlocks (used % 2 ^ 64)
    pure none
  | .begin => do
    begin
    pure none
  | .commit => do
    commit
    pure none
  | .abort => do
    abort
    pure none

end Cached

/-! ## The overlay -/

/-- A transaction that began and has been neither committed nor aborted; a refused commit closes it.
    `base` and `cursors` are what it began from, `direct` the blocks written past it. -/
structure Begun where
  isOpen : Bool
  images : ℕ → Option Buf
  base : ℕ → Buf
  direct : ℕ → Prop
  cursors : Cursors

structure Overlay where
  disk : ℕ → Buf
  cursors : Cursors
  txn : Option Begun

namespace Overlay

/-- The newest image written inside the transaction, else the disk's. -/
def look (o : Overlay) (block : ℕ) : Buf := (o.txn.bind fun t => t.images block).getD (o.disk block)

/-- A write that goes to the disk. -/
def put (o : Overlay) (block : ℕ) (img : Buf) : Overlay :=
  { o with
    disk := Function.update o.disk block img
    txn := o.txn.map fun t => { t with direct := fun b => b = block ∨ t.direct b } }

/-- A block that an entry of the log may take. -/
def Logs (g : Geometry) (o : Overlay) (block : ℕ) : Prop :=
  block = (g.toBlock g.log + o.cursors.logEnd) % 2 ^ 64 ∨
    ∃ p < g.logLength, block = (g.toBlock g.log + p) % 2 ^ 64

/-- What an operation does, on a device whose next read fails or not. -/
inductive Step (g : Geometry) (fails : Bool) : Overlay → BlockOp → Option (Option Buf) → Overlay → Prop
  | read {o : Overlay} {block : ℕ} : Step g fails o (.read block) (some (some (o.look block))) o
  | readFails {o : Overlay} {block : ℕ} : fails = true → Step g fails o (.read block) none o
  | write {o : Overlay} {t : Begun} {block : ℕ} {img : Buf} : o.txn = some t → t.isOpen = true →
      Step g fails o (.write block img) (some none)
        { o with txn := some { t with images := Function.update t.images block (some img) } }
  /-- The transaction has room for no more blocks. -/
  | writeFull {o : Overlay} {t : Begun} {block : ℕ} {img : Buf} {blocks : List ℕ} : o.txn = some t → t.isOpen = true →
      t.images block = none → blocks.Nodup → kMaxJournalBlocks ≤ blocks.length → (∀ b ∈ blocks, (t.images b).isSome) →
      Step g fails o (.write block img) none o
  | writeThrough {o : Overlay} {block : ℕ} {img : Buf} : (∀ t, o.txn = some t → t.isOpen = false) →
      Step g fails o (.write block img) (some none) (o.put block img)
  | writeNow {o : Overlay} {block : ℕ} {img : Buf} :
      Step g fails o (.writeNow block img) (some none) (o.put block img)
  | setUsed {o : Overlay} {used : ℕ} :
      Step g fails o (.setUsed used) (some none) { o with cursors := { o.cursors with usedBlocks := used % 2 ^ 64 } }
  | begin {o : Overlay} :
      Step g fails o .begin (some none) { o with txn := some ⟨true, fun _ => none, o.disk, fun _ => False, o.cursors⟩ }
  | commitNothing {o : Overlay} : (∀ t, o.txn = some t → t.isOpen = false) → Step g fails o .commit (some none) o
  | commitEmpty {o : Overlay} {t : Begun} : o.txn = some t → t.isOpen = true → (∀ b, t.images b = none) →
      Step g fails o .commit (some none) { o with txn := none }
  /-- The overlay is applied, beside an entry in the log. -/
  | commit {o o' : Overlay} {t : Begun} : o.txn = some t → t.isOpen = true →
      (∀ b, ¬ o.Logs g b → o'.disk b = (t.images b).getD (o.disk b)) → (∀ b img, t.images b = some img → o'.disk b = img) →
      o'.cursors.usedBlocks = o.cursors.usedBlocks → o'.txn = none → Step g fails o .commit (some none) o'
  | commitRefused {o : Overlay} {t : Begun} : o.txn = some t → t.isOpen = true →
      Step g fails o .commit none { o with txn := some { t with isOpen := false, images := fun _ => none } }
  /-- What was read and the cursors are as at the begin. -/
  | abort {o : Overlay} {t : Begun} : o.txn = some t → (∀ b, ¬ t.direct b → o.disk b = t.base b) →
      Step g fails o .abort (some none) { o with cursors := t.cursors, txn := none }
  | abortNothing {o : Overlay} : o.txn = none → Step g fails o .abort (some none) o

end Overlay

/-! ## The volume as an overlay -/

/-- The journal holds a transaction over a disk. -/
structure Journal.Holds (j : Journal) (disk : ℕ → Buf) (t : Begun) : Prop where
  active : j.active = t.isOpen
  images : ∀ b, j.entries.lookup b = t.images b
  nodup : (j.entries.map Prod.fst).Nodup
  closed : t.isOpen = false → j.entries = []
  snapshot : j.snapshotValid = true ∧ j.committed = false
  cursors : imageCursors j.superblock = t.cursors
  base : ∀ b, ¬ t.direct b → disk b = t.base b

structure Journal.Idle (j : Journal) : Prop where
  active : j.active = false
  entries : j.entries = []
  snapshot : j.snapshotValid = false

theorem lookup_isSome {entries : List (ℕ × Buf)} {block : ℕ} :
    (entries.lookup block).isSome = true ↔ block ∈ entries.map Prod.fst := by
  constructor
  · intro hsome
    by_contra hnot
    rw [lookup_eq_none_of_notMem hnot] at hsome
    cases hsome
  · intro hmem
    by_contra hnone
    rw [Option.not_isSome_iff_eq_none, List.lookup_eq_none_iff] at hnone
    obtain ⟨e, he, rfl⟩ := List.mem_map.1 hmem
    simpa using hnone e he

namespace Cached

structure Follows (g : Geometry) (c : Cached) (o : Overlay) : Prop where
  disk : o.disk = c.dev.blocks
  cursors : o.cursors = c.vol.cursors
  synced : c.vol.Synced
  geometry : c.vol.toGeometry = g
  writable : c.vol.writable = true
  never : ∀ n, c.dev.refuse n = false
  lines : ∀ {l line}, c.lines l = some line → line.2 = c.dev.blocks line.1
  holds : ∀ {t}, o.txn = some t → c.jnl.Holds o.disk t
  idle : o.txn = none → c.jnl.Idle

variable {g : Geometry} {c : Cached} {o : Overlay} {block : ℕ} {img : Buf}

theorem Follows.peek (h : Follows g c o) (block : ℕ) : c.jnl.peek block = o.txn.bind fun t => t.images block := by
  cases ht : o.txn with
  | none =>
    rw [Journal.peek, (h.idle ht).entries]
    rfl
  | some t => exact (h.holds ht).images block

theorem Follows.closed (h : Follows g c o) (hactive : c.jnl.active = false) :
    (∀ t, o.txn = some t → t.isOpen = false) ∧ c.jnl.entries = [] := by
  have hclosed : ∀ t, o.txn = some t → t.isOpen = false := fun t ht => (h.holds ht).active.symm.trans hactive
  refine ⟨hclosed, ?_⟩
  cases ht : o.txn with
  | none => exact (h.idle ht).entries
  | some t => exact (h.holds ht).closed (hclosed t ht)

theorem Follows.opened (h : Follows g c o) (hactive : c.jnl.active = true) :
    ∃ t, o.txn = some t ∧ t.isOpen = true ∧ c.jnl.Holds o.disk t := by
  cases ht : o.txn with
  | none => exact absurd ((h.idle ht).active.symm.trans hactive) (by decide)
  | some t => exact ⟨t, rfl, (h.holds ht).active.symm.trans hactive, h.holds ht⟩

theorem Follows.dropLines (h : Follows g c o) : Follows g { c with lines := fun _ => none } o :=
  { h with lines := (fun hline => nomatch hline) }

theorem Follows.setVol (h : Follows g c o) {v : Volume} {cursors : Cursors} (hcursors : cursors = v.cursors) (hsynced : v.Synced)
    (hgeometry : v.toGeometry = g) (hwritable : v.writable = true) : Follows g { c with vol := v } { o with cursors } :=
  ⟨h.disk, hcursors, hsynced, hgeometry, hwritable, h.never, h.lines, h.holds, h.idle⟩

/-! ### Reading -/

theorem readBlock_follows (h : Follows g c o) (block : ℕ) :
    ((readBlock block c).1 = some (o.look block) ∨ (readBlock block c).1 = none ∧ c.dev.fails c.dev.reads = true) ∧
      Follows g (readBlock block c).2 o := by
  simp only [readBlock, get_bind_run, h.peek block, Overlay.look]
  cases hpeek : o.txn.bind fun t => t.images block with
  | some img => exact ⟨.inl rfl, h⟩
  | none =>
    cases hline : (c.lines (block % kCacheLines)).filter fun line => decide (line.1 = block) with
    | some line =>
      obtain ⟨hsome, heq⟩ := Option.filter_eq_some_iff.1 hline
      refine ⟨.inl ?_, h⟩
      have hat : line.1 = block := of_decide_eq_true heq
      simp only [pure_run, Option.getD_none]
      rw [h.lines hsome, hat, h.disk]
    | none =>
      have hquiet : Follows g { c with dev := { c.dev with reads := c.dev.reads + 1 } } o := { h with }
      simp only [readBlockNow, bind_run]
      by_cases hfails : c.dev.fails c.dev.reads = true
      · rw [if_pos hfails]
        exact ⟨.inr ⟨rfl, hfails⟩, hquiet⟩
      · rw [if_neg hfails]
        refine ⟨.inl (by rw [Option.getD_none, h.disk]; rfl), { hquiet with lines := fun {l line} hl => ?_ }⟩
        simp only [modify_run, pure_run] at hl ⊢
        by_cases hat : l = block % kCacheLines
        · subst hat
          rw [Function.update_self] at hl
          obtain rfl := Option.some.inj hl
          rfl
        · rw [Function.update_of_ne hat] at hl
          exact h.lines hl

/-! ### Writing -/

theorem writeBlockNow_run (h : Follows g c o) (block : ℕ) (img : Buf) :
    writeBlockNow block img c = (some (), { c with lines := fun _ => none, dev := c.dev.wrote (.block block img) }) := by
  simp only [writeBlockNow, Cached.dropLines, modify_bind_run, get_bind_run, check, h.writable, if_true, pure_bind_run,
    devWrite, h.never, Bool.false_eq_true, if_false]
  rfl

theorem Follows.wrote (h : Follows g c o) (block : ℕ) (img : Buf) :
    Follows g { c with lines := fun _ => none, dev := c.dev.wrote (.block block img) } (o.put block img) := by
  refine { h with disk := ?_, lines := (fun hline => nomatch hline), holds := fun {t} ht => ?_, idle := fun ht => ?_ }
  · simp only [Overlay.put, h.disk]
    rfl
  · simp only [Overlay.put, Option.map_eq_some_iff] at ht
    obtain ⟨t, ht, rfl⟩ := ht
    refine { h.holds ht with base := fun b hb => ?_ }
    rw [not_or] at hb
    exact (Function.update_of_ne hb.1 _ _).trans ((h.holds ht).base b hb.2)
  · exact h.idle (Option.map_eq_none_iff.1 ht)

theorem log_follows (h : Follows g c o) (hactive : c.jnl.active = true) (block : ℕ) (img : Buf) :
    ∃ o', o.Step g (c.dev.fails c.dev.reads) (.write block img) ((log block img c).1.map fun _ => none) o' ∧
      Follows g (log block img c).2 o' := by
  obtain ⟨t, ht, hopen, hholds⟩ := h.opened hactive
  have hupdate : ∀ entries : List (ℕ × Buf), (∀ b, entries.lookup b = if b = block then some img else c.jnl.entries.lookup b) →
      (entries.map Prod.fst).Nodup → Follows g { c with jnl := { c.jnl with entries } }
        { o with txn := some { t with images := Function.update t.images block (some img) } } := by
    intro entries hlookup hnodup
    refine { h with holds := fun {t'} ht' => ?_, idle := fun hnone => nomatch hnone }
    obtain rfl := Option.some.inj ht'
    refine { hholds with images := fun b => ?_, nodup := hnodup, closed := fun hclosed => ?_ }
    · simp only [hlookup, Function.update_apply, hholds.images]
    · exact absurd (hopen.symm.trans hclosed) (by decide)
  simp only [log, get_bind_run, check, hactive, if_true, pure_bind_run]
  by_cases hmem : block ∈ c.jnl.entries.map Prod.fst
  · have hpeek : (c.jnl.peek block).isSome = true := lookup_isSome.2 hmem
    simp only [hpeek, if_true, modifyJnl, modify_run]
    refine ⟨_, .write ht hopen, hupdate _ (lookup_setEntry hmem) ?_⟩
    rw [map_fst_setEntry]
    exact hholds.nodup
  · have hpeek : (c.jnl.peek block).isSome = false := Bool.eq_false_iff.2 fun hsome => hmem (lookup_isSome.1 hsome)
    simp only [hpeek, Bool.false_eq_true, if_false]
    by_cases hfull : c.jnl.entries.length < kMaxJournalBlocks
    · simp only [hfull, decide_true, if_true, pure_bind_run, modifyJnl, modify_run]
      refine ⟨_, .write ht hopen, hupdate _ (lookup_snoc hmem) ?_⟩
      rw [List.map_append, List.map_singleton]
      exact List.nodup_append_comm.1 (List.nodup_cons.2 ⟨hmem, hholds.nodup⟩)
    · simp only [hfull, decide_false, Bool.false_eq_true, if_false, fail_bind_run]
      have hnone : t.images block = none := (hholds.images block).symm.trans (lookup_eq_none_of_notMem hmem)
      refine ⟨o, .writeFull ht hopen hnone hholds.nodup ?_ fun b hb => ?_, h⟩
      · rw [List.length_map]
        omega
      · rw [← hholds.images]
        exact lookup_isSome.2 hb

theorem writeBlock_follows (h : Follows g c o) (block : ℕ) (img : Buf) :
    ∃ o', o.Step g (c.dev.fails c.dev.reads) (.write block img) ((writeBlock block img c).1.map fun _ => none) o' ∧
      Follows g (writeBlock block img c).2 o' := by
  simp only [writeBlock, Cached.dropLines, modify_bind_run, get_bind_run]
  cases hactive : c.jnl.active with
  | true => exact log_follows h.dropLines hactive block img
  | false =>
    simp only [Bool.false_eq_true, if_false, writeBlockNow_run h.dropLines]
    exact ⟨_, .writeThrough (h.closed hactive).1, h.wrote block img⟩

/-! ### Transactions -/

theorem begin_follows (h : Follows g c o) :
    Follows g (begin c).2 { o with txn := some ⟨true, fun _ => none, o.disk, fun _ => False, o.cursors⟩ } := by
  refine { h with holds := fun {t} ht => ?_, idle := fun hnone => nomatch hnone }
  obtain rfl := Option.some.inj ht
  exact ⟨rfl, fun _ => rfl, List.nodup_nil, fun _ => rfl, ⟨rfl, rfl⟩, h.synced.trans h.cursors.symm, fun _ _ => rfl⟩

theorem abort_follows (h : Follows g c o) :
    ∃ o', o.Step g (c.dev.fails c.dev.reads) .abort (some none) o' ∧ Follows g (abort c).2 o' := by
  have hidle : Journal.Idle { c.jnl with snapshotValid := false, committed := false, active := false, entries := [] } :=
    ⟨rfl, rfl, rfl⟩
  cases ht : o.txn with
  | none =>
    refine ⟨o, .abortNothing ht, ?_⟩
    simp only [abort, modify_run, (h.idle ht).snapshot, Bool.false_and, Bool.false_eq_true, if_false]
    exact { h with holds := fun {t} ht' => absurd (ht.symm.trans ht') nofun, idle := fun _ => hidle }
  | some t =>
    have hholds := h.holds ht
    refine ⟨_, .abort ht hholds.base, ?_⟩
    simp only [abort, modify_run, hholds.snapshot.1, hholds.snapshot.2, Bool.not_false, Bool.and_self, if_true]
    have hcursors := hholds.cursors.symm.trans (c.vol.restoreSuperblock_cursors c.jnl.superblock).symm
    have hgeometry := (c.vol.restoreSuperblock_toGeometry c.jnl.superblock).trans h.geometry
    have hwritable := (c.vol.restoreSuperblock_writable c.jnl.superblock).trans h.writable
    have hback := h.setVol hcursors (c.vol.restoreSuperblock_synced _) hgeometry hwritable
    exact { hback with holds := (fun ht' => nomatch ht'), idle := fun _ => hidle }

theorem foldl_homes {entries : List (ℕ × Buf)} (hnodup : (entries.map Prod.fst).Nodup) (blocks : ℕ → Buf) (b : ℕ) :
    (entries.map fun e => Request.block e.1 e.2).foldl Request.apply blocks b = (entries.lookup b).getD (blocks b) := by
  induction entries generalizing blocks with
  | nil => rfl
  | cons e entries ih =>
    obtain ⟨home, img⟩ := e
    rw [List.map_cons, List.nodup_cons] at hnodup
    rw [List.map_cons, List.foldl_cons, ih hnodup.2, List.lookup_cons]
    by_cases hat : b = home
    · subst hat
      rw [lookup_eq_none_of_notMem hnodup.1, beq_self_eq_true]
      exact Function.update_self _ _ _
    · rw [beq_eq_false_iff_ne.2 hat]
      exact congrArg _ (Function.update_of_ne hat _ _)

theorem foldl_elsewhere {requests : List Request} {b : ℕ} (h : ∀ img, .block b img ∉ requests) (blocks : ℕ → Buf) :
    requests.foldl Request.apply blocks b = blocks b := by
  induction requests generalizing blocks with
  | nil => rfl
  | cons request requests ih =>
    rw [List.foldl_cons, ih fun img hmem => h img (List.mem_cons_of_mem _ hmem)]
    cases request with
    | block home img =>
      refine Function.update_of_ne (fun hat => ?_) _ _
      exact h img (hat ▸ List.mem_cons_self)
    | superblock img => rfl

theorem mem_entryRequests {v : Volume} (hlength : 2 ≤ v.logLength ∧ v.logLength < 2 ^ 16) {entries : List (ℕ × Buf)} {b : ℕ}
    {img : Buf} (hmem : .block b img ∈ entryRequests v entries) :
    b = (v.toBlock v.log + v.logEnd) % 2 ^ 64 ∨ ∃ p < v.logLength, b = (v.toBlock v.log + p) % 2 ^ 64 := by
  rcases List.mem_cons.1 hmem with hfirst | hdata
  · exact .inl (Request.block.inj hfirst).1
  · obtain ⟨k, hk⟩ := List.mem_iff_getElem?.1 hdata
    obtain ⟨img', heq⟩ := getElem?_dataRequests hk
    refine .inr ⟨_, ?_, (Request.block.inj heq).1⟩
    rw [past_eq hlength.2 (Nat.mod_lt _ (by omega))]
    exact Nat.mod_lt _ (by omega)

theorem blocks_planned {v : Volume} {entries : List (ℕ × Buf)} (hnodup : (entries.map Prod.fst).Nodup) (blocks : ℕ → Buf)
    (b : ℕ) : (planned v entries).foldl Request.apply blocks b =
      (entries.lookup b).getD ((entryRequests v entries).foldl Request.apply blocks b) := by
  rw [planned, List.foldl_concat, List.foldl_append, List.foldl_concat]
  exact foldl_homes hnodup _ b

theorem commit_follows (hg : 2 ≤ g.logLength ∧ g.logLength < 2 ^ 16) (h : Follows g c o) :
    ∃ o', o.Step g (c.dev.fails c.dev.reads) .commit ((commit c).1.map fun _ => none) o' ∧ Follows g (commit c).2 o' := by
  cases hactive : c.jnl.active with
  | false =>
    simp only [commit, get_bind_run, hactive, Bool.not_false, if_true, pure_run]
    exact ⟨o, .commitNothing (h.closed hactive).1, h⟩
  | true =>
    obtain ⟨t, ht, hopen, hholds⟩ := h.opened hactive
    by_cases hempty : c.jnl.entries = []
    · have hnone : ∀ b, t.images b = none := by
        intro b
        rw [← hholds.images, hempty]
        rfl
      simp only [commit, get_bind_run, hactive, hempty, List.isEmpty_nil, Bool.not_true, Bool.false_eq_true, if_false, if_true,
        modifyJnl, modify_bind_run, modify_run]
      refine ⟨_, .commitEmpty ht hopen hnone, { h with holds := (fun ht' => by cases ht'), idle := fun _ => ⟨rfl, rfl, rfl⟩ }⟩
    have hsome : c.jnl.entries.isEmpty = false := List.isEmpty_eq_false_iff.2 hempty
    cases hroom : roomFor c.vol c.jnl.entries.length with
    | false =>
      simp only [commit, get_bind_run, hactive, hsome, hroom, Bool.not_true, Bool.not_false, Bool.false_eq_true, if_false, if_true,
        modifyJnl, dropEntries, modify_bind_run, fail_run]
      refine ⟨_, .commitRefused ht hopen, { h with holds := fun {t'} ht' => ?_, idle := fun hnone => by cases hnone }⟩
      obtain rfl := Option.some.inj ht'
      exact ⟨rfl, fun _ => rfl, List.nodup_nil, fun _ => rfl, hholds.snapshot, hholds.cursors, hholds.base⟩
    | true =>
      have hdone := commit_post h.writable hactive hempty hroom
      rcases hr : commit c with ⟨_ | u, s⟩ <;> rw [hr] at hdone
      · obtain ⟨⟨n, hn⟩, -⟩ := hdone
        exact absurd (hn.symm.trans (h.never n)) (by decide)
      obtain ⟨hdev, hvol, hjnl, hlines⟩ := hdone
      have hlength : 2 ≤ c.vol.logLength ∧ c.vol.logLength < 2 ^ 16 := by
        rw [h.geometry]
        exact hg
      have hblocks : ∀ b, s.dev.blocks b =
          (c.jnl.entries.lookup b).getD ((entryRequests c.vol c.jnl.entries).foldl Request.apply c.dev.blocks b) := by
        intro b
        rw [hdev, BlockDevice.serve_blocks, blocks_planned hholds.nodup]
      refine ⟨⟨s.dev.blocks, s.vol.cursors, none⟩, .commit ht hopen (fun b hb => ?_) (fun b img himg => ?_) ?_ rfl, ?_⟩
      · show s.dev.blocks b = _
        rw [hblocks, hholds.images, h.disk, foldl_elsewhere]
        intro img hmem
        refine hb ?_
        have hlogs := mem_entryRequests hlength hmem
        rw [h.geometry] at hlogs
        rw [Overlay.Logs, h.cursors]
        exact hlogs
      · show s.dev.blocks b = img
        rw [hblocks, hholds.images, himg]
        rfl
      · rw [h.cursors, hvol]
        rfl
      · have hend : entryEnd c.vol c.jnl.entries < 2 ^ 64 := by
          have hlt : entryEnd c.vol c.jnl.entries < c.vol.logLength := by
            rw [entryEnd, past_eq hlength.2 (Nat.mod_lt _ (by omega))]
            exact Nat.mod_lt _ (by omega)
          omega
        refine ⟨rfl, rfl, ?_, ?_, ?_, ?_, fun hline => ?_, (fun ht' => by cases ht'), fun _ => ?_⟩
        · rw [hvol]
          exact (((h.synced.setLogEnd hend).setFlags kDirty).setLogStart hend).setFlags kClean
        · rw [hvol, ← h.geometry]
          exact (retired_toGeometry _ _)
        · rw [hvol]
          exact (retired_writable c.vol c.jnl.entries).trans h.writable
        · intro n
          rw [hdev, BlockDevice.serve_refuse]
          exact h.never n
        · rw [hlines] at hline
          cases hline
        · rw [hjnl]
          exact ⟨rfl, rfl, rfl⟩

theorem bind_none_run (m : M Unit) (c : Cached) :
    (m >>= fun _ => pure (none : Option Buf)) c = ((m c).1.map fun _ => none, (m c).2) := by
  rw [bind_run]
  rcases m c with ⟨_ | u, s⟩ <;> rfl

theorem setUsed_follows (h : Follows g c o) (used : ℕ) :
    Follows g (modifyVol (fun v => v.setUsedBlocks (used % 2 ^ 64)) c).2
      { o with cursors := { o.cursors with usedBlocks := used % 2 ^ 64 } } := by
  have hcursors : ({ o.cursors with usedBlocks := used % 2 ^ 64 } : Cursors) = (c.vol.setUsedBlocks (used % 2 ^ 64)).cursors := by
    rw [h.cursors]
    rfl
  have hsynced : (c.vol.setUsedBlocks (used % 2 ^ 64)).Synced := h.synced.setUsedBlocks (Nat.mod_lt _ (by norm_num))
  exact h.setVol hcursors hsynced h.geometry h.writable

theorem exec_follows (hg : 2 ≤ g.logLength ∧ g.logLength < 2 ^ 16) (h : Follows g c o) (op : BlockOp) :
    ∃ o', o.Step g (c.dev.fails c.dev.reads) op (exec op c).1 o' ∧ Follows g (exec op c).2 o' := by
  cases op with
  | read block =>
    obtain ⟨hanswer, hfollows⟩ := readBlock_follows h block
    rcases hr : readBlock block c with ⟨answer, s⟩
    rw [hr] at hanswer hfollows
    rcases hanswer with hsome | ⟨hnone, hfails⟩
    · dsimp only at hsome
      subst hsome
      simp only [exec, bind_run, hr, pure_run]
      exact ⟨o, .read, hfollows⟩
    · dsimp only at hnone
      subst hnone
      simp only [exec, bind_run, hr]
      exact ⟨o, .readFails hfails, hfollows⟩
  | write block img =>
    rw [exec, bind_none_run]
    exact writeBlock_follows h block img
  | writeNow block img =>
    simp only [exec, bind_run, writeBlockNow_run h, pure_run]
    exact ⟨_, .writeNow, h.wrote block img⟩
  | setUsed used => exact ⟨_, .setUsed, setUsed_follows h used⟩
  | begin => exact ⟨_, .begin, begin_follows h⟩
  | commit =>
    rw [exec, bind_none_run]
    exact commit_follows hg h
  | abort => exact abort_follows h

/-! ## Every run -/

/-- Each operation of a run answers as the overlay, and leaves the disk and the cursors it says. -/
inductive Agrees (g : Geometry) : Cached → Overlay → List BlockOp → Prop
  | done {c : Cached} {o : Overlay} : Agrees g c o []
  | op {c : Cached} {o o' : Overlay} {op : BlockOp} {ops : List BlockOp} :
      o.Step g (c.dev.fails c.dev.reads) op (exec op c).1 o' → (exec op c).2.dev.blocks = o'.disk →
      (exec op c).2.vol.cursors = o'.cursors → Agrees g (exec op c).2 o' ops → Agrees g c o (op :: ops)

theorem Follows.agrees (hg : 2 ≤ g.logLength ∧ g.logLength < 2 ^ 16) (h : Follows g c o) (ops : List BlockOp) : Agrees g c o ops := by
  induction ops generalizing c o with
  | nil => exact .done
  | cons op ops ih =>
    obtain ⟨o', hstep, hfollows⟩ := exec_follows hg h op
    exact .op hstep hfollows.disk.symm hfollows.cursors.symm (ih hfollows)

def zeroDevice (sector : Buf) : BlockDevice := ⟨fun _ => zero, sector, [], 0, fun _ => false, 0, fun _ => false⟩

def after (ops : List BlockOp) (c : Cached) : Cached := ops.foldl (fun c op => (exec op c).2) c

end Cached

end Aegir.Bfs
