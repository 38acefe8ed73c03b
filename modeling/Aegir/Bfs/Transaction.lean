/-
  Transactions over the life of a volume.
-/
import Aegir.Bfs.Atomicity
import Aegir.Bfs.Allocator
import Aegir.Mkfs.Format

namespace Aegir.Bfs

open Aegir.Lib Aegir.Lib.Buf Aegir.Lib.Fallible

/-! ## Power failures -/

/-- The disk when the power fails after the first `k` requests of `m`. -/
def crashAfter {α : Type} (m : M α) (w : World) (k : ℕ) : Buf :=
  applyAll w.dev.disk (((m w).2.dev.trace.drop w.dev.trace.length).take k)

/-- The disk when the power fails in a mount, after its first `k` requests. -/
def crashMount (di : Bool) (d : Buf) (refuse : ℕ → Bool) (k : ℕ) : Buf :=
  match mount (.on d refuse) di with
  | none => d
  | some r => applyAll d (r.2.dev.trace.take k)

theorem Volume.Coherent.sound {v : Volume} (hv : v.Coherent) (hshift : 10 ≤ v.blockShift)
    (hag : v.agShift ≤ 16) (hlog : 0 < v.logBlock) (hroom : kMaxJournalBlocks + 2 ≤ v.logLength) :
    v.toGeometry.Sound := by
  have hc := hv.checked
  exact ⟨hshift, hag, hc.span, hc.numAgs.2, hlog, hroom⟩

section
variable {g : Geometry} {di : Bool} {A : Content} {d : Buf} (hg : g.Sound)
include hg

theorem Recoverable.crashMount (h : Recoverable g di A d) (refuse : ℕ → Bool) (k : ℕ) :
    Recoverable g di A (crashMount di d refuse k) := by
  obtain ⟨v, hm, hpost⟩ := mount_post hg (.on d refuse) h
  have htrail : (Device.on d refuse).Trail (Recoverable g di A)
      (Journal.replay (.booted (.on d refuse) v)).2.dev :=
    hpost.elim (R := fun s => (Device.on d refuse).Trail (Recoverable g di A) s.dev)
      (fun _ _ h => h.1) fun _ h => by exact h.trail
  rw [Bfs.crashMount, hm]
  exact htrail.crash k

theorem Recoverable.crashMounts (h : Recoverable g di A d) (crashes : List ((ℕ → Bool) × ℕ)) :
    Recoverable g di A (crashes.foldl (fun d c => Bfs.crashMount di d c.1 c.2) d) := by
  induction crashes generalizing d with
  | nil => exact h
  | cons c crashes ih => exact ih (h.crashMount hg c.1 c.2)

theorem Recoverable.mount (h : Recoverable g di A d) :
    ∃ w, mount (.on d fun _ => false) di = some (some (), w) ∧ CleanAt g di w.dev.disk A w.vol := by
  obtain ⟨v, hm, hpost⟩ := mount_post hg (.on d fun _ => false) h
  rcases hr : Journal.replay (.booted (.on d fun _ => false) v) with ⟨_ | u, w⟩
  · rw [hr] at hpost
    obtain ⟨n, hn⟩ := hpost.refused
    exact absurd hn (by simp [World.booted, Device.on])
  · rw [hr] at hpost
    exact ⟨w, by rw [hm, hr], hpost.2.1⟩

end

def sampleVolume : Volume where
  toGeometry := ⟨11, 14, 1, 1, 2048, ⟨0, 2, 512⟩⟩
  writable := true
  discard := false
  usedBlocks := 600
  root := ⟨0, 514, 1⟩
  indices := ⟨0, 515, 1⟩
  logStart := 2
  logEnd := 2
  superblock := Mkfs.superblock 4194304 600 514 515 []

def sampleDisk : Buf := Mkfs.formatted 4194304 600 514 515 [] zero

theorem sampleVolume_coherent : sampleVolume.Coherent :=
  ⟨by with_unfolding_all rfl, fun _ hi => Mkfs.superblock_size _ _ _ _ _ hi⟩

theorem sampleVolume_sound : sampleVolume.toGeometry.Sound :=
  sampleVolume_coherent.sound (by decide) (by decide) (by decide) (by decide)

theorem sampleVolume_clean : CleanAt sampleVolume.toGeometry false sampleDisk
    ⟨sampleDisk, sampleVolume.usedBlocks⟩ sampleVolume where
  opens := sampleVolume_coherent.open_written zero
  geometry := rfl
  empty := rfl
  cursor := by decide
  clean := by decide
  home := .refl _
  used := rfl

def sampleWorld : World where
  dev := .on sampleDisk fun _ => false
  vol := sampleVolume.setUsedBlocks 602
  jnl := { Journal.idle with active := true, entries := [(700, fun _ => 1), (600, fun _ => 2)] }
  alloc := ⟨zero, none⟩

/-- `Writer::finish`: how every operation ends its transaction. -/
def finish (ok : Bool) : M Unit :=
  if !ok then do
    Journal.abort
    Allocator.dropDiscards
    .fail
  else do
    Journal.commit.onFail (do Journal.abort; Allocator.dropDiscards)
    Allocator.flushDiscards

/-- A volume that is off, or mounted. -/
inductive Machine where
  | off (disk : Buf)
  | on (w : World)

/-- What may happen to a volume. -/
inductive Action where
  | begin
  | log (block : ℕ) (img : Buf)
  | setUsed (used : ℕ)
  | finish (ok : Bool)
  /-- the power fails, after `k` requests of a commit -/
  | crash (k : ℕ)
  /-- a mount, on a device that refuses some writes from now on -/
  | boot (refuse : ℕ → Bool)
  /-- the power fails, after `k` requests of a mount -/
  | crashBoot (refuse : ℕ → Bool) (k : ℕ)

def Machine.disk : Machine → Buf
  | off d => d
  | on w => w.dev.disk

def Machine.step (di : Bool) : Machine → Action → Option Machine
  | on w, .begin => some (on (Journal.begin w).2)
  | on w, .log block img => some (on (Journal.log block img w).2)
  | on w, .setUsed used => some (on { w with vol := w.vol.setUsedBlocks used })
  | on w, .finish ok => some (on (Bfs.finish ok w).2)
  | on w, .crash k => some (off (crashAfter (Bfs.finish true) w k))
  | off d, .boot refuse => match mount (.on d refuse) di with
    | none => some (off d)
    | some (some (), w) => some (on w)
    | some (none, w) => some (off w.dev.disk)
  | off d, .crashBoot refuse k => some (off (crashMount di d refuse k))
  | _, _ => none

/-- The transaction a `finish(true)` has to commit. -/
def World.toCommit (w : World) : List (List (ℕ × Buf)) :=
  if w.jnl.active && !w.jnl.entries.isEmpty then [w.jnl.entries] else []

def Machine.tries : Machine → Action → List (List (ℕ × Buf))
  | on w, .finish true => w.toCommit
  | on w, .crash _ => w.toCommit
  | _, _ => []

/-- What the writer promises of its calls: transactions do not nest, the blocks
    logged are home blocks, and the count of used blocks fits its field. -/
def Machine.Promised (g : Geometry) : Machine → Action → Prop
  | on w, .begin => w.jnl.active = false
  | on w, .log block _ => w.jnl.active = true ∧ 0 < block ∧ block < g.numBlocks ∧
      (block < g.logBlock ∨ g.logBlock + g.logLength ≤ block)
  | on w, .setUsed used => w.jnl.active = true ∧ used < 2 ^ 64
  | _, _ => True

def Machine.LogEmpty (m : Machine) (a : Action) : Prop :=
  ∀ w, m = on w → m.tries a ≠ [] → w.vol.logStart = w.vol.logEnd

/-- The runs of a machine whose every step is `ok`, with the transactions they
    tried to commit. -/
inductive Machine.Run (di : Bool) (ok : Machine → Action → Prop) (m₀ : Machine) :
    List (List (ℕ × Buf)) → Machine → Prop where
  | start : Run di ok m₀ [] m₀
  | step {ts m a m'} (h : Run di ok m₀ ts m) (hok : ok m a) (hs : m.step di a = some m') :
      Run di ok m₀ (ts ++ m.tries a) m'

/-- The home blocks after the transactions `ts`, one after the other. -/
def applyTxns (g : Geometry) (home : Buf) (ts : List (List (ℕ × Buf))) : Buf :=
  ts.foldl (applyEntries g) home

/-- The volume holds `home`: a mount recovers it, and whenever the log is empty
    in memory the homes hold it already. -/
structure Machine.Holds (g : Geometry) (di : Bool) (m : Machine) (home : Buf) : Prop where
  recovers : ∃ w, mount (.on m.disk fun _ => false) di = some (some (), w) ∧
    g.HomeEq w.dev.disk home
  now : ∀ w, m = on w → w.vol.logStart = w.vol.logEnd → g.HomeEq w.dev.disk home

/-! ## What every state recovers to -/

/-- The homes hold `home`, and so does what a mount makes of the disk; an entry
    that is still pending ends at the position `p`. -/
def Quiet (g : Geometry) (di : Bool) (home : Buf) (p : ℕ) (d : Buf) : Prop :=
  g.HomeEq d home ∧ ((∃ u v, CleanAt g di d ⟨home, u⟩ v) ∨
    ∃ u v es, PendingAt g di d ⟨home, u⟩ v es ∧ v.logEnd = p)

/-- A mounted volume whose log is empty in memory. -/
structure Healthy (g : Geometry) (di : Bool) (home : Buf) (w : World) : Prop where
  coherent : w.vol.Coherent
  writable : w.vol.writable = true
  discard : w.vol.discard = di
  geometry : w.vol.toGeometry = g
  empty : w.vol.logStart = w.vol.logEnd
  cursor : w.vol.logEnd < g.logLength
  quiet : Quiet g di home w.vol.logEnd w.dev.disk
  /-- without a transaction there is nothing to restore -/
  idle : w.jnl.active = false → w.jnl.snapshotValid = false
  /-- the snapshot is a volume with the same log -/
  snapshot : w.jnl.active = true → w.jnl.snapshotValid = true ∧ w.jnl.committed = false ∧
    (w.vol.restoreSuperblock w.jnl.superblock).Coherent ∧
    (w.vol.restoreSuperblock w.jnl.superblock).logStart = w.vol.logStart ∧
    (w.vol.restoreSuperblock w.jnl.superblock).logEnd = w.vol.logEnd
  entries : w.jnl.active = true → Buffered g w.jnl.entries

/-- A mounted volume whose log holds an entry that was not checkpointed. -/
structure Broken (g : Geometry) (di : Bool) (home : Buf) (w : World) : Prop where
  recovers : ∃ u, Recoverable g di ⟨home, u⟩ w.dev.disk
  full : w.vol.logStart ≠ w.vol.logEnd
  image : w.vol.logStart = le 8 w.vol.superblock Superblock.kLogStart ∧
    w.vol.logEnd = le 8 w.vol.superblock Superblock.kLogEnd
  snapshot : w.jnl.snapshotValid = true → w.jnl.committed = false →
    le 8 w.jnl.superblock Superblock.kLogStart ≠ le 8 w.jnl.superblock Superblock.kLogEnd

/-- The machine is in a state that comes to `home`. -/
def Machine.Sim (g : Geometry) (di : Bool) (home : Buf) : Machine → Prop
  | off d => ∃ u, Recoverable g di ⟨home, u⟩ d
  | on w => Healthy g di home w ∨ Broken g di home w

section
variable {g : Geometry} {di : Bool} {home d : Buf} {p : ℕ} {w : World} (hg : g.Sound)
include hg

omit hg in
theorem Quiet.recovers (h : Quiet g di home p d) : ∃ u, Recoverable g di ⟨home, u⟩ d := by
  rcases h.2 with ⟨u, v, hc⟩ | ⟨u, v, es, hp, -⟩
  · exact ⟨u, Or.inl ⟨v, hc⟩⟩
  · exact ⟨u, Or.inr ⟨v, es, hp⟩⟩

theorem Quiet.log_write (hroom : 66 ≤ g.logLength) (h : Quiet g di home p d) {j : ℕ} (hj : j ≤ 32)
    (img : Buf) :
    Quiet g di home p (blit d ((g.logBlock + (p + j) % g.logLength) * g.blockSize) img
      g.blockSize) := by
  have hq : (p + j) % g.logLength < g.logLength := Nat.mod_lt _ (by omega)
  refine ⟨fun a h₁ h₂ => (blit_log hg hq img h₁).trans (h.1 a h₁ h₂), ?_⟩
  rcases h.2 with ⟨u, v, hc⟩ | ⟨u, v, es, hp, hv⟩
  · exact Or.inl ⟨u, v, hc.log_write hg hq img⟩
  · have hlen : es.length ≤ 32 := hp.txn.length
    have hpos : (p + j) % g.logLength = (v.logStart + (es.length + 1 + j)) % g.logLength := by
      rw [← hv, hp.ends, Nat.mod_add_mod, Nat.add_assoc]
    rw [hpos]
    exact Or.inr ⟨u, v, es, hp.log_write hg (by omega) (by omega) img, hv⟩

theorem Machine.Sim.holds {m : Machine} (h : m.Sim g di home) : m.Holds g di home := by
  have hrec : ∃ u, Recoverable g di ⟨home, u⟩ m.disk := by
    rcases m with d | w
    · exact h
    · rcases h with h | h
      · exact h.quiet.recovers
      · exact h.recovers
  obtain ⟨u, hr⟩ := hrec
  obtain ⟨w', hm, hc⟩ := hr.mount hg
  refine ⟨⟨w', hm, hc.home⟩, ?_⟩
  rintro w rfl he
  rcases h with h | h
  · exact h.quiet.1
  · exact absurd he h.full

/-! ## Steps that do not commit -/

omit hg in
theorem Volume.Coherent.restore_self {v : Volume} (hv : v.Coherent) :
    v.restoreSuperblock v.superblock = v := by
  obtain ⟨h₁, h₂, h₃⟩ := hv.cursors
  unfold Volume.restoreSuperblock
  rw [← h₁, ← h₂, ← h₃]

omit hg in
theorem Healthy.begin (h : Healthy g di home w) : Healthy g di home (Journal.begin w).2 := by
  have hr := h.coherent.restore_self
  refine ⟨h.coherent, h.writable, h.discard, h.geometry, h.empty, h.cursor, h.quiet, ?_, ?_, ?_⟩
  · exact fun ha => absurd ha (by simp [Journal.begin])
  · intro _
    refine ⟨rfl, rfl, ?_⟩
    simp only [Journal.begin, modify_run]
    rw [hr]
    exact ⟨h.coherent, rfl, rfl⟩
  · exact fun _ => ⟨Nat.zero_le _, List.nodup_nil, fun b hb => absurd hb List.not_mem_nil⟩

omit hg in
theorem Healthy.setUsed (h : Healthy g di home w) {used : ℕ} (hu : used < 2 ^ 64) :
    Healthy g di home { w with vol := w.vol.setUsedBlocks used } :=
  ⟨h.coherent.setUsedBlocks hu, h.writable, h.discard, h.geometry, h.empty, h.cursor, h.quiet,
    h.idle, h.snapshot, h.entries⟩

omit hg in
theorem Buffered.setEntry {es : List (ℕ × Buf)} (h : Buffered g es) (block : ℕ) (img : Buf) :
    Buffered g (Journal.setEntry block img es) := by
  have hmap := map_fst_setEntry block img es
  have hlen := congrArg List.length hmap
  rw [List.length_map, List.length_map] at hlen
  exact ⟨hlen ▸ h.length, hmap ▸ h.nodup, hmap ▸ h.target⟩

omit hg in
theorem Buffered.snoc {es : List (ℕ × Buf)} (h : Buffered g es) {block : ℕ} (img : Buf)
    (h₀ : 0 < block) (hb : block < g.numBlocks)
    (hl : block < g.logBlock ∨ g.logBlock + g.logLength ≤ block)
    (hn : block ∉ es.map Prod.fst) (hr : es.length < kMaxJournalBlocks) :
    Buffered g (es ++ [(block, img)]) := by
  refine ⟨?_, ?_, ?_⟩
  · rw [List.length_append, List.length_singleton]; exact hr
  · rw [List.map_append, List.map_singleton]
    refine List.nodup_append.2 ⟨h.nodup, List.nodup_singleton _, fun a ha b hb => ?_⟩
    rw [List.mem_singleton.1 hb]
    rintro rfl
    exact hn ha
  · intro b hm
    rw [List.map_append, List.map_singleton, List.mem_append] at hm
    rcases hm with hm | hm
    · exact h.target b hm
    · rw [List.mem_singleton.1 hm]; exact ⟨h₀, hb, hl⟩

omit hg in
theorem Healthy.log (h : Healthy g di home w) {block : ℕ} (img : Buf) (h₀ : 0 < block)
    (hb : block < g.numBlocks) (hl : block < g.logBlock ∨ g.logBlock + g.logLength ≤ block) :
    Healthy g di home (Journal.log block img w).2 := by
  rcases log_cases w block img with ⟨he, -⟩ | ⟨es, he, ha, hes⟩
  · rw [he]; exact h
  · rw [he]
    refine { h with entries := fun _ => ?_ }
    rcases hes with ⟨rfl, -⟩ | ⟨rfl, hn, hr⟩
    · exact (h.entries ha).setEntry block img
    · exact (h.entries ha).snoc img h₀ hb hl hn hr

omit hg in
theorem finish_false (w : World) :
    (finish false w).2 = { w with
      vol := if w.jnl.snapshotValid && !w.jnl.committed
        then w.vol.restoreSuperblock w.jnl.superblock else w.vol
      jnl := { w.jnl with snapshotValid := false, committed := false, active := false, entries := [] }
      alloc := { w.alloc with pending := none } } := rfl

omit hg in
theorem Healthy.restored {s : World} (h : Healthy g di home w) (ha : w.jnl.active = true)
    (hv : s.vol = w.vol.restoreSuperblock w.jnl.superblock) (hidle : s.jnl.active = false)
    (hi : s.jnl.snapshotValid = false) (hq : Quiet g di home w.vol.logEnd s.dev.disk) :
    Healthy g di home s := by
  obtain ⟨-, -, hco, hs, he⟩ := h.snapshot ha
  rw [← hv] at hco hs he
  refine ⟨hco, ?_, ?_, ?_, hs.trans (h.empty.trans he.symm), he.trans_lt h.cursor, ?_, fun _ => hi,
    fun hf => ?_, fun hf => ?_⟩
  · rw [hv]; exact h.writable
  · rw [hv]; exact h.discard
  · rw [hv]; exact (w.vol.restoreSuperblock_toGeometry _).trans h.geometry
  · rw [he]; exact hq
  · rw [hidle] at hf; cases hf
  · rw [hidle] at hf; cases hf

omit hg in
theorem Healthy.abort (h : Healthy g di home w) : Healthy g di home (finish false w).2 := by
  rw [finish_false]
  rcases ha : w.jnl.active with _ | _
  · rw [h.idle ha]
    exact ⟨h.coherent, h.writable, h.discard, h.geometry, h.empty, h.cursor, h.quiet,
      fun _ => rfl, fun hf => absurd hf (by simp), fun hf => absurd hf (by simp)⟩
  · obtain ⟨hv, hc, -⟩ := h.snapshot ha
    rw [hv, hc, Bool.not_false, Bool.and_self, if_pos rfl]
    exact h.restored ha rfl rfl rfl h.quiet

/-! ## Steps of a broken volume -/

omit hg in
theorem Broken.begin (h : Broken g di home w) : Broken g di home (Journal.begin w).2 := by
  refine ⟨h.recovers, h.full, h.image, fun _ _ => ?_⟩
  change le 8 w.vol.superblock _ ≠ le 8 w.vol.superblock _
  rw [← h.image.1, ← h.image.2]
  exact h.full

omit hg in
theorem Broken.log (h : Broken g di home w) (block : ℕ) (img : Buf) :
    Broken g di home (Journal.log block img w).2 := by
  rcases log_cases w block img with ⟨he, -⟩ | ⟨es, he, -, -⟩
  · rw [he]; exact h
  · rw [he]; exact ⟨h.recovers, h.full, h.image, h.snapshot⟩

omit hg in
theorem Broken.setUsed (h : Broken g di home w) (used : ℕ) :
    Broken g di home { w with vol := w.vol.setUsedBlocks used } := by
  refine ⟨h.recovers, h.full, ?_, h.snapshot⟩
  simp only [Volume.setUsedBlocks]
  rw [le_put_of_disjoint (by decide), le_put_of_disjoint (by decide)]
  exact h.image

omit hg in
theorem Broken.abort (h : Broken g di home w) : Broken g di home (finish false w).2 := by
  rw [finish_false]
  by_cases hr : (w.jnl.snapshotValid && !w.jnl.committed) = true
  · rw [if_pos hr]
    rw [Bool.and_eq_true, Bool.not_eq_true'] at hr
    exact ⟨h.recovers, h.snapshot hr.1 hr.2, ⟨rfl, rfl⟩, fun hf => absurd hf (by simp)⟩
  · rw [if_neg hr]
    exact ⟨h.recovers, h.full, h.image, fun hf => absurd hf (by simp)⟩

/-! ## Commits -/

omit hg in
theorem Device.Trail.discarded {P : Buf → Prop} {d s : Device} (h : d.Trail P s) {t : List Event}
    (ht : ∀ e ∈ t, Event.isWrite e = false) :
    d.Trail P { s with trace := s.trace ++ t } := by
  have hid : ∀ (t : List Event) (b : Buf), (∀ e ∈ t, Event.isWrite e = false) →
      applyAll b t = b ∧ (P b → Safe Event.apply P b t) := by
    intro t
    induction t with
    | nil => intro b _; exact ⟨rfl, fun hb => Safe.nil_iff.2 hb⟩
    | cons e t ih =>
      intro b ht
      have he : Event.apply b e = b := by
        rcases e with _ | _
        · exact absurd (ht _ List.mem_cons_self) (by simp [Event.isWrite])
        · rfl
      obtain ⟨h₁, h₂⟩ := ih b fun x hx => ht x (List.mem_cons_of_mem _ hx)
      refine ⟨?_, fun hb => Safe.cons_iff.2 ⟨hb, by rw [he]; exact h₂ hb⟩⟩
      rw [applyAll, List.foldl_cons, he]
      exact h₁
  obtain ⟨t₀, h₁, h₂, h₃⟩ := h.served
  refine ⟨h.refuse, t₀ ++ t, by rw [h₁, List.append_assoc], ?_, ?_⟩
  · rw [applyAll, List.foldl_append]
    change s.disk = applyAll (applyAll d.disk t₀) t
    rw [← h₂, (hid t s.disk ht).1]
  · refine h₃.append ((hid t _ ht).2 h₃.last)

omit hg in
theorem finish_nothing (h : w.toCommit = []) : ∃ t, (∀ e ∈ t, Event.isWrite e = false) ∧
    (w.jnl.active = true → (finish true w).2.jnl.snapshotValid = false) ∧
    (w.jnl.active = false → (finish true w).2.jnl = w.jnl) ∧
    (finish true w).2.jnl.active = false ∧ (finish true w).2.vol = w.vol ∧
    (finish true w).2.dev = { w.dev with trace := w.dev.trace ++ t } := by
  have hcommit : ∃ s, Journal.commit w = (some (), s) ∧ s.dev = w.dev ∧ s.vol = w.vol ∧
      (w.jnl.active = true → s.jnl.snapshotValid = false) ∧
      (w.jnl.active = false → s.jnl = w.jnl) ∧ s.jnl.active = false := by
    rw [Journal.commit, get_bind_run]
    rcases ha : w.jnl.active
    · exact ⟨w, rfl, rfl, rfl, fun hf => absurd hf (by simp), fun _ => rfl, ha⟩
    · have he : w.jnl.entries.isEmpty = true := by
        rw [World.toCommit, ha, Bool.true_and] at h
        by_contra hne
        rw [Bool.not_eq_true] at hne
        rw [hne] at h
        simp at h
      rw [Bool.not_true, if_neg (by decide), modifyJnl, modify_bind_run, he, if_pos rfl]
      exact ⟨_, rfl, rfl, rfl, fun _ => rfl, fun hf => absurd hf (by simp), rfl⟩
  obtain ⟨s, hs, hd, hv, h₁, h₂, h₃⟩ := hcommit
  obtain ⟨t, ht, hw⟩ := flushDiscards_cases s
  have hf : finish true w = Allocator.flushDiscards s := by
    rw [finish, Bool.not_true, if_neg (by decide), bind_of_some (onFail_of_some hs _)]
  refine ⟨t, hw, ?_⟩
  rw [hf, ht]
  exact ⟨h₁, h₂, h₃, hv, by rw [hd]⟩

theorem Healthy.committable (hroom : 66 ≤ g.logLength) (h : Healthy g di home w)
    (ha : w.jnl.active = true) (hne : w.jnl.entries ≠ []) :
    Committable g di ⟨home, 0⟩ (Quiet g di home w.vol.logEnd) w where
  sound := hg
  coherent := h.coherent
  writable := h.writable
  discard := h.discard
  geometry := h.geometry
  empty := h.empty
  cursor := h.cursor
  active := ha
  txn := ⟨h.entries ha, hne⟩
  before := h.quiet
  home := fun _ hq => hq.1
  log_write := fun _ _ img hj hq => hq.log_write hg hroom (hj.trans (h.entries ha).length) img

theorem Healthy.retired {home' : Buf} {s : World} {n : ℕ} (h : Healthy g di home w)
    (hv : s.vol = w.vol.retired n) (ha : s.jnl.active = false) (hi : s.jnl.snapshotValid = false)
    (hq : Quiet g di home' s.vol.logEnd s.dev.disk) : Healthy g di home' s := by
  have hL : 0 < w.vol.logLength := by
    have := hg.room
    rw [h.geometry]; omega
  have hend : s.vol.logEnd = (w.vol.logEnd + (n + 1)) % w.vol.logLength := by rw [hv]; rfl
  refine ⟨?_, ?_, ?_, ?_, ?_, ?_, hq, fun _ => hi, fun hf => ?_, fun hf => ?_⟩
  · rw [hv]; exact h.coherent.retired hL _
  · rw [hv]; exact h.writable
  · rw [hv]; exact h.discard
  · rw [hv]; exact (w.vol.retired_toGeometry _).trans h.geometry
  · rw [hv]; rfl
  · have hll : w.vol.logLength = g.logLength := by rw [h.geometry]
    rw [hend, ← hll]
    exact Nat.mod_lt _ hL
  · rw [ha] at hf; cases hf
  · rw [ha] at hf; cases hf

theorem Committed.healthy {A' : Content} {s : World} (h : Healthy g di home w)
    (hs : Committed g di A' w s) : Healthy g di A'.home s :=
  h.retired hg hs.vol (by rw [hs.jnl]) (by rw [hs.jnl])
    ⟨hs.clean.home, Or.inl ⟨_, _, hs.clean⟩⟩

theorem CommitRefused.sim {A' : Content} {s : World} (h : Healthy g di home w)
    (ha : w.jnl.active = true)
    (hs : CommitRefused g di A' (Quiet g di home w.vol.logEnd) w s) :
    (Machine.on (Bfs.finish false s).2).Sim g di home ∨
      (Machine.on (Bfs.finish false s).2).Sim g di A'.home := by
  have hroom : 34 ≤ g.logLength := hg.room
  have hll : w.vol.logLength = g.logLength := by rw [h.geometry]
  have hL : 0 < w.vol.logLength := by omega
  rw [finish_false]
  cases hs with
  | log vol jnl before =>
    -- the snapshot is put back, and the disk is as quiet as it was
    obtain ⟨hv, hc, -⟩ := h.snapshot ha
    have hrest : s.vol.restoreSuperblock w.jnl.superblock =
        w.vol.restoreSuperblock w.jnl.superblock := by
      rcases vol with hvol | hvol <;> rw [hvol]
      rfl
    rw [jnl]
    simp only [hv, hc, Bool.not_false, Bool.and_self, if_true, hrest]
    exact Or.inl (Or.inl (h.restored ha rfl rfl rfl before))
  | checkpoint vol jnl es pending =>
    -- the log keeps the entry in memory and on the disk
    have hlen : es.length ≤ 32 := pending.txn.length
    have hne : s.vol.logStart ≠ s.vol.logEnd := by
      have := logPosition_ne (L := g.logLength) (show 0 < es.length + 1 by omega) (by omega)
        s.vol.logStart
      rwa [Nat.add_zero, Nat.mod_eq_of_lt pending.cursor, ← pending.ends] at this
    have hcur := (Volume.Coherent.of_open pending.opens).cursors
    rw [jnl]
    simp only [Bool.not_true, Bool.and_false]
    exact Or.inr (Or.inr ⟨⟨A'.used, Or.inr ⟨_, _, pending⟩⟩, hne, hcur.2,
      fun hf => absurd hf (by simp)⟩)
  | retire vol jnl es length pending home =>
    rw [jnl]
    simp only [Bool.false_and]
    exact Or.inr (Or.inl (h.retired hg vol rfl rfl ⟨home, Or.inr ⟨_, _, es, pending, by rw [vol]; rfl⟩⟩))

omit hg in
theorem crashAfter_eq {m : M Unit} {t : List Event} (ht : ∀ e ∈ t, Event.isWrite e = false)
    (hd : (m w).2.dev = { w.dev with trace := w.dev.trace ++ t }) (k : ℕ) :
    crashAfter m w k = w.dev.disk := by
  have htrail : w.dev.Trail (fun d => d = w.dev.disk) (m w).2.dev := by
    have h₀ : w.dev.Trail (fun d => d = w.dev.disk) w.dev := Device.Trail.refl rfl
    rw [hd]; exact h₀.discarded ht
  exact htrail.crash k

omit hg in
theorem Healthy.finish_nothing (h : Healthy g di home w) (hn : w.toCommit = []) :
    Healthy g di home (Bfs.finish true w).2 ∧
      ∀ k, crashAfter (Bfs.finish true) w k = w.dev.disk := by
  obtain ⟨t, ht, h₁, h₂, h₃, hv, hd⟩ := Bfs.finish_nothing hn
  refine ⟨?_, crashAfter_eq ht hd⟩
  have hq : Quiet g di home (Bfs.finish true w).2.vol.logEnd (Bfs.finish true w).2.dev.disk := by
    rw [hv, hd]; exact h.quiet
  refine ⟨hv ▸ h.coherent, hv ▸ h.writable, hv ▸ h.discard, hv ▸ h.geometry, hv ▸ h.empty,
    hv ▸ h.cursor, hq, fun _ => ?_, fun hf => ?_, fun hf => ?_⟩
  · rcases ha : w.jnl.active
    · rw [h₂ ha]; exact h.idle ha
    · exact h₁ ha
  · rw [h₃] at hf; exact absurd hf (by simp)
  · rw [h₃] at hf; exact absurd hf (by simp)

/-- A `finish(true)` with a transaction to commit: the state it ends in and the
    disks a crash leaves come to `home` with all of the transaction or none. -/
theorem Healthy.finish_commit (hroom : 66 ≤ g.logLength) (h : Healthy g di home w)
    (ha : w.jnl.active = true) (hne : w.jnl.entries ≠ []) :
    ((Machine.on (Bfs.finish true w).2).Sim g di home ∨
      (Machine.on (Bfs.finish true w).2).Sim g di (applyEntries g home w.jnl.entries)) ∧
    ∀ k, (Machine.off (crashAfter (Bfs.finish true) w k)).Sim g di home ∨
      (Machine.off (crashAfter (Bfs.finish true) w k)).Sim g di
        (applyEntries g home w.jnl.entries) := by
  have hc := h.committable hg hroom ha hne
  have hpost := hc.commit_post
  have hcrash : w.dev.Trail hc.Held (Bfs.finish true w).2.dev → ∀ k,
      (Machine.off (crashAfter (Bfs.finish true) w k)).Sim g di home ∨
      (Machine.off (crashAfter (Bfs.finish true) w k)).Sim g di
        (applyEntries g home w.jnl.entries) := by
    intro ht k
    rcases ht.crash k with hq | hr
    · exact Or.inl hq.recovers
    · exact Or.inr ⟨_, hr⟩
  rcases hr : Journal.commit w with ⟨_ | u, s⟩
  · rw [hr] at hpost
    obtain ⟨-, ht, hs⟩ := hpost
    have hf : (Bfs.finish true w).2 = (Bfs.finish false s).2 := by
      rw [Bfs.finish, Bool.not_true, if_neg (by decide), bind_of_none (onFail_of_none hr _)]
      rfl
    have hdev : (Bfs.finish false s).2.dev = s.dev := by rw [finish_false]
    exact ⟨hf ▸ hs.sim hg h ha, hcrash (by rw [hf, hdev]; exact ht)⟩
  · rw [hr] at hpost
    obtain ⟨ht, hs⟩ := hpost
    obtain ⟨t, hflush, hw⟩ := flushDiscards_cases s
    have hf : Bfs.finish true w = Allocator.flushDiscards s := by
      rw [Bfs.finish, Bool.not_true, if_neg (by decide), bind_of_some (onFail_of_some hr _)]
    have hh := hs.healthy hg h
    refine ⟨Or.inr (Or.inl ?_), hcrash ?_⟩
    · rw [hf, hflush]
      exact ⟨hh.coherent, hh.writable, hh.discard, hh.geometry, hh.empty, hh.cursor, hh.quiet,
        hh.idle, hh.snapshot, hh.entries⟩
    · rw [hf, hflush]; exact ht.discarded hw

omit hg in
theorem World.toCommit_cases (w : World) : w.toCommit = [] ∨
    w.toCommit = [w.jnl.entries] ∧ w.jnl.active = true ∧ w.jnl.entries ≠ [] := by
  unfold World.toCommit
  split_ifs with hc
  · rw [Bool.and_eq_true, Bool.not_eq_true', List.isEmpty_eq_false_iff] at hc
    exact Or.inr ⟨rfl, hc.1, hc.2⟩
  · exact Or.inl rfl

omit hg in
theorem Broken.finish_nothing (h : Broken g di home w) (hn : w.toCommit = []) :
    Broken g di home (Bfs.finish true w).2 ∧
      ∀ k, crashAfter (Bfs.finish true) w k = w.dev.disk := by
  obtain ⟨t, ht, h₁, h₂, -, hv, hd⟩ := Bfs.finish_nothing hn
  have hrec : ∃ u, Recoverable g di ⟨home, u⟩ (Bfs.finish true w).2.dev.disk := by
    rw [hd]; exact h.recovers
  refine ⟨⟨hrec, hv ▸ h.full, hv ▸ h.image, fun hs hc => ?_⟩, crashAfter_eq ht hd⟩
  rcases ha : w.jnl.active
  · rw [h₂ ha] at hs hc ⊢; exact h.snapshot hs hc
  · rw [h₁ ha] at hs; exact absurd hs (by simp)

/-! ## Runs -/

theorem Machine.Sim.boot (h : ∃ u, Recoverable g di ⟨home, u⟩ d) (refuse : ℕ → Bool)
    {m' : Machine} (hs : (Machine.off d).step di (.boot refuse) = some m') : m'.Sim g di home := by
  obtain ⟨u, hr⟩ := h
  obtain ⟨v, hm, hpost⟩ := mount_post hg (.on d refuse) hr
  simp only [Machine.step, hm] at hs
  rcases hrep : Journal.replay (.booted (.on d refuse) v) with ⟨_ | _, w⟩
  · rw [hrep] at hpost hs
    cases hs
    exact ⟨u, hpost.trail.last⟩
  · rw [hrep] at hpost hs
    obtain ⟨-, hc, hj⟩ := hpost
    cases hs
    have hopen := Volume.open_discard hc.opens
    refine Or.inl ⟨Volume.Coherent.of_open hc.opens, hopen.1, hopen.2, hc.geometry, hc.empty,
      hc.cursor, ⟨hc.home, Or.inl ⟨u, _, hc⟩⟩, fun _ => ?_, fun hf => ?_, fun hf => ?_⟩
    · rw [hj]; rfl
    · rw [hj] at hf; exact absurd hf (by simp [Journal.idle])
    · rw [hj] at hf; exact absurd hf (by simp [Journal.idle])

/-- **One step** keeps what the volume comes to, or applies the transaction it
    tries to commit. -/
theorem Machine.Sim.step (hroom : 66 ≤ g.logLength) {m m' : Machine} {a : Action}
    (h : m.Sim g di home) (hp : m.Promised g a) (he : m.LogEmpty a)
    (hs : m.step di a = some m') :
    ∃ ks, ks.Sublist (m.tries a) ∧ m'.Sim g di (applyTxns g home ks) := by
  have keep : m'.Sim g di home → ∃ ks, ks.Sublist (m.tries a) ∧
      m'.Sim g di (applyTxns g home ks) := fun h => ⟨[], List.nil_sublist _, h⟩
  rcases m with d | w
  · -- off: only mounts and crashes in them
    cases a <;> simp only [Machine.step, reduceCtorEq, Option.some.injEq] at hs
    case boot refuse => exact keep (Machine.Sim.boot hg h refuse (by simpa only [Machine.step] using hs))
    case crashBoot refuse k =>
      obtain ⟨u, hr⟩ := h
      exact keep (hs ▸ ⟨u, hr.crashMount hg refuse k⟩)
  · cases a <;> simp only [Machine.step, reduceCtorEq, Option.some.injEq] at hs <;> subst hs
    case begin => exact keep (h.imp Healthy.begin Broken.begin)
    case log block img =>
      obtain ⟨-, h₀, hb, hl⟩ := hp
      exact keep (h.imp (fun h => h.log img h₀ hb hl) fun h => h.log block img)
    case setUsed used => exact keep (h.imp (fun h => h.setUsed hp.2) fun h => h.setUsed used)
    case finish ok =>
      cases ok with
      | false => exact keep (h.imp Healthy.abort Broken.abort)
      | true =>
        rcases w.toCommit_cases with hn | ⟨hc, ha, hne⟩
        · exact keep (h.imp (fun h => (h.finish_nothing hn).1) fun h => (h.finish_nothing hn).1)
        · have hlog : w.vol.logStart = w.vol.logEnd := he w rfl (by
            simp only [Machine.tries, hc]; simp)
          rcases h with h | h
          · rcases (h.finish_commit hg hroom ha hne).1 with h' | h'
            · exact keep h'
            · exact ⟨[w.jnl.entries], by simp only [Machine.tries, hc]; exact List.Sublist.refl _, h'⟩
          · exact absurd hlog h.full
    case crash k =>
      rcases w.toCommit_cases with hn | ⟨hc, ha, hne⟩
      · rcases h with h | h
        · rw [(h.finish_nothing hn).2 k]; exact ⟨[], List.nil_sublist _, h.quiet.recovers⟩
        · rw [(h.finish_nothing hn).2 k]; exact ⟨[], List.nil_sublist _, h.recovers⟩
      · have hlog : w.vol.logStart = w.vol.logEnd := he w rfl (by
          simp only [Machine.tries, hc]; simp)
        rcases h with h | h
        · rcases (h.finish_commit hg hroom ha hne).2 k with h' | h'
          · exact keep h'
          · exact ⟨[w.jnl.entries], by simp only [Machine.tries, hc]; exact List.Sublist.refl _, h'⟩
        · exact absurd hlog h.full

/-- **A run** keeps what the volume comes to, with some of its transactions
    applied. -/
theorem Machine.Sim.run (hroom : 66 ≤ g.logLength) {m m' : Machine} {ts : List (List (ℕ × Buf))}
    (h : m.Sim g di home)
    (hr : Machine.Run di (fun m a => m.Promised g a ∧ m.LogEmpty a) m ts m') :
    ∃ ks, ks.Sublist ts ∧ m'.Sim g di (applyTxns g home ks) := by
  induction hr with
  | start => exact ⟨[], List.Sublist.refl _, h⟩
  | step _ hok hs ih =>
    obtain ⟨ks, hks, hm⟩ := ih
    obtain ⟨ks', hks', hm'⟩ := hm.step hg hroom hok.1 hok.2 hs
    refine ⟨ks ++ ks', hks.append hks', ?_⟩
    rw [applyTxns, List.foldl_append]
    exact hm'

end

/-- **A transaction is applied or not, for ever after.**  A clean volume is
    switched on and run; every commit starts on an empty log.  Then whatever
    commits were refused a write or cut short by a crash, at any state `m₁` of
    the run and any later one `m₂` the volume holds the transactions of some
    sublist whole, and the later one adds to those of the earlier. -/
theorem failed_commit_all_or_nothing {g : Geometry} {di : Bool} {d : Buf} {v : Volume}
    (hg : g.Sound) (hroom : 66 ≤ g.logLength) (hd : CleanAt g di d ⟨d, v.usedBlocks⟩ v)
    {m₁ m₂ : Machine} {ts₁ ts₂ : List (List (ℕ × Buf))}
    (h₁ : Machine.Run di (fun m a => m.Promised g a ∧ m.LogEmpty a) (.off d) ts₁ m₁)
    (h₂ : Machine.Run di (fun m a => m.Promised g a ∧ m.LogEmpty a) m₁ ts₂ m₂) :
    ∃ ks₁ ks₂, ks₁.Sublist ts₁ ∧ ks₂.Sublist ts₂ ∧ m₁.Holds g di (applyTxns g d ks₁) ∧
      m₂.Holds g di (applyTxns g (applyTxns g d ks₁) ks₂) := by
  have h₀ : (Machine.off d).Sim g di d := ⟨v.usedBlocks, Or.inl ⟨v, hd⟩⟩
  obtain ⟨ks₁, hk₁, hm₁⟩ := h₀.run hg hroom h₁
  obtain ⟨ks₂, hk₂, hm₂⟩ := hm₁.run hg hroom h₂
  exact ⟨ks₁, ks₂, hk₁, hk₂, hm₁.holds hg, hm₂.holds hg⟩

/-! ### A mixture

The sample volume's device refuses its sixth write: the second home write of a
transaction of two blocks.  The next transaction commits, and with it the log
cursor passes the first one's entry. -/

theorem mount_of_clean {g : Geometry} {di : Bool} {A : Content} {v : Volume} {d : Buf}
    (hg : g.Sound) (h : CleanAt g di d A v) (refuse : ℕ → Bool) :
    mount (.on d refuse) di = some (some (), .booted (.on d refuse) v) := by
  have hll : 2 ≤ v.logLength := by
    have : 34 ≤ g.logLength := hg.room
    rw [h.geometry]; omega
  have hable : Journal.openable v = true := by
    rw [Journal.openable, (Volume.open_discard h.opens).1, decide_eq_true hll,
      decide_eq_true (Volume.Coherent.of_open h.opens).checked.blockSize]
    rfl
  simp only [mount, Device.on, h.opens, hable, if_true]
  rw [Journal.replay, get_bind_run]
  exact congrArg some (congrFun (if_pos h.empty) _)

/-- Open a transaction and log the blocks `es` in it. -/
def World.opened (w : World) (es : List (ℕ × Buf)) : World :=
  { w with jnl := ⟨true, es, true, false, w.vol.superblock⟩ }

/-- The first transaction of the mixture is refused its second home write. -/
def mixtureFailed : World :=
  (finish true ((World.booted (.on sampleDisk (· == 5)) sampleVolume).opened
    [(600, fun _ => 1), (601, fun _ => 1)])).2

def mixture : World := (finish true (mixtureFailed.opened [(700, fun _ => 2)])).2

section
variable {di : Bool} {ok : Machine → Action → Prop} {m₀ : Machine} {w : World}
  {ts : List (List (ℕ × Buf))}

theorem Machine.Run.begin (h : Machine.Run di ok m₀ ts (.on w)) (hok : ok (.on w) .begin) :
    Machine.Run di ok m₀ ts (.on (w.opened [])) := by
  have := h.step hok (show _ = some (Machine.on (w.opened [])) from rfl)
  simpa only [Machine.tries, List.append_nil] using this

theorem Machine.Run.log {es : List (ℕ × Buf)} (h : Machine.Run di ok m₀ ts (.on (w.opened es)))
    (b : ℕ) (img : Buf) (hok : ok (.on (w.opened es)) (.log b img)) (hb : es.lookup b = none)
    (hl : es.length < kMaxJournalBlocks) :
    Machine.Run di ok m₀ ts (.on (w.opened (es ++ [(b, img)]))) := by
  have hlog : (Journal.log b img (w.opened es)).2 = w.opened (es ++ [(b, img)]) := by
    simp only [Journal.log, World.opened, get_bind_run, check, if_true, pure_bind_run, hb,
      Option.isSome_none, decide_eq_true hl]
    rfl
  have hs : (Machine.on (w.opened es)).step di (.log b img) =
      some (.on (w.opened (es ++ [(b, img)]))) := by rw [Machine.step, hlog]
  have := h.step hok hs
  simpa only [Machine.tries, List.append_nil] using this

theorem Machine.Run.finish {es : List (ℕ × Buf)} (h : Machine.Run di ok m₀ ts (.on (w.opened es)))
    (hok : ok (.on (w.opened es)) (.finish true)) (hne : es ≠ []) :
    Machine.Run di ok m₀ (ts ++ [es]) (.on (Bfs.finish true (w.opened es)).2) := by
  have := h.step hok rfl
  rw [Machine.tries, World.toCommit] at this
  simpa only [World.opened, Bool.true_and, List.isEmpty_eq_false_iff.2 hne, Bool.not_false,
    if_true] using this

theorem Machine.Run.boot {d : Buf} {g : Geometry} {A : Content} {v : Volume} (hg : g.Sound)
    (hc : CleanAt g di d A v) (refuse : ℕ → Bool) (h : Machine.Run di ok m₀ ts (.off d))
    (hok : ok (.off d) (.boot refuse)) :
    Machine.Run di ok m₀ ts (.on (.booted (.on d refuse) v)) := by
  have hs : (Machine.off d).step di (.boot refuse) =
      some (.on (.booted (.on d refuse) v)) := by
    simp only [Machine.step, mount_of_clean hg hc]
  have := h.step hok hs
  simpa only [Machine.tries, List.append_nil] using this

end

theorem mixture_run :
    Machine.Run false (fun m a => m.Promised sampleVolume.toGeometry a) (.off sampleDisk)
      [[(600, fun _ => 1), (601, fun _ => 1)], [(700, fun _ => 2)]] (.on mixture) := by
  have h₁ : Machine.Run false (fun m a => m.Promised sampleVolume.toGeometry a) (.off sampleDisk)
      [[(600, fun _ => 1), (601, fun _ => 1)]] (.on mixtureFailed) :=
    ((((Machine.Run.start.boot sampleVolume_sound sampleVolume_clean (· == 5) trivial).begin rfl).log
      600 (fun _ => 1) ⟨rfl, by decide⟩ rfl (by decide)).log
      601 (fun _ => 1) ⟨rfl, by decide⟩ rfl (by decide)).finish trivial (by simp)
  have hidle : mixtureFailed.jnl.active = false := by decide
  exact ((h₁.begin hidle).log 700 (fun _ => 2) ⟨rfl, by decide⟩ rfl (by decide)).finish trivial
    (by simp)

/-- The home blocks of the failed transaction hold one of its two images, so
    the volume holds no choice of transactions whole. -/
theorem failed_commit_mixture :
    Machine.Run false (fun m a => m.Promised sampleVolume.toGeometry a) (.off sampleDisk)
      [[(600, fun _ => 1), (601, fun _ => 1)], [(700, fun _ => 2)]] (.on mixture) ∧
    ¬ ∃ ks : List (List (ℕ × Buf)),
      ks.Sublist [[(600, fun _ => 1), (601, fun _ => 1)], [(700, fun _ => 2)]] ∧
      (Machine.on mixture).Holds sampleVolume.toGeometry false
        (applyTxns sampleVolume.toGeometry sampleDisk ks) := by
  refine ⟨mixture_run, ?_⟩
  rintro ⟨ks, hks, hh⟩
  have hempty : mixture.vol.logStart = mixture.vol.logEnd := by decide
  have hhome := hh.now mixture rfl hempty
  have hfirst := hhome (600 * 2048) (by unfold Geometry.InLog; decide)
    (by unfold Geometry.InSuper; decide)
  have hsecond := hhome (601 * 2048) (by unfold Geometry.InLog; decide)
    (by unfold Geometry.InSuper; decide)
  have h₁ : mixture.dev.disk (600 * 2048) = 1 := by decide
  have h₂ : mixture.dev.disk (601 * 2048) = 0 := by decide
  rw [h₁] at hfirst
  rw [h₂] at hsecond
  -- without the first transaction the first image is missing, with it the second is there
  cases hks with
  | cons _ hks =>
    cases hks with
    | cons _ hks => rw [List.sublist_nil.1 hks] at hfirst; exact absurd hfirst (by decide)
    | cons_cons _ hks => rw [List.sublist_nil.1 hks] at hfirst; exact absurd hfirst (by decide)
  | cons_cons _ hks =>
    cases hks with
    | cons _ hks => rw [List.sublist_nil.1 hks] at hsecond; exact absurd hsecond (by decide)
    | cons_cons _ hks => rw [List.sublist_nil.1 hks] at hsecond; exact absurd hsecond (by decide)

/-- The volume of the mixture, switched off after its failed commit. -/
theorem failed_commit_all_or_nothing_sample : ∃ ks₁ ks₂ : List (List (ℕ × Buf)),
    ks₁.Sublist [[(600, fun _ => 1), (601, fun _ => 1)]] ∧ ks₂.Sublist [] ∧
    (Machine.on mixtureFailed).Holds sampleVolume.toGeometry false
      (applyTxns sampleVolume.toGeometry sampleDisk ks₁) ∧
    (Machine.off mixtureFailed.dev.disk).Holds sampleVolume.toGeometry false
      (applyTxns sampleVolume.toGeometry (applyTxns sampleVolume.toGeometry sampleDisk ks₁) ks₂) := by
  have h₀ : Machine.Run false (fun m a => m.Promised sampleVolume.toGeometry a ∧ m.LogEmpty a)
      (.off sampleDisk) [] (.on ((World.booted (.on sampleDisk (· == 5)) sampleVolume).opened
        [(600, fun _ => 1), (601, fun _ => 1)])) :=
    (((Machine.Run.start.boot sampleVolume_sound sampleVolume_clean (· == 5)
      ⟨trivial, fun _ _ hne => absurd rfl hne⟩).begin ⟨rfl, fun _ _ hne => absurd rfl hne⟩).log
      600 (fun _ => 1) ⟨⟨rfl, by decide⟩, fun _ _ hne => absurd rfl hne⟩ rfl (by decide)).log
      601 (fun _ => 1) ⟨⟨rfl, by decide⟩, fun _ _ hne => absurd rfl hne⟩ rfl (by decide)
  have h₁ : Machine.Run false (fun m a => m.Promised sampleVolume.toGeometry a ∧ m.LogEmpty a)
      (.off sampleDisk) [[(600, fun _ => 1), (601, fun _ => 1)]] (.on mixtureFailed) :=
    h₀.finish ⟨trivial, fun w hw _ => by cases hw; rfl⟩ (by simp)
  have hidle : (Machine.on mixtureFailed).tries (.crash 0) = [] := by
    rw [Machine.tries, World.toCommit,
      show mixtureFailed.jnl.active = false by decide, Bool.false_and]
    exact if_neg (by decide)
  have hcrash : (Machine.on mixtureFailed).step false (.crash 0) =
      some (.off mixtureFailed.dev.disk) := rfl
  have h₂ : Machine.Run false (fun m a => m.Promised sampleVolume.toGeometry a ∧ m.LogEmpty a)
      (.on mixtureFailed) [] (.off mixtureFailed.dev.disk) := by
    have hok : (Machine.on mixtureFailed).Promised sampleVolume.toGeometry (.crash 0) ∧
        (Machine.on mixtureFailed).LogEmpty (.crash 0) :=
      ⟨trivial, fun _ _ hne => absurd hidle hne⟩
    have hstep := @Machine.Run.step false (fun m a => m.Promised sampleVolume.toGeometry a ∧
      m.LogEmpty a) _ _ _ _ _ .start hok hcrash
    rwa [hidle] at hstep
  exact failed_commit_all_or_nothing sampleVolume_sound (by decide) sampleVolume_clean h₁ h₂

end Aegir.Bfs
