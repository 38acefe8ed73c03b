/-
  Commit and replay against crashes.
-/
import Aegir.Bfs.Recovery
import Aegir.Lib.Crash

namespace Aegir.Bfs

open Aegir.Lib Aegir.Lib.Buf Aegir.Lib.Fallible

/-! ## Which bytes a write touches -/

section
variable {g : Geometry} {d : Buf} (hg : g.Sound)
include hg

theorem Geometry.Sound.blockSize_pos : 0 < g.blockSize := by
  have := hg.blockSize_ge
  omega

theorem blit_log {q : ℕ} (hq : q < g.logLength) (img : Buf) {a : ℕ} (ha : ¬ g.InLog a) :
    blit d ((g.logBlock + q) * g.blockSize) img g.blockSize a = d a := by
  rw [blit_block hg.blockSize_pos, if_neg]
  intro h
  exact ha ⟨by omega, by omega⟩

theorem blit_home {b : ℕ} (h₀ : 0 < b) (hb : b < g.logBlock ∨ g.logBlock + g.logLength ≤ b)
    (img : Buf) {a : ℕ} (ha : g.InLog a ∨ Geometry.InSuper a) :
    blit d (b * g.blockSize) img g.blockSize a = d a := by
  rw [blit_block hg.blockSize_pos, if_neg]
  rintro rfl
  rcases ha with ⟨h₁, h₂⟩ | ha
  · omega
  · rw [hg.block_of_super ha] at h₀; omega

omit hg in
theorem blit_super {sb : Buf} {a : ℕ} (ha : ¬ Geometry.InSuper a) :
    blit d kSuperblockOffset sb kSuperblockBytes a = d a := by
  refine blit_of_notMem ?_
  unfold Geometry.InSuper at ha
  omega

theorem log_of_blit_super {sb : Buf} {a : ℕ} (ha : g.InLog a) :
    blit d kSuperblockOffset sb kSuperblockBytes a = d a :=
  blit_super fun h => hg.not_inLog_of_super h ha

end

/-! ## Disks that recover -/

/-- What a volume holds: its home blocks, and how many blocks are in use. -/
structure Content where
  home : Buf
  used : ℕ

def Content.after (g : Geometry) (A : Content) (es : List (ℕ × Buf)) (used : ℕ) : Content :=
  ⟨applyEntries g A.home es, used⟩

/-- The disk holds the content `A` and an empty log. -/
structure CleanAt (g : Geometry) (di : Bool) (d : Buf) (A : Content) (v : Volume) : Prop where
  opens : Volume.open d true di = some v
  geometry : v.toGeometry = g
  empty : v.logStart = v.logEnd
  cursor : v.logEnd < g.logLength
  clean : v.clean = true
  home : g.HomeEq d A.home
  used : v.usedBlocks = A.used

/-- The log of the disk holds the entry `es`, which makes its homes those of
    `A`. -/
structure PendingAt (g : Geometry) (di : Bool) (d : Buf) (A : Content) (v : Volume)
    (es : List (ℕ × Buf)) : Prop where
  opens : Volume.open d true di = some v
  geometry : v.toGeometry = g
  cursor : v.logStart < g.logLength
  ends : v.logEnd = (v.logStart + (es.length + 1)) % g.logLength
  txn : Txn g es
  held : LogHolds g d v.logStart (buildArray g es :: es.map Prod.snd)
  home : g.HomeEq (applyEntries g d es) A.home
  used : v.usedBlocks = A.used

/-- A mount brings the disk to the content `A`. -/
def Recoverable (g : Geometry) (di : Bool) (A : Content) (d : Buf) : Prop :=
  (∃ v, CleanAt g di d A v) ∨ ∃ v es, PendingAt g di d A v es

section
variable {g : Geometry} {di : Bool} {d : Buf} {A : Content} {v v' : Volume} {es : List (ℕ × Buf)}
  (hg : g.Sound)
include hg

theorem CleanAt.log_write (h : CleanAt g di d A v) {q : ℕ} (hq : q < g.logLength) (img : Buf) :
    CleanAt g di (blit d ((g.logBlock + q) * g.blockSize) img g.blockSize) A v :=
  { h with
    opens := (Volume.open_congr fun _ h₁ h₂ =>
      blit_log hg hq img (hg.not_inLog_of_super ⟨h₁, h₂⟩)).trans h.opens
    home := fun a h₁ h₂ => (blit_log hg hq img h₁).trans (h.home a h₁ h₂) }

theorem PendingAt.log_write (h : PendingAt g di d A v es) {j : ℕ} (hj : es.length + 1 ≤ j)
    (hjL : j < g.logLength) (img : Buf) :
    PendingAt g di (blit d ((g.logBlock + (v.logStart + j) % g.logLength) * g.blockSize) img
      g.blockSize) A v es := by
  have hq : (v.logStart + j) % g.logLength < g.logLength := Nat.mod_lt _ (by omega)
  exact { h with
    opens := (Volume.open_congr fun _ h₁ h₂ =>
      blit_log hg hq img (hg.not_inLog_of_super ⟨h₁, h₂⟩)).trans h.opens
    held := h.held.blit_past (by simpa using hj) hjL
    home := (applyEntries_homeEq hg.blockSize_pos h.txn.nodup fun a h₁ _ =>
      blit_log hg hq img h₁).trans h.home }

theorem PendingAt.home_write (h : PendingAt g di d A v es) {b : ℕ} (hb : b ∈ es.map Prod.fst)
    (img : Buf) : PendingAt g di (blit d (b * g.blockSize) img g.blockSize) A v es := by
  obtain ⟨h₀, -, hlog⟩ := h.txn.target b hb
  have hL : 0 < g.logLength := lt_of_le_of_lt (Nat.zero_le _) h.cursor
  exact { h with
    opens := (Volume.open_congr fun _ h₁ h₂ =>
      blit_home hg h₀ hlog img (Or.inr ⟨h₁, h₂⟩)).trans h.opens
    held := h.held.congr hL fun a ha => blit_home hg h₀ hlog img (Or.inl ha)
    home := by rw [applyEntries_blit hg.blockSize_pos h.txn.nodup hb]; exact h.home }

theorem PendingAt.of_record (hv : v.Coherent) (hw : v.writable = true) (hd : v.discard = di)
    (hgeo : v.toGeometry = g) (hs : v.logStart < g.logLength)
    (he : v.logEnd = (v.logStart + (es.length + 1)) % g.logLength) (ht : Txn g es)
    (hl : LogHolds g d v.logStart (buildArray g es :: es.map Prod.snd))
    (hh : g.HomeEq (applyEntries g d es) A.home) (hu : v.usedBlocks = A.used) :
    PendingAt g di (blit d kSuperblockOffset v.superblock kSuperblockBytes) A v es where
  opens := by rw [← hd, ← hw]; exact hv.open_written d
  geometry := hgeo
  cursor := hs
  ends := he
  txn := ht
  held := hl.congr (by omega) fun a ha => log_of_blit_super hg ha
  home := (applyEntries_homeEq hg.blockSize_pos ht.nodup fun a _ ha => blit_super ha).trans hh
  used := hu

omit hg in
theorem CleanAt.of_retired (hv : v.Coherent) (hw : v.writable = true) (hd : v.discard = di)
    (hgeo : v.toGeometry = g) (hs : v.logStart = v.logEnd) (he : v.logEnd < g.logLength)
    (hc : v.clean = true) (hh : g.HomeEq d A.home) (hu : v.usedBlocks = A.used) :
    CleanAt g di (blit d kSuperblockOffset v.superblock kSuperblockBytes) A v where
  opens := by rw [← hd, ← hw]; exact hv.open_written d
  geometry := hgeo
  empty := hs
  cursor := he
  clean := hc
  home := Geometry.HomeEq.trans (fun a _ ha => blit_super ha) hh
  used := hu

end

/-! ## Trails -/

/-- `s` is `d` after more requests, and `P` held of the disk before the first
    of them and after each. -/
structure Device.Trail (P : Buf → Prop) (d s : Device) : Prop where
  refuse : s.refuse = d.refuse
  served : ∃ t, s.trace = d.trace ++ t ∧ s.disk = applyAll d.disk t ∧ Safe Event.apply P d.disk t

def Device.refused (d : Device) : Device := { d with asked := d.asked + 1 }

def Device.wrote (d : Device) (pos : ℕ) (img : Buf) (len : ℕ) : Device :=
  { d with
    disk := blit d.disk pos img len
    trace := d.trace ++ [.write pos img len]
    asked := d.asked + 1 }

namespace Device.Trail

variable {P Q : Buf → Prop} {d s : Device}

theorem refl (h : P d.disk) : Trail P d d := ⟨rfl, [], by simp, rfl, by simpa using h⟩

theorem last (h : Trail P d s) : P s.disk := by
  obtain ⟨t, -, hd, hs⟩ := h.served
  rw [hd]; exact hs.last

theorem mono (h : Trail P d s) (hPQ : ∀ x, P x → Q x) : Trail Q d s := by
  obtain ⟨t, h₁, h₂, h₃⟩ := h.served
  exact ⟨h.refuse, t, h₁, h₂, h₃.mono hPQ⟩

theorem refused (h : Trail P d s) : Trail P d s.refused := ⟨h.refuse, h.served⟩

theorem wrote (h : Trail P d s) {pos len : ℕ} {img : Buf} (hp : P (blit s.disk pos img len)) :
    Trail P d (s.wrote pos img len) := by
  obtain ⟨t, h₁, h₂, h₃⟩ := h.served
  refine ⟨h.refuse, t ++ [.write pos img len], ?_, ?_, ?_⟩
  · simp only [Device.wrote, h₁, List.append_assoc]
  · simp only [Device.wrote, applyAll, List.foldl_append, h₂]; rfl
  · refine h₃.append (Safe.cons_iff.2 ⟨h₃.last, ?_⟩)
    rw [Safe.nil_iff]
    rw [h₂] at hp
    exact hp

theorem crash (h : Trail P d s) (k : ℕ) :
    P (applyAll d.disk ((s.trace.drop d.trace.length).take k)) := by
  obtain ⟨t, h₁, -, h₃⟩ := h.served
  rw [h₁, List.drop_left]
  exact h₃ k

end Device.Trail

section
variable {w : World} {Q : Unit → World → Prop} {E : World → Prop}

theorem devWrite_post {pos len : ℕ} {img : Buf}
    (hq : Q () { w with dev := w.dev.wrote pos img len })
    (he : w.dev.refuse w.dev.asked = true → E { w with dev := w.dev.refused }) :
    Post Q E (devWrite pos img len w) := by
  unfold devWrite
  by_cases h : w.dev.refuse w.dev.asked = true
  · rw [if_pos h]; exact he h
  · rw [if_neg h]; exact hq

theorem writeBlockNow_post {b : ℕ} {img : Buf} (hw : w.vol.writable = true)
    (hq : Q () { w with dev := w.dev.wrote (b * w.vol.blockBytes) img w.vol.blockBytes })
    (he : w.dev.refuse w.dev.asked = true → E { w with dev := w.dev.refused }) :
    Post Q E (writeBlockNow b img w) := by
  simp only [writeBlockNow, get_bind_run, check, hw, if_true, pure_bind_run]
  exact devWrite_post hq he

theorem writeSuperblockNow_post (hw : w.vol.writable = true)
    (hq : Q () { w with dev := w.dev.wrote kSuperblockOffset w.vol.superblock kSuperblockBytes })
    (he : w.dev.refuse w.dev.asked = true → E { w with dev := w.dev.refused }) :
    Post Q E (writeSuperblockNow w) := by
  simp only [writeSuperblockNow, get_bind_run, check, hw, if_true, pure_bind_run]
  exact devWrite_post hq he

end

/-! ## Commit -/

/-- The state a commit starts from: an empty log in memory, an open transaction
    on top of the content `A`, and a disk of which `B` holds.  `B` says that the
    homes are those of `A`, and is kept by the writes of the entry to the log. -/
structure Committable (g : Geometry) (di : Bool) (A : Content) (B : Buf → Prop) (w : World) :
    Prop where
  sound : g.Sound
  coherent : w.vol.Coherent
  writable : w.vol.writable = true
  discard : w.vol.discard = di
  geometry : w.vol.toGeometry = g
  empty : w.vol.logStart = w.vol.logEnd
  cursor : w.vol.logEnd < g.logLength
  active : w.jnl.active = true
  txn : Txn g w.jnl.entries
  before : B w.dev.disk
  home : ∀ d, B d → g.HomeEq d A.home
  log_write : ∀ d j img, j ≤ w.jnl.entries.length → B d →
    B (blit d ((g.logBlock + (w.vol.logEnd + j) % g.logLength) * g.blockSize) img g.blockSize)

/-- The volume in memory once the entry of `n` blocks is committed. -/
def Volume.recorded (v : Volume) (n : ℕ) : Volume :=
  (v.setLogEnd ((v.logEnd + (n + 1)) % v.logLength)).setFlags kDirty

/-- The volume in memory once the entry of `n` blocks is retired. -/
def Volume.retired (v : Volume) (n : ℕ) : Volume :=
  ((v.recorded n).setLogStart ((v.logEnd + (n + 1)) % v.logLength)).setFlags kClean

theorem Volume.recorded_toGeometry (v : Volume) (n : ℕ) :
    (v.recorded n).toGeometry = v.toGeometry := by
  unfold Volume.recorded Volume.setLogEnd Volume.setFlags; rfl

theorem Volume.retired_toGeometry (v : Volume) (n : ℕ) :
    (v.retired n).toGeometry = v.toGeometry := by
  unfold Volume.retired Volume.setLogStart Volume.setFlags; exact v.recorded_toGeometry n

/-- A commit of `w` to the content `A'` went through. -/
structure Committed (g : Geometry) (di : Bool) (A' : Content) (w s : World) : Prop where
  vol : s.vol = w.vol.retired w.jnl.entries.length
  jnl : s.jnl = { w.jnl with
    active := false, entries := [], committed := false, snapshotValid := false }
  clean : CleanAt g di s.dev.disk A' s.vol

/-- A commit of `w` to the content `A'` was refused a write of the log or the
    commit record, of the checkpoint, or the retiring superblock write. -/
inductive CommitRefused (g : Geometry) (di : Bool) (A' : Content) (B : Buf → Prop) (w s : World) :
    Prop where
  | log (vol : s.vol = w.vol ∨ s.vol = w.vol.recorded w.jnl.entries.length)
      (jnl : s.jnl = { w.jnl with active := false, entries := [] }) (before : B s.dev.disk)
  | checkpoint (vol : s.vol = w.vol.recorded w.jnl.entries.length)
      (jnl : s.jnl = { w.jnl with active := false, entries := [], committed := true })
      (es : List (ℕ × Buf)) (pending : PendingAt g di s.dev.disk A' s.vol es)
  | retire (vol : s.vol = w.vol.retired w.jnl.entries.length)
      (jnl : s.jnl = { w.jnl with
        active := false, entries := [], committed := false, snapshotValid := false })
      (es : List (ℕ × Buf)) (length : es.length = w.jnl.entries.length)
      (pending : PendingAt g di s.dev.disk A' (w.vol.recorded w.jnl.entries.length) es)
      (home : g.HomeEq s.dev.disk A'.home)

section
variable {g : Geometry} {di : Bool} {A : Content} {B : Buf → Prop} {w s : World}

/-- The images `imgs` of the entry are in the log. -/
structure Logged (g : Geometry) (B : Buf → Prop) (w : World) (imgs : List Buf) (s : World) :
    Prop where
  vol : s.vol = w.vol
  jnl : s.jnl = { w.jnl with active := false }
  trail : w.dev.Trail B s.dev
  held : LogHolds g s.dev.disk w.vol.logEnd imgs

/-- The log phase was refused a write. -/
structure LogRefused (B : Buf → Prop) (w s : World) : Prop where
  refused : ∃ n, w.dev.refuse n = true
  vol : s.vol = w.vol
  jnl : s.jnl = { w.jnl with active := false, entries := [] }
  trail : w.dev.Trail B s.dev

variable (h : Committable g di A B w)
include h

theorem Committable.log_one {imgs : List Buf} (hs : Logged g B w imgs s) (img : Buf)
    (hi : imgs.length ≤ w.jnl.entries.length) :
    Post (fun _ => Logged g B w (imgs ++ [img])) (LogRefused B w)
      ((writeBlockNow (g.logBlock + (w.vol.logEnd + imgs.length) % g.logLength) img).onFail
        Journal.dropEntries s) := by
  have hr : imgs.length < g.logLength := by
    have := h.txn.length
    have := h.sound.room
    omega
  have hbytes : s.vol.blockBytes = g.blockSize := by
    rw [hs.vol, h.geometry, h.sound.blockBytes]
  refine Post.onFail (E := fun s' => (∃ n, w.dev.refuse n = true) ∧ s'.vol = w.vol ∧
    s'.jnl = { w.jnl with active := false } ∧ w.dev.Trail B s'.dev) ?_ ?_
  · refine writeBlockNow_post (by rw [hs.vol, h.writable]) ?_ ?_
    · rw [hbytes]
      exact ⟨hs.vol, hs.jnl, hs.trail.wrote (h.log_write _ _ _ hi hs.trail.last), hs.held.snoc hr⟩
    · intro he
      exact ⟨⟨_, by rw [← hs.trail.refuse]; exact he⟩, hs.vol, hs.jnl, hs.trail.refused⟩
  · rintro s' ⟨h₁, h₂, h₃, h₄⟩
    exact ⟨h₁, h₂, by simp only [Journal.dropEntries, modifyJnl, modify_run, h₃], h₄⟩

theorem Committable.writeLog_post (rest : List (ℕ × Buf)) {imgs : List Buf}
    (hn : imgs.length + rest.length = w.jnl.entries.length + 1) (hs : Logged g B w imgs s) :
    Post (fun position s' => position = (w.vol.logEnd + (w.jnl.entries.length + 1)) % g.logLength ∧
        Logged g B w (imgs ++ rest.map Prod.snd) s') (LogRefused B w)
      (Journal.writeLog g.logBlock g.logLength ((w.vol.logEnd + imgs.length) % g.logLength) rest s) := by
  induction rest generalizing imgs s with
  | nil =>
    rw [List.length_nil, Nat.add_zero] at hn
    rw [Journal.writeLog, List.map_nil, List.append_nil, hn]
    exact ⟨rfl, hs⟩
  | cons e rest ih =>
    rw [List.length_cons] at hn
    have hnext : ((w.vol.logEnd + imgs.length) % g.logLength + 1) % g.logLength =
        (w.vol.logEnd + (imgs ++ [e.2]).length) % g.logLength := by
      rw [Nat.mod_add_mod, List.length_append, List.length_singleton, Nat.add_assoc]
    rw [Journal.writeLog, hnext]
    refine Post.bind (h.log_one hs _ (by omega)) fun _ s' hs' => ?_
    have := ih (by rw [List.length_append, List.length_singleton]; omega) hs'
    rwa [List.append_assoc] at this

omit h in
theorem Volume.Coherent.recorded {v : Volume} (hv : v.Coherent) (hL : 0 < v.logLength) (n : ℕ) :
    (v.recorded n).Coherent := by
  have h₁ : v.logLength < 2 ^ 16 := hv.checked.log.length
  have h₂ : (v.logEnd + (n + 1)) % v.logLength < v.logLength := Nat.mod_lt _ hL
  exact (hv.setLogEnd (by omega)).setFlags _

omit h in
theorem Volume.Coherent.retired {v : Volume} (hv : v.Coherent) (hL : 0 < v.logLength) (n : ℕ) :
    (v.retired n).Coherent := by
  have h₁ : v.logLength < 2 ^ 16 := hv.checked.log.length
  have h₂ : (v.logEnd + (n + 1)) % v.logLength < v.logLength := Nat.mod_lt _ hL
  exact ((hv.recorded hL n).setLogStart (by omega)).setFlags _

omit h in
theorem Volume.clean_setFlags (v : Volume) : (v.setFlags kClean).clean = true := by
  rw [Volume.clean, Volume.setFlags, le_put_of_lt (by decide)]
  rfl

def Committable.target (_ : Committable g di A B w) : Content :=
  A.after g w.jnl.entries w.vol.usedBlocks

def Committable.Held (_ : Committable g di A B w) (d : Buf) : Prop :=
  B d ∨ Recoverable g di (A.after g w.jnl.entries w.vol.usedBlocks) d

theorem Committable.record
    (hs : Logged g B w (buildArray g (sortEntries g w.jnl.entries) ::
      (sortEntries g w.jnl.entries).map Prod.snd) s) :
    PendingAt g di (blit s.dev.disk kSuperblockOffset (w.vol.recorded w.jnl.entries.length).superblock
      kSuperblockBytes) h.target (w.vol.recorded w.jnl.entries.length)
      (sortEntries g w.jnl.entries) := by
  have hp := sortEntries_perm (g := g) w.jnl.entries
  have hL : 0 < w.vol.logLength := by
    have := h.sound.room
    rw [h.geometry]; omega
  refine PendingAt.of_record h.sound (h.coherent.recorded hL _) h.writable h.discard h.geometry
    (h.empty ▸ h.cursor) ?_ (h.txn.perm hp) ?_ ?_ rfl
  · rw [hp.length_eq]
    change (w.vol.logEnd + _) % w.vol.logLength = (w.vol.logStart + _) % _
    rw [h.empty, h.geometry]
  · change LogHolds g _ w.vol.logStart _
    rw [h.empty]; exact hs.held
  · rw [applyEntries_perm h.sound.blockSize_pos h.txn.nodup hp]
    exact applyEntries_homeEq h.sound.blockSize_pos h.txn.nodup (h.home _ hs.trail.last)

/-- The entries of `done` have been written home, with the entry committed. -/
structure Checkpointed (h : Committable g di A B w) (done : List (ℕ × Buf)) (s : World) :
    Prop where
  vol : s.vol = w.vol.recorded w.jnl.entries.length
  jnl : s.jnl = { w.jnl with active := false, committed := true }
  trail : w.dev.Trail h.Held s.dev
  pending : PendingAt g di s.dev.disk h.target (w.vol.recorded w.jnl.entries.length)
    (sortEntries g w.jnl.entries)
  applied : Applied g s.dev.disk done

theorem Committable.checkpoint_post (hs : Checkpointed h [] s) :
    Post (fun _ => Checkpointed h w.jnl.entries)
      (fun s' => (∃ n, w.dev.refuse n = true) ∧ s'.vol = w.vol.recorded w.jnl.entries.length ∧
        s'.jnl = { w.jnl with active := false, entries := [], committed := true } ∧
        w.dev.Trail h.Held s'.dev ∧ PendingAt g di s'.dev.disk h.target
          (w.vol.recorded w.jnl.entries.length) (sortEntries g w.jnl.entries))
      (Journal.checkpoint w.jnl.entries s) := by
  refine Post.forEach (Checkpointed h) hs fun done e rest hl s hs => ?_
  have hmem : e.1 ∈ (sortEntries g w.jnl.entries).map Prod.fst := by
    refine List.mem_map_of_mem ((sortEntries_perm (g := g) _).mem_iff.2 ?_)
    rw [hl]; simp
  have hnew : e.1 ∉ done.map Prod.fst := by
    have := h.txn.nodup
    rw [hl, List.map_append, List.nodup_append] at this
    exact fun hd => this.2.2 _ hd _ (by simp) rfl
  have hbytes : s.vol.blockBytes = g.blockSize := by
    rw [hs.vol]
    change w.vol.blockBytes = _
    rw [h.geometry, h.sound.blockBytes]
  have hw : s.vol.writable = true := by rw [hs.vol]; exact h.writable
  refine Post.onFail (E := fun s' => (∃ n, w.dev.refuse n = true) ∧ Checkpointed h done s') ?_ ?_
  · refine writeBlockNow_post hw ?_ fun he => ⟨⟨_, by rw [← hs.trail.refuse]; exact he⟩, ?_⟩
    · have hp := hs.pending.home_write h.sound hmem e.2
      rw [hbytes]
      exact ⟨hs.vol, hs.jnl, hs.trail.wrote (Or.inr (Or.inr ⟨_, _, hp⟩)), hp,
        hs.applied.snoc hnew fun _ _ => rfl⟩
    · exact ⟨hs.vol, hs.jnl, hs.trail.refused, hs.pending, hs.applied⟩
  · rintro s' ⟨hr, hs'⟩
    exact ⟨hr, hs'.vol, by simp only [Journal.dropEntries, modifyJnl, modify_run, hs'.jnl],
      hs'.trail, hs'.pending⟩

omit h in
theorem Volume.freeBlocks_of_empty {v : Volume} (hv : v.Coherent) (he : v.logStart = v.logEnd) :
    v.freeBlocks = v.logLength := by
  have h₁ : v.logLength < 2 ^ 16 := hv.checked.log.length
  have h₂ : v.logEnd < 2 ^ 64 := by
    rw [hv.cursors.2.2]
    exact (le_lt 8 _ _).trans_eq (by norm_num)
  have h₃ : (v.logEnd + v.logLength + (2 ^ 64 - v.logStart)) % 2 ^ 64 = v.logLength := by
    rw [he, show v.logEnd + v.logLength + (2 ^ 64 - v.logEnd) = v.logLength + 2 ^ 64 by omega,
      Nat.add_mod_right, Nat.mod_eq_of_lt (by omega)]
  rw [Volume.freeBlocks, h₃, Nat.mod_self, Nat.sub_zero]

theorem Committable.fits : ¬ (w.vol.freeBlocks < w.jnl.entries.length + 1 ∨
    RunArray.maxRuns w.vol.blockSize - 1 < w.jnl.entries.length) := by
  have h₁ := h.txn.length
  have h₂ := h.sound.room
  have h₃ : w.vol.logLength = g.logLength := by rw [h.geometry]
  have h₄ : kMaxJournalBlocks = 32 := rfl
  rw [Volume.freeBlocks_of_empty h.coherent h.empty, h.geometry, h.sound.maxRuns]
  omega

theorem Committable.record_post
    (hs : Logged g B w (buildArray g (sortEntries g w.jnl.entries) ::
      (sortEntries g w.jnl.entries).map Prod.snd) s) :
    Post (fun _ s' => Checkpointed h [] { s' with jnl := { s'.jnl with committed := true } })
      (fun s' => (∃ n, w.dev.refuse n = true) ∧ w.dev.Trail h.Held s'.dev ∧
        CommitRefused g di h.target B w s')
      (writeSuperblockNow.onFail Journal.dropEntries
        { s with vol := w.vol.recorded w.jnl.entries.length }) := by
  have htrail : w.dev.Trail h.Held s.dev := hs.trail.mono fun _ => Or.inl
  refine Post.onFail (E := fun s' => (∃ n, w.dev.refuse n = true) ∧
    s' = ⟨s.dev.refused, w.vol.recorded w.jnl.entries.length, { w.jnl with active := false },
      s.alloc⟩) ?_ ?_
  · refine writeSuperblockNow_post h.writable ?_ fun he => ?_
    · have hp := h.record hs
      exact ⟨rfl, by simp only [hs.jnl], htrail.wrote (Or.inr (Or.inr ⟨_, _, hp⟩)), hp,
        fun e he => by simp at he⟩
    · exact ⟨⟨_, by rw [← hs.trail.refuse]; exact he⟩, by rw [hs.jnl]⟩
  · rintro s' ⟨hr, rfl⟩
    exact ⟨hr, htrail.refused, .log (Or.inr rfl) rfl hs.trail.last⟩

theorem Committable.retire_post (hs : Checkpointed h w.jnl.entries s) :
    Post (fun _ s' => w.dev.Trail h.Held s'.dev ∧ Committed g di h.target w s')
      (fun s' => (∃ n, w.dev.refuse n = true) ∧ w.dev.Trail h.Held s'.dev ∧
        CommitRefused g di h.target B w s')
      (writeSuperblockNow { s with
        vol := w.vol.retired w.jnl.entries.length
        jnl := { w.jnl with
          active := false, entries := [], committed := false, snapshotValid := false } }) := by
  have hL : 0 < w.vol.logLength := by
    have := h.sound.room
    rw [h.geometry]; omega
  have hperm := sortEntries_perm (g := g) w.jnl.entries
  -- every image is at home, so the entry makes nothing of the disk any more
  have hhome : g.HomeEq s.dev.disk h.target.home := by
    have := hs.pending.home
    rwa [applyEntries_perm h.sound.blockSize_pos h.txn.nodup hperm,
      hs.applied.eq h.sound.blockSize_pos h.txn.nodup] at this
  refine writeSuperblockNow_post h.writable ?_ fun he => ⟨⟨_, by rw [← hs.trail.refuse]; exact he⟩, ?_⟩
  · have hclean : CleanAt g di (blit s.dev.disk kSuperblockOffset
        (w.vol.retired w.jnl.entries.length).superblock kSuperblockBytes) h.target
        (w.vol.retired w.jnl.entries.length) := by
      refine CleanAt.of_retired (h.coherent.retired hL _) h.writable h.discard h.geometry rfl ?_
        (Volume.clean_setFlags _) hhome rfl
      change (w.vol.logEnd + _) % w.vol.logLength < _
      rw [← h.geometry]; exact Nat.mod_lt _ hL
    exact ⟨hs.trail.wrote (Or.inr (Or.inl ⟨_, hclean⟩)), rfl, rfl, hclean⟩
  · exact ⟨hs.trail.refused, .retire rfl rfl _ hperm.length_eq hs.pending hhome⟩

/-- **Commit.**  Whatever the device refuses, each write leaves a disk that is
    still `B` or recovers to the new content. -/
theorem Committable.commit_post :
    Post (fun _ s => w.dev.Trail h.Held s.dev ∧ Committed g di h.target w s)
      (fun s => (∃ n, w.dev.refuse n = true) ∧ w.dev.Trail h.Held s.dev ∧
        CommitRefused g di h.target B w s)
      (Journal.commit w) := by
  have hne : w.jnl.entries.isEmpty = false := by
    rw [List.isEmpty_eq_false_iff]; exact h.txn.ne
  have hlen := (sortEntries_perm (g := g) w.jnl.entries).length_eq
  have hlog : ∀ s, LogRefused B w s → (∃ n, w.dev.refuse n = true) ∧
      w.dev.Trail h.Held s.dev ∧ CommitRefused g di h.target B w s := fun s hs =>
    ⟨hs.refused, hs.trail.mono fun _ => Or.inl, .log (Or.inl hs.vol) hs.jnl hs.trail.last⟩
  rw [Journal.commit, get_bind_run, h.active, Bool.not_true, if_neg (by decide), modifyJnl,
    modify_bind_run, hne, if_neg (by decide), if_neg h.fits]
  have hcur : w.vol.logEnd = (w.vol.logEnd + 0) % g.logLength := by
    rw [Nat.add_zero, Nat.mod_eq_of_lt h.cursor]
  have hlb : w.vol.toBlock w.vol.log = g.logBlock := by rw [h.geometry, Geometry.logBlock]
  have hll : w.vol.logLength = g.logLength := by rw [h.geometry]
  have hstart : Logged g B w [] { w with jnl := { w.jnl with active := false } } :=
    ⟨rfl, rfl, Device.Trail.refl h.before, fun j hj => absurd hj (Nat.not_lt_zero j)⟩
  have harr := h.log_one hstart (buildArray g (sortEntries g w.jnl.entries)) (Nat.zero_le _)
  rw [List.length_nil, ← hcur] at harr
  rw [hlb, hll, h.geometry]
  refine Post.bind (harr.mono (fun _ _ hs => hs) hlog) fun _ s hs => ?_
  have hdata := h.writeLog_post _ (by rw [hlen]; simp [Nat.add_comm]) hs
  refine Post.bind (hdata.mono (fun _ _ hs => hs) hlog) ?_
  rintro position s' ⟨rfl, hs'⟩
  have hrec : (s'.vol.setLogEnd ((w.vol.logEnd + (w.jnl.entries.length + 1)) % g.logLength)).setFlags
      kDirty = w.vol.recorded w.jnl.entries.length := by rw [hs'.vol, ← hll]; rfl
  rw [modifyVol, modify_bind_run, hrec]
  refine Post.bind (h.record_post hs') fun _ s₁ hs₁ => ?_
  rw [modifyJnl, modify_bind_run]
  refine Post.bind ((h.checkpoint_post hs₁).mono (fun _ _ hs => hs) ?_) fun _ s₂ hs₂ => ?_
  · rintro s₂ ⟨hr, hv, hj, ht, hp⟩
    exact ⟨hr, ht, .checkpoint hv hj _ (hv ▸ hp)⟩
  · have hret : (s₂.vol.setLogStart ((w.vol.logEnd + (w.jnl.entries.length + 1)) %
        g.logLength)).setFlags kClean = w.vol.retired w.jnl.entries.length := by
      rw [hs₂.vol, ← hll]; rfl
    rw [modifyVol, modify_bind_run, modifyJnl, modify_bind_run, hret, hs₂.jnl]
    exact h.retire_post (s := s₂) hs₂

end

/-! ## Replay -/

section
variable {g : Geometry} {di : Bool} {A : Content} {v : Volume} {es : List (ℕ × Buf)} {w s : World}

/-- The first `i` images of the pending entry have been copied home. -/
structure Replayed (g : Geometry) (di : Bool) (A : Content) (es : List (ℕ × Buf)) (w : World)
    (i : ℕ) (s : World) : Prop where
  vol : s.vol = w.vol
  jnl : s.jnl = w.jnl
  trail : w.dev.Trail (Recoverable g di A) s.dev
  pending : PendingAt g di s.dev.disk A w.vol es
  applied : Applied g s.dev.disk (es.take i)

/-- A replay was refused a write. -/
structure ReplayRefused (g : Geometry) (di : Bool) (A : Content) (w s : World) : Prop where
  refused : ∃ n, w.dev.refuse n = true
  trail : w.dev.Trail (Recoverable g di A) s.dev

variable (hg : g.Sound)
include hg

omit hg in
theorem PendingAt.writable {d : Buf} (h : PendingAt g di d A v es) : v.writable = true :=
  (Volume.open_discard h.opens).1

omit hg in
theorem PendingAt.image {d : Buf} (h : PendingAt g di d A v es) {i : ℕ} (hi : i < es.length) :
    BlockAt g d (g.logBlock + (v.logStart + (i + 1)) % g.logLength) es[i].2 := by
  have := h.held (i + 1) (by simpa using hi)
  simpa using this

theorem Replayed.step {i : ℕ} (hs : Replayed g di A es w i s) (hi : i < es.length) :
    Post (fun _ => Replayed g di A es w (i + 1)) (ReplayRefused g di A w)
      (writeBlockNow es[i].1
        (readBlockNow s (g.logBlock + (w.vol.logStart + (i + 1)) % g.logLength)) s) := by
  have hbytes : s.vol.blockBytes = g.blockSize := by
    rw [hs.vol, hs.pending.geometry, hg.blockBytes]
  have hmem : es[i].1 ∈ es.map Prod.fst := List.mem_map_of_mem (List.getElem_mem hi)
  have hnew : es[i].1 ∉ (es.take i).map Prod.fst := by
    have hsplit : es = es.take i ++ es[i] :: es.drop (i + 1) := by
      rw [List.getElem_cons_drop, List.take_append_drop]
    have hn := hs.pending.txn.nodup
    rw [hsplit, List.map_append, List.nodup_append] at hn
    exact fun hd => hn.2.2 _ hd _ List.mem_cons_self rfl
  refine writeBlockNow_post (by rw [hs.vol, hs.pending.writable]) ?_ fun he =>
    ⟨⟨_, by rw [← hs.trail.refuse]; exact he⟩, hs.trail.refused⟩
  have hp := hs.pending.home_write hg hmem
    (readBlockNow s (g.logBlock + (w.vol.logStart + (i + 1)) % g.logLength))
  rw [hbytes]
  refine ⟨hs.vol, hs.jnl, hs.trail.wrote (Or.inr ⟨_, _, hp⟩), hp, ?_⟩
  rw [← List.take_append_getElem hi]
  refine hs.applied.snoc hnew fun j hj => ?_
  rw [readBlockNow, hbytes]
  exact hs.pending.image hi j hj

theorem replayRuns_post {array : Buf}
    (harr : ∀ i (hi : i < es.length), g.toBlock (leRun array (RunArray.kRuns + i * 8)) = es[i].1)
    (count : ℕ) {i : ℕ} (hn : i + count = es.length) (hs : Replayed g di A es w i s) :
    Post (fun position s' => position = (w.vol.logStart + (es.length + 1)) % g.logLength ∧
        Replayed g di A es w es.length s') (ReplayRefused g di A w)
      (Journal.replayRuns g array g.logBlock g.logLength count i
        ((w.vol.logStart + (i + 1)) % g.logLength) s) := by
  induction count generalizing i s with
  | zero =>
    rw [Nat.add_zero] at hn
    subst hn
    exact ⟨rfl, hs⟩
  | succ count ih =>
    have hi : i < es.length := by omega
    have hnext : ((w.vol.logStart + (i + 1)) % g.logLength + 1) % g.logLength =
        (w.vol.logStart + (i + 1 + 1)) % g.logLength := by rw [Nat.mod_add_mod, Nat.add_assoc]
    rw [Journal.replayRuns, get_bind_run, harr i hi, hnext]
    exact Post.bind (hs.step hg hi) fun _ s' hs' => ih (by omega) hs'

theorem replayEntry_post (hp : PendingAt g di w.dev.disk A w.vol es) :
    Post (fun position s' => position = w.vol.logEnd ∧ Replayed g di A es w es.length s')
      (ReplayRefused g di A w)
      (Journal.replayEntry g g.logBlock g.logLength w.vol.logStart w) := by
  have hlen : es.length ≤ 32 := hp.txn.length
  have hpos : 0 < es.length := List.length_pos_iff.2 hp.txn.ne
  have hbs := hg.blockSize_ge
  have hbytes : w.vol.blockBytes = g.blockSize := by rw [hp.geometry, hg.blockBytes]
  -- the array in the log is the one the commit built
  have harr : BlockAt g w.dev.disk (g.logBlock + w.vol.logStart) (buildArray g es) := by
    have := hp.held 0 (by simp)
    rwa [Nat.add_zero, Nat.mod_eq_of_lt hp.cursor] at this
  have hcount := harr.le (w := 4) (i := RunArray.kCount) (by simp only [RunArray.kCount]; omega)
  have hmax := harr.le (w := 4) (i := RunArray.kMaxRuns) (by simp only [RunArray.kMaxRuns]; omega)
  rw [le_buildArray_count (by omega)] at hcount
  rw [le_buildArray_maxRuns] at hmax
  have hrun : ∀ i (hi : i < es.length), leRun (slice w.dev.disk
      ((g.logBlock + w.vol.logStart) * g.blockSize)) (RunArray.kRuns + i * 8) =
      g.toRun es[i].1 := fun i hi => by
    rw [harr.leRun (by simp only [RunArray.kRuns]; omega), leRun_buildArray hi]
  have htarget : ∀ i (hi : i < es.length), es[i].1 < g.numBlocks := fun i hi =>
    (hp.txn.target _ (List.mem_map_of_mem (List.getElem_mem hi))).2.1
  rw [Journal.replayEntry, get_bind_run, readBlockNow, hbytes, hcount, hmax, hg.maxRuns,
    if_neg (by omega)]
  have hvalid : ((List.range es.length).all fun i => g.validateRun (leRun (slice w.dev.disk
      ((g.logBlock + w.vol.logStart) * g.blockSize)) (RunArray.kRuns + i * 8))) = true := by
    rw [List.all_eq_true]
    intro i hi
    rw [hrun i (List.mem_range.1 hi)]
    exact Geometry.validateRun_toRun hg (htarget i (List.mem_range.1 hi))
  rw [check, hvalid, if_pos rfl, pure_bind_run]
  have hstart : Replayed g di A es w 0 w :=
    ⟨rfl, rfl, Device.Trail.refl (Or.inr ⟨_, _, hp⟩), hp, fun e he => by simp at he⟩
  have := replayRuns_post hg (fun i hi => by
    rw [hrun i hi, Geometry.toBlock_toRun hg (htarget i hi)]) es.length (Nat.zero_add _) hstart
  rwa [← hp.ends] at this

/-- **Replay.**  On a disk that recovers to `A`, whatever the device refuses,
    each write leaves a disk that recovers to `A`, and a replay that goes through
    leaves it clean. -/
theorem replay_post (hv : w.vol.Coherent)
    (hw : CleanAt g di w.dev.disk A w.vol ∨ ∃ es, PendingAt g di w.dev.disk A w.vol es) :
    Post (fun _ s => w.dev.Trail (Recoverable g di A) s.dev ∧ CleanAt g di s.dev.disk A s.vol ∧
        s.jnl = w.jnl) (ReplayRefused g di A w) (Journal.replay w) := by
  rw [Journal.replay, get_bind_run]
  rcases hw with hc | ⟨es, hp⟩
  · rw [if_pos hc.empty]
    exact ⟨Device.Trail.refl (Or.inl ⟨_, hc⟩), hc, rfl⟩
  · have hroom : 34 ≤ g.logLength := hg.room
    have hlen : es.length ≤ 32 := hp.txn.length
    have hne : w.vol.logStart ≠ w.vol.logEnd := by
      have := logPosition_ne (L := g.logLength) (show 0 < es.length + 1 by omega) (by omega)
        w.vol.logStart
      rwa [Nat.add_zero, Nat.mod_eq_of_lt hp.cursor, ← hp.ends] at this
    have hll : w.vol.logLength = g.logLength := by rw [hp.geometry]
    have hlb : w.vol.toBlock w.vol.log = g.logBlock := by rw [hp.geometry, Geometry.logBlock]
    rw [if_neg hne, check, hp.writable, if_pos rfl, pure_bind_run, hll, hlb, hp.geometry,
      show g.logLength = g.logLength - 1 + 1 by omega, Journal.replayLoop,
      show g.logLength - 1 + 1 = g.logLength by omega]
    refine Post.bind (Q := fun _ => Replayed g di A es w es.length) ?_ fun _ s hs => ?_
    · refine Post.bind (replayEntry_post hg hp) ?_
      rintro position s ⟨rfl, hs⟩
      rw [if_pos rfl]; exact hs
    · have hhome : g.HomeEq s.dev.disk A.home := by
        have h₁ := hs.applied
        rw [List.take_length] at h₁
        have h₂ := hs.pending.home
        rwa [h₁.eq hg.blockSize_pos hp.txn.nodup] at h₂
      have hend : w.vol.logEnd < g.logLength := by rw [hp.ends]; exact Nat.mod_lt _ (by omega)
      have hend' : w.vol.logEnd < 2 ^ 64 := by
        have : w.vol.logLength < 2 ^ 16 := hv.checked.log.length
        omega
      rw [modifyVol, modify_bind_run, hs.vol]
      have hclean : CleanAt g di (blit s.dev.disk kSuperblockOffset
          ((w.vol.setLogStart w.vol.logEnd).setFlags kClean).superblock kSuperblockBytes) A
          ((w.vol.setLogStart w.vol.logEnd).setFlags kClean) :=
        CleanAt.of_retired ((hv.setLogStart hend').setFlags _) hp.writable
          (Volume.open_discard hp.opens).2 hp.geometry rfl hend (Volume.clean_setFlags _) hhome hp.used
      refine writeSuperblockNow_post hp.writable ?_ fun he =>
        ⟨⟨_, by rw [← hs.trail.refuse]; exact he⟩, hs.trail.refused⟩
      exact ⟨hs.trail.wrote (Or.inl ⟨_, hclean⟩), hclean, hs.jnl⟩

/-- **Mount.**  A disk that recovers to `A` mounts. -/
theorem mount_post (dev : Device) (h : Recoverable g di A dev.disk) :
    ∃ v, mount dev di = some (Journal.replay (.booted dev v)) ∧
      Post (fun _ s => dev.Trail (Recoverable g di A) s.dev ∧ CleanAt g di s.dev.disk A s.vol ∧
        s.jnl = Journal.idle) (ReplayRefused g di A (.booted dev v))
        (Journal.replay (.booted dev v)) := by
  obtain ⟨v, hopen, hgeo, hv⟩ : ∃ v, Volume.open dev.disk true di = some v ∧ v.toGeometry = g ∧
      (CleanAt g di dev.disk A v ∨ ∃ es, PendingAt g di dev.disk A v es) := by
    rcases h with ⟨v, hc⟩ | ⟨v, es, hp⟩
    · exact ⟨v, hc.opens, hc.geometry, Or.inl hc⟩
    · exact ⟨v, hp.opens, hp.geometry, Or.inr ⟨es, hp⟩⟩
  have hco := Volume.Coherent.of_open hopen
  refine ⟨v, ?_, replay_post hg hco hv⟩
  have hll : 2 ≤ v.logLength := by
    have : 34 ≤ g.logLength := hg.room
    rw [hgeo]; omega
  have hable : Journal.openable v = true := by
    rw [Journal.openable, (Volume.open_discard hopen).1, decide_eq_true hll,
      decide_eq_true hco.checked.blockSize]
    rfl
  rw [mount, hopen]
  exact if_pos hable

end

/-! ## Logging a block -/

theorem map_fst_setEntry (block : ℕ) (img : Buf) (es : List (ℕ × Buf)) :
    (Journal.setEntry block img es).map Prod.fst = es.map Prod.fst := by
  induction es with
  | nil => rfl
  | cons e es ih =>
    unfold Journal.setEntry
    split_ifs with he
    · rfl
    · rw [List.map_cons, ih, List.map_cons]

theorem log_cases (w : World) (block : ℕ) (img : Buf) :
    Journal.log block img w = (none, w) ∧
      (w.jnl.active = true → block ∉ w.jnl.entries.map Prod.fst) ∨
    ∃ es, Journal.log block img w = (some (), { w with jnl := { w.jnl with entries := es } }) ∧
      w.jnl.active = true ∧
      (es = Journal.setEntry block img w.jnl.entries ∧ block ∈ w.jnl.entries.map Prod.fst ∨
        es = w.jnl.entries ++ [(block, img)] ∧ block ∉ w.jnl.entries.map Prod.fst ∧
          w.jnl.entries.length < kMaxJournalBlocks) := by
  rw [Journal.log, get_bind_run, check]
  rcases ha : w.jnl.active
  · exact Or.inl ⟨rfl, fun h => absurd h (by simp)⟩
  · rw [if_pos rfl, pure_bind_run]
    by_cases hl : (w.jnl.entries.lookup block).isSome = true
    · have hmem : block ∈ w.jnl.entries.map Prod.fst := by
        by_contra hn
        rw [lookup_eq_none_of_notMem hn] at hl
        simp at hl
      rw [if_pos hl]
      exact Or.inr ⟨_, rfl, rfl, Or.inl ⟨rfl, hmem⟩⟩
    · have hnot : block ∉ w.jnl.entries.map Prod.fst := by
        intro hm
        obtain ⟨e, he, hb⟩ := List.mem_map.1 hm
        rw [Bool.not_eq_true, Option.isSome_eq_false_iff, Option.isNone_iff_eq_none,
          List.lookup_eq_none_iff] at hl
        have := hl e he
        simp [hb] at this
      rw [if_neg hl, check]
      by_cases hr : w.jnl.entries.length < kMaxJournalBlocks
      · rw [decide_eq_true hr, if_pos rfl]
        exact Or.inr ⟨_, rfl, rfl, Or.inr ⟨rfl, hnot, hr⟩⟩
      · rw [decide_eq_false hr]
        exact Or.inl ⟨rfl, fun _ => hnot⟩

end Aegir.Bfs
