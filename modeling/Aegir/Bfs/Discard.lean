/-
  When the writer tells the device that blocks are free (`allocator.cc`,
  `Writer::finish`).
-/
import Aegir.Bfs.Mounted

namespace Aegir.Bfs

open Aegir.Lib Aegir.Lib.Buf Aegir.Lib.Fallible Allocator

/-! ## What leaves the discards alone -/

/-- Only writes went to the device, and the run that is held back is the same. -/
structure Hushed (w w' : World) : Prop where
  pending : w'.alloc.pending = w.alloc.pending
  transport : w'.vol.discard = w.vol.discard
  geometry : w'.vol.toGeometry = w.vol.toGeometry
  trace : ∃ t, w'.dev.trace = w.dev.trace ++ t ∧ ∀ e ∈ t, Event.isWrite e = true

theorem Hushed.of_eq {w w' : World} (hp : w'.alloc.pending = w.alloc.pending)
    (hd : w'.vol.discard = w.vol.discard) (hg : w'.vol.toGeometry = w.vol.toGeometry)
    (ht : w'.dev.trace = w.dev.trace) : Hushed w w' :=
  ⟨hp, hd, hg, [], by rw [ht, List.append_nil], by simp⟩

instance : IsPreorder World Hushed where
  refl w := .of_eq rfl rfl rfl rfl
  trans := by
    rintro w w' w'' ⟨hp, hd, hg, t, ht, hw⟩ ⟨hp', hd', hg', t', ht', hw'⟩
    refine ⟨hp'.trans hp, hd'.trans hd, hg'.trans hg, t ++ t', by rw [ht', ht, List.append_assoc], fun e he => ?_⟩
    rcases List.mem_append.mp he with he | he
    · exact hw e he
    · exact hw' e he

instance (f : Journal → Journal) : Keeps Hushed (modifyJnl f) := keeps_modify fun _ => .of_eq rfl rfl rfl rfl

instance (bitmap : Buf) : Keeps Hushed (modifyAlloc fun a => { a with bitmap }) :=
  keeps_modify fun _ => .of_eq rfl rfl rfl rfl

instance (used : Volume → ℕ) : Keeps Hushed (modifyVol fun v => v.setUsedBlocks (used v)) :=
  keeps_modify fun _ => .of_eq rfl rfl rfl rfl

instance (position flags : ℕ) : Keeps Hushed (modifyVol fun v => (v.setLogEnd position).setFlags flags) :=
  keeps_modify fun _ => .of_eq rfl rfl rfl rfl

instance (position flags : ℕ) :
    Keeps Hushed (modifyVol fun v => (v.setLogStart position).setFlags flags) :=
  keeps_modify fun _ => .of_eq rfl rfl rfl rfl

instance (pos : ℕ) (img : Buf) (len : ℕ) : Keeps Hushed (devWrite pos img len) := by
  constructor
  intro w
  unfold devWrite
  dsimp only
  split
  · exact .of_eq rfl rfl rfl rfl
  · exact ⟨rfl, rfl, rfl, _, rfl, by simp [Event.isWrite]⟩

instance (block : ℕ) (img : Buf) : Keeps Hushed (writeBlockNow block img) := by
  unfold writeBlockNow
  infer_instance

instance : Keeps Hushed writeSuperblockNow := by
  unfold writeSuperblockNow
  infer_instance

instance (block : ℕ) (img : Buf) : Keeps Hushed (Journal.log block img) := by
  unfold Journal.log
  infer_instance

instance (block : ℕ) (img : Buf) : Keeps Hushed (writeBlock block img) := by
  unfold writeBlock
  infer_instance

instance : Keeps Hushed flushSuperblock := by
  unfold flushSuperblock
  infer_instance

instance (group bits maxBlocks minBlocks left index : ℕ) :
    Keeps Hushed (allocateIn group bits maxBlocks minBlocks left index) := by
  induction left generalizing index with
  | zero => exact keeps_pure none
  | succ left ih =>
    unfold allocateIn
    dsimp only
    repeat' first | infer_instance | refine keeps_bind ?_ fun _ => ?_ | split

instance (maxBlocks minBlocks left group : ℕ) :
    Keeps Hushed (allocateFrom maxBlocks minBlocks left group) := by
  induction left generalizing group with
  | zero => exact keeps_fail
  | succ left ih =>
    unfold allocateFrom
    dsimp only
    repeat' first | infer_instance | refine keeps_bind ?_ fun _ => ?_ | split

instance (maxBlocks minBlocks : ℕ) : Keeps Hushed (allocate maxBlocks minBlocks) := by
  unfold allocate
  dsimp only
  infer_instance

instance (run : Run) (left k : ℕ) : Keeps Hushed (freeBits run left k) := by
  induction left generalizing k with
  | zero => exact keeps_pure ()
  | succ left ih =>
    unfold freeBits
    dsimp only
    infer_instance

instance (logBlock length position : ℕ) (order : List (ℕ × Buf)) :
    Keeps Hushed (Journal.writeLog logBlock length position order) := by
  induction order generalizing position with
  | nil => exact keeps_pure position
  | cons e order ih =>
    unfold Journal.writeLog Journal.dropEntries
    infer_instance

instance (entries : List (ℕ × Buf)) : Keeps Hushed (Journal.checkpoint entries) := by
  unfold Journal.checkpoint Journal.dropEntries
  exact keeps_forEach (fun _ => keeps_onFail inferInstance inferInstance) entries

/-- A commit writes, and discards nothing. -/
instance : Keeps Hushed Journal.commit := by
  unfold Journal.commit Journal.dropEntries
  dsimp only
  repeat' first | infer_instance | refine keeps_bind ?_ fun _ => ?_ | split

/-! ## The run that is held back -/

/-- The run held back after `runs` are freed one after the other, with `held` before;
    nothing when one of them does not join the run held back, which then goes out. -/
def hold : Option Run → List Run → Option (Option Run)
  | held, [] => some held
  | none, run :: runs => hold (some run) runs
  | some p, run :: runs =>
    match mergeDiscard p run with
    | some merged => hold (some merged) runs
    | none => none

theorem hold_append (held : Option Run) (runs runs' : List Run) :
    hold held (runs ++ runs') = (hold held runs).bind fun held => hold held runs' := by
  induction runs generalizing held with
  | nil => cases held <;> rfl
  | cons run runs ih =>
    rw [List.cons_append]
    cases held with
    | none => simp only [hold]; exact ih _
    | some p =>
      simp only [hold]
      rcases mergeDiscard p run with _ | merged
      · rfl
      · exact ih _

/-- `p` takes in the blocks of `r`. -/
def Run.Covers (p r : Run) : Prop :=
  p.allocationGroup = r.allocationGroup ∧ p.start ≤ r.start ∧ r.start + r.length ≤ p.start + p.length

/-- The request discards the blocks of `r`. -/
def Event.Discards (g : Geometry) (e : Event) (r : Run) : Prop :=
  ∃ p : Run, p.Covers r ∧ e = .discard (g.toBlock p * (g.blockSize / kSectorBytes))
    (p.length * (g.blockSize / kSectorBytes))

/-- A discard of one of `runs` went to the device. -/
def Trimmed (runs : List Run) (w w' : World) : Prop :=
  ∃ t, w'.dev.trace = w.dev.trace ++ t ∧ ∃ e ∈ t, ∃ r ∈ runs, Event.Discards w.vol.toGeometry e r

theorem Trimmed.mono {runs runs' : List Run} {w w₁ w' w₂ : World} (h : Trimmed runs w₁ w')
    (hr : runs ⊆ runs') (hg : w₁.vol.toGeometry = w.vol.toGeometry)
    (hw : ∃ t, w₁.dev.trace = w.dev.trace ++ t) (hw' : ∃ t, w₂.dev.trace = w'.dev.trace ++ t) :
    Trimmed runs' w w₂ := by
  obtain ⟨t, ht, e, he, r, hm, hd⟩ := h
  obtain ⟨t₁, ht₁⟩ := hw
  obtain ⟨t₂, ht₂⟩ := hw'
  refine ⟨t₁ ++ t ++ t₂, ?_, e, ?_, r, hr hm, hg ▸ hd⟩
  · rw [ht₂, ht, ht₁]; simp only [List.append_assoc]
  · exact List.mem_append_left _ (List.mem_append_right _ he)

/-- The run held back has blocks, those of one of `runs` among them. -/
def World.Holds (w : World) (runs : List Run) : Prop :=
  ∀ p ∈ w.alloc.pending, p.length ≠ 0 ∧ ∃ r ∈ runs, p.Covers r

/-- What freeing `runs` after `freed` did: nothing to the device as long as each
    joined the run held back, and a discard otherwise. -/
def HeldBack (w w' : World) (runs : List Run) : Prop :=
  ∀ freed, w.Holds freed → w'.Holds (freed ++ runs) ∧ w'.vol.discard = w.vol.discard ∧
    w'.vol.toGeometry = w.vol.toGeometry ∧ (∃ t, w'.dev.trace = w.dev.trace ++ t) ∧
    if w.vol.discard then
      match hold w.alloc.pending runs with
      | some held => Hushed { w with alloc := { w.alloc with pending := held } } w'
      | none => Trimmed (freed ++ runs) w w'
    else Hushed w w'

theorem Hushed.heldBack {w w' : World} (h : Hushed w w') : HeldBack w w' [] := by
  intro freed hb
  obtain ⟨t, ht, -⟩ := h.trace
  refine ⟨fun p hp => ?_, h.transport, h.geometry, ⟨t, ht⟩, ?_⟩
  · rw [List.append_nil]
    exact hb p (h.pending ▸ hp)
  · split
    · exact ⟨h.pending, h.transport, h.geometry, h.trace⟩
    · exact h

theorem HeldBack.append {w w₁ w₂ : World} {runs runs' : List Run} (h : HeldBack w w₁ runs)
    (h' : HeldBack w₁ w₂ runs') : HeldBack w w₂ (runs ++ runs') := by
  intro freed hb
  obtain ⟨hb₁, hd, hg, ⟨t, ht⟩, hc⟩ := h freed hb
  obtain ⟨hb₂, hd', hg', ⟨t', ht'⟩, hc'⟩ := h' _ hb₁
  rw [List.append_assoc] at hb₂ hc'
  refine ⟨hb₂, hd'.trans hd, hg'.trans hg, ⟨t ++ t', by rw [ht', ht, List.append_assoc]⟩, ?_⟩
  rw [hd] at hc'
  split
  · rename_i hon
    rw [if_pos hon] at hc hc'
    rw [hold_append]
    rcases hh : hold w.alloc.pending runs with _ | held
    · -- a discard went out already
      rw [hh] at hc
      exact Trimmed.mono hc (by simp) rfl ⟨[], by simp⟩ ⟨t', ht'⟩
    · rw [hh] at hc
      dsimp only at hc
      rw [hc.pending] at hc'
      simp only [Option.bind_some]
      rcases hh' : hold held runs' with _ | held'
      · rw [hh'] at hc'
        exact Trimmed.mono hc' (List.Subset.refl _) hg ⟨t, ht⟩ ⟨[], by simp⟩
      · rw [hh'] at hc'
        obtain ⟨u, hu, hw⟩ := hc.trace
        obtain ⟨u', hu', hw'⟩ := hc'.trace
        refine ⟨hc'.pending, hd'.trans hd, hg'.trans hg, u ++ u', ?_, fun e he => ?_⟩
        · dsimp only at hu hu' ⊢
          rw [hu', hu, List.append_assoc]
        · rcases List.mem_append.mp he with he | he
          · exact hw e he
          · exact hw' e he
  · rename_i hoff
    rw [if_neg hoff] at hc hc'
    exact trans_of Hushed hc hc'

theorem mergeDiscard_covers {p run merged : Run} (h : mergeDiscard p run = some merged)
    (hr : run.length ≠ 0) : merged.length ≠ 0 ∧ merged.Covers run := by
  unfold mergeDiscard at h
  have hK : kMaxRun = 65535 := rfl
  split_ifs at h with h₁ h₂ h₃
  all_goals
    cases h
    refine ⟨?_, ?_, ?_, ?_⟩ <;> dsimp only <;> omega

theorem flushDiscards_sends {w : World} {p : Run} (hon : w.vol.discard = true)
    (hp : w.alloc.pending = some p) (hlen : p.length ≠ 0) : flushDiscards w = (some (),
      { w with
        dev := { w.dev with trace := w.dev.trace ++
          [.discard (w.vol.toBlock p * (w.vol.blockSize / kSectorBytes))
            (p.length * (w.vol.blockSize / kSectorBytes))] }
        alloc := { w.alloc with pending := none } }) := by
  rw [flushDiscards, get_bind_run, hp]
  simp only [bind_run, ignore]
  rw [discardRun_run, if_neg (by simp [hon, hlen])]
  rfl

theorem queueDiscard_heldBack {run : Run} (hr : run.length ≠ 0) (w : World) :
    HeldBack w (queueDiscard run w).2 [run] := by
  intro freed hb
  have hself : ∃ r ∈ freed ++ [run], run.Covers r :=
    ⟨run, by simp, rfl, le_refl _, le_refl _⟩
  rw [queueDiscard, get_bind_run]
  rcases hon : w.vol.discard
  · rw [if_pos (by simp)]
    refine ⟨fun p hp => ?_, hon, rfl, ⟨[], by simp⟩, .of_eq rfl rfl rfl rfl⟩
    obtain ⟨hlen, r, hm, hc⟩ := hb p hp
    exact ⟨hlen, r, List.mem_append_left _ hm, hc⟩
  · rw [if_neg (by simp [hr])]
    rcases hp : w.alloc.pending with _ | p
    · -- nothing was held back
      have hflush : flushDiscards w = (some (), { w with alloc := { w.alloc with pending := none } }) := by
        simp only [flushDiscards, get_bind_run, hp]
        rfl
      simp only [Option.bind_none]
      rw [bind_of_some hflush]
      refine ⟨fun q hq => ?_, hon, rfl, ⟨[], by simp [modifyAlloc]⟩, .of_eq rfl rfl rfl rfl⟩
      cases hq
      exact ⟨hr, hself⟩
    · simp only [Option.bind_some]
      obtain ⟨hlen, r, hm, hc⟩ := hb p hp
      rcases hmerge : mergeDiscard p run with _ | merged
      · simp only
        rw [bind_of_some (flushDiscards_sends hon hp hlen)]
        refine ⟨fun q hq => ?_, hon, rfl, ⟨_, rfl⟩, ?_⟩
        · cases hq
          exact ⟨hr, hself⟩
        · simp only [hold, hmerge]
          exact ⟨_, rfl, _, List.mem_singleton_self _, r, List.mem_append_left _ hm, p, hc, rfl⟩
      · refine ⟨fun q hq => ?_, hon, rfl, ⟨[], by simp [modifyAlloc]⟩, ?_⟩
        · cases hq
          obtain ⟨hlen', hc'⟩ := mergeDiscard_covers hmerge hr
          exact ⟨hlen', run, by simp, hc'⟩
        · simp only [hold, hmerge]
          exact .of_eq rfl rfl rfl rfl

theorem queueDiscard_answers (run : Run) (w : World) : (queueDiscard run w).1 = some () := by
  rw [queueDiscard, get_bind_run]
  split
  · rfl
  · rcases w.alloc.pending.bind (mergeDiscard · run) with _ | merged
    · obtain ⟨t, hf, -⟩ := flushDiscards_cases w
      dsimp only
      rw [bind_of_some hf]
      rfl
    · rfl

theorem free_heldBack (run : Run) (w : World) :
    HeldBack w (free run w).2 (if (free run w).1.isSome then [run] else []) := by
  unfold free
  by_cases hz : run.length = 0
  · rw [if_pos hz]
    exact (refl_of Hushed w).heldBack
  · rw [if_neg hz, bind_run]
    have hbits : Hushed w (freeBits run run.length 0 w).2 := Keeps.keeps w
    rcases hb : freeBits run run.length 0 w with ⟨_ | _, w₁⟩
    · rw [hb] at hbits
      exact hbits.heldBack
    · rw [hb] at hbits
      -- the count of used blocks, then the superblock, which stays while a transaction is open
      set used := if run.length ≤ w₁.vol.usedBlocks then w₁.vol.usedBlocks - run.length else 0
      set w₂ : World := { w₁ with vol := w₁.vol.setUsedBlocks used }
      have hcount : Hushed w₁ w₂ := .of_eq rfl rfl rfl rfl
      have hflush : Hushed w₂ (flushSuperblock.ignore w₂).2 := Keeps.keeps w₂
      have hrun := queueDiscard_heldBack hz (flushSuperblock.ignore w₂).2
      have hall := (((hbits.heldBack).append hcount.heldBack).append hflush.heldBack).append hrun
      show HeldBack w (queueDiscard run (flushSuperblock.ignore w₂).2).2
        (if (queueDiscard run (flushSuperblock.ignore w₂).2).1.isSome then [run] else [])
      rw [queueDiscard_answers]
      exact hall

/-! ## Calls -/

open Session

def freedRuns (l : List Issued) : List Run := l.filterMap fun c =>
  match c.command, c.answer with
  | .free run, some _ => some run
  | _, _ => none

theorem freedRuns_cons (c : Issued) (l : List Issued) : freedRuns (c :: l) = freedRuns [c] ++ freedRuns l := by
  rw [← List.singleton_append, freedRuns, List.filterMap_append]
  rfl

theorem call_heldBack (c : Command) (w : World) :
    HeldBack w (c.call w).2 (freedRuns [⟨c, (c.call w).1⟩]) := by
  have hhush : ∀ {m : M (Option Run)}, Keeps Hushed m → HeldBack w (m w).2 [] :=
    fun hm => (hm.keeps w).heldBack
  cases c with
  | allocate maxBlocks minBlocks => exact hhush (keeps_bind inferInstance fun _ => inferInstance)
  | writeBlock block img => exact hhush (keeps_bind inferInstance fun _ => inferInstance)
  | zeroBlock block => exact hhush (keeps_bind inferInstance fun _ => inferInstance)
  | writeData stream offset length block img => exact hhush (keeps_bind inferInstance fun _ => inferInstance)
  | free run =>
    have h := free_heldBack run w
    have hcall : Command.call (.free run) w = ((free run w).1.map fun _ => none, (free run w).2) := by
      simp only [Command.call, bind_run]
      rcases free run w with ⟨_ | _, w'⟩ <;> rfl
    rw [hcall]
    rcases hf : (free run w).1 with _ | _
    · rw [hf] at h
      exact h
    · rw [hf] at h
      exact h

/-- **A transaction's calls** send no discard exactly when each run they free joins
    the one held back. -/
theorem Session.Made.heldBack {w w' : World} {l : List Issued} (h : Made w l w') : HeldBack w w' (freedRuns l) := by
  induction l generalizing w with
  | nil => rw [Made] at h; rw [h]; exact (refl_of Hushed w).heldBack
  | cons c l ih =>
    have hc := call_heldBack c.command w
    rw [← h.1] at hc
    rw [freedRuns_cons]
    exact hc.append (ih h.2)

/-! ## Operations -/

def World.Idle (w : World) : Prop := w.jnl.active = false ∧ w.alloc.pending = none

def Unopened (w w' : World) : Prop := w.jnl.active = false → w'.jnl.active = false

instance : IsPreorder World Unopened where
  refl _ h := h
  trans _ _ _ h h' := h' ∘ h

instance (f : Volume → Volume) : Keeps Unopened (modifyVol f) := keeps_modify fun _ h => h

instance : Keeps Unopened Journal.dropEntries := keeps_modify fun _ h => h

instance (pos : ℕ) (img : Buf) (len : ℕ) : Keeps Unopened (devWrite pos img len) := by
  constructor
  intro w h
  unfold devWrite
  dsimp only
  split <;> exact h

instance (block : ℕ) (img : Buf) : Keeps Unopened (writeBlockNow block img) := by
  unfold writeBlockNow
  infer_instance

instance : Keeps Unopened writeSuperblockNow := by
  unfold writeSuperblockNow
  infer_instance

instance (logBlock length position : ℕ) (order : List (ℕ × Buf)) :
    Keeps Unopened (Journal.writeLog logBlock length position order) := by
  induction order generalizing position with
  | nil => exact keeps_pure position
  | cons e order ih =>
    unfold Journal.writeLog
    infer_instance

instance (entries : List (ℕ × Buf)) : Keeps Unopened (Journal.checkpoint entries) := by
  unfold Journal.checkpoint
  exact keeps_forEach (fun _ => keeps_onFail inferInstance inferInstance) entries

theorem commit_active (w : World) : (Journal.commit w).2.jnl.active = false := by
  rw [Journal.commit, get_bind_run]
  rcases ha : w.jnl.active
  · exact ha
  · rw [Bool.not_true, if_neg (by decide), modifyJnl, modify_bind_run]
    -- nothing after this opens one
    suffices hrest : Keeps Unopened _ from hrest.keeps _ rfl
    have hcommitted : Keeps Unopened (modifyJnl fun j => { j with committed := true }) :=
      keeps_modify fun _ h => h
    have hdone : Keeps Unopened (modifyJnl fun j =>
        { j with entries := [], committed := false, snapshotValid := false }) :=
      keeps_modify fun _ h => h
    have hnothing : Keeps Unopened (modifyJnl fun j => { j with snapshotValid := false }) :=
      keeps_modify fun _ h => h
    dsimp only
    repeat' first | infer_instance | refine keeps_bind ?_ fun _ => ?_ | split

theorem finish_idle (ok : Bool) (w : World) : (finish ok w).2.Idle := by
  cases ok
  · exact ⟨rfl, rfl⟩
  · rw [finish, Bool.not_true, if_neg (by decide)]
    rcases hc : Journal.commit w with ⟨_ | _, w'⟩
    · rw [bind_of_none (onFail_of_none hc _)]
      exact ⟨rfl, rfl⟩
    · obtain ⟨t, hf, -⟩ := flushDiscards_cases w'
      rw [bind_of_some (onFail_of_some hc _), hf]
      refine ⟨?_, rfl⟩
      have ha := commit_active w
      rw [hc] at ha
      exact ha

theorem finish_hushed (ok : Bool) (w : World) (h : ¬(ok = true ∧ (Journal.commit w).1.isSome = true)) :
    ∃ t, (finish ok w).2.dev.trace = w.dev.trace ++ t ∧ ∀ e ∈ t, Event.isWrite e = true := by
  cases ok
  · exact ⟨[], by rw [List.append_nil]; rfl, by simp⟩
  · have hw : Hushed w (Journal.commit w).2 := Keeps.keeps w
    rw [finish, Bool.not_true, if_neg (by decide)]
    rcases hc : Journal.commit w with ⟨_ | _, w'⟩
    · rw [hc] at hw
      rw [bind_of_none (onFail_of_none hc _)]
      exact hw.trace
    · rw [hc] at h
      exact absurd ⟨rfl, rfl⟩ h

namespace Op

variable (op : Op) (s : Writer Session)

/-- The work of an operation on `s`: whether it was done, and the state it left. -/
def work : Option Unit × Writer Session := op.blocks layers (layers.begin s).2

def freed : List Run := freedRuns (op.work s).2.store.issued

/-- The world in which the commit of an operation's transaction has succeeded, or in
    which the operation has given up. -/
def settled : World :=
  if (op.work s).1.isSome ∧ (Journal.commit (op.work s).2.store.world).1.isSome then
    (Journal.commit (op.work s).2.store.world).2
  else (op.run layers s).2.store.world

/-- No discard of a run that the operation freed goes out before its commit has
    succeeded, and none at all when it gives up. -/
def DiscardsAfterCommit : Prop := ¬Trimmed (op.freed s) s.store.world (op.settled s)

theorem run_of_idle (h : s.store.world.Idle) :
    (op.run layers s).2 = (layers.finish (op.work s).1.isSome (op.work s).2).2 := by
  have ha : (!layers.active s.store) = true := by
    show (!s.store.world.jnl.active) = true
    rw [h.1]
    rfl
  rw [run, Lower.transaction, get_bind_run, ha]
  have hw : (op.blocks layers).attempt (layers.begin s).2 = (some (op.work s).1, (op.work s).2) := rfl
  have hb : layers.begin s = (some (), (layers.begin s).2) := rfl
  rw [bind_of_some (m := .check true) rfl, bind_of_some hb, bind_of_some hw, bind_run]
  rcases layers.finish _ _ with ⟨_ | _, s'⟩
  · rfl
  · rcases (op.work s).1 with _ | _ <;> rfl

theorem run_idle (h : s.store.world.Idle) : (op.run layers s).2.store.world.Idle := by
  rw [run_of_idle op s h]
  exact finish_idle _ _

theorem work_made : Session.Made (layers.begin s).2.store.world (op.work s).2.store.issued
    (op.work s).2.store.world := by
  have h : Writer.OnStore Issues (layers.begin s).2 (op.work s).2 := Keeps.keeps (layers.begin s).2
  obtain ⟨l, hl, hm⟩ := h
  have hl' : (op.work s).2.store.issued = l := hl
  rw [hl']
  exact hm

theorem settled_hushed (h : s.store.world.Idle) :
    ∃ t, (op.settled s).dev.trace = (op.work s).2.store.world.dev.trace ++ t ∧
      ∀ e ∈ t, Event.isWrite e = true := by
  unfold settled
  split
  · have hw : Hushed _ (Journal.commit (op.work s).2.store.world).2 := Keeps.keeps _
    exact hw.trace
  · rename_i hc
    rw [run_of_idle op s h]
    exact finish_hushed _ _ hc

end Op

theorem writes_append {w w₁ w₂ : World}
    (h : ∃ t, w₁.dev.trace = w.dev.trace ++ t ∧ ∀ e ∈ t, Event.isWrite e = true)
    (h' : ∃ t, w₂.dev.trace = w₁.dev.trace ++ t ∧ ∀ e ∈ t, Event.isWrite e = true) :
    ∃ t, w₂.dev.trace = w.dev.trace ++ t ∧ ∀ e ∈ t, Event.isWrite e = true := by
  obtain ⟨t, ht, hw⟩ := h
  obtain ⟨t', ht', hw'⟩ := h'
  refine ⟨t ++ t', by rw [ht', ht, List.append_assoc], fun e he => ?_⟩
  rcases List.mem_append.mp he with he | he
  · exact hw e he
  · exact hw' e he

theorem not_trimmed {runs : List Run} {w w' : World}
    (h : ∃ t, w'.dev.trace = w.dev.trace ++ t ∧ ∀ e ∈ t, Event.isWrite e = true) :
    ¬Trimmed runs w w' := by
  rintro ⟨t, ht, e, he, r, -, p, -, rfl⟩
  obtain ⟨t', ht', hw⟩ := h
  rw [ht', List.append_cancel_left_eq] at ht
  subst ht
  exact absurd (hw _ he) (by simp [Event.isWrite])

def runOps (ops : List Op) (s : Writer Session) : Writer Session :=
  ops.foldl (fun s op => (op.run layers s).2) s

theorem runOps_idle (ops : List Op) {s : Writer Session} (h : s.store.world.Idle) :
    (runOps ops s).store.world.Idle := by
  induction ops generalizing s with
  | nil => exact h
  | cons op ops ih => exact ih (op.run_idle s h)

theorem Op.discardsAfterCommit_iff {s : Writer Session} (hs : s.store.world.Idle) (op : Op) :
    op.DiscardsAfterCommit s ↔
      (s.store.world.vol.discard = false ∨ (hold none (op.freed s)).isSome = true) := by
  have hbegin : Hushed s.store.world (layers.begin s).2.store.world := .of_eq rfl rfl rfl rfl
  have hpending : (layers.begin s).2.store.world.alloc.pending = none := hs.2
  obtain ⟨-, -, -, -, hcalls⟩ := (op.work_made s).heldBack [] (by
    intro p hp
    rw [hpending] at hp
    cases hp)
  obtain ⟨t, ht, hw⟩ := op.settled_hushed s hs
  rw [hbegin.transport, hpending] at hcalls
  unfold Op.DiscardsAfterCommit
  rcases hon : s.store.world.vol.discard
  · -- the device takes no discards
    rw [hon, if_neg (by decide)] at hcalls
    refine iff_of_true (not_trimmed ?_) (Or.inl rfl)
    obtain ⟨u, hu, hwu⟩ := (trans_of Hushed hbegin hcalls).trace
    exact writes_append ⟨u, hu, hwu⟩ ⟨t, ht, hw⟩
  · rw [hon, if_pos rfl] at hcalls
    simp only [reduceCtorEq, false_or]
    rcases hh : hold none (op.freed s) with _ | held
    · -- a run went out in the transaction
      refine iff_of_false (not_not_intro ?_) (by simp)
      rw [Op.freed] at hh
      rw [hh] at hcalls
      rw [List.nil_append] at hcalls
      exact Trimmed.mono hcalls (List.Subset.refl _) rfl ⟨[], by rw [List.append_nil]; rfl⟩ ⟨t, ht⟩
    · refine iff_of_true (not_trimmed ?_) rfl
      rw [Op.freed] at hh
      rw [hh] at hcalls
      exact writes_append hcalls.trace ⟨t, ht, hw⟩

/-- **The discards wait for the commit**, in every operation after any others, exactly
    when the device takes none or each run the operation frees joins those it freed
    before into one run. -/
theorem discards_after_commit_iff {s₀ : Writer Session} (h : s₀.store.world.Idle) (ops : List Op) (op : Op) :
    op.DiscardsAfterCommit (runOps ops s₀) ↔
      ((runOps ops s₀).store.world.vol.discard = false ∨
        (hold none (op.freed (runOps ops s₀))).isSome = true) :=
  op.discardsAfterCommit_iff (runOps_idle ops h)

def Writer.idle (w : World) : Writer Session :=
  ⟨⟨w, []⟩, zero, zero, zero, zero, zero, zero, zero, zero, zero, 0, 0⟩

/-- A file of two blocks that do not touch, 700 and 800, in the inode 600. -/
def scatteredInode : Buf :=
  inodeSetStream (inodeBuild 2048 ⟨0, 600, 1⟩ ⟨0, 514, 1⟩ 0o100644 0 0 0 [102])
    (put 8 (putRun (putRun zero DataField.kDirect ⟨0, 700, 1⟩) (DataField.kDirect + 8) ⟨0, 800, 1⟩)
      DataField.kMaxDirectRange 4096) 4096 0

/-- The superblock of a volume without indices, 1024 of its blocks in use. -/
def scatteredSuperblock : Buf :=
  putRun (Mkfs.superblock 4194304 1024 514 515 []) Superblock.kIndices ⟨0, 0, 0⟩

/-- The file on such a volume, mounted from a device that takes discards. -/
def scatteredWriter : Writer Session := .idle <| .booted
  (.on (blit (blit (blit sampleDisk kSuperblockOffset scatteredSuperblock kSuperblockBytes)
    2048 (fun i => if i < 128 then 255 else 0) 2048) (600 * 2048) scatteredInode 2048) fun _ => false)
  { sampleVolume with
    discard := true, usedBlocks := 1024, indices := ⟨0, 0, 0⟩, superblock := scatteredSuperblock }

theorem scatteredWriter_idle : scatteredWriter.store.world.Idle := ⟨rfl, rfl⟩

/-- Cutting the file off sends the discard of its first block before the commit. -/
theorem truncate_discards_early : ¬(Op.truncate 600 0 0).DiscardsAfterCommit scatteredWriter := by
  rw [Op.discardsAfterCommit_iff scatteredWriter_idle]
  have hfreed : (Op.truncate 600 0 0).freed scatteredWriter = [⟨0, 700, 1⟩, ⟨0, 800, 1⟩] := by
    decide
  rw [hfreed]
  decide

/-- Cutting off the second block alone frees one run. -/
theorem discards_after_commit_iff_scattered : (Op.truncate 600 2048 0).DiscardsAfterCommit scatteredWriter := by
  refine (discards_after_commit_iff scatteredWriter_idle [] (Op.truncate 600 2048 0)).mpr (Or.inr ?_)
  decide

end Aegir.Bfs
