/-
  What a commit writes, in order.
-/
import Aegir.Bfs.Cache
import Aegir.Bfs.Transaction

namespace Aegir.Bfs

open Aegir.Lib Aegir.Lib.Buf Aegir.Lib.Fallible

/-! ## Writes served -/

def Request.apply (blocks : ℕ → Buf) (request : Request) : ℕ → Buf :=
  match request with
  | .block b img => Function.update blocks b img
  | .superblock _ => blocks

namespace BlockDevice

/-- The device after a write it served. -/
def wrote (d : BlockDevice) (request : Request) : BlockDevice :=
  { d with
    writes := d.writes + 1
    served := d.served ++ [request]
    blocks := request.apply d.blocks
    sector := match request with
      | .block _ _ => d.sector
      | .superblock img => img }

def serve (d : BlockDevice) (requests : List Request) : BlockDevice := requests.foldl wrote d

variable {d : BlockDevice}

theorem serve_snoc (d : BlockDevice) (requests : List Request) (request : Request) :
    d.serve (requests ++ [request]) = (d.serve requests).wrote request := by
  rw [serve, List.foldl_concat]
  rfl

theorem serve_served (d : BlockDevice) (requests : List Request) : (d.serve requests).served = d.served ++ requests := by
  induction requests generalizing d with
  | nil => exact (List.append_nil _).symm
  | cons request requests ih => exact (ih (d.wrote request)).trans (List.append_cons _ _ _).symm

theorem serve_blocks (d : BlockDevice) (requests : List Request) :
    (d.serve requests).blocks = requests.foldl Request.apply d.blocks := by
  induction requests generalizing d with
  | nil => rfl
  | cons request requests ih => exact ih (d.wrote request)

theorem serve_refuse (d : BlockDevice) (requests : List Request) : (d.serve requests).refuse = d.refuse := by
  induction requests generalizing d with
  | nil => rfl
  | cons request requests ih => exact ih (d.wrote request)

end BlockDevice

namespace Cached

/-- The state of a commit under way: the device has served `t`, and nothing else moved. -/
structure Under (c : Cached) (t : List Request) (s : Cached) : Prop where
  dev : s.dev = c.dev.serve t
  vol : s.vol = c.vol
  jnl : s.jnl = c.jnl
  lines : t ≠ [] → s.lines = fun _ => none

/-- A refusal cut the writes `plan` short. -/
def Cut (c : Cached) (plan : List Request) (s : Cached) : Prop :=
  (∃ n, c.dev.refuse n = true) ∧ ∃ t, t <+: plan ∧ s.dev.served = c.dev.served ++ t

variable {c s : Cached} {t plan : List Request}

theorem Cut.mono (h : Cut c t s) (rest : List Request) : Cut c (t ++ rest) s := by
  obtain ⟨hrefused, u, hu, hserved⟩ := h
  exact ⟨hrefused, u, hu.trans (List.prefix_append _ _), hserved⟩

theorem devWrite_post {dev : BlockDevice} (hdev : s.dev = dev.serve t) (request : Request) :
    Post (fun _ s' => s' = { s with dev := dev.serve (t ++ [request]) })
      (fun s' => (∃ n, dev.refuse n = true) ∧ s'.dev.served = dev.served ++ t) (devWrite request s) := by
  simp only [devWrite]
  split_ifs with hrefuse
  · rw [hdev, dev.serve_refuse] at hrefuse
    refine ⟨⟨_, hrefuse⟩, ?_⟩
    show s.dev.served = _
    rw [hdev, dev.serve_served]
  · show _ = _
    rw [dev.serve_snoc, ← hdev]
    cases request with
    | block block img => rfl
    | superblock img => rfl

theorem writeBlockNow_post (hw : c.vol.writable = true) (hs : Under c t s) (block : ℕ) (img : Buf) :
    Post (fun _ => Under c (t ++ [.block block img])) (Cut c t)
      ((writeBlockNow block img).onFail dropEntries s) := by
  refine Post.onFail (E := Cut c t) ?_ fun s' hcut => hcut
  simp only [writeBlockNow, dropLines, modify_bind_run, get_bind_run, check, hs.vol, hw, if_true, pure_bind_run]
  have hdev : ({ s with lines := fun _ => none } : Cached).dev = c.dev.serve t := hs.dev
  rw [hs.vol] at hdev
  refine (devWrite_post hdev (.block block img)).mono ?_ ?_
  · rintro _ s' rfl
    exact ⟨rfl, rfl, hs.jnl, fun _ => rfl⟩
  · rintro s' ⟨hrefused, hserved⟩
    exact ⟨hrefused, t, List.prefix_rfl, hserved⟩

/-! ## The entry -/

/-- The log blocks of the data blocks from `position` on. -/
def dataRequests (logBlock length : ℕ) : ℕ → List (ℕ × Buf) → List Request
  | _, [] => []
  | position, (_, img) :: order =>
    .block ((logBlock + position) % 2 ^ 64) img :: dataRequests logBlock length ((position + 1) % 2 ^ 64 % length) order

/-- The position in the log past `n` blocks from `position` on. -/
def past (length : ℕ) : ℕ → ℕ → ℕ
  | position, 0 => position
  | position, n + 1 => past length ((position + 1) % 2 ^ 64 % length) n

theorem writeLog_post (hw : c.vol.writable = true) (logBlock length : ℕ) (order : List (ℕ × Buf)) {position : ℕ}
    (hs : Under c t s) :
    Post (fun p s' => p = past length position order.length ∧ Under c (t ++ dataRequests logBlock length position order) s')
      (Cut c (t ++ dataRequests logBlock length position order)) (writeLog logBlock length position order s) := by
  induction order generalizing t s position with
  | nil =>
    rw [dataRequests, List.append_nil]
    exact ⟨rfl, hs⟩
  | cons e order ih =>
    obtain ⟨home, img⟩ := e
    rw [dataRequests, List.append_cons]
    refine Post.bind ((writeBlockNow_post hw hs _ img).mono (fun _ _ h => h) fun s' hcut => ?_) fun _ s' hs' => ih hs'
    rw [← List.append_cons]
    exact hcut.mono _

def entryRequests (v : Volume) (entries : List (ℕ × Buf)) : List Request :=
  .block ((v.toBlock v.log + v.logEnd) % 2 ^ 64) (buildArray v.toGeometry (sortEntries v.toGeometry entries)) ::
    dataRequests (v.toBlock v.log) v.logLength ((v.logEnd + 1) % 2 ^ 64 % v.logLength) (sortEntries v.toGeometry entries)

def entryEnd (v : Volume) (entries : List (ℕ × Buf)) : ℕ :=
  past v.logLength ((v.logEnd + 1) % 2 ^ 64 % v.logLength) entries.length

def marked (v : Volume) (entries : List (ℕ × Buf)) : Volume := (v.setLogEnd (entryEnd v entries)).setFlags kDirty

def retired (v : Volume) (entries : List (ℕ × Buf)) : Volume :=
  ((marked v entries).setLogStart (entryEnd v entries)).setFlags kClean

/-- The writes of a commit that is let through. -/
def planned (v : Volume) (entries : List (ℕ × Buf)) : List Request :=
  entryRequests v entries ++ [.superblock (marked v entries).superblock] ++
    entries.map (fun e => .block e.1 e.2) ++ [.superblock (retired v entries).superblock]

theorem marked_toGeometry (v : Volume) (entries : List (ℕ × Buf)) : (marked v entries).toGeometry = v.toGeometry := by
  unfold marked Volume.setLogEnd Volume.setFlags
  rfl

theorem marked_writable (v : Volume) (entries : List (ℕ × Buf)) : (marked v entries).writable = v.writable := by
  unfold marked Volume.setLogEnd Volume.setFlags
  rfl

theorem retired_toGeometry (v : Volume) (entries : List (ℕ × Buf)) : (retired v entries).toGeometry = v.toGeometry := by
  unfold retired Volume.setLogStart Volume.setFlags
  exact marked_toGeometry v entries

theorem retired_writable (v : Volume) (entries : List (ℕ × Buf)) : (retired v entries).writable = v.writable := by
  unfold retired Volume.setLogStart Volume.setFlags
  exact marked_writable v entries

theorem writeSuperblockNow_post {dev : BlockDevice} (hdev : s.dev = dev.serve t) (hw : s.vol.writable = true) :
    Post (fun _ s' => s' = { s with dev := dev.serve (t ++ [.superblock s.vol.superblock]) })
      (fun s' => (∃ n, dev.refuse n = true) ∧ s'.dev.served = dev.served ++ t) (writeSuperblockNow s) := by
  simp only [writeSuperblockNow, get_bind_run, check, hw, if_true, pure_bind_run]
  exact devWrite_post hdev _

theorem length_sortEntries (g : Geometry) (entries : List (ℕ × Buf)) : (sortEntries g entries).length = entries.length :=
  (sortEntries_perm entries).length_eq

theorem record_post (hw : c.vol.writable = true) (entries : List (ℕ × Buf)) :
    Post (fun p s => p = entryEnd c.vol entries ∧
        s.dev = c.dev.serve (entryRequests c.vol entries ++ [.superblock (marked c.vol entries).superblock]) ∧
        s.vol = marked c.vol entries ∧ s.jnl = c.jnl ∧ s.lines = fun _ => none)
      (Cut c (entryRequests c.vol entries ++ [.superblock (marked c.vol entries).superblock])) (record entries c) := by
  simp only [record, get_bind_run]
  have hstart : Under c [] c := ⟨rfl, rfl, rfl, fun hne => absurd rfl hne⟩
  refine Post.bind ((writeBlockNow_post hw hstart _ _).mono (fun _ _ h => h) fun s hcut => ?_) fun _ s hs => ?_
  · exact hcut.mono _
  refine Post.bind ((writeLog_post hw _ _ _ hs).mono (fun _ _ h => h) fun s hcut => ?_) fun p s' hs' => ?_
  · exact hcut.mono _
  obtain ⟨rfl, hs'⟩ := hs'
  have hend : past c.vol.logLength ((c.vol.logEnd + 1) % 2 ^ 64 % c.vol.logLength)
      (sortEntries c.vol.toGeometry entries).length = entryEnd c.vol entries := by
    rw [length_sortEntries]
    rfl
  rw [hend, modifyVol, modify_bind_run, hs'.vol]
  have hdev : ({ s' with vol := marked c.vol entries } : Cached).dev = c.dev.serve (entryRequests c.vol entries) := hs'.dev
  refine Post.bind (Post.onFail (writeSuperblockNow_post hdev ((marked_writable c.vol entries).trans hw)) fun s hcut => ?_) ?_
  · exact ⟨hcut.1, _, List.prefix_append _ _, hcut.2⟩
  · rintro _ s rfl
    exact ⟨rfl, rfl, rfl, hs'.jnl, hs'.lines (List.cons_ne_nil _ _)⟩

theorem checkpoint_post (hw : c.vol.writable = true) (entries : List (ℕ × Buf)) (hs : Under c t s) :
    Post (fun _ => Under c (t ++ entries.map fun e => .block e.1 e.2))
      (Cut c (t ++ entries.map fun e => .block e.1 e.2)) (checkpoint entries s) := by
  induction entries generalizing t s with
  | nil =>
    rw [List.map_nil, List.append_nil]
    exact hs
  | cons e entries ih =>
    rw [List.map_cons, List.append_cons]
    refine Post.bind ((writeBlockNow_post hw hs _ _).mono (fun _ _ h => h) fun s hcut => ?_) fun _ s' hs' => ih hs'
    rw [← List.append_cons]
    exact hcut.mono _

/-- **A commit that is let through** writes what is planned, or is cut short by a refusal. -/
theorem commit_post (hw : c.vol.writable = true) (hactive : c.jnl.active = true) (hsome : c.jnl.entries ≠ [])
    (hroom : roomFor c.vol c.jnl.entries.length = true) :
    Post (fun _ s => s.dev = c.dev.serve (planned c.vol c.jnl.entries) ∧ s.vol = retired c.vol c.jnl.entries ∧
        s.jnl = { c.jnl with active := false, entries := [], committed := false, snapshotValid := false } ∧
        s.lines = fun _ => none)
      (Cut c (planned c.vol c.jnl.entries)) (commit c) := by
  have hempty : c.jnl.entries.isEmpty = false := List.isEmpty_eq_false_iff.2 hsome
  simp only [commit, get_bind_run, hactive, hempty, hroom, modifyJnl, modify_bind_run, Bool.not_true, Bool.false_eq_true, if_false]
  refine Post.bind ((record_post (c := { c with jnl := { c.jnl with active := false } }) hw c.jnl.entries).mono
    (fun _ _ h => h) fun s hcut => ?_) fun p s hs => ?_
  · exact (hcut.mono _).mono _
  obtain ⟨rfl, hdev, hvol, hjnl, hlines⟩ := hs
  -- from here on the volume is the marked one
  let c₂ : Cached := { c with vol := marked c.vol c.jnl.entries, jnl := { c.jnl with active := false, committed := true } }
  have hunder : Under c₂ (entryRequests c.vol c.jnl.entries ++ [.superblock (marked c.vol c.jnl.entries).superblock])
      { s with jnl := { s.jnl with committed := true } } := ⟨hdev, hvol, by rw [hjnl], fun _ => hlines⟩
  have hw₂ : c₂.vol.writable = true := (marked_writable c.vol c.jnl.entries).trans hw
  rw [modify_bind_run]
  refine Post.bind ((checkpoint_post hw₂ c.jnl.entries hunder).mono (fun _ _ h => h) fun s hcut => ?_) fun _ s' hs' => ?_
  · exact hcut.mono _
  have hdev' : ({ s' with
      vol := retired c.vol c.jnl.entries
      jnl := { c.jnl with active := false, entries := [], committed := false, snapshotValid := false } } : Cached).dev =
      c.dev.serve (entryRequests c.vol c.jnl.entries ++ [.superblock (marked c.vol c.jnl.entries).superblock] ++
        c.jnl.entries.map fun e => .block e.1 e.2) := hs'.dev
  rw [modifyVol, modify_bind_run, modify_bind_run, hs'.vol, hs'.jnl]
  refine (writeSuperblockNow_post hdev' ((retired_writable c.vol c.jnl.entries).trans hw)).mono ?_ ?_
  · rintro _ s'' rfl
    exact ⟨rfl, rfl, rfl, hs'.lines (by simp)⟩
  · rintro s'' ⟨hrefused, hserved⟩
    exact ⟨hrefused, _, List.prefix_append _ _, hserved⟩

/-! ## The ring -/

theorem past_eq {length : ℕ} (hlength : length < 2 ^ 16) {position : ℕ} (hposition : position < length) (n : ℕ) :
    past length position n = (position + n) % length := by
  induction n generalizing position with
  | zero => exact (Nat.mod_eq_of_lt hposition).symm
  | succ n ih =>
    rw [past, Nat.mod_eq_of_lt (by omega : position + 1 < 2 ^ 64), ih (Nat.mod_lt _ (by omega)), Nat.mod_add_mod,
      Nat.add_assoc, Nat.add_comm 1 n]

theorem getElem?_dataRequests {logBlock length position k : ℕ} {order : List (ℕ × Buf)} {request : Request}
    (h : (dataRequests logBlock length position order)[k]? = some request) :
    ∃ img, request = .block ((logBlock + past length position k) % 2 ^ 64) img := by
  induction order generalizing position k with
  | nil => cases h
  | cons e order ih =>
    cases k with
    | zero => exact ⟨e.2, (Option.some.inj h).symm⟩
    | succ k =>
      rw [dataRequests, List.getElem?_cons_succ] at h
      have hrest := ih h
      exact hrest

theorem length_dataRequests (logBlock length position : ℕ) (order : List (ℕ × Buf)) :
    (dataRequests logBlock length position order).length = order.length := by
  induction order generalizing position with
  | nil => rfl
  | cons e order ih => exact congrArg Nat.succ (ih _)

theorem length_entryRequests (v : Volume) (entries : List (ℕ × Buf)) :
    (entryRequests v entries).length = entries.length + 1 := by
  rw [entryRequests, List.length_cons, length_dataRequests, length_sortEntries]

/-- What a commit may have written: up to the superblock that commits the entry only blocks of the
    log run, and that superblock is no clean one. -/
structure Contained (c : Cached) (t : List Request) : Prop where
  inside : ∀ k request, k ≤ c.jnl.entries.length → t[k]? = some request →
    ∃ p < c.vol.logLength, ∃ img, request = .block (c.vol.toBlock c.vol.log + p) img
  pending : ∀ request, t[c.jnl.entries.length + 1]? = some request →
    ∃ img, request = .superblock img ∧ le 8 img Superblock.kLogStart ≠ le 8 img Superblock.kLogEnd

theorem Contained.of_prefix {u : List Request} (h : Contained c u) (ht : t <+: u) : Contained c t := by
  have hget : ∀ {k : ℕ} {request : Request}, t[k]? = some request → u[k]? = some request := by
    obtain ⟨rest, rfl⟩ := ht
    intro k request hk
    rw [List.getElem?_append_left (List.getElem?_eq_some_iff.1 hk).1, hk]
  exact ⟨fun k request hk hsome => h.inside k request hk (hget hsome), fun request hsome => h.pending request (hget hsome)⟩

variable {v : Volume} {entries : List (ℕ × Buf)}

theorem getElem?_planned_entry {k : ℕ} (hk : k ≤ entries.length) :
    (planned v entries)[k]? = (entryRequests v entries)[k]? := by
  have hlen := length_entryRequests v entries
  rw [planned, List.append_assoc, List.append_assoc, List.getElem?_append_left (by omega)]

theorem getElem?_planned_mark : (planned v entries)[entries.length + 1]? = some (.superblock (marked v entries).superblock) := by
  have hlen := length_entryRequests v entries
  rw [planned, List.append_assoc, List.append_assoc, List.getElem?_append_right (by omega), hlen, Nat.sub_self]
  rfl

section
variable (hv : v.Coherent)
include hv

theorem log_lt : v.toBlock v.log + v.logLength < 2 ^ 64 := by
  have hc := hv.checked
  have hshift : 2 ^ v.agShift ≤ 2 ^ 30 := Nat.pow_le_pow_right (by norm_num) hc.agShift.2
  have hgroup : v.log.allocationGroup <<< v.agShift < 2 ^ 62 := by
    rw [Nat.shiftLeft_eq]
    exact (Nat.mul_lt_mul_of_lt_of_le hc.log.allocationGroup hshift (by norm_num)).trans_eq (by norm_num)
  have hblock : v.toBlock v.log < 2 ^ 62 :=
    Nat.or_lt_two_pow hgroup (hc.log.start.trans (by decide))
  have hlength : v.logLength < 2 ^ 16 := hc.log.length
  omega

theorem logEnd_lt : v.logEnd < 2 ^ 64 := by
  rw [hv.cursors.2.2]
  exact (le_lt 8 _ _).trans_eq (by norm_num)

theorem entryEnd_eq (entries : List (ℕ × Buf)) (hlength : 2 ≤ v.logLength) :
    entryEnd v entries = ((v.logEnd + 1) % 2 ^ 64 + entries.length) % v.logLength := by
  have hlt : v.logLength < 2 ^ 16 := hv.checked.log.length
  rw [entryEnd, past_eq hlt (Nat.mod_lt _ (by omega)), Nat.mod_add_mod]

theorem le_marked (entries : List (ℕ × Buf)) (hlength : 2 ≤ v.logLength) :
    le 8 (marked v entries).superblock Superblock.kLogStart = v.logStart ∧
      le 8 (marked v entries).superblock Superblock.kLogEnd = entryEnd v entries := by
  have hlt : entryEnd v entries < 2 ^ 64 := by
    have h₁ : entryEnd v entries < v.logLength := by
      rw [entryEnd_eq hv entries hlength]
      exact Nat.mod_lt _ (by omega)
    have h₂ : v.logLength < 2 ^ 16 := hv.checked.log.length
    omega
  obtain ⟨-, hstart, hend⟩ := ((hv.setLogEnd hlt).setFlags kDirty).cursors
  exact ⟨hstart.symm, hend.symm⟩

end

/-- The entry's first block is at the log's end, whether that is in the run or not. -/
theorem contained_iff (hv : c.vol.Coherent) (hlength : 2 ≤ c.vol.logLength) (hsome : c.jnl.entries ≠ [])
    (hroom : c.jnl.entries.length + 1 ≤ c.vol.logLength) (hempty : c.vol.logStart = c.vol.logEnd) :
    Contained c (planned c.vol c.jnl.entries) ↔
      c.vol.logEnd < c.vol.logLength ∧ c.jnl.entries.length + 1 ≠ c.vol.logLength := by
  have hlog := log_lt hv
  have hend := logEnd_lt hv
  have hpos := List.length_pos_iff.2 hsome
  obtain ⟨hmarkStart, hmarkEnd⟩ := le_marked hv c.jnl.entries hlength
  have hentryEnd := entryEnd_eq hv c.jnl.entries hlength
  constructor
  · intro h
    have hinside : c.vol.logEnd < c.vol.logLength := by
      obtain ⟨p, hp, img, hblock⟩ := h.inside 0 _ (Nat.zero_le _) (getElem?_planned_entry (Nat.zero_le _))
      have heq := (Request.block.inj hblock).1
      by_contra hpast
      omega
    refine ⟨hinside, fun hfull => ?_⟩
    obtain ⟨img, himg, hne⟩ := h.pending _ getElem?_planned_mark
    obtain rfl := Request.superblock.inj himg
    refine hne ?_
    rw [hmarkStart, hmarkEnd, hentryEnd, hempty, Nat.mod_eq_of_lt (by omega : c.vol.logEnd + 1 < 2 ^ 64),
      Nat.add_assoc, Nat.add_comm 1, hfull, Nat.add_mod_right, Nat.mod_eq_of_lt hinside]
  · rintro ⟨hinside, hfull⟩
    refine ⟨fun k request hk hget => ?_, fun request hget => ?_⟩
    · rw [getElem?_planned_entry hk] at hget
      cases k with
      | zero =>
        have hfirst := (Option.some.inj hget).symm
        rw [Nat.mod_eq_of_lt (by omega)] at hfirst
        exact ⟨c.vol.logEnd, hinside, _, hfirst⟩
      | succ k =>
        obtain ⟨img, rfl⟩ := getElem?_dataRequests hget
        have hlt : past c.vol.logLength ((c.vol.logEnd + 1) % 2 ^ 64 % c.vol.logLength) k < c.vol.logLength := by
          have hshort : c.vol.logLength < 2 ^ 16 := hv.checked.log.length
          rw [past_eq hshort (Nat.mod_lt _ (by omega))]
          exact Nat.mod_lt _ (by omega)
        refine ⟨_, hlt, img, ?_⟩
        rw [Nat.mod_eq_of_lt (by omega)]
    · rw [getElem?_planned_mark] at hget
      refine ⟨_, (Option.some.inj hget).symm, ?_⟩
      rw [hmarkStart, hmarkEnd, hentryEnd, hempty, Nat.mod_eq_of_lt (by omega : c.vol.logEnd + 1 < 2 ^ 64)]
      by_cases hwrap : c.vol.logEnd + 1 + c.jnl.entries.length < c.vol.logLength
      · rw [Nat.mod_eq_of_lt hwrap]
        omega
      · rw [Nat.mod_eq_sub_mod (by omega), Nat.mod_eq_of_lt (by omega)]
        omega

theorem commit_served (hw : c.vol.writable = true) (hactive : c.jnl.active = true) (hsome : c.jnl.entries ≠ [])
    (hroom : roomFor c.vol c.jnl.entries.length = true) :
    ∃ u, u <+: planned c.vol c.jnl.entries ∧ (commit c).2.dev.served = c.dev.served ++ u ∧
      ((∀ n, c.dev.refuse n = false) → u = planned c.vol c.jnl.entries) := by
  have hdone := commit_post hw hactive hsome hroom
  rcases hr : commit c with ⟨_ | u, s⟩ <;> rw [hr] at hdone
  · obtain ⟨⟨n, hn⟩, t, ht, hs⟩ := hdone
    exact ⟨t, ht, hs, fun hnever => absurd (hn.symm.trans (hnever n)) (by decide)⟩
  · refine ⟨_, List.prefix_rfl, ?_, fun _ => rfl⟩
    rw [hdone.1, BlockDevice.serve_served]

/-- A volume with its journal open. -/
structure Ready (v : Volume) : Prop where
  coherent : v.Coherent
  openable : Journal.openable v = true

/-- A transaction the space check lets into an empty log. -/
structure LetIn (c : Cached) : Prop where
  active : c.jnl.active = true
  some : c.jnl.entries ≠ []
  most : c.jnl.entries.length ≤ kMaxJournalBlocks
  room : roomFor c.vol c.jnl.entries.length = true
  empty : c.vol.logStart = c.vol.logEnd

theorem Ready.writable (h : Ready v) : v.writable = true ∧ 2 ≤ v.logLength := by
  obtain ⟨⟨hw, hlength⟩, -⟩ : (v.writable = true ∧ 2 ≤ v.logLength) ∧ v.blockSize ≤ kMaxBlockSize := by
    simpa [Journal.openable] using h.openable
  exact ⟨hw, hlength⟩

theorem LetIn.fits (h : LetIn c) (hv : c.vol.Coherent) : c.jnl.entries.length + 1 ≤ c.vol.logLength := by
  have hroom := h.room
  rw [roomFor, Bool.and_eq_true, decide_eq_true_iff, Volume.freeBlocks_of_empty hv h.empty] at hroom
  exact hroom.1

def refusing (c : Cached) (refuse : ℕ → Bool) : Cached := { c with dev := { c.dev with refuse } }

/-- **The log's boundary**: a commit into an empty log is contained, whatever is refused, when the
    log's end lies in the run and the entry leaves a block of it free. -/
theorem commit_contained_iff (hv : Ready c.vol) (hc : LetIn c) :
    (∀ refuse t, (commit (c.refusing refuse)).2.dev.served = c.dev.served ++ t → Contained c t) ↔
      c.vol.logEnd < c.vol.logLength ∧ c.jnl.entries.length + 1 ≠ c.vol.logLength := by
  obtain ⟨hw, hlength⟩ := hv.writable
  have hserved := fun refuse => commit_served (c := c.refusing refuse) hw hc.active hc.some hc.room
  rw [← contained_iff hv.coherent hlength hc.some (hc.fits hv.coherent) hc.empty]
  constructor
  · intro h
    obtain ⟨u, -, hu, hall⟩ := hserved fun _ => false
    obtain rfl : u = planned c.vol c.jnl.entries := hall fun _ => rfl
    exact h (fun _ => false) _ hu
  · intro h refuse t ht
    obtain ⟨u, hcut, hu, -⟩ := hserved refuse
    rw [List.append_cancel_left (ht.symm.trans hu)]
    exact h.of_prefix hcut

/-- A transaction of one block on the volume `v`. -/
def ofOne (v : Volume) : Cached where
  dev := ⟨fun _ => zero, v.superblock, [], 0, fun _ => false, 0, fun _ => false⟩
  vol := v
  jnl := ⟨true, [(700, zero)], true, false, v.superblock⟩
  lines := fun _ => none

/-- A block into the log of 512 blocks of a formatted volume. -/
theorem commit_contained_sample : (ofOne sampleVolume).jnl.entries.length + 1 ≠ (ofOne sampleVolume).vol.logLength ∧
    ∀ refuse t, (commit ((ofOne sampleVolume).refusing refuse)).2.dev.served = (ofOne sampleVolume).dev.served ++ t →
      Contained (ofOne sampleVolume) t :=
  ⟨by decide, (commit_contained_iff (c := ofOne sampleVolume) ⟨sampleVolume_coherent, by decide⟩
    ⟨rfl, by simp [ofOne], by simp [ofOne, kMaxJournalBlocks], by decide, rfl⟩).2 ⟨by decide, by decide⟩⟩

def tightVolume : Volume :=
  { sampleVolume with
    log := ⟨0, 2, 2⟩
    superblock := putRun sampleVolume.superblock Superblock.kLog ⟨0, 2, 2⟩ }

theorem tightVolume_coherent : tightVolume.Coherent := by
  refine ⟨by with_unfolding_all rfl, fun i hi => ?_⟩
  simp only [kSuperblockBytes] at hi
  simp only [tightVolume, Superblock.kLog]
  rw [putRun_of_notMem (by omega)]
  exact sampleVolume_coherent.size i hi

/-- An entry that fills a log of two blocks is committed by a clean superblock. -/
theorem commit_uncontained :
    ¬ ∀ c : Cached, Ready c.vol → LetIn c →
      ∀ t, (commit c).2.dev.served = c.dev.served ++ t → Contained c t := by
  intro h
  have hv : Ready (ofOne tightVolume).vol := ⟨tightVolume_coherent, by decide⟩
  have hc : LetIn (ofOne tightVolume) :=
    ⟨rfl, by simp [ofOne], by simp [ofOne, kMaxJournalBlocks], by decide, rfl⟩
  obtain ⟨u, -, hu, hall⟩ := commit_served hv.writable.1 hc.active hc.some hc.room
  obtain rfl := hall fun _ => rfl
  have hcontained := (contained_iff hv.coherent hv.writable.2 hc.some (hc.fits hv.coherent) hc.empty).1 (h _ hv hc _ hu)
  exact hcontained.2 rfl

end Cached

end Aegir.Bfs
