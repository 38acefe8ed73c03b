/-
  Handles of files (`main.cc`, `handle_lookup`, `handle_alloc`, `answer_open`,
  `answer_write` and `answer_write_frame`).
-/
import Aegir.Fs.Paths

namespace Aegir.Fs

open Aegir.Lib Aegir.Lib.Buf Aegir.Lib.Fallible Aegir.Bfs Aegir.Bfs.Files

/-! ## The table -/

def Handle.Writes (row : Handle) : Prop := row.serial ≠ 0 ∧ row.kind = .file

/-- Serials are given out in order, one to a row. -/
structure Service.Numbered {σ : Type} (s : Service σ) : Prop where
  bounded : ∀ row ∈ s.rows, row.serial ≤ s.handleSerial
  unique : ∀ row ∈ s.rows, ∀ row' ∈ s.rows, row.serial = row'.serial → row.serial ≠ 0 → row = row'

/-- What became of the table: a file's row was there before, or is new and then for a
    block in `P`. -/
structure Rows {σ : Type} (P : Set ℕ) (s s' : Service σ) : Prop where
  serial : s.handleSerial ≤ s'.handleSerial
  numbered : s.Numbered → s'.Numbered
  origin : ∀ row' ∈ s'.rows, row'.Writes →
    (s.handleSerial < row'.serial ∧ row'.inodeBlock ∈ P) ∨ ∃ row ∈ s.rows, row.Writes ∧
      row.serial = row'.serial ∧ row.inodeBlock = row'.inodeBlock

instance {σ : Type} (P : Set ℕ) : IsPreorder (Service σ) (Rows P) where
  refl s := ⟨le_refl _, id, fun row' hrow' hw => Or.inr ⟨row', hrow', hw, rfl, rfl⟩⟩
  trans := by
    rintro s s' s'' ⟨h₁, h₂, h₃⟩ ⟨h₁', h₂', h₃'⟩
    refine ⟨h₁.trans h₁', h₂' ∘ h₂, fun row'' hrow'' hw'' => ?_⟩
    rcases h₃' row'' hrow'' hw'' with ⟨hlt, hP⟩ | ⟨row', hrow', hw', hserial, hblock⟩
    · exact Or.inl ⟨h₁.trans_lt hlt, hP⟩
    · rcases h₃ row' hrow' hw' with ⟨hlt, hP⟩ | ⟨row, hrow, hw, hserial', hblock'⟩
      · exact Or.inl ⟨hserial ▸ hlt, hblock ▸ hP⟩
      · exact Or.inr ⟨row, hrow, hw, hserial'.trans hserial, hblock'.trans hblock⟩

section
variable {σ : Type} {P : Set ℕ}

open Service

theorem Rows.of_rows {s s' : Service σ} (hr : s'.rows = s.rows) (hs : s'.handleSerial = s.handleSerial) :
    Rows P s s' := by
  refine ⟨hs.ge, fun h => ⟨?_, ?_⟩, fun row' hrow' hw => Or.inr ⟨row', hr ▸ hrow', hw, rfl, rfl⟩⟩
  · rw [hr, hs]; exact h.bounded
  · rw [hr]; exact h.unique

instance {α : Type} (m : Act σ α) : Keeps (Rows P) (Service.write m) := ⟨fun _ => .of_rows rfl rfl⟩

theorem handleAlloc_rows {badge : ℕ} {f : Handle → Handle} (s : Service σ)
    (h : ∀ row, (f row).kind = .file → (f row).inodeBlock ∈ P) : Rows P s (handleAlloc badge f s).2 := by
  unfold handleAlloc
  dsimp only
  split
  · rename_i hi
    set i := s.rows.findIdx (·.serial == 0)
    set g : Handle → Handle := fun row => { f row with serial := s.handleSerial + 1, badge }
    refine ⟨Nat.le_succ _, fun hs => ⟨fun row hrow => ?_, ?_⟩, fun row' hrow' hw => ?_⟩
    · rcases mem_modify hrow with hrow | ⟨old, -, rfl⟩
      · exact Nat.le_succ_of_le (hs.bounded row hrow)
      · exact le_refl _
    · -- the new serial is larger than every other
      intro row hrow row' hrow' heq hne
      have hmem : ∀ row ∈ s.rows.modify i g, row ∈ s.rows ∨ row = g s.rows[i] := by
        intro row hrow
        obtain ⟨j, hj, rfl⟩ := List.getElem_of_mem hrow
        rw [List.length_modify] at hj
        rw [List.getElem_modify]
        split
        · subst ‹i = j›
          exact Or.inr rfl
        · exact Or.inl (List.getElem_mem hj)
      have hserial : (g s.rows[i]).serial = s.handleSerial + 1 := rfl
      rcases hmem row hrow with hrow | rfl <;> rcases hmem row' hrow' with hrow' | rfl
      · exact hs.unique row hrow row' hrow' heq hne
      · have := hs.bounded row hrow
        omega
      · have := hs.bounded row' hrow'
        omega
      · rfl
    · rcases mem_modify hrow' with hrow' | ⟨old, -, rfl⟩
      · exact Or.inr ⟨row', hrow', hw, rfl, rfl⟩
      · exact Or.inl ⟨Nat.lt_succ_self _, h old hw.2⟩
  · exact refl_of (Rows P) s

theorem map_rows {s : Service σ} {f : Handle → Handle}
    (h : ∀ row ∈ s.rows, (f row).serial = 0 ∨ (f row).serial = row.serial ∧ ((f row).kind = .file →
      row.kind = .file ∧ (f row).inodeBlock = row.inodeBlock)) : Rows P s { s with rows := s.rows.map f } := by
  refine ⟨le_refl _, fun hs => ⟨fun row' hrow' => ?_, ?_⟩, fun row' hrow' hw => ?_⟩
  · obtain ⟨row, hrow, rfl⟩ := List.mem_map.mp hrow'
    rcases h row hrow with h₀ | ⟨h₀, -⟩
    · rw [h₀]; exact Nat.zero_le _
    · rw [h₀]; exact hs.bounded row hrow
  · intro row' hrow' row'' hrow'' heq hne
    obtain ⟨row, hrow, rfl⟩ := List.mem_map.mp hrow'
    obtain ⟨row₂, hrow₂, rfl⟩ := List.mem_map.mp hrow''
    have h₁ := (h row hrow).resolve_left hne
    have h₂ := (h row₂ hrow₂).resolve_left (heq ▸ hne)
    rw [hs.unique row hrow row₂ hrow₂ (by rw [← h₁.1, ← h₂.1, heq]) (h₁.1 ▸ hne)]
  · obtain ⟨row, hrow, rfl⟩ := List.mem_map.mp hrow'
    obtain ⟨h₁, h₂⟩ := (h row hrow).resolve_left hw.1
    obtain ⟨h₃, h₄⟩ := h₂ hw.2
    exact Or.inr ⟨row, hrow, ⟨h₁ ▸ hw.1, h₃⟩, h₁.symm, h₄.symm⟩

instance (serial : ℕ) : Keeps (Rows (σ := σ) P) (.modify (setRow serial release)) := by
  refine keeps_modify fun s => map_rows fun row _ => ?_
  split
  · exact Or.inl rfl
  · exact Or.inr ⟨rfl, fun hk => ⟨hk, rfl⟩⟩

variable (B : Lower σ) (parse : List UInt8 → Option Query) (indexWalk : σ → ℕ → Key → ℕ → Option ℕ)

instance (badge serial offset : ℕ) (data : List UInt8) (now : ℕ) :
    Keeps (Rows P) (answerWrite B badge serial offset data now) := by
  unfold answerWrite
  infer_instance

instance (badge serial offset wanted frameOffset : ℕ) (frame : Option (List UInt8)) (now : ℕ) :
    Keeps (Rows P) (answerWriteFrame B badge serial offset wanted frameOffset frame now) := by
  unfold answerWriteFrame
  dsimp only
  infer_instance

instance (badge serial : ℕ) : Keeps (Rows (σ := σ) P) (answerClose badge serial) := by
  unfold answerClose
  infer_instance

instance (badge : ℕ) : Keeps (Rows (σ := σ) P) (answerReap badge) := by
  refine keeps_modify fun s => map_rows fun row _ => ?_
  split
  · exact Or.inl rfl
  · exact Or.inr ⟨rfl, fun hk => ⟨hk, rfl⟩⟩

instance (badge now : ℕ) (names : List Key) (block : ℕ) : Keeps (Rows P) (makeDirs B badge now names block) := by
  induction names generalizing block with
  | nil => exact keeps_pure _
  | cons name names ih =>
    unfold makeDirs
    repeat' first | infer_instance | refine keeps_bind ?_ fun _ => ?_ | split

instance (badge : ℕ) (path : List UInt8) (now : ℕ) : Keeps (Rows P) (answerMkdir B badge path now) := by
  unfold answerMkdir
  infer_instance

instance (badge : ℕ) (path : List UInt8) : Keeps (Rows P) (answerRemove B badge path) := by
  unfold answerRemove
  infer_instance

instance (badge : ℕ) (source target : List UInt8) : Keeps (Rows P) (answerRename B badge source target) := by
  unfold answerRename
  infer_instance

instance (badge : ℕ) (path : List UInt8) (size now : ℕ) : Keeps (Rows P) (answerTruncate B badge path size now) := by
  unfold answerTruncate
  infer_instance

instance (badge : ℕ) (text : List UInt8) (flags : ℕ) : Keeps (Rows P) (answerQueryOpen B parse badge text flags) := by
  refine keeps_get_bind fun s => check_bind_keeps fun _ => ofOption_bind_keeps fun q _ => ?_
  exact handleAlloc_rows s fun _ hk => by cases hk

instance (badge : ℕ) (text : List UInt8) (kernel : Bool) :
    Keeps (Rows P) (answerQueryOpenLive B parse badge text kernel) := by
  refine keeps_get_bind fun s => check_bind_keeps fun _ => ofOption_bind_keeps fun q _ => check_bind_keeps fun _ => ?_
  refine ofOption_bind_keeps fun slot _ => check_bind_keeps fun _ => ?_
  exact handleAlloc_rows s fun _ hk => by cases hk

instance (badge serial : ℕ) : Keeps (Rows P) (answerQueryNext B parse indexWalk badge serial) := by
  refine keeps_get_bind fun s => ?_
  refine ofOption_bind_keeps fun row _ => check_bind_keeps fun hkind => ofOption_bind_keeps fun q _ => ?_
  have hadv := advance_row B indexWalk s.store badge q (refresh s.changeGeneration row)
  have hrow : (refresh s.changeGeneration row).serial = row.serial ∧
      (refresh s.changeGeneration row).kind = row.kind := by
    unfold refresh
    split <;> exact ⟨rfl, rfl⟩
  refine trans_of (Rows P) (map_rows fun row' _ => ?_) ((keeps_ofOption (R := Rows P) _).keeps _)
  split
  · rename_i heq
    rw [hadv]
    refine Or.inr ⟨hrow.1.trans heq.symm, fun hk => ?_⟩
    rw [show row.kind = .file from hrow.2.symm.trans hk] at hkind
    cases hkind
  · exact Or.inr ⟨rfl, fun hk => ⟨hk, rfl⟩⟩

instance (badge serial : ℕ) : Keeps (Rows (σ := σ) P) (answerQueryClose badge serial) := by
  unfold answerQueryClose
  infer_instance

end

/-! ## The files behind the handles -/

def PlainFile (s : Files) (b : ℕ) : Prop := ∃ n, s.node b = some n ∧ n.regular = true ∧ n.dirMode = false

/-- A service between calls: its volume's tree of names, its table, and the files that
    are open to write. -/
structure Guarded (s : Service Files) : Prop where
  names : WellNamed s.store
  numbered : s.Numbered
  opened : ∀ row ∈ s.rows, row.Writes → PlainFile s.store row.inodeBlock

def KeepsNode (b : ℕ) (s s' : Service Files) : Prop := s'.store.node b = s.store.node b

instance (b : ℕ) : IsPreorder (Service Files) (KeepsNode b) where
  refl _ := rfl
  trans _ _ _ h h' := Eq.trans h' h

theorem KeepsNode.of_sameStore {b : ℕ} {s s' : Service Files} (h : SameStore s s') : KeepsNode b s s' :=
  congrArg (Files.node · b) h

def Kept (s s' : Service Files) : Prop := ∀ row ∈ s.rows, row.Writes → KeepsNode row.inodeBlock s s'

theorem Guarded.of_rows {s s' : Service Files} (h : Guarded s) (hn : WellNamed s'.store)
    (hr : Rows { b | PlainFile s'.store b } s s') (hk : Kept s s') : Guarded s' := by
  refine ⟨hn, hr.numbered h.numbered, fun row' hrow' hw' => ?_⟩
  rcases hr.origin row' hrow' hw' with ⟨-, hP⟩ | ⟨row, hrow, hw, -, hblock⟩
  · exact hP
  · obtain ⟨n, hnode, hreg, hd⟩ := h.opened row hrow hw
    rw [← hblock]
    exact ⟨n, (hk row hrow hw).trans hnode, hreg, hd⟩

/-- The call is tidy, and removes no file that is open to write. -/
def Call.Careful (s : Service Files) (badge : ℕ) : Call → Prop
  | .remove path => Call.Tidy s badge (.remove path) ∧
    ∀ p name, walkParent files s.store badge path = some (p, name) → ∀ row ∈ s.rows, row.Writes →
      ((s.store.tree p).bind fun es => es.lookup name) ≠ some row.inodeBlock
  | .truncate path _ _ => ∀ p name, walkParent files s.store badge path = some (p, name) → IsDirectory s.store p
  | .write .. | .writeFrame .. => True
  | c => c.Tidy s badge

/-! ### Calls that keep the open files -/

section
variable {s : Service Files} (h : WellNamed s.store) {badge b : ℕ}
include h

theorem answerRemove_node {path : List UInt8} (hc : Call.Tidy s badge (.remove path))
    (hne : ∀ p name, walkParent files s.store badge path = some (p, name) →
      ((s.store.tree p).bind fun es => es.lookup name) ≠ some b) :
    KeepsNode b s (Service.answerRemove files badge path s).2 := by
  rw [Service.answerRemove, get_bind_run]
  refine check_bind_keeps (R := KeepsNode b) fun _ => ofOption_bind_keeps ?_
  rintro ⟨p, name⟩ hw
  refine ofOption_bind_keeps fun parent _ => check_bind_keeps fun _ => ?_
  obtain ⟨⟨n, hn, hnd⟩, hdot⟩ := hc p name hw
  exact h.remove_node hn hnd hdot (hne p name hw)

theorem answerRename_node (source target : List UInt8) :
    KeepsNode b s (Service.answerRename files badge source target s).2 := by
  rw [Service.answerRename, get_bind_run]
  refine check_bind_keeps (R := KeepsNode b) fun _ => ofOption_bind_keeps ?_
  rintro ⟨p, name⟩ -
  refine ofOption_bind_keeps ?_
  rintro ⟨p', name'⟩ -
  refine check_bind_keeps fun _ => ofOption_bind_keeps fun parent _ => check_bind_keeps fun _ => ?_
  exact h.rename_node p name name' b

end

/-! ### Where a path leads, walked twice -/

section
variable {σ : Type} {B : Lower σ} {s : σ} {badge : ℕ}

theorem walkFrom_append (names : List Key) (name : Key) {b : ℕ} {i : Inode} (hi : B.readInode s b = some i)
    {r : Inode × ℕ} (h : walkFrom B s badge (names ++ [name]) b i = some r) {p : ℕ}
    (hp : walkDirs B s badge names b = some p) {parent : Inode} (hparent : B.readInode s p = some parent) :
    ∃ block, follow B s parent name = some block ∧ B.readInode s block = some r.1 ∧ r.2 = block := by
  induction names generalizing b i with
  | nil =>
    cases hp
    rw [hi] at hparent
    cases hparent
    rw [List.nil_append, walkFrom] at h
    split at h
    · cases h
    · obtain ⟨block, hblock, h⟩ := Option.bind_eq_some_iff.mp h
      obtain ⟨inode, hinode, h⟩ := Option.bind_eq_some_iff.mp h
      cases h
      exact ⟨block, hblock, hinode, rfl⟩
  | cons component names ih =>
    rw [walkDirs, hi, Option.bind_some] at hp
    rw [List.cons_append, walkFrom] at h
    split at h
    · cases h
    · rw [if_neg ‹_›] at hp
      obtain ⟨block, hblock, h⟩ := Option.bind_eq_some_iff.mp h
      obtain ⟨inode, hinode, h⟩ := Option.bind_eq_some_iff.mp h
      rw [hblock, Option.bind_some] at hp
      exact ih hinode h hp

theorem walk_walkParent {path : List UInt8} {inode : Inode} {b p block : ℕ} {name : Key} {parent : Inode}
    (hw : walk B s badge path = some (inode, b)) (hp : walkParent B s badge path = some (p, name))
    (hparent : B.readInode s p = some parent) (hfind : B.dirFind s parent name = some block) :
    B.readInode s block = some inode := by
  obtain ⟨root, hroot, hw⟩ := Option.bind_eq_some_iff.mp hw
  unfold walkParent at hp
  dsimp only at hp
  split at hp
  · cases hp
  · rename_i hname
    obtain ⟨p', hdirs, heq⟩ := Option.map_eq_some_iff.mp hp
    cases heq
    have hne : path.splitOn kSlash ≠ [] := List.splitOn_ne_nil _ _
    have hlast : (path.splitOn kSlash).getLast? = some ((path.splitOn kSlash).getLast hne) :=
      List.getLast?_eq_some_getLast hne
    rw [hlast, Option.getD_some] at hname hfind
    have hcomponents : components path =
        (path.splitOn kSlash).dropLast ++ [(path.splitOn kSlash).getLast hne] := by
      unfold components
      dsimp only
      rw [hlast, if_neg (by simpa using hname), List.dropLast_append_getLast]
    rw [hcomponents] at hw
    obtain ⟨block', hfollow, hread, -⟩ := walkFrom_append _ _ hroot hw hdirs hparent
    rw [follow, if_neg hname, hfind] at hfollow
    cases hfollow
    exact hread

end

/-! ### Calls that write -/

theorem plainFile_of_read {s : Files} (h : WellNamed s) {p block : ℕ} {name : Key} {i : Inode}
    (hd : IsDirectory s p) (hfind : ((s.tree p).bind fun es => es.lookup name) = some block)
    (hi : files.readInode s block = some i) (hmode : modeIsDirectory i.mode = false) : PlainFile s block := by
  obtain ⟨m, hm, hreg⟩ := h.find hd hfind
  obtain ⟨hnode, -⟩ := h.readInode (nodeAt_taken hm) hi
  have heq : m = i.node := Option.some.inj (hm.symm.trans hnode)
  subst heq
  exact ⟨i.node, hnode, hreg, hmode⟩

theorem PlainFile.not_directory {s : Files} {b : ℕ} (h : PlainFile s b) :
    ∃ n, s.node b = some n ∧ n.directory = false := by
  obtain ⟨n, hn, -, hd⟩ := h
  exact ⟨n, hn, by simp [Node.directory, hd]⟩

section
variable {s : Service Files} {badge : ℕ}

theorem writeTarget_some (h : Guarded s) {serial block : ℕ}
    (ht : Service.writeTarget files s serial badge = some block) :
    PlainFile s.store block ∧ ∃ row ∈ s.rows, row.Writes ∧ row.serial = serial ∧ row.inodeBlock = block := by
  obtain ⟨row, hrow, ht⟩ := Option.bind_eq_some_iff.mp ht
  split at ht
  · cases ht
  · rename_i hkind
    obtain ⟨inode, -, ht⟩ := Option.bind_eq_some_iff.mp ht
    split at ht
    · cases ht
      obtain ⟨hmem, hserial⟩ := handleLookup_mem hrow
      have hw : row.Writes := ⟨hserial, not_not.mp hkind⟩
      refine ⟨h.opened row hmem hw, row, hmem, hw, ?_, rfl⟩
      unfold Service.handleLookup at hrow
      split at hrow
      · cases hrow
      · obtain ⟨row', hf, hb⟩ := Option.bind_eq_some_iff.mp hrow
        split at hb
        · cases hb
          simpa using List.find?_some hf
        · cases hb
    · cases ht

theorem answerWrite_store (s : Service Files) (badge serial offset : ℕ) (data : List UInt8) (now : ℕ) :
    (Service.answerWrite files badge serial offset data now s).2.store = s.store ∨
      ∃ block, Service.writeTarget files s serial badge = some block ∧
        (Service.answerWrite files badge serial offset data now s).2.store =
          (files.write block offset data (inodeTime now) s.writer).2.store := by
  rw [Service.answerWrite, get_bind_run]
  rcases ht : Service.writeTarget files s serial badge with _ | block
  · exact Or.inl rfl
  · by_cases hlen : data.length ≤ Service.kWriteMax
    · refine Or.inr ⟨block, rfl, ?_⟩
      rw [bind_of_some (m := .ofOption (some block)) rfl, decide_eq_true hlen, bind_of_some (m := .check true) rfl,
        bind_run]
      unfold Service.write
      rcases files.write block offset data (inodeTime now) s.writer with ⟨_ | _, _⟩ <;> rfl
    · refine Or.inl ?_
      rw [bind_of_some (m := .ofOption (some block)) rfl, decide_eq_false hlen]
      rfl

theorem answerWriteFrame_store (s : Service Files) (badge serial offset wanted frameOffset : ℕ) (frame : Option (List UInt8)) (now : ℕ) :
    (Service.answerWriteFrame files badge serial offset wanted frameOffset frame now s).2.store = s.store ∨
      ∃ block data, Service.writeTarget files s serial badge = some block ∧
        (Service.answerWriteFrame files badge serial offset wanted frameOffset frame now s).2.store =
          (files.write block offset data (inodeTime now) s.writer).2.store := by
  rw [Service.answerWriteFrame, get_bind_run]
  rcases frame with _ | frame
  · exact Or.inl rfl
  rw [bind_of_some (m := .ofOption (some frame)) rfl]
  rcases ht : Service.writeTarget files s serial badge with _ | block
  · exact Or.inl rfl
  rw [bind_of_some (m := .ofOption (some block)) rfl]
  by_cases ho : frameOffset < Service.kFrameBytes
  · rw [decide_eq_true ho, bind_of_some (m := .check true) rfl]
    by_cases hdata : (frame.drop frameOffset).take wanted ≠ []
    · refine Or.inr ⟨block, (frame.drop frameOffset).take wanted, rfl, ?_⟩
      rw [when_pos hdata, bind_run]
      unfold Service.write
      rcases files.write block offset ((frame.drop frameOffset).take wanted) (inodeTime now) s.writer with
        ⟨_ | _, _⟩ <;> rfl
    · rw [when_neg hdata]
      exact Or.inl rfl
  · rw [decide_eq_false ho]
    exact Or.inl rfl

end

section
variable {s : Service Files} (h : WellNamed s.store) {badge : ℕ}
include h

theorem write_wellNamed {block : ℕ} (hp : PlainFile s.store block) (offset : ℕ) (data : List UInt8) (time : ℕ) :
    WellNamed (files.write block offset data time s.writer).2.store ∧
      ∀ b, (files.write block offset data time s.writer).2.store.node b = s.store.node b := by
  obtain ⟨n, hn, hd⟩ := hp.not_directory
  exact ⟨h.write hn hd offset data time, fun b => h.write_node hn offset data time b⟩

theorem truncate_wellNamed {block : ℕ} (hp : PlainFile s.store block) (size time : ℕ) :
    WellNamed (files.truncate block size time s.writer).2.store ∧
      ∀ b, (files.truncate block size time s.writer).2.store.node b = s.store.node b := by
  obtain ⟨n, hn, hd⟩ := hp.not_directory
  exact ⟨h.truncate hn hd size time, fun b => h.truncate_node hn size time b⟩

theorem answerTruncate_names {path : List UInt8} {size now : ℕ}
    (hc : Call.Careful s badge (.truncate path size now)) :
    WellNamed (Service.answerTruncate files badge path size now s).2.store ∧
      ∀ b, KeepsNode b s (Service.answerTruncate files badge path size now s).2 := by
  suffices hkeep : KeepsNames s (Service.answerTruncate files badge path size now s).2 ∧
      ∀ b, KeepsNode b s (Service.answerTruncate files badge path size now s).2 from ⟨hkeep.1 h, hkeep.2⟩
  have hplain : ∀ {inode b p name parent block}, walk files s.store badge path = some (inode, b) →
      modeIsDirectory inode.mode = false → walkParent files s.store badge path = some (p, name) →
      files.readInode s.store p = some parent → files.dirFind s.store parent name = some block →
      PlainFile s.store block := by
    intro inode b p name parent block hw hmode hp hparent hfind
    have hd := hc p name hp
    exact plainFile_of_read h hd ((dirFind_read h hd.taken hparent name).symm.trans hfind)
      (walk_walkParent hw hp hparent hfind) hmode
  rw [Service.answerTruncate, get_bind_run]
  constructor
  · refine check_bind_keeps (R := KeepsNames) fun _ => ofOption_bind_keeps fun ⟨inode, b⟩ hw =>
      check_bind_keeps fun hmode => ofOption_bind_keeps fun ⟨p, name⟩ hp => ofOption_bind_keeps fun parent hparent =>
        ofOption_bind_keeps fun block hfind => ?_
    simp only [Bool.and_eq_true, Bool.not_eq_true'] at hmode
    exact fun _ => (truncate_wellNamed h (hplain hw hmode.1 hp hparent hfind) size (inodeTime now)).1
  · intro b'
    refine check_bind_keeps (R := KeepsNode b') fun _ => ofOption_bind_keeps fun ⟨inode, b⟩ hw =>
      check_bind_keeps fun hmode => ofOption_bind_keeps fun ⟨p, name⟩ hp => ofOption_bind_keeps fun parent hparent =>
        ofOption_bind_keeps fun block hfind => ?_
    simp only [Bool.and_eq_true, Bool.not_eq_true'] at hmode
    exact (truncate_wellNamed h (hplain hw hmode.1 hp hparent hfind) size (inodeTime now)).2 b'

end

/-- What an open may do: the inodes that were there stay, and a new handle to write is
    for a plain file. -/
structure Opens (s s' : Service Files) : Prop where
  node : ∀ b m, s.store.node b = some m → s'.store.node b = some m
  rows : Rows { b | PlainFile s'.store b } s s'

instance : IsPreorder (Service Files) Opens where
  refl s := ⟨fun _ _ hb => hb, refl_of (Rows _) s⟩
  trans := by
    rintro s s' s'' ⟨h₁, h₂⟩ ⟨h₁', h₂'⟩
    refine ⟨fun b m hb => h₁' b m (h₁ b m hb), trans_of (Rows _) ⟨h₂.serial, h₂.numbered, ?_⟩ h₂'⟩
    intro row hrow hw
    refine (h₂.origin row hrow hw).imp_left ?_
    rintro ⟨hlt, n, hn, hreg, hd⟩
    exact ⟨hlt, n, h₁' _ n hn, hreg, hd⟩

theorem handleAlloc_opens {s : Service Files} {badge : ℕ} {f : Handle → Handle}
    (h : ∀ row, (f row).kind = .file → PlainFile s.store (f row).inodeBlock) :
    Opens s (Service.handleAlloc badge f s).2 := by
  have hs : (Service.handleAlloc badge f s).2.store = s.store := Keeps.keeps (R := SameStore) s
  refine ⟨fun b m hb => by rw [hs]; exact hb, handleAlloc_rows s fun row hk => ?_⟩
  rw [Set.mem_ofPred_eq, hs]
  exact h row hk

theorem write_opens {α : Type} {m : Act Files α} {s : Service Files}
    (h : ∀ b n, s.store.node b = some n → (m s.writer).2.store.node b = some n) :
    Opens s (Service.write m s).2 := ⟨h, .of_rows rfl rfl⟩

theorem answerOpen_opens {s : Service Files} (h : WellNamed s.store) {badge : ℕ} {path : List UInt8} {flags : ℕ}
    (now : ℕ) (ht : Call.Tidy s badge (.open path flags now)) :
    Opens s (Service.answerOpen files badge path flags now s).2 := by
  rw [Service.answerOpen, get_bind_run]
  split
  · -- to read
    refine ofOption_bind_keeps (R := Opens) fun r _ => check_bind_keeps fun _ => ?_
    exact handleAlloc_opens fun _ hk => by cases hk
  · have ht := ht.resolve_left ‹_›
    refine check_bind_keeps (R := Opens) fun _ => ofOption_bind_keeps ?_
    rintro ⟨p, name⟩ hw
    refine ofOption_bind_keeps fun parent hparent => ?_
    have hd := ht p name hw
    have hfind := dirFind_read h hd.taken hparent name
    rcases hf : files.dirFind s.store parent name with _ | block
    · refine check_bind_keeps (R := Opens) fun _ => ?_
      have hkeep := fun b m hb => h.create_node (b := b) (m := m) hd.taken name (kModeRegular ||| 0o644)
        (ownerIndex badge) (ownerIndex badge) (inodeTime now) hb
      obtain ⟨n, hn, hnd⟩ := hd
      have hc := h.create allows_isName hn hnd name (kModeRegular ||| 0o644) (ownerIndex badge)
        (ownerIndex badge) (inodeTime now) (by decide) (by decide)
      refine bind_keeps (R := Opens) (write_opens hkeep) fun block s' hs' => handleAlloc_opens fun _ _ => ?_
      obtain ⟨hsome, hstore⟩ := write_some hs'
      obtain ⟨m, hm, hreg, hdir⟩ := hc.2 block hsome
      exact ⟨m, hstore ▸ hm, hreg, hdir⟩
    · refine ofOption_bind_keeps (R := Opens) fun existing hex => check_bind_keeps fun hmode =>
        check_bind_keeps fun _ => ?_
      simp only [Bool.and_eq_true, Bool.not_eq_true'] at hmode
      have hplain := plainFile_of_read h hd (hfind.symm.trans hf) hex hmode.1
      obtain ⟨-, hnodes⟩ := truncate_wellNamed h hplain 0 (inodeTime now)
      obtain ⟨n, hn, hreg, hdir⟩ := hplain
      by_cases hc : flags &&& Service.kOpenTruncate ≠ 0
      · rw [when_pos hc]
        refine bind_keeps (R := Opens) (write_opens fun b m hb => (hnodes b).trans hb) fun _ s' hs' =>
          handleAlloc_opens fun _ _ => ⟨n, ?_, hreg, hdir⟩
        rw [(write_some hs').2]
        exact (hnodes block).trans hn
      · rw [when_neg hc]
        exact handleAlloc_opens fun _ _ => ⟨n, hn, hreg, hdir⟩

/-! ## Runs -/

section
variable {s : Service Files} {badge : ℕ} (parse : List UInt8 → Option Query)
  (indexWalk : Files → ℕ → Key → ℕ → Option ℕ)

theorem answer_rows {P : Set ℕ} {c : Call} (hc : c.Careful s badge) (ho : ∀ path flags now, c ≠ .open path flags now) :
    Rows P s (c.answer files parse indexWalk badge s).2 := by
  cases c
  case «open» path flags now => exact absurd rfl (ho path flags now)
  case attrWrite => exact hc.elim
  case attrRemove => exact hc.elim
  case protect => exact hc.elim
  case owner => exact hc.elim
  all_goals
    unfold Call.answer
    exact Keeps.keeps (R := Rows P) s

/-- **One call.** -/
theorem serve_guarded (h : Guarded s) {c : Call} (hc : c.Careful s badge) :
    Guarded (c.serve files parse indexWalk badge s) ∧ Kept s (c.serve files parse indexWalk badge s) ∧
      Rows Set.univ s (c.serve files parse indexWalk badge s) := by
  suffices hanswer : WellNamed (c.answer files parse indexWalk badge s).2.store ∧
      Kept s (c.answer files parse indexWalk badge s).2 ∧
      Rows { b | PlainFile (c.answer files parse indexWalk badge s).2.store b } s
        (c.answer files parse indexWalk badge s).2 by
    obtain ⟨hn, hk, hr⟩ := hanswer
    have hg := h.of_rows hn hr hk
    have hr' : Rows Set.univ s (c.answer files parse indexWalk badge s).2 :=
      ⟨hr.serial, hr.numbered, fun row hrow hw => (hr.origin row hrow hw).imp_left fun h => ⟨h.1, trivial⟩⟩
    unfold Call.serve
    dsimp only
    split
    · exact ⟨⟨hg.names, ⟨hg.numbered.bounded, hg.numbered.unique⟩, hg.opened⟩, hk, hr'.serial,
        fun hs => ⟨(hr'.numbered hs).bounded, (hr'.numbered hs).unique⟩, hr'.origin⟩
    · exact ⟨hg, hk, hr'⟩
  have hopened : ∀ {row}, row ∈ s.rows → row.Writes → ∃ m, s.store.node row.inodeBlock = some m := by
    intro row hrow hw
    obtain ⟨m, hm, -⟩ := h.opened row hrow hw
    exact ⟨m, hm⟩
  -- a write through a handle goes to a plain file
  have hwritten : ∀ {serial block offset data time}, Service.writeTarget files s serial badge = some block →
      WellNamed (files.write block offset data time s.writer).2.store ∧
        ∀ b, (files.write block offset data time s.writer).2.store.node b = s.store.node b :=
    fun ht => write_wellNamed h.names (writeTarget_some h ht).1 _ _ _
  cases c
  case «open» path flags now =>
    have ho := answerOpen_opens h.names now hc
    refine ⟨answerOpen_wellNamed h.names now hc, fun row hrow hw => ?_, ho.rows⟩
    obtain ⟨m, hm⟩ := hopened hrow hw
    exact (ho.node _ m hm).trans hm.symm
  case write serial offset data now =>
    refine ⟨?_, fun row hrow hw => ?_, answer_rows parse indexWalk hc fun _ _ _ => nofun⟩
    · rcases answerWrite_store s badge serial offset data now with hs | ⟨block, ht, hs⟩
      · exact hs ▸ h.names
      · exact hs ▸ (hwritten ht).1
    · rcases answerWrite_store s badge serial offset data now with hs | ⟨block, ht, hs⟩
      · exact congrArg (Files.node · _) hs
      · exact (congrArg (Files.node · _) hs).trans ((hwritten ht).2 _)
  case writeFrame serial offset wanted frameOffset frame now =>
    refine ⟨?_, fun row hrow hw => ?_, answer_rows parse indexWalk hc fun _ _ _ => nofun⟩
    · rcases answerWriteFrame_store s badge serial offset wanted frameOffset frame now with
        hs | ⟨block, data, ht, hs⟩
      · exact hs ▸ h.names
      · exact hs ▸ (hwritten ht).1
    · rcases answerWriteFrame_store s badge serial offset wanted frameOffset frame now with
        hs | ⟨block, data, ht, hs⟩
      · exact congrArg (Files.node · _) hs
      · exact (congrArg (Files.node · _) hs).trans ((hwritten ht).2 _)
  case truncate path size now =>
    obtain ⟨hn, hk⟩ := answerTruncate_names h.names hc
    exact ⟨hn, fun row _ _ => hk _, answer_rows parse indexWalk hc fun _ _ _ => nofun⟩
  case mkdir path now =>
    have hgrows : Grows s (Service.answerMkdir files badge path now s).2 := answerMkdir_grows h.names path now
    refine ⟨hgrows.names h.names, fun row hrow hw => ?_, answer_rows parse indexWalk hc fun _ _ _ => nofun⟩
    obtain ⟨m, hm⟩ := hopened hrow hw
    exact (hgrows.node _ m hm).trans hm.symm
  case remove path =>
    refine ⟨answerRemove_wellNamed h.names hc.1, fun row hrow hw => ?_,
      answer_rows parse indexWalk hc fun _ _ _ => nofun⟩
    exact answerRemove_node h.names hc.1 fun p name hp => hc.2 p name hp row hrow hw
  case rename source target =>
    exact ⟨answerRename_wellNamed h.names hc, fun row _ _ => answerRename_node h.names source target,
      answer_rows parse indexWalk hc fun _ _ _ => nofun⟩
  all_goals
    first
    | exact hc.elim
    | exact ⟨KeepsNames.of_sameStore ((answer_sameStore files parse indexWalk badge _ rfl).keeps s) h.names,
        fun row _ _ => .of_sameStore ((answer_sameStore files parse indexWalk badge _ rfl).keeps s),
        answer_rows parse indexWalk hc fun _ _ _ => nofun⟩

def CarefulRun : List (ℕ × Call) → Service Files → Prop
  | [], _ => True
  | (badge, c) :: rest, s => c.Careful s badge ∧ CarefulRun rest (c.serve files parse indexWalk badge s)

/-- **A run of calls.** -/
theorem serveAll_guarded {s : Service Files} (h : Guarded s) (calls : List (ℕ × Call))
    (hc : CarefulRun parse indexWalk calls s) :
    Guarded (serveAll files parse indexWalk calls s) ∧ Rows Set.univ s (serveAll files parse indexWalk calls s) := by
  induction calls generalizing s with
  | nil => exact ⟨h, refl_of (Rows _) s⟩
  | cons c calls ih =>
    obtain ⟨hg, -, hr⟩ := serve_guarded parse indexWalk h hc.1
    obtain ⟨hg', hr'⟩ := ih hg hc.2
    exact ⟨hg', trans_of (Rows _) hr hr'⟩

theorem Rows.before {s s' : Service Files} (hr : Rows Set.univ s s') (hn : s.Numbered) {row row' : Handle}
    (hrow : row ∈ s.rows) (hw : row.serial ≠ 0) (hrow' : row' ∈ s'.rows) (hw' : row'.Writes)
    (hserial : row'.serial = row.serial) : row.Writes ∧ row'.inodeBlock = row.inodeBlock := by
  rcases hr.origin row' hrow' hw' with ⟨hlt, -⟩ | ⟨old, hold, hwold, hs, hb⟩
  · have := hn.bounded row hrow
    omega
  · have heq := hn.unique old hold row hrow (hs.trans hserial) hwold.1
    subst heq
    exact ⟨hwold, hb.symm⟩

theorem serveAll_kept {s : Service Files} (h : Guarded s) (calls : List (ℕ × Call))
    (hc : CarefulRun parse indexWalk calls s) {row row' : Handle} (hrow : row ∈ s.rows) (hw : row.serial ≠ 0)
    (hrow' : row' ∈ (serveAll files parse indexWalk calls s).rows) (hw' : row'.Writes)
    (hserial : row'.serial = row.serial) :
    ∀ pre, pre <+: calls →
      (serveAll files parse indexWalk pre s).store.node row.inodeBlock = s.store.node row.inodeBlock := by
  induction calls generalizing s row with
  | nil =>
    intro pre hpre
    rw [List.prefix_nil] at hpre
    subst hpre
    rfl
  | cons c calls ih =>
    intro pre hpre
    rcases pre with _ | ⟨c', pre⟩
    · rfl
    obtain ⟨rfl, hrest⟩ := List.cons_prefix_cons.mp hpre
    obtain ⟨hg, hk, hr⟩ := serve_guarded parse indexWalk h hc.1
    obtain ⟨-, hr'⟩ := serveAll_guarded parse indexWalk hg calls hc.2
    -- the handle is in the next state, too
    rcases hr'.origin row' hrow' hw' with ⟨hlt, -⟩ | ⟨row₁, hrow₁, hw₁, hserial₁, -⟩
    · have := h.numbered.bounded row hrow
      have := hr.serial
      omega
    · obtain ⟨hwr, hblock⟩ := hr.before h.numbered hrow hw hrow₁ hw₁ (hserial₁.trans hserial)
      have := ih hg hc.2 hrow₁ hw₁.1 hrow' hserial₁.symm pre hrest
      rw [hblock] at this
      exact this.trans (hk row hrow hwr)

end

/-! ## What a write changes -/

/-- The file in `block` changed, and its pairs in the indices; nothing else did.  (An
    index whose pairs change may have another stream.) -/
structure OnlyFile (block : ℕ) (s s' : Files) : Prop where
  taken : s'.taken = s.taken
  tree : ∀ b, b ≠ block → s'.tree b = s.tree b
  bytes : ∀ b, b ≠ block → s'.bytes b = s.bytes b
  image : ∀ b, b ≠ block → (∀ name, files.indexInode s' name ≠ some b) → s'.image b = s.image b
  restreamed : ∀ b, b ≠ block → Restreamed (s.image b) (s'.image b)
  pairs : ∀ b e, e.2 ≠ block → (s'.pairs b).count e = (s.pairs b).count e

theorem OnlyFile.refl (block : ℕ) (s : Files) : OnlyFile block s s :=
  ⟨rfl, fun _ _ => rfl, fun _ _ => rfl, fun _ _ _ => rfl, fun _ _ => .refl _, fun _ _ _ => rfl⟩

theorem count_foldl_apply {ix : Key → Option ℕ} {block : ℕ} {e : Entry} (he : e.2 ≠ block)
    (edits : List IndexEdit) (h : ∀ edit ∈ edits, edit.value = block) (pairs : ℕ → List Entry) (b : ℕ) :
    (edits.foldl (IndexEdit.apply ix) pairs b).count e = (pairs b).count e := by
  induction edits generalizing pairs with
  | nil => rfl
  | cons edit edits ih =>
    rw [List.foldl_cons, ih fun e' he' => h e' (List.mem_cons_of_mem _ he')]
    have hne : (edit.key, edit.value) ≠ e := by
      rintro rfl
      exact he (h edit List.mem_cons_self)
    unfold IndexEdit.apply
    rcases ix edit.index with _ | b'
    · rfl
    · dsimp only
      by_cases hb : b = b'
      · subst hb
        rw [Function.update_self]
        split
        · exact List.count_cons_of_ne hne
        · exact List.count_erase_of_ne hne.symm
      · rw [Function.update_of_ne hb]

theorem mem_numberEdits {index : Key} {block mode old new : ℕ} {edit : IndexEdit}
    (h : edit ∈ numberEdits index block mode old new) : edit.value = block := by
  unfold numberEdits at h
  split at h
  · cases h
  · simp only [List.mem_cons, List.not_mem_nil, or_false] at h
    rcases h with rfl | rfl <;> rfl

/-- **The writer's `write` changes one file.** -/
theorem write_onlyFile {s : Writer Files} (h : WellNamed s.store) {block : ℕ} (hp : PlainFile s.store block)
    (offset : ℕ) (data : List UInt8) (time : ℕ) :
    OnlyFile block s.store (files.write block offset data time s).2.store := by
  obtain ⟨n, hn, -⟩ := hp
  have hb : s.store.geometry.toBlock (leRun (s.store.image block) InodeField.kInodeNum) = block := by
    rw [leRun_of_nodeAt hn, h.names.toBlock_run hn]
  have he := write_ended h.idle hb offset data time
  rcases he.outcome with ⟨-, hu⟩ | ⟨-, -, stream, c₁, hw, hr⟩
  · exact ⟨hu.taken, hu.tree, hu.bytes, fun b _ _ => congrFun hu.image b,
      fun b _ => by rw [hu.image]; exact .refl _, fun b e _ => by rw [hu.pairs]⟩
  · have himage : ∀ b, b ≠ block → c₁.image b = s.store.image b := by
      intro b hne
      rw [hw.image, Function.update_of_ne hne]
    -- the indices are found as after the write
    have hindex : files.indexInode (files.write block offset data time s).2.store = s.store.index c₁ := by
      refine indexInode_congr (s := s.store.holding c₁) ⟨he.same.geometry, he.same.root, he.same.indices⟩ hr.tree ?_
      exact hr.restreamed
    refine ⟨hr.taken.trans hw.taken, fun b hne => ?_, fun b hne => ?_, fun b hne hname => ?_, fun b hne => ?_,
      fun b e hne => ?_⟩
    · rw [hr.tree]; exact hw.tree b hne
    · rw [hr.bytes, hw.bytes, Function.update_of_ne hne]
    · rw [hindex] at hname
      exact (hr.image b hname).trans (himage b hne)
    · rw [← himage b hne]; exact hr.restreamed b
    · rw [hr.pairs, count_foldl_apply hne, hw.pairs]
      intro edit hmem
      rcases List.mem_append.mp hmem with hmem | hmem
      · exact mem_numberEdits hmem
      · exact mem_numberEdits hmem

theorem serve_store (parse : List UInt8 → Option Query) (indexWalk : Files → ℕ → Key → ℕ → Option ℕ) (badge : ℕ)
    (c : Call) (s : Service Files) :
    (c.serve files parse indexWalk badge s).store = (c.answer files parse indexWalk badge s).2.store := by
  unfold Call.serve
  dsimp only
  split <;> rfl

def Call.WritesThrough (serial : ℕ) : Call → Prop
  | .write serial' _ _ _ => serial' = serial
  | .writeFrame serial' _ _ _ _ _ => serial' = serial
  | _ => False

/-- A service of a volume with the empty file `f`, open to write. -/
def openVolume : Files :=
  { smallVolume with
    decisions := fun n => ⟨false, ⟨0, if n < 8 then 600 else 700, 1⟩, zero, 0, none⟩ }

def openRow : Handle := ⟨1, 0, 600, 0, .file, [], 0, 0, 0, 0⟩

def openService : Service Files :=
  { smallService with
    writer := { smallService.writer with store := openVolume }
    rows := [openRow, ⟨0, 0, 0, 0, .file, [], 0, 0, 0, 0⟩]
    handleSerial := 1 }

theorem openService_guarded : Guarded openService := by
  have hnode : ∀ e ∈ [(514, ⟨⟨0, 514, 1⟩, ⟨0, 514, 1⟩, true, true⟩), (600, (⟨⟨0, 600, 1⟩, ⟨0, 514, 1⟩, true, false⟩ : Node))],
      openVolume.node e.1 = some e.2 := by decide
  have htaken : ∀ b, openVolume.taken b = true → ∃ n, (b, n) ∈
      [(514, ⟨⟨0, 514, 1⟩, ⟨0, 514, 1⟩, true, true⟩), (600, (⟨⟨0, 600, 1⟩, ⟨0, 514, 1⟩, true, false⟩ : Node))] := by
    intro b hb
    simp only [openVolume, smallVolume, Bool.or_eq_true, beq_iff_eq] at hb
    rcases hb with rfl | rfl
    · exact ⟨_, List.mem_cons_self⟩
    · exact ⟨_, List.mem_cons_of_mem _ List.mem_cons_self⟩
  refine ⟨⟨rfl, by decide, Namespace.flat ⟨⟨0, 514, 1⟩, ⟨0, 514, 1⟩, true, true⟩ (fun b n => ⟨fun h => ?_, hnode (b, n)⟩)
    htaken (by decide) (by decide) (by decide) rfl (by decide) (by decide) (by decide) (by decide) (by decide)
    (by decide) (by decide)⟩, ⟨by decide, ?_⟩, ?_⟩
  · obtain ⟨n', hn'⟩ := htaken b (nodeAt_taken h)
    have heq : some n' = some n := (hnode _ hn').symm.trans h
    cases heq
    exact hn'
  · intro row hrow row' hrow' heq hne
    simp only [openService, List.mem_cons, List.not_mem_nil, or_false] at hrow hrow'
    rcases hrow with rfl | rfl <;> rcases hrow' with rfl | rfl
    · rfl
    · cases heq
    · cases heq
    · rfl
  · intro row hrow hw
    simp only [openService, List.mem_cons, List.not_mem_nil, or_false] at hrow
    rcases hrow with rfl | rfl
    · exact ⟨⟨⟨0, 600, 1⟩, ⟨0, 514, 1⟩, true, false⟩, hnode _ (List.mem_cons_of_mem _ List.mem_cons_self), rfl, rfl⟩
    · exact absurd rfl hw.1

end Aegir.Fs
