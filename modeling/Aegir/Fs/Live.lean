/-
  Live queries hear of changes (`main.cc`, the serve loop and `note_change`).
-/
import Aegir.Bfs.Files
import Aegir.Bfs.Image
import Aegir.Fs.Service

namespace Aegir.Fs

open Aegir.Lib Aegir.Lib.Buf Aegir.Lib.Fallible Aegir.Bfs Aegir.Bfs.Files

/-! ## What a query sees -/

theorem modeIsAttr_of_div_eq {m m' : ℕ} (h : m' / 2 ^ 12 = m / 2 ^ 12) : modeIsAttr m' = modeIsAttr m := by
  have := and_eq_of_div_eq 0x10000 h
  unfold modeIsAttr
  rw [show kModeAttr = 0x10000 * 2 ^ 12 from rfl, this]

/-- The inodes of one volume are those of the other, owner and mode aside. -/
structure SameFiles (c c' : Contents) : Prop where
  tree : c'.tree = c.tree
  bytes : c'.bytes = c.bytes
  image : ∀ b, Remoded (c.image b) (c'.image b)

structure SameNodes (s s' : Files) : Prop extends SameFiles s.toContents s'.toContents where
  geometry : s'.geometry = s.geometry

namespace SameNodes

variable {s s' : Files} (h : SameNodes s s')
include h

theorem toBlock (r : Run) : files.toBlock s' r = files.toBlock s r :=
  congrArg (Geometry.toBlock · r) h.geometry

theorem readInode (block : ℕ) :
    (files.readInode s block = none ∧ files.readInode s' block = none) ∨
      ∃ i i', files.readInode s block = some i ∧ files.readInode s' block = some i' ∧ SameNode i i' := by
  have hg : files.geometry s' = files.geometry s := h.geometry
  unfold Lower.readInode Lower.blockSize
  rw [hg]
  split
  · exact Or.inl ⟨rfl, rfl⟩
  · exact (h.image block).parse _

theorem smallAttr {i i' : Inode} (hi : SameNode i i') (name : Key) :
    files.smallAttr s' i' name = files.smallAttr s i name := by
  have hrun : i'.run = i.run := by rw [hi.fields]
  have him := h.image (files.toBlock s i.run)
  have hsize : le 4 (s'.image (files.toBlock s i.run)) InodeField.kInodeSize =
      le 4 (s.image (files.toBlock s i.run)) InodeField.kInodeSize :=
    le_congr fun k _ => him.agree _ (Or.inr (by simp only [InodeField.kFlags, InodeField.kInodeSize]; omega))
  have hsmall : SameSmall (s.image (files.toBlock s i.run)) (s'.image (files.toBlock s i.run)) :=
    fun j hj => him.agree j (Or.inr (le_trans (by decide) hj))
  have hread : ∀ s b, files.readBlock s b = s.image b := fun _ _ => rfl
  unfold Lower.smallAttr Lower.inodeRaw
  simp only [hrun, h.toBlock, hread, hsize]
  split
  · simp only [Option.bind_some]
    exact smallFindFrom_congr hsmall _ _ (le_refl _)
  · rfl

theorem attrInode {i i' : Inode} (hi : SameNode i i') (name : Key) :
    (files.attrInode s i name = none ∧ files.attrInode s' i' name = none) ∨
      ∃ a a', files.attrInode s i name = some a ∧ files.attrInode s' i' name = some a' ∧ SameNode a a' := by
  have hattr : i'.attributes = i.attributes := by rw [hi.fields]
  have hfind : ∀ d d' : Inode, SameNode d d' → files.dirFind s' d' name = files.dirFind s d name := by
    intro d d' hd
    have hrun : d'.run = d.run := by rw [hd.fields]
    show (s'.tree (s'.geometry.toBlock d'.run)).bind _ = (s.tree (s.geometry.toBlock d.run)).bind _
    rw [h.tree, h.geometry, hrun]
  unfold Lower.attrInode Lower.attrDirInode
  rw [hattr, h.toBlock]
  split
  · exact Or.inl ⟨rfl, rfl⟩
  · rcases h.readInode (files.toBlock s i.attributes) with ⟨h₁, h₂⟩ | ⟨d, d', h₁, h₂, hd⟩
    · rw [h₁, h₂]; exact Or.inl ⟨rfl, rfl⟩
    · rw [h₁, h₂]
      simp only [Option.bind_eq_bind, Option.bind_some, hfind d d' hd]
      rcases files.dirFind s d name with _ | block
      · exact Or.inl ⟨rfl, rfl⟩
      · simp only [Option.bind_some]
        rcases h.readInode block with ⟨h₃, h₄⟩ | ⟨a, a', h₃, h₄, ha⟩
        · rw [h₃, h₄]; exact Or.inl ⟨rfl, rfl⟩
        · rw [h₃, h₄]
          simp only [Option.bind_some, modeIsAttr_of_div_eq ha.type]
          split
          · exact Or.inr ⟨a, a', rfl, rfl, ha⟩
          · exact Or.inl ⟨rfl, rfl⟩

theorem queryValue {i i' : Inode} (hi : SameNode i i') (name : Key) :
    queryValue files s' i' name = queryValue files s i name := by
  have hname : i'.name = i.name := by rw [hi.fields]
  have hsize : i'.size = i.size := by rw [hi.fields]
  have htime : i'.mtime = i.mtime := by rw [hi.fields]
  unfold Fs.queryValue
  rw [hname, hsize, htime]
  split
  · rfl
  · split
    · rfl
    · split
      · rfl
      · unfold Lower.attrStat Lower.attrRead
        rw [h.smallAttr hi]
        rcases files.smallAttr s i name with _ | entry
        · rcases h.attrInode hi name with ⟨h₁, h₂⟩ | ⟨a, a', h₁, h₂, ha⟩
          · rw [h₁, h₂]; rfl
          · have hrun : a'.run = a.run := by rw [ha.fields]
            have htype : a'.type = a.type := by rw [ha.fields]
            have hsz : a'.size = a.size := by rw [ha.fields]
            have hread : ∀ offset length, files.readStream s' a' offset length = files.readStream s a offset length := by
              intro offset length
              show slice (s'.bytes (s'.geometry.toBlock a'.run)) offset = slice (s.bytes (s.geometry.toBlock a.run)) offset
              rw [h.bytes, h.geometry, hrun]
            rw [h₁, h₂]
            simp only [Option.map_some, htype, hsz, hread]
        · rfl

end SameNodes

/-- The inodes a query matches, with their names and sizes. -/
def matched {σ : Type} (B : Lower σ) (s : σ) (q : Query) : Set (ℕ × Key × ℕ) :=
  { t | ∃ inode, B.readInode s t.1 = some inode ∧ B.toBlock s inode.run = t.1 ∧
      isQueryable inode = true ∧ q.eval (queryValue B s inode) = true ∧ t.2 = (inode.name, inode.size) }

theorem SameNodes.matched_subset {s s' : Files} (h : SameNodes s s') (q : Query) :
    matched files s q ⊆ matched files s' q := by
  rintro ⟨b, t⟩ ⟨i, h₁, h₂, h₃, h₄, h₅⟩
  rcases h.readInode b with ⟨hn, -⟩ | ⟨j, i', hj, h₁', hi⟩
  · rw [h₁] at hn; cases hn
  · rw [h₁] at hj
    cases hj
    have hv : Fs.queryValue files s' i' = Fs.queryValue files s i := funext (h.queryValue hi)
    have hrun : i'.run = i.run := by rw [hi.fields]
    have hname : i'.name = i.name := by rw [hi.fields]
    have hsize : i'.size = i.size := by rw [hi.fields]
    refine ⟨i', h₁', ?_, ?_, ?_, ?_⟩
    · rw [h.toBlock, hrun]; exact h₂
    · unfold isQueryable at h₃ ⊢
      rw [hname, isRegularNode_of_div_eq hi.type]; exact h₃
    · rw [hv]; exact h₄
    · rw [hname, hsize]; exact h₅

theorem SameNodes.symm {s s' : Files} (h : SameNodes s s') : SameNodes s' s where
  geometry := h.geometry.symm
  tree := h.tree.symm
  bytes := h.bytes.symm
  image b := ⟨fun i hi => ((h.image b).agree i hi).symm, (h.image b).type.symm⟩

/-- **Owner and mode do not matter to a query.** -/
theorem SameNodes.matched_eq {s s' : Files} (h : SameNodes s s') (q : Query) :
    matched files s' q = matched files s q :=
  Set.Subset.antisymm (h.symm.matched_subset q) (h.matched_subset q)

/-! ## Setting owner and mode -/

theorem setOwnerModeBlocks_cases (block uid gid mode : ℕ) (s : Writer Files) :
    (files.setOwnerModeBlocks block uid gid mode s).2.store.direct = s.store.direct ∧
    ((files.setOwnerModeBlocks block uid gid mode s).2.store.toContents = s.store.toContents ∨
      (files.setOwnerModeBlocks block uid gid mode s).2.store.toContents = { s.store.toContents with
        image := Function.update s.store.image block
          (inodeSetMode (inodeSetOwner (s.store.image block) uid gid) mode) }) := by
  unfold Lower.setOwnerModeBlocks
  rw [bind_run, readInodeBlock_run]
  split
  · rename_i hr
    simp only [Prod.mk.injEq] at hr
    obtain ⟨-, rfl⟩ := hr
    rw [Writer.buffers, modify_bind_run, get_bind_run]
    rcases writeBlock_cases block (inodeSetMode (inodeSetOwner (s.store.image block) uid gid) mode)
      { s with inode := inodeSetMode (inodeSetOwner (s.store.image block) uid gid) mode } with h | h
    · rw [h]; exact ⟨rfl, Or.inl rfl⟩
    · rw [h]; exact ⟨rfl, Or.inr rfl⟩
  · rename_i hr
    simp only [Prod.mk.injEq] at hr
    obtain ⟨-, rfl⟩ := hr
    exact ⟨rfl, Or.inl rfl⟩

theorem SameFiles.refl (c : Contents) : SameFiles c c := ⟨rfl, rfl, fun _ => .refl _⟩

/-- **Setting owner and mode** leaves the inodes as they are to a query. -/
theorem setOwnerMode_sameNodes (block uid gid : ℕ) {mode : ℕ} (s : Writer Files) (hm : mode < 2 ^ 32)
    (h : mode / 2 ^ 12 = le 4 (s.store.image block) InodeField.kMode / 2 ^ 12) :
    SameNodes s.store (files.setOwnerMode block uid gid mode s).2.store := by
  rcases ha : s.store.active
  · obtain ⟨hv, -, hr⟩ := transaction_cases (files.setOwnerModeBlocks block uid gid mode) s ha
    obtain ⟨hd, hc⟩ := setOwnerModeBlocks_cases block uid gid mode (begun s)
    have hwork : SameFiles s.store.toContents
        (files.setOwnerModeBlocks block uid gid mode (begun s)).2.store.toContents := by
      rcases hc with hc | hc
      · rw [hc]; exact .refl _
      · rw [hc]
        refine ⟨rfl, rfl, fun b => ?_⟩
        show Remoded _ (Function.update s.store.image block _ b)
        by_cases hb : b = block
        · rw [hb, Function.update_self]
          exact inodeSetMode_remoded _ uid gid hm h
        · rw [Function.update_of_ne hb]
          exact .refl _
    refine ⟨?_, hv.geometry⟩
    show SameFiles _ (files.transaction (files.setOwnerModeBlocks block uid gid mode) s).2.store.toContents
    rcases hr with ⟨a, s₁, hrun, -, hcont⟩ | ⟨-, hcont⟩
    · rw [hrun] at hwork
      rw [hcont]
      exact hwork
    · -- given up: nothing was written past the journal
      rw [hcont, hd]
      exact ⟨rfl, hwork.bytes, fun _ => .refl _⟩
  · rw [show files.setOwnerMode block uid gid mode s = (none, s) from transaction_active _ s ha]
    exact ⟨.refl _, rfl⟩

/-! ## The table -/

section
variable {σ : Type}

/-- Every live query is waiting on a notification, and for a change later than the
    last it was told of. -/
def Service.Listening (s : Service σ) : Prop := ∀ row ∈ s.rows, row.serial ≠ 0 → row.kind = .live →
  row.liveNotification ≠ 0 ∧ row.liveGeneration ≤ s.changeGeneration

/-- The service announced nothing, and its live queries wait as before. -/
structure Quiet (s s' : Service σ) : Prop where
  generation : s'.changeGeneration = s.changeGeneration
  signals : s'.signals = s.signals
  listening : s.Listening → s'.Listening

instance : IsPreorder (Service σ) Quiet where
  refl _ := ⟨rfl, rfl, id⟩
  trans := by
    rintro s s' s'' ⟨h₁, h₂, h₃⟩ ⟨h₁', h₂', h₃'⟩
    exact ⟨h₁'.trans h₁, h₂'.trans h₂, h₃' ∘ h₃⟩

open Service

instance {α : Type} (m : Act σ α) : Keeps Quiet (Service.write m) := ⟨fun _ => ⟨rfl, rfl, id⟩⟩

theorem mem_modify {α : Type} {l : List α} {i : ℕ} {f : α → α} {x : α} (h : x ∈ l.modify i f) :
    x ∈ l ∨ ∃ y ∈ l, x = f y := by
  obtain ⟨j, hj, rfl⟩ := List.getElem_of_mem h
  rw [List.length_modify] at hj
  rw [List.getElem_modify]
  split
  · exact Or.inr ⟨_, List.getElem_mem hj, rfl⟩
  · exact Or.inl (List.getElem_mem hj)

theorem handleAlloc_quiet {badge : ℕ} {f : Handle → Handle} (s : Service σ)
    (h : ∀ row, (f row).kind = .live →
      (f row).liveNotification ≠ 0 ∧ (f row).liveGeneration ≤ s.changeGeneration) :
    Quiet s (handleAlloc badge f s).2 := by
  unfold handleAlloc
  dsimp only
  split
  · refine ⟨rfl, rfl, fun hs row hrow hserial hlive => ?_⟩
    rcases mem_modify hrow with hrow | ⟨old, -, rfl⟩
    · exact hs row hrow hserial hlive
    · exact h old hlive
  · exact refl_of Quiet s

instance (badge block : ℕ) : Keeps (Quiet (σ := σ)) (handleAlloc badge (fileRow .read block)) :=
  ⟨fun s => handleAlloc_quiet s fun _ h => by cases h⟩

instance (badge block : ℕ) : Keeps (Quiet (σ := σ)) (handleAlloc badge (fileRow .file block)) :=
  ⟨fun s => handleAlloc_quiet s fun _ h => by cases h⟩

def WaitsAs (generation : ℕ) (old row : Handle) : Prop :=
  old.serial ≠ 0 ∧ old.kind = .live ∧ row.liveNotification = old.liveNotification ∧
    (row.liveGeneration = old.liveGeneration ∨ row.liveGeneration = generation)

theorem map_quiet {s : Service σ} {f : Handle → Handle}
    (h : ∀ row ∈ s.rows, (f row).serial ≠ 0 → (f row).kind = .live →
      ∃ old ∈ s.rows, WaitsAs s.changeGeneration old (f row)) :
    Quiet s { s with rows := s.rows.map f } := by
  refine ⟨rfl, rfl, fun hs row hrow hserial hlive => ?_⟩
  obtain ⟨row', hrow', rfl⟩ := List.mem_map.mp hrow
  obtain ⟨old, hold, h₁, h₂, h₃, h₄⟩ := h row' hrow' hserial hlive
  obtain ⟨hn, hg⟩ := hs old hold h₁ h₂
  refine ⟨h₃ ▸ hn, ?_⟩
  rcases h₄ with h₄ | h₄
  · rw [h₄]; exact hg
  · rw [h₄]

instance (serial : ℕ) : Keeps (Quiet (σ := σ)) (.modify (setRow serial release)) := by
  refine keeps_modify fun s => map_quiet fun row hrow hserial hlive => ?_
  split at hserial
  · exact absurd rfl hserial
  · rw [if_neg ‹_›] at hlive ⊢
    exact ⟨row, hrow, hserial, hlive, rfl, Or.inl rfl⟩

variable (B : Lower σ) (parse : List UInt8 → Option Query) (indexWalk : σ → ℕ → Key → ℕ → Option ℕ)

instance (badge : ℕ) (path : List UInt8) (flags now : ℕ) : Keeps Quiet (answerOpen B badge path flags now) := by
  unfold answerOpen
  repeat' first | infer_instance | refine keeps_bind ?_ fun _ => ?_ | split

instance (badge serial offset : ℕ) (data : List UInt8) (now : ℕ) :
    Keeps Quiet (answerWrite B badge serial offset data now) := by
  unfold answerWrite
  infer_instance

instance (badge serial offset wanted frameOffset : ℕ) (frame : Option (List UInt8)) (now : ℕ) :
    Keeps Quiet (answerWriteFrame B badge serial offset wanted frameOffset frame now) := by
  unfold answerWriteFrame
  dsimp only
  infer_instance

instance (badge serial : ℕ) : Keeps (Quiet (σ := σ)) (answerClose badge serial) := by
  unfold answerClose
  infer_instance

instance (badge : ℕ) : Keeps (Quiet (σ := σ)) (answerReap badge) := by
  refine keeps_modify fun s => map_quiet fun row hrow hserial hlive => ?_
  split at hserial
  · exact absurd rfl hserial
  · rw [if_neg ‹_›] at hlive ⊢
    exact ⟨row, hrow, hserial, hlive, rfl, Or.inl rfl⟩

instance (badge now : ℕ) (names : List Key) (block : ℕ) : Keeps Quiet (makeDirs B badge now names block) := by
  induction names generalizing block with
  | nil => exact keeps_pure ()
  | cons name names ih =>
    unfold makeDirs
    repeat' first | infer_instance | refine keeps_bind ?_ fun _ => ?_ | split

instance (badge : ℕ) (path : List UInt8) (now : ℕ) : Keeps Quiet (answerMkdir B badge path now) := by
  unfold answerMkdir
  infer_instance

instance (badge : ℕ) (path : List UInt8) : Keeps Quiet (answerRemove B badge path) := by
  unfold answerRemove
  infer_instance

instance (badge : ℕ) (source target : List UInt8) : Keeps Quiet (answerRename B badge source target) := by
  unfold answerRename
  infer_instance

instance (badge : ℕ) (path : List UInt8) (size now : ℕ) : Keeps Quiet (answerTruncate B badge path size now) := by
  unfold answerTruncate
  infer_instance

instance (badge : ℕ) (path : List UInt8) (name : Key) (type offset : ℕ) (data : List UInt8) (now : ℕ) :
    Keeps Quiet (answerAttrWrite B badge path name type offset data now) := by
  unfold answerAttrWrite
  infer_instance

instance (badge : ℕ) (path : List UInt8) (name : Key) : Keeps Quiet (answerAttrRemove B badge path name) := by
  unfold answerAttrRemove
  infer_instance

instance (badge : ℕ) (path : List UInt8) (mode : ℕ) : Keeps Quiet (answerProtect B badge path mode) := by
  unfold answerProtect
  dsimp only
  infer_instance

instance (badge : ℕ) (path : List UInt8) (uid gid : ℕ) : Keeps Quiet (answerOwner B badge path uid gid) := by
  unfold answerOwner
  infer_instance

instance (badge : ℕ) (text : List UInt8) (flags : ℕ) : Keeps Quiet (answerQueryOpen B parse badge text flags) := by
  unfold answerQueryOpen
  have halloc : ∀ block, Keeps (Quiet (σ := σ)) (handleAlloc badge fun row =>
      queryRow .query text block 0 row.liveGeneration row) :=
    fun block => ⟨fun s => handleAlloc_quiet s fun _ h => by cases h⟩
  infer_instance

theorem liveSlotAlloc_ne_zero {s : Service σ} {slot : ℕ} (h : liveSlotAlloc s = some slot) : slot ≠ 0 := by
  have hmem := List.mem_of_find?_eq_some h
  rw [List.mem_range'_1] at hmem
  omega

instance (badge : ℕ) (text : List UInt8) (kernel : Bool) :
    Keeps Quiet (answerQueryOpenLive B parse badge text kernel) := by
  refine keeps_get_bind fun s => ?_
  refine check_bind_keeps fun _ => ofOption_bind_keeps fun q _ => check_bind_keeps fun _ => ?_
  refine ofOption_bind_keeps fun slot hslot => check_bind_keeps fun _ => ?_
  exact handleAlloc_quiet s fun _ _ => ⟨liveSlotAlloc_ne_zero hslot, le_refl _⟩

theorem advance_row (s : σ) (badge : ℕ) (q : Query) (row : Handle) :
    (advance B indexWalk s badge q row).2 = { row with
      cursor := (advance B indexWalk s badge q row).2.cursor
      indexPosition := (advance B indexWalk s badge q row).2.indexPosition } := by
  unfold advance
  split
  · split <;> rfl
  · rfl

theorem handleLookup_mem {s : Service σ} {serial badge : ℕ} {row : Handle}
    (h : s.handleLookup serial badge = some row) : row ∈ s.rows ∧ row.serial ≠ 0 := by
  unfold handleLookup at h
  split at h
  · cases h
  · obtain ⟨row', hf, hb⟩ := Option.bind_eq_some_iff.mp h
    split at hb
    · cases hb
      have hserial := List.find?_some hf
      simp only [beq_iff_eq] at hserial
      exact ⟨List.mem_of_find?_eq_some hf, by omega⟩
    · cases hb

instance (badge serial : ℕ) : Keeps Quiet (answerQueryNext B parse indexWalk badge serial) := by
  refine keeps_get_bind fun s => ?_
  refine ofOption_bind_keeps fun row hrow => check_bind_keeps fun _ => ofOption_bind_keeps fun q _ => ?_
  obtain ⟨hmem, hserial⟩ := handleLookup_mem hrow
  have hadv := advance_row B indexWalk s.store badge q (refresh s.changeGeneration row)
  refine trans_of Quiet (map_quiet fun row' hrow' hserial' hlive' => ?_)
    ((keeps_ofOption (R := Quiet) _).keeps _)
  split
  · rw [if_pos ‹_›, hadv] at hlive'
    rw [hadv]
    refine ⟨row, hmem, hserial, ?_⟩
    unfold refresh at hlive' ⊢
    split
    · rw [if_pos ‹_›] at hlive'
      exact ⟨hlive', rfl, Or.inr rfl⟩
    · rw [if_neg ‹_›] at hlive'
      exact ⟨hlive', rfl, Or.inl rfl⟩
  · rw [if_neg ‹_›] at hserial' hlive'
    exact ⟨row', hrow', hserial', hlive', rfl, Or.inl rfl⟩

instance (badge serial : ℕ) : Keeps (Quiet (σ := σ)) (answerQueryClose badge serial) := by
  unfold answerQueryClose
  infer_instance

instance (badge : ℕ) (c : Call) : Keeps Quiet (c.answer B parse indexWalk badge) := by
  cases c <;> unfold Call.answer <;> infer_instance

theorem serve_listening {s : Service σ} (h : s.Listening) (badge : ℕ) (c : Call) :
    (c.serve B parse indexWalk badge s).Listening := by
  have hq : Quiet s (c.answer B parse indexWalk badge s).2 := Keeps.keeps s
  unfold Call.serve
  dsimp only
  split
  · intro row hrow hserial hlive
    obtain ⟨h₁, h₂⟩ := hq.listening h row hrow hserial hlive
    exact ⟨h₁, Nat.le_succ_of_le h₂⟩
  · exact hq.listening h

theorem serveAll_listening {s : Service σ} (h : s.Listening) (calls : List (ℕ × Call)) :
    (serveAll B parse indexWalk calls s).Listening := by
  induction calls generalizing s with
  | nil => exact h
  | cons c calls ih => exact ih (serve_listening B parse indexWalk h c.1 c.2)

end

/-! ## Hearing of a change -/

/-- Every live query is told, and its next read starts over. -/
structure Heard {σ : Type} (s s' : Service σ) : Prop where
  advanced : s'.changeGeneration = s.changeGeneration + 1
  signalled : ∃ told, s'.signals = told ++ s.signals ∧
    ∀ row ∈ s'.rows, row.serial ≠ 0 → row.kind = .live → row.liveNotification ∈ told
  restarts : ∀ row ∈ s'.rows, row.serial ≠ 0 → row.kind = .live →
    ∀ generation, s'.changeGeneration ≤ generation → Service.refresh generation row =
      { row with liveGeneration := generation, cursor := 1, indexPosition := 0 }

theorem noteChange_heard {σ : Type} {s s' : Service σ} (hq : Quiet s s') (h : s.Listening) :
    Heard s s'.noteChange where
  advanced := by rw [← hq.generation]; rfl
  signalled := by
    refine ⟨_, by rw [← hq.signals]; rfl, fun row hrow hserial hlive => ?_⟩
    obtain ⟨hn, -⟩ := hq.listening h row hrow hserial hlive
    refine List.mem_map.mpr ⟨row, List.mem_filter.mpr ⟨hrow, ?_⟩, rfl⟩
    simp [hserial, hlive, hn]
  restarts := by
    intro row hrow hserial hlive generation hg
    obtain ⟨-, hle⟩ := hq.listening h row hrow hserial hlive
    have hlt : s'.changeGeneration < generation := hg
    rw [Service.refresh, if_pos ⟨hlive, by omega⟩]

variable (parse : List UInt8 → Option Query) (indexWalk : Files → ℕ → Key → ℕ → Option ℕ)

/-- A call whose changes the serve loop announces: no `write-frame` that writes, and
    no mode or owner set through an inode that names another block. -/
def Call.Announced (s : Service Files) (badge : ℕ) : Call → Prop
  | .writeFrame serial _ wanted frameOffset frame _ =>
    Service.writeTarget files s serial badge = none ∨ ((frame.getD []).drop frameOffset).take wanted = []
  | .protect path _ | .owner path _ _ => ∀ inode block, walk files s.store badge path = some (inode, block) →
    files.toBlock s.store inode.run = block
  | _ => True

def SameStore {σ : Type} (s s' : Service σ) : Prop := s'.store = s.store

instance {σ : Type} : IsPreorder (Service σ) SameStore where
  refl _ := rfl
  trans _ _ _ h h' := Eq.trans h' h

section
variable {σ : Type} (B : Lower σ) (parse : List UInt8 → Option Query)
  (indexWalk : σ → ℕ → Key → ℕ → Option ℕ)

open Service

instance (badge : ℕ) (f : Handle → Handle) : Keeps (SameStore (σ := σ)) (handleAlloc badge f) := by
  constructor
  intro s
  unfold handleAlloc
  dsimp only
  split <;> rfl

instance (serial : ℕ) (f : Handle → Handle) : Keeps (SameStore (σ := σ)) (.modify (setRow serial f)) :=
  keeps_modify fun _ => rfl

theorem answer_sameStore (badge : ℕ) (c : Call) (h : match c with
      | .look _ | .close _ | .reap _ | .queryOpen .. | .queryNext _ | .queryClose _ | .queryOpenLive ..
      | .malformed _ => true
      | _ => false) : Keeps SameStore (c.answer B parse indexWalk badge) := by
  cases c
  case look => exact keeps_fail
  case malformed => exact keeps_fail
  case reap => exact keeps_modify fun _ => rfl
  case close =>
    unfold Call.answer answerClose
    infer_instance
  case queryOpen =>
    unfold Call.answer
    refine @keeps_ignore _ _ _ _ ?_
    unfold answerQueryOpen
    infer_instance
  case queryNext =>
    unfold Call.answer
    refine @keeps_ignore _ _ _ _ ?_
    unfold answerQueryNext
    infer_instance
  case queryClose =>
    unfold Call.answer answerQueryClose
    infer_instance
  case queryOpenLive =>
    unfold Call.answer
    refine @keeps_ignore _ _ _ _ ?_
    unfold answerQueryOpenLive
    infer_instance
  all_goals cases h

theorem walk_readInode {s : σ} {badge : ℕ} {path : List UInt8} {inode : Inode} {block : ℕ}
    (h : walk B s badge path = some (inode, block)) : B.readInode s block = some inode := by
  have hfrom : ∀ names b i, B.readInode s b = some i → walkFrom B s badge names b i = some (inode, block) →
      B.readInode s block = some inode := by
    intro names
    induction names with
    | nil =>
      intro b i hi hw
      cases hw
      exact hi
    | cons name names ih =>
      intro b i hi hw
      rw [walkFrom] at hw
      split at hw
      · cases hw
      · obtain ⟨b', -, hw⟩ := Option.bind_eq_some_iff.mp hw
        obtain ⟨i', hi', hw⟩ := Option.bind_eq_some_iff.mp hw
        exact ih b' i' hi' hw
  obtain ⟨root, hroot, hw⟩ := Option.bind_eq_some_iff.mp h
  exact hfrom _ _ _ hroot hw

end

theorem readInode_mode {s : Files} {block : ℕ} {inode : Inode} (h : files.readInode s block = some inode) :
    inode.mode = le 4 (s.image block) InodeField.kMode := by
  unfold Lower.readInode at h
  split at h
  · cases h
  · change parseInode _ (s.image block) = some inode at h
    unfold parseInode at h
    split at h
    · cases h
    · cases h; rfl

def OnNodes (s s' : Service Files) : Prop := SameNodes s.store s'.store

instance : IsPreorder (Service Files) OnNodes where
  refl _ := ⟨.refl _, rfl⟩
  trans := by
    rintro s s' s'' ⟨⟨h₁, h₂, h₃⟩, h₄⟩ ⟨⟨h₁', h₂', h₃'⟩, h₄'⟩
    refine ⟨⟨h₁'.trans h₁, h₂'.trans h₂, fun b => ?_⟩, h₄'.trans h₄⟩
    exact ⟨fun i hi => ((h₃' b).agree i hi).trans ((h₃ b).agree i hi), (h₃' b).type.trans (h₃ b).type⟩

theorem OnNodes.of_sameStore {s s' : Service Files} (h : SameStore s s') : OnNodes s s' := by
  unfold OnNodes
  rw [h]
  exact ⟨.refl _, rfl⟩

theorem write_setOwnerMode_onNodes {s : Service Files} {badge : ℕ} {path : List UInt8} {inode : Inode}
    {block : ℕ} (hw : walk files s.store badge path = some (inode, block))
    (hb : files.toBlock s.store inode.run = block) (uid gid : ℕ) {mode : ℕ} (hm : mode < 2 ^ 32)
    (ht : mode / 2 ^ 12 = inode.mode / 2 ^ 12) :
    OnNodes s (Service.write (files.setOwnerMode (files.toBlock s.store inode.run) uid gid mode) s).2 := by
  refine setOwnerMode_sameNodes _ uid gid s.writer hm ?_
  rw [ht, readInode_mode (walk_readInode files hw), hb]
  rfl

/-- **What the serve loop does not announce changes nothing for a query.** -/
theorem answer_sameNodes (s : Service Files) (badge : ℕ) (c : Call) (hm : c.mutating = false)
    (h : c.Announced s badge) : OnNodes s (c.answer files parse indexWalk badge s).2 := by
  cases c
  case protect path mode =>
    refine check_bind_keeps (R := OnNodes) fun _ => ofOption_bind_keeps fun ⟨inode, block⟩ hw =>
      check_bind_keeps fun _ => ?_
    have hlt : inode.mode < 2 ^ 32 := by
      rw [readInode_mode (walk_readInode files hw)]
      exact (le_lt 4 _ _).trans_eq (by norm_num)
    exact write_setOwnerMode_onNodes hw (h inode block hw) _ _ (by omega) (by omega)
  case owner path uid gid =>
    refine check_bind_keeps (R := OnNodes) fun _ => ofOption_bind_keeps fun ⟨inode, block⟩ hw =>
      check_bind_keeps fun _ => ?_
    have hlt : inode.mode < 2 ^ 32 := by
      rw [readInode_mode (walk_readInode files hw)]
      exact (le_lt 4 _ _).trans_eq (by norm_num)
    exact write_setOwnerMode_onNodes hw (h inode block hw) _ _ hlt rfl
  case writeFrame serial offset wanted frameOffset frame now =>
    refine ofOption_bind_keeps (R := OnNodes) fun bytes hb => ofOption_bind_keeps fun block hw =>
      check_bind_keeps fun _ => ?_
    have hdata : (bytes.drop frameOffset).take wanted = [] := by
      rcases h with h | h
      · rw [hw] at h; cases h
      · rw [hb] at h; exact h
    rw [hdata, when_neg (by simp)]
    exact refl_of OnNodes s
  all_goals
    first
    | (cases hm; done)
    | exact .of_sameStore ((answer_sameStore files parse indexWalk badge _ rfl).keeps s)

/-- A volume with the empty file `f` in its root directory, and layers that do what
    they are asked. -/
def smallVolume : Files where
  image b :=
    if b = 514 then inodeBuild 2048 ⟨0, 514, 1⟩ ⟨0, 514, 1⟩ (kModeDirectory ||| kModeStrIndex ||| 0o755) 0 0 0 [114]
    else if b = 600 then inodeBuild 2048 ⟨0, 600, 1⟩ ⟨0, 514, 1⟩ (kModeRegular ||| 0o644) 0 0 0 [102]
    else zero
  taken b := b == 514 || b == 600
  tree b := if b = 514 then some [([46], 514), ([46, 46], 514), ([102], 600)] else none
  pairs _ := []
  bytes _ := zero
  geometry := ⟨11, 14, 1, 1, 2048, ⟨0, 2, 512⟩⟩
  root := ⟨0, 514, 1⟩
  indices := ⟨0, 0, 0⟩
  decisions _ := ⟨false, ⟨0, 700, 1⟩, zero, 0, none⟩
  asked := 0
  active := false
  saved := ⟨fun _ => zero, fun _ => false, fun _ => none, fun _ => [], fun _ => zero⟩
  direct := []

/-- A service of that volume: one caller has the file open, another a live query. -/
def smallService : Service Files where
  writer := ⟨smallVolume, zero, zero, zero, zero, zero, zero, zero, zero, zero, 0, 0⟩
  writable := true
  rows := [⟨1, 0, 600, 0, .file, [], 0, 0, 0, 0⟩, ⟨2, 5, 0, 1, .live, [110], 0, 0, 9, 0⟩]
  handleSerial := 2
  changeGeneration := 0
  liveSlotBase := 8
  liveMintSlot := 8
  signals := []

theorem smallService_listening : smallService.Listening := by
  intro row hrow _ hlive
  simp only [smallService, List.mem_cons, List.not_mem_nil, or_false] at hrow
  rcases hrow with rfl | rfl
  · cases hlive
  · exact ⟨by decide, by decide⟩

def sight (s : Files) (b : ℕ) : Option (Run × ℕ × Key × ℕ) :=
  (files.readInode s b).map fun i => (i.run, i.mode, i.name, i.size)

theorem smallService_sight : sight smallService.store 600 = some (⟨0, 600, 1⟩, 0o100644, [102], 0) := by
  decide

def matchAll : Query := ⟨fun _ => true, none⟩

theorem matched_ne {s s' : Files} {mode size size' : ℕ} {name : Key}
    (h : sight s 600 = some (⟨0, 600, 1⟩, mode, name, size))
    (h' : sight s' 600 = some (⟨0, 600, 1⟩, mode, name, size')) (hg : files.toBlock s' ⟨0, 600, 1⟩ = 600)
    (hm : isRegularNode mode = true) (hn : name.length ≠ 0) (hs : size' ≠ size) :
    matched files s' matchAll ≠ matched files s matchAll := by
  intro heq
  obtain ⟨i, hi, hf⟩ := Option.map_eq_some_iff.mp h
  obtain ⟨i', hi', hf'⟩ := Option.map_eq_some_iff.mp h'
  simp only [Prod.mk.injEq] at hf hf'
  have hmem : (600, name, size') ∈ matched files s' matchAll := by
    refine ⟨i', hi', ?_, ?_, rfl, ?_⟩
    · rw [hf'.1]; exact hg
    · unfold isQueryable
      rw [hf'.2.1, hf'.2.2.1, hm]
      simpa using hn
    · rw [hf'.2.2.1, hf'.2.2.2]
  rw [heq] at hmem
  obtain ⟨j, hj, -, -, -, ht⟩ := hmem
  rw [hi] at hj
  cases hj
  simp only [Prod.mk.injEq] at ht
  exact hs (ht.2.trans hf.2.2.2)

end Aegir.Fs
