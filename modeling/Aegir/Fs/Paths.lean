/-
  Paths and the tree of names (`main.cc`, `walk_parent`, `make_dirs` and the calls
  that make, remove and rename entries).
-/
import Aegir.Bfs.Namespace
import Aegir.Fs.Live

namespace Aegir.Fs

open Aegir.Lib Aegir.Lib.Buf Aegir.Lib.Fallible Aegir.Bfs Aegir.Bfs.Files

def IsName (name : Key) : Prop := name.length ≠ 0 ∧ name.length ≤ kMaxName

instance : DecidablePred IsName := fun _ => inferInstanceAs (Decidable (_ ∧ _))

/-- A volume between calls: every directory's entries, dots and names, and every inode
    that can be named, as they should be. -/
abbrev WellNamed (s : Files) : Prop := Formed IsName s

theorem allows_isName : Allows IsName := fun _ h₁ h₂ => ⟨h₁, h₂⟩

def KeepsNames (s s' : Service Files) : Prop := WellNamed s.store → WellNamed s'.store

instance : IsPreorder (Service Files) KeepsNames where
  refl _ := id
  trans _ _ _ h h' := h' ∘ h

theorem KeepsNames.of_sameStore {s s' : Service Files} (h : SameStore s s') : KeepsNames s s' := by
  unfold KeepsNames
  rw [h]
  exact id

/-! ## Making directories -/

theorem dirFind_read {s : Files} (h : WellNamed s) {b : ℕ} {dir : Inode} (hb : s.taken b = true)
    (hdir : files.readInode s b = some dir) (name : Key) :
    files.dirFind s dir name = (s.tree b).bind fun es => es.lookup name := by
  show (s.tree (s.geometry.toBlock dir.run)).bind _ = _
  rw [(h.readInode hb hdir).2]

theorem write_some {σ α : Type} {m : Act σ α} {s s' : Service σ} {a : α}
    (h : Service.write m s = (some a, s')) : (m s.writer).1 = some a ∧ s'.store = (m s.writer).2.store := by
  unfold Service.write at h
  rw [Prod.mk.injEq] at h
  obtain ⟨h₁, rfl⟩ := h
  exact ⟨h₁, rfl⟩

/-- The tree of names may have grown: it is well named, and every inode is what it was. -/
structure Grows (s s' : Service Files) : Prop where
  names : KeepsNames s s'
  node : ∀ b m, s.store.node b = some m → s'.store.node b = some m

instance : IsPreorder (Service Files) Grows where
  refl s := ⟨refl_of KeepsNames s, fun _ _ hb => hb⟩
  trans _ _ _ h h' := ⟨trans_of KeepsNames h.names h'.names, fun b m hb => h'.node b m (h.node b m hb)⟩

theorem makeDirs_grows (badge now : ℕ) (names : List Key) (block : ℕ) (s : Service Files)
    (h : WellNamed s.store) (hd : IsDirectory s.store block) :
    Grows s (Service.makeDirs files badge now names block s).2 := by
  induction names generalizing block s with
  | nil => exact refl_of Grows s
  | cons name names ih =>
    rw [Service.makeDirs, get_bind_run]
    refine ofOption_bind_keeps (R := Grows) fun dir hdir => check_bind_keeps fun _ => ?_
    have hfind := dirFind_read h hd.taken hdir name
    rcases hf : files.dirFind s.store dir name with _ | child
    · -- it is made
      refine check_bind_keeps (R := Grows) fun _ => ?_
      have hkeep := fun b m hb => h.create_node (b := b) (m := m) hd.taken name (kModeDirectory ||| 0o755)
        (ownerIndex badge) (ownerIndex badge) (inodeTime now) hb
      obtain ⟨n, hn, hnd⟩ := hd
      have hc := h.create allows_isName hn hnd name (kModeDirectory ||| 0o755) (ownerIndex badge)
        (ownerIndex badge) (inodeTime now) (by decide) (by decide)
      refine bind_keeps (R := Grows) ⟨fun _ => hc.1, hkeep⟩ fun created s' hs' => ?_
      obtain ⟨hsome, hstore⟩ := write_some hs'
      obtain ⟨m, hm, hreg, hdir⟩ := hc.2 created hsome
      exact ih created s' (hstore ▸ hc.1) ⟨m, hstore ▸ hm, Bool.and_eq_true_iff.mpr ⟨hreg, hdir⟩⟩
    · -- it is there
      refine ofOption_bind_keeps (R := Grows) fun made hmade => check_bind_keeps fun hmode => ?_
      obtain ⟨m, hm, hreg⟩ := h.find hd (hfind.symm.trans hf)
      obtain ⟨hnode, -⟩ := h.readInode (nodeAt_taken hm) hmade
      have heq : m = made.node := Option.some.inj (hm.symm.trans hnode)
      subst heq
      exact ih child s h ⟨made.node, hnode, Bool.and_eq_true_iff.mpr ⟨hreg, hmode⟩⟩

/-! ## Calls -/

/-- A call that leaves the tree of names to the writer as the writer needs it: the
    directory part of its path leads to a directory, the entry it removes or renames is
    no dot entry, and the name it gives is short enough.  (Calls that write to files are
    not about names.) -/
def Call.Tidy (s : Service Files) (badge : ℕ) : Call → Prop
  | .open path flags _ => flags &&& Service.kOpenRead ≠ 0 ∨
    ∀ p name, walkParent files s.store badge path = some (p, name) → IsDirectory s.store p
  | .remove path => ∀ p name, walkParent files s.store badge path = some (p, name) →
    IsDirectory s.store p ∧ isDotName name = false
  | .rename source target => ∀ p name, walkParent files s.store badge source = some (p, name) →
    IsDirectory s.store p ∧ isDotName name = false ∧
      ∀ p' name', walkParent files s.store badge target = some (p', name') → name'.length ≤ kMaxName
  | .mkdir .. | .look _ | .close _ | .reap _ | .queryOpen .. | .queryNext _ | .queryClose _
  | .queryOpenLive .. | .malformed _ => True
  | _ => False

theorem walkParent_ne_nil {σ : Type} {B : Lower σ} {s : σ} {badge : ℕ} {path : List UInt8} {p : ℕ} {name : Key}
    (h : walkParent B s badge path = some (p, name)) : name.length ≠ 0 := by
  unfold walkParent at h
  dsimp only at h
  split at h
  · cases h
  · obtain ⟨b, -, hb⟩ := Option.map_eq_some_iff.mp h
    cases hb
    rwa [ne_eq, List.length_eq_zero_iff]

section
variable {s : Service Files} (h : WellNamed s.store) {badge : ℕ}
include h

theorem answerOpen_wellNamed {path : List UInt8} {flags : ℕ} (now : ℕ)
    (ht : Call.Tidy s badge (.open path flags now)) :
    WellNamed (Service.answerOpen files badge path flags now s).2.store := by
  suffices hkeep : KeepsNames s (Service.answerOpen files badge path flags now s).2 from hkeep h
  rw [Service.answerOpen, get_bind_run]
  split
  · -- to read
    refine ofOption_bind_keeps (R := KeepsNames) fun r _ => check_bind_keeps fun _ => ?_
    exact .of_sameStore (Keeps.keeps (R := SameStore) s)
  · have ht := ht.resolve_left ‹_›
    refine check_bind_keeps (R := KeepsNames) fun _ => ofOption_bind_keeps fun ⟨p, name⟩ hw =>
      ofOption_bind_keeps fun parent hparent => ?_
    have hd := ht p name hw
    have hfind := dirFind_read h hd.taken hparent name
    rcases hf : files.dirFind s.store parent name with _ | block
    · refine check_bind_keeps (R := KeepsNames) fun _ => ?_
      obtain ⟨n, hn, hnd⟩ := hd
      have hc := h.create allows_isName hn hnd name (kModeRegular ||| 0o644) (ownerIndex badge)
        (ownerIndex badge) (inodeTime now) (by decide) (by decide)
      refine bind_keeps (R := KeepsNames) (fun _ => hc.1) fun _ s' _ => ?_
      exact .of_sameStore (Keeps.keeps (R := SameStore) s')
    · refine ofOption_bind_keeps (R := KeepsNames) fun existing hex => check_bind_keeps fun hmode =>
        check_bind_keeps fun _ => ?_
      obtain ⟨m, hm, -⟩ := h.find hd (hfind.symm.trans hf)
      obtain ⟨hnode, -⟩ := h.readInode (nodeAt_taken hm) hex
      have hnd : existing.node.directory = false := by
        simp only [Bool.and_eq_true, Bool.not_eq_true'] at hmode
        simp only [Node.directory, Inode.node, hmode.1, Bool.and_false]
      refine bind_keeps (R := KeepsNames) ?_ fun _ s' _ => .of_sameStore (Keeps.keeps (R := SameStore) s')
      by_cases hc : flags &&& Service.kOpenTruncate ≠ 0
      · rw [when_pos hc]
        exact fun _ => h.truncate hnode hnd 0 (inodeTime now)
      · rw [when_neg hc]
        exact refl_of KeepsNames s

theorem answerRemove_wellNamed {path : List UInt8} (ht : Call.Tidy s badge (.remove path)) :
    WellNamed (Service.answerRemove files badge path s).2.store := by
  suffices hkeep : KeepsNames s (Service.answerRemove files badge path s).2 from hkeep h
  rw [Service.answerRemove, get_bind_run]
  refine check_bind_keeps (R := KeepsNames) fun _ => ofOption_bind_keeps fun ⟨p, name⟩ hw =>
    ofOption_bind_keeps fun parent _ => check_bind_keeps fun _ _ => ?_
  obtain ⟨⟨n, hn, hnd⟩, hdot⟩ := ht p name hw
  exact h.remove hn hnd hdot

theorem answerRename_wellNamed {source target : List UInt8} (ht : Call.Tidy s badge (.rename source target)) :
    WellNamed (Service.answerRename files badge source target s).2.store := by
  suffices hkeep : KeepsNames s (Service.answerRename files badge source target s).2 from hkeep h
  rw [Service.answerRename, get_bind_run]
  refine check_bind_keeps (R := KeepsNames) fun _ => ofOption_bind_keeps fun ⟨p, name⟩ hw =>
    ofOption_bind_keeps fun ⟨p', name'⟩ hw' => check_bind_keeps fun _ => ofOption_bind_keeps fun parent _ =>
      check_bind_keeps fun _ _ => ?_
  obtain ⟨⟨n, hn, hnd⟩, hdot, hlen⟩ := ht p name hw
  exact h.rename hn hnd ⟨walkParent_ne_nil hw', hlen p' name' hw'⟩ hdot

theorem answerMkdir_grows (path : List UInt8) (now : ℕ) :
    Grows s (Service.answerMkdir files badge path now s).2 := by
  rw [Service.answerMkdir, get_bind_run]
  refine check_bind_keeps (R := Grows) fun _ => ?_
  obtain ⟨n, hn, hnd, -⟩ := h.names.rootDirectory
  exact makeDirs_grows badge now _ _ s h ⟨n, hn, hnd⟩

variable (parse : List UInt8 → Option Query) (indexWalk : Files → ℕ → Key → ℕ → Option ℕ)

theorem serve_wellNamed {c : Call} (ht : c.Tidy s badge) :
    WellNamed (c.serve files parse indexWalk badge s).store := by
  have hanswer : WellNamed (c.answer files parse indexWalk badge s).2.store := by
    cases c
    case «open» path flags now => exact answerOpen_wellNamed h now ht
    case mkdir path now => exact (answerMkdir_grows h path now).names h
    case remove path => exact answerRemove_wellNamed h ht
    case rename source target => exact answerRename_wellNamed h ht
    all_goals
      first
      | exact ht.elim
      | exact KeepsNames.of_sameStore ((answer_sameStore files parse indexWalk badge _ rfl).keeps s) h
  unfold Call.serve
  dsimp only
  split
  · exact hanswer
  · exact hanswer

end

section
variable (parse : List UInt8 → Option Query) (indexWalk : Files → ℕ → Key → ℕ → Option ℕ)

def TidyRun : List (ℕ × Call) → Service Files → Prop
  | [], _ => True
  | (badge, c) :: rest, s => c.Tidy s badge ∧ TidyRun rest (c.serve files parse indexWalk badge s)

end

/-! ### A directory that loses itself -/

/-- A volume with the empty directory `d` in its root directory, and layers that do what
    they are asked. -/
def dirVolume : Files where
  image b :=
    if b = 514 then inodeBuild 2048 ⟨0, 514, 1⟩ ⟨0, 514, 1⟩ (kModeDirectory ||| kModeStrIndex ||| 0o755) 0 0 0 [114]
    else if b = 600 then inodeBuild 2048 ⟨0, 600, 1⟩ ⟨0, 514, 1⟩ (kModeDirectory ||| kModeStrIndex ||| 0o755) 0 0 0 [100]
    else zero
  taken b := b == 514 || b == 600
  tree b :=
    if b = 514 then some [([46], 514), ([46, 46], 514), ([100], 600)]
    else if b = 600 then some [([46], 600), ([46, 46], 514)]
    else none
  pairs _ := []
  bytes _ := zero
  geometry := ⟨11, 14, 1, 1, 2048, ⟨0, 2, 512⟩⟩
  root := ⟨0, 514, 1⟩
  indices := ⟨0, 0, 0⟩
  decisions n := ⟨false, ⟨0, 700 + 8 * n, if n % 2 = 0 then 1 else 4⟩, zero, 0, none⟩
  asked := 0
  active := false
  saved := ⟨fun _ => zero, fun _ => false, fun _ => none, fun _ => [], fun _ => zero⟩
  direct := []

def dirService : Service Files :=
  { smallService with writer := { smallService.writer with store := dirVolume }, rows := [] }

def rootNode : Node := ⟨⟨0, 514, 1⟩, ⟨0, 514, 1⟩, true, true⟩
def dNode : Node := ⟨⟨0, 600, 1⟩, ⟨0, 514, 1⟩, true, true⟩

theorem dirVolume_node (b : ℕ) (n : Node) : dirVolume.node b = some n ↔
    b = 514 ∧ n = rootNode ∨ b = 600 ∧ n = dNode := by
  have h₁ : dirVolume.node 514 = some rootNode := by decide
  have h₂ : dirVolume.node 600 = some dNode := by decide
  by_cases hr : b = 514
  · subst hr
    rw [h₁]
    simp [eq_comm]
  · by_cases hd : b = 600
    · subst hd
      rw [h₂]
      simp [eq_comm]
    · have hnone : dirVolume.node b = none := by
        refine if_neg fun h => ?_
        simp [dirVolume, hr, hd] at h
      rw [hnone]
      simp [hr, hd]

theorem dirVolume_wellNamed : WellNamed dirVolume := by
  have hroot : dirVolume.rootBlock = 514 := by decide
  refine ⟨rfl, by decide, ?_, ?_, ?_, ?_⟩
  · intro b hb
    simp only [dirVolume, Bool.or_eq_true, beq_iff_eq] at hb
    rcases hb with rfl | rfl
    · exact ⟨rootNode, (dirVolume_node _ _).mpr (Or.inl ⟨rfl, rfl⟩), by decide, rfl⟩
    · exact ⟨dNode, (dirVolume_node _ _).mpr (Or.inr ⟨rfl, rfl⟩), by decide, rfl⟩
  · exact ⟨rootNode, (dirVolume_node _ _).mpr (Or.inl ⟨hroot, rfl⟩), rfl, rfl⟩
  · intro d n hn hd
    rcases (dirVolume_node d n).mp hn with ⟨rfl, rfl⟩ | ⟨rfl, rfl⟩
    · refine ⟨[([46], 514), ([46, 46], 514), ([100], 600)], rfl, ?_⟩
      refine ⟨by decide, by decide, by decide, by decide, ?_, ?_⟩
      · intro name b hmem hdot
        simp only [List.mem_cons, Prod.mk.injEq, List.not_mem_nil, or_false] at hmem
        rcases hmem with ⟨rfl, -⟩ | ⟨rfl, -⟩ | ⟨-, rfl⟩
        · cases hdot
        · cases hdot
        · exact ⟨by rw [hroot]; decide, dNode, (dirVolume_node _ _).mpr (Or.inr ⟨rfl, rfl⟩), rfl, rfl⟩
      · intro name name' b hmem hmem' hdot hdot'
        simp only [List.mem_cons, Prod.mk.injEq, List.not_mem_nil, or_false] at hmem hmem'
        rcases hmem with ⟨rfl, -⟩ | ⟨rfl, -⟩ | ⟨rfl, -⟩
        · cases hdot
        · cases hdot
        · rcases hmem' with ⟨rfl, -⟩ | ⟨rfl, -⟩ | ⟨rfl, -⟩
          · cases hdot'
          · cases hdot'
          · rfl
    · exact ⟨[([46], 600), ([46, 46], 514)], rfl, listing_dots (n := dNode) allows_isName 600⟩
  · intro b n hn _ hb
    rcases (dirVolume_node b n).mp hn with ⟨rfl, rfl⟩ | ⟨rfl, rfl⟩
    · exact absurd hroot.symm hb
    · exact ⟨514, rootNode, _, [100], (dirVolume_node _ _).mpr (Or.inl ⟨rfl, rfl⟩), rfl, rfl, by decide, rfl⟩

end Aegir.Fs
