/-
  Listing a directory: the records `getdents` puts in its caller's buffer, and the cursor that `lseek` moves.
-/
import Aegir.Posix.Transfer

namespace Aegir.Posix

def kDirentHeader : ℕ := 8 + 8 + 2 + 1
def kDirentDirectory : ℕ := 4
def kDirentRegular : ℕ := 8

/-- A record, and where in the buffer it starts. -/
structure Dirent where
  start : ℕ
  ino : ℕ
  off : ℕ
  reclen : ℕ
  type : ℕ
  name : Text

/-- What there is to list: the volumes of the namespace, each with whether it has no directory, and
    its bindings; and the entries of a directory. -/
structure Contents where
  volumes : List (Text × Bool)
  bindings : List Text
  listed : List (Text × Kind)
  short : ∀ name ∈ volumes.map Prod.fst ++ bindings ++ listed.map Prod.fst, name.length ≤ kPathCapacity

/-- What is answered during a call: the namespace's two counts, and the entry at a place. -/
structure Served where
  counts : Bool
  place : ℕ → Bool

def Served.counted (served : Served) (n : ℕ) : ℕ := if served.counts then n else 0

def volumeEntry (row : Text × Bool) : Text × ℕ := (row.1, if row.2 then kDirentRegular else kDirentDirectory)

def listedEntry (listed : Text × Kind) : Text × ℕ :=
  (listed.1, if listed.2 = .dir then kDirentDirectory else kDirentRegular)

namespace Contents

variable (c : Contents) (root : Bool)

/-- The listing. -/
def entries : List (Text × ℕ) :=
  if root then c.volumes.map volumeEntry ++ c.bindings.map (·, kDirentDirectory) else c.listed.map listedEntry

/-- The entry that a turn of `getdents` is answered. -/
def next (served : Served) (index : ℕ) : Option (Text × ℕ) :=
  if root then
    if index < served.counted c.volumes.length then
      if served.place index then (c.volumes[index]?).map volumeEntry else none
    else if index - served.counted c.volumes.length < served.counted c.bindings.length then
      if served.place index then (c.bindings[index - served.counted c.volumes.length]?).map (·, kDirentDirectory) else none
    else none
  else if served.place index then (c.listed[index]?).map listedEntry else none

end Contents

def recordSize (name : Text) : ℕ := (kDirentHeader + name.length + 1 + 7) / 8 * 8

def putDirent (used count index : ℕ) (name : Text) (kind : ℕ) : Option Dirent :=
  if count < used + recordSize name then none else some ⟨used, index + 1, index + 1, recordSize name % 2 ^ 16, kind, name⟩

/-- The loop of `getdents`: the cursor, the bytes used, and the records. -/
def getdentsFrom (c : Contents) (root : Bool) (served : Served) (count index used : ℕ) (out : List Dirent) :
    ℕ × ℕ × List Dirent :=
  match c.next root served index with
  | none => (index, used, out)
  | some (name, kind) =>
    match _h : putDirent used count index name kind with
    | none => (index, used, out)
    | some dirent => getdentsFrom c root served count (index + 1) (used + recordSize name) (out ++ [dirent])
termination_by count - used
decreasing_by
  unfold putDirent at _h
  split at _h
  · cases _h
  · have : 0 < recordSize name := by unfold recordSize kDirentHeader; omega
    omega

section
variable {σ : Type} (v : Ports σ)

def getdents (w : World σ) (fd : ℤ) (c : Contents) (served : Served) (count : ℕ) : Except Errno ℕ × List Dirent × World σ :=
  match entryFor w.process.entries fd with
  | none => (.error .badf, [], w)
  | some e =>
    if e.directory then
      let (index, used, out) := getdentsFrom c e.root served count e.index 0 []
      (.ok used, out, w.put fd (some { e with index := index }) w.services)
    else (.error .badf, [], w)

/-- A reader of a directory: the place of its last seek, the records since then, the `d_off`s it has
    seen, and the buffer, the answer and the records of its last call. -/
structure Reader (σ : Type) where
  world : World σ
  since : ℕ
  got : List Dirent
  seen : List ℕ
  last : Option (ℕ × ℕ × List Dirent)

/-- The states of readers whose calls all meet `P`. -/
inductive Reads (c : Contents) (fd : ℤ) (root : Bool) (P : World σ → Served → ℕ → Prop) : Reader σ → Prop
  | start {w : World σ} {e : Entry} (hentry : entryFor w.process.entries fd = some e) (hdirectory : e.directory = true)
    (hroot : e.root = root) (hindex : e.index = 0) : Reads c fd root P ⟨w, 0, [], [], none⟩
  | getdents {r : Reader σ} {served : Served} {count used : ℕ} {out : List Dirent} {w : World σ} (h : Reads c fd root P r)
    (hmeets : P r.world served count) (hcall : getdents r.world fd c served count = (.ok used, out, w)) :
    Reads c fd root P ⟨w, r.since, r.got ++ out, r.seen ++ out.map Dirent.off, some (count, used, out)⟩
  | lseek {r : Reader σ} {off : ℕ} {reply : Reply} {rounds : List Round} {w : World σ} (h : Reads c fd root P r)
    (hoff : off ∈ r.seen) (hcall : lseek v r.world fd off .set = some (reply, rounds, w)) :
    Reads c fd root P ⟨w, off, [], r.seen, none⟩

end

/-- The `i`th record is the entry at `index + i`, and a seek to its `d_off` leads behind it. -/
def Delivered (entries : List (Text × ℕ)) (index : ℕ) (records : List Dirent) : Prop :=
  ∀ i d, records[i]? = some d → entries[index + i]? = some (d.name, d.type) ∧ d.ino = index + i + 1 ∧ d.off = index + i + 1

/-- Records one behind the other from `used` on, each with its name and its NUL, in `count` bytes. -/
def Laid (count used : ℕ) (records : List Dirent) : Prop :=
  used + (records.map Dirent.reclen).sum ≤ count ∧ ∀ before d after, records = before ++ d :: after →
    d.start = used + (before.map Dirent.reclen).sum ∧ kDirentHeader + d.name.length + 1 ≤ d.reclen

/-- The directory is delivered whole: since the last seek the records are the entries from there on,
    those of a call are inside its buffer, and only at the end a call answers zero. -/
structure Whole {σ : Type} (entries : List (Text × ℕ)) (r : Reader σ) : Prop where
  order : Delivered entries r.since r.got
  inside : ∀ count used out, r.last = some (count, used, out) → Laid count 0 out ∧ used = (out.map Dirent.reclen).sum
  ended : ∀ count out, r.last = some (count, 0, out) → entries.length ≤ r.since + r.got.length

/-- The buffer holds the record of the next entry, when there is one, and the entry is answered. -/
def NextFits {σ : Type} (c : Contents) (fd : ℤ) (w : World σ) (served : Served) (count : ℕ) : Prop :=
  ∀ e name kind, entryFor w.process.entries fd = some e → (c.entries e.root)[e.index]? = some (name, kind) →
    recordSize name ≤ count ∧ (e.root = true → served.counts = true) ∧ served.place e.index = true

/-! ## One call -/

section
variable {c : Contents} {root : Bool} {served : Served} {count index used : ℕ} {out : List Dirent} {name : Text} {kind : ℕ}

theorem Contents.next_served (hcounts : root = true → served.counts = true) (hplace : served.place index = true) :
    c.next root served index = (c.entries root)[index]? := by
  unfold Contents.next Contents.entries
  cases root with
  | false => simp [hplace]
  | true =>
    have hcounted (n : ℕ) : served.counted n = n := if_pos (hcounts rfl)
    rw [if_pos rfl, if_pos rfl, hcounted, hcounted, if_pos hplace, if_pos hplace, List.getElem?_append, List.length_map,
      List.getElem?_map, List.getElem?_map]
    split_ifs with hvolume hbinding
    · rfl
    · rfl
    · rw [List.getElem?_eq_none (Nat.not_lt.1 hbinding)]
      rfl

theorem Contents.next_some (h : c.next root served index = some (name, kind)) :
    (c.entries root)[index]? = some (name, kind) := by
  by_cases hplace : served.place index = true
  · by_cases hcounts : root = true → served.counts = true
    · rw [← next_served hcounts hplace, h]
    · obtain ⟨rfl, hnot⟩ := Classical.not_imp.1 hcounts
      simp [next, Served.counted, hnot] at h
  · simp [next, hplace] at h

theorem Contents.length_le (h : (c.entries root)[index]? = some (name, kind)) : name.length ≤ kPathCapacity := by
  refine c.short name ?_
  have hmem := List.mem_of_getElem? h
  unfold entries at hmem
  cases root with
  | false =>
    obtain ⟨row, hrow, heq⟩ := List.mem_map.1 hmem
    cases heq
    exact List.mem_append_right _ (List.mem_map_of_mem hrow)
  | true =>
    refine List.mem_append_left _ ?_
    rcases List.mem_append.1 hmem with hmem | hmem
    · obtain ⟨row, hrow, heq⟩ := List.mem_map.1 hmem
      cases heq
      exact List.mem_append_left _ (List.mem_map_of_mem hrow)
    · obtain ⟨row, hrow, heq⟩ := List.mem_map.1 hmem
      cases heq
      exact List.mem_append_right _ hrow

theorem recordSize_bounds (h : name.length ≤ kPathCapacity) :
    kDirentHeader + name.length + 1 ≤ recordSize name ∧ recordSize name % 2 ^ 16 = recordSize name := by
  unfold recordSize kDirentHeader
  unfold kPathCapacity at h
  omega

theorem Delivered.nil {entries : List (Text × ℕ)} : Delivered entries index [] :=
  fun _ _ h => (List.not_mem_nil (List.mem_of_getElem? h)).elim

theorem Delivered.cons {entries : List (Text × ℕ)} {d : Dirent} {records : List Dirent}
    (hd : entries[index]? = some (d.name, d.type) ∧ d.ino = index + 1 ∧ d.off = index + 1)
    (h : Delivered entries (index + 1) records) : Delivered entries index (d :: records) := by
  intro i d' hi
  cases i with
  | zero =>
    cases hi
    exact hd
  | succ i =>
    have := h i d' hi
    rwa [Nat.add_right_comm index 1 i] at this

theorem Delivered.append {entries : List (Text × ℕ)} {a b : List Dirent} (ha : Delivered entries index a)
    (hb : Delivered entries (index + a.length) b) : Delivered entries index (a ++ b) := by
  intro i d hi
  rw [List.getElem?_append] at hi
  split at hi
  · exact ha i d hi
  · have := hb (i - a.length) d hi
    rwa [Nat.add_assoc, Nat.add_sub_of_le (by omega)] at this

theorem Laid.nil (h : used ≤ count) : Laid count used [] :=
  ⟨h, fun before _ _ heq => by cases before <;> cases heq⟩

theorem Laid.cons {d : Dirent} {records : List Dirent} (hstart : d.start = used)
    (hname : kDirentHeader + d.name.length + 1 ≤ d.reclen) (h : Laid count (used + d.reclen) records) :
    Laid count used (d :: records) := by
  refine ⟨?_, fun before d' after heq => ?_⟩
  · rw [List.map_cons, List.sum_cons, ← Nat.add_assoc]
    exact h.1
  · cases before with
    | nil =>
      cases heq
      exact ⟨hstart, hname⟩
    | cons _ before =>
      obtain ⟨rfl, rfl⟩ := List.cons.inj heq
      rw [List.map_cons, List.sum_cons, ← Nat.add_assoc]
      exact h.2 before d' after rfl

theorem getdentsFrom_next (h : c.next root served index = some (name, kind)) (hfits : used + recordSize name ≤ count) :
    getdentsFrom c root served count index used out = getdentsFrom c root served count (index + 1) (used + recordSize name)
      (out ++ [⟨used, index + 1, index + 1, recordSize name, kind, name⟩]) := by
  have hput : putDirent used count index name kind = some ⟨used, index + 1, index + 1, recordSize name, kind, name⟩ := by
    rw [putDirent, if_neg (Nat.not_lt.2 hfits), (recordSize_bounds (Contents.length_le (Contents.next_some h))).2]
  rw [getdentsFrom, h]
  dsimp only
  split
  · next hnone =>
    rw [hput] at hnone
    cases hnone
  · next hsome =>
    rw [hput] at hsome
    cases hsome
    rfl

theorem getdentsFrom_stop (h : ∀ name kind, c.next root served index = some (name, kind) → count < used + recordSize name) :
    getdentsFrom c root served count index used out = (index, used, out) := by
  rw [getdentsFrom]
  split
  · rfl
  · next name kind hnext =>
    split
    · rfl
    · next hput =>
      rw [putDirent, if_pos (h name kind hnext)] at hput
      cases hput

/-- What the loop puts in the buffer: the entries from the cursor on, and none only if the next is not
    answered or does not fit. -/
theorem getdentsFrom_eq (hused : used ≤ count) : ∃ new, getdentsFrom c root served count index used out =
      (index + new.length, used + (new.map Dirent.reclen).sum, out ++ new) ∧
    Delivered (c.entries root) index new ∧ Laid count used new ∧
    (new = [] → ∀ name kind, c.next root served index = some (name, kind) → count < used + recordSize name) := by
  induction hn : count - used using Nat.strong_induction_on generalizing index used out with
  | _ n ih =>
    by_cases hstop : ∀ name kind, c.next root served index = some (name, kind) → count < used + recordSize name
    · exact ⟨[], by simp [getdentsFrom_stop hstop], .nil, .nil hused, fun _ => hstop⟩
    push Not at hstop
    obtain ⟨name, kind, hnext, hfits⟩ := hstop
    obtain ⟨hname, -⟩ := recordSize_bounds (Contents.length_le (Contents.next_some hnext))
    obtain ⟨new, hrun, hdelivered, hlaid, -⟩ := ih (count - (used + recordSize name)) (by omega) hfits rfl
    refine ⟨⟨used, index + 1, index + 1, recordSize name, kind, name⟩ :: new, ?_,
      hdelivered.cons ⟨Contents.next_some hnext, rfl, rfl⟩, hlaid.cons rfl hname, fun h => by cases h⟩
    rw [getdentsFrom_next hnext hfits, hrun]
    simp [Nat.add_assoc, Nat.add_comm 1]

theorem getdents_eq {σ : Type} {w : World σ} {fd : ℤ} {e : Entry} (hentry : entryFor w.process.entries fd = some e)
    (hdirectory : e.directory = true) : ∃ new, getdents w fd c served count = (.ok (new.map Dirent.reclen).sum, new,
      w.put fd (some { e with index := e.index + new.length }) w.services) ∧
    Delivered (c.entries e.root) e.index new ∧ Laid count 0 new ∧
    ((new.map Dirent.reclen).sum = 0 → new = [] ∧
      ∀ name kind, c.next e.root served e.index = some (name, kind) → count < recordSize name) := by
  obtain ⟨new, hrun, hdelivered, hlaid, hstop⟩ := @getdentsFrom_eq c e.root served count e.index 0 [] (Nat.zero_le count)
  rw [List.nil_append, Nat.zero_add] at hrun
  refine ⟨new, ?_, hdelivered, hlaid, fun hsum => ?_⟩
  · simp only [getdents, hentry, hdirectory, hrun, if_true]
  · have hnil : new = [] := by
      cases new with
      | nil => rfl
      | cons d rest =>
        have hd := (hlaid.2 [] d rest rfl).2
        rw [List.map_cons, List.sum_cons] at hsum
        unfold kDirentHeader at hd
        omega
    refine ⟨hnil, fun name kind h => ?_⟩
    have := hstop hnil name kind h
    omega

end

/-! ## A run of calls -/

section
variable {σ : Type} {v : Ports σ} {c : Contents} {fd : ℤ} {root : Bool} {r : Reader σ}

theorem Whole.sought {w : World σ} {since : ℕ} {seen : List ℕ} {entries : List (Text × ℕ)} :
    Whole entries (⟨w, since, [], seen, none⟩ : Reader σ) where
  order := .nil
  inside _ _ _ h := by cases h
  ended _ _ h := by cases h

/-- What holds between two calls: the descriptor's cursor is behind the records since the last seek. -/
def Reading (c : Contents) (fd : ℤ) (root : Bool) (r : Reader σ) : Prop :=
  Whole (c.entries root) r ∧ ∃ e, entryFor r.world.process.entries fd = some e ∧ e.directory = true ∧ e.root = root ∧
    e.index = r.since + r.got.length

theorem Reading.getdents {served : Served} {count used : ℕ} {out : List Dirent} {w : World σ} (h : Reading c fd root r)
    (hfits : NextFits c fd r.world served count) (hcall : getdents r.world fd c served count = (.ok used, out, w)) :
    Reading c fd root ⟨w, r.since, r.got ++ out, r.seen ++ out.map Dirent.off, some (count, used, out)⟩ := by
  obtain ⟨hwhole, e, hentry, hdirectory, rfl, hindex⟩ := h
  obtain ⟨new, hrun, hdelivered, hlaid, hstop⟩ := @getdents_eq c served count σ r.world fd e hentry hdirectory
  rw [hrun] at hcall
  cases hcall
  refine ⟨⟨?_, fun _ _ _ h => ?_, fun _ _ h => ?_⟩, _, entryFor_setEntry hentry _ fd |>.trans (if_pos rfl), hdirectory, rfl, ?_⟩
  · refine hwhole.order.append ?_
    rwa [← hindex]
  · cases h
    exact ⟨hlaid, rfl⟩
  · -- an answer of zero: the next entry would have been put, so there is none
    obtain ⟨rfl, hnone⟩ := hstop (congrArg (fun last => last.2.1) (Option.some.inj h))
    cases h
    dsimp only
    rw [List.append_nil, ← hindex]
    by_contra hlt
    have hnext := List.getElem?_eq_getElem (Nat.not_le.1 hlt)
    obtain ⟨hle, hcounts, hplace⟩ := hfits e _ _ hentry hnext
    have := hnone _ _ ((Contents.next_served hcounts hplace).trans hnext)
    omega
  · dsimp only
    rw [List.length_append, ← Nat.add_assoc, ← hindex]

theorem Reading.lseek {off : ℕ} {reply : Reply} {rounds : List Round} {w : World σ} (h : Reading c fd root r)
    (hcall : lseek v r.world fd off .set = some (reply, rounds, w)) : Reading c fd root ⟨w, off, [], r.seen, none⟩ := by
  obtain ⟨-, e, hentry, hdirectory, hroot, -⟩ := h
  simp only [Posix.lseek, hentry, seekBase, hdirectory, if_true] at hcall
  rw [if_neg (by omega)] at hcall
  cases hcall
  refine ⟨.sought, _, entryFor_setEntry hentry _ fd |>.trans (if_pos rfl), rfl, hroot, ?_⟩
  simp

/-- **A directory is delivered whole** to a reader whose buffers each hold the next record. -/
theorem getdents_whole (h : Reads v c fd root (NextFits c fd) r) : Whole (c.entries root) r := by
  suffices hreading : Reading c fd root r from hreading.1
  induction h with
  | start hentry hdirectory hroot hindex => exact ⟨.sought, _, hentry, hdirectory, hroot, hindex⟩
  | getdents _ hfits hcall ih => exact ih.getdents hfits hcall
  | lseek _ _ hcall ih => exact ih.lseek hcall

end

/-- Volumes that answer nothing. -/
def mute : Ports Unit where
  volume _ := none
  nameless := rfl
  stat _ _ _ := none
  openWrite _ _ _ s := (0, s)
  openRead _ _ s := (none, s)
  onRead _ _ _ _ s := (none, s)
  onReadHandle _ _ _ _ s := (none, s)
  onReadFrame _ _ _ _ _ s := (none, s)
  onWrite _ _ _ _ s := (none, s)
  onWriteFrame _ _ _ _ s := (none, s)
  onClose _ _ s := s
  largeFrame _ := false
  pageFrame _ := false
  writeFrame _ := false

/-- A directory with the file `a`. -/
def oneFileListed : Contents := ⟨[], [], [(['a'], .file)], by decide⟩

def listingWorld : World Unit := ⟨⟨[some ⟨false, true, true, false, 0, 0, [], 0, 0⟩], ⟨true, []⟩⟩, ()⟩

theorem getdents_whole_one : ∃ r : Reader Unit, r.got.map Dirent.name = [['a']] ∧ Whole (oneFileListed.entries false) r := by
  have hcall : getdents listingWorld 3 oneFileListed ⟨true, fun _ => true⟩ 24 =
      (.ok 24, [⟨0, 1, 1, 24, 8, ['a']⟩], listingWorld.put 3 (some ⟨false, true, true, false, 0, 0, [], 0, 1⟩) ()) := by
    have hrun : getdentsFrom oneFileListed false ⟨true, fun _ => true⟩ 24 0 0 [] = (1, 24, [⟨0, 1, 1, 24, 8, ['a']⟩]) :=
      (getdentsFrom_next rfl (by decide)).trans (getdentsFrom_stop fun _ _ h => by cases h)
    simp [getdents, entryFor, listingWorld, hrun]
  refine ⟨_, ?_, getdents_whole (v := mute) (.getdents (.start rfl rfl rfl rfl) (fun e name kind hentry h => ?_) hcall)⟩
  · rfl
  · cases hentry
    cases h
    decide

end Aegir.Posix
