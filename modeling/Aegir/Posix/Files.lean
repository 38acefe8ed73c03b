/-
  The descriptors of a process: opening a path, and asking about one.

  A process holds a table of descriptors and one current directory.  The namespace and the
  volumes are the services behind it: `Volumes` is what they answer, on a state of their own.
  A capability slot and a row of the table are always to be had.
-/
import Aegir.Posix.Path

namespace Aegir.Posix

def kPathCapacity : ℕ := 944

inductive Errno where
  | badf | noent | isdir | notdir | exist | acces | inval | io
  deriving DecidableEq

inductive Kind where
  | file | dir
  deriving DecidableEq

structure Info where
  kind : Kind
  size : ℕ
  mtime : ℕ
  ino : ℕ
  deriving DecidableEq

/-- The services behind the descriptors: the namespace's table of volumes, and the volumes' own
    answers.  A read open answers a handle, zero where none is served, and the member of a union
    that serves it. -/
structure Volumes (σ : Type) where
  volume : Text → Option ℕ
  nameless : volume [] = none
  stat : ℕ → Text → σ → Option Info
  openWrite : ℕ → Text → (truncate : Bool) → σ → ℕ × σ
  openRead : ℕ → Text → σ → Option (ℕ × Option (ℕ × Text)) × σ

/-! ## The current directory -/

/-- The root, or a VFS path, empty when the process has none. -/
structure Cwd where
  isRoot : Bool
  path : Text

def Cwd.posix (c : Cwd) : Option Text :=
  if c.isRoot then some ['/'] else if c.path = [] then none else present c.path kPathCapacity

def posixPath (path : Text) (c : Cwd) : Option Target := translate path c.posix kPathCapacity

/-! ## The table -/

structure Entry where
  root : Bool
  directory : Bool
  readable : Bool
  writable : Bool
  volume : ℕ
  handle : ℕ
  path : Text
  offset : ℕ
  index : ℕ
  deriving DecidableEq

abbrev Entries := List (Option Entry)

def entryFor (entries : Entries) (fd : ℤ) : Option Entry :=
  if fd < 3 then none else (entries[(fd - 3).toNat]?).join

/-- An entry at the first unused descriptor. -/
def install (entries : Entries) (e : Entry) : ℕ × Entries :=
  let i := (entries.findIdx? Option.isNone).getD entries.length
  (i + 3, if i < entries.length then entries.set i (some e) else entries ++ [some e])

theorem entryFor_install (entries : Entries) (e : Entry) :
    entryFor entries (install entries e).1 = none ∧
      ∀ fd : ℤ, entryFor (install entries e).2 fd = if fd = (install entries e).1 then some e else entryFor entries fd := by
  obtain ⟨i, hi⟩ : ∃ i, i = (entries.findIdx? Option.isNone).getD entries.length := ⟨_, rfl⟩
  have hunused : (entries[i]?).join = none ∧ i ≤ entries.length := by
    rw [hi]
    cases hfind : entries.findIdx? Option.isNone with
    | none => simp
    | some j =>
      obtain ⟨hj, hnone, -⟩ := List.findIdx?_eq_some_iff_getElem.1 hfind
      simp only [Option.getD_some, List.getElem?_eq_getElem hj]
      exact ⟨Option.isNone_iff_eq_none.1 hnone, Nat.le_of_lt hj⟩
  obtain ⟨hnone, hle⟩ := hunused
  simp only [install, ← hi, entryFor]
  refine ⟨?_, fun fd => ?_⟩
  · rw [if_neg (by omega), show (((i + 3 : ℕ) : ℤ) - 3).toNat = i by omega, hnone]
  by_cases hsmall : fd < 3
  · rw [if_pos hsmall, if_neg (by omega), if_pos hsmall]
  rw [if_neg hsmall, if_neg hsmall]
  have hfd : fd = ((i + 3 : ℕ) : ℤ) ↔ i = (fd - 3).toNat := by omega
  simp only [hfd]
  split_ifs with hlt hat hat
  · rw [← hat, List.getElem?_set_self hlt, Option.join_some]
  · rw [List.getElem?_set_ne hat]
  · obtain rfl : i = entries.length := by omega
    rw [← hat, List.getElem?_concat_length, Option.join_some]
  · obtain rfl : i = entries.length := by omega
    by_cases hin : (fd - 3).toNat < entries.length
    · rw [List.getElem?_append_left hin]
    · rw [List.getElem?_eq_none (by rw [List.length_append, List.length_singleton]; omega),
        List.getElem?_eq_none (by omega)]

structure Process where
  entries : Entries
  cwd : Cwd

/-! ## Paths -/

def atFdCwd : ℤ := -100

/-- The path an `*at` call means, empty when its anchor is no directory. -/
def anchoredPath (entries : Entries) (dfd : ℤ) (path : Text) (capacity : ℕ) : Text :=
  if capacity < path.length + 1 then []
  else if dfd < 0 ∨ path.head? = some '/' ∨ namesAVolume path then path
  else
    match entryFor entries dfd with
    | none => []
    | some e =>
      if e.directory then
        let start := e.path.take (capacity - 1)
        let start := if start ≠ [] ∧ start.getLast? ≠ some '/' ∧ start.length + 1 < capacity then start ++ ['/'] else start
        start ++ path.take (capacity - 1 - start.length)
      else []

/-- The volume and the path on it that a VFS path names. -/
def resolve {σ : Type} (v : Volumes σ) (full : Text) : Option (ℕ × Text) :=
  let rest := (full.dropWhile (· ≠ ':')).drop 1
  (v.volume (full.takeWhile (· ≠ ':'))).bind fun volume =>
    if kPathCapacity < rest.length then none else some (volume, rest)

/-! ## Asking about a path -/

def kModeDirectory : ℕ := 0o40000 + 0o755
def kModeRegular : ℕ := 0o100000 + 0o644

structure Kstat where
  mode : ℕ
  nlink : ℕ
  ino : ℕ
  size : ℕ
  blksize : ℕ
  blocks : ℕ
  atime : ℕ
  mtime : ℕ
  ctime : ℕ
  deriving DecidableEq

def fillKstat (info : Info) : Kstat :=
  { mode := if info.kind = .dir then kModeDirectory else kModeRegular
    nlink := 1, ino := info.ino, size := info.size, blksize := 4096, blocks := (info.size + 511) / 512
    atime := info.mtime, mtime := info.mtime, ctime := info.mtime }

section
variable {σ : Type} (v : Volumes σ)

/-- The root is a directory, and has no volume to ask. -/
def statTarget (target : Option Target) (s : σ) : Option Kstat :=
  match target with
  | some .root => some (fillKstat ⟨.dir, 0, 0, 0⟩)
  | some (.vfs full) => (resolve v full).bind fun r => (v.stat r.1 r.2 s).map fillKstat
  | none => none

def statEntry (e : Entry) (s : σ) : Option Kstat :=
  if e.root then some (fillKstat ⟨.dir, 0, 0, 0⟩) else (v.stat e.volume e.path s).map fillKstat

def fstat (p : Process) (fd : ℤ) (s : σ) : Except Errno Kstat :=
  if 0 ≤ fd ∧ fd ≤ 2 then .ok (fillKstat ⟨.file, 0, 0, 0⟩)
  else
    match entryFor p.entries fd with
    | none => .error .badf
    | some e => (statEntry v e s).elim (.error .noent) .ok

def newfstatat (p : Process) (dfd : ℤ) (path : Text) (s : σ) : Except Errno Kstat :=
  if path = [] ∧ 0 ≤ dfd then fstat v p dfd s
  else
    let anchored := anchoredPath p.entries dfd path kPathCapacity
    if anchored = [] then .error .noent
    else (statTarget v (posixPath anchored p.cwd) s).elim (.error .noent) .ok

def faccessat (p : Process) (dfd : ℤ) (path : Text) (s : σ) : Except Errno Unit :=
  let anchored := anchoredPath p.entries dfd path kPathCapacity
  if anchored = [] then .error .noent
  else (statTarget v (posixPath anchored p.cwd) s).elim (.error .noent) fun _ => .ok ()

/-! ## Opening a path -/

structure Flags where
  wronly : Bool
  rdwr : Bool
  creat : Bool
  excl : Bool
  trunc : Bool
  append : Bool
  directory : Bool

def Entry.ofRoot : Entry := ⟨true, true, false, false, 0, 0, [], 0, 0⟩

def Entry.on (volume : ℕ) (path : Text) (handle : ℕ) (directory readable writable : Bool) : Entry :=
  ⟨false, directory, readable, writable, volume, handle, path, 0, 0⟩

abbrev Opened (σ : Type) := Except Errno ℕ × Entries × σ

def installed (entries : Entries) (e : Entry) (s : σ) : Opened σ :=
  (.ok (install entries e).1, (install entries e).2, s)

/-- The root is a directory to browse: only a write open of it is refused. -/
def openRoot (entries : Entries) (flags : Flags) (s : σ) : Opened σ :=
  if flags.wronly || flags.rdwr || (flags.creat && !flags.directory) then (.error .isdir, entries, s)
  else installed entries .ofRoot s

def openForWrite (entries : Entries) (volume : ℕ) (rest : Text) (info : Option Info) (flags : Flags) (s : σ) :
    Opened σ :=
  if info.any (·.kind = .dir) ∧ rest ≠ [] then (.error .isdir, entries, s)
  else if info.isSome ∧ flags.creat ∧ flags.excl then (.error .exist, entries, s)
  else if info = none ∧ ¬ flags.creat then (.error .noent, entries, s)
  else
    let (handle, s) := v.openWrite volume rest flags.trunc s
    if handle = 0 then (.error (if info.isSome then .acces else .noent), entries, s)
    else installed entries (.on volume rest handle false flags.rdwr true) s

/-- A read open of a file: the handle may be a union member's, with that member's own path. -/
def openForRead (entries : Entries) (volume : ℕ) (rest : Text) (s : σ) : Opened σ :=
  match v.openRead volume rest s with
  | (none, s) => (.error .io, entries, s)
  | (some (handle, member), s) =>
    match member with
    | some (memberVolume, memberPath) =>
      if handle = 0 then installed entries (.on volume rest 0 false true false) s
      else installed entries (.on memberVolume memberPath handle false true false) s
    | none => installed entries (.on volume rest handle false true false) s

def openPath (entries : Entries) (volume : ℕ) (rest : Text) (flags : Flags) (s : σ) : Opened σ :=
  let info := v.stat volume rest s
  if flags.directory then
    match info with
    | none => (.error .noent, entries, s)
    | some i => if i.kind = .dir then installed entries (.on volume rest 0 true false false) s else (.error .notdir, entries, s)
  else if flags.wronly || flags.rdwr || flags.creat || flags.trunc then openForWrite v entries volume rest info flags s
  else
    match info with
    | none => (.error .noent, entries, s)
    | some i =>
      if i.kind = .dir then installed entries (.on volume rest 0 true false false) s
      else openForRead v entries volume rest s

def openTarget (entries : Entries) (target : Option Target) (flags : Flags) (s : σ) : Opened σ :=
  match target with
  | some .root => openRoot entries flags s
  | some (.vfs full) =>
    match resolve v full with
    | none => (.error .noent, entries, s)
    | some (volume, rest) => openPath v entries volume rest flags s
  | none => (.error .noent, entries, s)

def openat (p : Process) (dfd : ℤ) (path : Text) (flags : Flags) (s : σ) : Opened σ :=
  let anchored := anchoredPath p.entries dfd path kPathCapacity
  if anchored = [] then (.error .noent, p.entries, s)
  else openTarget v p.entries (posixPath anchored p.cwd) flags s

/-! ## Where a path lands -/

/-- Where the path of an `*at` call lands in the view. -/
def named (p : Process) (dfd : ℤ) (path : Text) : Option Target :=
  let anchored := anchoredPath p.entries dfd path kPathCapacity
  if anchored = [] then none else posixPath anchored p.cwd

theorem openat_eq (p : Process) (dfd : ℤ) (path : Text) (flags : Flags) (s : σ) :
    openat v p dfd path flags s = openTarget v p.entries (named p dfd path) flags s := by
  simp only [openat, named]
  split_ifs <;> rfl

theorem newfstatat_eq {path : Text} (h : path ≠ []) (p : Process) (dfd : ℤ) (s : σ) :
    newfstatat v p dfd path s = (statTarget v (named p dfd path) s).elim (.error .noent) .ok := by
  rw [newfstatat, if_neg fun hnil => h hnil.1]
  simp only [named]
  split_ifs <;> rfl

theorem faccessat_eq (p : Process) (dfd : ℤ) (path : Text) (s : σ) :
    faccessat v p dfd path s = (statTarget v (named p dfd path) s).elim (.error .noent) fun _ => .ok () := by
  simp only [faccessat, named]
  split_ifs <;> rfl

end

end Aegir.Posix
