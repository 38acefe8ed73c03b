/-
  The descriptor table of a process, and what its files hold (aegir-posix, `files.cc`).

  A descriptor names an open file, which its volume serves through a handle; here the
  file itself stands for the handle, and a volume answers every read and write.  An
  error is the negated number the call answers with.
-/
import Mathlib

namespace Aegir.Hosted

def eBadf : Int := 9
def eNomem : Int := 12
def eIsdir : Int := 21
def eInval : Int := 22

/-- `Entry`, of a descriptor that is open. -/
structure Entry where
  file : ℕ
  directory : Bool
  readable : Bool
  writable : Bool
deriving DecidableEq

/-- The entries of the descriptors from 3 on, and the bytes of each file. -/
structure Files where
  entries : List (Option Entry)
  bytes : ℕ → List UInt8

/-- The first three descriptors are the standard streams. -/
def kFirstFd : ℕ := 3

/-- Bytes written over a file at an offset; a gap is filled with zeros. -/
def patch (f : List UInt8) (offset : ℕ) (data : List UInt8) : List UInt8 :=
  (f ++ List.replicate (offset - f.length) 0).take offset ++ data ++ f.drop (offset + data.length)

namespace Files

def put (s : Files) (file : ℕ) (bytes : List UInt8) : Files :=
  { s with bytes := fun f => if f = file then bytes else s.bytes f }

def entryFor (s : Files) (fd : Int) : Option Entry :=
  if fd < kFirstFd then none else (s.entries[fd.toNat - kFirstFd]?).join

/-- `install`, with the lowest descriptor that `alloc_fd` finds. -/
def install (s : Files) (e : Entry) : Int × Files :=
  match s.entries.findIdx? Option.isNone with
  | some i => ((kFirstFd + i : ℕ), { s with entries := s.entries.set i (some e) })
  | none => ((kFirstFd + s.entries.length : ℕ), { s with entries := s.entries ++ [some e] })

/-- `openat` of a file that is there, with the flags it reads; `truncate` empties the file. -/
def openat (s : Files) (file : ℕ) (directory write readWrite truncate : Bool) : Int × Files :=
  if write || readWrite || truncate then
    if directory then (-eIsdir, s)
    else
      let s := if truncate then s.put file [] else s
      s.install ⟨file, false, readWrite, true⟩
  else s.install ⟨file, directory, !directory, false⟩

def close (s : Files) (fd : Int) : Int × Files :=
  match s.entryFor fd with
  | none => (-eBadf, s)
  | some _ => (0, { s with entries := s.entries.set (fd.toNat - kFirstFd) none })

/-- `pread`: the bytes read, or the error. -/
def pread (s : Files) (fd : Int) (count : ℕ) (offset : Int) : Int ⊕ List UInt8 :=
  match s.entryFor fd with
  | none => .inl (-eBadf)
  | some e =>
    if offset < 0 then .inl (-eInval)
    else if e.directory then .inl (-eIsdir)
    else if e.readable = false then .inl (-eBadf)
    else .inr (((s.bytes e.file).drop offset.toNat).take count)

def pwrite (s : Files) (fd : Int) (data : List UInt8) (offset : Int) : Int × Files :=
  match s.entryFor fd with
  | none => (-eBadf, s)
  | some e =>
    if offset < 0 then (-eInval, s)
    else if e.writable = false then (-eBadf, s)
    else (data.length, s.put e.file (patch (s.bytes e.file) offset.toNat data))

end Files

end Aegir.Hosted
