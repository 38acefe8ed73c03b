/-
  Moving bytes between a program and a file.

  `Ports` is what a volume's port answers to the transfer calls; `volumeRead` and the other
  client calls bound what they ask, and refuse an answer that is more.  The loops of `read`,
  `write` and `sendfile` run on fuel: without an answer they have not returned yet.
-/
import Aegir.Posix.Files

namespace Aegir.Posix

/-! ## The ports -/

def kFrameBytes : ℕ := 2 ^ 12
def kWriteMax : ℕ := 117 * 8
def kReadMax : ℕ := 117 * 8
def kPageBits : ℕ := 12
def kLargePageBits : ℕ := 21

abbrev Bytes := List UInt8

/-- What the volumes answer to the transfer calls, and whether the process has a frame: a large
    one or a page to lend, and a page of its own for writing. -/
structure Ports (σ : Type) extends Volumes σ where
  onRead : (volume : ℕ) → (path : Text) → (offset wanted : ℕ) → σ → Option (Bytes × Bool) × σ
  onReadHandle : (volume handle offset wanted : ℕ) → σ → Option (Bytes × Bool) × σ
  onReadFrame : (volume handle offset wanted bits : ℕ) → σ → Option (Bytes × Bool) × σ
  onWrite : (volume handle offset : ℕ) → Bytes → σ → Option ℕ × σ
  onWriteFrame : (volume handle offset : ℕ) → Bytes → σ → Option ℕ × σ
  onClose : (volume handle : ℕ) → σ → σ
  largeFrame : σ → Bool
  pageFrame : σ → Bool
  writeFrame : σ → Bool

section
variable {σ : Type} (v : Ports σ)

/-- An answer of more than was asked is a refusal. -/
def bounded (wanted : ℕ) (answer : Option (Bytes × Bool) × σ) : Option (Bytes × Bool) × σ :=
  (answer.1.filter fun a => a.1.length ≤ wanted, answer.2)

def volumeRead (volume : ℕ) (path : Text) (offset capacity : ℕ) (s : σ) : Option (Bytes × Bool) × σ :=
  bounded (min capacity kReadMax) (v.onRead volume path offset (min capacity kReadMax) s)

def volumeReadHandle (volume handle offset capacity : ℕ) (s : σ) : Option (Bytes × Bool) × σ :=
  bounded (min capacity kReadMax) (v.onReadHandle volume handle offset (min capacity kReadMax) s)

def volumeReadFrame (volume handle offset capacity bits : ℕ) (s : σ) : Option (Bytes × Bool) × σ :=
  bounded (min capacity (2 ^ bits)) (v.onReadFrame volume handle offset (min capacity (2 ^ bits)) bits s)

def volumeWrite (volume handle offset : ℕ) (bytes : Bytes) (s : σ) : Bool × ℕ × σ :=
  if kWriteMax < bytes.length then (false, 0, s)
  else
    match v.onWrite volume handle offset bytes s with
    | (none, s) => (false, 0, s)
    | (some taken, s) => (taken == bytes.length, taken, s)

/-- How many of the bytes in a page the volume took, unless it refused. -/
def volumeWriteFrame (volume handle offset : ℕ) (bytes : Bytes) (s : σ) : Option ℕ × σ :=
  let bytes := bytes.take kFrameBytes
  let answer := v.onWriteFrame volume handle offset bytes s
  (answer.1.filter fun taken => taken ≤ bytes.length, answer.2)

/-! ## Reading -/

/-- The loop of `read_framed`: whether a frame was served, and the bytes so far. -/
def readFrames (count bits : ℕ) : ℕ → Entry → Bytes → Bool → σ → Option (Bool × Bytes × Entry × σ)
  | 0, _, _, _, _ => none
  | fuel + 1, e, out, served, s =>
    if count ≤ out.length then some (served, out, e, s)
    else
      match volumeReadFrame v e.volume e.handle e.offset (min (count - out.length) (2 ^ bits)) bits s with
      | (none, s) => some (served, out, e, s)
      | (some (bytes, eof), s) =>
        if bytes = [] then some (true, out, e, s)
        else
          let e := { e with offset := e.offset + bytes.length }
          if eof then some (true, out ++ bytes, e, s) else readFrames count bits fuel e (out ++ bytes) true s

/-- No bytes when no frame could be had or none is served. -/
def readFramed (fuel : ℕ) (e : Entry) (count : ℕ) (s : σ) : Option (Option Bytes × Entry × σ) :=
  if e.handle = 0 then some (none, e, s)
  else if v.largeFrame s || v.pageFrame s then
    (readFrames v count (if v.largeFrame s then kLargePageBits else kPageBits) fuel e [] false s).map
      fun (served, out, e, s) => (if served then some out else none, e, s)
  else some (none, e, s)

/-- One inline read: through the handle, or by the path when that is refused. -/
def readInline (e : Entry) (capacity : ℕ) (s : σ) : Option (Bytes × Bool) × σ :=
  match (if e.handle = 0 then (none, s) else volumeReadHandle v e.volume e.handle e.offset capacity s) with
  | (some answer, s) => (some answer, s)
  | (none, s) => volumeRead v e.volume e.path e.offset capacity s

def readLoop (count : ℕ) : ℕ → Entry → Bytes → σ → Option (Bytes × Entry × σ)
  | 0, _, _, _ => none
  | fuel + 1, e, out, s =>
    if count ≤ out.length then some (out, e, s)
    else
      match readInline v e (count - out.length) s with
      | (none, s) => some (out, e, s)
      | (some (bytes, eof), s) =>
        if bytes = [] then
          -- nothing yet: a stream with nothing more is waited for
          if eof || out ≠ [] then some (out, e, s) else readLoop count fuel e out s
        else
          let e := { e with offset := e.offset + bytes.length }
          if eof then some (out ++ bytes, e, s) else readLoop count fuel e (out ++ bytes) s

def readBytes (fuel : ℕ) (e : Entry) (count : ℕ) (s : σ) : Option (Bytes × Entry × σ) :=
  if kFrameBytes < count then
    (readFramed v fuel e count s).bind fun (framed, e, s) =>
      match framed with
      | some out => some (out, e, s)
      | none => readLoop v count fuel e [] s
  else readLoop v count fuel e [] s

/-! ## Writing -/

/-- What the volumes took of what they were given. -/
inductive Round where
  | inline (given taken : ℕ)
  | framed (left taken : ℕ)

/-- The loop through the page: it ends when the volume takes nothing. -/
def writeFrames : ℕ → Entry → Bytes → ℕ → σ → Option (ℕ × σ)
  | 0, _, _, _, _ => none
  | fuel + 1, e, bytes, total, s =>
    if bytes = [] then some (total, s)
    else
      match volumeWriteFrame v e.volume e.handle (e.offset + total) (bytes.take kFrameBytes) s with
      | (none, s) => some (total, s)
      | (some taken, s) => if taken = 0 then some (total, s) else writeFrames fuel e (bytes.drop taken) (total + taken) s

def writeLoop : ℕ → Entry → Bytes → ℕ → List Round → σ → Option (ℕ × List Round × σ)
  | 0, _, _, _, _, _ => none
  | fuel + 1, e, bytes, total, rounds, s =>
    if bytes = [] then some (total, rounds, s)
    else
      let chunk := bytes.take kWriteMax
      let (ok, taken, s) := volumeWrite v e.volume e.handle (e.offset + total) chunk s
      let rounds := rounds ++ [.inline chunk.length taken]
      if ok then
        -- a stream that took nothing is asked again
        if taken = 0 then writeLoop fuel e bytes total rounds s
        else writeLoop fuel e (bytes.drop taken) (total + taken) rounds s
      else some (total, rounds, s)

def writeBytes (fuel : ℕ) (e : Entry) (bytes : Bytes) (s : σ) : Option (ℕ × Entry × List Round × σ) :=
  (if kWriteMax < bytes.length ∧ v.writeFrame s then writeFrames v fuel e bytes 0 s else some (0, s)).bind
    fun (total, s) =>
      if 0 < total then some (total, { e with offset := e.offset + total }, [], s)
      else
        (writeLoop v fuel e bytes 0 [] s).map fun (total, rounds, s) =>
          (total, { e with offset := e.offset + total }, rounds, s)

/-! ## Copying -/

/-- Where a copy stands: what it moved, where it reads and writes, and what was taken. -/
structure Copy where
  total : ℕ
  position : ℕ
  out : ℕ
  rounds : List Round

def Copy.advance (c : Copy) (taken : ℕ) (round : Round) : Copy :=
  ⟨c.total + taken, c.position + taken, c.out + taken, c.rounds ++ [round]⟩

/-- The framed copy: a refused large frame is asked for again as a page. -/
def copyFrames (from_ to_ : Entry) (count : ℕ) : ℕ → ℕ → Copy → σ → Option (Copy × σ)
  | 0, _, _, _ => none
  | fuel + 1, bits, c, s =>
    if count ≤ c.total then some (c, s)
    else
      match volumeReadFrame v from_.volume from_.handle c.position (2 ^ bits) bits s with
      | (some (b :: bytes, eof), s) =>
        match volumeWriteFrame v to_.volume to_.handle c.out (b :: bytes) s with
        | (none, s) => some (c, s)
        | (some taken, s) =>
          if taken = 0 then some (c, s)
          else
            let c := c.advance taken (.framed (count - c.total) taken)
            if eof then some (c, s) else copyFrames from_ to_ count fuel bits c s
      | (_, s) =>
        if bits = kLargePageBits ∧ c.total = 0 ∧ v.pageFrame s then copyFrames from_ to_ count fuel kPageBits c s
        else some (c, s)

def copyInline (from_ to_ : Entry) (count : ℕ) : ℕ → Copy → σ → Option (Copy × σ)
  | 0, _, _ => none
  | fuel + 1, c, s =>
    if count ≤ c.total then some (c, s)
    else
      match volumeRead v from_.volume from_.path c.position (min (count - c.total) kReadMax) s with
      | (none, s) => some (c, s)
      | (some (bytes, eof), s) =>
        if bytes = [] then some (c, s)
        else
          let (ok, taken, s) := volumeWrite v to_.volume to_.handle c.out bytes s
          if ok ∧ taken ≠ 0 then
            let c := c.advance bytes.length (.inline bytes.length taken)
            if eof then some (c, s) else copyInline from_ to_ count fuel c s
          else some ({ c with rounds := c.rounds ++ [.inline bytes.length taken] }, s)

def copyBytes (fuel : ℕ) (from_ to_ : Entry) (position count : ℕ) (s : σ) : Option (Copy × σ) :=
  let start : Copy := ⟨0, position, to_.offset, []⟩
  (if from_.handle ≠ 0 ∧ 0 < count ∧ (v.largeFrame s || v.pageFrame s) then
      copyFrames v from_ to_ count fuel (if v.largeFrame s then kLargePageBits else kPageBits) start s
    else some (start, s)).bind fun (c, s) =>
      if 0 < c.total then some (c, s) else copyInline v from_ to_ count fuel c s

end

/-! ## The calls -/

inductive Access where
  | rdonly | wronly | rdwr
  deriving DecidableEq

inductive Whence where
  | set | cur | end_ | other

inductive Call where
  | openat (path : Text) (access : Access) (creat excl trunc append : Bool)
  | read (fd : ℤ) (count : ℕ)
  | write (fd : ℤ) (bytes : Bytes)
  | pread (fd : ℤ) (count : ℕ) (offset : ℤ)
  | pwrite (fd : ℤ) (bytes : Bytes) (offset : ℤ)
  | lseek (fd offset : ℤ) (whence : Whence)
  | sendfile (out in_ : ℤ) (offset : Option ℕ) (count : ℕ)
  | close (fd : ℤ)

def Access.flags (a : Access) (creat excl trunc append : Bool) : Flags :=
  ⟨a = .wronly, a = .rdwr, creat, excl, trunc, append, false⟩

/-- What a call answers: its value, what it put into the buffer, and the offset it wrote back. -/
structure Reply where
  value : Except Errno ℕ
  bytes : Bytes
  offset : Option ℕ

def Reply.error (e : Errno) : Reply := ⟨.error e, [], none⟩
def Reply.ok (n : ℕ) : Reply := ⟨.ok n, [], none⟩

/-- A process between two calls, with the services behind it. -/
structure World (σ : Type) where
  process : Process
  services : σ

/-- What a call came to, with what the volumes took on the way. -/
abbrev Outcome (σ : Type) := Reply × List Round × World σ

section
variable {σ : Type} (v : Ports σ)

def setEntry (entries : Entries) (fd : ℤ) (e : Option Entry) : Entries := entries.set (fd - 3).toNat e

theorem entryFor_setEntry {entries : Entries} {fd : ℤ} {e : Entry} (h : entryFor entries fd = some e)
    (new : Option Entry) (fd' : ℤ) :
    entryFor (setEntry entries fd new) fd' = if fd' = fd then new else entryFor entries fd' := by
  simp only [entryFor, setEntry] at h ⊢
  split_ifs at h with hsmall
  have hlt : (fd - 3).toNat < entries.length := by
    by_contra hge
    rw [List.getElem?_eq_none (Nat.le_of_not_lt hge)] at h
    cases h
  by_cases hsmall' : fd' < 3
  · rw [if_pos hsmall', if_neg (by omega), if_pos hsmall']
  rw [if_neg hsmall', if_neg hsmall']
  have hfd : fd' = fd ↔ (fd - 3).toNat = (fd' - 3).toNat := by omega
  simp only [hfd]
  split_ifs with hat
  · rw [← hat, List.getElem?_set_self hlt, Option.join_some]
  · rw [List.getElem?_set_ne hat]

def World.put (w : World σ) (fd : ℤ) (e : Option Entry) (s : σ) : World σ :=
  ⟨⟨setEntry w.process.entries fd e, w.process.cwd⟩, s⟩

def World.answer (w : World σ) (r : Reply) : Option (Outcome σ) := some (r, [], w)

def open_ (w : World σ) (path : Text) (flags : Flags) : Option (Outcome σ) :=
  let (value, entries, s) := openat v.toVolumes w.process atFdCwd path flags w.services
  some (⟨value, [], none⟩, [], ⟨⟨entries, w.process.cwd⟩, s⟩)

/-- `read` at the entry's offset; `restore` puts the cursor back for `pread`. -/
def readAt (fuel : ℕ) (w : World σ) (fd : ℤ) (count : ℕ) (at_ : Option ℕ) : Option (Outcome σ) :=
  match entryFor w.process.entries fd with
  | none => w.answer (.error .badf)
  | some e =>
    if e.directory then w.answer (.error .isdir)
    else if e.readable then
      (readBytes v fuel { e with offset := at_.getD e.offset } count w.services).map fun (out, e', s) =>
        (⟨.ok out.length, out, none⟩, [], w.put fd (some (if at_ = none then e' else { e' with offset := e.offset })) s)
    else w.answer (.error .badf)

def read (fuel : ℕ) (w : World σ) (fd : ℤ) (count : ℕ) : Option (Outcome σ) := readAt v fuel w fd count none

def pread (fuel : ℕ) (w : World σ) (fd : ℤ) (count : ℕ) (offset : ℤ) : Option (Outcome σ) :=
  match entryFor w.process.entries fd with
  | none => w.answer (.error .badf)
  | some _ => if offset < 0 then w.answer (.error .inval) else readAt v fuel w fd count (some offset.toNat)

def writeAt (fuel : ℕ) (w : World σ) (fd : ℤ) (bytes : Bytes) (at_ : Option ℕ) : Option (Outcome σ) :=
  match entryFor w.process.entries fd with
  | none => w.answer (.error .badf)
  | some e =>
    if e.writable ∧ e.handle ≠ 0 then
      (writeBytes v fuel { e with offset := at_.getD e.offset } bytes w.services).map fun (n, e', rounds, s) =>
        (.ok n, rounds, w.put fd (some (if at_ = none then e' else { e' with offset := e.offset })) s)
    else w.answer (.error .badf)

def write (fuel : ℕ) (w : World σ) (fd : ℤ) (bytes : Bytes) : Option (Outcome σ) := writeAt v fuel w fd bytes none

def pwrite (fuel : ℕ) (w : World σ) (fd : ℤ) (bytes : Bytes) (offset : ℤ) : Option (Outcome σ) :=
  match entryFor w.process.entries fd with
  | none => w.answer (.error .badf)
  | some _ => if offset < 0 then w.answer (.error .inval) else writeAt v fuel w fd bytes (some offset.toNat)

def seekBase (e : Entry) (whence : Whence) (s : σ) : Except Errno ℕ :=
  match whence with
  | .set => .ok 0
  | .cur => .ok (if e.directory then e.index else e.offset)
  | .end_ => (v.stat e.volume e.path s).elim (.error .io) fun info => .ok info.size
  | .other => .error .inval

def lseek (w : World σ) (fd offset : ℤ) (whence : Whence) : Option (Outcome σ) :=
  match entryFor w.process.entries fd with
  | none => w.answer (.error .badf)
  | some e =>
    match seekBase v e whence w.services with
    | .error errno => w.answer (.error errno)
    | .ok base =>
      if base + offset < 0 then w.answer (.error .inval)
      else
        let position := (base + offset).toNat
        let e := { e with index := if e.directory then position else e.index, offset := position }
        some (.ok position, [], w.put fd (some e) w.services)

def sendfile (fuel : ℕ) (w : World σ) (out in_ : ℤ) (offset : Option ℕ) (count : ℕ) : Option (Outcome σ) :=
  match entryFor w.process.entries in_, entryFor w.process.entries out with
  | some from_, some to_ =>
    if !from_.readable || from_.directory || !to_.writable || to_.handle == 0 then w.answer (.error .badf)
    else
      (copyBytes v fuel from_ to_ (offset.getD from_.offset) count w.services).map fun (c, s) =>
        let w := w.put out (some { to_ with offset := c.out }) s
        let w := if offset = none then w.put in_ (some { from_ with offset := c.position }) s else w
        (⟨.ok c.total, [], if offset = none then none else some c.position⟩, c.rounds, w)
  | _, _ => w.answer (.error .badf)

def close (w : World σ) (fd : ℤ) : Option (Outcome σ) :=
  match entryFor w.process.entries fd with
  | none => w.answer (.error .badf)
  | some e =>
    let s := if e.handle = 0 then w.services else v.onClose e.volume e.handle w.services
    some (.ok 0, [], w.put fd none s)

def exec (fuel : ℕ) (w : World σ) : Call → Option (Outcome σ)
  | .openat path access creat excl trunc append => open_ v w path (access.flags creat excl trunc append)
  | .read fd count => read v fuel w fd count
  | .write fd bytes => write v fuel w fd bytes
  | .pread fd count offset => pread v fuel w fd count offset
  | .pwrite fd bytes offset => pwrite v fuel w fd bytes offset
  | .lseek fd offset whence => lseek v w fd offset whence
  | .sendfile out in_ offset count => sendfile v fuel w out in_ offset count
  | .close fd => close v w fd

variable {v}

theorem pread_eq (fuel : ℕ) (w : World σ) (fd : ℤ) (count : ℕ) (offset : ℤ) : pread v fuel w fd count offset =
    if offset < 0 ∧ (entryFor w.process.entries fd).isSome = true then w.answer (.error .inval)
    else readAt v fuel w fd count (some offset.toNat) := by
  cases he : entryFor w.process.entries fd <;> simp [pread, readAt, he]

theorem pwrite_eq (fuel : ℕ) (w : World σ) (fd : ℤ) (bytes : Bytes) (offset : ℤ) : pwrite v fuel w fd bytes offset =
    if offset < 0 ∧ (entryFor w.process.entries fd).isSome = true then w.answer (.error .inval)
    else writeAt v fuel w fd bytes (some offset.toNat) := by
  cases he : entryFor w.process.entries fd <;> simp [pwrite, writeAt, he]

end

end Aegir.Posix
