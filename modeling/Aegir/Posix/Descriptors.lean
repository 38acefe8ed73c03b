/-
  What the calls on regular files are for: descriptors as files with a cursor.
-/
import Aegir.Posix.Transfer

namespace Aegir.Posix

/-! ## Files -/

/-- Bytes written over a file from an offset on; a gap before them is zeros. -/
def splice (old : Bytes) (offset : ℕ) (bytes : Bytes) : Bytes :=
  if bytes = [] then old
  else old.take offset ++ List.replicate (offset - old.length) 0 ++ bytes ++ old.drop (offset + bytes.length)

@[simp] theorem splice_nil (old : Bytes) (offset : ℕ) : splice old offset [] = old := rfl

theorem splice_splice (old : Bytes) (offset : ℕ) (a b : Bytes) :
    splice (splice old offset a) (offset + a.length) b = splice old offset (a ++ b) := by
  by_cases ha : a = []
  · subst ha
    rfl
  by_cases hb : b = []
  · subst hb
    rw [splice_nil, List.append_nil]
  have hhead : (old.take offset ++ List.replicate (offset - old.length) 0 ++ a).length = offset + a.length := by
    simp only [List.length_append, List.length_take, List.length_replicate]
    omega
  have hne : a ++ b ≠ [] := by simp [ha]
  have hwhole : splice old offset a = old.take offset ++ List.replicate (offset - old.length) 0 ++ a ++
      old.drop (offset + a.length) := if_neg ha
  have hgap : offset + a.length - (splice old offset a).length = 0 := by
    rw [hwhole, List.length_append, hhead]
    omega
  have htake : (splice old offset a).take (offset + a.length) =
      old.take offset ++ List.replicate (offset - old.length) 0 ++ a := by
    rw [hwhole, List.take_left' hhead]
  have hdrop : (splice old offset a).drop (offset + a.length + b.length) = old.drop (offset + (a.length + b.length)) := by
    rw [← List.drop_drop, hwhole, List.drop_left' hhead, List.drop_drop, Nat.add_assoc]
  rw [splice, if_neg hb, htake, hgap, hdrop, splice, if_neg hne, List.length_append, List.replicate_zero, List.append_nil]
  simp only [List.append_assoc]

/-- Which file a handle is on or a path names, and what the files hold. -/
structure Holdings (σ F : Type) where
  onHandle : (volume handle : ℕ) → σ → Option F
  atPath : (volume : ℕ) → Text → σ → Option F
  content : σ → F → Bytes

/-- What was named stays named. -/
structure Holdings.Kept {σ F : Type} (h : Holdings σ F) (s s' : σ) : Prop where
  handle : ∀ {volume handle f}, h.onHandle volume handle s = some f → h.onHandle volume handle s' = some f
  path : ∀ {volume path f}, h.atPath volume path s = some f → h.atPath volume path s' = some f

/-- A read of a file: some of the bytes that are there, and none only at the end. -/
structure Holdings.Reads {σ F : Type} (h : Holdings σ F) (named : σ → Option F) (offset wanted : ℕ) (s : σ)
    (answer : Option (Bytes × Bool) × σ) : Prop where
  kept : h.Kept s answer.2
  content : h.content answer.2 = h.content s
  bytes : ∀ {f bytes eof}, named s = some f → answer.1 = some (bytes, eof) →
    bytes <+: (h.content s f).drop offset ∧ (0 < wanted → bytes = [] → eof = true)

/-- A write of a file: some of the bytes are taken, or none on a refusal. -/
structure Holdings.Writes {σ F : Type} [DecidableEq F] (h : Holdings σ F) (named : σ → Option F) (offset : ℕ)
    (bytes : Bytes) (s : σ) (answer : Option ℕ × σ) : Prop where
  kept : h.Kept s answer.2
  bound : ∀ {taken}, answer.1 = some taken → taken ≤ bytes.length
  content : ∀ {f}, named s = some f → h.content answer.2 =
    Function.update (h.content s) f (splice (h.content s f) offset (bytes.take (answer.1.getD 0)))

/-- Ports of volumes that hold regular files. -/
structure FilePorts (σ F : Type) [DecidableEq F] extends Ports σ, Holdings σ F where
  size : ∀ {volume path s f info}, atPath volume path s = some f → stat volume path s = some info →
    info.size = (content s f).length
  reads : ∀ volume path offset wanted s,
    toHoldings.Reads (atPath volume path) offset wanted s (onRead volume path offset wanted s)
  readsHandle : ∀ volume handle offset wanted s,
    toHoldings.Reads (onHandle volume handle) offset wanted s (onReadHandle volume handle offset wanted s)
  readsFrame : ∀ volume handle offset wanted bits s,
    toHoldings.Reads (onHandle volume handle) offset wanted s (onReadFrame volume handle offset wanted bits s)
  writes : ∀ volume handle offset bytes s,
    toHoldings.Writes (onHandle volume handle) offset bytes s (onWrite volume handle offset bytes s)
  writesFrame : ∀ volume handle offset bytes s,
    toHoldings.Writes (onHandle volume handle) offset bytes s (onWriteFrame volume handle offset bytes s)
  /-- A write open makes the file it does not find, and answers a handle of its own. -/
  opensWrite : ∀ volume path truncate s, toHoldings.Kept s (openWrite volume path truncate s).2 ∧
    if (openWrite volume path truncate s).1 = 0 then content (openWrite volume path truncate s).2 = content s
    else ∃ f bytes, onHandle volume (openWrite volume path truncate s).1 s = none ∧
      onHandle volume (openWrite volume path truncate s).1 (openWrite volume path truncate s).2 = some f ∧
      atPath volume path (openWrite volume path truncate s).2 = some f ∧
      content (openWrite volume path truncate s).2 = Function.update (content s) f bytes ∧
      (truncate = true → bytes = []) ∧
      (truncate = false → bytes = content s f ∨ stat volume path s = none ∧ bytes = [])
  /-- A read open answers a handle of its own or none, or a member's. -/
  opensRead : ∀ volume path s, toHoldings.Kept s (openRead volume path s).2 ∧
    content (openRead volume path s).2 = content s ∧
    ∀ {handle member}, (openRead volume path s).1 = some (handle, member) →
      ∃ f, atPath volume path (openRead volume path s).2 = some f ∧
        (handle ≠ 0 → atPath (member.elim volume (·.1)) (member.elim path (·.2)) (openRead volume path s).2 = some f ∧
          onHandle (member.elim volume (·.1)) handle s = none ∧
          onHandle (member.elim volume (·.1)) handle (openRead volume path s).2 = some f)
  closes : ∀ volume handle s, content (onClose volume handle s) = content s ∧
    (∀ {volume' handle' f}, (volume', handle') ≠ (volume, handle) → onHandle volume' handle' s = some f →
      onHandle volume' handle' (onClose volume handle s) = some f) ∧
    ∀ {volume' path f}, atPath volume' path s = some f → atPath volume' path (onClose volume handle s) = some f

/-! ## Descriptors -/

/-- A file with a cursor, and the modes it was opened with. -/
structure Desc (F : Type) where
  file : F
  cursor : ℕ
  readable : Bool
  writable : Bool
  append : Bool

structure View (F : Type) where
  descs : ℤ → Option (Desc F)
  content : F → Bytes

namespace View

variable {F : Type} [DecidableEq F] (a : View F)

def set (fd : ℤ) (d : Option (Desc F)) : View F := { a with descs := Function.update a.descs fd d }

def put (f : F) (bytes : Bytes) : View F := { a with content := Function.update a.content f bytes }

def writesAt (d : Desc F) : ℕ := if d.append then (a.content d.file).length else d.cursor

def span (f : F) (position n : ℕ) : Bytes := ((a.content f).drop position).take n

def Reads (fd : ℤ) (count : ℕ) (at_ : Option ℕ) (r : Reply) (a' : View F) : Prop :=
  match a.descs fd with
  | none => r = .error .badf ∧ a' = a
  | some d =>
    if d.readable then
      ∃ n ≤ count, (a.span d.file (at_.getD d.cursor) n).length = n ∧
        r = ⟨.ok n, a.span d.file (at_.getD d.cursor) n, none⟩ ∧
        a' = if at_ = none then a.set fd (some { d with cursor := d.cursor + n }) else a
    else r = .error .badf ∧ a' = a

/-- A write at the cursor or the end, with the cursor after it, or at a position of its own. -/
def Writes (fd : ℤ) (bytes : Bytes) (at_ : Option ℕ) (r : Reply) (a' : View F) : Prop :=
  match a.descs fd with
  | none => r = .error .badf ∧ a' = a
  | some d =>
    if d.writable then
      ∃ n ≤ bytes.length, r = .ok n ∧
        a' = (if at_ = none ∧ n ≠ 0 then a.set fd (some { d with cursor := a.writesAt d + n }) else a).put d.file
          (splice (a.content d.file) (at_.getD (a.writesAt d)) (bytes.take n))
    else r = .error .badf ∧ a' = a

/-- A copy from a file to another. -/
def Copies (out in_ : ℤ) (offset : Option ℕ) (count : ℕ) (r : Reply) (a' : View F) : Prop :=
  match a.descs in_, a.descs out with
  | some from_, some to_ =>
    if from_.readable ∧ to_.writable then
      ∃ n ≤ count, (a.span from_.file (offset.getD from_.cursor) n).length = n ∧
        r = ⟨.ok n, [], offset.map (· + n)⟩ ∧
        a' = ((if n ≠ 0 then a.set out (some { to_ with cursor := a.writesAt to_ + n }) else a).put to_.file
          (splice (a.content to_.file) (a.writesAt to_) (a.span from_.file (offset.getD from_.cursor) n))).set in_
            (some (if offset = none then { from_ with cursor := from_.cursor + n } else from_))
    else r = .error .badf ∧ a' = a
  | _, _ => r = .error .badf ∧ a' = a

/-- An open refused, or a file at its start under the first free descriptor, with the modes asked
    for. -/
def Opens (access : Access) (creat trunc append : Bool) (r : Reply) (a' : View F) : Prop :=
  (∃ e, r = .error e ∧ a' = a) ∨
  ∃ (fd : ℕ) (f : F) (bytes : Bytes), r = .ok fd ∧ a.descs fd = none ∧ (trunc = true → bytes = []) ∧
    (trunc = false → bytes = a.content f ∨ creat = true ∧ bytes = []) ∧
    a' = (a.put f bytes).set fd (some ⟨f, 0, access ≠ .wronly, access ≠ .rdonly, append⟩)

/-- A seek: the cursor where it is sent, unless it is sent before the start. -/
def Seeks (fd offset : ℤ) (whence : Whence) (r : Reply) (a' : View F) : Prop :=
  (∃ e, r = .error e ∧ a' = a) ∨
  ∃ d base position, a.descs fd = some d ∧ r = .ok position ∧ a' = a.set fd (some { d with cursor := position }) ∧
    (position : ℤ) = base + offset ∧
    match whence with
    | .set => base = 0
    | .cur => base = d.cursor
    | .end_ => base = (a.content d.file).length
    | .other => False

/-- What a call does to files with cursors. -/
def Meets (call : Call) (r : Reply) (a' : View F) : Prop :=
  match call with
  | .openat _ access creat _ trunc append => a.Opens access creat trunc append r a'
  | .read fd count => a.Reads fd count none r a'
  | .write fd bytes => a.Writes fd bytes none r a'
  | .pread fd count offset =>
    if offset < 0 ∧ (a.descs fd).isSome then r = .error .inval ∧ a' = a else a.Reads fd count (some offset.toNat) r a'
  | .pwrite fd bytes offset =>
    if offset < 0 ∧ (a.descs fd).isSome then r = .error .inval ∧ a' = a else a.Writes fd bytes (some offset.toNat) r a'
  | .lseek fd offset whence => a.Seeks fd offset whence r a'
  | .sendfile out in_ offset count => a.Copies out in_ offset count r a'
  | .close fd => match a.descs fd with
    | none => r = .error .badf ∧ a' = a
    | some _ => r = .ok 0 ∧ a' = a.set fd none

end View

/-- What a volume took is what is counted: all it was given inline or nothing, and no more than
    was left to copy. -/
def Round.Exact : Round → Prop
  | .inline given taken => taken = given ∨ taken = 0
  | .framed left taken => taken ≤ left

/-! ## The table as a view -/

section
variable {σ F : Type} [DecidableEq F] (v : FilePorts σ F)

/-- An entry stands for a file with a cursor. -/
structure Held (s : σ) (e : Entry) (d : Desc F) : Prop where
  directory : e.directory = false
  readable : e.readable = d.readable
  writable : e.writable = d.writable
  offset : e.offset = d.cursor
  handle : e.handle ≠ 0 → v.onHandle e.volume e.handle s = some d.file
  path : v.atPath e.volume e.path s = some d.file
  writing : d.writable = true → e.handle ≠ 0

structure Rep (w : World σ) (a : View F) : Prop where
  content : a.content = v.content w.services
  free : ∀ fd : ℤ, entryFor w.process.entries fd = none → a.descs fd = none
  used : ∀ {fd : ℤ} {e}, entryFor w.process.entries fd = some e → ∃ d, a.descs fd = some d ∧ Held v w.services e d
  distinct : ∀ {fd fd' : ℤ} {e e'}, entryFor w.process.entries fd = some e → entryFor w.process.entries fd' = some e' →
    e.handle ≠ 0 → e'.volume = e.volume → e'.handle = e.handle → fd' = fd

end

end Aegir.Posix
