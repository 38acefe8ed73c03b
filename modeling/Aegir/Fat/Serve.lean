/-
  What the FAT service does with an open file (aegir-fs-fat, `main.cc`).

  A write and a read name a row of the handle table, which keeps where the file's slot in
  its directory is, its size and its first cluster; a truncation names a path, of which
  only what the walk found is kept: the file's slot, and the window as the walk left it.
  A message is its words, and its data the bytes of the words that follow its head.
-/
import Aegir.Fat.Volume

namespace Aegir.Fat

open Aegir.Lib Aegir.Lib.Buf Aegir.Lib.Fallible

/-! ## Directory slots -/

def kDirentBytes : ℕ := 32
def kDirentAttr : ℕ := 11
def kDirentCreateTime : ℕ := 14
def kDirentCreateDate : ℕ := 16
def kDirentAccessDate : ℕ := 18
def kDirentClusterHigh : ℕ := 20
def kDirentWriteTime : ℕ := 22
def kDirentWriteDate : ℕ := 24
def kDirentClusterLow : ℕ := 26
def kDirentSize : ℕ := 28

/-- `Dirent`, but for its name and time, which no call on an open file reads. -/
structure Dirent where
  firstCluster : ℕ
  bytes : ℕ
  directory : Bool
deriving DecidableEq

/-- `short_dirent` of the slot at a position. -/
def shortDirent (raw : Buf) (at_ : ℕ) : Dirent where
  firstCluster := le 2 raw (at_ + kDirentClusterHigh) * 2 ^ 16 + le 2 raw (at_ + kDirentClusterLow)
  bytes := le 4 raw (at_ + kDirentSize)
  directory := (raw (at_ + kDirentAttr)).toNat / 16 % 2 == 1

/-- `dirent_update` of the slot at a position. -/
def direntUpdate (at_ firstCluster bytes : ℕ) (slot : Buf) : Buf :=
  put 4 (put 2 (put 2 slot (at_ + kDirentClusterHigh) (firstCluster / 2 ^ 16))
    (at_ + kDirentClusterLow) firstCluster) (at_ + kDirentSize) bytes

def direntSetTime (at_ date time : ℕ) (slot : Buf) : Buf :=
  put 2 (put 2 (put 2 (put 2 (put 2 slot (at_ + kDirentCreateTime) time) (at_ + kDirentCreateDate) date)
    (at_ + kDirentAccessDate) date) (at_ + kDirentWriteTime) time) (at_ + kDirentWriteDate) date

/-- `civil_from_days`: year, month and day, of a day from 1970 on. -/
def civilFromDays (days : ℕ) : ℕ × ℕ × ℕ :=
  let z := days + 719468
  let era := z / 146097
  let doe := z - era * 146097
  let yoe := (doe - doe / 1460 + doe / 36524 - doe / 146096) / 365
  let doy := doe - (365 * yoe + yoe / 4 - yoe / 100)
  let mp := (5 * doy + 2) / 153
  let month := if mp < 10 then mp + 3 else mp - 9
  (yoe + era * 400 + (if month ≤ 2 then 1 else 0), month, doy - (153 * mp + 2) / 5 + 1)

/-- `unix_to_dos`: date and time. -/
def unixToDos (seconds : ℕ) : ℕ × ℕ :=
  if seconds = 0 then (0, 0)
  else
    let (year, month, day) := civilFromDays (seconds / 86400)
    let rem := seconds % 86400
    if year < 1980 then (0, 0)
    else (((year - 1980) * 2 ^ 9 ||| month * 2 ^ 5 ||| day) % 2 ^ 16,
      (rem / 3600 * 2 ^ 11 ||| rem % 3600 / 60 * 2 ^ 5 ||| rem % 60 / 2) % 2 ^ 16)

namespace Mount
variable (m : Mount)

/-! ## Writing -/

def modifyHandle (f : Handle → Handle) : M Unit := .modify fun w => { w with handle := f w.handle }

/-- The loop of `chain_seek`: `n` clusters on, which are linked on where the chain ends. -/
def seekFrom : ℕ → ℕ → M ℕ
  | 0, c => pure c
  | n + 1, c => do
    m.fatSector c
    let w ← get
    if m.chainEoc ≤ m.fatNext w c then
      let next ← m.allocCluster
      m.fatStore c next
      seekFrom n next
    else seekFrom n (m.fatNext w c)

/-- `chain_seek`; it refuses where the source answers zero. -/
def chainSeek : M ℕ := do
  let w ← get
  let target := w.handle.cursor / m.clusterBytes % 2 ^ 32
  if w.handle.firstCluster < 2 then
    let c ← m.allocCluster
    modifyHandle fun h => { h with firstCluster := c }
    m.seekFrom target c
  else m.seekFrom target w.handle.firstCluster

def advance (bytes : ℕ) (w : World) : World :=
  { w with handle := { w.handle with cursor := (w.handle.cursor + bytes) % 2 ^ 64 } }

/-- Bytes of a sector read, changed and written back. -/
def patchSector (lba at_ : ℕ) (data : Buf) (bytes : ℕ) : M Unit := do
  m.read lba 1
  edit fun window => blit window at_ data bytes
  m.writeBack lba 1

def writeSectors (lba : ℕ) (data : Buf) (sectors : ℕ) : M Unit := do
  edit fun window => blit window 0 data (sectors * kSectorBytes)
  m.writeBack lba sectors

/-- What is written to the cluster at the cursor: whether to go on, and the bytes written. -/
def writeSpan (cluster : ℕ) (data : Buf) (left : ℕ) (w : World) : Bool × ℕ × World :=
  let inCluster := w.handle.cursor % m.clusterBytes
  let at_ := inCluster % kSectorBytes
  let span := min left (m.clusterBytes - inCluster)
  let lba := m.clusterSector cluster + inCluster / kSectorBytes
  if at_ ≠ 0 then
    -- a partial head sector
    let head := min span (kSectorBytes - at_)
    match m.patchSector lba at_ data head w with
    | (none, w) => (false, 0, w)
    | (some _, w) => (true, head, advance head w)
  else
    let sectors := span / kSectorBytes
    let tail := span % kSectorBytes
    match when (sectors ≠ 0) (m.writeSectors lba data sectors) w with
    | (none, w) => (false, 0, w)
    | (some _, w) =>
      let w := advance (sectors * kSectorBytes) w
      if tail = 0 then (true, sectors * kSectorBytes, w)
      else
        match m.patchSector (lba + sectors) 0 (slice data (sectors * kSectorBytes)) tail w with
        | (none, w) => (false, sectors * kSectorBytes, w)
        | (some _, w) => (true, sectors * kSectorBytes + tail, advance tail w)

/-- The loop of `write_bytes`: how many of the bytes have been written. -/
def writeFrom (data : Buf) (bytes : ℕ) : ℕ → ℕ → World → ℕ × World
  | 0, written, w => (written, w)
  | n + 1, written, w =>
    if bytes ≤ written then (written, w)
    else
      match m.chainSeek w with
      | (none, w) => (written, w)
      | (some cluster, w) =>
        if cluster = 0 then (written, w)
        else
          match m.writeSpan cluster (slice data written) (bytes - written) w with
          | (false, more, w) => (written + more, w)
          | (true, more, w) => writeFrom data bytes n (written + more) w

/-- The file's slot learns its size and its first cluster, and the time. -/
def updateDirent : M Unit := do
  let w ← get
  m.read w.handle.direntSector 1
  edit (direntUpdate (w.handle.direntIndex * kDirentBytes) w.handle.firstCluster w.handle.size)
  when (m.seconds ≠ 0) (edit (direntSetTime (w.handle.direntIndex * kDirentBytes)
    (unixToDos m.seconds).1 (unixToDos m.seconds).2))
  m.writeBack w.handle.direntSector 1

/-- `write_bytes`; each turn of its loop writes a byte at least, or is the last. -/
def writeBytes (data : Buf) (bytes : ℕ) (w : World) : ℕ × World :=
  let (written, w) := m.writeFrom data bytes bytes 0 w
  let w := { w with handle := { w.handle with size := max w.handle.size w.handle.cursor } }
  (written, if 0 < written then (m.updateDirent w).2 else w)

def dataOf (words : List ℕ) : Buf := fun i => UInt8.ofNat (words.getD (3 + i / 8) 0 / 256 ^ (i % 8))

def kWriteMax : ℕ := 117 * 8
def kReadMax : ℕ := 117 * 8

/-- `handle_lookup`: the row of a serial that is the badge's. -/
def handleLookup (rows : List Handle) (serial badge : ℕ) : Option ℕ :=
  if serial = 0 then none
  else
    (rows.findIdx? fun r => decide (r.serial = serial)).filter fun i =>
      (rows[i]?).any fun r => decide (r.badge = badge)

end Mount

/-- The service: its volume's state and the handle table. -/
structure Service where
  world : World
  rows : List Handle

namespace Service
variable (m : Mount)

def onRow {α : Type} (s : Service) (i : ℕ) (f : World → α × World) : Option (α × Service) :=
  (s.rows[i]?).map fun r =>
    let (a, w) := f { s.world with handle := r }
    (a, ⟨w, s.rows.set i w.handle⟩)

/-- `answer_write`: how many bytes were written. -/
def answerWrite (s : Service) (words : List ℕ) (badge : ℕ) : ℕ × Service :=
  if words.length < 3 then (0, s)
  else
    let bytes := words.getD 2 0
    match Mount.handleLookup s.rows (words.getD 0 0) badge with
    | none => (0, s)
    | some i =>
      if (s.rows[i]?).all (fun r => !r.file) ∨ Mount.kWriteMax < bytes ∨ words.length < 3 + (bytes + 7) / 8 then (0, s)
      else
        (s.onRow i fun w => m.writeBytes (Mount.dataOf words) bytes
          { w with handle := { w.handle with cursor := words.getD 1 0 } }).getD (0, s)

end Service

namespace Mount
variable (m : Mount)

/-! ## Truncating -/

/-- The loop of `chain_truncate`, which walks through the window. -/
def truncateFrom : ℕ → ℕ → M ℕ
  | 0, c => pure c
  | n + 1, c => do
    let _ ← m.fatLoad c
    let w ← get
    if m.chainEoc ≤ m.windowNext w c then
      let next ← m.allocCluster
      m.fatStore c next
      truncateFrom n next
    else truncateFrom n (m.windowNext w c)

/-- `chain_truncate`: the first cluster of a chain of the size. -/
def chainTruncate (first size : ℕ) : M ℕ :=
  if size = 0 then do
    m.chainFree first
    pure 0
  else do
    let target := (size - 1) / m.clusterBytes % 2 ^ 32
    let first ← if first < 2 then m.allocCluster else pure first
    let c ← m.truncateFrom target first
    let _ ← m.fatLoad c
    let w ← get
    when (m.windowNext w c < m.chainEoc) (m.chainFree (m.windowNext w c))
    m.fatStore c m.chainEocMark
    pure first

end Mount

/-- What the walk of a path found, and what it left of the window and the requests. -/
structure Walked where
  /-- The sector and the index of the file's slot. -/
  sector : ℕ
  index : ℕ
  window : Buf
  asked : ℕ

namespace Service
variable (m : Mount)

def handlesResize (rows : List Handle) (sector index first size : ℕ) : List Handle :=
  rows.map fun r =>
    if r.serial ≠ 0 ∧ r.direntSector = sector ∧ r.direntIndex = index then
      { r with firstCluster := first, size := size, cursor := min r.cursor size }
    else r

/-- `answer_truncate` of a file that the walk found. -/
def answerTruncate (s : Service) (found : Walked) (size : ℕ) : Bool × Service :=
  let dirent := shortDirent s.world.disk (found.sector * kSectorBytes + found.index * kDirentBytes)
  if m.writable = false ∨ 0xffffffff < size ∨ dirent.directory = true then (false, s)
  else
    let w := { s.world with window := found.window, asked := found.asked }
    let truncate : M ℕ := do
      let first ← m.chainTruncate dirent.firstCluster size
      m.read found.sector 1
      Mount.edit (direntUpdate (found.index * kDirentBytes) first size)
      m.writeBack found.sector 1
      pure first
    match truncate w with
    | (none, w) => (false, ⟨w, s.rows⟩)
    | (some first, w) => (true, ⟨w, handlesResize s.rows found.sector found.index first size⟩)

end Service

namespace Mount
variable (m : Mount)

/-! ## Reading -/

/-- The bytes of a cluster that are wanted go behind those filled so far; the cluster's first byte
    is the `position`th. -/
def readCluster (offset got cluster position : ℕ) (dest : List UInt8) : M (List UInt8) :=
  if offset < position + m.clusterBytes then do
    let at_ := offset - position
    m.read (m.clusterSector cluster) m.sectorsPerCluster
    let w ← get
    pure (dest ++ bytes w.window at_ (min (got - dest.length) (m.clusterBytes - at_)))
  else pure dest

/-- The loop of `read_into`: the bytes filled. -/
def readFrom (offset got : ℕ) : ℕ → ℕ → ℕ → List UInt8 → World → List UInt8 × World
  | 0, _, _, dest, w => (dest, w)
  | n + 1, cluster, position, dest, w =>
    if got ≤ dest.length ∨ cluster < 2 ∨ m.chainEoc ≤ cluster then (dest, w)
    else
      match m.readCluster offset got cluster position dest w with
      | (none, w) => (dest, w)
      | (some dest, w) =>
        match m.fatSector cluster w with
        | (none, w) => (dest, w)
        | (some _, w) =>
          readFrom offset got n (m.fatNext w cluster) (position + m.clusterBytes) dest w

/-- `read_into`; no more clusters are passed than end before the last byte that is wanted. -/
def readInto (dirent : Dirent) (offset wanted : ℕ) (w : World) : List UInt8 × World :=
  let got := min wanted (dirent.bytes - offset)
  m.readFrom offset got ((offset + got) / m.clusterBytes + 1) dirent.firstCluster 0 [] w

/-- `serve_read`: the bytes of a read, and whether they are the last. -/
def serveRead (dirent : Dirent) (offset wanted : ℕ) (w : World) : (List UInt8 × Bool) × World :=
  let (filled, w) := m.readInto dirent offset (min wanted kReadMax) w
  ((filled, decide (dirent.bytes ≤ offset + filled.length)), w)

end Mount

namespace Service
variable (m : Mount)

/-- `answer_read_handle`; nothing where the read is refused. -/
def answerReadHandle (s : Service) (words : List ℕ) (badge : ℕ) : Option (List UInt8 × Bool) × Service :=
  if words.length < 3 then (none, s)
  else
    match Mount.handleLookup s.rows (words.getD 0 0) badge with
    | none => (none, s)
    | some i =>
      (s.onRow i fun w =>
        match m.read w.handle.direntSector 1 w with
        | (none, w) => (none, w)
        | (some _, w) =>
          let dirent := shortDirent w.window (w.handle.direntIndex * kDirentBytes)
          if dirent.directory = true ∨ dirent.bytes < words.getD 1 0 then (none, w)
          else
            let (answer, w) := m.serveRead dirent (words.getD 1 0) (words.getD 2 0) w
            (some answer, w)).getD (none, s)

end Service

end Aegir.Fat
