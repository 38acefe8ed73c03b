/-
  The service of one volume (`apps/freestanding/aegir-fs-bfs`, `main.cc`): it walks
  paths, keeps a table of handles, turns each call of the volume port into the
  writer's operations, and tells the live queries about changes.

  A call is what is left of a message once its words are unpacked; a message that
  does not unpack is `malformed`.  The methods that only answer are `look`: they
  change nothing.  What comes from outside, a call carries with it: the clock's
  seconds, the bytes in a caller's frame, and whether the kernel could map it or
  make a notification.

  A query's text is parsed and compared by the library; the service takes both from
  a `Query`, which decides by the values an inode has under attribute names.
-/
import Aegir.Bfs.Writer

namespace Aegir.Fs

open Aegir.Lib Aegir.Lib.Buf Aegir.Lib.Fallible Aegir.Bfs

/-! ## Permissions -/

def kPermRead : ℕ := 4
def kPermWrite : ℕ := 2
def kPermExec : ℕ := 1

def kUserBadge : ℕ := 2 ^ 62
def kUserIndexMask : ℕ := 0x3fffffffff

def isUserBadge (badge : ℕ) : Bool := badge &&& kUserBadge != 0

def userIndex (badge : ℕ) : ℕ := (badge >>> 24) &&& kUserIndexMask

def ownerIndex (badge : ℕ) : ℕ := if isUserBadge badge then userIndex badge % 2 ^ 32 else 0

def permits (badge : ℕ) (inode : Inode) (bits : ℕ) : Bool :=
  if isUserBadge badge then
    let perms := inode.mode &&& 0o7
    let group := (inode.mode >>> 3) &&& 0o7
    let owner := (inode.mode >>> 6) &&& 0o7
    let index := ownerIndex badge
    let available := if inode.uid = index ∨ inode.gid = index then owner ||| group else perms
    available &&& bits == bits
  else true

def ownerOrSystem (badge : ℕ) (inode : Inode) : Bool :=
  if isUserBadge badge then inode.uid == ownerIndex badge || inode.gid == ownerIndex badge else true

/-- `is_queryable`: an inode that a name leads to. -/
def isQueryable (inode : Inode) : Bool := isRegularNode inode.mode && inode.name.length != 0

def inodeTime (now : ℕ) : ℕ := now * 2 ^ 16 % 2 ^ 64

/-! ## Walking -/

section
variable {σ : Type} (B : Lower σ) (s : σ) (badge : ℕ)

def rootBlock : ℕ := B.toBlock s (B.root s)

def kSlash : UInt8 := 47

/-- The block one component leads to: the parent's, for an empty one. -/
def follow (inode : Inode) (component : Key) : Option ℕ :=
  if component = [] then some (B.toBlock s inode.parent) else B.dirFind s inode component

/-- The loop of `walk`, from the inode in `block` on. -/
def walkFrom : List Key → ℕ → Inode → Option (Inode × ℕ)
  | [], block, inode => some (inode, block)
  | component :: rest, _, inode =>
    if permits badge inode kPermExec = false then none else
    (follow B s inode component).bind fun block =>
      (B.readInode s block).bind fun inode => walkFrom rest block inode

/-- The components of a path; one slash at its end is nothing. -/
def components (path : List UInt8) : List Key :=
  let parts := path.splitOn kSlash
  if parts.getLast? = some [] then parts.dropLast else parts

/-- `walk`: the inode a path names, and its block. -/
def walk (path : List UInt8) : Option (Inode × ℕ) :=
  (B.readInode s (rootBlock B s)).bind fun inode =>
    walkFrom B s badge (components path) (rootBlock B s) inode

/-- The loop of `walk_parent`, up to the last component. -/
def walkDirs : List Key → ℕ → Option ℕ
  | [], block => some block
  | component :: rest, block =>
    (B.readInode s block).bind fun dir =>
      if permits badge dir kPermExec = false then none
      else (follow B s dir component).bind fun block => walkDirs rest block

/-- `walk_parent`: the block that holds a path's last component, and the component. -/
def walkParent (path : List UInt8) : Option (ℕ × Key) :=
  let parts := path.splitOn kSlash
  let name := parts.getLast?.getD []
  if name = [] then none
  else (walkDirs B s badge parts.dropLast (rootBlock B s)).map fun block => (block, name)

/-! ## What a query compares -/

def kTypeString : ℕ := 0x43535452
def kTypeInt64 : ℕ := 0x4c4c4e47

def kMaxQueryValue : ℕ := 64

/-- The seconds of a time: its 64 bits shifted as a signed number. -/
def seconds (time : ℕ) : ℕ := time / 2 ^ 16 + if time < 2 ^ 63 then 0 else 2 ^ 64 - 2 ^ 48

/-- The value of an inode under an attribute's name, and its type (`match_equation`). -/
def queryValue (inode : Inode) (name : Key) : Option (ℕ × List UInt8) :=
  if name = kNameIndex then some (kTypeString, inode.name.take kMaxQueryValue)
  else if name = kSizeIndex then some (kTypeInt64, numberKey inode.size)
  else if name = kLastModifiedIndex then some (kTypeInt64, numberKey (seconds inode.mtime))
  else (B.attrStat s inode name).bind fun (type, size) =>
    (B.attrRead s inode name 0 (min kMaxQueryValue size)).map fun data => (type, data)

end

/-- A query that was parsed: how it decides by the values, and the index and key
    that answer it alone. -/
structure Query where
  eval : (Key → Option (ℕ × List UInt8)) → Bool
  term : Option (Key × Key)

/-! ## Handles -/

inductive HandleKind where
  | file
  | query
  | live
  | read
deriving DecidableEq

/-- One row of the table; the row is free while its serial is zero. -/
structure Handle where
  serial : ℕ
  badge : ℕ
  inodeBlock : ℕ
  cursor : ℕ
  kind : HandleKind
  query : List UInt8
  indexBlock : ℕ
  indexPosition : ℕ
  liveNotification : ℕ
  liveGeneration : ℕ

/-- The service: its volume and writer, its table, and what it told the live queries
    (the notifications it signalled, the newest first). -/
structure Service (σ : Type) where
  writer : Writer σ
  writable : Bool
  rows : List Handle
  handleSerial : ℕ
  changeGeneration : ℕ
  liveSlotBase : ℕ
  liveMintSlot : ℕ
  signals : List ℕ

abbrev S (σ : Type) := Fallible (Service σ)

namespace Service

variable {σ α : Type} (B : Lower σ)

def store (s : Service σ) : σ := s.writer.store

def write (m : Act σ α) : S σ α := fun s => ((m s.writer).1, { s with writer := (m s.writer).2 })

def handleLookup (s : Service σ) (serial badge : ℕ) : Option Handle :=
  if serial = 0 then none
  else (s.rows.find? (·.serial == serial)).bind fun row => if row.badge = badge then some row else none

def setRow (serial : ℕ) (f : Handle → Handle) (s : Service σ) : Service σ :=
  { s with rows := s.rows.map fun row => if row.serial = serial then f row else row }

/-- `handle_alloc`, and what its caller puts into the row; answers its serial. -/
def handleAlloc (badge : ℕ) (f : Handle → Handle) : S σ ℕ := fun s =>
  let i := s.rows.findIdx (·.serial == 0)
  let serial := s.handleSerial + 1
  if i < s.rows.length then (some serial, { s with
    handleSerial := serial
    rows := s.rows.modify i fun row => { f row with serial, badge } })
  else (none, s)

/-- `handle_release_cap` and the row's end. -/
def release (row : Handle) : Handle := { row with serial := 0, liveNotification := 0 }

def noteChange (s : Service σ) : Service σ :=
  { s with
    changeGeneration := s.changeGeneration + 1
    signals := ((s.rows.filter fun row =>
      row.serial != 0 && row.kind == .live && row.liveNotification != 0).map
        (·.liveNotification)) ++ s.signals }

/-! ## Files -/

def kOpenCreate : ℕ := 1
def kOpenTruncate : ℕ := 2
def kOpenRead : ℕ := 4

def kWriteMax : ℕ := 117 * 8
def kFrameBytes : ℕ := 4096

def fileRow (kind : HandleKind) (block : ℕ) (row : Handle) : Handle :=
  { row with inodeBlock := block, cursor := 0, kind, query := [], liveNotification := 0 }

def answerOpen (badge : ℕ) (path : List UInt8) (flags now : ℕ) : S σ ℕ := do
  let s ← .get
  if flags &&& kOpenRead ≠ 0 then do
    let (inode, block) ← .ofOption (walk B s.store badge path)
    .check (!modeIsDirectory inode.mode && permits badge inode kPermRead)
    handleAlloc badge (fileRow .read block)
  else do
  .check s.writable
  let (parentBlock, name) ← .ofOption (walkParent B s.store badge path)
  let parent ← .ofOption (B.readInode s.store parentBlock)
  match B.dirFind s.store parent name with
  | some block => do
    let existing ← .ofOption (B.readInode s.store block)
    .check (!modeIsDirectory existing.mode && permits badge existing kPermWrite)
    .check (flags &&& kOpenCreate != 0)
    .when (flags &&& kOpenTruncate ≠ 0) (write (B.truncate block 0 (inodeTime now)))
    handleAlloc badge (fileRow .file block)
  | none => do
    .check (flags &&& kOpenCreate != 0 && permits badge parent (kPermWrite ||| kPermExec))
    let owner := ownerIndex badge
    let block ← write (B.create parentBlock name (kModeRegular ||| 0o644) owner owner (inodeTime now))
    handleAlloc badge (fileRow .file block)

/-- The file a handle writes to, when the caller may. -/
def writeTarget (s : Service σ) (serial badge : ℕ) : Option ℕ :=
  (s.handleLookup serial badge).bind fun row =>
    if row.kind ≠ .file then none
    else (B.readInode s.store row.inodeBlock).bind fun inode =>
      if permits badge inode kPermWrite then some row.inodeBlock else none

def answerWrite (badge serial offset : ℕ) (data : List UInt8) (now : ℕ) : S σ ℕ := do
  let s ← .get
  let block ← .ofOption (writeTarget B s serial badge)
  .check (data.length ≤ kWriteMax)
  write (B.write block offset data (inodeTime now))
  pure data.length

/-- `frame` is what the mapped frame holds, and nothing when none came or it could
    not be mapped. -/
def answerWriteFrame (badge serial offset wanted frameOffset : ℕ) (frame : Option (List UInt8))
    (now : ℕ) : S σ ℕ := do
  let s ← .get
  let frame ← .ofOption frame
  let block ← .ofOption (writeTarget B s serial badge)
  .check (frameOffset < kFrameBytes)
  let data := (frame.drop frameOffset).take wanted
  .when (data ≠ []) (write (B.write block offset data (inodeTime now)))
  pure data.length

def answerClose (badge serial : ℕ) : S σ Unit := do
  let s ← .get
  let row ← .ofOption (s.handleLookup serial badge)
  .modify (setRow row.serial release)

def answerReap (badge : ℕ) : S σ Unit := .modify fun s =>
  { s with rows := s.rows.map fun row =>
      if row.serial ≠ 0 ∧ row.badge = badge then release row else row }

/-- `make_dirs`, from the directory in `block` on. -/
def makeDirs (badge now : ℕ) : List Key → ℕ → S σ Unit
  | [], _ => pure ()
  | component :: rest, block => do
    let s ← .get
    let dir ← .ofOption (B.readInode s.store block)
    .check (permits badge dir kPermExec)
    match B.dirFind s.store dir component with
    | some child => do
      let made ← .ofOption (B.readInode s.store child)
      .check (modeIsDirectory made.mode)
      makeDirs badge now rest child
    | none => do
      .check (permits badge dir kPermWrite)
      let owner := ownerIndex badge
      let created ← write (B.create block component (kModeDirectory ||| 0o755) owner owner (inodeTime now))
      makeDirs badge now rest created

def answerMkdir (badge : ℕ) (path : List UInt8) (now : ℕ) : S σ Unit := do
  let s ← .get
  .check (s.writable && path.length != 0)
  makeDirs B badge now ((path.splitOn kSlash).filter (· ≠ [])) (rootBlock B s.store)

def answerRemove (badge : ℕ) (path : List UInt8) : S σ Unit := do
  let s ← .get
  .check s.writable
  let (parentBlock, name) ← .ofOption (walkParent B s.store badge path)
  let parent ← .ofOption (B.readInode s.store parentBlock)
  .check (permits badge parent (kPermWrite ||| kPermExec))
  write (B.remove parentBlock name)

def answerRename (badge : ℕ) (source target : List UInt8) : S σ Unit := do
  let s ← .get
  .check s.writable
  let (parentBlock, sourceName) ← .ofOption (walkParent B s.store badge source)
  let (targetBlock, targetName) ← .ofOption (walkParent B s.store badge target)
  .check (parentBlock == targetBlock)
  let parent ← .ofOption (B.readInode s.store parentBlock)
  .check (permits badge parent (kPermWrite ||| kPermExec))
  write (B.rename parentBlock sourceName targetName)

def answerTruncate (badge : ℕ) (path : List UInt8) (size now : ℕ) : S σ Unit := do
  let s ← .get
  .check s.writable
  let (inode, _) ← .ofOption (walk B s.store badge path)
  .check (!modeIsDirectory inode.mode && permits badge inode kPermWrite)
  let (parentBlock, name) ← .ofOption (walkParent B s.store badge path)
  let parent ← .ofOption (B.readInode s.store parentBlock)
  let block ← .ofOption (B.dirFind s.store parent name)
  write (B.truncate block size (inodeTime now))

/-! ## Attributes, mode and owner -/

def kAttrNameMax : ℕ := 255
def kAttrDataMax : ℕ := 117 * 8

def attrTarget (s : Service σ) (badge : ℕ) (path : List UInt8) (name : Key) : Option Inode :=
  if name.length = 0 ∨ kAttrNameMax < name.length then none
  else (walk B s.store badge path).bind fun (inode, _) =>
    if permits badge inode kPermWrite then some inode else none

def answerAttrWrite (badge : ℕ) (path : List UInt8) (name : Key) (type offset : ℕ)
    (data : List UInt8) (now : ℕ) : S σ ℕ := do
  let s ← .get
  .check (s.writable && data.length ≤ kAttrDataMax)
  let inode ← .ofOption (attrTarget B s badge path name)
  write (B.attrWrite (B.toBlock s.store inode.run) name (type % 2 ^ 32) offset data (inodeTime now))
  pure data.length

def answerAttrRemove (badge : ℕ) (path : List UInt8) (name : Key) : S σ Unit := do
  let s ← .get
  .check s.writable
  let inode ← .ofOption (attrTarget B s badge path name)
  write (B.attrRemove (B.toBlock s.store inode.run) name)

/-- `answer_protect`: the low bits of the mode are set, the others stay. -/
def answerProtect (badge : ℕ) (path : List UInt8) (mode : ℕ) : S σ Unit := do
  let s ← .get
  .check s.writable
  let (inode, _) ← .ofOption (walk B s.store badge path)
  .check (ownerOrSystem badge inode)
  let mode := (inode.mode - inode.mode % 0o10000) + mode % 0o10000
  write (B.setOwnerMode (B.toBlock s.store inode.run) inode.uid inode.gid mode)

def answerOwner (badge : ℕ) (path : List UInt8) (uid gid : ℕ) : S σ Unit := do
  let s ← .get
  .check s.writable
  let (inode, _) ← .ofOption (walk B s.store badge path)
  .check (ownerOrSystem badge inode)
  write (B.setOwnerMode (B.toBlock s.store inode.run) (uid % 2 ^ 32) (gid % 2 ^ 32) inode.mode)

/-! ## Queries -/

/-- `may_see`: the caller may read the directory of a name and pass those above it. -/
def maySee (s : σ) (badge : ℕ) : ℕ → Bool → Inode → Bool
  | 0, _, _ => false
  | fuel + 1, first, inode =>
    let parent := B.toBlock s inode.parent
    match B.readInode s parent with
    | none => false
    | some dir =>
      permits badge dir kPermExec && (!first || permits badge dir kPermRead) &&
        (parent == rootBlock B s || maySee s badge fuel false dir)

/-- Whether a query names an inode to the caller. -/
def answers (s : σ) (badge : ℕ) (q : Query) (inode : Inode) : Bool :=
  isQueryable inode && q.eval (queryValue B s inode) &&
    (!isUserBadge badge || maySee B s badge ((B.geometry s).numBlocks + 1) true inode)

/-- `next_inode`: the first inode from `block` on that names its own block. -/
def nextInode (s : σ) : ℕ → ℕ → Option (Inode × ℕ)
  | 0, _ => none
  | fuel + 1, block =>
    match B.readInode s block with
    | some inode => if B.toBlock s inode.run = block then some (inode, block + 1) else nextInode s fuel (block + 1)
    | none => nextInode s fuel (block + 1)

/-- The scan of `query_next`: the first answer from `block` on, and where it stopped. -/
def scan (s : σ) (badge : ℕ) (q : Query) : ℕ → ℕ → Option Inode × ℕ
  | 0, block => (none, block)
  | fuel + 1, block =>
    match nextInode B s ((B.geometry s).numBlocks - block) block with
    | none => (none, (B.geometry s).numBlocks)
    | some (inode, next) => if answers B s badge q inode then (some inode, next) else scan s badge q fuel next

/-- The walk of an index: the first answer from `position` on, and where it stopped. -/
def walkIndex (indexWalk : σ → ℕ → Key → ℕ → Option ℕ) (s : σ) (badge : ℕ) (q : Query) (block : ℕ)
    (key : Key) : ℕ → ℕ → Option Inode × ℕ
  | 0, position => (none, position)
  | fuel + 1, position =>
    match indexWalk s block key position with
    | none => (none, position)
    | some value =>
      match (B.readInode s value).filter (answers B s badge q) with
      | some inode => (some inode, position + 1)
      | none => walkIndex indexWalk s badge q block key fuel (position + 1)

variable (parse : List UInt8 → Option Query) (indexWalk : σ → ℕ → Key → ℕ → Option ℕ)

def queryIndex (s : σ) (q : Query) : ℕ := (q.term.bind fun (name, _) => B.indexInode s name).getD 0

def queryRow (kind : HandleKind) (text : List UInt8) (indexBlock notification generation : ℕ)
    (row : Handle) : Handle :=
  { row with
    kind, query := text, cursor := 1, indexBlock, indexPosition := 0
    liveNotification := notification, liveGeneration := generation }

def kQueryTextMax : ℕ := 128
def kQueryFlagLive : ℕ := 1

def answerQueryOpen (badge : ℕ) (text : List UInt8) (flags : ℕ) : S σ ℕ := do
  let s ← .get
  .check (text.length != 0 && text.length ≤ kQueryTextMax && flags &&& kQueryFlagLive == 0)
  let q ← .ofOption (parse text)
  handleAlloc badge fun row =>
    queryRow .query text (queryIndex B s.store q) 0 row.liveGeneration row

def kCNodeSlots : ℕ := 4096
def kWindowSlots : ℕ := 24

def liveSlotUsed (s : Service σ) (slot : ℕ) : Bool :=
  slot == s.liveMintSlot ||
    s.rows.any fun row => row.serial != 0 && row.kind == .live && row.liveNotification == slot

def liveSlotAlloc (s : Service σ) : Option ℕ :=
  (List.range' (s.liveSlotBase + 1) (kCNodeSlots - kWindowSlots - (s.liveSlotBase + 1))).find?
    fun slot => !liveSlotUsed s slot

/-- `kernel`: the notification could be made and the caller's copy minted. -/
def answerQueryOpenLive (badge : ℕ) (text : List UInt8) (kernel : Bool) : S σ ℕ := do
  let s ← .get
  .check (text.length != 0 && text.length ≤ kQueryTextMax)
  let q ← .ofOption (parse text)
  .check (s.liveMintSlot != 0)
  let slot ← .ofOption (liveSlotAlloc s)
  .check kernel
  handleAlloc badge (queryRow .live text (queryIndex B s.store q) slot s.changeGeneration)

/-- A live query that was signalled since its last read starts over. -/
def refresh (generation : ℕ) (row : Handle) : Handle :=
  if row.kind = .live ∧ row.liveGeneration ≠ generation then
    { row with liveGeneration := generation, cursor := 1, indexPosition := 0 }
  else row

/-- Where a query's next answer is, and where its row stops then. -/
def advance (s : σ) (badge : ℕ) (q : Query) (row : Handle) : Option Inode × Handle :=
  if row.indexBlock ≠ 0 then
    match q.term with
    | some (_, key) =>
      let r := walkIndex B indexWalk s badge q row.indexBlock key (2 ^ 32) row.indexPosition
      (r.1, { row with indexPosition := r.2 })
    | none => (none, row)
  else
    let r := scan B s badge q ((B.geometry s).numBlocks + 1) row.cursor
    (r.1, { row with cursor := r.2 })

def answerQueryNext (badge serial : ℕ) : S σ Inode := do
  let s ← .get
  let row ← .ofOption (s.handleLookup serial badge)
  .check (row.kind == .query || row.kind == .live)
  let q ← .ofOption (parse row.query)
  let r := advance B indexWalk s.store badge q (refresh s.changeGeneration row)
  .modify (setRow row.serial fun _ => r.2)
  .ofOption r.1

def answerQueryClose (badge serial : ℕ) : S σ Unit := do
  let s ← .get
  let row ← .ofOption (s.handleLookup serial badge)
  .check (row.kind == .query || row.kind == .live)
  .modify (setRow row.serial release)

end Service

/-! ## Calls -/

/-- The methods that only answer. -/
inductive Look where
  | read
  | list
  | stat
  | readHandle
  | space
  | readFrame
  | attrStat
  | attrRead
  | attrList

/-- A call of the volume port, with what it needs from outside. -/
inductive Call where
  | look (method : Look)
  | «open» (path : List UInt8) (flags now : ℕ)
  | write (serial offset : ℕ) (data : List UInt8) (now : ℕ)
  | writeFrame (serial offset wanted frameOffset : ℕ) (frame : Option (List UInt8)) (now : ℕ)
  | close (serial : ℕ)
  | mkdir (path : List UInt8) (now : ℕ)
  | remove (path : List UInt8)
  | rename (source target : List UInt8)
  | truncate (path : List UInt8) (size now : ℕ)
  | reap (badge : ℕ)
  | attrWrite (path : List UInt8) (name : Key) (type offset : ℕ) (data : List UInt8) (now : ℕ)
  | attrRemove (path : List UInt8) (name : Key)
  | protect (path : List UInt8) (mode : ℕ)
  | owner (path : List UInt8) (uid gid : ℕ)
  | queryOpen (text : List UInt8) (flags : ℕ)
  | queryNext (serial : ℕ)
  | queryClose (serial : ℕ)
  | queryOpenLive (text : List UInt8) (kernel : Bool)
  /-- a message that does not unpack, or a method that is not known -/
  | malformed (mutating : Bool)

namespace Call

/-- The methods the serve loop takes for changes. -/
def mutating : Call → Bool
  | «open» .. | write .. | mkdir .. | remove .. | rename .. | truncate .. | attrWrite ..
  | attrRemove .. => true
  | malformed mutating => mutating
  | _ => false

variable {σ : Type} (B : Lower σ) (parse : List UInt8 → Option Query)
  (indexWalk : σ → ℕ → Key → ℕ → Option ℕ)

/-- The work of a call. -/
def answer (badge : ℕ) : Call → S σ Unit
  | look _ | malformed _ => .fail
  | «open» path flags now => (Service.answerOpen B badge path flags now).ignore
  | write serial offset data now => (Service.answerWrite B badge serial offset data now).ignore
  | writeFrame serial offset wanted frameOffset frame now =>
    (Service.answerWriteFrame B badge serial offset wanted frameOffset frame now).ignore
  | close serial => Service.answerClose badge serial
  | mkdir path now => Service.answerMkdir B badge path now
  | remove path => Service.answerRemove B badge path
  | rename source target => Service.answerRename B badge source target
  | truncate path size now => Service.answerTruncate B badge path size now
  | reap badge => Service.answerReap badge
  | attrWrite path name type offset data now =>
    (Service.answerAttrWrite B badge path name type offset data now).ignore
  | attrRemove path name => Service.answerAttrRemove B badge path name
  | protect path mode => Service.answerProtect B badge path mode
  | owner path uid gid => Service.answerOwner B badge path uid gid
  | queryOpen text flags => (Service.answerQueryOpen B parse badge text flags).ignore
  | queryNext serial => (Service.answerQueryNext B parse indexWalk badge serial).ignore
  | queryClose serial => Service.answerQueryClose badge serial
  | queryOpenLive text kernel => (Service.answerQueryOpenLive B parse badge text kernel).ignore

def serve (badge : ℕ) (c : Call) (s : Service σ) : Service σ :=
  let s := (c.answer B parse indexWalk badge s).2
  if c.mutating then s.noteChange else s

end Call

def serveAll {σ : Type} (B : Lower σ) (parse : List UInt8 → Option Query)
    (indexWalk : σ → ℕ → Key → ℕ → Option ℕ) (calls : List (ℕ × Call)) (s : Service σ) : Service σ :=
  calls.foldl (fun s (badge, c) => c.serve B parse indexWalk badge s) s

end Aegir.Fs
