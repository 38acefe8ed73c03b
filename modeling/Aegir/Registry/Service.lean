/-
  The process registry (aegir-process-registry, `main.cc`): the live processes, named by pid.

  The table of rows (aegir-process, `process_table.cc`) is kept dense; beside it an array holds,
  for each row, the slot of the capability the process is woken with, its break source, and
  another the release port of each spawner.  Slots come from a cursor.

  A row's name and path are the words they are carried in.  What the kernel does for the
  service is part of the state: the object behind the capability in each slot, the
  notifications signalled and the ports asked to halt a process.  `given` remembers the object
  each process registered to be woken with; no call reads it.
-/
import Aegir.Ipc.Badge

namespace Aegir.Registry

open Aegir.Ipc

def kMethodCount : ℕ := 1
def kMethodDescribe : ℕ := 2
def kMethodBreak : ℕ := 3
def kMethodRegister : ℕ := 4
def kMethodUnregister : ℕ := 5
def kMethodOwner : ℕ := 6
def kStateRunning : ℕ := 0
def kStateBreakPending : ℕ := 1
def kBreakRefused : ℕ := 0
def kBreakSet : ℕ := 1
def kProcessRefused : ℕ := 0
def kProcessAdded : ℕ := 1
def kOwnerRefused : ℕ := 0
def kOwnerNamed : ℕ := 1
/-- The words of a `Row`: four, then the name's and the path's. -/
def kRowWords : ℕ := 16
def kNameWords : ℕ := 3
def kPathWords : ℕ := 9

structure Row where
  pid : ℕ
  parent : ℕ
  flags : ℕ
  state : ℕ
  name : List ℕ
  path : List ℕ
deriving DecidableEq

namespace Row

/-- A `Row` as the message carries it. -/
def ofWords (words : List ℕ) : Row :=
  ⟨words.getD 0 0, words.getD 1 0, words.getD 2 0, words.getD 3 0, (words.drop 4).take kNameWords,
    (words.drop (4 + kNameWords)).take kPathWords⟩

def words (r : Row) : List ℕ := [r.pid, r.parent, r.flags, r.state] ++ r.name ++ r.path

/-- The row the registry keeps: running, with no flag, its name and path ended in their fields. -/
def seed (r : Row) : Row :=
  { r with
    flags := 0
    state := kStateRunning
    name := r.name.modify (kNameWords - 1) (· % 2 ^ 56)
    path := r.path.modify (kPathWords - 1) (· % 2 ^ 56) }

end Row

/-- The attention flags of a word (`kAttnAll`), and whether C is one. -/
def attn (word : ℕ) : ℕ := word % 16
def attnC (flags : ℕ) : Bool := flags % 2 = 1

/-! ## The table -/

/-- `ProcessTable::find`, the row's index. -/
def find (rows : List Row) (pid : ℕ) : Option ℕ := rows.findIdx? (·.pid = pid)

def mayBreak (caller target : ℕ) : Bool :=
  if !isUserBadge caller then true
  else if !isUserBadge target then false
  else userIndex caller = userIndex target

def add (capacity : ℕ) (rows : List Row) (r : Row) : Option (List Row) :=
  if capacity ≤ rows.length ∨ (find rows r.pid).isSome then none else some (rows ++ [r.seed])

/-- `ProcessTable::remove`: the last live row fills the hole. -/
def remove (rows : List Row) (pid : ℕ) : Option (List Row) :=
  match find rows pid, rows.getLast? with
  | some i, some last => some (rows.set i last).dropLast
  | _, _ => none

def Row.setFlags (r : Row) (flags : ℕ) : Row :=
  { r with flags := flags, state := if attnC flags then kStateBreakPending else r.state }

def setFlags (rows : List Row) (pid flags caller : ℕ) : Option (List Row) :=
  match find rows pid with
  | none => none
  | some i => if mayBreak caller pid then some (rows.modify i (·.setFlags flags)) else none

/-- What a call on the table answers, in one word, and the rows it leaves. -/
def outcome (rows : List Row) (done refused : ℕ) (r : Option (List Row)) : List ℕ × List Row :=
  match r with
  | none => ([refused], rows)
  | some rows' => ([done], rows')

/-- `ProcessTable::handle`.  The reply has room for any answer. -/
def handle (capacity : ℕ) (rows : List Row) (method : ℕ) (words : List ℕ) (caller : ℕ) : List ℕ × List Row :=
  if method = kMethodCount then ([rows.length], rows)
  else if method = kMethodDescribe then
    if words.length < 1 then ([], rows)
    else (((rows[words.getD 0 0 % 2 ^ 32]?).map Row.words).getD [], rows)
  else if method = kMethodBreak then
    if words.length < 2 then ([], rows)
    else outcome rows kBreakSet kBreakRefused (setFlags rows (words.getD 0 0) (attn (words.getD 1 0)) caller)
  else if method = kMethodRegister then
    if words.length < kRowWords then ([], rows)
    else outcome rows kProcessAdded kProcessRefused (add capacity rows (Row.ofWords words))
  else if method = kMethodUnregister then
    if words.length < 1 then ([], rows)
    else outcome rows kProcessAdded kProcessRefused (remove rows (words.getD 0 0))
  else ([], rows)

/-! ## The service -/

structure Owner where
  badge : ℕ
  port : ℕ
deriving DecidableEq

/-- The rows, the array of sources beside them, the owners, and the cursor over the slots. -/
structure Service where
  capacity : ℕ
  rows : List Row
  sources : List ℕ
  owners : List Owner
  next : ℕ
  slotsEnd : ℕ

structure World where
  service : Service
  caps : ℕ → Option ℕ
  given : ℕ → Option ℕ
  signalled : List (ℕ × ℕ)
  halted : List (Option ℕ × ℕ)

/-- A call: the caller's badge, the method and its words, the object behind the capability that
    came with it, and whether the kernel moves a capability and mints one for it. -/
structure Received where
  badge : ℕ
  method : ℕ
  words : List ℕ
  cap : Option ℕ
  taken : Bool
  minted : Bool

def Received.word (m : Received) (i : ℕ) : ℕ := m.words.getD i 0

namespace World

def edit (w : World) (f : Service → Service) : World := { w with service := f w.service }

/-- `Allocator::alloc_slot` of a run of slots: zero when it is spent. -/
def allocSlot (w : World) : ℕ × World :=
  if w.service.slotsEnd ≤ w.service.next then (0, w)
  else (w.service.next, w.edit fun s => { s with next := s.next + 1 })

/-- `seL4_CNode_Delete` -/
def delete (w : World) (slot : ℕ) : World := { w with caps := Function.update w.caps slot none }

/-- `take_received_cap` into a slot, where the kernel moves it. -/
def put (w : World) (slot : ℕ) (cap : Option ℕ) : World := { w with caps := Function.update w.caps slot cap }

/-- `set_owner`: whether the port is named, and the owners after it. -/
def setOwner (w : World) (badge port : ℕ) : Bool × World :=
  if badge = 0 then (false, w)
  else match w.service.owners.findIdx? (·.badge = badge) with
    | some i =>
      (true, (w.delete (w.service.owners.getD i ⟨0, 0⟩).port).edit fun s =>
        { s with owners := s.owners.set i ⟨badge, port⟩ })
    | none =>
      if w.service.capacity ≤ w.service.owners.length then (false, w)
      else (true, w.edit fun s => { s with owners := s.owners ++ [⟨badge, port⟩] })

def nameOwner (w : World) (m : Received) : Bool × World :=
  if m.words.length < 1 ∨ m.cap = none then (false, w)
  else
    let (slot, w) := w.allocSlot
    if slot = 0 then (false, w)
    else if !m.taken then (false, w)
    else
      let (named, w) := (w.put slot m.cap).setOwner (m.word 0) slot
      (named, if named then w else w.delete slot)

def signalFlags (w : World) (source flags : ℕ) (minted : Bool) : World :=
  let (slot, w) := w.allocSlot
  if slot = 0 then w
  else match w.caps source with
    | some object => if minted then { w with signalled := w.signalled ++ [(object, flags)] } else w
    | none => w

def haltOwner (w : World) (badge pid : ℕ) : Bool × World :=
  match w.service.owners.find? (·.badge = badge) with
  | none => (false, w)
  | some o => (true, { w with halted := w.halted ++ [(w.caps o.port, pid)] })

/-- `drop_row`: the row and the source beside it, by the same move of the last one. -/
def dropRow (w : World) (pid : ℕ) : World :=
  match find w.service.rows pid with
  | none => w
  | some i =>
    let source := w.service.sources.getD i 0
    let w := if source ≠ 0 then w.delete source else w
    let rows := (handle w.service.capacity w.service.rows kMethodUnregister [pid] 0).2
    let w := w.edit fun s =>
      { s with rows := rows, sources := (s.sources.set i (s.sources.getD rows.length 0)).set rows.length 0 }
    { w with given := Function.update w.given pid none }

def unregister (w : World) (m : Received) : List ℕ × World :=
  if m.words.length < 1 then ([kProcessRefused], w)
  else ([if (find w.service.rows (m.word 0)).isSome then kProcessAdded else kProcessRefused], w.dropRow (m.word 0))

/-- The slot a registration's capability is moved into; zero when it keeps none. -/
def takeSource (w : World) (m : Received) : ℕ × World :=
  match m.cap with
  | none => (0, w)
  | some object =>
    let (slot, w) := w.allocSlot
    if slot ≠ 0 ∧ m.taken then (slot, w.put slot (some object)) else (0, w)

/-- A registration's source is remembered against its row. -/
def keepSource (w : World) (m : Received) : World :=
  let i := (find w.service.rows (m.word 0)).getD 0
  let (source, w) := w.takeSource m
  { w.edit fun s => { s with sources := s.sources.set i source } with
    given := Function.update w.given (m.word 0) (if source ≠ 0 then m.cap else none) }

/-- What follows a break that was set. -/
def deliver (w : World) (m : Received) : World :=
  let pid := m.word 0
  let flags := attn (m.word 1)
  match find w.service.rows pid with
  | none => w
  | some i =>
    if flags = 0 then w
    else
      let parent := ((w.service.rows[i]?).map (·.parent)).getD 0
      let source := w.service.sources.getD i 0
      let w := if source ≠ 0 then w.signalFlags source flags m.minted else w
      if attnC flags then
        let (halted, w) := w.haltOwner parent pid
        if halted then w.dropRow pid else w
      else w

/-- One turn of the serve loop, with the words of the reply. -/
def step (w : World) (m : Received) : List ℕ × World :=
  if m.method = kMethodOwner then
    let (named, w) := w.nameOwner m
    ([if named then kOwnerNamed else kOwnerRefused], w)
  else if m.method = kMethodUnregister then w.unregister m
  else
    let (reply, rows) := handle w.service.capacity w.service.rows m.method m.words m.badge
    let w := w.edit fun s => { s with rows := rows }
    if m.method = kMethodRegister ∧ reply = [kProcessAdded] then (reply, w.keepSource m)
    else if m.method = kMethodBreak ∧ reply = [kBreakSet] then (reply, w.deliver m)
    else (reply, w)

def run : World → List Received → World
  | w, [] => w
  | w, m :: ms => run (w.step m).2 ms

end World

/-- What the registry is started with: the rows its grant holds, and a run of free slots. -/
structure Boot where
  capacity : ℕ
  firstFree : ℕ
  firstFree_pos : 0 < firstFree
  slotsEnd : ℕ
  firstFree_le : firstFree ≤ slotsEnd

def Boot.start (b : Boot) : World where
  service := ⟨b.capacity, [], List.replicate b.capacity 0, [], b.firstFree, b.slotsEnd⟩
  caps _ := none
  given _ := none
  signalled := []
  halted := []

end Aegir.Registry
