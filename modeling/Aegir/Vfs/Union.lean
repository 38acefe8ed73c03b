/-
  The unions the VFS serves (`main.cc`, `union_read` to `union_close`, `answer_union`).

  A union's capability is the namespace's endpoint with the union's id in its badge,
  and speaks the volume's protocol: each call is forwarded to members, with the copy
  of their volume's port that the binding's badge has.  What a volume answers comes
  with the call (`Ports`); the answer of a call that fails, or of a copy the kernel
  does not mint, is nothing.

  A list's answer is the entry's name and its numbers, a read's is the count, the
  end-of-file mark and the bytes, an open's is the handle.
-/
import Aegir.Vfs.Namespace

namespace Aegir.Vfs

def kOpenCreate : ℕ := 1
def kOpenRead : ℕ := 4

def kMaxWords : ℕ := 119

def packedWords (text : List UInt8) : ℕ := 1 + (text.length + 7) / 8

/-- A call of a volume's port. -/
inductive Request where
  | read (path : List UInt8) (offset max : ℕ)
  | list (path : List UInt8) (index : ℕ)
  | stat (path : List UInt8)
  | openPath (path : List UInt8) (flags : ℕ)
  | mkdir (path : List UInt8)
  | remove (path : List UInt8)
  | write (handle : ℕ) (words : List ℕ)
  | writeFrame (handle : ℕ) (words : List ℕ)
  | readHandle (handle : ℕ) (words : List ℕ)
  | readFrame (handle : ℕ) (words : List ℕ)
  | close (handle : ℕ)
deriving DecidableEq

/-- What a volume answers: its words, and the string it packs. -/
structure Answer where
  words : List ℕ
  text : List UInt8
deriving DecidableEq

/-- No words: a refusal, or a call that failed. -/
def Answer.nothing : Answer := ⟨[], []⟩

def Answer.reply (a : Answer) : Reply := ⟨a.words, a.text, none⟩

/-- The volumes' side of a call. -/
structure Ports where
  /-- What a volume answers to a badge. -/
  ask : Volume → ℕ → Request → Answer
  /-- More turns than a loop over a directory's entries takes. -/
  turns : ℕ

/-- A call of a union. -/
inductive UnionCall where
  | read (path : List UInt8) (offset max : ℕ)
  | list (path : List UInt8) (index : ℕ)
  | stat (path : List UInt8)
  | openPath (path : List UInt8) (flags : ℕ)
  | mkdir (path : List UInt8)
  | remove (path : List UInt8)
  | write (handle : ℕ) (words : List ℕ)
  /-- `arrived` and `moved`: the frame's capability came, and could be carried on. -/
  | writeFrame (handle : ℕ) (words : List ℕ) (arrived moved : Bool)
  | readHandle (handle : ℕ) (words : List ℕ)
  | readFrame (handle : ℕ) (words : List ℕ) (arrived moved : Bool)
  | close (handle : ℕ)
  /-- A method the union does not know, and a message that does not unpack. -/
  | malformed

def UnionCall.handle : UnionCall → Option ℕ
  | .write h _ | .writeFrame h _ _ _ | .readHandle h _ | .readFrame h _ _ _ | .close h => some h
  | _ => none

/-! ## Members -/

/-- `member_badge`: the badge a binding's member calls carry. -/
def memberBadge (binding : Binding) : ℕ := if binding.badge = kAliasEveryone then 0 else binding.badge

/-- `create_target`: the place of the member a create lands in. -/
def createTarget (binding : Binding) : ℕ :=
  (binding.members.findIdx? fun m => m.flags &&& kBindCreate ≠ 0).getD 0

def memberComposedPath (member : Member) (path : List UInt8) : Option (List UInt8) :=
  (composePath member.rest path).bind (composeView member.volume · kPathMax)

/-- `member_path_call`, with as many words after the path as `extra` says. -/
def memberPathCall (ports : Ports) (badge : ℕ) (member : Member) (path : List UInt8) (extra : ℕ)
    (request : List UInt8 → Request) : Answer :=
  match memberComposedPath member path with
  | none => .nothing
  | some composed =>
    if packedWords composed + extra > kMaxWords then .nothing
    else ports.ask member.volume badge (request composed)

/-- Whether a member has the path: its stat answers. -/
def memberHas (ports : Ports) (badge : ℕ) (path : List UInt8) (member : Member) : Bool :=
  memberPathCall ports badge member path 0 .stat ≠ .nothing

/-- `first_member_with`: the place of the first member that has the path. -/
def firstMemberWith (ports : Ports) (binding : Binding) (badge : ℕ) (path : List UInt8) : Option ℕ :=
  binding.members.findIdx? (memberHas ports badge path)

/-- The loop of `union_read` and `union_stat`: the first member that answers. -/
def firstAnswer (call : Member → Answer) : List Member → Answer
  | [] => .nothing
  | m :: ms => if call m ≠ .nothing then call m else firstAnswer call ms

def unionRead (ports : Ports) (binding : Binding) (badge : ℕ) (path : List UInt8) (offset max : ℕ) :
    Answer :=
  firstAnswer (fun m => memberPathCall ports badge m path 2 (.read · offset max)) binding.members

def unionStat (ports : Ports) (binding : Binding) (badge : ℕ) (path : List UInt8) : Answer :=
  firstAnswer (fun m => memberPathCall ports badge m path 0 .stat) binding.members

def unionMkdir (ports : Ports) (binding : Binding) (badge : ℕ) (path : List UInt8) : Answer :=
  match binding.members[createTarget binding]? with
  | none => .nothing
  | some m => memberPathCall ports badge m path 0 .mkdir

def unionRemove (ports : Ports) (binding : Binding) (badge : ℕ) (path : List UInt8) : Answer :=
  match (firstMemberWith ports binding badge path).bind (binding.members[·]?) with
  | none => .nothing
  | some m => memberPathCall ports badge m path 0 .remove

/-! ## Listing -/

def memberListEntry (ports : Ports) (badge : ℕ) (path : List UInt8) (member : Member) (index : ℕ) :
    Answer :=
  memberPathCall ports badge member path 1 (.list · index)

def answerNameIs (answer : Answer) (name : List UInt8) : Bool :=
  decide (answer.text.length ≤ kNameMax) && sameVolume answer.text name

/-- The scan of an earlier member, from entry `k` on: whether it lists the name. -/
def scanEarlier (list : ℕ → Answer) (name : List UInt8) : ℕ → ℕ → Bool
  | 0, _ => false
  | turns + 1, k =>
    if list k = .nothing then false
    else if answerNameIs (list k) name then true
    else scanEarlier list name turns (k + 1)

/-- The entries of one member, from entry `j` on, with `unique` names merged before: the
    one that is wanted, or how many names are merged now. -/
def scanMember (list : ℕ → Answer) (shadowed : List UInt8 → Bool) (want : ℕ) : ℕ → ℕ → ℕ → Answer ⊕ ℕ
  | 0, _, unique => .inr unique
  | turns + 1, j, unique =>
    let entry := list j
    if entry = .nothing then .inr unique
    else if entry.text.length > kNameMax then .inr unique
    else if shadowed entry.text then scanMember list shadowed want turns (j + 1) unique
    else if unique = want then .inl entry
    else scanMember list shadowed want turns (j + 1) (unique + 1)

/-- The members of `union_list`, those in `earlier` done. -/
def scanMembers (list : Member → ℕ → Answer) (turns want : ℕ) : List Member → List Member → ℕ → Answer
  | _, [], _ => .nothing
  | earlier, m :: ms, unique =>
    match scanMember (list m) (fun name => earlier.any fun p => scanEarlier (list p) name turns 0)
      want turns 0 unique with
    | .inl entry => entry
    | .inr unique => scanMembers list turns want (earlier ++ [m]) ms unique

def unionList (ports : Ports) (binding : Binding) (badge : ℕ) (path : List UInt8) (index : ℕ) : Answer :=
  scanMembers (memberListEntry ports badge path) ports.turns index [] binding.members 0

/-! ## Handles -/

namespace Tables

def findUnion (s : Tables) (id : ℕ) : Option Binding := s.bindings.find? fun b => b.unionId = id

/-- `union_handle_find` -/
def findHandle (s : Tables) (serial : ℕ) : Option UnionHandle := s.handles.find? fun h => h.serial = serial

/-- `union_handle_drop` -/
def dropHandle (s : Tables) (row : UnionHandle) : Tables :=
  { s with handles := s.handles.erase row, handleFree := s.handleFree + 1 }

/-- `union_handle_take` -/
def handleTake (s : Tables) : Option Tables :=
  if s.handleFree ≠ 0 then some { s with handleFree := s.handleFree - 1 }
  else s.arenaTake unionHandleBytes

end Tables

/-- What an open found: the member's place, the member, its path and the handle it answered. -/
structure Opening where
  index : ℕ
  member : Member
  path : List UInt8
  handle : ℕ

/-- The part of `union_open` up to the member's answer. -/
def openMember (ports : Ports) (binding : Binding) (badge : ℕ) (path : List UInt8) (flags : ℕ) :
    Option Opening :=
  (if flags &&& kOpenCreate ≠ 0 then some (createTarget binding)
    else firstMemberWith ports binding badge path).bind fun index =>
  (binding.members[index]?).bind fun member =>
  (memberComposedPath member path).bind fun composed =>
    if packedWords composed + 1 > kMaxWords then none
    else
      let handle := (ports.ask member.volume badge (.openPath composed flags)).words.headD 0
      if handle = 0 then none else some ⟨index, member, composed, handle⟩

namespace Tables

/-- `union_open`: a read open answers with the member's port, a write open with a handle. -/
def unionOpen (s : Tables) (ports : Ports) (binding : Binding) (badge : ℕ) (path : List UInt8)
    (flags : ℕ) : Reply × Tables :=
  match openMember ports binding badge path flags with
  | none => (.nothing, s)
  | some o =>
    if flags &&& kOpenRead ≠ 0 then (⟨[o.handle], o.path, some (.volume o.member.volume badge)⟩, s)
    else match s.handleTake with
    | none => (.nothing, s)
    | some s => (⟨[s.handleNext], [], none⟩,
        { s with handles := ⟨s.handleNext, o.index, o.handle⟩ :: s.handles
                 handleNext := s.handleNext + 1 })

/-- Where a call that names a handle goes: the member, and the member's own handle. -/
def forward (s : Tables) (binding : Binding) (serial : ℕ) : Option (Member × UnionHandle) :=
  (s.findHandle serial).bind fun row => (binding.members[row.member]?).map (·, row)

/-- A call forwarded as `request`, with the member's handle in place of the union's. -/
def forwardCall (s : Tables) (ports : Ports) (binding : Binding) (badge serial : ℕ)
    (request : ℕ → Request) : Answer :=
  match s.forward binding serial with
  | none => .nothing
  | some (member, row) => ports.ask member.volume badge (request row.memberHandle)

/-- `union_close`: the row goes, whether or not the member is still there. -/
def unionClose (s : Tables) (ports : Ports) (binding : Binding) (badge serial : ℕ) : Reply × Tables :=
  match s.findHandle serial with
  | none => (.nothing, s)
  | some row => ((s.forwardCall ports binding badge serial .close).reply, s.dropHandle row)

/-- The calls of `answer_union`, for the binding its id names. -/
def serveUnion (s : Tables) (ports : Ports) (binding : Binding) : UnionCall → Reply × Tables
  | .read path offset max => ((unionRead ports binding (memberBadge binding) path offset max).reply, s)
  | .list path index => ((unionList ports binding (memberBadge binding) path index).reply, s)
  | .stat path => ((unionStat ports binding (memberBadge binding) path).reply, s)
  | .openPath path flags => s.unionOpen ports binding (memberBadge binding) path flags
  | .mkdir path => ((unionMkdir ports binding (memberBadge binding) path).reply, s)
  | .remove path => ((unionRemove ports binding (memberBadge binding) path).reply, s)
  | .write h words => ((s.forwardCall ports binding (memberBadge binding) h (.write · words)).reply, s)
  | .writeFrame h words arrived moved =>
    (if arrived && moved then
      (s.forwardCall ports binding (memberBadge binding) h (.writeFrame · words)).reply
    else .nothing, s)
  | .readHandle h words =>
    ((s.forwardCall ports binding (memberBadge binding) h (.readHandle · words)).reply, s)
  | .readFrame h words arrived moved =>
    (if arrived && moved then
      (s.forwardCall ports binding (memberBadge binding) h (.readFrame · words)).reply
    else .nothing, s)
  | .close h => s.unionClose ports binding (memberBadge binding) h
  | .malformed => (.nothing, s)

/-- `answer_union`, on a capability with the given badge. -/
def answerUnion (s : Tables) (ports : Ports) (badge : ℕ) (call : UnionCall) : Reply × Tables :=
  match s.findUnion (unionId badge) with
  | none => (.nothing, s)
  | some binding => s.serveUnion ports binding call

end Tables

/-! ## The service -/

/-- A write open that the union answered: the union's handle, the id of the union, and the
    volume and handle of the member that answered. -/
structure Opened where
  serial : ℕ
  union : ℕ
  volume : Volume
  handle : ℕ
deriving DecidableEq

/-- The service's tables, and what no method reads: the unions' capabilities that callers
    hold, each with its holder's badge, and the write opens. -/
structure Service where
  tables : Tables
  held : List (ℕ × ℕ)
  opened : List Opened

/-- A message: a caller's call of the namespace, or its call on a union's capability. -/
inductive Event where
  | names (caller : ℕ) (call : Call)
  | union (caller cap : ℕ) (call : UnionCall) (ports : Ports)

namespace Service

/-- The union's capability a reply carries is its caller's to hold. -/
def hold (s : Service) (caller : ℕ) : Option Cap → List (ℕ × ℕ)
  | some (.union cap) => (caller, cap) :: s.held
  | _ => s.held

/-- What a call opens: the handle its reply names is the member's that answered. -/
def opening (s : Service) (cap : ℕ) (ports : Ports) (reply : Reply) : UnionCall → List Opened
  | .openPath path flags =>
    match s.tables.findUnion (unionId cap), reply.cap, reply.words with
    | some binding, none, [serial] =>
      match openMember ports binding (memberBadge binding) path flags with
      | some o => ⟨serial, unionId cap, o.member.volume, o.handle⟩ :: s.opened
      | none => s.opened
    | _, _, _ => s.opened
  | _ => s.opened

/-- The loop of `main`, once around. -/
def step (s : Service) : Event → Reply × Service
  | .names caller call =>
    let (reply, tables) := s.tables.serve caller call
    (reply, { s with tables := tables, held := s.hold caller reply.cap })
  | .union caller cap call ports =>
    let (reply, tables) := s.tables.answerUnion ports cap call
    (reply, { s with tables := tables, held := s.hold caller reply.cap,
                     opened := s.opening cap ports reply call })

/-- A badge without the mark of a union calls the namespace; a union is called by who holds
    its capability. -/
def Legal (s : Service) : Event → Prop
  | .names caller _ => isUnion caller = false
  | .union caller cap _ _ => isUnion caller = false ∧ (caller, cap) ∈ s.held

def start (arena slot : ℕ) : Service := ⟨⟨[], [], 1, [], 1, arena, 0, 0, 0, slot⟩, [], []⟩

/-- `s'` is reached from `s` by legal events that meet `P` where they come in. -/
inductive Run (P : Service → Event → Prop) : Service → Service → Prop where
  | nil (s : Service) : Run P s s
  | snoc {s s' : Service} (h : Run P s s') (e : Event) (hl : s'.Legal e) (hp : P s' e) :
      Run P s (s'.step e).2

end Service

end Aegir.Vfs
