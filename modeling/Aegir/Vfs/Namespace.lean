/-
  The namespace the VFS keeps (`apps/freestanding/aegir-vfs`, `main.cc`): volumes by
  name, and bindings, the names that stand for an ordered list of places in volumes.

  A volume that is mounted is a view, a base path within the volume it is made over.
  A binding belongs to a badge, or to everyone; with a second member it becomes a
  union and gets an id, which the badge of the union's capability carries.

  A row of a table is a value and a list of rows is in the table's order, the newest
  first; a row that is dropped is counted, for the next one to reuse.  A call is what
  is left of a message once its words are unpacked; one that does not unpack is
  `malformed`.  Whether the kernel moves a capability that came with a message, or
  mints one, comes with the call, and so does what the name's bytes of a new row hold
  before they are written: `arena_take` does not clear what it hands out.
-/
import Aegir.Fs.Service

namespace Aegir.Vfs

open Aegir.Fs (isUserBadge userIndex kSlash components)

/-! ## Names -/

def kNameMax : ℕ := 24
def kPathMax : ℕ := 944
def kColon : UInt8 := 58

/-- `folded`: an ASCII letter in lower case. -/
def folded (c : UInt8) : UInt8 := if 65 ≤ c ∧ c ≤ 90 then c + 32 else c

/-- `same_volume`: names are the same up to the case of ASCII letters. -/
def sameVolume (a b : List UInt8) : Bool := a.map folded == b.map folded

/-! ## Badges -/

def kAliasEveryone : ℕ := 2 ^ 64 - 1

def kUnionIdBits : ℕ := 30

/-- `union_badge`: the mark, and the id above the low word. -/
def unionBadge (id : ℕ) : ℕ := 2 ^ 63 ||| (id <<< 32)

def isUnion (badge : ℕ) : Bool := badge.testBit 63

def unionId (badge : ℕ) : ℕ := (badge >>> 32) % 2 ^ kUnionIdBits

/-! ## The tables -/

def kFlagBoot : ℕ := 2
def kFlagPublic : ℕ := 4

def kBindAppend : ℕ := 1
def kBindPrepend : ℕ := 2
def kBindCreate : ℕ := 4

structure Volume where
  name : List UInt8
  flags : ℕ
  /-- The slot of the caller half, which a view shares with the volume it is over. -/
  port : ℕ
  /-- The owner's badge; zero for the system's. -/
  owner : ℕ
  /-- A view's base path; empty for an ordinary volume. -/
  base : List UInt8
deriving DecidableEq

/-- One member of a binding: the volume and the rest it was resolved to when it was bound. -/
structure Member where
  volume : Volume
  rest : List UInt8
  flags : ℕ
deriving DecidableEq

structure Binding where
  badge : ℕ
  flags : ℕ
  /-- Zero until the binding has a second member. -/
  unionId : ℕ
  name : List UInt8
  members : List Member
deriving DecidableEq

/-- One handle the union holds on a member, which it names by its place in the list. -/
structure UnionHandle where
  serial : ℕ
  member : ℕ
  memberHandle : ℕ
deriving DecidableEq

/-- What the service keeps: the two tables, the handles of unions, and the memory they use. -/
structure Tables where
  volumes : List Volume
  bindings : List Binding
  unionNext : ℕ
  handles : List UnionHandle
  handleNext : ℕ
  /-- The memory the manifest granted, in bytes that are left. -/
  arenaLeft : ℕ
  memberFree : ℕ
  bindingFree : ℕ
  handleFree : ℕ
  nextSlot : ℕ

/-- `sizeof` of the rows. -/
def volumeBytes : ℕ := 112
def memberBytes : ℕ := 1000
def bindingBytes : ℕ := 64
def unionHandleBytes : ℕ := 32

/-- A capability that goes out with a reply. -/
inductive Cap where
  /-- The port of a volume, minted with a badge. -/
  | volume (volume : Volume) (badge : ℕ)
  /-- The namespace's own endpoint, minted with a union's badge. -/
  | union (badge : ℕ)
deriving DecidableEq

/-- A reply: its words, the string it packs and the capability with it. -/
structure Reply where
  words : List ℕ
  text : List UInt8
  cap : Option Cap
deriving DecidableEq

/-- `reply_words(nullptr, 0)` -/
def Reply.nothing : Reply := ⟨[], [], none⟩

/-- What a path's leading name resolves to. -/
inductive Resolution where
  | none
  | volume (volume : Volume) (rest : List UInt8)
  | union (binding : Binding) (rest : List UInt8)
deriving DecidableEq

/-! ## Paths -/

/-- `compose_path`: a member's rest, a slash, the caller's rest. -/
def composePath (member rest : List UInt8) : Option (List UInt8) :=
  let composed := member ++ (if member ≠ [] ∧ rest ≠ [] then [kSlash] else []) ++ rest
  if composed.length > kPathMax then none else some composed

/-- One component on top of a view's `base`: a parent drops what the last slash leads to,
    a name is put after a slash. -/
def composeStep (base : List UInt8) (capacity : ℕ) (path component : List UInt8) :
    Option (List UInt8) :=
  if component = [] then some (path.rdropWhile (· ≠ kSlash)).dropLast
  else if base.length + path.length + 1 + component.length > capacity then none
  else some (path ++ kSlash :: component)

/-- `compose_view`: the caller's path on top of the view's base. -/
def composeView (volume : Volume) (path : List UInt8) (capacity : ℕ) : Option (List UInt8) :=
  if volume.base = [] then if path.length > capacity then none else some path
  else ((components path).foldlM (composeStep volume.base capacity) []).map (volume.base ++ ·)

namespace Tables

/-! ## Looking up -/

def findVolume (s : Tables) (name : List UInt8) : Option Volume :=
  s.volumes.find? fun v => sameVolume v.name name

/-- The loop of `find_binding`: where the caller's own binding is, or everyone's last. -/
def findFrom (badge : ℕ) (name : List UInt8) : List Binding → ℕ → Option ℕ → Option ℕ
  | [], _, everyone => everyone
  | b :: bs, i, everyone =>
    if sameVolume b.name name then
      if b.badge = badge then some i
      else findFrom badge name bs (i + 1) (if b.badge = kAliasEveryone then some i else everyone)
    else findFrom badge name bs (i + 1) everyone

/-- `find_binding`: the place of the binding that answers a name for a caller. -/
def findBinding (s : Tables) (badge : ℕ) (name : List UInt8) : Option ℕ :=
  findFrom badge name s.bindings 0 none

end Tables

def mayResolve (badge : ℕ) (volume : Volume) : Bool :=
  if badge = kAliasEveryone ∨ isUserBadge badge = false then true
  else if volume.flags &&& (kFlagPublic ||| kFlagBoot) ≠ 0 then true
  else isUserBadge volume.owner && userIndex volume.owner == userIndex badge

namespace Tables

def resolvePath (s : Tables) (badge : ℕ) (path : List UInt8) : Resolution :=
  let name := path.takeWhile (· ≠ kColon)
  let rest := path.drop (name.length + 1)
  if name.length = path.length ∨ name = [] then .none
  else match s.findVolume name with
  | some volume =>
    if mayResolve badge volume then
      match composeView volume rest kPathMax with
      | some rest => .volume volume rest
      | none => .none
    else .none
  | none =>
    match (s.findBinding badge name).bind (s.bindings[·]?) with
    | none => .none
    | some binding =>
      if binding.unionId ≠ 0 then if rest.length > kPathMax then .none else .union binding rest
      else match binding.members with
      | [] => .none
      | member :: _ =>
        if mayResolve badge member.volume then
          match (composePath member.rest rest).bind (composeView member.volume · kPathMax) with
          | some rest => .volume member.volume rest
          | none => .none
        else .none

/-! ## Memory -/

def arenaTake (s : Tables) (bytes : ℕ) : Option Tables :=
  let bytes := (bytes + 7) / 8 * 8
  if bytes > s.arenaLeft then none else some { s with arenaLeft := s.arenaLeft - bytes }

def memberTake (s : Tables) : Option Tables :=
  if s.memberFree ≠ 0 then some { s with memberFree := s.memberFree - 1 } else s.arenaTake memberBytes

/-- The row of a fresh binding, in `answer_bind`. -/
def bindingTake (s : Tables) : Option Tables :=
  if s.bindingFree ≠ 0 then some { s with bindingFree := s.bindingFree - 1 }
  else s.arenaTake bindingBytes

/-! ## Registering and mounting -/

def digits (n : ℕ) : List UInt8 := (Nat.toDigits 10 n).map fun c => UInt8.ofNat c.toNat

def numberedName (row : List UInt8) (n : ℕ) : List UInt8 := row ++ 95 :: digits n

/-- One turn of the loop of `assign_name`: the suffix `n` behind what the row holds.  There is no
    room for it, or the name is free, or it is the next number's turn. -/
def tryName (s : Tables) (row : List UInt8) (n : ℕ) : Option (Option (List UInt8)) :=
  if (numberedName row n).length > kNameMax then some none
  else if (s.findVolume (numberedName row n)).isNone then some (some (numberedName row n))
  else none

/-- The loop of `assign_name` from the suffix `n` on, a number of 32 bits. -/
def assignFrom (s : Tables) (row : List UInt8) : ℕ → ℕ → Option (Option (List UInt8))
  | 0, _ => none
  | turns + 1, n => (s.tryName row n).or (assignFrom s row turns ((n + 1) % 2 ^ 32))

/-- `assign_name`, into a row; nothing when every number of 32 bits has had its turn, since the
    loop then goes on for ever.  The wanted name is written to the row when it is free; a suffix
    goes behind what is in the row. -/
def assigns (s : Tables) (row : Vector UInt8 kNameMax) (wanted : List UInt8) :
    Option (Option (List UInt8)) :=
  if (s.findVolume wanted).isNone then some (some wanted)
  else s.assignFrom (row.toList.take wanted.length) (2 ^ 32) 1

/-- The name `assign_name` leaves, if it leaves one. -/
def assignName (s : Tables) (row : Vector UInt8 kNameMax) (wanted : List UInt8) : Option (List UInt8) :=
  (s.assigns row wanted).join

/-- `Sys` -/
def kSys : List UInt8 := [83, 121, 115]

/-- The alias a volume with the boot flag gets: `Sys:`, for everyone, once. -/
def bootAlias (s : Tables) (volume : Volume) : Tables :=
  match s.arenaTake bindingBytes with
  | none => s
  | some s =>
    if (s.findBinding kAliasEveryone kSys).isSome then s
    else match s.memberTake with
    | none => s
    | some s => { s with bindings := ⟨kAliasEveryone, 0, 0, kSys, [⟨volume, [], 0⟩]⟩ :: s.bindings }

/-- `answer_register`; `arrived` and `moved` are the capability that came with the call
    and whether it could be moved to the next slot. -/
def answerRegister (s : Tables) (name : List UInt8) (flags : ℕ) (arrived moved : Bool)
    (row : Vector UInt8 kNameMax) : Reply × Tables :=
  if name.length > kNameMax ∨ name = [] ∨ arrived = false then (.nothing, s)
  else match s.arenaTake volumeBytes with
  | none => (.nothing, s)
  | some s =>
    if moved = false then (.nothing, s)
    else match s.assignName row name with
    | none => (.nothing, s)
    | some name =>
      let volume : Volume := ⟨name, flags, s.nextSlot, 0, []⟩
      let s := { s with volumes := volume :: s.volumes, nextSlot := s.nextSlot + 1 }
      (⟨[], name, none⟩, if flags &&& kFlagBoot ≠ 0 then s.bootAlias volume else s)

/-- A view that `mount` answers again: the same name, base and owner's index. -/
def sameView (existing : Volume) (owner : ℕ) (base : List UInt8) : Bool :=
  isUserBadge existing.owner && isUserBadge owner && userIndex existing.owner == userIndex owner &&
    existing.base == base

def answerMount (s : Tables) (badge : ℕ) (source view : List UInt8) (owner flags : ℕ)
    (row : Vector UInt8 kNameMax) : Reply × Tables :=
  if isUserBadge badge ∨ source.length > kPathMax ∨ source = [] ∨ view.length > kNameMax ∨ view = []
  then (.nothing, s)
  else match s.resolvePath badge source with
  | .none | .union _ _ => (.nothing, s)
  | .volume src base =>
    match (s.findVolume view).filter (sameView · owner base) with
    | some existing => (⟨[], existing.name, none⟩, s)
    | none =>
      match if base = [] then some s else s.arenaTake base.length with
      | none => (.nothing, s)
      | some s =>
        match s.arenaTake volumeBytes with
        | none => (.nothing, s)
        | some s =>
          match s.assignName row view with
          | none => (.nothing, s)
          | some name => (⟨[], name, none⟩,
              { s with volumes := ⟨name, flags, src.port, owner, base⟩ :: s.volumes })

/-! ## Binding -/

/-- A member's rest, without the base that its view puts in front again. -/
def stripBase (volume : Volume) (rest : List UInt8) : List UInt8 :=
  if volume.base ≠ [] ∧ volume.base <+: rest then
    let rest := rest.drop volume.base.length
    if rest.head? = some kSlash then rest.tail else rest
  else rest

/-- The checks of `answer_bind`, and the member a bind makes: its path resolved for the binder. -/
def memberFor (s : Tables) (badge flags : ℕ) (name target : List UInt8) : Option Member :=
  if name.length > kNameMax ∨ name = [] ∨ target.length > kPathMax ∨ target = [] ∨ kColon ∈ name ∨
    (s.findVolume name).isSome then none
  else match s.resolvePath badge target with
  | .volume volume rest => some ⟨volume, stripBase volume rest, flags⟩
  | .none | .union _ _ => none

/-- The list a second bind of a name leaves, as its flags say. -/
def growMembers (members : List Member) (member : Member) : List Member :=
  if member.flags &&& kBindAppend ≠ 0 then members ++ [member]
  else if member.flags &&& kBindPrepend ≠ 0 then member :: members
  else [member]

/-- The rows a second bind lets go. -/
def droppedMembers (members : List Member) (member : Member) : ℕ :=
  if member.flags &&& (kBindAppend ||| kBindPrepend) ≠ 0 then 0 else members.length

def numbered (binding : Binding) (member : Member) : Bool :=
  decide (2 ≤ (growMembers binding.members member).length ∧ binding.unionId = 0)

/-- The binding after a second bind of its name; `id` is the next union's. -/
def grown (id : ℕ) (binding : Binding) (member : Member) : Binding :=
  { binding with
    flags := member.flags
    members := growMembers binding.members member
    unionId := if numbered binding member then id else binding.unionId }

def growBinding (s : Tables) (i : ℕ) (binding : Binding) (member : Member) : Tables :=
  { s with
    bindings := s.bindings.set i (grown s.unionNext binding member)
    unionNext := if numbered binding member then (s.unionNext + 1) % 2 ^ 32 else s.unionNext
    memberFree := s.memberFree + droppedMembers binding.members member }

def freshBinding (s : Tables) (badge : ℕ) (name : List UInt8) (member : Member) : Reply × Tables :=
  match s.bindingTake with
  | none => (.nothing, { s with memberFree := s.memberFree + 1 })
  | some s => (⟨[1], [], none⟩,
      { s with bindings := ⟨badge, member.flags, 0, name, [member]⟩ :: s.bindings })

/-- The binding that answers a name for a caller, and its place. -/
def bindingRow (s : Tables) (badge : ℕ) (name : List UInt8) : Option (ℕ × Binding) :=
  (s.findBinding badge name).bind fun i => (s.bindings[i]?).map (i, ·)

/-- `answer_bind`, with the badge it binds for. -/
def answerBind (s : Tables) (badge flags : ℕ) (name target : List UInt8) : Reply × Tables :=
  match s.memberFor badge flags name target with
  | none => (.nothing, s)
  | some member =>
    match s.memberTake with
    | none => (.nothing, s)
    | some s =>
      match s.bindingRow badge name with
      | some (i, binding) => (⟨[1], [], none⟩, s.growBinding i binding member)
      | none => s.freshBinding badge name member

def dropBindings (s : Tables) (kept dropped : List Binding) : Tables :=
  { s with
    bindings := kept
    bindingFree := s.bindingFree + dropped.length
    memberFree := s.memberFree + (dropped.map fun b => b.members.length).sum }

/-- `answer_unbind`: every binding of a badge. -/
def answerUnbind (s : Tables) (badge : ℕ) : Reply × Tables :=
  let (dropped, kept) := s.bindings.partition fun b => b.badge = badge
  (⟨[dropped.length], [], none⟩, s.dropBindings kept dropped)

/-- `answer_unbind_name`: the caller's first binding of a name. -/
def answerUnbindName (s : Tables) (badge : ℕ) (name : List UInt8) : Reply × Tables :=
  let own : Binding → Bool := fun b => b.badge == badge && sameVolume b.name name
  if name.length > kNameMax ∨ name = [] then (⟨[0], [], none⟩, s)
  else match s.bindings.find? own with
  | none => (⟨[0], [], none⟩, s)
  | some b => (⟨[1], [], none⟩, s.dropBindings (s.bindings.eraseP own) [b])

/-! ## Resolving -/

/-- `answer_resolve`; `minted` is whether the kernel made the copy. -/
def answerResolve (s : Tables) (badge : ℕ) (path : List UInt8) (minted : Bool) : Reply × Tables :=
  if path.length > kPathMax then (.nothing, s)
  else match s.resolvePath badge path with
  | .none => (.nothing, s)
  | .union binding rest =>
    if minted then (⟨[], rest, some (.union (unionBadge binding.unionId))⟩, s) else (.nothing, s)
  | .volume volume rest =>
    if minted then (⟨[], rest, some (.volume volume badge)⟩, s) else (.nothing, s)

end Tables

/-- A call of the namespace. -/
inductive Call where
  | register (name : List UInt8) (flags : ℕ) (arrived moved : Bool) (row : Vector UInt8 kNameMax)
  | resolve (path : List UInt8) (minted : Bool)
  | mount (source view : List UInt8) (owner flags : ℕ) (row : Vector UInt8 kNameMax)
  | bind (badge flags : ℕ) (name target : List UInt8)
  | bindSelf (flags : ℕ) (name target : List UInt8)
  | unbind (badge : ℕ)
  | unbindName (name : List UInt8)
  /-- The methods that only answer, and a message that does not unpack. -/
  | look

/-- The namespace's half of the loop in `main`. -/
def Tables.serve (s : Tables) (badge : ℕ) : Call → Reply × Tables
  | .register name flags arrived moved row => s.answerRegister name flags arrived moved row
  | .resolve path minted => s.answerResolve badge path minted
  | .mount source view owner flags row => s.answerMount badge source view owner flags row
  | .bind for_ flags name target => s.answerBind for_ flags name target
  | .bindSelf flags name target => s.answerBind badge flags name target
  | .unbind for_ => s.answerUnbind for_
  | .unbindName name => s.answerUnbindName badge name
  | .look => (.nothing, s)

end Aegir.Vfs
