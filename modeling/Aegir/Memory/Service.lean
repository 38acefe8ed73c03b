/-
  The memory service (aegir-memory, `main.cc`): chunks of a pool, and what each user may hold.

  A chunk is an untyped capability the service keeps a record of, for the badge that asked.  The
  limits come from the user database and the limits file (aegir-limits, `limits.cc`), which are
  read on a user's allocation until the read succeeds; from then on each user's bytes are
  counted and held against the deny limit.

  The rules come as the file states them, in its order.  What a call meets outside comes with
  it: what reading the configuration gives, and the capability the pool carves.
-/
import Aegir.Ipc.Badge

namespace Aegir.Memory

open Aegir.Ipc

def kMethodAlloc : ℕ := 1
def kMethodRelease : ℕ := 2
def kChunkBits : ℕ := 21
def kMaxChunks : ℕ := 2048

/-! ## Limits -/

inductive Action where
  | log
  | deny
deriving DecidableEq

inductive Subject where
  | default
  | klass (name : List UInt8)
  | user (name : List UInt8)
deriving DecidableEq

/-- A key of the limits file: what a subject states for an action. -/
structure Rule where
  subject : Subject
  action : Action
  amount : ℕ
deriving DecidableEq

structure Amount where
  set : Bool
  bytes : ℕ
deriving DecidableEq

def kPrecedenceUser : ℕ := 3
def kPrecedenceClass : ℕ := 2
def kPrecedenceDefault : ℕ := 1

/-- How specific a rule's subject is to a user; zero when it is not theirs. -/
def score (user klass : List UInt8) : Subject → ℕ
  | .user name => if name = user then kPrecedenceUser else 0
  | .klass name => if name = klass then kPrecedenceClass else 0
  | .default => kPrecedenceDefault

/-- The visitor of `Limits::resolve`. -/
def consider (user klass : List UInt8) (action : Action) (best : ℕ × Amount) (r : Rule) : ℕ × Amount :=
  if r.action ≠ action then best
  else if best.1 < score user klass r.subject then (score user klass r.subject, ⟨true, r.amount⟩)
  else best

def resolve (rules : List Rule) (user klass : List UInt8) (action : Action) : Amount :=
  (rules.foldl (consider user klass action) (0, ⟨false, 0⟩)).2

/-- `crosses`, in 64 bits. -/
def crosses (amount : Amount) (committed want : ℕ) : Bool :=
  amount.set && (decide (2 ^ 64 - 1 - committed < want) || decide (amount.bytes < (committed + want) % 2 ^ 64))

/-! ## The service -/

structure Chunk where
  cap : ℕ
  owner : ℕ
  bits : ℕ
deriving DecidableEq

structure UserRule where
  log : Amount
  deny : Amount
deriving DecidableEq

/-- A row of the user database. -/
structure User where
  name : List UInt8
  klass : List UInt8
deriving DecidableEq

/-- What reading the configuration gives, and whether the arena has room for the two tables. -/
structure Config where
  users : List User
  rules : List Rule
  rulesFit : Bool
  committedFit : Bool
deriving DecidableEq

structure Service where
  poolBits : ℕ
  chunks : List Chunk
  rules : Option (List UserRule)
  committed : Option (List ℕ)
  userCount : ℕ
deriving DecidableEq

/-- A call, with what it meets outside the service: the configuration, when it can be read, and
    the capability that is carved for it with its address, zero when none is. -/
structure Received where
  badge : ℕ
  method : ℕ
  words : List ℕ
  config : Option Config
  carved : ℕ
  physical : ℕ
deriving DecidableEq

inductive Answer where
  | words (words : List ℕ)
  | chunk (bits physical cap : ℕ) (logged : Bool)
deriving DecidableEq

namespace Service

def chunk (s : Service) (i : ℕ) : Chunk := s.chunks[i]?.getD ⟨0, 0, 0⟩

def chunkFree (s : Service) : ℕ := s.chunks.findIdx fun c => decide (c.owner = 0 ∧ c.cap = 0)

/-- The bytes of a user's count, from a record that is given back. -/
def uncount (s : Service) (owner bits : ℕ) : Service :=
  match s.committed with
  | none => s
  | some committed =>
    if isUserBadge owner ∧ userIndex owner < s.userCount then
      { s with committed := some (committed.modify (userIndex owner) fun c => if 2 ^ bits < c then c - 2 ^ bits else 0) }
    else s

def releaseChunk (s : Service) (i : ℕ) : Service :=
  let c := s.chunk i
  { s with chunks := s.chunks.set i ⟨0, 0, 0⟩ }.uncount c.owner c.bits

/-- One turn of the loop of `release_owner`. -/
def releaseAt (owner : ℕ) (r : ℕ × Service) (i : ℕ) : ℕ × Service :=
  if (r.2.chunk i).cap ≠ 0 ∧ (r.2.chunk i).owner = owner then (r.1 + 1, r.2.releaseChunk i) else r

def releaseOwner (s : Service) (owner : ℕ) : ℕ × Service :=
  (List.range kMaxChunks).foldl (releaseAt owner) (0, s)

/-- `load_config` past its reads, on a configuration they gave. -/
def loadConfig (s : Service) (c : Config) : Service :=
  if c.users = [] then s
  else if c.rulesFit && c.committedFit then
    { s with
      rules := some (c.users.map fun u => ⟨resolve c.rules u.name u.klass .log, resolve c.rules u.name u.klass .deny⟩)
      committed := some (c.users.map fun _ => 0)
      userCount := c.users.length }
  else
    { s with
      rules := if c.rulesFit then some [] else none
      committed := if c.committedFit then some [] else none }

/-- The bytes counted for a user, and what the user may hold. -/
def committedOf (s : Service) (user : ℕ) : ℕ := (s.committed.bind (·[user]?)).getD 0
def ruleOf (s : Service) (user : ℕ) : UserRule := (s.rules.bind (·[user]?)).getD ⟨⟨false, 0⟩, ⟨false, 0⟩⟩

def limited (s : Service) (badge : ℕ) : Bool :=
  isUserBadge badge && (decide (userIndex badge < s.userCount) && s.rules.isSome)

def wantedBits (m : Received) : ℕ := if m.words.headD 0 ≠ 0 then m.words.headD 0 else kChunkBits

def record (s : Service) (m : Received) : Service :=
  { s with
    chunks := s.chunks.set s.chunkFree ⟨m.carved, m.badge, wantedBits m⟩
    committed := if s.limited m.badge then
        s.committed.map (·.modify (userIndex m.badge) fun c => (c + 2 ^ wantedBits m) % 2 ^ 64)
      else s.committed }

def answerAlloc (s : Service) (m : Received) : Answer × Service :=
  let bits := wantedBits m
  let user := userIndex m.badge
  if bits = 0 ∨ s.poolBits < bits then (.words [], s)
  else if s.limited m.badge && crosses (s.ruleOf user).deny (s.committedOf user) (2 ^ bits) then (.words [], s)
  else if s.chunkFree = kMaxChunks then (.words [], s)
  else if m.carved = 0 then (.words [], s)
  else
    (.chunk bits m.physical m.carved
      (s.limited m.badge && crosses (s.ruleOf user).log (s.committedOf user) (2 ^ bits)), s.record m)

def ownerOf (m : Received) : ℕ := if m.words.headD 0 ≠ 0 then m.words.headD 0 else m.badge

def answerRelease (s : Service) (m : Received) : Answer × Service :=
  let r := s.releaseOwner (ownerOf m)
  (.words [r.1], r.2)

def loads (s : Service) (m : Received) : Option Config :=
  if s.rules = none ∧ m.method = kMethodAlloc ∧ isUserBadge m.badge then m.config else none

def ready (s : Service) (m : Received) : Service := ((s.loads m).map s.loadConfig).getD s

/-- One turn of the serve loop. -/
def step (s : Service) (m : Received) : Answer × Service :=
  let s := s.ready m
  if m.method = kMethodAlloc then s.answerAlloc m
  else if m.method = kMethodRelease then s.answerRelease m
  else (.words [], s)

def run : Service → List Received → Service
  | s, [] => s
  | s, m :: ms => run (s.step m).2 ms

end Service

/-- What the service is started with: a pool, its size in bits no more than an untyped has. -/
structure Boot where
  poolBits : ℕ
  poolBits_le : poolBits ≤ 47

def Boot.start (b : Boot) : Service := ⟨b.poolBits, List.replicate kMaxChunks ⟨0, 0, 0⟩, none, none, 0⟩

end Aegir.Memory
