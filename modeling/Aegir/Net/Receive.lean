/-
  A socket's receive path, as the serve loop and the tcpip thread share it.

  Allocations and mappings succeed, no timeout is asked for, and one receive is outstanding at most:
  a call is made when the one before was answered.  Calls on other sockets are no steps of this one.
-/
import Mathlib

namespace Aegir.Net

def kMaxPayloadWords : ℕ := 108

def kEnvelopeBytes : ℕ := kMaxPayloadWords * 8

inductive Kind where
  | raw
  | udp
  | stream
  deriving DecidableEq

/-- What a held reply waits for. -/
inductive HoldKind where
  | none
  | recv
  deriving DecidableEq

/-- A piece that arrived: a datagram, or what a segment was split into; the peer's close has no bytes. -/
structure Datagram where
  source : ℕ
  sourcePort : ℕ
  payload : List ℕ
  fits : payload.length ≤ kEnvelopeBytes
  deriving DecidableEq

def Datagram.length (d : Datagram) : ℕ := d.payload.length

/-! ## Calls and answers -/

inductive Method where
  | recv
  | recvFrom
  | recvWindow (capacity : ℕ) (capacity_pos : 1 ≤ capacity) (capacity_le : capacity ≤ 4096)

instance : DecidableEq Method
  | .recv, .recv => isTrue rfl
  | .recvFrom, .recvFrom => isTrue rfl
  | .recvWindow capacity _ _, .recvWindow capacity' _ _ =>
    decidable_of_iff (capacity = capacity') (by rw [Method.recvWindow.injEq])
  | .recv, .recvFrom => isFalse (by simp)
  | .recv, .recvWindow _ _ _ => isFalse (by simp)
  | .recvFrom, .recv => isFalse (by simp)
  | .recvFrom, .recvWindow _ _ _ => isFalse (by simp)
  | .recvWindow _ _ _, .recv => isFalse (by simp)
  | .recvWindow _ _ _, .recvFrom => isFalse (by simp)

structure Call where
  serial : ℕ
  method : Method
  deriving DecidableEq

/-- What answers a call: the bytes now in its window, or an envelope's first words and its bytes. -/
inductive Message where
  | window (bytes : List ℕ)
  | envelope (head : List ℕ) (bytes : List ℕ)
  deriving DecidableEq

structure Answer where
  call : Call
  message : Message
  deriving DecidableEq

/-- The envelope of one piece; a datagram's carries its peer's port. -/
def envelope (withPort : Bool) (d : Datagram) : Message :=
  .envelope (if withPort then [d.source, d.sourcePort, d.length] else [d.source, d.length]) d.payload

/-- The payload the caller reads: a `recv` has the length in the second word, a `recvfrom` in the third. -/
def Answer.payload (answer : Answer) : Option (List ℕ) :=
  match answer.call.method, answer.message with
  | .recv, .envelope [_, length] bytes => some (bytes.take length)
  | .recvFrom, .envelope [_, _, length] bytes => some (bytes.take length)
  | .recvWindow _ _ _, .window bytes => some bytes
  | _, _ => none

/-! ## The two parties -/

/-- `deliver`, with one piece. -/
inductive Stack where
  | idle
  /-- The kind is about to be loaded, -/
  | check (d : Datagram)
  /-- the held reply to be exchanged, -/
  | take (d : Datagram)
  /-- the held window to be exchanged, -/
  | window (d : Datagram) (call : Call)
  /-- the answer to be sent, -/
  | send (d : Datagram) (call : Call) (window : Option Call)
  /-- or the piece to be queued. -/
  | push (d : Datagram)
  deriving DecidableEq

/-- What a hold stores, in order. -/
inductive Store where
  | capacity
  | window
  | kind
  | held
  deriving DecidableEq

inductive Server where
  | waiting
  /-- The queue is looked at, with what was taken so far. -/
  | firstLook (call : Call) (got : List Datagram)
  | answering (call : Call) (got : List Datagram)
  /-- The caller's reply is saved, and these stores are left. -/
  | storing (call : Call) (todo : List Store)
  | secondLook (call : Call) (got : List Datagram)
  | takeBack (call : Call) (got : List Datagram)
  /-- The reply is given on the port, where it was saved from. -/
  | lateReply (call : Call) (got : List Datagram)
  deriving DecidableEq

structure Socket where
  kind : Kind
  held : Option Call
  heldKind : HoldKind
  heldWindow : Option Call
  heldCapacity : ℕ
  queue : List Datagram
  stack : Stack
  server : Server
  /-- The receive that is not answered yet. -/
  outstanding : Option Call
  /-- How many receives were called. -/
  calls : ℕ
  arrived : List Datagram
  answers : List Answer
  deriving DecidableEq

def Socket.start (kind : Kind) : Socket where
  kind := kind
  held := none
  heldKind := .none
  heldWindow := none
  heldCapacity := 0
  queue := []
  stack := .idle
  server := .waiting
  outstanding := none
  calls := 0
  arrived := []
  answers := []

inductive Act where
  /-- lwIP hands over a piece. -/
  | arrive (d : Datagram)
  | stack
  | call (method : Method)
  | serve
  deriving DecidableEq

namespace Socket

variable (s : Socket)

def answer (call : Call) (message : Message) : Socket :=
  { s with answers := s.answers ++ [⟨call, message⟩], outstanding := none }

/-! ## The tcpip thread -/

def stackStep : Option Socket :=
  match s.stack with
  | .idle => none
  | .check d => some { s with stack := if s.heldKind = .recv then .take d else .push d }
  | .take d =>
    match s.held with
    | some call => some { s with held := none, stack := .window d call }
    | none => some { s with stack := .push d }
  | .window d call => some { s with heldWindow := none, stack := .send d call s.heldWindow }
  | .send d call (some _) => some { s.answer call (.window (d.payload.take s.heldCapacity)) with stack := .idle }
  | .send d call none => some { s.answer call (envelope (s.kind = .udp) d) with stack := .idle }
  | .push d => some { s with queue := s.queue ++ [d], stack := .idle }

/-! ## The serve loop -/

def bytes (got : List Datagram) : List ℕ := got.flatMap Datagram.payload

/-- The piece a look takes, and what it leaves: `queue_pop`, or for a window `queue_pop_fitting`. -/
def pop (method : Method) (got : List Datagram) : Option (Datagram × List Datagram) :=
  match s.queue with
  | [] => none
  | d :: rest =>
    match method with
    | .recvWindow capacity _ _ => if d.length ≤ capacity - (bytes got).length then some (d, rest) else none
    | _ => if got = [] then some (d, rest) else none

/-- Whether what a look took answers the call: a window's has to have bytes. -/
def ready (method : Method) (got : List Datagram) : Prop :=
  match method with
  | .recvWindow _ _ _ => bytes got ≠ []
  | _ => got ≠ []

instance (method : Method) (got : List Datagram) : Decidable (ready method got) := by
  unfold ready
  split <;> infer_instance

def stores : Method → List Store
  | .recvWindow _ _ _ => [.capacity, .window, .kind, .held]
  | _ => [.kind, .held]

/-- What answers a call from the queue. -/
def message (method : Method) (got : List Datagram) : Message :=
  match method, got with
  | .recvWindow _ _ _, got => .window (bytes got)
  | method, d :: _ => envelope (method = .recvFrom) d
  | _, [] => .envelope [] []

def store (call : Call) : Store → Socket
  | .capacity => { s with heldCapacity := match call.method with | .recvWindow capacity _ _ => capacity | _ => 0 }
  | .window => { s with heldWindow := some call }
  | .kind => { s with heldKind := .recv }
  | .held => { s with held := some call }

def serveStep : Option Socket :=
  match s.server with
  | .waiting => none
  | .firstLook call got =>
    match s.pop call.method got with
    | some (d, rest) => some { s with queue := rest, server := .firstLook call (got ++ [d]) }
    | none => some { s with server := if ready call.method got then .answering call got else .storing call (stores call.method) }
  | .answering call got => some { s.answer call (message call.method got) with server := .waiting }
  | .storing call (first :: todo) => some { s.store call first with server := .storing call todo }
  | .storing call [] => some { s with server := .secondLook call [] }
  | .secondLook call got =>
    match s.pop call.method got with
    | some (d, rest) => some { s with queue := rest, server := .secondLook call (got ++ [d]) }
    | none => some { s with server := if ready call.method got then .takeBack call got else .waiting }
  | .takeBack call got => some { s with held := none, server := .lateReply call got }
  -- the reply cap is in the slot it was saved to, and the port has none to reply with
  | .lateReply call _ =>
    some { s with heldWindow := if call.method = .recv ∨ call.method = .recvFrom then s.heldWindow else none, server := .waiting }

def step : Act → Option Socket
  | .arrive d => if s.stack = .idle then some { s with stack := .check d, arrived := s.arrived ++ [d] } else none
  | .stack => s.stackStep
  | .call method =>
    if s.server = .waiting ∧ s.outstanding = none then
      some { s with server := .firstLook ⟨s.calls, method⟩ [], outstanding := some ⟨s.calls, method⟩, calls := s.calls + 1 }
    else none
  | .serve => s.serveStep

end Socket

/-- The states of the runs whose every step meets `P`. -/
inductive Reaches (kind : Kind) (P : Socket → Act → Prop) : Socket → Prop
  | start : Reaches kind P (.start kind)
  | step {s s' : Socket} {a : Act} (hreach : Reaches kind P s) (hmeets : P s a) (hstep : s.step a = some s') : Reaches kind P s'

/-- Steps one after another, while each meets `P`. -/
def run (P : Socket → Act → Prop) [∀ s a, Decidable (P s a)] : List Act → Socket → Option Socket
  | [], s => some s
  | a :: acts, s => if P s a then (s.step a).bind (run P acts) else none

theorem Reaches.run {kind : Kind} {P : Socket → Act → Prop} [∀ s a, Decidable (P s a)] {s s' : Socket} {acts : List Act}
    (hreach : Reaches kind P s) (hrun : run P acts s = some s') : Reaches kind P s' := by
  induction acts generalizing s with
  | nil =>
    obtain rfl := Option.some.inj hrun
    exact hreach
  | cons a acts ih =>
    simp only [Net.run] at hrun
    split at hrun
    next hmeets =>
      obtain ⟨s₁, hstep, hrest⟩ := Option.bind_eq_some_iff.1 hrun
      exact ih (.step hreach hmeets hstep) hrest
    next => cases hrun

end Aegir.Net
