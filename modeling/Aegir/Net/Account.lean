/-
  What a socket received, answered and still has.
-/
import Aegir.Net.Receive

namespace Aegir.Net

open Socket

variable {kind : Kind} {s s' : Socket} {a : Act} {d : Datagram} {call : Call} {method : Method} {got : List Datagram}
  {payloads : List (List ℕ)} {pieces : List Datagram}

/-! ## What is promised -/

/-- The payloads answered, and the pieces they are. -/
structure InOrder (s : Socket) (payloads : List (List ℕ)) (pieces : List Datagram) : Prop where
  arrived : pieces <+: s.arrived
  stream : payloads.flatten = bytes pieces
  datagrams : s.kind ≠ .stream → payloads = pieces.map Datagram.payload
  /-- An end is answered by itself, after every byte before it, -/
  ended : ∀ before d after, pieces = before ++ d :: after → d.payload = [] →
    ∃ front back, payloads = front ++ [] :: back ∧ front.flatten = bytes before
  /-- and nothing else is answered so. -/
  zero : ∀ front back, payloads = front ++ [] :: back →
    ∃ before d after, pieces = before ++ d :: after ∧ d.payload = [] ∧ front.flatten = bytes before
  /-- At rest, what is not answered is queued. -/
  kept : s.server = .waiting → s.stack = .idle → pieces ++ s.queue = s.arrived

structure Delivered (s : Socket) : Prop where
  answered : ∃ payloads pieces, s.answers.map Answer.payload = payloads.map some ∧ InOrder s payloads pieces
  /-- No receive is held over a queue. -/
  rest : s.server = .waiting → s.held ≠ none → s.queue = []

/-! ## What a step has to meet -/

def Stack.Pushes : Stack → Bool
  | .push _ => true
  | _ => false

def Quiet (s : Socket) : Prop := s.queue = [] ∧ s.stack.Pushes = false

instance : Decidable (Quiet s) := inferInstanceAs (Decidable (_ ∧ _))

/-- What a look may take: a window no end, and of datagrams one. -/
def Takes (s : Socket) (method : Method) (got : List Datagram) : Prop :=
  match method, s.pop method got with
  | .recvWindow _ _ _, some (d, _) => d.payload ≠ [] ∧ (got = [] ∨ s.kind = .stream)
  | _, _ => True

instance : ∀ method, Decidable (Takes s method got)
  | .recvWindow _ _ _ => by
    unfold Takes
    rcases s.pop _ got with _ | ⟨d, _⟩ <;> dsimp only <;> infer_instance
  | .recv => inferInstanceAs (Decidable True)
  | .recvFrom => inferInstanceAs (Decidable True)

def Steady (s : Socket) : Act → Prop
  | .serve =>
    match s.server with
    | .firstLook call got => Takes s call.method got
    | .storing _ [.held] => Quiet s
    | .secondLook call got => s.pop call.method got = none
    | _ => True
  | .stack =>
    match s.stack with
    | .send d _ (some _) => d.length ≤ s.heldCapacity
    | .send _ call none => call.method = .recvFrom ↔ s.kind = .udp
    | _ => True
  | _ => True

instance : Decidable (Steady s a) := by
  unfold Steady
  split
  · split <;> infer_instance
  · split <;> infer_instance
  · exact instDecidableTrue

/-! ## Pieces and payloads -/

/-- What one answer may carry: a piece by itself, or pieces of a stream, with bytes each. -/
def Together (kind : Kind) (got : List Datagram) : Prop :=
  (∃ d, got = [d]) ∨ kind = .stream ∧ got ≠ [] ∧ ∀ d ∈ got, d.payload ≠ []

/-- The payloads are the pieces, one after another. -/
inductive Carries (kind : Kind) : List (List ℕ) → List Datagram → Prop
  | nil : Carries kind [] []
  | cons {got : List Datagram} {payloads : List (List ℕ)} {pieces : List Datagram} (htogether : Together kind got)
      (hcarries : Carries kind payloads pieces) : Carries kind (bytes got :: payloads) (got ++ pieces)

@[simp] theorem bytes_nil : bytes [] = [] := rfl

@[simp] theorem bytes_singleton (d : Datagram) : bytes [d] = d.payload := by simp [bytes]

@[simp] theorem bytes_append (got got' : List Datagram) : bytes (got ++ got') = bytes got ++ bytes got' := by
  simp [bytes]

theorem bytes_cons (d : Datagram) (got : List Datagram) : bytes (d :: got) = d.payload ++ bytes got := by simp [bytes]

theorem bytes_ne_nil (hne : got ≠ []) (h : ∀ d ∈ got, d.payload ≠ []) : bytes got ≠ [] := by
  cases got with
  | nil => exact absurd rfl hne
  | cons d got => simp [bytes_cons, h d (List.mem_cons_self ..)]

namespace Carries

theorem append_one (hcarries : Carries kind payloads pieces) (htogether : Together kind got) :
    Carries kind (payloads ++ [bytes got]) (pieces ++ got) := by
  induction hcarries with
  | nil => simpa using Carries.cons htogether .nil
  | cons hfirst _ ih => simpa using Carries.cons hfirst ih

theorem stream (hcarries : Carries kind payloads pieces) : payloads.flatten = bytes pieces := by
  induction hcarries with
  | nil => rfl
  | cons _ _ ih => simp [ih]

theorem datagrams (hcarries : Carries kind payloads pieces) (hkind : kind ≠ .stream) :
    payloads = pieces.map Datagram.payload := by
  induction hcarries with
  | nil => rfl
  | cons htogether _ ih =>
    obtain ⟨d, rfl⟩ | ⟨hstream, -⟩ := htogether
    · simp [ih]
    · exact absurd hstream hkind

theorem ended (hcarries : Carries kind payloads pieces) {before after : List Datagram} (h : pieces = before ++ d :: after)
    (hd : d.payload = []) : ∃ front back, payloads = front ++ [] :: back ∧ front.flatten = bytes before := by
  induction hcarries generalizing before with
  | nil => simp at h
  | @cons got payloads pieces htogether _ ih =>
    -- the end is in the first answer, or in those after it
    obtain ⟨t, hgot, hafter⟩ | ⟨t, hbefore, hpieces⟩ := List.append_eq_append_iff.1 h
    · obtain ⟨front, back, rfl, hfront⟩ := ih hafter
      exact ⟨bytes got :: front, back, rfl, by simp [hgot, hfront]⟩
    · cases t with
      | nil =>
        obtain ⟨front, back, rfl, hfront⟩ := ih (show pieces = [] ++ d :: after by simpa using hpieces.symm)
        refine ⟨bytes got :: front, back, rfl, ?_⟩
        simp only [List.flatten_cons, hfront, hbefore, List.append_nil, bytes_nil]
      | cons d' t =>
        obtain ⟨rfl, hpieces⟩ := List.cons.inj hpieces
        obtain ⟨d', rfl⟩ | ⟨-, -, hbytes⟩ := htogether
        · obtain ⟨rfl, hd'⟩ : before = [] ∧ d' = d := by
            cases before with
            | nil => simp_all
            | cons _ before => simp at hbefore
          exact ⟨[], payloads, by simp [hd', hd], rfl⟩
        · exact absurd hd (hbytes _ (by simp [hbefore]))

theorem zero (hcarries : Carries kind payloads pieces) {front back : List (List ℕ)} (h : payloads = front ++ [] :: back) :
    ∃ before d after, pieces = before ++ d :: after ∧ d.payload = [] ∧ front.flatten = bytes before := by
  induction hcarries generalizing front with
  | nil => simp at h
  | @cons got payloads pieces htogether _ ih =>
    cases front with
    | nil =>
      obtain ⟨hgot, -⟩ := List.cons.inj h
      obtain ⟨d, rfl⟩ | ⟨-, hne, hbytes⟩ := htogether
      · exact ⟨[], d, pieces, rfl, by simpa using hgot, rfl⟩
      · exact absurd hgot (bytes_ne_nil hne hbytes)
    | cons first front =>
      obtain ⟨rfl, htail⟩ := List.cons.inj h
      obtain ⟨before, d, after, rfl, hd, hfront⟩ := ih htail
      exact ⟨got ++ before, d, after, by simp, hd, by simp [hfront]⟩

end Carries

/-! ## The accounts -/

namespace Socket

variable (s : Socket)

/-- What a look took, and the call is not answered with yet. -/
def inHand : List Datagram :=
  match s.server with
  | .firstLook _ got | .answering _ got => got
  | _ => []

/-- The piece `deliver` has. -/
def underWay : List Datagram :=
  match s.stack with
  | .idle => []
  | .check d | .take d | .window d _ | .send d _ _ | .push d => [d]

end Socket

structure Account (s : Socket) (payloads : List (List ℕ)) (pieces : List Datagram) : Prop where
  read : s.answers.map Answer.payload = payloads.map some
  carries : Carries s.kind payloads pieces
  whole : pieces ++ (s.inHand ++ (s.queue ++ s.underWay)) = s.arrived

theorem Account.move (haccount : Account s payloads pieces) (hkind : s'.kind = s.kind) (hanswers : s'.answers = s.answers)
    (harrived : s'.arrived = s.arrived)
    (hpieces : s'.inHand ++ (s'.queue ++ s'.underWay) = s.inHand ++ (s.queue ++ s.underWay)) : Account s' payloads pieces :=
  ⟨hanswers ▸ haccount.read, hkind ▸ haccount.carries, by rw [hpieces, harrived]; exact haccount.whole⟩

theorem Account.answered (haccount : Account s payloads pieces) {message : Message} (htogether : Together s.kind got)
    (hmessage : Answer.payload ⟨call, message⟩ = some (bytes got)) (hkind : s'.kind = s.kind)
    (hanswers : s'.answers = s.answers ++ [⟨call, message⟩]) (harrived : s'.arrived = s.arrived)
    (hpieces : s.inHand ++ (s.queue ++ s.underWay) = got ++ (s'.inHand ++ (s'.queue ++ s'.underWay))) :
    Account s' (payloads ++ [bytes got]) (pieces ++ got) where
  read := by simp [hanswers, haccount.read, hmessage]
  carries := hkind ▸ haccount.carries.append_one htogether
  whole := by rw [harrived, ← haccount.whole, hpieces, List.append_assoc]

/-! ## Where the receive outstanding is -/

def Windowed (s : Socket) (call : Call) : Prop :=
  match call.method with
  | .recvWindow capacity _ _ => s.heldWindow = some call ∧ s.heldCapacity = capacity
  | _ => s.heldWindow = none

/-- The window `deliver` took with a reply. -/
def Sends (s : Socket) (call : Call) (window : Option Call) : Prop :=
  match call.method with
  | .recvWindow capacity _ _ => window = some call ∧ s.heldCapacity = capacity
  | _ => window = none

/-- What is stored of a hold. -/
inductive Storing (s : Socket) (call : Call) : List Store → Prop
  | capacity {capacity : ℕ} {pos : 1 ≤ capacity} {le : capacity ≤ 4096} (hmethod : call.method = .recvWindow capacity pos le)
      (hwindow : s.heldWindow = none) : Storing s call [.capacity, .window, .kind, .held]
  | window {capacity : ℕ} {pos : 1 ≤ capacity} {le : capacity ≤ 4096} (hmethod : call.method = .recvWindow capacity pos le)
      (hwindow : s.heldWindow = none) (hcapacity : s.heldCapacity = capacity) : Storing s call [.window, .kind, .held]
  | kind (hwindowed : Windowed s call) : Storing s call [.kind, .held]
  | held (hwindowed : Windowed s call) (hkind : s.heldKind = .recv) : Storing s call [.held]

def Taken (kind : Kind) : Method → List Datagram → Prop
  | .recvWindow _ _ _, got => got = [] ∨ Together kind got ∧ bytes got ≠ []
  | _, got => got = [] ∨ ∃ d, got = [d]

/-- The serve loop has no reply in hand, or the one outstanding. -/
def Free (s : Socket) : Prop :=
  match s.server with
  | .waiting | .storing _ [] | .secondLook _ [] => s.outstanding = none ∧ s.heldWindow = none
  | .firstLook call got => s.outstanding = some call ∧ s.heldWindow = none ∧ Taken s.kind call.method got
  | .answering call got => s.outstanding = some call ∧ s.heldWindow = none ∧ Taken s.kind call.method got ∧ got ≠ []
  | .storing call todo => s.outstanding = some call ∧ Storing s call todo
  | _ => False

def Server.Gave (call : Call) (server : Server) : Prop :=
  server = .waiting ∨ server = .storing call [] ∨ server = .secondLook call []

inductive Stage (s : Socket) : Prop
  | free (hheld : s.held = none) (hstack : ∀ d call, s.stack ≠ .window d call)
      (hsend : ∀ d call window, s.stack ≠ .send d call window) (hfree : Free s)
  | held (call : Call) (hheld : s.held = some call) (houtstanding : s.outstanding = some call) (hserver : s.server.Gave call)
      (hqueue : s.queue = []) (hkind : s.heldKind = .recv) (hwindowed : Windowed s call)
      (hstack : s.stack = .idle ∨ (∃ d, s.stack = .check d) ∨ ∃ d, s.stack = .take d)
  | window (d : Datagram) (call : Call) (hheld : s.held = none) (houtstanding : s.outstanding = some call)
      (hserver : s.server.Gave call) (hqueue : s.queue = []) (hwindowed : Windowed s call) (hstack : s.stack = .window d call)
  | send (d : Datagram) (call : Call) (window : Option Call) (hheld : s.held = none) (houtstanding : s.outstanding = some call)
      (hserver : s.server.Gave call) (hqueue : s.queue = []) (hwindow : s.heldWindow = none) (hsends : Sends s call window)
      (hstack : s.stack = .send d call window)

structure Inv (s : Socket) (payloads : List (List ℕ)) (pieces : List Datagram) : Prop where
  account : Account s payloads pieces
  stage : Stage s

theorem Inv.start (kind : Kind) : Inv (.start kind) [] [] :=
  ⟨⟨rfl, .nil, rfl⟩, .free rfl (fun _ _ h => nomatch h) (fun _ _ _ h => nomatch h) ⟨rfl, rfl⟩⟩

theorem Inv.delivered (hinv : Inv s payloads pieces) : Delivered s where
  answered := by
    obtain ⟨haccount, -⟩ := hinv
    refine ⟨payloads, pieces, haccount.read, ?_, haccount.carries.stream, haccount.carries.datagrams,
      fun _ _ _ => haccount.carries.ended, fun _ _ => haccount.carries.zero, ?_⟩
    · exact ⟨_, haccount.whole⟩
    · intro hserver hstack
      simpa [inHand, underWay, hserver, hstack] using haccount.whole
  rest := by
    intro hserver hheld
    cases hinv.stage with
    | held _ _ _ _ hqueue => exact hqueue
    | free hnone | window _ _ hnone | send _ _ _ hnone => exact absurd hnone hheld

end Aegir.Net
