/-
  The virtqueue, as the driver and the device share it.
-/
import Mathlib

namespace Aegir.Virtio

def kSectorBytes : ℕ := 512
def kRequestOffset : ℕ := 5126
def kDataOffset : ℕ := kRequestOffset + 16
def kStatusOffset : ℕ := kDataOffset + 512

def kDescNext : ℕ := 1
def kDescWrite : ℕ := 2

/-- How often `wait_used` looks before it gives up. -/
def kSpins : ℕ := 200000000

inductive BlkType where
  | In
  | Out
  | Discard
  deriving DecidableEq

def BlkType.code : BlkType → ℕ
  | In => 0
  | Out => 1
  | Discard => 11

/-! ## The pages -/

/-- A word of the queue's pages. -/
inductive Cell where
  | desc (i word : ℕ)
  | availFlags
  | availIdx
  | availRing (i : ℕ)
  | usedIdx
  | usedId (i : ℕ)
  | usedLen (i : ℕ)
  | header (word : ℕ)
  | segment (word : ℕ)
  | status
  deriving DecidableEq

abbrev Page := Cell → ℕ

abbrev Store := Cell × ℕ

def Page.apply (page : Page) (stores : List Store) : Page :=
  stores.foldl (fun page store => Function.update page store.1 store.2) page

/-- A request: its type and sector, and the buffer its data crosses; a discard has none. -/
structure Request where
  type : BlkType
  sector : ℕ
  data : ℕ
  sectors : ℕ
  sector_lt : sector < 2 ^ 64
  data_lt : data < 2 ^ 64
  sectors_lt : sectors < 2 ^ 32

/-- A queue in its place: where the device finds its pages, its size, and whether an interrupt
    was paired with it. -/
structure Queue where
  physical : ℕ
  size : ℕ
  irq : Bool
  physical_lt : physical + kStatusOffset < 2 ^ 64

/-! ## The driver's stores -/

/-- One buffer of a chain. -/
structure ChainBuf where
  physical : ℕ
  bytes : ℕ
  deviceWrites : Bool

namespace Queue

variable (q : Queue)

/-- The header, and a discard's segment, before anything is published. -/
def headerStores (r : Request) : List Store :=
  match r.type with
  | .Discard =>
    [(.header 0, r.type.code), (.header 1, 0), (.header 2, 0), (.header 3, 0), (.segment 0, r.sector), (.segment 1, r.sectors),
      (.segment 2, 0)]
  | _ => [(.header 0, r.type.code), (.header 1, 0), (.header 2, r.sector % 2 ^ 32), (.header 3, r.sector / 2 ^ 32)]

/-- The buffer between the header and the status byte. -/
def dataBuf (r : Request) : ChainBuf :=
  match r.type with
  | .Discard => ⟨q.physical + kDataOffset, 16, false⟩
  | .In => ⟨r.data, r.sectors * kSectorBytes % 2 ^ 32, true⟩
  | .Out => ⟨r.data, r.sectors * kSectorBytes % 2 ^ 32, false⟩

def chain (r : Request) : List ChainBuf :=
  [⟨q.physical + kRequestOffset, 16, false⟩, q.dataBuf r, ⟨q.physical + kStatusOffset, 1, true⟩]

/-- Descriptor `i` of a chain of `count` from descriptor zero. -/
def descStores (count i : ℕ) (buf : ChainBuf) : List Store :=
  let flags := (if i + 1 < count then kDescNext else 0) + if buf.deviceWrites then kDescWrite else 0
  let next := if i + 1 < count then i + 1 else 0
  [(.desc i 0, buf.physical % 2 ^ 32), (.desc i 1, buf.physical / 2 ^ 32), (.desc i 2, buf.bytes),
    (.desc i 3, flags + next * 2 ^ 16)]

/-- `publish`, up to the notify: the chain, its head in the available ring, the index last. -/
def publishStores (nextAvail : ℕ) (bufs : List ChainBuf) : List Store :=
  (bufs.mapIdx fun i buf => descStores bufs.length i buf).flatten ++
    [(.availFlags, 0), (.availRing (nextAvail % q.size), 0), (.availIdx, (nextAvail + 1) % 2 ^ 16)]

/-- `transfer_sectors` and `discard_sectors`, up to the wait. -/
def stores (nextAvail : ℕ) (r : Request) : List Store :=
  headerStores r ++ (.status, 0xff) :: q.publishStores nextAvail (q.chain r)

end Queue

/-! ## What the device reads -/

/-- What a request asks of the device: the type, the sectors named, and the buffer. -/
structure Op where
  type : ℕ
  sector : ℕ
  count : ℕ
  buffer : ℕ
  bytes : ℕ
  deviceWrites : Bool
  deriving DecidableEq

def Queue.op (q : Queue) (r : Request) : Op :=
  { type := r.type.code
    sector := r.sector
    count := if r.type = .Discard then r.sectors else 0
    buffer := (q.dataBuf r).physical
    bytes := (q.dataBuf r).bytes
    deviceWrites := (q.dataBuf r).deviceWrites }

/-- The descriptor after descriptor `i`. -/
def Page.next (page : Page) (i : ℕ) : ℕ := page (.desc i 3) / 2 ^ 16

/-- The chain from `head`: the header in its first buffer, the data in its second; a discard's
    range is in the segment the second buffer holds. -/
def Page.read (page : Page) (head : ℕ) : Op :=
  let data := page.next head
  let type := page (.header 0)
  { type
    sector := if type = BlkType.Discard.code then page (.segment 0) else page (.header 2) + 2 ^ 32 * page (.header 3)
    count := if type = BlkType.Discard.code then page (.segment 1) else 0
    buffer := page (.desc data 0) + 2 ^ 32 * page (.desc data 1)
    bytes := page (.desc data 2)
    deviceWrites := decide (page (.desc data 3) % 2 ^ 16 / kDescWrite % 2 = 1) }

/-! ## Steps -/

inductive Phase where
  | idle
  | storing (todo : List Store)
  | waiting (left : ℕ)
  | harvesting
  | harvested (completed : Bool)
  deriving DecidableEq

inductive DevicePhase where
  | idle
  | took (head : ℕ)
  | fetched (op : Op)
  | done (op : Op) (status : ℕ)
  | answered

/-- What `transfer_sectors` and `discard_sectors` return of request `serial`. -/
structure Report where
  serial : ℕ
  completed : Bool
  status : ℕ
  deriving DecidableEq

/-- What the device did for available entry `serial`. -/
structure Performed where
  serial : ℕ
  op : Op
  status : ℕ
  deriving DecidableEq

structure St where
  page : Page
  phase : Phase
  nextAvail : ℕ
  lastUsed : ℕ
  device : DevicePhase
  taken : ℕ
  requests : List Request
  performed : List Performed
  reports : List Report

/-- The pages zeroed, nothing asked. -/
def St.start : St := ⟨fun _ => 0, .idle, 0, 0, .idle, 0, [], [], []⟩

inductive Act where
  /-- The driver begins a request. -/
  | start (r : Request)
  | store
  | notify
  /-- The wait looks at the used index. -/
  | look
  | harvest
  /-- The driver reads the status byte and returns. -/
  | finish
  /-- The device takes the next available entry. -/
  | take
  | fetch
  /-- It performs the transfer, and makes out what became of it. -/
  | perform (status : ℕ)
  | answer
  /-- It puts the used entry and advances the used index. -/
  | complete (bytes : ℕ)

def driverStep (q : Queue) (s : St) : Act → Option St
  | .start r => match s.phase with
    | .idle => some { s with phase := .storing (q.stores s.nextAvail r), requests := s.requests ++ [r] }
    | _ => none
  | .store => match s.phase with
    | .storing ((cell, value) :: todo) => some { s with page := Function.update s.page cell value, phase := .storing todo }
    | _ => none
  | .notify => match s.phase with
    | .storing [] => some { s with nextAvail := (s.nextAvail + 1) % 2 ^ 16, phase := .waiting (kSpins + 1) }
    | _ => none
  | .look => match s.phase with
    | .waiting left =>
      if s.page .usedIdx ≠ s.lastUsed then some { s with phase := .harvesting }
      else if q.irq then some s
      else match left with
        | 0 => some { s with phase := .harvesting }
        | left + 1 => some { s with phase := .waiting left }
    | _ => none
  | .harvest => match s.phase with
    | .harvesting =>
      if s.page .usedIdx = s.lastUsed then some { s with phase := .harvested false }
      else some { s with lastUsed := (s.lastUsed + 1) % 2 ^ 16, phase := .harvested true }
    | _ => none
  | .finish => match s.phase with
    | .harvested completed =>
      some { s with reports := s.reports ++ [⟨s.requests.length - 1, completed, s.page .status⟩], phase := .idle }
    | _ => none
  | _ => none

def deviceStep (q : Queue) (s : St) : Act → Option St
  | .take => match s.device with
    | .idle =>
      if s.page .availIdx = s.taken % 2 ^ 16 then none
      else some { s with device := .took (s.page (.availRing (s.taken % 2 ^ 16 % q.size))), taken := s.taken + 1 }
    | _ => none
  | .fetch => match s.device with
    | .took head => some { s with device := .fetched (s.page.read head) }
    | _ => none
  | .perform status => match s.device with
    | .fetched op => some { s with device := .done op status, performed := s.performed ++ [⟨s.taken - 1, op, status⟩] }
    | _ => none
  | .answer => match s.device with
    | .done _ status => some { s with page := Function.update s.page .status status, device := .answered }
    | _ => none
  | .complete bytes => match s.device with
    | .answered =>
      let place := s.page .usedIdx % q.size
      let page := Function.update (Function.update s.page (.usedId place) 0) (.usedLen place) bytes
      some { s with page := Function.update page .usedIdx ((s.page .usedIdx + 1) % 2 ^ 16), device := .idle }
    | _ => none
  | _ => none

def step (q : Queue) (s : St) (a : Act) : Option St :=
  match a with
  | .start _ | .store | .notify | .look | .harvest | .finish => driverStep q s a
  | .take | .fetch | .perform _ | .answer | .complete _ => deviceStep q s a

def run (q : Queue) (acts : List Act) (s : St) : Option St := acts.foldlM (step q) s

/-- The states that runs reach whose steps all meet `P`. -/
inductive Reaches (q : Queue) (P : St → Act → Prop) : St → Prop
  | start : Reaches q P .start
  | step {s s' : St} {a : Act} : Reaches q P s → P s a → step q s a = some s' → Reaches q P s'

theorem Reaches.run {q : Queue} {P : St → Act → Prop} {s s' : St} {acts : List Act} (h : Reaches q P s)
    (hacts : ∀ a ∈ acts, ∀ s, P s a) (hrun : run q acts s = some s') : Reaches q P s' := by
  induction acts generalizing s with
  | nil =>
    obtain rfl := Option.some.inj hrun
    exact h
  | cons a acts ih =>
    rw [Virtio.run, List.foldlM_cons, Option.bind_eq_bind, Option.bind_eq_some_iff] at hrun
    obtain ⟨s₁, hstep, hrest⟩ := hrun
    exact ih (.step h (hacts a List.mem_cons_self s) hstep) (fun a' ha' => hacts a' (List.mem_cons_of_mem _ ha')) hrest

theorem run_looks {q : Queue} {s : St} (hirq : q.irq = false) (hstill : s.page .usedIdx = s.lastUsed) (k left : ℕ) :
    run q (List.replicate k .look) { s with phase := .waiting (left + k) } = some { s with phase := .waiting left } := by
  induction k with
  | zero => rfl
  | succ k ih =>
    have hlook : step q { s with phase := .waiting (left + (k + 1)) } .look = some { s with phase := .waiting (left + k) } := by
      simp [step, driverStep, hirq, hstill]
    rw [List.replicate_succ, run, List.foldlM_cons, hlook, Option.bind_eq_bind, Option.bind_some]
    exact ih

end Aegir.Virtio
