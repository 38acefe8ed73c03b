/-
  The timer service (aegir-timer, `main.cc`): sleeps that are held replies.

  A sleep takes a row of the service's region and a slot of its CSpace, saves its caller's
  reply capability into the slot and is answered by the first tick at its target or later.
  Rows come from the free list or are carved from the region; slots come from a bitmap.

  Rows are functions of their address, as the region holds them; address zero is the null
  pointer.  The kernel's part of a step is what a system call answers and, for each slot, the
  call whose reply capability is saved there.  The loops that follow a list take a bound and
  answer `none` past it.
-/
import Mathlib

namespace Aegir.Timer

def kNanosecondsPerSecond : ℕ := 1000000000
/-- The badge of the tick's notification. -/
def kTickBit : ℕ := 2 ^ 31
def kMethodNow : ℕ := 1
def kMethodSleep : ℕ := 2
def kMethodSubscribe : ℕ := 3
/-- The sizes of a `Sleep` and of a `Subscriber` in the region. -/
def kSleepBytes : ℕ := 24
def kSubscriberBytes : ℕ := 32

structure Sleep where
  slot : ℕ
  target : ℕ
  link : ℕ

structure Subscriber where
  cap : ℕ
  period : ℕ
  next : ℕ
  link : ℕ

structure Service where
  bump : ℕ
  stop : ℕ
  rows : ℕ → Sleep
  nodes : ℕ → Subscriber
  sleepFree : ℕ
  subs : ℕ
  sleeps : ℕ
  bits : List Bool
  slotBase : ℕ
  /-- The slot of the tick's notification; zero when none was taken. -/
  tickNotification : ℕ
  haveTick : Bool

/-! ## Rows and slots -/

namespace Service

def regionAlloc (s : Service) (bytes : ℕ) : ℕ × Service :=
  let aligned := (bytes + 7) / 8 * 8
  if s.bump = 0 ∨ s.stop < s.bump + aligned then (0, s) else (s.bump, { s with bump := s.bump + aligned })

/-- `slot_alloc`: the first clear bit. -/
def slotAlloc (s : Service) : Option (ℕ × Service) :=
  let i := s.bits.idxOf false
  if i < s.bits.length then some (s.slotBase + i, { s with bits := s.bits.set i true }) else none

/-- `slot_free`, its index in 32 bits. -/
def slotFree (s : Service) (slot : ℕ) : Service :=
  { s with bits := s.bits.set ((slot + 2 ^ 32 - s.slotBase) % 2 ^ 32) false }

/-- The row a sleep is given: the free list's first, or else a new one. -/
def sleepRow (s : Service) : ℕ × Service :=
  if s.sleepFree ≠ 0 then (s.sleepFree, s) else s.regionAlloc kSleepBytes

/-- The row is taken off the free list, if it is there, and put before the sleeps. -/
def hold (s : Service) (row slot target : ℕ) : Service :=
  { s with
    sleepFree := if s.sleepFree ≠ 0 then (s.rows row).link else s.sleepFree
    rows := Function.update s.rows row ⟨slot, target, s.sleeps⟩
    sleeps := row }

/-- The row a place on the list of sleeps links to; place zero is the list's head. -/
def after (s : Service) (place : ℕ) : ℕ := if place = 0 then s.sleeps else (s.rows place).link

def setAfter (s : Service) (place row : ℕ) : Service :=
  if place = 0 then { s with sleeps := row }
  else { s with rows := Function.update s.rows place { s.rows place with link := row } }

def pushFree (s : Service) (row : ℕ) : Service :=
  { s with rows := Function.update s.rows row { s.rows row with link := s.sleepFree }, sleepFree := row }

/-- The row behind a place goes from the sleeps to the free list. -/
def unlink (s : Service) (place row : ℕ) : Service := (s.setAfter place (s.rows row).link).pushFree row

/-- The subscriber is put before the others. -/
def enlist (s : Service) (row cap period now : ℕ) : Service :=
  { s with nodes := Function.update s.nodes row ⟨cap, period, (now + period) % 2 ^ 64, s.subs⟩, subs := row }

def refuse (s : Service) (dest : ℕ) : Service := if dest = 0 then s else s.slotFree dest

/-! ## The alarm -/

/-- The loops over a list for the nearest thing due on it, or before it. -/
def nearest (due link : ℕ → ℕ) : ℕ → ℕ → Option ℕ → Option (Option ℕ)
  | 0, row, next => if row = 0 then some next else none
  | n + 1, row, next =>
    if row = 0 then some next
    else nearest due link n (link row) (if next.all (due row < ·) then some (due row) else next)

/-- When the alarm is armed for, if it is. -/
def alarm (s : Service) (now : ℕ) : Option (Option ℕ) := do
  let next ← nearest (fun row => (s.rows row).target) (fun row => (s.rows row).link) s.bump s.sleeps none
  let next ← nearest (fun row => (s.nodes row).next) (fun row => (s.nodes row).link) s.bump s.subs next
  some (if s.haveTick then next.map fun next => if next < now then now else next else none)

end Service

/-! ## What the service receives -/

/-- A sleep the service took: its call, when it was received and for how long it is. -/
structure Nap where
  call : ℕ
  received : ℕ
  duration : ℕ
deriving DecidableEq

def Nap.due (n : Nap) : ℕ := n.received + n.duration

/-- What one receive brings: the badge, the length and the first two words of the message, the
    clock's reading after it, and whether the kernel saves the caller and moves the capability,
    should it be asked to. -/
structure Received where
  badge : ℕ
  length : ℕ
  method : ℕ
  word : ℕ
  now : ℕ
  saved : Bool
  moved : Bool

/-- The service, with what the kernel holds for it and what came of it: the calls received, the
    sleeps taken, the held replies answered and the notifications signalled, each with the time. -/
structure World where
  service : Service
  held : ℕ → Option ℕ
  calls : ℕ
  accepted : List Nap
  answered : List (ℕ × ℕ)
  signalled : List (ℕ × ℕ)

namespace World

/-! ## The tick -/

/-- `reply_slot`: a reply capability answers once, and an empty slot answers no one. -/
def replySlot (w : World) (slot now : ℕ) : World :=
  match w.held slot with
  | none => w
  | some call => { w with held := Function.update w.held slot none, answered := w.answered ++ [(call, now)] }

/-- A sleep that is due is answered, and its slot and its row are free. -/
def finish (w : World) (place row now : ℕ) : World :=
  let slot := (w.service.rows row).slot
  let w := w.replySlot slot now
  { w with service := (w.service.slotFree slot).unlink place row }

/-- The loop over the sleeps. -/
def answerDue : ℕ → World → ℕ → ℕ → Option World
  | 0, w, _, place => if w.service.after place = 0 then some w else none
  | n + 1, w, now, place =>
    let row := w.service.after place
    if row = 0 then some w
    else if (w.service.rows row).target ≤ now then answerDue n (w.finish place row now) now place
    else answerDue n w now row

def signal (w : World) (row now : ℕ) : World :=
  let sub := w.service.nodes row
  { w with
    service := { w.service with
      nodes := Function.update w.service.nodes row { sub with next := (now + sub.period) % 2 ^ 64 } }
    signalled := w.signalled ++ [(sub.cap, now)] }

def signalWhen (c : Bool) (w : World) (row now : ℕ) : World := if c then w.signal row now else w

/-- The loop over the subscribers. -/
def signalDue : ℕ → World → ℕ → ℕ → Option World
  | 0, w, _, row => if row = 0 then some w else none
  | n + 1, w, now, row =>
    if row = 0 then some w
    else signalDue n (signalWhen ((w.service.nodes row).next ≤ now) w row now) now (w.service.nodes row).link

/-- What the service does when the alarm fired.  No list is longer than the region's end. -/
def tick (w : World) (now : ℕ) : Option World := do
  let w ← signalDue w.service.bump w now w.service.subs
  answerDue w.service.bump w now 0

/-! ## The calls -/

def sleep (w : World) (m : Received) : World × Option (List ℕ) :=
  let (row, s) := w.service.sleepRow
  if row = 0 then ({ w with service := s }, some [0])
  else match s.slotAlloc with
    | none => ({ w with service := s }, some [0])
    | some (slot, s) =>
      if m.saved ∧ w.held slot = none then
        ({ w with
          service := s.hold row slot ((m.now + m.word) % 2 ^ 64)
          held := Function.update w.held slot (some w.calls)
          accepted := w.accepted ++ [⟨w.calls, m.now, m.word⟩] }, none)
      else ({ w with service := s }, some [0])

def subscribe (w : World) (m : Received) : World × Option (List ℕ) :=
  let (row, s) := w.service.regionAlloc kSubscriberBytes
  if row = 0 then ({ w with service := s.refuse 0 }, some [0])
  else match s.slotAlloc with
    | none => ({ w with service := s.refuse 0 }, some [0])
    | some (dest, s) =>
      if m.moved then ({ w with service := s.enlist row dest m.word m.now }, some [1])
      else ({ w with service := s.refuse dest }, some [0])

def ticked (w : World) (m : Received) : Bool := m.badge = kTickBit && w.service.haveTick

def slept (w : World) (m : Received) : Bool :=
  !w.ticked m && (m.method % 2 ^ 32 = kMethodSleep && 2 ≤ m.length)

/-- One turn of the serve loop, with the words the caller is answered at once. -/
def turn (w : World) (m : Received) : Option (World × Option (List ℕ)) :=
  if w.ticked m then (w.tick m.now).map (·, none)
  else if m.method % 2 ^ 32 = kMethodNow then
    some (w, some [m.now / kNanosecondsPerSecond, m.now % kNanosecondsPerSecond])
  else if m.method % 2 ^ 32 = kMethodSleep ∧ 2 ≤ m.length then some (w.sleep m)
  else if m.method % 2 ^ 32 = kMethodSubscribe ∧ 2 ≤ m.length then some (w.subscribe m)
  else some (w, some [])

/-- A turn, counted. -/
def step (w : World) (m : Received) : Option (World × Option (List ℕ)) :=
  (w.turn m).map fun r => ({ r.1 with calls := w.calls + 1 }, r.2)

def run : World → List Received → Option World
  | w, [] => some w
  | w, m :: ms => (w.step m).bind fun r => run r.1 ms

end World

/-! ## The start -/

/-- What the service is started with: the address and the size in bits of its region, its first
    free slot and the size in bits of its CSpace, whether it was given an interrupt and whether
    the kernel binds the tick's notification to it. -/
structure Boot where
  region : Option (ℕ × ℕ)
  firstFree : ℕ
  cnodeBits : ℕ
  cnodeBits_lt : cnodeBits < 32
  irq : Bool
  bound : Bool

namespace Boot

def region0 (b : Boot) : Service where
  bump := (b.region.map (·.1)).getD 0
  stop := (b.region.map fun r => r.1 + 2 ^ r.2).getD 0
  rows _ := ⟨0, 0, 0⟩
  nodes _ := ⟨0, 0, 0, 0⟩
  sleepFree := 0
  subs := 0
  sleeps := 0
  bits := []
  slotBase := 0
  tickNotification := 0
  haveTick := false

/-- The slots past the first free one, with their bitmap. -/
def slots (b : Boot) (s : Service) : Service :=
  if b.firstFree + 1 < 2 ^ b.cnodeBits then
    let count := 2 ^ b.cnodeBits - (b.firstFree + 1)
    let (bits, s) := s.regionAlloc ((count + 7) / 8)
    if bits ≠ 0 then { s with slotBase := b.firstFree + 1, bits := List.replicate count false } else s
  else s

/-- The tick's notification takes a slot, whether or not it is bound. -/
def tick (b : Boot) (s : Service) : Service :=
  if b.irq then
    match s.slotAlloc with
    | none => s
    | some (slot, s) => { s with tickNotification := slot, haveTick := b.bound }
  else s

def start (b : Boot) : World := ⟨b.tick (b.slots b.region0), fun _ => none, 0, [], [], []⟩

end Boot

end Aegir.Timer
