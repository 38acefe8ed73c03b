/-
  The block driver's port: calls in, requests to the device out.
-/
import Aegir.Lib.Extent

namespace Aegir.Block

open Aegir.Lib

def kMethodIdentify : ℕ := 1
def kMethodRead : ℕ := 2
def kMethodClamp : ℕ := 3
def kMethodWrite : ℕ := 4
def kMethodCaps : ℕ := 5
def kMethodDiscard : ℕ := 6

def kCapsDiscard : ℕ := 1

def kSectorBytes : ℕ := 512

def sizeofClamp : ℕ := 40

def sizeofIdentify : ℕ := 24

/-! ## The device -/

structure Geometry where
  capacity : ℕ
  discard : Bool
  maxDiscardSectors : ℕ
  maxDiscardSeg : ℕ
  discardAlignment : ℕ
  windowBytes : ℕ
  windowPhysical : ℕ
  capacity_lt : capacity < 2 ^ 64
  maxDiscardSectors_lt : maxDiscardSectors < 2 ^ 32
  discardAlignment_lt : discardAlignment < 2 ^ 32

namespace Geometry

variable (g : Geometry)

def windowSectors : ℕ := g.windowBytes / kSectorBytes

/-- Whether the device discards: this driver sends one segment. -/
def discards : Bool := g.discard && decide (1 ≤ g.maxDiscardSeg) && decide (0 < g.maxDiscardSectors)

/-- `caps`: the flags, and the largest discard. -/
def caps : List ℕ := if g.discards then [kCapsDiscard, g.maxDiscardSectors] else [0, 0]

def align : ℕ := if g.discard = false ∨ g.discardAlignment = 0 then 1 else g.discardAlignment

theorem max_pos (h : g.discards = true) : 0 < g.maxDiscardSectors := by
  simp only [discards, Bool.and_eq_true, decide_eq_true_eq] at h
  exact h.2

theorem align_pos : 0 < g.align := by
  unfold align
  split
  · exact Nat.one_pos
  · omega

end Geometry

/-! ## The driver -/

structure Clamp where
  badge : ℕ
  first : ℕ
  sectors : ℕ
  windowPhysical : ℕ
  deriving DecidableEq

inductive BlkType where
  | In
  | Out
  | Discard
  deriving DecidableEq

/-- A request the device was given, on behalf of a badge; a discard carries no data. -/
structure Submission where
  badge : ℕ
  type : BlkType
  sector : ℕ
  sectors : ℕ
  data : Option ℕ
  deriving DecidableEq

structure Driver where
  clamps : List Clamp
  clampFree : ℕ
  clampEnd : ℕ
  submitted : List Submission

/-- A message: who sent it, its method and its words. -/
structure Call where
  badge : ℕ
  method : ℕ
  words : List UInt64

def Call.word (call : Call) (i : ℕ) : ℕ := (call.words.getD i 0).toNat

def readFirst (packed : ℕ) : ℕ := packed % 2 ^ 48

def readCount (packed : ℕ) : ℕ := packed / 2 ^ 48 + 1

namespace Driver

def findClamp (d : Driver) (badge : ℕ) : Option Clamp := d.clamps.find? fun clamp => clamp.badge == badge

def recordClamp (clamp : Clamp) (d : Driver) : Bool × Driver :=
  if (d.findClamp clamp.badge).isSome ∨ d.clampEnd < d.clampFree + sizeofClamp then (false, d)
  else (true, { d with clamps := clamp :: d.clamps, clampFree := d.clampFree + sizeofClamp })

def clampAllowsRange (d : Driver) (badge first sectors capacity : ℕ) : Bool :=
  if capacity < (first + sectors) % 2 ^ 64 then false
  else if badge = 0 then true
  else match d.findClamp badge with
    | some clamp => decide (clamp.first ≤ first) &&
        decide ((first + sectors) % 2 ^ 64 ≤ (clamp.first + clamp.sectors) % 2 ^ 64)
    | none => false

def clampAllows (d : Driver) (badge first sectors capacity windowSectors : ℕ) : Bool :=
  if windowSectors < sectors then false else d.clampAllowsRange badge first sectors capacity

def windowFor (d : Driver) (badge managerWindow : ℕ) : ℕ :=
  if badge = 0 then managerWindow
  else match d.findClamp badge with
    | some clamp => clamp.windowPhysical
    | none => 0

section
variable (g : Geometry) (device : ℕ → Bool)

def submit (s : Submission) (d : Driver) : Bool × Driver :=
  (device d.submitted.length, { d with submitted := d.submitted ++ [s] })

/-- A read or a write: one request for the whole range. -/
def transfer (type : BlkType) (badge word : ℕ) (d : Driver) : List ℕ × Driver :=
  let first := readFirst word
  let sectors := readCount word
  if d.clampAllows badge first sectors g.capacity g.windowSectors then
    match d.submit device ⟨badge, type, first, sectors, some (d.windowFor badge g.windowPhysical)⟩ with
    | (true, d) => ([sectors], d)
    | (false, d) => ([0], d)
  else ([0], d)

def discardChunks {max : ℕ} (hmax : 0 < max) (badge begin stop done : ℕ) (d : Driver) : ℕ × Driver :=
  if _h : begin < stop then
    let chunk := if max < stop - begin then max else stop - begin
    match d.submit device ⟨badge, .Discard, begin, chunk, none⟩ with
    | (true, d) => discardChunks hmax badge (begin + chunk) stop ((done + chunk) % 2 ^ 32) d
    | (false, d) => (done, d)
  else (done, d)
termination_by stop - begin
decreasing_by
  split <;> omega

def discardRange (badge first asked : ℕ) (d : Driver) : List ℕ × Driver :=
  if h : g.discards = true then
    if asked ≠ 0 ∧ asked ≤ 0xffffffff ∧ d.clampAllowsRange badge first asked g.capacity = true then
      let begin := (first + g.align - 1) % 2 ^ 64 / g.align * g.align
      let stop := (first + asked) % 2 ^ 64 / g.align * g.align
      let (done, d) := discardChunks device (g.max_pos h) badge begin stop 0 d
      ([done], d)
    else ([0], d)
  else ([0], d)

def grantClamp (call : Call) (d : Driver) : List ℕ × Driver :=
  if call.word 0 ≠ 0 ∧ call.word 2 ≠ 0 ∧ call.word 3 ≠ 0 ∧ (call.word 1 + call.word 2) % 2 ^ 64 ≤ g.capacity then
    match d.recordClamp ⟨call.word 0, call.word 1, call.word 2, call.word 3⟩ with
    | (true, d) => ([1], d)
    | (false, d) => ([0], d)
  else ([0], d)

/-- A turn of the serve loop: the words replied, and the driver after. -/
def serve (call : Call) (d : Driver) : List ℕ × Driver :=
  let count := call.words.length
  if call.method = kMethodIdentify then ([sizeofIdentify], d)
  else if call.method = kMethodRead ∧ count = 1 then d.transfer g device .In call.badge (call.word 0)
  else if call.method = kMethodWrite ∧ count = 1 then d.transfer g device .Out call.badge (call.word 0)
  else if call.method = kMethodCaps ∧ count = 0 then (g.caps, d)
  else if call.method = kMethodDiscard ∧ count = 2 then d.discardRange g device call.badge (call.word 0) (call.word 1)
  else if call.method = kMethodClamp ∧ count = 4 ∧ call.badge = 0 then d.grantClamp g call
  else ([0], d)

def run (calls : List Call) (d : Driver) : Driver := calls.foldl (fun d call => (d.serve g device call).2) d

end

/-- No clamp recorded and nothing submitted; the table's room is what the memory leaves. -/
def start (clampFree clampEnd : ℕ) : Driver := ⟨[], clampFree, clampEnd, []⟩

end Driver

end Aegir.Block
