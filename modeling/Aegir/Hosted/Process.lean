/-
  A process that maps and unmaps memory.
-/
import Aegir.Hosted.Mmap

namespace Aegir.Hosted

open Aegir.Lib
open Aegir.Mem (Scratch VSpace Alloc)

/-- A mapping the process holds; a file that is owed its bytes, and where in it. -/
structure Mapping where
  base : ℕ
  length : ℕ
  owes : Option (ℕ × ℕ)
deriving DecidableEq

structure Process where
  heap : Heap
  /-- The mappings it holds, which no function reads. -/
  live : List Mapping

inductive Call where
  | mmap (c : Heap.MapCall) (as : List Alloc)
  | munmap (addr length : ℕ) (as : List Alloc)
  | brk (newBreak : ℕ) (as : List Alloc)
  | openat (file : ℕ) (directory write readWrite truncate : Bool)
  | close (fd : Int)
  /-- Its memory is stored into. -/
  | store (memory : ℕ → UInt8)
  /-- A file is given other bytes, by it or by another process. -/
  | change (file : ℕ) (bytes : List UInt8)

/-- What a mapping of the descriptor owes, if it is writable and shared. -/
def Heap.owes (s : Heap) (c : Heap.MapCall) : Option (ℕ × ℕ) :=
  if 0 ≤ Heap.writeBackFd c then (s.files.entryFor c.fd).map fun e => (e.file, c.offset.toNat) else none

namespace Process

/-- The mappings left when `munmap` is called for a range. -/
def released (live : List Mapping) (addr length : ℕ) : List Mapping :=
  live.filter fun m => !decide (length ≠ 0 ∧ m.base = addr ∧ alignUp m.length = alignUp length)

def step (p : Process) : Call → Process
  | .mmap c as =>
    let r := p.heap.sysMmap c as
    ⟨r.2, if 0 ≤ r.1 then ⟨r.1.toNat, c.length, p.heap.owes c⟩ :: p.live else p.live⟩
  | .munmap addr length as => ⟨(p.heap.sysMunmap addr length as).2, released p.live addr length⟩
  | .brk newBreak as => ⟨(p.heap.sysBrk newBreak as).2, p.live⟩
  | .openat file directory write readWrite truncate =>
    ⟨{ p.heap with files := (p.heap.files.openat file directory write readWrite truncate).2 }, p.live⟩
  | .close fd => ⟨{ p.heap with files := (p.heap.files.close fd).2 }, p.live⟩
  | .store memory => ⟨{ p.heap with memory := memory }, p.live⟩
  | .change file bytes => ⟨{ p.heap with files := p.heap.files.put file bytes }, p.live⟩

def kUserTop : ℕ := 2 ^ 38

/-- A process as it starts: its heap is made in a window it was given. -/
def Started (p : Process) : Prop :=
  ∃ base limit scratch vspace files memory bytes, Scratch.adopt base limit = some scratch ∧
    limit ≤ kUserTop ∧ Heap.init ⟨scratch, vspace, [], []⟩ files memory bytes = some p.heap ∧ p.live = []

/-- `q` is reached from `p` by calls that are all `Safe` where they are made. -/
inductive Run (Safe : Heap → Call → Prop) : Process → Process → Prop where
  | nil (p : Process) : Run Safe p p
  | cons {p q : Process} (call : Call) (hs : Safe p.heap call) (h : Run Safe (p.step call) q) : Run Safe p q

theorem Run.induct {Safe : Heap → Call → Prop} (Inv : Process → Prop) {p q : Process}
    (h : Run Safe p q) (hstep : ∀ p call, Safe p.heap call → Inv p → Inv (p.step call)) (hp : Inv p) :
    Inv q := by
  induction h with
  | nil p => exact hp
  | cons call hs _ ih => exact ih (hstep _ call hs hp)

theorem Run.of_calls (calls : List Call) (p : Process) :
    Run (fun _ _ => True) p (calls.foldl step p) := by
  induction calls generalizing p with
  | nil => exact .nil p
  | cons call calls ih => exact .cons call trivial (ih _)

end Process

end Aegir.Hosted
