/-
  What a pipe is for its callers, and what a run of calls makes of the pipes.
-/
import Aegir.PipeFs.Service

namespace Aegir.PipeFs

/-- An open handle. -/
structure End where
  serial : ℕ
  badge : ℕ
  kind : Kind
deriving DecidableEq

/-- A pipe as its callers know it. -/
structure Held where
  name : List UInt8
  stream : List UInt8
  ends : List End
  hadReader : Bool
  hadWriter : Bool
  /-- Of its write handles, the last that was opened or closed was closed. -/
  writerLeft : Bool
deriving DecidableEq

namespace Held

def new (name : List UInt8) : Held := ⟨name, [], [], false, false, false⟩

def writing (x : Held) : Bool := x.ends.any fun e => decide (e.kind = .write)

/-- A reader that got to `offset` is at the end of the pipe. -/
def ended (x : Held) (offset : ℕ) : Bool :=
  decide (x.stream.length ≤ offset) && x.hadWriter && !x.writing

def attach (x : Held) (e : End) : Held :=
  match e.kind with
  | .read => { x with ends := e :: x.ends, hadReader := true }
  | .write => { x with ends := e :: x.ends, hadWriter := true, writerLeft := false }

def detach (x : Held) (e : End) : Held :=
  match e.kind with
  | .read => { x with ends := x.ends.erase e }
  | .write => { x with ends := x.ends.erase e, writerLeft := true }

def dead (x : Held) : Bool := x.hadReader && x.ends.isEmpty

/-- A write handle that is open was opened, and unless the last one closed, one is open. -/
structure Sound (x : Held) : Prop where
  had : x.writing = true → x.hadWriter = true
  left : x.hadWriter = true → x.writerLeft = false → x.writing = true

/-- What the flags of an open that reached the pipe do to it. -/
def cut (x : Held) (flags : ℕ) : Held :=
  if Service.truncates flags then { x with stream := [] } else x

/-- An open that reached the pipe, and the handle it was answered, zero for none. -/
def opened (x : Held) (badge flags serial : ℕ) : Held :=
  if serial = 0 then x.cut flags else (x.cut flags).attach ⟨serial, badge, Service.kindOf flags⟩

def endOf (x : Held) (badge serial : ℕ) : Option End :=
  x.ends.find? fun e => decide (e.serial = serial ∧ e.badge = badge)

section
variable {x : Held} {e : End}

theorem Sound.new (name : List UInt8) : (Held.new name).Sound := ⟨id, fun h => absurd h Bool.false_ne_true⟩

theorem Sound.cut (h : x.Sound) (flags : ℕ) : (x.cut flags).Sound := by
  unfold Held.cut
  split
  · exact ⟨h.had, h.left⟩
  · exact h

theorem Sound.attach (h : x.Sound) : (x.attach e).Sound := by
  unfold Held.attach
  split
  · next hk =>
    have hw : ∀ y : Held, y.ends = e :: x.ends → y.writing = x.writing := fun y hy => by
      rw [writing, hy, List.any_cons, hk, writing]
      rfl
    exact ⟨fun hy => h.had ((hw _ rfl).symm.trans hy), fun h₁ h₂ => (hw _ rfl).trans (h.left h₁ h₂)⟩
  · next hk =>
    refine ⟨fun _ => rfl, fun _ _ => ?_⟩
    rw [writing, List.any_cons, hk]
    rfl

theorem Sound.detach (h : x.Sound) : (x.detach e).Sound := by
  have hsub : ∀ y : Held, y.ends = x.ends.erase e → y.writing = true → x.writing = true := by
    intro y hy hw
    rw [writing, hy, List.any_eq_true] at hw
    obtain ⟨d, hd, hk⟩ := hw
    exact List.any_eq_true.2 ⟨d, List.mem_of_mem_erase hd, hk⟩
  unfold Held.detach
  split
  · next hk =>
    refine ⟨fun hw => h.had (hsub _ rfl hw), fun h₁ h₂ => ?_⟩
    obtain ⟨d, hd, hw⟩ := List.any_eq_true.1 (h.left h₁ h₂)
    refine List.any_eq_true.2 ⟨d, (List.mem_erase_of_ne fun he => ?_).2 hd, hw⟩
    rw [he, hk] at hw
    exact absurd hw (by decide)
  · exact ⟨fun hw => h.had (hsub _ rfl hw), fun _ hf => absurd hf.symm Bool.false_ne_true⟩

end

end Held

abbrev Store := List Held

namespace Store

def made (t : Store) (path : List UInt8) : Store :=
  if t.any fun x => decide (x.name = path) then t else Held.new path :: t

/-- The pipes after a call and its answer; `reached` says whether an open found or made its pipe. -/
def after (t : Store) (badge : ℕ) (reached : Bool) : Call → Answer → Store
  | .openPath path flags, .word serial =>
    if reached then
      (t.made path).map fun x => if x.name = path then x.opened badge flags serial else x
    else t
  | .write handle data, .word taken =>
    t.map fun x => if ⟨handle, badge, .write⟩ ∈ x.ends then { x with stream := x.stream ++ data.take taken } else x
  | .close handle, .word 1 =>
    (t.map fun x => ((x.endOf badge handle).map x.detach).getD x).filter fun x => !x.dead
  | _, _ => t

end Store

def Service.reached (s : Service) : Call → Bool
  | .openPath path _ => (s.pipeMake path).isSome
  | _ => false

/-- The service after calls of some badges, and the pipes there are; `none` if a call is never
    answered. -/
def runCalls : Service → Store → List (ℕ × Call) → Option (Service × Store)
  | s, t, [] => some (s, t)
  | s, t, (badge, c) :: calls =>
    match s.step badge c with
    | none => none
    | some (answer, s') => runCalls s' (t.after badge (s.reached c) c answer) calls

end Aegir.PipeFs
