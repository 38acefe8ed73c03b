/-
  The capability slots of a process (aegir/mem/allocator.cc).

  The slots an allocator has to hand out are those that were freed, the one freed last
  first, and those from the cursor up to the end of its run.  A run that has one CNode
  after another grows by a CNode when the cursor is spent, when a run of slots does not
  fit, and before a split that needs more slots than there are (`refill`).

  What the CNode is retyped from comes of the allocator's memory and of its sources,
  which may take slots and give some back meanwhile: these calls, and whether there is a
  CNode in the end, are an input (`CNodeGrowth`).  Slots go upward here, with no pool that
  is shared by owners.
-/
import Mathlib

namespace Aegir.Mem

/-- The slots of `aegir::mem::Allocator`. -/
structure Slots where
  /-- `0`: one CNode, and no other -/
  levelTwoBits : ℕ
  levelOneHigh : ℕ
  first : ℕ
  next : ℕ
  end_ : ℕ
  used : ℕ
  /-- `free_slots_`, newest first -/
  free : List ℕ
  /-- What more freed slots can be remembered without asking the source. -/
  entries : ℕ
  mayGrow : Bool
  /-- `growing_slots_` -/
  growing : Bool

/-- A call for slots that does not grow the run.  `region` is how many entries the
    node source answers with when a freed slot is to be remembered and none is left. -/
inductive SlotCall where
  | alloc
  | run (count : ℕ)
  | free (slot region : ℕ)
  | failed (slot region : ℕ)
  | failedRun (first count : ℕ)

/-- What becomes of the CNode a growth asks for: the calls made meanwhile, and whether
    it is there in the end. -/
structure CNodeGrowth where
  calls : List SlotCall
  made : Bool

namespace Slots

/-- `adopt_slots_level_two`, in a process with a level one. -/
def adoptLevelTwo (first count l2 cnodeIndex : ℕ) (growable : Bool) : Slots :=
  { levelTwoBits := l2, levelOneHigh := cnodeIndex + 1
    first := cnodeIndex * 2 ^ l2 + first
    next := cnodeIndex * 2 ^ l2 + first
    end_ := cnodeIndex * 2 ^ l2 + first + count
    used := 0, free := [], entries := 0, mayGrow := growable, growing := false }

/-- `initialise`: the slots the kernel left null. -/
def initialise (start end_ : ℕ) : Slots :=
  { levelTwoBits := 0, levelOneHigh := 0, first := start, next := start, end_ := end_
    used := 0, free := [], entries := 0, mayGrow := false, growing := false }

/-- A slot from the freed ones, or else from the cursor. -/
def take (s : Slots) : Option ℕ × Slots :=
  match s.free with
  | slot :: rest => (some slot, { s with free := rest, entries := s.entries + 1, used := s.used + 1 })
  | [] => if s.next < s.end_ then (some s.next, { s with next := s.next + 1, used := s.used + 1 }) else (none, s)

def freeSlot (slot region : ℕ) (s : Slots) : Slots :=
  if slot = 0 then s
  else if 0 < s.entries then
    { s with entries := s.entries - 1, free := slot :: s.free, used := s.used - 1 }
  else if 0 < region then
    { s with entries := region - 1, free := slot :: s.free, used := s.used - 1 }
  else s

def slotFailed (slot region : ℕ) (s : Slots) : Slots :=
  if s.next ≠ 0 ∧ slot + 1 = s.next then { s with next := s.next - 1, used := s.used - 1 }
  else s.freeSlot slot region

def slotFailedRun (first count : ℕ) (s : Slots) : Slots :=
  if first + count = s.next then { s with next := s.next - count, used := s.used - count } else s

def fitsCNode (s : Slots) (count : ℕ) : Bool :=
  s.levelTwoBits = 0 || decide (s.next % 2 ^ s.levelTwoBits + count ≤ 2 ^ s.levelTwoBits)

/-- `count` slots from the cursor on. -/
def advance (count : ℕ) (s : Slots) : Slots := { s with next := s.next + count, used := s.used + count }

/-- What a call does while a growth is under way, so that none can begin. -/
def call (s : Slots) : SlotCall → Slots
  | .alloc => s.take.2
  | .run count => if s.fitsCNode count = true ∧ s.next + count ≤ s.end_ then s.advance count else s
  | .free slot region => s.freeSlot slot region
  | .failed slot region => s.slotFailed slot region
  | .failedRun first count => s.slotFailedRun first count

def l1Slot (s : Slots) : ℕ := max (s.end_ / 2 ^ s.levelTwoBits) s.levelOneHigh

/-- The slots once `alloc_cnode_at_l1` is over. -/
def retyped (g : CNodeGrowth) (s : Slots) : Slots :=
  let t := g.calls.foldl call { s with growing := true }
  { t with growing := false, levelOneHigh := if g.made then max t.levelOneHigh (s.l1Slot + 1) else t.levelOneHigh }

/-- The run goes on in the CNode at `l1`. -/
def continueAt (l1 : ℕ) (s : Slots) : Slots :=
  let start := l1 * 2 ^ s.levelTwoBits
  { s with
    end_ := (l1 + 1) * 2 ^ s.levelTwoBits
    used := if s.next < start then s.used + (start - s.next) else s.used
    next := if s.next < start then start else s.next }

def growSlots (g : CNodeGrowth) (s : Slots) : Bool × Slots :=
  if s.levelTwoBits = 0 ∨ s.mayGrow = false ∨ s.growing = true then (false, s)
  else if s.end_ % 2 ^ s.levelTwoBits ≠ 0 then (false, s)
  -- a CNode in the level-one slot `0` reads as a refusal
  else if g.made = false ∨ s.l1Slot = 0 then (false, s.retyped g)
  else (true, (s.retyped g).continueAt s.l1Slot)

/-- The loop of `alloc_slot` once no freed slot is left. -/
def takeOrGrow : List CNodeGrowth → Slots → Option ℕ × Slots
  | gs, s =>
    if s.next < s.end_ then (some s.next, { s with next := s.next + 1, used := s.used + 1 }) else
    match gs with
    | [] => (none, s)
    | g :: gs => if (s.growSlots g).1 then takeOrGrow gs (s.growSlots g).2 else (none, (s.growSlots g).2)

def allocSlot (gs : List CNodeGrowth) (s : Slots) : Option ℕ × Slots :=
  if s.free = [] then takeOrGrow gs s else s.take

def allocSlotRun (g : CNodeGrowth) (count : ℕ) (s : Slots) : Option ℕ × Slots :=
  if s.fitsCNode count = false then (none, s)
  else if s.end_ < s.next + count then
    if (s.growSlots g).1 then (some (s.growSlots g).2.next, (s.growSlots g).2.advance count)
    else (none, (s.growSlots g).2)
  else (some s.next, s.advance count)

def freeSlots (s : Slots) : ℕ := if s.used < s.end_ - s.first then s.end_ - s.first - s.used else 0

/-- The growth in `refill`, before a split that needs `needed` slots. -/
def refill (g : CNodeGrowth) (needed : ℕ) (s : Slots) : Slots :=
  if s.mayGrow = true ∧ s.freeSlots < needed then (s.growSlots g).2 else s

/-! ## What is handed out -/

/-- The slots that are handed out until the run would have to grow. -/
inductive Drains : Slots → List ℕ → Prop where
  | spent {s s' : Slots} (h : s.allocSlot [] = (none, s')) : Drains s []
  | slot {s s' : Slots} {slot : ℕ} {l : List ℕ} (h : s.allocSlot [] = (some slot, s')) (h' : Drains s' l) :
      Drains s (slot :: l)

def available (s : Slots) : List ℕ := s.free ++ List.range' s.next (s.end_ - s.next)

variable {s s' : Slots} {g : CNodeGrowth} {l l' : List ℕ}

theorem allocSlot_spent (h : s.available = []) : s.allocSlot [] = (none, s) := by
  obtain ⟨hfree, hrange⟩ := List.append_eq_nil_iff.mp h
  have hend : ¬s.next < s.end_ := by
    rw [List.range'_eq_nil_iff] at hrange
    omega
  rw [allocSlot, if_pos hfree, takeOrGrow, if_neg hend]

theorem allocSlot_available {slot : ℕ} (h : s.available = slot :: l) :
    ∃ s', s.allocSlot [] = (some slot, s') ∧ s'.available = l := by
  rw [available] at h
  rcases hfree : s.free with _ | ⟨f, rest⟩
  · rw [hfree, List.nil_append] at h
    have hlt : s.next < s.end_ := by
      by_contra hc
      rw [Nat.sub_eq_zero_of_le (by omega), List.range'_zero] at h
      cases h
    rw [show s.end_ - s.next = s.end_ - (s.next + 1) + 1 by omega, List.range'_succ] at h
    obtain ⟨rfl, rfl⟩ := List.cons.inj h
    refine ⟨{ s with next := s.next + 1, used := s.used + 1 }, ?_, ?_⟩
    · rw [allocSlot, if_pos hfree, takeOrGrow, if_pos hlt]
    · rw [available, hfree, List.nil_append]
  · rw [hfree] at h
    obtain ⟨rfl, rfl⟩ := List.cons.inj h
    refine ⟨{ s with free := rest, entries := s.entries + 1, used := s.used + 1 }, ?_, rfl⟩
    rw [allocSlot, if_neg (by rw [hfree]; exact List.cons_ne_nil _ _), take, hfree]

theorem drains_available (s : Slots) : Drains s s.available := by
  generalize hl : s.available = l
  induction l generalizing s with
  | nil => exact .spent (allocSlot_spent hl)
  | cons slot l ih =>
    obtain ⟨s', h, hl'⟩ := allocSlot_available hl
    exact .slot h (ih s' hl')

theorem Drains.unique (h : Drains s l) (h' : Drains s l') : l = l' := by
  induction h generalizing l' with
  | spent h =>
    cases h' with
    | spent => rfl
    | slot h' => cases h.symm.trans h'
  | slot h _ ih =>
    cases h' with
    | spent h' => cases h.symm.trans h'
    | slot h' hl =>
      obtain ⟨he, rfl⟩ := Prod.mk.inj (h.symm.trans h')
      rw [Option.some.inj he, ih hl]

/-! ## The count -/

/-- What is used, what was freed and what lies ahead make up the run. -/
structure Counted (s : Slots) : Prop where
  next_le : s.next ≤ s.end_
  sum : s.first + s.used + s.free.length = s.next

theorem Counted.freeSlots_eq (h : s.Counted) : s.freeSlots = s.available.length := by
  have hle := h.next_le
  have hsum := h.sum
  rw [freeSlots, available, List.length_append, List.length_range']
  split <;> omega

/-- A slot that is given back is one that is out. -/
def Legal (s : Slots) : SlotCall → Prop
  | .alloc | .run _ => True
  | .free _ _ | .failed _ _ => 0 < s.used
  | .failedRun _ count => count ≤ s.used

def LegalCalls : List SlotCall → Slots → Prop
  | [], _ => True
  | c :: cs, s => s.Legal c ∧ LegalCalls cs (s.call c)

/-- The CNodes that are asked for one after another. -/
def LegalGrowths : List CNodeGrowth → Slots → Prop
  | [], _ => True
  | g :: gs, s => LegalCalls g.calls { s with growing := true } ∧ LegalGrowths gs (s.growSlots g).2

/-- What no call changes. -/
structure SameRun (s s' : Slots) : Prop where
  levelTwoBits : s'.levelTwoBits = s.levelTwoBits
  first : s'.first = s.first
  end_ : s'.end_ = s.end_
  mayGrow : s'.mayGrow = s.mayGrow

theorem SameRun.refl (s : Slots) : SameRun s s := ⟨rfl, rfl, rfl, rfl⟩

theorem SameRun.trans {s'' : Slots} (h : SameRun s s') (h' : SameRun s' s'') : SameRun s s'' :=
  ⟨h'.levelTwoBits.trans h.levelTwoBits, h'.first.trans h.first, h'.end_.trans h.end_, h'.mayGrow.trans h.mayGrow⟩

theorem Counted.take (h : s.Counted) : s.take.2.Counted ∧ SameRun s s.take.2 := by
  have hsum := h.sum
  have hle := h.next_le
  rw [Slots.take]
  split
  · rename_i slot rest hfree
    rw [hfree, List.length_cons] at hsum
    exact ⟨⟨hle, by show s.first + (s.used + 1) + rest.length = s.next; omega⟩, ⟨rfl, rfl, rfl, rfl⟩⟩
  · split
    · rename_i hlt
      exact ⟨⟨hlt, by show s.first + (s.used + 1) + s.free.length = s.next + 1; omega⟩, ⟨rfl, rfl, rfl, rfl⟩⟩
    · exact ⟨h, .refl s⟩

theorem Counted.advance {count : ℕ} (h : s.Counted) (hle : s.next + count ≤ s.end_) :
    (s.advance count).Counted ∧ SameRun s (s.advance count) := by
  have hsum := h.sum
  exact ⟨⟨hle, by show s.first + (s.used + count) + s.free.length = s.next + count; omega⟩, ⟨rfl, rfl, rfl, rfl⟩⟩

theorem Counted.freeSlot {slot region : ℕ} (h : s.Counted) (hu : 0 < s.used) :
    (s.freeSlot slot region).Counted ∧ SameRun s (s.freeSlot slot region) := by
  have hsum := h.sum
  -- a slot more that was freed, and one less that is used
  have hback : s.first + (s.used - 1) + (slot :: s.free).length = s.next := by
    rw [List.length_cons]
    omega
  rw [Slots.freeSlot]
  split_ifs
  · exact ⟨h, .refl s⟩
  · exact ⟨⟨h.next_le, hback⟩, ⟨rfl, rfl, rfl, rfl⟩⟩
  · exact ⟨⟨h.next_le, hback⟩, ⟨rfl, rfl, rfl, rfl⟩⟩
  · exact ⟨h, .refl s⟩

/-- **Every call keeps the count.** -/
theorem Counted.call {c : SlotCall} (h : s.Counted) (hc : s.Legal c) : (s.call c).Counted ∧ SameRun s (s.call c) := by
  have hsum := h.sum
  have hle := h.next_le
  cases c with
  | alloc => exact h.take
  | run count =>
    rw [Slots.call]
    split
    · rename_i hfits
      exact h.advance hfits.2
    · exact ⟨h, .refl s⟩
  | free slot region => exact h.freeSlot hc
  | failed slot region =>
    rw [Slots.call, slotFailed]
    split
    · have hu : 0 < s.used := hc
      exact ⟨⟨by show s.next - 1 ≤ s.end_; omega, by show s.first + (s.used - 1) + s.free.length = s.next - 1; omega⟩,
        ⟨rfl, rfl, rfl, rfl⟩⟩
    · exact h.freeSlot hc
  | failedRun first count =>
    rw [Slots.call, slotFailedRun]
    split
    · have hu : count ≤ s.used := hc
      exact ⟨⟨by show s.next - count ≤ s.end_; omega,
        by show s.first + (s.used - count) + s.free.length = s.next - count; omega⟩, ⟨rfl, rfl, rfl, rfl⟩⟩
    · exact ⟨h, .refl s⟩

theorem Counted.calls {cs : List SlotCall} (h : s.Counted) (hc : LegalCalls cs s) :
    (cs.foldl Slots.call s).Counted ∧ SameRun s (cs.foldl Slots.call s) := by
  induction cs generalizing s with
  | nil => exact ⟨h, .refl s⟩
  | cons c cs ih =>
    obtain ⟨hs, hsame⟩ := h.call hc.1
    obtain ⟨hs', hsame'⟩ := ih hs hc.2
    exact ⟨hs', hsame.trans hsame'⟩

theorem Counted.retyped (h : s.Counted) (hc : LegalCalls g.calls { s with growing := true }) :
    (s.retyped g).Counted ∧ SameRun s (s.retyped g) := by
  have hs : Counted { s with growing := true } := ⟨h.next_le, h.sum⟩
  obtain ⟨ht, hsame⟩ := hs.calls hc
  exact ⟨⟨ht.next_le, ht.sum⟩, ⟨hsame.levelTwoBits, hsame.first, hsame.end_, hsame.mayGrow⟩⟩

/-! ## Growing -/

/-- What a growth that succeeds has found. -/
structure Grown (g : CNodeGrowth) (s : Slots) : Prop where
  levelTwoBits : s.levelTwoBits ≠ 0
  mayGrow : s.mayGrow = true
  boundary : s.end_ % 2 ^ s.levelTwoBits = 0
  made : g.made = true

theorem growSlots_cases (g : CNodeGrowth) (s : Slots) :
    s.growSlots g = (false, s) ∨ s.growSlots g = (false, s.retyped g) ∨
      Grown g s ∧ s.growSlots g = (true, (s.retyped g).continueAt s.l1Slot) := by
  rw [growSlots]
  split_ifs with hoff hend hmade
  · exact Or.inl rfl
  · exact Or.inl rfl
  · exact Or.inr (Or.inl rfl)
  · simp only [not_or, Bool.not_eq_false, not_not] at hoff hend hmade
    exact Or.inr (Or.inr ⟨⟨hoff.1, hoff.2.1, hend, hmade.1⟩, rfl⟩)

theorem Grown.end_le (h : Grown g s) : s.end_ ≤ s.l1Slot * 2 ^ s.levelTwoBits := by
  have hdiv : s.end_ / 2 ^ s.levelTwoBits * 2 ^ s.levelTwoBits = s.end_ := Nat.div_mul_cancel (Nat.dvd_of_mod_eq_zero h.boundary)
  calc s.end_ = s.end_ / 2 ^ s.levelTwoBits * 2 ^ s.levelTwoBits := hdiv.symm
    _ ≤ s.l1Slot * 2 ^ s.levelTwoBits := Nat.mul_le_mul_right _ (le_max_left _ _)

def newSlots (s : Slots) : List ℕ := List.range' (s.l1Slot * 2 ^ s.levelTwoBits) (2 ^ s.levelTwoBits)

section
variable (h : s.Counted) (hc : LegalCalls g.calls { s with growing := true }) (hg : Grown g s)
include h hc hg

theorem Counted.continueAt_eq : ((s.retyped g).continueAt s.l1Slot).next = s.l1Slot * 2 ^ s.levelTwoBits ∧
    ((s.retyped g).continueAt s.l1Slot).used + (s.retyped g).next = (s.retyped g).used + s.l1Slot * 2 ^ s.levelTwoBits ∧
    ((s.retyped g).continueAt s.l1Slot).end_ = s.l1Slot * 2 ^ s.levelTwoBits + 2 ^ s.levelTwoBits := by
  obtain ⟨ht, hsame⟩ := h.retyped hc
  have hle := ht.next_le
  have hend := hg.end_le
  rw [hsame.end_] at hle
  simp only [continueAt, hsame.levelTwoBits, Nat.succ_mul]
  refine ⟨?_, ?_, trivial⟩
  · split_ifs <;> omega
  · split_ifs <;> omega

theorem Counted.continueAt : ((s.retyped g).continueAt s.l1Slot).Counted := by
  obtain ⟨ht, hsame⟩ := h.retyped hc
  obtain ⟨hn, hu, he⟩ := h.continueAt_eq hc hg
  refine ⟨by rw [hn, he]; exact Nat.le_add_right _ _, ?_⟩
  have hsum := ht.sum
  have hle := ht.next_le
  have hend := hg.end_le
  rw [hsame.end_] at hle
  have hfree : ((s.retyped g).continueAt s.l1Slot).free = (s.retyped g).free := rfl
  have hfirst : ((s.retyped g).continueAt s.l1Slot).first = (s.retyped g).first := rfl
  rw [hfree, hfirst, hn]
  omega

theorem Counted.continueAt_available :
    ((s.retyped g).continueAt s.l1Slot).available = (s.retyped g).free ++ s.newSlots := by
  obtain ⟨hn, -, he⟩ := h.continueAt_eq hc hg
  rw [available, hn, he, Nat.add_sub_cancel_left]
  rfl

end

/-- **Every growth keeps the count**, also one that is refused. -/
theorem Counted.growSlots (h : s.Counted) (hc : LegalCalls g.calls { s with growing := true }) :
    (s.growSlots g).2.Counted := by
  rcases growSlots_cases g s with he | he | ⟨hg, he⟩
  · rwa [he]
  · rw [he]
    exact (h.retyped hc).1
  · rw [he]
    exact h.continueAt hc hg

theorem Counted.takeOrGrow {gs : List CNodeGrowth} (h : s.Counted) (hc : LegalGrowths gs s) :
    (s.takeOrGrow gs).2.Counted := by
  have hlast {t : Slots} (ht : t.Counted) (hlt : t.next < t.end_) :
      Counted { t with next := t.next + 1, used := t.used + 1 } :=
    ⟨hlt, by have := ht.sum; show t.first + (t.used + 1) + t.free.length = t.next + 1; omega⟩
  induction gs generalizing s with
  | nil =>
    rw [Slots.takeOrGrow]
    split_ifs with hlt
    · exact hlast h hlt
    · exact h
  | cons g gs ih =>
    rw [Slots.takeOrGrow]
    split_ifs with hlt hgrown
    · exact hlast h hlt
    · exact ih (h.growSlots hc.1) hc.2
    · exact h.growSlots hc.1

/-! ## Any run -/

/-- A call for slots. -/
inductive Op where
  | call (c : SlotCall)
  | alloc (gs : List CNodeGrowth)
  | run (g : CNodeGrowth) (count : ℕ)
  | refill (g : CNodeGrowth) (needed : ℕ)

def step (s : Slots) : Op → Slots
  | .call c => s.call c
  | .alloc gs => (s.allocSlot gs).2
  | .run g count => (s.allocSlotRun g count).2
  | .refill g needed => s.refill g needed

/-- What is given back is out, also while a CNode is made. -/
def LegalOp (s : Slots) : Op → Prop
  | .call c => s.Legal c
  | .alloc gs => LegalGrowths gs s
  | .run g _ | .refill g _ => LegalCalls g.calls { s with growing := true }

/-- A two-level run as it was adopted, after any calls. -/
inductive Reached : Slots → Prop where
  | adopted (first count l2 cnodeIndex : ℕ) (growable : Bool) : Reached (adoptLevelTwo first count l2 cnodeIndex growable)
  | step {s : Slots} (op : Op) (h : Reached s) (hl : s.LegalOp op) : Reached (s.step op)

theorem Counted.step {op : Op} (h : s.Counted) (hl : s.LegalOp op) : (s.step op).Counted := by
  cases op with
  | call c => exact (h.call hl).1
  | alloc gs =>
    rw [Slots.step, allocSlot]
    split_ifs
    · exact h.takeOrGrow hl
    · exact h.take.1
  | run g count =>
    rw [Slots.step, allocSlotRun]
    split_ifs with hfits hend hgrown
    · exact h
    · -- the CNode has room for what fits in one
      rcases growSlots_cases g s with he | he | ⟨hg, he⟩
      · rw [he] at hgrown
        cases hgrown
      · rw [he] at hgrown
        cases hgrown
      · obtain ⟨hn, -, he'⟩ := h.continueAt_eq hl hg
        have hcount : count ≤ 2 ^ s.levelTwoBits := by
          simp only [fitsCNode, Bool.not_eq_false, Bool.or_eq_true, decide_eq_true_eq, hg.levelTwoBits, false_or] at hfits
          omega
        rw [he]
        exact ((h.continueAt hl hg).advance (by rw [hn, he']; omega)).1
    · exact h.growSlots hl
    · exact (h.advance (by omega)).1
  | refill g needed =>
    rw [Slots.step, Slots.refill]
    split_ifs
    · exact h.growSlots hl
    · exact h

theorem Reached.counted (h : Reached s) : s.Counted := by
  induction h with
  | adopted first count l2 cnodeIndex growable => exact ⟨Nat.le_add_right _ _, rfl⟩
  | step op _ hl ih => exact ih.step hl

/-- What a growth is for: once the CNode is there, its slots can be handed out and every
    one that could before, and `free_slots` is how many these are. -/
def GrowthExact (g : CNodeGrowth) (s : Slots) : Prop :=
  ∃ l l', Drains (s.retyped g) l ∧ Drains (s.growSlots g).2 l' ∧ l'.Perm (l ++ s.newSlots) ∧
    (s.growSlots g).2.freeSlots = l'.length

/-- **A growth loses no slot exactly when the cursor was at the end of the run.** -/
theorem growSlots_exact (h : Reached s) (hc : LegalCalls g.calls { s with growing := true })
    (hgrown : (s.growSlots g).1 = true) : GrowthExact g s ↔ (s.retyped g).next = s.end_ := by
  rcases growSlots_cases g s with he | he | ⟨hg, he⟩
  · rw [he] at hgrown
    cases hgrown
  · rw [he] at hgrown
    cases hgrown
  obtain ⟨ht, hsame⟩ := h.counted.retyped hc
  have hav := h.counted.continueAt_available hc hg
  have hav' : (s.retyped g).available =
      (s.retyped g).free ++ List.range' (s.retyped g).next (s.end_ - (s.retyped g).next) := by rw [available, hsame.end_]
  have hle := ht.next_le
  rw [hsame.end_] at hle
  constructor
  · rintro ⟨l, l', hl, hl', hperm, -⟩
    obtain rfl := hl.unique (drains_available _)
    rw [he] at hl'
    obtain rfl := hl'.unique (drains_available _)
    -- what lay ahead of the cursor is missing
    have hlen := hperm.length_eq
    rw [hav, hav'] at hlen
    simp only [List.length_append, List.length_range'] at hlen
    omega
  · intro hend
    refine ⟨_, _, drains_available _, drains_available _, ?_, ?_⟩
    · rw [he, hav, hav', hend, Nat.sub_self, List.range'_zero, List.append_nil]
    · rw [he]
      exact (h.counted.continueAt hc hg).freeSlots_eq

def fourLeft : Slots := (adoptLevelTwo 0 16 4 1 true).step (.call (.run 12))

theorem fourLeft_reached : Reached fourLeft := .step (.call (.run 12)) (.adopted 0 16 4 1 true) trivial

/-- **The four slots are lost**: the sixteen of the new CNode are handed out, and no other. -/
theorem refill_loses_slots : Reached fourLeft ∧ fourLeft.freeSlots = 4 ∧ (fourLeft.growSlots ⟨[], true⟩).1 = true ∧
    fourLeft.refill ⟨[], true⟩ 6 = (fourLeft.growSlots ⟨[], true⟩).2 ∧
      Drains fourLeft (List.range' 28 4) ∧ Drains (fourLeft.refill ⟨[], true⟩ 6) (List.range' 32 16) ∧
        ¬GrowthExact ⟨[], true⟩ fourLeft := by
  refine ⟨fourLeft_reached, rfl, rfl, rfl, drains_available _, drains_available _, ?_⟩
  rintro ⟨l, l', hl, hl', hperm, -⟩
  obtain rfl := hl.unique (drains_available _)
  obtain rfl := hl'.unique (drains_available _)
  exact absurd hperm.length_eq (by decide)

/-- A run that is spent grows by the whole of the next CNode. -/
theorem growSlots_exact_spent :
    GrowthExact ⟨[], true⟩ ((adoptLevelTwo 0 16 4 1 true).step (.call (.run 16))) :=
  (growSlots_exact (g := ⟨[], true⟩) (.step (.call (.run 16)) (.adopted 0 16 4 1 true) trivial) trivial rfl).mpr rfl

end Slots

end Aegir.Mem
