/-
  Windows of device memory (aegir/mem/allocator.cc, `Allocator::device_window`).
-/
import Aegir.Mem.Slots
import Aegir.Mem.VSpace

namespace Aegir.Mem

/-- `seL4_UntypedDesc` -/
structure UntypedDesc where
  paddr : ℕ
  sizeBits : ℕ
  isDevice : Bool

/-- A frame the kernel has carved: the slot of its capability, and where it is. -/
structure DeviceFrame where
  slot : ℕ
  paddr : ℕ
  deriving DecidableEq

/-- The kernel's side: the bytes carved from each untyped, the frames in the order they
    were carved, and the slots that hold some other capability. -/
structure DeviceKernel where
  watermark : ℕ → ℕ
  frames : List DeviceFrame
  filled : ℕ → Bool

/-- The root task's allocator, and the kernel it asks. -/
structure Delegator where
  /-- `bootinfo_->untypedList` -/
  untypeds : List UntypedDesc
  slots : Slots
  kernel : DeviceKernel

namespace DeviceKernel

/-- `seL4_Untyped_Retype` of a 4 KiB frame, from the `i`-th untyped. -/
def retype (k : DeviceKernel) (i : ℕ) (desc : UntypedDesc) (slot : ℕ) : Error × DeviceKernel :=
  if k.filled slot = true ∨ ∃ f ∈ k.frames, f.slot = slot then (.deleteFirst, k)
  else if 2 ^ desc.sizeBits < k.watermark i + kPage then (.notEnoughMemory, k)
  else (.noError, { k with
    watermark := fun j => if j = i then k.watermark i + kPage else k.watermark j
    frames := k.frames ++ [⟨slot, desc.paddr + k.watermark i⟩] })

theorem retype_noError {k : DeviceKernel} {i slot : ℕ} {desc : UntypedDesc} (h : (k.retype i desc slot).1 = .noError) :
    (k.retype i desc slot).2 = { k with
      watermark := fun j => if j = i then k.watermark i + kPage else k.watermark j
      frames := k.frames ++ [⟨slot, desc.paddr + k.watermark i⟩] } := by
  rw [retype] at h ⊢
  split at h
  · cases h
  · split at h
    · cases h
    · rename_i hfilled hroom
      rw [if_neg hfilled, if_neg hroom]

end DeviceKernel

namespace Delegator

/-- The untyped covers `pages` pages from `base` on; the sum is a 64-bit one. -/
def covers (desc : UntypedDesc) (base pages : ℕ) : Bool :=
  desc.isDevice && decide (desc.paddr ≤ base ∧ (base - desc.paddr + pages * kPage) % 2 ^ 64 ≤ 2 ^ desc.sizeBits)

/-- The first untyped of the list that covers the pages, with its index. -/
def covering (base pages : ℕ) : List UntypedDesc → ℕ → Option (ℕ × UntypedDesc)
  | [], _ => none
  | desc :: descs, i => if covers desc base pages then some (i, desc) else covering base pages descs (i + 1)

/-- The loop over the pages: what went wrong, the first slot and what is left.  `region` is
    what the node source answers with if a slot is given back. -/
def carvePages (i : ℕ) (desc : UntypedDesc) (region : ℕ) : ℕ → Delegator → Error × ℕ × Delegator
  | 0, d => (.noError, 0, d)
  | n + 1, d =>
    let slot := (d.slots.allocSlot []).1.getD 0
    let d := { d with slots := (d.slots.allocSlot []).2 }
    if slot = 0 then (.notEnoughMemory, 0, d)
    else if (d.kernel.retype i desc slot).1 = .noError then
      let r := carvePages i desc region n { d with kernel := (d.kernel.retype i desc slot).2 }
      (r.1, slot, r.2.2)
    else ((d.kernel.retype i desc slot).1, 0, { d with slots := d.slots.slotFailed slot region })

/-- `device_window`: whether there is a window, `*first_out`, `*error` and what is left. -/
def deviceWindow (base pages region : ℕ) (d : Delegator) : Bool × ℕ × Error × Delegator :=
  if pages = 0 then (false, 0, .invalidArgument, d) else
  match covering base pages d.untypeds 0 with
  | none => (false, 0, .invalidArgument, d)
  | some (i, desc) =>
    let r := carvePages i desc region pages d
    (decide (r.1 = .noError), r.2.1, r.1, r.2.2)

/-! ## What is carved -/

def framesAt : List ℕ → ℕ → List DeviceFrame
  | [], _ => []
  | slot :: slots, paddr => ⟨slot, paddr⟩ :: framesAt slots (paddr + kPage)

theorem framesAt_range' (first n paddr : ℕ) :
    framesAt (List.range' first n) paddr = (List.range n).map fun i => ⟨first + i, paddr + i * kPage⟩ := by
  induction n generalizing first paddr with
  | zero => rfl
  | succ n ih =>
    rw [List.range'_succ, framesAt, ih, List.range_succ_eq_map, List.map_cons, List.map_map]
    simp only [Function.comp_def, Nat.succ_eq_add_one, Nat.add_zero, Nat.zero_mul, Nat.succ_mul]
    refine congrArg _ (List.map_congr_left fun i _ => ?_)
    rw [Nat.add_assoc first, Nat.add_comm 1 i, Nat.add_assoc paddr, Nat.add_comm kPage]

theorem framesAt_inj {l l' : List ℕ} {a a' : ℕ} (hl : l ≠ []) :
    framesAt l a = framesAt l' a' ↔ l = l' ∧ a = a' := by
  constructor
  · intro h
    induction l generalizing l' a a' with
    | nil => exact absurd rfl hl
    | cons slot l ih =>
      cases l' with
      | nil => cases h
      | cons slot' l' =>
        simp only [framesAt, List.cons.injEq, DeviceFrame.mk.injEq] at h
        obtain ⟨⟨rfl, rfl⟩, h⟩ := h
        refine ⟨?_, rfl⟩
        rcases eq_or_ne l [] with rfl | hne
        · cases l' with
          | nil => rfl
          | cons => cases h
        · rw [(ih hne h).1]
  · rintro ⟨rfl, rfl⟩
    rfl

variable {i n base pages region first : ℕ} {desc : UntypedDesc} {d d' : Delegator} {error : Error}

/-- **What a loop that ends well has carved**: from the watermark on, into the slots that
    were to be handed out. -/
theorem carvePages_noError (h : (carvePages i desc region n d).1 = .noError) :
    (carvePages i desc region n d).2.2.kernel.frames =
        d.kernel.frames ++ framesAt (d.slots.available.take n) (desc.paddr + d.kernel.watermark i) ∧
      n ≤ d.slots.available.length ∧
      (0 < n → d.slots.available.head? = some (carvePages i desc region n d).2.1) := by
  induction n generalizing d with
  | zero => exact ⟨(List.append_nil _).symm, Nat.zero_le _, fun h => absurd h (lt_irrefl _)⟩
  | succ n ih =>
    rcases hav : d.slots.available with _ | ⟨slot, l⟩
    · rw [carvePages, Slots.allocSlot_spent hav] at h
      cases h
    · obtain ⟨s, hs, hl⟩ := Slots.allocSlot_available hav
      simp only [carvePages, hs, Option.getD_some] at h ⊢
      by_cases hzero : slot = 0
      · rw [if_pos hzero] at h
        cases h
      rw [if_neg hzero] at h ⊢
      by_cases hok : (d.kernel.retype i desc slot).1 = .noError
      · rw [if_pos hok] at h ⊢
        obtain ⟨hf, hlen, -⟩ := ih h
        rw [DeviceKernel.retype_noError hok] at hf ⊢
        simp only [if_pos, hl] at hf hlen
        refine ⟨?_, by rw [List.length_cons]; omega, fun _ => rfl⟩
        rw [hf, List.take_succ_cons, framesAt, List.append_assoc, List.singleton_append, Nat.add_assoc desc.paddr]
      · rw [if_neg hok] at h
        exact absurd h hok

/-- What was asked for: frame `i` at `base + i * 4096`, in the `i`-th slot from `first` on. -/
def WindowExact (base pages first : ℕ) (d d' : Delegator) : Prop :=
  d'.kernel.frames = d.kernel.frames ++ (List.range pages).map fun i => ⟨first + i, base + i * kPage⟩

/-- The untyped's watermark stands at `base`, and the slots handed out next are consecutive. -/
def Ready (base pages : ℕ) (d : Delegator) : Prop :=
  (∀ i desc, covering base pages d.untypeds 0 = some (i, desc) → desc.paddr + d.kernel.watermark i = base) ∧
    ∃ first, d.slots.available.take pages = List.range' first pages

/-- **A window is what was asked for exactly when the watermark stands at its beginning and
    the slots handed out next are consecutive.** -/
theorem deviceWindow_exact (h : deviceWindow base pages region d = (true, first, error, d')) :
    WindowExact base pages first d d' ↔ Ready base pages d := by
  rw [deviceWindow] at h
  split_ifs at h with hpages
  · cases h
  split at h
  · cases h
  rename_i i desc hcov
  simp only [Prod.mk.injEq, decide_eq_true_eq] at h
  obtain ⟨hok, rfl, -, rfl⟩ := h
  obtain ⟨hf, hlen, hhead⟩ := carvePages_noError hok
  have hpos : 0 < pages := Nat.pos_of_ne_zero hpages
  have hne : d.slots.available.take pages ≠ [] := by
    rw [ne_eq, List.take_eq_nil_iff, not_or]
    exact ⟨hpages, fun hc => by rw [hc, List.length_nil] at hlen; omega⟩
  rw [WindowExact, hf, ← framesAt_range', List.append_cancel_left_eq, framesAt_inj hne, Ready]
  constructor
  · rintro ⟨hslots, hbase⟩
    refine ⟨fun j desc' hj => ?_, _, hslots⟩
    obtain ⟨rfl, rfl⟩ := Prod.mk.inj (Option.some.inj (hcov.symm.trans hj))
    exact hbase
  · rintro ⟨hbase, first', hslots⟩
    have hfirst : d.slots.available.head? = some first' := by
      have htake := congrArg List.head? hslots
      rw [List.head?_take, if_neg hpages] at htake
      rw [htake, List.head?_range', if_neg hpages]
    rw [hhead hpos, Option.some.injEq] at hfirst
    exact ⟨by rw [hslots, hfirst], hbase i desc hcov⟩

/-- A device of sixteen pages at `0x10000000`. -/
def sixteenPages : Delegator :=
  { untypeds := [⟨0x10000000, 16, true⟩], slots := .initialise 100 200
    kernel := { watermark := fun _ => 0, frames := [], filled := fun _ => false } }

/-- **The second page is asked for, and the frame is the first.** -/
theorem deviceWindow_skips : (deviceWindow 0x10001000 1 0 sixteenPages).1 = true ∧
    (deviceWindow 0x10001000 1 0 sixteenPages).2.2.2.kernel.frames = [⟨100, 0x10000000⟩] ∧
      ¬WindowExact 0x10001000 1 (deviceWindow 0x10001000 1 0 sixteenPages).2.1 sixteenPages
        (deviceWindow 0x10001000 1 0 sixteenPages).2.2.2 := by
  refine ⟨by decide +kernel, by decide +kernel, ?_⟩
  rw [WindowExact]
  decide +kernel

/-- Two pages from the device's beginning on. -/
theorem deviceWindow_exact_sixteen : WindowExact 0x10000000 2 100 sixteenPages
    (deviceWindow 0x10000000 2 0 sixteenPages).2.2.2 := by
  have h : deviceWindow 0x10000000 2 0 sixteenPages =
      (true, 100, .noError, (deviceWindow 0x10000000 2 0 sixteenPages).2.2.2) :=
    Prod.ext (by decide +kernel) (Prod.ext (by decide +kernel) (Prod.ext (by decide +kernel) rfl))
  refine (deviceWindow_exact h).mpr ⟨fun i desc hc => ?_, 100, by decide⟩
  have hcov : covering 0x10000000 2 sixteenPages.untypeds 0 = some (0, ⟨0x10000000, 16, true⟩) := by
    rw [sixteenPages, covering, if_pos (by decide +kernel)]
  obtain ⟨rfl, rfl⟩ := Prod.mk.inj (Option.some.inj (hcov.symm.trans hc))
  rfl

end Delegator

end Aegir.Mem
