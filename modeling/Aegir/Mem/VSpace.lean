/-
  The kernel's side of an address space.
-/
import Mathlib

namespace Aegir.Mem

/-- `seL4_Error`, in the order of its values 0 to 10. -/
inductive Error where
  | noError | invalidArgument | invalidCapability | illegalOperation | rangeError | alignmentError
  | failedLookup | truncatedMessage | deleteFirst | revokeFirst | notEnoughMemory
  deriving DecidableEq, Repr

/-- `seL4_PageBits` -/
def pageBits : ℕ := 12

/-- `seL4_LargePageBits` -/
def largePageBits : ℕ := 21

@[irreducible] def kPage : ℕ := 2 ^ pageBits

@[irreducible] def kLargePage : ℕ := 2 ^ largePageBits

theorem kPage_eq : kPage = 4096 := by decide +kernel

theorem kLargePage_eq : kLargePage = 2097152 := by decide +kernel

theorem kPage_pos : 0 < kPage := by simp [kPage_eq]

theorem kLargePage_pos : 0 < kLargePage := by simp [kLargePage_eq]

/-- What a leaf entry maps: the frame of a capability, `2 ^ bits` bytes at `address`. -/
structure Leaf where
  frame : ℕ
  address : ℕ
  bits : ℕ
  deriving DecidableEq, Repr

/-- An address space: its page tables, each the level it is at and the part of the
    space it is for, and the frames mapped in it. -/
structure VSpace where
  /-- `seL4_UserTop` -/
  userTop : ℕ
  tables : List (ℕ × ℕ)
  leaves : List Leaf

namespace VSpace

/-- The table of `address`'s gigabyte. -/
def upper (address : ℕ) : ℕ × ℕ := (1, address / 2 ^ 30)

/-- The table of `address`'s 2 MiB region. -/
def lower (address : ℕ) : ℕ × ℕ := (0, address / 2 ^ 21)

/-- Where the walk to `address` ends: the bits it has not used. -/
def ptBitsLeft (v : VSpace) (address : ℕ) : ℕ :=
  if upper address ∉ v.tables then 30
  else if lower address ∉ v.tables then largePageBits
  else pageBits

/-- Whether the entry the walk to `address` ends at holds a frame. -/
def taken (v : VSpace) (address : ℕ) : Bool :=
  v.leaves.any fun l => decide (l.bits = v.ptBitsLeft address ∧
    l.address / 2 ^ l.bits = address / 2 ^ l.bits)

/-- `seL4_RISCV_Page_Map` of a frame of `2 ^ bits` bytes. -/
def pageMap (v : VSpace) (frame bits address : ℕ) : Error × VSpace :=
  if v.userTop < address + 2 ^ bits then (.invalidArgument, v)
  else if address % 2 ^ bits ≠ 0 then (.alignmentError, v)
  else if v.ptBitsLeft address ≠ bits then (.failedLookup, v)
  else match v.leaves.find? fun l => l.frame = frame with
    -- a mapping of the frame's own is only given other rights
    | some l => if l.address = address then (.noError, v) else (.invalidArgument, v)
    | none =>
      if v.taken address then (.deleteFirst, v)
      else (.noError, { v with leaves := ⟨frame, address, bits⟩ :: v.leaves })

/-- `seL4_RISCV_PageTable_Map`: the next table the walk to `address` misses. -/
def pageTableMap (v : VSpace) (address : ℕ) : Error × VSpace :=
  if v.userTop ≤ address then (.invalidArgument, v)
  else if v.ptBitsLeft address = pageBits ∨ v.taken address then (.deleteFirst, v)
  else if v.ptBitsLeft address = 30 then (.noError, { v with tables := upper address :: v.tables })
  else (.noError, { v with tables := lower address :: v.tables })

/-- `seL4_RISCV_Page_Unmap` -/
def pageUnmap (v : VSpace) (frame : ℕ) : VSpace :=
  { v with leaves := v.leaves.filter fun l => l.frame ≠ frame }

end VSpace

end Aegir.Mem
