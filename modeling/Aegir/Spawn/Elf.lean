/-
  What the loader reads of an ELF image (aegir-spawn, `elf.cc`).

  A field is read at its offset from the image's start, and the spans that are read are kept.
  Offsets and sizes are 64-bit numbers, as the image has them; the sums the source checks and the
  places it reads at wrap, so a span may lie outside the image.
-/
import Aegir.Lib.Bytes
import Aegir.Lib.Fallible

namespace Aegir.Spawn

open Aegir.Lib Aegir.Lib.Buf Aegir.Lib.Fallible

def kClass64 : ℕ := 2
def kDataLittleEndian : ℕ := 1
def kTypeExecutable : ℕ := 2
def kTypeDynamic : ℕ := 3
def kMachineRiscV : ℕ := 243

def kEntryOffset : ℕ := 24
def kProgramHeaderOffsetOffset : ℕ := 32
def kProgramHeaderEntrySizeOffset : ℕ := 54
def kProgramHeaderCountOffset : ℕ := 56
def kProgramHeaderSize : ℕ := 56

def kProgramHeaderLoad : ℕ := 1
def kProgramHeaderGnuStack : ℕ := 0x6474e551

structure ProgramHeader where
  type : ℕ
  flags : ℕ
  offset : ℕ
  vaddr : ℕ
  filesz : ℕ
  memsz : ℕ
  align : ℕ

/-- What `parse` sets, but for the image itself. -/
structure Elf where
  entry : ℕ
  programHeaderOffset : ℕ
  programHeaderCount : ℕ
  programHeaderSize : ℕ
  loadEnd : ℕ
  stackSize : ℕ

abbrev Span := ℕ × ℕ

/-- The bytes from the image's start on, with the spans that were read. -/
abbrev M := Fallible (List Span)

section
variable (image : Buf) (size : ℕ)

def read (width at_ : ℕ) : M ℕ := do
  modify ((at_, width) :: ·)
  pure (le width image at_)

def Elf.fieldAt (e : Elf) (index field : ℕ) : ℕ :=
  (e.programHeaderOffset + index * e.programHeaderSize + field) % 2 ^ 64

def programHeader (e : Elf) (index : ℕ) : M ProgramHeader :=
  if e.programHeaderCount ≤ index then pure ⟨0, 0, 0, 0, 0, 0, 0⟩
  else do
    let type ← read image 4 (e.fieldAt index 0)
    let flags ← read image 4 (e.fieldAt index 4)
    let offset ← read image 8 (e.fieldAt index 8)
    let vaddr ← read image 8 (e.fieldAt index 16)
    let filesz ← read image 8 (e.fieldAt index 32)
    let memsz ← read image 8 (e.fieldAt index 40)
    let align ← read image 8 (e.fieldAt index 48)
    pure ⟨type, flags, offset, vaddr, filesz, memsz, align⟩

/-- The loop of `parse` over the program headers. -/
def segments : List ℕ → Elf → M Elf
  | [], e => pure e
  | i :: rest, e => do
    let header ← programHeader image e i
    if header.type = kProgramHeaderGnuStack then segments rest { e with stackSize := header.memsz }
    else if header.type ≠ kProgramHeaderLoad then segments rest e
    else do
      check (decide ((header.offset + header.filesz) % 2 ^ 64 ≤ size))
      segments rest { e with loadEnd := max e.loadEnd ((header.vaddr + header.memsz) % 2 ^ 64) }

def expect (byte : Span) : M Unit := do
  let got ← read image 1 byte.1
  check (got == byte.2)

def parse : M Elf := do
  check (decide (kProgramHeaderEntrySizeOffset + 2 ≤ size))
  forEach (expect image) [(0, 0x7f), (1, 0x45), (2, 0x4c), (3, 0x46), (4, kClass64), (5, kDataLittleEndian)]
  let type ← read image 2 16
  when (type ≠ kTypeExecutable) (do
    let type ← read image 2 16
    check (type == kTypeDynamic))
  let machine ← read image 2 18
  check (machine == kMachineRiscV)
  let entry ← read image 8 kEntryOffset
  let offset ← read image 8 kProgramHeaderOffsetOffset
  let entrySize ← read image 2 kProgramHeaderEntrySizeOffset
  let count ← read image 2 kProgramHeaderCountOffset
  check (decide (count ≠ 0 ∧ kProgramHeaderSize ≤ entrySize))
  check (decide ((offset + count * entrySize) % 2 ^ 64 ≤ size))
  segments image size (List.range count) ⟨entry, offset, count, entrySize, 0, 0⟩

/-- The header `programHeader` answers. -/
def Elf.header (e : Elf) (i : ℕ) : ProgramHeader :=
  ⟨le 4 image (e.fieldAt i 0), le 4 image (e.fieldAt i 4), le 8 image (e.fieldAt i 8), le 8 image (e.fieldAt i 16),
    le 8 image (e.fieldAt i 32), le 8 image (e.fieldAt i 40), le 8 image (e.fieldAt i 48)⟩

def Elf.Loads (e : Elf) (i : ℕ) : Prop := i < e.programHeaderCount ∧ (e.header image i).type = kProgramHeaderLoad

/-- Nothing that was read is outside the image, and each segment's bytes and addresses are where they
    are said to be. -/
structure Elf.Inside (e : Elf) (seen : List Span) : Prop where
  reads : ∀ span ∈ seen, span.1 + span.2 ≤ size
  file : ∀ i, e.Loads image i → (e.header image i).offset + (e.header image i).filesz ≤ size
  memory : ∀ i, e.Loads image i → (e.header image i).filesz ≤ (e.header image i).memsz
  addresses : ∀ i, e.Loads image i → (e.header image i).vaddr + (e.header image i).memsz < 2 ^ 64
  span : ∀ i, e.Loads image i → (e.header image i).vaddr + (e.header image i).memsz ≤ e.loadEnd

/-- The fields of an image whose sums do not wrap: it has all of its header, and no segment has more
    bytes in the file than in memory. -/
structure Elf.Plain (e : Elf) : Prop where
  whole : kProgramHeaderCountOffset + 2 ≤ size
  table : e.programHeaderOffset + e.programHeaderCount * e.programHeaderSize < 2 ^ 64
  file : ∀ i, e.Loads image i → (e.header image i).offset + (e.header image i).filesz < 2 ^ 64
  memory : ∀ i, e.Loads image i → (e.header image i).filesz ≤ (e.header image i).memsz
  addresses : ∀ i, e.Loads image i → (e.header image i).vaddr + (e.header image i).memsz < 2 ^ 64

end

/-! ## What a parse reads -/

variable {image : Buf} {size : ℕ} {seen seen' : List Span} {e e' : Elf}

theorem read_some {width at_ n : ℕ} (h : read image width at_ seen = (some n, seen')) :
    n = le width image at_ ∧ seen' = (at_, width) :: seen := by
  cases h
  exact ⟨rfl, rfl⟩

def Elf.spans (e : Elf) (i : ℕ) : List Span :=
  [(e.fieldAt i 48, 8), (e.fieldAt i 40, 8), (e.fieldAt i 32, 8), (e.fieldAt i 16, 8), (e.fieldAt i 8, 8),
    (e.fieldAt i 4, 4), (e.fieldAt i 0, 4)]

theorem programHeader_run {i : ℕ} (hi : i < e.programHeaderCount) :
    programHeader image e i seen = (some (e.header image i), e.spans i ++ seen) := by
  rw [programHeader, if_neg (Nat.not_le.2 hi)]
  rfl

/-- Two results of `parse` with the same program headers. -/
structure Elf.Same (e e' : Elf) : Prop where
  offset : e'.programHeaderOffset = e.programHeaderOffset
  count : e'.programHeaderCount = e.programHeaderCount
  entrySize : e'.programHeaderSize = e.programHeaderSize

theorem Elf.Same.fieldAt (h : e.Same e') (i field : ℕ) : e'.fieldAt i field = e.fieldAt i field := by
  rw [Elf.fieldAt, Elf.fieldAt, h.offset, h.entrySize]

theorem Elf.Same.header (h : e.Same e') (i : ℕ) : e'.header image i = e.header image i := by
  simp only [Elf.header, h.fieldAt]

theorem Elf.Same.spans (h : e.Same e') (i : ℕ) : e'.spans i = e.spans i := by
  simp only [Elf.spans, h.fieldAt]

/-- What the loop leaves: the spans of the headers it went over, and each segment checked and below
    the end. -/
structure Scanned (image : Buf) (size : ℕ) (is : List ℕ) (e e' : Elf) (seen seen' : List Span) : Prop where
  same : e.Same e'
  reads : ∀ span, span ∈ seen' ↔ span ∈ seen ∨ ∃ i ∈ is, span ∈ e.spans i
  grows : e.loadEnd ≤ e'.loadEnd
  loads : ∀ i ∈ is, (e.header image i).type = kProgramHeaderLoad →
    ((e.header image i).offset + (e.header image i).filesz) % 2 ^ 64 ≤ size ∧
      ((e.header image i).vaddr + (e.header image i).memsz) % 2 ^ 64 ≤ e'.loadEnd

theorem Scanned.cons {i : ℕ} {is : List ℕ} {next : Elf} (h : Scanned image size is next e' (e.spans i ++ seen) seen')
    (hsame : e.Same next) (hgrows : e.loadEnd ≤ next.loadEnd)
    (hload : (e.header image i).type = kProgramHeaderLoad →
      ((e.header image i).offset + (e.header image i).filesz) % 2 ^ 64 ≤ size ∧
        ((e.header image i).vaddr + (e.header image i).memsz) % 2 ^ 64 ≤ next.loadEnd) :
    Scanned image size (i :: is) e e' seen seen' := by
  refine ⟨⟨h.same.offset.trans hsame.offset, h.same.count.trans hsame.count, h.same.entrySize.trans hsame.entrySize⟩,
    fun span => ?_, hgrows.trans h.grows, fun j hj htype => ?_⟩
  · rw [h.reads span]
    simp only [List.mem_append, List.mem_cons, exists_eq_or_imp, hsame.spans]
    rw [or_assoc, or_left_comm]
  · rcases List.mem_cons.1 hj with rfl | hj
    · exact ⟨(hload htype).1, (hload htype).2.trans h.grows⟩
    · have hrest := h.loads j hj
      rw [hsame.header] at hrest
      exact hrest htype

theorem segments_some {is : List ℕ} (his : ∀ i ∈ is, i < e.programHeaderCount)
    (h : segments image size is e seen = (some e', seen')) : Scanned image size is e e' seen seen' := by
  induction is generalizing e seen with
  | nil =>
    cases h
    exact ⟨⟨rfl, rfl, rfl⟩, fun _ => by simp, le_rfl, fun _ hi => absurd hi List.not_mem_nil⟩
  | cons i is ih =>
    have hrest : ∀ j ∈ is, j < e.programHeaderCount := fun j hj => his j (List.mem_cons_of_mem _ hj)
    rw [segments, bind_of_some (programHeader_run (his i List.mem_cons_self))] at h
    split at h
    · next hstack =>
      exact ((ih · h) hrest).cons ⟨rfl, rfl, rfl⟩ le_rfl fun hload => absurd (hstack.symm.trans hload) (by decide)
    split at h
    · next hother => exact ((ih · h) hrest).cons ⟨rfl, rfl, rfl⟩ le_rfl fun hload => absurd hload hother
    · obtain ⟨hfile, h⟩ := check_bind_eq_some h
      exact ((ih · h) hrest).cons ⟨rfl, rfl, rfl⟩ (le_max_left _ _) fun _ => ⟨of_decide_eq_true hfile, le_max_right _ _⟩

def headerSpans : List Span :=
  [(0, 1), (1, 1), (2, 1), (3, 1), (4, 1), (5, 1), (16, 2), (18, 2), (24, 8), (32, 8), (54, 2), (56, 2)]

theorem expect_some {l : List Span} {u : Unit} (h : forEach (expect image) l seen = (some u, seen')) :
    seen' = (l.map fun byte => (byte.1, 1)).reverse ++ seen := by
  induction l generalizing seen with
  | nil =>
    cases h
    rfl
  | cons byte l ih =>
    obtain ⟨_, s₁, h₁, h⟩ := bind_eq_some h
    obtain ⟨got, s₂, hread, hcheck⟩ := bind_eq_some h₁
    obtain ⟨-, rfl⟩ := read_some hread
    obtain ⟨-, rfl⟩ := check_eq_some hcheck
    rw [ih h]
    simp

/-- What `parse` made sure of, and what it read. -/
structure Parsed (image : Buf) (size : ℕ) (e : Elf) (seen : List Span) : Prop where
  offset : e.programHeaderOffset < 2 ^ 64
  count : 0 < e.programHeaderCount ∧ e.programHeaderCount < 2 ^ 16
  entrySize : kProgramHeaderSize ≤ e.programHeaderSize ∧ e.programHeaderSize < 2 ^ 16
  table : (e.programHeaderOffset + e.programHeaderCount * e.programHeaderSize) % 2 ^ 64 ≤ size
  reads : ∀ span, span ∈ seen ↔ span ∈ headerSpans ∨ ∃ i < e.programHeaderCount, span ∈ e.spans i
  loads : ∀ i, e.Loads image i → ((e.header image i).offset + (e.header image i).filesz) % 2 ^ 64 ≤ size ∧
    ((e.header image i).vaddr + (e.header image i).memsz) % 2 ^ 64 ≤ e.loadEnd

theorem parse_some (h : parse image size [] = (some e, seen)) : Parsed image size e seen := by
  rw [parse] at h
  obtain ⟨-, h⟩ := check_bind_eq_some h
  obtain ⟨_, s₁, h₁, h⟩ := bind_eq_some h
  obtain rfl := expect_some h₁
  obtain ⟨type, s₂, h₂, h⟩ := bind_eq_some h
  obtain ⟨-, rfl⟩ := read_some h₂
  obtain ⟨_, s₃, h₃, h⟩ := bind_eq_some h
  have htwice : ∀ span, span ∈ ((16, 2) :: ([(0, 1), (1, 1), (2, 1), (3, 1), (4, 1), (5, 1)] : List Span).reverse) ↔
      span ∈ headerSpans.take 7 := fun span => List.Perm.mem_iff (by decide)
  -- the type may be read a second time
  have htype : ∀ span, span ∈ s₃ ↔ span ∈ headerSpans.take 7 := by
    intro span
    rw [← htwice]
    rcases when_eq_some h₃ with ⟨-, h₃⟩ | ⟨-, rfl⟩
    · obtain ⟨type, s, hread, hcheck⟩ := bind_eq_some h₃
      obtain ⟨-, rfl⟩ := read_some hread
      obtain ⟨-, rfl⟩ := check_eq_some hcheck
      rw [List.mem_cons, or_iff_right_of_imp fun heq => heq ▸ List.mem_cons_self]
      rfl
    · rfl
  obtain ⟨machine, s₄, h₄, h⟩ := bind_eq_some h
  obtain ⟨-, rfl⟩ := read_some h₄
  obtain ⟨-, h⟩ := check_bind_eq_some h
  obtain ⟨entry, s₅, h₅, h⟩ := bind_eq_some h
  obtain ⟨-, rfl⟩ := read_some h₅
  obtain ⟨offset, s₆, h₆, h⟩ := bind_eq_some h
  obtain ⟨hoffset, rfl⟩ := read_some h₆
  obtain ⟨entrySize, s₇, h₇, h⟩ := bind_eq_some h
  obtain ⟨hentry, rfl⟩ := read_some h₇
  obtain ⟨count, s₈, h₈, h⟩ := bind_eq_some h
  obtain ⟨hcount, rfl⟩ := read_some h₈
  obtain ⟨hnonzero, h⟩ := check_bind_eq_some h
  obtain ⟨htable, h⟩ := check_bind_eq_some h
  obtain ⟨hpos, hle⟩ := of_decide_eq_true hnonzero
  have hscan := (segments_some · h) fun i hi => List.mem_range.1 hi
  have hsame := hscan.same
  have hcountLt := le_lt 2 image kProgramHeaderCountOffset
  have hentryLt := le_lt 2 image kProgramHeaderEntrySizeOffset
  rw [← hcount] at hcountLt
  rw [← hentry] at hentryLt
  refine ⟨?_, ?_, ?_, ?_, fun span => ?_, fun i hi => ?_⟩
  · rw [hsame.offset]
    exact hoffset ▸ le_lt 8 image kProgramHeaderOffsetOffset
  · rw [hsame.count]
    exact ⟨Nat.pos_of_ne_zero hpos, hcountLt⟩
  · rw [hsame.entrySize]
    exact ⟨hle, hentryLt⟩
  · rw [hsame.offset, hsame.count, hsame.entrySize]
    exact of_decide_eq_true htable
  · rw [hscan.reads, hsame.count]
    simp only [hsame.spans, List.mem_range]
    refine or_congr ?_ Iff.rfl
    rw [show ∀ a b c d f : Span, a :: b :: c :: d :: f :: s₃ = [a, b, c, d, f] ++ s₃ from fun _ _ _ _ _ => rfl,
      List.mem_append, htype, ← List.mem_append]
    exact List.Perm.mem_iff (by decide)
  · obtain ⟨hlt, hload⟩ := hi
    rw [hsame.count] at hlt
    rw [hsame.header] at hload ⊢
    exact hscan.loads i (List.mem_range.2 hlt) hload

/-- **An image that is accepted is read inside, and its segments are what they are said to be, exactly
    where its header is whole, no sum wraps and no segment has more bytes in the file than in memory.**
    An image in memory is smaller than half the address space. -/
theorem parse_inside_iff (hsize : size < 2 ^ 63) (h : parse image size [] = (some e, seen)) :
    e.Inside image size seen ↔ e.Plain image size := by
  have hp := parse_some h
  obtain ⟨hcount, hcountLt⟩ := hp.count
  obtain ⟨hentry, hentryLt⟩ := hp.entrySize
  have hbytes : e.programHeaderCount * e.programHeaderSize < 2 ^ 32 :=
    (Nat.mul_lt_mul'' hcountLt hentryLt).trans_eq (by decide)
  constructor
  · intro hin
    refine ⟨hin.reads (kProgramHeaderCountOffset, 2) ((hp.reads _).2 (Or.inl (by decide))), ?_,
      fun i hi => (hin.file i hi).trans_lt (hsize.trans (by decide)), hin.memory, hin.addresses⟩
    -- the first header is read where its offset says, which is inside
    have hfirst := hin.reads (e.fieldAt 0 0, 4) ((hp.reads _).2 (Or.inr ⟨0, hcount, by simp [Elf.spans]⟩))
    rw [Elf.fieldAt, Nat.zero_mul, Nat.add_zero, Nat.mod_eq_of_lt hp.offset] at hfirst
    dsimp only at hfirst
    omega
  · intro hplain
    have htable := hp.table
    rw [Nat.mod_eq_of_lt hplain.table] at htable
    refine ⟨fun span hspan => ?_, fun i hi => ?_, hplain.memory, hplain.addresses, fun i hi => ?_⟩
    · rcases (hp.reads span).1 hspan with hspan | ⟨i, hi, hspan⟩
      · have hwhole := hplain.whole
        have hall : ∀ span ∈ headerSpans, span.1 + span.2 ≤ kProgramHeaderCountOffset + 2 := by decide
        exact (hall span hspan).trans hwhole
      · have hrow : i * e.programHeaderSize + e.programHeaderSize ≤ e.programHeaderCount * e.programHeaderSize := by
          rw [← Nat.succ_mul]
          exact Nat.mul_le_mul_right _ hi
        have hfield : ∀ field width, field + width ≤ kProgramHeaderSize → e.fieldAt i field + width ≤ size := by
          intro field width hle
          have := hplain.table
          rw [Elf.fieldAt, Nat.mod_eq_of_lt (by omega)]
          omega
        simp only [Elf.spans, List.mem_cons, List.not_mem_nil, or_false] at hspan
        rcases hspan with rfl | rfl | rfl | rfl | rfl | rfl | rfl
        all_goals
          dsimp only
          exact hfield _ _ (by decide)
    · have hle := (hp.loads i hi).1
      rwa [Nat.mod_eq_of_lt (hplain.file i hi)] at hle
    · have hle := (hp.loads i hi).2
      rwa [Nat.mod_eq_of_lt (hplain.addresses i hi)] at hle

/-- An image with one segment of `filesz` bytes in the file and `memsz` in memory. -/
def oneSegment (filesz memsz : ℕ) : Buf :=
  let header := put 1 (put 1 (put 4 zero 0 0x464c457f) 4 kClass64) 5 kDataLittleEndian
  let header := put 2 (put 2 header 16 kTypeExecutable) 18 kMachineRiscV
  let header := put 2 (put 2 (put 8 header kProgramHeaderOffsetOffset 64) kProgramHeaderEntrySizeOffset 56) kProgramHeaderCountOffset 1
  put 8 (put 8 (put 4 header 64 kProgramHeaderLoad) 96 filesz) 104 memsz

theorem parse_inside_small : ∃ e seen, parse (oneSegment 120 120) 120 [] = (some e, seen) ∧ e.Inside (oneSegment 120 120) 120 seen := by
  refine ⟨⟨0, 64, 1, 56, 120, 0⟩, _, rfl, (parse_inside_iff (by decide) rfl).2 ⟨by decide, by decide, ?_, ?_, ?_⟩⟩
  all_goals
    rintro i ⟨hi, -⟩
    obtain rfl : i = 0 := Nat.lt_one_iff.1 hi
    decide

/-- A segment with more bytes in the file than in memory is accepted. -/
theorem parse_overfull : ∃ e seen, parse (oneSegment 120 0) 120 [] = (some e, seen) ∧ ¬e.Inside (oneSegment 120 0) 120 seen := by
  refine ⟨⟨0, 64, 1, 56, 0, 0⟩, _, rfl, fun h => ?_⟩
  have hle := h.memory 0 ⟨by decide, by decide⟩
  revert hle
  decide

end Aegir.Spawn
