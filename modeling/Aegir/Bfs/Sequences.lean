/-
  The fields of a stream that say how many bytes its levels cover, over any sequence of
  `grow_to` and `trim_stream` (`bfs.md`, "Data streams").
-/
import Aegir.Bfs.Streams

namespace Aegir.Bfs

open Aegir.Lib Aegir.Lib.Buf Aegir.Lib.Fallible

/-! ## Any sequence -/

/-- A change of the stream in `stream_`. -/
inductive StreamOp where
  | grow (needed covered : ℕ)
  | trim (newBlocks : ℕ)

def StreamOp.run : StreamOp → W Unit
  | grow needed covered => Writer.growTo needed covered
  | trim newBlocks => Writer.trimStream newBlocks

/-- The fields of a stream count the bytes of the runs that are read. -/
structure RangesExact (w : World) (stream : Buf) : Prop where
  direct : le 8 stream DataField.kMaxDirectRange =
    runsLength (runsAt stream DataField.kDirect DataField.kDirectCount) * w.vol.blockSize
  indirect : runIsZero (leRun stream DataField.kIndirect) = false → le 8 stream DataField.kMaxIndirectRange =
    runsLength (runsAt stream DataField.kDirect DataField.kDirectCount ++ arrayRuns w (leRun stream DataField.kIndirect)) *
      w.vol.blockSize
  double : runIsZero (leRun stream DataField.kDoubleIndirect) = false → le 8 stream DataField.kMaxDoubleIndirectRange =
    runsLength (streamRuns w stream) * w.vol.blockSize

def arrayList (w : World) (stream : Buf) : List ℕ :=
  (leRun stream DataField.kIndirect :: leRun stream DataField.kDoubleIndirect ::
    if runIsZero (leRun stream DataField.kDoubleIndirect) then [] else arrayRuns w (leRun stream DataField.kDoubleIndirect)).flatMap
      w.vol.toGeometry.runBlocks

/-- The first `n` blocks are kept, and the others freed with the arrays that list none. -/
structure TrimExact (n : ℕ) (s s' : Writer Session) : Prop where
  kept : streamList s'.world s'.stream = (streamList s.world s.stream).take n
  freed : ∃ freed, s'.frees = s.frees ++ freed ∧
    (freed.flatMap s.world.vol.toGeometry.runBlocks ++ arrayList s'.world s'.stream).Perm
      ((streamList s.world s.stream).drop n ++ arrayList s.world s.stream)
  indirect : runIsZero (leRun s'.stream DataField.kIndirect) = true ∨ arrayRuns s'.world (leRun s'.stream DataField.kIndirect) ≠ []
  double : runIsZero (leRun s'.stream DataField.kDoubleIndirect) = true

/-- A cut is not inside the indirect runs. -/
def Outside (g : Geometry) (n : ℕ) (s : Writer Session) : Prop := ∀ p, Held g s p →
  runIsZero p.indirectArray = true ∨ n ≤ runsLength p.direct ∨ runsLength (p.direct ++ p.indirect) ≤ n

/-- What is asked of each run that `grow_to` appends, and of each cut. -/
def StreamOp.Meets (P : Writer Session → Run → Prop) (Q : ℕ → Writer Session → Prop) : StreamOp → Writer Session → Prop
  | grow needed covered, s => EachRun P needed (2 * (needed - covered) + 2) covered 1 s
  | trim newBlocks, s => Q newBlocks s

/-- Changes that go through, one after the other, each of which meets the condition. -/
inductive StreamOp.Runs (P : Writer Session → Run → Prop) (Q : ℕ → Writer Session → Prop) :
    Writer Session → List StreamOp → Writer Session → Prop
  | nil {s : Writer Session} : Runs P Q s [] s
  | cons {s s₁ s' : Writer Session} {op : StreamOp} {ops : List StreamOp} : op.Meets P Q s → op.run s = (some (), s₁) →
    Runs P Q s₁ ops s' → Runs P Q s (op :: ops) s'

section
variable {g : Geometry} {s s' : Writer Session} {p : Parts} {n : ℕ}

theorem Held.arrayList_eq (h : Held g s p) : arrayList s.world s.stream = p.arrayBlocks g := by
  have hd : (if runIsZero p.doubleArray then [] else arrayRuns s.world p.doubleArray) = p.arrays := by
    split
    · exact (h.shows.double_nil ‹_›).1.symm
    · exact arrayRuns_eq h.sane.geometry h.shows.double.listed
  rw [arrayList, h.shows.indirectArray, h.shows.doubleArray, hd, h.sane.geometry, Parts.arrayBlocks, Parts.arrayRuns]

theorem Held.rangesExact_iff (h : Held g s p) : RangesExact s.world s.stream ↔ Ranged g s.stream p := by
  have hd : runsAt s.stream DataField.kDirect DataField.kDirectCount = p.direct := runsAt_filled h.shows.direct
  have hi : arrayRuns s.world p.indirectArray = p.indirect := arrayRuns_eq h.sane.geometry h.shows.indirect
  have hruns := h.shows.streamRuns_eq h.sane.geometry
  constructor
  · rintro ⟨h₁, h₂, h₃⟩
    rw [hd, h.sane.geometry] at h₁
    rw [h.shows.indirectArray, hd, hi, h.sane.geometry] at h₂
    rw [h.shows.doubleArray, hruns, h.sane.geometry] at h₃
    exact ⟨h₁, h₂, h₃⟩
  · rintro ⟨h₁, h₂, h₃⟩
    refine ⟨?_, ?_, ?_⟩
    · rw [hd, h.sane.geometry]; exact h₁
    · rw [h.shows.indirectArray, hd, hi, h.sane.geometry]; exact h₂
    · rw [h.shows.doubleArray, hruns, h.sane.geometry]; exact h₃

theorem CutTo.ranged (h : CutTo g n p s s') (hl : Live g s p) (hr : Ranged g s.stream p) (hout : Outside g n s) :
    Ranged g s'.stream (p.cut n) := by
  refine ⟨h.direct, fun hc => ?_, fun hc => by cases hc⟩
  have hk : keepRuns (n - runsLength p.direct) p.indirect ≠ [] := by
    intro hk
    rw [Parts.cut, keptArray, if_pos hk] at hc
    cases hc
  have hlt : runsLength p.direct < n := by
    by_contra hge
    exact hk (by rw [Nat.sub_eq_zero_of_le (by omega), keepRuns_zero])
  have hz : runIsZero p.indirectArray = false := by
    by_contra hz
    exact hk (by rw [hl.shows.indirect_nil (by simpa using hz)]; rfl)
  have hle : runsLength (p.direct ++ p.indirect) ≤ n := by
    rcases hout p hl.toHeld with h₁ | h₁ | h₁
    · rw [hz] at h₁; cases h₁
    · omega
    · exact h₁
  rw [h.indirect hk, hr.indirect hz]
  rw [runsLength_append] at hle
  simp only [Parts.cut, runsLength_append, runsLength_keepRuns]
  congr 1
  omega

theorem CutTo.trimExact (h : CutTo g n p s s') (hl : Live g s p) : TrimExact n s s' := by
  have hl' := h.live hl
  refine ⟨?_, ⟨p.trimmed g n, h.cuts.frees, ?_⟩, ?_, ?_⟩
  · rw [hl'.toHeld.streamList_eq, hl.toHeld.streamList_eq, h.blocks_eq hl]
  · rw [hl'.toHeld.arrayList_eq, hl.toHeld.streamList_eq, hl.toHeld.arrayList_eq, hl.sane.geometry]
    exact h.freed_perm hl
  · rw [hl'.shows.indirectArray, arrayRuns_eq hl'.sane.geometry hl'.shows.indirect]
    by_cases hk : keepRuns (n - runsLength p.direct) p.indirect = []
    · refine Or.inl ?_
      rw [Parts.cut, keptArray, if_pos hk]
      rfl
    · exact Or.inr hk
  · rw [hl'.shows.doubleArray]
    rfl

theorem StreamOp.Runs.keeps {P : Writer Session → Run → Prop} {Q : ℕ → Writer Session → Prop} {J : Writer Session → Prop}
    {ops : List StreamOp} (h : Runs P Q s ops s')
    (hstep : ∀ (op : StreamOp) s s', J s → op.Meets P Q s → op.run s = (some (), s') → J s') (hJ : J s) : J s' := by
  induction h with
  | nil => exact hJ
  | cons hf hrun _ ih => exact ih (hstep _ _ _ hJ hf hrun)

theorem StreamOp.ranged {op : StreamOp} (hg : g.Single) (hl : Live g s p) (hr : Ranged g s.stream p)
    (hf : op.Meets (Fitting g) (Outside g) s) (h : op.run s = (some (), s')) :
    ∃ p', Live g s' p' ∧ Ranged g s'.stream p' := by
  cases op with
  | grow needed covered =>
    obtain ⟨p', new, hgain, hr'⟩ := hl.growFrom (J := Ranged g) (fun s s' p want minUnit run rest next hcap hl hr hfit hrun => by
      obtain ⟨p', hgain, hr', -⟩ := hl.growRun hg (hr.counted hl.shows) hcap hrun (hfit p hl.toHeld)
      exact ⟨p', _, hgain, hr' hr⟩) hr h hf
    exact ⟨p', hgain.live, hr'⟩
  | trim n =>
    have hcut := trimStream_some hg h hl hr.direct
    exact ⟨p.cut n, hcut.live hl, hcut.ranged hl hr hf⟩

/-- **The fields of a stream** count the bytes of its levels after any sequence of `grow_to`
    and `trim_stream` in which no length wraps and no cut is inside the indirect runs; and a
    cut keeps the first blocks, and frees the others with the arrays that are left empty. -/
theorem ranges_exact {ops : List StreamOp} (hg : g.Single) (hl : Live g s p) (hr : RangesExact s.world s.stream)
    (h : StreamOp.Runs (Fitting g) (Outside g) s ops s') : RangesExact s'.world s'.stream ∧
      ∀ n s'', Writer.trimStream n s' = (some (), s'') → TrimExact n s' s'' := by
  obtain ⟨p', hl', hr'⟩ := h.keeps (J := fun t => ∃ p, Live g t p ∧ Ranged g t.stream p)
    (fun op s s' ⟨p, hl, hr⟩ hf hrun => StreamOp.ranged hg hl hr hf hrun) ⟨p, hl, hl.toHeld.rangesExact_iff.mp hr⟩
  exact ⟨hl'.toHeld.rangesExact_iff.mpr hr', fun n s'' ht => (trimStream_some hg ht hl' hr'.direct).trimExact hl'⟩

/-- The stream got longer, and no other block in use was written or freed; the blocks that list
    its runs aside. -/
structure GrowExact (g : Geometry) (s s' : Writer Session) : Prop where
  appended : streamList s.world s.stream <+: streamList s'.world s'.stream
  once : (streamList s'.world s'.stream).Nodup
  used : ∀ b < g.numBlocks, s.world.inUse b = true → s'.world.inUse b = true
  read : ∀ b < g.numBlocks, g.numAgs < b → s.world.inUse b = true → b ∉ arrayList s.world s.stream → ∀ i < g.blockSize,
    readBlock s'.world b i = readBlock s.world b i

end

/-! ## A cut inside the indirect runs -/

def Parts.none : Parts := ⟨[], ⟨0, 0, 0⟩, [], ⟨0, 0, 0⟩, [], []⟩

theorem Live.none {g : Geometry} {s : Writer Session} (hs : Sane g s.world) (hst : s.stream = zero) : Live g s .none := by
  have hzero : runIsZero ⟨0, 0, 0⟩ = true := rfl
  have hslot : ∀ i, leRun s.stream i = ⟨0, 0, 0⟩ := fun i => by rw [hst, leRun_zero]
  have hblocks : Parts.none.arrayRuns.flatMap g.runBlocks = [] := rfl
  have hdouble : ShowsDouble g (readBlock s.world) ⟨0, 0, 0⟩ [] [] :=
    ⟨.nil_of_empty fun i hi => absurd hi (by simp), fun a ha => absurd ha List.not_mem_nil,
      fun k hk => absurd hk (Nat.not_lt_zero k), Nat.zero_le _, fun a ha => absurd ha List.not_mem_nil⟩
  have hshows : Shows g (readBlock s.world) s.stream .none :=
    ⟨.nil_of_empty fun i _ => by rw [hslot]; rfl, hslot _, .nil_of_empty fun i hi => absurd hi (by simp [Parts.none]),
      hslot _, hdouble, fun k hk => absurd hk (Nat.not_lt_zero k), fun hc => (by cases hc), fun hc => (by cases hc)⟩
  have hnil : ∀ {P : Run → Prop}, ∀ r ∈ Parts.none.runs, P r := fun r hr => absurd hr List.not_mem_nil
  refine ⟨⟨⟨hs, fun r hr hz => ?_, ?_, fun b hb => ?_⟩, hshows, hnil⟩, hnil, ?_, fun b hb => absurd hb List.not_mem_nil⟩
  · simp only [Parts.none, Parts.arrayRuns, List.mem_cons, List.not_mem_nil, or_false, or_self] at hr
    rw [hr, hzero] at hz
    cases hz
  · rw [hblocks]; exact List.nodup_nil
  · rw [hblocks] at hb; cases hb
  · rw [Parts.arrayBlocks, hblocks]; exact List.nodup_nil

theorem RangesExact.none (w : World) : RangesExact w zero := by
  have hzero : ∀ i, runIsZero (leRun zero i) = true := fun i => by rw [leRun_zero]; rfl
  refine ⟨?_, fun hc => ?_, fun hc => ?_⟩
  · rw [show runsAt zero DataField.kDirect DataField.kDirectCount = [] by decide, runsLength_nil, Nat.zero_mul]
    decide
  · rw [hzero] at hc; cases hc
  · rw [hzero] at hc; cases hc

def tornVolume : Volume := { sampleVolume with toGeometry := ⟨10, 13, 1, 1, 8192, ⟨0, 2, 64⟩⟩ }

/-- Its bitmap: of the blocks up to 45, twelve are free alone, then two and then four together. -/
def tornBitmap : Buf := fun i => if i ∈ [1, 2, 3] then 0x55 else if i = 4 then 0xf9 else if i = 5 then 0xe1 else 0xff

def tornWriter : Writer Session := .idle (.booted (.on (blit zero 1024 tornBitmap 1024) fun _ => false) tornVolume)

theorem tornVolume_single : tornVolume.toGeometry.Single := ⟨rfl, rfl, by decide, by decide, by decide, by decide⟩

theorem tornWriter_live : Live tornVolume.toGeometry tornWriter .none := by
  refine .none ⟨⟨rfl, by decide, fun _ => rfl⟩, rfl, fun b hb => ?_⟩ rfl
  obtain rfl | rfl : b = 0 ∨ b = 1 := by
    have : b ≤ 1 := hb
    omega
  all_goals decide

/-- Fourteen blocks, of which the last two are one indirect run, cut to thirteen: the field
    of the indirect runs still counts fourteen. -/
theorem trimStream_leaves_range :
    let s₁ := (Writer.growTo 14 0 tornWriter).2
    let s₂ := (Writer.trimStream 13 s₁).2
    Live tornVolume.toGeometry tornWriter .none ∧ RangesExact tornWriter.world tornWriter.stream ∧
      (Writer.growTo 14 0 tornWriter).1 = some () ∧ (Writer.trimStream 13 s₁).1 = some () ∧
      ¬RangesExact s₂.world s₂.stream := by
  intro s₁ s₂
  have hrun : (Writer.growTo 14 0 tornWriter).1 = some () ∧ (Writer.trimStream 13 s₁).1 = some () ∧
      runIsZero (leRun s₂.stream DataField.kIndirect) = false ∧ le 8 s₂.stream DataField.kMaxIndirectRange ≠
        runsLength (runsAt s₂.stream DataField.kDirect DataField.kDirectCount ++
          arrayRuns s₂.world (leRun s₂.stream DataField.kIndirect)) * s₂.world.vol.blockSize := by decide +kernel
  exact ⟨tornWriter_live, .none _, hrun.1, hrun.2.1, fun h => hrun.2.2.2 (h.indirect hrun.2.2.1)⟩

theorem fitting_of_zero {g : Geometry} {s : Writer Session} {run : Run} (h : s.stream = zero) : Fitting g s run := by
  intro p hp
  have hd : p.direct = [] := by
    rw [← runsAt_filled hp.shows.direct, h]
    decide
  rw [Parts.Takes, hd, if_pos (by decide)]
  intro last hlast
  cases hlast

/-- A block that comes, and goes again. -/
theorem ranges_exact_block :
    let s' := (Writer.trimStream 0 (Writer.growTo 1 0 tornWriter).2).2
    RangesExact s'.world s'.stream ∧ ∀ n s'', Writer.trimStream n s' = (some (), s'') → TrimExact n s' s'' := by
  have hrun : (growRun 1 1 tornWriter).1 = some (⟨0, 9, 1⟩, 0, 1) ∧ (Writer.growTo 1 0 tornWriter).1 = some () ∧
      (Writer.trimStream 0 (Writer.growTo 1 0 tornWriter).2).1 = some () := by decide
  have hruns : StreamOp.Runs (Fitting tornVolume.toGeometry) (Outside tornVolume.toGeometry) tornWriter [.grow 1 0, .trim 0] _ :=
    .cons ?_ (Prod.ext hrun.2.1 rfl) (.cons (fun p _ => Or.inr (Or.inl (Nat.zero_le _))) (Prod.ext hrun.2.2 rfl) .nil)
  · exact ranges_exact tornVolume_single tornWriter_live (.none _) hruns
  intro _ run rest next s' h
  obtain ⟨rfl, rfl, rfl⟩ : run = ⟨0, 9, 1⟩ ∧ rest = 0 ∧ next = 1 := by
    have := hrun.1.symm.trans (congrArg Prod.fst h)
    simp only [Option.some.injEq, Prod.mk.injEq] at this
    exact ⟨this.1.symm, this.2.1.symm, this.2.2.symm⟩
  exact ⟨fitting_of_zero rfl, fun hlt => absurd hlt (by decide)⟩

end Aegir.Bfs
