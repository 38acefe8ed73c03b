/-
  What the pipes hold, and when they end, in every run of calls.
-/
import Aegir.PipeFs.Runs

namespace Aegir.PipeFs

open Aegir.Lib

/-- The chunks are each on the free list or in the chain of one pipe in use, and the chains are
    as the pipes' rows say. -/
structure Divided (s : Service) (free : List ℕ) (chains : ℕ → List ℕ) : Prop where
  list : Chain s.chunks.freeNext s.chunks.freeHead free
  all : ∀ a, (a ≠ 0 ∧ a ≤ s.chunks.count) ↔ (a ∈ free ∨ ∃ i, a ∈ chains i)
  apart : ∀ i, ∀ a ∈ free, a ∉ chains i
  distinct : ∀ i j, ∀ a ∈ chains i, a ∈ chains j → i = j
  used : ∀ i, chains i ≠ [] → ∃ p, s.pipes[i]? = some p ∧ p.used = true
  chain : ∀ i p, s.pipes[i]? = some p → Chain s.chunks.next p.firstChunk (chains i) ∧
    p.lastChunk = (chains i).getLast?.getD 0 ∧
    (chains i ≠ [] → p.size = ((chains i).length - 1) * kChunkData + p.lastUsed)

section
variable {g : Chunks} {p : Pipe} {c : List ℕ} {stream : List UInt8} {s : Service} {t : Store}
  {w : ℕ → Option Held} {free : List ℕ} {chains : ℕ → List ℕ}

theorem Holds.size_eq (h : Holds g p c stream) (hc : c ≠ []) :
    p.size = (c.length - 1) * kChunkData + p.lastUsed := by
  obtain ⟨pre, rfl⟩ := h.concat hc
  have hpre : ∀ a ∈ pre, (Buf.bytes g.memory (place a) (p.chunkBytes a)).length = kChunkData := fun a ha => by
    rw [Buf.length_bytes]
    exact if_neg ((List.nodup_append.1 h.chain.nodup).2.2 a ha _ List.mem_cons_self)
  rw [h.size, ← h.bytes, Chunks.held, List.flatMap_append, List.flatMap_singleton, List.length_append,
    List.length_flatMap, List.map_congr_left hpre, Buf.length_bytes, List.length_append, List.length_singleton,
    Nat.add_sub_cancel, List.map_const', List.sum_replicate_nat]
  exact congrArg _ (if_pos rfl)

theorem Rep.divided (h : Rep s t w free chains) : Divided s free chains := by
  refine ⟨h.owned.list, h.owned.all, h.owned.apart, h.owned.distinct, fun i hi => ?_, fun i p hp => ?_⟩
  · rcases hp : s.pipes[i]? with _ | p
    · exact absurd (h.owned.idle i (h.rows.beyond i hp)) hi
    · refine ⟨p, rfl, ?_⟩
      rw [h.rows.used i p hp]
      exact Option.isSome_iff_ne_none.2 fun hw => hi (h.owned.idle i hw)
  · have hh := h.owned.holds i p hp
    exact ⟨hh.chain, hh.last, hh.size_eq⟩

theorem Rep.used_iff (h : Rep s t w free chains) (name : List UInt8) :
    (∃ p ∈ s.pipes, p.used = true ∧ p.name = name) ↔ ∃ x ∈ t, x.name = name := by
  constructor
  · rintro ⟨p, hp, hu, rfl⟩
    obtain ⟨i, hi⟩ := List.mem_iff_getElem?.1 hp
    obtain ⟨x, hx⟩ := Option.isSome_iff_exists.1 ((h.rows.used i p hi).symm.trans hu)
    exact ⟨x, (h.rows.mem x).2 ⟨i, hx⟩, (h.rows.row i p x hi hx).name.symm⟩
  · rintro ⟨x, hx, rfl⟩
    obtain ⟨i, hi⟩ := (h.rows.mem x).1 hx
    rcases hp : s.pipes[i]? with _ | p
    · rw [h.rows.beyond i hp] at hi
      cases hi
    · exact ⟨p, List.mem_of_getElem? hp, by rw [h.rows.used i p hp, hi]; rfl, (h.rows.row i p x hp hi).name⟩

end

/-- **The pipes hold what was written**, in every run of calls on a grant: the chunks are divided
    between the free list and the pipes in use, and each pipe that there is holds the bytes its
    writes were answered to have taken since it was made or cut, which is what it reads. -/
theorem streams_exact (size : ℕ) (hsize : size < 2 ^ 32) (calls : List (ℕ × Call)) :
    ∃ s t, runCalls (memoryInit size) [] calls = some (s, t) ∧ (∃ free chains, Divided s free chains) ∧
      (∀ name, (∃ p ∈ s.pipes, p.used = true ∧ p.name = name) ↔ ∃ x ∈ t, x.name = name) ∧
      (∀ x ∈ t, ∀ p ∈ s.pipes, p.used = true → p.name = x.name → p.size = x.stream.length ∧
        ∀ offset count, p.readAt s.chunks offset count = some ((x.stream.drop offset).take count)) ∧
      ∀ x ∈ t, ∀ badge handle offset wanted, ⟨handle, badge, .read⟩ ∈ x.ends →
        ∃ eof, s.step badge (.readHandle handle offset wanted) =
          some (.data ((x.stream.drop offset).take (min wanted kReadMax)) eof, s) := by
  obtain ⟨s, t, w, free, chains, hrun, h⟩ := (memoryInit_rep hsize).run calls
  refine ⟨s, t, hrun, ⟨free, chains, h.divided⟩, h.used_iff, fun x hx p hp hu hn => ?_,
    fun x hx badge handle offset wanted he => ⟨_, h.readHandle hx he offset wanted⟩⟩
  obtain ⟨i, hi⟩ := List.mem_iff_getElem?.1 hp
  obtain ⟨y, hy⟩ := Option.isSome_iff_exists.1 ((h.rows.used i p hi).symm.trans hu)
  obtain ⟨j, hj⟩ := (h.rows.mem x).1 hx
  obtain rfl : i = j := h.rows.unique i j y x hy hj ((h.rows.row i p y hi hy).name.symm.trans hn)
  have hh := h.owned.holds i p hi
  rw [hj] at hh
  exact ⟨hh.size, fun offset count => readAt_eq offset count (h.owned.length_le hi) hh⟩

theorem streams_exact_grant : ∃ s t, runCalls (memoryInit 32768) []
      [(7, .openPath [65] 1), (7, .write 1 [1, 2, 3]), (7, .write 1 [4])] = some (s, t) ∧
    (∃ free chains, Divided s free chains) ∧ t.map (·.stream) = [[1, 2, 3, 4]] := by
  obtain ⟨s, t, hrun, hdiv, -⟩ := streams_exact 32768 (by decide)
    [(7, .openPath [65] 1), (7, .write 1 [1, 2, 3]), (7, .write 1 [4])]
  refine ⟨s, t, hrun, hdiv, ?_⟩
  have hstreams : (runCalls (memoryInit 32768) []
      [(7, .openPath [65] 1), (7, .write 1 [1, 2, 3]), (7, .write 1 [4])]).map (·.2.map (·.stream)) =
        some [[1, 2, 3, 4]] := by decide
  rw [hrun] at hstreams
  exact Option.some.inj hstreams

theorem end_flag_iff {c : Prop} [Decidable c] {had writing left : Bool} (h₁ : writing = true → had = true)
    (h₂ : had = true → left = false → writing = true) :
    (decide c && !(had && !left)) = (decide c && had && !writing) ↔
      ¬ (c ∧ (had = false ∨ writing = true ∧ left = true)) := by
  by_cases hc : c
  · cases had with
    | false => simp [hc]
    | true => cases writing <;> cases left <;> simp_all
  · simp [hc]

/-- **How pipes end**, in every run of calls on a grant.  A reader is told the end of its pipe as
    the pipe's history has it, unless it got to the end of a pipe that has had no writer, or of
    one that has a writer although the last to come or go has gone.  A pipe that has had a reader
    has a handle; the rows in use are the pipes there are, and every open handle is on one. -/
theorem ends_exact (size : ℕ) (hsize : size < 2 ^ 32) (calls : List (ℕ × Call)) :
    ∃ s t, runCalls (memoryInit size) [] calls = some (s, t) ∧
      (∀ x ∈ t, ∀ badge handle offset wanted, ⟨handle, badge, .read⟩ ∈ x.ends →
        ∃ got eof, s.step badge (.readHandle handle offset wanted) = some (.data got eof, s) ∧
          (eof = x.ended (offset + got.length) ↔ ¬ (x.stream.length ≤ offset + min wanted kReadMax ∧
            (x.hadWriter = false ∨ x.writing = true ∧ x.writerLeft = true)))) ∧
      (∀ x ∈ t, x.hadReader = true → x.ends ≠ []) ∧
      (∀ name, (∃ p ∈ s.pipes, p.used = true ∧ p.name = name) ↔ ∃ x ∈ t, x.name = name) ∧
      (∀ r ∈ s.handles, r.serial ≠ 0 → ∃ p x, s.pipes[r.pipe - 1]? = some p ∧ p.used = true ∧
        x ∈ t ∧ x.name = p.name ∧ r.end_ ∈ x.ends) ∧
      ∃ free chains, Divided s free chains := by
  obtain ⟨s, t, w, free, chains, hrun, h⟩ := (memoryInit_rep hsize).run calls
  have hrow : ∀ x ∈ t, ∃ i p, s.pipes[i]? = some p ∧ w i = some x ∧ Row s.handles i p x := fun x hx => by
    obtain ⟨i, hi⟩ := (h.rows.mem x).1 hx
    rcases hp : s.pipes[i]? with _ | p
    · rw [h.rows.beyond i hp] at hi
      cases hi
    · exact ⟨i, p, hp, hi, h.rows.row i p x hp hi⟩
  refine ⟨s, t, hrun, fun x hx badge handle offset wanted he => ?_, fun x hx hr hnil => ?_, h.used_iff,
    fun r hr h₀ => ?_, free, chains, h.divided⟩
  · refine ⟨_, _, h.readHandle hx he offset wanted, ?_⟩
    obtain ⟨i, p, -, -, hrow⟩ := hrow x hx
    have hreach : x.stream.length ≤ offset + ((x.stream.drop offset).take (min wanted kReadMax)).length ↔
        x.stream.length ≤ offset + min wanted kReadMax := by
      rw [List.length_take, List.length_drop]
      omega
    rw [Held.ended, decide_eq_decide.2 hreach]
    exact end_flag_iff hrow.sound.had hrow.sound.left
  · obtain ⟨i, p, -, -, hrow⟩ := hrow x hx
    have halive := hrow.alive
    rw [Held.dead, hr, hnil] at halive
    cases halive
  · obtain ⟨i, hi, hw⟩ := h.ended.live r hr h₀
    obtain ⟨x, hx⟩ := Option.isSome_iff_exists.1 hw
    have hxt : x ∈ t := (h.rows.mem x).2 ⟨i, hx⟩
    rcases hp : s.pipes[i]? with _ | p
    · rw [h.rows.beyond i hp] at hx
      cases hx
    · have hrow := h.rows.row i p x hp hx
      refine ⟨p, x, by rw [hi]; exact hp, (h.rows.used i p hp).trans hw, hxt, hrow.name.symm, ?_⟩
      exact hrow.ends.mem_iff.2 (mem_endsOn.2 ⟨r, hr, h₀, hi, rfl⟩)

theorem ends_exact_grant : ∃ s t, runCalls (memoryInit 32768) []
      [(7, .openPath [65] 1), (8, .openPath [65] 4), (7, .close 1)] = some (s, t) ∧
    t = [⟨[65], [], [⟨2, 8, .read⟩], true, true, true⟩] ∧
    ∃ got, s.step 8 (.readHandle 2 0 10) = some (.data got true, s) := by
  obtain ⟨s, t, hrun, hread, -⟩ := ends_exact 32768 (by decide)
    [(7, .openPath [65] 1), (8, .openPath [65] 4), (7, .close 1)]
  have ht : (runCalls (memoryInit 32768) [] [(7, .openPath [65] 1), (8, .openPath [65] 4), (7, .close 1)]).map
      (·.2) = some [⟨[65], [], [⟨2, 8, .read⟩], true, true, true⟩] := by decide
  rw [hrun] at ht
  obtain rfl : t = _ := Option.some.inj ht
  obtain ⟨got, eof, hs, heof⟩ := hread _ List.mem_cons_self 8 2 0 10 List.mem_cons_self
  have htrue : eof = true := heof.2 (by simp [Held.writing])
  exact ⟨s, _, hrun, rfl, got, htrue ▸ hs⟩

/-- Two writers of which one closes: the reader is told that the pipe ended, and the other still
    writes. -/
theorem one_writer_left_ends : ¬ ∀ size < 2 ^ 32, ∀ calls s t, runCalls (memoryInit size) [] calls = some (s, t) →
    ∀ x ∈ t, ∀ badge handle offset wanted got eof, ⟨handle, badge, .read⟩ ∈ x.ends →
      (s.step badge (.readHandle handle offset wanted)).map (·.1) = some (.data got eof) →
      eof = x.ended (offset + got.length) := by
  intro hall
  obtain ⟨calls, hcalls⟩ : ∃ calls : List (ℕ × Call), calls =
    [(7, .openPath [65] 1), (7, .openPath [65] 1), (8, .openPath [65] 4), (7, .close 1)] := ⟨_, rfl⟩
  have ht : (runCalls (memoryInit 32768) [] calls).map (·.2) =
      some [⟨[65], [], [⟨3, 8, .read⟩, ⟨2, 7, .write⟩], true, true, true⟩] := by
    rw [hcalls]; decide
  have hread : (runCalls (memoryInit 32768) [] calls).bind (fun r =>
      (r.1.step 8 (.readHandle 3 0 10)).map (·.1)) = some (.data [] true) := by
    rw [hcalls]; decide
  rcases hrun : runCalls (memoryInit 32768) [] calls with _ | ⟨s, t⟩
  · rw [hrun] at ht
    cases ht
  rw [hrun] at ht hread
  obtain rfl : t = _ := Option.some.inj ht
  have heof := hall 32768 (by decide) calls s _ hrun _ List.mem_cons_self 8 3 0 10 [] true
    List.mem_cons_self hread
  exact absurd heof (by decide)

end Aegir.PipeFs
