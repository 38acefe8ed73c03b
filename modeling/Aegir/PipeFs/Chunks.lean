/-
  The free list and a pipe's chain.

  A pipe `Holds` a stream in the chunks of its chain.  The operations on the chunks draw on
  the free list and the chain of one pipe (`Draws`), and leave every other chunk as it was.
-/
import Aegir.PipeFs.Service
import Aegir.Lib.Chain

namespace Aegir.PipeFs

open Aegir.Lib Aegir.Lib.Buf

def Chunks.SameAt (g g' : Chunks) (a : ℕ) : Prop :=
  ∀ k < kChunkBytes, g'.memory (place a + k) = g.memory (place a + k)

theorem place_apart {a b : ℕ} (ha : a ≠ 0) (hb : b ≠ 0) (h : a ≠ b) :
    place a + kChunkBytes ≤ place b ∨ place b + kChunkBytes ≤ place a := by
  simp only [place, kChunkBytes]
  omega

theorem bytes_add (b : Buf) (i m n : ℕ) : bytes b i (m + n) = bytes b i m ++ bytes b (i + m) n := by
  simp only [bytes, List.range_add, List.map_append, List.map_map, Function.comp_def, Nat.add_assoc]

namespace Chunks

variable {g g' g'' : Chunks} {a b v : ℕ}

theorem SameAt.rfl : SameAt g g a := fun _ _ => Eq.refl _

theorem SameAt.trans (h : SameAt g g' a) (h' : SameAt g' g'' a) : SameAt g g'' a :=
  fun k hk => (h' k hk).trans (h k hk)

theorem SameAt.next_eq (h : SameAt g g' a) : g'.next a = g.next a :=
  le_congr fun k hk => by
    rw [Nat.add_assoc]
    exact h _ (by simp only [kChunkData, kChunkBytes]; omega)

theorem SameAt.freeNext_eq (h : SameAt g g' a) : g'.freeNext a = g.freeNext a :=
  le_congr fun k hk => h k (by simp only [kChunkBytes]; omega)

theorem SameAt.bytes_eq (h : SameAt g g' a) {n : ℕ} (hn : n ≤ kChunkBytes) :
    bytes g'.memory (place a) n = bytes g.memory (place a) n :=
  bytes_congr fun k hk => h k (by omega)

theorem sameAt_put {i x : ℕ} (hg : g'.memory = put 4 g.memory i x) (h₁ : place b ≤ i)
    (h₂ : i + 4 ≤ place b + kChunkBytes) (ha : a ≠ 0) (hb : b ≠ 0) (h : a ≠ b) : SameAt g g' a := by
  intro k hk
  rw [hg]
  refine put_of_notMem ?_
  rcases place_apart ha hb h with h | h <;> omega

theorem sameAt_free (ha : a ≠ 0) (hb : b ≠ 0) (h : a ≠ b) : SameAt g (g.free b) a :=
  sameAt_put rfl le_rfl (Nat.add_le_add_left (by decide) _) ha hb h

theorem sameAt_setNext (ha : a ≠ 0) (hb : b ≠ 0) (h : a ≠ b) : SameAt g (g.setNext b v) a := by
  have hd : kChunkData + 4 = kChunkBytes := rfl
  exact sameAt_put rfl (Nat.le_add_right _ _) (by omega) ha hb h

theorem freeNext_free (h : g.freeHead < 2 ^ 32) : (g.free a).freeNext a = g.freeHead :=
  le_put_of_lt (by omega)

theorem next_setNext (h : v < 2 ^ 32) : (g.setNext a v).next a = v := le_put_of_lt (by omega)

theorem setNext_bytes {n : ℕ} (hn : n ≤ kChunkData) :
    bytes (g.setNext a v).memory (place a) n = bytes g.memory (place a) n :=
  bytes_congr fun k hk => put_of_notMem (by omega)

def held (g : Chunks) (p : Pipe) (c : List ℕ) : List UInt8 :=
  c.flatMap fun a => bytes g.memory (place a) (p.chunkBytes a)

theorem alloc_cases {free : List ℕ} (h : Chain g.freeNext g.freeHead free) :
    (g.alloc = (0, g) ∧ free = []) ∨ ∃ a free', free = a :: free' ∧ a ≠ 0 ∧
      g.alloc = (a, { g with freeHead := g.freeNext a }) ∧ Chain g.freeNext (g.freeNext a) free' := by
  cases free with
  | nil => exact Or.inl ⟨if_pos h, rfl⟩
  | cons a free' =>
    obtain ⟨ha, hne, h⟩ := h
    refine Or.inr ⟨a, free', rfl, hne, ?_, h⟩
    rw [alloc, ha, if_neg hne]

end Chunks

/-- The pipe's stream is in the chunks of a chain. -/
structure Holds (g : Chunks) (p : Pipe) (c : List ℕ) (stream : List UInt8) : Prop where
  chain : Chain g.next p.firstChunk c
  last : p.lastChunk = c.getLast?.getD 0
  used : p.lastUsed ≤ kChunkData
  size : p.size = stream.length
  bytes : g.held p c = stream

/-- Only the free list and one chain were drawn on, and every chunk is still in one of the two. -/
structure Draws (g g' : Chunks) (free c free' c' : List ℕ) : Prop where
  count : g'.count = g.count
  list : Chain g'.freeNext g'.freeHead free'
  perm : (free' ++ c').Perm (free ++ c)
  keeps : ∀ a, a ≠ 0 → a ∉ free → a ∉ c → Chunks.SameAt g g' a

/-- A pipe's ends and name are the same. -/
structure SameEnds (p p' : Pipe) : Prop where
  used : p'.used = p.used
  writerOpen : p'.writerOpen = p.writerOpen
  readerEver : p'.readerEver = p.readerEver
  openCount : p'.openCount = p.openCount
  name : p'.name = p.name

section
variable {g g' g'' : Chunks} {p p' p'' : Pipe} {free c free' c' free'' c'' : List ℕ}
  {stream data : List UInt8}

theorem SameEnds.trans (h : SameEnds p p') (h' : SameEnds p' p'') : SameEnds p p'' :=
  ⟨h'.used.trans h.used, h'.writerOpen.trans h.writerOpen, h'.readerEver.trans h.readerEver,
    h'.openCount.trans h.openCount, h'.name.trans h.name⟩

theorem Draws.refl (h : Chain g.freeNext g.freeHead free) : Draws g g free c free c :=
  ⟨rfl, h, .refl _, fun _ _ _ _ => .rfl⟩

theorem Draws.trans (h : Draws g g' free c free' c') (h' : Draws g' g'' free' c' free'' c'') :
    Draws g g'' free c free'' c'' := by
  refine ⟨h'.count.trans h.count, h'.list, h'.perm.trans h.perm, fun a ha hf hc => ?_⟩
  have hout : a ∉ free' ++ c' := fun hm => by
    rcases List.mem_append.1 (h.perm.mem_iff.1 hm) with hm | hm
    · exact hf hm
    · exact hc hm
  rw [List.mem_append, not_or] at hout
  exact (h.keeps a ha hf hc).trans (h'.keeps a ha hout.1 hout.2)

theorem Draws.nodup (h : Draws g g' free c free' c') (hn : (free ++ c).Nodup) : (free' ++ c').Nodup :=
  h.perm.nodup_iff.2 hn

theorem Draws.lt (h : Draws g g' free c free' c') (hb : ∀ a ∈ free ++ c, a < 2 ^ 32) :
    ∀ a ∈ free' ++ c', a < 2 ^ 32 := fun a ha => hb a (h.perm.mem_iff.1 ha)

theorem Holds.congr (h : Holds g p c stream) (hg : ∀ a ∈ c, Chunks.SameAt g g' a) :
    Holds g' p c stream := by
  refine ⟨h.chain.congr fun a ha => (hg a ha).next_eq, h.last, h.used, h.size, ?_⟩
  rw [← h.bytes]
  refine List.flatMap_congr fun a ha => (hg a ha).bytes_eq ?_
  unfold Pipe.chunkBytes
  have hd : kChunkData ≤ kChunkBytes := by decide
  split
  · exact h.used.trans hd
  · exact hd

theorem Holds.empty_iff (h : Holds g p c stream) : c = [] ↔ p.lastChunk = 0 := by
  rw [h.last]
  rcases List.eq_nil_or_concat' c with rfl | ⟨pre, l, rfl⟩
  · simp
  · rw [List.getLast?_concat]
    have hl : l ≠ 0 := h.chain.ne_zero (by simp)
    simp [hl]

theorem Holds.concat (h : Holds g p c stream) (hc : c ≠ []) : ∃ pre, c = pre ++ [p.lastChunk] := by
  rcases List.eq_nil_or_concat' c with rfl | ⟨pre, l, rfl⟩
  · exact absurd rfl hc
  · refine ⟨pre, ?_⟩
    rw [h.last, List.getLast?_concat, Option.getD_some]

/-! ## Appending -/

theorem Holds.extend {pre : List ℕ} {a : ℕ} (h : Holds g p (pre ++ [p.lastChunk]) stream)
    (hfull : p.lastUsed = kChunkData) (ha : a ≠ 0) (hnot : a ∉ pre ++ [p.lastChunk]) (hlt : a < 2 ^ 32) :
    Holds ((g.setNext a 0).setNext p.lastChunk a) { p with lastChunk := a, lastUsed := 0 }
      (pre ++ [p.lastChunk] ++ [a]) stream := by
  have hl : p.lastChunk ≠ 0 := h.chain.ne_zero (List.mem_append_right _ List.mem_cons_self)
  have hla : p.lastChunk ≠ a := fun he => hnot (he ▸ List.mem_append_right _ List.mem_cons_self)
  have hpre : ∀ b ∈ pre, b ≠ p.lastChunk ∧ b ≠ a ∧ b ≠ 0 := fun b hb => by
    have hnd := List.nodup_append.1 h.chain.nodup
    exact ⟨hnd.2.2 b hb _ List.mem_cons_self, fun he => hnot (he ▸ List.mem_append_left _ hb),
      h.chain.ne_zero (List.mem_append_left _ hb)⟩
  have hsame : ∀ b ∈ pre, Chunks.SameAt g ((g.setNext a 0).setNext p.lastChunk a) b := fun b hb =>
    (Chunks.sameAt_setNext (hpre b hb).2.2 ha (hpre b hb).2.1).trans
      (Chunks.sameAt_setNext (hpre b hb).2.2 hl (hpre b hb).1)
  refine ⟨?_, ?_, Nat.zero_le _, h.size, ?_⟩
  · refine h.chain.snoc ha (Chunks.next_setNext hlt) ?_ fun b hb => (hsame b hb).next_eq
    rw [(Chunks.sameAt_setNext ha hl hla.symm).next_eq]
    exact Chunks.next_setNext (Nat.two_pow_pos 32)
  · rw [List.getLast?_concat, Option.getD_some]
  · rw [← h.bytes]
    unfold Chunks.held
    rw [List.flatMap_append, List.flatMap_append, List.flatMap_append]
    have hnew : Buf.bytes ((g.setNext a 0).setNext p.lastChunk a).memory (place a)
        (Pipe.chunkBytes { p with lastChunk := a, lastUsed := 0 } a) = [] := by
      rw [show Pipe.chunkBytes { p with lastChunk := a, lastUsed := 0 } a = 0 from if_pos rfl]
      rfl
    rw [List.flatMap_singleton _ a, hnew, List.append_nil, List.flatMap_singleton,
      List.flatMap_singleton]
    refine congrArg₂ (· ++ ·) ?_ ?_
    · refine List.flatMap_congr fun b hb => ?_
      have h₁ : Pipe.chunkBytes { p with lastChunk := a, lastUsed := 0 } b = kChunkData :=
        if_neg (hpre b hb).2.1
      have h₂ : p.chunkBytes b = kChunkData := if_neg (hpre b hb).1
      rw [h₁, h₂]
      exact (hsame b hb).bytes_eq (by decide)
    · have h₁ : Pipe.chunkBytes { p with lastChunk := a, lastUsed := 0 } p.lastChunk = kChunkData :=
        if_neg hla
      have h₂ : p.chunkBytes p.lastChunk = kChunkData := (if_pos rfl).trans hfull
      rw [h₁, h₂, Chunks.setNext_bytes le_rfl]
      exact (Chunks.sameAt_setNext hl ha hla).bytes_eq (by decide)

/-- **A last chunk with room**, unless the grant is full. -/
theorem room_cases (hf : Chain g.freeNext g.freeHead free) (hn : (free ++ c).Nodup)
    (hb : ∀ a ∈ free ++ c, a < 2 ^ 32) (h : Holds g p c stream) :
    (p.room g = none ∧ free = []) ∨ ∃ g' p' free' c', p.room g = some (g', p') ∧
      Draws g g' free c free' c' ∧ Holds g' p' c' stream ∧ SameEnds p p' ∧ c' ≠ [] ∧
      p'.lastUsed < kChunkData := by
  by_cases hc : c = []
  · -- the pipe's first chunk
    have hlast := h.empty_iff.1 hc
    subst hc
    rcases Chunks.alloc_cases hf with ⟨ha, hnil⟩ | ⟨a, free', rfl, hne, ha, hf'⟩
    · refine Or.inl ⟨?_, hnil⟩
      rw [Pipe.room, if_pos hlast, ha]
      exact if_pos rfl
    · refine Or.inr ⟨{ g with freeHead := g.freeNext a }.setNext a 0,
        { p with firstChunk := a, lastChunk := a, lastUsed := 0 }, free', [a], ?_, ?_, ?_, ⟨rfl, rfl, rfl, rfl, rfl⟩,
        List.cons_ne_nil _ _, Nat.zero_lt_succ _⟩
      · rw [Pipe.room, if_pos hlast, ha]
        exact if_neg hne
      · have hnot : a ∉ free' := (List.nodup_cons.1 (List.nodup_append.1 hn).1).1
        refine ⟨rfl, hf'.congr fun b hb' => ?_, ?_, fun b hb' hbf _ => ?_⟩
        · have hba : b ≠ a := fun he => hnot (he ▸ hb')
          exact (Chunks.sameAt_setNext (hf'.ne_zero hb') hne hba).freeNext_eq
        · rw [List.append_nil]
          exact List.perm_append_singleton a free'
        · exact Chunks.sameAt_setNext hb' hne fun he => hbf (he ▸ List.mem_cons_self)
      · refine ⟨⟨rfl, hne, Chunks.next_setNext (by omega)⟩, rfl, Nat.zero_le _, h.size, ?_⟩
        rw [← h.bytes]
        simp [Chunks.held, Pipe.chunkBytes, Buf.bytes]
  · obtain ⟨pre, hpre⟩ := h.concat hc
    have hlast : p.lastChunk ≠ 0 := fun he => hc (h.empty_iff.2 he)
    by_cases hfull : p.lastUsed = kChunkData
    · -- a chunk behind the last one
      rcases Chunks.alloc_cases hf with ⟨ha, hnil⟩ | ⟨a, free', rfl, hne, ha, hf'⟩
      · refine Or.inl ⟨?_, hnil⟩
        rw [Pipe.room, if_neg hlast, if_pos hfull, ha]
        exact if_pos rfl
      · have hnd := List.nodup_append.1 hn
        have hfree : a ∉ free' := (List.nodup_cons.1 hnd.1).1
        have hnot : a ∉ c := fun hm => hnd.2.2 a List.mem_cons_self a hm rfl
        have hlc : p.lastChunk ∈ c := by
          rw [hpre]
          exact List.mem_append_right _ List.mem_cons_self
        -- the two chunks that are linked are the only ones written
        have hkeep : ∀ b, b ≠ 0 → b ≠ a → b ≠ p.lastChunk → Chunks.SameAt g
            (({ g with freeHead := g.freeNext a }.setNext a 0).setNext p.lastChunk a) b :=
          fun b hb₀ hba hbl => (Chunks.sameAt_setNext hb₀ hne hba).trans
            (Chunks.sameAt_setNext hb₀ hlast hbl)
        refine Or.inr ⟨({ g with freeHead := g.freeNext a }.setNext a 0).setNext p.lastChunk a,
          { p with lastChunk := a, lastUsed := 0 }, free', c ++ [a], ?_, ?_, ?_, ⟨rfl, rfl, rfl, rfl, rfl⟩,
          by simp, Nat.zero_lt_succ _⟩
        · rw [Pipe.room, if_neg hlast, if_pos hfull, ha]
          exact if_neg hne
        · refine ⟨rfl, hf'.congr fun b hb' => ?_, ?_, fun b hb₀ hbf hbc => ?_⟩
          · exact (hkeep b (hf'.ne_zero hb') (fun he => hfree (he ▸ hb'))
              fun he => hnd.2.2 b (List.mem_cons_of_mem _ hb') b (he ▸ hlc) rfl).freeNext_eq
          · rw [← List.append_assoc]
            exact (List.perm_append_singleton a _)
          · exact hkeep b hb₀ (fun he => hbf (he ▸ List.mem_cons_self)) fun he => hbc (he ▸ hlc)
        · rw [hpre] at h hnot ⊢
          have hg : Holds { g with freeHead := g.freeNext a } p (pre ++ [p.lastChunk]) stream := h.congr fun _ _ => .rfl
          exact hg.extend hfull hne hnot (hb a List.mem_cons_self)
    · refine Or.inr ⟨g, p, free, c, ?_, .refl hf, h, ⟨rfl, rfl, rfl, rfl, rfl⟩, hc, by have := h.used; omega⟩
      rw [Pipe.room, if_neg hlast, if_neg hfull]

theorem fill_spec {take : ℕ} (h : Holds g p c stream) (hc : c ≠ []) (hk : p.lastUsed + take ≤ kChunkData)
    (ht : take ≤ data.length) :
    Holds (p.fill g data take).1 (p.fill g data take).2 c (stream ++ data.take take) ∧
      ∀ a, a ≠ 0 → a ≠ p.lastChunk → Chunks.SameAt g (p.fill g data take).1 a := by
  obtain ⟨pre, rfl⟩ := h.concat hc
  have hl : p.lastChunk ≠ 0 := h.chain.ne_zero (List.mem_append_right _ List.mem_cons_self)
  have hlen : (data.take take).length = take := by rw [List.length_take]; omega
  have hd : kChunkData ≤ kChunkBytes := by decide
  have hkeep : ∀ a, a ≠ 0 → a ≠ p.lastChunk → Chunks.SameAt g (p.fill g data take).1 a := by
    intro a ha hal k hk'
    refine puts_of_notMem ?_
    rw [hlen]
    rcases place_apart ha hl hal with h | h <;> omega
  have hpre : ∀ a ∈ pre, a ≠ p.lastChunk := fun a ha =>
    (List.nodup_append.1 h.chain.nodup).2.2 a ha _ List.mem_cons_self
  have hne : ∀ a ∈ pre, a ≠ 0 := fun a ha => h.chain.ne_zero (List.mem_append_left _ ha)
  have hnext : ∀ a ∈ pre ++ [p.lastChunk], (p.fill g data take).1.next a = g.next a := by
    intro a ha
    rcases List.mem_append.1 ha with ha | ha
    · exact (hkeep a (hne a ha) (hpre a ha)).next_eq
    · -- the link is behind the data
      rw [List.mem_singleton.1 ha]
      exact le_congr fun k hk' => puts_of_notMem (by rw [hlen]; omega)
  refine ⟨⟨h.chain.congr hnext, h.last, hk, ?_, ?_⟩, hkeep⟩
  · rw [List.length_append, hlen, ← h.size]
    rfl
  · have hlast : Buf.bytes (p.fill g data take).1.memory (place p.lastChunk)
        ((p.fill g data take).2.chunkBytes p.lastChunk) =
          Buf.bytes g.memory (place p.lastChunk) (p.chunkBytes p.lastChunk) ++ data.take take := by
      rw [show (p.fill g data take).2.chunkBytes p.lastChunk = p.lastUsed + take from if_pos rfl,
        show p.chunkBytes p.lastChunk = p.lastUsed from if_pos rfl, bytes_add]
      refine congrArg₂ (· ++ ·) (bytes_congr fun k hk' => puts_of_notMem (by omega)) ?_
      have hput := bytes_puts g.memory (place p.lastChunk + p.lastUsed) (data.take take)
      rw [hlen] at hput
      exact hput
    rw [← h.bytes]
    unfold Chunks.held
    rw [List.flatMap_append, List.flatMap_append, List.flatMap_singleton, List.flatMap_singleton, hlast,
      List.append_assoc]
    refine congrArg (· ++ _) (List.flatMap_congr fun a ha => ?_)
    rw [show (p.fill g data take).2.chunkBytes a = kChunkData from if_neg (hpre a ha),
      show p.chunkBytes a = kChunkData from if_neg (hpre a ha)]
    exact (hkeep a (hne a ha) (hpre a ha)).bytes_eq hd

theorem appendLoop_spec {n : ℕ} (taken : ℕ) (hd : data.length ≤ n) (hf : Chain g.freeNext g.freeHead free)
    (hn : (free ++ c).Nodup) (hb : ∀ a ∈ free ++ c, a < 2 ^ 32) (h : Holds g p c stream) :
    ∃ k g' p' free' c', p.appendLoop n g data taken = some (taken + k, g', p') ∧ k ≤ data.length ∧
      Draws g g' free c free' c' ∧ Holds g' p' c' (stream ++ data.take k) ∧ SameEnds p p' ∧
      (k < data.length → free' = []) := by
  induction n generalizing g p free c stream data taken with
  | zero =>
    have hnil : data = [] := List.eq_nil_of_length_eq_zero (by omega)
    subst hnil
    exact ⟨0, g, p, free, c, if_pos rfl, le_rfl, .refl hf, by simpa using h, ⟨rfl, rfl, rfl, rfl, rfl⟩,
      fun hf => absurd hf (Nat.lt_irrefl _)⟩
  | succ n ih =>
    rw [Pipe.appendLoop]
    by_cases hnil : data = []
    · subst hnil
      exact ⟨0, g, p, free, c, if_pos rfl, le_rfl, .refl hf, by simpa using h, ⟨rfl, rfl, rfl, rfl, rfl⟩,
        fun hf => absurd hf (Nat.lt_irrefl _)⟩
    rw [if_neg hnil]
    have hpos : 0 < data.length := List.length_pos_of_ne_nil hnil
    rcases room_cases hf hn hb h with ⟨hroom, rfl⟩ | ⟨g₁, p₁, free₁, c₁, hroom, hdr, h₁, hs₁, hc₁, hu₁⟩
    · rw [hroom]
      exact ⟨0, g, p, [], c, rfl, Nat.zero_le _, .refl hf, by simpa using h, ⟨rfl, rfl, rfl, rfl, rfl⟩,
        fun _ => rfl⟩
    · rw [hroom]
      obtain ⟨take, htake⟩ : ∃ take, take = min data.length (kChunkData - p₁.lastUsed) := ⟨_, rfl⟩
      have ht : take ≤ data.length := by omega
      obtain ⟨h₂, hk₂⟩ := fill_spec h₁ hc₁ (by omega : p₁.lastUsed + take ≤ kChunkData) ht
      have hnd₁ := hdr.nodup hn
      have hlast : p₁.lastChunk ∈ c₁ := by
        obtain ⟨pre, rfl⟩ := h₁.concat hc₁
        exact List.mem_append_right _ List.mem_cons_self
      have hdr₂ : Draws g₁ (p₁.fill g₁ data take).1 free₁ c₁ free₁ c₁ := by
        refine ⟨rfl, hdr.list.congr fun a ha => ?_, .refl _, fun a ha _ hac => hk₂ a ha fun he => hac (he ▸ hlast)⟩
        refine (hk₂ a (hdr.list.ne_zero ha) fun he => ?_).freeNext_eq
        exact (List.nodup_append.1 hnd₁).2.2 a ha _ hlast he
      have hrest : (data.drop take).length ≤ n := by
        rw [List.length_drop]
        omega
      have hs₂ : SameEnds p₁ (p₁.fill g₁ data take).2 := ⟨rfl, rfl, rfl, rfl, rfl⟩
      obtain ⟨k, g₃, p₃, free₃, c₃, hloop, hk, hdr₃, h₃, hs₃, hall⟩ :=
        ih (taken + take) hrest hdr₂.list hnd₁ (hdr.lt hb) h₂
      rw [List.length_drop] at hk hall
      refine ⟨take + k, g₃, p₃, free₃, c₃, ?_, by omega, hdr.trans (hdr₂.trans hdr₃), ?_,
        hs₁.trans (hs₂.trans hs₃), fun hlt => hall (by omega)⟩
      · rw [← Nat.add_assoc, ← hloop, htake]
      · rw [List.append_assoc, ← List.take_add] at h₃
        exact h₃

/-- **What a pipe takes**: a prefix of the data, all of it unless no chunk is free. -/
theorem append_spec (hf : Chain g.freeNext g.freeHead free) (hn : (free ++ c).Nodup)
    (hb : ∀ a ∈ free ++ c, a < 2 ^ 32) (h : Holds g p c stream) (data : List UInt8) :
    ∃ k g' p' free' c', p.append g data = some (k, g', p') ∧ k ≤ data.length ∧
      Draws g g' free c free' c' ∧ Holds g' p' c' (stream ++ data.take k) ∧ SameEnds p p' ∧
      (k < data.length → free' = []) := by
  obtain ⟨k, g', p', free', c', hl, hr⟩ := appendLoop_spec 0 le_rfl hf hn hb h
  rw [Nat.zero_add] at hl
  exact ⟨k, g', p', free', c', hl, hr⟩

/-! ## Freeing a chain -/

theorem freeChain_spec {n head : ℕ} (hl : c.length ≤ n) (hf : Chain g.freeNext g.freeHead free)
    (hc : Chain g.next head c) (hn : (free ++ c).Nodup) (hb : ∀ a ∈ free ++ c, a < 2 ^ 32) :
    ∃ g' free', Chunks.freeChain n g head = some g' ∧ Draws g g' free c free' [] := by
  induction c generalizing n g head free with
  | nil =>
    obtain rfl : head = 0 := hc
    refine ⟨g, free, ?_, .refl hf⟩
    cases n <;> exact if_pos rfl
  | cons a c ih =>
    obtain ⟨rfl, ha, hc⟩ := hc
    obtain ⟨n, rfl⟩ : ∃ m, n = m + 1 := ⟨n - 1, by rw [List.length_cons] at hl; omega⟩
    rw [Chunks.freeChain, if_neg ha]
    have hnd := List.nodup_append.1 hn
    have hac : head ∉ c := (List.nodup_cons.1 hnd.2.1).1
    have haf : head ∉ free := fun hm => hnd.2.2 head hm head List.mem_cons_self rfl
    have hhead : g.freeHead < 2 ^ 32 := by
      rw [hf.head_eq]
      cases free with
      | nil => exact Nat.two_pow_pos 32
      | cons b free => exact hb b List.mem_cons_self
    have hdr : Draws g (g.free head) free (head :: c) (head :: free) c := by
      refine ⟨rfl, hf.cons ha (Chunks.freeNext_free hhead) fun b hm => ?_, List.perm_middle.symm,
        fun b hb₀ _ hbc => Chunks.sameAt_free hb₀ ha fun he => hbc (he ▸ List.mem_cons_self)⟩
      exact (Chunks.sameAt_free (hf.ne_zero hm) ha fun he => haf (he ▸ hm)).freeNext_eq
    have hchain : Chain (g.free head).next (g.next head) c := hc.congr fun b hm =>
      (Chunks.sameAt_free (hc.ne_zero hm) ha fun he => hac (he ▸ hm)).next_eq
    have hlen : c.length ≤ n := by rw [List.length_cons] at hl; omega
    obtain ⟨g', free', hg', hdr'⟩ := ih hlen hdr.list hchain (hdr.nodup hn) (hdr.lt hb)
    exact ⟨g', free', hg', hdr.trans hdr'⟩

/-- **A pipe that is cut** holds nothing, and its chunks are free. -/
theorem cut_spec (hl : c.length ≤ g.count) (hf : Chain g.freeNext g.freeHead free) (hn : (free ++ c).Nodup)
    (hb : ∀ a ∈ free ++ c, a < 2 ^ 32) (h : Holds g p c stream) :
    ∃ g' free', p.cut g = some (g', { p with firstChunk := 0, lastChunk := 0, lastUsed := 0, size := 0 }) ∧
      Draws g g' free c free' [] := by
  obtain ⟨g', free', hg', hdr⟩ := freeChain_spec hl hf h.chain hn hb
  refine ⟨g', free', ?_, hdr⟩
  rw [Pipe.cut, hg']
  rfl

theorem Holds.nil (h₁ : p.firstChunk = 0) (h₂ : p.lastChunk = 0) (h₃ : p.lastUsed = 0) (h₄ : p.size = 0) :
    Holds g p [] [] :=
  ⟨h₁, h₂, h₃.le.trans (Nat.zero_le _), h₄, rfl⟩

/-! ## Reading -/

theorem take_drop_bytes (b : Buf) (i : ℕ) {m w t : ℕ} (h : w + t ≤ m) :
    ((Buf.bytes b i m).drop w).take t = Buf.bytes b (i + w) t := by
  obtain ⟨r, rfl⟩ := Nat.exists_eq_add_of_le h
  have hw : (Buf.bytes b i w).length = w := length_bytes _ _ _
  have ht : (Buf.bytes b (i + w) t).length = t := length_bytes _ _ _
  rw [Nat.add_assoc, bytes_add, List.drop_left' hw, bytes_add, List.take_left' ht]

theorem seek_spec {n chunk : ℕ} (offset position : ℕ) (hl : c.length ≤ n) (hc : Chain g.next chunk c)
    (h₁ : position ≤ offset) (h₂ : offset < position + (g.held p c).length) :
    ∃ chunk' position' c', p.seek g offset n chunk position = some (chunk', position') ∧
      Chain g.next chunk' c' ∧ c'.length ≤ c.length ∧ position' ≤ offset ∧
      (g.held p c').drop (offset - position') = (g.held p c).drop (offset - position) := by
  induction c generalizing n chunk position with
  | nil => exact absurd h₂ (by simpa [Chunks.held] using h₁)
  | cons a c ih =>
    obtain ⟨rfl, ha, hc'⟩ := hc
    obtain ⟨n, rfl⟩ : ∃ m, n = m + 1 := ⟨n - 1, by rw [List.length_cons] at hl; omega⟩
    rw [Pipe.seek, if_neg ha]
    have hcons : g.held p (chunk :: c) =
        Buf.bytes g.memory (place chunk) (p.chunkBytes chunk) ++ g.held p c := List.flatMap_cons
    by_cases hin : offset < position + p.chunkBytes chunk
    · rw [if_pos hin]
      exact ⟨chunk, position, chunk :: c, rfl, ⟨rfl, ha, hc'⟩, le_rfl, h₁, rfl⟩
    · rw [if_neg hin]
      rw [hcons, List.length_append, length_bytes] at h₂
      rw [List.length_cons] at hl
      obtain ⟨chunk', position', c', hs, hch, hle, hp, hd⟩ :=
        ih (n := n) (position + p.chunkBytes chunk) (by omega) hc' (by omega) (by omega)
      refine ⟨chunk', position', c', hs, hch, hle.trans (Nat.le_succ _), hp, ?_⟩
      have hlen : (Buf.bytes g.memory (place chunk) (p.chunkBytes chunk)).length ≤ offset - position := by
        rw [length_bytes]
        omega
      rw [hd, hcons, List.drop_append, List.drop_eq_nil_of_le hlen, List.nil_append, length_bytes, Nat.sub_add_eq]

section
variable {n offset count chunk position : ℕ} {out : List UInt8}

theorem copy_stop (hc : Chain g.next chunk c) (h : ¬ (out.length < count ∧ chunk ≠ 0)) :
    p.copy g offset count n chunk position out =
      some (out ++ ((g.held p c).drop (offset + out.length - position)).take (count - out.length)) := by
  have hstop : p.copy g offset count n chunk position out = some out := by
    cases n <;> exact if_neg h
  rw [hstop]
  rcases Nat.lt_or_ge out.length count with hlt | hge
  · have hnil : c = [] := hc.eq_nil_iff.2 (by_contra fun hne => h ⟨hlt, hne⟩)
    rw [hnil, Chunks.held, List.flatMap_nil, List.drop_nil, List.take_nil, List.append_nil]
  · rw [Nat.sub_eq_zero_of_le hge, List.take_zero, List.append_nil]

theorem copy_spec (hc : Chain g.next chunk c) (h : position ≤ offset + out.length)
    (hn : 2 * c.length ≤ n ∨ out.length = count ∨
      p.chunkBytes chunk ≤ offset + out.length - position ∧ 2 * c.length ≤ n + 1) :
    p.copy g offset count n chunk position out =
      some (out ++ ((g.held p c).drop (offset + out.length - position)).take (count - out.length)) := by
  induction n generalizing c chunk position out with
  | zero =>
    refine copy_stop hc fun hgo => hgo.2 (hc.eq_nil_iff.1 (List.eq_nil_of_length_eq_zero ?_))
    omega
  | succ n ih =>
    by_cases hgo : out.length < count ∧ chunk ≠ 0
    swap
    · exact copy_stop hc hgo
    cases c with
    | nil => exact absurd hc hgo.2
    | cons a c =>
      obtain ⟨rfl, -, hc'⟩ := hc
      rw [List.length_cons] at hn
      have hlen : (Buf.bytes g.memory (place chunk) (p.chunkBytes chunk)).length = p.chunkBytes chunk :=
        length_bytes _ _ _
      have hcons : g.held p (chunk :: c) =
          Buf.bytes g.memory (place chunk) (p.chunkBytes chunk) ++ g.held p c := List.flatMap_cons
      obtain ⟨within, hw⟩ : ∃ within, within = offset + out.length - position := ⟨_, rfl⟩
      rw [Pipe.copy, if_pos hgo, ← hw]
      by_cases hpast : p.chunkBytes chunk ≤ within
      · -- the chunk's bytes are before the offset, or copied
        rw [if_pos hpast, ih hc' (by omega) (by omega), hcons, List.drop_append,
          List.drop_eq_nil_of_le (hlen.trans_le hpast), List.nil_append, hlen, hw, Nat.sub_add_eq]
      · rw [if_neg hpast]
        obtain ⟨take, ht⟩ : ∃ take, take = min (count - out.length) (p.chunkBytes chunk - within) := ⟨_, rfl⟩
        rw [← ht]
        have hout : (out ++ Buf.bytes g.memory (place chunk + within) take).length = out.length + take := by
          rw [List.length_append, length_bytes]
        have hb : Buf.bytes g.memory (place chunk + within) take =
            ((g.held p (chunk :: c)).drop within).take take := by
          rw [hcons, List.drop_append_of_le_length (by omega), List.take_append_of_le_length ?_,
            take_drop_bytes _ _ (by omega)]
          rw [List.length_drop, hlen]
          omega
        have hall : Chain g.next chunk (chunk :: c) := ⟨rfl, hgo.2, hc'⟩
        have hfuel : 2 * (chunk :: c).length ≤ n ∨
            (out ++ Buf.bytes g.memory (place chunk + within) take).length = count ∨
            p.chunkBytes chunk ≤ offset + (out ++ Buf.bytes g.memory (place chunk + within) take).length - position ∧
              2 * (chunk :: c).length ≤ n + 1 := by
          rw [hout, List.length_cons]
          omega
        rw [ih hall (by rw [hout]; omega) hfuel, hout, hb, List.append_assoc]
        have hdrop : offset + (out.length + take) - position = within + take := by omega
        have hcount : count - out.length = take + (count - (out.length + take)) := by omega
        rw [hdrop, hcount, List.take_add, List.drop_drop]

end

/-- **A read** is the part of the stream that is asked for. -/
theorem readAt_eq (offset count : ℕ) (hl : c.length ≤ g.count) (h : Holds g p c stream) :
    p.readAt g offset count = some ((stream.drop offset).take count) := by
  rw [Pipe.readAt]
  by_cases hsize : p.size ≤ offset
  · rw [if_pos hsize, List.drop_eq_nil_of_le (h.size ▸ hsize), List.take_nil]
  · rw [if_neg hsize]
    have hin : offset < 0 + (g.held p c).length := by
      rw [h.bytes, ← h.size]
      omega
    obtain ⟨chunk, position, c', hs, hc', hle, hp, hd⟩ :=
      seek_spec offset 0 hl h.chain (Nat.zero_le _) hin
    have hcopy : p.copy g offset count (2 * g.count + 1) chunk position [] =
        some (((g.held p c').drop (offset - position)).take count) := copy_spec hc' hp (Or.inl (by omega))
    rw [hd, h.bytes, Nat.sub_zero] at hcopy
    rw [hs]
    exact hcopy

end

end Aegir.PipeFs
