/-
  The allocation bitmap.
-/
import Aegir.Bfs.Allocator
import Aegir.Bfs.Atomicity

namespace Aegir.Bfs

open Aegir.Lib Aegir.Lib.Buf Aegir.Lib.Fallible

namespace Allocator

/-! ## Bits -/

theorem bitByte_eq (bit : ℕ) : bitByte bit = bit / 8 := by unfold bitByte; omega

theorem bitSet_congr {b b' : Buf} {bit : ℕ} (h : b (bit / 8) = b' (bit / 8)) :
    bitSet b bit = bitSet b' bit := by
  unfold bitSet
  rw [bitByte_eq, h]

theorem bitSet_setBit (b : Buf) (i j : ℕ) :
    bitSet (setBit b i) j = (decide (j = i) || bitSet b j) := by
  unfold bitSet setBit
  rw [bitByte_eq, bitByte_eq]
  by_cases hb : j / 8 = i / 8
  · rw [hb, Function.update_self, UInt8.toNat_ofNat', Nat.testBit_mod_two_pow, Nat.testBit_or,
      Nat.testBit_two_pow]
    have h₁ : j % 8 < 8 := Nat.mod_lt _ (by norm_num)
    have h₂ : i % 8 = j % 8 ↔ j = i := by omega
    rw [decide_eq_true h₁, Bool.true_and, Bool.or_comm]
    simp only [h₂]
  · have hne : j ≠ i := fun h => hb (by rw [h])
    rw [Function.update_of_ne hb, decide_eq_false hne, Bool.false_or]

theorem bitSet_clearBit (b : Buf) (i j : ℕ) :
    bitSet (clearBit b i) j = (!decide (j = i) && bitSet b j) := by
  unfold bitSet clearBit
  rw [bitByte_eq, bitByte_eq]
  by_cases hb : j / 8 = i / 8
  · rw [hb, Function.update_self, UInt8.toNat_ofNat', Nat.testBit_mod_two_pow, Nat.testBit_and,
      Nat.testBit_xor, Nat.testBit_two_pow]
    have h₁ : j % 8 < 8 := Nat.mod_lt _ (by norm_num)
    have h₂ : i % 8 = j % 8 ↔ j = i := by omega
    have h₃ : Nat.testBit 255 (j % 8) = true := by
      rw [show 255 = 2 ^ 8 - 1 from rfl, Nat.testBit_two_pow_sub_one, decide_eq_true h₁]
    rw [decide_eq_true h₁, Bool.true_and, h₃, Bool.true_xor, Bool.and_comm]
    simp only [h₂]
  · have hne : j ≠ i := fun h => hb (by rw [h])
    rw [Function.update_of_ne hb, decide_eq_false hne, Bool.not_false, Bool.true_and]

theorem bitSet_setBits (b : Buf) (first length j : ℕ) :
    bitSet (setBits b first length) j = (decide (first ≤ j ∧ j < first + length) || bitSet b j) := by
  unfold setBits
  induction length with
  | zero =>
    have : ¬ (first ≤ j ∧ j < first + 0) := by omega
    rw [List.range_zero, List.foldl_nil, decide_eq_false this, Bool.false_or]
  | succ length ih =>
    rw [List.range_succ, List.foldl_append, List.foldl_cons, List.foldl_nil, bitSet_setBit, ih,
      ← Bool.or_assoc, ← Bool.decide_or]
    congr 2
    exact propext (by omega)

/-! ## The scan -/

section
variable {b : Buf} {perBlock bits index maxBlocks minBlocks at_ : ℕ}

theorem extendRun_spec (room length : ℕ) :
    length ≤ extendRun b perBlock bits index at_ room length ∧
    extendRun b perBlock bits index at_ room length ≤ length + room ∧
    ∀ k, length ≤ k → k < extendRun b perBlock bits index at_ room length →
      at_ + k < bits ∧ (at_ + k) / perBlock = index ∧ bitSet b (at_ + k) = false := by
  induction room generalizing length with
  | zero => exact ⟨le_rfl, le_rfl, fun k h₁ h₂ => absurd h₂ (by rw [extendRun]; omega)⟩
  | succ room ih =>
    rw [extendRun]
    split_ifs with hc
    · obtain ⟨h₁, h₂, h₃⟩ := ih (length + 1)
      refine ⟨by omega, by omega, fun k hk hk' => ?_⟩
      rcases Nat.eq_or_lt_of_le hk with rfl | hk
      · exact hc
      · exact h₃ k hk hk'
    · exact ⟨le_rfl, by omega, fun k h₁ h₂ => absurd h₂ (by omega)⟩

theorem scanBits_some {left bit first length : ℕ}
    (h : scanBits b perBlock bits index maxBlocks minBlocks left bit = some (first, length)) :
    ∃ k, bit ≤ k ∧ k < bit + left ∧ first = index * perBlock + k ∧ first < bits ∧
      bitSet b k = false ∧ minBlocks ≤ length ∧
      length = extendRun b perBlock bits index first (maxBlocks - 1) 1 := by
  induction left generalizing bit with
  | zero => exact absurd h (by simp [scanBits])
  | succ left ih =>
    have hnext : scanBits b perBlock bits index maxBlocks minBlocks left (bit + 1) =
        some (first, length) → ∃ k, bit ≤ k ∧ k < bit + (left + 1) ∧
        first = index * perBlock + k ∧ first < bits ∧ bitSet b k = false ∧ minBlocks ≤ length ∧
        length = extendRun b perBlock bits index first (maxBlocks - 1) 1 := by
      intro h'
      obtain ⟨k, h₁, h₂, hk⟩ := ih h'
      exact ⟨k, by omega, by omega, hk⟩
    rw [scanBits] at h
    simp only at h
    split_ifs at h with h₁ h₂ h₃
    · exact hnext h
    · exact hnext h
    · cases h
      exact ⟨bit, le_rfl, by omega, rfl, by omega, by simpa using h₂, by omega, rfl⟩

theorem scanBits_none {left bit : ℕ} (h : ∀ k, bit ≤ k → k < bit + left → bitSet b k = true) :
    scanBits b perBlock bits index maxBlocks minBlocks left bit = none := by
  induction left generalizing bit with
  | zero => rfl
  | succ left ih =>
    rw [scanBits, h bit le_rfl (by omega)]
    simp only [if_true]
    split_ifs
    · rfl
    · exact ih fun k h₁ h₂ => h k (by omega) (by omega)

end

end Allocator

/-! ## Blocks through the journal -/

/-- A mounted volume whose blocks can be read and written: block 0 holds the
    superblock, and the journal buffers blocks in a transaction only. -/
structure BlocksOk (w : World) : Prop where
  writable : w.vol.writable = true
  shift : 10 ≤ w.vol.blockShift
  idle : w.jnl.active = false → w.jnl.entries = []

/-- `s` is `w` with the image `img` in `block`. -/
structure Wrote (w : World) (block : ℕ) (img : Buf) (s : World) : Prop where
  vol : s.vol = w.vol
  alloc : s.alloc = w.alloc
  active : s.jnl.active = w.jnl.active
  refuse : s.dev.refuse = w.dev.refuse
  ok : BlocksOk s
  logged : s.jnl.active = true → block ∈ s.jnl.entries.map Prod.fst
  read : ∀ b, ∀ i < w.vol.blockSize,
    readBlock s b i = if b = block then img i else readBlock w b i

section
variable {w s : World} {block : ℕ} {img : Buf}

theorem lookup_setEntry {es : List (ℕ × Buf)} (hm : block ∈ es.map Prod.fst) (b : ℕ) :
    (Journal.setEntry block img es).lookup b = if b = block then some img else es.lookup b := by
  induction es with
  | nil => simp at hm
  | cons e es ih =>
    obtain ⟨c, i⟩ := e
    unfold Journal.setEntry
    by_cases hc : c = block
    · subst hc
      rw [if_pos rfl, List.lookup_cons, List.lookup_cons]
      by_cases hb : b = c
      · subst hb; simp
      · rw [if_neg hb, beq_eq_false_iff_ne.2 hb]
    · have hm' : block ∈ es.map Prod.fst := by
        rcases List.mem_cons.1 hm with h | h
        · exact absurd h.symm hc
        · exact h
      rw [if_neg hc, List.lookup_cons, List.lookup_cons, ih hm']
      by_cases hb : b = c
      · subst hb; simp [hc]
      · rw [beq_eq_false_iff_ne.2 hb]

theorem lookup_snoc {es : List (ℕ × Buf)} (hm : block ∉ es.map Prod.fst) (b : ℕ) :
    (es ++ [(block, img)]).lookup b = if b = block then some img else es.lookup b := by
  rw [List.lookup_append]
  by_cases hb : b = block
  · subst hb
    rw [lookup_eq_none_of_notMem hm, if_pos rfl]
    simp
  · rw [if_neg hb, List.lookup_cons, beq_eq_false_iff_ne.2 hb]
    simp

theorem mem_map_fst_setEntry {es : List (ℕ × Buf)} (hm : block ∈ es.map Prod.fst) :
    block ∈ (Journal.setEntry block img es).map Prod.fst := by
  rw [map_fst_setEntry]; exact hm

/-- A block written is read back, and no other changes.  A refusal changes no
    block; without a refusal of the device it is that of a full journal. -/
theorem writeBlock_post (hw : BlocksOk w) (block : ℕ) (img : Buf) :
    Post (fun _ => Wrote w block img)
      (fun s => s = w ∧ w.jnl.active = true ∧ block ∉ w.jnl.entries.map Prod.fst ∨
        s = { w with dev := w.dev.refused } ∧ w.dev.refuse w.dev.asked = true)
      (writeBlock block img w) := by
  rw [writeBlock, get_bind_run]
  rcases ha : w.jnl.active
  · -- to the device: nothing is buffered, so the disk is what is read
    have hnil := hw.idle ha
    have hbytes : w.vol.blockBytes = w.vol.blockSize := Geometry.blockBytes_eq hw.shift
    rw [if_neg (by decide)]
    refine writeBlockNow_post hw.writable ?_ fun he => Or.inr ⟨rfl, he⟩
    refine ⟨rfl, rfl, rfl, rfl, ⟨hw.writable, hw.shift, hw.idle⟩,
      fun hf => absurd (ha.symm.trans hf) (by simp), fun b i hi => ?_⟩
    simp only [readBlock, Journal.peek, hnil, List.lookup_nil, Option.getD_none, readBlockNow,
      slice_apply, Device.wrote, hbytes]
    rw [blit_block_at hi]
  · rw [if_pos rfl]
    rcases log_cases w block img with ⟨he, hn⟩ | ⟨es, he, -, hes⟩
    · rw [he]; exact Or.inl ⟨rfl, rfl, hn ha⟩
    · rw [he]
      have hlook : ∀ b, es.lookup b = if b = block then some img else w.jnl.entries.lookup b := by
        rcases hes with ⟨rfl, hm⟩ | ⟨rfl, hm, -⟩
        · exact lookup_setEntry hm
        · exact lookup_snoc hm
      refine ⟨rfl, rfl, rfl, rfl, ⟨hw.writable, hw.shift, fun hf => ?_⟩, fun _ => ?_,
        fun b i _ => ?_⟩
      · exact absurd (ha.symm.trans hf) (by simp)
      · rcases hes with ⟨rfl, hm⟩ | ⟨rfl, -, -⟩
        · exact mem_map_fst_setEntry hm
        · simp
      · simp only [readBlock, Journal.peek, hlook]
        split_ifs <;> rfl

theorem flushSuperblock_ignore (hw : BlocksOk w) : ∃ s, flushSuperblock.ignore w = (some (), s) ∧
    s.vol = w.vol ∧ s.alloc = w.alloc ∧ s.jnl = w.jnl ∧ s.dev.refuse = w.dev.refuse ∧
    ∀ b, 0 < b → ∀ i, readBlock s b i = readBlock w b i := by
  refine ⟨_, rfl, ?_⟩
  rw [flushSuperblock, get_bind_run]
  rcases ha : w.jnl.active
  · have hbytes : w.vol.blockBytes = w.vol.blockSize := Geometry.blockBytes_eq hw.shift
    have hbs : 2 ^ 10 ≤ 2 ^ w.vol.blockShift := Nat.pow_le_pow_right (by norm_num) hw.shift
    rw [if_neg (by decide)]
    refine (writeSuperblockNow_post (Q := fun _ s => s.vol = w.vol ∧ s.alloc = w.alloc ∧
      s.jnl = w.jnl ∧ s.dev.refuse = w.dev.refuse ∧
      ∀ b, 0 < b → ∀ i, readBlock s b i = readBlock w b i) hw.writable ?_ ?_).elim
      (fun _ _ h => h) fun _ h => h
    · refine ⟨rfl, rfl, rfl, rfl, fun b hb i => ?_⟩
      have hle : 2 ^ w.vol.blockShift ≤ b * 2 ^ w.vol.blockShift := Nat.le_mul_of_pos_left _ hb
      have hsec : kSuperblockOffset + kSuperblockBytes = 1024 := rfl
      simp only [readBlock, readBlockNow, Device.wrote, hbytes]
      rcases w.jnl.peek b with _ | img
      · refine blit_of_notMem (Or.inr ?_)
        rw [Geometry.blockSize]; omega
      · rfl
    · exact fun _ => ⟨rfl, rfl, rfl, rfl, fun _ _ _ => rfl⟩
  · exact ⟨rfl, rfl, rfl, rfl, fun _ _ _ => rfl⟩

end

end Aegir.Bfs
