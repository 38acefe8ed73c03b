/-
  What opening a volume accepts.
-/
import Aegir.Bfs.Transaction

namespace Aegir.Bfs

open Aegir.Lib Aegir.Lib.Buf

namespace Geometry

def bitBlock (g : Geometry) (group bit : ℕ) : ℕ := g.bitmapBlock group (bit / g.bitsPerBlock)

/-- What the library takes for granted: a block is a whole number of sectors, a
    block's run names it and is valid, and a group's bits are in its own bitmap
    blocks. -/
structure Usable (g : Geometry) : Prop where
  sectors : kSectorBytes ∣ g.blockSize
  named : ∀ b < g.numBlocks, g.toBlock (g.toRun b) = b
  covered : ∀ group < g.numAgs, ∀ bit < g.groupBits group,
    g.bitmapBlock group 0 ≤ g.bitBlock group bit ∧ g.bitBlock group bit < g.bitmapBlock group 0 + g.blocksPerAg
  valid : ∀ b < g.numBlocks, g.validateRun (g.toRun b) = true

variable {g : Geometry} {b : ℕ}

theorem bitsPerBlock_pos (g : Geometry) : 0 < g.bitsPerBlock := Nat.mul_pos (Nat.two_pow_pos _) (by norm_num)

theorem sectors_iff : kSectorBytes ∣ g.blockSize ↔ 9 ≤ g.blockShift := by
  have h : kSectorBytes = 2 ^ 9 := rfl
  rw [h, blockSize, Nat.pow_dvd_pow_iff_le_right (by norm_num)]

theorem toRun_of_lt (hb : b / 2 ^ g.agShift < 2 ^ 32) :
    g.toRun b = ⟨b / 2 ^ g.agShift, b % 2 ^ g.agShift % 2 ^ 16, 1⟩ := by
  rw [toRun, Nat.shiftRight_eq_div_pow, Nat.and_two_pow_sub_one_eq_mod, Nat.mod_eq_of_lt hb]

theorem toBlock_toRun_of_lt (hb : b / 2 ^ g.agShift < 2 ^ 32) :
    g.toBlock (g.toRun b) = b / 2 ^ g.agShift * 2 ^ g.agShift + b % 2 ^ g.agShift % 2 ^ 16 := by
  rw [toRun_of_lt hb]
  exact toBlock_eq g ((Nat.mod_le _ _).trans_lt (Nat.mod_lt _ (Nat.two_pow_pos _)))

theorem toBlock_toRun_iff (hb : b / 2 ^ g.agShift < 2 ^ 32) :
    g.toBlock (g.toRun b) = b ↔ b % 2 ^ g.agShift < 2 ^ 16 := by
  rw [toBlock_toRun_of_lt hb]
  have h := Nat.div_add_mod' b (2 ^ g.agShift)
  constructor
  · intro heq
    have hlow : b % 2 ^ g.agShift % 2 ^ 16 = b % 2 ^ g.agShift := by omega
    rw [← hlow]
    exact Nat.mod_lt _ (by norm_num)
  · intro hlt
    rw [Nat.mod_eq_of_lt hlt, h]

/-- Every block's run names the block: the places in a group fit 16 bits, or the
    blocks do. -/
theorem named_iff (hspan : g.numBlocks ≤ 2 ^ 32 * 2 ^ g.agShift) :
    (∀ b < g.numBlocks, g.toBlock (g.toRun b) = b) ↔ g.agShift ≤ 16 ∨ g.numBlocks ≤ 2 ^ 16 := by
  have hgroup : ∀ b < g.numBlocks, b / 2 ^ g.agShift < 2 ^ 32 := fun b hb =>
    Nat.div_lt_of_lt_mul (by rw [Nat.mul_comm]; omega)
  constructor
  · intro h
    by_contra hwide
    push Not at hwide
    have hlow : 2 ^ 16 % 2 ^ g.agShift = 2 ^ 16 := Nat.mod_eq_of_lt (Nat.pow_lt_pow_right (by norm_num) hwide.1)
    have hlt := (toBlock_toRun_iff (hgroup _ hwide.2)).1 (h _ hwide.2)
    omega
  · intro h b hb
    refine (toBlock_toRun_iff (hgroup b hb)).2 ?_
    rcases h with hshift | hsmall
    · exact (Nat.mod_lt _ (Nat.two_pow_pos _)).trans_le (Nat.pow_le_pow_right (by norm_num) hshift)
    · exact (Nat.mod_le _ _).trans_lt (hb.trans_le hsmall)

theorem covered_iff_div {group bit : ℕ} :
    (g.bitmapBlock group 0 ≤ g.bitBlock group bit ∧ g.bitBlock group bit < g.bitmapBlock group 0 + g.blocksPerAg) ↔
      bit / g.bitsPerBlock < g.blocksPerAg := by
  simp only [bitBlock, bitmapBlock]
  generalize bit / g.bitsPerBlock = index
  omega

theorem groupBits_zero : g.groupBits 0 = min (2 ^ g.agShift) g.numBlocks := by
  simp only [groupBits, Nat.zero_shiftLeft, Nat.sub_zero]
  generalize 2 ^ g.agShift = span
  split_ifs <;> omega

theorem groupBits_le_zero (group : ℕ) : g.groupBits group ≤ g.groupBits 0 := by
  rw [groupBits_zero]
  simp only [groupBits]
  generalize 2 ^ g.agShift = span
  generalize group <<< g.agShift = first
  split_ifs <;> omega

theorem covered_iff (hags : 1 ≤ g.numAgs) :
    (∀ group < g.numAgs, ∀ bit < g.groupBits group,
      g.bitmapBlock group 0 ≤ g.bitBlock group bit ∧ g.bitBlock group bit < g.bitmapBlock group 0 + g.blocksPerAg) ↔
      min (2 ^ g.agShift) g.numBlocks ≤ g.blocksPerAg * g.bitsPerBlock := by
  simp only [covered_iff_div, Nat.div_lt_iff_lt_mul g.bitsPerBlock_pos]
  constructor
  · intro h
    have hzero := h 0 (by omega)
    rw [groupBits_zero] at hzero
    by_contra hlt
    exact absurd (hzero _ (Nat.lt_of_not_le hlt)) (Nat.lt_irrefl _)
  · intro h group _ bit hbit
    have hle := groupBits_le_zero (g := g) group
    rw [groupBits_zero] at hle
    omega

end Geometry

namespace Volume

variable {v : Volume}

theorem Checked.valid (hc : v.Checked) : ∀ b < v.numBlocks, v.validateRun (v.toRun b) = true := by
  intro b hb
  have hgroup : b / 2 ^ v.agShift < v.numAgs :=
    Nat.div_lt_of_lt_mul (by rw [Nat.mul_comm]; exact hb.trans_le hc.span)
  have hplace : b % 2 ^ v.agShift % 2 ^ 16 < 2 ^ v.agShift :=
    (Nat.mod_le _ _).trans_lt (Nat.mod_lt _ (Nat.two_pow_pos _))
  have hle := Nat.mod_le (b % 2 ^ v.agShift) (2 ^ 16)
  have hdiv := Nat.div_add_mod' b (2 ^ v.agShift)
  have hnamed := Geometry.toBlock_toRun_of_lt (hgroup.trans hc.numAgs.2)
  rw [Geometry.toRun_of_lt (hgroup.trans hc.numAgs.2)] at hnamed ⊢
  rw [Geometry.validateRun, if_neg (by simp; omega), if_neg (by simp; omega), hnamed]
  exact decide_eq_true (by simp; omega)

end Volume

/-- **Which accepted superblocks are usable**: those with a sector or more to a
    block, with places in a group that fit a run's start, and with bitmap blocks
    enough for a group. -/
theorem accepted_usable_iff {disk : Buf} {writable discard : Bool} {v : Volume}
    (h : Volume.open disk writable discard = some v) :
    v.Usable ↔ 9 ≤ v.blockShift ∧ (v.agShift ≤ 16 ∨ v.numBlocks ≤ 2 ^ 16) ∧
      min (2 ^ v.agShift) v.numBlocks ≤ v.blocksPerAg * v.bitsPerBlock := by
  have hc := (Volume.Coherent.of_open h).checked
  have hspan : v.numBlocks ≤ 2 ^ 32 * 2 ^ v.agShift :=
    hc.span.trans (Nat.mul_le_mul_right _ hc.numAgs.2.le)
  rw [← Geometry.sectors_iff, ← Geometry.named_iff hspan, ← Geometry.covered_iff hc.numAgs.1]
  constructor
  · intro husable
    exact ⟨husable.sectors, husable.named, husable.covered⟩
  · rintro ⟨hsectors, hnamed, hcovered⟩
    exact ⟨hsectors, hnamed, hcovered, hc.valid⟩

theorem accepted_usable_sample : sampleVolume.Usable :=
  (accepted_usable_iff (sampleVolume_coherent.open_written zero)).2 (by decide)

def narrowVolume : Volume :=
  { sampleVolume with
    blockShift := 8
    superblock := put 4 (put 4 (put 4 sampleVolume.superblock Superblock.kBlockSize 256)
      Superblock.kInodeSize 256) Superblock.kBlockShift 8 }

theorem narrowVolume_coherent : narrowVolume.Coherent := by
  refine ⟨by with_unfolding_all rfl, fun i hi => ?_⟩
  simp only [kSuperblockBytes] at hi
  simp only [narrowVolume, Superblock.kBlockSize, Superblock.kInodeSize, Superblock.kBlockShift]
  rw [put_of_notMem (by omega), put_of_notMem (by omega), put_of_notMem (by omega)]
  exact sampleVolume_coherent.size i hi

/-- A superblock of blocks smaller than a sector is accepted. -/
theorem accepted_unusable :
    ¬ ∀ disk v, Volume.open disk true false = some v → v.Usable := by
  intro h
  have husable := h _ _ (narrowVolume_coherent.open_written zero)
  exact absurd (Geometry.sectors_iff.1 husable.sectors) (by decide)

end Aegir.Bfs
