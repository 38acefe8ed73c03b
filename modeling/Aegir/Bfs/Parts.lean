/-
  The lists of runs a data stream is made of (`bfs.md`, "Data streams"): up to twelve
  direct runs, those in the blocks of the indirect array, and those in the arrays the
  double indirect blocks list, which are of one length.
-/
import Aegir.Lib.Slots
import Aegir.Bfs.Blocks

namespace Aegir.Bfs

open Aegir.Lib Aegir.Lib.Buf Aegir.Lib.Fallible

/-! ## The parts of a stream -/

namespace Geometry

def perBlock (g : Geometry) : ℕ := g.blockSize / 8

/-- The blocks of a double indirect array, and of each run in one. -/
def unit (g : Geometry) : ℕ :=
  if kDoubleIndirectArraySize < g.blockSize then 1 else kDoubleIndirectArraySize / g.blockSize

end Geometry

/-- The runs of a stream, with the arrays that list them; a level that is not there has
    a zero run for its array. -/
structure Parts where
  direct : List Run
  indirectArray : Run
  indirect : List Run
  doubleArray : Run
  arrays : List Run
  pieces : List Run

namespace Parts

def runs (p : Parts) : List Run := p.direct ++ p.indirect ++ p.pieces

def arrayRuns (p : Parts) : List Run := p.indirectArray :: p.doubleArray :: p.arrays

def blocks (g : Geometry) (p : Parts) : List ℕ := p.runs.flatMap g.runBlocks

def arrayBlocks (g : Geometry) (p : Parts) : List ℕ := p.arrayRuns.flatMap g.runBlocks

end Parts

/-- The `i`th slot in the blocks of `r`, each read by `rd`. -/
def cell (g : Geometry) (rd : ℕ → Buf) (r : Run) (i : ℕ) : Run :=
  leRun (rd (g.toBlock r + i / g.perBlock)) (i % g.perBlock * 8)

/-- The double indirect blocks list the arrays, and these the pieces, each array full
    before the next one. -/
structure ShowsDouble (g : Geometry) (rd : ℕ → Buf) (doubleArray : Run) (arrays pieces : List Run) : Prop where
  listed : Filled runIsZero (cell g rd doubleArray) (doubleArray.length * g.perBlock) arrays
  units : ∀ a ∈ arrays, a.length = g.unit
  filled : ∀ (k : ℕ) (h : k < arrays.length), Filled runIsZero (cell g rd arrays[k]) (g.unit * g.perBlock)
    ((pieces.drop (k * (g.unit * g.perBlock))).take (g.unit * g.perBlock))
  fits : pieces.length ≤ arrays.length * (g.unit * g.perBlock)
  sizes : ∀ r ∈ pieces, r.length = g.unit

/-- The stream, and the blocks as `rd` reads them, hold the parts. -/
structure Shows (g : Geometry) (rd : ℕ → Buf) (stream : Buf) (p : Parts) : Prop where
  direct : Filled runIsZero (fun k => leRun stream (DataField.kDirect + k * 8)) DataField.kDirectCount p.direct
  indirectArray : leRun stream DataField.kIndirect = p.indirectArray
  indirect : Filled runIsZero (cell g rd p.indirectArray) (p.indirectArray.length * g.perBlock) p.indirect
  doubleArray : leRun stream DataField.kDoubleIndirect = p.doubleArray
  double : ShowsDouble g rd p.doubleArray p.arrays p.pieces
  begun : ∀ k < p.arrays.length, k * (g.unit * g.perBlock) < p.pieces.length
  directFull : runIsZero p.indirectArray = false → p.direct.length = DataField.kDirectCount
  indirectFull : runIsZero p.doubleArray = false → runIsZero p.indirectArray = false ∧
    p.indirect.length = p.indirectArray.length * g.perBlock

section
variable {g : Geometry} {rd rd' : ℕ → Buf} {r doubleArray : Run} {stream : Buf} {arrays pieces l : List Run}
  {p : Parts}

theorem length_of_zero (h : runIsZero r = true) : r.length = 0 := by
  simp only [runIsZero, Bool.and_eq_true, beq_iff_eq] at h
  exact h.2

theorem cell_congr {i : ℕ} (h : ∀ j < g.blockSize, rd' (g.toBlock r + i / g.perBlock) j = rd (g.toBlock r + i / g.perBlock) j)
    (hp : 0 < g.perBlock) : cell g rd' r i = cell g rd r i := by
  refine leRun_congr fun k hk => h _ ?_
  have hm := Nat.mod_lt i hp
  have hle : g.perBlock * 8 ≤ g.blockSize := Nat.div_mul_le_self _ _
  omega

theorem block_of_slot {i : ℕ} (hi : i < r.length * g.perBlock) :
    g.toBlock r + i / g.perBlock ∈ g.runBlocks r := by
  have : i / g.perBlock < r.length := Nat.div_lt_of_lt_mul (by rwa [Nat.mul_comm] at hi)
  exact Geometry.mem_runBlocks.mpr ⟨Nat.le_add_right _ _, Nat.add_lt_add_left this _⟩

theorem cells_congr (h : ∀ b ∈ g.runBlocks r, ∀ j < g.blockSize, rd' b j = rd b j) {i : ℕ}
    (hi : i < r.length * g.perBlock) : cell g rd' r i = cell g rd r i := by
  have hp : 0 < g.perBlock := Nat.pos_of_ne_zero fun h0 => by rw [h0, Nat.mul_zero] at hi; omega
  exact cell_congr (h _ (block_of_slot hi)) hp

theorem cell_block {b j : ℕ} (hj : j < g.perBlock) :
    cell g rd r (b * g.perBlock + j) = leRun (rd (g.toBlock r + b)) (j * 8) := by
  have hp : 0 < g.perBlock := by omega
  rw [cell, Nat.mul_comm b, Nat.mul_add_div hp, Nat.mul_add_mod, Nat.div_eq_of_lt hj, Nat.mod_eq_of_lt hj,
    Nat.add_zero]

theorem ShowsDouble.congr (h : ShowsDouble g rd doubleArray arrays pieces)
    (hd : ∀ b ∈ g.runBlocks doubleArray, ∀ j < g.blockSize, rd' b j = rd b j)
    (ha : ∀ a ∈ arrays, ∀ b ∈ g.runBlocks a, ∀ j < g.blockSize, rd' b j = rd b j) :
    ShowsDouble g rd' doubleArray arrays pieces where
  listed := h.listed.congr fun _ hi => cells_congr hd hi
  units := h.units
  filled k hk := (h.filled k hk).congr fun _ hi =>
    cells_congr (ha _ (List.getElem_mem hk)) (by rw [h.units _ (List.getElem_mem hk)]; exact hi)
  fits := h.fits
  sizes := h.sizes

theorem Shows.congr (h : Shows g rd stream p)
    (hr : ∀ b ∈ p.arrayBlocks g, ∀ j < g.blockSize, rd' b j = rd b j) : Shows g rd' stream p where
  direct := h.direct
  indirectArray := h.indirectArray
  indirect := h.indirect.congr fun _ hi =>
    cells_congr (fun b hb => hr b (List.mem_flatMap.mpr ⟨_, by simp [Parts.arrayRuns], hb⟩)) hi
  doubleArray := h.doubleArray
  double := h.double.congr (fun b hb => hr b (List.mem_flatMap.mpr ⟨_, by simp [Parts.arrayRuns], hb⟩))
    fun a ha b hb => hr b (List.mem_flatMap.mpr ⟨a, by simp [Parts.arrayRuns, ha], hb⟩)
  begun := h.begun
  directFull := h.directFull
  indirectFull := h.indirectFull

theorem Shows.indirect_nil (h : Shows g rd stream p) (hz : runIsZero p.indirectArray = true) : p.indirect = [] := by
  have := h.indirect.fits
  rw [length_of_zero hz, Nat.zero_mul] at this
  exact List.eq_nil_of_length_eq_zero (by omega)

theorem Shows.double_nil (h : Shows g rd stream p) (hz : runIsZero p.doubleArray = true) :
    p.arrays = [] ∧ p.pieces = [] := by
  have h₁ := h.double.listed.fits
  rw [length_of_zero hz, Nat.zero_mul] at h₁
  have ha : p.arrays = [] := List.eq_nil_of_length_eq_zero (by omega)
  have h₂ := h.double.fits
  rw [ha, List.length_nil, Nat.zero_mul] at h₂
  exact ⟨ha, List.eq_nil_of_length_eq_zero (by omega)⟩

end

/-! ## What the walkers see -/

section
variable {g : Geometry} {w : World} {r : Run} {l : List Run} {stream : Buf} {p : Parts}

theorem runsAt_filled {b : Buf} {i n : ℕ} (h : Filled runIsZero (fun k => leRun b (i + k * 8)) n l) :
    runsAt b i n = l := h.takeWhile

theorem runsAt_block {rd : ℕ → Buf} (h : Filled runIsZero (cell g rd r) (r.length * g.perBlock) l) {b : ℕ}
    (hb : b < r.length) :
    runsAt (rd (g.toBlock r + b)) 0 g.perBlock = (l.drop (b * g.perBlock)).take g.perBlock := by
  refine runsAt_filled ((h.block hb).congr fun j hj => ?_)
  rw [Nat.zero_add, cell_block hj]

theorem arrayRuns_eq (hg : w.vol.toGeometry = g)
    (h : Filled runIsZero (cell g (readBlock w) r) (r.length * g.perBlock) l) : arrayRuns w r = l := by
  subst hg
  have hmap : ∀ b ∈ List.range r.length, runsAt (readBlock w (w.vol.toBlock r + b)) 0 (w.vol.blockSize / 8) =
      (l.drop (b * w.vol.perBlock)).take w.vol.perBlock :=
    fun b hb => runsAt_block h (List.mem_range.mp hb)
  rw [arrayRuns, List.flatMap_congr hmap, flatMap_blocks, List.take_of_length_le h.fits]

theorem Shows.streamRuns_eq (hg : w.vol.toGeometry = g) (h : Shows g (readBlock w) stream p) :
    streamRuns w stream = p.runs := by
  have hd : runsAt stream DataField.kDirect DataField.kDirectCount = p.direct := runsAt_filled h.direct
  have hi : (if runIsZero p.indirectArray then [] else arrayRuns w p.indirectArray) = p.indirect := by
    split
    · exact (h.indirect_nil ‹_›).symm
    · exact arrayRuns_eq hg h.indirect
  have hp : (if runIsZero p.doubleArray then [] else (arrayRuns w p.doubleArray).flatMap (arrayRuns w)) = p.pieces := by
    split
    · exact (h.double_nil ‹_›).2.symm
    · rw [arrayRuns_eq hg h.double.listed]
      have hmap : p.arrays.flatMap (arrayRuns w) = (List.range p.arrays.length).flatMap fun k =>
          (p.pieces.drop (k * (g.unit * g.perBlock))).take (g.unit * g.perBlock) := by
        conv_lhs => rw [← List.map_id p.arrays, ← h.double.listed.map_range, List.map_id, List.flatMap_map]
        refine List.flatMap_congr fun k hk => ?_
        have hk' := List.mem_range.mp hk
        rw [h.double.listed.full k hk']
        exact arrayRuns_eq hg (by rw [h.double.units _ (List.getElem_mem hk')]; exact h.double.filled k hk')
      rw [hmap, flatMap_blocks, List.take_of_length_le h.double.fits]
  rw [streamRuns, h.indirectArray, h.doubleArray, hd, hi, hp, Parts.runs]

end

end Aegir.Bfs
