/-
  `Writer::append_double` (`writer.cc`): a run in the arrays of the double indirect
  blocks.
-/
import Aegir.Bfs.Append

namespace Aegir.Bfs

open Aegir.Lib Aegir.Lib.Buf Aegir.Lib.Fallible

/-! ## The pieces of a run -/

/-- The `k`th piece of `unit` blocks. -/
def pieceOf (unit : ℕ) (run : Run) (k : ℕ) : Run := { run with start := run.start + k * unit, length := unit }

def piecesOf (unit : ℕ) (run : Run) (n : ℕ) : List Run := (List.range n).map (pieceOf unit run)

/-- A run of `m` whole units. -/
structure OfUnits (unit : ℕ) (run : Run) (m : ℕ) : Prop where
  length : run.length = m * unit
  small : run.length < 2 ^ 16
  group : run.allocationGroup < 2 ^ 32
  top : run.length ≠ 0 → run.start + run.length ≤ 2 ^ 16

/-- What is left of a run without its first `n` units. -/
structure Advanced (unit : ℕ) (run : Run) (n : ℕ) (run' : Run) : Prop where
  group : run'.allocationGroup = run.allocationGroup
  length : run'.length + n * unit = run.length
  start : run'.length ≠ 0 → run'.start = run.start + n * unit

section
variable {unit m n n' k : ℕ} {run run' run'' : Run}

theorem OfUnits.advanced (h : OfUnits unit run m) (ha : Advanced unit run n run') : OfUnits unit run' (m - n) := by
  have h₁ := ha.length
  have h₂ := h.length
  refine ⟨?_, by have := h.small; omega, by rw [ha.group]; exact h.group, fun hz => ?_⟩
  · rw [Nat.sub_mul]; omega
  · have := h.top (by omega)
    rw [ha.start hz]
    omega

theorem Advanced.le (ha : Advanced unit run n run') (h : OfUnits unit run m) (hu : 0 < unit) : n ≤ m := by
  have h₁ := ha.length
  rw [h.length] at h₁
  exact Nat.le_of_mul_le_mul_right (by omega) hu

theorem Advanced.ne_zero_iff (ha : Advanced unit run n run') (h : OfUnits unit run m) (hu : 0 < unit) :
    run'.length ≠ 0 ↔ n < m := by
  have h₁ := ha.length
  rw [h.length] at h₁
  constructor
  · intro hz
    by_contra hc
    have : m * unit ≤ n * unit := Nat.mul_le_mul_right _ (by omega)
    omega
  · intro hlt hz
    have : (n + 1) * unit ≤ m * unit := Nat.mul_le_mul_right _ hlt
    rw [Nat.succ_mul] at this
    omega

theorem Advanced.trans (ha : Advanced unit run n run') (ha' : Advanced unit run' n' run'') :
    Advanced unit run (n + n') run'' := by
  have h₁ := ha.length
  have h₂ := ha'.length
  refine ⟨ha'.group.trans ha.group, by rw [Nat.add_mul]; omega, fun hz => ?_⟩
  rw [ha'.start hz, ha.start (by omega), Nat.add_mul]
  omega

theorem pieceOf_advanced (ha : Advanced unit run n run') (hz : run'.length ≠ 0) (k : ℕ) :
    pieceOf unit run' k = pieceOf unit run (n + k) := by
  simp only [pieceOf, ha.group, ha.start hz, Nat.add_mul, Nat.add_assoc]

@[simp] theorem length_piecesOf (unit : ℕ) (run : Run) (n : ℕ) : (piecesOf unit run n).length = n := by
  simp [piecesOf]

theorem piecesOf_add (ha : Advanced unit run n run') (hz : run'.length ≠ 0) (n' : ℕ) :
    piecesOf unit run (n + n') = piecesOf unit run n ++ piecesOf unit run' n' := by
  rw [piecesOf, piecesOf, piecesOf, List.range_add, List.map_append, List.map_map]
  congr 1
  exact List.map_congr_left fun k _ => (pieceOf_advanced ha hz k).symm

theorem pieceOf_fits (h : OfUnits unit run m) (hu : 0 < unit) (hk : k < m) : (pieceOf unit run k).Fits := by
  have h₁ := h.length
  have h₂ : (k + 1) * unit ≤ m * unit := Nat.mul_le_mul_right _ hk
  rw [Nat.succ_mul] at h₂
  have h₃ := h.top (by omega)
  have h₄ := h.small
  exact ⟨h.group, by simp only [pieceOf]; omega, by simp only [pieceOf]; omega⟩

theorem pieceOf_solid (hu : 0 < unit) : runIsZero (pieceOf unit run k) = false := by
  simp only [runIsZero, pieceOf, Bool.and_eq_false_iff, beq_eq_false_iff_ne]
  exact Or.inr (by omega)

theorem advanced_one (h : OfUnits unit run m) (hm : 0 < m) :
    Advanced unit run 1 { run with
      start := (run.start + unit) % 2 ^ 16, length := (run.length + 2 ^ 16 - unit) % 2 ^ 16 } := by
  have h₁ := h.length
  have h₂ := h.small
  have h₃ : 1 * unit ≤ m * unit := Nat.mul_le_mul_right _ hm
  have hlen : (run.length + 2 ^ 16 - unit) % 2 ^ 16 = run.length - unit := by
    rw [show run.length + 2 ^ 16 - unit = run.length - unit + 2 ^ 16 by omega, Nat.add_mod_right,
      Nat.mod_eq_of_lt (by omega)]
  refine ⟨rfl, ?_, fun hz => ?_⟩
  · simp only [hlen]; omega
  · simp only [hlen] at hz ⊢
    have := h.top (by omega)
    rw [Nat.mod_eq_of_lt (by omega), Nat.one_mul]

/-! ## One block of pieces -/

theorem fillSlots_spec {perBlock : ℕ} (hu : 0 < unit) (hp : 0 < perBlock) (fuel : ℕ) (b : Buf) (index : ℕ)
    (hw : OfUnits unit run m) (hm : 0 < m) (hf : perBlock - index % perBlock ≤ fuel) :
    ∃ b' run', Writer.fillSlots unit perBlock fuel b index run =
        (b', index + min m (perBlock - index % perBlock), run') ∧
      Advanced unit run (min m (perBlock - index % perBlock)) run' ∧
      ∀ j, leRun b' (j * 8) =
        if index % perBlock ≤ j ∧ j < index % perBlock + min m (perBlock - index % perBlock)
        then pieceOf unit run (j - index % perBlock) else leRun b (j * 8) := by
  have hlt := Nat.mod_lt index hp
  induction fuel generalizing b index run m with
  | zero => omega
  | succ fuel ih =>
    have h₁ := hw.length
    have h₂ := hw.small
    have h₃ : 1 * unit ≤ m * unit := Nat.mul_le_mul_right _ hm
    have hone := advanced_one hw hm
    have hfits := pieceOf_fits hw hu hm
    have hpiece : { run with length := unit % 2 ^ 16 } = pieceOf unit run 0 := by
      rw [pieceOf, Nat.mod_eq_of_lt (by omega), Nat.zero_mul, Nat.add_zero]
    unfold Writer.fillSlots
    dsimp only
    rw [hpiece]
    set run₁ : Run := { run with
      start := (run.start + unit) % 2 ^ 16, length := (run.length + 2 ^ 16 - unit) % 2 ^ 16 } with hrun₁
    have hput : ∀ j, leRun (putRun b (index % perBlock * 8) (pieceOf unit run 0)) (j * 8) =
        if j = index % perBlock then pieceOf unit run 0 else leRun b (j * 8) := by
      intro j
      have := leRun_slot (b := b) hfits j (index % perBlock)
      rwa [Nat.zero_add] at this
    by_cases hc : (index + 1) % perBlock ≠ 0 ∧ run₁.length ≠ 0
    · rw [if_pos hc]
      have hmod : (index + 1) % perBlock = index % perBlock + 1 := by
        have hlt' : index % perBlock + 1 < perBlock := by
          by_contra hge
          refine hc.1 ?_
          have heq : index % perBlock + 1 = perBlock := by omega
          rw [← Nat.mod_add_mod, heq, Nat.mod_self]
        rw [← Nat.mod_add_mod, Nat.mod_eq_of_lt hlt']
      have hm₁ := (hone.ne_zero_iff hw hu).mp hc.2
      have hlt₁ : (index + 1) % perBlock < perBlock := Nat.mod_lt _ hp
      obtain ⟨b', run', he, ha, hslots⟩ := ih (putRun b (index % perBlock * 8) (pieceOf unit run 0))
        (index + 1) (hw.advanced hone) (by omega) (by omega) hlt₁
      rw [hmod] at he ha hslots
      have hn : 1 + min (m - 1) (perBlock - (index % perBlock + 1)) = min m (perBlock - index % perBlock) := by omega
      refine ⟨b', run', ?_, ?_, fun j => ?_⟩
      · rw [he, ← hn, Nat.add_assoc]
      · rw [← hn]; exact hone.trans ha
      · rw [hslots j, hput j]
        by_cases hj : j = index % perBlock
        · rw [if_neg (by omega), if_pos hj, if_pos (by omega), hj, Nat.sub_self]
        · by_cases hin : index % perBlock + 1 ≤ j ∧
              j < index % perBlock + 1 + min (m - 1) (perBlock - (index % perBlock + 1))
          · rw [if_pos hin, if_pos (by omega), pieceOf_advanced hone hc.2,
              show 1 + (j - (index % perBlock + 1)) = j - index % perBlock by omega]
          · rw [if_neg hin, if_neg hj, if_neg (by omega)]
    · rw [if_neg hc]
      have hn : min m (perBlock - index % perBlock) = 1 := by
        by_cases hz : run₁.length = 0
        · have : ¬ 1 < m := fun hlt => (hone.ne_zero_iff hw hu).mpr hlt hz
          omega
        · have hwrap : (index + 1) % perBlock = 0 := by
            by_contra hne
            exact hc ⟨hne, hz⟩
          have : index % perBlock + 1 = perBlock := by
            by_contra hne
            rw [← Nat.mod_add_mod, Nat.mod_eq_of_lt (by omega)] at hwrap
            omega
          omega
      refine ⟨_, run₁, by rw [hn], by rw [hn]; exact hone, fun j => ?_⟩
      rw [hput j, hn]
      by_cases hj : j = index % perBlock
      · rw [if_pos hj, if_pos (by omega), hj, Nat.sub_self]
      · rw [if_neg hj, if_neg (by omega)]

end

/-! ## One array -/

/-- The blocks, with what is in `node_` for `block`. -/
def nodeView (s : Writer Session) (block : ℕ) : ℕ → Buf := fun b => if b = block then s.node else readBlock s.world b

section
variable {g : Geometry} {s s' : Writer Session} {dbl run : Run} {arrays pieces : List Run} {m index k : ℕ}

theorem nodeView_of_ne {block b : ℕ} (h : b ≠ block) : nodeView s block b = readBlock s.world b := if_neg h

theorem nodeView_self {block : ℕ} : nodeView s block block = s.node := if_pos rfl

theorem Geometry.unit_le (g : Geometry) : g.unit ≤ Allocator.kMaxRun := by
  have : g.unit ≤ kDoubleIndirectArraySize := by
    unfold Geometry.unit
    split
    · decide
    · exact Nat.div_le_self _ _
  exact this.trans (by decide)

theorem allocateUnit_some {array : Run} (h : Writer.allocateUnit g.unit s = (some array, s')) (hg : g.Single)
    (hs : Sane g s.world) :
    s' = { s with store := s'.store } ∧ Granted g s.world s'.world g.unit g.unit array ∧ array.length = g.unit ∧
      s'.frees = s.frees := by
  unfold Writer.allocateUnit at h
  obtain ⟨a, s₁, h₁, h⟩ := bind_eq_some h
  obtain ⟨hb, hgr, hf⟩ := Writer.allocate_some h₁ hg hs g.unit_le
  split at h
  · obtain ⟨u, s₂, -, h⟩ := bind_eq_some h
    cases h
  · cases h
    have := hgr.most
    exact ⟨hb, hgr, by omega, hf⟩

theorem Arrays.apart_of {rs : List Run} (h : Arrays g s rs) {i j : ℕ} (hi : i < rs.length) (hj : j < rs.length)
    (hne : i ≠ j) {b : ℕ} (hb : b ∈ g.runBlocks rs[i]) : b ∉ g.runBlocks rs[j] := by
  have hp := (List.nodup_flatMap.mp h.apart).2
  rw [List.pairwise_iff_getElem] at hp
  intro hc
  rcases Nat.lt_or_gt_of_ne hne with hlt | hlt
  · exact hp i j hi hj hlt hb hc
  · exact hp j i hj hi hlt hc hb

/-- The slot `i` of the block in `node_` lists the array `slot`: it did, or it was free and
    an array was allocated for it. -/
inductive EnsureArray (g : Geometry) (i : ℕ) (wrote : Bool) (s : Writer Session) : Run → Bool → Writer Session → Prop
  | new {array : Run} {s₁ s₂ : Writer Session} {u : Unit} (hz : runIsZero (leRun s.node (i * 8)) = true)
      (h₁ : Writer.allocateUnit g.unit s = (some array, s₁)) (h₂ : Writer.zeroArray array s₁ = (some u, s₂)) :
      EnsureArray g i wrote s array true { s₂ with node := putRun s₂.node (i * 8) array }
  | old (hz : runIsZero (leRun s.node (i * 8)) = false) : EnsureArray g i wrote s (leRun s.node (i * 8)) wrote s

theorem EnsureArray.spec {wrote wrote' : Bool} {slot : Run} (hg : g.Single) (hs : Arrays g s (dbl :: arrays))
    (hk : k < dbl.length * g.perBlock)
    (hd : ShowsDouble g (nodeView s (g.toBlock dbl + k / g.perBlock)) dbl arrays pieces)
    (hlen : pieces.length = k * (g.unit * g.perBlock) + index)
    (hcount : arrays.length = k ∧ index = 0 ∨ arrays.length = k + 1)
    (h : EnsureArray g (k % g.perBlock) wrote s slot wrote' s') :
    ∃ arrays', ∃ hk' : k < arrays'.length, arrays'.length = k + 1 ∧ arrays'[k] = slot ∧
      Extends g s s' (dbl :: arrays) (dbl :: arrays') ∧
      ShowsDouble g (nodeView s' (g.toBlock dbl + k / g.perBlock)) dbl arrays' pieces ∧ s'.stream = s.stream ∧
      (wrote' = false → wrote = false ∧ s' = s) := by
  have hp := hs.sane.perBlock_pos
  have hslot : leRun s.node (k % g.perBlock * 8) = cell g (nodeView s (g.toBlock dbl + k / g.perBlock)) dbl k := by
    rw [cell, nodeView_self]
  cases h with
  | @new _ s₁ s₂ _ hz h₁ h₂ =>
    -- the slot is free, so the arrays before it are full
    have hcount : arrays.length = k ∧ index = 0 := by
      rcases hcount with hc | hc
      · exact hc
      · have hsolid := hd.listed.solid _ (List.getElem_mem (show k < arrays.length by omega))
        rw [← hd.listed.full k (by omega), ← hslot, hz] at hsolid
        cases hsolid
    obtain ⟨hlenk, rfl⟩ := hcount
    obtain ⟨hb₁, hgr, hal, hf⟩ := allocateUnit_some h₁ hg hs.sane
    obtain ⟨hb₂, hnew⟩ := newArray_some h₂ hg hs.sane hgr hf
    have hnode : s₂.node = s.node := by rw [hb₂, hb₁]
    have hstream : s₂.stream = s.stream := by rw [hb₂, hb₁]
    have hdblb : g.toBlock dbl + k / g.perBlock ∈ g.runBlocks dbl := block_of_slot hk
    have hmem : ∀ r ∈ dbl :: arrays, ∀ b ∈ g.runBlocks r, b ∉ g.runBlocks slot := by
      intro r hr b hb hc
      have hu := (hs.marked b (List.mem_flatMap.mpr ⟨r, hr, hb⟩)).2
      rw [hnew.free b hc] at hu
      cases hu
    have habove : ∀ r ∈ dbl :: arrays, ∀ b ∈ g.runBlocks r, g.numAgs < b := fun r hr b hb =>
      (hs.marked b (List.mem_flatMap.mpr ⟨r, hr, hb⟩)).1
    -- what the blocks of the arrays before hold is as it was
    have hold : ∀ r ∈ dbl :: arrays, ∀ b ∈ g.runBlocks r, b ≠ g.toBlock dbl + k / g.perBlock → ∀ i < g.blockSize,
        nodeView { s₂ with node := putRun s₂.node (k % g.perBlock * 8) slot } (g.toBlock dbl + k / g.perBlock) b i =
          nodeView s (g.toBlock dbl + k / g.perBlock) b i := by
      intro r hr b hb hne i hi
      rw [nodeView_of_ne hne, nodeView_of_ne hne]
      exact hnew.read b (hmem r hr b hb) (habove r hr b hb) i hi
    have harr : ∀ a ∈ arrays, ∀ b ∈ g.runBlocks a, b ≠ g.toBlock dbl + k / g.perBlock := by
      intro a ha b hb he
      obtain ⟨j, hj, rfl⟩ := List.mem_iff_getElem.mp ha
      refine hs.apart_of (i := j + 1) (j := 0) (by simp; omega) (by simp) (by omega) (b := b) ?_ ?_
      · simpa using hb
      · rw [he]; simpa using hdblb
    refine ⟨arrays ++ [slot], by simp; omega, by simp [hlenk], by simp [← hlenk], ⟨(hnew.steps _).buffers rfl, ?_, g.runBlocks slot, ?_,
      g.nodup_runBlocks _, fun b hb => ⟨hnew.above b hb, hnew.on.lt hb, hnew.free b hb, hnew.marked b hb⟩⟩, ?_, hstream,
      fun hc => by cases hc⟩
    · intro r hr
      simp only [List.mem_cons, List.mem_append, List.not_mem_nil, or_false] at hr ⊢
      rcases hr with rfl | hr | rfl
      · exact Or.inl (Or.inl rfl)
      · exact Or.inl (Or.inr hr)
      · exact Or.inr (Or.inr hnew.on)
    · simp only [List.flatMap_cons, List.flatMap_append, List.flatMap_nil, List.append_nil, List.append_assoc]
      exact .refl _
    · refine ⟨?_, ?_, fun j hj => ?_, ?_, hd.sizes⟩
      · refine hd.listed.push (by omega) hnew.on.solid ?_ fun i hi hne => ?_
        · rw [hlenk, cell, nodeView_self, hnode, leRun_putRun hnew.on.fits]
        · by_cases hib : i / g.perBlock = k / g.perBlock
          · rw [cell, cell, hib, nodeView_self, nodeView_self, hnode]
            refine leRun_putRun_of_disjoint ?_
            have h₁ := Nat.div_add_mod i g.perBlock
            have h₂ := Nat.div_add_mod k g.perBlock
            rw [hib] at h₁
            omega
          · refine cell_congr (fun j hj => ?_) hp
            exact hold dbl (by simp) _ (block_of_slot hi) (fun he => hib (Nat.add_left_cancel he)) j hj
      · intro a ha
        rcases List.mem_append.mp ha with ha | ha
        · exact hd.units a ha
        · rw [List.mem_singleton.mp ha]; exact hal
      · rw [List.length_append, List.length_singleton] at hj
        rcases Nat.lt_or_ge j arrays.length with hlt | hge
        · rw [List.getElem_append_left hlt]
          refine (hd.filled j hlt).congr fun i hi => cells_congr (fun b hb => ?_) (by
            rw [hd.units _ (List.getElem_mem hlt)]; exact hi)
          exact hold _ (by simp) b hb (harr _ (List.getElem_mem hlt) b hb)
        · obtain rfl : j = arrays.length := by omega
          rw [List.getElem_append_right (Nat.le_refl _)]
          simp only [Nat.sub_self, List.getElem_cons_zero]
          rw [List.drop_eq_nil_of_le (by rw [hlen, hlenk]; omega), List.take_nil]
          refine .nil_of_empty fun i hi => ?_
          have hi' : i < slot.length * g.perBlock := by rw [hal]; exact hi
          have hblock : g.toBlock slot + i / g.perBlock ≠ g.toBlock dbl + k / g.perBlock := by
            intro he
            exact hmem dbl (by simp) _ hdblb (he ▸ block_of_slot hi')
          rw [cell, nodeView_of_ne hblock]
          have := hnew.zero i hi'
          rw [cell] at this
          have heq : readBlock ({ s₂ with node := putRun s₂.node (k % g.perBlock * 8) slot } : Writer Session).world =
            readBlock s₂.world := rfl
          rw [heq, this]
          rfl
      · rw [hlen, List.length_append, List.length_singleton, hlenk, Nat.succ_mul]
        omega
  | old hz =>
    have hlt : k < arrays.length := hd.listed.lt_of_solid hk (hslot ▸ hz)
    have hlen' : arrays.length = k + 1 := by omega
    exact ⟨arrays, hlt, hlen', by rw [hslot, hd.listed.full k hlt], .refl hs.sane, hd, rfl, fun hw => ⟨hw, rfl⟩⟩

theorem slots_room {unit perBlock n : ℕ} (hindex : index < unit * perBlock) (hn : n ≤ perBlock - index % perBlock) :
    index + n ≤ unit * perBlock := by
  have hp : 0 < perBlock := Nat.pos_of_ne_zero fun h0 => by rw [h0, Nat.mul_zero] at hindex; omega
  have hmod := Nat.mod_lt index hp
  have hdm := Nat.div_add_mod index perBlock
  have hle : index / perBlock + 1 ≤ unit := Nat.div_lt_of_lt_mul (by rwa [Nat.mul_comm] at hindex)
  have := Nat.mul_le_mul_left perBlock hle
  rw [Nat.mul_add, Nat.mul_one] at this
  rw [Nat.mul_comm unit]
  omega

/-- The double indirect runs once pieces have been put into the block of the last array
    that the `index`th slot is in. -/
theorem fillBlock_shows {n : ℕ} {b' : Buf} (hs : Arrays g s (dbl :: arrays)) (hk : k < dbl.length * g.perBlock)
    (hd : ShowsDouble g (nodeView s (g.toBlock dbl + k / g.perBlock)) dbl arrays pieces)
    (hlen : pieces.length = k * (g.unit * g.perBlock) + index) (hindex : index < g.unit * g.perBlock)
    (hcount : arrays.length = k + 1) (hk' : k < arrays.length) (hn : n ≤ g.perBlock - index % g.perBlock)
    (hu : 0 < g.unit) (hb : ∀ j, leRun b' (j * 8) = if index % g.perBlock ≤ j ∧ j < index % g.perBlock + n
      then pieceOf g.unit run (j - index % g.perBlock)
      else leRun (readBlock s.world (g.toBlock arrays[k] + index / g.perBlock)) (j * 8))
    (hw : Wrote s.world (g.toBlock arrays[k] + index / g.perBlock) b' s'.world) (hnode : s'.node = s.node) :
    ShowsDouble g (nodeView s' (g.toBlock dbl + k / g.perBlock)) dbl arrays (pieces ++ piecesOf g.unit run n) := by
  have hp := hs.sane.perBlock_pos
  have hmod := Nat.mod_lt index hp
  have hdm := Nat.div_add_mod index g.perBlock
  set R := g.unit * g.perBlock with hR
  set D := g.toBlock arrays[k] + index / g.perBlock with hD
  have hcap : index < arrays[k].length * g.perBlock := by rw [hd.units _ (List.getElem_mem hk')]; exact hindex
  have hDmem : D ∈ g.runBlocks arrays[k] := block_of_slot hcap
  have hdblb : g.toBlock dbl + k / g.perBlock ∈ g.runBlocks dbl := block_of_slot hk
  have hapart : ∀ r ∈ dbl :: arrays, ∀ (j : ℕ) (hj : j < (dbl :: arrays).length), r = (dbl :: arrays)[j] → j ≠ k + 1 →
      ∀ b ∈ g.runBlocks r, b ≠ D := by
    intro r _ j hj he hne b hb hbD
    refine hs.apart_of (i := j) (j := k + 1) hj (by simp; omega) (by omega) (b := b) ?_ ?_
    · rw [← he]; exact hb
    · rw [List.getElem_cons_succ, hbD]; exact hDmem
  have hDdbl : ∀ b ∈ g.runBlocks dbl, b ≠ D := hapart dbl (by simp) 0 (by simp) rfl (by omega)
  -- the view changes in one block
  have hview : ∀ b, b ≠ D → ∀ i < g.blockSize, nodeView s' (g.toBlock dbl + k / g.perBlock) b i =
      nodeView s (g.toBlock dbl + k / g.perBlock) b i := by
    intro b hne i hi
    by_cases hb : b = g.toBlock dbl + k / g.perBlock
    · rw [hb, nodeView_self, nodeView_self, hnode]
    · rw [nodeView_of_ne hb, nodeView_of_ne hb, hw.read_eq hs.sane hi, if_neg hne]
  have hfull : ∀ j < k, ((pieces ++ piecesOf g.unit run n).drop (j * R)).take R = (pieces.drop (j * R)).take R := by
    intro j hj
    have : (j + 1) * R ≤ k * R := Nat.mul_le_mul_right _ hj
    rw [Nat.succ_mul] at this
    rw [List.drop_append_of_le_length (by omega), List.take_append_of_le_length (by rw [List.length_drop]; omega)]
  have hroom : index + n ≤ R := slots_room hindex hn
  refine ⟨hd.listed.congr fun i hi => cells_congr (fun b hb => hview b (hDdbl b hb)) hi, hd.units, fun j hj => ?_, ?_, ?_⟩
  · rw [← hR]
    rcases Nat.lt_or_ge j k with hlt | hge
    · rw [hfull j hlt]
      refine (hd.filled j hj).congr fun i hi => cells_congr (fun b hb => hview b ?_) (by
        rw [hd.units _ (List.getElem_mem hj)]; exact hi)
      exact hapart _ (List.mem_cons_of_mem _ (List.getElem_mem hj)) (j + 1) (by simpa using hj) (by simp) (by omega) b hb
    · obtain rfl : j = k := by omega
      have hchunk : (pieces.drop (j * R)).take R = pieces.drop (j * R) :=
        List.take_of_length_le (by rw [List.length_drop]; omega)
      have hdl : (pieces.drop (j * R)).length = index := by rw [List.length_drop]; omega
      rw [List.drop_append_of_le_length (by omega),
        List.take_of_length_le (by rw [List.length_append, hdl, length_piecesOf]; omega)]
      have hold := hd.filled j hj
      rw [hchunk] at hold
      -- the slots of the array, in the block that was written and in the others
      have hcell : ∀ i < R, cell g (nodeView s' (g.toBlock dbl + j / g.perBlock)) arrays[j] i =
          if index ≤ i ∧ i < index + n then pieceOf g.unit run (i - index)
          else cell g (nodeView s (g.toBlock dbl + j / g.perBlock)) arrays[j] i := by
        intro i hi
        have hicap : i < arrays[j].length * g.perBlock := by rw [hd.units _ (List.getElem_mem hj)]; exact hi
        have hdi := Nat.div_add_mod i g.perBlock
        have hmi := Nat.mod_lt i hp
        have hne : g.toBlock arrays[j] + i / g.perBlock ≠ g.toBlock dbl + j / g.perBlock := by
          intro he
          have hmem : g.toBlock dbl + j / g.perBlock ∈ g.runBlocks arrays[j] := he ▸ block_of_slot hicap
          exact hs.apart_of (i := 0) (j := j + 1) (by simp) (by simp; omega) (by omega)
            (b := g.toBlock dbl + j / g.perBlock) (by simpa using hdblb) (by simpa using hmem)
        by_cases hib : i / g.perBlock = index / g.perBlock
        · have hleft : cell g (nodeView s' (g.toBlock dbl + j / g.perBlock)) arrays[j] i = leRun b' (i % g.perBlock * 8) := by
            rw [cell, nodeView_of_ne hne]
            refine leRun_congr fun c hc => ?_
            have hle : g.perBlock * 8 ≤ g.blockSize := Nat.div_mul_le_self _ _
            rw [hw.read_eq hs.sane (by omega), if_pos (by rw [hib])]
          rw [hib] at hdi
          rw [hleft, hb]
          by_cases hin : index ≤ i ∧ i < index + n
          · rw [if_pos (by omega), if_pos hin]
            congr 1
            omega
          · rw [if_neg (by omega), if_neg hin, cell, nodeView_of_ne hne, hib]
        · rw [if_neg, cell_congr (hview _ fun he => hib (Nat.add_left_cancel he)) hp]
          rintro ⟨h₁, h₂⟩
          refine hib ?_
          refine Nat.div_eq_of_lt_le ?_ ?_
          · rw [Nat.mul_comm]; omega
          · rw [Nat.succ_mul, Nat.mul_comm]; omega
      refine hold.extend (by rw [hdl, length_piecesOf]; exact hroom) (fun a ha => ?_) (fun i hi => ?_) fun i hi hor => ?_
      · obtain ⟨c, -, rfl⟩ := List.mem_map.mp ha
        exact pieceOf_solid hu
      · rw [length_piecesOf] at hi
        rw [hdl, hcell _ (by omega), if_pos (by omega)]
        simp only [piecesOf, List.getElem_map, List.getElem_range]
        congr 1
        omega
      · rw [hdl, length_piecesOf] at hor
        rw [hcell i hi, if_neg (by omega)]
  · rw [List.length_append, length_piecesOf, hlen, hcount, Nat.succ_mul, ← hR]
    omega
  · intro r hr
    rcases List.mem_append.mp hr with hr | hr
    · exact hd.sizes r hr
    · obtain ⟨c, -, rfl⟩ := List.mem_map.mp hr
      rfl

theorem Geometry.unit_pos (g : Geometry) : 0 < g.unit := by
  have : 0 < g.blockSize := Nat.two_pow_pos _
  unfold Geometry.unit
  split
  · exact one_pos
  · exact Nat.div_pos (by omega) this

/-- What the loop over the blocks of one array did: `n` pieces more, the array begun if it
    was not. -/
structure Filling (g : Geometry) (dbl : Run) (k : ℕ) (run : Run) (n : ℕ) (arrays pieces : List Run)
    (s s' : Writer Session) (arrays' : List Run) : Prop where
  count : arrays'.length = k + 1
  ext : Extends g s s' (dbl :: arrays) (dbl :: arrays')
  shows : ShowsDouble g (nodeView s' (g.toBlock dbl + k / g.perBlock)) dbl arrays' (pieces ++ piecesOf g.unit run n)
  stream : s'.stream = s.stream

/-- A pass of the loop, once the array is there: the block of the next slot is filled. -/
def fillPass (unit k fuel dataBlock index : ℕ) (run : Run) (wrote : Bool) : W (ℕ × Run × Bool) := do
  Writer.loadWork dataBlock
  let s ← .get
  let (b, index, run) := Writer.fillSlots unit s.perBlock (2 ^ 16) s.work index run
  Writer.buffers fun s => { s with work := b }
  Writer.writeBlock dataBlock b
  if index % (s.perBlock * unit) ≠ 0 ∧ run.length ≠ 0 then Writer.fillArrays unit k fuel index run wrote
  else pure (index, run, wrote)

theorem fillArrays_pass {fuel : ℕ} {wrote : Bool} {a : ℕ × Run × Bool}
    (h : Writer.fillArrays g.unit k (fuel + 1) index run wrote s = (some a, s')) (hg : g.Single) (hs : Sane g s.world) :
    ∃ slot wrote₁ s₁, EnsureArray g (k % g.perBlock) wrote s slot wrote₁ s₁ ∧
      fillPass g.unit k fuel (g.toBlock slot + index / g.perBlock) index run wrote₁ s₁ = (some a, s') := by
  have hpb : ∀ {t : Writer Session}, Sane g t.world → t.perBlock = g.perBlock := by
    intro t ht
    show t.world.vol.blockSize / 8 = _
    rw [ht.geometry]; rfl
  have hto : ∀ r, s.toBlock r = g.toBlock r := by
    intro r
    show s.world.vol.toBlock r = _
    rw [hs.geometry]
  unfold Writer.fillArrays at h
  rw [get_bind_run] at h
  dsimp only at h
  rw [hpb hs] at h
  split at h
  · rename_i hz
    obtain ⟨array, s₁, h₁, h⟩ := bind_eq_some h
    obtain ⟨u, s₂, h₂, h⟩ := bind_eq_some h
    obtain ⟨u', s₃, h₃, h⟩ := bind_eq_some h
    obtain rfl := Writer.buffers_eq_some h₃
    rw [pure_bind_run] at h
    dsimp only at h
    obtain ⟨-, hgr, -, hf⟩ := allocateUnit_some h₁ hg hs
    obtain ⟨-, hnew⟩ := newArray_some h₂ hg hs hgr hf
    rw [hpb (hnew.steps fun _ => False).sane, hto] at h
    exact ⟨_, _, _, .new hz h₁ h₂, h⟩
  · rename_i hz
    rw [pure_bind_run] at h
    dsimp only at h
    rw [hto] at h
    exact ⟨_, _, _, .old (by simpa using hz), h⟩

theorem fillArrays_some {wrote wrote' : Bool} {run' : Run} {index' : ℕ} (hg : g.Single) (fuel : ℕ)
    (hs : Arrays g s (dbl :: arrays)) (hk : k < dbl.length * g.perBlock)
    (hd : ShowsDouble g (nodeView s (g.toBlock dbl + k / g.perBlock)) dbl arrays pieces)
    (hlen : pieces.length = k * (g.unit * g.perBlock) + index) (hindex : index < g.unit * g.perBlock)
    (hcount : arrays.length = k ∧ index = 0 ∨ arrays.length = k + 1) (hw : OfUnits g.unit run m) (hm : 0 < m)
    (h : Writer.fillArrays g.unit k fuel index run wrote s = (some (index', run', wrote'), s')) :
    ∃ n arrays', 0 < n ∧ Advanced g.unit run n run' ∧ index' = index + n ∧ index' ≤ g.unit * g.perBlock ∧
      (index' = g.unit * g.perBlock ∨ n = m) ∧ Filling g dbl k run n arrays pieces s s' arrays' ∧
      (wrote' = false → wrote = false ∧ s'.node = s.node ∧ ∀ i < g.blockSize,
        readBlock s'.world (g.toBlock dbl + k / g.perBlock) i = readBlock s.world (g.toBlock dbl + k / g.perBlock) i) := by
  have hp := hs.sane.perBlock_pos
  have hu := g.unit_pos
  have hfuel : g.perBlock ≤ 2 ^ 16 := by
    have h₁ : 2 ^ g.agShift ≤ 2 ^ 16 := Nat.pow_le_pow_right (by norm_num) hg.shift
    rw [← hg.bits, Geometry.bitsPerBlock] at h₁
    have h₂ : g.perBlock ≤ g.blockSize := Nat.div_le_self _ _
    omega
  induction fuel generalizing s index run m arrays pieces wrote with
  | zero => cases h
  | succ fuel ih =>
    obtain ⟨slot, wrote₁, s₁, hen, h⟩ := fillArrays_pass h hg hs.sane
    obtain ⟨arrays₁, hk₁, hcount₁, hslot, hext₁, hd₁, hst₁, hwr₁⟩ := hen.spec hg hs hk hd hlen hcount
    have hs₁ := hext₁.held hs
    subst hslot
    have hcap : index < arrays₁[k].length * g.perBlock := by rw [hd₁.units _ (List.getElem_mem hk₁)]; exact hindex
    set D := g.toBlock arrays₁[k] + index / g.perBlock with hD
    have hDmem : D ∈ (dbl :: arrays₁).flatMap g.runBlocks :=
      List.mem_flatMap.mpr ⟨arrays₁[k], by simp, block_of_slot hcap⟩
    have hDne : g.toBlock dbl + k / g.perBlock ≠ D := by
      intro he
      refine hs₁.apart_of (i := 0) (j := k + 1) (by simp) (by simp; omega) (by omega) (b := D) ?_ ?_
      · simpa [← he] using block_of_slot hk
      · simpa using block_of_slot hcap
    unfold fillPass at h
    obtain ⟨u₂, s₂, h₂, h⟩ := bind_eq_some h
    obtain rfl := Writer.buffers_eq_some h₂
    rw [get_bind_run] at h
    dsimp only at h
    have hpb : ∀ work, Writer.perBlock { s₁ with work := work } = g.perBlock := by
      intro work
      show s₁.world.vol.blockSize / 8 = _
      rw [hs₁.sane.geometry]; rfl
    rw [hpb] at h
    obtain ⟨b', run₁, he, hadv, hslots⟩ := fillSlots_spec hu hp (2 ^ 16) (readBlock s₁.world D) index
      hw hm (by omega)
    rw [he] at h
    dsimp only at h
    obtain ⟨u₃, s₃, h₃, h⟩ := bind_eq_some h
    obtain rfl := Writer.buffers_eq_some h₃
    obtain ⟨u₄, s₄, h₄, h⟩ := bind_eq_some h
    obtain ⟨hb, hwrote, hpeek, hf⟩ := Writer.writeBlock_some h₄ hs₁.sane.ok
    have hn : min m (g.perBlock - index % g.perBlock) ≤ g.perBlock - index % g.perBlock := Nat.min_le_right _ _
    have hmod := Nat.mod_lt index hp
    set n := min m (g.perBlock - index % g.perBlock)
    have hnode : s₄.node = s₁.node := by rw [hb]
    have hshow := fillBlock_shows hs₁ hk hd₁ hlen hindex hcount₁ hk₁ hn hu hslots hwrote hnode
    have hsteps : Steps g (· ∈ (dbl :: arrays₁).flatMap g.runBlocks) s₁ s₄ :=
      ((hwrote.steps hg hs₁.sane (hs₁.marked D hDmem).1 hpeek hf).mono fun b _ hbe => hbe ▸ hDmem).of_start rfl
    have hread : ∀ i < g.blockSize, readBlock s₄.world (g.toBlock dbl + k / g.perBlock) i =
        readBlock s₁.world (g.toBlock dbl + k / g.perBlock) i := by
      intro i hi
      rw [hwrote.read_eq hs₁.sane hi, if_neg hDne]
      rfl
    have hroom := slots_room hindex hn
    have hstream : s₄.stream = s.stream := by rw [hb]; exact hst₁
    have hlen' : (pieces ++ piecesOf g.unit run n).length = k * (g.unit * g.perBlock) + (index + n) := by
      rw [List.length_append, length_piecesOf, hlen]; omega
    have hn₀ : 0 < n := Nat.lt_min.mpr ⟨hm, by omega⟩
    have hkeep : wrote₁ = false → wrote = false ∧ s₄.node = s.node ∧ ∀ i < g.blockSize,
        readBlock s₄.world (g.toBlock dbl + k / g.perBlock) i = readBlock s.world (g.toBlock dbl + k / g.perBlock) i := by
      intro hc
      obtain ⟨hc₁, rfl⟩ := hwr₁ hc
      exact ⟨hc₁, hnode, hread⟩
    split at h
    · rename_i hgo
      have hlt : n < m := (hadv.ne_zero_iff hw hu).mp hgo.2
      have hroom' : index + n < g.unit * g.perBlock := by
        refine Nat.lt_of_le_of_ne hroom fun heq => hgo.1 ?_
        rw [heq, Nat.mul_comm, Nat.mod_self]
      obtain ⟨n', arrays', hn', hadv', hix, hle, hor, hfl, hwr'⟩ := ih (hsteps.extends.held hs₁) hshow hlen' hroom'
        (Or.inr hcount₁) (hw.advanced hadv) (by omega) h
      refine ⟨n + n', arrays', by omega, hadv.trans hadv', by omega, hle, by omega,
        ⟨hfl.count, (hext₁.trans hsteps.extends).trans hfl.ext, ?_, hfl.stream.trans hstream⟩, fun hc => ?_⟩
      · rw [piecesOf_add hadv hgo.2, ← List.append_assoc]
        exact hfl.shows
      · obtain ⟨hc₁, hnd, hrd⟩ := hwr' hc
        obtain ⟨hc₂, hnd₂, hrd₂⟩ := hkeep hc₁
        exact ⟨hc₂, hnd.trans hnd₂, fun i hi => (hrd i hi).trans (hrd₂ i hi)⟩
    · rename_i hstop
      cases h
      refine ⟨n, arrays₁, hn₀, hadv, rfl, hroom, ?_,
        ⟨hcount₁, hext₁.trans hsteps.extends, hshow, hstream⟩, hkeep⟩
      by_cases hz : run'.length = 0
      · right
        have hle := hadv.le hw hu
        have : ¬ n < m := fun hlt => (hadv.ne_zero_iff hw hu).mpr hlt hz
        omega
      · left
        by_contra hne
        refine hstop ⟨?_, hz⟩
        rw [Nat.mul_comm, Nat.mod_eq_of_lt (by omega)]
        omega

/-! ## Array after array -/

/-- The pieces of `run` in the double indirect runs. -/
structure AddsPieces (g : Geometry) (dbl run : Run) (m : ℕ) (arrays pieces : List Run) (s s' : Writer Session)
    (arrays' : List Run) : Prop where
  ext : Extends g s s' (dbl :: arrays) (dbl :: arrays')
  shows : ShowsDouble g (readBlock s'.world) dbl arrays' (pieces ++ piecesOf g.unit run m)
  begun : ∀ j < arrays'.length, j * (g.unit * g.perBlock) < (pieces ++ piecesOf g.unit run m).length
  stream : s'.stream = s.stream

/-- The buffer `node_` holds the block that lists the `k`th array. -/
def Loaded (g : Geometry) (dbl : Run) (k : ℕ) (s : Writer Session) : Prop :=
  ∀ i < g.blockSize, s.node i = readBlock s.world (g.toBlock dbl + k / g.perBlock) i

theorem Loaded.shows (h : Loaded g dbl k s) (hd : ShowsDouble g (readBlock s.world) dbl arrays pieces) :
    ShowsDouble g (nodeView s (g.toBlock dbl + k / g.perBlock)) dbl arrays pieces := by
  have hview : ∀ b, ∀ i < g.blockSize, nodeView s (g.toBlock dbl + k / g.perBlock) b i = readBlock s.world b i := by
    intro b i hi
    by_cases hb : b = g.toBlock dbl + k / g.perBlock
    · rw [hb, nodeView_self, h i hi]
    · rw [nodeView_of_ne hb]
  exact hd.congr (fun b _ => hview b) fun a _ b _ => hview b

theorem fillArray_some {wrote : Bool} {run' : Run} {index' : ℕ} {u : Unit} {s₁ s₂ : Writer Session} (hg : g.Single)
    (hs : Arrays g s (dbl :: arrays)) (hk : k < dbl.length * g.perBlock) (hload : Loaded g dbl k s)
    (hd : ShowsDouble g (readBlock s.world) dbl arrays pieces)
    (hlen : pieces.length = k * (g.unit * g.perBlock) + index) (hindex : index < g.unit * g.perBlock)
    (hcount : arrays.length = k ∧ index = 0 ∨ arrays.length = k + 1) (hw : OfUnits g.unit run m) (hm : 0 < m)
    (h : Writer.fillArrays g.unit k (2 ^ 16) index run false s = (some (index', run', wrote), s₁))
    (h' : when (wrote = true) (Writer.writeBlock (g.toBlock dbl + k / g.perBlock) s₁.node) s₁ = (some u, s₂)) :
    ∃ n arrays', 0 < n ∧ Advanced g.unit run n run' ∧ index' = index + n ∧
      (index' = g.unit * g.perBlock ∨ n = m) ∧ arrays'.length = k + 1 ∧ Loaded g dbl k s₂ ∧
      AddsPieces g dbl run n arrays pieces s s₂ arrays' := by
  have hdmem : g.toBlock dbl + k / g.perBlock ∈ g.runBlocks dbl := block_of_slot hk
  obtain ⟨n, arrays', hn, hadv, hix, hle, hor, hfl, hwr⟩ := fillArrays_some hg _ hs hk (hload.shows hd) hlen hindex
    hcount hw hm h
  refine ⟨n, arrays', hn, hadv, hix, hor, hfl.count, ?_⟩
  have hbegun : ∀ j < arrays'.length, j * (g.unit * g.perBlock) < (pieces ++ piecesOf g.unit run n).length := by
    intro j hj
    rw [hfl.count] at hj
    have := Nat.mul_le_mul_right (g.unit * g.perBlock) (show j ≤ k by omega)
    rw [List.length_append, length_piecesOf, hlen]
    omega
  rcases when_eq_some h' with ⟨-, hwrite⟩ | ⟨hno, rfl⟩
  · -- a new array: its block is written
    have hs₁ := hfl.ext.held hs
    have hmem : g.toBlock dbl + k / g.perBlock ∈ (dbl :: arrays').flatMap g.runBlocks :=
      List.mem_flatMap.mpr ⟨dbl, by simp, hdmem⟩
    obtain ⟨hb, hwrote, hpeek, hf⟩ := Writer.writeBlock_some hwrite hs₁.sane.ok
    have hsteps : Steps g (· ∈ (dbl :: arrays').flatMap g.runBlocks) s₁ s₂ :=
      (hwrote.steps hg hs₁.sane (hs₁.marked _ hmem).1 hpeek hf).mono fun b _ hbe => hbe ▸ hmem
    have hnode : s₂.node = s₁.node := by rw [hb]
    have hview : ∀ b, ∀ i < g.blockSize, readBlock s₂.world b i = nodeView s₁ (g.toBlock dbl + k / g.perBlock) b i := by
      intro b i hi
      rw [hwrote.read_eq hs₁.sane hi, nodeView]
      split <;> rfl
    refine ⟨fun i hi => ?_, hfl.ext.trans hsteps.extends, hfl.shows.congr (fun b _ => hview b) fun a _ b _ => hview b,
      hbegun, ?_⟩
    · rw [hview _ i hi, nodeView_self, hnode]
    · rw [hb]; exact hfl.stream
  · obtain ⟨-, hnode, hread⟩ := hwr (by simpa using hno)
    have hload₁ : Loaded g dbl k s₂ := fun i hi => by rw [hnode, hread i hi]; exact hload i hi
    have hview : ∀ b, ∀ i < g.blockSize, readBlock s₂.world b i = nodeView s₂ (g.toBlock dbl + k / g.perBlock) b i := by
      intro b i hi
      by_cases hb : b = g.toBlock dbl + k / g.perBlock
      · rw [hb, nodeView_self, hload₁ i hi]
      · rw [nodeView_of_ne hb]
    exact ⟨hload₁, hfl.ext, hfl.shows.congr (fun b _ => hview b) fun a _ b _ => hview b, hbegun, hfl.stream⟩

/-- A pass of the loop, once the block that lists the array is in `node_`. -/
def slotPass (unit perBlock fuel k index arrayBlock : ℕ) (dbl run : Run) : W Unit := do
  let filled ← Writer.fillArrays unit k (2 ^ 16) index run false
  let s' ← .get
  .when filled.2.2 (Writer.writeBlock arrayBlock s'.node)
  let index := if filled.1 = perBlock * unit then 0 else filled.1
  if (k + 1) % perBlock = 0 then Writer.appendSlots unit dbl fuel (k + 1) 0 filled.2.1 none
  else Writer.appendSlots unit dbl fuel (k + 1) index filled.2.1 (some arrayBlock)

theorem appendSlots_some {u : Unit} {loaded : Option ℕ} (hg : g.Single) (fuel : ℕ)
    (hs : Arrays g s (dbl :: arrays)) (hd : ShowsDouble g (readBlock s.world) dbl arrays pieces)
    (hbegun : ∀ j < arrays.length, j * (g.unit * g.perBlock) < pieces.length)
    (hstart : 0 < m → pieces.length = k * (g.unit * g.perBlock) + index ∧ index < g.unit * g.perBlock ∧
      (arrays.length = k ∧ index = 0 ∨ arrays.length = k + 1))
    (hload : ∀ block, loaded = some block → block = g.toBlock dbl + k / g.perBlock ∧ Loaded g dbl k s)
    (hw : OfUnits g.unit run m) (h : Writer.appendSlots g.unit dbl fuel k index run loaded s = (some u, s')) :
    ∃ arrays', AddsPieces g dbl run m arrays pieces s s' arrays' := by
  have hp := hs.sane.perBlock_pos
  have hu := g.unit_pos
  induction fuel generalizing s index run m arrays pieces k loaded with
  | zero => cases h
  | succ fuel ih =>
    have hlen := hw.length
    unfold Writer.appendSlots at h
    split at h
    · rename_i hz
      cases h
      have hm : m = 0 := by
        rw [hz] at hlen
        rcases Nat.mul_eq_zero.mp hlen.symm with h0 | h0
        · exact h0
        · omega
      subst hm
      have he : pieces ++ piecesOf g.unit run 0 = pieces := List.append_nil _
      exact ⟨arrays, .refl hs.sane, by rw [he]; exact hd, by rw [he]; exact hbegun, rfl⟩
    · rename_i hz
      have hm : 0 < m := Nat.pos_of_ne_zero fun h0 => hz (by rw [hlen, h0, Nat.zero_mul])
      obtain ⟨hpl, hix, hcount⟩ := hstart hm
      have hpb : s.perBlock = g.perBlock := by
        show s.world.vol.blockSize / 8 = _
        rw [hs.sane.geometry]; rfl
      have hto : s.toBlock dbl = g.toBlock dbl := by
        show s.world.vol.toBlock dbl = _
        rw [hs.sane.geometry]
      rw [get_bind_run] at h
      obtain ⟨hck, h⟩ := check_bind_eq_some h
      dsimp only at h
      rw [hpb, hto] at h
      rw [hpb] at hck
      have hk : k < dbl.length * g.perBlock := by
        rw [decide_eq_true_eq, Nat.div_lt_iff_lt_mul hp] at hck
        exact hck
      have key : ∀ s₁ : Writer Session, s₁.store = s.store → s₁.stream = s.stream → Loaded g dbl k s₁ →
          slotPass g.unit g.perBlock fuel k index (g.toBlock dbl + k / g.perBlock) dbl run s₁ = (some u, s') →
          ∃ arrays', AddsPieces g dbl run m arrays pieces s s' arrays' := by
        intro s₁ hst hstr hload₁ h
        have hw₁ : s₁.world = s.world := by unfold Writer.world; rw [hst]
        unfold slotPass at h
        obtain ⟨⟨index', run', wrote⟩, s₂, h₂, h⟩ := bind_eq_some h
        rw [get_bind_run] at h
        dsimp only at h
        obtain ⟨u', s₃, h₃, h⟩ := bind_eq_some h
        obtain ⟨n, arrays', hn, hadv, hix', hor, hcount', hload₃, hadd⟩ := fillArray_some hg (hs.of_store hst) hk hload₁
          (by rw [hw₁]; exact hd) hpl hix hcount hw hm h₂ h₃
        have hlen' : (pieces ++ piecesOf g.unit run n).length = k * (g.unit * g.perBlock) + index' := by
          rw [List.length_append, length_piecesOf, hpl]; omega
        have hnext : 0 < m - n → (pieces ++ piecesOf g.unit run n).length = (k + 1) * (g.unit * g.perBlock) ∧
            index' = g.perBlock * g.unit := by
          intro hlt
          have hfull : index' = g.unit * g.perBlock := by omega
          exact ⟨by rw [hlen', hfull, Nat.succ_mul], by rw [hfull, Nat.mul_comm]⟩
        have hR : 0 < g.unit * g.perBlock := Nat.mul_pos hu hp
        have hgo : ∀ {index₂ : ℕ} {loaded₂ : Option ℕ}, (index' = g.perBlock * g.unit → index₂ = 0) →
            (∀ block, loaded₂ = some block → block = g.toBlock dbl + (k + 1) / g.perBlock ∧ Loaded g dbl (k + 1) s₃) →
            Writer.appendSlots g.unit dbl fuel (k + 1) index₂ run' loaded₂ s₃ = (some u, s') →
            ∃ arrays', AddsPieces g dbl run m arrays pieces s s' arrays' := by
          intro index₂ loaded₂ hzero hload₂ h
          obtain ⟨arrays₂, hadd₂⟩ := ih (hadd.ext.held (hs.of_store hst)) hadd.shows hadd.begun
            (fun hlt => ⟨by rw [(hnext hlt).1, hzero (hnext hlt).2]; rfl, by rw [hzero (hnext hlt).2]; exact hR,
              Or.inl ⟨hcount', hzero (hnext hlt).2⟩⟩) hload₂ (hw.advanced hadv) h
          have hpieces : pieces ++ piecesOf g.unit run n ++ piecesOf g.unit run' (m - n) =
              pieces ++ piecesOf g.unit run m := by
            have hle := hadv.le hw hu
            rw [List.append_assoc]
            congr 1
            by_cases hmn : m - n = 0
            · rw [hmn, show m = n by omega]
              exact List.append_nil _
            · rw [← piecesOf_add hadv ((hadv.ne_zero_iff hw hu).mpr (by omega)), show n + (m - n) = m by omega]
          refine ⟨arrays₂, (hadd.ext.trans hadd₂.ext).of_start hst.symm, ?_, ?_, hadd₂.stream.trans (hadd.stream.trans hstr)⟩
          · rw [← hpieces]; exact hadd₂.shows
          · rw [← hpieces]; exact hadd₂.begun
        split at h
        · exact hgo (fun _ => rfl) (fun block hb => by cases hb) h
        · rename_i hne
          have hsame : (k + 1) / g.perBlock = k / g.perBlock := by
            rw [Nat.succ_div, if_neg fun hdvd => hne (Nat.mod_eq_zero_of_dvd hdvd), Nat.add_zero]
          refine hgo (fun he => if_pos he) (fun block hb => ?_) h
          cases hb
          refine ⟨by rw [hsame], fun i hi => ?_⟩
          rw [hsame]
          exact hload₃ i hi
      cases loaded with
      | some block =>
        obtain ⟨rfl, hl⟩ := hload block rfl
        exact key s rfl rfl hl h
      | none =>
        obtain ⟨u₁, s₁, h₁, h⟩ := bind_eq_some h
        obtain rfl := Writer.buffers_eq_some h₁
        rw [pure_bind_run] at h
        refine key _ ?_ ?_ (fun i _ => ?_) h <;> rfl

/-! ## `append_double` -/

/-- The double indirect range is past the indirect one by the pieces that are there, so
    that the difference gives the next free slot. -/
def Slotted (g : Geometry) (stream : Buf) (p : Parts) : Prop :=
  runIsZero p.doubleArray = false → le 8 stream DataField.kMaxDoubleIndirectRange =
    le 8 stream DataField.kMaxIndirectRange + p.pieces.length * (g.unit * g.blockSize)

theorem Shows.count_arrays {rd : ℕ → Buf} {stream : Buf} {p : Parts} (h : Shows g rd stream p)
    (hR : 0 < g.unit * g.perBlock) :
    p.arrays.length = p.pieces.length / (g.unit * g.perBlock) ∧ p.pieces.length % (g.unit * g.perBlock) = 0 ∨
      p.arrays.length = p.pieces.length / (g.unit * g.perBlock) + 1 := by
  have hfits := h.double.fits
  have hbegun := h.begun
  have hdm := Nat.div_add_mod p.pieces.length (g.unit * g.perBlock)
  have hmod := Nat.mod_lt p.pieces.length hR
  set R := g.unit * g.perBlock
  set k := p.pieces.length / R
  have hle : p.arrays.length ≤ k + 1 := by
    by_contra hc
    have := hbegun (k + 1) (by omega)
    rw [Nat.succ_mul, Nat.mul_comm k] at this
    omega
  have hge : k ≤ p.arrays.length := by
    by_contra hc
    have : (p.arrays.length + 1) * R ≤ k * R := Nat.mul_le_mul_right _ (by omega)
    rw [Nat.succ_mul, Nat.mul_comm k] at this
    omega
  rcases Nat.lt_or_ge k p.arrays.length with hlt | hlt
  · exact Or.inr (by omega)
  · have hk : p.arrays.length = k := by omega
    rw [hk, Nat.mul_comm k] at hfits
    exact Or.inl ⟨hk, by omega⟩

theorem Held.appendDouble {p : Parts} {u : Unit} (h : Held g s p) (hg : g.Single)
    (hz : runIsZero p.doubleArray = false) (hslot : Slotted g s.stream p) (hw : OfUnits g.unit run m)
    (hr : Writer.appendDouble run s = (some u, s')) :
    (∃ arrays', Phase g s s' p { p with arrays := arrays', pieces := p.pieces ++ piecesOf g.unit run m }) ∧
      s'.stream = put 8 s.stream DataField.kMaxDoubleIndirectRange
        (le 8 s.stream DataField.kMaxDoubleIndirectRange + run.length * g.blockSize) := by
  have hp := h.sane.perBlock_pos
  have hu := g.unit_pos
  have hR : 0 < g.unit * g.perBlock := Nat.mul_pos hu hp
  have hbs : ∀ {t : Writer Session}, Sane g t.world → t.blockSize = g.blockSize := by
    intro t ht
    show t.world.vol.blockSize = _
    rw [ht.geometry]
  have hD : 0 < g.unit * g.blockSize := Nat.mul_pos hu (Nat.two_pow_pos _)
  unfold Writer.appendDouble at hr
  rw [get_bind_run] at hr
  obtain ⟨-, hr⟩ := check_bind_eq_some hr
  have hunit : s.doubleIndirectBlocks = g.unit := by rw [Writer.doubleIndirectBlocks, hbs h.sane]; rfl
  have hpb : s.perBlock = g.perBlock := by
    show s.world.vol.blockSize / 8 = _
    rw [h.sane.geometry]; rfl
  have hstart : le 8 s.stream DataField.kMaxDoubleIndirectRange - le 8 s.stream DataField.kMaxIndirectRange =
      p.pieces.length * (g.unit * g.blockSize) := by
    rw [hslot hz]; omega
  -- the sizes of an array and of a piece divide the range to the slot
  have hsize : g.unit * (g.unit * g.blockSize) * g.perBlock = g.unit * g.blockSize * (g.unit * g.perBlock) := by
    rw [Nat.mul_comm g.unit (g.unit * g.blockSize), Nat.mul_assoc]
  rw [hunit, hpb, hbs h.sane, hstart, hsize, h.shows.doubleArray, Nat.mul_comm p.pieces.length,
    Nat.mul_div_mul_left _ _ hD, Nat.mul_mod_mul_left, Nat.mul_div_cancel_left _ hD] at hr
  obtain ⟨u₁, s₁, h₁, hr⟩ := bind_eq_some hr
  have hdbl : Arrays g s (p.doubleArray :: p.arrays) :=
    ⟨h.sane, fun r hr => h.on r (List.mem_cons_of_mem _ hr), (List.nodup_append.mp h.apart).2.1,
      fun b hb => h.marked b (List.mem_append_right _ hb)⟩
  obtain ⟨arrays', hadd⟩ := appendSlots_some hg _ hdbl h.shows.double h.shows.begun
    (fun _ => ⟨(Nat.div_add_mod' _ _).symm, Nat.mod_lt _ hR, h.shows.count_arrays hR⟩)
    (fun _ hc => by cases hc) hw h₁
  unfold Writer.addRange at hr
  rw [get_bind_run] at hr
  obtain rfl := Writer.buffers_eq_some hr
  have hind : ∀ b ∈ g.runBlocks p.indirectArray, ∀ i < g.blockSize, readBlock s₁.world b i = readBlock s.world b i := by
    intro b hb
    have hmem : b ∈ p.arrayRuns.flatMap g.runBlocks := List.mem_append_left _ hb
    obtain ⟨ha, hm⟩ := h.marked b hmem
    exact hadd.ext.steps.read b (h.toArrays.lt hmem) ha hm fun hc => (List.nodup_append.mp h.apart).2.2 b hb b hc rfl
  have hstream : ∀ i, (i + 8 ≤ DataField.kMaxDoubleIndirectRange ∨ DataField.kMaxDoubleIndirectRange + 8 ≤ i) →
      ∀ v, leRun (put 8 s₁.stream DataField.kMaxDoubleIndirectRange v) i = leRun s.stream i := by
    intro i hi v
    rw [leRun_put_of_disjoint hi, hadd.stream]
  refine ⟨⟨arrays', ⟨(hadd.ext.steps.mono fun b _ hb => List.mem_append_right _ hb).buffers rfl, fun r hr => ?_, ?_⟩, ?_⟩, ?_⟩
  · rcases List.mem_cons.mp hr with rfl | hr
    · exact Or.inl List.mem_cons_self
    · exact (hadd.ext.on r hr).imp_left (List.mem_cons_of_mem _)
  · obtain ⟨new, hperm, hnew⟩ := hadd.ext.arrays
    refine ⟨new, ?_, hnew⟩
    have := hperm.append_left (g.runBlocks p.indirectArray)
    rwa [← List.append_assoc] at this
  · refine ⟨h.shows.direct.congr fun i hi => ?_, ?_, ?_, ?_, hadd.shows, hadd.begun, h.shows.directFull, h.shows.indirectFull⟩
    · refine hstream _ ?_ _
      simp only [DataField.kMaxDoubleIndirectRange, DataField.kDirect, DataField.kDirectCount] at *
      omega
    · exact (hstream _ (by decide) _).trans h.shows.indirectArray
    · exact h.shows.indirect.congr fun i hi => cells_congr hind hi
    · exact (hstream _ (by decide) _).trans h.shows.doubleArray
  · rw [hadd.stream, hbs hadd.ext.steps.sane]

end

end Aegir.Bfs
