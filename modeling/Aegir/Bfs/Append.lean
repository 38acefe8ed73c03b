/-
  `Writer::append_run` (`writer.cc`): a run at the end of a stream.
-/
import Aegir.Bfs.Parts

namespace Aegir.Bfs

open Aegir.Lib Aegir.Lib.Buf Aegir.Lib.Fallible

/-! ## Adding a run to a list -/

/-- The run in the slot before the first free one, when both are in one block of `k` slots. -/
def lastBefore (k : ℕ) (l : List Run) : Option Run := if l.length % k = 0 then none else l.getLast?

/-- `last` lengthened by `run`. -/
def lengthened (last run : Run) : Run := { last with length := (last.length + run.length) % 2 ^ 16 }

/-- A run added at the end, or to the run before when they touch. -/
def addRun (k : ℕ) (l : List Run) (run : Run) : List Run :=
  match (lastBefore k l).filter fun last => Writer.runsContiguous last run with
  | some last => l.dropLast ++ [lengthened last run]
  | none => l ++ [run]

section
variable {k n : ℕ} {l : List Run} {last run : Run} {b : Buf}

theorem lastBefore_eq_some (h : lastBefore k l = some last) :
    l.length % k ≠ 0 ∧ ∃ hl : 0 < l.length, l[l.length - 1] = last := by
  unfold lastBefore at h
  split at h
  · cases h
  · have hl : 0 < l.length := Nat.pos_of_ne_zero fun h0 => by simp [h0] at *
    rw [List.getLast?_eq_some_getLast (List.length_pos_iff.mp hl), Option.some.injEq] at h
    exact ⟨‹_›, hl, by rw [← h, List.getLast_eq_getElem]⟩

/-- The slot `putAfter` writes, in a block of which `used` slots are: that of the run
    before when they touch, else the first free one. -/
theorem putAfter_cases {first used : ℕ} (run : Run) (hu : used = l.length % k)
    (hlast : ∀ last, lastBefore k l = some last → leRun b (first + (used - 1) * 8) = last) :
    (∃ last, lastBefore k l = some last ∧ Writer.runsContiguous last run = true ∧
      Writer.putAfter b first used run = putRun b (first + (used - 1) * 8) (lengthened last run) ∧
      addRun k l run = l.dropLast ++ [lengthened last run]) ∨
    ((∀ last, lastBefore k l = some last → Writer.runsContiguous last run = false) ∧
      Writer.putAfter b first used run = putRun b (first + used * 8) run ∧ addRun k l run = l ++ [run]) := by
  unfold Writer.putAfter addRun
  rcases h : lastBefore k l with _ | last
  · refine Or.inr ⟨fun _ h => (nomatch h), if_neg ?_, rfl⟩
    unfold lastBefore at h
    split at h
    · omega
    · rw [List.getLast?_eq_none_iff] at h
      simp [h] at hu
      omega
  · have hpos := (lastBefore_eq_some h).1
    have hlast := hlast last h
    cases hc : Writer.runsContiguous last run
    · refine Or.inr ⟨fun l' h' => (by cases h'; exact hc), if_neg ?_, by rw [Option.filter_some, hc]; rfl⟩
      rw [hlast, hc]
      simp
    · refine Or.inl ⟨last, rfl, hc, ?_, by rw [Option.filter_some, hc]; rfl⟩
      rw [if_pos ⟨by omega, by rw [hlast]; exact hc⟩, hlast]
      rfl

theorem lengthened_solid {g : Geometry} (h : 0 < g.toBlock last) : runIsZero (lengthened last run) = false := by
  by_contra hc
  simp only [Bool.not_eq_false, runIsZero, lengthened, Bool.and_eq_true, beq_iff_eq] at hc
  rw [Geometry.toBlock, hc.1.1, hc.1.2] at h
  simp at h

theorem lengthened_fits (h : last.Fits) : (lengthened last run).Fits :=
  ⟨h.allocationGroup, h.start, Nat.mod_lt _ (by norm_num)⟩

end

/-! ## The parts of the work -/

/-- The arrays `rs` are blocks in use, each of one array only. -/
structure Arrays (g : Geometry) (s : Writer Session) (rs : List Run) : Prop where
  sane : Sane g s.world
  on : ∀ r ∈ rs, runIsZero r = false → r.On g
  apart : (rs.flatMap g.runBlocks).Nodup
  marked : ∀ b ∈ rs.flatMap g.runBlocks, g.numAgs < b ∧ s.world.inUse b = true

/-- From the arrays `rs` to `rs'`: those of `rs` were written, and those that came were
    free before. -/
structure Extends (g : Geometry) (s s' : Writer Session) (rs rs' : List Run) : Prop where
  steps : Steps g (· ∈ rs.flatMap g.runBlocks) s s'
  on : ∀ r ∈ rs', r ∈ rs ∨ runIsZero r = true ∨ r.On g
  arrays : ∃ new : List ℕ, (rs'.flatMap g.runBlocks).Perm (rs.flatMap g.runBlocks ++ new) ∧ new.Nodup ∧
    ∀ b ∈ new, g.numAgs < b ∧ b < g.numBlocks ∧ s.world.inUse b = false ∧ s'.world.inUse b = true

/-- A stream with its arrays. -/
structure Held (g : Geometry) (s : Writer Session) (p : Parts) : Prop extends Arrays g s p.arrayRuns where
  shows : Shows g (readBlock s.world) s.stream p
  above : ∀ r ∈ p.runs, 0 < g.toBlock r

/-- A part of the work, from the parts `p` of the stream to `p'`. -/
structure Phase (g : Geometry) (s s' : Writer Session) (p p' : Parts) : Prop
    extends Extends g s s' p.arrayRuns p'.arrayRuns where
  shows : Shows g (readBlock s'.world) s'.stream p'

section
variable {g : Geometry} {s s' s'' : Writer Session} {rs rs' rs'' : List Run} {p p' p'' : Parts}

theorem runBlocks_of_zero {r : Run} (h : runIsZero r = true) : g.runBlocks r = [] := by
  rw [Geometry.runBlocks, length_of_zero h]
  rfl

theorem Arrays.lt (h : Arrays g s rs) {b : ℕ} (hb : b ∈ rs.flatMap g.runBlocks) : b < g.numBlocks := by
  obtain ⟨r, hr, hb⟩ := List.mem_flatMap.mp hb
  cases hz : runIsZero r
  · exact (h.on r hr hz).lt hb
  · rw [runBlocks_of_zero hz] at hb
    cases hb

theorem Extends.refl (hs : Sane g s.world) : Extends g s s rs rs :=
  ⟨.refl hs, fun _ hr => Or.inl hr, [], by rw [List.append_nil], List.nodup_nil, fun b hb => absurd hb List.not_mem_nil⟩

theorem Extends.held (hp : Extends g s s' rs rs') (h : Arrays g s rs) : Arrays g s' rs' := by
  obtain ⟨new, hperm, hnd, hnew⟩ := hp.arrays
  refine ⟨hp.steps.sane, fun r hr hz => ?_, ?_, fun b hb => ?_⟩
  · rcases hp.on r hr with hr | hr | hr
    · exact h.on r hr hz
    · rw [hr] at hz; cases hz
    · exact hr
  · rw [hperm.nodup_iff, List.nodup_append]
    refine ⟨h.apart, hnd, fun b hb c hc he => ?_⟩
    subst he
    have h₁ := (h.marked b hb).2
    rw [(hnew b hc).2.2.1] at h₁
    cases h₁
  · rcases List.mem_append.mp (hperm.mem_iff.mp hb) with hb | hb
    · exact ⟨(h.marked b hb).1, hp.steps.used b (h.lt hb) (h.marked b hb).2⟩
    · exact ⟨(hnew b hb).1, (hnew b hb).2.2.2⟩

theorem Extends.trans (h : Extends g s s' rs rs') (h' : Extends g s' s'' rs' rs'') : Extends g s s'' rs rs'' := by
  obtain ⟨new, hperm, hnd, hnew⟩ := h.arrays
  obtain ⟨new', hperm', hnd', hnew'⟩ := h'.arrays
  refine ⟨h.steps.trans h'.steps fun b hu hb => ?_, fun r hr => ?_, new ++ new', ?_, ?_, ?_⟩
  · rcases List.mem_append.mp (hperm.mem_iff.mp hb) with hb | hb
    · exact hb
    · rw [(hnew b hb).2.2.1] at hu; cases hu
  · rcases h'.on r hr with hr | hr | hr
    · exact h.on r hr
    · exact Or.inr (Or.inl hr)
    · exact Or.inr (Or.inr hr)
  · rw [← List.append_assoc]
    exact hperm'.trans (hperm.append_right new')
  · rw [List.nodup_append]
    refine ⟨hnd, hnd', fun b hb c hc he => ?_⟩
    subst he
    have h₁ := (hnew b hb).2.2.2
    rw [(hnew' b hc).2.2.1] at h₁
    cases h₁
  · intro b hb
    rcases List.mem_append.mp hb with hb | hb
    · obtain ⟨h₁, h₂, h₃, h₄⟩ := hnew b hb
      exact ⟨h₁, h₂, h₃, h'.steps.used b h₂ h₄⟩
    · obtain ⟨h₁, h₂, h₃, h₄⟩ := hnew' b hb
      refine ⟨h₁, h₂, ?_, h₄⟩
      cases hu : s.world.inUse b
      · rfl
      · rw [h.steps.used b h₂ hu] at h₃; cases h₃

theorem Extends.of_start {s₀ : Writer Session} (h : Extends g s s' rs rs') (he : s₀.store = s.store) :
    Extends g s₀ s' rs rs' := by
  have hw : s₀.world = s.world := by unfold Writer.world; rw [he]
  refine ⟨h.steps.of_start he, h.on, ?_⟩
  rw [hw]
  exact h.arrays

theorem Arrays.of_store {s₀ : Writer Session} (h : Arrays g s rs) (he : s₀.store = s.store) : Arrays g s₀ rs := by
  have hw : s₀.world = s.world := by unfold Writer.world; rw [he]
  exact ⟨hw ▸ h.sane, h.on, h.apart, hw ▸ h.marked⟩

theorem Steps.extends (h : Steps g (· ∈ rs.flatMap g.runBlocks) s s') : Extends g s s' rs rs :=
  ⟨h, fun _ hr => Or.inl hr, [], by rw [List.append_nil], List.nodup_nil, fun b hb => absurd hb List.not_mem_nil⟩

theorem Phase.held (hp : Phase g s s' p p') (h : Held g s p) (ha : ∀ r ∈ p'.runs, 0 < g.toBlock r) :
    Held g s' p' :=
  ⟨hp.toExtends.held h.toArrays, hp.shows, ha⟩

theorem Phase.trans (h : Phase g s s' p p') (h' : Phase g s' s'' p' p'') : Phase g s s'' p p'' :=
  ⟨h.toExtends.trans h'.toExtends, h'.shows⟩

theorem Phase.of_arrays (hst : Steps g (· ∈ p.arrayBlocks g) s s') (hs : Shows g (readBlock s'.world) s'.stream p')
    (ha : p'.arrayRuns = p.arrayRuns) : Phase g s s' p p' :=
  ⟨by rw [ha]; exact hst.extends, hs⟩

/-! ## The direct runs -/

theorem Shows.addDirect {rd : ℕ → Buf} {stream : Buf} {run : Run} {v : ℕ} (h : Shows g rd stream p)
    (hl : p.direct.length < DataField.kDirectCount) (ha : ∀ r ∈ p.direct, 0 < g.toBlock r) (hrun : run.Fits)
    (hz : runIsZero run = false) :
    Shows g rd (put 8 (Writer.putAfter stream DataField.kDirect p.direct.length run) DataField.kMaxDirectRange v)
      { p with direct := addRun DataField.kDirectCount p.direct run } := by
  have hC : DataField.kDirectCount = 12 := rfl
  have hmod : p.direct.length = p.direct.length % DataField.kDirectCount := (Nat.mod_eq_of_lt hl).symm
  have hlast : ∀ last, lastBefore DataField.kDirectCount p.direct = some last →
      leRun stream (DataField.kDirect + (p.direct.length - 1) * 8) = last := by
    intro last hlast
    obtain ⟨-, hpos, rfl⟩ := lastBefore_eq_some hlast
    exact h.direct.full _ (by omega)
  have hno : runIsZero p.indirectArray = true := by
    by_contra hc
    have := h.directFull (by simpa using hc)
    omega
  -- the fields past the direct runs are as they were
  have hfield : ∀ (j : ℕ) (x : Run) (i : ℕ), j < DataField.kDirectCount →
      (i = DataField.kIndirect ∨ i = DataField.kDoubleIndirect) →
      leRun (put 8 (putRun stream (DataField.kDirect + j * 8) x) DataField.kMaxDirectRange v) i = leRun stream i := by
    intro j x i hj hi
    simp only [DataField.kIndirect, DataField.kDoubleIndirect, DataField.kMaxDirectRange, DataField.kDirect,
      DataField.kDirectCount] at *
    rw [leRun_put_of_disjoint (by omega), leRun_putRun_of_disjoint (by omega)]
  have hslot : ∀ (j : ℕ) (x : Run) (i : ℕ), i < DataField.kDirectCount → i ≠ j →
      leRun (put 8 (putRun stream (DataField.kDirect + j * 8) x) DataField.kMaxDirectRange v) (DataField.kDirect + i * 8) =
        leRun stream (DataField.kDirect + i * 8) := by
    intro j x i hi hne
    simp only [DataField.kMaxDirectRange, DataField.kDirect, DataField.kDirectCount] at *
    rw [leRun_put_of_disjoint (by omega), leRun_putRun_of_disjoint (by omega)]
  have hset : ∀ (j : ℕ) (x : Run), j < DataField.kDirectCount → x.Fits →
      leRun (put 8 (putRun stream (DataField.kDirect + j * 8) x) DataField.kMaxDirectRange v) (DataField.kDirect + j * 8) = x := by
    intro j x hj hx
    simp only [DataField.kMaxDirectRange, DataField.kDirect, DataField.kDirectCount] at *
    rw [leRun_put_of_disjoint (by omega), leRun_putRun hx]
  rcases putAfter_cases run hmod hlast with ⟨last, hsome, -, hput, hadd⟩ | ⟨-, hput, hadd⟩
  · obtain ⟨-, hpos, hat⟩ := lastBefore_eq_some hsome
    have hfits : last.Fits := by rw [← hlast last hsome]; exact leRun_fits _ _
    rw [hput]
    refine ⟨?_, (hfield _ _ _ (by omega) (Or.inl rfl)).trans h.indirectArray, h.indirect,
      (hfield _ _ _ (by omega) (Or.inr rfl)).trans h.doubleArray, h.double, h.begun, fun hc => ?_, h.indirectFull⟩
    · simp only [hadd]
      exact h.direct.setLast hpos (lengthened_solid (ha last (hat ▸ List.getElem_mem _)))
        (hset _ _ (by omega) (lengthened_fits hfits)) fun i hi hne => hslot _ _ i hi hne
    · rw [hno] at hc; cases hc
  · rw [hput]
    refine ⟨?_, (hfield _ _ _ hl (Or.inl rfl)).trans h.indirectArray, h.indirect,
      (hfield _ _ _ hl (Or.inr rfl)).trans h.doubleArray, h.double, h.begun, fun hc => ?_, h.indirectFull⟩
    · simp only [hadd]
      exact h.direct.push hl hz (hset _ _ hl hrun) fun i hi hne => hslot _ _ i hi hne
    · rw [hno] at hc; cases hc

/-! ## An array that is new -/

theorem Zeroed.cell_zero {array : Run} (h : Zeroed g array s s') {i : ℕ} (hi : i < array.length * g.perBlock) :
    cell g (readBlock s'.world) array i = ⟨0, 0, 0⟩ := by
  have hmem := block_of_slot (g := g) hi
  have hp : 0 < g.perBlock := Nat.pos_of_ne_zero fun h0 => by rw [h0, Nat.mul_zero] at hi; omega
  rw [cell, ← leRun_zero (i % g.perBlock * 8)]
  refine leRun_congr fun k hk => ?_
  have hm := Nat.mod_lt i hp
  have hle : g.perBlock * 8 ≤ g.blockSize := Nat.div_mul_le_self _ _
  rw [h.read _ _ (by omega), if_pos hmem]
  rfl

/-- An array that was free is marked and zeroed: no block in use was written. -/
structure NewArray (g : Geometry) (array : Run) (s s' : Writer Session) : Prop where
  on : array.On g
  steps : ∀ written, Steps g written s s'
  free : ∀ b ∈ g.runBlocks array, s.world.inUse b = false
  marked : ∀ b ∈ g.runBlocks array, s'.world.inUse b = true
  above : ∀ b ∈ g.runBlocks array, g.numAgs < b
  zero : ∀ i < array.length * g.perBlock, cell g (readBlock s'.world) array i = ⟨0, 0, 0⟩
  read : ∀ b ∉ g.runBlocks array, g.numAgs < b → ∀ i < g.blockSize, readBlock s'.world b i = readBlock s.world b i

theorem newArray_some {maxBlocks minBlocks : ℕ} {array : Run} {s₁ : Writer Session} {u : Unit}
    (h : Writer.zeroArray array s₁ = (some u, s')) (hg : g.Single) (hs : Sane g s.world)
    (hgr : Granted g s.world s₁.world maxBlocks minBlocks array) (hf : s₁.frees = s.frees) :
    s' = { s₁ with store := s'.store } ∧ NewArray g array s s' := by
  obtain ⟨hb, hz⟩ := Writer.zeroArray_some h hg (hgr.sane hs) fun b hb => hgr.above hs hb
  refine ⟨hb, hgr.on, fun written => ?_, hgr.free, fun b hb => ?_, fun b hb => hgr.above hs hb,
    fun i hi => hz.cell_zero hi, fun b hb ha i hi => ?_⟩
  · refine (hgr.steps hs hf).trans hz.steps fun b hu hm => ?_
    rw [hgr.free b hm] at hu
    cases hu
  · rw [hz.inUse b (hgr.on.lt hb)]
    exact hgr.marked hb
  · rw [hz.read b i hi, if_neg hb]
    exact hgr.beyond.read b ha i hi

theorem Held.newIndirect {array : Run} {v : ℕ} (h : Held g s p) (hz : runIsZero p.indirectArray = true)
    (hd : p.direct.length = DataField.kDirectCount) (hn : NewArray g array s s')
    (hst : s'.stream = put 8 (putRun s.stream DataField.kIndirect array) DataField.kMaxIndirectRange v) :
    Phase g s s' p { p with indirectArray := array } := by
  have hdz : runIsZero p.doubleArray = true := by
    by_contra hc
    rw [(h.shows.indirectFull (by simpa using hc)).1] at hz
    cases hz
  obtain ⟨harr, hpcs⟩ := h.shows.double_nil hdz
  have hblocks : p.arrayBlocks g = [] := by
    simp only [Parts.arrayBlocks, Parts.arrayRuns, harr, List.flatMap_cons, List.flatMap_nil, runBlocks_of_zero hz,
      runBlocks_of_zero hdz, List.append_nil]
  have hdouble : ShowsDouble g (readBlock s'.world) p.doubleArray p.arrays p.pieces := by
    refine h.shows.double.congr (fun b hb => ?_) fun a ha => ?_
    · rw [runBlocks_of_zero hdz] at hb; cases hb
    · rw [harr] at ha; cases ha
  refine ⟨⟨hn.steps _, fun r hr => ?_, g.runBlocks array, ?_, g.nodup_runBlocks array,
    fun b hb => ⟨hn.above b hb, hn.on.lt hb, hn.free b hb, hn.marked b hb⟩⟩,
    h.shows.direct.congr fun i hi => ?_, ?_, ?_, ?_, hdouble, h.shows.begun, fun _ => hd, fun hc => ?_⟩
  · rcases List.mem_cons.mp hr with rfl | hr
    · exact Or.inr (Or.inr hn.on)
    · exact Or.inl (List.mem_cons_of_mem _ hr)
  · rw [show p.arrayRuns.flatMap g.runBlocks = [] from hblocks]
    simp only [Parts.arrayRuns, harr, List.flatMap_cons, List.flatMap_nil, runBlocks_of_zero hdz,
      List.append_nil, List.nil_append]
    exact .refl _
  · simp only [hst, DataField.kIndirect, DataField.kMaxIndirectRange, DataField.kDirect, DataField.kDirectCount] at *
    rw [leRun_put_of_disjoint (by omega), leRun_putRun_of_disjoint (by omega)]
  · rw [hst, leRun_put_of_disjoint (by decide), leRun_putRun hn.on.fits]
  · rw [h.shows.indirect_nil hz]
    exact .nil_of_empty fun i hi => by rw [hn.zero i hi]; rfl
  · rw [hst, leRun_put_of_disjoint (by decide), leRun_putRun_of_disjoint (by decide)]
    exact h.shows.doubleArray
  · rw [hdz] at hc; cases hc

theorem Held.newDouble {array : Run} {v : ℕ} (h : Held g s p) (hz : runIsZero p.doubleArray = true)
    (hi : runIsZero p.indirectArray = false) (hfull : p.indirect.length = p.indirectArray.length * g.perBlock)
    (hn : NewArray g array s s')
    (hst : s'.stream = put 8 (putRun s.stream DataField.kDoubleIndirect array) DataField.kMaxDoubleIndirectRange v) :
    Phase g s s' p { p with doubleArray := array } := by
  obtain ⟨harr, hpcs⟩ := h.shows.double_nil hz
  have hind : ∀ b ∈ g.runBlocks p.indirectArray, b ∈ p.arrayBlocks g := fun b hb =>
    List.mem_flatMap.mpr ⟨_, List.mem_cons_self, hb⟩
  have hread : ∀ b ∈ p.arrayBlocks g, ∀ i < g.blockSize, readBlock s'.world b i = readBlock s.world b i := by
    intro b hb
    obtain ⟨ha, hu⟩ := h.marked b hb
    refine hn.read b (fun hc => ?_) ha
    rw [hn.free b hc] at hu
    cases hu
  have hdouble : ShowsDouble g (readBlock s'.world) array p.arrays p.pieces := by
    rw [harr, hpcs]
    exact ⟨.nil_of_empty fun i hi => (by rw [hn.zero i hi]; rfl), fun a ha => absurd ha List.not_mem_nil,
      fun k hk => absurd hk (Nat.not_lt_zero k), Nat.zero_le _, fun r hr => absurd hr List.not_mem_nil⟩
  refine ⟨⟨hn.steps _, fun r hr => ?_, g.runBlocks array, ?_, g.nodup_runBlocks array,
    fun b hb => ⟨hn.above b hb, hn.on.lt hb, hn.free b hb, hn.marked b hb⟩⟩,
    h.shows.direct.congr fun i hi => ?_, ?_, ?_, ?_, hdouble, h.shows.begun, h.shows.directFull, fun _ => ⟨hi, hfull⟩⟩
  · simp only [Parts.arrayRuns, List.mem_cons] at hr ⊢
    rcases hr with rfl | rfl | hr
    · exact Or.inl (Or.inl rfl)
    · exact Or.inr (Or.inr hn.on)
    · exact Or.inl (Or.inr (Or.inr hr))
  · simp only [Parts.arrayRuns, harr, List.flatMap_cons, List.flatMap_nil, runBlocks_of_zero hz,
      List.append_nil]
    exact .refl _
  · simp only [hst, DataField.kDoubleIndirect, DataField.kMaxDoubleIndirectRange, DataField.kDirect,
      DataField.kDirectCount] at *
    rw [leRun_put_of_disjoint (by omega), leRun_putRun_of_disjoint (by omega)]
  · rw [hst, leRun_put_of_disjoint (by decide), leRun_putRun_of_disjoint (by decide)]
    exact h.shows.indirectArray
  · exact h.shows.indirect.congr fun i hi => cells_congr (fun b hb => hread b (hind b hb)) hi
  · rw [hst, leRun_put_of_disjoint (by decide), leRun_putRun hn.on.fits]

/-! ## The indirect runs -/

theorem Wrote.cell_eq {w w' : World} {r : Run} {k i : ℕ} {img : Buf} (h : Wrote w (g.toBlock r + k) img w')
    (hw : Sane g w) (hp : 0 < g.perBlock) :
    cell g (readBlock w') r i = if i / g.perBlock = k then leRun img (i % g.perBlock * 8) else cell g (readBlock w) r i := by
  have hle : g.perBlock * 8 ≤ g.blockSize := Nat.div_mul_le_self _ _
  have hm := Nat.mod_lt i hp
  split
  · rename_i hk
    refine leRun_congr fun j hj => ?_
    rw [h.read_eq hw (by omega), if_pos (by rw [hk])]
  · rename_i hk
    refine leRun_congr fun j hj => ?_
    rw [h.read_eq hw (by omega), if_neg (by omega)]

theorem Sane.perBlock_pos {w : World} (h : Sane g w) : 0 < g.perBlock := by
  have hs := h.ok.shift
  rw [h.geometry] at hs
  have : 2 ^ 10 ≤ 2 ^ g.blockShift := Nat.pow_le_pow_right (by norm_num) hs
  rw [Geometry.perBlock, Geometry.blockSize]
  omega

theorem appendIndirect_some {r run : Run} {l : List Run} {found : Bool} (count : ℕ) {k : ℕ}
    (hk : k + count = r.length) (hs : Sane g s.world)
    (hl : Filled runIsZero (cell g (readBlock s.world) r) (r.length * g.perBlock) l) (hfull : k * g.perBlock ≤ l.length)
    (h : Writer.appendIndirect run count (g.toBlock r + k) s = (some found, s')) :
    (found = false ∧ l.length = r.length * g.perBlock ∧ s'.store = s.store ∧ s'.stream = s.stream) ∨
    (found = true ∧ l.length < r.length * g.perBlock ∧
      s'.stream = put 8 s.stream DataField.kMaxIndirectRange
        (le 8 s.stream DataField.kMaxIndirectRange + run.length * g.blockSize) ∧
      Wrote s.world (g.toBlock r + l.length / g.perBlock)
        (Writer.putAfter (readBlock s.world (g.toBlock r + l.length / g.perBlock)) 0 (l.length % g.perBlock) run) s'.world ∧
      (∀ b ≠ g.toBlock r + l.length / g.perBlock, s'.world.jnl.peek b = s.world.jnl.peek b) ∧ s'.frees = s.frees) := by
  have hp := hs.perBlock_pos
  induction count generalizing k s with
  | zero =>
    cases h
    have hfits := hl.fits
    rw [← hk, Nat.add_zero] at hfits ⊢
    exact Or.inl ⟨rfl, by omega, rfl, rfl⟩
  | succ count ih =>
    unfold Writer.appendIndirect at h
    obtain ⟨u, s₁, h₁, h⟩ := bind_eq_some h
    obtain rfl := Writer.buffers_eq_some h₁
    rw [get_bind_run] at h
    have hpb : Writer.perBlock { s with node := readBlock s.world (g.toBlock r + k) } = g.perBlock := by
      show s.world.vol.blockSize / 8 = _
      rw [hs.geometry]; rfl
    have hused : (runsAt (readBlock s.world (g.toBlock r + k)) 0 g.perBlock).length =
        min g.perBlock (l.length - k * g.perBlock) := by
      rw [runsAt_block hl (by omega), List.length_take, List.length_drop]
    dsimp only at h
    rw [hpb, hused] at h
    split at h
    · rename_i hlt
      have hrest : l.length - k * g.perBlock < g.perBlock := by omega
      have hdiv : l.length / g.perBlock = k :=
        Nat.div_eq_of_lt_le hfull (by rw [Nat.succ_mul]; omega)
      have hmod : l.length % g.perBlock = l.length - k * g.perBlock := by
        have := Nat.div_add_mod l.length g.perBlock
        rw [hdiv, Nat.mul_comm] at this
        omega
      rw [Nat.min_eq_right hrest.le, ← hmod] at h
      obtain ⟨u₂, s₂, h₂, h⟩ := bind_eq_some h
      obtain rfl := Writer.buffers_eq_some h₂
      rw [get_bind_run] at h
      dsimp only at h
      obtain ⟨u₃, s₃, h₃, h⟩ := bind_eq_some h
      obtain ⟨hb, hw, hpeek, hf⟩ := Writer.writeBlock_some h₃ hs.ok
      obtain ⟨u₄, s₄, h₄, h⟩ := bind_eq_some h
      unfold Writer.addRange at h₄
      rw [get_bind_run] at h₄
      obtain rfl := Writer.buffers_eq_some h₄
      cases h
      have hbs : s₃.blockSize = g.blockSize := by
        show s₃.world.vol.blockSize = _
        rw [hw.vol]
        exact congrArg Geometry.blockSize hs.geometry
      refine Or.inr ⟨rfl, ?_, ?_, ?_, ?_, hf⟩
      · have : (k + 1) * g.perBlock ≤ r.length * g.perBlock := Nat.mul_le_mul_right _ (by omega)
        rw [Nat.succ_mul] at this
        omega
      · rw [hb]
        dsimp only
        rw [← hbs, hb]
      · rw [hdiv]; exact hw
      · rw [hdiv]; exact hpeek
    · have hnext : (k + 1) * g.perBlock ≤ l.length := by rw [Nat.succ_mul]; omega
      exact ih (s := { s with node := readBlock s.world (g.toBlock r + k) }) (by omega) hs hl hnext h

theorem leRun_slot {b : Buf} {x : Run} (hx : x.Fits) (i j : ℕ) :
    leRun (putRun b (0 + j * 8) x) (i * 8) = if i = j then x else leRun b (i * 8) := by
  rw [Nat.zero_add]
  split
  · rename_i he; rw [he, leRun_putRun hx]
  · exact leRun_putRun_of_disjoint (by omega)

theorem Held.addIndirect {run : Run} {v : ℕ} (h : Held g s p) (hg : g.Single)
    (hl : p.indirect.length < p.indirectArray.length * g.perBlock)
    (hfits : run.Fits) (hrun : runIsZero run = false)
    (hst : s'.stream = put 8 s.stream DataField.kMaxIndirectRange v)
    (hw : Wrote s.world (g.toBlock p.indirectArray + p.indirect.length / g.perBlock)
      (Writer.putAfter (readBlock s.world (g.toBlock p.indirectArray + p.indirect.length / g.perBlock)) 0
        (p.indirect.length % g.perBlock) run) s'.world)
    (hpeek : ∀ b ≠ g.toBlock p.indirectArray + p.indirect.length / g.perBlock,
      s'.world.jnl.peek b = s.world.jnl.peek b) (hf : s'.frees = s.frees) :
    Phase g s s' p { p with indirect := addRun g.perBlock p.indirect run } := by
  have hp := h.sane.perBlock_pos
  have hblock := block_of_slot (g := g) hl
  have hmem : g.toBlock p.indirectArray + p.indirect.length / g.perBlock ∈ p.arrayBlocks g :=
    List.mem_flatMap.mpr ⟨_, List.mem_cons_self, hblock⟩
  have hdm := Nat.div_add_mod p.indirect.length g.perBlock
  have hml := Nat.mod_lt p.indirect.length hp
  set k := p.indirect.length / g.perBlock
  set used := p.indirect.length % g.perBlock with hused
  set img := readBlock s.world (g.toBlock p.indirectArray + k)
  have hdz : runIsZero p.doubleArray = true := by
    by_contra hc
    have := (h.shows.indirectFull (by simpa using hc)).2
    omega
  obtain ⟨harr, -⟩ := h.shows.double_nil hdz
  have hlast : ∀ last, lastBefore g.perBlock p.indirect = some last → leRun img (0 + (used - 1) * 8) = last := by
    intro last hlast
    obtain ⟨hne, hpos, rfl⟩ := lastBefore_eq_some hlast
    rw [← h.shows.indirect.full (p.indirect.length - 1) (by omega), cell, Nat.zero_add]
    have hat : p.indirect.length - 1 = g.perBlock * k + (used - 1) := by omega
    rw [hat, Nat.mul_add_div hp, Nat.mul_add_mod, Nat.div_eq_of_lt (by omega), Nat.mod_eq_of_lt (by omega), Nat.add_zero]
  -- a slot is another one, unless it is in the block at the place that was put
  have hcell : ∀ (j : ℕ) (x : Run), x.Fits → Writer.putAfter img 0 used run = putRun img (0 + j * 8) x → j < g.perBlock →
      ∀ i, cell g (readBlock s'.world) p.indirectArray i =
        if i = g.perBlock * k + j then x else cell g (readBlock s.world) p.indirectArray i := by
    intro j x hx hput hj i
    rw [hw.cell_eq h.sane hp, hput, leRun_slot hx]
    have hdi := Nat.div_add_mod i g.perBlock
    have hmi := Nat.mod_lt i hp
    by_cases hik : i / g.perBlock = k
    · rw [hik] at hdi
      rw [if_pos hik]
      by_cases hij : i % g.perBlock = j
      · rw [if_pos hij, if_pos (by omega)]
      · rw [if_neg hij, if_neg (by omega), cell, hik]
    · rw [if_neg hik, if_neg]
      rintro rfl
      refine hik ?_
      rw [Nat.mul_add_div hp, Nat.div_eq_of_lt hj, Nat.add_zero]
  refine Phase.of_arrays ((hw.steps hg h.sane (h.marked _ hmem).1 hpeek hf).mono fun b _ he => he ▸ hmem)
    ⟨h.shows.direct.congr fun i hi => ?_, ?_, ?_, ?_, ?_, h.shows.begun, h.shows.directFull, fun hc => ?_⟩ rfl
  · simp only [hst, DataField.kMaxIndirectRange, DataField.kDirect, DataField.kDirectCount] at *
    rw [leRun_put_of_disjoint (by omega)]
  · rw [hst, leRun_put_of_disjoint (by decide)]
    exact h.shows.indirectArray
  · rcases putAfter_cases run hused hlast with ⟨last, hsome, -, hput, hadd⟩ | ⟨-, hput, hadd⟩
    · obtain ⟨hne, hpos, hat⟩ := lastBefore_eq_some hsome
      have hfits' : last.Fits := by rw [← hlast last hsome]; exact leRun_fits _ _
      have hslots := hcell _ _ (lengthened_fits hfits') hput (by omega)
      simp only [hadd]
      refine h.shows.indirect.setLast hpos (lengthened_solid (h.above last ?_)) ?_ fun i _ hi => ?_
      · rw [← hat]
        exact List.mem_append_left _ (List.mem_append_right _ (List.getElem_mem _))
      · rw [hslots, if_pos (by omega)]
      · rw [hslots, if_neg (by omega)]
    · have hslots := hcell _ _ hfits hput hml
      simp only [hadd]
      refine h.shows.indirect.push hl hrun ?_ fun i _ hi => ?_
      · rw [hslots, if_pos (by omega)]
      · rw [hslots, if_neg (by omega)]
  · rw [hst, leRun_put_of_disjoint (by decide)]
    exact h.shows.doubleArray
  · refine h.shows.double.congr (fun b hb => ?_) fun a ha => ?_
    · rw [runBlocks_of_zero hdz] at hb; cases hb
    · rw [harr] at ha; cases ha
  · rw [hdz] at hc; cases hc

end

end Aegir.Bfs
