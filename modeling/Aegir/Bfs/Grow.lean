/-
  `append_run` extends a stream by the run it is given, and `grow_to` by the runs that
  the allocator finds (`writer.cc`).
-/
import Aegir.Bfs.Double

namespace Aegir.Bfs

open Aegir.Lib Aegir.Lib.Buf Aegir.Lib.Fallible

/-! ## The blocks of a run that was lengthened -/

def runsLength (rs : List Run) : ℕ := (rs.map Run.length).sum

@[simp] theorem runsLength_nil : runsLength [] = 0 := rfl

@[simp] theorem runsLength_cons (r : Run) (rs : List Run) : runsLength (r :: rs) = r.length + runsLength rs := by
  simp [runsLength]

@[simp] theorem runsLength_append (rs rs' : List Run) : runsLength (rs ++ rs') = runsLength rs + runsLength rs' := by
  simp [runsLength]

theorem length_flatMap_runBlocks (g : Geometry) (rs : List Run) : (rs.flatMap g.runBlocks).length = runsLength rs := by
  induction rs with
  | nil => rfl
  | cons r rs ih => rw [List.flatMap_cons, List.length_append, ih, Geometry.length_runBlocks, runsLength_cons]

/-- The lengths of the run before the free slot and of the one that goes there fit sixteen
    bits, if they touch. -/
def Joins (k : ℕ) (l : List Run) (run : Run) : Prop :=
  ∀ last, lastBefore k l = some last → Writer.runsContiguous last run = true → last.length + run.length < 2 ^ 16

section
variable {g : Geometry} {k : ℕ} {l : List Run} {last run : Run}

theorem runsContiguous_iff : Writer.runsContiguous last run = true ↔
    last.allocationGroup = run.allocationGroup ∧ last.start + last.length = run.start := by
  simp only [Writer.runsContiguous, Bool.and_eq_true, beq_iff_eq]

theorem toBlock_of_contiguous (hrun : run.On g) (h : Writer.runsContiguous last run = true) :
    g.toBlock run = g.toBlock last + last.length := by
  obtain ⟨hgroup, hstart⟩ := runsContiguous_iff.mp h
  have := hrun.pos
  have := hrun.inside
  rw [hrun.toBlock, toBlock_eq g (by omega), hgroup, ← hstart, Nat.add_assoc]

theorem eq_of_lastBefore (h : lastBefore k l = some last) : l = l.dropLast ++ [last] := by
  obtain ⟨-, hl, rfl⟩ := lastBefore_eq_some h
  have hne : l ≠ [] := List.length_pos_iff.mp hl
  rw [← List.getLast_eq_getElem hne, List.dropLast_append_getLast]

theorem addRun_cases (k : ℕ) (l : List Run) (run : Run) :
    (∃ last, lastBefore k l = some last ∧ Writer.runsContiguous last run = true ∧
      addRun k l run = l.dropLast ++ [lengthened last run]) ∨
    ((∀ last, lastBefore k l = some last → Writer.runsContiguous last run = false) ∧ addRun k l run = l ++ [run]) := by
  unfold addRun
  rcases lastBefore k l with _ | last
  · exact Or.inr ⟨fun _ h => (by cases h), rfl⟩
  · cases hc : Writer.runsContiguous last run
    · exact Or.inr ⟨fun l' h => (by cases h; exact hc), by rw [Option.filter_some, hc]; rfl⟩
    · exact Or.inl ⟨last, rfl, hc, by rw [Option.filter_some, hc]; rfl⟩

theorem addRun_blocks (hrun : run.On g) (hj : Joins k l run) :
    (addRun k l run).flatMap g.runBlocks = l.flatMap g.runBlocks ++ g.runBlocks run := by
  rcases addRun_cases k l run with ⟨last, hlast, hc, hadd⟩ | ⟨-, hadd⟩
  · have hlen : (lengthened last run).length = last.length + run.length := Nat.mod_eq_of_lt (hj last hlast hc)
    have hto : g.toBlock (lengthened last run) = g.toBlock last := rfl
    rw [hadd]
    conv_rhs => rw [eq_of_lastBefore hlast]
    simp only [List.flatMap_append, List.flatMap_cons, List.flatMap_nil, List.append_nil, List.append_assoc]
    congr 1
    rw [Geometry.runBlocks, Geometry.runBlocks, Geometry.runBlocks, hlen, hto, toBlock_of_contiguous hrun hc,
      List.range'_append_1]
  · rw [hadd, List.flatMap_append, List.flatMap_cons, List.flatMap_nil, List.append_nil]

theorem runsLength_addRun_iff (h : ∀ last, lastBefore k l = some last → last.length < 2 ^ 16) :
    runsLength (addRun k l run) = runsLength l + run.length ↔ Joins k l run := by
  rcases addRun_cases k l run with ⟨last, hlast, hc, hadd⟩ | ⟨hno, hadd⟩
  · have hl : runsLength l = runsLength l.dropLast + last.length := by
      conv_lhs => rw [eq_of_lastBefore hlast]
      simp
    have hlt := h last hlast
    rw [hadd, hl]
    simp only [runsLength_append, runsLength_cons, runsLength_nil, Nat.add_zero, lengthened]
    constructor
    · intro he last' hlast' _
      rw [hlast] at hlast'
      cases hlast'
      omega
    · intro hj
      rw [Nat.mod_eq_of_lt (hj last hlast hc)]
      omega
  · rw [hadd]
    refine ⟨fun _ last hlast hc => ?_, fun _ => by simp⟩
    rw [hno last hlast] at hc
    cases hc

end

/-! ## Pieces as blocks -/

theorem blocks_piecesOf {g : Geometry} {unit : ℕ} {run : Run} (hs : run.start + run.length ≤ 2 ^ g.agShift)
    (hu : 0 < unit) (n : ℕ) (hn : n * unit ≤ run.length) :
    (piecesOf unit run n).flatMap g.runBlocks = (g.runBlocks run).take (n * unit) := by
  induction n with
  | zero => simp [piecesOf]
  | succ n ih =>
    rw [Nat.succ_mul] at hn ⊢
    have hto : g.toBlock (pieceOf unit run n) = g.toBlock run + n * unit := by
      rw [toBlock_eq g (show run.start < _ by omega), toBlock_eq g (by simp only [pieceOf]; omega)]
      simp only [pieceOf, Nat.add_assoc]
    have hpiece : g.runBlocks (pieceOf unit run n) = List.range' (g.toBlock run + n * unit) unit := by
      rw [Geometry.runBlocks, hto]; rfl
    rw [piecesOf, List.range_succ, List.map_append, List.flatMap_append]
    rw [show (List.range n).map (pieceOf unit run) = piecesOf unit run n from rfl, ih (by omega)]
    simp only [List.map_cons, List.map_nil, List.flatMap_cons, List.flatMap_nil, List.append_nil, hpiece]
    rw [Geometry.runBlocks, List.take_range'_of_length_ge (by omega), List.take_range'_of_length_ge (by omega),
      List.range'_append_1]

@[simp] theorem runsLength_piecesOf (unit : ℕ) (run : Run) (n : ℕ) : runsLength (piecesOf unit run n) = n * unit := by
  induction n with
  | zero => simp [piecesOf]
  | succ n ih =>
    have : piecesOf unit run (n + 1) = piecesOf unit run n ++ [pieceOf unit run n] := by
      rw [piecesOf, List.range_succ, List.map_append]; rfl
    rw [this, runsLength_append, ih, Nat.succ_mul]
    simp [pieceOf]

/-! ## `append_run` -/

/-- The run can be told in the length of the one it joins, if it joins one. -/
def Parts.Takes (g : Geometry) (p : Parts) (run : Run) : Prop :=
  if p.direct.length < DataField.kDirectCount then Joins DataField.kDirectCount p.direct run
  else Joins g.perBlock p.indirect run

/-- A level got its array, and its range starts where the level before ends. -/
inductive Opened (g : Geometry) (stream : Buf) (p : Parts) : Buf → Parts → Prop
  | none : Opened g stream p stream p
  | indirect {array : Run} (hd : p.direct.length = DataField.kDirectCount) (hz : runIsZero p.indirectArray = true)
      (hdz : runIsZero p.doubleArray = true) (hon : array.On g) :
      Opened g stream p (put 8 (putRun stream DataField.kIndirect array) DataField.kMaxIndirectRange
        (le 8 stream DataField.kMaxDirectRange)) { p with indirectArray := array }
  | double {array : Run} (hi : runIsZero p.indirectArray = false)
      (hfull : p.indirect.length = p.indirectArray.length * g.perBlock) (hz : runIsZero p.doubleArray = true)
      (hon : array.On g) : Opened g stream p (put 8 (putRun stream DataField.kDoubleIndirect array)
        DataField.kMaxDoubleIndirectRange (le 8 stream DataField.kMaxIndirectRange)) { p with doubleArray := array }

/-- The run was added to a level, and to its range; of a run among the pieces what is not
    a whole unit is left over. -/
inductive Added (g : Geometry) (stream : Buf) (p : Parts) (run : Run) : ℕ → Buf → Parts → Prop
  | direct (hl : p.direct.length < DataField.kDirectCount) : Added g stream p run 0
      (put 8 (Writer.putAfter stream DataField.kDirect p.direct.length run) DataField.kMaxDirectRange
        (le 8 stream DataField.kMaxDirectRange + run.length * g.blockSize))
      { p with direct := addRun DataField.kDirectCount p.direct run }
  | indirect (hd : p.direct.length = DataField.kDirectCount) (hz : runIsZero p.indirectArray = false)
      (hl : p.indirect.length < p.indirectArray.length * g.perBlock) :
      Added g stream p run 0 (put 8 stream DataField.kMaxIndirectRange
        (le 8 stream DataField.kMaxIndirectRange + run.length * g.blockSize))
      { p with indirect := addRun g.perBlock p.indirect run }
  | pieces {arrays : List Run} (hz : runIsZero p.doubleArray = false) :
      Added g stream p run (run.length % g.unit) (put 8 stream DataField.kMaxDoubleIndirectRange
        (le 8 stream DataField.kMaxDoubleIndirectRange + run.length / g.unit * g.unit * g.blockSize))
      { p with arrays := arrays, pieces := p.pieces ++ piecesOf g.unit run (run.length / g.unit) }
  | nothing (hz : runIsZero p.doubleArray = false) (hlt : run.length < g.unit) : Added g stream p run run.length stream p

section
variable {g : Geometry} {s s' : Writer Session} {p p₁ p' : Parts} {stream stream₁ stream' : Buf} {run : Run} {rest : ℕ}

theorem Opened.runs_eq (h : Opened g stream p stream₁ p₁) : p₁.runs = p.runs := by cases h <;> rfl

theorem Opened.takes_iff (h : Opened g stream p stream₁ p₁) : p₁.Takes g run ↔ p.Takes g run := by cases h <;> rfl

theorem le_lt_64 (b : Buf) (i : ℕ) : le 8 b i < 256 ^ 8 := le_lt 8 b i

theorem Opened.slotted (h : Opened g stream p stream₁ p₁) (hsh : p.pieces = [] ∨ runIsZero p.doubleArray = false)
    (hs : Slotted g stream p) : Slotted g stream₁ p₁ := by
  cases h with
  | none => exact hs
  | indirect hd hz hdz hon =>
    intro hc
    rw [show runIsZero p.doubleArray = true from hdz] at hc
    cases hc
  | double hi hfull hz hon =>
    intro _
    have hp : p.pieces = [] := by
      rcases hsh with hp | hp
      · exact hp
      · rw [hz] at hp; cases hp
    rw [le_put_of_lt (le_lt_64 _ _), le_put_of_disjoint (by decide), le_putRun_of_disjoint (by decide)]
    simp [hp]

theorem putAfter_eq (b : Buf) (first used : ℕ) (run : Run) :
    ∃ j ≤ used, ∃ x, Writer.putAfter b first used run = putRun b (first + j * 8) x := by
  unfold Writer.putAfter
  dsimp only
  split
  · exact ⟨used - 1, Nat.sub_le _ _, _, rfl⟩
  · exact ⟨used, Nat.le_refl _, _, rfl⟩

theorem Held.directs (h : Held g s p) : (runsAt s.stream DataField.kDirect DataField.kDirectCount).length = p.direct.length := by
  rw [runsAt_filled h.shows.direct]

theorem Held.appendIndirect {found : Bool} (h : Held g s p) (hg : g.Single)
    (hd : p.direct.length = DataField.kDirectCount) (hz : runIsZero p.indirectArray = false) (hrun : run.On g)
    (hr : Writer.appendIndirect run p.indirectArray.length (g.toBlock p.indirectArray) s = (some found, s')) :
    (found = true ∧ ∃ p', Added g s.stream p run 0 s'.stream p' ∧ Phase g s s' p p') ∨
      (found = false ∧ p.indirect.length = p.indirectArray.length * g.perBlock ∧ s'.store = s.store ∧
        s'.stream = s.stream) := by
  rcases appendIndirect_some p.indirectArray.length (k := 0) (by omega) h.sane h.shows.indirect (by omega) hr with
    ⟨hf, hfull, hst, hstr⟩ | ⟨hf, hl, hstr, hw, hpeek, hfr⟩
  · exact Or.inr ⟨hf, hfull, hst, hstr⟩
  · refine Or.inl ⟨hf, _, ?_, h.addIndirect hg hl hrun.fits hrun.solid hstr hw hpeek hfr⟩
    rw [hstr]
    exact .indirect hd hz hl

/-- The end of `append_run`: whole units go into the double indirect arrays. -/
def inUnits (unit : ℕ) (run : Run) : W ℕ :=
  if run.length / unit * unit = 0 then pure run.length else do
  Writer.appendDouble { run with length := run.length / unit * unit }
  pure (run.length - run.length / unit * unit)

theorem Held.appendUnits (h : Held g s p) (hg : g.Single) (hz : runIsZero p.doubleArray = false)
    (hslot : Slotted g s.stream p) (hrun : run.On g) (hr : inUnits g.unit run s = (some rest, s')) :
    ∃ p', Added g s.stream p run rest s'.stream p' ∧ Phase g s s' p p' := by
  have hu := g.unit_pos
  have hdm := Nat.div_add_mod' run.length g.unit
  unfold inUnits at hr
  split at hr
  · rename_i hno
    cases hr
    have hlt : run.length < g.unit := by
      rcases Nat.mul_eq_zero.mp hno with h0 | h0
      · exact (Nat.div_eq_zero_iff_lt hu).mp h0
      · omega
    exact ⟨p, .nothing hz hlt, .refl h.sane, h.shows⟩
  · obtain ⟨u, s₁, h₁, hr⟩ := bind_eq_some hr
    cases hr
    have hw : OfUnits g.unit { run with length := run.length / g.unit * g.unit } (run.length / g.unit) := by
      have hin := hrun.inside
      have hfits := hrun.fits
      have hspan : 2 ^ g.agShift ≤ 2 ^ 16 := Nat.pow_le_pow_right (by norm_num) hg.shift
      exact ⟨rfl, by have := hfits.length; dsimp only; omega, hfits.allocationGroup, fun _ => by dsimp only; omega⟩
    obtain ⟨⟨arrays, hph⟩, hstr⟩ := h.appendDouble hg hz hslot hw h₁
    refine ⟨_, ?_, hph⟩
    rw [hstr, show run.length - run.length / g.unit * g.unit = run.length % g.unit by omega]
    exact .pieces hz

/-- `append_run` once the double indirect blocks are wanted. -/
def pastIndirect (unit : ℕ) (run : Run) : W ℕ := do
  let s ← .get
  .when (runIsZero (leRun s.stream DataField.kDoubleIndirect)) do
    let array ← Writer.allocateUnit unit
    Writer.zeroArray array
    Writer.setStream fun b => put 8 (putRun b DataField.kDoubleIndirect array)
      DataField.kMaxDoubleIndirectRange (le 8 b DataField.kMaxIndirectRange)
  inUnits unit run

/-- `append_run` once the direct runs are full. -/
def pastDirect (unit first : ℕ) (indirect run : Run) : W ℕ := do
  if ← Writer.appendIndirect run indirect.length first then pure 0 else pastIndirect unit run

theorem NewArray.buffers {s'' : Writer Session} {array : Run} (h : NewArray g array s s') (he : s''.store = s'.store) :
    NewArray g array s s'' := by
  have hw : s''.world = s'.world := by unfold Writer.world; rw [he]
  exact ⟨h.on, fun w => (h.steps w).buffers he, h.free, hw ▸ h.marked, h.above, hw ▸ h.zero, hw ▸ h.read⟩

/-- What a part of `append_run` did. -/
def Grew (g : Geometry) (s s' : Writer Session) (p : Parts) (run : Run) (rest : ℕ) : Prop :=
  ∃ stream₁ p₁ p' rd, Opened g s.stream p stream₁ p₁ ∧ Shows g rd stream₁ p₁ ∧
    Added g stream₁ p₁ run rest s'.stream p' ∧ Phase g s s' p p'

theorem Held.of_store {s₀ : Writer Session} (h : Held g s p) (he : s₀.store = s.store) (hs : s₀.stream = s.stream) :
    Held g s₀ p := by
  have hw : s₀.world = s.world := by unfold Writer.world; rw [he]
  exact ⟨h.toArrays.of_store he, by rw [hw, hs]; exact h.shows, h.above⟩

theorem Grew.of_start {s₀ : Writer Session} (h : Grew g s s' p run rest) (he : s₀.store = s.store)
    (hs : s₀.stream = s.stream) : Grew g s₀ s' p run rest := by
  obtain ⟨stream₁, p₁, p', rd, ho, hsh, ha, hp⟩ := h
  exact ⟨stream₁, p₁, p', rd, hs ▸ ho, hsh, ha, hp.toExtends.of_start he, hp.shows⟩

theorem Held.pastIndirect (h : Held g s p) (hg : g.Single) (hslot : Slotted g s.stream p)
    (hi : runIsZero p.indirectArray = false) (hfull : p.indirect.length = p.indirectArray.length * g.perBlock)
    (hrun : run.On g) (hr : pastIndirect g.unit run s = (some rest, s')) : Grew g s s' p run rest := by
  unfold Bfs.pastIndirect at hr
  rw [get_bind_run] at hr
  obtain ⟨u₁, s₁, h₁, hr'⟩ := bind_eq_some hr
  rw [h.shows.doubleArray] at h₁
  rcases when_eq_some h₁ with ⟨hz, h₁⟩ | ⟨hz, rfl⟩
  · obtain ⟨array, s₂, h₂, h₁⟩ := bind_eq_some h₁
    obtain ⟨u₃, s₃, h₃, h₁⟩ := bind_eq_some h₁
    obtain rfl := Writer.buffers_eq_some h₁
    obtain ⟨hb₂, hgr, -, hf⟩ := allocateUnit_some h₂ hg h.sane
    obtain ⟨hb₃, hnew⟩ := newArray_some h₃ hg h.sane hgr hf
    have hstr : s₃.stream = s.stream := by rw [hb₃, hb₂]
    have hop : Opened g s.stream p _ { p with doubleArray := array } := .double hi hfull hz hnew.on
    have hnew' : NewArray g array s { s₃ with
      stream := put 8 (putRun s₃.stream DataField.kDoubleIndirect array) DataField.kMaxDoubleIndirectRange
        (le 8 s₃.stream DataField.kMaxIndirectRange) } := hnew.buffers rfl
    have hph := h.newDouble hz hi hfull hnew' (by rw [hstr])
    have hheld := hph.held h h.above
    obtain ⟨p', hadd, hph'⟩ := hheld.appendUnits hg hnew.on.solid
      (by rw [hstr]; exact hop.slotted (Or.inl (h.shows.double_nil hz).2) hslot) hrun hr'
    exact ⟨_, _, p', _, hop, by rw [← hstr]; exact hph.shows, by rw [← hstr]; exact hadd, hph.trans hph'⟩
  · obtain ⟨p', hadd, hph'⟩ := h.appendUnits hg (by simpa using hz) hslot hrun hr'
    exact ⟨_, _, p', _, .none, h.shows, hadd, hph'⟩

theorem Held.pastDirect (h : Held g s p) (hg : g.Single) (hslot : Slotted g s.stream p)
    (hd : p.direct.length = DataField.kDirectCount) (hz : runIsZero p.indirectArray = false) (hrun : run.On g)
    (hr : pastDirect g.unit (g.toBlock p.indirectArray) p.indirectArray run s = (some rest, s')) :
    (∃ p', Added g s.stream p run rest s'.stream p' ∧ Phase g s s' p p') ∨
      0 < p.indirect.length ∧ Grew g s s' p run rest := by
  unfold Bfs.pastDirect at hr
  obtain ⟨found, s₁, h₁, hr⟩ := bind_eq_some hr
  rcases h.appendIndirect hg hd hz hrun h₁ with ⟨rfl, p', hadd, hph⟩ | ⟨rfl, hfull, hst, hstr⟩
  · cases hr
    exact Or.inl ⟨p', hadd, hph⟩
  · have hpos : 0 < p.indirect.length := by
      rw [hfull]
      exact Nat.mul_pos (h.on _ List.mem_cons_self hz).pos h.sane.perBlock_pos
    refine Or.inr ⟨hpos, ?_⟩
    exact ((h.of_store hst hstr).pastIndirect hg (hstr ▸ hslot) hz hfull hrun hr).of_start hst.symm hstr.symm

theorem Held.appendRun (h : Held g s p) (hg : g.Single) (hslot : Slotted g s.stream p) (hrun : run.On g)
    (hr : Writer.appendRun run s = (some rest, s')) : Grew g s s' p run rest := by
  have hto : ∀ r, s.toBlock r = g.toBlock r := by
    intro r
    show s.world.vol.toBlock r = _
    rw [h.sane.geometry]
  have hbs : s.blockSize = g.blockSize := by
    show s.world.vol.blockSize = _
    rw [h.sane.geometry]
  have hunit : s.doubleIndirectBlocks = g.unit := by rw [Writer.doubleIndirectBlocks, hbs]; rfl
  unfold Writer.appendRun at hr
  rw [get_bind_run] at hr
  dsimp only at hr
  rw [h.directs, hunit] at hr
  split at hr
  · -- a direct run
    rename_i hl
    obtain ⟨u₁, s₁, h₁, hr⟩ := bind_eq_some hr
    obtain rfl := Writer.buffers_eq_some h₁
    obtain ⟨u₂, s₂, h₂, hr⟩ := bind_eq_some hr
    unfold Writer.addRange at h₂
    rw [get_bind_run] at h₂
    obtain rfl := Writer.buffers_eq_some h₂
    cases hr
    have hle : le 8 (Writer.putAfter s.stream DataField.kDirect p.direct.length run) DataField.kMaxDirectRange =
        le 8 s.stream DataField.kMaxDirectRange := by
      obtain ⟨j, hj, x, hput⟩ := putAfter_eq s.stream DataField.kDirect p.direct.length run
      rw [hput]
      simp only [DataField.kMaxDirectRange, DataField.kDirect, DataField.kDirectCount] at hl ⊢
      exact le_putRun_of_disjoint (by omega)
    refine ⟨s.stream, p, { p with direct := addRun DataField.kDirectCount p.direct run }, _, .none, h.shows, ?_, ?_⟩
    · have hadd : Added g s.stream p run 0 _ _ := .direct hl
      rw [← hle, ← hbs] at hadd
      exact hadd
    · refine Phase.of_arrays (.of_store h.sane rfl) ?_ rfl
      exact h.shows.addDirect hl (fun r hr => h.above r (by simp [Parts.runs, hr])) hrun.fits hrun.solid
  · rename_i hfull
    have hd : p.direct.length = DataField.kDirectCount := Nat.le_antisymm h.shows.direct.fits (by omega)
    rw [h.shows.indirectArray] at hr
    split at hr
    · -- the indirect array is new
      rename_i hz
      have hdz : runIsZero p.doubleArray = true := by
        by_contra hc
        rw [(h.shows.indirectFull (by simpa using hc)).1] at hz
        cases hz
      obtain ⟨array, s₁, h₁, hr⟩ := bind_eq_some hr
      obtain ⟨-, hr⟩ := check_bind_eq_some hr
      obtain ⟨u₂, s₂, h₂, hr⟩ := bind_eq_some hr
      obtain ⟨u₃, s₃, h₃, hr⟩ := bind_eq_some hr
      obtain rfl := Writer.buffers_eq_some h₃
      obtain ⟨hb₁, hgr, hf⟩ := Writer.allocate_some h₁ hg h.sane (by decide)
      obtain ⟨hb₂, hnew⟩ := newArray_some h₂ hg h.sane hgr hf
      have hstr : s₂.stream = s.stream := by rw [hb₂, hb₁]
      have hop : Opened g s.stream p _ { p with indirectArray := array } := .indirect hd hz hdz hnew.on
      have hnew' : NewArray g array s { s₂ with
        stream := put 8 (putRun s₂.stream DataField.kIndirect array) DataField.kMaxIndirectRange
          (le 8 s₂.stream DataField.kMaxDirectRange) } := hnew.buffers rfl
      have hph := h.newIndirect hz hd hnew' (by rw [hstr])
      rw [pure_bind_run, hto] at hr
      rcases (hph.held h h.above).pastDirect hg (by rw [hstr]; exact hop.slotted (Or.inl (h.shows.double_nil hdz).2) hslot)
        hd hnew.on.solid hrun hr with ⟨p', hadd, hph'⟩ | ⟨hpos, -⟩
      · exact ⟨_, _, p', _, hop, by rw [← hstr]; exact hph.shows, by rw [← hstr]; exact hadd, hph.trans hph'⟩
      · rw [show ({ p with indirectArray := array } : Parts).indirect = p.indirect from rfl, h.shows.indirect_nil hz] at hpos
        cases hpos
    · rename_i hz
      rw [pure_bind_run, hto] at hr
      rcases h.pastDirect hg hslot hd (by simpa using hz) hrun hr with ⟨p', hadd, hph'⟩ | ⟨-, hgrew⟩
      · exact ⟨_, _, p', _, .none, h.shows, hadd, hph'⟩
      · exact hgrew

/-! ## The blocks of a stream -/

def streamList (w : World) (stream : Buf) : List ℕ := (streamRuns w stream).flatMap w.vol.toGeometry.runBlocks

theorem Held.streamList_eq (h : Held g s p) : streamList s.world s.stream = p.blocks g := by
  rw [streamList, h.shows.streamRuns_eq h.sane.geometry, h.sane.geometry, Parts.blocks]

theorem Phase.streamList_eq (h : Phase g s s' p p') : streamList s'.world s'.stream = p'.blocks g := by
  rw [streamList, h.shows.streamRuns_eq h.steps.sane.geometry, h.steps.sane.geometry, Parts.blocks]

theorem Shows.indirect_of_direct {rd : ℕ → Buf} (h : Shows g rd stream p) (hl : p.direct.length < DataField.kDirectCount) :
    p.indirect = [] ∧ p.pieces = [] := by
  have hz : runIsZero p.indirectArray = true := by
    by_contra hc
    have := h.directFull (by simpa using hc)
    omega
  have hdz : runIsZero p.doubleArray = true := by
    by_contra hc
    rw [(h.indirectFull (by simpa using hc)).1] at hz
    cases hz
  exact ⟨h.indirect_nil hz, (h.double_nil hdz).2⟩

theorem Shows.double_of_indirect {rd : ℕ → Buf} (h : Shows g rd stream p)
    (hl : p.indirect.length < p.indirectArray.length * g.perBlock) : p.arrays = [] ∧ p.pieces = [] := by
  refine h.double_nil ?_
  by_contra hc
  have := (h.indirectFull (by simpa using hc)).2
  omega

theorem joins_of_full {k : ℕ} {l : List Run} (hl : l.length % k = 0) : Joins k l run := by
  intro last hlast
  exact absurd hl (lastBefore_eq_some hlast).1

theorem Added.blocks {rd : ℕ → Buf} (ha : Added g stream p run rest stream' p') (h : Shows g rd stream p)
    (hrun : run.On g) (ht : p.Takes g run) :
    p'.blocks g = p.blocks g ++ (g.runBlocks run).take (run.length - rest) := by
  have htake : (g.runBlocks run).take (run.length - 0) = g.runBlocks run :=
    List.take_of_length_le (by rw [Geometry.length_runBlocks]; exact Nat.le_refl _)
  cases ha with
  | direct hl =>
    rw [Parts.Takes, if_pos hl] at ht
    obtain ⟨hi, hp⟩ := h.indirect_of_direct hl
    rw [htake]
    simp only [Parts.blocks, Parts.runs, hi, hp, List.append_nil]
    exact addRun_blocks hrun ht
  | indirect hd hz hl =>
    rw [Parts.Takes, if_neg (by omega)] at ht
    obtain ⟨-, hp⟩ := h.double_of_indirect hl
    rw [htake]
    simp only [Parts.blocks, Parts.runs, hp, List.append_nil, List.flatMap_append, List.append_assoc]
    rw [addRun_blocks hrun ht]
  | @pieces arrays hz =>
    have hdm := Nat.div_add_mod' run.length g.unit
    have hsub : run.length - run.length % g.unit = run.length / g.unit * g.unit := by omega
    simp only [Parts.blocks, Parts.runs, List.flatMap_append, List.append_assoc, hsub]
    rw [blocks_piecesOf hrun.inside g.unit_pos _ (by omega)]
  | nothing hz hlt => rw [Nat.sub_self, List.take_zero, List.append_nil]

theorem Shows.takes_of_double {rd : ℕ → Buf} (h : Shows g rd stream p) (hz : runIsZero p.doubleArray = false) :
    p.Takes g run := by
  obtain ⟨hi, hfull⟩ := h.indirectFull hz
  rw [Parts.Takes, if_neg (by rw [h.directFull hi]; exact Nat.lt_irrefl _)]
  exact joins_of_full (by rw [hfull, Nat.mul_mod_left])

theorem fits_of_filled {slot : ℕ → Run} {n : ℕ} {l : List Run} (h : Filled runIsZero slot n l)
    (hs : ∀ i, ∃ b j, slot i = leRun b j) {r : Run} (hr : r ∈ l) : r.Fits := by
  obtain ⟨i, hi, rfl⟩ := List.mem_iff_getElem.mp hr
  obtain ⟨b, j, he⟩ := hs i
  rw [← h.full i hi, he]
  exact leRun_fits b j

theorem Added.takes_of_blocks {rd : ℕ → Buf} (ha : Added g stream p run rest stream' p') (h : Shows g rd stream p)
    (he : p'.blocks g = p.blocks g ++ (g.runBlocks run).take (run.length - rest)) : p.Takes g run := by
  have hlen := congrArg List.length he
  simp only [Parts.blocks, length_flatMap_runBlocks, List.length_append, List.length_take, Geometry.length_runBlocks,
    Parts.runs, runsLength_append] at hlen
  have hlast : ∀ k l, (∀ r ∈ l, r.Fits) → ∀ last, lastBefore k l = some last → last.length < 2 ^ 16 := by
    intro k l hl last hlast
    obtain ⟨-, hpos, rfl⟩ := lastBefore_eq_some hlast
    exact (hl _ (List.getElem_mem _)).length
  cases ha with
  | direct hl =>
    rw [Parts.Takes, if_pos hl]
    obtain ⟨hi, hp⟩ := h.indirect_of_direct hl
    simp only [hi, hp, runsLength_nil] at hlen
    exact (runsLength_addRun_iff (hlast _ _ fun r hr => fits_of_filled h.direct (fun i => ⟨_, _, rfl⟩) hr)).mp (by omega)
  | indirect hd hz hl =>
    rw [Parts.Takes, if_neg (by omega)]
    simp only at hlen
    exact (runsLength_addRun_iff (hlast _ _ fun r hr => fits_of_filled h.indirect (fun i => ⟨_, _, rfl⟩) hr)).mp (by omega)
  | pieces hz => exact h.takes_of_double hz
  | nothing hz hlt => exact h.takes_of_double hz

end

/-! ## A whole group -/

def oneRun (g : Geometry) (r : Run) : Buf :=
  put 8 (putRun zero DataField.kDirect r) DataField.kMaxDirectRange (r.length * g.blockSize)

def Parts.one (r : Run) : Parts := ⟨[r], ⟨0, 0, 0⟩, [], ⟨0, 0, 0⟩, [], []⟩

theorem Held.one {g : Geometry} {s : Writer Session} {r : Run} (hs : Sane g s.world) (hr : r.Fits)
    (hz : runIsZero r = false) (ha : 0 < g.toBlock r) (hst : s.stream = oneRun g r) : Held g s (.one r) := by
  have hslot : ∀ i, i ≠ 0 → i < DataField.kDirectCount → leRun s.stream (DataField.kDirect + i * 8) = ⟨0, 0, 0⟩ := by
    intro i h₁ h₂
    simp only [hst, oneRun, DataField.kDirect, DataField.kMaxDirectRange, DataField.kDirectCount] at *
    rw [leRun_put_of_disjoint (by omega), leRun_putRun_of_disjoint (by omega), leRun_zero]
  have hfield : ∀ i, i = DataField.kIndirect ∨ i = DataField.kDoubleIndirect → leRun s.stream i = ⟨0, 0, 0⟩ := by
    rintro i (rfl | rfl) <;>
      rw [hst, oneRun, leRun_put_of_disjoint (by decide), leRun_putRun_of_disjoint (by decide), leRun_zero]
  have hzero : runIsZero ⟨0, 0, 0⟩ = true := rfl
  have hblocks : (Parts.one r).arrayRuns.flatMap g.runBlocks = [] := rfl
  have hdouble : ShowsDouble g (readBlock s.world) ⟨0, 0, 0⟩ [] [] :=
    ⟨.nil_of_empty fun i hi => absurd hi (by simp), fun a ha => absurd ha List.not_mem_nil,
      fun k hk => absurd hk (Nat.not_lt_zero k), Nat.zero_le _, fun a ha => absurd ha List.not_mem_nil⟩
  refine ⟨⟨hs, fun a ha hz => ?_, ?_, fun b hb => ?_⟩, ⟨⟨by simp [Parts.one, DataField.kDirectCount], fun i hi => ?_, ?_, fun i h₁ h₂ => ?_⟩,
    hfield _ (Or.inl rfl), .nil_of_empty fun i hi => absurd hi (by simp [Parts.one]), hfield _ (Or.inr rfl), hdouble,
    fun k hk => absurd hk (Nat.not_lt_zero k), fun hc => ?_, fun hc => ?_⟩, fun a hm => ?_⟩
  · simp only [Parts.one, Parts.arrayRuns, List.mem_cons, List.not_mem_nil, or_false, or_self] at ha
    rw [ha, hzero] at hz
    cases hz
  · rw [hblocks]; exact List.nodup_nil
  · rw [hblocks] at hb; cases hb
  · obtain rfl : i = 0 := by simpa [Parts.one] using hi
    rw [hst, oneRun, leRun_put_of_disjoint (by decide), Nat.zero_mul, Nat.add_zero, leRun_putRun hr]
    rfl
  · intro a hm
    rw [List.mem_singleton.mp hm]; exact hz
  · rw [hslot i (by simp only [Parts.one, List.length_singleton] at h₁; omega) h₂]; rfl
  · cases hc
  · cases hc
  · rw [show a = r by simpa [Parts.one, Parts.runs] using hm]; exact ha

def groupsVolume : Volume := { sampleVolume with toGeometry := ⟨13, 16, 2, 1, 131072, ⟨0, 4, 512⟩⟩ }

def groupsWorld : World := .booted (.on (blit zero 8192 (fun _ => 255) 16384) fun _ => false) groupsVolume

def groupsWriter (r : Run) : Writer Session := { Writer.idle groupsWorld with stream := oneRun groupsVolume.toGeometry r }

theorem groupsVolume_single : groupsVolume.toGeometry.Single :=
  ⟨rfl, rfl, by decide, by decide, by decide, by decide⟩

theorem groupsWorld_sane : Sane groupsVolume.toGeometry groupsWorld := by
  refine ⟨⟨rfl, by decide, fun _ => rfl⟩, rfl, fun b hb => ?_⟩
  obtain rfl | rfl | rfl : b = 0 ∨ b = 1 ∨ b = 2 := by
    have : b ≤ 2 := hb
    omega
  all_goals decide

theorem groupsWriter_held {r : Run} (hr : r.Fits) (hz : runIsZero r = false)
    (ha : 0 < groupsVolume.toGeometry.toBlock r) : Held groupsVolume.toGeometry (groupsWriter r) (.one r) :=
  .one groupsWorld_sane hr hz ha rfl

end Aegir.Bfs
