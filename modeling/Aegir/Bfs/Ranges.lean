/-
  What `grow_to` and `trim_stream` make of a stream, and the fields that say how many
  bytes its levels cover (`bfs.md`, "Data streams").
-/
import Aegir.Bfs.Trim

namespace Aegir.Bfs

open Aegir.Lib Aegir.Lib.Buf Aegir.Lib.Fallible

/-! ## A stream with its blocks -/

/-- The blocks of a stream and of its arrays are in use, each once. -/
structure Live (g : Geometry) (s : Writer Session) (p : Parts) : Prop extends Held g s p where
  data : ∀ r ∈ p.runs, r.On g
  distinct : (p.blocks g ++ p.arrayBlocks g).Nodup
  inUse : ∀ b ∈ p.blocks g, g.numAgs < b ∧ s.world.inUse b = true

/-- The fields of a stream count the bytes up to the end of each level that is there. -/
structure Ranged (g : Geometry) (stream : Buf) (p : Parts) : Prop where
  direct : le 8 stream DataField.kMaxDirectRange = runsLength p.direct * g.blockSize
  indirect : runIsZero p.indirectArray = false →
    le 8 stream DataField.kMaxIndirectRange = runsLength (p.direct ++ p.indirect) * g.blockSize
  double : runIsZero p.doubleArray = false →
    le 8 stream DataField.kMaxDoubleIndirectRange = runsLength p.runs * g.blockSize

section
variable {g : Geometry} {s s' : Writer Session} {p p' : Parts} {stream : Buf} {n : ℕ} {l : List Run}

theorem runsLength_of_sizes {u : ℕ} (h : ∀ r ∈ l, r.length = u) : runsLength l = l.length * u := by
  induction l with
  | nil => simp
  | cons r l ih =>
    rw [runsLength_cons, h r List.mem_cons_self, ih fun a ha => h a (List.mem_cons_of_mem _ ha), List.length_cons,
      Nat.succ_mul, Nat.add_comm]

theorem Ranged.slotted {rd : ℕ → Buf} (h : Ranged g stream p) (hs : Shows g rd stream p) : Slotted g stream p := by
  intro hz
  rw [h.double hz, h.indirect (hs.indirectFull hz).1, Parts.runs, runsLength_append (p.direct ++ p.indirect),
    runsLength_of_sizes hs.double.sizes, Nat.add_mul, Nat.mul_assoc]

theorem Live.blocks_lt (h : Live g s p) {b : ℕ} (hb : b ∈ p.blocks g) : b < g.numBlocks := by
  obtain ⟨r, hr, hb⟩ := List.mem_flatMap.mp hb
  exact (h.data r hr).lt hb

theorem Live.length_le (h : Live g s p) : runsLength p.runs ≤ g.numBlocks := by
  have hnd : (p.blocks g).Nodup := (List.nodup_append.mp h.distinct).1
  have hlen := List.Subperm.length_le (List.subperm_of_subset hnd
    (fun b hb => List.mem_range.mpr (h.blocks_lt hb) : p.blocks g ⊆ List.range g.numBlocks))
  rwa [List.length_range, Parts.blocks, length_flatMap_runBlocks] at hlen

theorem Live.bytes_lt (h : Live g s p) (hg : g.Single) : runsLength p.runs * g.blockSize < 2 ^ 64 := by
  have hlen := h.length_le
  have hspan : 2 ^ g.agShift ≤ 2 ^ 16 := Nat.pow_le_pow_right (by norm_num) hg.shift
  have hbits := hg.bits
  rw [Geometry.bitsPerBlock] at hbits
  have hgroups := hg.groups
  have hvol := hg.span
  calc runsLength p.runs * g.blockSize ≤ g.numAgs * 2 ^ g.agShift * g.blockSize :=
        Nat.mul_le_mul_right _ (hlen.trans hvol)
    _ ≤ 2 ^ 32 * 2 ^ 16 * 2 ^ 13 := Nat.mul_le_mul (Nat.mul_le_mul hgroups.le hspan) (by omega)
    _ < 2 ^ 64 := by decide

theorem Live.above_of_run (h : Live g s p) {r : Run} (hr : r ∈ p.runs) : ∀ b ∈ g.runBlocks r, g.numAgs < b :=
  fun _ hb => (h.inUse _ (List.mem_flatMap.mpr ⟨r, hr, hb⟩)).1

theorem Live.above_of_array (h : Live g s p) {r : Run} (hr : r ∈ p.arrayRuns) : ∀ b ∈ g.runBlocks r, g.numAgs < b :=
  fun _ hb => (h.marked _ (List.mem_flatMap.mpr ⟨r, hr, hb⟩)).1

theorem arrayFrees_perm (g : Geometry) {R : ℕ} {pieces arrays : List Run} (h : pieces.length ≤ arrays.length * R) :
    ((arrayFrees R pieces arrays).flatMap g.runBlocks).Perm
      (pieces.flatMap g.runBlocks ++ arrays.flatMap g.runBlocks) := by
  induction arrays generalizing pieces with
  | nil =>
    rw [List.length_nil, Nat.zero_mul] at h
    obtain rfl : pieces = [] := List.eq_nil_of_length_eq_zero (Nat.le_zero.mp h)
    exact .refl _
  | cons a arrays ih =>
    have hle : (pieces.drop R).length ≤ arrays.length * R := by
      rw [List.length_drop]
      rw [List.length_cons, Nat.succ_mul] at h
      omega
    have hrest := ih hle
    simp only [arrayFrees, List.flatMap_append, List.flatMap_cons]
    conv_rhs => rw [← List.take_append_drop R pieces, List.flatMap_append, List.append_assoc]
    refine .append_left _ ((hrest.append_left _).trans ?_)
    rw [← List.append_assoc, ← List.append_assoc]
    exact List.perm_append_comm.append_right _

end

/-! ## `trim_stream` -/

def OnlyStream (s s' : Writer Session) : Prop :=
  s' = { s with stream := s'.stream, node := s'.node, work := s'.work, store := s'.store }

def keptArray (array : Run) (kept : List Run) : Run := if kept = [] then ⟨0, 0, 0⟩ else array

def goneArray (array : Run) (kept : List Run) : List Run := if kept = [] ∧ runIsZero array = false then [array] else []

section
variable {g : Geometry} {s s' s'' : Writer Session} {p p' : Parts} {n logical logical' : ℕ} {l : List Run} {r : Run}

theorem Scratched.onlyStream (h : Scratched s s') : OnlyStream s s' := by
  unfold OnlyStream
  rw [h]

theorem OnlyStream.trans (h : OnlyStream s s') (h' : OnlyStream s' s'') : OnlyStream s s'' := by
  unfold OnlyStream at *
  rw [h', h]

theorem OnlyStream.of_stream (h : OnlyBuffer Writer.stream (fun b s => { s with stream := b }) s s') : OnlyStream s s' := by
  unfold OnlyStream
  rw [h]

theorem OnlyStream.setStream (s : Writer Session) (st : Buf) : OnlyStream s { s with stream := st } := rfl

theorem eq_zero_of_runIsZero (h : runIsZero r = true) : r = ⟨0, 0, 0⟩ := by
  rcases r with ⟨group, start, length⟩
  simp only [runIsZero, Bool.and_eq_true, beq_iff_eq] at h
  obtain ⟨⟨rfl, rfl⟩, rfl⟩ := h
  rfl

theorem runsLength_eq_zero_iff (h : ∀ r ∈ l, r.On g) : runsLength l = 0 ↔ l = [] := by
  cases l with
  | nil => simp
  | cons r l =>
    have := (h r List.mem_cons_self).pos
    rw [runsLength_cons]
    simp only [reduceCtorEq, iff_false]
    omega

theorem cutIndirect_some {ia : Run} {D : ℕ} (hg : g.Single)
    (h : Writer.trimIndirects n (min n D) s = (some logical', s')) (hs : Sane g s.world)
    (hia : leRun s.stream DataField.kIndirect = ia) (hion : runIsZero ia = false → ia.On g)
    (hiab : ∀ b ∈ g.runBlocks ia, g.numAgs < b)
    (hl : Filled runIsZero (cell g (readBlock s.world) ia) (ia.length * g.perBlock) l) (hon : ∀ r ∈ l, r.On g)
    (ha : ∀ r ∈ l, ∀ b ∈ g.runBlocks r, g.numAgs < b)
    (hd : le 8 s.stream DataField.kMaxDirectRange = D * g.blockSize) :
    OnlyStream s s' ∧ logical' = min n D + min (n - D) (runsLength l) ∧
      Cuts g (· ∈ g.runBlocks ia) (dropRuns (n - D) l ++ goneArray ia (keepRuns (n - D) l)) s s' ∧
      (∀ i, i < DataField.kIndirect ∨ DataField.kDoubleIndirect ≤ i → s'.stream i = s.stream i) ∧
      leRun s'.stream DataField.kIndirect = keptArray ia (keepRuns (n - D) l) ∧
      (keepRuns (n - D) l ≠ [] → le 8 s'.stream DataField.kMaxIndirectRange = le 8 s.stream DataField.kMaxIndirectRange) ∧
      (keepRuns (n - D) l ≠ [] → runIsZero ia = false ∧
        Filled runIsZero (cell g (readBlock s'.world) ia) (ia.length * g.perBlock) (keepRuns (n - D) l)) := by
  have hrem : n - min n D = n - D := by omega
  have hbs : 0 < g.blockSize := Nat.two_pow_pos _
  cases hz : runIsZero ia
  · obtain ⟨t, hscr, hlog, hcase⟩ := trimIndirects_some hg h hs hia hz (hion hz) hiab hl hon ha
    rw [hrem] at hlog hcase
    rw [hd, Nat.mul_div_cancel _ hbs] at hcase
    have hlog' : logical' = min n D + min (n - D) (runsLength l) := by rw [hlog, runsLength_keepRuns]
    have hnil : logical' ≤ D ↔ keepRuns (n - D) l = [] := by
      rw [← runsLength_eq_zero_iff (keepRuns_on hon), runsLength_keepRuns, hlog']
      omega
    rcases hcase with ⟨hle, hs', hcuts⟩ | ⟨hlt, hs', hcuts, hfill⟩
    · have hk := hnil.mp hle
      rw [hs', goneArray, keptArray, if_pos ⟨hk, hz⟩, if_pos hk]
      refine ⟨hscr.onlyStream.trans (.setStream t _), hlog', hcuts.buffers rfl, fun i hi => ?_, ?_,
        fun hc => absurd hk hc, fun hc => absurd hk hc⟩
      · simp only [DataField.kIndirect, DataField.kDoubleIndirect, DataField.kMaxIndirectRange] at hi ⊢
        rw [put_of_notMem (by omega), putRun_of_notMem (by omega)]
      · dsimp only
        rw [leRun_put_of_disjoint (by decide), leRun_putRun ⟨by decide, by decide, by decide⟩]
    · have hk : keepRuns (n - D) l ≠ [] := fun hc => by have := hnil.mpr hc; omega
      rw [hs', goneArray, keptArray, if_neg (fun hc => hk hc.1), if_neg hk, List.append_nil]
      refine ⟨hscr.onlyStream, hlog', hcuts, fun i _ => by rw [hscr.stream], by rw [hscr.stream]; exact hia,
        fun _ => by rw [hscr.stream], fun _ => ⟨rfl, hfill⟩⟩
  · have hnil : l = [] := by
      have := hl.fits
      rw [length_of_zero hz, Nat.zero_mul] at this
      exact List.eq_nil_of_length_eq_zero (by omega)
    subst hnil
    unfold Writer.trimIndirects at h
    rw [get_bind_run, hia, if_pos hz] at h
    cases h
    refine ⟨(Scratched.refl _).onlyStream, by simp, ?_, fun _ _ => rfl, ?_, fun hc => absurd rfl hc, fun hc => absurd rfl hc⟩
    · have : goneArray ia (keepRuns (n - D) []) = [] := by rw [goneArray, if_neg (by simp [hz])]
      rw [this, dropRuns, List.append_nil]
      exact .of_store hs rfl
    · rw [hia, keptArray, if_pos (show keepRuns (n - D) [] = [] from rfl)]
      exact eq_zero_of_runIsZero hz

/-- What is freed of the double indirect runs when a stream is cut. -/
def goneDouble (g : Geometry) (p : Parts) : List Run :=
  if runIsZero p.doubleArray then [] else arrayFrees (g.unit * g.perBlock) p.pieces p.arrays ++ [p.doubleArray]

theorem free_some_cuts {u : Unit} (hg : g.Single) (h : Writer.free r s = (some u, s')) (hs : Sane g s.world) (hr : r.On g)
    (ha : ∀ b ∈ g.runBlocks r, g.numAgs < b) (written : ℕ → Prop) : Scratched s s' ∧ Cuts g written [r] s s' := by
  obtain ⟨hb, hrel, hf⟩ := Writer.free_some h hg hs hr
  exact ⟨.of_world hb, hrel.cuts hs ha hf⟩

theorem freeDouble_some {u : Unit} {dbl : Run} {arrays pieces : List Run} (hg : g.Single)
    (h : Writer.freeDouble s = (some u, s')) (hs : Sane g s.world) (hst : leRun s.stream DataField.kDoubleIndirect = dbl)
    (hz : runIsZero dbl = false) (hd : ShowsDouble g (readBlock s.world) dbl arrays pieces)
    (hon : ∀ r ∈ dbl :: arrays ++ pieces, r.On g) (ha : ∀ r ∈ dbl :: arrays ++ pieces, ∀ b ∈ g.runBlocks r, g.numAgs < b) :
    ∃ t, Scratched s t ∧ s' = { t with stream := putRun s.stream DataField.kDoubleIndirect ⟨0, 0, 0⟩ } ∧
      Cuts g (fun _ => False) (arrayFrees (g.unit * g.perBlock) pieces arrays ++ [dbl]) s t := by
  have hmem : ∀ a ∈ arrays, a ∈ dbl :: arrays ++ pieces := fun a hm => by simp [hm]
  have hpm : ∀ a ∈ pieces, a ∈ dbl :: arrays ++ pieces := fun a hm => by simp [hm]
  unfold Writer.freeDouble at h
  rw [get_bind_run] at h
  rw [hst, if_neg (by simp [hz])] at h
  obtain ⟨u₁, s₁, h₁, h⟩ := bind_eq_some h
  obtain ⟨u₂, s₂, h₂, h⟩ := bind_eq_some h
  obtain rfl := Writer.buffers_eq_some h
  obtain ⟨hscr₁, hcuts₁⟩ := freeArrays_some hg
    (fun a hm t t' u ht hx => free_some_cuts hg hx ht (hon a (hmem a hm)) (ha a (hmem a hm)) _) h₁ hs hd
    (ha dbl (by simp)) (fun a hm => ha a (hmem a hm)) (fun a hm => hon a (hpm a hm)) fun a hm => ha a (hpm a hm)
  obtain ⟨hscr₂, hcuts₂⟩ := free_some_cuts hg h₂ hcuts₁.sane (hon dbl (by simp)) (ha dbl (by simp)) fun _ => False
  have hscr := hscr₁.trans hscr₂
  exact ⟨s₂, hscr, by rw [hscr.stream], hcuts₁.trans hcuts₂⟩

/-- The parts of a stream cut after `n` blocks. -/
def Parts.cut (p : Parts) (n : ℕ) : Parts where
  direct := keepRuns n p.direct
  indirectArray := keptArray p.indirectArray (keepRuns (n - runsLength p.direct) p.indirect)
  indirect := keepRuns (n - runsLength p.direct) p.indirect
  doubleArray := ⟨0, 0, 0⟩
  arrays := []
  pieces := []

/-- What is freed when a stream is cut after `n` blocks. -/
def Parts.trimmed (g : Geometry) (p : Parts) (n : ℕ) : List Run :=
  dropRuns n p.direct ++ (dropRuns (n - runsLength p.direct) p.indirect ++
    goneArray p.indirectArray (keepRuns (n - runsLength p.direct) p.indirect)) ++ goneDouble g p

/-- What `trim_stream` did. -/
structure CutTo (g : Geometry) (n : ℕ) (p : Parts) (s s' : Writer Session) : Prop where
  buffers : OnlyStream s s'
  cuts : Cuts g (· ∈ p.arrayBlocks g) (p.trimmed g n) s s'
  shows : Shows g (readBlock s'.world) s'.stream (p.cut n)
  whole : runIsZero p.doubleArray = false → n ≤ runsLength (p.direct ++ p.indirect)
  direct : le 8 s'.stream DataField.kMaxDirectRange = runsLength (p.cut n).direct * g.blockSize
  indirect : (p.cut n).indirect ≠ [] →
    le 8 s'.stream DataField.kMaxIndirectRange = le 8 s.stream DataField.kMaxIndirectRange

theorem keepRuns_of_lt (h : runsLength l < n) : keepRuns n l = l := by
  induction l generalizing n with
  | nil => rfl
  | cons r l ih =>
    rw [runsLength_cons] at h
    rw [keepRuns, if_neg (by omega), if_pos (by omega), ih (by omega)]

theorem cutDouble_some {u : Unit} {m : W Unit} (hg : g.Single) (hl : Live g s p)
    (hm : m = (do
      .check (n ≤ logical)
      Writer.freeDouble
      Writer.setStream fun b => put 8 b DataField.kMaxDoubleIndirectRange 0))
    (h : Fallible.when (runIsZero p.doubleArray = false) m s' = (some u, s'')) (hs : Sane g s'.world)
    (hst : leRun s'.stream DataField.kDoubleIndirect = p.doubleArray)
    (hread : ∀ b ∈ p.arrayBlocks g, b ∉ g.runBlocks p.indirectArray → ∀ i < g.blockSize,
      readBlock s'.world b i = readBlock s.world b i) :
    OnlyStream s' s'' ∧ Cuts g (fun _ => False) (goneDouble g p) s' s'' ∧
      (∀ i, i < DataField.kDoubleIndirect → s''.stream i = s'.stream i) ∧
      leRun s''.stream DataField.kDoubleIndirect = ⟨0, 0, 0⟩ ∧ (runIsZero p.doubleArray = false → n ≤ logical) := by
  rcases when_eq_some h with ⟨hz, h⟩ | ⟨hz, rfl⟩
  · rw [hm] at h
    obtain ⟨hle, h⟩ := check_bind_eq_some h
    obtain ⟨u₁, s₁, h₁, h⟩ := bind_eq_some h
    obtain rfl := Writer.buffers_eq_some h
    have hin : ∀ r ∈ p.doubleArray :: p.arrays, ∀ b ∈ g.runBlocks r, b ∈ p.arrayBlocks g ∧ b ∉ g.runBlocks p.indirectArray := by
      intro r hr b hb
      have hmem : b ∈ (p.doubleArray :: p.arrays).flatMap g.runBlocks := List.mem_flatMap.mpr ⟨r, hr, hb⟩
      exact ⟨List.mem_append_right _ hmem, fun hc => (List.nodup_append.mp hl.apart).2.2 b hc b hmem rfl⟩
    have hd : ShowsDouble g (readBlock s'.world) p.doubleArray p.arrays p.pieces :=
      hl.shows.double.congr (fun b hb => hread b (hin _ List.mem_cons_self b hb).1 (hin _ List.mem_cons_self b hb).2)
        fun a ha b hb => hread b (hin _ (List.mem_cons_of_mem _ ha) b hb).1 (hin _ (List.mem_cons_of_mem _ ha) b hb).2
    have harr : ∀ a ∈ p.arrays, a.On g := fun a ha => hl.on a (by simp [Parts.arrayRuns, ha]) (hl.shows.double.listed.solid a ha)
    have hon : ∀ r ∈ p.doubleArray :: p.arrays ++ p.pieces, r.On g := by
      intro r hr
      rcases List.mem_append.mp hr with hr | hr
      · rcases List.mem_cons.mp hr with rfl | hr
        · exact hl.on _ (by simp [Parts.arrayRuns]) hz
        · exact harr r hr
      · exact hl.data r (by simp [Parts.runs, hr])
    have ha : ∀ r ∈ p.doubleArray :: p.arrays ++ p.pieces, ∀ b ∈ g.runBlocks r, g.numAgs < b := by
      intro r hr
      rcases List.mem_append.mp hr with hr | hr
      · exact hl.above_of_array (List.mem_cons_of_mem _ hr)
      · exact hl.above_of_run (by simp [Parts.runs, hr])
    obtain ⟨t, hscr, hs₁, hcuts⟩ := freeDouble_some hg h₁ hs hst hz hd hon ha
    rw [hs₁, goneDouble, if_neg (by simp [hz])]
    refine ⟨hscr.onlyStream.trans (.setStream t _), hcuts.buffers rfl, fun i hi => ?_, ?_, fun _ => of_decide_eq_true hle⟩
    · simp only [DataField.kDoubleIndirect, DataField.kMaxDoubleIndirectRange] at hi ⊢
      rw [put_of_notMem (by omega), putRun_of_notMem (by omega)]
    · dsimp only
      rw [leRun_put_of_disjoint (by decide), leRun_putRun ⟨by decide, by decide, by decide⟩]
  · have hz' : runIsZero p.doubleArray = true := by simpa using hz
    rw [goneDouble, if_pos hz']
    exact ⟨(Scratched.refl _).onlyStream, .of_store hs rfl, fun _ _ => rfl, by rw [hst]; exact eq_zero_of_runIsZero hz',
      fun hc => absurd hc hz⟩

theorem trimStream_some {u : Unit} (hg : g.Single) (h : Writer.trimStream n s = (some u, s')) (hl : Live g s p)
    (hd : le 8 s.stream DataField.kMaxDirectRange = runsLength p.direct * g.blockSize) : CutTo g n p s s' := by
  have hrun : ∀ r ∈ p.direct, r ∈ p.runs := fun r hr => by simp [Parts.runs, hr]
  have hrun' : ∀ r ∈ p.indirect, r ∈ p.runs := fun r hr => by simp [Parts.runs, hr]
  have hsum : ∀ (bs : ℕ) (rs : List Run), (rs.map fun r => r.length * bs).sum = runsLength rs * bs := by
    intro bs rs
    induction rs with
    | nil => simp
    | cons r rs ih => rw [List.map_cons, List.sum_cons, ih, runsLength_cons, Nat.add_mul]
  unfold Writer.trimStream at h
  obtain ⟨⟨logical₁, changed⟩, s₁, h₁, h⟩ := bind_eq_some h
  dsimp only at h
  rw [get_bind_run] at h
  obtain ⟨logical₂, s₂, h₂, h⟩ := bind_eq_some h
  obtain ⟨u₃, s₃, h₃, h⟩ := bind_eq_some h
  obtain ⟨u₄, s₄, h₄, h⟩ := bind_eq_some h
  have hs₄ := Writer.buffers_eq_some h₄
  have hs₅ := Writer.buffers_eq_some h
  -- the direct runs
  obtain ⟨honly₁, hfill₁, hout₁, hcuts₁, hlog₁, -⟩ := trimArray_some (fun _ => False) isBuffer_stream hg h₁
    hl.sane hl.shows.direct (fun r hr => hl.data r (hrun r hr)) fun r hr => hl.above_of_run (hrun r hr)
  rw [Nat.sub_zero] at hfill₁ hcuts₁ hlog₁
  rw [runsLength_keepRuns, Nat.zero_add] at hlog₁
  subst hlog₁
  have hfield : ∀ i, DataField.kMaxDirectRange ≤ i → s₁.stream i = s.stream i := fun i hi => hout₁ i (Or.inr hi)
  -- the indirect runs
  have hia₁ : leRun s₁.stream DataField.kIndirect = p.indirectArray := by
    rw [← hl.shows.indirectArray]
    exact leRun_congr fun k _ => hfield _ (by simp only [DataField.kMaxDirectRange, DataField.kIndirect]; omega)
  have hd₁ : le 8 s₁.stream DataField.kMaxDirectRange = runsLength p.direct * g.blockSize := by
    rw [← hd]
    exact le_congr fun k _ => hfield _ (Nat.le_add_right _ _)
  have hfill : Filled runIsZero (cell g (readBlock s₁.world) p.indirectArray) (p.indirectArray.length * g.perBlock) p.indirect :=
    hl.shows.indirect.congr fun i hi =>
      cells_congr (fun b hb => hcuts₁.read b (hl.above_of_array List.mem_cons_self b hb) id) hi
  obtain ⟨hre₂, hlog₂, hcuts₂, hout₂, hia₂, hmax₂, hfill₂⟩ := cutIndirect_some hg h₂ hcuts₁.sane hia₁
    (fun hz => hl.on _ List.mem_cons_self hz) (hl.above_of_array List.mem_cons_self) hfill
    (fun r hr => hl.data r (hrun' r hr)) (fun r hr => hl.above_of_run (hrun' r hr)) hd₁
  -- the double indirect runs
  have hdbl₁ : leRun s₁.stream DataField.kDoubleIndirect = p.doubleArray := by
    rw [← hl.shows.doubleArray]
    exact leRun_congr fun k _ => hfield _ (by simp only [DataField.kMaxDirectRange, DataField.kDoubleIndirect]; omega)
  have hdbl₂ : leRun s₂.stream DataField.kDoubleIndirect = p.doubleArray := by
    rw [← hdbl₁]
    exact leRun_congr fun k _ => hout₂ _ (Or.inr (Nat.le_add_right _ _))
  rw [hdbl₁] at h₃
  obtain ⟨hre₃, hcuts₃, hout₃, hz₃, hwhole⟩ := cutDouble_some hg hl rfl h₃ hcuts₂.sane hdbl₂ fun b hb hno i hi => by
    have ha := (hl.marked b hb).1
    rw [hcuts₂.read b ha hno i hi, hcuts₁.read b ha id i hi]
  -- the fields
  have hbs : s₁.blockSize = g.blockSize := by
    show s₁.world.vol.blockSize = _
    rw [hcuts₁.sane.geometry]
  have hslots : ∀ i < DataField.kMaxDirectRange, s₃.stream i = s₁.stream i := by
    intro i hi
    simp only [DataField.kMaxDirectRange] at hi
    rw [hout₃ i (by simp only [DataField.kDoubleIndirect]; omega), hout₂ i (Or.inl (by simp only [DataField.kIndirect]; omega))]
  have hdirect₃ : Filled runIsZero (fun k => leRun s₃.stream (DataField.kDirect + k * 8)) DataField.kDirectCount
      (keepRuns n p.direct) := hfill₁.congr fun i hi => leRun_congr fun k hk => hslots _ (by
    simp only [DataField.kMaxDirectRange, DataField.kDirect, DataField.kDirectCount] at *
    omega)
  have hia₃ : leRun s₃.stream DataField.kIndirect =
      keptArray p.indirectArray (keepRuns (n - runsLength p.direct) p.indirect) := by
    rw [← hia₂]
    exact leRun_congr fun k hk => hout₃ _ (by simp only [DataField.kIndirect, DataField.kDoubleIndirect]; omega)
  have hst₄ : s₄.stream = put 8 s₃.stream DataField.kMaxDirectRange (runsLength (keepRuns n p.direct) * g.blockSize) := by
    rw [hs₄]
    dsimp only
    rw [runsAt_filled hdirect₃, hsum, hbs]
  have hia₄ : leRun s₄.stream DataField.kIndirect =
      keptArray p.indirectArray (keepRuns (n - runsLength p.direct) p.indirect) := by
    rw [hst₄, leRun_put_of_disjoint (by decide), hia₃]
  have hst₅ : s'.stream = if runIsZero (keptArray p.indirectArray (keepRuns (n - runsLength p.direct) p.indirect))
      then put 8 s₄.stream DataField.kMaxIndirectRange 0 else s₄.stream := by
    rw [hs₅]
    dsimp only
    rw [hia₄]
  have hstore : s'.store = s₃.store := by rw [hs₅, hs₄]
  have hre : OnlyStream s₃ s' := by unfold OnlyStream; rw [hs₅, hs₄]
  -- the fields that are not set are as they were
  have hrest : ∀ i, i < DataField.kMaxDirectRange ∨ DataField.kIndirect ≤ i ∧ i < DataField.kMaxIndirectRange ∨
      DataField.kDoubleIndirect ≤ i → s'.stream i = s₃.stream i := by
    intro i hi
    simp only [DataField.kMaxDirectRange, DataField.kIndirect, DataField.kMaxIndirectRange, DataField.kDoubleIndirect] at hi
    have h₄ : s₄.stream i = s₃.stream i := by
      rw [hst₄]
      exact put_of_notMem (by simp only [DataField.kMaxDirectRange]; omega)
    rw [hst₅]
    split
    · rw [put_of_notMem (by simp only [DataField.kMaxIndirectRange]; omega), h₄]
    · exact h₄
  have hw : s'.world = s₃.world := by unfold Writer.world; rw [hstore]
  have hzero : runIsZero ⟨0, 0, 0⟩ = true := rfl
  have hkeptz : ∀ {kept : List Run}, kept ≠ [] → keptArray p.indirectArray kept = p.indirectArray := fun hk => if_neg hk
  have hmono : ∀ b ∈ g.runBlocks p.indirectArray, b ∈ p.arrayBlocks g := fun b hb => List.mem_append_left _ hb
  have hcuts : Cuts g (· ∈ p.arrayBlocks g) (p.trimmed g n) s s' :=
    (((hcuts₁.mono fun b hb => absurd hb id).trans (hcuts₂.mono hmono)).trans
      (hcuts₃.mono fun b hb => absurd hb id)).buffers hstore
  have hbytes := hl.bytes_lt hg
  have hle : runsLength (keepRuns n p.direct) * g.blockSize ≤ runsLength p.runs * g.blockSize := by
    refine Nat.mul_le_mul_right _ ?_
    rw [runsLength_keepRuns, Parts.runs, runsLength_append, runsLength_append]
    omega
  refine ⟨((OnlyStream.of_stream honly₁).trans hre₂).trans (hre₃.trans hre), hcuts, ?_, fun hz => ?_, ?_, fun hk => ?_⟩
  · refine ⟨hdirect₃.congr fun i hi => ?_, ?_, ?_, ?_, ?_, fun k hk => absurd hk (Nat.not_lt_zero k), fun hc => ?_, fun hc => ?_⟩
    · refine leRun_congr fun k hk => hrest _ (Or.inl ?_)
      simp only [DataField.kMaxDirectRange, DataField.kDirect, DataField.kDirectCount] at *
      omega
    · rw [show leRun s'.stream DataField.kIndirect = leRun s₃.stream DataField.kIndirect from
        leRun_congr fun k hk => hrest _ (Or.inr (Or.inl (by simp only [DataField.kIndirect, DataField.kMaxIndirectRange]; omega)))]
      exact hia₃
    · show Filled runIsZero (cell g (readBlock s'.world) (keptArray p.indirectArray _)) ((keptArray p.indirectArray _).length * _) _
      by_cases hk : keepRuns (n - runsLength p.direct) p.indirect = []
      · rw [keptArray, if_pos hk]
        show Filled runIsZero _ _ (keepRuns (n - runsLength p.direct) p.indirect)
        rw [hk]
        exact .nil_of_empty fun i hi => absurd hi (by simp)
      · rw [hkeptz hk]
        refine (hfill₂ hk).2.congr fun i hi => cells_congr (fun b hb j hj => ?_) hi
        rw [hw]
        exact hcuts₃.read b (hl.above_of_array List.mem_cons_self b hb) id j hj
    · refine Eq.trans ?_ hz₃
      exact leRun_congr fun k hk => hrest _ (Or.inr (Or.inr (Nat.le_add_right _ _)))
    · exact ⟨.nil_of_empty fun i hi => absurd hi (by simp [Parts.cut]), fun a ha => absurd ha List.not_mem_nil,
        fun k hk => absurd hk (Nat.not_lt_zero k), Nat.zero_le _, fun a ha => absurd ha List.not_mem_nil⟩
    · have hk : keepRuns (n - runsLength p.direct) p.indirect ≠ [] := by
        intro hc'
        rw [Parts.cut, keptArray, if_pos hc', hzero] at hc
        cases hc
      have hlt : runsLength p.direct < n := by
        by_contra hge
        rw [Nat.sub_eq_zero_of_le (by omega), keepRuns_zero] at hk
        exact hk rfl
      show (keepRuns n p.direct).length = _
      rw [keepRuns_of_lt hlt]
      exact hl.shows.directFull (hfill₂ hk).1
    · rw [Parts.cut, hzero] at hc
      cases hc
  · have := hwhole hz
    rw [runsLength_append]
    omega
  · have hmod : le 8 s₄.stream DataField.kMaxDirectRange = runsLength (keepRuns n p.direct) * g.blockSize := by
      rw [hst₄, le_put_of_lt (by norm_num at hbytes ⊢; omega)]
    rw [hst₅]
    split
    · rw [le_put_of_disjoint (by decide)]; exact hmod
    · exact hmod
  · have hk : keepRuns (n - runsLength p.direct) p.indirect ≠ [] := hk
    rw [hst₅, hkeptz hk, if_neg (by simp [(hfill₂ hk).1]), hst₄, le_put_of_disjoint (by decide)]
    rw [show le 8 s₃.stream DataField.kMaxIndirectRange = le 8 s₂.stream DataField.kMaxIndirectRange from
      le_congr fun k hk => hout₃ _ (by simp only [DataField.kMaxIndirectRange, DataField.kDoubleIndirect]; omega), hmax₂ hk]
    exact le_congr fun k _ => hfield _ (by simp only [DataField.kMaxDirectRange, DataField.kMaxIndirectRange]; omega)

theorem CutTo.blocks_eq (h : CutTo g n p s s') (hl : Live g s p) : (p.cut n).blocks g = (p.blocks g).take n := by
  have hw := h.whole
  have hdl : (p.direct.flatMap g.runBlocks).length = runsLength p.direct := length_flatMap_runBlocks g _
  simp only [Parts.blocks, Parts.runs, Parts.cut, List.flatMap_append, List.append_nil, List.append_assoc,
    blocks_keepRuns, List.take_append, hdl]
  congr 1
  rcases hz : runIsZero p.doubleArray with _ | _
  · have := hw hz
    rw [runsLength_append] at this
    rw [length_flatMap_runBlocks, show n - runsLength p.direct - runsLength p.indirect = 0 by omega, List.take_zero,
      List.append_nil]
  · rw [(hl.shows.double_nil hz).2, List.flatMap_nil, List.take_nil, List.append_nil]

theorem CutTo.freed_perm (h : CutTo g n p s s') (hl : Live g s p) :
    ((p.trimmed g n).flatMap g.runBlocks ++ (p.cut n).arrayBlocks g).Perm ((p.blocks g).drop n ++ p.arrayBlocks g) := by
  have hdl : (p.direct.flatMap g.runBlocks).length = runsLength p.direct := length_flatMap_runBlocks g _
  have hil : (p.indirect.flatMap g.runBlocks).length = runsLength p.indirect := length_flatMap_runBlocks g _
  have hon : ∀ r ∈ p.direct, r.On g := fun r hr => hl.data r (by simp [Parts.runs, hr])
  have hon' : ∀ r ∈ p.indirect, r.On g := fun r hr => hl.data r (by simp [Parts.runs, hr])
  have hrest : (p.pieces.flatMap g.runBlocks).drop (n - runsLength p.direct - runsLength p.indirect) =
      p.pieces.flatMap g.runBlocks := by
    rcases hz : runIsZero p.doubleArray with _ | _
    · have := h.whole hz
      rw [runsLength_append] at this
      rw [show n - runsLength p.direct - runsLength p.indirect = 0 by omega, List.drop_zero]
    · rw [(hl.shows.double_nil hz).2, List.flatMap_nil, List.drop_nil]
  -- the indirect array is freed or kept
  have harray : (goneArray p.indirectArray (keepRuns (n - runsLength p.direct) p.indirect)).flatMap g.runBlocks ++
      g.runBlocks (keptArray p.indirectArray (keepRuns (n - runsLength p.direct) p.indirect)) =
        g.runBlocks p.indirectArray := by
    rw [goneArray, keptArray]
    by_cases hk : keepRuns (n - runsLength p.direct) p.indirect = []
    · rw [if_pos hk]
      rcases hz : runIsZero p.indirectArray with _ | _
      · rw [if_pos ⟨hk, rfl⟩]; simp [Geometry.runBlocks]
      · rw [if_neg (by simp), runBlocks_of_zero hz]; rfl
    · rw [if_neg hk, if_neg (fun hc => hk hc.1)]; rfl
  have hdouble : ((goneDouble g p).flatMap g.runBlocks).Perm
      (p.pieces.flatMap g.runBlocks ++ (g.runBlocks p.doubleArray ++ p.arrays.flatMap g.runBlocks)) := by
    rw [goneDouble]
    rcases hz : runIsZero p.doubleArray with _ | _
    · rw [if_neg (by simp), List.flatMap_append, List.flatMap_singleton]
      refine ((arrayFrees_perm g hl.shows.double.fits).append_right _).trans ?_
      rw [List.append_assoc]
      exact List.perm_append_comm.append_left _
    · rw [if_pos rfl, (hl.shows.double_nil hz).1, (hl.shows.double_nil hz).2, runBlocks_of_zero hz]
      exact .refl _
  have hzero : g.runBlocks ⟨0, 0, 0⟩ = [] := rfl
  refine List.perm_iff_count.mpr fun b => ?_
  have hq := hdouble.count_eq b
  have ha := congrArg (List.count b) harray
  simp only [List.count_append] at hq ha
  simp only [Parts.trimmed, Parts.blocks, Parts.runs, Parts.arrayBlocks, Parts.arrayRuns, Parts.cut, List.flatMap_append,
    List.flatMap_cons, List.flatMap_nil, blocks_dropRuns hon, blocks_dropRuns hon', List.append_assoc, List.drop_append,
    hdl, hil, hrest, hzero, List.count_append, List.append_nil]
  omega

theorem CutTo.live (h : CutTo g n p s s') (hl : Live g s p) : Live g s' (p.cut n) := by
  have hblocks := h.blocks_eq hl
  have hperm := h.freed_perm hl
  -- the kept blocks, what was freed and the kept arrays are the blocks and arrays there were
  have hall : ((p.cut n).blocks g ++ ((p.trimmed g n).flatMap g.runBlocks ++ (p.cut n).arrayBlocks g)).Nodup := by
    rw [hblocks]
    refine ((hperm.append_left _).nodup_iff).mpr ?_
    rw [← List.append_assoc, List.take_append_drop]
    exact hl.distinct
  obtain ⟨hkept, hrest, hapart⟩ := List.nodup_append.mp hall
  obtain ⟨-, harr, hapart'⟩ := List.nodup_append.mp hrest
  have hstill : ∀ b, b ∈ p.blocks g ++ p.arrayBlocks g → b ∉ (p.trimmed g n).flatMap g.runBlocks →
      g.numAgs < b ∧ s'.world.inUse b = true := by
    intro b hb hno
    have hold : g.numAgs < b ∧ b < g.numBlocks ∧ s.world.inUse b = true := by
      rcases List.mem_append.mp hb with hb | hb
      · exact ⟨(hl.inUse b hb).1, hl.blocks_lt hb, (hl.inUse b hb).2⟩
      · exact ⟨(hl.marked b hb).1, hl.toArrays.lt hb, (hl.marked b hb).2⟩
    exact ⟨hold.1, by rw [h.cuts.inUse b hold.2.1, decide_eq_false hno, hold.2.2]; rfl⟩
  have hdata : ∀ r ∈ (p.cut n).runs, r.On g := by
    intro r hr
    rcases List.mem_append.mp hr with hr | hr
    · rcases List.mem_append.mp hr with hr | hr
      · exact keepRuns_on (fun a ha => hl.data a (by simp [Parts.runs, ha])) r hr
      · exact keepRuns_on (fun a ha => hl.data a (by simp [Parts.runs, ha])) r hr
    · cases hr
  have hmark : ∀ b ∈ (p.cut n).blocks g, g.numAgs < b ∧ s'.world.inUse b = true := fun b hb =>
    hstill b (List.mem_append_left _ (List.mem_of_mem_take (hblocks ▸ hb)))
      fun hc => hapart b hb b (List.mem_append_left _ hc) rfl
  refine ⟨⟨⟨h.cuts.sane, fun r hr hz => ?_, harr, fun b hb => hstill b ?_ fun hc => hapart' b hc b hb rfl⟩, h.shows, fun r hr => ?_⟩,
    hdata, List.nodup_append.mpr ⟨hkept, harr, fun b hb c hc => hapart b hb c (List.mem_append_right _ hc)⟩, hmark⟩
  · simp only [Parts.arrayRuns, Parts.cut, List.mem_cons, List.not_mem_nil, or_false] at hr
    rcases hr with rfl | rfl
    · rw [keptArray] at hz ⊢
      split at hz
      · cases hz
      · rename_i hk
        rw [if_neg hk]
        exact hl.on _ List.mem_cons_self hz
    · cases hz
  · rcases List.mem_append.mp (hperm.mem_iff.mp (List.mem_append_right _ hb)) with hb | hb
    · exact List.mem_append_left _ (List.mem_of_mem_drop hb)
    · exact List.mem_append_right _ hb
  · have hfirst : g.toBlock r ∈ (p.cut n).blocks g := List.mem_flatMap.mpr
      ⟨r, hr, Geometry.mem_runBlocks.mpr ⟨Nat.le_refl _, Nat.lt_add_of_pos_right (hdata r hr).pos⟩⟩
    exact Nat.zero_lt_of_lt (hmark _ hfirst).1

end

end Aegir.Bfs
