/-
  What a disk recovers to.
-/
import Aegir.Bfs.Journal

namespace Aegir.Bfs

open Aegir.Lib Aegir.Lib.Buf

/-! ## Geometry -/

namespace Geometry

variable {g : Geometry}

def logBlock (g : Geometry) : ℕ := g.toBlock g.log

/-- What the format promises of a volume: block 0 holds the boot block and the
    superblock, a group's blocks fit a run's 16-bit start, the groups cover the
    volume, and the log lies past block 0 and holds a full transaction. -/
structure Sound (g : Geometry) : Prop where
  shift : 10 ≤ g.blockShift
  agShift : g.agShift ≤ 16
  groups : g.numBlocks ≤ g.numAgs * 2 ^ g.agShift
  numAgs : g.numAgs < 2 ^ 32
  logPast : 0 < g.logBlock
  room : kMaxJournalBlocks + 2 ≤ g.logLength

theorem Sound.blockSize_ge (hg : g.Sound) : 1024 ≤ g.blockSize := by
  have : 2 ^ 10 ≤ 2 ^ g.blockShift := Nat.pow_le_pow_right (by norm_num) hg.shift
  exact this

theorem blockBytes_eq (hs : 10 ≤ g.blockShift) : g.blockBytes = g.blockSize := by
  have h : g.blockSize = 2 ^ (g.blockShift - 9) * kSectorBytes := by
    rw [Geometry.blockSize, show kSectorBytes = 2 ^ 9 from rfl, ← pow_add]
    congr 1; omega
  rw [Geometry.blockBytes, h, Nat.mul_div_cancel _ (by decide : 0 < kSectorBytes)]

theorem Sound.blockBytes (hg : g.Sound) : g.blockBytes = g.blockSize := blockBytes_eq hg.shift

/-- The byte `a` belongs to a block of the log run. -/
def InLog (g : Geometry) (a : ℕ) : Prop :=
  g.logBlock ≤ a / g.blockSize ∧ a / g.blockSize < g.logBlock + g.logLength

/-- The byte `a` belongs to the superblock sector. -/
def InSuper (a : ℕ) : Prop := kSuperblockOffset ≤ a ∧ a < kSuperblockOffset + kSuperblockBytes

/-- Two disks have the same home blocks: they agree outside the log run and the
    superblock sector. -/
def HomeEq (g : Geometry) (d d' : Buf) : Prop := ∀ a, ¬ g.InLog a → ¬ InSuper a → d a = d' a

theorem HomeEq.refl (d : Buf) : g.HomeEq d d := fun _ _ _ => rfl

theorem HomeEq.trans {d d' d'' : Buf} (h : g.HomeEq d d') (h' : g.HomeEq d' d'') :
    g.HomeEq d d'' := fun a h₁ h₂ => (h a h₁ h₂).trans (h' a h₁ h₂)

theorem Sound.block_of_super (hg : g.Sound) {a : ℕ} (h : InSuper a) : a / g.blockSize = 0 := by
  have := hg.blockSize_ge
  simp only [InSuper, kSuperblockOffset, kSuperblockBytes] at h
  exact Nat.div_eq_of_lt (by omega)

theorem Sound.not_inLog_of_super (hg : g.Sound) {a : ℕ} (h : InSuper a) : ¬ g.InLog a := by
  have := hg.logPast
  rw [InLog, hg.block_of_super h]; omega

/-! ## Runs of one block -/

theorem toRun_fits (b : ℕ) : (g.toRun b).Fits :=
  ⟨Nat.mod_lt _ (by norm_num), Nat.mod_lt _ (by norm_num), by simp [toRun]⟩

section
variable (hg : g.Sound) {b : ℕ} (hb : b < g.numBlocks)
include hg hb

theorem toRun_eq : g.toRun b = ⟨b / 2 ^ g.agShift, b % 2 ^ g.agShift, 1⟩ := by
  have h₁ : b / 2 ^ g.agShift < g.numAgs :=
    Nat.div_lt_of_lt_mul (by rw [Nat.mul_comm]; exact lt_of_lt_of_le hb hg.groups)
  have h₂ : b % 2 ^ g.agShift < 2 ^ 16 := lt_of_lt_of_le (Nat.mod_lt _ (Nat.two_pow_pos _))
    (Nat.pow_le_pow_right (by norm_num) hg.agShift)
  rw [toRun, Nat.shiftRight_eq_div_pow, Nat.and_two_pow_sub_one_eq_mod,
    Nat.mod_eq_of_lt (h₁.trans hg.numAgs), Nat.mod_eq_of_lt h₂]

theorem toBlock_toRun : g.toBlock (g.toRun b) = b := by
  rw [toRun_eq hg hb, toBlock, ← Nat.shiftLeft_add_eq_or_of_lt (Nat.mod_lt _ (Nat.two_pow_pos _)),
    Nat.shiftLeft_eq, Nat.div_add_mod']

theorem validateRun_toRun : g.validateRun (g.toRun b) = true := by
  have h₁ : b / 2 ^ g.agShift < g.numAgs :=
    Nat.div_lt_of_lt_mul (by rw [Nat.mul_comm]; exact lt_of_lt_of_le hb hg.groups)
  have h₂ : b % 2 ^ g.agShift < 2 ^ g.agShift := Nat.mod_lt _ (Nat.two_pow_pos _)
  have h₃ := toBlock_toRun hg hb
  rw [toRun_eq hg hb] at h₃ ⊢
  rw [validateRun, if_neg (by simp; omega), if_neg (by simp; omega), h₃]
  exact decide_eq_true hb

end

end Geometry

/-! ## Transactions -/

/-- The disk with the images of a transaction at their homes. -/
def applyEntries (g : Geometry) (d : Buf) (es : List (ℕ × Buf)) : Buf :=
  es.foldl (fun d e => blit d (e.1 * g.blockSize) e.2 g.blockSize) d

/-- Blocks the journal can buffer: at most 32, distinct, all of them home blocks
    of the volume other than block 0. -/
structure Buffered (g : Geometry) (es : List (ℕ × Buf)) : Prop where
  length : es.length ≤ kMaxJournalBlocks
  nodup : (es.map Prod.fst).Nodup
  target : ∀ b ∈ es.map Prod.fst, 0 < b ∧ b < g.numBlocks ∧
    (b < g.logBlock ∨ g.logBlock + g.logLength ≤ b)

/-- A transaction to commit: one block at least. -/
structure Txn (g : Geometry) (es : List (ℕ × Buf)) : Prop extends Buffered g es where
  ne : es ≠ []

section
variable {g : Geometry} {es es' : List (ℕ × Buf)} {d d' : Buf}

theorem Txn.perm (h : Txn g es) (hp : es'.Perm es) : Txn g es' where
  ne hn := h.ne (by rw [hn] at hp; exact hp.symm.eq_nil)
  length := hp.length_eq ▸ h.length
  nodup := (hp.map _).nodup_iff.2 h.nodup
  target b hb := h.target b ((hp.map _).mem_iff.1 hb)

theorem lookup_eq_none_of_notMem {b : ℕ} (h : b ∉ es.map Prod.fst) : es.lookup b = none := by
  rw [List.lookup_eq_none_iff]
  rintro e he
  simp only [bne_iff_ne, ne_eq]
  rintro rfl
  exact h (List.mem_map_of_mem he)

theorem applyEntries_apply (hs : 0 < g.blockSize) (hn : (es.map Prod.fst).Nodup) (a : ℕ) :
    applyEntries g d es a =
      ((es.lookup (a / g.blockSize)).map (· (a % g.blockSize))).getD (d a) := by
  unfold applyEntries
  induction es generalizing d with
  | nil => rfl
  | cons e es ih =>
    obtain ⟨b, img⟩ := e
    rw [List.map_cons, List.nodup_cons] at hn
    rw [List.foldl_cons, ih hn.2, List.lookup_cons]
    by_cases hb : a / g.blockSize = b
    · subst hb
      rw [lookup_eq_none_of_notMem hn.1]
      simp [blit_block hs]
    · rw [blit_block hs, if_neg hb, beq_eq_false_iff_ne.2 hb]

theorem applyEntries_perm (hs : 0 < g.blockSize) (hn : (es.map Prod.fst).Nodup)
    (hp : es'.Perm es) : applyEntries g d es' = applyEntries g d es := by
  unfold applyEntries
  refine hp.symm.foldl_eq' (fun x hx y hy z => ?_) d |>.symm
  by_cases hxy : x = y
  · rw [hxy]
  · have hne : x.1 ≠ y.1 := fun he => hxy (List.inj_on_of_nodup_map hn hx hy he)
    funext a
    simp only [blit_block hs]
    split_ifs <;> simp_all

theorem applyEntries_homeEq (hs : 0 < g.blockSize) (hn : (es.map Prod.fst).Nodup)
    (h : g.HomeEq d d') : g.HomeEq (applyEntries g d es) (applyEntries g d' es) := by
  intro a h₁ h₂
  rw [applyEntries_apply hs hn, applyEntries_apply hs hn, h a h₁ h₂]

/-- Writing one of the blocks a transaction names does not change what the
    transaction makes of the disk. -/
theorem applyEntries_blit (hs : 0 < g.blockSize) (hn : (es.map Prod.fst).Nodup) {b : ℕ}
    (hb : b ∈ es.map Prod.fst) (img : Buf) :
    applyEntries g (blit d (b * g.blockSize) img g.blockSize) es = applyEntries g d es := by
  funext a
  rw [applyEntries_apply hs hn, applyEntries_apply hs hn]
  rcases hl : es.lookup (a / g.blockSize) with _ | i
  · have hne : a / g.blockSize ≠ b := by
      rintro rfl
      obtain ⟨e, he, hab⟩ := List.mem_map.1 hb
      have := List.lookup_eq_none_iff.1 hl e he
      simp [hab] at this
    simp [blit_block hs, hne]
  · rfl

/-- Block `b` of the disk holds the image `img`. -/
def BlockAt (g : Geometry) (d : Buf) (b : ℕ) (img : Buf) : Prop :=
  ∀ i < g.blockSize, d (b * g.blockSize + i) = img i

theorem blockAt_blit {b : ℕ} {img img' : Buf} (h : ∀ i < g.blockSize, img i = img' i) :
    BlockAt g (blit d (b * g.blockSize) img g.blockSize) b img' := by
  intro i hi
  rw [blit_block_at hi, if_pos rfl, h i hi]

theorem BlockAt.blit_of_ne {b b' : ℕ} {img img' : Buf} (h : BlockAt g d b img) (hne : b ≠ b') :
    BlockAt g (blit d (b' * g.blockSize) img' g.blockSize) b img := by
  intro i hi
  rw [blit_block_at hi, if_neg hne, h i hi]

theorem BlockAt.le {b : ℕ} {img : Buf} (h : BlockAt g d b img) {w i : ℕ}
    (hi : i + w ≤ g.blockSize) : le w (slice d (b * g.blockSize)) i = le w img i :=
  le_congr fun k hk => by rw [slice_apply]; exact h (i + k) (by omega)

theorem BlockAt.leRun {b : ℕ} {img : Buf} (h : BlockAt g d b img) {i : ℕ}
    (hi : i + 8 ≤ g.blockSize) : leRun (slice d (b * g.blockSize)) i = leRun img i :=
  leRun_congr fun k hk => by rw [slice_apply]; exact h (i + k) (by omega)

/-- The images of `es` are at their homes. -/
def Applied (g : Geometry) (d : Buf) (es : List (ℕ × Buf)) : Prop :=
  ∀ e ∈ es, BlockAt g d e.1 e.2

theorem Applied.eq (hs : 0 < g.blockSize) (hn : (es.map Prod.fst).Nodup) (h : Applied g d es) :
    applyEntries g d es = d := by
  funext a
  rw [applyEntries_apply hs hn]
  rcases hl : es.lookup (a / g.blockSize) with _ | img
  · rfl
  · have he : (a / g.blockSize, img) ∈ es := by
      obtain ⟨l₁, l₂, hes, -⟩ := List.lookup_eq_some_iff.1 hl
      rw [hes]; simp
    have := h _ he (a % g.blockSize) (Nat.mod_lt a hs)
    rw [Nat.div_add_mod'] at this
    exact this.symm

theorem Applied.snoc {e : ℕ × Buf} {img : Buf} (h : Applied g d es)
    (hne : e.1 ∉ es.map Prod.fst) (himg : ∀ i < g.blockSize, img i = e.2 i) :
    Applied g (blit d (e.1 * g.blockSize) img g.blockSize) (es ++ [e]) := by
  intro x hx
  rcases List.mem_append.1 hx with hx | hx
  · exact (h x hx).blit_of_ne fun he => hne (he ▸ List.mem_map_of_mem hx)
  · rw [List.mem_singleton.1 hx]; exact blockAt_blit himg

end

/-! ## The log -/

/-- The log holds `imgs` one after the other from position `p` on, around its
    end. -/
def LogHolds (g : Geometry) (d : Buf) (p : ℕ) (imgs : List Buf) : Prop :=
  ∀ j (hj : j < imgs.length), BlockAt g d (g.logBlock + (p + j) % g.logLength) imgs[j]

section
variable {g : Geometry} {d d' : Buf} {p : ℕ} {imgs : List Buf}

theorem logPosition_ne {L i j : ℕ} (hij : i < j) (hj : j < i + L) (p : ℕ) :
    (p + i) % L ≠ (p + j) % L := by
  intro h
  have h' : i ≡ j [MOD L] := Nat.ModEq.add_left_cancel' p h
  have := Nat.le_of_dvd (by omega) ((Nat.modEq_iff_dvd' hij.le).1 h')
  omega

theorem LogHolds.congr (hL : 0 < g.logLength) (h : LogHolds g d p imgs)
    (hd : ∀ a, g.InLog a → d' a = d a) : LogHolds g d' p imgs := by
  intro j hj i hi
  have hlt : (p + j) % g.logLength < g.logLength := Nat.mod_lt _ hL
  have hdiv : ((g.logBlock + (p + j) % g.logLength) * g.blockSize + i) / g.blockSize =
      g.logBlock + (p + j) % g.logLength := by
    rw [Nat.add_comm, Nat.add_mul_div_right _ _ (by omega), Nat.div_eq_of_lt hi, Nat.zero_add]
  rw [hd _ (by rw [Geometry.InLog, hdiv]; omega), h j hj i hi]

theorem LogHolds.blit_past {j : ℕ} {img : Buf} (h : LogHolds g d p imgs)
    (h₁ : imgs.length ≤ j) (h₂ : j < g.logLength) :
    LogHolds g (blit d ((g.logBlock + (p + j) % g.logLength) * g.blockSize) img g.blockSize)
      p imgs := by
  intro i hi
  have hne := logPosition_ne (show i < j by omega) (by omega : j < i + g.logLength) p
  exact (h i hi).blit_of_ne (by omega)

theorem LogHolds.snoc {img : Buf} (h : LogHolds g d p imgs) (hr : imgs.length < g.logLength) :
    LogHolds g (blit d ((g.logBlock + (p + imgs.length) % g.logLength) * g.blockSize) img
      g.blockSize) p (imgs ++ [img]) := by
  intro j hj
  rw [List.length_append, List.length_singleton] at hj
  rcases Nat.lt_succ_iff_lt_or_eq.1 hj with hj | rfl
  · rw [List.getElem_append_left hj]
    exact h.blit_past le_rfl hr j hj
  · rw [List.getElem_append_right le_rfl]
    simp only [Nat.sub_self, List.getElem_cons_zero]
    exact blockAt_blit fun _ _ => rfl

end

/-! ## The run array -/

section
variable {g : Geometry}

theorem putRuns_of_notMem (blocks : List ℕ) {b : Buf} {i j : ℕ}
    (h : j < i ∨ i + 8 * blocks.length ≤ j) : putRuns g b i blocks j = b j := by
  induction blocks generalizing b i with
  | nil => rfl
  | cons block blocks ih =>
    rw [List.length_cons] at h
    rw [putRuns, ih (by omega), putRun_of_notMem (by omega)]

theorem leRun_putRuns (blocks : List ℕ) {b : Buf} {i k : ℕ} (hk : k < blocks.length) :
    leRun (putRuns g b i blocks) (i + k * 8) = g.toRun blocks[k] := by
  induction blocks generalizing b i k with
  | nil => simp at hk
  | cons block blocks ih =>
    rw [putRuns]
    rcases k with _ | k
    · have h₀ : leRun (putRuns g (putRun b i (g.toRun block)) (i + 8) blocks) (i + 0 * 8) =
          leRun (putRun b i (g.toRun block)) i := leRun_congr fun m hm => by
        rw [Nat.zero_mul, Nat.add_zero]; exact putRuns_of_notMem blocks (by omega)
      rw [h₀]; exact leRun_putRun (Geometry.toRun_fits block)
    · rw [show i + (k + 1) * 8 = i + 8 + k * 8 by omega, ih (Nat.lt_of_succ_lt_succ hk)]
      rfl

theorem le_putRuns (blocks : List ℕ) {b : Buf} {w i j : ℕ} (h : j + w ≤ i) :
    le w (putRuns g b i blocks) j = le w b j :=
  le_congr fun _ _ => putRuns_of_notMem blocks (by omega)

theorem le_buildArray_count {es : List (ℕ × Buf)} (h : es.length < 2 ^ 32) :
    le 4 (buildArray g es) RunArray.kCount = es.length := by
  rw [buildArray, le_putRuns _ (by decide), le_put_of_disjoint (by decide),
    le_put_of_lt (by simpa using h)]

theorem maxRuns_lt (n : ℕ) : RunArray.maxRuns n < 128 := by
  simp only [RunArray.maxRuns]; split_ifs <;> omega

theorem le_buildArray_maxRuns {es : List (ℕ × Buf)} :
    le 4 (buildArray g es) RunArray.kMaxRuns = RunArray.maxRuns g.blockSize := by
  have h : RunArray.maxRuns g.blockSize < 256 ^ 4 := (maxRuns_lt _).trans (by decide)
  rw [buildArray, le_putRuns _ (by decide), le_put_of_lt h]

theorem leRun_buildArray {es : List (ℕ × Buf)} {k : ℕ} (hk : k < es.length) :
    leRun (buildArray g es) (RunArray.kRuns + k * 8) = g.toRun es[k].1 := by
  rw [buildArray, leRun_putRuns _ (by simpa using hk), List.getElem_map]

theorem Geometry.Sound.maxRuns (hg : g.Sound) : RunArray.maxRuns g.blockSize = 127 := by
  have := hg.blockSize_ge
  have hk : RunArray.kFixed = 8 := rfl
  simp only [RunArray.maxRuns]
  split_ifs
  · omega
  · rfl

theorem insertEntry_perm (e : ℕ × Buf) : ∀ es, (insertEntry g e es).Perm (e :: es)
  | [] => List.Perm.refl _
  | x :: xs => by
    unfold insertEntry
    split
    · exact ((insertEntry_perm e xs).cons x).trans (List.Perm.swap e x xs)
    · exact List.Perm.refl _

theorem sortEntries_perm (es : List (ℕ × Buf)) : (sortEntries g es).Perm es := by
  have key : ∀ es sorted : List (ℕ × Buf), (es.foldl (fun sorted e => insertEntry g e sorted) sorted).Perm
      (sorted ++ es) := by
    intro es
    induction es with
    | nil => intro sorted; rw [List.append_nil]; exact List.Perm.refl _
    | cons e es ih =>
      intro sorted
      have h₁ := ih (insertEntry g e sorted)
      have h₂ := (insertEntry_perm (g := g) e sorted).append_right es
      exact (h₁.trans h₂).trans List.perm_middle.symm
  exact (List.reverse_perm _).trans (key es [])

end

end Aegir.Bfs
