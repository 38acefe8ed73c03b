/-
  What the writer's calls do to the blocks of a volume whose groups have one bitmap
  block each.
-/
import Aegir.Bfs.Discard
import Aegir.Bfs.Exclusive

namespace Aegir.Bfs

open Aegir.Lib Aegir.Lib.Buf Aegir.Lib.Fallible Allocator

/-! ## Runs of a volume -/

namespace Geometry

def runBlocks (g : Geometry) (r : Run) : List ℕ := List.range' (g.toBlock r) r.length

theorem mem_runBlocks {g : Geometry} {r : Run} {b : ℕ} :
    b ∈ g.runBlocks r ↔ g.toBlock r ≤ b ∧ b < g.toBlock r + r.length := by
  rw [runBlocks, List.mem_range'_1]

@[simp] theorem length_runBlocks (g : Geometry) (r : Run) : (g.runBlocks r).length = r.length :=
  List.length_range'

theorem nodup_runBlocks (g : Geometry) (r : Run) : (g.runBlocks r).Nodup := List.nodup_range'

/-- The bits of each group are in one bitmap block, and the groups cover the volume. -/
structure Single (g : Geometry) : Prop where
  bits : g.bitsPerBlock = 2 ^ g.agShift
  one : g.blocksPerAg = 1
  shift : g.agShift ≤ 16
  groups : g.numAgs < 2 ^ 32
  span : g.numBlocks ≤ g.numAgs * 2 ^ g.agShift
  room : g.numAgs < g.numBlocks

end Geometry

/-- The fields of a run are in their ranges, and its blocks are the volume's. -/
structure Run.On (g : Geometry) (r : Run) : Prop where
  fits : r.Fits
  pos : 0 < r.length
  group : r.allocationGroup < g.numAgs
  inside : r.start + r.length ≤ 2 ^ g.agShift
  volume : g.toBlock r + r.length ≤ g.numBlocks

theorem Run.On.solid {g : Geometry} {r : Run} (h : r.On g) : runIsZero r = false := by
  have := h.pos
  simp only [runIsZero, Bool.and_eq_false_iff, beq_eq_false_iff_ne]
  exact Or.inr (by omega)

theorem Run.On.lt {g : Geometry} {r : Run} (h : r.On g) {b : ℕ} (hb : b ∈ g.runBlocks r) :
    b < g.numBlocks := by
  have := h.volume
  have := (Geometry.mem_runBlocks.mp hb).2
  omega

theorem Run.On.toBlock {g : Geometry} {r : Run} (h : r.On g) :
    g.toBlock r = r.allocationGroup * 2 ^ g.agShift + r.start := by
  have := h.pos
  have := h.inside
  exact toBlock_eq g (by omega)

/-- The bitmap marks the superblock and the bitmap itself. -/
structure Sane (g : Geometry) (w : World) : Prop where
  ok : BlocksOk w
  geometry : w.vol.toGeometry = g
  bitmap : ∀ b ≤ g.numAgs, w.inUse b = true

section
variable {g : Geometry} {w s : World} {block b : ℕ} {img : Buf} {r : Run}

theorem inUse_of_read (hg : g.Single) (hw : w.vol.toGeometry = g) (hs : s.vol.toGeometry = g)
    (h : ∀ b, 0 < b → b ≤ g.numAgs → ∀ i < g.blockSize, readBlock s b i = readBlock w b i)
    (hb : b < g.numBlocks) : s.inUse b = w.inUse b := by
  have hpos : 0 < g.bitsPerBlock := by rw [hg.bits]; exact Nat.two_pow_pos _
  have hlt : b / g.bitsPerBlock < g.numAgs := by
    refine Nat.div_lt_of_lt_mul ?_
    rw [hg.bits, Nat.mul_comm]
    exact hb.trans_le hg.span
  have hmod := Nat.mod_lt b hpos
  unfold World.inUse
  rw [hs, hw]
  refine bitSet_congr (h _ (Nat.add_pos_left one_pos _) (by omega) _ ?_)
  rw [Geometry.bitsPerBlock] at hmod ⊢
  omega

/-! ## Writing a block -/

theorem writeBlockNow_eq_some {u : Unit} (h : writeBlockNow block img w = (some u, s)) :
    s = { w with dev := w.dev.wrote (block * w.vol.blockBytes) img w.vol.blockBytes } := by
  rw [writeBlockNow, get_bind_run] at h
  obtain ⟨-, h⟩ := check_bind_eq_some h
  dsimp only [devWrite] at h
  split at h
  · cases h
  · cases h; rfl

theorem writeBlock_peek {u : Unit} (h : writeBlock block img w = (some u, s)) (hb : b ≠ block) :
    s.jnl.peek b = w.jnl.peek b := by
  rw [writeBlock, get_bind_run] at h
  split at h
  · rcases log_cases w block img with ⟨he, -⟩ | ⟨es, he, -, hes⟩
    · rw [he] at h; cases h
    · rw [he] at h
      cases h
      have hlook : es.lookup b = w.jnl.entries.lookup b := by
        rcases hes with ⟨rfl, hm⟩ | ⟨rfl, hm, -⟩
        · rw [lookup_setEntry hm, if_neg hb]
        · rw [lookup_snoc hm, if_neg hb]
      exact hlook
  · rw [writeBlockNow_eq_some h]

theorem writeBlock_wrote {u : Unit} (hw : BlocksOk w) (h : writeBlock block img w = (some u, s)) :
    Wrote w block img s := by
  have hp := writeBlock_post hw block img
  rw [h] at hp
  exact hp

theorem writeBlockNow_some {u : Unit} (hw : BlocksOk w) (h : writeBlockNow block img w = (some u, s)) :
    s.vol = w.vol ∧ s.jnl = w.jnl ∧ BlocksOk s ∧ ∀ b, ∀ i < w.vol.blockSize,
      readBlock s b i = if b = block ∧ w.jnl.peek b = none then img i else readBlock w b i := by
  have hbytes : w.vol.blockBytes = w.vol.blockSize := Geometry.blockBytes_eq hw.shift
  rw [writeBlockNow_eq_some h]
  refine ⟨rfl, rfl, ⟨hw.writable, hw.shift, hw.idle⟩, fun b i hi => ?_⟩
  rcases hp : w.jnl.peek b with _ | buffered
  · simp only [readBlock, hp, Option.getD_none, readBlockNow, slice_apply, hbytes, and_true, Device.wrote]
    rw [blit_block_at hi]
  · simp only [readBlock, hp, Option.getD_some, reduceCtorEq, and_false, if_false]

/-! ## Allocating and freeing -/

/-- A call of the allocator kept the blocks past the bitmap. -/
structure Beyond (g : Geometry) (w s : World) : Prop where
  ok : BlocksOk s
  geometry : s.vol.toGeometry = g
  read : ∀ b, g.numAgs < b → ∀ i < g.blockSize, readBlock s b i = readBlock w b i
  peek : ∀ b, g.numAgs < b → s.jnl.peek b = w.jnl.peek b

theorem Beyond.refl (hw : BlocksOk w) (hg : w.vol.toGeometry = g) : Beyond g w w :=
  ⟨hw, hg, fun _ _ _ _ => rfl, fun _ _ => rfl⟩

theorem Beyond.trans {w' : World} (h : Beyond g w w') (h' : Beyond g w' s) : Beyond g w s :=
  ⟨h'.ok, h'.geometry, fun b hb i hi => (h'.read b hb i hi).trans (h.read b hb i hi),
    fun b hb => (h'.peek b hb).trans (h.peek b hb)⟩

theorem Beyond.of_eq (hw : BlocksOk w) (hg : w.vol.toGeometry = g) (hv : s.vol.toGeometry = w.vol.toGeometry)
    (hwr : s.vol.writable = w.vol.writable) (hj : s.jnl = w.jnl) (hd : s.dev.disk = w.dev.disk) : Beyond g w s := by
  refine ⟨⟨hwr ▸ hw.writable, ?_, hj ▸ hw.idle⟩, hv.trans hg, fun b _ i _ => ?_, fun b _ => by rw [hj]⟩
  · rw [hv]; exact hw.shift
  · simp only [readBlock, readBlockNow, hj, hd, hv]

theorem Beyond.of_write {u : Unit} (hw : BlocksOk w) (hg : w.vol.toGeometry = g) (hb : block ≤ g.numAgs)
    (h : writeBlock block img w = (some u, s)) : Beyond g w s := by
  have hs := writeBlock_wrote hw h
  refine ⟨hs.ok, by rw [hs.vol]; exact hg, fun b hlt i hi => ?_, fun b hlt => writeBlock_peek h (by omega)⟩
  rw [hs.read b i (by rw [hg]; exact hi), if_neg (by omega)]

theorem Beyond.of_flush (hw : BlocksOk w) (hg : w.vol.toGeometry = g) :
    ∃ s, flushSuperblock.ignore w = (some (), s) ∧ Beyond g w s := by
  obtain ⟨s, hs, hvol, -, hjnl, -, hread⟩ := flushSuperblock_ignore hw
  refine ⟨s, hs, ⟨?_, ?_, ?_⟩, by rw [hvol]; exact hg, fun b hb i _ => hread b (by omega) i, fun b _ => by rw [hjnl]⟩
  · rw [hvol]; exact hw.writable
  · rw [hvol]; exact hw.shift
  · rw [hjnl]; exact hw.idle

theorem Beyond.of_bitmap {used : Volume → ℕ} {a r : Option Run} (hw : BlocksOk w) (hg : w.vol.toGeometry = g)
    (hb : block ≤ g.numAgs)
    (h : (do
      writeBlock block img
      modifyVol fun v => v.setUsedBlocks (used v)
      flushSuperblock.ignore
      pure a : M (Option Run)) w = (some r, s)) : Beyond g w s := by
  obtain ⟨u, w₁, h₁, h⟩ := bind_eq_some h
  have hb₁ := Beyond.of_write hw hg hb h₁
  rw [modifyVol, modify_bind_run] at h
  have hb₂ := hb₁.trans (Beyond.of_eq (s := { w₁ with vol := w₁.vol.setUsedBlocks (used w₁.vol) })
    hb₁.ok hb₁.geometry rfl rfl rfl rfl)
  obtain ⟨w₃, h₃, hb₃⟩ := Beyond.of_flush hb₂.ok hb₂.geometry
  rw [bind_of_some h₃] at h
  cases h
  exact hb₂.trans hb₃

theorem allocateIn_beyond {bits maxBlocks minBlocks group : ℕ} {run : Option Run} (hg : g.Single)
    (hw : BlocksOk w) (hgeo : w.vol.toGeometry = g) (hgroup : group < g.numAgs)
    (h : allocateIn group bits maxBlocks minBlocks w.vol.blocksPerAg 0 w = (some run, s)) : Beyond g w s := by
  have hone : w.vol.blocksPerAg = 0 + 1 := by rw [hgeo]; exact hg.one
  have hblock : w.vol.bitmapBlock group 0 ≤ g.numAgs := by
    rw [Geometry.bitmapBlock, hone, Nat.zero_add, Nat.mul_one, Nat.add_zero]
    omega
  have hread : ∀ bitmap, Beyond g w (w.withBitmap bitmap) := fun _ => .of_eq hw hgeo rfl rfl rfl rfl
  rw [hone] at h
  by_cases hnb : w.vol.numBlocks ≤ w.vol.bitmapBlock group 0
  · rw [allocateIn, get_bind_run, if_pos hnb] at h; cases h
  rcases hscan : scanBits (bitmapRead w (w.vol.bitmapBlock group 0)) w.vol.bitsPerBlock bits 0
      maxBlocks minBlocks w.vol.bitsPerBlock 0 with _ | ⟨first, length⟩
  · rw [allocateIn_none hnb hscan] at h
    cases h
    exact hread _
  · rw [allocateIn_some hnb hscan] at h
    exact (hread _).trans (.of_bitmap (hread _).ok (hread _).geometry hblock h)

theorem allocateFrom_beyond {maxBlocks minBlocks left group : ℕ} (hg : g.Single) (hw : BlocksOk w)
    (hgeo : w.vol.toGeometry = g) (hgroup : group + left ≤ g.numAgs)
    (h : allocateFrom maxBlocks minBlocks left group w = (some r, s)) : Beyond g w s := by
  induction left generalizing group w with
  | zero => cases h
  | succ left ih =>
    rw [allocateFrom, get_bind_run] at h
    split at h
    · cases h
    · obtain ⟨run, w₁, h₁, h⟩ := bind_eq_some h
      have hb := allocateIn_beyond hg hw hgeo (by omega) h₁
      cases run with
      | some run => cases h; exact hb
      | none => exact hb.trans (ih hb.ok hb.geometry (by omega) h)

/-- What an allocation gave: a run that was free, and is marked now. -/
structure Granted (g : Geometry) (w s : World) (maxBlocks minBlocks : ℕ) (r : Run) : Prop where
  on : r.On g
  least : min minBlocks maxBlocks ≤ r.length
  most : r.length ≤ maxBlocks
  free : ∀ b ∈ g.runBlocks r, w.inUse b = false
  inUse : ∀ b, s.inUse b = (decide (b ∈ g.runBlocks r) || w.inUse b)
  beyond : Beyond g w s

theorem allocate_granted {maxBlocks minBlocks : ℕ} (hg : g.Single) (hw : BlocksOk w)
    (hgeo : w.vol.toGeometry = g) (hcap : maxBlocks ≤ kMaxRun)
    (h : Allocator.allocate maxBlocks minBlocks w = (some r, s)) : Granted g w s maxBlocks minBlocks r := by
  have hp := allocate_capped (w := w) (by rw [hgeo]; exact hg.bits) (by rw [hgeo]; exact hg.one)
    (by rw [hgeo]; exact hg.shift) hw maxBlocks minBlocks
  rw [h, Nat.min_eq_left hcap] at hp
  have hr : Allocated w s maxBlocks (min minBlocks maxBlocks) r := hp
  have hpos : 0 < r.length := allocate_length_pos h hr
  obtain ⟨h₁, h₂, h₃⟩ := hr.bounds hgeo hpos
  have hspan : 2 ^ g.agShift ≤ 2 ^ 16 := Nat.pow_le_pow_right (by norm_num) hg.shift
  have hmost := hr.most
  have hgroups := hg.groups
  rw [kMaxRun] at hcap
  have hbeyond : Beyond g w s := by
    unfold Allocator.allocate at h
    split at h
    · cases h
    · rw [get_bind_run] at h
      exact allocateFrom_beyond hg hw hgeo (by rw [hgeo]; omega) h
  refine ⟨⟨⟨by omega, by omega, by omega⟩, hpos, h₁, h₂, h₃⟩, hr.least, hmost, fun b hb => ?_, fun b => ?_, hbeyond⟩
  · rw [Geometry.mem_runBlocks, ← hgeo] at hb
    exact hr.took.free b hb.1 hb.2
  · rw [hr.took.inUse b, hgeo]
    congr 1
    exact decide_eq_decide.mpr Geometry.mem_runBlocks.symm

theorem Beyond.of_write_any {o : Option Unit} (hw : BlocksOk w) (hg : w.vol.toGeometry = g) (hb : block ≤ g.numAgs)
    (h : writeBlock block img w = (o, s)) : Beyond g w s := by
  rcases o with _ | u
  · have hp := writeBlock_post hw block img
    rw [h] at hp
    rcases hp with ⟨rfl, -⟩ | ⟨rfl, -⟩
    · exact .refl hw hg
    · exact .of_eq hw hg rfl rfl rfl rfl
  · exact .of_write hw hg hb h

theorem freeBits_beyond {left k : ℕ} {o : Option Unit} (hg : g.Single) (hw : BlocksOk w) (hgeo : w.vol.toGeometry = g)
    (hr : r.On g) (hk : k + left = r.length) (h : freeBits r left k w = (o, s)) : Beyond g w s := by
  induction left generalizing k w with
  | zero => cases h; exact .refl hw hgeo
  | succ left ih =>
    have hin := hr.inside
    have hgroup := hr.group
    have hidx : (r.start + k) / w.vol.bitsPerBlock = 0 := by
      rw [hgeo, hg.bits]
      exact Nat.div_eq_of_lt (by omega)
    have hblock : w.vol.bitmapBlock r.allocationGroup 0 ≤ g.numAgs := by
      rw [Geometry.bitmapBlock, hgeo, hg.one, Nat.mul_one, Nat.add_zero]
      omega
    rw [freeBits, get_bind_run] at h
    dsimp only at h
    rw [hidx] at h
    split at h
    · cases h; exact .refl hw hgeo
    · rw [modifyAlloc, modify_bind_run] at h
      have hread : ∀ a : Allocator, Beyond g w { w with alloc := a } := fun _ => .of_eq hw hgeo rfl rfl rfl rfl
      rcases bind_cases h with ⟨h₁, rfl⟩ | ⟨u', w₁, h₁, h⟩
      · exact (hread _).trans (.of_write_any (hread _).ok (hread _).geometry hblock h₁)
      · have hb := (hread _).trans (.of_write_any (hread _).ok (hread _).geometry hblock h₁)
        exact hb.trans (ih hb.ok hb.geometry (by omega) h)

theorem free_beyond {o : Option Unit} (hg : g.Single) (hw : BlocksOk w) (hgeo : w.vol.toGeometry = g) (hr : r.On g)
    (h : Allocator.free r w = (o, s)) : Beyond g w s := by
  unfold Allocator.free at h
  split at h
  · cases h; exact .refl hw hgeo
  · rcases bind_cases h with ⟨h₁, rfl⟩ | ⟨u', w₁, h₁, h⟩
    · exact freeBits_beyond hg hw hgeo hr (Nat.zero_add _) h₁
    · have hb₁ := freeBits_beyond hg hw hgeo hr (Nat.zero_add _) h₁
      rw [modifyVol, modify_bind_run] at h
      have hb₂ := hb₁.trans (Beyond.of_eq (s := { w₁ with vol := w₁.vol.setUsedBlocks (if r.length ≤ w₁.vol.usedBlocks then
        w₁.vol.usedBlocks - r.length else 0) })
        hb₁.ok hb₁.geometry rfl rfl rfl rfl)
      obtain ⟨w₃, h₃, hb₃⟩ := Beyond.of_flush hb₂.ok hb₂.geometry
      obtain ⟨w₄, h₄, hvol, hjnl, -, hdisk⟩ := queueDiscard_run r w₃
      rw [bind_of_some h₃, h₄] at h
      cases h
      exact (hb₂.trans hb₃).trans (.of_eq (hb₂.trans hb₃).ok (hb₂.trans hb₃).geometry (by rw [hvol]) (by rw [hvol]) hjnl hdisk)

/-- What a free did: the blocks of the run are unmarked, and no others. -/
structure Released (g : Geometry) (w s : World) (r : Run) : Prop where
  inUse : ∀ b, s.inUse b = (!decide (b ∈ g.runBlocks r) && w.inUse b)
  beyond : Beyond g w s

theorem free_released {u : Unit} (hg : g.Single) (hw : BlocksOk w) (hgeo : w.vol.toGeometry = g) (hr : r.On g)
    (h : Allocator.free r w = (some u, s)) : Released g w s r := by
  have hp := free_freed (w := w) (r := r) (by rw [hgeo]; exact hg.bits) (by rw [hgeo]; exact hg.one) hw
    (by rw [hgeo]; exact hr.inside)
  rw [h] at hp
  have hf : Freed w s r := hp
  refine ⟨fun b => ?_, ?_⟩
  · rw [hf.inUse b, hgeo]
    congr 2
    exact decide_eq_decide.mpr Geometry.mem_runBlocks.symm
  · exact free_beyond hg hw hgeo hr h

theorem free_other {o : Option Unit} (hg : g.Single) (hw : BlocksOk w) (hgeo : w.vol.toGeometry = g) (hr : r.On g)
    (h : Allocator.free r w = (o, s)) (hb : b ∉ g.runBlocks r) : s.inUse b = w.inUse b := by
  have hno : ∀ k ≤ r.length, ¬(w.vol.toBlock r ≤ b ∧ b < w.vol.toBlock r + k) := by
    intro k hk hc
    rw [hgeo] at hc
    exact hb (Geometry.mem_runBlocks.mpr ⟨hc.1, by omega⟩)
  have hp := free_freed (w := w) (r := r) (by rw [hgeo]; exact hg.bits) (by rw [hgeo]; exact hg.one) hw
    (by rw [hgeo]; exact hr.inside)
  rw [h] at hp
  rcases o with _ | u
  · obtain ⟨⟨k, hk, hc⟩, -⟩ := hp
    rw [hc.inUse, decide_eq_false (hno k hk)]; rfl
  · have hf : Freed w s r := hp
    rw [hf.inUse, decide_eq_false (hno _ (Nat.le_refl _))]; rfl

end

/-! ## The writer's calls -/

def Writer.frees (s : Writer Session) : List Run := freedRuns s.store.issued

theorem freedRuns_append (l l' : List Issued) : freedRuns (l ++ l') = freedRuns l ++ freedRuns l' :=
  List.filterMap_append

/-- No block in use was freed, and none past the bitmap was written but those `written`. -/
structure Steps (g : Geometry) (written : ℕ → Prop) (s s' : Writer Session) : Prop where
  sane : Sane g s'.world
  used : ∀ b < g.numBlocks, s.world.inUse b = true → s'.world.inUse b = true
  read : ∀ b < g.numBlocks, g.numAgs < b → s.world.inUse b = true → ¬written b → ∀ i < g.blockSize,
    readBlock s'.world b i = readBlock s.world b i
  peek : ∀ b < g.numBlocks, g.numAgs < b → s.world.inUse b = true → ¬written b →
    s'.world.jnl.peek b = s.world.jnl.peek b
  frees : s'.frees = s.frees

section
variable {g : Geometry} {s s' s'' : Writer Session} {written written' : ℕ → Prop}

theorem Steps.refl (hs : Sane g s.world) : Steps g written s s :=
  ⟨hs, fun _ _ h => h, fun _ _ _ _ _ _ _ => rfl, fun _ _ _ _ _ => rfl, rfl⟩

theorem Steps.trans (h : Steps g written s s') (h' : Steps g written' s' s'')
    (hw : ∀ b, s.world.inUse b = true → written' b → written b) : Steps g written s s'' where
  sane := h'.sane
  used b hb hu := h'.used b hb (h.used b hb hu)
  read b hb ha hu hn i hi := (h'.read b hb ha (h.used b hb hu) (fun hc => hn (hw b hu hc)) i hi).trans
    (h.read b hb ha hu hn i hi)
  peek b hb ha hu hn := (h'.peek b hb ha (h.used b hb hu) fun hc => hn (hw b hu hc)).trans (h.peek b hb ha hu hn)
  frees := h'.frees.trans h.frees

theorem Steps.mono (h : Steps g written s s') (hw : ∀ b, s.world.inUse b = true → written b → written' b) :
    Steps g written' s s' where
  sane := h.sane
  used := h.used
  read b hb ha hu hn := h.read b hb ha hu fun hc => hn (hw b hu hc)
  peek b hb ha hu hn := h.peek b hb ha hu fun hc => hn (hw b hu hc)
  frees := h.frees

theorem Steps.of_store (hs : Sane g s.world) (h : s'.store = s.store) : Steps g written s s' := by
  have hw : s'.world = s.world := by unfold Writer.world; rw [h]
  refine ⟨hw ▸ hs, fun b _ hu => by rw [hw]; exact hu, fun b _ _ _ _ i _ => by rw [hw],
    fun b _ _ _ _ => by rw [hw], by unfold Writer.frees; rw [h]⟩

theorem Steps.buffers (h : Steps g written s s') (he : s''.store = s'.store) : Steps g written s s'' :=
  h.trans (.of_store h.sane he) fun _ _ hw => hw

theorem Steps.of_start {s₀ : Writer Session} (h : Steps g written s s') (he : s₀.store = s.store) :
    Steps g written s₀ s' := by
  have hw : s₀.world = s.world := by unfold Writer.world; rw [he]
  have hf : s₀.frees = s.frees := by unfold Writer.frees; rw [he]
  refine ⟨h.sane, ?_, ?_, ?_, h.frees.trans hf.symm⟩
  · rw [hw]; exact h.used
  · rw [hw]; exact h.read
  · rw [hw]; exact h.peek

end

namespace Writer

variable {g : Geometry} {s s' : Writer Session} {r : Run} {block : ℕ} {img : Buf} {u : Unit}

theorem onStore_eq_some {α : Type} {m : Fallible Session α} {a : α} (h : onStore m s = (some a, s')) :
    m s.store = (some a, s'.store) ∧ s' = { s with store := s'.store } := by
  unfold onStore at h
  have h₁ := congrArg Prod.fst h
  have h₂ : _ = s' := congrArg Prod.snd h
  subst h₂
  exact ⟨Prod.ext h₁ rfl, rfl⟩

theorem issue_eq_some {c : Command} {a : Option Run} {t t' : Session} (h : Session.issue c t = (some a, t')) :
    c.call t.world = (some a, t'.world) ∧ t'.issued = t.issued ++ [⟨c, some a⟩] := by
  unfold Session.issue at h
  have h₁ : (c.call t.world).1 = some a := congrArg Prod.fst h
  have h₂ : _ = t' := congrArg Prod.snd h
  subst h₂
  exact ⟨Prod.ext h₁ rfl, by simp only [h₁]⟩

theorem buffers_eq_some {f : Writer Session → Writer Session} (h : buffers f s = (some u, s')) :
    s' = { f s with store := s.store } := by
  cases h; rfl

theorem allocate_some {maxBlocks minBlocks : ℕ} (h : allocate maxBlocks minBlocks s = (some r, s'))
    (hg : g.Single) (hs : Sane g s.world) (hcap : maxBlocks ≤ kMaxRun) :
    s' = { s with store := s'.store } ∧ Granted g s.world s'.world maxBlocks minBlocks r ∧ s'.frees = s.frees := by
  unfold allocate at h
  obtain ⟨a, s₁, h₁, h⟩ := bind_eq_some h
  obtain ⟨hi, hb⟩ := onStore_eq_some h₁
  obtain ⟨hc, hl⟩ := issue_eq_some hi
  cases a with
  | none => cases h
  | some run =>
    cases h
    obtain ⟨run', w₁, h₂, h₃⟩ := bind_eq_some hc
    cases h₃
    refine ⟨hb, allocate_granted hg hs.ok hs.geometry hcap h₂, ?_⟩
    unfold frees
    rw [hl, freedRuns_append]
    exact List.append_nil _

theorem writeBlock_some (h : writeBlock block img s = (some u, s')) (hs : BlocksOk s.world) :
    s' = { s with store := s'.store } ∧ Wrote s.world block img s'.world ∧
      (∀ b ≠ block, s'.world.jnl.peek b = s.world.jnl.peek b) ∧ s'.frees = s.frees := by
  unfold writeBlock at h
  obtain ⟨hi, hb⟩ := onStore_eq_some h
  unfold Session.writeBlock at hi
  obtain ⟨a, t₁, h₁, h₂⟩ := bind_eq_some hi
  cases h₂
  obtain ⟨hc, hl⟩ := issue_eq_some h₁
  obtain ⟨u', w₁, h₃, h₄⟩ := bind_eq_some hc
  cases h₄
  refine ⟨hb, writeBlock_wrote hs h₃, fun b hne => writeBlock_peek h₃ hne, ?_⟩
  unfold frees
  rw [hl, freedRuns_append]
  exact List.append_nil _

theorem zeroBlock_some (h : zeroBlock block s = (some u, s')) :
    s' = { s with store := s'.store } ∧ writeBlockNow block zero s.world = (some u, s'.world) ∧
      s'.frees = s.frees := by
  unfold zeroBlock at h
  obtain ⟨a, s₁, h₁, h⟩ := bind_eq_some h
  cases h
  obtain ⟨hi, hb⟩ := onStore_eq_some h₁
  obtain ⟨hc, hl⟩ := issue_eq_some hi
  obtain ⟨u', w₁, h₃, h₄⟩ := bind_eq_some hc
  cases h₄
  refine ⟨hb, h₃, ?_⟩
  unfold frees
  rw [hl, freedRuns_append]
  exact List.append_nil _

theorem free_some (h : free r s = (some u, s')) (hg : g.Single) (hs : Sane g s.world) (hr : r.On g) :
    s' = { s with store := s'.store } ∧ Released g s.world s'.world r ∧ s'.frees = s.frees ++ [r] := by
  unfold free at h
  obtain ⟨a, s₁, h₁, h⟩ := bind_eq_some h
  cases h
  obtain ⟨hi, hb⟩ := onStore_eq_some h₁
  obtain ⟨hc, hl⟩ := issue_eq_some hi
  obtain ⟨u', w₁, h₃, h₄⟩ := bind_eq_some hc
  cases h₄
  refine ⟨hb, free_released hg hs.ok hs.geometry hr h₃, ?_⟩
  unfold frees
  rw [hl, freedRuns_append]
  rfl

end Writer

/-! ## Growing calls as steps -/

section
variable {g : Geometry} {w w' : World} {s s' : Writer Session} {r : Run} {block b maxBlocks minBlocks : ℕ}
  {img : Buf} {written : ℕ → Prop}

theorem Granted.above (h : Granted g w w' maxBlocks minBlocks r) (hw : Sane g w) (hb : b ∈ g.runBlocks r) :
    g.numAgs < b := by
  by_contra hc
  have := h.free b hb
  rw [hw.bitmap b (by omega)] at this
  cases this

theorem Granted.sane (h : Granted g w w' maxBlocks minBlocks r) (hw : Sane g w) : Sane g w' :=
  ⟨h.beyond.ok, h.beyond.geometry, fun b hb => by rw [h.inUse b, hw.bitmap b hb, Bool.or_true]⟩

theorem Granted.marked (h : Granted g w w' maxBlocks minBlocks r) (hb : b ∈ g.runBlocks r) : w'.inUse b = true := by
  rw [h.inUse b, decide_eq_true hb, Bool.true_or]

theorem Granted.steps (h : Granted g s.world s'.world maxBlocks minBlocks r) (hs : Sane g s.world)
    (hf : s'.frees = s.frees) : Steps g written s s' where
  sane := h.sane hs
  used b _ hu := by rw [h.inUse b, hu, Bool.or_true]
  read b _ ha _ _ := h.beyond.read b ha
  peek b _ ha _ _ := h.beyond.peek b ha
  frees := hf

theorem Wrote.inUse_eq (h : Wrote w block img w') (hg : g.Single) (hw : Sane g w) (hb : g.numAgs < block)
    {c : ℕ} (hc : c < g.numBlocks) : w'.inUse c = w.inUse c := by
  refine inUse_of_read hg hw.geometry (by rw [h.vol]; exact hw.geometry) (fun b _ hle i hi => ?_) hc
  rw [h.read b i (by rw [hw.geometry]; exact hi), if_neg (by omega)]

theorem Wrote.sane (h : Wrote w block img w') (hg : g.Single) (hw : Sane g w)
    (hb : g.numAgs < block) : Sane g w' :=
  ⟨h.ok, by rw [h.vol]; exact hw.geometry, fun c hc => by
    rw [h.inUse_eq hg hw hb (hc.trans_lt hg.room)]; exact hw.bitmap c hc⟩

theorem Wrote.read_eq (h : Wrote w block img w') (hw : Sane g w) {i : ℕ} (hi : i < g.blockSize) (b : ℕ) :
    readBlock w' b i = if b = block then img i else readBlock w b i :=
  h.read b i (by rw [hw.geometry]; exact hi)

theorem Wrote.steps (h : Wrote s.world block img s'.world) (hg : g.Single)
    (hs : Sane g s.world) (hb : g.numAgs < block)
    (hp : ∀ b ≠ block, s'.world.jnl.peek b = s.world.jnl.peek b) (hf : s'.frees = s.frees) :
    Steps g (· = block) s s' where
  sane := h.sane hg hs hb
  used b hlt hu := by rw [h.inUse_eq hg hs hb hlt]; exact hu
  read b _ _ _ hne i hi := by rw [h.read_eq hs hi b, if_neg hne]
  peek b _ _ _ hne := hp b hne
  frees := hf

/-- The blocks of an array are zeros, and no others were written. -/
structure Zeroed (g : Geometry) (array : Run) (s s' : Writer Session) : Prop where
  steps : Steps g (· ∈ g.runBlocks array) s s'
  inUse : ∀ b < g.numBlocks, s'.world.inUse b = s.world.inUse b
  read : ∀ b, ∀ i < g.blockSize, readBlock s'.world b i =
    if b ∈ g.runBlocks array then 0 else readBlock s.world b i

theorem Writer.zeroArray_some {u : Unit} (h : zeroArray r s = (some u, s')) (hg : g.Single) (hs : Sane g s.world)
    (ha : ∀ b ∈ g.runBlocks r, g.numAgs < b) :
    s' = { s with store := s'.store } ∧ Zeroed g r s s' := by
  unfold zeroArray at h
  rw [get_bind_run] at h
  have hto : s.toBlock r = g.toBlock r := by rw [Writer.toBlock, hs.geometry]
  rw [hto] at h
  -- after `k` blocks
  have hloop := forRange_eq_some (fun k t => t = { s with store := t.store } ∧
    Steps g (· ∈ g.runBlocks r) s t ∧ (∀ b < g.numBlocks, t.world.inUse b = s.world.inUse b) ∧
    ∀ b, ∀ i < g.blockSize, readBlock t.world b i =
      if g.toBlock r ≤ b ∧ b < g.toBlock r + k then 0 else readBlock s.world b i) ?_ ?_ h
  · obtain ⟨hb, hst, hu, hread⟩ := hloop
    refine ⟨hb, hst, hu, fun b i hi => ?_⟩
    rw [hread b i hi]
    simp only [Geometry.mem_runBlocks]
  · refine ⟨rfl, .refl hs, fun _ _ => rfl, fun b i _ => ?_⟩
    rw [if_neg (by omega)]
  · rintro k hk t t' u' ⟨hb, hst, hu, hread⟩ hx
    have hmem : g.toBlock r + k ∈ g.runBlocks r := Geometry.mem_runBlocks.mpr ⟨by omega, by omega⟩
    obtain ⟨hb', hw, hp, hf⟩ := writeBlock_some (onFail_eq_some hx) hst.sane.ok
    have hst' := hw.steps hg hst.sane (ha _ hmem) hp hf
    refine ⟨?_, hst.trans hst' fun b _ he => he ▸ hmem, fun b hlt => ?_, fun b i hi => ?_⟩
    · rw [hb', hb]
    · rw [hw.inUse_eq hg hst.sane (ha _ hmem) hlt, hu b hlt]
    · rw [hw.read_eq hst.sane hi b, hread b i hi]
      by_cases he : b = g.toBlock r + k
      · subst he
        rw [if_pos rfl, if_pos ⟨by omega, by omega⟩]; rfl
      · rw [if_neg he]
        congr 1
        exact propext (by omega)

end

end Aegir.Bfs
