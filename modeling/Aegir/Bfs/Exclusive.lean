/-
  What the allocator hands out.
-/
import Aegir.Bfs.Bitmap
import Aegir.Mkfs.Format

namespace Aegir.Bfs

open Aegir.Lib Aegir.Lib.Buf Aegir.Lib.Fallible Allocator

/-- The bit of `block` in the bitmap. -/
def World.inUse (w : World) (block : ℕ) : Bool :=
  bitSet (readBlock w (1 + block / w.vol.bitsPerBlock)) (block % w.vol.bitsPerBlock)

/-- The call changed nothing the allocator is about. -/
structure Kept (w s : World) : Prop where
  ok : BlocksOk s
  geometry : s.vol.toGeometry = w.vol.toGeometry
  active : s.jnl.active = w.jnl.active
  refuse : s.dev.refuse = w.dev.refuse
  used : s.vol.usedBlocks = w.vol.usedBlocks
  inUse : ∀ block, s.inUse block = w.inUse block

/-- The call marked the `length` free blocks from `first` on. -/
structure Took (w s : World) (first length : ℕ) : Prop where
  ok : BlocksOk s
  geometry : s.vol.toGeometry = w.vol.toGeometry
  active : s.jnl.active = w.jnl.active
  refuse : s.dev.refuse = w.dev.refuse
  used : s.vol.usedBlocks = (w.vol.usedBlocks + length) % 2 ^ 64
  free : ∀ block, first ≤ block → block < first + length → w.inUse block = false
  inUse : ∀ block, s.inUse block = (decide (first ≤ block ∧ block < first + length) || w.inUse block)

section
variable {w w' s : World} {first length : ℕ}

theorem Kept.refl (h : BlocksOk w) : Kept w w := ⟨h, rfl, rfl, rfl, rfl, fun _ => rfl⟩

theorem Kept.trans (h : Kept w w') (h' : Kept w' s) : Kept w s :=
  ⟨h'.ok, h'.geometry.trans h.geometry, h'.active.trans h.active, h'.refuse.trans h.refuse,
    h'.used.trans h.used, fun b => (h'.inUse b).trans (h.inUse b)⟩

theorem Kept.took (h : Kept w w') (h' : Took w' s first length) : Took w s first length :=
  ⟨h'.ok, h'.geometry.trans h.geometry, h'.active.trans h.active, h'.refuse.trans h.refuse,
    by rw [h'.used, h.used], fun b h₁ h₂ => (h.inUse b).symm.trans (h'.free b h₁ h₂),
    fun b => by rw [h'.inUse b, h.inUse b]⟩

theorem bitSet_blit {buffer img : Buf} {n bit : ℕ} (h : bit < n * 8) :
    bitSet (blit buffer 0 img n) bit = bitSet img bit :=
  bitSet_congr (by rw [blit_of_mem (Nat.zero_le _) (by omega), Nat.sub_zero])

theorem inUse_eq_of_read (hg : s.vol.toGeometry = w.vol.toGeometry)
    (h : ∀ b, 0 < b → ∀ i < w.vol.blockSize, readBlock s b i = readBlock w b i) (block : ℕ) :
    s.inUse block = w.inUse block := by
  have hpos : 0 < w.vol.bitsPerBlock := Nat.mul_pos (Nat.two_pow_pos _) (by norm_num)
  have hlt := Nat.mod_lt block hpos
  unfold World.inUse
  rw [hg]
  refine bitSet_congr (h _ (Nat.add_pos_left one_pos _) _ ?_)
  rw [Geometry.bitsPerBlock] at hlt ⊢
  omega

theorem inUse_of_wrote {bitmapBlock : ℕ} {img : Buf} (hg : s.vol.toGeometry = w.vol.toGeometry)
    (h : ∀ b, 0 < b → ∀ i < w.vol.blockSize,
      readBlock s b i = if b = bitmapBlock then img i else readBlock w b i) (block : ℕ) :
    s.inUse block = if 1 + block / w.vol.bitsPerBlock = bitmapBlock then
      bitSet img (block % w.vol.bitsPerBlock) else w.inUse block := by
  have hpos : 0 < w.vol.bitsPerBlock := Nat.mul_pos (Nat.two_pow_pos _) (by norm_num)
  have hlt : block % w.vol.bitsPerBlock / 8 < w.vol.blockSize := by
    have := Nat.mod_lt block hpos
    rw [Geometry.bitsPerBlock] at this ⊢
    omega
  have hread := h (1 + block / w.vol.bitsPerBlock) (Nat.add_pos_left one_pos _)
    (block % w.vol.bitsPerBlock / 8) hlt
  unfold World.inUse
  rw [hg]
  split_ifs with hb
  · rw [if_pos hb] at hread; exact bitSet_congr hread
  · rw [if_neg hb] at hread; exact bitSet_congr hread

theorem groupBits_le (g : Geometry) (group : ℕ) : g.groupBits group ≤ 2 ^ g.agShift ∧
    (0 < g.groupBits group → group * 2 ^ g.agShift + g.groupBits group ≤ g.numBlocks) := by
  simp only [Geometry.groupBits, Nat.shiftLeft_eq]
  generalize 2 ^ g.agShift = span
  split_ifs <;> omega

/-! ## Allocating -/

theorem markBlock_post {α : Type} (hw : BlocksOk w) (block : ℕ) (img : Buf) (used : Volume → ℕ)
    (a : α) :
    Post (fun r s => r = a ∧ BlocksOk s ∧ s.vol.toGeometry = w.vol.toGeometry ∧
        s.jnl.active = w.jnl.active ∧ s.dev.refuse = w.dev.refuse ∧
        s.vol.usedBlocks = used w.vol ∧ s.alloc = w.alloc ∧
        ∀ b, 0 < b → ∀ i < w.vol.blockSize,
          readBlock s b i = if b = block then img i else readBlock w b i)
      (fun s => Kept w s ∧ (w.jnl.active = true ∨ ∃ n, w.dev.refuse n = true))
      ((do
        writeBlock block img
        modifyVol fun v => v.setUsedBlocks (used v)
        flushSuperblock.ignore
        pure a : M α) w) := by
  refine Post.bind ((writeBlock_post hw block img).mono (fun _ _ h => h) ?_) fun _ s hs => ?_
  · rintro s (⟨rfl, ha, -⟩ | ⟨rfl, hr⟩)
    · exact ⟨Kept.refl hw, Or.inl ha⟩
    · exact ⟨⟨⟨hw.writable, hw.shift, hw.idle⟩, rfl, rfl, rfl, rfl, fun _ => rfl⟩,
        Or.inr ⟨_, hr⟩⟩
  · have hok : BlocksOk { s with vol := s.vol.setUsedBlocks (used s.vol) } :=
      ⟨hs.ok.writable, hs.ok.shift, hs.ok.idle⟩
    obtain ⟨s', hf, hvol, halloc, hjnl, hrefuse, hread⟩ := flushSuperblock_ignore hok
    rw [modifyVol, modify_bind_run, bind_of_some hf]
    refine ⟨rfl, ⟨?_, ?_, ?_⟩, ?_, ?_, ?_, ?_, ?_, fun b hb i hi => ?_⟩
    · rw [hvol]; exact hs.ok.writable
    · rw [hvol]; exact hs.ok.shift
    · rw [hjnl]; exact hs.ok.idle
    · rw [hvol]
      change s.vol.toGeometry = _
      rw [hs.vol]
    · rw [hjnl]; exact hs.active
    · rw [hrefuse]; exact hs.refuse
    · rw [hvol, hs.vol]; rfl
    · rw [halloc]; exact hs.alloc
    · rw [hread b hb i]; exact hs.read b i hi

/-- What a successful `allocate` did. -/
structure Allocated (w s : World) (maxBlocks minBlocks : ℕ) (r : Run) : Prop where
  group : r.allocationGroup < w.vol.numAgs
  inside : r.start + r.length ≤ w.vol.groupBits r.allocationGroup
  least : minBlocks ≤ r.length
  most : r.length ≤ maxBlocks
  took : Took w s (w.vol.toBlock r) r.length

/-- The world with `bitmap` in the allocator's buffer. -/
def World.withBitmap (w : World) (bitmap : Buf) : World :=
  { w with alloc := { w.alloc with bitmap := bitmap } }

def bitmapRead (w : World) (block : ℕ) : Buf :=
  blit w.alloc.bitmap 0 (readBlock w block) w.vol.blockSize

section
variable {maxBlocks minBlocks group bits left index : ℕ}

theorem allocateIn_none (hnb : ¬ w.vol.numBlocks ≤ w.vol.bitmapBlock group index)
    (hscan : scanBits (bitmapRead w (w.vol.bitmapBlock group index)) w.vol.bitsPerBlock bits index
      maxBlocks minBlocks w.vol.bitsPerBlock 0 = none) :
    allocateIn group bits maxBlocks minBlocks (left + 1) index w =
      allocateIn group bits maxBlocks minBlocks left (index + 1)
        (w.withBitmap (bitmapRead w (w.vol.bitmapBlock group index))) := by
  unfold bitmapRead at *
  rw [allocateIn, get_bind_run, if_neg hnb]
  simp only [modifyAlloc, modify_bind_run, hscan, World.withBitmap]

theorem allocateIn_some (hnb : ¬ w.vol.numBlocks ≤ w.vol.bitmapBlock group index)
    (hscan : scanBits (bitmapRead w (w.vol.bitmapBlock group index)) w.vol.bitsPerBlock bits index
      maxBlocks minBlocks w.vol.bitsPerBlock 0 = some (first, length)) :
    allocateIn group bits maxBlocks minBlocks (left + 1) index w = (do
      writeBlock (w.vol.bitmapBlock group index)
        (setBits (bitmapRead w (w.vol.bitmapBlock group index)) first length)
      modifyVol fun v => v.setUsedBlocks ((v.usedBlocks + length) % 2 ^ 64)
      flushSuperblock.ignore
      pure (some ⟨group, first % 2 ^ 16, length % 2 ^ 16⟩) : M (Option Run))
        (w.withBitmap (setBits (bitmapRead w (w.vol.bitmapBlock group index)) first length)) := by
  unfold bitmapRead at *
  rw [allocateIn, get_bind_run, if_neg hnb]
  simp only [modifyAlloc, modify_bind_run, hscan, World.withBitmap]

end

section
variable {maxBlocks minBlocks group : ℕ} (hone : w.vol.bitsPerBlock = 2 ^ w.vol.agShift)
  (hbp : w.vol.blocksPerAg = 1) (hag : w.vol.agShift ≤ 16)
include hone hbp hag

theorem allocateIn_post (hw : BlocksOk w) (hmax : 1 ≤ maxBlocks) (hcap : maxBlocks ≤ kMaxRun)
    (hgroup : group < w.vol.numAgs) :
    Post (fun r s => match r with
        | none => Kept w s
        | some run => Allocated w s maxBlocks minBlocks run) (Kept w)
      (allocateIn group (w.vol.groupBits group) maxBlocks minBlocks w.vol.blocksPerAg 0 w) := by
  have hblock : w.vol.bitmapBlock group 0 = 1 + group := by
    rw [Geometry.bitmapBlock, hbp, Nat.mul_one, Nat.add_zero]
  have hpos : 0 < w.vol.bitsPerBlock := by rw [hone]; exact Nat.two_pow_pos _
  obtain ⟨hbits, hvol⟩ := groupBits_le w.vol.toGeometry group
  rw [hbp]
  by_cases hnb : w.vol.numBlocks ≤ w.vol.bitmapBlock group 0
  · rw [allocateIn, get_bind_run, if_pos hnb]; exact Kept.refl hw
  set bitmap := bitmapRead w (1 + group) with hbitmap
  have hbit : ∀ k < w.vol.bitsPerBlock, bitSet bitmap k = w.inUse (group * 2 ^ w.vol.agShift + k) := by
    intro k hk
    have hdiv : (group * 2 ^ w.vol.agShift + k) / w.vol.bitsPerBlock = group := by
      rw [← hone, Nat.mul_comm, Nat.mul_add_div hpos, Nat.div_eq_of_lt hk, Nat.add_zero]
    have hmod : (group * 2 ^ w.vol.agShift + k) % w.vol.bitsPerBlock = k := by
      rw [← hone, Nat.mul_comm, Nat.mul_add_mod, Nat.mod_eq_of_lt hk]
    rw [World.inUse, hdiv, hmod, hbitmap, bitmapRead]
    exact bitSet_blit hk
  rcases hscan : scanBits bitmap w.vol.bitsPerBlock (w.vol.groupBits group) 0 maxBlocks minBlocks
      w.vol.bitsPerBlock 0 with _ | ⟨first, length⟩
  · rw [allocateIn_none hnb (by rw [hblock]; exact hscan)]
    exact ⟨⟨hw.writable, hw.shift, hw.idle⟩, rfl, rfl, rfl, rfl, fun _ => rfl⟩
  · rw [allocateIn_some hnb (by rw [hblock]; exact hscan), hblock]
    obtain ⟨k, -, hk, hfirst, hlt, hclear, hmin, hlen⟩ := scanBits_some hscan
    rw [Nat.zero_mul, Nat.zero_add] at hfirst
    subst hfirst
    obtain ⟨h₁, h₂, h₃⟩ := @extendRun_spec bitmap w.vol.bitsPerBlock (w.vol.groupBits group) 0 first
      (maxBlocks - 1) 1
    rw [← hlen] at h₁ h₂ h₃
    have hend : first + length ≤ w.vol.groupBits group := by
      by_contra hc
      have := (h₃ (length - 1) (by omega) (by omega)).1
      omega
    have hmost : length ≤ maxBlocks := by omega
    have hspan : 2 ^ w.vol.agShift ≤ 2 ^ 16 := Nat.pow_le_pow_right (by norm_num) hag
    have hrun : (⟨group, first % 2 ^ 16, length % 2 ^ 16⟩ : Run) = ⟨group, first, length⟩ := by
      rw [kMaxRun] at hcap
      rw [Nat.mod_eq_of_lt (by omega), Nat.mod_eq_of_lt (by omega)]
    have hto : w.vol.toBlock ⟨group, first, length⟩ = group * 2 ^ w.vol.agShift + first :=
      toBlock_eq _ (by simp only; omega)
    rw [hrun]
    set w₁ : World := w.withBitmap (setBits bitmap first length)
    have hw₁ : BlocksOk w₁ := ⟨hw.writable, hw.shift, hw.idle⟩
    refine (markBlock_post hw₁ (1 + group) (setBits bitmap first length)
      (fun v => (v.usedBlocks + length) % 2 ^ 64) (some (⟨group, first, length⟩ : Run))).mono ?_ ?_
    · rintro r s ⟨rfl, hok, hgeo, hact, href, hused, -, hread⟩
      have hafter := inUse_of_wrote (w := w) hgeo hread
      refine ⟨hgroup, hend, hmin, hmost, hok, hgeo, hact, href, hused, ?_, ?_⟩
      · rw [hto]
        intro block h₅ h₆
        change block < group * 2 ^ w.vol.agShift + first + length at h₆
        obtain ⟨j, rfl⟩ : ∃ j, block = group * 2 ^ w.vol.agShift + first + j :=
          ⟨block - (group * 2 ^ w.vol.agShift + first), by omega⟩
        rw [Nat.add_assoc, ← hbit _ (by omega)]
        rcases Nat.eq_zero_or_pos j with rfl | hj
        · exact hclear
        · exact (h₃ j hj (by omega)).2.2
      · intro block
        rw [hto, hafter block]
        change (if _ then _ else _) = (decide (group * 2 ^ w.vol.agShift + first ≤ block ∧
          block < group * 2 ^ w.vol.agShift + first + length) || w.inUse block)
        have hdm := Nat.div_add_mod block w.vol.bitsPerBlock
        have hml := Nat.mod_lt block hpos
        by_cases hb : block / w.vol.bitsPerBlock = group
        · -- the bit is one of the block that was written back
          rw [hb, hone, Nat.mul_comm] at hdm
          rw [if_pos (by rw [hb]), bitSet_setBits, hbit _ hml, hone, hdm]
          congr 1
          rw [decide_eq_decide]
          omega
        · have hout : ¬ (group * 2 ^ w.vol.agShift + first ≤ block ∧
              block < group * 2 ^ w.vol.agShift + first + length) := by
            rintro ⟨h₅, h₆⟩
            refine hb (Nat.div_eq_of_lt_le ?_ ?_)
            · rw [hone]; omega
            · rw [hone, Nat.succ_mul]; omega
          rw [if_neg (by omega), decide_eq_false hout, Bool.false_or]
    · rintro s ⟨hs, -⟩
      exact ⟨hs.ok, hs.geometry, hs.active, hs.refuse, hs.used, hs.inUse⟩

omit hone hbp hag in
theorem Kept.allocated {r : Run} (h : Kept w w') (h' : Allocated w' s maxBlocks minBlocks r) :
    Allocated w s maxBlocks minBlocks r where
  group := by rw [← h.geometry]; exact h'.group
  inside := by rw [← h.geometry]; exact h'.inside
  least := h'.least
  most := h'.most
  took := by
    have := h.took h'.took
    rwa [h.geometry] at this

theorem allocateFrom_post (hmax : 1 ≤ maxBlocks) (hcap : maxBlocks ≤ kMaxRun) (left : ℕ) (h : Kept w w')
    (hleft : group + left ≤ w.vol.numAgs) :
    Post (fun r s => Allocated w s maxBlocks minBlocks r) (Kept w)
      (allocateFrom maxBlocks minBlocks left group w') := by
  induction left generalizing group w' with
  | zero => exact h
  | succ left ih =>
    rw [allocateFrom, get_bind_run]
    split_ifs with hbits
    · exact h
    · have hg := h.geometry
      refine Post.bind ((allocateIn_post (w := w') (by rw [hg]; exact hone) (by rw [hg]; exact hbp)
        (by rw [hg]; exact hag) h.ok hmax hcap (by rw [hg]; omega)).mono (fun _ _ hr => hr)
        fun _ hs => h.trans hs) ?_
      intro r s hr
      rcases r with _ | run
      · exact ih (h.trans hr) (by omega)
      · exact h.allocated hr

/-- **Allocation.**  A run that is handed out was free, is marked, and nothing
    else is; a refusal changes no bit.  A run's length field caps what is asked for. -/
theorem allocate_capped (hw : BlocksOk w) (maxBlocks minBlocks : ℕ) :
    Post (fun r s => Allocated w s (min maxBlocks kMaxRun) (min minBlocks (min maxBlocks kMaxRun)) r)
      (Kept w) (allocate maxBlocks minBlocks w) := by
  unfold allocate
  by_cases hz : maxBlocks = 0 ∨ minBlocks = 0
  · rw [if_pos hz]; exact Kept.refl hw
  · rw [if_neg hz]
    simp only [get_bind_run]
    have hmost : (if kMaxRun < maxBlocks then kMaxRun else maxBlocks) = min maxBlocks kMaxRun := by
      split_ifs <;> omega
    have hleast : (if min maxBlocks kMaxRun < minBlocks then min maxBlocks kMaxRun else minBlocks) =
        min minBlocks (min maxBlocks kMaxRun) := by
      split_ifs <;> omega
    have hK : kMaxRun = 65535 := rfl
    rw [hmost, hleast]
    exact allocateFrom_post hone hbp hag (by omega) (Nat.min_le_right _ _) w.vol.numAgs (Kept.refl hw)
      (Nat.zero_add _).le

omit hag in
theorem allocate_post (hag : w.vol.agShift < 16) (hw : BlocksOk w) (maxBlocks minBlocks : ℕ) :
    Post (fun r s => Allocated w s maxBlocks (min minBlocks maxBlocks) r) (Kept w)
      (allocate maxBlocks minBlocks w) := by
  refine (allocate_capped hone hbp hag.le hw maxBlocks minBlocks).mono (fun r s hr => ?_) fun _ hs => hs
  have hK : kMaxRun = 65535 := rfl
  have hspan : 2 ^ w.vol.agShift ≤ 2 ^ 15 := Nat.pow_le_pow_right (by norm_num) (by omega)
  have hlen : r.length ≤ 2 ^ 15 := by
    have h₁ := hr.inside
    have h₂ := (groupBits_le w.vol.toGeometry r.allocationGroup).1
    omega
  have hleast := hr.least
  have hmost := hr.most
  exact ⟨hr.group, hr.inside, by omega, by omega, hr.took⟩

/-! ## Freeing -/

/-- The call cleared the `length` blocks from `first` on. -/
structure Cleared (w s : World) (first length : ℕ) : Prop where
  ok : BlocksOk s
  geometry : s.vol.toGeometry = w.vol.toGeometry
  active : s.jnl.active = w.jnl.active
  refuse : s.dev.refuse = w.dev.refuse
  used : s.vol.usedBlocks = w.vol.usedBlocks
  inUse : ∀ block, s.inUse block =
    (!decide (first ≤ block ∧ block < first + length) && w.inUse block)

omit hag in
/-- The bits of a run, one after the other; after the first the bitmap block is
    in the journal, so no later one is refused.  A refusal leaves the first bits cleared. -/
theorem freeBits_post {r : Run} (hin : r.start + r.length ≤ 2 ^ w.vol.agShift) (left : ℕ) {k : ℕ} (hk : k + left = r.length)
    (h : Cleared w s (w.vol.toBlock r) k)
    (hlog : 0 < k → 1 + r.allocationGroup < w.vol.numBlocks ∧
      (s.jnl.active = true → 1 + r.allocationGroup ∈ s.jnl.entries.map Prod.fst)) :
    Post (fun _ s' => Cleared w s' (w.vol.toBlock r) r.length)
      (fun s' => (∃ k ≤ r.length, Cleared w s' (w.vol.toBlock r) k) ∧
        ((∀ n, w.dev.refuse n = false) → Cleared w s' (w.vol.toBlock r) 0)) (freeBits r left k s) := by
  induction left generalizing k s with
  | zero =>
    rw [Nat.add_zero] at hk
    subst hk
    exact h
  | succ left ih =>
    have hg := h.geometry
    have hpos : 0 < w.vol.bitsPerBlock := by rw [hone]; exact Nat.two_pow_pos _
    have hlt : r.start + k < w.vol.bitsPerBlock := by rw [hone]; omega
    have hto : w.vol.toBlock r = r.allocationGroup * 2 ^ w.vol.agShift + r.start :=
      toBlock_eq _ (by omega)
    have hblock : s.vol.bitmapBlock r.allocationGroup ((r.start + k) / s.vol.bitsPerBlock) =
        1 + r.allocationGroup := by
      rw [hg, Nat.div_eq_of_lt hlt, Geometry.bitmapBlock, hbp, Nat.mul_one, Nat.add_zero]
    have hmod : (r.start + k) % s.vol.bitsPerBlock = r.start + k := by
      rw [hg, Nat.mod_eq_of_lt hlt]
    rw [freeBits, get_bind_run, hblock, hmod, hg]
    by_cases hnb : w.vol.numBlocks ≤ 1 + r.allocationGroup
    · rw [if_pos hnb]
      refine ⟨⟨k, by omega, h⟩, fun _ => ?_⟩
      rcases Nat.eq_zero_or_pos k with rfl | hkp
      · exact h
      · exact absurd (hlog hkp).1 (by omega)
    · rw [if_neg hnb]
      simp only [modifyAlloc, modify_bind_run]
      set bitmap := blit s.alloc.bitmap 0 (readBlock s (1 + r.allocationGroup)) w.vol.blockSize
        with hbitmap
      set s₁ : World := { s with alloc := { s.alloc with bitmap := clearBit bitmap (r.start + k) } }
      have hs₁ : BlocksOk s₁ := ⟨h.ok.writable, h.ok.shift, h.ok.idle⟩
      refine Post.bind ((writeBlock_post hs₁ _ _).mono (fun _ _ hs => hs) ?_) fun _ s' hs' => ?_
      · rintro s' (⟨rfl, ha, hn⟩ | ⟨rfl, hr⟩)
        · have hkept : Cleared w s₁ (w.vol.toBlock r) k := ⟨hs₁, h.geometry, h.active, h.refuse, h.used, h.inUse⟩
          refine ⟨⟨k, by omega, hkept⟩, fun _ => ?_⟩
          rcases Nat.eq_zero_or_pos k with rfl | hkp
          · exact hkept
          · exact absurd ((hlog hkp).2 ha) hn
        · refine ⟨⟨k, by omega, ⟨hs₁.writable, hs₁.shift, hs₁.idle⟩, h.geometry, h.active, h.refuse, h.used, h.inUse⟩,
            fun hnever => ?_⟩
          have hne : s.dev.refuse s.dev.asked = false := by rw [h.refuse]; exact hnever _
          exact absurd (hne.symm.trans hr) (by simp)
      · have hgeo : s'.vol.toGeometry = s.vol.toGeometry := by rw [hs'.vol]
        have hafter := inUse_of_wrote (w := s) hgeo fun b _ i hi => hs'.read b i hi
        refine ih (by omega) ⟨hs'.ok, hgeo.trans hg, hs'.active.trans h.active,
          hs'.refuse.trans h.refuse, ?_, fun block => ?_⟩ fun _ => ⟨by omega, fun ha => ?_⟩
        · rw [hs'.vol]; exact h.used
        · have hdm := Nat.div_add_mod block w.vol.bitsPerBlock
          have hml := Nat.mod_lt block hpos
          have hbyte : block % w.vol.bitsPerBlock < w.vol.blockSize * 8 := hml
          rw [hafter block, hg, hto]
          by_cases hb : block / w.vol.bitsPerBlock = r.allocationGroup
          · have hsame : bitSet (readBlock s (1 + r.allocationGroup)) (block % w.vol.bitsPerBlock) =
                s.inUse block := by rw [World.inUse, hg, hb]
            rw [hb, hone, Nat.mul_comm] at hdm
            rw [if_pos (by rw [hb]), bitSet_clearBit, hbitmap, bitSet_blit hbyte, hsame, h.inUse,
              ← Bool.and_assoc, ← Bool.not_or, ← Bool.decide_or, hto]
            congr 3
            rw [hone]
            exact propext (by omega)
          · rw [if_neg (by omega), h.inUse block, hto]
            have hout : ¬ block = r.allocationGroup * 2 ^ w.vol.agShift + r.start + k := by
              rintro rfl
              refine hb ?_
              rw [← hone, Nat.add_assoc, Nat.mul_comm, Nat.mul_add_div hpos, Nat.div_eq_of_lt hlt,
                Nat.add_zero]
            congr 3
            exact propext (by omega)
        · exact hs'.logged ha

omit hone hbp hag in
theorem queueDiscard_run (r : Run) (w : World) : ∃ s, queueDiscard r w = (some (), s) ∧
    s.vol = w.vol ∧ s.jnl = w.jnl ∧ s.dev.refuse = w.dev.refuse ∧ s.dev.disk = w.dev.disk := by
  rw [queueDiscard, get_bind_run]
  split_ifs
  · exact ⟨w, rfl, rfl, rfl, rfl, rfl⟩
  · rcases w.alloc.pending.bind (mergeDiscard · r) with _ | merged
    · obtain ⟨t, ht, -⟩ := flushDiscards_cases w
      simp only
      rw [bind_of_some ht]
      exact ⟨_, rfl, rfl, rfl, rfl, rfl⟩
    · exact ⟨_, rfl, rfl, rfl, rfl, rfl⟩

/-- What a successful `free` did. -/
structure Freed (w s : World) (r : Run) : Prop where
  ok : BlocksOk s
  geometry : s.vol.toGeometry = w.vol.toGeometry
  active : s.jnl.active = w.jnl.active
  refuse : s.dev.refuse = w.dev.refuse
  used : s.vol.usedBlocks = w.vol.usedBlocks - r.length
  inUse : ∀ block, s.inUse block =
    (!decide (w.vol.toBlock r ≤ block ∧ block < w.vol.toBlock r + r.length) && w.inUse block)

omit hag in
/-- **Freeing** a run clears its blocks and no other; a refusal changes no bit, unless
    the device refused. -/
theorem free_freed {r : Run} (hw : BlocksOk w) (hin : r.start + r.length ≤ 2 ^ w.vol.agShift) :
    Post (fun _ s => Freed w s r)
      (fun s => (∃ k ≤ r.length, Cleared w s (w.vol.toBlock r) k) ∧ ((∀ n, w.dev.refuse n = false) → Kept w s)) (free r w) := by
  unfold free
  have hstart : Cleared w w (w.vol.toBlock r) 0 := by
    refine ⟨hw, rfl, rfl, rfl, rfl, fun block => ?_⟩
    rw [decide_eq_false (by omega), Bool.not_false, Bool.true_and]
  by_cases hz : r.length = 0
  · rw [if_pos hz]; exact ⟨⟨0, Nat.zero_le _, hstart⟩, fun _ => Kept.refl hw⟩
  · rw [if_neg hz]
    refine Post.bind ((freeBits_post hone hbp hin r.length (Nat.zero_add _) hstart
      fun h => absurd h (by omega)).mono (fun _ _ h => h) fun s hs => ⟨hs.1, fun hnever => ?_⟩) fun _ s hs => ?_
    · have hs := hs.2 hnever
      refine ⟨hs.ok, hs.geometry, hs.active, hs.refuse, hs.used, fun block => ?_⟩
      rw [hs.inUse, decide_eq_false (by omega), Bool.not_false, Bool.true_and]
    · have hok : BlocksOk { s with vol := s.vol.setUsedBlocks (if r.length ≤ s.vol.usedBlocks then
          s.vol.usedBlocks - r.length else 0) } := ⟨hs.ok.writable, hs.ok.shift, hs.ok.idle⟩
      obtain ⟨s₁, hf, hvol, -, hjnl, hrefuse, hread⟩ := flushSuperblock_ignore hok
      obtain ⟨s₂, hq, hvol₂, hjnl₂, hrefuse₂, hdisk₂⟩ := queueDiscard_run r s₁
      rw [modifyVol, modify_bind_run, bind_of_some hf, hq]
      have hgeo : s₂.vol.toGeometry = s.vol.toGeometry := by rw [hvol₂, hvol]; rfl
      refine ⟨⟨?_, ?_, ?_⟩, hgeo.trans hs.geometry, ?_, ?_, ?_, fun block => ?_⟩
      · rw [hvol₂, hvol]; exact hs.ok.writable
      · rw [hvol₂, hvol]; exact hs.ok.shift
      · rw [hjnl₂, hjnl]; exact hs.ok.idle
      · rw [hjnl₂, hjnl]; exact hs.active
      · rw [hrefuse₂, hrefuse]; exact hs.refuse
      · rw [hvol₂, hvol]
        change (if r.length ≤ s.vol.usedBlocks then s.vol.usedBlocks - r.length else 0) = _
        rw [hs.used]
        split_ifs <;> omega
      · rw [← hs.inUse block]
        refine inUse_eq_of_read hgeo (fun b hb i _ => ?_) block
        have h₁ : readBlock s₂ b = readBlock s₁ b := by
          simp only [readBlock, readBlockNow, hvol₂, hjnl₂, hdisk₂]
        rw [h₁]
        exact hread b hb i

omit hag in
theorem free_post {r : Run} (hw : BlocksOk w) (hnever : ∀ n, w.dev.refuse n = false)
    (hin : r.start + r.length ≤ 2 ^ w.vol.agShift) :
    Post (fun _ s => Freed w s r) (Kept w) (free r w) :=
  (free_freed hone hbp hw hin).mono (fun _ _ h => h) fun _ h => h.2 hnever

end

end

/-! ## Sequences of calls -/

/-- A call of the allocator. -/
inductive Call where
  | allocate (maxBlocks minBlocks : ℕ)
  | free (run : Run)

def Call.next : Call → World × List Run → World × List Run
  | .allocate maxBlocks minBlocks, (w, out) => match Allocator.allocate maxBlocks minBlocks w with
    | (some run, s) => (s, run :: out)
    | (none, s) => (s, out)
  | .free run, (w, out) => match Allocator.free run w with
    | (some (), s) => (s, out.erase run)
    | (none, s) => (s, out)

/-- The sequences of calls in which only outstanding runs are freed. -/
inductive Calls (w₀ : World) : World → List Run → Prop where
  | start : Calls w₀ w₀ []
  | next {w s out out'} (h : Calls w₀ w out) (c : Call) (hc : ∀ run, c = .free run → run ∈ out)
      (hn : c.next (w, out) = (s, out')) : Calls w₀ s out'

def Geometry.blocksOf (g : Geometry) (r : Run) : Finset ℕ :=
  Finset.Ico (g.toBlock r) (g.toBlock r + r.length)

def World.marked (w : World) : Finset ℕ := (Finset.range w.vol.numBlocks).filter fun b => w.inUse b

/-- A volume on which the allocator starts: mounted, on a device that refuses
    nothing, with the blocks `reserved` marked and counted. -/
structure Fresh (g : Geometry) (reserved : Finset ℕ) (w : World) : Prop where
  ok : BlocksOk w
  geometry : w.vol.toGeometry = g
  never : ∀ n, w.dev.refuse n = false
  size : g.numBlocks < 2 ^ 64
  marked : w.marked = reserved
  used : w.vol.usedBlocks = reserved.card

/-- The outstanding runs are disjoint, lie in one group each, and are with the
    reserved blocks the marked ones, which `used_blocks` counts. -/
structure Exclusive (g : Geometry) (reserved : Finset ℕ) (w : World) (out : List Run) : Prop where
  inside : ∀ r ∈ out, r.allocationGroup < g.numAgs ∧ r.start + r.length ≤ 2 ^ g.agShift ∧
    g.toBlock r + r.length ≤ g.numBlocks
  disjoint : out.Pairwise fun r r' => Disjoint (g.blocksOf r) (g.blocksOf r')
  apart : ∀ r ∈ out, Disjoint (g.blocksOf r) reserved
  used : w.vol.usedBlocks = w.marked.card

/-- What an `allocate` that goes through must have done. -/
structure Exact (g : Geometry) (maxBlocks minBlocks : ℕ) (w s : World) (r : Run) : Prop where
  least : min minBlocks maxBlocks ≤ r.length
  most : r.length ≤ maxBlocks
  inside : r.allocationGroup < g.numAgs ∧ r.start + r.length ≤ 2 ^ g.agShift ∧
    g.toBlock r + r.length ≤ g.numBlocks
  clear : ∀ b ∈ g.blocksOf r, w.inUse b = false
  set : ∀ b ∈ g.blocksOf r, s.inUse b = true
  others : ∀ b ∉ g.blocksOf r, s.inUse b = w.inUse b

/-- The allocator is exclusive on volumes of the geometry `g`. -/
def AllocatesExclusively (g : Geometry) : Prop :=
  ∀ w₀ reserved, Fresh g reserved w₀ → ∀ w out, Calls w₀ w out →
    Exclusive g reserved w out ∧ ∀ maxBlocks minBlocks r s,
      Allocator.allocate maxBlocks minBlocks w = (some r, s) → Exact g maxBlocks minBlocks w s r

/-! ### One bitmap block to a group -/

section
variable {g : Geometry} {reserved : Finset ℕ} {w s : World} {out : List Run}

/-- What every sequence of calls keeps. -/
structure Outstanding (g : Geometry) (reserved : Finset ℕ) (w : World) (out : List Run) : Prop where
  ok : BlocksOk w
  geometry : w.vol.toGeometry = g
  never : ∀ n, w.dev.refuse n = false
  size : g.numBlocks < 2 ^ 64
  inside : ∀ r ∈ out, r.allocationGroup < g.numAgs ∧ r.start + r.length ≤ 2 ^ g.agShift ∧
    g.toBlock r + r.length ≤ g.numBlocks
  disjoint : out.Pairwise fun r r' => Disjoint (g.blocksOf r) (g.blocksOf r')
  apart : ∀ r ∈ out, Disjoint (g.blocksOf r) reserved
  covered : ∀ b ∈ w.marked, b ∈ reserved ∨ ∃ r ∈ out, b ∈ g.blocksOf r
  held : reserved ⊆ w.marked ∧ ∀ r ∈ out, g.blocksOf r ⊆ w.marked
  used : w.vol.usedBlocks = w.marked.card

theorem mem_marked {b : ℕ} : b ∈ w.marked ↔ b < w.vol.numBlocks ∧ w.inUse b = true := by
  rw [World.marked, Finset.mem_filter, Finset.mem_range]

theorem mem_blocksOf {r : Run} {b : ℕ} :
    b ∈ g.blocksOf r ↔ g.toBlock r ≤ b ∧ b < g.toBlock r + r.length := Finset.mem_Ico

theorem Fresh.outstanding (h : Fresh g reserved w) : Outstanding g reserved w [] :=
  ⟨h.ok, h.geometry, h.never, h.size, fun r hr => absurd hr List.not_mem_nil, .nil,
    fun r hr => absurd hr List.not_mem_nil, fun b hb => Or.inl (h.marked ▸ hb),
    ⟨h.marked ▸ subset_rfl, fun r hr => absurd hr List.not_mem_nil⟩, by rw [h.used, h.marked]⟩

theorem Outstanding.exclusive (h : Outstanding g reserved w out) : Exclusive g reserved w out :=
  ⟨h.inside, h.disjoint, h.apart, h.used⟩

theorem Outstanding.kept (h : Outstanding g reserved w out) (hs : Kept w s) :
    Outstanding g reserved s out := by
  have hm : s.marked = w.marked := by
    unfold World.marked
    rw [hs.geometry]
    exact Finset.filter_congr fun b _ => by rw [hs.inUse b]
  refine ⟨hs.ok, hs.geometry.trans h.geometry, fun n => ?_, h.size, h.inside, h.disjoint, h.apart,
    ?_, ?_, ?_⟩
  · rw [hs.refuse]; exact h.never n
  · rw [hm]; exact h.covered
  · rw [hm]; exact h.held
  · rw [hm, hs.used]; exact h.used

theorem Allocated.bounds {maxBlocks minBlocks : ℕ} {r : Run} (hgeo : w.vol.toGeometry = g)
    (h : Allocated w s maxBlocks minBlocks r) (hpos : 0 < r.length) :
    r.allocationGroup < g.numAgs ∧ r.start + r.length ≤ 2 ^ g.agShift ∧
      g.toBlock r + r.length ≤ g.numBlocks := by
  subst hgeo
  have hin := h.inside
  obtain ⟨h₁, h₂⟩ := groupBits_le w.vol.toGeometry r.allocationGroup
  have hto : w.vol.toBlock r = r.allocationGroup * 2 ^ w.vol.agShift + r.start :=
    toBlock_eq _ (by omega)
  have h₃ := h₂ (by omega)
  exact ⟨h.group, by omega, by omega⟩

theorem Allocated.marked {maxBlocks minBlocks : ℕ} {r : Run} (hgeo : w.vol.toGeometry = g)
    (h : Allocated w s maxBlocks minBlocks r) (hvol : g.toBlock r + r.length ≤ g.numBlocks) :
    s.marked = w.marked ∪ g.blocksOf r ∧ Disjoint w.marked (g.blocksOf r) := by
  subst hgeo
  constructor
  · ext b
    rw [Finset.mem_union, mem_marked, mem_marked, mem_blocksOf, h.took.geometry, h.took.inUse b,
      Bool.or_eq_true, decide_eq_true_eq]
    constructor
    · rintro ⟨hb, hr | hu⟩
      · exact Or.inr hr
      · exact Or.inl ⟨hb, hu⟩
    · rintro (⟨hb, hu⟩ | hr)
      · exact ⟨hb, Or.inr hu⟩
      · exact ⟨by omega, Or.inl hr⟩
  · rw [Finset.disjoint_left]
    intro b hb hr
    have hfree := h.took.free b (mem_blocksOf.1 hr).1 (mem_blocksOf.1 hr).2
    rw [(mem_marked.1 hb).2] at hfree
    exact absurd hfree (by simp)

theorem Outstanding.allocated {maxBlocks minBlocks : ℕ} {r : Run}
    (h : Outstanding g reserved w out) (hr : Allocated w s maxBlocks minBlocks r)
    (hpos : 0 < r.length) : Outstanding g reserved s (r :: out) := by
  have hin := hr.bounds h.geometry hpos
  obtain ⟨hm, hdis⟩ := hr.marked h.geometry hin.2.2
  have hcard : s.marked.card = w.marked.card + r.length := by
    rw [hm, Finset.card_union_of_disjoint hdis, Geometry.blocksOf, Nat.card_Ico,
      Nat.add_sub_cancel_left]
  have hle : s.marked.card ≤ g.numBlocks := by
    rw [World.marked, hr.took.geometry, h.geometry]
    exact (Finset.card_filter_le _ _).trans_eq (Finset.card_range _)
  have hsub : w.marked ⊆ s.marked := hm ▸ Finset.subset_union_left
  refine ⟨hr.took.ok, hr.took.geometry.trans h.geometry, fun n => ?_, h.size, ?_, ?_, ?_, ?_,
    ⟨h.held.1.trans hsub, ?_⟩, ?_⟩
  · rw [hr.took.refuse]; exact h.never n
  · intro r' hr'
    rcases List.mem_cons.1 hr' with rfl | hr'
    · exact hin
    · exact h.inside r' hr'
  · refine List.Pairwise.cons (fun r' hr' => ?_) h.disjoint
    exact (hdis.mono_left (h.held.2 r' hr')).symm
  · intro r' hr'
    rcases List.mem_cons.1 hr' with rfl | hr'
    · exact (hdis.mono_left h.held.1).symm
    · exact h.apart r' hr'
  · intro b hb
    rw [hm, Finset.mem_union] at hb
    rcases hb with hb | hb
    · rcases h.covered b hb with hres | ⟨r', hr', hb'⟩
      · exact Or.inl hres
      · exact Or.inr ⟨r', List.mem_cons_of_mem _ hr', hb'⟩
    · exact Or.inr ⟨r, List.mem_cons_self, hb⟩
  · intro r' hr'
    rcases List.mem_cons.1 hr' with rfl | hr'
    · rw [hm]; exact Finset.subset_union_right
    · exact (h.held.2 r' hr').trans hsub
  · have hsize := h.size
    rw [hr.took.used, h.used, hcard, Nat.mod_eq_of_lt (by omega)]

theorem Outstanding.freed {r : Run} (h : Outstanding g reserved w out) (hout : r ∈ out)
    (hr : Freed w s r) : Outstanding g reserved s (out.erase r) := by
  have hgeo := h.geometry
  have hsub := h.held.2 r hout
  have hm : s.marked = w.marked \ g.blocksOf r := by
    ext b
    rw [Finset.mem_sdiff, mem_marked, mem_marked, mem_blocksOf, hr.geometry, hr.inUse b,
      Bool.and_eq_true, Bool.not_eq_true', decide_eq_false_iff_not, hgeo]
    tauto
  have hcard : s.marked.card = w.marked.card - r.length := by
    rw [hm, Finset.card_sdiff_of_subset hsub, Geometry.blocksOf, Nat.card_Ico,
      Nat.add_sub_cancel_left]
  -- the other outstanding runs keep clear of the freed one
  have hother : ∀ r' ∈ out.erase r, Disjoint (g.blocksOf r') (g.blocksOf r) := by
    intro r' hr'
    have hp : (r :: out.erase r).Pairwise fun r r' => Disjoint (g.blocksOf r) (g.blocksOf r') :=
      (List.perm_cons_erase hout).pairwise h.disjoint fun hd => hd.symm
    exact ((List.pairwise_cons.1 hp).1 r' hr').symm
  refine ⟨hr.ok, hr.geometry.trans hgeo, fun n => ?_, h.size, fun r' hr' =>
    h.inside r' (List.mem_of_mem_erase hr'), h.disjoint.sublist List.erase_sublist,
    fun r' hr' => h.apart r' (List.mem_of_mem_erase hr'), ?_, ⟨?_, ?_⟩, ?_⟩
  · rw [hr.refuse]; exact h.never n
  · intro b hb
    rw [hm, Finset.mem_sdiff] at hb
    rcases h.covered b hb.1 with hres | ⟨r', hr', hb'⟩
    · exact Or.inl hres
    · have hne : r' ≠ r := by
        rintro rfl
        exact hb.2 hb'
      exact Or.inr ⟨r', (List.mem_erase_of_ne hne).2 hr', hb'⟩
  · rw [hm]
    exact Finset.subset_sdiff.2 ⟨h.held.1, (h.apart r hout).symm⟩
  · intro r' hr'
    rw [hm]
    exact Finset.subset_sdiff.2 ⟨h.held.2 r' (List.mem_of_mem_erase hr'), hother r' hr'⟩
  · rw [hr.used, h.used, hcard]

theorem allocate_length_pos {maxBlocks minBlocks : ℕ} {r : Run}
    (h : Allocator.allocate maxBlocks minBlocks w = (some r, s))
    (hr : Allocated w s maxBlocks (min minBlocks maxBlocks) r) : 0 < r.length := by
  have hle := hr.least
  unfold Allocator.allocate at h
  by_cases hz : maxBlocks = 0 ∨ minBlocks = 0
  · rw [if_pos hz] at h
    exact absurd (congrArg Prod.fst h) (by simp)
  · omega

theorem Calls.outstanding {w₀ : World} (hone : g.bitsPerBlock = 2 ^ g.agShift)
    (hbp : g.blocksPerAg = 1) (hag : g.agShift < 16) (h₀ : Fresh g reserved w₀)
    (h : Calls w₀ w out) : Outstanding g reserved w out := by
  induction h with
  | start => exact h₀.outstanding
  | @next w s out out' _ c hc hn ih =>
    have hgeo := ih.geometry
    rcases c with ⟨maxBlocks, minBlocks⟩ | run
    · have hpost := allocate_post (w := w) (by rw [hgeo]; exact hone) (by rw [hgeo]; exact hbp)
        (by rw [hgeo]; exact hag) ih.ok maxBlocks minBlocks
      simp only [Call.next] at hn
      rcases hr : Allocator.allocate maxBlocks minBlocks w with ⟨_ | r, s'⟩
      · rw [hr] at hpost hn
        cases hn
        exact ih.kept hpost
      · rw [hr] at hpost hn
        cases hn
        exact ih.allocated hpost (allocate_length_pos hr hpost)
    · have hout := hc run rfl
      have hpost := free_post (w := w) (r := run) (by rw [hgeo]; exact hone)
        (by rw [hgeo]; exact hbp) ih.ok ih.never (by rw [hgeo]; exact (ih.inside run hout).2.1)
      simp only [Call.next] at hn
      rcases hr : Allocator.free run w with ⟨_ | _, s'⟩
      · rw [hr] at hpost hn
        cases hn
        exact ih.kept hpost
      · rw [hr] at hpost hn
        cases hn
        exact ih.freed hout hpost

end

theorem allocatesExclusively_of_one {g : Geometry} (hone : g.bitsPerBlock = 2 ^ g.agShift)
    (hbp : g.blocksPerAg = 1) (hag : g.agShift < 16) : AllocatesExclusively g := by
  intro w₀ reserved h₀ w out hcalls
  have hout := hcalls.outstanding hone hbp hag h₀
  refine ⟨hout.exclusive, fun maxBlocks minBlocks r s hr => ?_⟩
  have hgeo := hout.geometry
  have hpost := allocate_post (w := w) (by rw [hgeo]; exact hone) (by rw [hgeo]; exact hbp)
    (by rw [hgeo]; exact hag) hout.ok maxBlocks minBlocks
  rw [hr] at hpost
  have hall : Allocated w s maxBlocks (min minBlocks maxBlocks) r := hpost
  have hin := hall.bounds hgeo (allocate_length_pos hr hall)
  refine ⟨hall.least, hall.most, hin, fun b hb => ?_, fun b hb => ?_, fun b hb => ?_⟩
  · rw [mem_blocksOf, ← hgeo] at hb
    exact hall.took.free b hb.1 hb.2
  · rw [mem_blocksOf, ← hgeo] at hb
    rw [hall.took.inUse b, decide_eq_true hb, Bool.true_or]
  · rw [mem_blocksOf, ← hgeo] at hb
    rw [hall.took.inUse b, decide_eq_false hb, Bool.false_or]

/-! ### More than one -/

/-- A volume whose first bitmap block is full, with the second one empty. -/
def crowded (g : Geometry) : World where
  dev := .on (fun a => if a / 2048 = 1 then 255 else 0) fun _ => false
  vol := {
    toGeometry := g
    writable := true
    discard := false
    usedBlocks := 16384
    root := ⟨0, 0, 0⟩
    indices := ⟨0, 0, 0⟩
    logStart := 0
    logEnd := 0
    superblock := zero }
  jnl := .idle
  alloc := ⟨zero, none⟩

section
variable {g : Geometry} (hshift : g.blockShift = 11)
include hshift

theorem crowded_ok : BlocksOk (crowded g) :=
  ⟨rfl, by change 10 ≤ g.blockShift; omega, fun _ => rfl⟩

theorem crowded_read (b : ℕ) {i : ℕ} (hi : i < 2048) :
    readBlock (crowded g) b i = if b = 1 then 255 else 0 := by
  have hbytes : (crowded g).vol.blockBytes = 2048 := by
    change g.blockBytes = 2048
    rw [Geometry.blockBytes_eq (by omega), Geometry.blockSize, hshift]
    rfl
  change (if (b * (crowded g).vol.blockBytes + i) / 2048 = 1 then (255 : UInt8) else 0) = _
  rw [hbytes, Nat.add_comm, Nat.add_mul_div_right _ _ (by norm_num), Nat.div_eq_of_lt hi,
    Nat.zero_add]

theorem crowded_inUse (b : ℕ) : (crowded g).inUse b = decide (b < 16384) := by
  have hbits : (crowded g).vol.bitsPerBlock = 16384 := by
    change g.blockSize * 8 = _
    rw [Geometry.blockSize, hshift]
    rfl
  have hlt : b % 16384 / 8 < 2048 := by omega
  rw [World.inUse, hbits, bitSet, bitByte_eq, crowded_read hshift _ hlt]
  by_cases hb : b < 16384
  · rw [Nat.div_eq_of_lt hb, if_pos rfl, decide_eq_true hb]
    have h8 : b % 16384 % 8 < 8 := Nat.mod_lt _ (by norm_num)
    rw [show (255 : UInt8).toNat = 2 ^ 8 - 1 from rfl, Nat.testBit_two_pow_sub_one,
      decide_eq_true h8]
  · rw [if_neg (by omega), decide_eq_false hb]
    exact Nat.zero_testBit _

theorem crowded_fresh (hnb : 16384 < g.numBlocks) (hsize : g.numBlocks < 2 ^ 64) :
    Fresh g (Finset.range 16384) (crowded g) := by
  refine ⟨crowded_ok hshift, rfl, fun _ => rfl, hsize, ?_, by rw [Finset.card_range]; rfl⟩
  ext b
  rw [mem_marked, crowded_inUse hshift, decide_eq_true_eq, Finset.mem_range]
  change b < g.numBlocks ∧ _ ↔ _
  omega

omit hshift in
theorem crowded_firstGroup {m : ℕ} (hm : g.numAgs = m + 1) (hne : ¬ g.groupBits 0 = 0) :
    allocate 1 1 (crowded g) = ((do
      match ← allocateIn 0 (g.groupBits 0) 1 1 g.blocksPerAg 0 with
      | some run => pure run
      | none => allocateFrom 1 1 m 1 : M Run) (crowded g)) := by
  have hnum : (crowded g).vol.numAgs = m + 1 := hm
  have hbits : ¬ (crowded g).vol.groupBits 0 = 0 := hne
  unfold allocate
  rw [if_neg (by decide)]
  simp only [get_bind_run]
  rw [if_neg (by decide : ¬ kMaxRun < 1), if_neg (by decide : ¬ 1 < 1), hnum, allocateFrom,
    get_bind_run, if_neg hbits]
  rfl

theorem crowded_allocate (hnb : 16384 < g.numBlocks) (hbp : 2 ≤ g.blocksPerAg)
    (hag : 15 ≤ g.agShift) (hags : 1 ≤ g.numAgs) :
    ∃ s, allocate 1 1 (crowded g) = (some ⟨0, 16384, 1⟩, s) ∧ s.inUse 16384 = false := by
  have hbs : g.blockSize = 2048 := by rw [Geometry.blockSize, hshift]; rfl
  have hper : g.bitsPerBlock = 16384 := by rw [Geometry.bitsPerBlock, hbs]
  have hspan : 2 ^ 15 ≤ 2 ^ g.agShift := Nat.pow_le_pow_right (by norm_num) hag
  have hbits : 16384 < g.groupBits 0 := by
    simp only [Geometry.groupBits, Nat.zero_shiftLeft, Nat.sub_zero]
    split_ifs <;> omega
  obtain ⟨n, hn⟩ : ∃ n, g.blocksPerAg = n + 2 := ⟨g.blocksPerAg - 2, by omega⟩
  obtain ⟨m, hm⟩ : ∃ m, g.numAgs = m + 1 := ⟨g.numAgs - 1, by omega⟩
  -- the first bitmap block is full
  set full := blit zero 0 (readBlock (crowded g) 1) 2048 with hfull
  have hscan₀ : scanBits full 16384 (g.groupBits 0) 0 1 1 16384 0 = none := by
    refine scanBits_none fun k _ hk => ?_
    rw [hfull, bitSet_blit (by omega)]
    have := crowded_inUse hshift k
    rw [World.inUse] at this
    change bitSet (readBlock (crowded g) (1 + k / g.bitsPerBlock)) (k % g.bitsPerBlock) = _ at this
    rwa [hper, Nat.div_eq_of_lt (by omega), Nat.mod_eq_of_lt (by omega),
      decide_eq_true (by omega)] at this
  -- the second one is empty, so its first bit starts a run
  set w₁ : World := { crowded g with alloc := ⟨full, none⟩ } with hw₁
  set empty := blit full 0 (readBlock w₁ 2) 2048 with hempty
  have hclear : bitSet empty 0 = false := by
    rw [hempty, bitSet_blit (by norm_num), bitSet, bitByte_eq]
    change ((readBlock (crowded g) 2 (0 / 8)).toNat.testBit (0 % 8)) = false
    rw [crowded_read hshift 2 (by norm_num)]
    rfl
  have hscan₁ : scanBits empty 16384 (g.groupBits 0) 1 1 1 16384 0 = some (16384, 1) := by
    rw [scanBits]
    simp only [hclear, Nat.one_mul, Nat.add_zero]
    rw [if_neg (by omega), if_neg (by simp)]
    rfl
  have hfirst : allocateIn 0 (g.groupBits 0) 1 1 (n + 2) 0 (crowded g) =
      allocateIn 0 (g.groupBits 0) 1 1 (n + 1) 1 w₁ := by
    have hblock : (crowded g).vol.bitmapBlock 0 0 = 1 := by
      change 1 + 0 * g.blocksPerAg + 0 = 1
      rw [Nat.zero_mul]
    have hscan : scanBits (bitmapRead (crowded g) 1) g.bitsPerBlock (g.groupBits 0) 0 1 1
        g.bitsPerBlock 0 = none := by
      rw [hper, ← hscan₀, hfull, ← hbs]
      rfl
    rw [allocateIn_none (w := crowded g) (by rw [hblock]; change ¬ g.numBlocks ≤ 1; omega)
      (by rw [hblock]; exact hscan), hblock, hw₁, hfull, ← hbs]
    rfl
  set w₂ : World := { crowded g with alloc := ⟨setBits empty 16384 1, none⟩ } with hw₂
  have hsecond : allocateIn 0 (g.groupBits 0) 1 1 (n + 1) 1 w₁ = ((do
      writeBlock 2 (setBits empty 16384 1)
      modifyVol fun v => v.setUsedBlocks ((v.usedBlocks + 1) % 2 ^ 64)
      flushSuperblock.ignore
      pure (some ⟨0, 16384, 1⟩) : M (Option Run)) w₂) := by
    have hblock : w₁.vol.bitmapBlock 0 1 = 2 := by
      change 1 + 0 * g.blocksPerAg + 1 = 2
      rw [Nat.zero_mul]
    have hread : bitmapRead w₁ 2 = empty := by rw [hempty, ← hbs]; rfl
    have hscan : scanBits (bitmapRead w₁ 2) g.bitsPerBlock (g.groupBits 0) 1 1 1
        g.bitsPerBlock 0 = some (16384, 1) := by rw [hper, hread]; exact hscan₁
    rw [allocateIn_some (w := w₁) (by rw [hblock]; change ¬ g.numBlocks ≤ 2; omega)
      (by rw [hblock]; exact hscan), hblock, hread]
    rfl
  have hok : BlocksOk w₂ := ⟨rfl, (crowded_ok hshift).shift, fun _ => rfl⟩
  have hmark := markBlock_post hok 2 (setBits empty 16384 1)
    (fun v => (v.usedBlocks + 1) % 2 ^ 64) (some (⟨0, 16384, 1⟩ : Run))
  rw [crowded_firstGroup hm (by omega)]
  rcases hres : allocateIn 0 (g.groupBits 0) 1 1 g.blocksPerAg 0 (crowded g) with ⟨r, s⟩
  rw [hn, hfirst, hsecond] at hres
  rw [hres] at hmark
  rcases r with _ | r
  · rcases hmark.2 with ha | ⟨k, hk⟩
    · exact absurd ha (by simp [hw₂, crowded, Journal.idle])
    · exact absurd hk (by simp [hw₂, crowded, Device.on])
  · obtain ⟨rfl, -, hgeo, -, -, -, -, hread⟩ := hmark
    rw [← hsecond, ← hfirst, ← hn] at hres
    refine ⟨s, by rw [bind_of_some hres]; rfl, ?_⟩
    have hafter := inUse_of_wrote (w := w₂) hgeo hread 16384
    have hper₂ : w₂.vol.bitsPerBlock = 16384 := hper
    rw [hafter, hper₂, if_pos (by norm_num), Nat.mod_self, bitSet_setBits, hclear]
    decide

theorem not_allocatesExclusively (hnb : 16384 < g.numBlocks) (hsize : g.numBlocks < 2 ^ 64)
    (hbp : 2 ≤ g.blocksPerAg) (hag : 15 ≤ g.agShift) (hags : 1 ≤ g.numAgs) :
    ¬ AllocatesExclusively g := by
  intro h
  obtain ⟨s, hs, hclear⟩ := crowded_allocate hshift hnb hbp hag hags
  have hexact := (h _ _ (crowded_fresh hshift hnb hsize) _ _ .start).2 1 1 _ s hs
  have hset := hexact.set 16384 (by
    rw [mem_blocksOf]
    change (0 <<< _ ||| 16384) ≤ 16384 ∧ 16384 < (0 <<< _ ||| 16384) + 1
    simp)
  rw [hclear] at hset
  exact absurd hset (by simp)

end

/-- On a volume of 57 bitmap blocks, with the first of them full, the allocator
    hands out block 16384 and leaves it unmarked. -/
theorem allocator_unmarked_run :
    Fresh (Mkfs.formatGeometry 1912602624) (Finset.range 16384)
      (crowded (Mkfs.formatGeometry 1912602624)) ∧
    (∃ s, allocate 1 1 (crowded (Mkfs.formatGeometry 1912602624)) = (some ⟨0, 16384, 1⟩, s) ∧
      s.inUse 16384 = false) ∧
    ¬ AllocatesExclusively (Mkfs.formatGeometry 1912602624) :=
  ⟨crowded_fresh rfl (by decide) (by decide),
    crowded_allocate rfl (by decide) (by decide) (by decide) (by decide),
    not_allocatesExclusively rfl (by decide) (by decide) (by decide) (by decide) (by decide)⟩

/-- **The allocator is exclusive exactly when a group has one bitmap block**, of
    the geometries a volume is formatted with. -/
theorem allocator_exclusive_iff (size : ℕ) (hsize : size < 2 ^ 64) :
    AllocatesExclusively (Mkfs.formatGeometry size) ↔
      (Mkfs.formatGeometry size).blocksPerAg = 1 := by
  obtain ⟨j, hj, hag, hbp, hna, -⟩ := Mkfs.formatGeometry_cases size
  have hshift : (Mkfs.formatGeometry size).blockShift = 11 := rfl
  constructor
  · intro h
    by_contra hne
    have hlarge := Mkfs.geometry_large (n := size / Mkfs.BLOCK) hne
    have hB : Mkfs.BLOCK = 2048 := rfl
    have hblocks : 16384 < size / Mkfs.BLOCK := by
      rw [hB] at hlarge ⊢
      omega
    have hj₁ : 1 ≤ j := by
      rcases Nat.eq_zero_or_pos j with rfl | hj₁
      · exact absurd hbp hne
      · exact hj₁
    have hnb : 16384 < (Mkfs.formatGeometry size).numBlocks := hblocks
    have hnb' : (Mkfs.formatGeometry size).numBlocks < 2 ^ 64 :=
      (Nat.div_le_self _ _).trans_lt hsize
    have hbp₂ : 2 ≤ (Mkfs.formatGeometry size).blocksPerAg := by
      rw [hbp]
      exact Nat.pow_le_pow_right (by norm_num : 0 < 2) hj₁
    have hags : 1 ≤ (Mkfs.formatGeometry size).numAgs := by
      rw [hna, Nat.one_le_div_iff (Nat.two_pow_pos _)]
      omega
    exact not_allocatesExclusively hshift hnb hnb' hbp₂ (by omega) hags h
  · intro h
    have hj₀ : j = 0 := by
      rw [hbp] at h
      rcases Nat.eq_zero_or_pos j with rfl | hj₁
      · rfl
      · have := Nat.pow_le_pow_right (by norm_num : 0 < 2) hj₁
        omega
    refine allocatesExclusively_of_one ?_ h (by omega)
    rw [hag, hj₀, Geometry.bitsPerBlock, Geometry.blockSize, hshift]
    rfl

theorem allocator_exclusive_iff_small : 4194304 < 2 ^ 64 ∧
    AllocatesExclusively (Mkfs.formatGeometry 4194304) :=
  ⟨by decide, (allocator_exclusive_iff 4194304 (by decide)).2 (by decide)⟩

end Aegir.Bfs
