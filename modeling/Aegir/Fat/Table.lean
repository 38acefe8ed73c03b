/-
  What the calls on a FAT volume do to its table and its clusters.
-/
import Aegir.Fat.Serve

namespace Aegir.Fat

open Aegir.Lib Aegir.Lib.Buf Aegir.Lib.Fallible

namespace Mount
variable (m : Mount)

def tableAt : ℕ := m.fatStart * kSectorBytes

def entry (d : Buf) (c : ℕ) : ℕ :=
  if m.fat32 then le 4 d (m.tableAt + c * 4) &&& 0x0fffffff else le 2 d (m.tableAt + c * 2)

def InRange (c : ℕ) : Prop := 2 ≤ c ∧ c < m.clusterCount + 2

/-- The bytes of the table's copies, and those of a cluster. -/
def InTable (x : ℕ) : Prop :=
  m.tableAt ≤ x ∧ x < (m.fatStart + m.fats * m.fatSectors) * kSectorBytes
def clusterAt (c : ℕ) : ℕ := m.clusterSector c * kSectorBytes
def InCluster (c x : ℕ) : Prop := m.clusterAt c ≤ x ∧ x < m.clusterAt c + m.clusterBytes

/-- A volume as its boot sector gives it: each copy of the table has an entry for each cluster,
    the clusters are past the table, and one of them fits in the window. -/
structure Sound : Prop where
  cluster : 0 < m.sectorsPerCluster
  window : m.sectorsPerCluster ≤ m.windowSectors
  fats : 0 < m.fats
  table : (m.clusterCount + 2) * m.entryBytes ≤ m.fatSectors * kSectorBytes
  data : m.fatStart + m.fats * m.fatSectors ≤ m.dataStart
  marks : m.clusterCount + 2 ≤ m.chainEoc

/-- The sector of the table kept aside is as the disk has it. -/
def Coherent (w : World) : Prop :=
  ∀ rel, w.fatWindowRel = some rel → rel < m.fatSectors ∧
    ∀ i < kSectorBytes, w.fatWindow i = w.disk ((m.fatStart + rel) * kSectorBytes + i)

end Mount

/-- Only the window and the number of requests may have changed. -/
structure Quiet (w w' : World) : Prop where
  disk : w'.disk = w.disk
  fatWindow : w'.fatWindow = w.fatWindow
  rel : w'.fatWindowRel = w.fatWindowRel
  hint : w'.hint = w.hint
  handle : w'.handle = w.handle

variable {m : Mount} {w w' : World} {c c' : ℕ}

theorem Quiet.refl (w : World) : Quiet w w := ⟨rfl, rfl, rfl, rfl, rfl⟩

theorem Quiet.coherent (h : Quiet w w') (hc : m.Coherent w) : m.Coherent w' := by
  intro rel hrel
  rw [h.fatWindow, h.disk]
  rw [h.rel] at hrel
  exact hc rel hrel

/-! ## The device -/

theorem read_post (m : Mount) (lba count : ℕ) (w : World) :
    Post (fun _ w' => Quiet w w' ∧
      ∀ i < count * kSectorBytes, w'.window i = w.disk (lba * kSectorBytes + i)) (Quiet w)
      (m.read lba count w) := by
  unfold Mount.read
  split
  · exact .refl w
  split
  · exact ⟨rfl, rfl, rfl, rfl, rfl⟩
  · refine ⟨⟨rfl, rfl, rfl, rfl, rfl⟩, fun i hi => ?_⟩
    exact blit_of_mem (Nat.zero_le i) (by omega)

/-- The disk after the window was written to it, with all else as it was. -/
structure Wrote (w w' : World) (at_ size : ℕ) : Prop where
  disk : w'.disk = blit w.disk at_ w.window size
  window : w'.window = w.window
  fatWindow : w'.fatWindow = w.fatWindow
  rel : w'.fatWindowRel = w.fatWindowRel
  hint : w'.hint = w.hint
  handle : w'.handle = w.handle

theorem writeBack_post (m : Mount) (lba count : ℕ) (w : World) :
    Post (fun _ w' => Wrote w w' (lba * kSectorBytes) (count * kSectorBytes)) (Quiet w)
      (m.writeBack lba count w) := by
  unfold Mount.writeBack
  split
  · exact .refl w
  split
  · exact ⟨rfl, rfl, rfl, rfl, rfl⟩
  · exact ⟨rfl, rfl, rfl, rfl, rfl, rfl⟩

theorem edit_bind_run {β : Type} (f : Buf → Buf) (k : Unit → M β) (w : World) :
    (Mount.edit f >>= k) w = k () { w with window := f w.window } := rfl

/-! ## Entries -/

theorem relOf_at (m : Mount) (c : ℕ) :
    m.relOf c * kSectorBytes + c % m.perSector * m.entryBytes = c * m.entryBytes := by
  unfold Mount.relOf Mount.perSector Mount.entryBytes kSectorBytes
  split
  · omega
  · omega

theorem entry_in_sector (m : Mount) (c : ℕ) : c % m.perSector * m.entryBytes + m.entryBytes ≤ kSectorBytes := by
  unfold Mount.perSector Mount.entryBytes kSectorBytes
  split
  · omega
  · omega

theorem eq_of_place (hrel : m.relOf c' = m.relOf c) (hmod : c' % m.perSector = c % m.perSector) : c' = c := by
  have h := relOf_at m c
  have h' := relOf_at m c'
  rw [hrel, hmod, h] at h'
  have hpos : 0 < m.entryBytes := by
    unfold Mount.entryBytes
    split
    · decide
    · decide
  exact (Nat.eq_of_mul_eq_mul_right hpos h').symm

theorem entry_congr {d d' : Buf} (h : ∀ k < m.entryBytes, d' (m.tableAt + c * m.entryBytes + k) =
    d (m.tableAt + c * m.entryBytes + k)) : m.entry d' c = m.entry d c := by
  unfold Mount.entry
  unfold Mount.entryBytes at h
  split
  · next h32 =>
    rw [if_pos h32] at h
    rw [le_congr h]
  · next h32 =>
    rw [if_neg h32] at h
    rw [le_congr h]

theorem nextIn_eq {b d : Buf}
    (h : ∀ i < kSectorBytes, b i = d ((m.fatStart + m.relOf c) * kSectorBytes + i)) :
    m.nextIn b c = m.entry d c := by
  have hat := relOf_at m c
  have hin := entry_in_sector m c
  have hbytes : ∀ k < m.entryBytes, b (c % m.perSector * m.entryBytes + k) =
      d (m.tableAt + c * m.entryBytes + k) := by
    intro k hk
    have hpos : (m.fatStart + m.relOf c) * kSectorBytes + (c % m.perSector * m.entryBytes + k) =
        m.tableAt + c * m.entryBytes + k := by
      rw [← hat, Nat.add_mul]
      unfold Mount.tableAt
      omega
    rw [h _ (by omega), hpos]
  unfold Mount.nextIn Mount.entry
  unfold Mount.entryBytes at hbytes
  split
  · next h32 =>
    rw [if_pos h32] at hbytes
    rw [le_congr hbytes]
  · next h32 =>
    rw [if_neg h32] at hbytes
    rw [le_congr hbytes]

def Mount.Fits (m : Mount) (value : ℕ) : Prop := value < if m.fat32 then 2 ^ 28 else 2 ^ 16

theorem mask_eq (value : ℕ) : value &&& 0x0fffffff = value % 2 ^ 28 := Nat.and_two_pow_sub_one_eq_mod value 28

theorem nextIn_setNextIn {value : ℕ} (h : m.Fits value) (b : Buf) :
    m.nextIn (m.setNextIn c value b) c = value := by
  unfold Mount.Fits at h
  unfold Mount.nextIn Mount.setNextIn
  split
  · next h32 =>
    rw [if_pos h32] at h
    have hwidth : (2 : ℕ) ^ 28 ∣ 256 ^ 4 := ⟨16, by decide⟩
    have hhigh : 0xf0000000 % 2 ^ 28 = 0 := by decide
    generalize le 4 b (c % m.perSector * 4) = old
    rw [le_put, mask_eq, mask_eq value, Nat.mod_mod_of_dvd _ hwidth, Nat.or_mod_two_pow, Nat.and_mod_two_pow,
      hhigh, Nat.and_zero, Nat.zero_or, Nat.mod_mod, Nat.mod_eq_of_lt h]
  · next h32 =>
    rw [if_neg h32] at h
    exact le_put_of_lt (by simpa using h)

theorem nextIn_setNextIn_ne {value : ℕ} (b : Buf) (h : c' % m.perSector ≠ c % m.perSector) :
    m.nextIn (m.setNextIn c value b) c' = m.nextIn b c' := by
  unfold Mount.nextIn Mount.setNextIn
  split
  · rw [le_put_of_disjoint (by omega)]
  · exact le_put_of_disjoint (by omega)

theorem entry_blit {window d : Buf} (hrel : m.relOf c' = m.relOf c) :
    m.entry (blit d ((m.fatStart + m.relOf c) * kSectorBytes) window kSectorBytes) c' = m.nextIn window c' := by
  refine (nextIn_eq fun i hi => ?_).symm
  rw [hrel, blit_of_mem (Nat.le_add_right _ _) (by omega), Nat.add_sub_cancel_left]

theorem entry_blit_ne {window d : Buf} {rel : ℕ} (hrel : m.relOf c' ≠ rel) :
    m.entry (blit d ((m.fatStart + rel) * kSectorBytes) window kSectorBytes) c' = m.entry d c' := by
  refine entry_congr fun k hk => blit_of_notMem ?_
  have hat := relOf_at m c'
  have hin := entry_in_sector m c'
  unfold Mount.tableAt
  unfold kSectorBytes at *
  rw [Nat.add_mul]
  omega

theorem nextIn_stored {value : ℕ} {window d : Buf} (hv : m.Fits value)
    (hwindow : ∀ i < kSectorBytes, window i = d ((m.fatStart + m.relOf c) * kSectorBytes + i)) (hrel : m.relOf c' = m.relOf c) :
    m.nextIn (m.setNextIn c value window) c' = if c' = c then value else m.entry d c' := by
  split
  · next heq =>
    rw [heq]
    exact nextIn_setNextIn hv window
  · next hne =>
    rw [nextIn_setNextIn_ne _ fun hmod => hne (eq_of_place hrel hmod)]
    refine nextIn_eq fun i hi => ?_
    rw [hrel]
    exact hwindow i hi

theorem relOf_lt (hs : m.Sound) (hc : c < m.clusterCount + 2) : m.relOf c < m.fatSectors := by
  have hpos : 0 < m.entryBytes := by
    unfold Mount.entryBytes
    split
    · decide
    · decide
  have hmul : (c + 1) * m.entryBytes ≤ (m.clusterCount + 2) * m.entryBytes := Nat.mul_le_mul_right _ hc
  have := hs.table
  have := relOf_at m c
  rw [Nat.succ_mul] at hmul
  unfold kSectorBytes at *
  omega

theorem entry_blit_copy {window d : Buf} {f rel : ℕ} (hs : m.Sound) (hc : c < m.clusterCount + 2) (hf : 0 < f) :
    m.entry (blit d ((m.fatStart + f * m.fatSectors + rel) * kSectorBytes) window kSectorBytes) c =
      m.entry d c := by
  refine entry_congr fun k hk => blit_of_notMem (.inl ?_)
  have hmul : (c + 1) * m.entryBytes ≤ (m.clusterCount + 2) * m.entryBytes := Nat.mul_le_mul_right _ hc
  have hone : m.fatSectors ≤ f * m.fatSectors := Nat.le_mul_of_pos_left _ hf
  have := hs.table
  rw [Nat.succ_mul] at hmul
  unfold Mount.tableAt
  unfold kSectorBytes at *
  omega

theorem copy_inTable {f x : ℕ} (hs : m.Sound) (hc : c < m.clusterCount + 2) (hf : f < m.fats)
    (hlow : (m.fatStart + f * m.fatSectors + m.relOf c) * kSectorBytes ≤ x)
    (hhigh : x < (m.fatStart + f * m.fatSectors + m.relOf c) * kSectorBytes + kSectorBytes) : m.InTable x := by
  have hrel := relOf_lt hs hc
  have hmul : (f + 1) * m.fatSectors ≤ m.fats * m.fatSectors := Nat.mul_le_mul_right _ hf
  rw [Nat.succ_mul] at hmul
  unfold Mount.InTable Mount.tableAt
  unfold kSectorBytes at *
  omega

/-! ## Loads and stores -/

theorem fatLoad_post (m : Mount) (c : ℕ) (w : World) :
    Post (fun rel w' => rel = m.relOf c ∧ Quiet w w' ∧ ∀ i < kSectorBytes,
      w'.window i = w.disk ((m.fatStart + m.relOf c) * kSectorBytes + i)) (Quiet w) (m.fatLoad c w) := by
  refine Post.bind (read_post m _ 1 w) ?_
  rintro - w' ⟨hq, hwindow⟩
  refine ⟨rfl, hq, fun i hi => hwindow i ?_⟩
  rwa [Nat.one_mul]

theorem fatSector_post (hs : m.Sound) (hc : c < m.clusterCount + 2) (hw : m.Coherent w) :
    Post (fun _ w' => m.fatNext w' c = m.entry w.disk c ∧ w'.disk = w.disk ∧ m.Coherent w' ∧ w'.handle = w.handle)
      (fun w' => w'.disk = w.disk ∧ m.Coherent w' ∧ w'.handle = w.handle) (m.fatSector c w) := by
  unfold Mount.fatSector
  rw [get_bind_run]
  split
  · next hrel => exact ⟨nextIn_eq (hw _ hrel).2, rfl, hw, rfl⟩
  · refine Post.bind ((read_post m _ 1 w).mono (fun _ _ h => h) fun w' hq => ?_) ?_
    · exact ⟨hq.disk, hq.coherent hw, hq.handle⟩
    · rintro - w' ⟨hq, hwindow⟩
      have hkept : ∀ i < kSectorBytes, blit w'.fatWindow 0 w'.window kSectorBytes i =
          w.disk ((m.fatStart + m.relOf c) * kSectorBytes + i) := by
        intro i hi
        rw [blit_of_mem (Nat.zero_le i) (by omega), Nat.sub_zero]
        exact hwindow i (by rwa [Nat.one_mul])
      refine ⟨nextIn_eq hkept, hq.disk, fun rel hrel => ?_, hq.handle⟩
      obtain rfl := Option.some.inj hrel
      refine ⟨relOf_lt hs hc, fun i hi => ?_⟩
      dsimp only
      rw [hq.disk]
      exact hkept i hi

/-- A store of an entry, which may have been refused on the way. -/
structure Stored (m : Mount) (w w' : World) (c value : ℕ) : Prop where
  other : ∀ x, ¬ m.InTable x → w'.disk x = w.disk x
  rest : ∀ c' < m.clusterCount + 2, c' ≠ c → m.entry w'.disk c' = m.entry w.disk c'
  here : m.entry w'.disk c = m.entry w.disk c ∨ m.entry w'.disk c = value
  coherent : m.Coherent w → m.Coherent w'
  handle : w'.handle = w.handle

theorem Quiet.stored (h : Quiet w w') (m : Mount) (c value : ℕ) : Stored m w w' c value where
  other _ _ := by rw [h.disk]
  rest _ _ _ := by rw [h.disk]
  here := .inl (by rw [h.disk])
  coherent := h.coherent
  handle := h.handle

/-- The store when `f` copies of the table are written; the first is the one that is read. -/
structure Copied (m : Mount) (w w' : World) (c value f : ℕ) : Prop where
  other : ∀ x, ¬ m.InTable x → w'.disk x = w.disk x
  entries : ∀ c' < m.clusterCount + 2,
    m.entry w'.disk c' = if c' = c ∧ 0 < f then value else m.entry w.disk c'
  rel : w'.fatWindowRel = none
  handle : w'.handle = w.handle

theorem Copied.stored {value f : ℕ} (h : Copied m w w' c value f) (hc : c < m.clusterCount + 2) :
    Stored m w w' c value where
  other := h.other
  rest c' hc' hne := by rw [h.entries c' hc', if_neg fun h => hne h.1]
  here := by
    rw [h.entries c hc]
    split
    · exact .inr rfl
    · exact .inl rfl
  coherent _ rel hrel := by
    rw [h.rel] at hrel
    cases hrel
  handle := h.handle

theorem fatStore_post {value : ℕ} (hs : m.Sound) (hc : c < m.clusterCount + 2) (hv : m.Fits value) (w : World) :
    Post (fun _ w' => Stored m w w' c value ∧ m.entry w'.disk c = value)
      (fun w' => Stored m w w' c value) (m.fatStore c value w) := by
  refine Post.bind ((fatLoad_post m c w).mono (fun _ _ h => h) fun w' hq => hq.stored m c value) ?_
  rintro rel w₁ ⟨rfl, hq, hwindow⟩
  rw [edit_bind_run, modify_bind_run]
  have hcopies : Post (fun _ w' => w'.window = m.setNextIn c value w₁.window ∧ Copied m w w' c value m.fats)
      (fun w' => Stored m w w' c value)
      (forRange m.fats (fun f => m.writeBack (m.fatStart + f * m.fatSectors + m.relOf c) 1)
        { w₁ with window := m.setNextIn c value w₁.window, fatWindowRel := none }) := by
    have hfirst : Copied m w { w₁ with window := m.setNextIn c value w₁.window, fatWindowRel := none } c value 0 := by
      refine ⟨fun x _ => ?_, fun c' _ => ?_, rfl, hq.handle⟩
      · dsimp only
        rw [hq.disk]
      · dsimp only
        rw [hq.disk, if_neg fun h => Nat.lt_irrefl 0 h.2]
    refine Post.forRange (fun f w' => w'.window = m.setNextIn c value w₁.window ∧ Copied m w w' c value f)
      ⟨rfl, hfirst⟩ fun f hf w' ⟨hwin, hcopied⟩ => ?_
    refine (writeBack_post m _ 1 w').mono (fun _ w'' hwrote => ?_) fun w'' hquiet => ?_
    · have hdisk := hwrote.disk
      rw [Nat.one_mul, hwin] at hdisk
      refine ⟨hwrote.window.trans hwin, fun x hx => ?_, fun c' hc' => ?_, hwrote.rel.trans hcopied.rel,
        hwrote.handle.trans hcopied.handle⟩
      · rw [hdisk, blit_of_notMem, hcopied.other x hx]
        by_contra hin
        exact hx (copy_inTable hs hc hf (by omega) (by omega))
      · rw [hdisk]
        rcases Nat.eq_zero_or_pos f with rfl | hpos
        · rw [Nat.zero_mul, Nat.add_zero]
          by_cases hrel : m.relOf c' = m.relOf c
          · rw [entry_blit hrel, nextIn_stored hv hwindow hrel]
            simp
          · have hne : c' ≠ c := fun heq => hrel (by rw [heq])
            rw [entry_blit_ne hrel, hcopied.entries c' hc', if_neg fun h => hne h.1, if_neg fun h => hne h.1]
        · rw [entry_blit_copy hs hc' hpos, hcopied.entries c' hc']
          simp [hpos]
    · have hstored := hcopied.stored hc
      refine ⟨?_, ?_, ?_, fun hcoherent => hquiet.coherent (hstored.coherent hcoherent),
        hquiet.handle.trans hstored.handle⟩
      · rw [hquiet.disk]
        exact hstored.other
      · rw [hquiet.disk]
        exact hstored.rest
      · rw [hquiet.disk]
        exact hstored.here
  refine hcopies.mono (fun _ w' ⟨_, hcopied⟩ => ⟨hcopied.stored hc, ?_⟩) fun _ h => h
  rw [hcopied.entries c hc, if_pos ⟨rfl, hs.fats⟩]

/-! ## Clusters -/

theorem inCluster_unique {x : ℕ} (hc : 2 ≤ c) (hc' : 2 ≤ c') (h : m.InCluster c x) (h' : m.InCluster c' x) :
    c = c' := by
  have hapart : ∀ {a b : ℕ}, 2 ≤ a → a < b → m.clusterAt a + m.clusterBytes ≤ m.clusterAt b := by
    intro a b ha hlt
    have hmul : (a - 2 + 1) * m.sectorsPerCluster ≤ (b - 2) * m.sectorsPerCluster :=
      Nat.mul_le_mul_right _ (by omega)
    rw [Nat.succ_mul] at hmul
    unfold Mount.clusterAt Mount.clusterSector Mount.clusterBytes kSectorBytes
    omega
  obtain ⟨hlow, hhigh⟩ := h
  obtain ⟨hlow', hhigh'⟩ := h'
  rcases Nat.lt_trichotomy c c' with hlt | heq | hgt
  · have := hapart hc hlt
    omega
  · exact heq
  · have := hapart hc' hgt
    omega

theorem not_inTable {x : ℕ} (hs : m.Sound) (h : m.InCluster c x) : ¬ m.InTable x := by
  have hdata : m.dataStart ≤ m.clusterSector c := Nat.le_add_right _ _
  have := hs.data
  rintro ⟨-, hhigh⟩
  obtain ⟨hlow, -⟩ := h
  unfold Mount.clusterAt kSectorBytes at hlow
  unfold kSectorBytes at hhigh
  omega

theorem sector_inTable {rel i : ℕ} (hs : m.Sound) (hrel : rel < m.fatSectors) (hi : i < kSectorBytes) :
    m.InTable ((m.fatStart + rel) * kSectorBytes + i) := by
  have hone : m.fatSectors ≤ m.fats * m.fatSectors := Nat.le_mul_of_pos_left _ hs.fats
  unfold Mount.InTable Mount.tableAt
  unfold kSectorBytes at *
  omega

theorem entry_inTable {k : ℕ} (hs : m.Sound) (hc : c < m.clusterCount + 2) (hk : k < m.entryBytes) :
    m.InTable (m.tableAt + c * m.entryBytes + k) := by
  have hin := entry_in_sector m c
  have hat := relOf_at m c
  have := sector_inTable (i := c % m.perSector * m.entryBytes + k) hs (relOf_lt hs hc) (by omega)
  rw [← hat]
  unfold Mount.tableAt
  rw [Nat.add_mul] at this
  rwa [Nat.add_assoc, Nat.add_assoc, ← Nat.add_assoc (m.fatStart * _)]

theorem entry_of_table {d d' : Buf} (hs : m.Sound) (hc : c < m.clusterCount + 2)
    (h : ∀ x, m.InTable x → d' x = d x) : m.entry d' c = m.entry d c :=
  entry_congr fun _ hk => h _ (entry_inTable hs hc hk)

theorem Mount.Coherent.of_table (hs : m.Sound) (hw : m.Coherent w) (h : ∀ x, m.InTable x → w'.disk x = w.disk x)
    (hwin : w'.fatWindow = w.fatWindow) (hrel : w'.fatWindowRel = w.fatWindowRel) : m.Coherent w' := by
  intro rel heq
  rw [hrel] at heq
  obtain ⟨hlt, hsame⟩ := hw rel heq
  refine ⟨hlt, fun i hi => ?_⟩
  rw [hwin, h _ (sector_inTable hs hlt hi)]
  exact hsame i hi

theorem zeroCluster_post (m : Mount) (c : ℕ) (w : World) :
    Post (fun _ w' => (∀ x, m.InCluster c x → w'.disk x = 0) ∧ (∀ x, ¬ m.InCluster c x → w'.disk x = w.disk x) ∧
        w'.fatWindow = w.fatWindow ∧ w'.fatWindowRel = w.fatWindowRel ∧ w'.handle = w.handle)
      (Quiet w) (m.zeroCluster c w) := by
  unfold Mount.zeroCluster
  rw [edit_bind_run]
  refine (writeBack_post m _ _ _).mono (fun _ w' hwrote => ⟨fun x hx => ?_, fun x hx => ?_, hwrote.fatWindow,
    hwrote.rel, hwrote.handle⟩) fun w' hq => ⟨hq.disk, hq.fatWindow, hq.rel, hq.hint, hq.handle⟩
  · have hlow : m.clusterSector c * kSectorBytes ≤ x := hx.1
    have hhigh : x < m.clusterSector c * kSectorBytes + m.clusterBytes := hx.2
    have hin : x - m.clusterSector c * kSectorBytes < 0 + m.clusterBytes := by omega
    rw [hwrote.disk]
    exact (blit_of_mem hlow hhigh).trans (blit_of_mem (Nat.zero_le _) hin)
  · rw [hwrote.disk]
    exact if_neg hx

/-! ## Allocation -/

/-- What is neither in the table nor in a free cluster is as it was, and so are the entries of the
    clusters in use. -/
structure Grown (m : Mount) (d d' : Buf) : Prop where
  other : ∀ x, ¬ m.InTable x → (∀ c, m.InRange c → m.entry d c = 0 → ¬ m.InCluster c x) → d' x = d x
  used : ∀ c < m.clusterCount + 2, m.entry d c ≠ 0 → m.entry d' c = m.entry d c

theorem Grown.refl (m : Mount) (d : Buf) : Grown m d d := ⟨fun _ _ _ => rfl, fun _ _ _ => rfl⟩

/-- What an allocation leaves of the world, and of the handle. -/
structure Allocates (m : Mount) (w w' : World) : Prop where
  grown : Grown m w.disk w'.disk
  coherent : m.Coherent w'
  handle : w'.handle = w.handle

theorem Quiet.allocates (h : Quiet w w') (hw : m.Coherent w) : Allocates m w w' where
  grown := by
    rw [h.disk]
    exact .refl m w.disk
  coherent := h.coherent hw
  handle := h.handle

/-- A cluster that was free is the end of a chain, and zeroed. -/
structure Taken (m : Mount) (w w' : World) (c : ℕ) : Prop where
  range : m.InRange c
  free : m.entry w.disk c = 0
  mark : m.entry w'.disk c = m.chainEocMark
  zeroed : ∀ x, m.InCluster c x → w'.disk x = 0

theorem Allocates.of_quiet {w'' : World} (h : Allocates m w' w'') (hq : Quiet w w') : Allocates m w w'' :=
  ⟨by rw [← hq.disk]; exact h.grown, h.coherent, h.handle.trans hq.handle⟩

theorem Taken.of_quiet {w'' : World} (h : Taken m w' w'' c) (hq : Quiet w w') : Taken m w w'' c :=
  ⟨h.range, by rw [← hq.disk]; exact h.free, h.mark, h.zeroed⟩

theorem fits_mark (m : Mount) : m.Fits m.chainEocMark := by
  unfold Mount.Fits Mount.chainEocMark kEocMark32 kEocMark16
  split
  · decide
  · decide

theorem Stored.allocates {value : ℕ} (h : Stored m w w' c value) (hfree : m.entry w.disk c = 0)
    (hw : m.Coherent w) : Allocates m w w' where
  grown := ⟨fun x hx _ => h.other x hx, fun c' hc' hne => h.rest c' hc' fun heq => hne (by rw [heq, hfree])⟩
  coherent := h.coherent hw
  handle := h.handle

theorem takeCluster_post (hs : m.Sound) (hr : m.InRange c) (hfree : m.entry w.disk c = 0) (hw : m.Coherent w)
    (hint : ℕ) :
    Post (fun c w' => Taken m w w' c ∧ Allocates m w w') (Allocates m w)
      ((do
        m.fatStore c m.chainEocMark
        m.zeroCluster c
        .modify fun w => { w with hint := hint }
        pure c : M ℕ) w) := by
  refine Post.bind ((fatStore_post hs hr.2 (fits_mark m) w).mono (fun _ _ h => h) fun w₁ h =>
    h.allocates hfree hw) ?_
  rintro - w₁ ⟨hstored, hmark⟩
  have halloc := hstored.allocates hfree hw
  refine Post.bind ((zeroCluster_post m c w₁).mono (fun _ _ h => h) fun w₂ hq => ?_) ?_
  · refine ⟨?_, hq.coherent halloc.coherent, hq.handle.trans halloc.handle⟩
    rw [hq.disk]
    exact halloc.grown
  rintro - w₂ ⟨hzero, hsame, hwindow, hrel, hhandle⟩
  rw [modify_bind_run]
  have hin : ∀ x, m.InTable x → w₂.disk x = w₁.disk x :=
    fun x hx => hsame x fun hcluster => not_inTable hs hcluster hx
  refine ⟨⟨hr, hfree, ?_, hzero⟩, ⟨fun x hx hfrees => ?_, fun c' hc' hne => ?_⟩, ?_, hhandle.trans halloc.handle⟩
  · dsimp only
    rw [entry_of_table hs hr.2 hin, hmark]
  · dsimp only
    rw [hsame x (hfrees c hr hfree)]
    exact hstored.other x hx
  · dsimp only
    rw [entry_of_table hs hc' hin]
    exact halloc.grown.used c' hc' hne
  · exact halloc.coherent.of_table hs hin hwindow hrel

theorem allocFrom_post (hs : m.Sound) (hint n i : ℕ) (held : Option ℕ) (hcount : n ≠ 0 → 0 < m.clusterCount)
    (hw : m.Coherent w) (hheld : ∀ rel, held = some rel →
      ∀ i < kSectorBytes, w.window i = w.disk ((m.fatStart + rel) * kSectorBytes + i)) :
    Post (fun c w' => Taken m w w' c ∧ Allocates m w w') (Allocates m w) (m.allocFrom hint n i held w) := by
  induction n generalizing i held w with
  | zero => exact ⟨.refl m w.disk, hw, rfl⟩
  | succ n ih =>
    have hpos := hcount (Nat.succ_ne_zero n)
    unfold Mount.allocFrom
    generalize hc : 2 + (hint - 2 + i) % 2 ^ 32 % m.clusterCount = c
    have hr : m.InRange c := by
      have := Nat.mod_lt ((hint - 2 + i) % 2 ^ 32) hpos
      exact ⟨by omega, by omega⟩
    -- the sector of the cluster's entry is in the window, read now or before
    have hload : Post (fun _ w' => Quiet w w' ∧ ∀ i < kSectorBytes,
        w'.window i = w.disk ((m.fatStart + m.relOf c) * kSectorBytes + i)) (Quiet w)
        (when (held ≠ some (m.relOf c)) (m.read (m.fatStart + m.relOf c) 1) w) := by
      by_cases hneed : held = some (m.relOf c)
      · rw [when_neg (not_not.2 hneed)]
        exact ⟨.refl w, hheld _ hneed⟩
      · rw [when_pos hneed]
        refine (read_post m _ 1 w).mono (fun _ w' ⟨hq, hwindow⟩ => ⟨hq, fun i hi => hwindow i ?_⟩) fun _ hq => hq
        rwa [Nat.one_mul]
    refine Post.bind (hload.mono (fun _ _ h => h) fun w' hq => hq.allocates hw) ?_
    rintro - w₁ ⟨hq, hwindow⟩
    rw [get_bind_run]
    have hnext : m.windowNext w₁ c = m.entry w.disk c := nextIn_eq hwindow
    have hw₁ := hq.coherent hw
    split
    · have hrest := ih (i + 1) (some (m.relOf c)) (fun _ => hpos) hw₁ fun rel hrel j hj => by
        obtain rfl := Option.some.inj hrel
        rw [hq.disk]
        exact hwindow j hj
      refine hrest.mono (fun c' w' ⟨htaken, halloc⟩ => ?_) fun w' halloc => ?_
      · exact ⟨htaken.of_quiet hq, halloc.of_quiet hq⟩
      · exact halloc.of_quiet hq
    · next hfree =>
      have hfree : m.entry w.disk c = 0 := by
        rw [← hnext]
        exact not_not.1 hfree
      have htake := takeCluster_post hs hr (by rwa [hq.disk]) hw₁ (if 2 + m.clusterCount ≤ c + 1 then 2 else c + 1)
      refine htake.mono (fun c' w' ⟨htaken, halloc⟩ => ?_) fun w' halloc => ?_
      · exact ⟨htaken.of_quiet hq, halloc.of_quiet hq⟩
      · exact halloc.of_quiet hq

theorem allocCluster_post (hs : m.Sound) (hw : m.Coherent w) :
    Post (fun c w' => Taken m w w' c ∧ Allocates m w w') (Allocates m w) (m.allocCluster w) := by
  unfold Mount.allocCluster
  rw [get_bind_run]
  exact allocFrom_post hs w.hint m.clusterCount 0 none Nat.pos_of_ne_zero hw nofun

end Aegir.Fat
