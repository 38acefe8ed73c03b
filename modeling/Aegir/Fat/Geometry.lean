/-
  The geometry of a FAT volume (aegir-fs-fat, `fat.cc` and the start of `main.cc`).
-/
import Aegir.Fat.Table

namespace Aegir.Fat

open Aegir.Lib Aegir.Lib.Buf Aegir.Lib.Fallible

/-! ## The boot sector -/

inductive Flavor
  | notFat
  | fat12
  | fat16
  | fat32
  | exfat
deriving DecidableEq

/-- `aegir::fat::Volume` -/
structure Layout extends Volume where
  /-- FAT32: where the root directory's chain starts. -/
  rootCluster : ℕ
  /-- FAT16: the root's region. -/
  rootStart : ℕ
  rootSectors : ℕ

/-- `bpb`, and the volume it fills. -/
def bpb (sector : Buf) : Flavor × Option Layout :=
  if bytes sector 3 6 = [0x45, 0x58, 0x46, 0x41, 0x54, 0x20] then (.exfat, none)
  else if le 2 sector 510 ≠ 0xaa55 then (.notFat, none)
  else
    let sectorsPerCluster := (sector 13).toNat
    let reserved := le 2 sector 14
    let fats := (sector 16).toNat
    let rootEntries := le 2 sector 17
    if le 2 sector 11 ≠ 512 ∨ sectorsPerCluster = 0 ∨ reserved = 0 ∨ fats = 0 then (.notFat, none)
    else
      let fatSectors := if rootEntries = 0 then le 4 sector 36 else le 2 sector 22
      if fatSectors = 0 then (.notFat, none)
      else
        let rootStart := reserved + fats * fatSectors
        let rootSectors := if rootEntries = 0 then 0 else (rootEntries * 32 + 511) / 512
        let volume : Layout :=
          { sectorsPerCluster, fatStart := reserved, fatSectors, fats, dataStart := rootStart + rootSectors
            fat32 := rootEntries == 0, rootCluster := if rootEntries = 0 then le 4 sector 44 else 0
            rootStart, rootSectors }
        if rootEntries = 0 then (.fat32, some volume)
        else
          let totalSectors := if le 2 sector 19 ≠ 0 then le 2 sector 19 else le 4 sector 32
          let clusters := (totalSectors - volume.dataStart) / sectorsPerCluster
          (if clusters < 4085 then .fat12 else .fat16, some volume)

/-- What the service is given with its block device. -/
structure Grant where
  rangeSectors : ℕ
  windowBytes : ℕ
  writable : Bool
  seconds : ℕ
  refuse : ℕ → ℕ → Bool

/-- What `main` sets when it takes the volume. -/
def Layout.mount (v : Layout) (g : Grant) : Mount where
  toVolume := v.toVolume
  clusterCount := (g.rangeSectors + 2 ^ 64 - v.dataStart) % 2 ^ 64 / v.sectorsPerCluster % 2 ^ 32
  windowSectors := g.windowBytes / kSectorBytes
  writable := g.writable
  seconds := g.seconds
  refuse := g.refuse

variable {sector : Buf} {flavor : Flavor} {v : Layout} {g : Grant} {m : Mount} {c : ℕ}

/-- What a boot sector that is taken says. -/
structure Layout.Formed (v : Layout) : Prop where
  cluster : 0 < v.sectorsPerCluster
  fats : 0 < v.fats
  table : 0 < v.fatSectors
  root : v.rootStart = v.fatStart + v.fats * v.fatSectors
  data : v.dataStart = v.rootStart + v.rootSectors

theorem bpb_formed (h : bpb sector = (flavor, some v)) : v.Formed := by
  unfold bpb at h
  dsimp only at h
  split_ifs at h
  all_goals cases h
  all_goals exact ⟨by dsimp only; omega, by dsimp only; omega, by dsimp only; omega, rfl, rfl⟩

/-! ## The mount -/

/-- What neither the boot sector nor `main` checks: the grant reaches the data region, the table has
    an entry below the end marks for each of its clusters, and one of them fits in the window. -/
structure Layout.Fits (v : Layout) (g : Grant) : Prop where
  grant : g.rangeSectors < 2 ^ 64
  range : v.dataStart ≤ g.rangeSectors
  table : ((v.mount g).clusterCount + 2) * (v.mount g).entryBytes ≤ v.fatSectors * kSectorBytes
  marks : (v.mount g).clusterCount + 2 ≤ (v.mount g).chainEoc
  window : v.sectorsPerCluster ≤ (v.mount g).windowSectors

theorem mount_sound (h : v.Formed) (hfits : v.Fits g) : (v.mount g).Sound where
  cluster := h.cluster
  window := hfits.window
  fats := h.fats
  table := hfits.table
  data := by
    show v.fatStart + v.fats * v.fatSectors ≤ v.dataStart
    rw [h.data, h.root]
    exact Nat.le_add_right _ _
  marks := hfits.marks

theorem cluster_inside (hfits : v.Fits g) (hc : (v.mount g).InRange c) :
    (v.mount g).clusterSector c + v.sectorsPerCluster ≤ g.rangeSectors := by
  have hgrant := hfits.grant
  have hrange := hfits.range
  have hcount : (v.mount g).clusterCount ≤ (g.rangeSectors - v.dataStart) / v.sectorsPerCluster := by
    rw [← show (g.rangeSectors + 2 ^ 64 - v.dataStart) % 2 ^ 64 = g.rangeSectors - v.dataStart by omega]
    exact Nat.mod_le _ _
  have hlast : (c - 2 + 1) * v.sectorsPerCluster ≤ g.rangeSectors - v.dataStart := by
    have hlow := hc.1
    have hhigh := hc.2
    refine Nat.le_trans (Nat.mul_le_mul_right _ ?_) (Nat.div_mul_le_self _ v.sectorsPerCluster)
    omega
  show v.dataStart + (c - 2) * v.sectorsPerCluster + v.sectorsPerCluster ≤ g.rangeSectors
  rw [Nat.succ_mul] at hlast
  omega

theorem allocCluster_range {w w' : World} (hs : m.Sound) (hw : m.Coherent w) (h : m.allocCluster w = (some c, w')) :
    m.InRange c := by
  have hpost := allocCluster_post hs hw
  rw [h] at hpost
  exact hpost.1.range

/-! ## The window -/

def Within (m : Mount) (w w' : World) : Prop := ∀ i, m.windowSectors * kSectorBytes ≤ i → w'.window i = w.window i

instance : IsPreorder World (Within m) where
  refl _ _ _ := rfl
  trans _ _ _ h h' i hi := (h' i hi).trans (h i hi)

instance read_within (lba count : ℕ) : Fallible.Keeps (Within m) (m.read lba count) := by
  refine ⟨fun w i hi => ?_⟩
  unfold Mount.read
  split
  · rfl
  next hcount =>
  split
  · rfl
  · have hmul := Nat.mul_le_mul_right kSectorBytes (Nat.le_of_not_lt hcount)
    exact blit_of_notMem (.inr (by omega))

instance writeBack_within (lba count : ℕ) : Fallible.Keeps (Within m) (m.writeBack lba count) := by
  refine ⟨fun w i _ => ?_⟩
  unfold Mount.writeBack
  split
  · rfl
  split
  · rfl
  · rfl

theorem edit_within {f : Buf → Buf} {n : ℕ} (hn : n ≤ m.windowSectors * kSectorBytes)
    (hf : ∀ b i, n ≤ i → f b i = b i) : Fallible.Keeps (Within m) (Mount.edit f) :=
  keeps_modify fun w i hi => hf w.window i (Nat.le_trans hn hi)

theorem fatLoad_within (c : ℕ) : Fallible.Keeps (Within m) (m.fatLoad c) := keeps_bind inferInstance fun _ => keeps_pure _

theorem setNextIn_outside {value i : ℕ} (b : Buf) (hi : kSectorBytes ≤ i) : m.setNextIn c value b i = b i := by
  have hin := entry_in_sector m c
  unfold Mount.setNextIn
  unfold Mount.entryBytes at hin
  split
  · next h32 =>
    rw [if_pos h32] at hin
    exact put_of_notMem (by omega)
  · next h32 =>
    rw [if_neg h32] at hin
    exact put_of_notMem (by omega)

theorem sector_le_window (hs : m.Sound) : kSectorBytes ≤ m.windowSectors * kSectorBytes :=
  Nat.le_mul_of_pos_left _ (Nat.lt_of_lt_of_le hs.cluster hs.window)

theorem fatStore_within (hs : m.Sound) (c value : ℕ) : Fallible.Keeps (Within m) (m.fatStore c value) := by
  refine keeps_bind (fatLoad_within c) fun rel => ?_
  refine keeps_bind (edit_within (sector_le_window hs) fun b i hi => setNextIn_outside b hi) fun _ => ?_
  exact keeps_bind (keeps_modify fun _ _ _ => rfl) fun _ => keeps_forEach (fun _ => inferInstance) _

theorem zeroCluster_within (hs : m.Sound) (c : ℕ) : Fallible.Keeps (Within m) (m.zeroCluster c) := by
  have hcluster : m.clusterBytes ≤ m.windowSectors * kSectorBytes := Nat.mul_le_mul_right _ hs.window
  exact keeps_bind (edit_within hcluster fun b i hi => blit_of_notMem (.inr (by omega))) fun _ => inferInstance

theorem allocCluster_within (hs : m.Sound) : Fallible.Keeps (Within m) m.allocCluster := by
  have hfrom : ∀ hint n i held, Fallible.Keeps (Within m) (m.allocFrom hint n i held) := by
    intro hint n
    induction n with
    | zero => exact fun _ _ => keeps_fail
    | succ n ih =>
      intro i held
      unfold Mount.allocFrom
      refine keeps_bind (keeps_when inferInstance) fun _ => keeps_bind keeps_get fun w => ?_
      split
      · exact ih _ _
      · refine keeps_bind (fatStore_within hs _ _) fun _ => keeps_bind (zeroCluster_within hs _) fun _ => ?_
        exact keeps_bind (keeps_modify fun _ _ _ => rfl) fun _ => keeps_pure _
  exact keeps_bind keeps_get fun w => hfrom _ _ _ _

end Aegir.Fat
