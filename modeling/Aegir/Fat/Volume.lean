/-
  A FAT volume: its allocation table and its clusters (aegir-fs-fat, `main.cc`).

  The service reads and writes the volume through one window, a sector of the table or a
  run of a cluster's sectors at a time, and keeps one sector of the table aside for its
  chain walks.  `Mount` is what is set once when the volume is taken; `World` is what the
  calls change.  The block device refuses some of the requests it is asked for (`refuse`),
  and a request it refuses changes nothing.

  Sector and cluster numbers are numbers, wrapped where the source's arithmetic narrows
  them.  The range grant's offset, which is added to every sector, is left out.
-/
import Aegir.Lib.Bytes
import Aegir.Lib.Fallible

namespace Aegir.Fat

open Aegir.Lib Aegir.Lib.Buf Aegir.Lib.Fallible

def kSectorBytes : ℕ := 512

def kEoc32 : ℕ := 0x0ffffff8
def kEoc16 : ℕ := 0xfff8
def kFreeCluster : ℕ := 0
def kEocMark32 : ℕ := 0x0fffffff
def kEocMark16 : ℕ := 0xffff

/-- `aegir::fat::Volume`, but for its root directory. -/
structure Volume where
  sectorsPerCluster : ℕ
  fatStart : ℕ
  fatSectors : ℕ
  fats : ℕ
  dataStart : ℕ
  fat32 : Bool

/-- The volume as it is mounted. -/
structure Mount extends Volume where
  /-- `g_cluster_count` and `g_window_sectors` -/
  clusterCount : ℕ
  windowSectors : ℕ
  writable : Bool
  /-- What `now_seconds` answers; zero without a clock. -/
  seconds : ℕ
  /-- Which of the requests, by their number and their sector, the block device refuses. -/
  refuse : ℕ → ℕ → Bool

/-- One open file. -/
structure Handle where
  serial : ℕ
  badge : ℕ
  cursor : ℕ
  size : ℕ
  direntSector : ℕ
  direntIndex : ℕ
  firstCluster : ℕ
  /-- `kind`: whether it is `kHandleFile`, and not `kHandleRead`. -/
  file : Bool
deriving DecidableEq

structure World where
  disk : Buf
  /-- The requests so far. -/
  asked : ℕ
  /-- `g_window` -/
  window : Buf
  /-- `g_fat_window`, and the sector of the table it holds. -/
  fatWindow : Buf
  fatWindowRel : Option ℕ
  /-- Where the last allocation left off. -/
  hint : ℕ
  /-- The row of the handle table that the call works on. -/
  handle : Handle

abbrev M := Fallible World

namespace Mount
variable (m : Mount)

/-! ## The device -/

def read (lba count : ℕ) : M Unit := fun w =>
  if m.windowSectors < count then (none, w)
  else if m.refuse w.asked lba then (none, { w with asked := w.asked + 1 })
  else (some (), { w with
    window := blit w.window 0 (slice w.disk (lba * kSectorBytes)) (count * kSectorBytes)
    asked := w.asked + 1 })

def writeBack (lba count : ℕ) : M Unit := fun w =>
  if m.windowSectors < count then (none, w)
  else if m.refuse w.asked lba then (none, { w with asked := w.asked + 1 })
  else (some (), { w with
    disk := blit w.disk (lba * kSectorBytes) w.window (count * kSectorBytes)
    asked := w.asked + 1 })

def edit (f : Buf → Buf) : M Unit := .modify fun w => { w with window := f w.window }

/-! ## The table -/

/-- `entry_bytes`, `chain_eoc` and `chain_eoc_mark` -/
def entryBytes : ℕ := if m.fat32 then 4 else 2
def chainEoc : ℕ := if m.fat32 then kEoc32 else kEoc16
def chainEocMark : ℕ := if m.fat32 then kEocMark32 else kEocMark16

def perSector : ℕ := kSectorBytes / m.entryBytes

/-- `next32` and `next16`: a cluster's entry in its sector of the table. -/
def nextIn (sector : Buf) (cluster : ℕ) : ℕ :=
  if m.fat32 then le 4 sector (cluster % m.perSector * 4) &&& 0x0fffffff
  else le 2 sector (cluster % m.perSector * 2)

/-- `set_next32`, which keeps the entry's reserved bits, and `set_next16` -/
def setNextIn (cluster value : ℕ) (sector : Buf) : Buf :=
  if m.fat32 then
    put 4 sector (cluster % m.perSector * 4)
      ((le 4 sector (cluster % m.perSector * 4) &&& 0xf0000000) ||| (value &&& 0x0fffffff))
  else put 2 sector (cluster % m.perSector * 2) value

/-- The sector of the table that holds a cluster's entry, from the table's start. -/
def relOf (cluster : ℕ) : ℕ := cluster * m.entryBytes / kSectorBytes

def windowNext (w : World) (cluster : ℕ) : ℕ := m.nextIn w.window cluster

def fatLoad (cluster : ℕ) : M ℕ := do
  m.read (m.fatStart + m.relOf cluster) 1
  pure (m.relOf cluster)

def fatSector (cluster : ℕ) : M Unit := do
  let w ← get
  if w.fatWindowRel = some (m.relOf cluster) then pure ()
  else
    m.read (m.fatStart + m.relOf cluster) 1
    .modify fun w => { w with fatWindowRel := some (m.relOf cluster)
                              fatWindow := blit w.fatWindow 0 w.window kSectorBytes }

def fatNext (w : World) (cluster : ℕ) : ℕ := m.nextIn w.fatWindow cluster

/-- `fat_store`: the entry in every copy of the table. -/
def fatStore (cluster value : ℕ) : M Unit := do
  let rel ← m.fatLoad cluster
  edit (m.setNextIn cluster value)
  .modify fun w => { w with fatWindowRel := none }
  forRange m.fats fun f => m.writeBack (m.fatStart + f * m.fatSectors + rel) 1

/-! ## Clusters -/

def clusterSector (cluster : ℕ) : ℕ := m.dataStart + (cluster - 2) * m.sectorsPerCluster

def clusterBytes : ℕ := m.sectorsPerCluster * kSectorBytes

def zeroCluster (cluster : ℕ) : M Unit := do
  edit fun window => blit window 0 zero m.clusterBytes
  m.writeBack (m.clusterSector cluster) m.sectorsPerCluster

/-- The loop of `alloc_cluster`, of which `n` turns are left; `held` is the sector of the table
    that is in the window. -/
def allocFrom (hint : ℕ) : ℕ → ℕ → Option ℕ → M ℕ
  | 0, _, _ => fail
  | n + 1, i, held => do
    let c := 2 + (hint - 2 + i) % 2 ^ 32 % m.clusterCount
    when (held ≠ some (m.relOf c)) (m.read (m.fatStart + m.relOf c) 1)
    let w ← get
    if m.windowNext w c ≠ kFreeCluster then allocFrom hint n (i + 1) (some (m.relOf c))
    else
      m.fatStore c m.chainEocMark
      m.zeroCluster c
      .modify fun w => { w with hint := if 2 + m.clusterCount ≤ c + 1 then 2 else c + 1 }
      pure c

/-- `alloc_cluster`; it refuses where the source answers zero. -/
def allocCluster : M ℕ := do
  let w ← get
  m.allocFrom w.hint m.clusterCount 0 none

/-- The loop of `chain_free`. -/
def chainFreeFrom : ℕ → ℕ → M Unit
  | 0, _ => fail
  | n + 1, c =>
    if c < 2 ∨ m.chainEoc ≤ c then pure ()
    else do
      let _ ← m.fatLoad c
      let w ← get
      m.fatStore c kFreeCluster
      chainFreeFrom n (m.windowNext w c)

/-- `chain_free`: an entry it comes to again is free by then, and ends it. -/
def chainFree (first : ℕ) : M Unit := m.chainFreeFrom (m.chainEoc + 2) first

end Mount

end Aegir.Fat
