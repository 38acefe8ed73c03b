/-
  The loops that follow a FAT volume's chains (aegir-fs-fat, `main.cc`).

  `walkTurn` is a turn of `while (cluster >= 2 && cluster < chain_eoc())`.  The scans of a
  directory are one walk (`dirWalk`) that differ in what they do with a slot, in how many
  sectors they read at once and in whether the chain grows.  A loop may go on forever, so
  each of these functions takes fuel.
-/
import Aegir.Fat.Geometry
import Aegir.Fat.LongRuns
import Aegir.Lib.Fuel

namespace Aegir.Fat

open Aegir.Lib Aegir.Lib.Buf Aegir.Lib.Fallible

variable {σ ρ : Type}

namespace Mount
variable (m : Mount)

/-- A turn of a walk, whose body goes on to a cluster or returns; it may refuse. -/
def walkTurn (body : ℕ → σ → M ((ℕ × σ) ⊕ ρ)) : World × ℕ × σ → (World × ℕ × σ) ⊕ (World × Option (σ ⊕ ρ))
  | (w, c, s) =>
    if c < 2 ∨ m.chainEoc ≤ c then .inr (w, some (.inl s))
    else match body c s w with
      | (none, w) => .inr (w, none)
      | (some (.inl (c, s)), w) => .inl (w, c, s)
      | (some (.inr r), w) => .inr (w, some (.inr r))

/-- The body of `chain_free` -/
def freeBody (c : ℕ) (_ : Unit) : M ((ℕ × Unit) ⊕ Unit) := do
  let _ ← m.fatLoad c
  let w ← get
  m.fatStore c kFreeCluster
  pure (.inl (m.windowNext w c, ()))

/-- The body of `read_into`, which keeps what it filled where a read is refused. -/
def readBody (offset got c : ℕ) (s : ℕ × List UInt8) : M ((ℕ × ℕ × List UInt8) ⊕ List UInt8) :=
  if got ≤ s.2.length then pure (.inr s.2)
  else do
    match ← attempt (m.readCluster offset got c s.1 s.2) with
    | none => pure (.inr s.2)
    | some dest =>
      match ← attempt (m.fatSector c) with
      | none => pure (.inr dest)
      | some _ =>
        let w ← get
        pure (.inl (m.fatNext w c, s.1 + m.clusterBytes, dest))

/-- A turn of `free_cluster_count`: the cluster, the sector in the window and the count so far. -/
def countTurn : World × ℕ × Option ℕ × ℕ → (World × ℕ × Option ℕ × ℕ) ⊕ (World × ℕ)
  | (w, c, held, free) =>
    if (2 + m.clusterCount) % 2 ^ 32 ≤ c then .inr (w, free)
    else match when (held ≠ some (m.relOf c)) (m.read (m.fatStart + m.relOf c) 1) w with
      | (none, w) => .inr (w, free)
      | (some _, w) => .inl (w, c + 1, some (m.relOf c), if m.windowNext w c = kFreeCluster then free + 1 else free)

end Mount

/-! ## Directory slots -/

abbrev Place := ℕ × ℕ

inductive SlotKind
  | ended
  | deleted
  | lfn
  | label
  | short
deriving DecidableEq

def slotKind (raw : Buf) : SlotKind :=
  if raw 0 = 0x00 then .ended
  else if raw 0 = 0xe5 then .deleted
  else if raw kDirentAttr = 0x0f then .lfn
  else if (raw kDirentAttr).toNat / 8 % 2 = 1 then .label
  else .short

/-- The name of `short_dirent`. -/
def shortName (raw : Buf) : List UInt8 :=
  let trim (part : List UInt8) := (part.reverse.dropWhile (· == 0x20)).reverse
  let ext := trim (bytes raw 8 3)
  trim (bytes raw 0 8) ++ if ext = [] then [] else 0x2e :: ext

/-- `Dirent` with its name. -/
structure Entry extends Dirent where
  name : List UInt8

/-- `scan_entry`: the run it leaves, and a short slot's entry with the run that named it. -/
def scanEntry (run : Lfn) (place : Place) (raw : Buf) : Lfn × Option (Entry × Option Lfn) :=
  match slotKind raw with
  | .lfn => (lfnFeed run place.1 place.2 raw, none)
  | .short => (lfnReset run, some (if lfnMatches run (bytes raw 0 11) then (⟨shortDirent raw 0, lfnDecode run⟩, some run)
      else (⟨shortDirent raw 0, shortName raw⟩, none)))
  | _ => (lfnReset run, none)

def upper (c : UInt8) : UInt8 := if 0x61 ≤ c ∧ c ≤ 0x7a then c - 0x20 else c

def sameName (a b : List UInt8) : Bool := a.map upper == b.map upper

/-- `Lfn run{}` -/
def Lfn.blank : Lfn := ⟨fun _ => 0, fun _ => 0, fun _ => 0, 0, 0, 0, false⟩

/-- `consider` of `find_in_dir`: the entry of a name, or the one that as many come before. -/
def consider (wanted : List UInt8 ⊕ ℕ) (s : Lfn × ℕ) (place : Place) (raw : Buf) : (Lfn × ℕ) ⊕ Option Entry :=
  if slotKind raw = .ended then .inr none
  else match scanEntry s.1 place raw, wanted with
    | (run, none), _ => .inl (run, s.2)
    | (run, some (entry, _)), .inl name => if sameName entry.name name then .inr (some entry) else .inl (run, s.2)
    | (run, some (entry, _)), .inr index => if s.2 = index then .inr (some entry) else .inl (run, (s.2 + 1) % 2 ^ 32)

/-- What a walk for a slot comes back with. -/
inductive Slot (α : Type)
  | found (a : α)
  | free (place : Place)
  | full
  | broken

/-- A slot of `dir_slot`, which keeps the first free one. -/
def slotStep (name : Option (List UInt8)) (s : Lfn × Option Place) (place : Place) (raw : Buf) :
    (Lfn × Option Place) ⊕ Slot (Entry × Place × Option Lfn) :=
  match slotKind raw with
  | .ended => .inr (.free (s.2.getD place))
  | .deleted => .inl (lfnReset s.1, some (s.2.getD place))
  | _ => match scanEntry s.1 place raw with
    | (run, none) => .inl (run, s.2)
    | (run, some (entry, matched)) =>
      if name.any (sameName entry.name) then .inr (.found (entry, place, matched)) else .inl (run, s.2)

/-- A slot of `dir_place`: the run of free ones so far, and whether the end was seen. -/
def placeStep (count : ℕ) (s : List Place × Bool) (place : Place) (raw : Buf) : (List Place × Bool) ⊕ List Place :=
  let ended := s.2 || raw 0 == 0x00
  if ended || raw 0 == 0xe5 then
    if s.1.length + 1 = count then .inr (s.1 ++ [place]) else .inl (s.1 ++ [place], ended)
  else .inl ([], ended)

/-! ## Directories -/

def scanSlots (step : σ → Place → Buf → σ ⊕ ρ) (at_ sectors : ℕ) (window : Buf) (s : σ) : σ ⊕ ρ :=
  (List.range (sectors * (kSectorBytes / kDirentBytes))).foldl (fun r i => match r with
    | .inl s => step s (at_ + i * kDirentBytes / kSectorBytes, i % (kSectorBytes / kDirentBytes)) (slice window (i * kDirentBytes))
    | .inr r => .inr r) (.inl s)

structure Dir where
  cluster : ℕ
  root : Bool

namespace Mount
variable (m : Mount)

def dirRoot (v : Layout) : Dir := if v.fat32 then ⟨v.rootCluster, false⟩ else ⟨0, true⟩

/-- So many reads of sectors that follow one another, scanned one after the other. -/
def scanReads (step : σ → Place → Buf → σ ⊕ ρ) (sectors : ℕ) : ℕ → ℕ → σ → M (σ ⊕ ρ)
  | 0, _, s => pure (.inl s)
  | reads + 1, at_, s => do
    m.read at_ sectors
    let w ← get
    match scanSlots step at_ sectors w.window s with
    | .inl s => scanReads step sectors reads (at_ + sectors) s
    | .inr r => pure (.inr r)

/-- A cluster of a directory; the walk keeps the last one it was at. -/
def dirBody (step : σ → Place → Buf → σ ⊕ ρ) (sectors reads : ℕ) (onward : ℕ → ℕ → M ℕ) (c : ℕ) (s : ℕ × σ) :
    M ((ℕ × ℕ × σ) ⊕ ρ) := do
  match ← m.scanReads step sectors reads (m.clusterSector c) s.2 with
  | .inr r => pure (.inr r)
  | .inl s =>
    let _ ← m.fatLoad c
    let w ← get
    let next ← onward c (m.windowNext w c)
    pure (.inl (next, c, s))

/-- The root's region, or a chain. -/
def dirWalk (v : Layout) (dir : Dir) (step : σ → Place → Buf → σ ⊕ ρ) (sectors reads : ℕ) (onward : ℕ → ℕ → M ℕ) (s : σ)
    (w : World) (fuel : ℕ) : Option (World × Option ((ℕ × σ) ⊕ ρ)) :=
  if dir.root then
    match m.scanReads step 1 v.rootSectors v.rootStart s w with
    | (r, w) => some (w, r.map (Sum.map (0, ·) id))
  else turns (m.walkTurn (m.dirBody step sectors reads onward)) fuel (w, dir.cluster, dir.cluster, s)

def findInDir (v : Layout) (dir : Dir) (wanted : List UInt8 ⊕ ℕ) (w : World) (fuel : ℕ) : Option (World × Option Entry) :=
  (m.dirWalk v dir (consider wanted) m.sectorsPerCluster 1 (fun _ next => pure next) (.blank, 0) w fuel).map fun (w, r) =>
    (w, match r with
      | some (.inr found) => found
      | _ => none)

def dirSlot (v : Layout) (dir : Dir) (name : Option (List UInt8)) (w : World) (fuel : ℕ) :
    Option (World × Slot (Entry × Place × Option Lfn)) :=
  (m.dirWalk v dir (slotStep name) 1 m.sectorsPerCluster (fun _ next => pure next) (.blank, none) w fuel).map fun (w, r) =>
    match r with
    | none => (w, .broken)
    | some (.inr slot) => (w, slot)
    | some (.inl (_, _, some place)) => (w, .free place)
    | some (.inl (last, _, none)) =>
      if dir.root then (w, .full)
      else match m.allocCluster w with
        | (none, w) => (w, .full)
        | (some fresh, w) => match m.fatStore last fresh w with
          | (none, w) => (w, .broken)
          | (some _, w) => (w, .free (m.clusterSector fresh, 0))

/-- The step of `dir_place`, which grows a chain that ends; zero where the volume is full. -/
def growChain (c next : ℕ) : M ℕ :=
  if m.chainEoc ≤ next then do
    match ← attempt m.allocCluster with
    | none => pure 0
    | some fresh =>
      m.fatStore c fresh
      pure fresh
  else pure next

def placeSlots (slots : List (Place × Buf)) : M Unit :=
  forEach (fun (place, slot) => do
    m.read place.1 1
    edit fun window => blit window (place.2 * kDirentBytes) slot kDirentBytes
    m.writeBack place.1 1) slots

/-- `dir_place`; the place is that of the last slot. -/
def dirPlace (v : Layout) (dir : Dir) (slots : List Buf) (w : World) (fuel : ℕ) : Option (World × Slot Place) :=
  (m.dirWalk v dir (placeStep slots.length) 1 m.sectorsPerCluster m.growChain ([], false) w fuel).map fun (w, r) =>
    match r with
    | none => (w, .broken)
    | some (.inl _) => (w, .full)
    | some (.inr run) => match m.placeSlots (run.zip slots) w with
      | (none, w) => (w, .broken)
      | (some _, w) => (w, .found (run.getLast?.getD (0, 0)))

/-- `chain_free`, `read_into` and `free_cluster_count` -/
def chainFreeLoop (first : ℕ) (w : World) (fuel : ℕ) : Option (World × Option (Unit ⊕ Unit)) :=
  turns (m.walkTurn m.freeBody) fuel (w, first, ())
def readIntoLoop (dirent : Dirent) (offset wanted : ℕ) (w : World) (fuel : ℕ) :
    Option (World × Option ((ℕ × List UInt8) ⊕ List UInt8)) :=
  turns (m.walkTurn (m.readBody offset (min wanted (dirent.bytes - offset)))) fuel (w, dirent.firstCluster, 0, [])
def freeClusterCount (w : World) (fuel : ℕ) : Option (World × ℕ) := turns m.countTurn fuel (w, 2, none, 0)

end Mount

end Aegir.Fat
