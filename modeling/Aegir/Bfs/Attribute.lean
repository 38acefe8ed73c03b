/-
  Attributes in an inode (`aegir/bfs/attribute.h`, `attribute.cc`): the small data
  entries after an inode's fixed part.
-/
import Aegir.Bfs.Edit

namespace Aegir.Bfs

open Aegir.Lib Aegir.Lib.Buf

/-! ## Small data -/

/-- One small data entry. -/
structure SmallAttribute where
  type : ℕ
  name : Key
  data : List UInt8

/-- `small_entry_size`, in 32 bits. -/
def smallEntrySize (nameLength dataLength : ℕ) : ℕ := (12 + nameLength + dataLength) % 2 ^ 32

/-- The entry at `pos` is the inode's name. -/
def isFileName (b : Buf) (pos : ℕ) : Bool :=
  le 2 b (pos + 4) == 1 && (b (pos + 8)).toNat == kFileNameName

/-- The name of the entry at `pos`. -/
def entryName (b : Buf) (pos : ℕ) : Key := bytes b (pos + 8) (le 2 b (pos + 4))

/-- `small_next`: the first attribute from the cursor on, and the cursor behind it. -/
def smallNext (b : Buf) (inodeSize : ℕ) : ℕ → ℕ → Option (SmallAttribute × ℕ)
  | 0, _ => none
  | fuel + 1, pos =>
    if pos + 8 ≤ inodeSize ∧ le 2 b (pos + 4) ≠ 0 then
      match entrySize b inodeSize pos with
      | none => none
      | some size =>
        if isFileName b pos = false then
          some ({
            type := le 4 b pos
            name := entryName b pos
            data := bytes b (pos + 8 + le 2 b (pos + 4) + 3) (le 2 b (pos + 6)) }, pos + size)
        else smallNext b inodeSize fuel (pos + size)
    else none

/-- What calling `small_next` until it fails hands out. -/
def smallWalk (b : Buf) (inodeSize : ℕ) : ℕ → ℕ → List SmallAttribute
  | 0, _ => []
  | fuel + 1, cursor =>
    match smallNext b inodeSize inodeSize cursor with
    | none => []
    | some (entry, cursor) => entry :: smallWalk b inodeSize fuel cursor

/-- `small_next` along the section from `pos`, up to the entry of that name. -/
def smallFindFrom (b : Buf) (inodeSize : ℕ) (name : Key) : ℕ → ℕ → Option SmallAttribute
  | 0, _ => none
  | fuel + 1, pos =>
    if pos + 8 ≤ inodeSize ∧ le 2 b (pos + 4) ≠ 0 then
      match entrySize b inodeSize pos with
      | none => none
      | some size =>
        if isFileName b pos = false ∧ entryName b pos = name then
          some {
            type := le 4 b pos
            name := entryName b pos
            data := bytes b (pos + 8 + le 2 b (pos + 4) + 3) (le 2 b (pos + 6)) }
        else smallFindFrom b inodeSize name fuel (pos + size)
    else none

def smallFind (b : Buf) (inodeSize : ℕ) (name : Key) : Option SmallAttribute :=
  smallFindFrom b inodeSize name inodeSize InodeField.kSmallData

/-- `locate`: the last entry of that name, `0` without one, and the section's end. -/
def locateFrom (b : Buf) (inodeSize : ℕ) (name : Key) : ℕ → ℕ → ℕ → Option (ℕ × ℕ)
  | 0, _, _ => none
  | fuel + 1, pos, found =>
    if pos + 8 ≤ inodeSize ∧ le 2 b (pos + 4) ≠ 0 then
      match entrySize b inodeSize pos with
      | none => none
      | some size =>
        locateFrom b inodeSize name fuel (pos + size)
          (if isFileName b pos = false ∧ entryName b pos = name then pos else found)
    else some (found, pos)

def locate (b : Buf) (inodeSize : ℕ) (name : Key) : Option (ℕ × ℕ) :=
  locateFrom b inodeSize name (inodeSize + 1) InodeField.kSmallData 0

/-- Take the entry of `size` bytes at `pos` out of a section that ends at `end_`. -/
def closeGap (b : Buf) (pos size end_ : ℕ) : Buf := blit b pos (slice b (pos + size)) (end_ - (pos + size))

/-- Zeros from `lo` up to `hi`. -/
def zeroBytes (b : Buf) (lo hi : ℕ) : Buf := blit b lo zero (hi - lo)

/-- `small_set`: an entry of that name goes, the new one comes last. -/
def smallSet (b : Buf) (inodeSize type : ℕ) (name : Key) (data : List UInt8) : Option Buf :=
  if name.length = 0 ∨ kMaxName < name.length then none else
  match locate b inodeSize name with
  | none => none
  | some (foundAt, end_) =>
    let needed := smallEntrySize name.length data.length
    let oldSize := if foundAt ≠ 0 then (entrySize b inodeSize foundAt).getD 0 else 0
    if inodeSize - end_ + oldSize < needed then none else
    let b := if foundAt ≠ 0 then closeGap b foundAt oldSize end_ else b
    let end_ := end_ - oldSize
    let b := put 4 b end_ type
    let b := put 2 b (end_ + 4) name.length
    let b := put 2 b (end_ + 6) data.length
    let b := puts b (end_ + 8) (name ++ [0, 0, 0] ++ data ++ [0])
    some (zeroBytes b (end_ + needed) inodeSize)

def smallRemove (b : Buf) (inodeSize : ℕ) (name : Key) : Option Buf :=
  match locate b inodeSize name with
  | none => none
  | some (foundAt, end_) =>
    if foundAt = 0 then none else
    let size := (entrySize b inodeSize foundAt).getD 0
    some (zeroBytes (closeGap b foundAt size end_) (end_ - size) inodeSize)

end Aegir.Bfs
