/-
  The small data section as a map (`attribute.cc`).
-/
import Aegir.Bfs.Attribute

namespace Aegir.Bfs

open Aegir.Lib Aegir.Lib.Buf

def kFileName : Key := [UInt8.ofNat kFileNameName]

/-! ## Entries in a block -/

def SmallAttribute.size (e : SmallAttribute) : ℕ := 12 + e.name.length + e.data.length

def smallSizes (es : List SmallAttribute) : ℕ := (es.map SmallAttribute.size).sum

@[simp] theorem smallSizes_nil : smallSizes [] = 0 := rfl

@[simp] theorem smallSizes_cons (e : SmallAttribute) (es : List SmallAttribute) :
    smallSizes (e :: es) = e.size + smallSizes es := by simp [smallSizes]

@[simp] theorem smallSizes_append (es fs : List SmallAttribute) :
    smallSizes (es ++ fs) = smallSizes es + smallSizes fs := by simp [smallSizes]

theorem smallSizes_without (l r : List SmallAttribute) (e : SmallAttribute) :
    InodeField.kSmallData + smallSizes (l ++ e :: r) - e.size = InodeField.kSmallData + smallSizes (l ++ r) := by
  rw [smallSizes_append, smallSizes_append, smallSizes_cons]
  omega

/-- The entry at `pos` is `e`.  No walker reads its pads and its terminator. -/
structure EntryAt (b : Buf) (n pos : ℕ) (e : SmallAttribute) : Prop where
  named : e.name ≠ []
  fits : pos + e.size ≤ n
  type : le 4 b pos = e.type
  nameLength : le 2 b (pos + 4) = e.name.length
  dataLength : le 2 b (pos + 6) = e.data.length
  name : bytes b (pos + 8) e.name.length = e.name
  data : bytes b (pos + 8 + e.name.length + 3) e.data.length = e.data

/-- The entries from `pos` on start with those of the list. -/
def Entries (b : Buf) (n : ℕ) : ℕ → List SmallAttribute → Prop
  | _, [] => True
  | pos, e :: es => EntryAt b n pos e ∧ Entries b n (pos + e.size) es

/-- No walk goes on at `pos`. -/
def SmallEnd (b : Buf) (n pos : ℕ) : Prop := ¬ (pos + 8 ≤ n ∧ le 2 b (pos + 4) ≠ 0)

section
variable {b b' : Buf} {n pos pos' : ℕ} {e : SmallAttribute} {es fs : List SmallAttribute}

theorem EntryAt.congr (h : EntryAt b n pos e) (hb : ∀ k < e.size, b' (pos' + k) = b (pos + k))
    (hfits : pos' + e.size ≤ n) : EntryAt b' n pos' e := by
  have hle : ∀ w i, i + w ≤ e.size → le w b' (pos' + i) = le w b (pos + i) := fun w i hi =>
    le_congr fun k hk => by rw [Nat.add_assoc, Nat.add_assoc, hb (i + k) (by omega)]
  have hbytes : ∀ i m, i + m ≤ e.size → bytes b' (pos' + i) m = bytes b (pos + i) m := fun i m hi =>
    bytes_congr fun k hk => by rw [Nat.add_assoc, Nat.add_assoc, hb (i + k) (by omega)]
  have hsize : e.size = 12 + e.name.length + e.data.length := rfl
  refine ⟨h.named, hfits, ?_, ?_, ?_, ?_, ?_⟩
  · exact (hle 4 0 (by omega)).trans h.type
  · exact (hle 2 4 (by omega)).trans h.nameLength
  · exact (hle 2 6 (by omega)).trans h.dataLength
  · exact (hbytes 8 _ (by omega)).trans h.name
  · have := hbytes (8 + e.name.length + 3) e.data.length (by omega)
    simp only [← Nat.add_assoc] at this
    exact this.trans h.data

theorem Entries.congr (h : Entries b n pos es) (hb : ∀ k < smallSizes es, b' (pos' + k) = b (pos + k))
    (hfits : pos' + smallSizes es ≤ n) : Entries b' n pos' es := by
  induction es generalizing pos pos' with
  | nil => trivial
  | cons e es ih =>
    rw [smallSizes_cons] at hb hfits
    refine ⟨h.1.congr (fun k hk => hb k (by omega)) (by omega), ih h.2 (fun k hk => ?_) (by omega)⟩
    rw [Nat.add_assoc, Nat.add_assoc, hb (e.size + k) (by omega)]

theorem entries_append : Entries b n pos (es ++ fs) ↔ Entries b n pos es ∧ Entries b n (pos + smallSizes es) fs := by
  induction es generalizing pos with
  | nil => simp [Entries]
  | cons e es ih =>
    rw [List.cons_append, Entries, Entries, ih, smallSizes_cons, Nat.add_assoc, and_assoc]

theorem Entries.fits (h : Entries b n pos es) (hpos : pos ≤ n) : pos + smallSizes es ≤ n := by
  induction es generalizing pos with
  | nil => exact hpos
  | cons e es ih =>
    have := ih h.2 h.1.fits
    rw [smallSizes_cons]
    omega

theorem length_le_smallSizes (es : List SmallAttribute) : es.length ≤ smallSizes es := by
  induction es with
  | nil => simp
  | cons e es ih =>
    rw [List.length_cons, smallSizes_cons, SmallAttribute.size]
    omega

/-! ### One step of a walk -/

theorem EntryAt.continues (h : EntryAt b n pos e) : pos + 8 ≤ n ∧ le 2 b (pos + 4) ≠ 0 := by
  have hfits := h.fits
  rw [SmallAttribute.size] at hfits
  refine ⟨by omega, ?_⟩
  rw [h.nameLength]
  exact fun h0 => h.named (List.length_eq_zero_iff.1 h0)

theorem EntryAt.entrySize (h : EntryAt b n pos e) : entrySize b n pos = some e.size := by
  have hs : 8 + e.name.length + 3 + e.data.length + 1 = e.size := by
    rw [SmallAttribute.size]; omega
  rw [Bfs.entrySize, h.nameLength, h.dataLength, hs, if_pos h.fits]

theorem EntryAt.entryName (h : EntryAt b n pos e) : entryName b pos = e.name := by
  rw [Bfs.entryName, h.nameLength, h.name]

theorem EntryAt.isFileName (h : EntryAt b n pos e) : isFileName b pos = decide (e.name = kFileName) := by
  rw [Bool.eq_iff_iff, decide_eq_true_iff, Bfs.isFileName, h.nameLength, Bool.and_eq_true, beq_iff_eq, beq_iff_eq]
  have hn := h.name
  constructor
  · rintro ⟨h₁, h₂⟩
    rw [h₁] at hn
    rw [← hn, kFileName, ← h₂]
    simp [bytes]
  · intro hk
    rw [hk] at hn
    have h₀ : b (pos + 8) = UInt8.ofNat kFileNameName := by simpa [bytes, kFileName] using hn
    exact ⟨by rw [hk]; rfl, by rw [h₀]; rfl⟩

theorem EntryAt.read (h : EntryAt b n pos e) :
    (⟨le 4 b pos, Bfs.entryName b pos, bytes b (pos + 8 + le 2 b (pos + 4) + 3) (le 2 b (pos + 6))⟩ :
      SmallAttribute) = e := by
  rw [h.entryName, h.type, h.nameLength, h.dataLength, h.data]

end

/-! ## What the walkers see -/

def smallAttributes (es : List SmallAttribute) : List SmallAttribute := es.filter fun e => e.name ≠ kFileName

def smallLookup (es : List SmallAttribute) (name : Key) : Option SmallAttribute :=
  (smallAttributes es).find? fun e => e.name = name

def smallName (es : List SmallAttribute) : Option (List UInt8) :=
  (es.find? fun e => e.name = kFileName).bind fun e =>
    if kMaxName < (dropZeros e.data).length then none else some (dropZeros e.data)

section
variable {b : Buf} {n fuel pos : ℕ} {es fs : List SmallAttribute} {name : Key}

theorem smallNext_entries (h : Entries b n pos es) (hend : SmallEnd b n (pos + smallSizes es))
    (hfuel : es.length < fuel) :
    (smallAttributes es = [] → smallNext b n fuel pos = none) ∧
    ∀ a as, smallAttributes es = a :: as → ∃ cursor rest, smallNext b n fuel pos = some (a, cursor) ∧
      Entries b n cursor rest ∧ cursor + smallSizes rest = pos + smallSizes es ∧
      smallAttributes rest = as ∧ rest.length < es.length := by
  induction es generalizing pos fuel with
  | nil =>
    obtain _ | fuel := fuel
    · simp at hfuel
    · refine ⟨fun _ => ?_, fun a as ha => by simp [smallAttributes] at ha⟩
      rw [smallNext, if_neg (show SmallEnd b n pos from hend)]
  | cons e es ih =>
    obtain _ | fuel := fuel
    · simp at hfuel
    · have hread := h.1.read
      rw [smallNext, if_pos h.1.continues, h.1.entrySize, h.1.isFileName]
      dsimp only
      rw [smallSizes_cons, ← Nat.add_assoc] at hend ⊢
      by_cases he : e.name = kFileName
      · -- the inode's name: the walk goes on behind it
        have hskip : smallAttributes (e :: es) = smallAttributes es := by simp [smallAttributes, he]
        obtain ⟨h₁, h₂⟩ := ih h.2 hend (by simpa using hfuel)
        rw [if_neg (by simp [he]), hskip]
        refine ⟨h₁, fun a as ha => ?_⟩
        obtain ⟨cursor, rest, hn, hr, hs, ht, hl⟩ := h₂ a as ha
        exact ⟨cursor, rest, hn, hr, hs, ht, by rw [List.length_cons]; omega⟩
      · have htake : smallAttributes (e :: es) = e :: smallAttributes es := by simp [smallAttributes, he]
        rw [if_pos (by simp [he]), htake, hread]
        refine ⟨fun ha => by simp at ha, fun a as ha => ?_⟩
        obtain ⟨rfl, rfl⟩ := List.cons.inj ha
        exact ⟨pos + e.size, es, rfl, h.2, rfl, rfl, by simp⟩

theorem smallWalk_entries (h : Entries b n pos es) (hend : SmallEnd b n (pos + smallSizes es))
    (hn : es.length < n) (hfuel : es.length < fuel) : smallWalk b n fuel pos = smallAttributes es := by
  induction fuel generalizing pos es with
  | zero => simp at hfuel
  | succ fuel ih =>
    obtain ⟨h₁, h₂⟩ := smallNext_entries h hend hn
    rw [smallWalk]
    rcases ha : smallAttributes es with _ | ⟨a, as⟩
    · rw [h₁ ha]
    · obtain ⟨cursor, rest, hnext, hr, hs, rfl, hl⟩ := h₂ a as ha
      rw [hnext]
      dsimp only
      rw [ih hr (hs ▸ hend) (by omega) (by omega)]

theorem smallFindFrom_entries (h : Entries b n pos es) (hend : SmallEnd b n (pos + smallSizes es))
    (hfuel : es.length < fuel) : smallFindFrom b n name fuel pos = smallLookup es name := by
  induction es generalizing pos fuel with
  | nil =>
    obtain _ | fuel := fuel
    · simp at hfuel
    · rw [smallFindFrom, if_neg (show SmallEnd b n pos from hend)]; rfl
  | cons e es ih =>
    obtain _ | fuel := fuel
    · simp at hfuel
    · have hread := h.1.read
      rw [smallSizes_cons, ← Nat.add_assoc] at hend
      have hih := ih h.2 hend (by simpa using hfuel)
      rw [smallFindFrom, if_pos h.1.continues, h.1.entrySize, h.1.isFileName, hread, h.1.entryName]
      dsimp only
      by_cases he : e.name = kFileName
      · rw [if_neg (by simp [he]), hih]
        simp [smallLookup, smallAttributes, he]
      · by_cases hk : e.name = name
        · rw [if_pos ⟨by simp [he], hk⟩]
          rw [smallLookup, smallAttributes, List.filter_cons_of_pos (by simp [he]),
            List.find?_cons_of_pos (by simp [hk])]
        · rw [if_neg (by simp [hk]), hih]
          rw [smallLookup, smallLookup, smallAttributes, smallAttributes,
            List.filter_cons_of_pos (by simp [he]), List.find?_cons_of_neg (by simp [hk])]

theorem smallFileName_entries (h : Entries b n pos es) (hend : SmallEnd b n (pos + smallSizes es))
    (hfuel : es.length < fuel) : smallFileName b n fuel pos = smallName es := by
  induction es generalizing pos fuel with
  | nil =>
    obtain _ | fuel := fuel
    · simp at hfuel
    · rw [smallFileName, if_neg (show SmallEnd b n pos from hend)]; rfl
  | cons e es ih =>
    obtain _ | fuel := fuel
    · simp at hfuel
    · rw [smallSizes_cons, ← Nat.add_assoc] at hend
      have hfile := h.1.isFileName
      rw [isFileName, Bool.eq_iff_iff, Bool.and_eq_true, beq_iff_eq, beq_iff_eq, decide_eq_true_iff] at hfile
      rw [smallFileName, if_pos h.1.continues, h.1.entrySize]
      dsimp only
      by_cases he : e.name = kFileName
      · rw [if_pos (hfile.2 he), smallName, List.find?_cons_of_pos (by simp [he]), h.1.dataLength]
        have hdata := h.1.data
        rw [show e.name.length = 1 by rw [he]; rfl] at hdata
        rw [hdata]
        rfl
      · rw [if_neg fun hf => he (hfile.1 hf), ih h.2 hend (by simpa using hfuel), smallName, smallName,
          List.find?_cons_of_neg (by simp [he])]

theorem locateFrom_entries (h : Entries b n pos es) (hne : ∀ e ∈ es, e.name = kFileName ∨ e.name ≠ name)
    (hfuel : es.length ≤ fuel) (found : ℕ) :
    locateFrom b n name fuel pos found = locateFrom b n name (fuel - es.length) (pos + smallSizes es) found := by
  induction es generalizing pos fuel with
  | nil => rfl
  | cons e es ih =>
    obtain _ | fuel := fuel
    · simp at hfuel
    · have hhead := hne e (by simp)
      rw [locateFrom, if_pos h.1.continues, h.1.entrySize, h.1.isFileName, h.1.entryName]
      dsimp only
      rw [if_neg, ih h.2 (fun e he => hne e (by simp [he])) (by simpa using hfuel), smallSizes_cons, Nat.add_assoc,
        List.length_cons, Nat.add_sub_add_right]
      rintro ⟨h₁, h₂⟩
      exact hhead.elim (by simpa using h₁) (fun h => h h₂)

end

/-! ## The section and its edits -/

/-- The section of the block holds the entries: they follow the inode's fixed part and
    lie within the inode, a terminator ends them, and no two have one name. -/
structure SmallSection (b : Buf) (n : ℕ) (es : List SmallAttribute) : Prop where
  start : InodeField.kSmallData ≤ n
  entries : Entries b n InodeField.kSmallData es
  last : SmallEnd b n (InodeField.kSmallData + smallSizes es)
  distinct : (es.map SmallAttribute.name).Nodup

/-- The entries that stay when the attribute of that name goes. -/
def smallKept (es : List SmallAttribute) (name : Key) : List SmallAttribute :=
  es.filter fun e => e.name = kFileName ∨ e.name ≠ name

/-- The block with the entry at `pos` and zeros behind it. -/
def placeEntry (b : Buf) (n pos : ℕ) (e : SmallAttribute) : Buf :=
  zeroBytes (puts (put 2 (put 2 (put 4 b pos e.type) (pos + 4) e.name.length) (pos + 6) e.data.length) (pos + 8)
    (e.name ++ [0, 0, 0] ++ e.data ++ [0])) (pos + smallEntrySize e.name.length e.data.length) n

section
variable {b c : Buf} {n pos : ℕ} {l r es : List SmallAttribute} {e : SmallAttribute} {name : Key}

theorem smallEnd_zeroBytes : SmallEnd (zeroBytes c pos n) n pos := by
  rintro ⟨h₁, h₂⟩
  refine h₂ ?_
  rw [zeroBytes, le_blit (by omega) (by omega), le_zero]

theorem Entries.zeroBytes (h : Entries c n pos es) (hfits : pos + smallSizes es ≤ n) :
    Entries (zeroBytes c (pos + smallSizes es) n) n pos es :=
  h.congr (fun _ _ => blit_of_notMem (Or.inl (by omega))) hfits

theorem Entries.closeGap (h : Entries b n pos (l ++ e :: r)) (hpos : pos ≤ n) :
    Entries (closeGap b (pos + smallSizes l) e.size (pos + smallSizes (l ++ e :: r))) n pos (l ++ r) := by
  have hfits := h.fits hpos
  rw [smallSizes_append, smallSizes_cons] at hfits ⊢
  rw [entries_append] at h ⊢
  obtain ⟨hl, -, hr⟩ := h
  refine ⟨hl.congr (fun k hk => ?_) (by omega), hr.congr (fun k hk => ?_) (by omega)⟩
  · rw [Bfs.closeGap, blit_of_notMem (Or.inl (by omega))]
  · rw [Bfs.closeGap, blit_of_mem (by omega) (by omega), slice_apply]
    congr 1
    omega

theorem smallEntrySize_eq (h : e.size < 2 ^ 32) : smallEntrySize e.name.length e.data.length = e.size := by
  rw [smallEntrySize, SmallAttribute.size]
  exact Nat.mod_eq_of_lt h

theorem placeEntry_of_lt {i : ℕ} (h : i < pos) : placeEntry b n pos e i = b i := by
  rw [placeEntry, zeroBytes, blit_of_notMem (Or.inl (by omega)), puts_of_notMem (Or.inl (by omega)),
    put_of_notMem (Or.inl (by omega)), put_of_notMem (Or.inl (by omega)), put_of_notMem (Or.inl h)]

theorem placeEntry_entryAt (hname : e.name ≠ []) (hfits : pos + e.size ≤ n) (htype : e.type < 2 ^ 32)
    (hn : e.name.length < 2 ^ 16) (hd : e.data.length < 2 ^ 16) : EntryAt (placeEntry b n pos e) n pos e := by
  have hsize : e.size = 12 + e.name.length + e.data.length := rfl
  have hneeded := smallEntrySize_eq (e := e) (by omega)
  have hle : ∀ w i, i + w ≤ pos + 8 → le w (placeEntry b n pos e) i =
      le w (put 2 (put 2 (put 4 b pos e.type) (pos + 4) e.name.length) (pos + 6) e.data.length) i := by
    intro w i hi
    refine le_congr fun k hk => ?_
    rw [placeEntry, hneeded, zeroBytes, blit_of_notMem (Or.inl (by omega)), puts_of_notMem (Or.inl (by omega))]
  have hbyte : ∀ k (hk : k < (e.name ++ [0, 0, 0] ++ e.data ++ [0]).length),
      placeEntry b n pos e (pos + 8 + k) = (e.name ++ [0, 0, 0] ++ e.data ++ [0])[k] := by
    intro k hk
    have hlen : (e.name ++ [0, 0, 0] ++ e.data ++ [0]).length = e.name.length + 3 + e.data.length + 1 := by
      simp; omega
    rw [placeEntry, hneeded, zeroBytes, blit_of_notMem (Or.inl (by omega)), puts_of_mem hk]
  refine ⟨hname, hfits, ?_, ?_, ?_, ?_, ?_⟩
  · rw [hle 4 pos (by omega), le_put_of_disjoint (by omega), le_put_of_disjoint (by omega), le_put_of_lt htype]
  · rw [hle 2 (pos + 4) (by omega), le_put_of_disjoint (by omega), le_put_of_lt hn]
  · rw [hle 2 (pos + 6) (by omega), le_put_of_lt hd]
  · refine bytes_eq_of_forall fun k hk => ?_
    rw [hbyte k (by simp; omega), List.getElem_append_left (by simp; omega), List.getElem_append_left (by simp; omega),
      List.getElem_append_left hk]
  · refine bytes_eq_of_forall fun k hk => ?_
    have h₁ : pos + 8 + e.name.length + 3 + k = pos + 8 + (e.name.length + 3 + k) := by omega
    have h₂ : (e.name ++ [0, 0, 0]).length = e.name.length + 3 := by simp
    rw [h₁, hbyte _ (by simp; omega), List.getElem_append_left (by simp; omega),
      List.getElem_append_right (by omega)]
    congr 1
    omega

theorem placeEntry_end (hsize : e.size < 2 ^ 32) : SmallEnd (placeEntry b n pos e) n (pos + e.size) := by
  rw [placeEntry, smallEntrySize_eq hsize]
  exact smallEnd_zeroBytes

namespace SmallSection
variable (h : SmallSection b n es)
include h

theorem fits : InodeField.kSmallData + smallSizes es ≤ n := h.entries.fits h.start

theorem length_lt : es.length < n := by
  have h₁ := h.fits
  have h₂ := length_le_smallSizes es
  rw [InodeField.kSmallData] at h₁
  omega

/-! ### The walkers -/

theorem walk : smallWalk b n n InodeField.kSmallData = smallAttributes es :=
  smallWalk_entries h.entries h.last h.length_lt h.length_lt

theorem find (name : Key) : smallFind b n name = smallLookup es name :=
  smallFindFrom_entries h.entries h.last h.length_lt

theorem fileName : smallFileName b n n InodeField.kSmallData = smallName es :=
  smallFileName_entries h.entries h.last h.length_lt

theorem locate (name : Key) :
    ((∀ e ∈ es, e.name = kFileName ∨ e.name ≠ name) ∧ smallKept es name = es ∧
      Bfs.locate b n name = some (0, InodeField.kSmallData + smallSizes es)) ∨
    ∃ l e r, es = l ++ e :: r ∧ e.name = name ∧ name ≠ kFileName ∧ smallKept es name = l ++ r ∧
      Bfs.locate b n name =
        some (InodeField.kSmallData + smallSizes l, InodeField.kSmallData + smallSizes es) := by
  have hlen := h.length_lt
  by_cases hall : ∀ e ∈ es, e.name = kFileName ∨ e.name ≠ name
  · refine Or.inl ⟨hall, List.filter_eq_self.2 fun e he => decide_eq_true (hall e he), ?_⟩
    rw [Bfs.locate, locateFrom_entries h.entries hall (by omega),
      show n + 1 - es.length = n - es.length + 1 by omega, locateFrom, if_neg h.last]
  · push Not at hall
    obtain ⟨e, he, hfile, rfl⟩ := hall
    obtain ⟨l, r, rfl⟩ := List.append_of_mem he
    -- no other entry has the name
    have hdistinct := h.distinct
    rw [List.map_append, List.map_cons, List.nodup_middle, List.nodup_cons, ← List.map_append] at hdistinct
    have hne : ∀ f ∈ l ++ r, f.name ≠ e.name := fun f hf heq => hdistinct.1 (List.mem_map.2 ⟨f, hf, heq⟩)
    have hl : ∀ f ∈ l, f.name = kFileName ∨ f.name ≠ e.name := fun f hf => Or.inr (hne f (by simp [hf]))
    have hr : ∀ f ∈ r, f.name = kFileName ∨ f.name ≠ e.name := fun f hf => Or.inr (hne f (by simp [hf]))
    have hentries := h.entries
    rw [entries_append] at hentries
    obtain ⟨hel, he', her⟩ := hentries
    refine Or.inr ⟨l, e, r, rfl, rfl, hfile, ?_, ?_⟩
    · rw [smallKept, List.filter_append, List.filter_cons_of_neg (by simp [hfile]),
        List.filter_eq_self.2 fun f hf => decide_eq_true (hl f hf),
        List.filter_eq_self.2 fun f hf => decide_eq_true (hr f hf)]
    · rw [List.length_append, List.length_cons] at hlen
      have hlast := h.last
      rw [smallSizes_append, smallSizes_cons] at hlast ⊢
      rw [Bfs.locate, locateFrom_entries hel hl (by omega),
        show n + 1 - l.length = n - l.length + 1 by omega, locateFrom, if_pos he'.continues, he'.entrySize,
        he'.isFileName, he'.entryName]
      dsimp only
      rw [if_pos ⟨by simp [hfile], rfl⟩, locateFrom_entries her hr (by omega),
        show n - l.length - r.length = n - l.length - r.length - 1 + 1 by omega, locateFrom,
        if_neg (show SmallEnd b n (InodeField.kSmallData + smallSizes l + e.size + smallSizes r) by
          simpa only [Nat.add_assoc] using hlast)]
      simp only [Nat.add_assoc]

/-! ### The edits -/

/-- `small_set` on the list: refused when the entry does not fit beside those that stay,
    else placed behind them. -/
theorem set (h₁ : 0 < name.length) (h₂ : name.length ≤ kMaxName) (type : ℕ) (data : List UInt8) :
    ∃ c, Entries c n InodeField.kSmallData (smallKept es name) ∧
      smallSet b n type name data =
        if n < InodeField.kSmallData + smallSizes (smallKept es name) + smallEntrySize name.length data.length
        then none
        else some (placeEntry c n (InodeField.kSmallData + smallSizes (smallKept es name)) ⟨type, name, data⟩) := by
  have hfits := h.fits
  have hname : ¬ (name.length = 0 ∨ kMaxName < name.length) := by omega
  rcases h.locate name with ⟨-, hkept, hloc⟩ | ⟨l, e, r, rfl, -, -, hkept, hloc⟩
  · rw [hkept]
    refine ⟨b, h.entries, ?_⟩
    rw [smallSet, if_neg hname, hloc]
    simp only [ne_eq, not_true_eq_false, if_false, Nat.add_zero, Nat.sub_zero]
    refine if_congr (by omega) rfl rfl
  · have hentries := h.entries
    have he : EntryAt b n (InodeField.kSmallData + smallSizes l) e := (entries_append.1 hentries).2.1
    have hat : InodeField.kSmallData + smallSizes l ≠ 0 := by rw [InodeField.kSmallData]; omega
    rw [hkept]
    refine ⟨_, hentries.closeGap h.start, ?_⟩
    rw [smallSet, if_neg hname, hloc]
    dsimp only
    rw [if_pos hat, if_pos hat, he.entrySize, Option.getD_some]
    rw [smallSizes_append, smallSizes_cons] at hfits
    rw [smallSizes_without]
    refine if_congr ?_ rfl rfl
    rw [smallSizes_append, smallSizes_append, smallSizes_cons]
    omega

theorem remove (name : Key) :
    ((∀ e ∈ es, e.name = kFileName ∨ e.name ≠ name) ∧ smallRemove b n name = none) ∨
    ((∃ e ∈ es, e.name = name) ∧ name ≠ kFileName ∧
      ∃ b', smallRemove b n name = some b' ∧ SmallSection b' n (smallKept es name)) := by
  have hfits := h.fits
  rcases h.locate name with ⟨hall, -, hloc⟩ | ⟨l, e, r, rfl, hname, hfile, hkept, hloc⟩
  · refine Or.inl ⟨hall, ?_⟩
    rw [smallRemove, hloc]
    rfl
  · have hentries := h.entries
    have he : EntryAt b n (InodeField.kSmallData + smallSizes l) e := (entries_append.1 hentries).2.1
    have hat : InodeField.kSmallData + smallSizes l ≠ 0 := by rw [InodeField.kSmallData]; omega
    rw [smallSizes_append, smallSizes_cons] at hfits
    have hrun : smallRemove b n name = some (Bfs.zeroBytes (Bfs.closeGap b (InodeField.kSmallData + smallSizes l)
        e.size (InodeField.kSmallData + smallSizes (l ++ e :: r))) (InodeField.kSmallData + smallSizes (l ++ r)) n) := by
      rw [smallRemove, hloc]
      dsimp only
      rw [if_neg hat, he.entrySize, Option.getD_some, smallSizes_without]
    have hroom : InodeField.kSmallData + smallSizes (l ++ r) ≤ n := by rw [smallSizes_append]; omega
    refine Or.inr ⟨⟨e, by simp, hname⟩, hfile, _, hrun, ?_⟩
    rw [hkept]
    refine ⟨h.start, (hentries.closeGap h.start).zeroBytes hroom, smallEnd_zeroBytes, ?_⟩
    rw [← hkept]
    exact h.distinct.sublist (List.filter_sublist.map _)

theorem placed {c : Buf} (hc : Entries c n InodeField.kSmallData (smallKept es name))
    {new : SmallAttribute} (hname : new.name = name) (h₁ : 0 < name.length) (h₂ : name.length ≤ kMaxName)
    (hfile : name ≠ kFileName) (htype : new.type < 2 ^ 32) (hd : new.data.length < 2 ^ 16)
    (hfits : InodeField.kSmallData + smallSizes (smallKept es name) + new.size ≤ n) :
    SmallSection (placeEntry c n (InodeField.kSmallData + smallSizes (smallKept es name)) new) n
      (smallKept es name ++ [new]) := by
  have hK : kMaxName = 255 := rfl
  have hsize : new.size = 12 + new.name.length + new.data.length := rfl
  rw [hname] at hsize
  refine ⟨h.start, entries_append.2 ⟨?_, ?_, trivial⟩, ?_, ?_⟩
  · exact hc.congr (fun _ _ => placeEntry_of_lt (by omega)) (by omega)
  · refine placeEntry_entryAt ?_ hfits htype (by rw [hname]; omega) hd
    rw [hname]
    exact List.length_pos_iff.1 h₁
  · rw [smallSizes_append, smallSizes_cons, smallSizes_nil, Nat.add_zero, ← Nat.add_assoc]
    exact placeEntry_end (by omega)
  · rw [List.map_append, List.nodup_append']
    refine ⟨h.distinct.sublist (List.filter_sublist.map _), by simp, ?_⟩
    rintro k hk hk'
    obtain ⟨e, he, rfl⟩ := List.mem_map.1 hk
    have heq : e.name = name := by simpa [hname] using hk'
    have := (List.mem_filter.1 he).2
    simp only [heq, hfile, ne_eq, not_true_eq_false, or_self, decide_false, Bool.false_eq_true] at this

end SmallSection

end

/-! ## The map -/

section
variable (es : List SmallAttribute) {name other : Key} (new : SmallAttribute)

theorem smallLookup_kept (h : other ≠ name) :
    smallLookup (smallKept es name) other = smallLookup es other := by
  rw [smallLookup, smallLookup, smallAttributes, smallAttributes, smallKept, List.filter_filter, List.find?_filter,
    List.find?_filter]
  refine congrArg (List.find? · es) (funext fun e => ?_)
  by_cases he : e.name = other
  · simp [he, h]
  · simp [he]

theorem smallLookup_kept_self (name : Key) : smallLookup (smallKept es name) name = none := by
  rw [smallLookup, List.find?_eq_none]
  intro e he
  rw [smallAttributes, List.mem_filter, smallKept, List.mem_filter] at he
  simp only [decide_eq_true_eq] at he ⊢
  exact he.1.2.resolve_left he.2

theorem smallName_kept (name : Key) : smallName (smallKept es name) = smallName es := by
  rw [smallName, smallName, smallKept, List.find?_filter]
  congr 2
  funext e
  by_cases he : e.name = kFileName
  · simp [he]
  · simp [he]

theorem smallLookup_new (hnew : new.name = name) (hfile : name ≠ kFileName) :
    smallLookup (smallKept es name ++ [new]) name = some new := by
  have hnone : smallLookup (smallKept es name) name = none := smallLookup_kept_self es name
  rw [smallLookup] at hnone
  rw [smallLookup, smallAttributes, List.filter_append, List.find?_append, ← smallAttributes, hnone]
  simp [hnew, hfile]

theorem smallLookup_new_ne (hnew : new.name = name) (h : other ≠ name) :
    smallLookup (smallKept es name ++ [new]) other = smallLookup es other := by
  have hnone : smallLookup [new] other = none := by
    refine List.find?_eq_none.2 fun e he => ?_
    obtain rfl : e = new := by simpa using (List.mem_filter.1 he).1
    simpa [hnew] using h.symm
  rw [smallLookup, smallAttributes] at hnone
  rw [← smallLookup_kept es h, smallLookup, smallLookup, smallAttributes, smallAttributes, List.filter_append,
    List.find?_append, hnone, Option.or_none]

theorem smallName_new (hnew : new.name = name) (hfile : name ≠ kFileName) :
    smallName (smallKept es name ++ [new]) = smallName es := by
  rw [← smallName_kept es name, smallName, smallName, List.find?_append, List.find?_cons_of_neg, List.find?_nil,
    Option.or_none]
  simpa [hnew] using hfile

theorem smallLookup_iff {es : List SmallAttribute} (h : (es.map SmallAttribute.name).Nodup) {e : SmallAttribute} :
    e ∈ smallAttributes es ↔ smallLookup es e.name = some e := by
  constructor
  · intro he
    rcases hf : smallLookup es e.name with _ | f
    · exact absurd (decide_eq_true rfl) (List.find?_eq_none.1 hf e he)
    · have hname : f.name = e.name := by simpa using List.find?_some hf
      have hmem : f ∈ es := (List.mem_filter.1 (List.mem_of_find?_eq_some hf)).1
      rw [List.inj_on_of_nodup_map h hmem (List.mem_filter.1 he).1 hname]
  · exact List.mem_of_find?_eq_some

end

section
variable {b b' : Buf} {n type : ℕ} {name : Key} {data : List UInt8}

theorem smallFindFrom_some {fuel pos : ℕ} {a : SmallAttribute} (h : smallFindFrom b n name fuel pos = some a) :
    name ≠ kFileName ∧ a.data.length < 2 ^ 16 := by
  induction fuel generalizing pos with
  | zero => cases h
  | succ fuel ih =>
    rw [smallFindFrom] at h
    split at h
    · split at h
      · cases h
      · split at h
        · obtain ⟨hfile, hname⟩ := ‹_ ∧ _›
          cases h
          refine ⟨?_, ?_⟩
          · rintro rfl
            have hlen := congrArg List.length hname
            rw [entryName, length_bytes] at hlen
            rw [entryName, hlen] at hname
            have h₀ : b (pos + 8) = UInt8.ofNat kFileNameName := by simpa [bytes, kFileName] using hname
            rw [isFileName, hlen, h₀] at hfile
            exact absurd hfile (by decide)
          · rw [length_bytes]
            exact le_lt 2 b (pos + 6)
        · exact ih h
    · cases h

/-- A walk hands out every attribute once: what it hands out is what is found. -/
structure SmallEnumerates (b : Buf) (n : ℕ) : Prop where
  once : ((smallWalk b n n InodeField.kSmallData).map SmallAttribute.name).Nodup
  all : ∀ e, e ∈ smallWalk b n n InodeField.kSmallData ↔ smallFind b n e.name = some e

/-- From `b` to `b'` no attribute but `name` changes, and neither does the inode's name. -/
structure SmallSame (b b' : Buf) (n : ℕ) (name : Key) : Prop where
  others : ∀ other, other ≠ name → smallFind b' n other = smallFind b n other
  fileName : smallFileName b' n n InodeField.kSmallData = smallFileName b n n InodeField.kSmallData
  wellFormed : ∃ es, SmallSection b' n es
  enumerates : SmallEnumerates b' n

/-- `small_remove` takes that attribute out of the block and changes no other. -/
def SmallRemoves (b : Buf) (n : ℕ) (name : Key) : Prop :=
  ∃ b', smallRemove b n name = some b' ∧ smallFind b' n name = none ∧ SmallSame b b' n name

/-- `small_set` with these arguments is the update of a map: it is refused, or what is
    then found is the value, nothing else has changed, and `small_remove` undoes it. -/
def SmallSets (b : Buf) (n type : ℕ) (name : Key) (data : List UInt8) : Prop :=
  ∀ b', smallSet b n type name data = some b' →
    smallFind b' n name = some ⟨type, name, data⟩ ∧ SmallSame b b' n name ∧ SmallRemoves b' n name

def SmallFits (b : Buf) (n : ℕ) (name : Key) (data : List UInt8) : Prop :=
  ∃ es, SmallSection b n es ∧ InodeField.kSmallData + smallSizes (smallKept es name) +
    smallEntrySize name.length data.length ≤ n

theorem SmallSection.enumerates {es : List SmallAttribute} (h : SmallSection b n es) : SmallEnumerates b n := by
  refine ⟨?_, fun e => ?_⟩
  · rw [h.walk]
    exact h.distinct.sublist (List.filter_sublist.map _)
  · rw [h.walk, h.find, smallLookup_iff h.distinct]

theorem SmallSection.removes {es : List SmallAttribute} (h : SmallSection b n es) {e : SmallAttribute}
    (he : smallLookup es name = some e) : SmallRemoves b n name := by
  have hmem := List.mem_filter.1 (List.mem_of_find?_eq_some he)
  have hname : e.name = name := by simpa using List.find?_some he
  rcases h.remove name with ⟨hall, -⟩ | ⟨-, -, b', hrun, hs⟩
  · refine absurd hname ((hall e hmem.1).resolve_left ?_)
    simpa using hmem.2
  · refine ⟨b', hrun, ?_, ⟨fun other hne => ?_, ?_, ⟨_, hs⟩, hs.enumerates⟩⟩
    · rw [hs.find, smallLookup_kept_self]
    · rw [hs.find, h.find, smallLookup_kept es hne]
    · rw [hs.fileName, h.fileName, smallName_kept]

/-- **The section is a map of the attributes**, of all names but the one that marks the
    inode's own and of all values whose length the entry's field holds: an entry that
    would fit is stored and found again exactly for these. -/
theorem small_data_map (h : ∃ es, SmallSection b n es) (h₁ : 0 < name.length) (h₂ : name.length ≤ kMaxName)
    (htype : type < 2 ^ 32) :
    SmallSets b n type name data ∧ SmallEnumerates b n ↔
      (SmallFits b n name data → name ≠ kFileName ∧ data.length < 2 ^ 16) := by
  constructor
  · rintro ⟨hsets, -⟩ ⟨es, hs, hfits⟩
    obtain ⟨c, -, hrun⟩ := hs.set h₁ h₂ type data
    rw [if_neg (by omega)] at hrun
    exact smallFindFrom_some (hsets _ hrun).1
  · intro hcond
    obtain ⟨es, hs⟩ := h
    refine ⟨fun b' hrun => ?_, hs.enumerates⟩
    obtain ⟨c, hc, hset⟩ := hs.set h₁ h₂ type data
    rw [hset] at hrun
    split at hrun
    · cases hrun
    · cases hrun
      have hK : kMaxName = 255 := rfl
      obtain ⟨hfile, hd⟩ := hcond ⟨es, hs, by omega⟩
      have hsize : (⟨type, name, data⟩ : SmallAttribute).size = smallEntrySize name.length data.length := by
        refine (smallEntrySize_eq ?_).symm
        rw [SmallAttribute.size]
        dsimp only
        omega
      have hs' := hs.placed hc rfl h₁ h₂ hfile htype hd (by rw [hsize]; omega)
      have hlook := smallLookup_new es ⟨type, name, data⟩ rfl hfile
      refine ⟨hs'.find name ▸ hlook, ⟨fun other hne => ?_, ?_, ⟨_, hs'⟩, hs'.enumerates⟩, hs'.removes hlook⟩
      · rw [hs'.find, hs.find, smallLookup_new_ne es ⟨type, name, data⟩ rfl hne]
      · rw [hs'.fileName, hs.fileName, smallName_new es ⟨type, name, data⟩ rfl hfile]

theorem smallSection_zero {n : ℕ} (h : InodeField.kSmallData ≤ n) : SmallSection zero n [] :=
  ⟨h, trivial, fun hw => hw.2 (le_zero 2 _), List.nodup_nil⟩

theorem small_data_map_zero : SmallSets zero 512 0 [65] [1, 2] ∧ SmallEnumerates zero 512 :=
  (small_data_map ⟨[], smallSection_zero (by decide)⟩ (by decide) (by decide) (by decide)).2
    fun _ => ⟨by decide, by decide⟩

/-- An attribute of the reserved name is stored, and no walker finds it. -/
theorem reserved_attribute_lost : (∃ es, SmallSection zero 512 es) ∧ ¬ SmallSets zero 512 0 kFileName [] := by
  have hs : SmallSection zero 512 [] := smallSection_zero (by decide)
  refine ⟨⟨[], hs⟩, fun hsets => ?_⟩
  obtain ⟨c, -, hrun⟩ := hs.set (by decide : 0 < kFileName.length) (by decide) 0 []
  rw [if_neg (by decide)] at hrun
  exact (smallFindFrom_some (hsets _ hrun).1).1 rfl

end

end Aegir.Bfs
