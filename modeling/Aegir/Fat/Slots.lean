/-
  A file's slot in its directory.
-/
import Aegir.Fat.Writes

namespace Aegir.Fat

open Aegir.Lib Aegir.Lib.Buf Aegir.Lib.Fallible

/-! ## Fields -/

theorem shortDirent_congr {a b : Buf} {i j : ℕ} (h : ∀ k < kDirentBytes, a (i + k) = b (j + k)) :
    shortDirent a i = shortDirent b j := by
  have hfield : ∀ width at_, at_ + width ≤ kDirentBytes → le width a (i + at_) = le width b (j + at_) := by
    intro width at_ hfit
    refine le_congr fun k hk => ?_
    rw [Nat.add_assoc, Nat.add_assoc]
    exact h _ (by omega)
  unfold shortDirent
  rw [hfield 2 kDirentClusterHigh (by decide), hfield 2 kDirentClusterLow (by decide),
    hfield 4 kDirentSize (by decide), h kDirentAttr (by decide)]

theorem shortDirent_update {firstCluster bytes : ℕ} (slot : Buf) (at_ : ℕ) (hfirst : firstCluster < 2 ^ 32)
    (hbytes : bytes < 2 ^ 32) :
    shortDirent (direntUpdate at_ firstCluster bytes slot) at_ =
      ⟨firstCluster, bytes, (shortDirent slot at_).directory⟩ := by
  unfold shortDirent direntUpdate kDirentClusterHigh kDirentClusterLow kDirentSize kDirentAttr
  rw [le_put_of_disjoint (by omega), le_put_of_disjoint (by omega), le_put, le_put_of_disjoint (by omega), le_put,
    le_put, put_of_notMem (by omega), put_of_notMem (by omega), put_of_notMem (by omega)]
  simp only [Dirent.mk.injEq, and_true]
  constructor
  · omega
  · omega

theorem shortDirent_setTime (slot : Buf) (at_ date time : ℕ) :
    shortDirent (direntSetTime at_ date time slot) at_ = shortDirent slot at_ := by
  have hbeside : ∀ k, k < kDirentCreateTime ∨ k = kDirentClusterHigh ∨ k = kDirentClusterHigh + 1 ∨ kDirentClusterLow ≤ k →
      direntSetTime at_ date time slot (at_ + k) = slot (at_ + k) := by
    unfold kDirentCreateTime kDirentClusterHigh kDirentClusterLow
    intro k hk
    unfold direntSetTime kDirentCreateTime kDirentCreateDate kDirentAccessDate kDirentWriteTime kDirentWriteDate
    rw [put_of_notMem (by omega), put_of_notMem (by omega), put_of_notMem (by omega), put_of_notMem (by omega),
      put_of_notMem (by omega)]
  have hfield : ∀ width field, field = kDirentClusterHigh ∧ width = 2 ∨ kDirentClusterLow ≤ field →
      le width (direntSetTime at_ date time slot) (at_ + field) = le width slot (at_ + field) := by
    intro width field hfield
    refine le_congr fun k hk => ?_
    rw [Nat.add_assoc]
    exact hbeside _ (by omega)
  unfold shortDirent
  rw [hfield 2 kDirentClusterHigh (by decide), hfield 2 kDirentClusterLow (by decide),
    hfield 4 kDirentSize (by decide), hbeside kDirentAttr (by decide)]

/-! ## A slot rewritten -/

variable {m : Mount} {w w₁ w' : World} {sector at_ : ℕ} {dirent : Dirent}

def Mount.Served (m : Mount) (lba : ℕ) : Prop := ∀ k, m.refuse k lba = false

theorem one_le_window (hs : m.Sound) : ¬ m.windowSectors < 1 := by
  have hcluster := hs.cluster
  have hwindow := hs.window
  omega

theorem read_served (hs : m.Sound) (h : m.Served sector) (w : World) :
    Post (fun _ w' => Quiet w w' ∧ ∀ i < kSectorBytes, w'.window i = w.disk (sector * kSectorBytes + i))
      (fun _ => False) (m.read sector 1 w) := by
  unfold Mount.read
  rw [if_neg (one_le_window hs), if_neg (by rw [h]; exact Bool.false_ne_true), Nat.one_mul]
  exact ⟨⟨rfl, rfl, rfl, rfl, rfl⟩, fun i hi => blit_of_mem (Nat.zero_le i) (by omega)⟩

theorem writeBack_served (hs : m.Sound) (h : m.Served sector) (w : World) :
    Post (fun _ w' => Wrote w w' (sector * kSectorBytes) (1 * kSectorBytes)) (fun _ => False)
      (m.writeBack sector 1 w) := by
  unfold Mount.writeBack
  rw [if_neg (one_le_window hs), if_neg (by rw [h]; exact Bool.false_ne_true)]
  exact ⟨rfl, rfl, rfl, rfl, rfl, rfl⟩

/-- A slot of a sector says this of its file now; no other sector has changed. -/
structure Rewritten (w w' : World) (sector at_ : ℕ) (dirent : Dirent) : Prop where
  slot : shortDirent w'.disk (sector * kSectorBytes + at_) = dirent
  other : ∀ x, x < sector * kSectorBytes ∨ sector * kSectorBytes + kSectorBytes ≤ x → w'.disk x = w.disk x
  fatWindow : w'.fatWindow = w.fatWindow
  rel : w'.fatWindowRel = w.fatWindowRel
  handle : w'.handle = w.handle

theorem Wrote.rewritten {window : Buf} (hat : at_ + kDirentBytes ≤ kSectorBytes) (hq : Quiet w w₁)
    (h : Wrote { w₁ with window := window } w' (sector * kSectorBytes) (1 * kSectorBytes))
    (hdirent : shortDirent window at_ = dirent) : Rewritten w w' sector at_ dirent := by
  refine ⟨?_, fun x hx => ?_, h.fatWindow.trans hq.fatWindow, h.rel.trans hq.rel, h.handle.trans hq.handle⟩
  · rw [← hdirent, h.disk]
    refine shortDirent_congr fun k hk => ?_
    have hpos : sector * kSectorBytes + at_ + k - sector * kSectorBytes = at_ + k := by omega
    rw [blit_of_mem (by omega) (by omega), hpos]
  · rw [h.disk]
    dsimp only
    rw [blit_of_notMem (by omega), hq.disk]

def slotAt (h : Handle) : ℕ := h.direntSector * kSectorBytes + h.direntIndex * kDirentBytes

theorem updateDirent_served (hs : m.Sound) (hserved : m.Served w.handle.direntSector)
    (hindex : w.handle.direntIndex < 16) (hfirst : w.handle.firstCluster < 2 ^ 32) (hsize : w.handle.size < 2 ^ 32) :
    Rewritten w (m.updateDirent w).2 w.handle.direntSector (w.handle.direntIndex * kDirentBytes)
      ⟨w.handle.firstCluster, w.handle.size, (shortDirent w.disk (slotAt w.handle)).directory⟩ := by
  have hat : w.handle.direntIndex * kDirentBytes + kDirentBytes ≤ kSectorBytes := by
    unfold kDirentBytes kSectorBytes
    omega
  unfold Mount.updateDirent
  rw [get_bind_run]
  refine Post.elim (Q := fun _ w' => Rewritten w w' w.handle.direntSector (w.handle.direntIndex * kDirentBytes)
    ⟨w.handle.firstCluster, w.handle.size, (shortDirent w.disk (slotAt w.handle)).directory⟩) (E := fun _ => False)
    (Post.bind (read_served hs hserved w) ?_) (fun _ _ h => h) fun _ h => h.elim
  rintro - w₁ ⟨hq, hwindow⟩
  -- the slot in the window is the one on the disk
  have hread : shortDirent w₁.window (w.handle.direntIndex * kDirentBytes) = shortDirent w.disk (slotAt w.handle) := by
    refine shortDirent_congr fun k hk => ?_
    rw [hwindow _ (by omega), slotAt, Nat.add_assoc]
  have hupdate := shortDirent_update w₁.window (w.handle.direntIndex * kDirentBytes) hfirst hsize
  rw [hread] at hupdate
  rw [edit_bind_run]
  by_cases hclock : m.seconds ≠ 0
  · rw [when_pos hclock, edit_bind_run]
    refine (writeBack_served hs hserved _).mono (fun _ w' hwrote => ?_) fun _ h => h
    exact hwrote.rewritten hat hq ((shortDirent_setTime _ _ _ _).trans hupdate)
  · rw [when_neg hclock, pure_bind_run]
    exact (writeBack_served hs hserved _).mono (fun _ w' hwrote => hwrote.rewritten hat hq hupdate) fun _ h => h

end Aegir.Fat
