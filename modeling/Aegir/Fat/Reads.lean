/-
  What a read of a file returns.
-/
import Aegir.Fat.Slots

namespace Aegir.Fat

open Aegir.Lib Aegir.Lib.Buf Aegir.Lib.Fallible

variable {m : Mount} {w w' : World} {c first : ℕ} {cs : List ℕ}

def Mount.Serves (m : Mount) : Prop := ∀ k lba, m.refuse k lba = false

theorem Same.refl (hw : m.Coherent w) : Same m w w := ⟨rfl, hw, rfl⟩

theorem Same.trans {w'' : World} (h : Same m w w') (h' : Same m w' w'') : Same m w w'' :=
  ⟨h'.disk.trans h.disk, h'.coherent, h'.handle.trans h.handle⟩

theorem read_serves {lba count : ℕ} (h : m.Serves) (hcount : count ≤ m.windowSectors) (w : World) :
    (m.read lba count w).1 = some () := by
  unfold Mount.read
  rw [if_neg (by omega), if_neg (by rw [h]; exact Bool.false_ne_true)]

theorem fatSector_serves (hs : m.Sound) (h : m.Serves) (w : World) : (m.fatSector c w).1 = some () := by
  unfold Mount.fatSector
  rw [get_bind_run]
  split
  · rfl
  · have hread : (m.read (m.fatStart + m.relOf c) 1 w).1 = some () :=
      read_serves h (Nat.le_of_not_lt (one_le_window hs)) w
    rcases hrun : m.read (m.fatStart + m.relOf c) 1 w with ⟨_ | _, w'⟩
    · rw [hrun] at hread
      cases hread
    · rw [bind_of_some hrun]
      rfl

/-- What a read returns: bytes of the file from the offset on, all of them where nothing is refused. -/
structure Reads (m : Mount) (f : Buf) (offset got : ℕ) (w : World) (r : List UInt8 × World) : Prop where
  bytes : r.1 = bytes f offset r.1.length
  most : r.1.length ≤ got
  all : m.Serves → r.1.length = got
  same : Same m w r.2

theorem bytes_append (f : Buf) (i n k : ℕ) : bytes f i n ++ bytes f (i + n) k = bytes f i (n + k) := by
  unfold Buf.bytes
  rw [List.range_add, List.map_append, List.map_map]
  congr 1
  refine List.map_congr_left fun j _ => ?_
  rw [Function.comp_apply, Nat.add_assoc]

theorem bytes_cluster {d window : Buf} {k at_ n : ℕ} (hc : cs[k]? = some c)
    (hwindow : ∀ i < m.clusterBytes, window i = d (m.clusterAt c + i)) (hn : at_ + n ≤ m.clusterBytes) :
    bytes window at_ n = bytes (m.byteAt d cs) (k * m.clusterBytes + at_) n := by
  refine bytes_congr fun i hi => ?_
  have hdiv : (k * m.clusterBytes + at_ + i) / m.clusterBytes = k :=
    Nat.div_eq_of_lt_le (by omega) (by rw [Nat.succ_mul]; omega)
  have hmod : (k * m.clusterBytes + at_ + i) % m.clusterBytes = at_ + i := by
    rw [Nat.add_assoc, Nat.add_comm, Nat.add_mul_mod_self_right, Nat.mod_eq_of_lt (by omega)]
  unfold Mount.byteAt
  rw [hdiv, hmod, hc, hwindow _ (by omega)]

/-- The bytes up to a cluster are filled, or all that are wanted. -/
structure Filled (m : Mount) (f : Buf) (offset got k : ℕ) (dest : List UInt8) : Prop where
  bytes : dest = bytes f offset dest.length
  most : dest.length ≤ got
  next : dest.length < got → offset + dest.length = max offset (k * m.clusterBytes)

theorem readCluster_post {offset got k : ℕ} {dest : List UInt8} (hs : m.Sound) (hw : m.Coherent w)
    (hc : cs[k]? = some c) (hfilled : Filled m (m.byteAt w.disk cs) offset got k dest) (hmore : dest.length < got) :
    Post (fun dest' w' => Filled m (m.byteAt w.disk cs) offset got (k + 1) dest' ∧ Same m w w')
      (fun w' => ¬ m.Serves ∧ Same m w w') (m.readCluster offset got c (k * m.clusterBytes) dest w) := by
  have hnext := hfilled.next hmore
  unfold Mount.readCluster
  split
  · next hin =>
    have hread := read_post m (m.clusterSector c) m.sectorsPerCluster w
    have hserves : m.Serves → (m.read (m.clusterSector c) m.sectorsPerCluster w).1 = some () :=
      fun h => read_serves h hs.window w
    rcases hrun : m.read (m.clusterSector c) m.sectorsPerCluster w with ⟨_ | _, w₁⟩
    · rw [bind_of_none hrun]
      rw [hrun] at hread hserves
      refine ⟨fun h => ?_, hread.disk, hread.coherent hw, hread.handle⟩
      cases hserves h
    · rw [bind_of_some hrun, get_bind_run, pure_run]
      rw [hrun] at hread
      obtain ⟨hq, hwindow⟩ := hread
      refine ⟨⟨?_, ?_, ?_⟩, hq.disk, hq.coherent hw, hq.handle⟩
      · -- the cluster's bytes follow those before
        have hpos : k * m.clusterBytes + (offset - k * m.clusterBytes) = offset + dest.length := by omega
        have hfit : offset - k * m.clusterBytes +
            min (got - dest.length) (m.clusterBytes - (offset - k * m.clusterBytes)) ≤ m.clusterBytes := by omega
        have hpart := bytes_cluster hc hwindow hfit
        rw [hpos] at hpart
        rw [List.length_append, length_bytes, ← bytes_append, ← hfilled.bytes, hpart]
      · rw [List.length_append, length_bytes]
        omega
      · rw [List.length_append, length_bytes, Nat.succ_mul]
        omega
  · next hout =>
    refine ⟨⟨hfilled.bytes, hfilled.most, fun _ => ?_⟩, .refl hw⟩
    rw [Nat.succ_mul]
    omega

theorem Reads.of_same {f : Buf} {offset got : ℕ} {r : List UInt8 × World} (h : Reads m f offset got w' r)
    (hsame : Same m w w') : Reads m f offset got w r :=
  ⟨h.bytes, h.most, h.all, hsame.trans h.same⟩

theorem readFrom_reads {offset got k : ℕ} {dest : List UInt8} (hs : m.Sound) (turns : ℕ) (hw : m.Coherent w)
    (hcs : m.OnChain w.disk first cs) (hgot : offset + got ≤ cs.length * m.clusterBytes) (hk : k ≤ cs.length)
    (hc : Chain (fun c => m.linked (m.entry w.disk c)) (m.linked c) (cs.drop k))
    (hfilled : Filled m (m.byteAt w.disk cs) offset got k dest)
    (hturns : (offset + got) / m.clusterBytes + 1 ≤ k + turns) :
    Reads m (m.byteAt w.disk cs) offset got w (m.readFrom offset got turns c (k * m.clusterBytes) dest w) := by
  have hpos : 0 < m.clusterBytes := Nat.mul_pos hs.cluster (by decide)
  have hmost := hfilled.most
  -- past the bytes that are wanted, they are all filled
  have hdone : offset + got ≤ k * m.clusterBytes → dest.length = got := by
    intro hpast
    by_contra hne
    have := hfilled.next (by omega)
    omega
  induction turns generalizing c k dest w with
  | zero =>
    refine ⟨hfilled.bytes, hmost, fun _ => hdone ?_, .refl hw⟩
    have hdiv := Nat.div_add_mod (offset + got) m.clusterBytes
    have hmod := Nat.mod_lt (offset + got) hpos
    have hmul := Nat.mul_le_mul_right m.clusterBytes hturns
    rw [Nat.succ_mul, Nat.mul_comm, Nat.add_zero] at hmul
    omega
  | succ turns ih =>
    unfold Mount.readFrom
    split
    · next hstop =>
      refine ⟨hfilled.bytes, hmost, fun _ => ?_, .refl hw⟩
      rcases hstop with hfull | hend
      · exact Nat.le_antisymm hmost hfull
      · -- the chain ends here
        have hnil := hc.eq_nil_iff.2 (if_pos hend)
        have hlen := List.drop_eq_nil_iff.1 hnil
        refine hdone (Nat.le_trans hgot (Nat.mul_le_mul_right _ hlen))
    · next hmore =>
      rw [not_or] at hmore
      rw [show m.linked c = c from if_neg hmore.2] at hc
      have hlt : k < cs.length := by
        by_contra hge
        rw [List.drop_eq_nil_iff.2 (by omega)] at hc
        have hzero : c = 0 := hc
        omega
      rw [List.drop_eq_getElem_cons hlt] at hc
      obtain ⟨rfl, -, hrest⟩ := hc
      have hget : cs[k]? = some cs[k] := List.getElem?_eq_getElem hlt
      have hpart := readCluster_post hs hw hget hfilled (by omega)
      split
      · next w₁ heq =>
        rw [heq] at hpart
        exact ⟨hfilled.bytes, hmost, fun h => absurd h hpart.1, hpart.2⟩
      · next dest₁ w₁ heq =>
        rw [heq] at hpart
        obtain ⟨hfilled₁, hsame⟩ := hpart
        have hr := hcs.range cs[k] (List.getElem_mem hlt)
        have hsector := same_fatSector hs hr hsame.coherent
        have hserves : m.Serves → (m.fatSector cs[k] w₁).1 = some () := fun h => fatSector_serves hs h w₁
        split
        · next w₂ heq' =>
          rw [heq'] at hsector hserves
          refine ⟨hfilled₁.bytes, hfilled₁.most, fun h => ?_, hsame.trans hsector⟩
          cases hserves h
        · next w₂ heq' =>
          rw [heq'] at hsector
          obtain ⟨hnext, hsame₂⟩ := hsector
          have hsame' := hsame.trans hsame₂
          rw [hsame.disk] at hnext
          have hchain : Chain (fun c => m.linked (m.entry w₂.disk c)) (m.linked (m.fatNext w₂ cs[k]))
              (cs.drop (k + 1)) := by
            rw [hnext, hsame'.disk]
            exact hrest
          have hdone₁ : offset + got ≤ (k + 1) * m.clusterBytes → dest₁.length = got := by
            intro hpast
            have hmost₁ := hfilled₁.most
            by_contra hne
            have := hfilled₁.next (by omega)
            omega
          rw [← hsame'.disk] at hcs hfilled₁
          have hrec := ih hsame'.coherent hcs hlt hchain hfilled₁ (by omega) hfilled₁.most hdone₁
          rw [hsame'.disk, Nat.succ_mul] at hrec
          exact hrec.of_same hsame'

theorem readInto_reads {dirent : Dirent} {offset : ℕ} (hs : m.Sound) (hw : m.Coherent w)
    (hcs : m.OnChain w.disk dirent.firstCluster cs) (hfits : dirent.bytes ≤ cs.length * m.clusterBytes)
    (hoffset : offset ≤ dirent.bytes) (wanted : ℕ) :
    Reads m (m.byteAt w.disk cs) offset (min wanted (dirent.bytes - offset)) w (m.readInto dirent offset wanted w) := by
  have hfilled : Filled m (m.byteAt w.disk cs) offset (min wanted (dirent.bytes - offset)) 0 [] := by
    refine ⟨rfl, Nat.zero_le _, fun _ => ?_⟩
    rw [Nat.zero_mul, List.length_nil]
    omega
  have hreads := readFrom_reads hs ((offset + min wanted (dirent.bytes - offset)) / m.clusterBytes + 1) hw hcs
    (by omega) (Nat.zero_le _) (by rw [List.drop_zero]; exact hcs.chain) hfilled (by omega)
  rw [Nat.zero_mul] at hreads
  exact hreads

end Aegir.Fat
