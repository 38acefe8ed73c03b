/-
  Writes, truncations and reads of an open file as updates of its bytes.
-/
import Aegir.Fat.Truncates
import Aegir.Fat.Reads

namespace Aegir.Fat

open Aegir.Lib Aegir.Lib.Buf Aegir.Lib.Fallible

/-! ## Byte arrays -/

def resized (F : List UInt8) (size : ℕ) : List UInt8 := F.take size ++ List.replicate (size - F.length) 0

/-- A file's bytes with some written at an offset, and zeros in a gap before them. -/
def overwritten (F : List UInt8) (offset : ℕ) (data : List UInt8) : List UInt8 :=
  if data = [] then F else resized F offset ++ data ++ F.drop (offset + data.length)

variable {m : Mount} {w w' : World} {d d' : Buf} {h h' : Handle} {cs cs' : List ℕ} {f data : Buf} {F : List UInt8}
  {offset size n : ℕ}

theorem take_bytes (f : Buf) {k : ℕ} (hk : k ≤ n) : (bytes f 0 n).take k = bytes f 0 k := by
  unfold Buf.bytes
  rw [← List.map_take, List.take_range, Nat.min_eq_left hk]

theorem resized_bytes (hgap : ∀ i, n ≤ i → i < size → f i = 0) : resized (bytes f 0 n) size = bytes f 0 size := by
  unfold resized
  rw [length_bytes]
  rcases Nat.le_total size n with hle | hge
  · rw [take_bytes f hle, Nat.sub_eq_zero_of_le hle, List.replicate_zero, List.append_nil]
  · have hzeros : bytes f (0 + n) (size - n) = List.replicate (size - n) 0 := by
      refine List.eq_replicate_iff.2 ⟨length_bytes _ _ _, fun b hb => ?_⟩
      obtain ⟨k, hk, rfl⟩ := List.mem_map.1 hb
      have := List.mem_range.1 hk
      exact hgap _ (by omega) (by omega)
    rw [List.take_of_length_le (by rw [length_bytes]; exact hge), ← hzeros, bytes_append]
    congr 1
    omega

theorem overwritten_bytes (hn : n ≠ 0) (hgap : ∀ i, size ≤ i → i < offset → f i = 0) :
    overwritten (bytes f 0 size) offset (bytes data 0 n) =
      bytes (blit f offset data n) 0 (max size (offset + n)) := by
  have hne : bytes data 0 n ≠ [] := by
    refine List.ne_nil_of_length_pos ?_
    rw [length_bytes]
    omega
  have hhead : bytes f 0 offset = bytes (blit f offset data n) 0 offset :=
    bytes_congr fun k hk => (blit_of_notMem (.inl (by omega))).symm
  have hdata : bytes data 0 n = bytes (blit f offset data n) (0 + offset) n := by
    refine bytes_congr fun k hk => ?_
    rw [blit_of_mem (by omega) (by omega)]
    congr 1
    omega
  have htail : (bytes f 0 size).drop (offset + n) =
      bytes (blit f offset data n) (0 + (offset + n)) (size - (offset + n)) := by
    refine List.ext_getElem (by simp) fun k hk hk' => ?_
    rw [List.getElem_drop, getElem_bytes, getElem_bytes, blit_of_notMem (.inr (by omega))]
    congr 1
    omega
  rw [overwritten, if_neg hne, resized_bytes hgap, length_bytes, htail, hhead, hdata, bytes_append, bytes_append]
  congr 1
  omega

/-! ## Files -/

/-- A handle's file: its chain, its bytes and its slot, which is apart from all chains and the
    table. -/
structure Mount.File (m : Mount) (d : Buf) (h : Handle) (cs : List ℕ) (F : List UInt8) : Prop where
  chain : m.OnChain d h.firstCluster cs
  bytes : F = bytes (m.byteAt d cs) 0 F.length
  fits : F.length ≤ cs.length * m.clusterBytes
  index : h.direntIndex < 16
  apart : ∀ i < kSectorBytes, m.Apart d cs (h.direntSector * kSectorBytes + i)
  size : (shortDirent d (slotAt h)).bytes = F.length
  directory : (shortDirent d (slotAt h)).directory = false
  /-- A file without bytes may have got a cluster of which its slot does not know. -/
  first : (shortDirent d (slotAt h)).firstCluster = h.firstCluster ∨
    F = [] ∧ (shortDirent d (slotAt h)).firstCluster < 2

theorem Mount.File.length_lt (hf : m.File d h cs F) : F.length < 2 ^ 32 := by
  rw [← hf.size]
  exact le_lt 4 d _

theorem slot_congr (hindex : h.direntIndex < 16)
    (hd : ∀ i < kSectorBytes, d' (h.direntSector * kSectorBytes + i) = d (h.direntSector * kSectorBytes + i)) :
    shortDirent d' (slotAt h) = shortDirent d (slotAt h) := by
  refine shortDirent_congr fun k hk => ?_
  unfold slotAt
  rw [Nat.add_assoc]
  refine hd _ ?_
  unfold kDirentBytes kSectorBytes at *
  omega

theorem Rewritten.holds {sector at_ first : ℕ} {dirent : Dirent} (hs : m.Sound) (hw : m.Coherent w)
    (hcs : m.OnChain w.disk first cs) (hapart : ∀ i < kSectorBytes, m.Apart w.disk cs (sector * kSectorBytes + i))
    (hr : Rewritten w w' sector at_ dirent) :
    m.Coherent w' ∧ m.OnChain w'.disk first cs ∧ (∀ i, m.byteAt w'.disk cs i = m.byteAt w.disk cs i) ∧
      ∀ i < kSectorBytes, m.Apart w'.disk cs (sector * kSectorBytes + i) := by
  have hother : ∀ x, (∀ i < kSectorBytes, x ≠ sector * kSectorBytes + i) → w'.disk x = w.disk x := by
    intro x hx
    refine hr.other x ?_
    by_contra hin
    refine hx (x - sector * kSectorBytes) (by omega) (by omega)
  have htable : ∀ x, m.InTable x → w'.disk x = w.disk x := by
    intro x hx
    refine hother x fun i hi heq => ?_
    rw [heq] at hx
    exact (hapart i hi).1 hx
  have hentry : ∀ c < m.clusterCount + 2, m.entry w'.disk c = m.entry w.disk c :=
    fun c hc => entry_of_table hs hc htable
  refine ⟨hw.of_table hs htable hr.fatWindow hr.rel, hcs.congr fun c hc => hentry c (hcs.range c hc).2,
    byteAt_congr hs fun c hc x hx => hother x fun i hi heq => ?_, fun i hi => ⟨(hapart i hi).1, fun c hown => ?_⟩⟩
  · rw [heq] at hx
    exact (hapart i hi).2 c ⟨hcs.range c hc, .inr hc⟩ hx
  · rw [Mount.Owns, hentry c hown.1.2] at hown
    exact (hapart i hi).2 c hown

/-! ## Writes -/

theorem Mount.File.unwritten (hf : m.File w.disk w.handle cs F) (hmoves : Moves m w cs w' cs')
    (hholds : Holds m w' cs' (m.byteAt w.disk cs)) : m.File w'.disk w'.handle cs' F := by
  have hsector : w'.handle.direntSector = w.handle.direntSector := by rw [hmoves.handle]
  have hindex : w'.handle.direntIndex = w.handle.direntIndex := by rw [hmoves.handle]
  have hslot : shortDirent w'.disk (slotAt w'.handle) = shortDirent w.disk (slotAt w.handle) := by
    unfold slotAt
    rw [hsector, hindex]
    exact slot_congr hf.index fun i hi => hmoves.keeps.apart _ (hf.apart i hi)
  refine ⟨hholds.chain, ?_, ?_, ?_, fun i hi => ?_, ?_, ?_, ?_⟩
  · rw [hf.bytes, length_bytes]
    exact bytes_congr fun k _ => (hholds.bytes _).symm
  · exact Nat.le_trans hf.fits (Nat.mul_le_mul_right _ hmoves.length)
  · rw [hindex]
    exact hf.index
  · rw [hsector]
    exact hmoves.keeps.stays (hf.apart i hi)
  · rw [hslot]
    exact hf.size
  · rw [hslot]
    exact hf.directory
  · rw [hslot]
    rcases hmoves.first with heq | hlt
    · rw [heq]
      exact hf.first
    · -- a file without a first cluster has no bytes
      have hnil := nil_of_first hf.chain hlt
      have hfits := hf.fits
      rw [hnil, List.length_nil, Nat.zero_mul] at hfits
      refine .inr ⟨List.eq_nil_of_length_eq_zero (by omega), ?_⟩
      rcases hf.first with heq | ⟨-, hfirst⟩
      · rwa [heq]
      · exact hfirst

theorem Mount.File.written {w₁ : World} (hs : m.Sound) (hf : m.File w.disk w.handle cs F)
    (hmoves : Moves m w cs w' cs') (hholds : Holds m w' cs' (blit (m.byteAt w.disk cs) offset data n)) (hn : n ≠ 0)
    (hgap : ∀ i, F.length ≤ i → i < offset → m.byteAt w.disk cs i = 0)
    (hfits : offset + n ≤ cs'.length * m.clusterBytes) (hend : max F.length (offset + n) < 2 ^ 32)
    (hserved : m.Served w.handle.direntSector)
    (hw₁ : w₁ = { w' with handle := { w'.handle with size := max F.length (offset + n) } }) :
    m.Coherent (m.updateDirent w₁).2 ∧ (m.updateDirent w₁).2.handle = w₁.handle ∧
      m.File (m.updateDirent w₁).2.disk w₁.handle cs' (overwritten F offset (Buf.bytes data 0 n)) := by
  have hsector : w₁.handle.direntSector = w.handle.direntSector := by rw [hw₁, hmoves.handle]
  have hindex : w₁.handle.direntIndex = w.handle.direntIndex := by rw [hw₁, hmoves.handle]
  have hfirst : w₁.handle.firstCluster = w'.handle.firstCluster := by rw [hw₁]
  have hdisk : w₁.disk = w'.disk := by rw [hw₁]
  have hsize : w₁.handle.size = max F.length (offset + n) := by rw [hw₁]
  have hcoherent : m.Coherent w₁ := by
    rw [hw₁]
    exact hholds.coherent
  have hchain : m.OnChain w₁.disk w₁.handle.firstCluster cs' := by
    rw [hdisk, hfirst]
    exact hholds.chain
  have hapart : ∀ i < kSectorBytes, m.Apart w₁.disk cs' (w₁.handle.direntSector * kSectorBytes + i) := by
    intro i hi
    rw [hdisk, hsector]
    exact hmoves.keeps.stays (hf.apart i hi)
  have hslot : shortDirent w₁.disk (slotAt w₁.handle) = shortDirent w.disk (slotAt w.handle) := by
    unfold slotAt
    rw [hdisk, hsector, hindex]
    exact slot_congr hf.index fun i hi => hmoves.keeps.apart _ (hf.apart i hi)
  have hlt : w₁.handle.firstCluster < 2 ^ 32 := by
    have hmarks := hs.marks
    have := hchain.first
    unfold Mount.chainEoc kEoc32 kEoc16 at hmarks
    split at hmarks
    · omega
    · omega
  have hupdate := updateDirent_served hs (by rwa [hsector]) (by rw [hindex]; exact hf.index) hlt (by rwa [hsize])
  obtain ⟨hcoherent', hchain', hbytes', hapart'⟩ := hupdate.holds hs hcoherent hchain hapart
  have hnew : overwritten F offset (Buf.bytes data 0 n) =
      Buf.bytes (blit (m.byteAt w.disk cs) offset data n) 0 (max F.length (offset + n)) := by
    rw [← overwritten_bytes hn hgap, ← hf.bytes]
  have hlen : (overwritten F offset (Buf.bytes data 0 n)).length = max F.length (offset + n) := by
    rw [hnew, length_bytes]
  have hsame : shortDirent (m.updateDirent w₁).2.disk (slotAt w₁.handle) =
      ⟨w₁.handle.firstCluster, w₁.handle.size, (shortDirent w₁.disk (slotAt w₁.handle)).directory⟩ := hupdate.slot
  refine ⟨hcoherent', hupdate.handle, hchain', ?_, ?_, ?_, hapart', ?_, ?_, .inl ?_⟩
  · rw [hlen, hnew]
    refine bytes_congr fun k _ => ?_
    rw [hbytes', hdisk]
    exact (hholds.bytes _).symm
  · rw [hlen]
    exact Nat.max_le.2 ⟨Nat.le_trans hf.fits (Nat.mul_le_mul_right _ hmoves.length), hfits⟩
  · rw [hindex]
    exact hf.index
  · rw [hsame, hlen]
    exact hsize
  · rw [hsame, hslot]
    exact hf.directory
  · rw [hsame]

theorem writeBytes_nothing (m : Mount) (data : Buf) (w : World) : m.writeBytes data 0 w =
    (0, { w with handle := { w.handle with size := max w.handle.size w.handle.cursor } }) := rfl

theorem writeBytes_file (data : Buf) (bytes : ℕ) (hs : m.Sound) (hw : m.Coherent w) (hf : m.File w.disk w.handle cs F)
    (hsize : w.handle.size = F.length) (hend : w.handle.cursor + bytes < 2 ^ 32)
    (hgap : ∀ i, F.length ≤ i → i < w.handle.cursor → m.byteAt w.disk cs i = 0)
    (hserved : m.Served w.handle.direntSector) :
    (m.writeBytes data bytes w).1 ≤ bytes ∧ m.Coherent (m.writeBytes data bytes w).2 ∧
      ((m.writeBytes data bytes w).2.handle.serial = w.handle.serial ∧
        (m.writeBytes data bytes w).2.handle.file = w.handle.file) ∧
      ∃ cs', m.File (m.writeBytes data bytes w).2.disk (m.writeBytes data bytes w).2.handle cs'
        (overwritten F w.handle.cursor (Buf.bytes data 0 (m.writeBytes data bytes w).1)) := by
  have hstart : Holds m w cs (blit (m.byteAt w.disk cs) w.handle.cursor data 0) := by
    rw [blit_nothing]
    exact ⟨hw, hf.chain, fun _ => rfl⟩
  have hover := writeFrom_overwrites hs bytes hstart (Nat.add_zero _).symm (Nat.zero_le _) (Nat.le_of_lt hend)
    fun hne => absurd rfl hne
  unfold Mount.writeBytes
  rcases hrun : m.writeFrom data bytes bytes 0 w with ⟨n, w₁⟩
  rw [hrun] at hover
  obtain ⟨hmost, hcursor, cs', hholds, hmoves, hfits⟩ := hover
  dsimp only at hmost hcursor hholds hmoves hfits ⊢
  have hsize₁ : w₁.handle.size = F.length := by rw [hmoves.handle, hsize]
  by_cases hn : n = 0
  · rw [if_neg (by omega), hn]
    rw [hn, blit_nothing] at hholds
    have hsame := hf.unwritten hmoves hholds
    refine ⟨Nat.zero_le _, hholds.coherent, ⟨?_, ?_⟩, cs', ⟨hsame.chain, hsame.bytes, hsame.fits, hsame.index,
      hsame.apart, hsame.size, hsame.directory, hsame.first⟩⟩
    · dsimp only
      rw [hmoves.handle]
    · dsimp only
      rw [hmoves.handle]
  · have hmax : max w₁.handle.size w₁.handle.cursor = max F.length (w.handle.cursor + n) := by rw [hsize₁, hcursor]
    rw [if_pos (by omega), hmax]
    have hlength := hf.length_lt
    have hnext := hf.written hs hmoves hholds hn hgap (hfits hn) (by omega) hserved rfl
    refine ⟨hmost, hnext.1, ?_, cs', ?_⟩
    · rw [hnext.2.1]
      dsimp only
      rw [hmoves.handle]
      exact ⟨rfl, rfl⟩
    · rw [hnext.2.1]
      exact hnext.2.2

/-! ## Truncations -/

theorem Mount.File.slot_chain (hf : m.File d h cs F) :
    ∃ cs₀, m.OnChain d (shortDirent d (slotAt h)).firstCluster cs₀ ∧ (∀ c ∈ cs₀, c ∈ cs) ∧
      F = Buf.bytes (m.byteAt d cs₀) 0 F.length ∧ F.length ≤ cs₀.length * m.clusterBytes ∧
      ∀ i, m.byteAt d cs i = 0 → m.byteAt d cs₀ i = 0 := by
  rcases hf.first with heq | ⟨hnil, hlt⟩
  · rw [heq]
    exact ⟨cs, hf.chain, fun _ hc => hc, hf.bytes, hf.fits, fun _ hi => hi⟩
  · refine ⟨[], ⟨linked_of_lt hlt, by omega, ?_, ?_⟩, ?_, ?_, ?_, fun _ _ => rfl⟩
    · exact fun _ hc => absurd hc List.not_mem_nil
    · exact fun _ hc => absurd hc List.not_mem_nil
    · exact fun _ hc => absurd hc List.not_mem_nil
    · rw [hnil]
      rfl
    · rw [hnil]
      exact Nat.zero_le _

theorem truncate_post (hs : m.Sound) (hw : m.Coherent w) (hf : m.File w.disk h cs F) (hsize : size < 2 ^ 32)
    (hgap : ∀ i, F.length ≤ i → i < size → m.byteAt w.disk cs i = 0) :
    Post (fun first w' => m.Coherent w' ∧ ∀ h' : Handle, h'.direntSector = h.direntSector →
        h'.direntIndex = h.direntIndex → h'.firstCluster = first → ∃ cs', m.File w'.disk h' cs' (resized F size))
      (fun _ => True)
      ((do
        let first ← m.chainTruncate (shortDirent w.disk (slotAt h)).firstCluster size
        m.read h.direntSector 1
        Mount.edit (direntUpdate (h.direntIndex * kDirentBytes) first size)
        m.writeBack h.direntSector 1
        pure first : M ℕ) w) := by
  have hat : h.direntIndex * kDirentBytes + kDirentBytes ≤ kSectorBytes := by
    have := hf.index
    unfold kDirentBytes kSectorBytes
    omega
  obtain ⟨cs₀, hcs₀, hsub, hbytes, -, hzero⟩ := hf.slot_chain
  have hapart : ∀ i < kSectorBytes, m.Apart w.disk cs₀ (h.direntSector * kSectorBytes + i) := fun i hi =>
    ⟨(hf.apart i hi).1, fun c hown => (hf.apart i hi).2 c ⟨hown.1, hown.2.imp_right (hsub c)⟩⟩
  refine Post.bind (chainTruncate_post hs hw hcs₀ hsize) ?_
  rintro first w₁ ⟨cs', hreshaped, hfits⟩
  have hapart₁ : ∀ i < kSectorBytes, m.Apart w₁.disk cs' (h.direntSector * kSectorBytes + i) :=
    fun i hi => hreshaped.keeps.stays (hapart i hi)
  refine Post.bind ((read_post m h.direntSector 1 w₁).mono (fun _ _ hr => hr) fun _ _ => trivial) ?_
  rintro - w₂ ⟨hq, hwindow⟩
  rw [edit_bind_run]
  refine Post.bind ((writeBack_post m h.direntSector 1 _).mono (fun _ _ hr => hr) fun _ _ => trivial) ?_
  rintro - w₃ hwrote
  -- the slot in the window is the one on the disk
  have hread : shortDirent w₂.window (h.direntIndex * kDirentBytes) = shortDirent w.disk (slotAt h) := by
    refine (shortDirent_congr fun k hk => ?_).trans
      (slot_congr hf.index fun i hi => hreshaped.keeps.apart _ (hapart i hi))
    rw [hwindow _ (by omega), slotAt, Nat.add_assoc]
  have hlt : first < 2 ^ 32 := by
    have hmarks := hs.marks
    have := hreshaped.chain.first
    unfold Mount.chainEoc kEoc32 kEoc16 at hmarks
    split at hmarks
    · omega
    · omega
  have hrewritten := hwrote.rewritten hat hq (shortDirent_update _ _ hlt hsize)
  obtain ⟨hcoherent, hchain, hsame, hapart₃⟩ := hrewritten.holds hs hreshaped.coherent hreshaped.chain hapart₁
  have hnew : resized F size = Buf.bytes (m.byteAt w.disk cs₀) 0 size := by
    rw [← resized_bytes fun i hlow hhigh => hzero i (hgap i hlow hhigh), ← hbytes]
  have hlen : (resized F size).length = size := by rw [hnew, length_bytes]
  refine ⟨hcoherent, fun h' hsector hindex hfirst => ⟨cs', ?_, ?_, ?_, ?_, ?_, ?_, ?_, .inl ?_⟩⟩
  · rw [hfirst]
    exact hchain
  · rw [hlen, hnew]
    refine bytes_congr fun k hk => ?_
    rw [hsame, hreshaped.bytes _ (by omega)]
  · rwa [hlen]
  · rw [hindex]
    exact hf.index
  · rw [hsector]
    exact hapart₃
  · rw [slotAt, hsector, hindex, hrewritten.slot, hlen]
  · rw [slotAt, hsector, hindex, hrewritten.slot, hread]
    exact hf.directory
  · rw [slotAt, hsector, hindex, hrewritten.slot, hfirst]

/-! ## The service -/

/-- A row of the handle table is open on a file of these bytes. -/
structure Service.Opened (m : Mount) (s : Service) (i : ℕ) (row : Handle) (cs : List ℕ) (F : List UInt8) : Prop where
  here : s.rows[i]? = some row
  serial : row.serial ≠ 0
  file : row.file = true
  coherent : m.Coherent s.world
  contents : m.File s.world.disk row cs F

def Asks (words : List ℕ) : Prop :=
  0 < words.getD 2 0 ∧ words.getD 2 0 ≤ Mount.kWriteMax ∧ 3 + (words.getD 2 0 + 7) / 8 ≤ words.length

/-- The bytes end below the largest size a slot can hold, the chain's bytes in the gap are zero, the
    handle has the slot's size, and the device serves the slot's sector. -/
structure Fitting (m : Mount) (d : Buf) (row : Handle) (cs : List ℕ) (F : List UInt8) (offset bytes : ℕ) : Prop where
  stop : offset + bytes ≤ 2 ^ 32 - 1
  size : row.size = F.length
  gap : ∀ i, F.length ≤ i → i < offset → m.byteAt d cs i = 0
  served : m.Served row.direntSector

variable {s : Service} {i : ℕ} {row : Handle} {words : List ℕ} {badge : ℕ}

theorem answerWrite_updates (hs : m.Sound) (ho : s.Opened m i row cs F)
    (hlookup : Mount.handleLookup s.rows (words.getD 0 0) badge = some i)
    (hfit : Asks words → Fitting m s.world.disk row cs F (words.getD 1 0) (words.getD 2 0)) :
    (0 < (Service.answerWrite m s words badge).1 →
        words.getD 1 0 + (Service.answerWrite m s words badge).1 ≤ 2 ^ 32 - 1) ∧
      ∃ row' cs', (Service.answerWrite m s words badge).2.Opened m i row' cs'
        (overwritten F (words.getD 1 0) (bytes (Mount.dataOf words) 0 (Service.answerWrite m s words badge).1)) := by
  have hidle : (0 < 0 → words.getD 1 0 + 0 ≤ 2 ^ 32 - 1) ∧
      ∃ row' cs', s.Opened m i row' cs' (overwritten F (words.getD 1 0) (bytes (Mount.dataOf words) 0 0)) :=
    ⟨fun hlt => absurd hlt (Nat.lt_irrefl 0), row, cs, ho⟩
  unfold Service.answerWrite
  rw [hlookup]
  dsimp only
  split
  · exact hidle
  split
  · exact hidle
  · next hlen hask =>
    rw [not_or, not_or] at hask
    have hi := (List.getElem?_eq_some_iff.1 ho.here).1
    unfold Service.onRow
    rw [ho.here, Option.map_some, Option.getD_some]
    dsimp only
    generalize hw : ({ s.world with handle := { row with cursor := words.getD 1 0 } } : World) = w
    have hhandle : w.handle = { row with cursor := words.getD 1 0 } := by rw [← hw]
    have hcoherent : m.Coherent w := by
      rw [← hw]
      exact ho.coherent
    have hfile : m.File w.disk w.handle cs F := by
      rw [← hw]
      exact ⟨ho.contents.chain, ho.contents.bytes, ho.contents.fits, ho.contents.index, ho.contents.apart,
        ho.contents.size, ho.contents.directory, ho.contents.first⟩
    rcases Nat.eq_zero_or_pos (words.getD 2 0) with hzero | hpos
    · -- nothing is to be written
      rw [hzero, writeBytes_nothing]
      refine ⟨fun hlt => absurd hlt (Nat.lt_irrefl 0), _, cs, List.getElem?_set_self hi, ?_, ?_, hcoherent, ?_⟩
      · dsimp only
        rw [hhandle]
        exact ho.serial
      · dsimp only
        rw [hhandle]
        exact ho.file
      · exact ⟨hfile.chain, hfile.bytes, hfile.fits, hfile.index, hfile.apart, hfile.size, hfile.directory, hfile.first⟩
    · obtain ⟨hstop, hsize, hgap, hserved⟩ := hfit ⟨hpos, by omega, by omega⟩
      have hcursor : w.handle.cursor = words.getD 1 0 := by rw [hhandle]
      have hdisk : w.disk = s.world.disk := by rw [← hw]
      have hwrite := writeBytes_file (Mount.dataOf words) (words.getD 2 0) hs hcoherent hfile
        (by rw [hhandle, ← hsize]) (by omega) (by rw [hcursor, hdisk]; exact hgap) (by rw [hhandle]; exact hserved)
      rcases hrun : m.writeBytes (Mount.dataOf words) (words.getD 2 0) w with ⟨n, w₁⟩
      rw [hrun, hcursor] at hwrite
      obtain ⟨hmost, hcoherent', ⟨hserial, hkind⟩, cs', hfile'⟩ := hwrite
      dsimp only at hmost hcoherent' hserial hkind hfile' ⊢
      refine ⟨fun _ => by omega, _, cs', List.getElem?_set_self hi, ?_, ?_, hcoherent', hfile'⟩
      · rw [hserial, hhandle]
        exact ho.serial
      · rw [hkind, hhandle]
        exact ho.file

/-- The chain's bytes are zero as far as a truncation goes past the file's end. -/
def Extending (m : Mount) (d : Buf) (cs : List ℕ) (F : List UInt8) (size : ℕ) : Prop :=
  ∀ i, F.length ≤ i → i < size → m.byteAt d cs i = 0

theorem answerTruncate_updates {found : Walked} (hs : m.Sound) (ho : s.Opened m i row cs F)
    (hsector : found.sector = row.direntSector) (hindex : found.index = row.direntIndex)
    (hgap : Extending m s.world.disk cs F size) (hdone : (Service.answerTruncate m s found size).1 = true) :
    ∃ row' cs', (Service.answerTruncate m s found size).2.Opened m i row' cs' (resized F size) := by
  unfold Service.answerTruncate at hdone ⊢
  rw [hsector, hindex] at hdone ⊢
  dsimp only at hdone ⊢
  split at hdone
  · cases hdone
  · next hrefuse =>
    rw [if_neg hrefuse]
    rw [not_or, not_or] at hrefuse
    have hpost := truncate_post (w := { s.world with window := found.window, asked := found.asked }) hs ho.coherent
      ho.contents (by omega) hgap
    split at hdone
    · cases hdone
    · next first w' heq =>
      rw [slotAt, heq] at hpost
      obtain ⟨hcoherent, hfile⟩ := hpost
      have hmine : row.serial ≠ 0 ∧ row.direntSector = row.direntSector ∧ row.direntIndex = row.direntIndex :=
        ⟨ho.serial, rfl, rfl⟩
      obtain ⟨cs', hfile'⟩ := hfile { row with firstCluster := first, size := size, cursor := min row.cursor size }
        rfl rfl rfl
      refine ⟨{ row with firstCluster := first, size := size, cursor := min row.cursor size }, cs', ?_, ho.serial,
        ho.file, hcoherent, hfile'⟩
      unfold Service.handlesResize
      rw [List.getElem?_map, ho.here, Option.map_some, if_pos hmine]

/-- What a read of a file's bytes answers; nothing past the end. -/
def readOf (F : List UInt8) (offset wanted : ℕ) : Option (List UInt8 × Bool) :=
  if F.length < offset then none
  else
    let part := (F.drop offset).take (min wanted Mount.kReadMax)
    some (part, decide (F.length ≤ offset + part.length))

theorem serveRead_reads (hs : m.Sound) (hw : m.Coherent w) (hf : m.File w.disk h cs F) (hserves : m.Serves)
    (hoffset : offset ≤ F.length) (wanted : ℕ) :
    some (m.serveRead (shortDirent w.disk (slotAt h)) offset wanted w).1 = readOf F offset wanted ∧
      Same m w (m.serveRead (shortDirent w.disk (slotAt h)) offset wanted w).2 := by
  obtain ⟨cs₀, hcs₀, -, hbytes, hfits, -⟩ := hf.slot_chain
  rw [← hf.size] at hoffset hfits
  have hreads := readInto_reads hs hw hcs₀ hfits hoffset (min wanted Mount.kReadMax)
  have hall := hreads.all hserves
  have hpart : (m.readInto (shortDirent w.disk (slotAt h)) offset (min wanted Mount.kReadMax) w).1 =
      (F.drop offset).take (min wanted Mount.kReadMax) := by
    rw [hreads.bytes, hall, hf.size]
    refine List.ext_getElem ?_ fun k hk hk' => ?_
    · rw [length_bytes, List.length_take, List.length_drop]
    · rw [length_bytes] at hk
      have hget : F[offset + k]? = some (m.byteAt w.disk cs₀ (offset + k)) := by
        rw [hbytes, List.getElem?_eq_getElem (by rw [length_bytes]; omega), getElem_bytes, Nat.zero_add]
      obtain ⟨_, hat⟩ := List.getElem?_eq_some_iff.1 hget
      rw [getElem_bytes, List.getElem_take, List.getElem_drop, hat]
  refine ⟨?_, hreads.same⟩
  rw [hf.size] at hoffset
  unfold Mount.serveRead readOf
  rw [if_neg (by omega)]
  dsimp only
  rw [hpart, hf.size]

theorem answerReadHandle_reads (hs : m.Sound) (ho : s.Opened m i row cs F) (hserves : m.Serves)
    (hlookup : Mount.handleLookup s.rows (words.getD 0 0) badge = some i) (hlen : 3 ≤ words.length) :
    (Service.answerReadHandle m s words badge).1 = readOf F (words.getD 1 0) (words.getD 2 0) ∧
      (Service.answerReadHandle m s words badge).2.Opened m i row cs F := by
  have hat : row.direntIndex * kDirentBytes + kDirentBytes ≤ kSectorBytes := by
    have := ho.contents.index
    unfold kDirentBytes kSectorBytes
    omega
  have hset : s.rows.set i row = s.rows := by
    refine List.ext_getElem? fun j => ?_
    by_cases hj : i = j
    · rw [← hj, List.getElem?_set_self (List.getElem?_eq_some_iff.1 ho.here).1, ho.here]
    · rw [List.getElem?_set_ne hj]
  -- the answer's state holds the same file
  have hopened : ∀ w', Same m { s.world with handle := row } w' →
      Service.Opened m ⟨w', s.rows.set i w'.handle⟩ i row cs F := by
    intro w' hsame
    have hfile := ho.contents
    rw [hsame.handle, hset]
    rw [← show w'.disk = s.world.disk from hsame.disk] at hfile
    exact ⟨ho.here, ho.serial, ho.file, hsame.coherent, hfile⟩
  have hw : m.Coherent { s.world with handle := row } := ho.coherent
  unfold Service.answerReadHandle
  rw [if_neg (by omega), hlookup]
  dsimp only
  unfold Service.onRow
  rw [ho.here, Option.map_some, Option.getD_some]
  dsimp only
  have hread := read_served (m := m) hs (fun k => hserves k row.direntSector) { s.world with handle := row }
  split
  · next w' heq =>
    rw [heq] at hread
    exact False.elim hread
  · next w' heq =>
    rw [heq] at hread
    obtain ⟨hq, hwindow⟩ := hread
    have hsame : Same m { s.world with handle := row } w' := ⟨hq.disk, hq.coherent hw, hq.handle⟩
    have hslot : shortDirent w'.window (w'.handle.direntIndex * kDirentBytes) = shortDirent w'.disk (slotAt row) := by
      rw [hsame.handle]
      refine shortDirent_congr fun k hk => ?_
      rw [hwindow _ (by dsimp only; omega), hsame.disk, slotAt, Nat.add_assoc]
    have hfile : m.File w'.disk row cs F := (hopened w' hsame).contents
    rw [hslot, hfile.size, hfile.directory]
    split
    · next hpast =>
      have hlt : F.length < words.getD 1 0 := hpast.resolve_left Bool.false_ne_true
      exact ⟨(if_pos hlt).symm, hopened w' hsame⟩
    · next hin =>
      rw [not_or] at hin
      obtain ⟨hanswer, hsame'⟩ := serveRead_reads hs hsame.coherent hfile hserves (Nat.le_of_not_lt hin.2) (words.getD 2 0)
      exact ⟨hanswer, hopened _ (hsame.trans hsame')⟩

/-- A row is open on a file of these bytes, and every read of it returns them. -/
def Service.Shows (m : Mount) (s : Service) (i : ℕ) (F : List UInt8) : Prop :=
  (∃ row cs, s.Opened m i row cs F) ∧
    (m.Serves → ∀ words badge, Mount.handleLookup s.rows (words.getD 0 0) badge = some i → 3 ≤ words.length →
      (Service.answerReadHandle m s words badge).1 = readOf F (words.getD 1 0) (words.getD 2 0))

theorem Service.Opened.shows (hs : m.Sound) (ho : s.Opened m i row cs F) : s.Shows m i F :=
  ⟨⟨row, cs, ho⟩, fun hserves _ _ hlookup hlen => (answerReadHandle_reads hs ho hserves hlookup hlen).1⟩

/-- Four clusters of a sector each, behind a table of one. -/
def smallMount : Mount :=
  { sectorsPerCluster := 1, fatStart := 0, fatSectors := 1, fats := 1, dataStart := 1, fat32 := false
    clusterCount := 4, windowSectors := 1, writable := true, seconds := 0, refuse := fun _ _ => false }

/-- A file of four bytes in the first cluster, which holds others behind them. -/
def smallDisk : Buf := fun x =>
  if x = 4 ∨ x = 5 then 255
  else if 512 ≤ x ∧ x < 516 then UInt8.ofNat (x - 511)
  else if 516 ≤ x ∧ x < 1024 then 9
  else if x = 4096 + kDirentClusterLow then 2
  else if x = 4096 + kDirentSize then 4
  else 0

def smallRow : Handle :=
  { serial := 1, badge := 7, cursor := 0, size := 4, direntSector := 8, direntIndex := 0, firstCluster := 2, file := true }

def smallService : Service :=
  { world := { disk := smallDisk, asked := 0, window := zero, fatWindow := zero, fatWindowRel := none, hint := 2,
               handle := smallRow }
    rows := [smallRow] }

theorem smallMount_sound : smallMount.Sound :=
  ⟨by decide, by decide, by decide, by decide, by decide, by decide⟩

theorem smallService_opened : smallService.Opened smallMount 0 smallRow [2] [1, 2, 3, 4] where
  here := rfl
  serial := by decide
  file := rfl
  coherent := nofun
  contents := by
    have hmem : ∀ {p : ℕ → Prop}, p 2 → ∀ c ∈ [2], p c := by
      intro p hp c hc
      rwa [List.mem_singleton.1 hc]
    have hend : smallMount.linked (smallMount.entry smallDisk 2) = 0 := by decide
    refine ⟨⟨⟨by decide, by decide, hend⟩, by decide, hmem ⟨by decide, by decide⟩,
      hmem (by decide)⟩, by decide, by decide, by decide, fun i hi => ⟨fun hin => ?_, fun c hown hin => ?_⟩,
      by decide, by decide, .inl (by decide)⟩
    · have hlt : 8 * kSectorBytes + i < (0 + 1 * 1) * kSectorBytes := hin.2
      omega
    · have hlt : 8 * kSectorBytes + i < (1 + (c - 2) * 1) * kSectorBytes + 1 * kSectorBytes := hin.2
      have hrange : c < 4 + 2 := hown.1.2
      unfold kSectorBytes at *
      omega

end Aegir.Fat
