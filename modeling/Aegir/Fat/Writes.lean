/-
  What a write does to the bytes of an open file.
-/
import Aegir.Fat.Chains

namespace Aegir.Fat

open Aegir.Lib Aegir.Lib.Buf Aegir.Lib.Fallible

variable {m : Mount} {w w' w'' : World} {d d' : Buf} {c first n : ℕ} {cs cs' cs'' : List ℕ} {f data : Buf}

/-- The chain of an open file, and the bytes it stands for. -/
structure Holds (m : Mount) (w : World) (cs : List ℕ) (f : Buf) : Prop where
  coherent : m.Coherent w
  chain : m.OnChain w.disk w.handle.firstCluster cs
  bytes : ∀ i, m.byteAt w.disk cs i = f i

/-- An open file may have moved its cursor, and may have got its first cluster. -/
structure Moves (m : Mount) (w : World) (cs : List ℕ) (w' : World) (cs' : List ℕ) : Prop where
  keeps : Keeps m w.disk cs w'.disk cs'
  handle : w'.handle = { w.handle with firstCluster := w'.handle.firstCluster, cursor := w'.handle.cursor }
  first : w'.handle.firstCluster = w.handle.firstCluster ∨ w.handle.firstCluster < 2
  length : cs.length ≤ cs'.length

theorem Moves.refl (m : Mount) (w : World) (cs : List ℕ) : Moves m w cs w cs :=
  ⟨.refl m w.disk cs, rfl, .inl rfl, Nat.le_refl _⟩

theorem Moves.trans (h : Moves m w cs w' cs') (h' : Moves m w' cs' w'' cs'') : Moves m w cs w'' cs'' where
  keeps := h.keeps.trans h'.keeps
  handle := by
    rw [h'.handle, h.handle]
  first := by
    rcases h.first with heq | hlt
    · rw [← heq]
      exact h'.first
    · exact .inr hlt
  length := Nat.le_trans h.length h'.length

theorem Grows.moves (h : Grows m first w w' cs cs') : Moves m w cs w' cs' where
  keeps := h.keeps
  handle := by rw [h.handle]
  first := .inl (by rw [h.handle])
  length := h.length

theorem Grows.holds (h : Grows m w.handle.firstCluster w w' cs cs') (hf : Holds m w cs f) : Holds m w' cs' f where
  coherent := h.coherent
  chain := by
    rw [h.handle]
    exact h.chain
  bytes i := (h.bytes i).trans (hf.bytes i)

/-! ## The cluster at the cursor -/

/-- The file holds the same bytes, the cursor is where it was. -/
structure Sought (m : Mount) (w : World) (cs : List ℕ) (f : Buf) (w' : World) (cs' : List ℕ) : Prop where
  holds : Holds m w' cs' f
  moves : Moves m w cs w' cs'
  cursor : w'.handle.cursor = w.handle.cursor

theorem Grows.sought (h : Grows m w.handle.firstCluster w w' cs cs') (hf : Holds m w cs f) :
    Sought m w cs f w' cs' :=
  ⟨h.holds hf, h.moves, by rw [h.handle]⟩

theorem Sought.trans (h : Sought m w cs f w' cs') (h' : Sought m w' cs' f w'' cs'') : Sought m w cs f w'' cs'' :=
  ⟨h'.holds, h.moves.trans h'.moves, h'.cursor.trans h.cursor⟩

theorem Taken.sought (hs : m.Sound) (hf : Holds m w cs f) (hfirst : w.handle.firstCluster < 2)
    (ht : Taken m w w' c) (ha : Allocates m w w') :
    Sought m w cs f { w' with handle := { w'.handle with firstCluster := c } } [c] := by
  obtain rfl := nil_of_first hf.chain hfirst
  have hstarts := ht.starts hs ha
  refine ⟨⟨ha.coherent, hstarts.chain, fun i => (hstarts.bytes i).trans (hf.bytes i)⟩,
    ⟨hstarts.keeps, ?_, .inr hfirst, Nat.zero_le _⟩, ?_⟩
  · dsimp only
    rw [ha.handle]
  · dsimp only
    rw [ha.handle]

theorem chainSeek_post (hs : m.Sound) (hf : Holds m w cs f) (hcursor : w.handle.cursor < 2 ^ 32) :
    Post (fun c w' => ∃ cs', Sought m w cs f w' cs' ∧ cs'[w.handle.cursor / m.clusterBytes]? = some c)
      (fun w' => ∃ cs', Sought m w cs f w' cs') (m.chainSeek w) := by
  unfold Mount.chainSeek
  rw [get_bind_run]
  have htarget : w.handle.cursor / m.clusterBytes % 2 ^ 32 = w.handle.cursor / m.clusterBytes :=
    Nat.mod_eq_of_lt (Nat.lt_of_le_of_lt (Nat.div_le_self _ _) hcursor)
  rw [htarget]
  split
  · next hfirst =>
    refine Post.bind ((allocCluster_post hs hf.coherent).mono (fun _ _ h => h) fun w₁ ha =>
      ⟨cs, (ha.grows hs hf.chain).sought hf⟩) ?_
    rintro c w₁ ⟨ht, ha⟩
    have hsought := ht.sought hs hf hfirst ha
    refine (seekFrom_post (i := 0) hs _ hsought.holds.coherent hsought.holds.chain rfl).mono ?_ ?_
    · rintro c' w₂ ⟨cs', hgrows, hc'⟩
      rw [Nat.zero_add] at hc'
      exact ⟨cs', hsought.trans (hgrows.sought hsought.holds), hc'⟩
    · rintro w₂ ⟨cs', hgrows⟩
      exact ⟨cs', hsought.trans (hgrows.sought hsought.holds)⟩
  · next hfirst =>
    have hhead := head_of_first hs hf.chain (by omega)
    refine (seekFrom_post hs _ hf.coherent hf.chain hhead).mono ?_ ?_
    · rintro c' w₂ ⟨cs', hgrows, hc'⟩
      rw [Nat.zero_add] at hc'
      exact ⟨cs', hgrows.sought hf, hc'⟩
    · rintro w₂ ⟨cs', hgrows⟩
      exact ⟨cs', hgrows.sought hf⟩

/-! ## Runs of bytes -/

/-- A run of bytes was written to the disk. -/
structure Puts (w w' : World) (at_ : ℕ) (data : Buf) (n : ℕ) : Prop where
  disk : w'.disk = blit w.disk at_ data n
  fatWindow : w'.fatWindow = w.fatWindow
  rel : w'.fatWindowRel = w.fatWindowRel
  handle : w'.handle = { w.handle with cursor := w'.handle.cursor }

theorem Quiet.puts (h : Quiet w w') (at_ : ℕ) (data : Buf) : Puts w w' at_ data 0 := by
  refine ⟨?_, h.fatWindow, h.rel, by rw [h.handle]⟩
  rw [h.disk, blit_nothing]

theorem Puts.append {at_ k : ℕ} (h : Puts w w' at_ data n) (h' : Puts w' w'' (at_ + n) (slice data n) k) :
    Puts w w'' at_ data (n + k) where
  disk := by rw [h'.disk, h.disk, blit_blit]
  fatWindow := h'.fatWindow.trans h.fatWindow
  rel := h'.rel.trans h.rel
  handle := by rw [h'.handle, h.handle]

theorem patchSector_post (m : Mount) (lba at_ : ℕ) (data : Buf) (hn : at_ + n ≤ kSectorBytes) (w : World) :
    Post (fun _ w' => Puts w w' (lba * kSectorBytes + at_) data n ∧ w'.handle = w.handle) (Quiet w)
      (m.patchSector lba at_ data n w) := by
  unfold Mount.patchSector
  refine Post.bind (read_post m lba 1 w) ?_
  rintro - w₁ ⟨hq, hwindow⟩
  rw [edit_bind_run]
  refine (writeBack_post m lba 1 _).mono (fun _ w' hwrote => ⟨⟨?_, ?_, ?_, ?_⟩, ?_⟩) fun w' hq' => ?_
  · rw [hwrote.disk]
    funext x
    dsimp only
    rw [Nat.one_mul, hq.disk]
    by_cases hin : lba * kSectorBytes ≤ x ∧ x < lba * kSectorBytes + kSectorBytes
    · rw [blit_of_mem hin.1 hin.2]
      by_cases hdata : lba * kSectorBytes + at_ ≤ x ∧ x < lba * kSectorBytes + at_ + n
      · rw [blit_of_mem (by omega) (by omega), blit_of_mem hdata.1 hdata.2]
        congr 1
        omega
      · rw [blit_of_notMem (by omega), blit_of_notMem (by omega), hwindow _ (by omega)]
        congr 1
        omega
    · rw [blit_of_notMem (by omega), blit_of_notMem (by omega)]
  · exact hwrote.fatWindow.trans hq.fatWindow
  · exact hwrote.rel.trans hq.rel
  · rw [hwrote.handle]
    dsimp only
    rw [hq.handle]
  · exact hwrote.handle.trans hq.handle
  · exact ⟨hq'.disk.trans hq.disk, hq'.fatWindow.trans hq.fatWindow, hq'.rel.trans hq.rel, hq'.hint.trans hq.hint,
      hq'.handle.trans hq.handle⟩

theorem writeSectors_post (m : Mount) (lba : ℕ) (data : Buf) (sectors : ℕ) (w : World) :
    Post (fun _ w' => Puts w w' (lba * kSectorBytes) data (sectors * kSectorBytes) ∧ w'.handle = w.handle) (Quiet w)
      (m.writeSectors lba data sectors w) := by
  unfold Mount.writeSectors
  rw [edit_bind_run]
  refine (writeBack_post m lba sectors _).mono (fun _ w' hwrote => ⟨⟨?_, hwrote.fatWindow, hwrote.rel, ?_⟩,
    hwrote.handle⟩) fun w' hq => ⟨hq.disk, hq.fatWindow, hq.rel, hq.hint, hq.handle⟩
  · rw [hwrote.disk]
    funext x
    dsimp only
    by_cases hin : lba * kSectorBytes ≤ x ∧ x < lba * kSectorBytes + sectors * kSectorBytes
    · rw [blit_of_mem hin.1 hin.2, blit_of_mem hin.1 hin.2, blit_of_mem (Nat.zero_le _) (by omega), Nat.sub_zero]
    · rw [blit_of_notMem (by omega), blit_of_notMem (by omega)]
  · rw [hwrote.handle]

theorem byteAt_blit {q p : ℕ} (hs : m.Sound) (hcs : m.OnChain d first cs) (hc : cs[q]? = some c)
    (hn : p + n ≤ m.clusterBytes) (i : ℕ) :
    m.byteAt (blit d (m.clusterAt c + p) data n) cs i =
      blit (m.byteAt d cs) (q * m.clusterBytes + p) data n i := by
  have hpos : 0 < m.clusterBytes := Nat.mul_pos hs.cluster (by decide)
  have hdiv := Nat.div_add_mod i m.clusterBytes
  have hmod := Nat.mod_lt i hpos
  obtain ⟨hq, hget⟩ := List.getElem?_eq_some_iff.1 hc
  by_cases hat : i / m.clusterBytes = q
  · -- in the cluster itself
    rw [hat, Nat.mul_comm] at hdiv
    have hbyte : ∀ d, m.byteAt d cs i = d (m.clusterAt c + i % m.clusterBytes) := by
      intro d
      unfold Mount.byteAt
      rw [hat, hc]
    rw [hbyte]
    by_cases hin : p ≤ i % m.clusterBytes ∧ i % m.clusterBytes < p + n
    · rw [blit_of_mem (by omega) (by omega), blit_of_mem (by omega) (by omega)]
      congr 1
      omega
    · rw [blit_of_notMem (by omega), blit_of_notMem (by omega), hbyte]
  · -- in another one, or past the chain
    have hout : i < q * m.clusterBytes + p ∨ q * m.clusterBytes + p + n ≤ i := by
      by_contra hin
      refine hat (Nat.div_eq_of_lt_le (by omega) ?_)
      rw [Nat.succ_mul]
      omega
    rw [blit_of_notMem hout]
    unfold Mount.byteAt
    rcases hc' : cs[i / m.clusterBytes]? with _ | c'
    · rfl
    · refine blit_of_notMem ?_
      by_contra hin
      have hcluster := inCluster_at hs c' i
      have heq : c' = c := by
        refine inCluster_unique (hcs.range c' (List.mem_of_getElem? hc')).1
          (hcs.range c (List.mem_of_getElem? hc)).1 hcluster ⟨?_, ?_⟩
        · omega
        · omega
      obtain ⟨hq', hget'⟩ := List.getElem?_eq_some_iff.1 hc'
      exact hat (hcs.chain.nodup.getElem_inj_iff.1 (hget'.trans (heq.trans hget.symm)))

theorem Puts.holds {q p : ℕ} (hs : m.Sound) (hf : Holds m w cs f) (hc : cs[q]? = some c)
    (hn : p + n ≤ m.clusterBytes) (h : Puts w w' (m.clusterAt c + p) data n) :
    Holds m w' cs (blit f (q * m.clusterBytes + p) data n) ∧ Moves m w cs w' cs := by
  have hmem := List.mem_of_getElem? hc
  have hin : ∀ x, m.clusterAt c + p ≤ x → x < m.clusterAt c + p + n → m.InCluster c x :=
    fun x hlow hhigh => ⟨by omega, by omega⟩
  have hout : ∀ x, ¬ m.InCluster c x → w'.disk x = w.disk x := by
    intro x hx
    rw [h.disk]
    refine blit_of_notMem ?_
    by_contra hrange
    exact hx (hin x (by omega) (by omega))
  have htable : ∀ x, m.InTable x → w'.disk x = w.disk x := fun x hx => hout x fun hcx => not_inTable hs hcx hx
  have hentry : ∀ c' < m.clusterCount + 2, m.entry w'.disk c' = m.entry w.disk c' :=
    fun c' hc' => entry_of_table hs hc' htable
  have hfirst : w'.handle.firstCluster = w.handle.firstCluster := by rw [h.handle]
  refine ⟨⟨hf.coherent.of_table hs htable h.fatWindow h.rel, ?_, fun i => ?_⟩, ⟨⟨fun c' hown => ?_, fun x hx => ?_⟩, ?_,
    .inl hfirst, Nat.le_refl _⟩⟩
  · rw [hfirst]
    exact hf.chain.congr fun c' hc' => hentry c' (hf.chain.range c' hc').2
  · rw [h.disk, byteAt_blit hs hf.chain hc hn i]
    congr 1
    funext j
    exact hf.bytes j
  · rwa [Mount.Owns, hentry c' hown.1.2] at hown
  · exact hout x (hx.2 c ⟨hf.chain.range c hmem, .inr hmem⟩)
  · rw [h.handle]

/-! ## The loop -/

theorem Puts.advance {at_ : ℕ} (h : Puts w w' at_ data n) (k : ℕ) : Puts w (Mount.advance k w') at_ data n where
  disk := h.disk
  fatWindow := h.fatWindow
  rel := h.rel
  handle := by
    unfold Mount.advance
    dsimp only
    rw [h.handle]

/-- As many bytes of the data as are reported went into a cluster, from the cursor on. -/
structure Spanned (m : Mount) (c : ℕ) (data : Buf) (left : ℕ) (w : World) (r : Bool × ℕ × World) : Prop where
  puts : Puts w r.2.2 (m.clusterAt c + w.handle.cursor % m.clusterBytes) data r.2.1
  left : r.2.1 ≤ left
  room : w.handle.cursor % m.clusterBytes + r.2.1 ≤ m.clusterBytes
  cursor : r.2.2.handle.cursor = w.handle.cursor + r.2.1

theorem writeSpan_spanned {left : ℕ} (hs : m.Sound) (c : ℕ) (data : Buf) (hcursor : w.handle.cursor + left < 2 ^ 64) :
    Spanned m c data left w (m.writeSpan c data left w) := by
  have hpos : 0 < m.clusterBytes := Nat.mul_pos hs.cluster (by decide)
  have hin := Nat.mod_lt w.handle.cursor hpos
  unfold Mount.writeSpan
  dsimp only
  generalize hat : w.handle.cursor % m.clusterBytes = inCluster at *
  have hstart : (m.clusterSector c + inCluster / kSectorBytes) * kSectorBytes + inCluster % kSectorBytes =
      m.clusterAt c + inCluster := by
    unfold Mount.clusterAt kSectorBytes
    omega
  generalize hspan : min left (m.clusterBytes - inCluster) = span
  have hnone : ∀ w', Quiet w w' → Spanned m c data left w (false, 0, w') := by
    intro w' hq
    exact ⟨hq.puts _ data, Nat.zero_le _, by dsimp only; omega, by rw [hq.handle]; rfl⟩
  have hsome : ∀ (go : Bool) (k : ℕ) (w' : World), k ≤ span → Puts w w' (m.clusterAt c + inCluster) data k →
      w'.handle.cursor = w.handle.cursor + k → Spanned m c data left w (go, k, w') := by
    intro go k w' hk hputs hcur
    refine ⟨by rw [hat]; exact hputs, ?_, ?_, hcur⟩
    · dsimp only
      omega
    · dsimp only
      omega
  split
  · next hpart =>
    have hlt := Nat.mod_lt inCluster (show 0 < kSectorBytes by decide)
    have hfit : inCluster % kSectorBytes + min span (kSectorBytes - inCluster % kSectorBytes) ≤ kSectorBytes := by
      omega
    have hhead := patchSector_post m (m.clusterSector c + inCluster / kSectorBytes) _ data hfit w
    rw [hstart] at hhead
    split
    · next w' heq =>
      rw [heq] at hhead
      exact hnone w' hhead
    · next w' heq =>
      rw [heq] at hhead
      obtain ⟨hputs, hhandle⟩ := hhead
      refine hsome _ _ _ (by omega) (hputs.advance _) ?_
      unfold Mount.advance
      dsimp only
      rw [hhandle, Nat.mod_eq_of_lt (by omega)]
  · next hwhole =>
    rw [not_not.1 hwhole, Nat.add_zero] at hstart
    have hsplit := Nat.div_add_mod span kSectorBytes
    rw [Nat.mul_comm] at hsplit
    -- the whole sectors
    have hsectors : Post (fun _ w' => Puts w w' (m.clusterAt c + inCluster) data (span / kSectorBytes * kSectorBytes) ∧
        w'.handle = w.handle) (Quiet w) (when (span / kSectorBytes ≠ 0)
          (m.writeSectors (m.clusterSector c + inCluster / kSectorBytes) data (span / kSectorBytes)) w) := by
      by_cases hzero : span / kSectorBytes = 0
      · rw [when_neg (not_not.2 hzero), hzero, Nat.zero_mul]
        exact ⟨(Quiet.refl w).puts _ data, rfl⟩
      · rw [when_pos hzero, ← hstart]
        exact writeSectors_post m _ data _ w
    split
    · next w' heq =>
      rw [heq] at hsectors
      exact hnone w' hsectors
    · next w₁ heq =>
      rw [heq] at hsectors
      obtain ⟨hputs, hhandle⟩ := hsectors
      have hcur : (Mount.advance (span / kSectorBytes * kSectorBytes) w₁).handle.cursor =
          w.handle.cursor + span / kSectorBytes * kSectorBytes := by
        unfold Mount.advance
        dsimp only
        rw [hhandle, Nat.mod_eq_of_lt (by omega)]
      split
      · exact hsome _ _ _ (by omega) (hputs.advance _) hcur
      · have hlt := Nat.mod_lt span (show 0 < kSectorBytes by decide)
        have hfit : 0 + span % kSectorBytes ≤ kSectorBytes := by omega
        have htail := patchSector_post m (m.clusterSector c + inCluster / kSectorBytes + span / kSectorBytes) 0
          (slice data (span / kSectorBytes * kSectorBytes)) hfit (Mount.advance (span / kSectorBytes * kSectorBytes) w₁)
        rw [Nat.add_zero, Nat.add_mul, hstart] at htail
        split
        · next w' heq' =>
          rw [heq'] at htail
          refine hsome _ _ _ (by omega) ?_ (by rw [htail.handle, hcur])
          have hnothing := (hputs.advance (span / kSectorBytes * kSectorBytes)).append (htail.puts _ _)
          rwa [Nat.add_zero] at hnothing
        · next w' heq' =>
          rw [heq'] at htail
          refine hsome _ _ _ (by omega) (((hputs.advance _).append htail.1).advance _) ?_
          unfold Mount.advance at htail ⊢
          dsimp only at htail ⊢
          rw [htail.2]
          dsimp only
          rw [hhandle, Nat.mod_eq_of_lt (by omega), Nat.mod_eq_of_lt (by omega), Nat.add_assoc]

/-- The bytes that are reported are the file's, from where the write began. -/
structure Overwrites (m : Mount) (f : Buf) (offset : ℕ) (data : Buf) (bytes : ℕ) (w : World) (cs : List ℕ)
    (r : ℕ × World) : Prop where
  most : r.1 ≤ bytes
  cursor : r.2.handle.cursor = offset + r.1
  file : ∃ cs', Holds m r.2 cs' (blit f offset data r.1) ∧ Moves m w cs r.2 cs' ∧
    (r.1 ≠ 0 → offset + r.1 ≤ cs'.length * m.clusterBytes)

theorem Overwrites.of_moves {offset bytes : ℕ} {r : ℕ × World} (h : Overwrites m f offset data bytes w' cs' r)
    (hm : Moves m w cs w' cs') : Overwrites m f offset data bytes w cs r where
  most := h.most
  cursor := h.cursor
  file := by
    obtain ⟨cs'', hf, hmoves, hfits⟩ := h.file
    exact ⟨cs'', hf, hm.trans hmoves, hfits⟩

theorem writeFrom_overwrites {bytes written offset : ℕ} (hs : m.Sound) (turns : ℕ)
    (hf : Holds m w cs (blit f offset data written)) (hcursor : w.handle.cursor = offset + written)
    (hle : written ≤ bytes) (hend : offset + bytes ≤ 2 ^ 32)
    (hfits : written ≠ 0 → offset + written ≤ cs.length * m.clusterBytes) :
    Overwrites m f offset data bytes w cs (m.writeFrom data bytes turns written w) := by
  induction turns generalizing w cs written with
  | zero => exact ⟨hle, hcursor, cs, hf, .refl m w cs, hfits⟩
  | succ turns ih =>
    unfold Mount.writeFrom
    split
    · exact ⟨hle, hcursor, cs, hf, .refl m w cs, hfits⟩
    · next hmore =>
      have hlonger : ∀ {w' cs'}, Moves m w cs w' cs' → written ≠ 0 → offset + written ≤ cs'.length * m.clusterBytes :=
        fun h hne => Nat.le_trans (hfits hne) (Nat.mul_le_mul_right _ h.length)
      have hseek := chainSeek_post hs hf (by omega)
      split
      · next w₁ heq =>
        rw [heq] at hseek
        obtain ⟨cs₁, hsought⟩ := hseek
        exact ⟨hle, hsought.cursor.trans hcursor, cs₁, hsought.holds, hsought.moves, hlonger hsought.moves⟩
      · next c w₁ heq =>
        rw [heq] at hseek
        obtain ⟨cs₁, hsought, hc⟩ := hseek
        have hcur : w₁.handle.cursor = offset + written := hsought.cursor.trans hcursor
        split
        · exact ⟨hle, hcur, cs₁, hsought.holds, hsought.moves, hlonger hsought.moves⟩
        · have hspan : Spanned m c (slice data written) (bytes - written) w₁
              (m.writeSpan c (slice data written) (bytes - written) w₁) := writeSpan_spanned hs c _ (by omega)
          -- the file's bytes after this turn
          have hc' : cs₁[w₁.handle.cursor / m.clusterBytes]? = some c := by
            rw [hcur, ← hcursor]
            exact hc
          obtain ⟨hnext, hmoves⟩ := hspan.puts.holds hs hsought.holds hc' hspan.room
          have hat : (offset + written) / m.clusterBytes * m.clusterBytes + (offset + written) % m.clusterBytes =
              offset + written := by
            rw [Nat.mul_comm]
            exact Nat.div_add_mod _ _
          have hroom : offset + written + (m.writeSpan c (slice data written) (bytes - written) w₁).2.1 ≤
              cs₁.length * m.clusterBytes := by
            have hq := (List.getElem?_eq_some_iff.1 hc').1
            have hmul := Nat.mul_le_mul_right m.clusterBytes (show _ + 1 ≤ cs₁.length from hq)
            have hfit := hspan.room
            rw [hcur] at hmul hfit
            rw [Nat.succ_mul] at hmul
            omega
          have hcount := hspan.left
          have hmoved := hspan.cursor
          rw [hcur, hat, blit_blit] at hnext
          rw [hcur] at hmoved
          split
          · next more w₂ heq' =>
            rw [heq'] at hnext hmoves hcount hmoved hroom
            dsimp only at hnext hmoves hcount hmoved hroom
            exact ⟨by dsimp only; omega, hmoved.trans (Nat.add_assoc _ _ _), cs₁, hnext,
              hsought.moves.trans hmoves, fun _ => by rwa [← Nat.add_assoc]⟩
          · next more w₂ heq' =>
            rw [heq'] at hnext hmoves hcount hmoved hroom
            dsimp only at hnext hmoves hcount hmoved hroom
            have hrest := ih hnext (hmoved.trans (Nat.add_assoc _ _ _)) (by omega) fun _ => by rwa [← Nat.add_assoc]
            exact (hrest.of_moves hmoves).of_moves hsought.moves

end Aegir.Fat
