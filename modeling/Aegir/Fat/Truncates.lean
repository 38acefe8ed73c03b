/-
  What a truncation does to a file's chain.
-/
import Aegir.Fat.Slots

namespace Aegir.Fat

open Aegir.Lib Aegir.Lib.Buf Aegir.Lib.Fallible

variable {m : Mount} {w w' w'' : World} {c first first' size : ℕ} {cs cs' l : List ℕ}

/-! ## Freeing -/

/-- No entries but those of some clusters have changed, and nothing past the table. -/
structure Freed (m : Mount) (w w' : World) (l : List ℕ) : Prop where
  other : ∀ x, ¬ m.InTable x → w'.disk x = w.disk x
  rest : ∀ c < m.clusterCount + 2, c ∉ l → m.entry w'.disk c = m.entry w.disk c
  coherent : m.Coherent w'
  handle : w'.handle = w.handle

theorem Freed.refl (l : List ℕ) (hw : m.Coherent w) : Freed m w w l := ⟨fun _ _ => rfl, fun _ _ _ => rfl, hw, rfl⟩

theorem fits_free (m : Mount) : m.Fits kFreeCluster := by
  unfold Mount.Fits kFreeCluster
  split
  · decide
  · decide

theorem chainFreeFrom_post (hs : m.Sound) (turns : ℕ) (hw : m.Coherent w)
    (hl : Chain (fun c => m.linked (m.entry w.disk c)) (m.linked c) l) (hrange : ∀ c ∈ l, m.InRange c) :
    Post (fun _ w' => Freed m w w' l) (fun _ => True) (m.chainFreeFrom turns c w) := by
  induction turns generalizing c l w with
  | zero => trivial
  | succ turns ih =>
    unfold Mount.chainFreeFrom
    split
    · exact .refl l hw
    · next hmore =>
      have hhead : m.linked c = c := if_neg hmore
      rw [hhead] at hl
      cases l with
      | nil =>
        have hzero : c = 0 := hl
        omega
      | cons a l =>
        obtain ⟨rfl, -, hrest⟩ := id hl
        have hr := hrange c List.mem_cons_self
        refine Post.bind ((same_fatLoad c hw).mono (fun _ _ h => h) fun _ _ => trivial) ?_
        rintro - w₁ ⟨hnext, hsame⟩
        rw [get_bind_run]
        refine Post.bind ((fatStore_post hs hr.2 (fits_free m) w₁).mono (fun _ _ h => h) fun _ _ => trivial) ?_
        rintro - w₂ ⟨hstored, -⟩
        have hnotMem : c ∉ l := (List.nodup_cons.1 hl.nodup).1
        have hentry : ∀ c' < m.clusterCount + 2, c' ≠ c → m.entry w₂.disk c' = m.entry w.disk c' := by
          intro c' hc' hne
          rw [hstored.rest c' hc' hne, hsame.disk]
        have hlater : ∀ c' ∈ l, m.entry w₂.disk c' = m.entry w.disk c' := by
          intro c' hmem
          refine hentry c' (hrange c' (List.mem_cons_of_mem _ hmem)).2 ?_
          rintro rfl
          exact hnotMem hmem
        rw [hnext]
        refine (ih (hstored.coherent hsame.coherent) (hrest.congr fun c' hmem => by rw [hlater c' hmem])
          fun c' hmem => hrange c' (List.mem_cons_of_mem _ hmem)).mono (fun _ w₃ hfreed => ?_) fun _ h => h
        refine ⟨fun x hx => ?_, fun c' hc' hmem => ?_, hfreed.coherent, ?_⟩
        · rw [hfreed.other x hx, hstored.other x hx, hsame.disk]
        · rw [List.mem_cons, not_or] at hmem
          rw [hfreed.rest c' hc' hmem.2, hentry c' hc' hmem.1]
        · rw [hfreed.handle, hstored.handle, hsame.handle]

/-! ## Cutting -/

/-- A chain that is kept up to a length, and is as it was there. -/
structure Reshaped (m : Mount) (first : ℕ) (w w' : World) (cs cs' : List ℕ) : Prop where
  keeps : Keeps m w.disk cs w'.disk cs'
  chain : m.OnChain w'.disk first cs'
  bytes : ∀ i < cs'.length * m.clusterBytes, m.byteAt w'.disk cs' i = m.byteAt w.disk cs i
  coherent : m.Coherent w'
  handle : w'.handle = w.handle

theorem Grows.reshaped (h : Grows m first' w w' cs cs') {cs'' : List ℕ} (h' : Reshaped m first w' w'' cs' cs'') :
    Reshaped m first w w'' cs cs'' where
  keeps := h.keeps.trans h'.keeps
  chain := h'.chain
  bytes i hi := (h'.bytes i hi).trans (h.bytes i)
  coherent := h'.coherent
  handle := h'.handle.trans h.handle

theorem Freed.keeps (h : Freed m w w' l) (hl : ∀ c ∈ l, c ∈ cs) : Keeps m w.disk cs w'.disk [] where
  owns c hown := by
    refine ⟨hown.1, ?_⟩
    by_cases hmem : c ∈ l
    · exact .inr (hl c hmem)
    · rw [← h.rest c hown.1.2 hmem]
      exact .inl (hown.2.resolve_right List.not_mem_nil)
  apart x hx := h.other x hx.1

theorem Freed.reshaped {l₁ l₂ : List ℕ} (hs : m.Sound) (hcs : m.OnChain w.disk first (l₁ ++ c :: l₂))
    (h : Freed m w w' l₂) (h' : Stored m w' w'' c m.chainEocMark) (hmark : m.entry w''.disk c = m.chainEocMark) :
    Reshaped m first w w'' (l₁ ++ c :: l₂) (l₁ ++ [c]) := by
  have hnodup := List.nodup_append.1 hcs.chain.nodup
  have hr : ∀ c' ∈ l₁ ++ [c], m.InRange c' := by
    intro c' hmem
    refine hcs.range c' ?_
    rcases List.mem_append.1 hmem with hmem | hmem
    · exact List.mem_append_left _ hmem
    · rw [List.mem_singleton.1 hmem]
      exact List.mem_append_right _ List.mem_cons_self
  have hentry : ∀ c' ∈ l₁, m.entry w''.disk c' = m.entry w.disk c' := by
    intro c' hmem
    have hrange := (hr c' (List.mem_append_left _ hmem)).2
    rw [h'.rest c' hrange (hnodup.2.2 c' hmem c List.mem_cons_self), h.rest c' hrange fun hmem' =>
      hnodup.2.2 c' hmem c' (List.mem_cons_of_mem _ hmem') rfl]
  have hother : ∀ x, ¬ m.InTable x → w''.disk x = w.disk x := fun x hx => (h'.other x hx).trans (h.other x hx)
  refine ⟨⟨fun c' hown => ⟨hown.1, ?_⟩, fun x hx => hother x hx.1⟩, ⟨?_, hcs.first, hr, fun c' hmem => ?_⟩,
    fun i hi => ?_, h'.coherent h.coherent, h'.handle.trans h.handle⟩
  · rcases hown.2 with hzero | hmem
    · by_cases heq : c' = c
      · rw [heq, hmark] at hzero
        have := mark_le m
        omega
      · rw [h'.rest c' hown.1.2 heq] at hzero
        have hfreed : Keeps m w.disk (l₁ ++ c :: l₂) w'.disk [] :=
          h.keeps fun c'' hmem => List.mem_append_right _ (List.mem_cons_of_mem _ hmem)
        exact (hfreed.owns c' ⟨hown.1, .inl hzero⟩).2
    · right
      rcases List.mem_append.1 hmem with hmem | hmem
      · exact List.mem_append_left _ hmem
      · rw [List.mem_singleton.1 hmem]
        exact List.mem_append_right _ List.mem_cons_self
  · refine hcs.chain.cut ?_ fun c' hmem => ?_
    · rw [hmark, linked_mark]
    · rw [hentry c' hmem]
  · rcases List.mem_append.1 hmem with hmem | hmem
    · rw [hentry c' hmem]
      exact hcs.used c' (List.mem_append_left _ hmem)
    · rw [List.mem_singleton.1 hmem, hmark]
      exact mark_le m
  · -- the clusters that are kept are the chain's first ones
    have hlt : i / m.clusterBytes < (l₁ ++ [c]).length := Nat.div_lt_of_lt_mul (by rwa [Nat.mul_comm] at hi)
    have hget : (l₁ ++ c :: l₂)[i / m.clusterBytes]? = (l₁ ++ [c])[i / m.clusterBytes]? := by
      rw [show l₁ ++ c :: l₂ = l₁ ++ [c] ++ l₂ by simp, List.getElem?_append_left hlt]
    unfold Mount.byteAt
    rw [hget]
    rcases hc : (l₁ ++ [c])[i / m.clusterBytes]? with _ | c'
    · rfl
    · exact hother _ (not_inTable hs (inCluster_at hs c' i))

theorem Freed.empties (h : Freed m w w' cs) : Reshaped m 0 w w' cs [] where
  keeps := h.keeps fun _ hc => hc
  chain := ⟨linked_of_lt (by decide), by omega, fun _ hc => absurd hc List.not_mem_nil,
    fun _ hc => absurd hc List.not_mem_nil⟩
  bytes i hi := by
    rw [List.length_nil, Nat.zero_mul] at hi
    omega
  coherent := h.coherent
  handle := h.handle

theorem firstCluster_post {R : ℕ → World → Prop} {k : ℕ → M ℕ} (hs : m.Sound) (hw : m.Coherent w)
    (hcs : m.OnChain w.disk first cs)
    (hk : ∀ c w' cs', Grows m c w w' cs cs' → cs'[0]? = some c → Post R (fun _ => True) (k c w')) :
    Post R (fun _ => True) ((if first < 2 then m.allocCluster >>= k else k first) w) := by
  split
  · next hfirst =>
    obtain rfl := nil_of_first hcs hfirst
    refine Post.bind ((allocCluster_post hs hw).mono (fun _ _ h => h) fun _ _ => trivial) ?_
    rintro c w' ⟨ht, ha⟩
    exact hk c w' [c] (ht.starts hs ha) rfl
  · next hfirst => exact hk first w cs ((Same.mk rfl hw rfl).grows hcs) (head_of_first hs hcs (by omega))

theorem cutChain_post {k : ℕ} (hs : m.Sound) (hw : m.Coherent w) (hcs : m.OnChain w.disk first cs)
    (hc : cs[k]? = some c) :
    Post (fun first' w' => first' = first ∧ ∃ cs', Reshaped m first w w' cs cs' ∧ cs'.length = k + 1)
      (fun _ => True)
      ((do
        let _ ← m.fatLoad c
        let w ← get
        when (m.windowNext w c < m.chainEoc) (m.chainFree (m.windowNext w c))
        m.fatStore c m.chainEocMark
        pure first : M ℕ) w) := by
  obtain ⟨hk, hget⟩ := List.getElem?_eq_some_iff.1 hc
  have hr := hcs.range c (List.mem_of_getElem? hc)
  have hsplit : cs = cs.take k ++ c :: cs.drop (k + 1) := by
    rw [← hget, ← List.drop_eq_getElem_cons hk, List.take_append_drop]
  have hlen : (cs.take k).length = k := List.length_take_of_le (Nat.le_of_lt hk)
  generalize cs.take k = l₁ at hsplit hlen
  generalize cs.drop (k + 1) = l₂ at hsplit
  subst hsplit
  refine Post.bind ((same_fatLoad c hw).mono (fun _ _ h => h) fun _ _ => trivial) ?_
  rintro - w₁ ⟨hnext, hsame⟩
  rw [get_bind_run]
  have hrest : Chain (fun c => m.linked (m.entry w₁.disk c)) (m.linked (m.entry w₁.disk c)) l₂ := by
    rw [hsame.disk]
    exact (Chain.suffix hcs.chain).2.2
  have hrange : ∀ c' ∈ l₂, m.InRange c' :=
    fun c' hmem => hcs.range c' (List.mem_append_right _ (List.mem_cons_of_mem _ hmem))
  rw [hnext, ← hsame.disk]
  have hfree : Post (fun _ w' => Freed m w₁ w' l₂) (fun _ => True)
      (when (m.entry w₁.disk c < m.chainEoc) (m.chainFree (m.entry w₁.disk c)) w₁) := by
    by_cases hlt : m.entry w₁.disk c < m.chainEoc
    · rw [when_pos hlt]
      exact chainFreeFrom_post hs _ hsame.coherent hrest hrange
    · rw [when_neg hlt]
      exact .refl l₂ hsame.coherent
  refine Post.bind hfree ?_
  rintro - w₂ hfreed
  refine Post.bind ((fatStore_post hs hr.2 (fits_mark m) w₂).mono (fun _ _ h => h) fun _ _ => trivial) ?_
  rintro - w₃ ⟨hstored, hmark⟩
  have hcs₁ : m.OnChain w₁.disk first (l₁ ++ c :: l₂) := by rwa [hsame.disk]
  refine ⟨rfl, l₁ ++ [c], (hsame.grows hcs).reshaped (hfreed.reshaped hs hcs₁ hstored hmark), ?_⟩
  rw [List.length_append, hlen, List.length_singleton]

theorem chainTruncate_post (hs : m.Sound) (hw : m.Coherent w) (hcs : m.OnChain w.disk first cs)
    (hsize : size < 2 ^ 32) :
    Post (fun first' w' => ∃ cs', Reshaped m first' w w' cs cs' ∧ size ≤ cs'.length * m.clusterBytes)
      (fun _ => True) (m.chainTruncate first size w) := by
  have hpos : 0 < m.clusterBytes := Nat.mul_pos hs.cluster (by decide)
  unfold Mount.chainTruncate
  split
  · next hzero =>
    refine Post.bind (chainFreeFrom_post hs _ hw hcs.chain hcs.range) ?_
    rintro - w' hfreed
    exact ⟨[], hfreed.empties, by rw [hzero]; exact Nat.zero_le _⟩
  · next hzero =>
    have htarget : (size - 1) / m.clusterBytes % 2 ^ 32 = (size - 1) / m.clusterBytes :=
      Nat.mod_eq_of_lt (Nat.lt_of_le_of_lt (Nat.div_le_self _ _) (by omega))
    dsimp only
    rw [htarget]
    refine firstCluster_post hs hw hcs fun first₁ w₁ cs₁ hgrows hfirst => ?_
    refine Post.bind ((truncateFrom_post hs _ hgrows.coherent hgrows.chain hfirst).mono (fun _ _ h => h)
      fun _ _ => trivial) ?_
    rintro c w₂ ⟨cs₂, hgrows₂, hc⟩
    rw [Nat.zero_add] at hc
    refine (cutChain_post hs hgrows₂.coherent hgrows₂.chain hc).mono ?_ fun _ h => h
    rintro first' w₃ ⟨rfl, cs₃, hreshaped, hlen⟩
    refine ⟨cs₃, (hgrows.trans hgrows₂).reshaped hreshaped, ?_⟩
    have hdiv := Nat.div_add_mod (size - 1) m.clusterBytes
    have hmod := Nat.mod_lt (size - 1) hpos
    rw [hlen, Nat.succ_mul, Nat.mul_comm]
    omega

end Aegir.Fat
