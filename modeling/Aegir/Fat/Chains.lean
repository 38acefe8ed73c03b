/-
  A file's chain of clusters, and the bytes it stands for.
-/
import Aegir.Fat.Table
import Aegir.Lib.Chain

namespace Aegir.Fat

open Aegir.Lib Aegir.Lib.Buf Aegir.Lib.Fallible

namespace Mount
variable (m : Mount)

/-- The cluster an entry leads to; zero at the end of a chain. -/
def linked (value : ℕ) : ℕ := if value < 2 ∨ m.chainEoc ≤ value then 0 else value

/-- The chain of a first cluster. -/
structure OnChain (d : Buf) (first : ℕ) (cs : List ℕ) : Prop where
  chain : Chain (fun c => m.linked (m.entry d c)) (m.linked first) cs
  first : first < m.clusterCount + 2
  range : ∀ c ∈ cs, m.InRange c
  used : ∀ c ∈ cs, 2 ≤ m.entry d c

def byteAt (d : Buf) (cs : List ℕ) (i : ℕ) : UInt8 :=
  match cs[i / m.clusterBytes]? with
  | some c => d (m.clusterAt c + i % m.clusterBytes)
  | none => 0

def Owns (d : Buf) (cs : List ℕ) (c : ℕ) : Prop := m.InRange c ∧ (m.entry d c = 0 ∨ c ∈ cs)

def Apart (d : Buf) (cs : List ℕ) (x : ℕ) : Prop := ¬ m.InTable x ∧ ∀ c, m.Owns d cs c → ¬ m.InCluster c x

end Mount

variable {m : Mount} {w w' w'' : World} {d d' d'' : Buf} {c next first first' : ℕ} {cs cs' cs'' : List ℕ}

/-- What is apart from a chain stays so, and as it was. -/
structure Keeps (m : Mount) (d : Buf) (cs : List ℕ) (d' : Buf) (cs' : List ℕ) : Prop where
  owns : ∀ c, m.Owns d' cs' c → m.Owns d cs c
  apart : ∀ x, m.Apart d cs x → d' x = d x

theorem Keeps.refl (m : Mount) (d : Buf) (cs : List ℕ) : Keeps m d cs d cs := ⟨fun _ h => h, fun _ _ => rfl⟩

theorem Keeps.stays {x : ℕ} (h : Keeps m d cs d' cs') (hx : m.Apart d cs x) : m.Apart d' cs' x :=
  ⟨hx.1, fun c hc => hx.2 c (h.owns c hc)⟩

theorem Keeps.trans (h : Keeps m d cs d' cs') (h' : Keeps m d' cs' d'' cs'') : Keeps m d cs d'' cs'' where
  owns c hc := h.owns c (h'.owns c hc)
  apart x hx := (h'.apart x (h.stays hx)).trans (h.apart x hx)

/-! ## Links -/

theorem linked_of_range (hs : m.Sound) (hr : m.InRange c) : m.linked c = c := by
  have hmarks := hs.marks
  obtain ⟨hlow, hhigh⟩ := hr
  exact if_neg (by omega)

theorem linked_of_eoc {value : ℕ} (h : m.chainEoc ≤ value) : m.linked value = 0 := if_pos (.inr h)

theorem linked_of_lt {value : ℕ} (h : value < 2) : m.linked value = 0 := if_pos (.inl h)

theorem eoc_le_mark (m : Mount) : m.chainEoc ≤ m.chainEocMark := by
  unfold Mount.chainEoc Mount.chainEocMark kEoc32 kEoc16 kEocMark32 kEocMark16
  split
  · decide
  · decide

theorem linked_mark (m : Mount) : m.linked m.chainEocMark = 0 := linked_of_eoc (eoc_le_mark m)

theorem mark_le (m : Mount) : 2 ≤ m.chainEocMark := by
  unfold Mount.chainEocMark kEocMark32 kEocMark16
  split
  · decide
  · decide

theorem fits_of_range (hs : m.Sound) (hr : m.InRange c) : m.Fits c := by
  have hmarks := hs.marks
  have hlt := hr.2
  unfold Mount.chainEoc kEoc32 kEoc16 at hmarks
  unfold Mount.Fits
  split
  · next h32 =>
    rw [if_pos h32] at hmarks
    omega
  · next h32 =>
    rw [if_neg h32] at hmarks
    omega

theorem nil_of_first (h : m.OnChain d first cs) (hfirst : first < 2) : cs = [] :=
  h.chain.eq_nil_iff.2 (linked_of_lt hfirst)

theorem head_of_first (hs : m.Sound) (h : m.OnChain d first cs) (hfirst : 2 ≤ first) : cs[0]? = some first := by
  have hhead := h.chain.head_eq
  rw [linked_of_range hs ⟨hfirst, h.first⟩] at hhead
  rw [List.head?_eq_getElem?] at hhead
  rcases hzero : cs[0]? with _ | c
  · rw [hzero] at hhead
    dsimp only [Option.getD_none] at hhead
    omega
  · rw [hzero] at hhead
    rw [hhead]
    rfl

theorem entry_on_chain {k : ℕ} (h : m.OnChain d first cs) (hc : cs[k]? = some c) :
    m.chainEoc ≤ m.entry d c ∧ cs[k + 1]? = none ∨
      m.entry d c < m.chainEoc ∧ cs[k + 1]? = some (m.entry d c) := by
  have hnext := h.chain.next_getElem? hc
  have hused := h.used c (List.mem_of_getElem? hc)
  rcases Nat.lt_or_ge (m.entry d c) m.chainEoc with hlt | hge
  · right
    refine ⟨hlt, ?_⟩
    rw [show m.linked (m.entry d c) = m.entry d c from if_neg (by omega)] at hnext
    rcases hsome : cs[k + 1]? with _ | c'
    · rw [hsome] at hnext
      dsimp only [Option.getD_none] at hnext
      omega
    · rw [hsome] at hnext
      rw [hnext]
      rfl
  · left
    refine ⟨hge, ?_⟩
    rw [linked_of_eoc hge] at hnext
    rcases hsome : cs[k + 1]? with _ | c'
    · rfl
    · rw [hsome] at hnext
      exact absurd hnext.symm (h.chain.ne_zero (List.mem_of_getElem? hsome))

theorem Mount.OnChain.congr (h : m.OnChain d first cs) (hd : ∀ c ∈ cs, m.entry d' c = m.entry d c) :
    m.OnChain d' first cs where
  chain := h.chain.congr fun c hc => by rw [hd c hc]
  first := h.first
  range := h.range
  used c hc := by
    rw [hd c hc]
    exact h.used c hc

/-! ## Bytes -/

theorem inCluster_at (hs : m.Sound) (c i : ℕ) : m.InCluster c (m.clusterAt c + i % m.clusterBytes) := by
  have hpos : 0 < m.clusterBytes := Nat.mul_pos hs.cluster (by decide)
  exact ⟨Nat.le_add_right _ _, Nat.add_lt_add_left (Nat.mod_lt _ hpos) _⟩

theorem byteAt_congr (hs : m.Sound) (hd : ∀ c ∈ cs, ∀ x, m.InCluster c x → d' x = d x) (i : ℕ) :
    m.byteAt d' cs i = m.byteAt d cs i := by
  unfold Mount.byteAt
  rcases hc : cs[i / m.clusterBytes]? with _ | c
  · rfl
  · exact hd c (List.mem_of_getElem? hc) _ (inCluster_at hs c i)

theorem byteAt_append {l : List ℕ} (hs : m.Sound) (hzero : ∀ c ∈ l, ∀ x, m.InCluster c x → d x = 0) (i : ℕ) :
    m.byteAt d (cs ++ l) i = m.byteAt d cs i := by
  unfold Mount.byteAt
  rcases Nat.lt_or_ge (i / m.clusterBytes) cs.length with hlt | hge
  · rw [List.getElem?_append_left hlt]
  · rw [List.getElem?_append_right hge, List.getElem?_eq_none hge]
    rcases hc : l[i / m.clusterBytes - cs.length]? with _ | c
    · rfl
    · exact hzero c (List.mem_of_getElem? hc) _ (inCluster_at hs c i)

/-! ## Growth -/

/-- A chain has grown, if at all, by zeroed clusters that were free; where it had none, it has got a
    first one. -/
structure Grows (m : Mount) (first : ℕ) (w w' : World) (cs cs' : List ℕ) : Prop where
  keeps : Keeps m w.disk cs w'.disk cs'
  chain : m.OnChain w'.disk first cs'
  length : cs.length ≤ cs'.length
  bytes : ∀ i, m.byteAt w'.disk cs' i = m.byteAt w.disk cs i
  coherent : m.Coherent w'
  handle : w'.handle = w.handle

theorem Grows.trans (h : Grows m first' w w' cs cs') (h' : Grows m first w' w'' cs' cs'') :
    Grows m first w w'' cs cs'' where
  keeps := h.keeps.trans h'.keeps
  chain := h'.chain
  length := Nat.le_trans h.length h'.length
  bytes i := (h'.bytes i).trans (h.bytes i)
  coherent := h'.coherent
  handle := h'.handle.trans h.handle

theorem Mount.OnChain.ne_zero (h : m.OnChain d first cs) (hc : c ∈ cs) : m.entry d c ≠ 0 := by
  have := h.used c hc
  omega

theorem Allocates.used (h : Allocates m w w') (hc : m.OnChain w.disk first cs) (hmem : c ∈ cs) :
    m.entry w'.disk c = m.entry w.disk c := h.grown.used c (hc.range c hmem).2 (hc.ne_zero hmem)

theorem Allocates.same (hs : m.Sound) (h : Allocates m w w') (hc : m.OnChain w.disk first cs) (hmem : c ∈ cs)
    {x : ℕ} (hx : m.InCluster c x) : w'.disk x = w.disk x := by
  refine h.grown.other x (not_inTable hs hx) fun c' hr hfree hin => ?_
  rw [← inCluster_unique (hc.range c hmem).1 hr.1 hx hin] at hfree
  exact hc.ne_zero hmem hfree

theorem Allocates.keeps (h : Allocates m w w') (cs : List ℕ) : Keeps m w.disk cs w'.disk cs where
  owns c hc := by
    refine ⟨hc.1, hc.2.imp_left fun hzero => ?_⟩
    by_contra hne
    rw [h.grown.used c hc.1.2 hne] at hzero
    exact hne hzero
  apart x hx := h.grown.other x hx.1 fun c hr hfree => hx.2 c ⟨hr, .inl hfree⟩

theorem Allocates.grows (hs : m.Sound) (h : Allocates m w w') (hc : m.OnChain w.disk first cs) :
    Grows m first w w' cs cs where
  keeps := h.keeps cs
  chain := hc.congr fun _ hmem => h.used hc hmem
  length := Nat.le_refl _
  bytes := byteAt_congr hs fun _ hmem _ hx => h.same hs hc hmem hx
  coherent := h.coherent
  handle := h.handle

theorem Taken.notMem (h : Taken m w w' next) (hc : m.OnChain w.disk first cs) : next ∉ cs :=
  fun hmem => hc.ne_zero hmem h.free

theorem Stored.keeps (hmem : c ∈ cs) (ht : Taken m w w' next)
    (ha : Allocates m w w') (h : Stored m w' w'' c next) (hcs : ∀ c' ∈ cs', c' ∈ cs ∨ c' = next) :
    Keeps m w.disk cs w''.disk cs' where
  owns c' hown := by
    refine ⟨hown.1, ?_⟩
    rcases hown.2 with hzero | hmem'
    · by_cases heq : c' = c
      · exact .inr (heq ▸ hmem)
      · rw [h.rest c' hown.1.2 heq] at hzero
        exact .inl (by_contra fun hne => hne (by rw [← ha.grown.used c' hown.1.2 hne, hzero]))
    · exact (hcs c' hmem').symm.imp_left fun heq => by rw [heq, ht.free]
  apart x hx := (h.other x hx.1).trans ((ha.keeps cs).apart x hx)

theorem Stored.links {l : List ℕ} (hs : m.Sound) (hc : m.OnChain w.disk first (l ++ [c])) (ht : Taken m w w' next)
    (ha : Allocates m w w') (h : Stored m w' w'' c next) (hset : m.entry w''.disk c = next) :
    Grows m first w w'' (l ++ [c]) (l ++ [c] ++ [next]) where
  keeps := h.keeps (List.mem_append_right l List.mem_cons_self) ht ha fun c' hc' => by
    simpa only [List.mem_append, List.mem_singleton] using hc'
  chain := by
    have hnew := ht.notMem hc
    have hrest : ∀ c' ∈ l, m.entry w''.disk c' = m.entry w.disk c' := by
      intro c' hmem
      have hne : c' ≠ c := by
        rintro rfl
        exact (List.nodup_append.1 hc.chain.nodup).2.2 c' hmem c' List.mem_cons_self rfl
      rw [h.rest c' (hc.range c' (List.mem_append_left _ hmem)).2 hne, ha.used hc (List.mem_append_left _ hmem)]
    have hend : m.entry w''.disk next = m.chainEocMark := by
      have hne : next ≠ c := by
        rintro rfl
        exact hnew (List.mem_append_right l List.mem_cons_self)
      rw [h.rest next ht.range.2 hne, ht.mark]
    refine ⟨hc.chain.snoc ?_ ?_ ?_ fun c' hmem => ?_, hc.first, fun c' hmem => ?_, fun c' hmem => ?_⟩
    · have := ht.range.1
      omega
    · rw [hset, linked_of_range hs ht.range]
    · rw [hend, linked_mark]
    · rw [hrest c' hmem]
    · rcases List.mem_append.1 hmem with hmem | hmem
      · exact hc.range c' hmem
      · rw [List.mem_singleton.1 hmem]
        exact ht.range
    · rcases List.mem_append.1 hmem with hmem | hmem
      · rcases List.mem_append.1 hmem with hmem | hmem
        · rw [hrest c' hmem]
          exact hc.used c' (List.mem_append_left _ hmem)
        · rw [List.mem_singleton.1 hmem, hset]
          exact ht.range.1
      · rw [List.mem_singleton.1 hmem, hend]
        exact mark_le m
  length := by simp
  bytes i := by
    rw [byteAt_append hs]
    · refine byteAt_congr hs (fun c' hmem x hx => ?_) i
      rw [h.other x (not_inTable hs hx), ha.same hs hc hmem hx]
    · intro c' hmem x hx
      rw [List.mem_singleton.1 hmem] at hx
      rw [h.other x (not_inTable hs hx), ht.zeroed x hx]
  coherent := h.coherent ha.coherent
  handle := h.handle.trans ha.handle

theorem Stored.stays {l : List ℕ} (hs : m.Sound) (hc : m.OnChain w.disk first (l ++ [c])) (ht : Taken m w w' next)
    (ha : Allocates m w w') (h : Stored m w' w'' c next) (hset : m.entry w''.disk c = m.entry w'.disk c) :
    Grows m first w w'' (l ++ [c]) (l ++ [c]) where
  keeps := h.keeps (List.mem_append_right l List.mem_cons_self) ht ha fun _ => .inl
  chain := hc.congr fun c' hmem => by
    rw [← ha.used hc hmem]
    by_cases heq : c' = c
    · rw [heq, hset]
    · exact h.rest c' (hc.range c' hmem).2 heq
  length := Nat.le_refl _
  bytes := byteAt_congr hs fun c' hmem x hx => by
    rw [h.other x (not_inTable hs hx), ha.same hs hc hmem hx]
  coherent := h.coherent ha.coherent
  handle := h.handle.trans ha.handle

theorem link_post {α : Type} {R : α → World → Prop} {E : World → Prop} {k : ℕ → M α} {l : List ℕ} (hs : m.Sound)
    (hw : m.Coherent w) (hc : m.OnChain w.disk first (l ++ [c]))
    (hk : ∀ next w', Grows m first w w' (l ++ [c]) (l ++ [c] ++ [next]) → Post R E (k next w'))
    (hE : ∀ cs' w', Grows m first w w' (l ++ [c]) cs' → E w') :
    Post R E ((m.allocCluster >>= fun next => m.fatStore c next >>= fun _ => k next) w) := by
  have hr := hc.range c (List.mem_append_right l List.mem_cons_self)
  refine Post.bind ((allocCluster_post hs hw).mono (fun _ _ h => h) fun w' ha => hE _ w' (ha.grows hs hc)) ?_
  rintro next w₁ ⟨ht, ha⟩
  refine Post.bind ((fatStore_post hs hr.2 (fits_of_range hs ht.range) w₁).mono (fun _ _ h => h) fun w₂ h => ?_) ?_
  · rcases h.here with hsame | hset
    · exact hE _ w₂ (h.stays hs hc ht ha hsame)
    · exact hE _ w₂ (h.links hs hc ht ha hset)
  · rintro - w₂ ⟨h, hset⟩
    exact hk next w₂ (h.links hs hc ht ha hset)

/-! ## Walks -/

/-- The disk and the handle are the same. -/
structure Same (m : Mount) (w w' : World) : Prop where
  disk : w'.disk = w.disk
  coherent : m.Coherent w'
  handle : w'.handle = w.handle

theorem Same.grows (h : Same m w w') (hc : m.OnChain w.disk first cs) : Grows m first w w' cs cs where
  keeps := by
    rw [h.disk]
    exact .refl m w.disk cs
  chain := by rwa [h.disk]
  length := Nat.le_refl _
  bytes _ := by rw [h.disk]
  coherent := h.coherent
  handle := h.handle

theorem turn_post {α β : Type} {R : β → World → Prop} {E : World → Prop} {load : M α} {value : World → ℕ}
    {k : ℕ → M β} {i : ℕ} (hs : m.Sound) (hcs : m.OnChain w.disk first cs) (hc : cs[i]? = some c)
    (hload : Post (fun _ w' => value w' = m.entry w.disk c ∧ Same m w w') (Same m w) (load w))
    (hk : ∀ next cs' w', Grows m first w w' cs cs' → cs'[i + 1]? = some next → Post R E (k next w'))
    (hE : ∀ cs' w', Grows m first w w' cs cs' → E w') :
    Post R E ((load >>= fun _ => get >>= fun w => if m.chainEoc ≤ value w then
      m.allocCluster >>= fun next => m.fatStore c next >>= fun _ => k next else k (value w)) w) := by
  refine Post.bind (hload.mono (fun _ _ h => h) fun w' h => hE cs w' (h.grows hcs)) ?_
  rintro - w₁ ⟨hvalue, hsame⟩
  have hgrows := hsame.grows hcs
  rw [get_bind_run, hvalue]
  rcases entry_on_chain hcs hc with ⟨heoc, hnone⟩ | ⟨hlt, hsome⟩
  · rw [if_pos heoc]
    -- the chain ends here
    have hlen := List.getElem?_eq_none_iff.1 hnone
    obtain ⟨hi, hlast⟩ := List.getElem?_eq_some_iff.1 hc
    obtain ⟨l, a, rfl⟩ : ∃ l a, cs = l ++ [a] :=
      ⟨_, _, (List.dropLast_append_getLast (List.ne_nil_of_length_pos (Nat.zero_lt_of_lt hi))).symm⟩
    rw [List.length_append, List.length_singleton] at hlen hi
    obtain rfl : i = l.length := by omega
    obtain rfl : a = c := by simpa using hlast
    refine link_post hs hsame.coherent hgrows.chain (fun next w' h => hk next _ w' (hgrows.trans h) ?_)
      fun cs' w' h => hE cs' w' (hgrows.trans h)
    rw [List.getElem?_append_right (by simp)]
    simp
  · rw [if_neg (by omega)]
    exact hk _ cs w₁ hgrows hsome

theorem same_fatSector (hs : m.Sound) (hr : m.InRange c) (hw : m.Coherent w) :
    Post (fun _ w' => m.fatNext w' c = m.entry w.disk c ∧ Same m w w') (Same m w) (m.fatSector c w) :=
  (fatSector_post hs hr.2 hw).mono (fun _ _ ⟨hnext, hdisk, hcoherent, hhandle⟩ => ⟨hnext, hdisk, hcoherent, hhandle⟩)
    fun _ ⟨hdisk, hcoherent, hhandle⟩ => ⟨hdisk, hcoherent, hhandle⟩

theorem same_fatLoad (c : ℕ) (hw : m.Coherent w) :
    Post (fun _ w' => m.windowNext w' c = m.entry w.disk c ∧ Same m w w') (Same m w) (m.fatLoad c w) :=
  (fatLoad_post m c w).mono (fun _ _ ⟨_, hq, hwindow⟩ => ⟨nextIn_eq hwindow, hq.disk, hq.coherent hw, hq.handle⟩)
    fun _ hq => ⟨hq.disk, hq.coherent hw, hq.handle⟩

theorem walk_post {α : Type} {load : ℕ → M α} {value : World → ℕ → ℕ} {walk : ℕ → ℕ → M ℕ} (hs : m.Sound)
    (hload : ∀ c w, m.InRange c → m.Coherent w →
      Post (fun _ w' => value w' c = m.entry w.disk c ∧ Same m w w') (Same m w) (load c w))
    (hzero : ∀ c, walk 0 c = pure c)
    (hsucc : ∀ n c, walk (n + 1) c = load c >>= fun _ => get >>= fun w => if m.chainEoc ≤ value w c then
      m.allocCluster >>= fun next => m.fatStore c next >>= fun _ => walk n next else walk n (value w c))
    (n : ℕ) {i : ℕ} (hw : m.Coherent w) (hcs : m.OnChain w.disk first cs) (hc : cs[i]? = some c) :
    Post (fun c' w' => ∃ cs', Grows m first w w' cs cs' ∧ cs'[i + n]? = some c')
      (fun w' => ∃ cs', Grows m first w w' cs cs') (walk n c w) := by
  induction n generalizing c i cs w with
  | zero =>
    rw [hzero]
    exact ⟨cs, (Same.mk rfl hw rfl).grows hcs, hc⟩
  | succ n ih =>
    rw [hsucc]
    refine turn_post hs hcs hc (hload c w (hcs.range c (List.mem_of_getElem? hc)) hw)
      (fun next cs' w' h hnext => ?_) fun cs' w' h => ⟨cs', h⟩
    refine (ih h.coherent h.chain hnext).mono (fun c' w'' ⟨cs'', h', hc'⟩ => ⟨cs'', h.trans h', ?_⟩)
      fun w'' ⟨cs'', h'⟩ => ⟨cs'', h.trans h'⟩
    rwa [← Nat.add_assoc, Nat.add_right_comm]

theorem seekFrom_post (hs : m.Sound) (n : ℕ) {i : ℕ} (hw : m.Coherent w) (hcs : m.OnChain w.disk first cs)
    (hc : cs[i]? = some c) :
    Post (fun c' w' => ∃ cs', Grows m first w w' cs cs' ∧ cs'[i + n]? = some c')
      (fun w' => ∃ cs', Grows m first w w' cs cs') (m.seekFrom n c w) :=
  walk_post hs (fun _ _ => same_fatSector hs) (fun _ => rfl) (fun _ _ => rfl) n hw hcs hc

theorem truncateFrom_post (hs : m.Sound) (n : ℕ) {i : ℕ} (hw : m.Coherent w) (hcs : m.OnChain w.disk first cs)
    (hc : cs[i]? = some c) :
    Post (fun c' w' => ∃ cs', Grows m first w w' cs cs' ∧ cs'[i + n]? = some c')
      (fun w' => ∃ cs', Grows m first w w' cs cs') (m.truncateFrom n c w) :=
  walk_post hs (fun c _ _ => same_fatLoad c) (fun _ => rfl) (fun _ _ => rfl) n hw hcs hc

theorem Taken.starts (hs : m.Sound) (ht : Taken m w w' c) (ha : Allocates m w w') : Grows m c w w' [] [c] where
  keeps := by
    refine ⟨fun c' hown => ⟨hown.1, .inl ?_⟩, fun x hx => (ha.keeps []).apart x hx⟩
    rcases hown.2 with hzero | hmem
    · exact (((ha.keeps []).owns c' ⟨hown.1, .inl hzero⟩).2).resolve_right List.not_mem_nil
    · rw [List.mem_singleton.1 hmem]
      exact ht.free
  chain := by
    refine ⟨⟨linked_of_range hs ht.range, ?_, ?_⟩, ht.range.2, fun c' hmem => ?_, fun c' hmem => ?_⟩
    · have := ht.range.1
      omega
    · exact (congrArg m.linked ht.mark).trans (linked_mark m)
    · rw [List.mem_singleton.1 hmem]
      exact ht.range
    · rw [List.mem_singleton.1 hmem, ht.mark]
      exact mark_le m
  length := Nat.zero_le _
  bytes i := by
    have happ : m.byteAt w'.disk ([] ++ [c]) i = m.byteAt w'.disk [] i := by
      refine byteAt_append hs (fun c' hmem => ?_) i
      rw [List.mem_singleton.1 hmem]
      exact ht.zeroed
    exact happ.trans rfl
  coherent := ha.coherent
  handle := ha.handle

end Aegir.Fat
