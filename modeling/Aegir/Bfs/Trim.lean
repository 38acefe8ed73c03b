/-
  `Writer::trim_stream` (`writer.cc`): a stream cut to its first blocks.
-/
import Aegir.Bfs.Grow

namespace Aegir.Bfs

open Aegir.Lib Aegir.Lib.Buf Aegir.Lib.Fallible

/-! ## A list of runs cut -/

def Run.front (r : Run) (m : ℕ) : Run := { r with length := m }

/-- A run without its first `m` blocks. -/
def Run.back (r : Run) (m : ℕ) : Run := { r with start := r.start + m, length := r.length - m }

/-- The first `m` blocks of the runs. -/
def keepRuns : ℕ → List Run → List Run
  | _, [] => []
  | m, r :: rs => if m = 0 then [] else if r.length ≤ m then r :: keepRuns (m - r.length) rs else [r.front m]

/-- The blocks of the runs after the first `m`. -/
def dropRuns : ℕ → List Run → List Run
  | _, [] => []
  | m, r :: rs => if m = 0 then r :: rs else if r.length ≤ m then dropRuns (m - r.length) rs else r.back m :: rs

section
variable {g : Geometry} {m k : ℕ} {l l' : List Run} {r : Run}

@[simp] theorem keepRuns_zero (l : List Run) : keepRuns 0 l = [] := by cases l <;> rfl

@[simp] theorem dropRuns_zero (l : List Run) : dropRuns 0 l = l := by cases l <;> rfl

theorem keepRuns_append (m : ℕ) (l l' : List Run) :
    keepRuns m (l ++ l') = keepRuns m l ++ keepRuns (m - runsLength l) l' := by
  induction l generalizing m with
  | nil => rfl
  | cons r l ih =>
    simp only [List.cons_append, keepRuns, runsLength_cons]
    split
    · rename_i h; simp [h]
    · split
      · rw [ih, List.cons_append, Nat.sub_sub]
      · rw [show m - (r.length + runsLength l) = 0 by omega]; simp

theorem dropRuns_append (m : ℕ) (l l' : List Run) :
    dropRuns m (l ++ l') = dropRuns m l ++ dropRuns (m - runsLength l) l' := by
  induction l generalizing m with
  | nil => rfl
  | cons r l ih =>
    simp only [List.cons_append, dropRuns, runsLength_cons]
    split
    · rename_i h; simp [h]
    · split
      · rw [ih, Nat.sub_sub]
      · rw [show m - (r.length + runsLength l) = 0 by omega]; simp

theorem length_keepRuns_le (m : ℕ) (l : List Run) : (keepRuns m l).length ≤ l.length := by
  induction l generalizing m with
  | nil => exact Nat.le_refl _
  | cons r l ih =>
    unfold keepRuns
    have := ih (m - r.length)
    split
    · simp
    · split <;> simp; omega

theorem le_of_length_keepRuns_lt (h : (keepRuns m l).length < l.length) : m ≤ runsLength l := by
  induction l generalizing m with
  | nil => cases h
  | cons r l ih =>
    rw [runsLength_cons]
    unfold keepRuns at h
    split at h
    · omega
    · split at h
      · have := ih (m := m - r.length) (by simpa using h)
        omega
      · omega

theorem runsLength_keepRuns (m : ℕ) (l : List Run) : runsLength (keepRuns m l) = min m (runsLength l) := by
  induction l generalizing m with
  | nil => simp [keepRuns]
  | cons r l ih =>
    unfold keepRuns
    rw [runsLength_cons]
    split
    · simp [*]
    · split
      · rw [runsLength_cons, ih]; omega
      · simp [Run.front]; omega

theorem Run.On.front (h : r.On g) (hm : 0 < m) (hlt : m ≤ r.length) : (r.front m).On g := by
  have hf := h.fits
  have hi := h.inside
  have hv := h.volume
  have hl := hf.length
  refine ⟨⟨hf.allocationGroup, hf.start, ?_⟩, hm, h.group, ?_, ?_⟩
  · simp only [Run.front]; omega
  · simp only [Run.front]; omega
  · show g.toBlock r + m ≤ _
    omega

theorem toBlock_back (h : r.On g) (hlt : m < r.length) : g.toBlock (r.back m) = g.toBlock r + m := by
  have hi := h.inside
  rw [h.toBlock, toBlock_eq g (by simp only [Run.back]; omega)]
  simp only [Run.back, Nat.add_assoc]

theorem Run.On.back (h : r.On g) (hg : g.agShift ≤ 16) (hlt : m < r.length) : (r.back m).On g := by
  have hf := h.fits
  have hi := h.inside
  have hv := h.volume
  have hl := hf.length
  have hspan : 2 ^ g.agShift ≤ 2 ^ 16 := Nat.pow_le_pow_right (by norm_num) hg
  refine ⟨⟨hf.allocationGroup, ?_, ?_⟩, ?_, h.group, ?_, ?_⟩
  · simp only [Run.back]; omega
  · simp only [Run.back]; omega
  · simp only [Run.back]; omega
  · simp only [Run.back]; omega
  · rw [toBlock_back h hlt]; simp only [Run.back]; omega

theorem keepRuns_on (h : ∀ r ∈ l, r.On g) : ∀ r ∈ keepRuns m l, r.On g := by
  induction l generalizing m with
  | nil => exact h
  | cons r l ih =>
    intro r' hr'
    unfold keepRuns at hr'
    split at hr'
    · cases hr'
    · split at hr'
      · rcases List.mem_cons.mp hr' with rfl | hr'
        · exact h _ List.mem_cons_self
        · exact ih (fun a ha => h a (List.mem_cons_of_mem _ ha)) r' hr'
      · rw [List.mem_singleton.mp hr']
        exact (h r List.mem_cons_self).front (by omega) (by omega)

theorem runBlocks_front (hlt : m ≤ r.length) : g.runBlocks (r.front m) = (g.runBlocks r).take m := by
  rw [Geometry.runBlocks, Geometry.runBlocks, List.take_range'_of_length_ge hlt]
  rfl

theorem runBlocks_back (h : r.On g) (hlt : m < r.length) : g.runBlocks (r.back m) = (g.runBlocks r).drop m := by
  rw [Geometry.runBlocks, Geometry.runBlocks, List.drop_range', toBlock_back h hlt, Nat.mul_one]
  rfl

theorem blocks_keepRuns (m : ℕ) (l : List Run) :
    (keepRuns m l).flatMap g.runBlocks = (l.flatMap g.runBlocks).take m := by
  induction l generalizing m with
  | nil => simp [keepRuns]
  | cons r l ih =>
    unfold keepRuns
    rw [List.flatMap_cons, List.take_append, Geometry.length_runBlocks]
    split
    · rename_i h; simp [h]
    · split
      · rename_i h
        have hall : (g.runBlocks r).take m = g.runBlocks r :=
          List.take_of_length_le (by rw [Geometry.length_runBlocks]; exact h)
        rw [List.flatMap_cons, ih, hall]
      · rw [List.flatMap_cons, List.flatMap_nil, runBlocks_front (by omega), Nat.sub_eq_zero_of_le (by omega)]
        simp

theorem blocks_dropRuns (h : ∀ r ∈ l, r.On g) (m : ℕ) :
    (dropRuns m l).flatMap g.runBlocks = (l.flatMap g.runBlocks).drop m := by
  induction l generalizing m with
  | nil => simp [dropRuns]
  | cons r l ih =>
    unfold dropRuns
    rw [List.flatMap_cons, List.drop_append, Geometry.length_runBlocks]
    split
    · rename_i h; simp [h]
    · split
      · rename_i hle
        have hall : (g.runBlocks r).drop m = [] :=
          List.drop_eq_nil_of_le (by rw [Geometry.length_runBlocks]; exact hle)
        rw [ih (fun a ha => h a (List.mem_cons_of_mem _ ha)), hall, List.nil_append]
      · rw [List.flatMap_cons, runBlocks_back (h r List.mem_cons_self) (by omega), Nat.sub_eq_zero_of_le (by omega),
          List.drop_zero]

end

/-! ## Calls that free -/

/-- Of the blocks in use only those of the runs `freed` were freed, and none was written
    but those `written`. -/
structure Cuts (g : Geometry) (written : ℕ → Prop) (freed : List Run) (s s' : Writer Session) : Prop where
  sane : Sane g s'.world
  inUse : ∀ b < g.numBlocks, s'.world.inUse b = (!decide (b ∈ freed.flatMap g.runBlocks) && s.world.inUse b)
  read : ∀ b, g.numAgs < b → ¬written b → ∀ i < g.blockSize, readBlock s'.world b i = readBlock s.world b i
  peek : ∀ b, g.numAgs < b → ¬written b → s'.world.jnl.peek b = s.world.jnl.peek b
  frees : s'.frees = s.frees ++ freed

section
variable {g : Geometry} {written : ℕ → Prop} {freed freed' : List Run} {s s' s'' : Writer Session} {r : Run} {u : Unit}

theorem Cuts.of_store (hs : Sane g s.world) (h : s'.store = s.store) : Cuts g written [] s s' := by
  have hw : s'.world = s.world := by unfold Writer.world; rw [h]
  exact ⟨hw ▸ hs, fun b _ => by rw [hw]; simp, fun b _ _ i _ => by rw [hw], fun b _ _ => by rw [hw],
    by unfold Writer.frees; rw [h, List.append_nil]⟩

theorem Cuts.trans (h : Cuts g written freed s s') (h' : Cuts g written freed' s' s'') :
    Cuts g written (freed ++ freed') s s'' where
  sane := h'.sane
  inUse b hb := by
    rw [h'.inUse b hb, h.inUse b hb, List.flatMap_append, ← Bool.and_assoc]
    congr 1
    by_cases h₁ : b ∈ freed.flatMap g.runBlocks <;> by_cases h₂ : b ∈ freed'.flatMap g.runBlocks <;>
      simp only [List.mem_append, h₁, h₂, decide_true, decide_false, or_true, or_false, Bool.not_true,
        Bool.not_false, Bool.and_true, Bool.and_false]
  read b ha hn i hi := (h'.read b ha hn i hi).trans (h.read b ha hn i hi)
  peek b ha hn := (h'.peek b ha hn).trans (h.peek b ha hn)
  frees := by rw [h'.frees, h.frees, List.append_assoc]

theorem Cuts.mono {written' : ℕ → Prop} (h : Cuts g written freed s s') (hw : ∀ b, written b → written' b) :
    Cuts g written' freed s s' :=
  ⟨h.sane, h.inUse, fun b ha hn => h.read b ha fun hc => hn (hw b hc),
    fun b ha hn => h.peek b ha fun hc => hn (hw b hc), h.frees⟩

theorem Cuts.buffers (h : Cuts g written freed s s') (he : s''.store = s'.store) : Cuts g written freed s s'' := by
  have := h.trans (.of_store h.sane he)
  rwa [List.append_nil] at this

theorem Cuts.of_start (h : Cuts g written freed s s') {s₀ : Writer Session} (he : s₀.store = s.store) :
    Cuts g written freed s₀ s' := by
  have hw : s₀.world = s.world := by unfold Writer.world; rw [he]
  have hf : s₀.frees = s.frees := by unfold Writer.frees; rw [he]
  refine ⟨h.sane, ?_, ?_, ?_, by rw [hf]; exact h.frees⟩
  · rw [hw]; exact h.inUse
  · rw [hw]; exact h.read
  · rw [hw]; exact h.peek

theorem Released.cuts (h : Released g s.world s'.world r) (hs : Sane g s.world)
    (ha : ∀ b ∈ g.runBlocks r, g.numAgs < b) (hf : s'.frees = s.frees ++ [r]) : Cuts g written [r] s s' := by
  have hsing : [r].flatMap g.runBlocks = g.runBlocks r := by simp
  refine ⟨⟨h.beyond.ok, h.beyond.geometry, fun b hb => ?_⟩, fun b _ => by rw [hsing]; exact h.inUse b,
    fun b hb _ => h.beyond.read b hb, fun b hb _ => h.beyond.peek b hb, hf⟩
  have hno : b ∉ g.runBlocks r := fun hc => by have := ha b hc; omega
  rw [h.inUse b, decide_eq_false hno, hs.bitmap b hb]
  rfl

theorem Wrote.cuts {block : ℕ} {img : Buf} (h : Wrote s.world block img s'.world) (hg : g.Single) (hs : Sane g s.world)
    (hb : g.numAgs < block) (hw : written block) (hp : ∀ b ≠ block, s'.world.jnl.peek b = s.world.jnl.peek b)
    (hf : s'.frees = s.frees) : Cuts g written [] s s' := by
  refine ⟨h.sane hg hs hb, fun b hlt => by rw [h.inUse_eq hg hs hb hlt]; simp, fun b _ hn i hi => ?_,
    fun b _ hn => hp b (by rintro rfl; exact hn hw), by rw [hf, List.append_nil]⟩
  rw [h.read_eq hs hi, if_neg (by rintro rfl; exact hn hw)]

end

/-! ## One buffer of runs -/

/-- `load` and `store` are about one buffer of the writer. -/
structure IsBuffer (load : Writer Session → Buf) (store : Buf → Writer Session → Writer Session) : Prop where
  load_store : ∀ b s, load (store b s) = b
  store_store : ∀ b b' s, store b (store b' s) = store b s
  store_load : ∀ s, store (load s) s = s
  frame : ∀ (s : Writer Session) t, load { s with store := t } = load s
  comm : ∀ b (s : Writer Session) t, { store b s with store := t } = store b { s with store := t }

def OnlyBuffer (load : Writer Session → Buf) (store : Buf → Writer Session → Writer Session)
    (s t : Writer Session) : Prop := t = store (load t) { s with store := t.store }

namespace IsBuffer

variable {load : Writer Session → Buf} {store : Buf → Writer Session → Writer Session} {s t u : Writer Session}

theorem same (h : IsBuffer load store) (b : Buf) (s : Writer Session) : (store b s).store = s.store :=
  (congrArg Writer.store (h.comm b s s.store)).symm

theorem refl (h : IsBuffer load store) (s : Writer Session) : OnlyBuffer load store s s := (h.store_load s).symm

theorem of_world (h : IsBuffer load store) (ht : t = { s with store := t.store }) : OnlyBuffer load store s t := by
  unfold OnlyBuffer
  conv_rhs => rw [← ht, h.store_load]

theorem put (h : IsBuffer load store) (b : Buf) (s : Writer Session) : OnlyBuffer load store s (store b s) := by
  unfold OnlyBuffer
  rw [h.load_store, h.same]

theorem trans (h : IsBuffer load store) (ht : OnlyBuffer load store s t) (hu : OnlyBuffer load store t u) :
    OnlyBuffer load store s u := by
  unfold OnlyBuffer at ht hu ⊢
  conv_lhs => rw [hu, ht, h.comm, h.store_store]

end IsBuffer

theorem isBuffer_stream : IsBuffer Writer.stream fun b s => { s with stream := b } :=
  ⟨fun _ _ => rfl, fun _ _ _ => rfl, fun _ => rfl, fun _ _ => rfl, fun _ _ _ => rfl⟩

theorem isBuffer_node : IsBuffer Writer.node fun b s => { s with node := b } :=
  ⟨fun _ _ => rfl, fun _ _ _ => rfl, fun _ => rfl, fun _ _ => rfl, fun _ _ _ => rfl⟩

section
variable {g : Geometry} {written : ℕ → Prop} {s s' : Writer Session} {r kept : Run} {n logical logical' : ℕ} {cut : Bool}

variable (written) in
theorem trimRun_some (h : Writer.trimRun n logical r s = (some (kept, logical', cut), s')) (hg : g.Single)
    (hs : Sane g s.world) (hr : r.On g) (ha : ∀ b ∈ g.runBlocks r, g.numAgs < b) :
    s' = { s with store := s'.store } ∧
    (n ≤ logical ∧ kept = ⟨0, 0, 0⟩ ∧ logical' = logical ∧ cut = true ∧ Cuts g written [r] s s' ∨
      logical < n ∧ r.length ≤ n - logical ∧ kept = r ∧ logical' = logical + r.length ∧ cut = false ∧ s' = s ∨
      logical < n ∧ n - logical < r.length ∧ kept = r.front (n - logical) ∧ logical' = n ∧ cut = true ∧
        Cuts g written [r.back (n - logical)] s s') := by
  unfold Writer.trimRun at h
  split at h
  · rename_i hle
    obtain ⟨u, s₁, h₁, h⟩ := bind_eq_some h
    cases h
    obtain ⟨hb, hrel, hf⟩ := Writer.free_some h₁ hg hs hr
    exact ⟨hb, Or.inl ⟨hle, rfl, rfl, rfl, hrel.cuts hs ha hf⟩⟩
  · split at h
    · cases h
      exact ⟨rfl, Or.inr (Or.inl ⟨by omega, by omega, rfl, rfl, rfl, rfl⟩)⟩
    · obtain ⟨u, s₁, h₁, h⟩ := bind_eq_some h
      cases h
      have hfit := hr.inside
      have hspan : 2 ^ g.agShift ≤ 2 ^ 16 := Nat.pow_le_pow_right (by norm_num) hg.shift
      have hback : { r with start := (r.start + (n - logical)) % 2 ^ 16, length := r.length - (n - logical) } =
          r.back (n - logical) := by rw [Run.back, Nat.mod_eq_of_lt (by omega)]
      rw [hback] at h₁
      obtain ⟨hb, hrel, hf⟩ := Writer.free_some h₁ hg hs (hr.back hg.shift (by omega))
      refine ⟨hb, Or.inr (Or.inr ⟨by omega, by omega, rfl, by omega, rfl, hrel.cuts hs (fun b hb => ha b ?_) hf⟩)⟩
      rw [runBlocks_back hr (by omega)] at hb
      exact List.mem_of_mem_drop hb

variable (written) in
theorem trimArray_some {load : Writer Session → Buf} {store : Buf → Writer Session → Writer Session}
    (hbuf : IsBuffer load store) (hg : g.Single) {count pos : ℕ} {changed changed' : Bool} {l : List Run}
    (h : Writer.trimArray load store n count pos logical changed s = (some (logical', changed'), s'))
    (hs : Sane g s.world) (hl : Filled runIsZero (fun k => leRun (load s) (pos + k * 8)) count l)
    (hon : ∀ r ∈ l, r.On g) (ha : ∀ r ∈ l, ∀ b ∈ g.runBlocks r, g.numAgs < b) :
    OnlyBuffer load store s s' ∧
      Filled runIsZero (fun k => leRun (load s') (pos + k * 8)) count (keepRuns (n - logical) l) ∧
      (∀ i, i < pos ∨ pos + count * 8 ≤ i → load s' i = load s i) ∧
      Cuts g written (dropRuns (n - logical) l) s s' ∧ logical' = logical + runsLength (keepRuns (n - logical) l) ∧
      (changed' = false → changed = false ∧ load s' = load s) := by
  induction count generalizing s pos logical changed l with
  | zero =>
    cases h
    obtain rfl : l = [] := List.eq_nil_of_length_eq_zero (Nat.le_zero.mp hl.fits)
    exact ⟨hbuf.refl _, hl, fun _ _ => rfl, .of_store hs rfl, by simp [keepRuns], fun hc => ⟨hc, rfl⟩⟩
  | succ count ih =>
    unfold Writer.trimArray at h
    rw [get_bind_run] at h
    dsimp only at h
    split at h
    · -- a zero run: there are none after it
      rename_i hz
      cases h
      obtain rfl : l = [] := by
        rcases l with _ | ⟨r, l⟩
        · rfl
        · obtain ⟨hat, hsolid⟩ := hl.head
          rw [← hat, Nat.zero_mul, Nat.add_zero, hz] at hsolid
          cases hsolid
      exact ⟨hbuf.refl _, hl, fun _ _ => rfl, .of_store hs rfl, by simp [keepRuns], fun hc => ⟨hc, rfl⟩⟩
    · rename_i hz
      rcases l with _ | ⟨r, l⟩
      · have := hl.rest 0 (Nat.le_refl _) (Nat.succ_pos _)
        rw [Nat.zero_mul, Nat.add_zero] at this
        exact absurd this hz
      have hat : leRun (load s) pos = r := by
        have := hl.head.1
        rwa [Nat.zero_mul, Nat.add_zero] at this
      have hon' : ∀ a ∈ l, a.On g := fun a hm => hon a (List.mem_cons_of_mem _ hm)
      have ha' : ∀ a ∈ l, ∀ b ∈ g.runBlocks a, g.numAgs < b := fun a hm => ha a (List.mem_cons_of_mem _ hm)
      have htail : Filled runIsZero (fun k => leRun (load s) (pos + 8 + k * 8)) count l :=
        hl.tail.congr fun i _ => by rw [show pos + 8 + i * 8 = pos + (i + 1) * 8 by omega]
      rw [hat] at h
      obtain ⟨⟨kept, logical₁, cut⟩, s₁, h₁, h⟩ := bind_eq_some h
      dsimp only at h
      obtain ⟨u, s₂, h₂, h⟩ := bind_eq_some h
      obtain ⟨hb₁, hcases⟩ := trimRun_some written h₁ hg hs (hon r List.mem_cons_self) (ha r List.mem_cons_self)
      have hload₁ : load s₁ = load s := by rw [hb₁, hbuf.frame]
      -- the slot holds what is kept, and the rest of the buffer is as it was
      have hs₂ : s₂.store = s₁.store ∧ OnlyBuffer load store s s₂ ∧ (cut = true → load s₂ = putRun (load s) pos kept) ∧
          (cut = false → load s₂ = load s) := by
        rcases when_eq_some h₂ with ⟨hc, h₂⟩ | ⟨hc, he⟩
        · obtain rfl := Writer.buffers_eq_some h₂
          have he : ({ store (putRun (load s₁) pos kept) s₁ with store := s₁.store } : Writer Session) =
              store (putRun (load s₁) pos kept) s₁ := hbuf.comm _ _ _
          refine ⟨rfl, ?_, fun _ => ?_, fun hf => by rw [hf] at hc; cases hc⟩
          · rw [he]
            exact hbuf.trans (hbuf.of_world hb₁) (hbuf.put _ _)
          · rw [he, hbuf.load_store, hload₁]
        · rw [he]
          exact ⟨rfl, hbuf.of_world hb₁, fun ht => absurd ht (by simpa using hc), fun _ => hload₁⟩
      obtain ⟨hst₂, honly, hput, hsame⟩ := hs₂
      have hafter : ∀ i, i < pos ∨ pos + 8 ≤ i → load s₂ i = load s i := by
        intro i hi
        cases cut
        · rw [hsame rfl]
        · rw [hput rfl, putRun_of_notMem hi]
      have htail₂ : Filled runIsZero (fun k => leRun (load s₂) (pos + 8 + k * 8)) count l :=
        htail.congr fun i _ => leRun_congr fun j _ => hafter _ (Or.inr (by omega))
      -- what the rest of the loop does, once the first run has been dealt with
      have key : ∀ {freed : List Run}, Cuts g written freed s s₁ → kept.Fits → leRun (load s₂) pos = kept →
          OnlyBuffer load store s s' ∧ leRun (load s') pos = kept ∧
          Filled runIsZero (fun k => leRun (load s') (pos + (k + 1) * 8)) count (keepRuns (n - logical₁) l) ∧
          (∀ i, i < pos ∨ pos + (count + 1) * 8 ≤ i → load s' i = load s i) ∧
          Cuts g written (freed ++ dropRuns (n - logical₁) l) s s' ∧
          logical' = logical₁ + runsLength (keepRuns (n - logical₁) l) ∧
          (changed' = false → (changed || cut) = false ∧ load s' = load s₂) := by
        intro freed hcuts hfits hkept
        obtain ⟨ho, hf, hout, hc, hlog, hch⟩ := ih h (hcuts.buffers hst₂).sane htail₂ hon' ha'
        refine ⟨hbuf.trans honly ho, ?_, hf.congr fun i _ => by rw [show pos + (i + 1) * 8 = pos + 8 + i * 8 by omega],
          fun i hi => ?_, (hcuts.buffers hst₂).trans hc, hlog, hch⟩
        · rw [← hkept]
          exact leRun_congr fun j hj => hout _ (Or.inl (by omega))
        · rw [hout i (by omega), hafter i (by omega)]
      have hr := hon r List.mem_cons_self
      rcases hcases with ⟨hle, rfl, rfl, rfl, hcuts⟩ | ⟨hlt, hfit, rfl, rfl, rfl, rfl⟩ |
        ⟨hlt, hfit, rfl, hn, rfl, hcuts⟩
      · -- past the cut
        have hzfits : (⟨0, 0, 0⟩ : Run).Fits := ⟨by decide, by decide, by decide⟩
        obtain ⟨ho, hat', hf, hout, hc, hlog, hch⟩ := key hcuts hzfits (by rw [hput rfl, leRun_putRun hzfits])
        rw [Nat.sub_eq_zero_of_le hle, keepRuns_zero] at hf hlog ⊢
        rw [Nat.sub_eq_zero_of_le hle, dropRuns_zero] at hc
        refine ⟨ho, .nil_cons ?_ hf, hout, by rw [dropRuns_zero]; exact hc, hlog, fun h0 => ?_⟩
        · rw [Nat.zero_mul, Nat.add_zero, hat']; rfl
        · have := (hch h0).1; simp at this
      · -- before the cut
        obtain ⟨ho, hat', hf, hout, hc, hlog, hch⟩ := key (.of_store hs rfl) hr.fits (by rw [hsame rfl]; exact hat)
        have hrest : n - (logical + kept.length) = n - logical - kept.length := by omega
        rw [hrest] at hf hc hlog
        have hkeep : keepRuns (n - logical) (kept :: l) = kept :: keepRuns (n - logical - kept.length) l := by
          rw [keepRuns, if_neg (by omega), if_pos hfit]
        have hdrop : dropRuns (n - logical) (kept :: l) = dropRuns (n - logical - kept.length) l := by
          rw [dropRuns, if_neg (by omega), if_pos hfit]
        rw [hkeep, hdrop]
        refine ⟨ho, .cons ?_ hr.solid hf, hout, hc, by rw [hlog, runsLength_cons]; omega, fun h0 => ?_⟩
        · rw [Nat.zero_mul, Nat.add_zero, hat']
        · obtain ⟨h₁, h₂⟩ := hch h0
          exact ⟨by simpa using h₁, by rw [h₂, hsame rfl]⟩
      · -- the run the cut goes through
        have hfront := hr.front (m := n - logical) (by omega) (by omega)
        obtain ⟨ho, hat', hf, hout, hc, hlog, hch⟩ := key hcuts hfront.fits (by rw [hput rfl, leRun_putRun hfront.fits])
        rw [hn, Nat.sub_self, keepRuns_zero] at hf hlog
        rw [hn, Nat.sub_self, dropRuns_zero] at hc
        have hkeep : keepRuns (n - logical) (r :: l) = [r.front (n - logical)] := by
          rw [keepRuns, if_neg (by omega), if_neg (by omega)]
        have hdrop : dropRuns (n - logical) (r :: l) = r.back (n - logical) :: l := by
          rw [dropRuns, if_neg (by omega), if_neg (by omega)]
        rw [hkeep, hdrop]
        refine ⟨ho, .cons ?_ hfront.solid hf, hout, hc, ?_, fun h0 => ?_⟩
        · rw [Nat.zero_mul, Nat.add_zero, hat']
        · rw [hlog]; simp [Run.front]; omega
        · have := (hch h0).1; simp at this

end

/-! ## The indirect blocks -/

/-- The `i`th slot in the blocks from `first` on. -/
def slotFrom (g : Geometry) (rd : ℕ → Buf) (first i : ℕ) : Run := leRun (rd (first + i / g.perBlock)) (i % g.perBlock * 8)

section
variable {g : Geometry} {s s' : Writer Session} {n logical logical' first count : ℕ} {l : List Run} {rd : ℕ → Buf}

theorem slotFrom_block {i : ℕ} (hi : i < g.perBlock) : slotFrom g rd first i = leRun (rd first) (0 + i * 8) := by
  rw [slotFrom, Nat.div_eq_of_lt hi, Nat.mod_eq_of_lt hi, Nat.add_zero, Nat.zero_add]

theorem slotFrom_next (hp : 0 < g.perBlock) (i : ℕ) : slotFrom g rd first (g.perBlock + i) = slotFrom g rd (first + 1) i := by
  rw [slotFrom, slotFrom, Nat.add_div_left i hp, Nat.add_mod_left, Nat.add_comm (i / g.perBlock) 1,
    Nat.add_assoc]

theorem slotFrom_congr {rd' : ℕ → Buf} (h : ∀ b, first ≤ b → b < first + count → ∀ j < g.blockSize, rd' b j = rd b j) {i : ℕ}
    (hi : i < count * g.perBlock) : slotFrom g rd' first i = slotFrom g rd first i := by
  have hp : 0 < g.perBlock := Nat.pos_of_ne_zero fun h0 => by rw [h0, Nat.mul_zero] at hi; omega
  have hle : g.perBlock * 8 ≤ g.blockSize := Nat.div_mul_le_self _ _
  have hm := Nat.mod_lt i hp
  have hlt : i / g.perBlock < count := Nat.div_lt_of_lt_mul (by rwa [Nat.mul_comm] at hi)
  unfold slotFrom
  exact leRun_congr fun k hk => h _ (Nat.le_add_right _ _) (by omega) _ (by omega)

theorem trimIndirect_some (hg : g.Single) (h : Writer.trimIndirect n count first logical s = (some logical', s'))
    (hs : Sane g s.world) (hfirst : g.numAgs < first)
    (hl : Filled runIsZero (slotFrom g (readBlock s.world) first) (count * g.perBlock) l)
    (hon : ∀ r ∈ l, r.On g) (ha : ∀ r ∈ l, ∀ b ∈ g.runBlocks r, g.numAgs < b) :
    OnlyBuffer Writer.node (fun b s => { s with node := b }) s s' ∧
      Filled runIsZero (slotFrom g (readBlock s'.world) first) (count * g.perBlock) (keepRuns (n - logical) l) ∧
      Cuts g (fun b => first ≤ b ∧ b < first + count) (dropRuns (n - logical) l) s s' ∧
      logical' = logical + runsLength (keepRuns (n - logical) l) := by
  have hp := hs.perBlock_pos
  induction count generalizing s first logical l with
  | zero =>
    cases h
    rw [Nat.zero_mul] at hl ⊢
    obtain rfl : l = [] := List.eq_nil_of_length_eq_zero (Nat.le_zero.mp hl.fits)
    exact ⟨isBuffer_node.refl _, hl, .of_store hs rfl, by simp [keepRuns]⟩
  | succ count ih =>
    rw [Nat.succ_mul, Nat.add_comm] at hl ⊢
    unfold Writer.trimIndirect at h
    obtain ⟨u, s₀, h₀, h⟩ := bind_eq_some h
    obtain rfl := Writer.buffers_eq_some h₀
    rw [get_bind_run] at h
    dsimp only at h
    have hpb : Writer.perBlock { s with node := readBlock s.world first } = g.perBlock := by
      show s.world.vol.blockSize / 8 = _
      rw [hs.geometry]; rfl
    rw [hpb] at h
    obtain ⟨⟨logical₁, changed⟩, s₁, h₁, h⟩ := bind_eq_some h
    rw [get_bind_run] at h
    obtain ⟨u₂, s₂, h₂, h⟩ := bind_eq_some h
    obtain ⟨hblock, hrest⟩ := hl.split
    have hle8 : g.perBlock * 8 ≤ g.blockSize := Nat.div_mul_le_self _ _
    have hnode : Filled runIsZero (fun k => leRun (readBlock s.world first) (0 + k * 8)) g.perBlock (l.take g.perBlock) :=
      hblock.congr fun i hi => (slotFrom_block hi).symm
    obtain ⟨honly₁, hfill, -, hcuts₁, hlog₁, hch⟩ := trimArray_some (fun _ => False) isBuffer_node hg h₁ hs hnode
      (fun r hr => hon r (List.mem_of_mem_take hr)) (fun r hr => ha r (List.mem_of_mem_take hr))
    have hcuts₁ := hcuts₁.of_start (rfl : s.store = _)
    -- the block holds what is kept of its runs
    have hblock₂ : Cuts g (· = first) (dropRuns (n - logical) (l.take g.perBlock)) s s₂ ∧ s₂ = { s₁ with store := s₂.store } ∧
        ∀ i < g.blockSize, readBlock s₂.world first i = s₁.node i := by
      have hmono : Cuts g (· = first) _ s s₁ := hcuts₁.mono fun b hb => absurd hb id
      rcases when_eq_some h₂ with ⟨-, h₂⟩ | ⟨hno, he⟩
      · obtain ⟨hb, hw, hpeek, hf⟩ := Writer.writeBlock_some h₂ hcuts₁.sane.ok
        have := hmono.trans (hw.cuts hg hcuts₁.sane hfirst rfl hpeek hf)
        rw [List.append_nil] at this
        exact ⟨this, hb, fun i hi => by rw [hw.read_eq hcuts₁.sane hi, if_pos rfl]⟩
      · rw [he]
        refine ⟨hmono, rfl, fun i hi => ?_⟩
        rw [hcuts₁.read first hfirst id i hi, (hch (by simpa using hno)).2]
    obtain ⟨hcuts₂, hst₂, hread₂⟩ := hblock₂
    have hrest₂ : Filled runIsZero (slotFrom g (readBlock s₂.world) (first + 1)) (count * g.perBlock) (l.drop g.perBlock) := by
      refine hrest.congr fun i hi => ?_
      rw [slotFrom_next hp]
      exact slotFrom_congr (fun b h₁ _ => hcuts₂.read b (by omega) (by omega)) hi
    obtain ⟨honly', hfill', hcuts', hlog'⟩ := ih h hcuts₂.sane (by omega) hrest₂
      (fun r hr => hon r (List.mem_of_mem_drop hr)) (fun r hr => ha r (List.mem_of_mem_drop hr))
    have hrem : n - logical₁ = n - logical - runsLength (l.take g.perBlock) := by
      rw [hlog₁, runsLength_keepRuns]; omega
    rw [hrem] at hfill' hcuts' hlog'
    have hkeep : keepRuns (n - logical) l = keepRuns (n - logical) (l.take g.perBlock) ++
        keepRuns (n - logical - runsLength (l.take g.perBlock)) (l.drop g.perBlock) := by
      rw [← keepRuns_append, List.take_append_drop]
    have hdrop : dropRuns (n - logical) l = dropRuns (n - logical) (l.take g.perBlock) ++
        dropRuns (n - logical - runsLength (l.take g.perBlock)) (l.drop g.perBlock) := by
      rw [← dropRuns_append, List.take_append_drop]
    rw [hkeep, hdrop]
    refine ⟨?_, ?_, ?_, ?_⟩
    · have h₁ : OnlyBuffer Writer.node (fun b s => { s with node := b }) s s₁ :=
        isBuffer_node.trans (isBuffer_node.put (readBlock s.world first) s) honly₁
      exact isBuffer_node.trans (isBuffer_node.trans h₁ (isBuffer_node.of_world hst₂)) honly'
    · refine .concat ?_ ?_ ?_
      · refine hfill.congr fun i hi => ?_
        rw [slotFrom_block hi]
        refine leRun_congr fun k hk => ?_
        rw [hcuts'.read first hfirst (by omega) _ (by omega), hread₂ _ (by omega)]
      · exact hfill'.congr fun i _ => slotFrom_next hp i
      · by_cases hfull : (keepRuns (n - logical) (l.take g.perBlock)).length = g.perBlock
        · exact Or.inl hfull
        · right
          rcases Nat.lt_or_ge l.length g.perBlock with hlt | hge
          · rw [List.drop_eq_nil_of_le hlt.le]; rfl
          · have hle := length_keepRuns_le (n - logical) (l.take g.perBlock)
            have := le_of_length_keepRuns_lt (m := n - logical) (l := l.take g.perBlock) (by
              rw [List.length_take] at hle ⊢; omega)
            rw [Nat.sub_eq_zero_of_le this, keepRuns_zero]
    · exact (hcuts₂.mono fun b hb => by omega).trans (hcuts'.mono fun b hb => by omega)
    · rw [hlog', hlog₁, runsLength_append, Nat.add_assoc]

def Scratched (s s' : Writer Session) : Prop := s' = { s with node := s'.node, work := s'.work, store := s'.store }

theorem Scratched.refl (s : Writer Session) : Scratched s s := rfl

theorem Scratched.of_world (h : s' = { s with store := s'.store }) : Scratched s s' := by
  unfold Scratched
  rw [h]

theorem Scratched.of_node (h : OnlyBuffer Writer.node (fun b s => { s with node := b }) s s') : Scratched s s' := by
  unfold Scratched
  rw [h]

theorem Scratched.trans {s'' : Writer Session} (h : Scratched s s') (h' : Scratched s' s'') : Scratched s s'' := by
  unfold Scratched at *
  rw [h', h]

theorem Scratched.stream (h : Scratched s s') : s'.stream = s.stream := by rw [h]

/-- The part of `trim_stream` about the indirect runs: the array goes when nothing past the
    direct runs is kept. -/
theorem trimIndirects_some {ia : Run} (hg : g.Single) (h : Writer.trimIndirects n logical s = (some logical', s'))
    (hs : Sane g s.world) (hia : leRun s.stream DataField.kIndirect = ia) (hz : runIsZero ia = false) (hion : ia.On g)
    (hiab : ∀ b ∈ g.runBlocks ia, g.numAgs < b)
    (hl : Filled runIsZero (cell g (readBlock s.world) ia) (ia.length * g.perBlock) l) (hon : ∀ r ∈ l, r.On g)
    (ha : ∀ r ∈ l, ∀ b ∈ g.runBlocks r, g.numAgs < b) :
    ∃ t, Scratched s t ∧ logical' = logical + runsLength (keepRuns (n - logical) l) ∧
      (logical' ≤ le 8 s.stream DataField.kMaxDirectRange / g.blockSize ∧
          s' = { t with stream := put 8 (putRun s.stream DataField.kIndirect ⟨0, 0, 0⟩) DataField.kMaxIndirectRange 0 } ∧
          Cuts g (· ∈ g.runBlocks ia) (dropRuns (n - logical) l ++ [ia]) s t ∨
        le 8 s.stream DataField.kMaxDirectRange / g.blockSize < logical' ∧ s' = t ∧
          Cuts g (· ∈ g.runBlocks ia) (dropRuns (n - logical) l) s t ∧
          Filled runIsZero (cell g (readBlock t.world) ia) (ia.length * g.perBlock) (keepRuns (n - logical) l)) := by
  have hbs : s.blockSize = g.blockSize := by
    show s.world.vol.blockSize = _
    rw [hs.geometry]
  have hto : s.toBlock ia = g.toBlock ia := by
    show s.world.vol.toBlock ia = _
    rw [hs.geometry]
  have hfirst : g.numAgs < g.toBlock ia :=
    hiab _ (Geometry.mem_runBlocks.mpr ⟨Nat.le_refl _, Nat.lt_add_of_pos_right hion.pos⟩)
  unfold Writer.trimIndirects at h
  rw [get_bind_run] at h
  rw [hia, if_neg (by simp [hz]), hto, hbs] at h
  obtain ⟨logical₁, s₁, h₁, h⟩ := bind_eq_some h
  obtain ⟨u, s₂, h₂, h⟩ := bind_eq_some h
  cases h
  obtain ⟨honly, hfill, hcuts, hlog⟩ := trimIndirect_some hg h₁ hs hfirst hl hon ha
  have hcuts : Cuts g (· ∈ g.runBlocks ia) _ s s₁ := hcuts.mono fun b hb => Geometry.mem_runBlocks.mpr hb
  have hscr := Scratched.of_node honly
  rcases when_eq_some h₂ with ⟨hle, h₂⟩ | ⟨hlt, rfl⟩
  · obtain ⟨u₃, s₃, h₃, h₂⟩ := bind_eq_some h₂
    obtain rfl := Writer.buffers_eq_some h₂
    obtain ⟨hb₃, hrel, hf⟩ := Writer.free_some h₃ hg hcuts.sane hion
    have hscr₃ := hscr.trans (.of_world hb₃)
    refine ⟨s₃, hscr₃, hlog, Or.inl ⟨hle, ?_, hcuts.trans (hrel.cuts hcuts.sane hiab hf)⟩⟩
    rw [hscr₃.stream]
  · exact ⟨_, hscr, hlog, Or.inr ⟨by omega, rfl, hcuts, hfill⟩⟩

/-! ## Freeing what arrays list -/

theorem freeRuns_some {u : Unit} (hg : g.Single) (h : Writer.freeRuns l s = (some u, s')) (hs : Sane g s.world)
    (hon : ∀ r ∈ l, r.On g) (ha : ∀ r ∈ l, ∀ b ∈ g.runBlocks r, g.numAgs < b) (written : ℕ → Prop) :
    Scratched s s' ∧ Cuts g written l s s' := by
  refine forEach_eq_some (fun pre t => Scratched s t ∧ Cuts g written pre s t) ⟨.refl s, .of_store hs rfl⟩ ?_ h
  rintro pre r rest rfl t t' u ⟨hscr, hcuts⟩ hx
  have hr : r ∈ pre ++ r :: rest := List.mem_append_right _ List.mem_cons_self
  obtain ⟨hb, hrel, hf⟩ := Writer.free_some hx hg hcuts.sane (hon r hr)
  exact ⟨hscr.trans (.of_world hb), hcuts.trans (hrel.cuts hcuts.sane (ha r hr) hf)⟩

/-- `load` reads a block into the buffer that `loaded` names. -/
def Loads (load : ℕ → W Unit) (loaded : Writer Session → Buf) : Prop :=
  ∀ block t, ∃ t', load block t = (some (), t') ∧
    Scratched t t' ∧ t'.store = t.store ∧ loaded t' = readBlock t.world block

theorem loads_node : Loads Writer.loadNode Writer.node := fun _ _ => ⟨_, rfl, rfl, rfl, rfl⟩

theorem loads_work : Loads Writer.loadWork Writer.work := fun _ _ => ⟨_, rfl, rfl, rfl, rfl⟩

theorem Loads.eq_some {load : ℕ → W Unit} {loaded : Writer Session → Buf} (hl : Loads load loaded) {block : ℕ}
    {t t' : Writer Session} {u : Unit} (h : load block t = (some u, t')) :
    Scratched t t' ∧ t'.store = t.store ∧ loaded t' = readBlock t.world block := by
  obtain ⟨t₁, he, hrest⟩ := hl block t
  rw [he] at h
  cases h
  exact hrest

theorem freeArray_some {load : ℕ → W Unit} {loaded : Writer Session → Buf} {r : Run} {u : Unit} (hload : Loads load loaded)
    (hg : g.Single) (h : Writer.freeArray load loaded r s = (some u, s')) (hs : Sane g s.world)
    (hl : Filled runIsZero (cell g (readBlock s.world) r) (r.length * g.perBlock) l)
    (hra : ∀ b ∈ g.runBlocks r, g.numAgs < b) (hon : ∀ r ∈ l, r.On g)
    (ha : ∀ r ∈ l, ∀ b ∈ g.runBlocks r, g.numAgs < b) :
    Scratched s s' ∧ Cuts g (fun _ => False) l s s' := by
  have hto : s.toBlock r = g.toBlock r := by
    show s.world.vol.toBlock r = _
    rw [hs.geometry]
  unfold Writer.freeArray at h
  rw [get_bind_run, hto] at h
  have hloop := forRange_eq_some (fun k t => Scratched s t ∧ Cuts g (fun _ => False) (l.take (k * g.perBlock)) s t)
    ?_ ?_ h
  · rwa [List.take_of_length_le hl.fits] at hloop
  · rw [Nat.zero_mul, List.take_zero]
    exact ⟨.refl s, .of_store hs rfl⟩
  · rintro k hk t t' u' ⟨hscr, hcuts⟩ hx
    obtain ⟨u₁, t₁, h₁, hx⟩ := bind_eq_some hx
    obtain ⟨hscr₁, hst₁, hbuf⟩ := hload.eq_some h₁
    rw [get_bind_run, hbuf] at hx
    have hpb : t₁.perBlock = g.perBlock := by
      have : t₁.world = t.world := by unfold Writer.world; rw [hst₁]
      show t₁.world.vol.blockSize / 8 = _
      rw [this, hcuts.sane.geometry]; rfl
    have hfill : Filled runIsZero (cell g (readBlock t.world) r) (r.length * g.perBlock) l :=
      hl.congr fun i hi => cells_congr (fun b hb => hcuts.read b (hra b hb) id) hi
    rw [hpb, runsAt_block hfill hk] at hx
    have hcuts₁ := hcuts.buffers hst₁
    obtain ⟨hscr₂, hcuts₂⟩ := freeRuns_some hg hx hcuts₁.sane
      (fun r hr => hon r (List.mem_of_mem_drop (List.mem_of_mem_take hr)))
      (fun r hr => ha r (List.mem_of_mem_drop (List.mem_of_mem_take hr))) fun _ => False
    refine ⟨(hscr.trans hscr₁).trans hscr₂, ?_⟩
    rw [Nat.succ_mul, List.take_add]
    exact hcuts₁.trans hcuts₂

/-- What is freed of the double indirect runs: the runs of each array, and the array. -/
def arrayFrees (R : ℕ) : List Run → List Run → List Run
  | _, [] => []
  | pieces, a :: arrays => pieces.take R ++ a :: arrayFrees R (pieces.drop R) arrays

theorem arrayFrees_concat (R : ℕ) (pieces pre : List Run) (a : Run) :
    arrayFrees R pieces (pre ++ [a]) = arrayFrees R pieces pre ++ ((pieces.drop (pre.length * R)).take R ++ [a]) := by
  induction pre generalizing pieces with
  | nil => simp [arrayFrees]
  | cons b pre ih =>
    simp only [List.cons_append, arrayFrees, ih, List.drop_drop, List.length_cons, Nat.succ_mul, List.append_assoc]
    rw [Nat.add_comm R]

theorem freeArrays_some {done : Run → W Unit} {dbl : Run} {arrays pieces : List Run} {u : Unit} (hg : g.Single)
    (hdone : ∀ a ∈ arrays, ∀ t t' u, Sane g t.world → done a t = (some u, t') →
      Scratched t t' ∧ Cuts g (fun _ => False) [a] t t')
    (h : Writer.freeArrays done dbl s = (some u, s')) (hs : Sane g s.world)
    (hd : ShowsDouble g (readBlock s.world) dbl arrays pieces) (hda : ∀ b ∈ g.runBlocks dbl, g.numAgs < b)
    (haa : ∀ a ∈ arrays, ∀ b ∈ g.runBlocks a, g.numAgs < b) (hon : ∀ r ∈ pieces, r.On g)
    (ha : ∀ r ∈ pieces, ∀ b ∈ g.runBlocks r, g.numAgs < b) :
    Scratched s s' ∧ Cuts g (fun _ => False) (arrayFrees (g.unit * g.perBlock) pieces arrays) s s' := by
  have hto : s.toBlock dbl = g.toBlock dbl := by
    show s.world.vol.toBlock dbl = _
    rw [hs.geometry]
  unfold Writer.freeArrays at h
  rw [get_bind_run, hto] at h
  have hloop := forRange_eq_some (fun k t => Scratched s t ∧ Cuts g (fun _ => False)
    (arrayFrees (g.unit * g.perBlock) pieces (arrays.take (k * g.perBlock))) s t) ?_ ?_ h
  · rwa [List.take_of_length_le hd.listed.fits] at hloop
  · rw [Nat.zero_mul, List.take_zero]
    exact ⟨.refl s, .of_store hs rfl⟩
  · rintro k hk t t' u' ⟨hscr, hcuts⟩ hx
    obtain ⟨u₁, t₁, h₁, hx⟩ := bind_eq_some hx
    obtain ⟨hscr₁, hst₁, hbuf⟩ := loads_node.eq_some h₁
    rw [get_bind_run, hbuf] at hx
    have hpb : t₁.perBlock = g.perBlock := by
      have : t₁.world = t.world := by unfold Writer.world; rw [hst₁]
      show t₁.world.vol.blockSize / 8 = _
      rw [this, hcuts.sane.geometry]; rfl
    have hfill : Filled runIsZero (cell g (readBlock t.world) dbl) (dbl.length * g.perBlock) arrays :=
      hd.listed.congr fun i hi => cells_congr (fun b hb => hcuts.read b (hda b hb) id) hi
    rw [hpb, runsAt_block hfill hk] at hx
    have hcuts₁ := hcuts.buffers hst₁
    -- the arrays of this block, one after the other
    have hinner := forEach_eq_some (fun pre t' => Scratched s t' ∧ Cuts g (fun _ => False)
      (arrayFrees (g.unit * g.perBlock) pieces (arrays.take (k * g.perBlock) ++ pre)) s t')
      ⟨hscr.trans hscr₁, by rw [List.append_nil]; exact hcuts₁⟩ ?_ hx
    · rwa [Nat.succ_mul, List.take_add]
    rintro pre a rest hchunk t₂ t₃ u₃ ⟨hscr₂, hcuts₂⟩ hx₂
    obtain ⟨u₄, t₄, h₄, hx₂⟩ := bind_eq_some hx₂
    -- the number of the array among all
    have hkl : k * g.perBlock + pre.length < arrays.length := by
      have := congrArg List.length hchunk
      rw [List.length_take, List.length_drop, List.length_append, List.length_cons] at this
      omega
    have hat : arrays[k * g.perBlock + pre.length] = a := by
      have hget : ((arrays.drop (k * g.perBlock)).take g.perBlock)[pre.length]? = some a := by
        rw [hchunk]; simp
      rw [List.getElem?_take, List.getElem?_drop] at hget
      split at hget
      · rw [List.getElem?_eq_getElem hkl] at hget
        exact Option.some.inj hget
      · cases hget
    have hmem : a ∈ arrays := hat ▸ List.getElem_mem hkl
    set j := k * g.perBlock + pre.length with hj
    have hlen : (arrays.take (k * g.perBlock) ++ pre).length = j := by
      rw [List.length_append, List.length_take]; omega
    have hpcs : Filled runIsZero (cell g (readBlock t₂.world) a) (a.length * g.perBlock)
        ((pieces.drop (j * (g.unit * g.perBlock))).take (g.unit * g.perBlock)) := by
      rw [hd.units a hmem]
      have := hd.filled j hkl
      rw [hat] at this
      exact this.congr fun i hi => cells_congr (fun b hb => hcuts₂.read b (haa a hmem b hb) id)
        (by rw [hd.units a hmem]; exact hi)
    obtain ⟨hscr₄, hcuts₄⟩ := freeArray_some loads_work hg h₄ hcuts₂.sane hpcs (haa a hmem)
      (fun r hr => hon r (List.mem_of_mem_drop (List.mem_of_mem_take hr)))
      (fun r hr => ha r (List.mem_of_mem_drop (List.mem_of_mem_take hr)))
    obtain ⟨hscr₃, hcuts₃⟩ := hdone a hmem _ _ _ hcuts₄.sane hx₂
    refine ⟨(hscr₂.trans hscr₄).trans hscr₃, ?_⟩
    rw [← List.append_assoc, arrayFrees_concat, hlen]
    exact hcuts₂.trans (hcuts₄.trans hcuts₃)

end

end Aegir.Bfs
