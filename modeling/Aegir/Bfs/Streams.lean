/-
  `grow_to` takes one run after the other from the allocator, zeroes it and appends it;
  what does not go into whole units of the double indirect runs is freed again.
-/
import Aegir.Bfs.Ranges

namespace Aegir.Bfs

open Aegir.Lib Aegir.Lib.Buf Aegir.Lib.Fallible

/-! ## Calls that spare the blocks in use -/

/-- As `Steps`, but runs that came since may be freed. -/
structure Preserves (g : Geometry) (written : ℕ → Prop) (s s' : Writer Session) : Prop where
  sane : Sane g s'.world
  used : ∀ b < g.numBlocks, s.world.inUse b = true → s'.world.inUse b = true
  read : ∀ b < g.numBlocks, g.numAgs < b → s.world.inUse b = true → ¬written b → ∀ i < g.blockSize,
    readBlock s'.world b i = readBlock s.world b i
  peek : ∀ b < g.numBlocks, g.numAgs < b → s.world.inUse b = true → ¬written b →
    s'.world.jnl.peek b = s.world.jnl.peek b

section
variable {g : Geometry} {s s' s'' : Writer Session} {written written' : ℕ → Prop} {r : Run} {u : Unit}

theorem Steps.preserves (h : Steps g written s s') : Preserves g written s s' := ⟨h.sane, h.used, h.read, h.peek⟩

theorem Preserves.refl (hs : Sane g s.world) : Preserves g written s s := (Steps.refl hs).preserves

theorem Preserves.trans (h : Preserves g written s s') (h' : Preserves g written' s' s'')
    (hw : ∀ b, s.world.inUse b = true → written' b → written b) : Preserves g written s s'' where
  sane := h'.sane
  used b hb hu := h'.used b hb (h.used b hb hu)
  read b hb ha hu hn i hi := (h'.read b hb ha (h.used b hb hu) (fun hc => hn (hw b hu hc)) i hi).trans
    (h.read b hb ha hu hn i hi)
  peek b hb ha hu hn := (h'.peek b hb ha (h.used b hb hu) fun hc => hn (hw b hu hc)).trans (h.peek b hb ha hu hn)

theorem Writer.free_any {o : Option Unit} (h : Writer.free r s = (o, s')) (hg : g.Single) (hs : Sane g s.world) (hr : r.On g) :
    s' = { s with store := s'.store } ∧ Beyond g s.world s'.world ∧
      ∀ b ∉ g.runBlocks r, s'.world.inUse b = s.world.inUse b := by
  have key : ∀ (a : Option (Option Run)) (s₁ : Writer Session),
      onStore (Session.issue (.free r)) s = (a, s₁) → s₁ = { s with store := s₁.store } ∧
        Beyond g s.world s₁.world ∧ ∀ b ∉ g.runBlocks r, s₁.world.inUse b = s.world.inUse b := by
    intro a s₁ he
    obtain rfl : _ = s₁ := congrArg Prod.snd he
    have hx : Allocator.free r s.world = ((Allocator.free r s.world).1, ((Command.free r).call s.world).2) := by
      refine Prod.ext rfl ?_
      show _ = ((Allocator.free r >>= fun _ => pure none : M (Option Run)) s.world).2
      rw [bind_run]
      rcases Allocator.free r s.world with ⟨_ | u, w⟩ <;> rfl
    exact ⟨rfl, free_beyond hg hs.ok hs.geometry hr hx, fun b hb => free_other hg hs.ok hs.geometry hr hx hb⟩
  unfold Writer.free at h
  rcases bind_cases h with ⟨h₁, -⟩ | ⟨a, s₁, h₁, h⟩
  · exact key _ _ h₁
  · cases h
    exact key _ _ h₁

/-- The blocks of a run are zeros, and no others were written. -/
structure Blanked (g : Geometry) (r : Run) (s s' : Writer Session) : Prop where
  buffers : s' = { s with store := s'.store }
  sane : Sane g s'.world
  inUse : ∀ b < g.numBlocks, s'.world.inUse b = s.world.inUse b
  read : ∀ b ∉ g.runBlocks r, ∀ i < g.blockSize, readBlock s'.world b i = readBlock s.world b i
  zero : ∀ b ∈ g.runBlocks r, s.world.jnl.peek b = none → ∀ i < g.blockSize, readBlock s'.world b i = 0
  jnl : s'.world.jnl = s.world.jnl

theorem Blanked.preserves (h : Blanked g r s s') : Preserves g (· ∈ g.runBlocks r) s s' where
  sane := h.sane
  used b hb hu := (h.inUse b hb).trans hu
  read b _ _ _ hn := h.read b hn
  peek b _ _ _ _ := by rw [h.jnl]

/-- The loop of `grow_to` that zeroes a run. -/
def zeroRun (r : Run) : W Unit := do
  let s ← .get
  .forEach (fun b => (Writer.zeroBlock (s.toBlock r + b)).onFail (.ignore (Writer.free r))) (List.range r.length)

theorem zeroRun_some (h : zeroRun r s = (some u, s')) (hg : g.Single) (hs : Sane g s.world)
    (ha : ∀ b ∈ g.runBlocks r, g.numAgs < b) : Blanked g r s s' := by
  unfold zeroRun at h
  rw [get_bind_run] at h
  have hto : s.toBlock r = g.toBlock r := by rw [Writer.toBlock, hs.geometry]
  rw [hto] at h
  -- after `k` blocks
  have hloop := forRange_eq_some (fun k t => t = { s with store := t.store } ∧ Sane g t.world ∧
    t.world.vol = s.world.vol ∧ t.world.jnl = s.world.jnl ∧
    (∀ b < g.numBlocks, t.world.inUse b = s.world.inUse b) ∧ ∀ b, ∀ i < g.blockSize, readBlock t.world b i =
      if (g.toBlock r ≤ b ∧ b < g.toBlock r + k) ∧ s.world.jnl.peek b = none then 0 else readBlock s.world b i) ?_ ?_ h
  · obtain ⟨hb, hsane, -, hj, hu, hread⟩ := hloop
    refine ⟨hb, hsane, hu, fun b hn i hi => ?_, fun b hm hp i hi => ?_, hj⟩
    · rw [hread b i hi, if_neg fun hc => hn (Geometry.mem_runBlocks.mpr hc.1)]
    · rw [hread b i hi, if_pos ⟨Geometry.mem_runBlocks.mp hm, hp⟩]
  · refine ⟨rfl, hs, rfl, rfl, fun _ _ => rfl, fun b i _ => ?_⟩
    rw [if_neg (by omega)]
  · rintro k hk t t' u' ⟨hb, hsane, hv, hj, hu, hread⟩ hx
    obtain ⟨hb', hw, -⟩ := Writer.zeroBlock_some (onFail_eq_some hx)
    obtain ⟨hv', hj', hok, hread'⟩ := writeBlockNow_some hsane.ok hw
    rw [hsane.geometry] at hread'
    have hmem : g.numAgs < g.toBlock r + k := ha _ (Geometry.mem_runBlocks.mpr ⟨by omega, by omega⟩)
    have hu' : ∀ b < g.numBlocks, t'.world.inUse b = t.world.inUse b := fun b hlt =>
      inUse_of_read hg hsane.geometry (by rw [hv']; exact hsane.geometry)
        (fun b _ hle i hi => by rw [hread' b i hi, if_neg (by omega)]) hlt
    refine ⟨by rw [hb', hb], ⟨hok, by rw [hv']; exact hsane.geometry, fun b hle => ?_⟩, hv'.trans hv, hj'.trans hj,
      fun b hlt => (hu' b hlt).trans (hu b hlt), fun b i hi => ?_⟩
    · rw [hu' b (hle.trans_lt hg.room)]
      exact hsane.bitmap b hle
    · rw [hread' b i hi, hread b i hi, hj]
      by_cases he : b = g.toBlock r + k
      · subst he
        by_cases hp : s.world.jnl.peek (g.toBlock r + k) = none
        · rw [if_pos ⟨rfl, hp⟩, if_pos ⟨⟨by omega, by omega⟩, hp⟩]; rfl
        · rw [if_neg fun hc => hp hc.2, if_neg fun hc => hp hc.2, if_neg fun hc => hp hc.2]
      · rw [if_neg fun hc => he hc.1]
        refine if_congr (and_congr_left fun _ => ?_) rfl rfl
        omega

end

/-! ## Runs that were appended -/

section
variable {g : Geometry} {k unit rest : ℕ} {l : List Run} {last run : Run} {p p' p₁ : Parts} {stream stream₁ stream' : Buf}

theorem Run.On.lengthened (hl : last.On g) (hr : run.On g) (hc : Writer.runsContiguous last run = true)
    (hj : last.length + run.length < 2 ^ 16) : (lengthened last run).On g := by
  obtain ⟨hgroup, hstart⟩ := runsContiguous_iff.mp hc
  have hto := toBlock_of_contiguous hr hc
  have hlen : (Bfs.lengthened last run).length = last.length + run.length := Nat.mod_eq_of_lt hj
  have hpos := hl.pos
  have hin := hr.inside
  have hvol := hr.volume
  refine ⟨lengthened_fits hl.fits, by omega, hl.group, ?_, ?_⟩
  · show last.start + (Bfs.lengthened last run).length ≤ _
    omega
  · show g.toBlock last + (Bfs.lengthened last run).length ≤ _
    omega

theorem addRun_on (h : ∀ r ∈ l, r.On g) (hrun : run.On g) (hj : Joins k l run) : ∀ r ∈ addRun k l run, r.On g := by
  intro r hr
  rcases addRun_cases k l run with ⟨last, hlast, hc, hadd⟩ | ⟨-, hadd⟩
  · rw [hadd] at hr
    rcases List.mem_append.mp hr with hr | hr
    · exact h r (List.dropLast_subset _ hr)
    · obtain ⟨-, hl, rfl⟩ := lastBefore_eq_some hlast
      rw [List.mem_singleton.mp hr]
      exact (h _ (List.getElem_mem _)).lengthened hrun hc (hj _ hlast hc)
  · rw [hadd] at hr
    rcases List.mem_append.mp hr with hr | hr
    · exact h r hr
    · rw [List.mem_singleton.mp hr]; exact hrun

theorem piecesOf_on (hg : g.agShift ≤ 16) (hrun : run.On g) (hu : 0 < unit) {n : ℕ} (hn : n * unit ≤ run.length) :
    ∀ r ∈ piecesOf unit run n, r.On g := by
  intro r hr
  obtain ⟨k, hk, rfl⟩ := List.mem_map.mp hr
  have hle : (k + 1) * unit ≤ n * unit := Nat.mul_le_mul_right _ (List.mem_range.mp hk)
  rw [Nat.succ_mul] at hle
  have hspan : 2 ^ g.agShift ≤ 2 ^ 16 := Nat.pow_le_pow_right (by norm_num) hg
  have hin := hrun.inside
  have hvol := hrun.volume
  have hto : g.toBlock (pieceOf unit run k) = g.toBlock run + k * unit := by
    rw [hrun.toBlock, toBlock_eq g (by simp only [pieceOf]; omega)]
    simp only [pieceOf, Nat.add_assoc]
  refine ⟨⟨hrun.fits.allocationGroup, ?_, ?_⟩, hu, hrun.group, ?_, ?_⟩
  · simp only [pieceOf]; omega
  · have := hrun.fits.length
    simp only [pieceOf]; omega
  · simp only [pieceOf]; omega
  · rw [hto]
    simp only [pieceOf]; omega

theorem Added.on (ha : Added g stream p run rest stream' p') (hg : g.Single) (hrun : run.On g)
    (ht : p.Takes g run) (hd : ∀ r ∈ p.runs, r.On g) : ∀ r ∈ p'.runs, r.On g := by
  have hdirect : ∀ r ∈ p.direct, r.On g := fun r hr => hd r (by simp [Parts.runs, hr])
  have hindirect : ∀ r ∈ p.indirect, r.On g := fun r hr => hd r (by simp [Parts.runs, hr])
  have hpieces : ∀ r ∈ p.pieces, r.On g := fun r hr => hd r (by simp [Parts.runs, hr])
  cases ha with
  | direct hl =>
    rw [Parts.Takes, if_pos hl] at ht
    simp only [Parts.runs, List.mem_append]
    rintro r ((hr | hr) | hr)
    · exact addRun_on hdirect hrun ht r hr
    · exact hindirect r hr
    · exact hpieces r hr
  | indirect hfull hz hl =>
    rw [Parts.Takes, if_neg (by omega)] at ht
    simp only [Parts.runs, List.mem_append]
    rintro r ((hr | hr) | hr)
    · exact hdirect r hr
    · exact addRun_on hindirect hrun ht r hr
    · exact hpieces r hr
  | pieces hz =>
    simp only [Parts.runs, List.mem_append]
    rintro r ((hr | hr) | hr | hr)
    · exact hdirect r hr
    · exact hindirect r hr
    · exact hpieces r hr
    · exact piecesOf_on hg.shift hrun g.unit_pos (Nat.div_mul_le_self _ _) r hr
  | nothing hz hlt => exact hd

theorem Opened.ranged {rd : ℕ → Buf} (ho : Opened g stream p stream₁ p₁) (h : Shows g rd stream p) (hr : Ranged g stream p) :
    Ranged g stream₁ p₁ := by
  cases ho with
  | none => exact hr
  | indirect hd hz hdz hon =>
    have hnil := h.indirect_nil hz
    refine ⟨?_, fun _ => ?_, fun hc => ?_⟩
    · rw [le_put_of_disjoint (by decide), le_putRun_of_disjoint (by decide)]
      exact hr.direct
    · rw [le_put_of_lt (le_lt_64 _ _), hr.direct]
      simp only [hnil, List.append_nil]
    · rw [show runIsZero p.doubleArray = true from hdz] at hc
      cases hc
  | double hi hfull hz hon =>
    have hnil := (h.double_nil hz).2
    refine ⟨?_, fun _ => ?_, fun _ => ?_⟩
    · rw [le_put_of_disjoint (by decide), le_putRun_of_disjoint (by decide)]
      exact hr.direct
    · rw [le_put_of_disjoint (by decide), le_putRun_of_disjoint (by decide)]
      exact hr.indirect hi
    · rw [le_put_of_lt (le_lt_64 _ _), hr.indirect hi]
      simp only [Parts.runs, hnil, List.append_nil]

/-- The direct range is right, and the double indirect one gives the next free slot. -/
structure Counted (g : Geometry) (stream : Buf) (p : Parts) : Prop where
  direct : le 8 stream DataField.kMaxDirectRange = runsLength p.direct * g.blockSize
  slotted : Slotted g stream p

theorem Ranged.counted {rd : ℕ → Buf} (h : Ranged g stream p) (hs : Shows g rd stream p) : Counted g stream p :=
  ⟨h.direct, h.slotted hs⟩

theorem Opened.counted {rd : ℕ → Buf} (ho : Opened g stream p stream₁ p₁) (h : Shows g rd stream p) (hc : Counted g stream p) :
    Counted g stream₁ p₁ := by
  have hpieces : p.pieces = [] ∨ runIsZero p.doubleArray = false := by
    rcases hz : runIsZero p.doubleArray with _ | _
    · exact Or.inr rfl
    · exact Or.inl (h.double_nil hz).2
  refine ⟨?_, ho.slotted hpieces hc.slotted⟩
  cases ho with
  | none => exact hc.direct
  | indirect hd hz hdz hon =>
    rw [le_put_of_disjoint (by decide), le_putRun_of_disjoint (by decide)]
    exact hc.direct
  | double hi hfull hz hon =>
    rw [le_put_of_disjoint (by decide), le_putRun_of_disjoint (by decide)]
    exact hc.direct

theorem Opened.indirect_range (ho : Opened g stream p stream₁ p₁) (hz : runIsZero p₁.doubleArray = false) :
    le 8 stream₁ DataField.kMaxIndirectRange = le 8 stream DataField.kMaxIndirectRange := by
  cases ho with
  | none => rfl
  | indirect hd hz' hdz hon =>
    rw [show runIsZero p.doubleArray = true from hdz] at hz
    cases hz
  | double hi hfull hz' hon => rw [le_put_of_disjoint (by decide), le_putRun_of_disjoint (by decide)]

theorem Added.ranged {rd : ℕ → Buf} (ha : Added g stream p run rest stream' p') (h : Shows g rd stream p)
    (ht : p.Takes g run) (hfits : ∀ r ∈ p.runs, r.length < 2 ^ 16) (hlt : runsLength p'.runs * g.blockSize < 2 ^ 64)
    (hr : Ranged g stream p) : Ranged g stream' p' := by
  have hlast : ∀ k l, (∀ r ∈ l, r ∈ p.runs) → ∀ last, lastBefore k l = some last → last.length < 2 ^ 16 := by
    intro k l hl last hlast
    obtain ⟨-, hpos, rfl⟩ := lastBefore_eq_some hlast
    exact hfits _ (hl _ (List.getElem_mem _))
  norm_num at hlt
  cases ha with
  | direct hl =>
    rw [Parts.Takes, if_pos hl] at ht
    have hlen := (runsLength_addRun_iff (hlast _ _ fun r hr => by simp [Parts.runs, hr])).mpr ht
    obtain ⟨hi, hp⟩ := h.indirect_of_direct hl
    have hz : runIsZero p.indirectArray = true := by
      by_contra hc
      have := h.directFull (by simpa using hc)
      omega
    have hdz : runIsZero p.doubleArray = true := by
      by_contra hc
      rw [(h.indirectFull (by simpa using hc)).1] at hz
      cases hz
    refine ⟨?_, fun hc => ?_, fun hc => ?_⟩
    · simp only [Parts.runs, hi, hp, List.append_nil, hlen, Nat.add_mul] at hlt
      rw [hr.direct, le_put_of_lt hlt, hlen, Nat.add_mul]
    · rw [show runIsZero p.indirectArray = true from hz] at hc
      cases hc
    · rw [show runIsZero p.doubleArray = true from hdz] at hc
      cases hc
  | indirect hd hz hl =>
    rw [Parts.Takes, if_neg (by omega)] at ht
    have hlen := (runsLength_addRun_iff (hlast _ _ fun r hr => by simp [Parts.runs, hr])).mpr ht
    obtain ⟨-, hp⟩ := h.double_of_indirect hl
    have hdz : runIsZero p.doubleArray = true := by
      by_contra hc
      have := (h.indirectFull (by simpa using hc)).2
      omega
    refine ⟨?_, fun _ => ?_, fun hc => ?_⟩
    · rw [le_put_of_disjoint (by decide)]
      exact hr.direct
    · simp only [Parts.runs, hp, List.append_nil, runsLength_append, hlen, Nat.add_mul] at hlt
      have hold := hr.indirect hz
      rw [runsLength_append, Nat.add_mul] at hold
      rw [hold, le_put_of_lt (by rw [Nat.add_assoc]; exact hlt), runsLength_append, hlen, Nat.add_mul, Nat.add_mul, Nat.add_assoc]
    · rw [show runIsZero p.doubleArray = true from hdz] at hc
      cases hc
  | pieces hz =>
    refine ⟨?_, fun hc => ?_, fun _ => ?_⟩
    · rw [le_put_of_disjoint (by decide)]
      exact hr.direct
    · rw [le_put_of_disjoint (by decide)]
      exact hr.indirect hc
    · simp only [Parts.runs, runsLength_append, runsLength_piecesOf, Nat.add_mul] at hlt
      have hold := hr.double hz
      simp only [Parts.runs, runsLength_append, Nat.add_mul] at hold
      rw [hold, le_put_of_lt (by omega)]
      simp only [Parts.runs, runsLength_append, runsLength_piecesOf, Nat.add_mul]
      omega
  | nothing hz hlt => exact hr

theorem Added.counted {rd : ℕ → Buf} (ha : Added g stream p run rest stream' p') (h : Shows g rd stream p)
    (ht : p.Takes g run) (hfits : ∀ r ∈ p.runs, r.length < 2 ^ 16) (hlt : runsLength p'.runs * g.blockSize < 2 ^ 64)
    (hroom : runIsZero p.doubleArray = false →
      le 8 stream DataField.kMaxIndirectRange + runsLength p'.runs * g.blockSize < 2 ^ 64)
    (hc : Counted g stream p) : Counted g stream' p' := by
  norm_num at hlt hroom
  cases ha with
  | direct hl =>
    have hdz : runIsZero p.doubleArray = true := by
      by_contra hc
      have := h.directFull (h.indirectFull (by simpa using hc)).1
      omega
    rw [Parts.Takes, if_pos hl] at ht
    have hlast : ∀ last, lastBefore DataField.kDirectCount p.direct = some last → last.length < 2 ^ 16 := by
      intro last hlast
      obtain ⟨-, hpos, rfl⟩ := lastBefore_eq_some hlast
      exact hfits _ (by simp [Parts.runs])
    have hlen := (runsLength_addRun_iff hlast).mpr ht
    simp only [Parts.runs, runsLength_append, hlen, Nat.add_mul] at hlt
    refine ⟨?_, fun hz => ?_⟩
    · rw [hc.direct, le_put_of_lt (by omega), hlen, Nat.add_mul]
    · rw [show runIsZero p.doubleArray = true from hdz] at hz
      cases hz
  | indirect hd hz hl =>
    have hdz : runIsZero p.doubleArray = true := by
      by_contra hc
      have := (h.indirectFull (by simpa using hc)).2
      omega
    refine ⟨?_, fun hz => ?_⟩
    · rw [le_put_of_disjoint (by decide)]
      exact hc.direct
    · rw [show runIsZero p.doubleArray = true from hdz] at hz
      cases hz
  | pieces hz =>
    have hroom := hroom hz
    have hsizes := runsLength_of_sizes h.double.sizes
    simp only [Parts.runs, runsLength_append, runsLength_piecesOf, hsizes, Nat.add_mul, Nat.mul_assoc] at hroom
    refine ⟨?_, fun _ => ?_⟩
    · rw [le_put_of_disjoint (by decide)]
      exact hc.direct
    · have hcount : (piecesOf g.unit run (run.length / g.unit)).length = run.length / g.unit := by simp [piecesOf]
      rw [hc.slotted hz, le_put_of_lt (by rw [Nat.mul_assoc (run.length / g.unit)]; norm_num; omega),
        le_put_of_disjoint (by decide)]
      simp only [List.length_append, hcount, Nat.add_mul, Nat.mul_assoc, Nat.add_assoc]
  | nothing hz hlt => exact hc

end

/-! ## One run of `grow_to` -/

def Spacious (g : Geometry) (s : Writer Session) : Prop :=
  le 8 s.stream DataField.kMaxIndirectRange + g.numBlocks * g.blockSize < 2 ^ 63

section
variable {g : Geometry} {s s' : Writer Session} {run : Run} {rest : ℕ} {p p' : Parts}

theorem Live.keep (h : Live g s p) (hs : Sane g s'.world) (hu : ∀ b ∈ p.blocks g ++ p.arrayBlocks g, s'.world.inUse b = true)
    (hr : ∀ b ∈ p.arrayBlocks g, ∀ i < g.blockSize, readBlock s'.world b i = readBlock s.world b i)
    (hst : s'.stream = s.stream) : Live g s' p where
  sane := hs
  on := h.on
  apart := h.apart
  marked b hb := ⟨(h.marked b hb).1, hu b (List.mem_append_right _ hb)⟩
  shows := hst ▸ h.shows.congr hr
  above := h.above
  data := h.data
  distinct := h.distinct
  inUse b hb := ⟨(h.inUse b hb).1, hu b (List.mem_append_left _ hb)⟩

theorem Live.all_inUse (h : Live g s p) {b : ℕ} (hb : b ∈ p.blocks g ++ p.arrayBlocks g) :
    b < g.numBlocks ∧ g.numAgs < b ∧ s.world.inUse b = true := by
  rcases List.mem_append.mp hb with hb | hb
  · exact ⟨h.blocks_lt hb, h.inUse b hb⟩
  · exact ⟨h.toArrays.lt hb, h.marked b hb⟩

theorem Live.spared {written : ℕ → Prop} (h : Live g s p) (hsp : Preserves g written s s')
    (hw : ∀ b ∈ p.arrayBlocks g, ¬written b) (hst : s'.stream = s.stream) : Live g s' p := by
  refine h.keep hsp.sane (fun b hb => ?_) (fun b hb i hi => ?_) hst
  · obtain ⟨hlt, -, hu⟩ := h.all_inUse hb
    exact hsp.used b hlt hu
  · exact hsp.read b (h.toArrays.lt hb) (h.marked b hb).1 (h.marked b hb).2 (hw b hb) i hi

theorem Live.appended (h : Live g s p) (hg : g.Single) (hrun : run.On g) (ht : p.Takes g run)
    (hfresh : ∀ b ∈ g.runBlocks run, b ∉ p.blocks g ++ p.arrayBlocks g)
    (hmark : ∀ b ∈ g.runBlocks run, g.numAgs < b ∧ s.world.inUse b = true) (hr : Grew g s s' p run rest) :
    ∃ p', Live g s' p' ∧ p'.blocks g = p.blocks g ++ (g.runBlocks run).take (run.length - rest) ∧
      (Ranged g s.stream p → Ranged g s'.stream p') ∧
      (Spacious g s → Counted g s.stream p → Counted g s'.stream p') ∧ Steps g (· ∈ p.arrayBlocks g) s s' ∧
      ∀ b ∈ p'.arrayBlocks g, b ∈ p.arrayBlocks g ∨ s.world.inUse b = false := by
  obtain ⟨stream₁, p₁, p', rd, hop, hsh, hadd, hph⟩ := hr
  have hdata₁ : ∀ r ∈ p₁.runs, r.On g := by rw [hop.runs_eq]; exact h.data
  have hdata := hadd.on hg hrun (hop.takes_iff.mpr ht) hdata₁
  have hblocks : p'.blocks g = p.blocks g ++ (g.runBlocks run).take (run.length - rest) := by
    rw [hadd.blocks hsh hrun (hop.takes_iff.mpr ht), Parts.blocks, Parts.blocks, hop.runs_eq]
  obtain ⟨new, hperm, hnd, hnew⟩ := hph.arrays
  have hinUse : ∀ b ∈ p'.blocks g, s.world.inUse b = true ∧ b < g.numBlocks ∧ g.numAgs < b := by
    intro b hb
    rw [hblocks] at hb
    rcases List.mem_append.mp hb with hb | hb
    · exact ⟨(h.inUse b hb).2, h.blocks_lt hb, (h.inUse b hb).1⟩
    · have hb := List.mem_of_mem_take hb
      exact ⟨(hmark b hb).2, hrun.lt hb, (hmark b hb).1⟩
  have habove : ∀ r ∈ p'.runs, 0 < g.toBlock r := fun r hr => Nat.zero_lt_of_lt
    (hinUse _ (List.mem_flatMap.mpr ⟨r, hr, Geometry.mem_runBlocks.mpr ⟨Nat.le_refl _, Nat.lt_add_of_pos_right (hdata r hr).pos⟩⟩)).2.2
  -- the blocks of the arrays that came were not in use before
  have hdistinct : (p'.blocks g ++ p'.arrayBlocks g).Nodup := by
    refine (hperm.append_left (p'.blocks g)).nodup_iff.mpr ?_
    rw [← List.append_assoc, hblocks]
    obtain ⟨hd₁, hd₂, hd₃⟩ := List.nodup_append.mp h.distinct
    have htake : ((g.runBlocks run).take (run.length - rest)).Nodup := (g.nodup_runBlocks run).sublist (List.take_sublist _ _)
    have hold : (p.blocks g ++ (g.runBlocks run).take (run.length - rest) ++ p.arrayRuns.flatMap g.runBlocks).Nodup := by
      refine List.nodup_append.mpr ⟨List.nodup_append.mpr ⟨hd₁, htake, fun b hb c hc he => ?_⟩, hd₂, fun b hb c hc he => ?_⟩
      · subst he
        exact hfresh b (List.mem_of_mem_take hc) (List.mem_append_left _ hb)
      · subst he
        rcases List.mem_append.mp hb with hb | hb
        · exact hd₃ b hb b hc rfl
        · exact hfresh b (List.mem_of_mem_take hb) (List.mem_append_right _ hc)
    refine List.nodup_append.mpr ⟨hold, hnd, fun b hb c hc he => ?_⟩
    subst he
    have hused : s.world.inUse b = true := by
      rcases List.mem_append.mp hb with hb | hb
      · exact (hinUse b (hblocks ▸ hb)).1
      · exact (h.marked b hb).2
    rw [(hnew b hc).2.2.1] at hused
    cases hused
  have hlive : Live g s' p' := ⟨hph.held h.toHeld habove, hdata, hdistinct, fun b hb =>
    ⟨(hinUse b hb).2.2, hph.steps.used b (hinUse b hb).2.1 (hinUse b hb).1⟩⟩
  have hfits : ∀ r ∈ p₁.runs, r.length < 2 ^ 16 := fun r hr => (hdata₁ r hr).fits.length
  refine ⟨p', hlive, hblocks, fun hr => ?_, fun hsp hc => ?_, hph.steps, fun b hb =>
    (List.mem_append.mp (hperm.mem_iff.mp hb)).imp id fun hb => (hnew b hb).2.2.1⟩
  · exact hadd.ranged hsh (hop.takes_iff.mpr ht) hfits (hlive.bytes_lt hg) (hop.ranged h.shows hr)
  · refine hadd.counted hsh (hop.takes_iff.mpr ht) hfits (hlive.bytes_lt hg) (fun hz => ?_) (hop.counted h.shows hc)
    have hle := Nat.mul_le_mul_right g.blockSize hlive.length_le
    rw [Spacious] at hsp
    rw [hop.indirect_range hz]
    omega

def tailOf (run : Run) (rest : ℕ) : Run :=
  { run with start := (run.start + (run.length - rest)) % 2 ^ 16, length := rest % 2 ^ 16 }

/-- One run of `grow_to`: the run, how much of it was left over, and the least length the
    next run must have. -/
def growRun (want minUnit : ℕ) : W (Run × ℕ × ℕ) := do
  let run ← Writer.allocate want minUnit
  .check (decide ¬(1 < minUnit ∧ run.length < minUnit))
  let s ← .get
  zeroRun run
  let rest ← Writer.appendRun run
  .when (rest ≠ 0) (.ignore (Writer.free (tailOf run rest)))
  pure (run, rest, if rest ≠ 0 then s.doubleIndirectBlocks else 1)

theorem tailOf_on (hg : g.Single) (hrun : run.On g) (h₀ : rest ≠ 0) (hle : rest ≤ run.length) :
    (tailOf run rest).On g ∧ g.runBlocks (tailOf run rest) = (g.runBlocks run).drop (run.length - rest) := by
  have hspan : 2 ^ g.agShift ≤ 2 ^ 16 := Nat.pow_le_pow_right (by norm_num) hg.shift
  have hin := hrun.inside
  have hlen := hrun.fits.length
  have heq : tailOf run rest = run.back (run.length - rest) := by
    rw [tailOf, Run.back, Nat.mod_eq_of_lt (by omega), Nat.mod_eq_of_lt (by omega), Nat.sub_sub_self hle]
  rw [heq]
  exact ⟨hrun.back hg.shift (by omega), runBlocks_back hrun (by omega)⟩

theorem Added.rest_le {stream stream' : Buf} (h : Added g stream p run rest stream' p') : rest ≤ run.length := by
  cases h with
  | direct => exact Nat.zero_le _
  | indirect => exact Nat.zero_le _
  | pieces => exact Nat.mod_le _ _
  | nothing => exact Nat.le_refl _

/-- What `grow_to` did, or a part of it. -/
structure Gained (g : Geometry) (s s' : Writer Session) (p : Parts) (new : List ℕ) (p' : Parts) : Prop where
  live : Live g s' p'
  blocks : p'.blocks g = p.blocks g ++ new
  preserves : Preserves g (· ∈ p.arrayBlocks g) s s'
  arrays : ∀ b ∈ p'.arrayBlocks g, b ∈ p.arrayBlocks g ∨ s.world.inUse b = false

theorem Gained.refl (h : Live g s p) : Gained g s s p [] p :=
  ⟨h, by rw [List.append_nil], .refl h.sane, fun _ hb => Or.inl hb⟩

theorem Gained.trans {s'' : Writer Session} {p'' : Parts} {new new' : List ℕ} (h : Gained g s s' p new p')
    (h' : Gained g s' s'' p' new' p'') : Gained g s s'' p (new ++ new') p'' where
  live := h'.live
  blocks := by rw [h'.blocks, h.blocks, List.append_assoc]
  preserves := h.preserves.trans h'.preserves fun b hu hb => (h.arrays b hb).resolve_right (by rw [hu]; decide)
  arrays b hb := by
    rcases h'.arrays b hb with hb | hb
    · exact h.arrays b hb
    · refine Or.inr ?_
      cases hu : s.world.inUse b
      · rfl
      · rw [h.preserves.used b (h'.live.all_inUse (List.mem_append_right _ ‹_›)).1 hu] at hb
        cases hb

theorem Live.growRun {want minUnit next : ℕ} (h : Live g s p) (hg : g.Single) (hc : Counted g s.stream p)
    (hcap : want ≤ Allocator.kMaxRun) (hrun : growRun want minUnit s = (some (run, rest, next), s')) (ht : p.Takes g run) :
    ∃ p', Gained g s s' p ((g.runBlocks run).take (run.length - rest)) p' ∧
      (Ranged g s.stream p → Ranged g s'.stream p') ∧ (Spacious g s → Counted g s'.stream p') := by
  unfold Bfs.growRun at hrun
  obtain ⟨run', s₁, h₁, hrun⟩ := bind_eq_some hrun
  obtain ⟨-, hrun⟩ := check_bind_eq_some hrun
  rw [get_bind_run] at hrun
  obtain ⟨u₂, s₂, h₂, hrun⟩ := bind_eq_some hrun
  obtain ⟨rest', s₃, h₃, hrun⟩ := bind_eq_some hrun
  obtain ⟨u₄, s₄, h₄, hrun⟩ := bind_eq_some hrun
  cases hrun
  obtain ⟨hb₁, hgr, hf⟩ := Writer.allocate_some h₁ hg h.sane hcap
  have habove : ∀ b ∈ g.runBlocks run, g.numAgs < b := fun b hb => hgr.above h.sane hb
  have hbl := zeroRun_some h₂ hg (hgr.sane h.sane) habove
  -- no block in use was written so far
  have hno : ∀ b ∈ g.runBlocks run, s.world.inUse b ≠ true := fun b hb => by rw [hgr.free b hb]; decide
  have hsp₂ : Preserves g (fun _ => False) s s₂ :=
    Preserves.trans (Steps.preserves (hgr.steps h.sane hf)) hbl.preserves fun b hu hb => hno b hb hu
  have hst₂ : s₂.stream = s.stream := by rw [hbl.buffers, hb₁]
  have hl₂ : Live g s₂ p := h.spared hsp₂ (fun _ _ => id) hst₂
  have hc₂ : Counted g s₂.stream p := hst₂ ▸ hc
  have hsp₀ : Spacious g s → Spacious g s₂ := fun h => by rw [Spacious, hst₂]; exact h
  have hfresh : ∀ b ∈ g.runBlocks run, b ∉ p.blocks g ++ p.arrayBlocks g :=
    fun b hb hc => hno b hb (h.all_inUse hc).2.2
  have hmark : ∀ b ∈ g.runBlocks run, g.numAgs < b ∧ s₂.world.inUse b = true := fun b hb =>
    ⟨habove b hb, by rw [hbl.inUse b (hgr.on.lt hb)]; exact hgr.marked hb⟩
  have hgrew := hl₂.toHeld.appendRun hg hc₂.slotted hgr.on h₃
  have hle : rest ≤ run.length := by
    obtain ⟨_, _, _, _, -, -, hadd, -⟩ := hgrew
    exact hadd.rest_le
  obtain ⟨p', hl₃, hblocks, hranged, hcounted, hsteps, hnew⟩ := hl₂.appended hg hgr.on ht hfresh hmark hgrew
  have hsp₃ : Preserves g (· ∈ p.arrayBlocks g) s s₃ :=
    ((Preserves.refl h.sane).trans hsp₂ fun _ _ => False.elim).trans hsteps.preserves fun _ _ hb => hb
  have harrays : ∀ b ∈ p'.arrayBlocks g, b ∈ p.arrayBlocks g ∨ s.world.inUse b = false := by
    intro b hb
    refine (hnew b hb).imp_right fun hb' => ?_
    cases hu : s.world.inUse b
    · rfl
    · rw [hsp₂.used b (hl₃.all_inUse (List.mem_append_right _ hb)).1 hu] at hb'
      cases hb'
  refine ⟨p', ?_⟩
  rcases when_eq_some h₄ with ⟨hne, h₄⟩ | ⟨-, rfl⟩
  · have hend : Writer.free (tailOf run rest) s₃ = ((Writer.free (tailOf run rest) s₃).1, s') := by
      cases h₄
      rfl
    obtain ⟨hon, htail⟩ := tailOf_on hg hgr.on hne hle
    obtain ⟨hb, hbeyond, hother⟩ := Writer.free_any hend hg hl₃.sane hon
    have hbits : ∀ b ≤ g.numAgs, b ∉ g.runBlocks (tailOf run rest) := fun b hle hc => by
      rw [htail] at hc
      have := habove b (List.mem_of_mem_drop hc)
      omega
    have hsane : Sane g s'.world :=
      ⟨hbeyond.ok, hbeyond.geometry, fun b hle => by rw [hother b (hbits b hle)]; exact hl₃.sane.bitmap b hle⟩
    -- the tail is not the stream's
    have hapart : ∀ b ∈ p'.blocks g ++ p'.arrayBlocks g, b ∉ g.runBlocks (tailOf run rest) := by
      intro b hb hc
      rw [htail] at hc
      have hin := List.mem_of_mem_drop hc
      rcases List.mem_append.mp hb with hb | hb
      · rw [hblocks] at hb
        rcases List.mem_append.mp hb with hb | hb
        · exact hfresh b hin (List.mem_append_left _ hb)
        · have hnd := g.nodup_runBlocks run
          rw [← List.take_append_drop (run.length - rest) (g.runBlocks run)] at hnd
          exact (List.nodup_append.mp hnd).2.2 b hb b hc rfl
      · rcases hnew b hb with hb | hb
        · exact hfresh b hin (List.mem_append_right _ hb)
        · rw [(hmark b hin).2] at hb
          cases hb
    have hstr : s'.stream = s₃.stream := by rw [hb]
    refine ⟨⟨hl₃.keep hsane (fun b hb => ?_) (fun b hb i hi => hbeyond.read b (hl₃.marked b hb).1 i hi) hstr, hblocks,
      ⟨hsane, fun b hlt hu => ?_, fun b hlt ha hu hn i hi => ?_, fun b hlt ha hu hn => ?_⟩, harrays⟩,
      fun hr => hstr ▸ hranged (hst₂ ▸ hr), fun hsp => hstr ▸ hcounted (hsp₀ hsp) hc₂⟩
    · rw [hother b (hapart b hb)]
      exact (hl₃.all_inUse hb).2.2
    · rw [hother b fun hc => hno b (List.mem_of_mem_drop (htail ▸ hc)) hu]
      exact hsp₃.used b hlt hu
    · rw [hbeyond.read b ha i hi]
      exact hsp₃.read b hlt ha hu hn i hi
    · rw [hbeyond.peek b ha]
      exact hsp₃.peek b hlt ha hu hn
  · exact ⟨⟨hl₃, hblocks, hsp₃, harrays⟩, fun hr => hranged (hst₂ ▸ hr), fun hsp => hcounted (hsp₀ hsp) hc₂⟩

theorem growFrom_succ_some {needed fuel covered minUnit : ℕ} {u : Unit}
    (h : Writer.growFrom needed (fuel + 1) covered minUnit s = (some u, s')) :
    needed ≤ covered ∧ s' = s ∨ covered < needed ∧ ∃ run rest next s₁,
      growRun (min (max (needed - covered) minUnit) 65535) minUnit s = (some (run, rest, next), s₁) ∧
        Writer.growFrom needed fuel (covered + (run.length - rest)) next s₁ = (some u, s') := by
  unfold Writer.growFrom at h
  split at h
  · cases h
    exact Or.inl ⟨‹_›, rfl⟩
  · refine Or.inr ⟨by omega, ?_⟩
    dsimp only at h
    obtain ⟨run, s₁, h₁, h⟩ := bind_eq_some h
    split at h
    · obtain ⟨u', s₂, -, h⟩ := bind_eq_some h
      cases h
    · rename_i hno
      rw [get_bind_run] at h
      obtain ⟨u₂, s₂, h₂, h⟩ := bind_eq_some h
      obtain ⟨rest, s₃, h₃, h⟩ := bind_eq_some h
      obtain ⟨u₄, s₄, h₄, h⟩ := bind_eq_some h
      refine ⟨run, rest, _, s₄, ?_, h⟩
      have hz : zeroRun run s₁ = (some u₂, s₂) := h₂
      have ht : Fallible.when (rest ≠ 0) (.ignore (Writer.free (tailOf run rest))) s₃ = (some u₄, s₄) := h₄
      unfold growRun
      rw [bind_of_some h₁, decide_eq_true hno]
      rw [show check true = pure () from rfl, pure_bind_run, get_bind_run, bind_of_some hz, bind_of_some (onFail_eq_some h₃), bind_of_some ht]
      rfl

/-- What holds of every run that `grow_to` appends, in the state it is asked for. -/
def EachRun (P : Writer Session → Run → Prop) (needed : ℕ) : ℕ → ℕ → ℕ → Writer Session → Prop
  | 0, _, _, _ => True
  | fuel + 1, covered, minUnit, s => covered < needed → ∀ run rest next s',
      growRun (min (max (needed - covered) minUnit) 65535) minUnit s = (some (run, rest, next), s') →
        P s run ∧ EachRun P needed fuel (covered + (run.length - rest)) next s'

/-- The run can be told in the length of the one it joins. -/
def Fitting (g : Geometry) (s : Writer Session) (run : Run) : Prop := ∀ p, Held g s p → p.Takes g run

theorem Live.growFrom {P : Writer Session → Run → Prop} {J : Buf → Parts → Prop} {needed fuel covered minUnit : ℕ} {u : Unit}
    (hstep : ∀ s s' p want minUnit run rest next, want ≤ Allocator.kMaxRun → Live g s p → J s.stream p → P s run →
      Bfs.growRun want minUnit s = (some (run, rest, next), s') → ∃ p' new, Gained g s s' p new p' ∧ J s'.stream p')
    (h : Live g s p) (hJ : J s.stream p) (hrun : Writer.growFrom needed fuel covered minUnit s = (some u, s'))
    (ht : EachRun P needed fuel covered minUnit s) : ∃ p' new, Gained g s s' p new p' ∧ J s'.stream p' := by
  induction fuel generalizing s p covered minUnit with
  | zero => cases hrun
  | succ fuel ih =>
    rcases growFrom_succ_some hrun with ⟨-, rfl⟩ | ⟨hlt, run, rest, next, s₁, h₁, hrest⟩
    · exact ⟨p, [], .refl h, hJ⟩
    · obtain ⟨hP, ht⟩ := ht hlt run rest next s₁ h₁
      obtain ⟨p₁, new, hgain, hJ₁⟩ := hstep s s₁ p _ minUnit run rest next (Nat.min_le_right _ _) h hJ hP h₁
      obtain ⟨p', new', hmore, hJ'⟩ := ih hgain.live hJ₁ hrest ht
      exact ⟨p', _, hgain.trans hmore, hJ'⟩

end

end Aegir.Bfs
