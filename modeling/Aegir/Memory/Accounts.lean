/-
  What is counted for a user is what the user holds.

  `total s user` is the bytes of a user's live chunks.  `Kept` is the invariant of the serve
  loop: from the read of the configuration on, each user's count is that total.
-/
import Aegir.Memory.Service
import Aegir.Lib.Table

namespace Aegir.Memory

open Aegir.Ipc Aegir.Lib

/-! ## Sums over a table -/

theorem sum_map_set {α : Type} (f : α → ℕ) {l : List α} {i : ℕ} {a : α} (b : α) (h : l[i]? = some a) :
    ((l.set i b).map f).sum + f a = (l.map f).sum + f b := by
  have hsum := ((set_perm h b).map f).sum_eq
  rw [List.map_cons, List.map_cons, List.sum_cons, List.sum_cons] at hsum
  omega

theorem sum_map_le {α : Type} {f : α → ℕ} {l : List α} {n : ℕ} (h : ∀ a ∈ l, f a ≤ n) :
    (l.map f).sum ≤ l.length * n := by
  induction l with
  | nil => exact Nat.zero_le _
  | cons a l ih =>
    have ha := h a List.mem_cons_self
    have hl := ih fun b hb => h b (List.mem_cons_of_mem _ hb)
    rw [List.map_cons, List.sum_cons, List.length_cons, Nat.succ_mul]
    omega

/-! ## Limits -/

/-- What the rules seen so far come to: nothing said of the user, or the amount of the first rule
    that no other is more specific than. -/
theorem foldl_consider (rules : List Rule) (user klass : List UInt8) (action : Action) :
    let r := rules.foldl (consider user klass action) (0, ⟨false, 0⟩)
    (∀ q ∈ rules, q.action = action → score user klass q.subject ≤ r.1) ∧
      ((r.1 = 0 ∧ r.2 = ⟨false, 0⟩) ∨
        ∃ before q after, rules = before ++ q :: after ∧ q.action = action ∧ 0 < r.1 ∧ score user klass q.subject = r.1 ∧
          r.2 = ⟨true, q.amount⟩ ∧ ∀ q' ∈ before, q'.action = action → score user klass q'.subject < r.1) := by
  induction rules using List.reverseRecOn with
  | nil => exact ⟨fun q hq => absurd hq List.not_mem_nil, Or.inl ⟨rfl, rfl⟩⟩
  | append_singleton rules q ih =>
    obtain ⟨best, hbest⟩ : ∃ best, best = rules.foldl (consider user klass action) (0, ⟨false, 0⟩) := ⟨_, rfl⟩
    simp only [List.foldl_append, List.foldl_cons, List.foldl_nil, ← hbest, List.mem_append, List.mem_singleton] at ih ⊢
    obtain ⟨hle, hcase⟩ := ih
    have hkept : best.1 = 0 ∧ best.2 = ⟨false, 0⟩ ∨ ∃ before q₁ after, rules ++ [q] = before ++ q₁ :: after ∧
        q₁.action = action ∧ 0 < best.1 ∧ score user klass q₁.subject = best.1 ∧ best.2 = ⟨true, q₁.amount⟩ ∧
        ∀ q' ∈ before, q'.action = action → score user klass q'.subject < best.1 := by
      refine hcase.imp_right ?_
      rintro ⟨before, q₁, after, rfl, hrest⟩
      exact ⟨before, q₁, after ++ [q], by rw [List.append_assoc]; rfl, hrest⟩
    unfold consider
    split
    · rename_i hother
      refine ⟨fun q' hq' ha => ?_, hkept⟩
      rcases hq' with hq' | rfl
      · exact hle q' hq' ha
      · exact absurd ha hother
    · rename_i hsame
      split
      · rename_i hlt
        refine ⟨fun q' hq' ha => ?_, Or.inr ⟨rules, q, [], rfl, not_not.1 hsame, Nat.zero_lt_of_lt hlt, rfl, rfl,
          fun q' hq' ha => Nat.lt_of_le_of_lt (hle q' hq' ha) hlt⟩⟩
        rcases hq' with hq' | rfl
        · exact Nat.le_trans (hle q' hq' ha) (Nat.le_of_lt hlt)
        · exact Nat.le_refl _
      · rename_i hge
        refine ⟨fun q' hq' ha => ?_, hkept⟩
        rcases hq' with hq' | rfl
        · exact hle q' hq' ha
        · exact Nat.not_lt.1 hge

/-- **What a user is allowed** is the amount of the first of the rules about them that no other is
    more specific than, or nothing is said of them. -/
theorem resolve_spec (rules : List Rule) (user klass : List UInt8) (action : Action) :
    (resolve rules user klass action = ⟨false, 0⟩ ∧
        ∀ q ∈ rules, q.action = action → score user klass q.subject = 0) ∨
      ∃ before q after, rules = before ++ q :: after ∧ q.action = action ∧ 0 < score user klass q.subject ∧
        resolve rules user klass action = ⟨true, q.amount⟩ ∧
        (∀ q' ∈ before, q'.action = action → score user klass q'.subject < score user klass q.subject) ∧
        ∀ q' ∈ after, q'.action = action → score user klass q'.subject ≤ score user klass q.subject := by
  obtain ⟨hle, ⟨hzero, hnone⟩ | ⟨before, q, after, rfl, haction, hpos, hscore, hset, hbefore⟩⟩ :=
    foldl_consider rules user klass action
  · exact Or.inl ⟨hnone, fun q hq ha => Nat.le_zero.1 (hzero ▸ hle q hq ha)⟩
  · refine Or.inr ⟨before, q, after, rfl, haction, hscore.symm ▸ hpos, hset, hscore.symm ▸ hbefore, fun q' hq' ha => ?_⟩
    rw [hscore]
    exact hle q' (List.mem_append_right _ (List.mem_cons_of_mem _ hq')) ha

/-! ## What a user holds -/

def share (user : ℕ) (c : Chunk) : ℕ :=
  if c.cap ≠ 0 ∧ isUserBadge c.owner = true ∧ userIndex c.owner = user then 2 ^ c.bits else 0

namespace Service

def total (s : Service) (user : ℕ) : ℕ := (s.chunks.map (share user)).sum

/-- The read that a call gives cause to, if any, meets no chunk of a user of its database. -/
def Fits (s : Service) (m : Received) : Prop :=
  ∀ c, s.loads m = some c → ∀ k ∈ s.chunks, k.cap ≠ 0 → isUserBadge k.owner = true →
    c.users.length ≤ userIndex k.owner

end Service

/-- The invariant of the serve loop, after the calls of `read`. -/
structure Kept (read : List Received) (s : Service) : Prop where
  length : s.chunks.length = kMaxChunks
  pool : s.poolBits ≤ 47
  narrow : ∀ c ∈ s.chunks, c.cap ≠ 0 → c.bits ≤ s.poolBits
  unread : s.rules = none → s.userCount = 0
  counted : ∀ user < s.userCount, ∃ cs, s.committed = some cs ∧ cs[user]? = some (s.total user)
  resolved : s.userCount ≠ 0 → ∃ m ∈ read, ∃ c, m.config = some c ∧ s.userCount = c.users.length ∧
    s.rules = some (c.users.map fun u => ⟨resolve c.rules u.name u.klass .log, resolve c.rules u.name u.klass .deny⟩)

section
variable {read : List Received} {s : Service} {m : Received} {c : Chunk} {user owner i : ℕ}

theorem share_free (h : c.cap = 0) : share user c = 0 := if_neg fun hc => hc.1 h

theorem share_le {bits : ℕ} (h : c.cap ≠ 0 → c.bits ≤ bits) : share user c ≤ 2 ^ bits := by
  unfold share
  split
  · rename_i hc
    exact Nat.pow_le_pow_right (by omega) (h hc.1)
  · exact Nat.zero_le _

theorem Kept.total_le (h : Kept read s) (user : ℕ) : s.total user ≤ 2 ^ 58 := by
  have hle := sum_map_le (f := share user) (n := 2 ^ 47) fun c hc =>
    share_le fun hcap => Nat.le_trans (h.narrow c hc hcap) h.pool
  rw [h.length] at hle
  exact hle

theorem Kept.committedOf (h : Kept read s) (hu : user < s.userCount) : s.committedOf user = s.total user := by
  obtain ⟨cs, hcs, hat⟩ := h.counted user hu
  rw [Service.committedOf, hcs, Option.bind_some, hat, Option.getD_some]

/-! ## The read -/

theorem Service.total_eq_zero (h : ∀ c ∈ s.chunks, c.cap ≠ 0 → isUserBadge c.owner = true → userIndex c.owner ≠ user) :
    s.total user = 0 := by
  have hzero : ∀ c ∈ s.chunks, share user c = 0 := fun c hc => if_neg fun hs => h c hc hs.1 hs.2.1 hs.2.2
  rw [total, List.map_congr_left hzero]
  simp

/-- **The read** keeps the counts where no user of the database holds a chunk. -/
theorem Kept.ready (h : Kept read s) (hf : s.Fits m) : Kept (read ++ [m]) (s.ready m) := by
  have hsame : Kept (read ++ [m]) s := ⟨h.length, h.pool, h.narrow, h.unread, h.counted, fun hu => by
    obtain ⟨m', hm', hc⟩ := h.resolved hu
    exact ⟨m', List.mem_append_left _ hm', hc⟩⟩
  cases hl : s.loads m with
  | none =>
    rw [Service.ready, hl]
    exact hsame
  | some c =>
    have hfits := hf c hl
    obtain ⟨hrules, hconfig⟩ : s.rules = none ∧ m.config = some c := by
      unfold Service.loads at hl
      split at hl
      · rename_i hc
        exact ⟨hc.1, hl⟩
      · cases hl
    have hzero : s.userCount = 0 := h.unread hrules
    rw [Service.ready, hl, Option.map_some, Option.getD_some, Service.loadConfig]
    split
    · exact hsame
    · split
      · refine ⟨h.length, h.pool, h.narrow, (fun hn => by cases hn), fun user hu => ?_, fun _ => ?_⟩
        · refine ⟨_, rfl, ?_⟩
          have htotal : s.total user = 0 := Service.total_eq_zero fun k hk hcap hbadge heq => by
            have hle := hfits k hk hcap hbadge
            rw [heq] at hle
            exact absurd hu (Nat.not_lt.2 hle)
          rw [List.getElem?_map, List.getElem?_eq_getElem hu]
          exact congrArg some htotal.symm
        · exact ⟨m, List.mem_append_right _ List.mem_cons_self, c, hconfig, rfl, rfl⟩
      · exact ⟨h.length, h.pool, h.narrow, fun _ => hzero, fun user hu => absurd (hzero ▸ hu) (Nat.not_lt_zero _),
          fun hu => absurd hzero hu⟩

/-! ## An allocation -/

theorem Service.free_chunk (hf : s.chunkFree < s.chunks.length) :
    ∃ c, s.chunks[s.chunkFree]? = some c ∧ c.cap = 0 := by
  have hp := List.findIdx_getElem (p := fun c : Chunk => decide (c.owner = 0 ∧ c.cap = 0))
    (w := hf)
  exact ⟨_, List.getElem?_eq_getElem hf, (of_decide_eq_true hp).2⟩

theorem Kept.limited_iff (h : Kept read s) (badge : ℕ) :
    s.limited badge = true ↔ isUserBadge badge = true ∧ userIndex badge < s.userCount := by
  have hrules : userIndex badge < s.userCount → s.rules.isSome = true := fun hlt => by
    rcases hr : s.rules with _ | rules
    · rw [h.unread hr] at hlt
      exact absurd hlt (Nat.not_lt_zero _)
    · rfl
  rw [Service.limited, Bool.and_eq_true, Bool.and_eq_true, decide_eq_true_eq]
  exact ⟨fun hl => ⟨hl.1, hl.2.1⟩, fun hl => ⟨hl.1, hl.2, hrules hl.2⟩⟩

theorem Kept.total_record (h : Kept read s) (hf : s.chunkFree ≠ kMaxChunks) (hc : m.carved ≠ 0) (user : ℕ) :
    (s.record m).total user = s.total user +
      if isUserBadge m.badge = true ∧ userIndex m.badge = user then 2 ^ Service.wantedBits m else 0 := by
  have hlt : s.chunkFree < s.chunks.length := by
    have hle : s.chunkFree ≤ s.chunks.length := List.findIdx_le_length
    rw [h.length] at hle ⊢
    exact Nat.lt_of_le_of_ne hle hf
  obtain ⟨c, hat, hcap⟩ := Service.free_chunk hlt
  have hset := sum_map_set (share user) ⟨m.carved, m.badge, Service.wantedBits m⟩ hat
  rw [share_free hcap, Nat.add_zero] at hset
  rw [Service.total, Service.total]
  refine hset.trans (congrArg _ ?_)
  simp only [share, hc, ne_eq, not_false_eq_true, true_and]

theorem Kept.record (h : Kept read s) (hf : s.chunkFree ≠ kMaxChunks) (hc : m.carved ≠ 0)
    (hb : Service.wantedBits m ≤ s.poolBits) : Kept read (s.record m) := by
  refine ⟨(List.length_set).trans h.length, h.pool, fun c hm hcap => ?_, h.unread, fun user hu => ?_, h.resolved⟩
  · rcases List.mem_or_eq_of_mem_set hm with hm | rfl
    · exact h.narrow c hm hcap
    · exact hb
  · obtain ⟨cs, hcs, hat⟩ := h.counted user hu
    rw [h.total_record hf hc]
    have hpow : 2 ^ Service.wantedBits m ≤ 2 ^ 47 := Nat.pow_le_pow_right (by omega) (Nat.le_trans hb h.pool)
    by_cases hl : s.limited m.badge = true
    · obtain ⟨hbadge, hlt⟩ := (h.limited_iff _).1 hl
      refine ⟨cs.modify (userIndex m.badge) fun c => (c + 2 ^ Service.wantedBits m) % 2 ^ 64, ?_, ?_⟩
      · simp only [Service.record, hl, if_true, hcs, Option.map_some]
      · rw [List.getElem?_modify, hat, Option.map_eq_map, Option.map_some]
        by_cases heq : userIndex m.badge = user
        · have hle := h.total_le user
          rw [if_pos heq, if_pos ⟨hbadge, heq⟩, Nat.mod_eq_of_lt (by omega)]
        · rw [if_neg heq, if_neg fun hand => heq hand.2]
          rfl
    · have hnot : ¬ (isUserBadge m.badge = true ∧ userIndex m.badge = user) := fun hand =>
        hl ((h.limited_iff _).2 ⟨hand.1, hand.2 ▸ hu⟩)
      refine ⟨cs, ?_, by rw [if_neg hnot]; exact hat⟩
      simp only [Service.record, hl, Bool.false_eq_true, if_false, hcs]

/-- An allocation is refused with nothing changed, or its chunk is recorded; a user who is
    limited has then what the deny limit allows. -/
theorem Kept.answerAlloc (h : Kept read s) (m : Received) :
    s.answerAlloc m = (.words [], s) ∨
      ∃ answer, s.answerAlloc m = (answer, s.record m) ∧ s.chunkFree ≠ kMaxChunks ∧ m.carved ≠ 0 ∧
        Service.wantedBits m ≤ s.poolBits ∧
        (s.limited m.badge = true → (s.ruleOf (userIndex m.badge)).deny.set = true →
          s.committedOf (userIndex m.badge) + 2 ^ Service.wantedBits m ≤ (s.ruleOf (userIndex m.badge)).deny.bytes) := by
  unfold Service.answerAlloc
  dsimp only
  split
  · exact Or.inl rfl
  rename_i hbits
  split
  · exact Or.inl rfl
  rename_i hdeny
  split
  · exact Or.inl rfl
  rename_i hfree
  split
  · exact Or.inl rfl
  rename_i hcarved
  refine Or.inr ⟨_, rfl, hfree, hcarved, by omega, fun hl hset => ?_⟩
  simp only [hl, crosses, hset, Bool.true_and, Bool.or_eq_true, decide_eq_true_eq, not_or, Nat.not_lt] at hdeny
  have hcommitted := h.committedOf ((h.limited_iff _).1 hl).2
  obtain ⟨hword, hbytes⟩ := hdeny
  have hlt : s.committedOf (userIndex m.badge) + 2 ^ Service.wantedBits m < 2 ^ 64 := by
    have hle := h.total_le (userIndex m.badge)
    omega
  rwa [Nat.mod_eq_of_lt hlt] at hbytes

/-! ## A release -/

theorem Service.chunk_eq (h : (s.chunk i).cap ≠ 0) : s.chunks[i]? = some (s.chunk i) := by
  rcases hc : s.chunks[i]? with _ | c
  · rw [chunk, hc] at h
    exact absurd rfl h
  · rw [chunk, hc, Option.getD_some]

@[simp] theorem uncount_chunks (s : Service) (owner bits : ℕ) : (s.uncount owner bits).chunks = s.chunks := by
  unfold Service.uncount
  split
  · rfl
  · split <;> rfl

theorem uncount_eq (s : Service) (owner bits : ℕ) :
    s.uncount owner bits = { s with committed := (s.uncount owner bits).committed } := by
  unfold Service.uncount
  split
  · rfl
  · split <;> rfl

theorem Service.total_release (hc : (s.chunk i).cap ≠ 0) (user : ℕ) :
    (s.releaseChunk i).total user = s.total user - share user (s.chunk i) := by
  have hset := sum_map_set (share user) ⟨0, 0, 0⟩ (chunk_eq hc)
  rw [share_free (c := ⟨0, 0, 0⟩) rfl, Nat.add_zero] at hset
  rw [total, total, releaseChunk, uncount_chunks]
  exact Nat.eq_sub_of_add_eq hset

theorem uncount_counted {cs : List ℕ} {n : ℕ} (owner bits : ℕ) (hcs : s.committed = some cs) (hat : cs[user]? = some n)
    (hu : user < s.userCount) : ∃ cs', (s.uncount owner bits).committed = some cs' ∧
      cs'[user]? = some (n - if isUserBadge owner = true ∧ userIndex owner = user then 2 ^ bits else 0) := by
  unfold Service.uncount
  rw [hcs]
  by_cases howner : isUserBadge owner = true ∧ userIndex owner < s.userCount
  · refine ⟨_, congrArg Service.committed (if_pos howner), ?_⟩
    rw [List.getElem?_modify, hat, Option.map_eq_map, Option.map_some]
    by_cases heq : userIndex owner = user
    · have hbytes : (if isUserBadge owner = true ∧ userIndex owner = user then 2 ^ bits else 0) = 2 ^ bits :=
        if_pos ⟨howner.1, heq⟩
      rw [if_pos heq, hbytes]
      refine congrArg some ?_
      split <;> omega
    · rw [if_neg heq, if_neg fun hand => heq hand.2]
      rfl
  · have hnot : ¬ (isUserBadge owner = true ∧ userIndex owner = user) := fun hand => howner ⟨hand.1, hand.2 ▸ hu⟩
    refine ⟨cs, ?_, by rw [if_neg hnot]; exact hat⟩
    dsimp only
    rw [if_neg howner, hcs]

/-- **A record given back** takes its bytes off its owner's count. -/
theorem Kept.releaseChunk (h : Kept read s) (hc : (s.chunk i).cap ≠ 0) : Kept read (s.releaseChunk i) := by
  obtain ⟨s', hs'⟩ : ∃ s', s' = { s with chunks := s.chunks.set i ⟨0, 0, 0⟩ } := ⟨_, rfl⟩
  have hrel : s.releaseChunk i = s'.uncount (s.chunk i).owner (s.chunk i).bits := by rw [hs', Service.releaseChunk]
  have hfields : s.releaseChunk i = { s' with committed := (s.releaseChunk i).committed } := by
    rw [hrel]
    exact uncount_eq _ _ _
  have hcounted : ∀ user < s.userCount, ∃ cs, (s.releaseChunk i).committed = some cs ∧
      cs[user]? = some ((s.releaseChunk i).total user) := fun user hu => by
    obtain ⟨cs, hcs, hat⟩ := h.counted user hu
    have hcs' : s'.committed = some cs := by rw [hs']; exact hcs
    have hu' : user < s'.userCount := by rw [hs']; exact hu
    obtain ⟨cs', hcommitted, hat'⟩ := uncount_counted (s.chunk i).owner (s.chunk i).bits hcs' hat hu'
    refine ⟨cs', by rw [hrel]; exact hcommitted, ?_⟩
    rw [hat', Service.total_release hc, share]
    simp only [hc, ne_eq, not_false_eq_true, true_and]
  rw [hfields, hs']
  rw [hfields, hs'] at hcounted
  refine ⟨List.length_set.trans h.length, h.pool, fun c hm hcap => ?_, h.unread, hcounted, h.resolved⟩
  rcases List.mem_or_eq_of_mem_set hm with hm | rfl
  · exact h.narrow c hm hcap
  · exact absurd rfl hcap

theorem Service.releaseChunk_chunk (hc : (s.chunk i).cap ≠ 0) (j : ℕ) :
    (s.releaseChunk i).chunk j = if j = i then ⟨0, 0, 0⟩ else s.chunk j := by
  have hlt : i < s.chunks.length := (List.getElem?_eq_some_iff.1 (chunk_eq hc)).1
  rw [chunk, releaseChunk, uncount_chunks]
  split
  · rename_i heq
    rw [heq, List.getElem?_set_self hlt, Option.getD_some]
  · rename_i hne
    rw [List.getElem?_set_ne fun heq => hne heq.symm]
    rfl

/-- What is left of the records once those of an owner are given back. -/
structure Freed (is : List ℕ) (owner : ℕ) (s s' : Service) : Prop where
  kept : ∀ j, (s'.chunk j).cap ≠ 0 → s'.chunk j = s.chunk j
  gone : ∀ j ∈ is, (s'.chunk j).cap ≠ 0 → (s'.chunk j).owner ≠ owner
  count : s'.userCount = s.userCount

theorem Kept.releaseFold (owner : ℕ) (is : List ℕ) (n : ℕ) (h : Kept read s) :
    Kept read (is.foldl (Service.releaseAt owner) (n, s)).2 ∧
      Freed is owner s (is.foldl (Service.releaseAt owner) (n, s)).2 := by
  induction is generalizing s n with
  | nil => exact ⟨h, fun _ _ => rfl, fun j hj => absurd hj List.not_mem_nil, rfl⟩
  | cons i is ih =>
    rw [List.foldl_cons, Service.releaseAt]
    dsimp only
    split
    · -- the record is the owner's and is given back
      rename_i hi
      obtain ⟨hkept, hfreed⟩ := ih (n + 1) (h.releaseChunk hi.1)
      have hchunk := Service.releaseChunk_chunk hi.1
      have hcap : ∀ {s' : Service} {j}, (s'.chunk j).cap ≠ 0 → s'.chunk j = (s.releaseChunk i).chunk j → j ≠ i :=
        fun hcap heq hji => by
          rw [heq, hchunk, if_pos hji] at hcap
          exact hcap rfl
      refine ⟨hkept, fun j hj => ?_, fun j hmem hj => ?_, hfreed.count.trans ?_⟩
      · have heq := hfreed.kept j hj
        rw [heq, hchunk, if_neg (hcap hj heq)]
      · rcases List.mem_cons.1 hmem with rfl | hmem
        · exact absurd rfl (hcap hj (hfreed.kept j hj))
        · exact hfreed.gone j hmem hj
      · rw [Service.releaseChunk, uncount_eq]
    · -- it is left as it is
      rename_i hi
      obtain ⟨hkept, hfreed⟩ := ih n h
      refine ⟨hkept, hfreed.kept, fun j hmem hj => ?_, hfreed.count⟩
      rcases List.mem_cons.1 hmem with rfl | hmem
      · have heq := hfreed.kept j hj
        rw [heq] at hj ⊢
        exact fun howner => hi ⟨hj, howner⟩
      · exact hfreed.gone j hmem hj

-- the table's size is not to be counted down in unification
attribute [local irreducible] kMaxChunks

/-- **A release** keeps the counts and leaves none of the owner's records. -/
theorem Kept.releaseOwner (h : Kept read s) (owner : ℕ) :
    Kept read (s.releaseOwner owner).2 ∧ (s.releaseOwner owner).2.userCount = s.userCount ∧
      ∀ c ∈ (s.releaseOwner owner).2.chunks, c.cap ≠ 0 → c ∈ s.chunks ∧ c.owner ≠ owner := by
  have hrel : s.releaseOwner owner = (List.range kMaxChunks).foldl (Service.releaseAt owner) (0, s) := rfl
  obtain ⟨hkept, hfreed⟩ := h.releaseFold owner (List.range kMaxChunks) 0
  rw [← hrel] at hkept hfreed
  refine ⟨hkept, hfreed.count, fun c hc hcap => ?_⟩
  obtain ⟨j, hj⟩ := List.mem_iff_getElem?.1 hc
  have hchunk : (s.releaseOwner owner).2.chunk j = c := by rw [Service.chunk, hj, Option.getD_some]
  have hlt : j < kMaxChunks := by
    have hlen := (List.getElem?_eq_some_iff.1 hj).1
    rwa [hkept.length] at hlen
  have heq := hfreed.kept j (hchunk.symm ▸ hcap)
  rw [← hchunk] at hcap ⊢
  refine ⟨?_, hfreed.gone j (List.mem_range.2 hlt) hcap⟩
  have hwas : (s.chunk j).cap ≠ 0 := heq ▸ hcap
  rw [heq]
  exact List.mem_of_getElem? (Service.chunk_eq hwas)

theorem Service.answerRelease_snd (s : Service) (m : Received) :
    (s.answerRelease m).2 = (s.releaseOwner (ownerOf m)).2 := by
  have hsnd : ∀ r : ℕ × Service, ((Answer.words [r.1], r.2) : Answer × Service).2 = r.2 := fun _ => rfl
  exact hsnd (s.releaseOwner (ownerOf m))

/-! ## Runs -/

/-- **A call** keeps the counts, where the read it gives cause to fits. -/
theorem Kept.step (h : Kept read s) (hf : s.Fits m) : Kept (read ++ [m]) (s.step m).2 := by
  have hready := h.ready hf
  unfold Service.step
  dsimp only
  split
  · rcases hready.answerAlloc m with heq | ⟨answer, heq, hfree, hcarved, hbits, -⟩
    · rw [heq]
      exact hready
    · rw [heq]
      exact hready.record hfree hcarved hbits
  · split
    · rw [Service.answerRelease_snd]
      exact (hready.releaseOwner _).1
    · exact hready

end

def Fit : Service → List Received → Prop
  | _, [] => True
  | s, m :: ms => s.Fits m ∧ Fit (s.step m).2 ms

theorem Kept.run {read : List Received} {s : Service} (h : Kept read s) (ms : List Received) (hf : Fit s ms) :
    Kept (read ++ ms) (s.run ms) := by
  induction ms generalizing read s with
  | nil => rwa [List.append_nil]
  | cons m ms ih =>
    have hrun := ih (h.step hf.1) hf.2
    rwa [List.append_assoc] at hrun

theorem Boot.start_kept (b : Boot) : Kept [] b.start := by
  refine ⟨List.length_replicate, b.poolBits_le, fun c hc hcap => ?_, fun _ => rfl,
    fun user hu => absurd hu (Nat.not_lt_zero _), fun hu => absurd rfl hu⟩
  rw [(List.mem_replicate.1 hc).2] at hcap
  exact absurd rfl hcap

def releaseOwn (badge : ℕ) : Received := ⟨badge, kMethodRelease, [], none, 0, 0⟩

theorem Kept.releaseAll {read : List Received} {s : Service} {user : ℕ} (h : Kept read s) (badges : List ℕ)
    (hu : user < s.userCount)
    (hall : ∀ c ∈ s.chunks, c.cap ≠ 0 → isUserBadge c.owner = true → userIndex c.owner = user → c.owner ∈ badges) :
    (s.run (badges.map releaseOwn)).committedOf user = 0 := by
  induction badges generalizing s with
  | nil =>
    have hzero := Service.total_eq_zero fun c hc hcap hbadge heq => List.not_mem_nil (hall c hc hcap hbadge heq)
    exact (h.committedOf hu).trans hzero
  | cons b badges ih =>
    have hstep : (s.step (releaseOwn b)).2 = (s.releaseOwner b).2 := by
      have hloads : s.loads (releaseOwn b) = none := if_neg fun hc => (by decide : kMethodRelease ≠ kMethodAlloc) hc.2.1
      have hready : s.ready (releaseOwn b) = s := by rw [Service.ready, hloads, Option.map_none, Option.getD_none]
      have hturn : s.step (releaseOwn b) = s.answerRelease (releaseOwn b) := by
        rw [Service.step, hready]
        rfl
      rw [hturn, Service.answerRelease_snd]
      rfl
    obtain ⟨hkept, hcount, hleft⟩ := h.releaseOwner b
    rw [List.map_cons, Service.run, hstep]
    refine ih hkept (hcount.symm ▸ hu) fun c hc hcap hbadge heq => ?_
    obtain ⟨hmem, hne⟩ := hleft c hc hcap
    exact (List.mem_cons.1 (hall c hmem hcap hbadge heq)).resolve_left hne

/-- **The accounts are exact** in every run in which the read of the configuration meets no chunk
    of a user of its database.  Each user's count is then the bytes of the user's live chunks, and
    is far from wrapping; a user's limits are those of a configuration that was read; an
    allocation leaves a limited user within the deny limit; and a user whose badges have
    released what they hold is charged nothing. -/
theorem accounts_exact (b : Boot) (ms : List Received) (hfit : Fit b.start ms) :
    let s := b.start.run ms
    (∀ user < s.userCount, ∃ cs, s.committed = some cs ∧ cs[user]? = some (s.total user)) ∧
    (∀ user, s.total user ≤ 2 ^ 58) ∧
    (s.userCount ≠ 0 → ∃ m ∈ ms, ∃ c, m.config = some c ∧ s.userCount = c.users.length ∧
      s.rules = some (c.users.map fun u =>
        ⟨resolve c.rules u.name u.klass .log, resolve c.rules u.name u.klass .deny⟩)) ∧
    (∀ m, s.Fits m → ∀ bits physical cap logged, (s.step m).1 = .chunk bits physical cap logged →
      isUserBadge m.badge = true → userIndex m.badge < (s.step m).2.userCount →
      ((s.step m).2.ruleOf (userIndex m.badge)).deny.set = true →
      (s.step m).2.committedOf (userIndex m.badge) ≤ ((s.step m).2.ruleOf (userIndex m.badge)).deny.bytes) ∧
    ∀ user < s.userCount, ∀ badges : List ℕ,
      (∀ c ∈ s.chunks, c.cap ≠ 0 → isUserBadge c.owner = true → userIndex c.owner = user → c.owner ∈ badges) →
      (s.run (badges.map releaseOwn)).committedOf user = 0 := by
  have h : Kept ms (b.start.run ms) := b.start_kept.run ms hfit
  refine ⟨h.counted, h.total_le, h.resolved, fun m hf bits physical cap logged hchunk hbadge hu hset => ?_,
    fun user hu badges hall => h.releaseAll badges hu hall⟩
  obtain ⟨s, hs⟩ : ∃ s, s = b.start.run ms := ⟨_, rfl⟩
  rw [← hs] at h hf hchunk hu hset ⊢
  have hready := h.ready hf
  have hkept := h.step hf
  have hmethod : m.method = kMethodAlloc := by
    by_contra hne
    simp only [Service.step, if_neg hne] at hchunk
    split at hchunk <;> cases hchunk
  have hstep : s.step m = (s.ready m).answerAlloc m := by rw [Service.step, if_pos hmethod]
  rw [hstep] at hchunk hkept hu hset ⊢
  rcases hready.answerAlloc m with heq | ⟨answer, heq, hfree, hcarved, -, hdeny⟩
  · rw [heq] at hchunk
    cases hchunk
  · rw [heq] at hkept hu hset ⊢
    have hrule : (((s.ready m).record m).ruleOf (userIndex m.badge)) = (s.ready m).ruleOf (userIndex m.badge) := rfl
    have hcount : userIndex m.badge < (s.ready m).userCount := hu
    rw [hkept.committedOf hu, hready.total_record hfree hcarved, if_pos ⟨hbadge, rfl⟩, hrule]
    have hle := hdeny ((hready.limited_iff _).2 ⟨hbadge, hcount⟩) hset
    rwa [hready.committedOf hcount] at hle

/-- A pool of a gigabyte. -/
def boot : Boot := ⟨30, by decide⟩

/-- A chunk of the customary size for the first user, carved at slot `cap`. -/
def allocBy (config : Option Config) (cap : ℕ) : Received := ⟨2 ^ 62, kMethodAlloc, [], config, cap, 0⟩

def oneUser : Config := ⟨[⟨[97], []⟩], [⟨.default, .deny, 2 ^ 22⟩], true, true⟩

set_option maxRecDepth 20000 in
theorem accounts_exact_boot : (∃ cs, (boot.start.run [allocBy (some oneUser) 5]).committed = some cs ∧
      cs[0]? = some ((boot.start.run [allocBy (some oneUser) 5]).total 0)) ∧
    (boot.start.run [allocBy (some oneUser) 5]).total 0 = 2 ^ 21 := by
  have hfit : Fit boot.start [allocBy (some oneUser) 5] := by
    refine ⟨fun c _ k hk hcap _ => ?_, trivial⟩
    rw [(List.mem_replicate.1 hk).2] at hcap
    exact absurd rfl hcap
  obtain ⟨hcounted, -⟩ := accounts_exact boot [allocBy (some oneUser) 5] hfit
  exact ⟨hcounted 0 (by decide), by decide⟩

set_option maxRecDepth 20000 in
/-- A user takes a chunk before the configuration can be read and one when it can: two are held
    and one is counted. -/
theorem early_chunk_uncounted : ¬ ∀ (b : Boot) (ms : List Received), ∀ user < (b.start.run ms).userCount,
    (b.start.run ms).committedOf user = (b.start.run ms).total user := by
  intro hall
  have heq := hall boot [allocBy none 5, allocBy (some oneUser) 6] 0 (by decide)
  exact absurd heq (by decide)

end Aegir.Memory
