/-
  Every run of the timer in which each sleep fits.

  `Kept` is the invariant of the serve loop: the service keeps its sleepers, and these are the
  sleeps it took, each waiting or answered when it was due.
-/
import Aegir.Timer.Refines

namespace Aegir.Timer

open Aegir.Lib

structure Kept (w : World) (t : Sleepers) (ws : List (ℕ × Nap)) (free subs : List ℕ) : Prop
    extends Rep w t ws free subs where
  sound : t.Sound w.accepted
  distinct : (w.accepted.map (·.call)).Nodup
  past : ∀ n ∈ w.accepted, n.call < w.calls

/-! ## The start -/

section
variable (b : Boot)

theorem Boot.slots_slots : Slots (b.slots b.region0) [] ∧ (b.slots b.region0).tickNotification = 0 ∧
    (b.slots b.region0).sleeps = 0 ∧ (b.slots b.region0).sleepFree = 0 ∧ (b.slots b.region0).subs = 0 := by
  have hnone : ∀ s : Service, s.bits = [] → s.slotBase = 0 → Slots s [] := fun s hbits hbase =>
    ⟨by rw [hbits, hbase]; exact List.Perm.refl _, fun hne => absurd hbits hne, by rw [hbits, hbase]; decide⟩
  unfold Boot.slots
  split
  · rename_i hlt
    dsimp only
    rcases b.region0.regionAlloc_cases ((2 ^ b.cnodeBits - (b.firstFree + 1) + 7) / 8) with hrow | ⟨hb, hrow⟩
    · rw [hrow]
      exact ⟨hnone _ rfl rfl, rfl, rfl, rfl, rfl⟩
    · have hpow : 2 ^ b.cnodeBits ≤ 2 ^ 32 := Nat.pow_le_pow_right (by omega) (Nat.le_of_lt b.cnodeBits_lt)
      rw [hrow, if_pos hb]
      refine ⟨⟨?_, fun _ => Nat.succ_ne_zero _, ?_⟩, rfl, rfl, rfl, rfl⟩
      · dsimp only
        rw [Pool.clear_replicate, List.length_replicate]
        exact List.Perm.refl _
      · dsimp only
        rw [List.length_replicate]
        omega
  · exact ⟨hnone _ rfl rfl, rfl, rfl, rfl, rfl⟩

theorem Boot.start_kept : Kept b.start ⟨[], []⟩ [] [] [] := by
  obtain ⟨hslots, htick, hsleeps, hfree, hsubs⟩ := b.slots_slots
  have hrep : ∀ s : Service, Slots s (s.notes []) → s.sleeps = 0 → s.sleepFree = 0 → s.subs = 0 →
      Rep ⟨s, fun _ => none, 0, [], [], []⟩ ⟨[], []⟩ [] [] [] := fun s hs h₁ h₂ h₃ =>
    ⟨⟨h₁, h₂, h₃, List.Pairwise.nil, fun _ he => absurd he List.not_mem_nil⟩, rfl, hs,
      fun _ hp => absurd hp List.not_mem_nil, fun _ hp => absurd hp List.not_mem_nil,
      fun _ hne => absurd rfl hne, rfl⟩
  refine ⟨?_, Sleepers.sound_nil, List.nodup_nil, fun _ hn => absurd hn List.not_mem_nil⟩
  have hnotes : (b.slots b.region0).notes [] = [] := by
    rw [Service.notes, htick]
    rfl
  have hbare : Slots (b.slots b.region0) ((b.slots b.region0).notes []) := by
    rw [hnotes]
    exact hslots
  unfold Boot.start Boot.tick
  split
  · rcases (b.slots b.region0).slotAlloc_cases with ⟨-, hslot⟩ | ⟨i, hi, hslot⟩
    · rw [hslot]
      exact hrep _ hbare hsleeps hfree hsubs
    · rw [hslot]
      obtain ⟨htaken, -, hne⟩ := hslots.alloc hi
      refine hrep _ ?_ hsleeps hfree hsubs
      rw [Service.notes, if_neg hne]
      exact ⟨htaken.split, htaken.base, htaken.room⟩
  · exact hrep _ hbare hsleeps hfree hsubs

end

/-! ## A turn -/

section
variable {w w' : World} {t : Sleepers} {ws : List (ℕ × Nap)} {free subs : List ℕ} {m : Received} {n : Nap}

theorem Rep.count (h : Rep w t ws free subs) (calls : ℕ) : Rep { w with calls := calls } t ws free subs :=
  ⟨h.rows, h.naps, h.slots, h.held, h.target, h.empty, h.answers⟩

theorem Kept.of_quiet {t' : Sleepers} {ws' : List (ℕ × Nap)} {free' subs' : List ℕ} (h : Kept w t ws free subs)
    (hrep : Rep w' t' ws' free' subs') (hq : Quiet w w') (hsound : t'.Sound w.accepted) :
    Kept { w' with calls := w.calls + 1 } t' ws' free' subs' := by
  refine ⟨hrep.count _, ?_, ?_, fun n hn => ?_⟩
  · exact hq.1 ▸ hsound
  · exact hq.1 ▸ h.distinct
  · exact Nat.lt_succ_of_lt (h.past n (hq.1 ▸ hn))

theorem Kept.taken {ws' : List (ℕ × Nap)} {free' : List ℕ} (h : Kept w t ws free subs)
    (hrep : Rep w' (t.take ⟨w.calls, m.now, m.word⟩) ws' free' subs)
    (hacc : w'.accepted = w.accepted ++ [⟨w.calls, m.now, m.word⟩]) :
    Kept { w' with calls := w.calls + 1 } (t.take ⟨w.calls, m.now, m.word⟩) ws' free' subs := by
  refine ⟨hrep.count _, ?_, ?_, fun n hn => ?_⟩
  · exact hacc ▸ h.sound.take _
  · show (w'.accepted.map (·.call)).Nodup
    rw [hacc, List.map_append]
    refine List.nodup_append.2 ⟨h.distinct, List.nodup_singleton _, fun a ha b hb heq => ?_⟩
    obtain ⟨n, hn, rfl⟩ := List.mem_map.1 ha
    have hlt := h.past n hn
    obtain rfl := List.mem_singleton.1 hb
    exact Nat.ne_of_lt hlt heq
  · rcases List.mem_append.1 (hacc ▸ hn) with hn | hn
    · exact Nat.lt_succ_of_lt (h.past n hn)
    · obtain rfl := List.mem_singleton.1 hn
      exact Nat.lt_succ_self _

/-- **A turn that fits**: a tick answers what is due, and a sleep refused changes nothing. -/
theorem Kept.step (h : Kept w t ws free subs) (hf : w.Fits m) :
    ∃ w' a t' ws' free' subs', w.step m = some (w', a) ∧ Kept w' t' ws' free' subs' ∧
      (w.ticked m = true → w'.accepted = w.accepted ∧ ∀ n ∈ t'.waiting, m.now < n.due) ∧
      (w.slept m = true → a ≠ none → w'.service = w.service) := by
  have hslept : w.ticked m = true → ¬ w.slept m = true := fun htick => by simp [World.slept, htick]
  by_cases htick : w.ticked m = true
  · obtain ⟨w', ws', free', hrun, hrep, hq⟩ := h.toRep.tick m.now
    refine ⟨_, none, t.tick m.now, ws', free', subs, ?_, h.of_quiet hrep hq (h.sound.tick m.now), fun _ => ⟨hq.1, ?_⟩,
      fun hs => absurd hs (hslept htick)⟩
    · rw [World.step, World.turn, if_pos htick, hrun]
      rfl
    · exact fun n hn => Sleepers.not_due_of_tick hn
  · have hsame : ∀ a, w.turn m = some (w, a) → w.step m = some ({ w with calls := w.calls + 1 }, a) := fun a ha => by
      rw [World.step, ha]
      rfl
    by_cases hs : w.slept m = true
    · have hturn : w.turn m = some (w.sleep m) := by
        have hcall : m.method % 2 ^ 32 = kMethodSleep ∧ 2 ≤ m.length := by simpa [World.slept, htick] using hs
        have hnow : ¬ m.method % 2 ^ 32 = kMethodNow := by rw [hcall.1]; decide
        rw [World.turn, if_neg htick, if_neg hnow, if_pos hcall]
      rcases h.toRep.sleep hs hf with hrefused | ⟨w', ws', free', htaken, hrep, hacc, -⟩
      · refine ⟨_, some [0], t, ws, free, subs, hsame _ (hturn.trans (congrArg some hrefused)),
          h.of_quiet h.toRep ⟨rfl, rfl⟩ h.sound, fun hf => absurd hf htick, fun _ _ => rfl⟩
      · refine ⟨{ w' with calls := w.calls + 1 }, none, _, ws', free', subs, ?_, h.taken hrep hacc,
          fun hf => absurd hf htick, fun _ hne => absurd rfl hne⟩
        rw [World.step, hturn, htaken]
        rfl
    · have hnot : ¬ (m.method % 2 ^ 32 = kMethodSleep ∧ 2 ≤ m.length) := fun hcall =>
        hs (by simpa [World.slept, htick] using hcall)
      rw [World.step, World.turn, if_neg htick, if_neg hnot]
      split
      · exact ⟨_, _, t, ws, free, subs, rfl, h.of_quiet h.toRep ⟨rfl, rfl⟩ h.sound, fun hf => absurd hf htick,
          fun hf => absurd hf hs⟩
      · split
        · obtain ⟨w', a, subs', hsub, hrep, hq⟩ := h.toRep.subscribe m
          rw [hsub]
          exact ⟨_, _, t, ws, free, subs', rfl, h.of_quiet hrep hq h.sound, fun hf => absurd hf htick,
            fun hf => absurd hf hs⟩
        · exact ⟨_, _, t, ws, free, subs, rfl, h.of_quiet h.toRep ⟨rfl, rfl⟩ h.sound, fun hf => absurd hf htick,
            fun hf => absurd hf hs⟩

/-! ## What a state tells -/

def World.answers (w : World) (call : ℕ) : ℕ := (w.answered.map (·.1)).count call

/-- The sleeps are in order: each that was taken either has one row on the list, whose slot
    holds its reply, or was answered once and not before it was due.  The rows on the list and
    the free ones are all different, and each slot of the pool is that of one row on the list,
    or of one notification, or free. -/
structure InOrder (w : World) (waiting free notes : List ℕ) : Prop where
  listed : Chain w.service.link w.service.sleeps waiting
  freed : Chain w.service.link w.service.sleepFree free
  nodup : (waiting ++ free).Nodup
  slots : (waiting.map (fun row => (w.service.rows row).slot) ++ notes ++
    Pool.clear w.service.slotBase w.service.bits).Perm (List.range' w.service.slotBase w.service.bits.length)
  sleeper : ∀ row ∈ waiting, ∃ n ∈ w.accepted, w.held (w.service.rows row).slot = some n.call
  once : ∀ n ∈ w.accepted,
    (∃! row, row ∈ waiting ∧ w.held (w.service.rows row).slot = some n.call) ∧ w.answers n.call = 0 ∨
    (∀ row ∈ waiting, w.held (w.service.rows row).slot ≠ some n.call) ∧ w.answers n.call = 1 ∧
      ∃ time, (n.call, time) ∈ w.answered ∧ n.due ≤ time

theorem Kept.answers_eq (h : Kept w t ws free subs) (call : ℕ) : w.answers call = t.answers call := by
  rw [World.answers, Sleepers.answers, h.answers, List.map_map]
  rfl

theorem Kept.inOrder (h : Kept w t ws free subs) :
    InOrder w (ws.map (·.1)) free (w.service.notes subs) := by
  have hmem : ∀ p ∈ ws, p.2 ∈ w.accepted := fun p hp => by
    have hw : p.2 ∈ t.waiting := h.naps ▸ List.mem_map_of_mem hp
    exact h.sound.split.mem_iff.1 (List.mem_append_left _ hw)
  have hcalls : (ws.map fun p => p.2.call).Nodup := by
    have hnodup := (List.nodup_append.1 (h.sound.nodup h.distinct)).1
    rwa [← h.naps, List.map_map] at hnodup
  refine ⟨h.rows.waits, h.rows.frees, h.rows.placed.nodup, ?_, fun row hrow => ?_, fun n hn => ?_⟩
  · rw [List.map_map]
    exact h.slots.split
  · obtain ⟨p, hp, rfl⟩ := List.mem_map.1 hrow
    exact ⟨p.2, hmem p hp, h.held p hp⟩
  · rw [h.answers_eq]
    rcases h.sound.answers h.distinct hn with ⟨hw, hzero⟩ | ⟨hw, hone, time, htime, hdue⟩
    · left
      obtain ⟨p, hp, rfl⟩ : ∃ p ∈ ws, p.2 = n := by
        rw [← h.naps] at hw
        exact List.mem_map.1 hw
      refine ⟨⟨p.1, ⟨List.mem_map_of_mem hp, h.held p hp⟩, fun row hrow => ?_⟩, hzero⟩
      obtain ⟨q, hq, rfl⟩ := List.mem_map.1 hrow.1
      have heq : q.2.call = p.2.call := Option.some.inj ((h.held q hq).symm.trans hrow.2)
      rw [List.inj_on_of_nodup_map hcalls hq hp heq]
    · right
      refine ⟨fun row hrow heq => hw ?_, hone, time, ?_, hdue⟩
      · obtain ⟨p, hp, rfl⟩ := List.mem_map.1 hrow
        have hcall : p.2.call = n.call := Option.some.inj ((h.held p hp).symm.trans heq)
        have hsame : p.2 = n := List.inj_on_of_nodup_map h.distinct (hmem p hp) hn hcall
        rw [← h.naps, ← hsame]
        exact List.mem_map_of_mem hp
      · rw [h.answers]
        exact List.mem_map.2 ⟨_, htime, rfl⟩

end

theorem Kept.alarm {w : World} {t : Sleepers} {ws : List (ℕ × Nap)} {free subs : List ℕ} (h : Kept w t ws free subs)
    (now : ℕ) : ∃ r, w.service.alarm now = some r ∧ (w.service.haveTick = true →
      ∀ n ∈ w.accepted, w.answers n.call = 0 → ∃ y ∈ r, y ≤ max now n.due) := by
  obtain ⟨r, hr, hle⟩ := h.rows.alarm now
  refine ⟨r, hr, fun ht n hn hzero => ?_⟩
  rw [h.answers_eq] at hzero
  rcases h.sound.answers h.distinct hn with ⟨hw, -⟩ | ⟨-, hone, -⟩
  · obtain ⟨p, hp, rfl⟩ : ∃ p ∈ ws, p.2 = n := by
      rw [← h.naps] at hw
      exact List.mem_map.1 hw
    obtain ⟨y, hy, hle⟩ := hle ht p.1 (List.mem_map_of_mem hp)
    rw [h.target p hp] at hle
    exact ⟨y, hy, hle⟩
  · rw [hzero] at hone
    cases hone

/-! ## Runs -/

def Fit : World → List Received → Prop
  | _, [] => True
  | w, m :: ms => w.Fits m ∧ ∀ w' a, w.step m = some (w', a) → Fit w' ms

theorem Kept.run {w : World} {t : Sleepers} {ws : List (ℕ × Nap)} {free subs : List ℕ} (h : Kept w t ws free subs)
    (ms : List Received) (hf : Fit w ms) :
    ∃ w' t' ws' free' subs', w.run ms = some w' ∧ Kept w' t' ws' free' subs' := by
  induction ms generalizing w t ws free subs with
  | nil => exact ⟨w, t, ws, free, subs, rfl, h⟩
  | cons m ms ih =>
    obtain ⟨w', a, t', ws', free', subs', hstep, h', -⟩ := h.step hf.1
    obtain ⟨w'', t'', ws'', free'', subs'', hrun, h''⟩ := ih h' (hf.2 w' a hstep)
    refine ⟨w'', t'', ws'', free'', subs'', ?_, h''⟩
    rw [World.run, hstep]
    exact hrun

/-- **Sleepers are answered once and never early**, in every run whose sleeps all fit: the sleeps
    are in order in the state it reaches, the alarm is set for the first of them, a tick there
    answers every one that is due, and a sleep refused there leaves the service as it was, its
    free slots and rows with it. -/
theorem sleepers_answered (b : Boot) (ms : List Received) (hfit : Fit b.start ms) :
    ∃ w waiting free notes, b.start.run ms = some w ∧ InOrder w waiting free notes ∧
      (∀ now, ∃ r, w.service.alarm now = some r ∧ (w.service.haveTick = true →
        ∀ n ∈ w.accepted, w.answers n.call = 0 → ∃ y ∈ r, y ≤ max now n.due)) ∧
      ∀ m, w.Fits m → ∃ w' a, w.step m = some (w', a) ∧
        (w.ticked m = true → ∀ n ∈ w.accepted, n.due ≤ m.now → w'.answers n.call = 1) ∧
        (w.slept m = true → a ≠ none → w'.service = w.service) := by
  obtain ⟨w, t, ws, free, subs, hrun, h⟩ := b.start_kept.run ms hfit
  refine ⟨w, _, free, _, hrun, h.inOrder, h.alarm, fun m hm => ?_⟩
  obtain ⟨w', a, t', ws', free', subs', hstep, h', htick, hsleep⟩ := h.step hm
  refine ⟨w', a, hstep, fun ht n hn hdue => ?_, hsleep⟩
  obtain ⟨hacc, hwait⟩ := htick ht
  rw [h'.answers_eq]
  rcases h'.sound.answers h'.distinct (hacc.symm ▸ hn) with ⟨hw, -⟩ | ⟨-, hone, -⟩
  · exact absurd hdue (Nat.not_le.2 (hwait n hw))
  · exact hone

/-- A service with a region at 4096, slots from 4 to 7 and a tick. -/
def boot : Boot where
  region := some (4096, 12)
  firstFree := 3
  cnodeBits := 3
  cnodeBits_lt := by decide
  irq := true
  bound := true

def sleepFor (duration now : ℕ) (saved : Bool) : Received := ⟨7, 2, kMethodSleep, duration, now, saved, false⟩

def tickAt (now : ℕ) : Received := ⟨kTickBit, 0, 0, 0, now, false, false⟩

theorem fits_tickAt (w : World) (now : ℕ) : w.Fits (tickAt now) := fun hs => by
  simp [World.slept, tickAt, kMethodSleep] at hs

theorem sleepers_answered_boot : ∃ w, boot.start.run [sleepFor 5 10 true, tickAt 12, tickAt 15] = some w ∧
    (∃ waiting free notes, InOrder w waiting free notes) ∧ w.answered = [(0, 15)] := by
  have hfit : Fit boot.start [sleepFor 5 10 true, tickAt 12, tickAt 15] :=
    ⟨fun _ => Or.inr (Or.inr (by decide)), fun w a _ => ⟨fits_tickAt w 12, fun w' a' _ =>
      ⟨fits_tickAt w' 15, fun _ _ _ => trivial⟩⟩⟩
  obtain ⟨w, waiting, free, notes, hrun, hin, -⟩ := sleepers_answered boot _ hfit
  refine ⟨w, hrun, ⟨waiting, free, notes, hin⟩, ?_⟩
  have hanswered : (boot.start.run [sleepFor 5 10 true, tickAt 12, tickAt 15]).map (·.answered) =
      some [(0, 15)] := by decide
  rw [hrun] at hanswered
  exact Option.some.inj hanswered

/-- A sleep whose target wraps is answered early, and one refused because its caller is not
    saved leaves a slot less. -/
theorem sleep_fails :
    (¬ ∀ (b : Boot) (ms : List Received) (w : World), ms.Pairwise (fun m m' => m.now ≤ m'.now) →
      (∀ m ∈ ms, m.now < 2 ^ 64 ∧ m.word < 2 ^ 64) → b.start.run ms = some w →
      ∀ n ∈ w.accepted, ∀ time, (n.call, time) ∈ w.answered → n.due ≤ time) ∧
    ¬ ∀ (b : Boot) (m : Received) (w : World), m.now < 2 ^ 64 ∧ m.word < 2 ^ 64 → b.start.slept m = true →
      b.start.step m = some (w, some [0]) →
      (Pool.clear w.service.slotBase w.service.bits).length =
        (Pool.clear b.start.service.slotBase b.start.service.bits).length := by
  refine ⟨fun hall => ?_, fun hall => ?_⟩
  · obtain ⟨ms, hms⟩ : ∃ ms, ms = [sleepFor (2 ^ 64 - 1) 10 true, tickAt 11] := ⟨_, rfl⟩
    have hran : (boot.start.run ms).map (fun w => (w.accepted, w.answered)) =
        some ([⟨0, 10, 2 ^ 64 - 1⟩], [(0, 11)]) := by
      rw [hms]; decide
    rcases hrun : boot.start.run ms with _ | w
    · rw [hrun] at hran
      cases hran
    · rw [hrun] at hran
      obtain ⟨hacc, hans⟩ := Prod.mk.inj (Option.some.inj hran)
      have hdue := hall boot ms w (by rw [hms]; decide) (by rw [hms]; decide) hrun ⟨0, 10, 2 ^ 64 - 1⟩
        (by rw [hacc]; exact List.mem_cons_self) 11 (by rw [hans]; exact List.mem_cons_self)
      exact absurd hdue (by decide)
  · have hran : (boot.start.step (sleepFor 5 10 false)).map
        (fun r => ((Pool.clear r.1.service.slotBase r.1.service.bits).length, r.2)) = some (2, some [0]) := by
      decide
    rcases hstep : boot.start.step (sleepFor 5 10 false) with _ | ⟨w, a⟩
    · rw [hstep] at hran
      cases hran
    · rw [hstep] at hran
      obtain ⟨hslots, rfl⟩ := Prod.mk.inj (Option.some.inj hran)
      have hsame := hall boot (sleepFor 5 10 false) w (by decide) (by decide) hstep
      rw [hslots] at hsame
      exact absurd hsame (by decide)

end Aegir.Timer
