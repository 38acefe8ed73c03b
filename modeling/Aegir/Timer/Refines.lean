/-
  The service keeps its sleepers.
-/
import Aegir.Timer.Rows
import Aegir.Timer.Sleepers

namespace Aegir.Timer

open Aegir.Lib

namespace Service

/-- The slots that hold a notification: the tick's and the subscribers'. -/
def notes (s : Service) (subs : List ℕ) : List ℕ :=
  (if s.tickNotification = 0 then [] else [s.tickNotification]) ++ subs.map fun row => (s.nodes row).cap

def slotsOf (s : Service) (ws : List (ℕ × Nap)) : List ℕ := ws.map fun p => (s.rows p.1).slot

def canCarve (s : Service) : Prop := s.bump ≠ 0 ∧ s.bump + kSleepBytes ≤ s.stop

theorem sleepRow_cases (s : Service) :
    s.sleepFree ≠ 0 ∧ s.sleepRow = (s.sleepFree, s) ∨
      s.sleepFree = 0 ∧ s.canCarve ∧ s.sleepRow = (s.bump, { s with bump := s.bump + kSleepBytes }) ∨
      s.sleepFree = 0 ∧ ¬ s.canCarve ∧ s.sleepRow = (0, s) := by
  by_cases hfree : s.sleepFree = 0
  · have hrow : s.sleepRow = s.regionAlloc kSleepBytes := if_neg (not_not_intro hfree)
    have halloc : s.regionAlloc kSleepBytes = if s.bump = 0 ∨ s.stop < s.bump + kSleepBytes then (0, s)
        else (s.bump, { s with bump := s.bump + kSleepBytes }) := rfl
    rw [hrow, halloc]
    by_cases hc : s.canCarve
    · refine Or.inr (Or.inl ⟨hfree, hc, if_neg fun hor => ?_⟩)
      exact hor.elim hc.1 (Nat.not_lt.2 hc.2)
    · refine Or.inr (Or.inr ⟨hfree, hc, if_pos ?_⟩)
      by_cases hb : s.bump = 0
      · exact Or.inl hb
      · exact Or.inr (Nat.lt_of_not_le fun hle => hc ⟨hb, hle⟩)
  · exact Or.inl ⟨hfree, if_pos hfree⟩

end Service

/-- A sleep fits: it is refused for want of a row; or for want of a slot, its row being a free
    one; or else a slot is free, the caller is saved and the target does not wrap. -/
def World.Fits (w : World) (m : Received) : Prop :=
  w.slept m = true →
    (w.service.sleepFree = 0 ∧ ¬ w.service.canCarve) ∨
    (w.service.sleepFree ≠ 0 ∧ false ∉ w.service.bits) ∨
    (false ∈ w.service.bits ∧ m.saved = true ∧ m.now + m.word < 2 ^ 64)

structure Rep (w : World) (t : Sleepers) (ws : List (ℕ × Nap)) (free subs : List ℕ) : Prop where
  rows : Rows w.service (ws.map (·.1)) free subs
  naps : ws.map (·.2) = t.waiting
  slots : Slots w.service (w.service.slotsOf ws ++ w.service.notes subs)
  held : ∀ p ∈ ws, w.held (w.service.rows p.1).slot = some p.2.call
  target : ∀ p ∈ ws, (w.service.rows p.1).target = p.2.due
  empty : ∀ slot, w.held slot ≠ none → slot ∈ w.service.slotsOf ws
  answers : w.answered = t.answered.map fun r => (r.1.call, r.2)

def Quiet (w w' : World) : Prop := w'.accepted = w.accepted ∧ w'.calls = w.calls

theorem Quiet.trans {w w' w'' : World} (h : Quiet w w') (h' : Quiet w' w'') : Quiet w w'' :=
  ⟨h'.1.trans h.1, h'.2.trans h.2⟩

namespace Rep

variable {w : World} {t : Sleepers} {ws kept rest : List (ℕ × Nap)} {free subs : List ℕ} {m : Received}
  {n : Nap} {place row now : ℕ}

/-! ## The tick -/

theorem finish (now : ℕ) (h : Rep w t (kept ++ (row, n) :: rest) free subs)
    (hp : place = (kept.map (·.1)).getLast?.getD 0) :
    Rep (w.finish place row now) ⟨(kept ++ rest).map (·.2), t.answered ++ [(n, now)]⟩ (kept ++ rest) (row :: free)
      subs ∧ Quiet w (w.finish place row now) := by
  obtain ⟨slot, hslot⟩ : ∃ slot, slot = (w.service.rows row).slot := ⟨_, rfl⟩
  obtain ⟨s', hs'⟩ : ∃ s', s' = (w.service.slotFree slot).unlink place row := ⟨_, rfl⟩
  have hheld : w.held slot = some n.call := hslot ▸ h.held (row, n) (by simp)
  have hfinish : w.finish place row now =
      { w with
        service := s', held := Function.update w.held slot none, answered := w.answered ++ [(n.call, now)] } := by
    rw [World.finish, ← hslot, World.replySlot, hheld, hs']
  have hslots : ∀ b, (s'.rows b).slot = (w.service.rows b).slot := fun b => by
    rw [hs', Service.unlink_slot]
    rfl
  have hperm : (slot :: (w.service.slotsOf (kept ++ rest) ++ w.service.notes subs)).Perm
      (w.service.slotsOf (kept ++ (row, n) :: rest) ++ w.service.notes subs) := by
    simp only [Service.slotsOf, List.map_append, List.map_cons, ← hslot, List.append_assoc, List.cons_append]
    exact List.perm_middle.symm
  have hwas := h.slots.perm hperm.symm
  have hnot : slot ∉ w.service.slotsOf (kept ++ rest) := fun hmem => by
    have hnodup := (List.nodup_append.1 hwas.nodup).1
    exact (List.nodup_cons.1 hnodup).1 (List.mem_append_left _ hmem)
  have hof : s'.slotsOf (kept ++ rest) = w.service.slotsOf (kept ++ rest) := by
    simp only [Service.slotsOf, hslots]
  have hnotes : s'.notes subs = w.service.notes subs := by
    rw [hs', Service.unlink_eq]
    rfl
  have hne : ∀ p ∈ kept ++ rest, (w.service.rows p.1).slot ≠ slot := fun p hp heq =>
    hnot (heq ▸ List.mem_map_of_mem (f := fun p => (w.service.rows p.1).slot) hp)
  have hin : ∀ p ∈ kept ++ rest, p ∈ kept ++ (row, n) :: rest := fun p hp => by
    rcases List.mem_append.1 hp with hp | hp
    · exact List.mem_append_left _ hp
    · exact List.mem_append_right _ (List.mem_cons_of_mem _ hp)
  rw [hfinish]
  refine ⟨⟨?_, rfl, ?_, fun p hp => ?_, fun p hp => ?_, fun slot' hs => ?_, ?_⟩, rfl, rfl⟩
  · have hrows : Rows (w.service.slotFree slot) (kept.map (·.1) ++ row :: rest.map (·.1)) free subs := by
      have hr := h.rows
      rw [List.map_append, List.map_cons] at hr
      exact ⟨hr.waits, hr.frees, hr.listed, hr.placed⟩
    have hunlink := hrows.unlink hp
    rw [← hs', ← List.map_append] at hunlink
    exact hunlink
  · rw [show World.service { w with service := s', held := _, answered := _ } = s' from rfl, hof, hnotes]
    have hgive := hwas.give
    have hbits : s'.bits = (w.service.slotFree slot).bits ∧ s'.slotBase = (w.service.slotFree slot).slotBase := by
      rw [hs', Service.unlink_eq]
      exact ⟨rfl, rfl⟩
    exact ⟨by rw [hbits.1, hbits.2]; exact hgive.split, by rw [hbits.1, hbits.2]; exact hgive.base,
      by rw [hbits.1, hbits.2]; exact hgive.room⟩
  · show Function.update w.held slot none (s'.rows p.1).slot = some p.2.call
    rw [hslots, Function.update_of_ne (hne p hp)]
    exact h.held p (hin p hp)
  · show (s'.rows p.1).target = p.2.due
    rw [hs', Service.unlink_target]
    exact h.target p (hin p hp)
  · rcases eq_or_ne slot' slot with rfl | hne'
    · exact absurd (Function.update_self _ _ _) hs
    · have hmem := h.empty slot' fun hn => hs ((Function.update_of_ne hne' _ _).trans hn)
      show slot' ∈ s'.slotsOf (kept ++ rest)
      rw [hof]
      have hcons := hperm.symm.mem_iff.1 (List.mem_append_left _ hmem)
      obtain ⟨p, hp, rfl⟩ := List.mem_map.1 hmem
      rcases List.mem_append.1 hp with hp | hp
      · exact List.mem_map_of_mem (f := fun p => (w.service.rows p.1).slot) (List.mem_append_left _ hp)
      · rcases List.mem_cons.1 hp with rfl | hp
        · exact absurd hslot.symm hne'
        · exact List.mem_map_of_mem (f := fun p => (w.service.rows p.1).slot) (List.mem_append_right _ hp)
  · simp only [h.answers, List.map_append, List.map_cons, List.map_nil]

theorem answerDue {bound : ℕ} (now : ℕ) (h : Rep w t (kept ++ rest) free subs) (hb : rest.length ≤ bound)
    (hp : place = (kept.map (·.1)).getLast?.getD 0) :
    ∃ w' free', World.answerDue bound w now place = some w' ∧
      Rep w' ⟨(kept ++ rest.filter fun p => ¬ p.2.due ≤ now).map (·.2),
          t.answered ++ (rest.filter fun p => p.2.due ≤ now).map fun p => (p.2, now)⟩
        (kept ++ rest.filter fun p => ¬ p.2.due ≤ now) free' subs ∧ Quiet w w' := by
  have hrows : Rows w.service (kept.map (·.1) ++ rest.map (·.1)) free subs := List.map_append ▸ h.rows
  have hafter := hrows.after hp
  induction rest generalizing w t kept free place bound with
  | nil =>
    refine ⟨w, free, ?_, ?_, rfl, rfl⟩
    · cases bound with
      | zero => exact if_pos hafter
      | succ b => exact if_pos hafter
    · simp only [List.filter_nil, List.map_nil, List.append_nil] at h ⊢
      rwa [h.naps]
  | cons p rest ih =>
    obtain ⟨row, n⟩ := p
    cases bound with
    | zero => exact absurd hb (Nat.not_succ_le_zero _)
    | succ bound =>
      have hafter : w.service.after place = row := hafter
      have hrow : row ≠ 0 := hrows.waits.ne_zero (by simp)
      have htarget : (w.service.rows row).target = n.due := h.target (row, n) (by simp)
      have hlen : rest.length ≤ bound := Nat.le_of_succ_le_succ hb
      unfold World.answerDue
      simp only [hafter, if_neg hrow, htarget]
      by_cases hdue : n.due ≤ now
      · -- the row is due: it is answered and the place stays
        obtain ⟨hrep, hquiet⟩ := h.finish now hp
        have hrows' : Rows (w.finish place row now).service (kept.map (·.1) ++ rest.map (·.1)) (row :: free) subs :=
          List.map_append ▸ hrep.rows
        obtain ⟨w', free', hrun, hrep', hquiet'⟩ := ih hrep hlen hp hrows' (hrows'.after hp)
        refine ⟨w', free', by rw [if_pos hdue]; exact hrun, ?_, hquiet.trans hquiet'⟩
        simpa [hdue, List.append_assoc] using hrep'
      · -- it is not: the place moves past it
        have hassoc : kept ++ (row, n) :: rest = kept ++ [(row, n)] ++ rest := by simp
        have hrep : Rep w t (kept ++ [(row, n)] ++ rest) free subs := hassoc ▸ h
        have hrows' : Rows w.service ((kept ++ [(row, n)]).map (·.1) ++ rest.map (·.1)) free subs :=
          List.map_append ▸ hrep.rows
        have hp' : row = ((kept ++ [(row, n)]).map (·.1)).getLast?.getD 0 := by simp
        obtain ⟨w', free', hrun, hrep', hquiet⟩ := ih hrep hlen hp' hrows' (hrows'.after hp')
        have hkeep : ((row, n) :: rest).filter (fun p => ¬ p.2.due ≤ now) =
            (row, n) :: rest.filter fun p => ¬ p.2.due ≤ now := List.filter_cons_of_pos (by simpa using hdue)
        have hdone : ((row, n) :: rest).filter (fun p => p.2.due ≤ now) = rest.filter fun p => p.2.due ≤ now :=
          List.filter_cons_of_neg (by simpa using hdue)
        refine ⟨w', free', by rw [if_neg hdue]; exact hrun, ?_, hquiet⟩
        rw [hkeep, hdone, List.append_cons]
        exact hrep'

theorem signal (h : Rep w t ws free subs) (row now : ℕ) :
    Rep (w.signal row now) t ws free subs ∧ (w.signal row now).service.subLink = w.service.subLink ∧
      Quiet w (w.signal row now) := by
  have hlink : (w.signal row now).service.subLink = w.service.subLink := by
    funext a
    by_cases ha : a = row <;> simp [World.signal, Service.subLink, ha]
  have hcap : ∀ a, ((w.signal row now).service.nodes a).cap = (w.service.nodes a).cap := fun a => by
    by_cases ha : a = row <;> simp [World.signal, ha]
  have hnotes : (w.signal row now).service.notes subs = w.service.notes subs := by
    simp only [Service.notes, hcap]
    rfl
  refine ⟨⟨⟨h.rows.waits, h.rows.frees, ?_, h.rows.placed⟩, h.naps, ?_, h.held, h.target, h.empty, h.answers⟩,
    hlink, rfl, rfl⟩
  · rw [hlink]
    exact h.rows.listed
  · rw [hnotes]
    exact ⟨h.slots.split, h.slots.base, h.slots.room⟩

theorem signalDue {bound : ℕ} {left : List ℕ} (now : ℕ) (h : Rep w t ws free subs) (hc : Chain w.service.subLink row left)
    (hb : left.length ≤ bound) :
    ∃ w', World.signalDue bound w now row = some w' ∧ Rep w' t ws free subs ∧ Quiet w w' := by
  induction left generalizing w row bound with
  | nil =>
    refine ⟨w, ?_, h, rfl, rfl⟩
    cases bound with
    | zero => exact if_pos hc
    | succ b => exact if_pos hc
  | cons a left ih =>
    obtain ⟨rfl, hrow, hc⟩ := hc
    cases bound with
    | zero => exact absurd hb (Nat.not_succ_le_zero _)
    | succ bound =>
      have hlen : left.length ≤ bound := Nat.le_of_succ_le_succ hb
      unfold World.signalDue World.signalWhen
      rw [if_neg hrow]
      split
      · obtain ⟨hrep, hlink, hquiet⟩ := h.signal row now
        have hc' : Chain (w.signal row now).service.subLink (w.service.nodes row).link left := by
          rw [hlink]
          exact hc
        obtain ⟨w', hrun, hrep', hquiet'⟩ := ih hrep hc' hlen
        exact ⟨w', hrun, hrep', hquiet.trans hquiet'⟩
      · exact ih h hc hlen

/-- **A tick** answers the sleepers that are due. -/
theorem tick (h : Rep w t ws free subs) (now : ℕ) :
    ∃ w' ws' free', w.tick now = some w' ∧ Rep w' (t.tick now) ws' free' subs ∧ Quiet w w' := by
  obtain ⟨w₁, hrun₁, h₁, hquiet₁⟩ := h.signalDue now h.rows.listed h.rows.length_subs
  have hlen : ws.length ≤ w₁.service.bump := by
    simpa using h₁.rows.length_waiting
  have hall : Rep w₁ t ([] ++ ws) free subs := h₁
  obtain ⟨w₂, free', hrun₂, h₂, hquiet₂⟩ := hall.answerDue now hlen (rfl : 0 = _)
  refine ⟨w₂, ws.filter fun p => ¬ p.2.due ≤ now, free', ?_, ?_, hquiet₁.trans hquiet₂⟩
  · rw [World.tick, hrun₁]
    exact hrun₂
  · have hnaps : ∀ q : Nap → Bool, (ws.filter fun p => q p.2).map (·.2) = t.waiting.filter q := fun q => by
      rw [← h.naps, List.filter_map]
      rfl
    have hwaiting := hnaps fun n => ¬ n.due ≤ now
    have hanswered : (ws.filter fun p => p.2.due ≤ now).map (fun p => (p.2, now)) =
        (t.waiting.filter fun n => n.due ≤ now).map fun n => (n, now) := by
      rw [← hnaps, List.map_map]
      rfl
    simp only [List.nil_append] at h₂
    rw [hwaiting, hanswered] at h₂
    exact h₂

/-! ## The calls -/

theorem hold {s : Service} {free' : List ℕ} {slot target : ℕ} {accepted : List Nap} (h : Rep w t ws free subs)
    (hrows : Rows (s.hold row slot target) (row :: ws.map (·.1)) free' subs)
    (hslots : Slots s (slot :: (w.service.slotsOf ws ++ w.service.notes subs)))
    (hs : s.rows = w.service.rows) (hnotes : s.notes subs = w.service.notes subs) (hn : target = n.due) :
    Rep { w with
        service := s.hold row slot target, held := Function.update w.held slot (some n.call), accepted := accepted }
      (t.take n) ((row, n) :: ws) free' subs := by
  have hne : ∀ p ∈ ws, p.1 ≠ row := fun p hp heq => by
    have hnodup := (List.nodup_cons.1 hrows.waits.nodup).1
    exact hnodup (heq ▸ List.mem_map_of_mem hp)
  have hslot : ∀ p ∈ ws, ((s.hold row slot target).rows p.1).slot = (w.service.rows p.1).slot := fun p hp => by
    rw [Service.hold_slot (hne p hp), hs]
  have hnew : slot ∉ w.service.slotsOf ws := fun hmem => by
    have hnodup := (List.nodup_append.1 hslots.nodup).1
    exact (List.nodup_cons.1 hnodup).1 (List.mem_append_left _ hmem)
  have hslotne : ∀ p ∈ ws, (w.service.rows p.1).slot ≠ slot := fun p hp heq =>
    hnew (heq ▸ List.mem_map_of_mem (f := fun p => (w.service.rows p.1).slot) hp)
  have hof : (s.hold row slot target).slotsOf ((row, n) :: ws) = slot :: w.service.slotsOf ws := by
    rw [Service.slotsOf, List.map_cons, Service.hold_self]
    exact congrArg (slot :: ·) (List.map_congr_left hslot)
  refine ⟨hrows, congrArg (n :: ·) h.naps, ?_, fun p hp => ?_, fun p hp => ?_, fun slot' hs' => ?_, h.answers⟩
  · show Slots (s.hold row slot target) ((s.hold row slot target).slotsOf ((row, n) :: ws) ++
      (s.hold row slot target).notes subs)
    have hkept : (s.hold row slot target).notes subs = w.service.notes subs := hnotes
    rw [hof, hkept]
    exact ⟨hslots.split, hslots.base, hslots.room⟩
  · rcases List.mem_cons.1 hp with rfl | hp
    · show Function.update w.held slot (some n.call) ((s.hold row slot target).rows row).slot = some n.call
      rw [Service.hold_self, Function.update_self]
    · show Function.update w.held slot (some n.call) ((s.hold row slot target).rows p.1).slot = some p.2.call
      rw [hslot p hp, Function.update_of_ne (hslotne p hp)]
      exact h.held p hp
  · rcases List.mem_cons.1 hp with rfl | hp
    · show ((s.hold row slot target).rows row).target = n.due
      rw [Service.hold_self, hn]
    · show ((s.hold row slot target).rows p.1).target = p.2.due
      rw [Service.hold_target (hne p hp), hs]
      exact h.target p hp
  · show slot' ∈ (s.hold row slot target).slotsOf ((row, n) :: ws)
    rw [hof]
    rcases eq_or_ne slot' slot with rfl | hne'
    · exact List.mem_cons_self
    · exact List.mem_cons_of_mem _ (h.empty slot' fun hn => hs' ((Function.update_of_ne hne' _ _).trans hn))

theorem sleep_taken {s s' : Service} {slot : ℕ} (hrow : w.service.sleepRow = (row, s)) (h₀ : row ≠ 0)
    (hslot : s.slotAlloc = some (slot, s')) (hsaved : m.saved = true) (hempty : w.held slot = none) :
    w.sleep m = ({ w with
      service := s'.hold row slot ((m.now + m.word) % 2 ^ 64)
      held := Function.update w.held slot (some w.calls)
      accepted := w.accepted ++ [⟨w.calls, m.now, m.word⟩] }, none) := by
  simp only [World.sleep, hrow, h₀, hslot, hsaved, hempty, if_false, and_self, if_true]

/-- **A sleep** that fits is refused with nothing changed, or it is taken. -/
theorem sleep (h : Rep w t ws free subs) (hm : w.slept m = true) (hf : w.Fits m) :
    w.sleep m = (w, some [0]) ∨ ∃ w' ws' free', w.sleep m = (w', none) ∧
      Rep w' (t.take ⟨w.calls, m.now, m.word⟩) ws' free' subs ∧
      w'.accepted = w.accepted ++ [⟨w.calls, m.now, m.word⟩] ∧ w'.calls = w.calls := by
  have hempty : ∀ i, w.service.bits[i]? = some false → w.held (w.service.slotBase + i) = none := fun i hi => by
    by_contra hne
    exact (h.slots.alloc hi).2.1 (List.mem_append_left _ (h.empty _ hne))
  have hfits : (w.service.sleepFree ≠ 0 ∨ w.service.canCarve) → (w.service.sleepFree ≠ 0 → false ∈ w.service.bits) →
      false ∈ w.service.bits ∧ m.saved = true ∧ (m.now + m.word) % 2 ^ 64 = m.now + m.word := fun hrow hbit => by
    rcases hf hm with ⟨h₁, h₂⟩ | ⟨h₁, h₂⟩ | ⟨h₁, h₂, h₃⟩
    · exact (hrow.elim (fun hne => hne h₁) h₂).elim
    · exact absurd (hbit h₁) h₂
    · exact ⟨h₁, h₂, Nat.mod_eq_of_lt h₃⟩
  rcases w.service.sleepRow_cases with ⟨hfree, hrow⟩ | ⟨hfree, hcarve, hrow⟩ | ⟨-, -, hrow⟩
  · -- a free row
    rcases w.service.slotAlloc_cases with ⟨-, hslot⟩ | ⟨i, hi, hslot⟩
    · left
      simp only [World.sleep, hrow, hfree, hslot, if_false]
    · right
      obtain ⟨-, hsaved, hmod⟩ := hfits (Or.inl hfree) fun _ => List.mem_of_getElem? hi
      obtain ⟨row, free', rfl⟩ : ∃ row free', free = row :: free' :=
        List.exists_cons_of_ne_nil fun hnil => hfree (h.rows.frees.eq_nil_iff.1 hnil)
      obtain rfl : w.service.sleepFree = row := h.rows.frees.1
      obtain ⟨hslots, -, -⟩ := h.slots.alloc hi
      have hrows : Rows ({ w.service with bits := w.service.bits.set i true }) (ws.map (·.1))
          (w.service.sleepFree :: free') subs := ⟨h.rows.waits, h.rows.frees, h.rows.listed, h.rows.placed⟩
      have htaken := sleep_taken hrow hfree hslot hsaved (hempty i hi)
      rw [hmod] at htaken
      refine ⟨_, (w.service.sleepFree, ⟨w.calls, m.now, m.word⟩) :: ws, free', htaken, ?_, rfl, rfl⟩
      exact h.hold (n := ⟨w.calls, m.now, m.word⟩) hrows.holdFree hslots rfl rfl rfl
  · -- a new row, for which there is a slot
    right
    obtain ⟨hbit, hsaved, hmod⟩ := hfits (Or.inr hcarve) fun hne => absurd hfree hne
    obtain rfl : free = [] := h.rows.frees.eq_nil_iff.2 hfree
    obtain ⟨s, hs⟩ : ∃ s, s = { w.service with bump := w.service.bump + kSleepBytes } := ⟨_, rfl⟩
    rcases s.slotAlloc_cases with ⟨hno, -⟩ | ⟨i, hi, hslot⟩
    · rw [hs] at hno
      exact absurd hbit hno
    · rw [← hs] at hrow
      have hi' : w.service.bits[i]? = some false := by
        rw [hs] at hi
        exact hi
      obtain ⟨hslots, -, -⟩ := h.slots.alloc hi'
      have hrows : Rows ({ w.service with bits := w.service.bits.set i true }) (ws.map (·.1)) [] subs :=
        ⟨h.rows.waits, h.rows.frees, h.rows.listed, h.rows.placed⟩
      have hheld : w.held (s.slotBase + i) = none := by
        rw [hs]
        exact hempty i hi'
      have htaken := sleep_taken hrow hcarve.1 hslot hsaved hheld
      rw [hmod, hs] at htaken
      refine ⟨_, (w.service.bump, ⟨w.calls, m.now, m.word⟩) :: ws, [], htaken, ?_, rfl, rfl⟩
      refine h.hold (n := ⟨w.calls, m.now, m.word⟩) (hrows.holdNew hcarve.1) ?_ rfl rfl rfl
      exact ⟨hslots.split, hslots.base, hslots.room⟩
  · left
    simp only [World.sleep, hrow, if_true]

theorem leave {s : Service} (h : Rep w t ws free subs)
    (hs : s = { w.service with bits := s.bits, bump := s.bump }) (hb : w.service.bump ≤ s.bump)
    (hslots : Slots s (w.service.slotsOf ws ++ w.service.notes subs)) :
    Rep { w with service := s } t ws free subs := by
  obtain ⟨bits, hbits⟩ : ∃ bits, bits = s.bits := ⟨_, rfl⟩
  obtain ⟨bump, hbump⟩ : ∃ bump, bump = s.bump := ⟨_, rfl⟩
  rw [← hbits, ← hbump] at hs
  subst hs
  exact ⟨⟨h.rows.waits, h.rows.frees, h.rows.listed, h.rows.placed.mono hb⟩, h.naps, hslots, h.held, h.target,
    h.empty, h.answers⟩

theorem enlist {s : Service} {slot period : ℕ} (h : Rep w t ws free subs) (hb : w.service.bump ≠ 0)
    (hs : s = { w.service with bits := s.bits, bump := w.service.bump + kSubscriberBytes })
    (hslots : Slots s (slot :: (w.service.slotsOf ws ++ w.service.notes subs))) :
    Rep { w with service := s.enlist w.service.bump slot period now } t ws free (w.service.bump :: subs) := by
  obtain ⟨bits, hbits⟩ : ∃ bits, bits = s.bits := ⟨_, rfl⟩
  rw [← hbits] at hs
  have hrows : Rows { w.service with bits := bits } (ws.map (·.1)) free subs :=
    ⟨h.rows.waits, h.rows.frees, h.rows.listed, h.rows.placed⟩
  have hnotes : (s.enlist w.service.bump slot period now).notes (w.service.bump :: subs) =
      (if w.service.tickNotification = 0 then [] else [w.service.tickNotification]) ++
        slot :: subs.map fun row => (w.service.nodes row).cap := by
    have hcap : ∀ a ∈ subs, ((s.enlist w.service.bump slot period now).nodes a).cap = (w.service.nodes a).cap :=
      fun a ha => by
        have hne : a ≠ w.service.bump := Nat.ne_of_lt (h.rows.placed.sub_lt ha)
        rw [hs]
        simp [Service.enlist, hne]
    have hself : ((s.enlist w.service.bump slot period now).nodes w.service.bump).cap = slot := by
      simp [Service.enlist]
    have htick : (s.enlist w.service.bump slot period now).tickNotification = w.service.tickNotification := by
      rw [hs]
      rfl
    rw [Service.notes, List.map_cons, List.map_congr_left hcap, hself, htick]
  have hof : (s.enlist w.service.bump slot period now).slotsOf ws = w.service.slotsOf ws := by
    rw [hs]
    rfl
  have hperm : (slot :: (w.service.slotsOf ws ++ w.service.notes subs)).Perm
      ((s.enlist w.service.bump slot period now).slotsOf ws ++
        (s.enlist w.service.bump slot period now).notes (w.service.bump :: subs)) := by
    rw [hof, hnotes, Service.notes, ← List.append_assoc, ← List.append_assoc]
    exact List.perm_middle.symm
  have hslots' := hslots.perm hperm
  refine ⟨?_, h.naps, ⟨hslots'.split, hslots'.base, hslots'.room⟩, fun p hp => ?_, fun p hp => ?_, fun i hi => ?_,
    h.answers⟩
  · have henlist := hrows.enlist slot period now hb
    rw [hs]
    exact henlist
  · rw [hs]
    exact h.held p hp
  · rw [hs]
    exact h.target p hp
  · show i ∈ (s.enlist w.service.bump slot period now).slotsOf ws
    rw [hof]
    exact h.empty i hi

/-- **A subscription** is taken with a slot of the pool, or refused. -/
theorem subscribe (h : Rep w t ws free subs) (m : Received) :
    ∃ w' a subs', w.subscribe m = (w', a) ∧ Rep w' t ws free subs' ∧ Quiet w w' := by
  rcases w.service.regionAlloc_cases kSubscriberBytes with hrow | ⟨hb, hrow⟩
  · refine ⟨w, some [0], subs, ?_, h, rfl, rfl⟩
    simp only [World.subscribe, hrow, if_true, Service.refuse]
  · obtain ⟨s, hs⟩ : ∃ s, s = { w.service with bump := w.service.bump + kSubscriberBytes } := ⟨_, rfl⟩
    replace hrow : w.service.regionAlloc kSubscriberBytes = (w.service.bump, s) := hs ▸ hrow
    have hslots : Slots s (w.service.slotsOf ws ++ w.service.notes subs) :=
      hs ▸ ⟨h.slots.split, h.slots.base, h.slots.room⟩
    have hbump : w.service.bump ≤ s.bump := hs ▸ Nat.le_add_right _ _
    rcases s.slotAlloc_cases with ⟨-, hslot⟩ | ⟨i, hi, hslot⟩
    · refine ⟨{ w with service := s }, some [0], subs, ?_, h.leave (by rw [hs]) hbump hslots, rfl, rfl⟩
      simp only [World.subscribe, hrow, hb, hslot, if_false, Service.refuse, if_true]
    · obtain ⟨hslots', -, hdest⟩ := hslots.alloc hi
      cases hmoved : m.moved with
      | true =>
        refine ⟨{ w with
          service := { s with bits := s.bits.set i true }.enlist w.service.bump (s.slotBase + i) m.word m.now },
          some [1], w.service.bump :: subs, ?_, h.enlist hb (by rw [hs]) hslots', rfl, rfl⟩
        simp only [World.subscribe, hrow, hb, hslot, if_false, hmoved, if_true]
      | false =>
        refine ⟨{ w with service := { s with bits := s.bits.set i true }.slotFree (s.slotBase + i) }, some [0], subs,
          ?_, h.leave (by rw [hs]; rfl) hbump hslots'.give, rfl, rfl⟩
        simp only [World.subscribe, hrow, hb, hslot, hmoved, if_false, Bool.false_eq_true, Service.refuse,
          if_neg hdest]

end Rep

end Aegir.Timer
