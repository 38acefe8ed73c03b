/-
  What the timer is for: every sleep it takes is answered once, when it is due.
-/
import Aegir.Timer.Service

namespace Aegir.Timer

structure Sleepers where
  waiting : List Nap
  answered : List (Nap × ℕ)

namespace Sleepers

def take (t : Sleepers) (n : Nap) : Sleepers := { t with waiting := n :: t.waiting }

def tick (t : Sleepers) (now : ℕ) : Sleepers where
  waiting := t.waiting.filter fun n => ¬ n.due ≤ now
  answered := t.answered ++ (t.waiting.filter fun n => n.due ≤ now).map fun n => (n, now)

/-- Every sleep taken waits or was answered, and none was before it was due. -/
structure Sound (t : Sleepers) (taken : List Nap) : Prop where
  split : (t.waiting ++ t.answered.map (·.1)).Perm taken
  due : ∀ r ∈ t.answered, r.1.due ≤ r.2

variable {t : Sleepers} {taken : List Nap} {n : Nap} {now time : ℕ}

theorem sound_nil : (⟨[], []⟩ : Sleepers).Sound [] := ⟨List.Perm.refl _, fun _ h => absurd h List.not_mem_nil⟩

theorem Sound.take (h : t.Sound taken) (n : Nap) : (t.take n).Sound (taken ++ [n]) :=
  ⟨(h.split.cons n).trans (List.perm_append_singleton n taken).symm, h.due⟩

theorem Sound.tick (h : t.Sound taken) (now : ℕ) : (t.tick now).Sound taken := by
  refine ⟨?_, fun r hr => ?_⟩
  · have hparts := List.filter_append_perm (fun n : Nap => decide (n.due ≤ now)) t.waiting
    have hmap : ((t.waiting.filter fun n => n.due ≤ now).map fun n => (n, now)).map (·.1) =
        t.waiting.filter fun n => n.due ≤ now := by
      rw [List.map_map]
      exact List.map_id _
    refine List.Perm.trans ?_ h.split
    simp only [Sleepers.tick, List.map_append, hmap, decide_not]
    refine List.perm_append_comm.trans ?_
    rw [List.append_assoc]
    exact (hparts.append_left _).trans List.perm_append_comm
  · rcases List.mem_append.1 hr with hr | hr
    · exact h.due r hr
    · obtain ⟨n, hn, rfl⟩ := List.mem_map.1 hr
      simpa using (List.mem_filter.1 hn).2

theorem not_due_of_tick (hn : n ∈ (t.tick now).waiting) : now < n.due := by
  simpa using (List.mem_filter.1 hn).2

theorem Sound.nodup (h : t.Sound taken) (hcalls : (taken.map (·.call)).Nodup) :
    (t.waiting.map (·.call) ++ t.answered.map (·.1.call)).Nodup := by
  have hperm := (h.split.map (·.call)).nodup_iff.2 hcalls
  rwa [List.map_append, List.map_map] at hperm

def answers (t : Sleepers) (call : ℕ) : ℕ := (t.answered.map (·.1.call)).count call

theorem Sound.answers (h : t.Sound taken) (hcalls : (taken.map (·.call)).Nodup) (hn : n ∈ taken) :
    n ∈ t.waiting ∧ t.answers n.call = 0 ∨
      n ∉ t.waiting ∧ t.answers n.call = 1 ∧ ∃ time, (n, time) ∈ t.answered ∧ n.due ≤ time := by
  obtain ⟨-, hanswered, hapart⟩ := List.nodup_append.1 (h.nodup hcalls)
  rcases List.mem_append.1 (h.split.mem_iff.2 hn) with hw | ha
  · refine Or.inl ⟨hw, List.count_eq_zero.2 fun hmem => ?_⟩
    exact hapart _ (List.mem_map_of_mem hw) _ hmem rfl
  · obtain ⟨⟨n, time⟩, hr, rfl⟩ := List.mem_map.1 ha
    have hmem : n.call ∈ t.answered.map (·.1.call) := List.mem_map.2 ⟨_, hr, rfl⟩
    refine Or.inr ⟨fun hw => ?_, List.count_eq_one_of_mem hanswered hmem, time, hr, h.due _ hr⟩
    exact hapart _ (List.mem_map_of_mem hw) _ hmem rfl

end Sleepers

end Aegir.Timer
