/-
  The creation order: an owner before its first consumer.
-/
import Aegir.Director.Arrays

namespace Aegir.Director

open Aegir.Lib Aegir.Lib.Fallible

variable {m : Manifest} {next i : ℕ} {s : Building}

/-- All needs resolved, each to a port of another entry. -/
structure Served (m : Manifest) (s : Building) : Prop extends Resolved m (flat m.needRow m.size) s where
  served : ∀ i < m.size, ∀ name ∈ m.needs i, ∃ k < m.size, k ≠ i ∧ name ∈ m.owns k

theorem Served.ready_iff (h : Served m s) (hi : i < m.size) :
    ready s i = true ↔ ∀ k < m.size, ∀ name ∈ m.needs i, name ∈ m.owns k → s.placed k = true := by
  have howner : ∀ j (hj : j < (m.needs i).length), ∀ k < m.size, (m.needs i)[j] ∈ m.owns k →
      (s.ports (s.needPort (s.needOffset i + j))).owner = k := by
    intro j hj k hk howns
    have hrow : (m.needRow i)[j]? = some (m.portOf (m.needs i)[j]) := by
      rw [Manifest.needRow, List.getElem?_map, List.getElem?_eq_getElem hj]
      rfl
    rw [h.needOffset i hi, ← Manifest.offset_needRow, h.needPort.row hi hrow]
    exact (h.port_eq hk howns).2
  simp only [ready, h.needCount i hi, List.all_eq_true, List.mem_range]
  constructor
  · intro hready k hk name hname howns
    obtain ⟨j, hj, rfl⟩ := List.mem_iff_getElem.1 hname
    rw [← howner j hj k hk howns]
    exact hready j hj
  · intro hplaced j hj
    obtain ⟨k, hk, -, howns⟩ := h.served i hi _ (List.getElem_mem hj)
    rw [howner j hj k hk howns]
    exact hplaced k hk _ (List.getElem_mem hj) howns

/-- The first `next` places of the order. -/
structure Ordered (m : Manifest) (next : ℕ) (order : ℕ → ℕ) (placed : ℕ → Bool) : Prop where
  below : ∀ a < next, order a < m.size
  nodup : ((List.range next).map order).Nodup
  placed : ∀ k < m.size, placed k = true ↔ ∃ a < next, order a = k
  owners : ∀ a < next, ∀ k < m.size, ∀ name ∈ m.needs (order a), name ∈ m.owns k → ∃ b < a, order b = k

namespace Ordered

variable {order : ℕ → ℕ} {placed : ℕ → Bool}

theorem mem_order (h : Ordered m next order placed) {k : ℕ} (hk : k < m.size) :
    placed k = true ↔ k ∈ (List.range next).map order := by
  rw [h.placed k hk, List.mem_map]
  constructor
  · rintro ⟨a, ha, rfl⟩
    exact ⟨a, List.mem_range.2 ha, rfl⟩
  · rintro ⟨a, ha, rfl⟩
    exact ⟨a, List.mem_range.1 ha, rfl⟩

theorem exists_unplaced (h : Ordered m next order placed) (hnext : next < m.size) :
    ((Finset.range m.size).filter fun k => placed k = false).Nonempty := by
  rw [Finset.filter_nonempty_iff]
  by_contra hall
  push Not at hall
  have hsub : List.range m.size ⊆ (List.range next).map order := by
    intro k hk
    rw [List.mem_range] at hk
    rw [← h.mem_order hk]
    simpa using hall k (Finset.mem_range.2 hk)
  have hlen := (List.nodup_range.subperm hsub).length_le
  rw [List.length_map, List.length_range, List.length_range] at hlen
  omega

theorem place (h : Ordered m next order placed) (hi : i < m.size) (hnew : placed i = false)
    (hready : ∀ k < m.size, ∀ name ∈ m.needs i, name ∈ m.owns k → placed k = true) :
    Ordered m (next + 1) (Function.update order next i) (Function.update placed i true) := by
  have hbelow : ∀ a < next, Function.update order next i a = order a := fun a ha => Function.update_of_ne (by omega) _ _
  refine ⟨fun a ha => ?_, ?_, fun k hk => ?_, fun a ha k hk name hname howns => ?_⟩
  · by_cases hat : a = next
    · rw [hat, Function.update_self]
      exact hi
    · rw [Function.update_of_ne hat]
      exact h.below a (by omega)
  · have hmap : (List.range (next + 1)).map (Function.update order next i) = (List.range next).map order ++ [i] := by
      rw [List.range_succ, List.map_append, List.map_singleton, Function.update_self]
      congr 1
      exact List.map_congr_left fun a ha => hbelow a (List.mem_range.1 ha)
    rw [hmap, List.nodup_append]
    refine ⟨h.nodup, List.nodup_singleton i, fun a ha b hb hab => ?_⟩
    rw [List.mem_singleton] at hb
    rw [hab, hb, ← h.mem_order hi, hnew] at ha
    cases ha
  · by_cases hat : k = i
    · rw [hat, Function.update_self]
      exact iff_of_true rfl ⟨next, by omega, Function.update_self _ _ _⟩
    · rw [Function.update_of_ne hat, h.placed k hk]
      constructor
      · rintro ⟨a, ha, hak⟩
        exact ⟨a, by omega, (hbelow a ha).trans hak⟩
      · rintro ⟨a, ha, hak⟩
        have hne : a ≠ next := by
          rintro rfl
          exact hat (hak.symm.trans (Function.update_self _ _ _))
        exact ⟨a, by omega, (hbelow a (by omega)).symm.trans hak⟩
  · by_cases hat : a = next
    · subst hat
      rw [Function.update_self] at hname
      obtain ⟨b, hb, hbk⟩ := (h.placed k hk).1 (hready k hk name hname howns)
      exact ⟨b, hb, (hbelow b hb).trans hbk⟩
    · have hlt : a < next := by omega
      rw [Function.update_of_ne hat] at hname
      obtain ⟨b, hb, hbk⟩ := h.owners a hlt k hk name hname howns
      exact ⟨b, hb, (hbelow b (hb.trans hlt)).trans hbk⟩

/-! All placed. -/

theorem perm (h : Ordered m m.size order placed) : ((List.range m.size).map order).Perm (List.range m.size) := by
  refine (h.nodup.subperm fun i hi => ?_).perm_of_length_le (by simp)
  obtain ⟨a, ha, rfl⟩ := List.mem_map.1 hi
  exact List.mem_range.2 (h.below a (List.mem_range.1 ha))

theorem before (h : Ordered m m.size order placed) {i k : ℕ} (hneeds : m.Needs i k) :
    ∃ a b, a < b ∧ b < m.size ∧ order a = k ∧ order b = i := by
  obtain ⟨hi, hk, name, hname, howns⟩ := hneeds
  obtain ⟨b, hb, rfl⟩ := List.mem_map.1 (h.perm.mem_iff.2 (List.mem_range.2 hi))
  rw [List.mem_range] at hb
  obtain ⟨a, ha, rfl⟩ := h.owners b hb k hk name hname howns
  exact ⟨a, b, ha, hb, rfl, rfl⟩

theorem acyclic (h : Ordered m m.size order placed) : Acyclic m.Needs := by
  have hidx : ∀ a < m.size, ((List.range m.size).map order).idxOf (order a) = a := by
    intro a ha
    have hlen : a < ((List.range m.size).map order).length := by simpa using ha
    have hat := h.nodup.idxOf_getElem a hlen
    rwa [List.getElem_map, List.getElem_range] at hat
  refine acyclic_of_rank (fun i => ((List.range m.size).map order).idxOf i) fun i k hneeds => ?_
  obtain ⟨a, b, hab, hb, rfl, rfl⟩ := h.before hneeds
  rw [hidx a (by omega), hidx b hb]
  exact hab

end Ordered

/-! ## The passes -/

structure Placed (m : Manifest) (next : ℕ) (s : Building) : Prop extends Served m s where
  ordered : Ordered m next s.order s.placed

theorem placeNext_post (hnext : next < m.size) (h : Placed m next s) :
    Post (fun _ => Placed m (next + 1)) (fun _ => ¬ m.Buildable) (placeNext next s) := by
  simp only [placeNext, get_bind_run, h.entryCount]
  cases hfind : (List.range m.size).find? fun i => !s.placed i && ready s i with
  | some i =>
    have hi : i < m.size := List.mem_range.1 (List.mem_of_find?_eq_some hfind)
    have hfound := List.find?_some hfind
    rw [Bool.and_eq_true, Bool.not_eq_true'] at hfound
    exact { h with ordered := h.ordered.place hi hfound.1 ((h.ready_iff hi).1 hfound.2) }
  | none =>
    refine refuse_post fun hb => ?_
    obtain ⟨i, hi, hnone⟩ := hb.acyclic.exists_ready (h.ordered.exists_unplaced hnext)
    rw [Finset.mem_filter, Finset.mem_range] at hi
    refine List.find?_eq_none.1 hfind i (List.mem_range.2 hi.1) ?_
    rw [hi.2, Bool.not_false, Bool.true_and, h.ready_iff hi.1]
    intro k hk name hname howns
    by_contra hplaced
    refine hnone k ?_ ⟨hi.1, hk, name, hname, howns⟩
    rw [Finset.mem_filter, Finset.mem_range]
    exact ⟨hk, by simpa using hplaced⟩

theorem place_post (h : Served m s) (hclear : s.placed = fun _ => false) :
    Post (fun _ => Placed m m.size) (fun _ => ¬ m.Buildable) (forRange m.size placeNext s) := by
  refine Post.forRange (Placed m) { h with ordered := ⟨?_, List.nodup_nil, ?_, ?_⟩ } fun next hnext s hs =>
    placeNext_post hnext hs
  · intro a ha
    omega
  · intro k _
    rw [hclear]
    exact iff_of_false (by simp) (by rintro ⟨a, ha, -⟩; omega)
  · intro a ha
    omega

end Aegir.Director
