/-
  Rows and sources in step.
-/
import Aegir.Registry.Service
import Aegir.Lib.Table

namespace Aegir.Registry

open Aegir.Ipc Aegir.Lib

section
variable {rows rows' : List Row} {pid flags caller i : ℕ} {r : Row}

theorem find_some (h : find rows pid = some i) : ∃ r, rows[i]? = some r ∧ r.pid = pid := by
  obtain ⟨hi, hp, -⟩ := List.findIdx?_eq_some_iff_getElem.1 h
  exact ⟨rows[i], List.getElem?_eq_getElem hi, of_decide_eq_true hp⟩

theorem find_none (h : find rows pid = none) (hr : r ∈ rows) : r.pid ≠ pid := by
  have hp := List.findIdx?_eq_none_iff.1 h r hr
  exact of_decide_eq_false hp

theorem find_isSome (hr : r ∈ rows) : (find rows r.pid).isSome = true := by
  rcases hf : find rows r.pid with _ | i
  · exact absurd rfl (find_none hf hr)
  · rfl

theorem remove_eq (h : find rows pid = some i) : remove rows pid = some (swapRemove rows i) := by
  obtain ⟨r, hr, -⟩ := find_some h
  rcases List.eq_nil_or_concat rows with rfl | ⟨l, a, rfl⟩
  · cases hr
  · rw [List.concat_eq_append] at h ⊢
    rw [remove, h, List.getLast?_append, List.getLast?_singleton, Option.some_or, swapRemove_append]

theorem map_pid_modify (rows : List Row) (i flags : ℕ) :
    (rows.modify i (·.setFlags flags)).map (·.pid) = rows.map (·.pid) := by
  refine List.ext_getElem? fun j => ?_
  rw [List.getElem?_map, List.getElem?_map, List.getElem?_modify]
  rcases rows[j]? with _ | r
  · rfl
  · simp only [Option.map_eq_map, Option.map_some]
    split <;> rfl

end

namespace World

def pids (w : World) : List ℕ := w.service.rows.map (·.pid)

def entries (w : World) : List (ℕ × ℕ) := w.pids.zip (w.service.sources.take w.pids.length)

/-- The slots of the capabilities that live rows and owners lead to. -/
def reach (w : World) : List ℕ := (w.entries.map (·.2)).filter (· ≠ 0) ++ w.service.owners.map (·.port)

end World

/-- A row's source is the capability its process registered. -/
def Sourced (w : World) (e : ℕ × ℕ) : Prop :=
  e.2 = 0 ∧ w.given e.1 = none ∨ e.2 ≠ 0 ∧ ∃ object, w.caps e.2 = some object ∧ w.given e.1 = some object

/-- The registry's tables are in step, its slots being those from `first` on. -/
structure InStep (first : ℕ) (w : World) : Prop where
  room : w.pids.length ≤ w.service.capacity
  beside : w.service.sources.length = w.service.capacity
  pids : w.pids.Nodup
  sourced : ∀ e ∈ w.entries, Sourced w e
  owners : (w.service.owners.map (·.badge)).Nodup
  slots : w.reach.Nodup
  below : ∀ slot ∈ w.reach, first ≤ slot ∧ slot < w.service.next
  first_pos : 0 < first
  first_le : first ≤ w.service.next
  next_le : w.service.next ≤ w.service.slotsEnd

section
variable {first pid source slot badge i : ℕ} {w w' : World} {m : Received}

theorem InStep.length_take (h : InStep first w) : (w.service.sources.take w.pids.length).length = w.pids.length :=
  List.length_take_of_le (h.beside.symm ▸ h.room)

theorem InStep.entries_fst (h : InStep first w) : w.entries.map (·.1) = w.pids :=
  List.map_fst_zip (Nat.le_of_eq h.length_take.symm)

theorem InStep.entry (h : InStep first w) {r : Row} (hr : w.service.rows[i]? = some r) :
    w.entries[i]? = some (r.pid, w.service.sources.getD i 0) := by
  have hpid : w.pids[i]? = some r.pid := by
    rw [World.pids, List.getElem?_map, hr]
    rfl
  have hi : i < w.pids.length := (List.getElem?_eq_some_iff.1 hpid).1
  have hs : i < w.service.sources.length := h.beside.symm ▸ Nat.lt_of_lt_of_le hi h.room
  rw [World.entries, List.getElem?_zip_eq_some, hpid, List.getElem?_take_of_lt hi]
  refine ⟨rfl, ?_⟩
  rw [List.getD_eq_getElem?_getD, List.getElem?_eq_getElem hs, Option.getD_some]

/-! ## A row dropped -/

theorem dropRow_eq (h : find w.service.rows pid = some i) :
    w.dropRow pid =
      { w with
        service := { w.service with
          rows := swapRemove w.service.rows i
          sources := (w.service.sources.set i (w.service.sources.getD (w.service.rows.length - 1) 0)).set
            (w.service.rows.length - 1) 0 }
        caps := if w.service.sources.getD i 0 ≠ 0 then Function.update w.caps (w.service.sources.getD i 0) none
          else w.caps
        given := Function.update w.given pid none } := by
  have hrows : ∀ c, (handle c w.service.rows kMethodUnregister [pid] 0).2 = swapRemove w.service.rows i := fun c => by
    have hremove : handle c w.service.rows kMethodUnregister [pid] 0 =
        outcome w.service.rows kProcessAdded kProcessRefused (remove w.service.rows pid) := rfl
    rw [hremove, remove_eq h]
    rfl
  unfold World.dropRow
  rw [h]
  dsimp only
  by_cases hs : w.service.sources.getD i 0 = 0
  · rw [if_neg (not_not_intro hs), if_neg (not_not_intro hs), hrows, length_swapRemove]
    rfl
  · rw [if_pos hs, if_pos hs]
    simp only [World.delete, hrows, length_swapRemove]
    rfl

theorem entries_dropRow (h : InStep first w) (hf : find w.service.rows pid = some i) :
    (w.dropRow pid).entries = swapRemove w.entries i := by
  obtain ⟨r, hr, -⟩ := find_some hf
  have hi : i < w.service.rows.length := (List.getElem?_eq_some_iff.1 hr).1
  have hlen : w.pids.length = w.service.rows.length := List.length_map ..
  obtain ⟨n, hn⟩ : ∃ n, w.service.rows.length = n + 1 := Nat.exists_eq_succ_of_ne_zero (by omega)
  have hlt : n < w.service.sources.length := by
    have hroom := h.room
    rw [h.beside]
    omega
  have hlast : w.service.sources[n]? = some (w.service.sources.getD n 0) := by
    rw [List.getD_eq_getElem?_getD, List.getElem?_eq_getElem hlt, Option.getD_some]
  have hpids : (w.dropRow pid).pids = swapRemove w.pids i := by
    rw [dropRow_eq hf]
    exact map_swapRemove _ _ _
  have hsources : (w.dropRow pid).service.sources =
      (w.service.sources.set i (w.service.sources.getD n 0)).set n 0 := by
    rw [dropRow_eq hf, hn]
    rfl
  have htake := take_set_set (c := 0) hlt hlast (Nat.le_of_lt_succ (hn ▸ hi))
  rw [World.entries, hpids, length_swapRemove, hsources, hlen, hn, Nat.add_sub_cancel, htake, ← hn, ← hlen]
  exact zip_swapRemove h.length_take.symm (hlen ▸ hi)

theorem reach_perm {w' : World} (pid : ℕ) (hp : ((pid, source) :: w'.entries).Perm w.entries)
    (ho : w'.service.owners.map (·.port) = w.service.owners.map (·.port)) :
    ((if source = 0 then [] else [source]) ++ w'.reach).Perm w.reach := by
  have hfilter := (hp.map (·.2)).filter (· ≠ 0)
  rw [World.reach, World.reach, ho, ← List.append_assoc]
  refine List.Perm.append_right _ ?_
  refine List.Perm.trans ?_ hfilter
  rw [List.map_cons]
  by_cases hs : source = 0
  · rw [if_pos hs, List.filter_cons_of_neg (by simp [hs]), List.nil_append]
  · rw [if_neg hs, List.filter_cons_of_pos (by simp [hs])]
    exact List.Perm.refl _

/-- **A row dropped**: its entry goes, and what the others lead to stays. -/
theorem InStep.dropRow (h : InStep first w) (hf : find w.service.rows pid = some i) :
    InStep first (w.dropRow pid) ∧
      ((if w.service.sources.getD i 0 = 0 then [] else [w.service.sources.getD i 0]) ++ (w.dropRow pid).reach).Perm
        w.reach := by
  obtain ⟨r, hr, rfl⟩ := find_some hf
  obtain ⟨source, hsource⟩ : ∃ source, source = w.service.sources.getD i 0 := ⟨_, rfl⟩
  have hentry := h.entry hr
  have hperm := swapRemove_perm hentry
  rw [← entries_dropRow h hf, ← hsource] at hperm
  have hreach := reach_perm r.pid hperm (by rw [dropRow_eq hf])
  have hpids : (r.pid :: (w.dropRow r.pid).entries.map (·.1)).Nodup := by
    have hnodup := (hperm.map (·.1)).nodup_iff.2 (h.entries_fst.symm ▸ h.pids)
    exact hnodup
  have hnodup := hreach.nodup_iff.2 h.slots
  have hsub : ∀ slot ∈ (w.dropRow r.pid).reach, slot ∈ w.reach := fun slot hs =>
    hreach.mem_iff.1 (List.mem_append_right _ hs)
  have hdrop := dropRow_eq hf
  rw [← hsource] at hdrop ⊢
  have hlen : (w.dropRow r.pid).pids.length = w.pids.length - 1 := by
    rw [hdrop, World.pids, World.pids, List.length_map, List.length_map, length_swapRemove]
  have hfst : (w.dropRow r.pid).entries.map (·.1) = (w.dropRow r.pid).pids := by
    rw [entries_dropRow h hf, map_swapRemove, h.entries_fst, hdrop]
    exact (map_swapRemove _ _ _).symm
  refine ⟨⟨?_, ?_, hfst ▸ (List.nodup_cons.1 hpids).2, fun e he => ?_, ?_, (List.nodup_append.1 hnodup).2.1,
    fun slot hs => ?_, h.first_pos, ?_, ?_⟩, hreach⟩
  · rw [hlen, hdrop]
    exact Nat.le_trans (Nat.sub_le _ _) h.room
  · rw [hdrop]
    simpa using h.beside
  · have hold := h.sourced e (hperm.mem_iff.1 (List.mem_cons_of_mem _ he))
    have hpid : e.1 ≠ r.pid := fun heq => by
      have hmem := List.mem_map_of_mem (f := (·.1)) he
      rw [heq] at hmem
      exact (List.nodup_cons.1 hpids).1 hmem
    have hgiven : (w.dropRow r.pid).given e.1 = w.given e.1 := by
      rw [hdrop]
      exact Function.update_of_ne hpid _ _
    rcases hold with ⟨hz, hg⟩ | ⟨hne, object, hc, hg⟩
    · exact Or.inl ⟨hz, hgiven.trans hg⟩
    · refine Or.inr ⟨hne, object, ?_, hgiven.trans hg⟩
      rw [hdrop]
      show (if source ≠ 0 then Function.update w.caps source none else w.caps) e.2 = some object
      split
      · rename_i hs
        have hin : e.2 ∈ (w.dropRow r.pid).reach :=
          List.mem_append_left _ (List.mem_filter.2 ⟨List.mem_map_of_mem he, by simpa using hne⟩)
        have hdiff : e.2 ≠ source := fun heq => by
          rw [if_neg hs] at hnodup
          exact (List.nodup_cons.1 hnodup).1 (heq ▸ hin)
        rw [Function.update_of_ne hdiff]
        exact hc
      · exact hc
  · rw [hdrop]
    exact h.owners
  · rw [hdrop]
    exact h.below slot (hsub slot hs)
  · rw [hdrop]
    exact h.first_le
  · rw [hdrop]
    exact h.next_le

/-! ## Slots handed out -/

theorem allocSlot_cases (w : World) :
    (w.service.slotsEnd ≤ w.service.next ∧ w.allocSlot = (0, w)) ∨
      (w.service.next < w.service.slotsEnd ∧
        w.allocSlot = (w.service.next, w.edit fun s => { s with next := s.next + 1 })) := by
  unfold World.allocSlot
  split
  · rename_i h
    exact Or.inl ⟨h, rfl⟩
  · rename_i h
    exact Or.inr ⟨Nat.lt_of_not_le h, rfl⟩

/-- Two states with the same tables, the second with more slots handed out. -/
structure Same (w w' : World) : Prop where
  pids : w'.pids = w.pids
  sources : w'.service.sources = w.service.sources
  owners : w'.service.owners = w.service.owners
  capacity : w'.service.capacity = w.service.capacity
  slotsEnd : w'.service.slotsEnd = w.service.slotsEnd
  caps : w'.caps = w.caps
  given : w'.given = w.given

theorem Same.entries (h : Same w w') : w'.entries = w.entries := by
  rw [World.entries, World.entries, h.pids, h.sources]

theorem Same.reach (h : Same w w') : w'.reach = w.reach := by
  rw [World.reach, World.reach, h.entries, h.owners]

theorem InStep.same (h : InStep first w) (hs : Same w w') (hn : w.service.next ≤ w'.service.next)
    (hle : w'.service.next ≤ w'.service.slotsEnd) : InStep first w' := by
  refine ⟨?_, ?_, hs.pids ▸ h.pids, fun e he => ?_, hs.owners ▸ h.owners, hs.reach ▸ h.slots, fun slot hslot => ?_,
    h.first_pos, Nat.le_trans h.first_le hn, hle⟩
  · rw [hs.pids, hs.capacity]
    exact h.room
  · rw [hs.sources, hs.capacity]
    exact h.beside
  · have hold := h.sourced e (hs.entries ▸ he)
    rwa [Sourced, ← hs.caps, ← hs.given] at hold
  · obtain ⟨hlo, hhi⟩ := h.below slot (hs.reach ▸ hslot)
    exact ⟨hlo, Nat.lt_of_lt_of_le hhi hn⟩

/-! ## A row added -/

/-- **A row added**, with the source its process registered or with none. -/
theorem InStep.add (w' : World) (source : ℕ) (given : Option ℕ) (h : InStep first w) (hroom : w.pids.length < w.service.capacity)
    (hnew : pid ∉ w.pids) (hpids : w'.pids = w.pids ++ [pid])
    (hsources : w'.service.sources = w.service.sources.set w.pids.length source)
    (howners : w'.service.owners = w.service.owners) (hcapacity : w'.service.capacity = w.service.capacity)
    (hgiven : w'.given = Function.update w.given pid given)
    (hcaps : ∀ slot < w.service.next, w'.caps slot = w.caps slot)
    (hs : source = 0 ∧ given = none ∨ w.service.next ≤ source ∧ source < w'.service.next ∧
      ∃ object, w'.caps source = some object ∧ given = some object)
    (hn : w.service.next ≤ w'.service.next) (hle : w'.service.next ≤ w'.service.slotsEnd) :
    InStep first w' ∧ w'.reach.Perm ((if source = 0 then [] else [source]) ++ w.reach) := by
  have hlt : w.pids.length < w.service.sources.length := h.beside.symm ▸ hroom
  have hentries : w'.entries = w.entries ++ [(pid, source)] := by
    have htake : w'.service.sources.take w'.pids.length = w.service.sources.take w.pids.length ++ [source] := by
      rw [hsources, hpids, List.length_append, List.length_singleton, List.take_add_one,
        List.getElem?_set_self hlt, List.take_set_of_le (Nat.le_refl _)]
      rfl
    rw [World.entries, htake, hpids, List.zip_append h.length_take.symm]
    rfl
  have hreach : w'.reach.Perm ((if source = 0 then [] else [source]) ++ w.reach) := by
    refine (reach_perm pid ?_ ?_).symm
    · rw [hentries]
      exact (List.perm_append_singleton _ _).symm
    · rw [howners]
  have hold : ∀ slot ∈ w.reach, first ≤ slot ∧ slot < w'.service.next := fun slot hslot =>
    ⟨(h.below slot hslot).1, Nat.lt_of_lt_of_le (h.below slot hslot).2 hn⟩
  refine ⟨⟨?_, ?_, ?_, fun e he => ?_, howners ▸ h.owners, hreach.symm.nodup_iff.1 ?_, fun slot hslot => ?_,
    h.first_pos, Nat.le_trans h.first_le hn, hle⟩, hreach⟩
  · rw [hpids, hcapacity, List.length_append]
    exact hroom
  · rw [hsources, hcapacity, List.length_set]
    exact h.beside
  · rw [hpids]
    exact List.nodup_append.2 ⟨h.pids, List.nodup_singleton _, fun a ha b hb heq =>
      hnew (List.mem_singleton.1 hb ▸ heq ▸ ha)⟩
  · rw [Sourced, hgiven]
    rw [hentries] at he
    rcases List.mem_append.1 he with he | he
    · have hpid : e.1 ≠ pid := fun heq => by
        have hmem := List.mem_map_of_mem (f := (·.1)) he
        rw [h.entries_fst, heq] at hmem
        exact hnew hmem
      rw [Function.update_of_ne hpid]
      rcases h.sourced e he with hz | ⟨hne, object, hc, hg⟩
      · exact Or.inl hz
      · have hin : e.2 ∈ w.reach :=
          List.mem_append_left _ (List.mem_filter.2 ⟨List.mem_map_of_mem he, by simpa using hne⟩)
        exact Or.inr ⟨hne, object, (hcaps _ (h.below _ hin).2).trans hc, hg⟩
    · obtain rfl := List.mem_singleton.1 he
      rw [Function.update_self]
      rcases hs with hz | ⟨hlo, -, hobject⟩
      · exact Or.inl hz
      · have hpos := Nat.lt_of_lt_of_le h.first_pos (Nat.le_trans h.first_le hlo)
        exact Or.inr ⟨Nat.ne_of_gt hpos, hobject⟩
  · rcases hs with ⟨rfl, -⟩ | ⟨hlo, -, -⟩
    · exact h.slots
    · have hpos := Nat.lt_of_lt_of_le h.first_pos (Nat.le_trans h.first_le hlo)
      rw [if_neg (Nat.ne_of_gt hpos)]
      exact List.nodup_cons.2 ⟨fun hmem => Nat.not_lt.2 hlo (h.below _ hmem).2, h.slots⟩
  · rcases List.mem_append.1 (hreach.mem_iff.1 hslot) with hslot | hslot
    · rcases hs with ⟨rfl, -⟩ | ⟨hlo, hhi, -⟩
      · exact absurd hslot List.not_mem_nil
      · split at hslot
        · exact absurd hslot List.not_mem_nil
        · obtain rfl := List.mem_singleton.1 hslot
          exact ⟨Nat.le_trans h.first_le hlo, hhi⟩
    · exact hold slot hslot

/-! ## Owners -/

theorem InStep.own (h : InStep first w) (hpids : w'.pids = w.pids) (hsources : w'.service.sources = w.service.sources)
    (hcapacity : w'.service.capacity = w.service.capacity) (hgiven : w'.given = w.given)
    (howners : (w'.service.owners.map (·.badge)).Nodup)
    (hcaps : ∀ e ∈ w.entries, e.2 ≠ 0 → w'.caps e.2 = w.caps e.2) (hslots : w'.reach.Nodup)
    (hbelow : ∀ slot ∈ w'.reach, first ≤ slot ∧ slot < w'.service.next)
    (hn : w.service.next ≤ w'.service.next) (hle : w'.service.next ≤ w'.service.slotsEnd) : InStep first w' := by
  have hentries : w'.entries = w.entries := by rw [World.entries, World.entries, hpids, hsources]
  refine ⟨?_, ?_, hpids ▸ h.pids, fun e he => ?_, howners, hslots, hbelow, h.first_pos, Nat.le_trans h.first_le hn, hle⟩
  · rw [hpids, hcapacity]
    exact h.room
  · rw [hsources, hcapacity]
    exact h.beside
  · rw [Sourced, hgiven]
    rw [hentries] at he
    rcases h.sourced e he with hz | ⟨hne, object, hc, hg⟩
    · exact Or.inl hz
    · exact Or.inr ⟨hne, object, (hcaps e he hne).trans hc, hg⟩

end

end Aegir.Registry
