/-
  What each call does to the tables.
-/
import Aegir.Registry.Rows

namespace Aegir.Registry

open Aegir.Ipc Aegir.Lib

namespace World

def Tight (first : ℕ) (w : World) : Prop := w.service.next = first + w.reach.length

def hasSlot (w : World) : Prop := w.service.next < w.service.slotsEnd

/-- The slot of a live process's source; zero when it has none. -/
def sourceOf (w : World) (pid : ℕ) : ℕ :=
  ((find w.service.rows pid).map fun i => w.service.sources.getD i 0).getD 0

/-- A call gives up no slot it was handed, and none that a row or an owner led to. -/
structure Spares (w : World) (m : Received) : Prop where
  owner : m.method = kMethodOwner → m.words ≠ [] → m.cap ≠ none → w.hasSlot →
    m.taken = true ∧ m.word 0 ≠ 0 ∧ (∀ o ∈ w.service.owners, o.badge ≠ m.word 0) ∧
      w.service.owners.length < w.service.capacity
  unregister : m.method = kMethodUnregister → m.words ≠ [] → w.sourceOf (m.word 0) = 0
  register : m.method = kMethodRegister → kRowWords ≤ m.words.length →
    w.service.rows.length < w.service.capacity → find w.service.rows (m.word 0) = none → m.cap ≠ none → w.hasSlot →
    m.taken = true
  break_ : m.method = kMethodBreak → 2 ≤ m.words.length → mayBreak m.badge (m.word 0) = true →
    attn (m.word 1) ≠ 0 → w.sourceOf (m.word 0) = 0

end World

section
variable {first pid source slot badge i : ℕ} {w w' : World} {m : Received}

theorem InStep.alloc (h : InStep first w) (hs : w.hasSlot) :
    InStep first (w.edit fun s => { s with next := s.next + 1 }) :=
  h.same ⟨rfl, rfl, rfl, rfl, rfl, rfl, rfl⟩ (Nat.le_succ _) hs

/-! ## A spawner's port -/

theorem InStep.mem_reach (h : InStep first w) {e : ℕ × ℕ} (he : e ∈ w.entries) (hne : e.2 ≠ 0) :
    e.2 ∈ w.reach ∧ e.2 < w.service.next := by
  have hin : e.2 ∈ w.reach := List.mem_append_left _ (List.mem_filter.2 ⟨List.mem_map_of_mem he, by simpa using hne⟩)
  exact ⟨hin, (h.below _ hin).2⟩

theorem InStep.wasted (h : InStep first w) (hs : w.hasSlot) (cap : Option ℕ) :
    InStep first ({ w with
      service := { w.service with next := w.service.next + 1 }
      caps := Function.update w.caps w.service.next cap }) := by
  refine h.own rfl rfl rfl rfl h.owners (fun e he hne => ?_) h.slots (fun slot hslot => ?_) (Nat.le_succ _) hs
  · exact Function.update_of_ne (Nat.ne_of_lt (h.mem_reach he hne).2) _ _
  · exact ⟨(h.below slot hslot).1, Nat.lt_succ_of_lt (h.below slot hslot).2⟩

theorem InStep.ownAdd (h : InStep first w) (hs : w.hasSlot) (cap : Option ℕ)
    (hnew : ∀ o ∈ w.service.owners, o.badge ≠ badge) :
    let w' : World := { w with
      service := { w.service with
        next := w.service.next + 1, owners := w.service.owners ++ [⟨badge, w.service.next⟩] }
      caps := Function.update w.caps w.service.next cap }
    InStep first w' ∧ (w.Tight first → w'.Tight first) := by
  intro w'
  have hreach : w'.reach = w.reach ++ [w.service.next] := by
    show (w.entries.map (·.2)).filter (· ≠ 0) ++ (w.service.owners ++ [(⟨badge, w.service.next⟩ : Owner)]).map (·.port) = _
    rw [List.map_append, ← List.append_assoc]
    rfl
  refine ⟨h.own rfl rfl rfl rfl ?_ (fun e he hne => ?_) ?_ (fun slot hslot => ?_) (Nat.le_succ _) hs, fun ht => ?_⟩
  · show ((w.service.owners ++ [(⟨badge, w.service.next⟩ : Owner)]).map (·.badge)).Nodup
    rw [List.map_append]
    refine List.nodup_append.2 ⟨h.owners, List.nodup_singleton _, fun a ha b hb heq => ?_⟩
    obtain ⟨o, ho, rfl⟩ := List.mem_map.1 ha
    exact hnew o ho (heq.trans (List.mem_singleton.1 hb))
  · exact Function.update_of_ne (Nat.ne_of_lt (h.mem_reach he hne).2) _ _
  · rw [hreach]
    refine List.nodup_append.2 ⟨h.slots, List.nodup_singleton _, fun a ha b hb heq => ?_⟩
    rw [heq, List.mem_singleton.1 hb] at ha
    exact Nat.lt_irrefl _ (h.below _ ha).2
  · rw [hreach] at hslot
    rcases List.mem_append.1 hslot with hslot | hslot
    · exact ⟨(h.below slot hslot).1, Nat.lt_succ_of_lt (h.below slot hslot).2⟩
    · rw [List.mem_singleton.1 hslot]
      exact ⟨h.first_le, Nat.lt_succ_self _⟩
  · rw [World.Tight, hreach, List.length_append, List.length_singleton, ← Nat.add_assoc]
    exact congrArg (· + 1) ht

theorem InStep.ownSet (h : InStep first w) (hs : w.hasSlot) (cap : Option ℕ) {o : Owner}
    (ho : w.service.owners[i]? = some o) :
    InStep first ({ w with
      service := { w.service with
        next := w.service.next + 1, owners := w.service.owners.set i ⟨o.badge, w.service.next⟩ }
      caps := Function.update (Function.update w.caps w.service.next cap) o.port none }) := by
  obtain ⟨w', hw'⟩ : ∃ w' : World, w' = { w with
      service := { w.service with
        next := w.service.next + 1, owners := w.service.owners.set i ⟨o.badge, w.service.next⟩ }
      caps := Function.update (Function.update w.caps w.service.next cap) o.port none } := ⟨_, rfl⟩
  have hperm := set_perm ho ⟨o.badge, w.service.next⟩
  have hbadges : (w.service.owners.set i ⟨o.badge, w.service.next⟩).map (·.badge) = w.service.owners.map (·.badge) := by
    refine List.ext_getElem? fun j => ?_
    rw [List.getElem?_map, List.getElem?_map]
    rcases eq_or_ne i j with rfl | hne
    · rw [List.getElem?_set_self (List.getElem?_eq_some_iff.1 ho).1, ho]
      rfl
    · rw [List.getElem?_set_ne hne]
  have hreach : (o.port :: w'.reach).Perm (w.service.next :: w.reach) := by
    have hports := hperm.map (·.port)
    rw [List.map_cons, List.map_cons] at hports
    have hall := hports.append_left ((w.entries.map (·.2)).filter (· ≠ 0))
    rw [hw']
    exact List.perm_middle.symm.trans (hall.trans List.perm_middle)
  have hnodup : (o.port :: w'.reach).Nodup := by
    refine hreach.nodup_iff.2 (List.nodup_cons.2 ⟨fun hmem => ?_, h.slots⟩)
    exact Nat.lt_irrefl _ (h.below _ hmem).2
  have hport : o.port ∈ w.service.owners.map (·.port) := List.mem_map_of_mem (List.mem_of_getElem? ho)
  rw [← hw']
  have hfields : w'.service.owners = w.service.owners.set i ⟨o.badge, w.service.next⟩ ∧
      w'.service.next = w.service.next + 1 ∧ w'.service.slotsEnd = w.service.slotsEnd := by
    rw [hw']
    exact ⟨rfl, rfl, rfl⟩
  refine h.own (by rw [hw']; rfl) (by rw [hw']) (by rw [hw']) (by rw [hw']) ?_ (fun e he hne => ?_)
    (List.nodup_cons.1 hnodup).2 (fun slot hslot => ?_) ?_ ?_
  · rw [hfields.1, hbadges]
    exact h.owners
  · obtain ⟨-, hlt⟩ := h.mem_reach he hne
    have hdiff : e.2 ≠ o.port := fun heq => by
      have hapart := (List.nodup_append.1 h.slots).2.2
      exact hapart _ (List.mem_filter.2 ⟨List.mem_map_of_mem he, by simpa using hne⟩) _ hport heq
    rw [hw']
    show Function.update (Function.update w.caps w.service.next cap) o.port none e.2 = w.caps e.2
    rw [Function.update_of_ne hdiff, Function.update_of_ne (Nat.ne_of_lt hlt)]
  · rw [hfields.2.1]
    rcases List.mem_cons.1 (hreach.mem_iff.1 (List.mem_cons_of_mem _ hslot)) with rfl | hslot
    · exact ⟨h.first_le, Nat.lt_succ_self _⟩
    · exact ⟨(h.below slot hslot).1, Nat.lt_succ_of_lt (h.below slot hslot).2⟩
  · rw [hfields.2.1]
    exact Nat.le_succ _
  · rw [hfields.2.1, hfields.2.2]
    exact hs

theorem setOwner_cases (w : World) (badge port : ℕ) :
    (w.setOwner badge port = (false, w) ∧ (badge = 0 ∨
        w.service.capacity ≤ w.service.owners.length ∧ ∀ o ∈ w.service.owners, o.badge ≠ badge)) ∨
      (∃ i o, w.service.owners[i]? = some o ∧ o.badge = badge ∧ badge ≠ 0 ∧ w.setOwner badge port =
        (true, (w.delete o.port).edit fun s => { s with owners := s.owners.set i ⟨badge, port⟩ })) ∨
      ((∀ o ∈ w.service.owners, o.badge ≠ badge) ∧ w.setOwner badge port =
        (true, w.edit fun s => { s with owners := s.owners ++ [⟨badge, port⟩] })) := by
  unfold World.setOwner
  split
  · rename_i hbadge
    exact Or.inl ⟨rfl, Or.inl hbadge⟩
  · rename_i hbadge
    split
    · rename_i i hi
      obtain ⟨hlt, hp, -⟩ := List.findIdx?_eq_some_iff_getElem.1 hi
      refine Or.inr (Or.inl ⟨i, w.service.owners[i], List.getElem?_eq_getElem hlt, of_decide_eq_true hp, hbadge, ?_⟩)
      rw [List.getD_eq_getElem?_getD, List.getElem?_eq_getElem hlt, Option.getD_some]
    · rename_i hnone
      have hnew : ∀ o ∈ w.service.owners, o.badge ≠ badge := fun o ho =>
        of_decide_eq_false (List.findIdx?_eq_none_iff.1 hnone o ho)
      split
      · rename_i hfull
        exact Or.inl ⟨rfl, Or.inr ⟨hfull, hnew⟩⟩
      · exact Or.inr (Or.inr ⟨hnew, rfl⟩)

/-- **A spawner names its port.** -/
theorem InStep.nameOwner (h : InStep first w) (m : Received) :
    InStep first (w.nameOwner m).2 ∧ (m.method = kMethodOwner → w.Spares m → w.Tight first →
      (w.nameOwner m).2.Tight first) := by
  unfold World.nameOwner
  split
  · exact ⟨h, fun _ _ ht => ht⟩
  rename_i hcall
  obtain ⟨hlen, hcap⟩ := not_or.1 hcall
  have hwords : m.words ≠ [] := fun hnil => hlen (by rw [hnil]; decide)
  rcases allocSlot_cases w with ⟨-, hslot⟩ | ⟨hs, hslot⟩
  · rw [hslot]
    exact ⟨h, fun _ _ ht => ht⟩
  rw [hslot]
  dsimp only
  have hpos : w.service.next ≠ 0 := Nat.ne_of_gt (Nat.lt_of_lt_of_le h.first_pos h.first_le)
  rw [if_neg hpos]
  by_cases htaken : m.taken = true
  swap
  · refine ⟨?_, fun hm hsp _ => absurd (hsp.owner hm hwords hcap hs).1 htaken⟩
    rw [if_pos (by simpa using htaken)]
    exact h.alloc hs
  rw [if_neg (by simpa using htaken)]
  obtain ⟨w₁, hw₁⟩ : ∃ w₁, w₁ = (w.edit fun s => { s with next := s.next + 1 }).put w.service.next m.cap := ⟨_, rfl⟩
  rw [← hw₁]
  rcases setOwner_cases w₁ (m.word 0) w.service.next with ⟨heq, hrefused⟩ | ⟨i, o, ho, hbadge, -, heq⟩ | ⟨hnew, heq⟩
  · -- refused: the capability is deleted and its slot lost
    rw [heq]
    refine ⟨?_, fun hm hsp _ => ?_⟩
    · have hwasted := h.wasted hs none
      rw [hw₁]
      refine hwasted.same ⟨rfl, rfl, rfl, rfl, rfl, ?_, rfl⟩ (Nat.le_refl _) hs
      exact Function.update_idem _ _ _
    · obtain ⟨-, hne, -, hlt⟩ := hsp.owner hm hwords hcap hs
      rw [hw₁] at hrefused
      exact (hrefused.elim hne fun hfull => Nat.not_le.2 hlt hfull.1).elim
  · -- in the place of another, which is deleted
    rw [heq]
    rw [hw₁] at ho ⊢
    refine ⟨?_, fun hm hsp _ => ?_⟩
    · have hset := h.ownSet hs m.cap ho
      rw [hbadge] at hset
      exact hset
    · exact absurd hbadge ((hsp.owner hm hwords hcap hs).2.2.1 o (List.mem_of_getElem? ho))
  · rw [heq]
    rw [hw₁] at hnew ⊢
    obtain ⟨hadd, htight⟩ := h.ownAdd hs m.cap hnew
    exact ⟨hadd, fun _ _ ht => htight ht⟩

/-! ## A process unregistered -/

theorem sourceOf_eq (h : find w.service.rows pid = some i) : w.sourceOf pid = w.service.sources.getD i 0 := by
  rw [World.sourceOf, h]
  rfl

theorem InStep.drop (h : InStep first w) (pid : ℕ) :
    InStep first (w.dropRow pid) ∧ (w.sourceOf pid = 0 → w.Tight first → (w.dropRow pid).Tight first) := by
  rcases hf : find w.service.rows pid with _ | i
  · have hsame : w.dropRow pid = w := by rw [World.dropRow, hf]
    rw [hsame]
    exact ⟨h, fun _ ht => ht⟩
  · obtain ⟨hdrop, hreach⟩ := h.dropRow hf
    refine ⟨hdrop, fun hs ht => ?_⟩
    rw [sourceOf_eq hf] at hs
    rw [if_pos hs, List.nil_append] at hreach
    rw [World.Tight, hreach.length_eq, dropRow_eq hf]
    exact ht

theorem InStep.unregister (h : InStep first w) (m : Received) :
    InStep first (w.unregister m).2 ∧ (m.method = kMethodUnregister → w.Spares m → w.Tight first →
      (w.unregister m).2.Tight first) := by
  unfold World.unregister
  split
  · exact ⟨h, fun _ _ ht => ht⟩
  · rename_i hlen
    obtain ⟨hdrop, htight⟩ := h.drop (m.word 0)
    refine ⟨hdrop, fun hm hsp ht => htight (hsp.unregister hm fun hnil => hlen ?_) ht⟩
    rw [hnil]
    decide

/-! ## A process registered -/

theorem takeSource_cases (w : World) (m : Received) :
    (m.cap = none ∨ ¬ w.hasSlot) ∧ w.takeSource m = (0, w) ∨
      (m.cap ≠ none ∧ w.hasSlot ∧ m.taken = false ∧
        w.takeSource m = (0, w.edit fun s => { s with next := s.next + 1 })) ∨
      ∃ object, m.cap = some object ∧ w.hasSlot ∧ (w.service.next ≠ 0 → w.takeSource m =
        (w.service.next, (w.edit fun s => { s with next := s.next + 1 }).put w.service.next (some object))) := by
  unfold World.takeSource
  rcases hcap : m.cap with _ | object
  · exact Or.inl ⟨Or.inl rfl, rfl⟩
  rcases allocSlot_cases w with ⟨hno, hslot⟩ | ⟨hs, hslot⟩
  · refine Or.inl ⟨Or.inr (Nat.not_lt.2 hno), ?_⟩
    simp only [hslot, ne_eq, not_true_eq_false, false_and, if_false]
  · cases htaken : m.taken with
    | false =>
      refine Or.inr (Or.inl ⟨nofun, hs, rfl, ?_⟩)
      simp only [hslot, Bool.false_eq_true, and_false, if_false]
    | true =>
      refine Or.inr (Or.inr ⟨object, rfl, hs, fun hpos => ?_⟩)
      simp only [hslot, ne_eq, hpos, not_false_eq_true, and_self, if_true]

theorem find_append {rows : List Row} {r : Row} (h : find rows r.pid = none) :
    find (rows ++ [r]) r.pid = some rows.length := by
  unfold find at h ⊢
  rw [List.findIdx?_append, h]
  simp

/-- **A process registered**, with its row added. -/
theorem InStep.register (h : InStep first w) {r : Row} (hpid : r.pid = m.word 0)
    (hroom : w.service.rows.length < w.service.capacity) (hnew : find w.service.rows (m.word 0) = none) :
    let w' := (w.edit fun s => { s with rows := s.rows ++ [r] }).keepSource m
    InStep first w' ∧ ((m.cap ≠ none → w.hasSlot → m.taken = true) → w.Tight first → w'.Tight first) := by
  intro w'
  obtain ⟨w₁, hw₁⟩ : ∃ w₁, w₁ = w.edit fun s => { s with rows := s.rows ++ [r] } := ⟨_, rfl⟩
  have hlen : w.pids.length = w.service.rows.length := List.length_map ..
  have hfind : find w₁.service.rows (m.word 0) = some w.pids.length := by
    rw [hw₁, hlen, ← hpid]
    exact find_append (hpid ▸ hnew)
  have hnot : m.word 0 ∉ w.pids := fun hmem => by
    obtain ⟨q, hq, hqp⟩ := List.mem_map.1 hmem
    exact find_none hnew hq hqp
  have hpids : w₁.pids = w.pids ++ [m.word 0] := by
    rw [hw₁, ← hpid]
    exact List.map_append
  have hkeep : w' = w₁.keepSource m := by rw [hw₁]
  rw [World.keepSource, hfind, Option.getD_some] at hkeep
  have hslot : w₁.hasSlot ↔ w.hasSlot := by rw [hw₁]; rfl
  have hnext : w₁.service.next = w.service.next := by rw [hw₁]; rfl
  have hpos : w₁.service.next ≠ 0 := by
    rw [hnext]
    exact Nat.ne_of_gt (Nat.lt_of_lt_of_le h.first_pos h.first_le)
  rcases takeSource_cases w₁ m with ⟨hno, heq⟩ | ⟨hcap, hs, htaken, heq⟩ | ⟨object, hcap, hs, heq⟩
  · -- no capability, or no slot for it
    rw [heq] at hkeep
    obtain ⟨hin, hreach⟩ := h.add w' 0 none (by rw [hlen]; exact hroom) hnot
      (by rw [hkeep]; exact hpids) (by rw [hkeep, hw₁]; rfl) (by rw [hkeep, hw₁]; rfl) (by rw [hkeep, hw₁]; rfl)
      (by rw [hkeep, hw₁]; rfl) (fun slot _ => by rw [hkeep, hw₁]; rfl) (Or.inl ⟨rfl, rfl⟩)
      (by rw [hkeep]; exact Nat.le_of_eq hnext.symm) (by rw [hkeep, hw₁]; exact h.next_le)
    refine ⟨hin, fun _ ht => ?_⟩
    have hkept : w'.service.next = w.service.next := by rw [hkeep]; exact hnext
    rw [World.Tight, hkept, hreach.length_eq]
    exact ht
  · -- the kernel does not move it, and its slot is lost
    rw [heq] at hkeep
    obtain ⟨hin, -⟩ := h.add w' 0 none (by rw [hlen]; exact hroom) hnot
      (by rw [hkeep]; exact hpids) (by rw [hkeep, hw₁]; rfl) (by rw [hkeep, hw₁]; rfl) (by rw [hkeep, hw₁]; rfl)
      (by rw [hkeep, hw₁]; rfl) (fun slot _ => by rw [hkeep, hw₁]; rfl) (Or.inl ⟨rfl, rfl⟩)
      (by rw [hkeep, hw₁]; exact Nat.le_succ _) (by rw [hkeep, hw₁]; exact hslot.1 hs)
    refine ⟨hin, fun hsp _ => ?_⟩
    rw [hsp hcap (hslot.1 hs)] at htaken
    cases htaken
  · -- it is the source
    rw [heq hpos] at hkeep
    dsimp only at hkeep
    rw [if_pos hpos, hnext] at hkeep
    obtain ⟨hin, hreach⟩ := h.add w' w.service.next (some object)
      (by rw [hlen]; exact hroom) hnot (by rw [hkeep]; exact hpids) (by rw [hkeep, hw₁]; rfl)
      (by rw [hkeep, hw₁]; rfl) (by rw [hkeep, hw₁]; rfl) (by rw [hkeep, hcap, hw₁]; rfl)
      (fun slot hlt => by rw [hkeep, hw₁]; exact Function.update_of_ne (Nat.ne_of_lt hlt) _ _)
      (Or.inr ⟨Nat.le_refl _, by rw [hkeep, hw₁]; exact Nat.lt_succ_self _, object, by
        rw [hkeep]; exact Function.update_self _ _ _, rfl⟩)
      (by rw [hkeep, hw₁]; exact Nat.le_succ _) (by rw [hkeep, hw₁]; exact hslot.1 hs)
    refine ⟨hin, fun _ ht => ?_⟩
    have hkept : w'.service.next = w.service.next + 1 := by rw [hkeep, hw₁]; rfl
    rw [World.Tight, hkept, hreach.length_eq, if_neg (hnext ▸ hpos), List.length_append, List.length_singleton, ht]
    omega

/-! ## A break -/

theorem find_pids {rows : List Row} (pid : ℕ) : find rows pid = (rows.map (·.pid)).findIdx? (· = pid) := by
  rw [find, List.findIdx?_map]
  rfl

theorem Same.sourceOf (h : Same w w') (pid : ℕ) : w'.sourceOf pid = w.sourceOf pid := by
  have hpids : w'.service.rows.map (·.pid) = w.service.rows.map (·.pid) := h.pids
  rw [World.sourceOf, World.sourceOf, find_pids, find_pids, hpids, h.sources]

/-- What signalling a source can do: a slot is handed out and lost, and where the kernel mints
    into it the process is signalled. -/
theorem signalFlags_cases (source flags : ℕ) (minted : Bool) (hpos : w.service.next ≠ 0) :
    (¬ w.hasSlot ∧ w.signalFlags source flags minted = w) ∨
      (w.hasSlot ∧ (w.caps source = none ∨ minted = false) ∧
        w.signalFlags source flags minted = w.edit fun s => { s with next := s.next + 1 }) ∨
      (w.hasSlot ∧ minted = true ∧ ∃ object, w.caps source = some object ∧ w.signalFlags source flags minted =
        { w.edit fun s => { s with next := s.next + 1 } with signalled := w.signalled ++ [(object, flags)] }) := by
  unfold World.signalFlags
  rcases allocSlot_cases w with ⟨hno, hslot⟩ | ⟨hs, hslot⟩
  · refine Or.inl ⟨Nat.not_lt.2 hno, ?_⟩
    rw [hslot]
    rfl
  · rw [hslot]
    dsimp only
    rw [if_neg hpos]
    rcases hcap : w.caps source with _ | object
    · refine Or.inr (Or.inl ⟨hs, Or.inl rfl, ?_⟩)
      simp only [World.edit, hcap]
    · cases minted with
      | false =>
        refine Or.inr (Or.inl ⟨hs, Or.inr rfl, ?_⟩)
        simp only [World.edit, hcap, Bool.false_eq_true, if_false]
      | true =>
        refine Or.inr (Or.inr ⟨hs, rfl, object, rfl, ?_⟩)
        simp only [World.edit, hcap, if_true]

theorem haltOwner_cases (w : World) (badge pid : ℕ) :
    w.haltOwner badge pid = (false, w) ∨ ∃ halted, w.haltOwner badge pid = (true, { w with halted := halted }) := by
  unfold World.haltOwner
  split
  · exact Or.inl rfl
  · exact Or.inr ⟨_, rfl⟩

theorem InStep.signalFlags (h : InStep first w) (source flags : ℕ) (minted : Bool) :
    InStep first (w.signalFlags source flags minted) ∧ Same w (w.signalFlags source flags minted) ∧
      (w.signalFlags source flags minted).service.rows = w.service.rows := by
  have hpos : w.service.next ≠ 0 := Nat.ne_of_gt (Nat.lt_of_lt_of_le h.first_pos h.first_le)
  rcases signalFlags_cases source flags minted hpos with ⟨-, heq⟩ | ⟨hs, -, heq⟩ | ⟨hs, -, object, -, heq⟩
  · rw [heq]
    exact ⟨h, ⟨rfl, rfl, rfl, rfl, rfl, rfl, rfl⟩, rfl⟩
  · rw [heq]
    exact ⟨h.alloc hs, ⟨rfl, rfl, rfl, rfl, rfl, rfl, rfl⟩, rfl⟩
  · rw [heq]
    exact ⟨h.same ⟨rfl, rfl, rfl, rfl, rfl, rfl, rfl⟩ (Nat.le_succ _) hs, ⟨rfl, rfl, rfl, rfl, rfl, rfl, rfl⟩, rfl⟩

/-- What follows a break that was set: nothing where no flag is, or else a signal to the source
    and, for C where an owner was asked, the row dropped. -/
theorem deliver_cases (w : World) (m : Received) :
    (w.deliver m = w ∧ (find w.service.rows (m.word 0) = none ∨ attn (m.word 1) = 0)) ∨
      ∃ w' halted, attn (m.word 1) ≠ 0 ∧ w' = (if w.sourceOf (m.word 0) ≠ 0 then
          w.signalFlags (w.sourceOf (m.word 0)) (attn (m.word 1)) m.minted else w) ∧
        (w.deliver m = w' ∨ w.deliver m = { w' with halted := halted }.dropRow (m.word 0)) := by
  unfold World.deliver
  dsimp only
  split
  · rename_i hf
    exact Or.inl ⟨rfl, Or.inl hf⟩
  rename_i i hf
  split
  · rename_i hflags
    exact Or.inl ⟨rfl, Or.inr hflags⟩
  rename_i hflags
  rw [← sourceOf_eq hf]
  obtain ⟨w', hw'⟩ : ∃ w', w' = if w.sourceOf (m.word 0) ≠ 0 then
    w.signalFlags (w.sourceOf (m.word 0)) (attn (m.word 1)) m.minted else w := ⟨_, rfl⟩
  rw [← hw']
  right
  split
  · rcases haltOwner_cases w' (((w.service.rows[i]?).map (·.parent)).getD 0) (m.word 0) with heq | ⟨halted, heq⟩
    · refine ⟨w', [], hflags, rfl, Or.inl ?_⟩
      rw [heq]
      rfl
    · refine ⟨w', halted, hflags, rfl, Or.inr ?_⟩
      rw [heq]
      rfl
  · exact ⟨w', [], hflags, rfl, Or.inl rfl⟩

/-- **A break delivered.** -/
theorem InStep.deliver (h : InStep first w) (m : Received) :
    InStep first (w.deliver m) ∧ ((attn (m.word 1) ≠ 0 → w.sourceOf (m.word 0) = 0) → w.Tight first →
      (w.deliver m).Tight first) := by
  rcases deliver_cases w m with ⟨heq, -⟩ | ⟨w', halted, hflags, hw', heq⟩
  · rw [heq]
    exact ⟨h, fun _ ht => ht⟩
  have hsame : InStep first w' ∧ Same w w' ∧ (w.sourceOf (m.word 0) = 0 → w' = w) := by
    split at hw'
    · rename_i hs
      obtain ⟨hin, hsame, -⟩ := h.signalFlags (w.sourceOf (m.word 0)) (attn (m.word 1)) m.minted
      rw [← hw'] at hin hsame
      exact ⟨hin, hsame, fun h₀ => absurd h₀ hs⟩
    · rw [hw']
      exact ⟨h, ⟨rfl, rfl, rfl, rfl, rfl, rfl, rfl⟩, fun _ => rfl⟩
  obtain ⟨hin, hsame, hkept⟩ := hsame
  rcases heq with heq | heq
  · rw [heq]
    refine ⟨hin, fun hs ht => ?_⟩
    rw [hkept (hs hflags)]
    exact ht
  · have hhalt : Same w' { w' with halted := halted } := ⟨rfl, rfl, rfl, rfl, rfl, rfl, rfl⟩
    obtain ⟨hdrop, htight⟩ := (hin.same hhalt (Nat.le_refl _) hin.next_le).drop (m.word 0)
    rw [heq]
    refine ⟨hdrop, fun hs ht => htight ?_ ?_⟩
    · rw [hhalt.sourceOf, hsame.sourceOf]
      exact hs hflags
    · rw [World.Tight, hhalt.reach, hkept (hs hflags)]
      exact ht

/-! ## A turn -/

theorem add_cases (capacity : ℕ) (rows : List Row) (r : Row) :
    add capacity rows r = none ∨
      rows.length < capacity ∧ find rows r.pid = none ∧ add capacity rows r = some (rows ++ [r.seed]) := by
  unfold add
  split
  · exact Or.inl rfl
  · rename_i h
    obtain ⟨hroom, hnew⟩ := not_or.1 h
    exact Or.inr ⟨Nat.lt_of_not_le hroom, by simpa using hnew, rfl⟩

theorem setFlags_cases (rows : List Row) (pid flags caller : ℕ) :
    setFlags rows pid flags caller = none ∨
      mayBreak caller pid = true ∧ ∃ i, find rows pid = some i ∧
        setFlags rows pid flags caller = some (rows.modify i (·.setFlags flags)) := by
  unfold setFlags
  split
  · exact Or.inl rfl
  · rename_i i hi
    split
    · rename_i hmay
      exact Or.inr ⟨hmay, i, hi, rfl⟩
    · exact Or.inl rfl

theorem handle_cases (capacity : ℕ) (rows : List Row) (m : Received) (hm : m.method ≠ kMethodUnregister) :
    (∃ reply, handle capacity rows m.method m.words m.badge = (reply, rows) ∧
        ¬ (m.method = kMethodRegister ∧ reply = [kProcessAdded]) ∧ ¬ (m.method = kMethodBreak ∧ reply = [kBreakSet])) ∨
      (m.method = kMethodRegister ∧ kRowWords ≤ m.words.length ∧ rows.length < capacity ∧
        find rows (m.word 0) = none ∧ handle capacity rows m.method m.words m.badge =
          ([kProcessAdded], rows ++ [(Row.ofWords m.words).seed])) ∨
      (m.method = kMethodBreak ∧ 2 ≤ m.words.length ∧ mayBreak m.badge (m.word 0) = true ∧
        ∃ i, find rows (m.word 0) = some i ∧ handle capacity rows m.method m.words m.badge =
          ([kBreakSet], rows.modify i (·.setFlags (attn (m.word 1))))) := by
  have hother : ∀ n, m.method = n → n ≠ kMethodRegister → n ≠ kMethodBreak → ∀ reply : List ℕ,
      ¬ (m.method = kMethodRegister ∧ reply = [kProcessAdded]) ∧ ¬ (m.method = kMethodBreak ∧ reply = [kBreakSet]) :=
    fun n hn hr hb reply => ⟨fun hand => hr (hn.symm.trans hand.1), fun hand => hb (hn.symm.trans hand.1)⟩
  have hrefused : ∀ reply : List ℕ, reply = [] ∨ reply = [0] →
      ¬ (m.method = kMethodRegister ∧ reply = [kProcessAdded]) ∧ ¬ (m.method = kMethodBreak ∧ reply = [kBreakSet]) := by
    rintro reply (rfl | rfl)
    · exact ⟨(fun hand => nomatch hand.2), (fun hand => nomatch hand.2)⟩
    · exact ⟨(fun hand => nomatch hand.2), (fun hand => nomatch hand.2)⟩
  unfold handle
  split
  · rename_i hc
    exact Or.inl ⟨_, rfl, hother _ hc (by decide) (by decide) _⟩
  split
  · rename_i hc
    split
    · exact Or.inl ⟨_, rfl, hother _ hc (by decide) (by decide) _⟩
    · exact Or.inl ⟨_, rfl, hother _ hc (by decide) (by decide) _⟩
  split
  · rename_i hc
    split
    · exact Or.inl ⟨_, rfl, hrefused _ (Or.inl rfl)⟩
    · rename_i hlen
      rcases setFlags_cases rows (m.word 0) (attn (m.word 1)) m.badge with heq | ⟨hmay, i, hi, heq⟩
      · refine Or.inl ⟨[kBreakRefused], ?_, hrefused _ (Or.inr rfl)⟩
        exact congrArg (outcome rows kBreakSet kBreakRefused) heq
      · refine Or.inr (Or.inr ⟨hc, Nat.le_of_not_lt hlen, hmay, i, hi, ?_⟩)
        exact congrArg (outcome rows kBreakSet kBreakRefused) heq
  split
  · rename_i hc
    split
    · exact Or.inl ⟨_, rfl, hrefused _ (Or.inl rfl)⟩
    · rename_i hlen
      rcases add_cases capacity rows (Row.ofWords m.words) with heq | ⟨hroom, hnew, heq⟩
      · refine Or.inl ⟨[kProcessRefused], ?_, hrefused _ (Or.inr rfl)⟩
        exact congrArg (outcome rows kProcessAdded kProcessRefused) heq
      · refine Or.inr (Or.inl ⟨hc, Nat.le_of_not_lt hlen, hroom, hnew, ?_⟩)
        exact congrArg (outcome rows kProcessAdded kProcessRefused) heq
  exact Or.inl ⟨_, rfl, hrefused _ (Or.inl rfl)⟩

theorem find_modify (rows : List Row) (i flags pid : ℕ) :
    find (rows.modify i (·.setFlags flags)) pid = find rows pid := by
  rw [find_pids, find_pids, map_pid_modify]

theorem step_cases (w : World) (m : Received) :
    (m.method = kMethodOwner ∧ (w.step m).2 = (w.nameOwner m).2) ∨
      (m.method = kMethodUnregister ∧ (w.step m).2 = (w.unregister m).2) ∨
      (m.method ≠ kMethodOwner ∧ m.method ≠ kMethodUnregister ∧ (w.step m).2 = w) ∨
      (m.method = kMethodRegister ∧ kRowWords ≤ m.words.length ∧
        w.service.rows.length < w.service.capacity ∧ find w.service.rows (m.word 0) = none ∧
        (w.step m).2 = (w.edit fun s => { s with rows := s.rows ++ [(Row.ofWords m.words).seed] }).keepSource m) ∨
      (m.method = kMethodBreak ∧ 2 ≤ m.words.length ∧ mayBreak m.badge (m.word 0) = true ∧
        ∃ i, find w.service.rows (m.word 0) = some i ∧ (w.step m).2 =
          (w.edit fun s => { s with rows := s.rows.modify i (·.setFlags (attn (m.word 1))) }).deliver m) := by
  unfold World.step
  split
  · rename_i hm
    exact Or.inl ⟨hm, rfl⟩
  rename_i hm
  split
  · rename_i hu
    exact Or.inr (Or.inl ⟨hu, rfl⟩)
  rename_i hu
  rcases handle_cases w.service.capacity w.service.rows m hu with
    ⟨reply, heq, hr, hb⟩ | ⟨hr, hlen, hroom, hnew, heq⟩ | ⟨hb, hlen, hmay, i, hi, heq⟩
  · refine Or.inr (Or.inr (Or.inl ⟨hm, hu, ?_⟩))
    rw [heq]
    dsimp only
    rw [if_neg hr, if_neg hb]
    rfl
  · refine Or.inr (Or.inr (Or.inr (Or.inl ⟨hr, hlen, hroom, hnew, ?_⟩)))
    rw [heq]
    dsimp only
    rw [if_pos ⟨hr, rfl⟩]
    rfl
  · refine Or.inr (Or.inr (Or.inr (Or.inr ⟨hb, hlen, hmay, i, hi, ?_⟩)))
    have hr : ¬ (m.method = kMethodRegister ∧ [kBreakSet] = [kProcessAdded]) := fun hand => by
      rw [hb] at hand
      exact absurd hand.1 (by decide)
    rw [heq]
    dsimp only
    rw [if_neg hr, if_pos ⟨hb, rfl⟩]
    rfl

theorem same_break (w : World) (i flags : ℕ) :
    Same w (w.edit fun s => { s with rows := s.rows.modify i (·.setFlags flags) }) :=
  ⟨map_pid_modify _ _ _, rfl, rfl, rfl, rfl, rfl, rfl⟩

/-- **Every call** keeps the tables in step, and one that spares its slots loses none. -/
theorem InStep.step (h : InStep first w) (m : Received) :
    InStep first (w.step m).2 ∧ (w.Spares m → w.Tight first → (w.step m).2.Tight first) := by
  rcases step_cases w m with ⟨hm, heq⟩ | ⟨hm, heq⟩ | ⟨-, -, heq⟩ | ⟨hm, hlen, hroom, hnew, heq⟩ |
    ⟨hm, hlen, hmay, i, hi, heq⟩
  · obtain ⟨hin, htight⟩ := h.nameOwner m
    rw [heq]
    exact ⟨hin, htight hm⟩
  · obtain ⟨hin, htight⟩ := h.unregister m
    rw [heq]
    exact ⟨hin, htight hm⟩
  · rw [heq]
    exact ⟨h, fun _ ht => ht⟩
  · obtain ⟨hin, htight⟩ := h.register (m := m) (r := (Row.ofWords m.words).seed) rfl hroom hnew
    rw [heq]
    exact ⟨hin, fun hsp => htight (hsp.register hm hlen hroom hnew)⟩
  · have hsame := same_break w i (attn (m.word 1))
    obtain ⟨hin, htight⟩ := (h.same hsame (Nat.le_refl _) h.next_le).deliver m
    rw [heq]
    refine ⟨hin, fun hsp ht => htight (fun hflags => ?_) ?_⟩
    · rw [hsame.sourceOf]
      exact hsp.break_ hm hlen hmay hflags
    · rw [World.Tight, hsame.reach]
      exact ht

end

end Aegir.Registry
