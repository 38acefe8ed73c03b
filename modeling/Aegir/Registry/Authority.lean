/-
  Every run of the registry, and what a caller may do in it.
-/
import Aegir.Registry.Calls

namespace Aegir.Registry

open Aegir.Ipc Aegir.Lib

section
variable {first pid i : ℕ} {w w' : World} {m : Received}

/-! ## Breaks -/

theorem step_break (hm : m.method = kMethodBreak) (hlen : 2 ≤ m.words.length)
    (hmay : mayBreak m.badge (m.word 0) = true) (hi : find w.service.rows (m.word 0) = some i) :
    (w.step m).2 =
      (w.edit fun s => { s with rows := s.rows.modify i (·.setFlags (attn (m.word 1))) }).deliver m := by
  have hset : setFlags w.service.rows (m.word 0) (attn (m.word 1)) m.badge =
      some (w.service.rows.modify i (·.setFlags (attn (m.word 1)))) := by
    rw [setFlags, hi]
    exact if_pos hmay
  have hhandle : handle w.service.capacity w.service.rows kMethodBreak m.words m.badge =
      ([kBreakSet], w.service.rows.modify i (·.setFlags (attn (m.word 1)))) := by
    rw [handle, if_neg (by decide), if_neg (by decide), if_pos rfl, if_neg (Nat.not_lt.2 hlen)]
    exact congrArg (outcome w.service.rows kBreakSet kBreakRefused) hset
  rw [World.step, hm, if_neg (by decide), if_neg (by decide), hhandle]
  rfl

theorem dropRow_signalled (w : World) (pid : ℕ) : (w.dropRow pid).signalled = w.signalled := by
  rcases hf : find w.service.rows pid with _ | i
  · rw [World.dropRow, hf]
  · rw [dropRow_eq hf]

/-- **A break that is allowed**, of a process that has a source, is signalled to what the process
    registered exactly when a slot is left and the kernel mints into it. -/
theorem InStep.break_signalled (h : InStep first w) (hm : m.method = kMethodBreak) (hlen : 2 ≤ m.words.length)
    (hmay : mayBreak m.badge (m.word 0) = true) (hflags : attn (m.word 1) ≠ 0) (hs : w.sourceOf (m.word 0) ≠ 0) :
    ∃ object, w.given (m.word 0) = some object ∧
      ((w.step m).2.signalled = w.signalled ++ [(object, attn (m.word 1))] ↔ w.hasSlot ∧ m.minted = true) := by
  rcases hi : find w.service.rows (m.word 0) with _ | i
  · rw [World.sourceOf, hi] at hs
    exact absurd rfl hs
  obtain ⟨r, hr, hpid⟩ := find_some hi
  have hentry := h.entry hr
  rw [hpid, ← sourceOf_eq hi] at hentry
  obtain ⟨hz, -⟩ | ⟨-, object, hcap, hgiven⟩ := h.sourced _ (List.mem_of_getElem? hentry)
  · exact absurd hz hs
  refine ⟨object, hgiven, ?_⟩
  obtain ⟨w₁, hw₁⟩ : ∃ w₁, w₁ = w.edit fun s => { s with rows := s.rows.modify i (·.setFlags (attn (m.word 1))) } :=
    ⟨_, rfl⟩
  have hsame : Same w w₁ := hw₁ ▸ same_break w i (attn (m.word 1))
  have hcap₁ : w₁.caps (w.sourceOf (m.word 0)) = some object := by
    rw [hsame.caps]
    exact hcap
  have hsignalled : (w.step m).2.signalled =
      (w₁.signalFlags (w.sourceOf (m.word 0)) (attn (m.word 1)) m.minted).signalled := by
    rw [step_break hm hlen hmay hi, ← hw₁]
    rcases deliver_cases w₁ m with ⟨-, hno | hno⟩ | ⟨w', halted, -, hw', heq⟩
    · have hfind : find w₁.service.rows (m.word 0) = some i := by
        rw [hw₁]
        exact (find_modify _ _ _ _).trans hi
      rw [hfind] at hno
      cases hno
    · exact absurd hno hflags
    · rw [if_pos (by rwa [hsame.sourceOf]), hsame.sourceOf] at hw'
      rcases heq with heq | heq
      · rw [heq, hw']
      · rw [heq, dropRow_signalled, hw']
  have hpos : w₁.service.next ≠ 0 := by
    have hin := h.same hsame (by rw [hw₁]; exact Nat.le_refl _) (by rw [hw₁]; exact h.next_le)
    exact Nat.ne_of_gt (Nat.lt_of_lt_of_le hin.first_pos hin.first_le)
  have hslot : w₁.hasSlot ↔ w.hasSlot := by
    rw [hw₁]
    rfl
  have hold : w₁.signalled = w.signalled := by
    rw [hw₁]
    rfl
  have hne : w.signalled ≠ w.signalled ++ [(object, attn (m.word 1))] := fun heq => by
    have hlength := congrArg List.length heq
    rw [List.length_append, List.length_singleton] at hlength
    omega
  rw [hsignalled]
  rcases signalFlags_cases (w.sourceOf (m.word 0)) (attn (m.word 1)) m.minted hpos with
    ⟨hno, heq⟩ | ⟨-, hno, heq⟩ | ⟨hs, hminted, object', hcap', heq⟩
  · rw [heq, hold]
    exact ⟨fun hf => absurd hf hne, fun hand => absurd (hslot.2 hand.1) hno⟩
  · rw [heq]
    refine ⟨fun hf => absurd (hold ▸ hf) hne, fun hand => ?_⟩
    rcases hno with hno | hno
    · rw [hno] at hcap₁
      cases hcap₁
    · rw [hno] at hand
      exact absurd hand.2 Bool.false_ne_true
  · obtain rfl : object = object' := Option.some.inj (hcap₁.symm.trans hcap')
    rw [heq, hold]
    exact ⟨fun _ => ⟨hslot.1 hs, hminted⟩, fun _ => rfl⟩

/-! ## Authority -/

/-- The rows and ports a caller may not touch are left as they were. -/
structure Spared (caller : ℕ) (w w' : World) : Prop where
  rows : ∀ r ∈ w.service.rows, mayBreak caller r.pid = false → r ∈ w'.service.rows
  owners : ∀ o ∈ w.service.owners, mayBreak caller o.badge = false → o ∈ w'.service.owners

/-- A call names a port in the place of another. -/
def World.Replaces (w : World) (m : Received) : Prop :=
  m.method = kMethodOwner ∧ m.words ≠ [] ∧ m.cap ≠ none ∧ w.hasSlot ∧ m.taken = true ∧ m.word 0 ≠ 0 ∧
    ∃ o ∈ w.service.owners, o.badge = m.word 0

def World.Unregisters (w : World) (m : Received) : Prop :=
  m.method = kMethodUnregister ∧ m.words ≠ [] ∧ ∃ r ∈ w.service.rows, r.pid = m.word 0

/-- A call that unregisters a process, or replaces a port, is its caller's to make. -/
def World.Authorised (w : World) (m : Received) : Prop :=
  w.Unregisters m ∨ w.Replaces m → mayBreak m.badge (m.word 0) = true

theorem Spared.refl (caller : ℕ) (w : World) : Spared caller w w := ⟨fun _ hr _ => hr, fun _ ho _ => ho⟩

theorem mem_dropRow {r : Row} (hr : r ∈ w.service.rows) (hne : r.pid ≠ pid) : r ∈ (w.dropRow pid).service.rows := by
  rcases hf : find w.service.rows pid with _ | i
  · rw [World.dropRow, hf]
    exact hr
  · obtain ⟨q, hq, hqp⟩ := find_some hf
    rw [dropRow_eq hf]
    rcases List.mem_cons.1 ((swapRemove_perm hq).mem_iff.2 hr) with rfl | hmem
    · exact absurd hqp hne
    · exact hmem

theorem dropRow_owners (w : World) (pid : ℕ) : (w.dropRow pid).service.owners = w.service.owners := by
  rcases hf : find w.service.rows pid with _ | i
  · rw [World.dropRow, hf]
  · rw [dropRow_eq hf]

theorem InStep.not_mem_dropRow (h : InStep first w) {r : Row} (hf : find w.service.rows r.pid = some i) :
    r ∉ (w.dropRow r.pid).service.rows := fun hmem => by
  obtain ⟨q, hq, hqp⟩ := find_some hf
  have hperm := (swapRemove_perm hq).map (·.pid)
  have hnodup := hperm.nodup_iff.2 h.pids
  rw [dropRow_eq hf] at hmem
  rw [List.map_cons, hqp] at hnodup
  exact (List.nodup_cons.1 hnodup).1 (List.mem_map_of_mem hmem)

theorem nameOwner_owners (h : InStep first w) (m : Received) (hm : m.method = kMethodOwner) :
    (w.nameOwner m).2.service.rows = w.service.rows ∧ (w.nameOwner m).2.signalled = w.signalled ∧
      ((∀ o ∈ w.service.owners, o ∈ (w.nameOwner m).2.service.owners) ∧ ¬ w.Replaces m ∨
        ∃ i o, w.service.owners[i]? = some o ∧ o.badge = m.word 0 ∧ w.Replaces m ∧
          (w.nameOwner m).2.service.owners = w.service.owners.set i ⟨m.word 0, w.service.next⟩) := by
  unfold World.nameOwner
  split
  · rename_i hcall
    refine ⟨rfl, rfl, Or.inl ⟨fun _ ho => ho, fun hr => ?_⟩⟩
    rcases hcall with hlen | hcap
    · exact hr.2.1 (List.eq_nil_of_length_eq_zero (Nat.lt_one_iff.1 hlen))
    · exact hr.2.2.1 hcap
  rename_i hcall
  obtain ⟨hlen, hcap⟩ := not_or.1 hcall
  have hwords : m.words ≠ [] := fun hnil => hlen (by rw [hnil]; decide)
  rcases allocSlot_cases w with ⟨hno, hslot⟩ | ⟨hs, hslot⟩
  · rw [hslot]
    exact ⟨rfl, rfl, Or.inl ⟨fun _ ho => ho, fun hr => Nat.not_lt.2 hno hr.2.2.2.1⟩⟩
  rw [hslot]
  dsimp only
  rw [if_neg (Nat.ne_of_gt (Nat.lt_of_lt_of_le h.first_pos h.first_le))]
  by_cases htaken : m.taken = true
  swap
  · rw [if_pos (by simpa using htaken)]
    exact ⟨rfl, rfl, Or.inl ⟨fun _ ho => ho, fun hr => htaken hr.2.2.2.2.1⟩⟩
  rw [if_neg (by simpa using htaken)]
  obtain ⟨w₁, hw₁⟩ : ∃ w₁, w₁ = (w.edit fun s => { s with next := s.next + 1 }).put w.service.next m.cap := ⟨_, rfl⟩
  have howners : w₁.service.owners = w.service.owners := by
    rw [hw₁]
    rfl
  have hrows : w₁.service.rows = w.service.rows := by
    rw [hw₁]
    rfl
  have hsignalled : w₁.signalled = w.signalled := by
    rw [hw₁]
    rfl
  rw [← hw₁]
  rcases setOwner_cases w₁ (m.word 0) w.service.next with ⟨heq, hrefused⟩ | ⟨i, o, ho, hbadge, hne, heq⟩ | ⟨hnew, heq⟩
  · rw [heq]
    refine ⟨hrows, hsignalled, Or.inl ⟨fun o ho => howners ▸ ho, fun hr => ?_⟩⟩
    obtain ⟨-, -, -, -, -, hne, o, ho, hbadge⟩ := hr
    exact hrefused.elim hne fun hfull => hfull.2 o (howners ▸ ho) hbadge
  · rw [heq]
    rw [howners] at ho
    refine ⟨hrows, hsignalled, Or.inr ⟨i, o, ho, hbadge, ?_, ?_⟩⟩
    · exact ⟨hm, hwords, hcap, hs, htaken, hne, o, List.mem_of_getElem? ho, hbadge⟩
    · show w₁.service.owners.set i _ = _
      rw [howners]
  · rw [heq]
    refine ⟨hrows, hsignalled, Or.inl ⟨fun o ho => ?_, fun hr => ?_⟩⟩
    · show o ∈ w₁.service.owners ++ _
      exact List.mem_append_left _ (howners ▸ ho)
    · obtain ⟨-, -, -, -, -, -, o, ho, hbadge⟩ := hr
      exact hnew o (howners ▸ ho) hbadge

theorem takeSource_tables (w : World) (m : Received) :
    (w.takeSource m).2.service.rows = w.service.rows ∧ (w.takeSource m).2.service.owners = w.service.owners ∧
      (w.takeSource m).2.signalled = w.signalled := by
  unfold World.takeSource
  split
  · exact ⟨rfl, rfl, rfl⟩
  · rcases allocSlot_cases w with ⟨-, hslot⟩ | ⟨-, hslot⟩
    · rw [hslot]
      dsimp only
      split
      · exact ⟨rfl, rfl, rfl⟩
      · exact ⟨rfl, rfl, rfl⟩
    · rw [hslot]
      dsimp only
      split
      · exact ⟨rfl, rfl, rfl⟩
      · exact ⟨rfl, rfl, rfl⟩

theorem keepSource_tables (w : World) (m : Received) :
    (w.keepSource m).service.rows = w.service.rows ∧ (w.keepSource m).service.owners = w.service.owners ∧
      (w.keepSource m).signalled = w.signalled :=
  takeSource_tables w m

theorem InStep.deliver_tables (h : InStep first w) (m : Received) :
    (∀ r ∈ w.service.rows, r.pid ≠ m.word 0 → r ∈ (w.deliver m).service.rows) ∧
      (w.deliver m).service.owners = w.service.owners ∧
      ((w.deliver m).signalled = w.signalled ∨ ∃ object, w.caps (w.sourceOf (m.word 0)) = some object ∧
        w.sourceOf (m.word 0) ≠ 0 ∧ (w.deliver m).signalled = w.signalled ++ [(object, attn (m.word 1))]) := by
  rcases deliver_cases w m with ⟨heq, -⟩ | ⟨w', halted, -, hw', heq⟩
  · rw [heq]
    exact ⟨fun _ hr _ => hr, rfl, Or.inl rfl⟩
  have hpos : w.service.next ≠ 0 := Nat.ne_of_gt (Nat.lt_of_lt_of_le h.first_pos h.first_le)
  have htables : w'.service.rows = w.service.rows ∧ w'.service.owners = w.service.owners ∧
      (w'.signalled = w.signalled ∨ ∃ object, w.caps (w.sourceOf (m.word 0)) = some object ∧
        w.sourceOf (m.word 0) ≠ 0 ∧ w'.signalled = w.signalled ++ [(object, attn (m.word 1))]) := by
    split at hw'
    · rename_i hs
      rcases signalFlags_cases (w.sourceOf (m.word 0)) (attn (m.word 1)) m.minted hpos with
        ⟨-, hsig⟩ | ⟨-, -, hsig⟩ | ⟨-, -, object, hcap, hsig⟩
      · rw [hw', hsig]
        exact ⟨rfl, rfl, Or.inl rfl⟩
      · rw [hw', hsig]
        exact ⟨rfl, rfl, Or.inl rfl⟩
      · rw [hw', hsig]
        exact ⟨rfl, rfl, Or.inr ⟨object, hcap, hs, rfl⟩⟩
    · rw [hw']
      exact ⟨rfl, rfl, Or.inl rfl⟩
  obtain ⟨hrows, howners, hsignalled⟩ := htables
  rcases heq with heq | heq
  · rw [heq]
    exact ⟨fun r hr _ => hrows ▸ hr, howners, hsignalled⟩
  · rw [heq]
    refine ⟨fun r hr hne => mem_dropRow (w := { w' with halted := halted }) (hrows ▸ hr) hne,
      (dropRow_owners _ _).trans howners, ?_⟩
    rw [dropRow_signalled]
    exact hsignalled

theorem mem_modify {rows : List Row} {r : Row} {flags : ℕ} (hi : find rows pid = some i) (hr : r ∈ rows)
    (hne : r.pid ≠ pid) : r ∈ rows.modify i (·.setFlags flags) := by
  obtain ⟨j, hj⟩ := List.mem_iff_getElem?.1 hr
  obtain ⟨q, hq, hqp⟩ := find_some hi
  have hij : i ≠ j := fun heq => by
    rw [heq, hj] at hq
    obtain rfl := Option.some.inj hq
    exact hne hqp
  refine List.mem_of_getElem? (i := j) ?_
  rw [List.getElem?_modify, hj, Option.map_eq_map, Option.map_some, if_neg hij]

theorem InStep.not_mem_set (h : InStep first w) {o : Owner} {badge : ℕ} (ho : w.service.owners[i]? = some o) :
    o ∉ w.service.owners.set i ⟨badge, w.service.next⟩ := by
  have hnew : ⟨badge, w.service.next⟩ ∉ w.service.owners := fun hmem => by
    have hport := List.mem_map_of_mem (f := (·.port)) hmem
    exact Nat.lt_irrefl _ (h.below _ (List.mem_append_right _ hport)).2
  have hnodup := (set_perm ho ⟨badge, w.service.next⟩).nodup_iff.2
    (List.nodup_cons.2 ⟨hnew, List.Nodup.of_map _ h.owners⟩)
  exact (List.nodup_cons.1 hnodup).1

theorem InStep.spared_owner (h : InStep first w) (hm : m.method = kMethodOwner) :
    Spared m.badge w (w.nameOwner m).2 ↔ w.Authorised m := by
  obtain ⟨hrows, -, ⟨hall, hnot⟩ | ⟨i, o, ho, hbadge, hreplaces, howners⟩⟩ := nameOwner_owners h m hm
  · refine ⟨fun _ hor => ?_, fun _ => ⟨fun r hr _ => hrows ▸ hr, fun o ho _ => hall o ho⟩⟩
    rcases hor with hu | hr
    · rw [hu.1] at hm
      exact absurd hm (by decide)
    · exact absurd hr hnot
  · constructor
    · intro hspared _
      by_contra hmay
      have hmem := hspared.owners o (List.mem_of_getElem? ho) (by rw [hbadge]; simpa using hmay)
      rw [howners] at hmem
      exact h.not_mem_set ho hmem
    · intro hauth
      have hmay := hauth (Or.inr hreplaces)
      refine ⟨fun r hr _ => hrows ▸ hr, fun o' ho' hno => ?_⟩
      have hne : o' ≠ o := fun heq => by
        rw [heq, hbadge, hmay] at hno
        cases hno
      have hperm := (set_perm ho ⟨m.word 0, w.service.next⟩).mem_iff.2 (List.mem_cons_of_mem _ ho')
      rw [howners]
      exact (List.mem_cons.1 hperm).resolve_left hne

theorem InStep.spared_unregister (h : InStep first w) (hm : m.method = kMethodUnregister) :
    Spared m.badge w (w.unregister m).2 ↔ w.Authorised m := by
  have hreplaces : ¬ w.Replaces m := fun hr => by
    rw [hr.1] at hm
    exact absurd hm (by decide)
  unfold World.unregister
  split
  · rename_i hlen
    refine ⟨fun _ hor => ?_, fun _ => Spared.refl _ _⟩
    rcases hor with hu | hr
    · exact absurd (List.eq_nil_of_length_eq_zero (Nat.lt_one_iff.1 hlen)) hu.2.1
    · exact absurd hr hreplaces
  · rename_i hlen
    have hwords : m.words ≠ [] := fun hnil => hlen (by rw [hnil]; decide)
    constructor
    · intro hspared hor
      rcases hor with ⟨-, -, r, hr, hpid⟩ | hr
      · by_contra hmay
        have hmem := hspared.rows r hr (by rw [hpid]; simpa using hmay)
        obtain ⟨i, hi⟩ := Option.isSome_iff_exists.1 (find_isSome hr)
        rw [← hpid] at hmem
        exact h.not_mem_dropRow hi hmem
      · exact absurd hr hreplaces
    · intro hauth
      refine ⟨fun r hr hno => mem_dropRow hr fun heq => ?_, fun o ho _ => ?_⟩
      · rw [heq, hauth (Or.inl ⟨hm, hwords, r, hr, heq⟩)] at hno
        cases hno
      · rw [dropRow_owners]
        exact ho

/-- **What a call leaves** of the rows and ports its caller may not touch: all of them, unless it
    unregisters such a row or replaces such a port. -/
theorem InStep.spared_iff (h : InStep first w) (m : Received) :
    Spared m.badge w (w.step m).2 ↔ w.Authorised m := by
  have hnone : m.method ≠ kMethodUnregister → m.method ≠ kMethodOwner → w.Authorised m := fun hu ho hor =>
    (hor.elim (fun hr => hu hr.1) fun hr => ho hr.1).elim
  rcases step_cases w m with ⟨hm, heq⟩ | ⟨hm, heq⟩ | ⟨hno, hnu, heq⟩ | ⟨hm, -, -, -, heq⟩ | ⟨hm, -, hmay, i, hi, heq⟩
  · rw [heq]
    exact h.spared_owner hm
  · rw [heq]
    exact h.spared_unregister hm
  · rw [heq]
    exact ⟨fun _ => hnone hnu hno, fun _ => Spared.refl _ _⟩
  · rw [heq]
    obtain ⟨hrows, howners, -⟩ := keepSource_tables
      (w.edit fun s => { s with rows := s.rows ++ [(Row.ofWords m.words).seed] }) m
    refine ⟨fun _ => hnone (hm ▸ by decide) (hm ▸ by decide), fun _ => ⟨fun r hr _ => ?_, fun o ho _ => ?_⟩⟩
    · rw [hrows]
      exact List.mem_append_left _ hr
    · rw [howners]
      exact ho
  · rw [heq]
    have hsame := same_break w i (attn (m.word 1))
    obtain ⟨hrows, howners, -⟩ := (h.same hsame (Nat.le_refl _) h.next_le).deliver_tables m
    refine ⟨fun _ => hnone (hm ▸ by decide) (hm ▸ by decide), fun _ => ⟨fun r hr hno => ?_, fun o ho _ => ?_⟩⟩
    · have hne : r.pid ≠ m.word 0 := fun heq => by
        rw [heq, hmay] at hno
        cases hno
      exact hrows r (mem_modify hi hr hne) hne
    · rw [howners]
      exact ho

theorem InStep.step_signalled (h : InStep first w) (m : Received) :
    (w.step m).2.signalled = w.signalled ∨
      ∃ object, mayBreak m.badge (m.word 0) = true ∧ w.given (m.word 0) = some object ∧
        (w.step m).2.signalled = w.signalled ++ [(object, attn (m.word 1))] := by
  rcases step_cases w m with ⟨hm, heq⟩ | ⟨hm, heq⟩ | ⟨-, -, heq⟩ | ⟨hm, -, -, -, heq⟩ | ⟨hm, -, hmay, i, hi, heq⟩
  · rw [heq]
    exact Or.inl (nameOwner_owners h m hm).2.1
  · rw [heq]
    left
    unfold World.unregister
    split
    · rfl
    · exact dropRow_signalled _ _
  · exact Or.inl (by rw [heq])
  · rw [heq]
    exact Or.inl (keepSource_tables _ m).2.2
  · have hsame := same_break w i (attn (m.word 1))
    obtain ⟨-, -, hsignalled⟩ := (h.same hsame (Nat.le_refl _) h.next_le).deliver_tables m
    rw [heq]
    refine hsignalled.imp_right fun ⟨object, hcap, hs, hsig⟩ => ⟨object, hmay, ?_, hsig⟩
    rw [hsame.sourceOf] at hcap hs
    obtain ⟨r, hr, hpid⟩ := find_some hi
    have hentry := h.entry hr
    rw [hpid, ← sourceOf_eq hi] at hentry
    obtain ⟨hz, -⟩ | ⟨-, object', hcap', hgiven⟩ := h.sourced _ (List.mem_of_getElem? hentry)
    · exact absurd hz hs
    · rw [hsame.caps] at hcap
      obtain rfl : object = object' := Option.some.inj (hcap.symm.trans hcap')
      exact hgiven

end

/-! ## Runs -/

theorem Boot.start_inStep (b : Boot) : InStep b.firstFree b.start ∧ b.start.Tight b.firstFree := by
  refine ⟨⟨Nat.zero_le _, List.length_replicate, List.nodup_nil, fun e he => absurd he List.not_mem_nil,
    List.nodup_nil, List.nodup_nil, fun slot hs => absurd hs List.not_mem_nil, b.firstFree_pos, Nat.le_refl _,
    b.firstFree_le⟩, rfl⟩

def Spare : World → List Received → Prop
  | _, [] => True
  | w, m :: ms => w.Spares m ∧ Spare (w.step m).2 ms

theorem InStep.run {first : ℕ} {w : World} (h : InStep first w) (ms : List Received) :
    InStep first (w.run ms) ∧ (Spare w ms → w.Tight first → (w.run ms).Tight first) := by
  induction ms generalizing w with
  | nil => exact ⟨h, fun _ ht => ht⟩
  | cons m ms ih =>
    obtain ⟨hin, htight⟩ := h.step m
    obtain ⟨hrun, hspare⟩ := ih hin
    exact ⟨hrun, fun hs ht => hspare hs.2 (htight hs.1 ht)⟩

/-- **The registry**, in every run.  The source beside each row is what its process registered.
    Where no call gave up a slot, those handed out are no more than those live rows and owners
    lead to.  A break that is allowed, of a process with a source, is delivered exactly when a
    slot is left and the kernel mints into it, and no one else is signalled.  A call leaves the
    rows and ports of others than its caller exactly when it unregisters none of these rows
    and replaces none of these ports. -/
theorem registry_exact (b : Boot) (ms : List Received) :
    let w := b.start.run ms
    (∀ i r, w.service.rows[i]? = some r → Sourced w (r.pid, w.service.sources.getD i 0)) ∧
    (Spare b.start ms → w.service.next - b.firstFree ≤ w.reach.length) ∧
    (∀ m, m.method = kMethodBreak → 2 ≤ m.words.length → mayBreak m.badge (m.word 0) = true →
      attn (m.word 1) ≠ 0 → w.sourceOf (m.word 0) ≠ 0 → ∃ object, w.given (m.word 0) = some object ∧
        ((w.step m).2.signalled = w.signalled ++ [(object, attn (m.word 1))] ↔ w.hasSlot ∧ m.minted = true)) ∧
    (∀ m, (w.step m).2.signalled = w.signalled ∨
      ∃ object, mayBreak m.badge (m.word 0) = true ∧ w.given (m.word 0) = some object ∧
        (w.step m).2.signalled = w.signalled ++ [(object, attn (m.word 1))]) ∧
    ∀ m, Spared m.badge w (w.step m).2 ↔ w.Authorised m := by
  obtain ⟨hstart, htight⟩ := b.start_inStep
  obtain ⟨hin, hspare⟩ := hstart.run ms
  refine ⟨fun i r hr => hin.sourced _ (List.mem_of_getElem? (hin.entry hr)), fun hs => ?_,
    fun m hm hlen hmay hflags hs => hin.break_signalled hm hlen hmay hflags hs, hin.step_signalled, hin.spared_iff⟩
  have ht := hspare hs htight
  rw [World.Tight] at ht
  omega

/-- Room for four processes, and slots from 8 to 15. -/
def boot : Boot := ⟨4, 8, by decide, 16, by decide⟩

def registerOf (pid object : ℕ) : Received :=
  ⟨0, kMethodRegister, pid :: List.replicate 15 0, some object, true, true⟩

def unregisterOf (pid : ℕ) : Received := ⟨2 ^ 62, kMethodUnregister, [pid], none, true, true⟩

theorem registry_exact_boot : (boot.start.run [registerOf 5 77]).service.next - 8 ≤
    (boot.start.run [registerOf 5 77]).reach.length ∧ (boot.start.run [registerOf 5 77]).reach = [8] := by
  have hspare : Spare boot.start [registerOf 5 77] :=
    ⟨⟨fun hm => absurd hm (by decide), fun hm => absurd hm (by decide), fun _ _ _ _ _ _ => rfl,
      fun hm => absurd hm (by decide)⟩, trivial⟩
  obtain ⟨-, hslots, -⟩ := registry_exact boot [registerOf 5 77]
  exact ⟨hslots hspare, by decide⟩

/-- A process that comes and goes leaves a slot handed out that nothing leads to, and a user
    unregisters a process of the system. -/
theorem registry_fails :
    (¬ ∀ (b : Boot) (ms : List Received), (b.start.run ms).service.next - b.firstFree ≤ (b.start.run ms).reach.length) ∧
    ¬ ∀ (b : Boot) (ms : List Received) (m : Received), Spared m.badge (b.start.run ms) ((b.start.run ms).step m).2 := by
  refine ⟨fun hall => ?_, fun hall => ?_⟩
  · exact absurd (hall boot [registerOf 5 77, unregisterOf 5]) (by decide)
  · have hspared := hall boot [registerOf 5 77] (unregisterOf 5)
    have hrow : (Row.ofWords (registerOf 5 77).words).seed ∈ (boot.start.run [registerOf 5 77]).service.rows := by
      decide
    have hmem := hspared.rows _ hrow (by decide)
    exact absurd hmem (by decide)

end Aegir.Registry
