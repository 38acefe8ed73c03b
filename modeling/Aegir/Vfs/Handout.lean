/-
  The capabilities of volumes that leave the VFS (`main.cc`, `may_resolve`,
  `answer_resolve`, `union_open`).
-/
import Aegir.Vfs.Ids

namespace Aegir.Vfs

open Aegir.Fs (isUserBadge userIndex)

def Event.caller : Event → ℕ
  | .names caller _ | .union caller _ _ _ => caller

/-- A volume's port that a user is handed is of a volume it may resolve, and carries its own
    badge or one of the same user's. -/
def Proper (caller : ℕ) (reply : Reply) : Prop :=
  isUserBadge caller = true → ∀ v b, reply.cap = some (.volume v b) →
    mayResolve caller v = true ∧
      (b = caller ∨ isUserBadge b = true ∧ userIndex b = userIndex caller)

theorem unionId_unionBadge {id : ℕ} (h : id < 2 ^ kUnionIdBits) : unionId (unionBadge id) = id := by
  refine Nat.eq_of_testBit_eq fun i => ?_
  simp only [unionId, unionBadge, Nat.testBit_mod_two_pow, Nat.testBit_shiftRight, Nat.testBit_or,
    Nat.testBit_two_pow, Nat.testBit_shiftLeft]
  by_cases hi : i < kUnionIdBits
  · have hne : ¬ 63 = 32 + i := by
      unfold kUnionIdBits at hi
      omega
    simp [hi, hne]
  · have hbit : id.testBit i = false :=
      Nat.testBit_lt_two_pow (h.trans_le (Nat.pow_le_pow_right (by decide) (not_lt.1 hi)))
    simp [hi, hbit]

namespace Tables

section
variable {s : Tables} {caller : ℕ}

theorem Numbered.eq_of_unionId (h : Numbered s) {b b' : Binding} (hb : b ∈ s.bindings)
    (hb' : b' ∈ s.bindings) (he : b.unionId = b'.unionId) (hz : b.unionId ≠ 0) : b = b' := by
  by_contra hne
  have hsymm : Std.Symm fun b b' : Binding => b.unionId ≠ 0 → b.unionId ≠ b'.unionId :=
    ⟨fun x y hxy hy heq => hxy (by rwa [← heq]) heq.symm⟩
  exact h.apart.forall hb hb' hne hz he

theorem bindingOf_mem {name : List UInt8} {b : Binding} (h : s.bindingOf caller name = some b) :
    b ∈ s.bindings := by
  obtain ⟨i, -, hi⟩ := Option.bind_eq_some_iff.1 h
  exact List.mem_of_getElem? hi

theorem resolvePath_union {path rest : List UInt8} {b : Binding}
    (h : s.resolvePath caller path = .union b rest) :
    b ∈ s.bindings ∧ b.unionId ≠ 0 ∧ (b.badge = caller ∨ b.badge = kAliasEveryone) := by
  unfold resolvePath at h
  dsimp only at h
  split at h
  · cases h
  split at h
  · split at h
    · split at h <;> cases h
    · cases h
  · split at h
    · cases h
    · rename_i hof
      split at h
      · rename_i hid
        split at h
        · cases h
        · cases h
          exact ⟨bindingOf_mem hof, hid, bindingOf_badge hof⟩
      · split at h
        · cases h
        · split at h
          · split at h <;> cases h
          · cases h

theorem serve_cap {call : Call} {c : Cap} (h : (s.serve caller call).1.cap = some c) :
    (∃ v, c = .volume v caller ∧ mayResolve caller v = true) ∨
      ∃ b ∈ s.bindings, b.unionId ≠ 0 ∧ (b.badge = caller ∨ b.badge = kAliasEveryone) ∧
        c = .union (unionBadge b.unionId) := by
  have hbind : ∀ badge flags name target, (s.answerBind badge flags name target).1.cap = none := by
    intro badge flags name target
    unfold answerBind
    split
    · rfl
    · split
      · rfl
      · split
        · rfl
        · unfold freshBinding
          split <;> rfl
  cases call with
  | resolve path minted =>
    simp only [serve, answerResolve] at h
    split at h
    · cases h
    · split at h
      · cases h
      · rename_i b rest hr
        split at h
        · cases h
          obtain ⟨hb, hid, hbadge⟩ := resolvePath_union hr
          exact Or.inr ⟨b, hb, hid, hbadge, rfl⟩
        · cases h
      · rename_i v rest hr
        split at h
        · cases h
          exact Or.inl ⟨v, rfl, resolvePath_may hr⟩
        · cases h
  | register name flags arrived moved row =>
    simp only [serve, answerRegister] at h
    split at h
    · cases h
    · split at h
      · cases h
      · split at h
        · cases h
        · split at h <;> cases h
  | mount source view owner flags row =>
    simp only [serve, answerMount] at h
    split at h
    · cases h
    · split at h
      · cases h
      · cases h
      · split at h
        · cases h
        · split at h
          · cases h
          · split at h
            · cases h
            · split at h <;> cases h
  | bind badge flags name target =>
    simp only [serve, hbind] at h
    cases h
  | bindSelf flags name target =>
    simp only [serve, hbind] at h
    cases h
  | unbind badge => cases h
  | unbindName name =>
    simp only [serve, answerUnbindName] at h
    split at h
    · cases h
    · split at h <;> cases h
  | look => cases h


theorem findUnion_some {id : ℕ} {b : Binding} (h : s.findUnion id = some b) :
    b ∈ s.bindings ∧ b.unionId = id :=
  ⟨List.mem_of_find?_eq_some h, by simpa using List.find?_some h⟩

theorem openMember_mem {ports : Ports} {b : Binding} {badge flags : ℕ} {path : List UInt8} {o : Opening}
    (h : openMember ports b badge path flags = some o) : b.members[o.index]? = some o.member := by
  unfold openMember at h
  obtain ⟨i, -, h⟩ := Option.bind_eq_some_iff.1 h
  obtain ⟨m, hm, h⟩ := Option.bind_eq_some_iff.1 h
  obtain ⟨path, -, h⟩ := Option.bind_eq_some_iff.1 h
  dsimp only at h
  split_ifs at h
  cases h
  exact hm

theorem answerUnion_bindings (s : Tables) (ports : Ports) (cap : ℕ) (call : UnionCall) :
    (s.answerUnion ports cap call).2.bindings = s.bindings ∧
      (s.answerUnion ports cap call).2.unionNext = s.unionNext := by
  unfold answerUnion
  split
  · exact ⟨rfl, rfl⟩
  · cases call with
    | openPath path flags =>
      simp only [serveUnion, unionOpen]
      split
      · exact ⟨rfl, rfl⟩
      · split
        · exact ⟨rfl, rfl⟩
        · unfold handleTake
          split_ifs
          · exact ⟨rfl, rfl⟩
          · split
            · exact ⟨rfl, rfl⟩
            · rename_i hs
              exact ⟨(arenaTake_paid hs).bindings, (arenaTake_paid hs).unionNext⟩
    | close h =>
      simp only [serveUnion, unionClose]
      split <;> exact ⟨rfl, rfl⟩
    | _ => exact ⟨rfl, rfl⟩

theorem answerUnion_cap {ports : Ports} {cap : ℕ} {call : UnionCall} {c : Cap}
    (h : (s.answerUnion ports cap call).1.cap = some c) : ∃ path flags b m,
      call = .openPath path flags ∧ flags &&& kOpenRead ≠ 0 ∧ s.findUnion (unionId cap) = some b ∧
        m ∈ b.members ∧ c = .volume m.volume (memberBadge b) := by
  unfold answerUnion at h
  split at h
  · cases h
  · rename_i b hb
    cases call with
    | openPath path flags =>
      simp only [serveUnion, unionOpen] at h
      split at h
      · cases h
      · rename_i o ho
        split at h
        · rename_i hf
          cases h
          exact ⟨path, flags, b, o.member, rfl, hf, hb, List.mem_of_getElem? (openMember_mem ho), rfl⟩
        · split at h <;> cases h
    | close h' =>
      simp only [serveUnion, unionClose] at h
      split at h <;> cases h
    | writeFrame h' words arrived moved =>
      simp only [serveUnion] at h
      split at h <;> cases h
    | readFrame h' words arrived moved =>
      simp only [serveUnion] at h
      split at h <;> cases h
    | _ => cases h

theorem Changed.allowed {s' : Tables} {call : Call} (h : ∀ b ∈ s.bindings, b.Allowed)
    (hs : Changed s caller call s') : ∀ b ∈ s'.bindings, b.Allowed := by
  intro b hb
  cases hs with
  | kept hsub => exact h b (hsub.subset hb)
  | made b' _ ha hb' =>
    rw [hb'] at hb
    rcases List.mem_cons.1 hb with rfl | hb
    · exact ha
    · exact h b hb
  | edited i b' m hi _ hm hb' =>
    rw [hb'] at hb
    rcases List.mem_or_eq_of_mem_set hb with hb | rfl
    · exact h b hb
    · intro hne m' hm'
      have hold := h b' (List.mem_of_getElem? hi) hne
      have hor : m' ∈ b'.members ∨ m' = m := by
        simp only [grown, growMembers] at hm'
        split_ifs at hm'
        · simpa using hm'
        · exact (List.mem_cons.1 hm').symm
        · exact Or.inr (List.mem_singleton.1 hm')
      rcases hor with hm' | rfl
      · exact hold m' hm'
      · exact hm hne

theorem Changed.badge_of_unionId {s' : Tables} {call : Call} {id : ℕ} {P : ℕ → Prop} (h0 : 0 < id)
    (hlt : id < s.unionNext) (h : ∀ b ∈ s.bindings, b.unionId = id → P b.badge)
    (hs : Changed s caller call s') : ∀ b ∈ s'.bindings, b.unionId = id → P b.badge := by
  intro b hb he
  cases hs with
  | kept hsub => exact h b (hsub.subset hb) he
  | made b' hz _ hb' =>
    rw [hb'] at hb
    rcases List.mem_cons.1 hb with rfl | hb
    · omega
    · exact h b hb he
  | edited i b' m hi _ _ hb' =>
    rw [hb'] at hb
    rcases List.mem_or_eq_of_mem_set hb with hb | rfl
    · exact h b hb he
    · rcases grown_unionId s.unionNext b' m with ⟨hid, -⟩ | ⟨hid, -, -⟩
      · exact h b' (List.mem_of_getElem? hi) (hid ▸ he)
      · omega

end

end Tables

/-! ## Runs -/

namespace Service

/-- A user opens nothing to read through a union of everyone's; and while bindings change, a
    badge holds every id. -/
def Careful (s : Service) : Event → Prop
  | .names _ _ => s.tables.Counted
  | .union caller cap (.openPath _ flags) _ => isUserBadge caller = true → flags &&& kOpenRead ≠ 0 →
      ∀ b, s.tables.findUnion (unionId cap) = some b → b.badge ≠ kAliasEveryone
  | .union _ _ _ _ => True

/-- The bindings were resolved for their badges, and who holds a union's capability sees the
    union under a binding of its own or of everyone. -/
structure Inv (s : Service) : Prop where
  numbered : s.tables.Numbered
  held_ids : s.tables.unionNext ≤ 2 ^ kUnionIdBits
  allowed : ∀ b ∈ s.tables.bindings, b.Allowed
  held : ∀ p ∈ s.held, ∃ id, p.2 = unionBadge id ∧ 0 < id ∧ id < s.tables.unionNext ∧
    ∀ b ∈ s.tables.bindings, b.unionId = id → b.badge = p.1 ∨ b.badge = kAliasEveryone

theorem start_inv (arena slot : ℕ) : Inv (start arena slot) :=
  ⟨⟨Nat.one_pos, by simp [start], by simp [start]⟩, by simp [start, kUnionIdBits], by simp [start],
    by simp [start]⟩

section
variable {s s' : Service} {e : Event}

theorem Inv.step (h : Inv s) (hcount : ∀ caller call, e = .names caller call → s.tables.Counted) :
    Inv (s.step e).2 := by
  cases e with
  | names caller call =>
    have hc := hcount caller call rfl
    have hs := s.tables.serve_changed caller call
    have hle := hs.unionNext_le hc
    refine ⟨h.numbered.changed hc hs, ?_, hs.allowed h.allowed, ?_⟩
    · have hnext : (s.tables.serve caller call).2.unionNext ≤ s.tables.unionNext + 1 := by
        cases hs with
        | kept _ hu => omega
        | made _ _ _ _ hu => omega
        | edited i b m _ _ _ _ hu =>
          rw [hu]
          split
          · exact Nat.mod_le _ _
          · omega
      have hc' : s.tables.unionNext < 2 ^ kUnionIdBits := hc
      exact hnext.trans hc'
    · intro p hp
      have hold : p ∈ s.held → ∃ id, p.2 = unionBadge id ∧ 0 < id ∧
          id < (s.tables.serve caller call).2.unionNext ∧
          ∀ b ∈ (s.tables.serve caller call).2.bindings, b.unionId = id →
            b.badge = p.1 ∨ b.badge = kAliasEveryone := by
        intro hp
        obtain ⟨id, hid, h0, hlt, hb⟩ := h.held p hp
        exact ⟨id, hid, h0, hlt.trans_le hle,
          hs.badge_of_unionId (P := fun x => x = p.1 ∨ x = kAliasEveryone) h0 hlt hb⟩
      simp only [Service.step] at hp
      rcases hcap : (s.tables.serve caller call).1.cap with _ | c
      · rw [hcap] at hp
        exact hold hp
      · rw [hcap] at hp
        rcases Tables.serve_cap hcap with ⟨v, rfl, -⟩ | ⟨b, hb, hz, hbadge, rfl⟩
        · exact hold hp
        · rcases List.mem_cons.1 hp with rfl | hp
          · have hlt := h.numbered.given b hb
            refine ⟨b.unionId, rfl, Nat.pos_of_ne_zero hz, hlt.trans_le hle, ?_⟩
            refine hs.badge_of_unionId (P := fun x => x = caller ∨ x = kAliasEveryone)
              (Nat.pos_of_ne_zero hz) hlt fun b' hb' he => ?_
            rw [h.numbered.eq_of_unionId hb' hb he (by rwa [he])]
            exact hbadge
          · exact hold hp
  | union caller cap call ports =>
    obtain ⟨hb, hu⟩ := s.tables.answerUnion_bindings ports cap call
    have hheld : s.hold caller (s.tables.answerUnion ports cap call).1.cap = s.held := by
      rcases hcap : (s.tables.answerUnion ports cap call).1.cap with _ | c
      · rfl
      · obtain ⟨path, flags, b, m, -, -, -, -, rfl⟩ := Tables.answerUnion_cap hcap
        rfl
    refine ⟨⟨?_, ?_, ?_⟩, ?_, ?_, ?_⟩
    all_goals simp only [Service.step, hb, hu, hheld]
    · exact h.numbered.next
    · exact h.numbered.given
    · exact h.numbered.apart
    · exact h.held_ids
    · exact h.allowed
    · exact h.held

theorem Inv.proper (h : Inv s) (hl : s.Legal e) (hc : s.Careful e) : Proper e.caller (s.step e).1 := by
  intro huser v b hcap
  cases e with
  | names caller call =>
    rcases Tables.serve_cap hcap with ⟨v', hv, hmay⟩ | ⟨b', -, -, -, hv⟩
    · cases hv
      exact ⟨hmay, Or.inl rfl⟩
    · cases hv
  | union caller cap call ports =>
    obtain ⟨path, flags, b', m, rfl, hf, hfind, hm, hv⟩ := Tables.answerUnion_cap hcap
    cases hv
    have hne := hc huser hf b' hfind
    obtain ⟨hb', hid⟩ := Tables.findUnion_some hfind
    obtain ⟨id, rfl : cap = unionBadge id, h0, hlt, hheld⟩ := h.held _ hl.2
    have hids : unionId (unionBadge id) = id := unionId_unionBadge (hlt.trans_le h.held_ids)
    -- whose union it is, its holder knows
    have hbadge : b'.badge = caller := (hheld b' hb' (hid.trans hids)).resolve_right hne
    have hmb : memberBadge b' = caller := by rw [memberBadge, if_neg hne, hbadge]
    rw [hmb]
    exact ⟨hbadge ▸ h.allowed b' hb' hne m hm, Or.inl rfl⟩

theorem Inv.run {P : Service → Event → Prop}
    (hP : ∀ s caller call, P s (.names caller call) → s.tables.Counted) (h : Inv s)
    (hr : Run P s s') : Inv s' := by
  induction hr with
  | nil => exact h
  | snoc _ e _ hp ih =>
    refine ih.step fun caller call he => ?_
    subst he
    exact hP _ caller call hp

theorem Run.names {P : Service → Event → Prop} {caller : ℕ} {call : Call} (h : Run P s s')
    (hl : isUnion caller = false) (hp : P s' (.names caller call)) :
    Run P s (s'.step (.names caller call)).2 := h.snoc _ hl hp

/-- In every run of careful events, a volume's port that a user is handed is one it may have. -/
theorem handed_out {arena slot : ℕ} (hr : Run Careful (start arena slot) s) (hl : s.Legal e)
    (hc : s.Careful e) : Proper e.caller (s.step e).1 :=
  ((start_inv arena slot).run (fun _ _ _ h => h) hr).proper hl hc

end

/-! ## A union of everyone's -/

open Tables (aegir session blank)

/-- `P` -/
def kPrivate : List UInt8 := [80]

/-- `N` -/
def kUnionName : List UInt8 := [78]

/-- Volumes that have every path, and open it as their handle 5. -/
def ports : Ports := ⟨fun _ _ request => match request with
  | .openPath _ _ => ⟨[5], []⟩
  | _ => ⟨[1], []⟩, 1⟩

/-- The system volume and one that is not public, which the system binds into one name for
    everyone; a user resolves the name. -/
def sharedEvents : List Event := [
  .names 0 (.register aegir kFlagBoot true true blank),
  .names 0 (.register kPrivate 0 true true blank),
  .names 0 (.bind kAliasEveryone 0 kUnionName (kPrivate ++ [kColon])),
  .names 0 (.bind kAliasEveryone kBindAppend kUnionName (aegir ++ [kColon])),
  .names (session 2 1) (.resolve (kUnionName ++ [kColon]) true)]

/-- The service once the events have come in, one after another. -/
def after (s : Service) (events : List Event) : Service := events.foldl (fun s e => (s.step e).2) s

def shared : Service := (start 8192 16).after sharedEvents

def readOpen : Event := .union (session 2 1) (unionBadge 1) (.openPath [102] kOpenRead) ports

/-- The events are legal, and the user is handed the system's copy of a volume's port that it
    may not resolve. -/
theorem everyones_union_hands_out : Run (fun _ _ => True) (start 8192 16) shared ∧
    shared.Legal readOpen ∧ ¬ Proper readOpen.caller (shared.step readOpen).1 := by
  refine ⟨?_, ⟨by decide, show (_, _) ∈ _ by decide⟩, fun h => ?_⟩
  · exact ((((Run.nil _).names (by decide) trivial).names (by decide) trivial).names (by decide)
      trivial).names (by decide) trivial |>.names (by decide) trivial
  · have hcap : (shared.step readOpen).1.cap = some (.volume ⟨kPrivate, 0, 17, 0, []⟩ 0) := by
      decide
    exact absurd (h (by decide) _ _ hcap).1 (by decide)

/-- A session binds two directories of the system volume into a name of its own, and opens a
    file of the union. -/
def ownEvents : List Event := [
  .names 0 (.register aegir kFlagBoot true true blank),
  .names (session 2 1) (.bindSelf 0 kUnionName (aegir ++ [kColon, 97])),
  .names (session 2 1) (.bindSelf kBindAppend kUnionName (aegir ++ [kColon, 98])),
  .names (session 2 1) (.resolve (kUnionName ++ [kColon]) true)]

theorem handed_out_own :
    Proper (session 2 1) (((start 8192 16).after ownEvents).step readOpen).1 := by
  have hcounted : ∀ n < 4, ((start 8192 16).after (ownEvents.take n)).tables.unionNext <
      2 ^ kUnionIdBits := by
    decide
  have hr : Run Careful (start 8192 16) ((start 8192 16).after ownEvents) :=
    (((Run.nil _).names (by decide) (hcounted 0 (by decide))).names (by decide)
      (hcounted 1 (by decide))).names (by decide) (hcounted 2 (by decide)) |>.names (by decide)
      (hcounted 3 (by decide))
  refine @handed_out _ readOpen _ _ hr ⟨by decide, ?_⟩ ?_
  · show (_, _) ∈ _
    decide
  · intro _ _ b hb
    have hall : ∀ b ∈ ((start 8192 16).after ownEvents).tables.findUnion (unionId (unionBadge 1)),
        b.badge ≠ kAliasEveryone := by
      decide
    exact hall b hb

end Service

end Aegir.Vfs
