/-
  Where the calls that name a union's handle go (`main.cc`, `UnionHandle`, `member_at`,
  `union_write` to `union_close`).
-/
import Aegir.Vfs.Handout

namespace Aegir.Vfs

namespace Service

/-- The volume that a call on a union's capability is forwarded to, and the handle it names
    there. -/
def target (s : Service) (cap serial : ℕ) : Option (Volume × ℕ) :=
  (s.tables.findUnion (unionId cap)).bind fun b =>
    (s.tables.forward b serial).map fun (member, row) => (member.volume, row.memberHandle)

theorem reply_of_target (s : Service) {caller cap serial : ℕ} {call : UnionCall} (ports : Ports)
    (hh : call.handle = some serial) :
    (s.step (.union caller cap call ports)).1 = .nothing ∨
      ∃ (v : Volume) (handle badge : ℕ) (request : ℕ → Request), s.target cap serial = some (v, handle) ∧
        (s.step (.union caller cap call ports)).1 = (ports.ask v badge (request handle)).reply := by
  have hforward : ∀ b request, s.tables.findUnion (unionId cap) = some b →
      (s.tables.forwardCall ports b (memberBadge b) serial request).reply = .nothing ∨
      ∃ (v : Volume) (handle badge : ℕ) (request' : ℕ → Request), s.target cap serial = some (v, handle) ∧
        (s.tables.forwardCall ports b (memberBadge b) serial request).reply =
          (ports.ask v badge (request' handle)).reply := by
    intro b request hb
    unfold Tables.forwardCall
    rcases hf : s.tables.forward b serial with _ | ⟨member, row⟩
    · exact Or.inl rfl
    · refine Or.inr ⟨member.volume, row.memberHandle, memberBadge b, request, ?_, rfl⟩
      rw [target, hb, Option.bind_some, hf, Option.map_some]
  simp only [Service.step, Tables.answerUnion]
  rcases hb : s.tables.findUnion (unionId cap) with _ | b
  · exact Or.inl rfl
  · cases call with
    | write h words =>
      cases hh
      exact hforward b _ hb
    | readHandle h words =>
      cases hh
      exact hforward b _ hb
    | writeFrame h words arrived moved =>
      cases hh
      simp only [Tables.serveUnion]
      split
      · exact hforward b _ hb
      · exact Or.inl rfl
    | readFrame h words arrived moved =>
      cases hh
      simp only [Tables.serveUnion]
      split
      · exact hforward b _ hb
      · exact Or.inl rfl
    | close h =>
      cases hh
      simp only [Tables.serveUnion, Tables.unionClose]
      split
      · exact Or.inl rfl
      · exact hforward b _ hb
    | _ => cases hh

/-! ## The condition -/

/-- A call that names an open handle comes on the union the handle was opened through; a bind
    that edits a union with an open handle appends; ids do not run over. -/
def Steady (s : Service) : Event → Prop
  | .names caller call => s.tables.Counted ∧ ∀ b m, call.edit s.tables caller = some (b, m) →
      m.flags &&& kBindAppend ≠ 0 ∨
        ∀ row ∈ s.tables.handles, ∀ o ∈ s.opened, o.serial = row.serial → o.union ≠ b.unionId
  | .union _ cap call _ => ∀ h, call.handle = some h → ∀ row ∈ s.tables.handles, row.serial = h →
      ∀ o ∈ s.opened, o.serial = h → o.union = unionId cap

/-! ## The invariant -/

/-- The row of a handle has the place of the member that answered the open, in every binding
    that has the union's id. -/
structure Row (s : Service) (row : UnionHandle) (o : Opened) : Prop where
  serial : o.serial = row.serial
  handle : o.handle = row.memberHandle
  pos : 0 < o.union
  given : o.union < s.tables.unionNext
  place : ∀ b ∈ s.tables.bindings, b.unionId = o.union →
    ∃ m, b.members[row.member]? = some m ∧ m.volume = o.volume

/-- Every open handle is at its member's place, and serials are given out once. -/
structure Placed (s : Service) : Prop where
  rows : ∀ row ∈ s.tables.handles, ∃ o ∈ s.opened, Row s row o
  serials : ∀ o ∈ s.opened, o.serial < s.tables.handleNext
  once : (s.opened.map Opened.serial).Nodup

section
variable {s s' : Service} {e : Event}

theorem grown_place {b : Binding} {m : Member} {i id : ℕ} {v : Volume}
    (ha : m.flags &&& kBindAppend ≠ 0) (h : ∃ m', b.members[i]? = some m' ∧ m'.volume = v) :
    ∃ m', (Tables.grown id b m).members[i]? = some m' ∧ m'.volume = v := by
  obtain ⟨m', hm', hv⟩ := h
  refine ⟨m', ?_, hv⟩
  obtain ⟨hlt, -⟩ := List.getElem?_eq_some_iff.1 hm'
  simp only [Tables.grown, Tables.growMembers]
  rw [if_pos ha, List.getElem?_append_left hlt]
  exact hm'

theorem Row.names {caller : ℕ} {call : Call} {row : UnionHandle} {o : Opened} (h : Row s row o)
    (hrow : row ∈ s.tables.handles) (ho : o ∈ s.opened) (hc : s.Steady (.names caller call)) :
    Row (s.step (.names caller call)).2 row o := by
  have hs := s.tables.serve_changed caller call
  refine ⟨h.serial, h.handle, h.pos, h.given.trans_le (hs.unionNext_le hc.1), ?_⟩
  intro b hb he
  replace hb : b ∈ (s.tables.serve caller call).2.bindings := hb
  have hpos := h.pos
  cases hs with
  | kept hsub => exact h.place b (hsub.subset hb) he
  | made b' hz _ hb' =>
    rw [hb'] at hb
    rcases List.mem_cons.1 hb with rfl | hb
    · omega
    · exact h.place b hb he
  | edited i b' m hi hedit _ hb' =>
    rw [hb'] at hb
    rcases List.mem_or_eq_of_mem_set hb with hb | rfl
    · exact h.place b hb he
    · rcases Tables.grown_unionId s.tables.unionNext b' m with ⟨hid, -⟩ | ⟨hid, -, -⟩
      · rw [hid] at he
        rcases hc.2 b' m hedit with ha | hnone
        · exact grown_place ha (h.place b' (List.mem_of_getElem? hi) he)
        · exact absurd he.symm (hnone row hrow o ho h.serial)
      · have := h.given
        omega

theorem Placed.names {caller : ℕ} {call : Call} (h : Placed s) (hc : s.Steady (.names caller call)) :
    Placed (s.step (.names caller call)).2 := by
  obtain ⟨hh, hn⟩ : Tables.SameHandles s.tables (s.tables.serve caller call).2 := by
    cases s.tables.serve_changed caller call <;> assumption
  refine ⟨fun row hrow => ?_, fun o ho => ?_, h.once⟩
  · replace hrow : row ∈ s.tables.handles := hh ▸ hrow
    obtain ⟨o, ho, hr⟩ := h.rows row hrow
    exact ⟨o, ho, hr.names hrow ho hc⟩
  · exact (h.serials o ho).trans_eq hn.symm

/-- What a union's call does to the handles: some go, or an open makes one. -/
inductive Handles (s : Service) (cap : ℕ) (s' : Service) : Prop where
  | kept (hh : s'.tables.handles.Sublist s.tables.handles)
      (hn : s'.tables.handleNext = s.tables.handleNext) (ho : s'.opened = s.opened)
  | made (b : Binding) (m : Member) (index handle : ℕ) (hb : s.tables.findUnion (unionId cap) = some b)
      (hm : b.members[index]? = some m)
      (hh : s'.tables.handles = ⟨s.tables.handleNext, index, handle⟩ :: s.tables.handles)
      (hn : s'.tables.handleNext = s.tables.handleNext + 1)
      (ho : s'.opened = ⟨s.tables.handleNext, unionId cap, m.volume, handle⟩ :: s.opened)

theorem step_handles (s : Service) (caller cap : ℕ) (call : UnionCall) (ports : Ports) :
    Handles s cap (s.step (.union caller cap call ports)).2 := by
  simp only [Service.step, Tables.answerUnion]
  rcases hb : s.tables.findUnion (unionId cap) with _ | b
  · refine .kept (List.Sublist.refl _) rfl ?_
    cases call <;> simp [opening, hb]
  · cases call with
    | openPath path flags =>
      simp only [Tables.serveUnion, Tables.unionOpen, opening, hb]
      rcases ho : openMember ports b (memberBadge b) path flags with _ | o
      · exact .kept (List.Sublist.refl _) rfl rfl
      · dsimp only
        split
        · exact .kept (List.Sublist.refl _) rfl rfl
        · rcases ht : s.tables.handleTake with _ | t
          · exact .kept (List.Sublist.refl _) rfl rfl
          · have hp : t.handles = s.tables.handles ∧ t.handleNext = s.tables.handleNext := by
              unfold Tables.handleTake at ht
              split_ifs at ht
              · cases ht
                exact ⟨rfl, rfl⟩
              · exact ⟨(Tables.arenaTake_paid ht).handles, (Tables.arenaTake_paid ht).handleNext⟩
            refine .made b o.member o.index o.handle hb (Tables.openMember_mem ho) ?_ ?_ ?_
            · simp only [hp.1, hp.2]
            · simp only [hp.2]
            · simp only [ho, hp.2]
    | close h =>
      simp only [Tables.serveUnion, Tables.unionClose, opening]
      split
      · exact .kept (List.Sublist.refl _) rfl rfl
      · exact .kept List.erase_sublist rfl rfl
    | _ => exact .kept (List.Sublist.refl _) rfl rfl

theorem Placed.union {caller cap : ℕ} {call : UnionCall} {ports : Ports} (h : Placed s) (hi : Inv s)
    (hl : s.Legal (.union caller cap call ports)) :
    Placed (s.step (.union caller cap call ports)).2 := by
  obtain ⟨hb, hu⟩ := s.tables.answerUnion_bindings ports cap call
  have hrow : ∀ row o, Row s row o → Row (s.step (.union caller cap call ports)).2 row o := by
    intro row o hr
    refine ⟨hr.serial, hr.handle, hr.pos, ?_, ?_⟩
    · simp only [Service.step, hu]
      exact hr.given
    · simp only [Service.step, hb]
      exact hr.place
  cases s.step_handles caller cap call ports with
  | kept hh hn ho =>
    refine ⟨fun row hmem => ?_, fun o hmem => ?_, by rw [ho]; exact h.once⟩
    · obtain ⟨o, hmem', hr⟩ := h.rows row (hh.subset hmem)
      exact ⟨o, ho ▸ hmem', hrow row o hr⟩
    · rw [hn]
      exact h.serials o (ho ▸ hmem)
  | made b m index handle hfind hm hh hn ho =>
    obtain ⟨hmem, hid⟩ := Tables.findUnion_some hfind
    obtain ⟨id, hcap, h0, hlt, -⟩ := hi.held _ hl.2
    have hids : unionId cap = id := by
      rw [show cap = unionBadge id from hcap]
      exact unionId_unionBadge (hlt.trans_le hi.held_ids)
    refine ⟨fun row hmem' => ?_, fun o hmem' => ?_, ?_⟩
    · rw [hh] at hmem'
      rw [ho]
      rcases List.mem_cons.1 hmem' with rfl | hmem'
      · refine ⟨_, List.mem_cons_self, hrow _ _ ⟨rfl, rfl, hids.symm ▸ h0, hids.symm ▸ hlt,
          fun b' hb' he => ?_⟩⟩
        -- the union's id is this binding's alone
        have hz : b'.unionId ≠ 0 := by
          rw [he, hids]
          exact h0.ne'
        rw [hi.numbered.eq_of_unionId hb' hmem (he.trans hid.symm) hz]
        exact ⟨m, hm, rfl⟩
      · obtain ⟨o, hmem'', hr⟩ := h.rows row hmem'
        exact ⟨o, List.mem_cons_of_mem _ hmem'', hrow row o hr⟩
    · rw [ho] at hmem'
      rw [hn]
      rcases List.mem_cons.1 hmem' with rfl | hmem'
      · exact Nat.lt_succ_self _
      · exact (h.serials o hmem').trans (Nat.lt_succ_self _)
    · rw [ho, List.map_cons, List.nodup_cons]
      refine ⟨fun hin => ?_, h.once⟩
      obtain ⟨o, ho', he⟩ := List.mem_map.1 hin
      have := h.serials o ho'
      simp only at he
      omega

theorem Placed.run (h : Placed s) (hi : Inv s) (hr : Run Steady s s') : Placed s' ∧ Inv s' := by
  induction hr with
  | nil => exact ⟨h, hi⟩
  | snoc _ e hl hp ih =>
    obtain ⟨hplaced, hinv⟩ := ih
    cases e with
    | names caller call => exact ⟨hplaced.names hp, hinv.step fun _ _ _ => hp.1⟩
    | union caller cap call ports =>
      exact ⟨hplaced.union hinv hl, hinv.step fun _ _ he => by cases he⟩

/-- In every run of steady events, a call that names a handle is forwarded to the volume its
    open was answered by, with that answer's handle, on the union of the open; or refused. -/
theorem handle_routed {arena slot caller cap serial : ℕ} {call : UnionCall} {ports : Ports}
    (hr : Run Steady (start arena slot) s) (hc : s.Steady (.union caller cap call ports))
    (hh : call.handle = some serial) :
    (∀ v handle, s.target cap serial = some (v, handle) →
      ∃ o ∈ s.opened, o.serial = serial ∧ o.union = unionId cap ∧ o.volume = v ∧ o.handle = handle ∧
        ∀ o' ∈ s.opened, o'.serial = serial → o' = o) ∧
    (s.target cap serial = none → (s.step (.union caller cap call ports)).1 = .nothing) := by
  have hstart : Placed (start arena slot) := ⟨by simp [start], by simp [start], by simp [start]⟩
  obtain ⟨hplaced, -⟩ := hstart.run (start_inv arena slot) hr
  refine ⟨fun v handle ht => ?_, fun ht => ?_⟩
  · simp only [target, Tables.forward, Option.bind_eq_some_iff, Option.map_eq_some_iff,
      Prod.mk.injEq] at ht
    obtain ⟨b, hb, ⟨m, row⟩, ⟨row', hrow', m', hm', hsame⟩, rfl, rfl⟩ := ht
    cases hsame
    have hmem := List.mem_of_find?_eq_some hrow'
    have hserial : row.serial = serial := by simpa using List.find?_some hrow'
    obtain ⟨o, ho, hrow⟩ := hplaced.rows row hmem
    have hunion := hc serial hh row hmem hserial o ho (hrow.serial.trans hserial)
    obtain ⟨hbmem, hid⟩ := Tables.findUnion_some hb
    obtain ⟨m'', hm'', hv⟩ := hrow.place b hbmem (hid.trans hunion.symm)
    rw [hm'] at hm''
    cases hm''
    refine ⟨o, ho, hrow.serial.trans hserial, hunion, hv.symm, hrow.handle, fun o' ho' he => ?_⟩
    exact List.inj_on_of_nodup_map hplaced.once ho' ho (he.trans (hrow.serial.trans hserial).symm)
  · rcases s.reply_of_target ports hh with h | ⟨v, handle, -, -, h, -⟩
    · exact h
    · rw [ht] at h
      cases h

end

/-! ## A member put in front -/

open Tables (aegir session blank)

/-- A session binds two places into a name, resolves it, and opens `f` there to write. -/
def openedEvents : List Event := [
  .names 0 (.register aegir kFlagBoot true true blank),
  .names 0 (.register kPrivate kFlagPublic true true blank),
  .names (session 2 1) (.bindSelf 0 kUnionName (aegir ++ [kColon, 97])),
  .names (session 2 1) (.bindSelf kBindAppend kUnionName (aegir ++ [kColon, 98])),
  .names (session 2 1) (.resolve (kUnionName ++ [kColon]) true),
  .union (session 2 1) (unionBadge 1) (.openPath [102] kOpenCreate) ports]

def prepend : Event := .names (session 2 1) (.bindSelf kBindPrepend kUnionName (kPrivate ++ [kColon]))

def writable : Service := (start 16384 16).after openedEvents

theorem writable_run {P : Service → Event → Prop}
    (hP : ∀ n, ∀ e ∈ openedEvents[n]?, P ((start 16384 16).after (openedEvents.take n)) e) :
    Run P (start 16384 16) writable := by
  have h := (((((Run.nil (start 16384 16)).names (by decide) (hP 0 _ rfl)).names (by decide)
    (hP 1 _ rfl)).names (by decide) (hP 2 _ rfl)).names (by decide) (hP 3 _ rfl)).names (by decide)
    (hP 4 _ rfl)
  exact h.snoc _ ⟨by decide, show (_, _) ∈ _ by decide⟩ (hP 5 _ rfl)

/-- The open was answered by the system volume, and after the bind a write goes to the other. -/
theorem prepend_misroutes : Run (fun _ _ => True) (start 16384 16) (writable.step prepend).2 ∧
    (writable.step prepend).2.opened = [⟨1, 1, ⟨aegir, kFlagBoot, 16, 0, []⟩, 5⟩] ∧
    (writable.step prepend).2.target (unionBadge 1) 1 =
      some (⟨kPrivate, kFlagPublic, 17, 0, []⟩, 5) := by
  refine ⟨?_, by decide, by decide⟩
  exact (writable_run fun _ _ _ => trivial).names (by decide) trivial

/-- Without the bind, the write goes where the open was answered. -/
theorem handle_routed_write : ∃ o ∈ writable.opened, o.serial = 1 ∧ o.union = 1 ∧
    o.volume = ⟨aegir, kFlagBoot, 16, 0, []⟩ ∧ o.handle = 5 := by
  have hcounted : ∀ n < 6, ((start 16384 16).after (openedEvents.take n)).tables.unionNext <
      2 ^ kUnionIdBits := by
    decide
  have hnone : ∀ n < 6, ((start 16384 16).after (openedEvents.take n)).tables.handles = [] := by
    decide
  have hr : Run Steady (start 16384 16) writable := by
    refine writable_run fun n e he => ?_
    have hn : n < 6 := (List.getElem?_eq_some_iff.1 he).1
    cases e with
    | names caller call =>
      refine ⟨hcounted n hn, fun b m _ => Or.inr fun row hrow => ?_⟩
      rw [hnone n hn] at hrow
      cases hrow
    | union caller cap call ports =>
      intro h _ row hrow
      rw [hnone n hn] at hrow
      cases hrow
  have hsteady : writable.Steady (.union (session 2 1) (unionBadge 1) (.write 1 []) ports) := by
    rintro h hh row - - o ho -
    have hall : ∀ o ∈ writable.opened, o.union = unionId (unionBadge 1) := by decide
    exact hall o ho
  obtain ⟨o, ho, hserial, hunion, hv, hh, -⟩ :=
    (handle_routed hr hsteady rfl).1 ⟨aegir, kFlagBoot, 16, 0, []⟩ 5
      (by decide)
  exact ⟨o, ho, hserial, hunion.trans (by decide), hv, hh⟩

end Service

end Aegir.Vfs
