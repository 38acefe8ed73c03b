/-
  What a call of the namespace does to the bindings, and the ids of unions.
-/
import Aegir.Vfs.Badges
import Aegir.Vfs.Union

namespace Aegir.Vfs

/-- What a call binds, if it binds: for which badge, the flags, the name and its path. -/
def Call.binds (caller : ℕ) : Call → Option (ℕ × ℕ × List UInt8 × List UInt8)
  | .bind badge flags name target => some (badge, flags, name, target)
  | .bindSelf flags name target => some (caller, flags, name, target)
  | _ => none

/-- The binding that a call is about to edit, and the member it brings. -/
def Call.edit (s : Tables) (caller : ℕ) (call : Call) : Option (Binding × Member) :=
  (call.binds caller).bind fun (badge, flags, name, target) =>
    (s.memberFor badge flags name target).bind fun member =>
      (s.bindingOf badge name).map (·, member)

/-- The members are volumes that the badge of the binding may resolve. -/
def Binding.Allowed (b : Binding) : Prop :=
  b.badge ≠ kAliasEveryone → ∀ m ∈ b.members, mayResolve b.badge m.volume = true

namespace Tables

def SameHandles (s s' : Tables) : Prop := s'.handles = s.handles ∧ s'.handleNext = s.handleNext

/-- What becomes of the bindings and of the next id in a call; the handles stay. -/
inductive Changed (s : Tables) (caller : ℕ) (call : Call) (s' : Tables) : Prop where
  | kept (hb : s'.bindings.Sublist s.bindings) (hu : s'.unionNext = s.unionNext) (hh : SameHandles s s')
  | made (b : Binding) (hz : b.unionId = 0) (ha : b.Allowed) (hb : s'.bindings = b :: s.bindings)
      (hu : s'.unionNext = s.unionNext) (hh : SameHandles s s')
  | edited (i : ℕ) (b : Binding) (m : Member) (hi : s.bindings[i]? = some b)
      (he : call.edit s caller = some (b, m))
      (hm : b.badge ≠ kAliasEveryone → mayResolve b.badge m.volume = true)
      (hb : s'.bindings = s.bindings.set i (grown s.unionNext b m))
      (hu : s'.unionNext = if numbered b m then (s.unionNext + 1) % 2 ^ 32 else s.unionNext)
      (hh : SameHandles s s')

section
variable {s s' : Tables} {caller badge : ℕ} {name : List UInt8}

theorem Paid.sameHandles (h : Paid s s') : SameHandles s s' := ⟨h.handles, h.handleNext⟩

theorem Paid.changed {call : Call} (h : Paid s s') : Changed s caller call s' :=
  .kept (by rw [h.bindings]) h.unionNext h.sameHandles

theorem resolvePath_may {path rest : List UInt8} {volume : Volume}
    (h : s.resolvePath badge path = .volume volume rest) : mayResolve badge volume = true := by
  unfold resolvePath at h
  dsimp only at h
  split at h
  · cases h
  split at h
  · split at h
    · rename_i hm
      split at h
      · cases h
        exact hm
      · cases h
    · cases h
  · split at h
    · cases h
    · split at h
      · split at h <;> cases h
      · split at h
        · cases h
        · split at h
          · rename_i hm
            split at h
            · cases h
              exact hm
            · cases h
          · cases h

theorem memberFor_may {flags : ℕ} {target : List UInt8} {member : Member}
    (h : s.memberFor badge flags name target = some member) :
    mayResolve badge member.volume = true := by
  unfold memberFor at h
  split_ifs at h
  split at h
  · rename_i hr
    cases h
    exact resolvePath_may hr
  · cases h
  · cases h

theorem bindingOf_badge {b : Binding} (h : s.bindingOf badge name = some b) :
    b.badge = badge ∨ b.badge = kAliasEveryone := by
  rw [bindingOf_eq] at h
  rcases hf : s.bindings.find? (fun b => sameVolume b.name name && decide (b.badge = badge)) with _ | b'
  · rw [hf, Option.none_or] at h
    have hm := List.mem_of_getLast? h
    simp only [List.mem_filter, Bool.and_eq_true, decide_eq_true_eq] at hm
    exact Or.inr hm.2.2
  · rw [hf, Option.some_or] at h
    cases h
    have hp := List.find?_some hf
    simp only [Bool.and_eq_true, decide_eq_true_eq] at hp
    exact Or.inl hp.2

theorem answerBind_changed {call : Call} {flags : ℕ} {target : List UInt8}
    (hc : call.binds caller = some (badge, flags, name, target)) :
    Changed s caller call (s.answerBind badge flags name target).2 := by
  unfold answerBind
  rcases hm : s.memberFor badge flags name target with _ | member
  · exact (Paid.refl s).changed
  rcases ht : s.memberTake with _ | s₁
  · exact (Paid.refl s).changed
  have hp := memberTake_paid ht
  have hmay := memberFor_may hm
  dsimp only
  rcases hr : s₁.bindingRow badge name with _ | ⟨i, b⟩
  · unfold freshBinding
    rcases hf : s₁.bindingTake with _ | s₂
    · exact .kept (by rw [hp.bindings]) hp.unionNext hp.sameHandles
    · have hp₂ := hp.trans (bindingTake_paid hf)
      refine .made ⟨badge, member.flags, 0, name, [member]⟩ rfl ?_
        (congrArg (List.cons _) hp₂.bindings) hp₂.unionNext
        hp₂.sameHandles
      intro _ m hmem
      rw [List.mem_singleton.1 hmem]
      exact hmay
  · obtain ⟨hi, hof⟩ := bindingRow_some hr
    rw [bindingOf_congr (s := s) (by rw [hp.bindings])] at hof
    rw [hp.bindings] at hi
    refine .edited i b member hi ?_ ?_ ?_ ?_ hp.sameHandles
    · simp only [Call.edit, hc, Option.bind_some, hm, hof, Option.map_some]
    · intro hne
      rcases bindingOf_badge hof with hb | hb
      · rw [hb]; exact hmay
      · exact absurd hb hne
    · simp only [growBinding, hp.bindings, hp.unionNext]
    · simp only [growBinding, hp.unionNext]

theorem bootAlias_changed {call : Call} (volume : Volume) :
    Changed s caller call (s.bootAlias volume) := by
  unfold bootAlias
  rcases ht : s.arenaTake bindingBytes with _ | s₁
  · exact (Paid.refl s).changed
  have hp := arenaTake_paid ht
  dsimp only
  split_ifs
  · exact hp.changed
  rcases hm : s₁.memberTake with _ | s₂
  · exact hp.changed
  · have hp₂ := hp.trans (memberTake_paid hm)
    exact .made ⟨kAliasEveryone, 0, 0, kSys, [⟨volume, [], 0⟩]⟩ rfl (fun h => absurd rfl h)
      (congrArg (List.cons _) hp₂.bindings) hp₂.unionNext hp₂.sameHandles

theorem Changed.of_paid {s₁ : Tables} {call : Call} (h : Changed s₁ caller call s')
    (hb : s₁.bindings = s.bindings)
    (hu : s₁.unionNext = s.unionNext) (hh : SameHandles s s₁)
    (hc : ∀ b m, call.edit s₁ caller ≠ some (b, m)) : Changed s caller call s' := by
  cases h with
  | kept hb' hu' hh' => exact .kept (hb ▸ hb') (hu'.trans hu) ⟨hh'.1.trans hh.1, hh'.2.trans hh.2⟩
  | made b hz ha hb' hu' hh' =>
    exact .made b hz ha (by rw [hb', hb]) (hu'.trans hu) ⟨hh'.1.trans hh.1, hh'.2.trans hh.2⟩
  | edited i b m _ he => exact absurd he (hc b m)

theorem answerRegister_changed (flags : ℕ) (arrived moved : Bool) (row : Vector UInt8 kNameMax) :
    Changed s caller (.register name flags arrived moved row)
      (s.answerRegister name flags arrived moved row).2 := by
  unfold answerRegister
  split
  · exact (Paid.refl s).changed
  rcases ht : s.arenaTake volumeBytes with _ | s₁
  · exact (Paid.refl s).changed
  have hp := arenaTake_paid ht
  dsimp only
  split
  · exact hp.changed
  rcases hn : s₁.assignName row name with _ | given
  · exact hp.changed
  dsimp only
  split
  · refine (bootAlias_changed _).of_paid hp.bindings hp.unionNext hp.sameHandles fun b m => ?_
    simp [Call.edit, Call.binds]
  · exact .kept (by rw [hp.bindings]) hp.unionNext hp.sameHandles

theorem answerMount_changed {call : Call} (source view : List UInt8) (owner flags : ℕ)
    (row : Vector UInt8 kNameMax) :
    Changed s caller call (s.answerMount caller source view owner flags row).2 := by
  have hself : Changed s caller call s := (Paid.refl s).changed
  unfold answerMount
  split_ifs
  · exact hself
  split
  · exact hself
  · exact hself
  · rename_i src base _
    split
    · exact hself
    · split
      · exact hself
      · rename_i s₁ hs₁
        have hp : Paid s s₁ := by
          split_ifs at hs₁
          · cases hs₁
            exact .refl s
          · exact arenaTake_paid hs₁
        split
        · exact hp.changed
        · rename_i s₂ hs₂
          have hp₂ := hp.trans (arenaTake_paid hs₂)
          split
          · exact hp₂.changed
          · exact .kept (by rw [hp₂.bindings]) hp₂.unionNext hp₂.sameHandles

theorem answerResolve_tables (path : List UInt8) (minted : Bool) :
    (s.answerResolve caller path minted).2 = s := by
  unfold answerResolve
  split_ifs
  · rfl
  · split <;> rfl
  · split <;> rfl

theorem serve_changed (s : Tables) (caller : ℕ) (call : Call) :
    Changed s caller call (s.serve caller call).2 := by
  cases call with
  | register name flags arrived moved row => exact answerRegister_changed flags arrived moved row
  | resolve path minted =>
    simp only [serve, answerResolve_tables]
    exact (Paid.refl s).changed
  | mount source view owner flags row => exact answerMount_changed source view owner flags row
  | bind badge flags name target => exact answerBind_changed rfl
  | bindSelf flags name target => exact answerBind_changed rfl
  | unbind badge =>
    refine .kept ?_ rfl ⟨rfl, rfl⟩
    simp only [serve, answerUnbind, List.partition_eq_filter_filter, dropBindings]
    exact List.filter_sublist
  | unbindName name =>
    simp only [serve, answerUnbindName]
    split_ifs
    · exact (Paid.refl s).changed
    split
    · exact (Paid.refl s).changed
    · exact .kept List.eraseP_sublist rfl ⟨rfl, rfl⟩
  | look => exact (Paid.refl s).changed

/-! ## Ids -/

def Counted (s : Tables) : Prop := s.unionNext < 2 ^ kUnionIdBits

/-- The unions have ids of their own, all given out before. -/
structure Numbered (s : Tables) : Prop where
  next : 0 < s.unionNext
  given : ∀ b ∈ s.bindings, b.unionId < s.unionNext
  apart : s.bindings.Pairwise fun b b' => b.unionId ≠ 0 → b.unionId ≠ b'.unionId

theorem pairwise_set {α : Type} {R : α → α → Prop} {l : List α} {i : ℕ} {old new : α}
    (h : l.Pairwise R) (hi : l[i]? = some old) (hl : ∀ x ∈ l, R old x → R new x)
    (hr : ∀ x ∈ l, R x old → R x new) : (l.set i new).Pairwise R := by
  induction l generalizing i with
  | nil => exact List.Pairwise.nil
  | cons a l ih =>
    obtain ⟨ha, hrest⟩ := List.pairwise_cons.1 h
    cases i with
    | zero =>
      obtain rfl : a = old := by simpa using hi
      rw [List.set_cons_zero]
      exact List.pairwise_cons.2 ⟨fun x hx => hl x (List.mem_cons_of_mem _ hx) (ha x hx), hrest⟩
    | succ i =>
      have hi' : l[i]? = some old := by simpa using hi
      rw [List.set_cons_succ]
      refine List.pairwise_cons.2 ⟨fun x hx => ?_, ih hrest hi' (fun x hx => hl x (List.mem_cons_of_mem _ hx))
        fun x hx => hr x (List.mem_cons_of_mem _ hx)⟩
      rcases List.mem_or_eq_of_mem_set hx with hx | rfl
      · exact ha x hx
      · exact hr a List.mem_cons_self (ha old (List.mem_of_getElem? hi'))

theorem grown_unionId (id : ℕ) (b : Binding) (m : Member) : (grown id b m).unionId = b.unionId ∧
    numbered b m = false ∨ (grown id b m).unionId = id ∧ b.unionId = 0 ∧ numbered b m = true := by
  unfold grown
  by_cases h : numbered b m = true
  · rw [if_pos h]
    exact Or.inr ⟨rfl, (of_decide_eq_true h).2, h⟩
  · rw [if_neg h]
    exact Or.inl ⟨rfl, by simpa using h⟩

theorem Changed.unionNext_le {call : Call} (h : Changed s caller call s') (hc : Counted s) :
    s.unionNext ≤ s'.unionNext := by
  cases h with
  | kept _ hu => exact hu.ge
  | made _ _ _ _ hu => exact hu.ge
  | edited i b m _ _ _ _ hu =>
    rw [hu]
    unfold Counted kUnionIdBits at hc
    split <;> omega

theorem Numbered.changed {call : Call} (h : Numbered s) (hc : Counted s)
    (hs : Changed s caller call s') : Numbered s' := by
  have hle := hs.unionNext_le hc
  have hnext := h.next
  refine ⟨by omega, ?_, ?_⟩
  · intro b hb
    cases hs with
    | kept hsub => exact (h.given b (hsub.subset hb)).trans_le hle
    | made b' hz _ hb' =>
      rw [hb'] at hb
      rcases List.mem_cons.1 hb with rfl | hb
      · omega
      · exact (h.given b hb).trans_le hle
    | edited i b' m hi _ _ hb' hu =>
      rw [hb'] at hb
      rcases List.mem_or_eq_of_mem_set hb with hb | rfl
      · exact (h.given b hb).trans_le hle
      · rcases grown_unionId s.unionNext b' m with ⟨hid, -⟩ | ⟨hid, -, hn⟩
        · rw [hid]
          exact (h.given b' (List.mem_of_getElem? hi)).trans_le hle
        · rw [hid, hu, if_pos hn]
          unfold Counted kUnionIdBits at hc
          omega
  · cases hs with
    | kept hsub => exact h.apart.sublist hsub
    | made b hz _ hb' =>
      rw [hb']
      exact List.pairwise_cons.2 ⟨fun _ _ hne => absurd hz hne, h.apart⟩
    | edited i b m hi _ _ hb' _ =>
      rw [hb']
      rcases grown_unionId s.unionNext b m with ⟨hid, -⟩ | ⟨hid, -, -⟩
      · exact pairwise_set h.apart hi (fun x _ => by rw [hid]; exact id) fun x _ => by rw [hid]; exact id
      · refine pairwise_set h.apart hi (fun x hx _ _ => ?_) fun x hx _ _ => ?_
        · have := h.given x hx
          rw [hid]
          omega
        · have := h.given x hx
          rw [hid]
          omega

end

end Tables

end Aegir.Vfs
