/-
  Whose bindings a caller sees, and whose it changes (`main.cc`, `find_binding`,
  `answer_bind`, `answer_unbind_name`).
-/
import Aegir.Vfs.Namespace

namespace Aegir.Vfs

/-- The calls that a caller binds and unbinds its own names with. -/
def Call.Self : Call → Prop
  | .bindSelf _ _ _ | .unbindName _ => True
  | _ => False

namespace Tables

def visible (badge : ℕ) (bindings : List Binding) : List Binding :=
  bindings.filter fun b => b.badge = badge ∨ b.badge = kAliasEveryone

def bindingOf (s : Tables) (badge : ℕ) (name : List UInt8) : Option Binding :=
  (s.findBinding badge name).bind (s.bindings[·]?)

section
variable {s s' : Tables} {u v badge : ℕ} {name : List UInt8}

theorem findFrom_getElem? (badge : ℕ) (name : List UInt8) : ∀ (bs before : List Binding) (e : Option ℕ),
    (findFrom badge name bs before.length e).bind ((before ++ bs)[·]?) =
      (bs.find? fun b => sameVolume b.name name && decide (b.badge = badge)).or
        (((bs.filter fun b => sameVolume b.name name && decide (b.badge = kAliasEveryone)).getLast?).or
          (e.bind ((before ++ bs)[·]?))) := by
  intro bs
  induction bs with
  | nil => intro before e; simp [findFrom]
  | cons b bs ih =>
    intro before e
    have hnext := ih (before ++ [b])
    simp only [List.length_append, List.length_singleton, List.append_assoc, List.singleton_append] at hnext
    have hhere : (before ++ b :: bs)[before.length]? = some b := by simp
    rw [findFrom]
    by_cases hn : sameVolume b.name name = true
    · rw [if_pos hn]
      by_cases hb : b.badge = badge
      · rw [if_pos hb, Option.bind_some, hhere, List.find?_cons_of_pos (by simp [hn, hb]), Option.some_or]
      · rw [if_neg hb, hnext, List.find?_cons_of_neg (by simp [hb])]
        by_cases he : b.badge = kAliasEveryone
        · rw [if_pos he, List.filter_cons_of_pos (by simp [hn, he]), Option.bind_some, hhere,
            List.getLast?_cons]
          cases List.getLast? _ <;> rfl
        · rw [if_neg he, List.filter_cons_of_neg (by simp [he])]
    · rw [if_neg hn, hnext, List.find?_cons_of_neg (by simp [hn]), List.filter_cons_of_neg (by simp [hn])]

theorem bindingOf_eq (s : Tables) (badge : ℕ) (name : List UInt8) : s.bindingOf badge name =
    (s.bindings.find? fun b => sameVolume b.name name && decide (b.badge = badge)).or
      ((s.bindings.filter fun b => sameVolume b.name name && decide (b.badge = kAliasEveryone)).getLast?) := by
  have h := findFrom_getElem? badge name s.bindings [] none
  simp only [List.length_nil, List.nil_append, Option.bind_none, Option.or_none] at h
  exact h

theorem bindingOf_congr (h : visible badge s'.bindings = visible badge s.bindings) (name : List UInt8) :
    s'.bindingOf badge name = s.bindingOf badge name := by
  have hown : ∀ bs : List Binding,
      bs.find? (fun b => sameVolume b.name name && decide (b.badge = badge)) =
        (visible badge bs).find? fun b => sameVolume b.name name && decide (b.badge = badge) := by
    intro bs
    rw [visible, List.find?_filter]
    congr 1
    funext b
    by_cases hb : b.badge = badge <;> simp [hb]
  have hevery : ∀ bs : List Binding,
      bs.filter (fun b => sameVolume b.name name && decide (b.badge = kAliasEveryone)) =
        (visible badge bs).filter fun b => sameVolume b.name name && decide (b.badge = kAliasEveryone) := by
    intro bs
    rw [visible, List.filter_filter]
    congr 1
    funext b
    by_cases hb : b.badge = kAliasEveryone <;> simp [hb]
  rw [bindingOf_eq, bindingOf_eq, hown, hevery, h, ← hown, ← hevery]

theorem findVolume_congr (h : s'.volumes = s.volumes) (name : List UInt8) :
    s'.findVolume name = s.findVolume name := by
  rw [findVolume, findVolume, h]

theorem resolvePath_congr (hv : s'.volumes = s.volumes)
    (hb : visible badge s'.bindings = visible badge s.bindings) (path : List UInt8) :
    s'.resolvePath badge path = s.resolvePath badge path := by
  have hof := bindingOf_congr hb (path.takeWhile (· ≠ kColon))
  simp only [bindingOf] at hof
  simp only [resolvePath, findVolume_congr hv, hof]

/-! ## What a bind changes -/

/-- The volumes are as before, and so is what a badge sees. -/
structure Same (badge : ℕ) (s s' : Tables) : Prop where
  volumes : s'.volumes = s.volumes
  visible : visible badge s'.bindings = visible badge s.bindings

theorem Same.refl (badge : ℕ) (s : Tables) : Same badge s s := ⟨rfl, rfl⟩

theorem Same.trans {s'' : Tables} (h : Same badge s s') (h' : Same badge s' s'') : Same badge s s'' :=
  ⟨h'.volumes.trans h.volumes, h'.visible.trans h.visible⟩

/-- Only the memory that is left differs. -/
structure Paid (s s' : Tables) : Prop where
  volumes : s'.volumes = s.volumes
  bindings : s'.bindings = s.bindings
  unionNext : s'.unionNext = s.unionNext
  handles : s'.handles = s.handles
  handleNext : s'.handleNext = s.handleNext

theorem Paid.refl (s : Tables) : Paid s s := ⟨rfl, rfl, rfl, rfl, rfl⟩

theorem Paid.trans {s'' : Tables} (h : Paid s s') (h' : Paid s' s'') : Paid s s'' :=
  ⟨h'.volumes.trans h.volumes, h'.bindings.trans h.bindings, h'.unionNext.trans h.unionNext,
    h'.handles.trans h.handles, h'.handleNext.trans h.handleNext⟩

theorem Paid.same (h : Paid s s') : Same badge s s' := ⟨h.volumes, by rw [h.bindings]⟩

theorem arenaTake_paid {bytes : ℕ} (h : s.arenaTake bytes = some s') : Paid s s' := by
  unfold arenaTake at h
  dsimp only at h
  split_ifs at h
  cases h
  exact ⟨rfl, rfl, rfl, rfl, rfl⟩

theorem memberTake_paid (h : s.memberTake = some s') : Paid s s' := by
  unfold memberTake at h
  split_ifs at h
  · cases h
    exact ⟨rfl, rfl, rfl, rfl, rfl⟩
  · exact arenaTake_paid h

theorem bindingTake_paid (h : s.bindingTake = some s') : Paid s s' := by
  unfold bindingTake at h
  split_ifs at h
  · cases h
    exact ⟨rfl, rfl, rfl, rfl, rfl⟩
  · exact arenaTake_paid h

theorem visible_set {bs : List Binding} {i : ℕ} {old new : Binding} (h : bs[i]? = some old)
    (hold : ¬ (old.badge = badge ∨ old.badge = kAliasEveryone)) (hnew : new.badge = old.badge) :
    visible badge (bs.set i new) = visible badge bs := by
  induction bs generalizing i with
  | nil => rfl
  | cons b bs ih =>
    simp only [visible] at ih ⊢
    cases i with
    | zero =>
      obtain rfl : b = old := by simpa using h
      rw [List.set_cons_zero, List.filter_cons_of_neg (by simpa [hnew] using hold),
        List.filter_cons_of_neg (by simpa using hold)]
    | succ i =>
      rw [List.set_cons_succ, List.filter_cons, List.filter_cons, ih (by simpa using h)]

theorem growBinding_same {i : ℕ} {binding : Binding} (member : Member) (h : s.bindings[i]? = some binding)
    (hu : ¬ (binding.badge = badge ∨ binding.badge = kAliasEveryone)) :
    Same badge s (s.growBinding i binding member) := ⟨rfl, visible_set h hu rfl⟩

theorem visible_eraseP {bs : List Binding} {p : Binding → Bool}
    (hp : ∀ b, p b = true → ¬ (b.badge = badge ∨ b.badge = kAliasEveryone)) :
    visible badge (bs.eraseP p) = visible badge bs := by
  induction bs with
  | nil => rfl
  | cons b bs ih =>
    simp only [visible] at ih ⊢
    by_cases hb : p b = true
    · rw [List.eraseP_cons_of_pos hb, List.filter_cons_of_neg (by simpa using hp b hb)]
    · rw [List.eraseP_cons_of_neg hb, List.filter_cons, List.filter_cons, ih]

end

/-! ## Binds of one's own -/

/-- A bind that goes through reaches no binding of the name but the caller's own, or
    makes the first. -/
def Own (s : Tables) (badge : ℕ) : Call → Prop
  | .bindSelf flags name target => (s.memberFor badge flags name target).isSome →
      ∀ b, s.bindingOf badge name = some b → b.badge = badge
  | _ => True

/-- `s'` is reached from `s` by binds and unbinds of one caller, the binds all its own. -/
inductive SelfRun (badge : ℕ) : Tables → Tables → Prop where
  | nil (s : Tables) : SelfRun badge s s
  | cons {s s' : Tables} (call : Call) (hc : call.Self) (ho : s.Own badge call)
      (h : SelfRun badge (s.serve badge call).2 s') : SelfRun badge s s'

section
variable {s s' : Tables} {u v : ℕ}

theorem freshBinding_same (s : Tables) (name : List UInt8) (member : Member)
    (hu : ¬ (u = v ∨ u = kAliasEveryone)) : Same v s (s.freshBinding u name member).2 := by
  unfold freshBinding
  rcases hf : s.bindingTake with _ | s'
  · exact ⟨rfl, rfl⟩
  · have hp := bindingTake_paid hf
    refine ⟨hp.volumes, ?_⟩
    simp only [visible, hp.bindings]
    rw [List.filter_cons_of_neg (by simpa using hu)]

theorem bindingRow_some {i : ℕ} {name : List UInt8} {binding : Binding}
    (h : s.bindingRow u name = some (i, binding)) :
    s.bindings[i]? = some binding ∧ s.bindingOf u name = some binding := by
  simp only [bindingRow, Option.bind_eq_some_iff, Option.map_eq_some_iff, Prod.mk.injEq] at h
  obtain ⟨j, hj, b, hb, rfl, rfl⟩ := h
  exact ⟨hb, by rw [bindingOf, hj, Option.bind_some, hb]⟩

theorem answerBind_same {flags : ℕ} {name target : List UInt8}
    (hu : ¬ (u = v ∨ u = kAliasEveryone)) (ho : s.Own u (.bindSelf flags name target)) :
    Same v s (s.answerBind u flags name target).2 := by
  unfold answerBind
  rcases hm : s.memberFor u flags name target with _ | member
  · exact .refl v s
  rcases ht : s.memberTake with _ | s₁
  · exact .refl v s
  have hp := memberTake_paid ht
  have h₁ : Same v s s₁ := hp.same
  dsimp only
  rcases hr : s₁.bindingRow u name with _ | ⟨i, binding⟩
  · exact h₁.trans (freshBinding_same s₁ name member hu)
  · obtain ⟨hi, hof⟩ := bindingRow_some hr
    have h₁' : Same u s s₁ := hp.same
    rw [bindingOf_congr h₁'.visible] at hof
    -- the binding that grows is the caller's own
    have hown : binding.badge = u := ho (by rw [hm]; rfl) binding hof
    exact h₁.trans (growBinding_same member hi (by rwa [hown]))

theorem answerUnbindName_same (s : Tables) (name : List UInt8)
    (hu : ¬ (u = v ∨ u = kAliasEveryone)) : Same v s (s.answerUnbindName u name).2 := by
  unfold answerUnbindName
  dsimp only
  split_ifs
  · exact .refl v s
  split
  · exact .refl v s
  · refine ⟨rfl, visible_eraseP fun b hb => ?_⟩
    simp only [Bool.and_eq_true, beq_iff_eq] at hb
    rwa [hb.1]

theorem serve_same {call : Call} (hc : call.Self) (ho : s.Own u call)
    (hu : ¬ (u = v ∨ u = kAliasEveryone)) : Same v s (s.serve u call).2 := by
  cases call with
  | bindSelf flags name target => exact answerBind_same hu ho
  | unbindName name => exact answerUnbindName_same s name hu
  | _ => exact hc.elim

theorem SelfRun.same (h : SelfRun u s s') (hu : ¬ (u = v ∨ u = kAliasEveryone)) : Same v s s' := by
  induction h with
  | nil s => exact .refl v s
  | cons call hc ho _ ih => exact (serve_same hc ho hu).trans ih

/-- A caller whose binds are all its own changes for no other badge what a path resolves to.
    (The everyone-badge has the mark of a union, and calls no method of the namespace.) -/
theorem bindings_per_badge (hu : isUnion u = false) (hv : v ≠ u) (h : SelfRun u s s')
    (path : List UInt8) : s'.resolvePath v path = s.resolvePath v path := by
  have hne : ¬ (u = v ∨ u = kAliasEveryone) := by
    rintro (rfl | rfl)
    · exact hv rfl
    · exact absurd hu (by decide)
  obtain ⟨hvolumes, hvisible⟩ := h.same hne
  exact resolvePath_congr hvolumes hvisible path

end

/-! ## `Sys:`, taken by a session -/

def aegir : List UInt8 := [65, 69, 71, 73, 82]

/-- A row of memory that was never written. -/
def blank : Vector UInt8 kNameMax := .replicate kNameMax 0

/-- The namespace once the system volume has registered with the boot flag. -/
def booted : Tables :=
  ((⟨[], [], 1, [], 1, 8192, 0, 0, 0, 16⟩ : Tables).serve 0 (.register aegir kFlagBoot true true blank)).2

/-- A session's badge: the user's index, and the serial. -/
def session (user serial : ℕ) : ℕ := 2 ^ 62 + user * 2 ^ 24 + serial

/-- A session binds `Sys` to `AEGIR:x`, and `Sys:` is `AEGIR:x` for another user. -/
theorem bindSelf_takes_sys :
    booted.resolvePath (session 2 1) (kSys ++ [kColon]) = .volume ⟨aegir, kFlagBoot, 16, 0, []⟩ [] ∧
    (booted.serve (session 1 1) (.bindSelf 0 kSys (aegir ++ [kColon, 120]))).2.resolvePath
      (session 2 1) (kSys ++ [kColon]) = .volume ⟨aegir, kFlagBoot, 16, 0, []⟩ [120] := by
  decide

/-- A session binds `H` to `AEGIR:x`, and a path of another user resolves as before. -/
theorem bindings_per_badge_home :
    (booted.serve (session 1 1) (.bindSelf 0 [72] (aegir ++ [kColon, 120]))).2.resolvePath
      (session 2 1) (kSys ++ [kColon]) = booted.resolvePath (session 2 1) (kSys ++ [kColon]) :=
  bindings_per_badge (u := session 1 1) (by decide) (by decide)
    (.cons (.bindSelf 0 [72] (aegir ++ [kColon, 120])) trivial
      (fun _ b hb => by
        rw [show booted.bindingOf (session 1 1) [72] = none by decide] at hb
        cases hb)
      (.nil _)) _

end Tables

end Aegir.Vfs
