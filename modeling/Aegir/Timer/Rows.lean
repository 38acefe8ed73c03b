/-
  The service's rows and slots.
-/
import Aegir.Timer.Service
import Aegir.Lib.Chain
import Aegir.Lib.Extent
import Aegir.Lib.Pool

namespace Aegir.Timer

open Aegir.Lib

namespace Service

def link (s : Service) (row : ℕ) : ℕ := (s.rows row).link
def subLink (s : Service) (row : ℕ) : ℕ := (s.nodes row).link

variable {s s' : Service} {row place slot target bytes a : ℕ}

@[simp] theorem hold_slot (ha : a ≠ row) : ((s.hold row slot target).rows a).slot = (s.rows a).slot := by
  simp [hold, ha]

@[simp] theorem hold_target (ha : a ≠ row) : ((s.hold row slot target).rows a).target = (s.rows a).target := by
  simp [hold, ha]

theorem hold_self : (s.hold row slot target).rows row = ⟨slot, target, s.sleeps⟩ := by simp [hold]

@[simp] theorem setAfter_slot : ((s.setAfter place row).rows a).slot = (s.rows a).slot := by
  unfold setAfter
  split
  · rfl
  · by_cases ha : a = place <;> simp [ha]

@[simp] theorem setAfter_target : ((s.setAfter place row).rows a).target = (s.rows a).target := by
  unfold setAfter
  split
  · rfl
  · by_cases ha : a = place <;> simp [ha]

@[simp] theorem pushFree_slot : ((s.pushFree row).rows a).slot = (s.rows a).slot := by
  by_cases ha : a = row <;> simp [pushFree, ha]

@[simp] theorem pushFree_target : ((s.pushFree row).rows a).target = (s.rows a).target := by
  by_cases ha : a = row <;> simp [pushFree, ha]

@[simp] theorem unlink_slot : ((s.unlink place row).rows a).slot = (s.rows a).slot := by simp [unlink]

@[simp] theorem unlink_target : ((s.unlink place row).rows a).target = (s.rows a).target := by simp [unlink]

theorem unlink_eq (s : Service) (place row : ℕ) : s.unlink place row =
    { s with rows := (s.unlink place row).rows, sleepFree := row, sleeps := (s.unlink place row).sleeps } := by
  unfold unlink pushFree setAfter
  split <;> rfl

theorem regionAlloc_cases (s : Service) (bytes : ℕ) :
    s.regionAlloc bytes = (0, s) ∨
      s.bump ≠ 0 ∧ s.regionAlloc bytes = (s.bump, { s with bump := s.bump + (bytes + 7) / 8 * 8 }) := by
  unfold regionAlloc
  dsimp only
  split
  · exact Or.inl rfl
  · rename_i h
    exact Or.inr ⟨fun h₀ => h (Or.inl h₀), rfl⟩

theorem slotAlloc_cases (s : Service) :
    false ∉ s.bits ∧ s.slotAlloc = none ∨ ∃ i, s.bits[i]? = some false ∧
      s.slotAlloc = some (s.slotBase + i, { s with bits := s.bits.set i true }) := by
  unfold slotAlloc
  dsimp only
  split
  · rename_i h
    exact Or.inr ⟨_, Pool.first_clear h, rfl⟩
  · rename_i h
    exact Or.inl ⟨fun hmem => h (List.idxOf_lt_length_iff.2 hmem), rfl⟩

end Service

/-! ## Rows -/

/-- The rows' places in the region: apart from one another, and carved already. -/
structure Placed (bump : ℕ) (rows subs : List ℕ) : Prop where
  apart : (rows.map (Extent.mk · kSleepBytes) ++ subs.map (Extent.mk · kSubscriberBytes)).Pairwise Extent.Apart
  carved : ∀ e ∈ rows.map (Extent.mk · kSleepBytes) ++ subs.map (Extent.mk · kSubscriberBytes), e.stop ≤ bump

section
variable {bump row : ℕ} {rows rows' subs : List ℕ}

theorem Placed.perm (h : Placed bump rows subs) (hp : rows.Perm rows') : Placed bump rows' subs := by
  have hmap := (hp.map (Extent.mk · kSleepBytes)).append_right (subs.map (Extent.mk · kSubscriberBytes))
  refine ⟨hmap.pairwise h.apart fun hab => Extent.Apart.symm hab, fun e he => h.carved e (hmap.mem_iff.2 he)⟩

theorem Placed.mono {bump' : ℕ} (h : Placed bump rows subs) (hb : bump ≤ bump') : Placed bump' rows subs :=
  ⟨h.apart, fun e he => Nat.le_trans (h.carved e he) hb⟩

theorem Placed.addRow (h : Placed bump rows subs) : Placed (bump + kSleepBytes) (bump :: rows) subs := by
  refine ⟨List.pairwise_cons.2 ⟨fun e he => (Extent.apart_of_le (h.carved e he)).symm, h.apart⟩, fun e he => ?_⟩
  rcases List.mem_cons.1 he with rfl | he
  · exact Nat.le_refl _
  · exact Nat.le_trans (h.carved e he) (Nat.le_add_right _ _)

theorem Placed.addSub (h : Placed bump rows subs) : Placed (bump + kSubscriberBytes) rows (bump :: subs) := by
  have hperm : ((bump :: subs).map (Extent.mk · kSubscriberBytes) ++ rows.map (Extent.mk · kSleepBytes)).Perm
      (rows.map (Extent.mk · kSleepBytes) ++ (bump :: subs).map (Extent.mk · kSubscriberBytes)) :=
    List.perm_append_comm
  have hmem : ∀ e ∈ subs.map (Extent.mk · kSubscriberBytes) ++ rows.map (Extent.mk · kSleepBytes), e.stop ≤ bump :=
    fun e he => h.carved e (List.perm_append_comm.mem_iff.2 he)
  refine ⟨hperm.pairwise ?_ fun hab => Extent.Apart.symm hab, fun e he => ?_⟩
  · refine List.pairwise_cons.2 ⟨fun e he => (Extent.apart_of_le (hmem e he)).symm, ?_⟩
    exact List.perm_append_comm.pairwise h.apart fun hab => Extent.Apart.symm hab
  · rcases List.mem_cons.1 (hperm.mem_iff.2 he) with rfl | he
    · exact Nat.le_refl _
    · exact Nat.le_trans (hmem e he) (Nat.le_add_right _ _)

theorem mem_row (a : ℕ) : a ∈ Extent.mk a kSleepBytes := ⟨Nat.le_refl a, Nat.lt_add_of_pos_right (by decide : 0 < kSleepBytes)⟩

theorem Placed.nodup (h : Placed bump rows subs) : rows.Nodup := by
  have hrows := (List.pairwise_append.1 h.apart).1
  rw [List.pairwise_map] at hrows
  refine hrows.imp fun {a b} hab heq => ?_
  subst heq
  exact hab a (mem_row a) (mem_row a)

theorem Placed.lt (h : Placed bump rows subs) (hr : row ∈ rows) : row < bump := by
  have hc := h.carved ⟨row, kSleepBytes⟩ (List.mem_append_left _ (List.mem_map_of_mem hr))
  exact Nat.lt_of_lt_of_le (Nat.lt_add_of_pos_right (by decide : 0 < kSleepBytes)) hc

theorem Placed.sub_lt (h : Placed bump rows subs) (hr : row ∈ subs) : row < bump := by
  have hc := h.carved ⟨row, kSubscriberBytes⟩ (List.mem_append_right _ (List.mem_map_of_mem hr))
  exact Nat.lt_of_lt_of_le (Nat.lt_add_of_pos_right (by decide : 0 < kSubscriberBytes)) hc

end

/-- The sleeps, the free rows and the subscribers, in the order of their lists. -/
structure Rows (s : Service) (waiting free subs : List ℕ) : Prop where
  waits : Chain s.link s.sleeps waiting
  frees : Chain s.link s.sleepFree free
  listed : Chain s.subLink s.subs subs
  placed : Placed s.bump (waiting ++ free) subs

theorem length_le_of_lt {bump : ℕ} {l : List ℕ} (hn : l.Nodup) (hl : ∀ a ∈ l, a < bump) : l.length ≤ bump := by
  have hsub : l ⊆ List.range bump := fun a ha => List.mem_range.2 (hl a ha)
  simpa using (List.subperm_of_subset hn hsub).length_le

theorem nearest_le {link : ℕ → ℕ} {row bound : ℕ} {l : List ℕ} (due : ℕ → ℕ) (next : Option ℕ) (h : Chain link row l)
    (hb : l.length ≤ bound) :
    ∃ r, Service.nearest due link bound row next = some r ∧ (∀ x ∈ next, ∃ y ∈ r, y ≤ x) ∧
      ∀ a ∈ l, ∃ y ∈ r, y ≤ due a := by
  induction l generalizing row bound next with
  | nil =>
    refine ⟨next, ?_, fun x hx => ⟨x, hx, Nat.le_refl x⟩, fun a ha => absurd ha List.not_mem_nil⟩
    cases bound with
    | zero => exact if_pos h
    | succ b => exact if_pos h
  | cons a l ih =>
    obtain ⟨rfl, hrow, h⟩ := h
    cases bound with
    | zero => exact absurd hb (Nat.not_succ_le_zero _)
    | succ bound =>
      obtain ⟨next', hnext⟩ : ∃ next', next' = if next.all (due row < ·) then some (due row) else next := ⟨_, rfl⟩
      -- the one kept is no later than the row's and the one before
      have hkept : (∀ x ∈ next, ∃ y ∈ next', y ≤ x) ∧ ∃ y ∈ next', y ≤ due row := by
        cases next with
        | none => simp [hnext]
        | some x =>
          by_cases hlt : due row < x
          · simp only [hnext, Option.all_some, hlt, decide_true, if_true, Option.mem_def, Option.some.injEq]
            exact ⟨fun y hy => ⟨_, rfl, hy ▸ Nat.le_of_lt hlt⟩, _, rfl, Nat.le_refl _⟩
          · simp only [hnext, Option.all_some, hlt, decide_false, Bool.false_eq_true, if_false, Option.mem_def,
              Option.some.injEq]
            exact ⟨fun y hy => ⟨x, rfl, Nat.le_of_eq hy⟩, x, rfl, Nat.le_of_not_lt hlt⟩
      obtain ⟨r, hr, hle, hl⟩ := ih next' h (Nat.le_of_succ_le_succ hb)
      refine ⟨r, ?_, fun x hx => ?_, fun a ha => ?_⟩
      · rw [Service.nearest, if_neg hrow, ← hnext, hr]
      · obtain ⟨y, hy, hyx⟩ := hkept.1 x hx
        obtain ⟨z, hz, hzy⟩ := hle y hy
        exact ⟨z, hz, Nat.le_trans hzy hyx⟩
      · rcases List.mem_cons.1 ha with rfl | ha
        · obtain ⟨y, hy, hya⟩ := hkept.2
          obtain ⟨z, hz, hzy⟩ := hle y hy
          exact ⟨z, hz, Nat.le_trans hzy hya⟩
        · exact hl a ha

namespace Rows

variable {s : Service} {waiting free subs kept rest : List ℕ} {row place slot target cap period now : ℕ}

theorem length_waiting (h : Rows s waiting free subs) : waiting.length ≤ s.bump :=
  length_le_of_lt h.waits.nodup fun _ ha => h.placed.lt (List.mem_append_left _ ha)

theorem length_subs (h : Rows s waiting free subs) : subs.length ≤ s.bump :=
  length_le_of_lt h.listed.nodup fun _ ha => h.placed.sub_lt ha

theorem alarm (h : Rows s waiting free subs) (now : ℕ) :
    ∃ r, s.alarm now = some r ∧ (s.haveTick = true → ∀ a ∈ waiting, ∃ y ∈ r, y ≤ max now (s.rows a).target) := by
  obtain ⟨r₁, hr₁, -, hle₁⟩ := nearest_le (fun row => (s.rows row).target) none h.waits h.length_waiting
  obtain ⟨r₂, hr₂, hle₂, -⟩ := nearest_le (fun row => (s.nodes row).next) r₁ h.listed h.length_subs
  refine ⟨if s.haveTick then r₂.map fun next => if next < now then now else next else none, ?_, fun ht a ha => ?_⟩
  · have hr₁' : Service.nearest (fun row => (s.rows row).target) (fun row => (s.rows row).link) s.bump s.sleeps none =
        some r₁ := hr₁
    have hr₂' : Service.nearest (fun row => (s.nodes row).next) (fun row => (s.nodes row).link) s.bump s.subs r₁ =
        some r₂ := hr₂
    rw [Service.alarm, hr₁', Option.bind_eq_bind, Option.bind_some, hr₂']
    rfl
  · obtain ⟨x, hx, hxa⟩ := hle₁ a ha
    obtain ⟨y, hy, hyx⟩ := hle₂ x hx
    rw [if_pos ht, hy]
    refine ⟨if y < now then now else y, rfl, ?_⟩
    split
    · exact Nat.le_max_left _ _
    · exact Nat.le_trans (Nat.le_trans hyx hxa) (Nat.le_max_right _ _)

theorem after (h : Rows s (kept ++ rest) free subs) (hp : place = kept.getLast?.getD 0) :
    s.after place = rest.head?.getD 0 := by
  rcases List.eq_nil_or_concat kept with rfl | ⟨l, p, rfl⟩
  · subst hp
    exact h.waits.head_eq
  · have hlast : (l.concat p).getLast? = some p := by simp
    rw [hlast] at hp
    obtain rfl : place = p := hp
    have hsuffix : Chain s.link place (place :: rest) := by
      have hw := h.waits
      rw [List.concat_eq_append, List.append_assoc] at hw
      exact Chain.suffix hw
    unfold Service.after
    rw [if_neg hsuffix.2.1]
    exact hsuffix.2.2.head_eq

theorem holdFree (h : Rows s waiting (row :: free) subs) : Rows (s.hold row slot target) (row :: waiting) free subs := by
  obtain ⟨hhead, hrow, hfree⟩ := h.frees
  have hnodup := h.placed.nodup
  obtain ⟨-, hfnodup, hapart⟩ := List.nodup_append.1 hnodup
  have hlink : ∀ b, b ≠ row → (s.hold row slot target).link b = s.link b := fun b hb => by
    simp [Service.hold, Service.link, hb]
  refine ⟨?_, ?_, h.listed, h.placed.perm List.perm_middle⟩
  · refine h.waits.cons hrow ?_ fun b hb => hlink b (hapart b hb row List.mem_cons_self)
    simp [Service.link, Service.hold]
  · have hnext : (s.hold row slot target).sleepFree = s.link row := by
      simp only [Service.hold, Service.link]
      rw [if_pos (hhead ▸ hrow)]
    rw [hnext]
    refine hfree.congr fun b hb => hlink b fun heq => ?_
    exact (List.nodup_cons.1 hfnodup).1 (heq ▸ hb)

theorem holdNew (h : Rows s waiting [] subs) (hb : s.bump ≠ 0) :
    Rows ({ s with bump := s.bump + kSleepBytes }.hold s.bump slot target) (s.bump :: waiting) [] subs := by
  have hfree : s.sleepFree = 0 := h.frees
  refine ⟨?_, ?_, h.listed, ?_⟩
  · refine h.waits.cons hb ?_ fun b hm => ?_
    · simp [Service.link, Service.hold]
    · have hne : b ≠ s.bump := Nat.ne_of_lt (h.placed.lt (List.mem_append_left _ hm))
      simp [Service.hold, Service.link, hne]
  · simp [Service.hold, hfree]
  · have hrow := h.placed.addRow
    exact hrow

theorem unlink (h : Rows s (kept ++ row :: rest) free subs) (hp : place = kept.getLast?.getD 0) :
    Rows (s.unlink place row) (kept ++ rest) (row :: free) subs := by
  have hrow : row ≠ 0 := h.waits.ne_zero (List.mem_append_right _ List.mem_cons_self)
  have hperm : (kept ++ row :: rest ++ free).Perm (kept ++ rest ++ row :: free) := by
    rw [List.append_assoc, List.append_assoc, List.cons_append]
    refine List.Perm.append_left kept ?_
    exact List.perm_middle.symm
  have hplaced := h.placed.perm hperm
  obtain ⟨-, hfnodup, hapart⟩ := List.nodup_append.1 hplaced.nodup
  have hwait : ∀ b ∈ kept ++ rest, b ≠ row := fun b hb => hapart b hb row List.mem_cons_self
  have hfree : ∀ b ∈ free, b ≠ row := fun b hb heq => (List.nodup_cons.1 hfnodup).1 (heq ▸ hb)
  rw [Service.unlink_eq]
  rcases List.eq_nil_or_concat kept with rfl | ⟨l, p, rfl⟩
  · -- the list's head is unlinked
    subst hp
    have hlink : ∀ b, b ≠ row → (s.unlink 0 row).link b = s.link b := fun b hb => by
      simp [Service.unlink, Service.pushFree, Service.setAfter, Service.link, hb]
    refine ⟨?_, h.frees.cons hrow ?_ fun b hb => hlink b (hfree b hb), h.listed, hplaced⟩
    · exact h.waits.2.2.congr fun b hb => hlink b (hwait b hb)
    · simp [Service.unlink, Service.pushFree, Service.setAfter, Service.link]
  · -- the row before it links past it
    have hlast : (l.concat p).getLast? = some p := by simp
    rw [hlast] at hp
    obtain rfl : place = p := hp
    simp only [List.concat_eq_append] at *
    have hp : place ≠ 0 := h.waits.ne_zero (by simp)
    have hpr : place ≠ row := hwait place (by simp)
    have hlink : ∀ b, b ≠ row → b ≠ place → (s.unlink place row).link b = s.link b := fun b hb hbp => by
      simp [Service.unlink, Service.pushFree, Service.setAfter, Service.link, hb, hbp, hp]
    have hplace : (s.unlink place row).link place = s.link row := by
      simp [Service.unlink, Service.pushFree, Service.setAfter, Service.link, hpr, hp]
    have hhead : (s.unlink place row).sleeps = s.sleeps := by
      simp [Service.unlink, Service.pushFree, Service.setAfter, hp]
    have hnot : ∀ b ∈ l ++ rest, b ≠ place := fun b hb heq => by
      have hn := h.waits.nodup
      simp only [List.append_assoc, List.cons_append, List.nil_append, List.nodup_append, List.nodup_cons,
        List.mem_cons] at hn
      rcases List.mem_append.1 hb with hb | hb
      · exact hn.2.2 b hb place (Or.inl rfl) heq
      · exact hn.2.1.1 (Or.inr (heq ▸ hb))
    refine ⟨?_, h.frees.cons hrow ?_ fun b hb => ?_, h.listed, hplaced⟩
    · rw [hhead]
      refine h.waits.unlink hplace fun b hb => hlink b (hwait b ?_) (hnot b hb)
      rcases List.mem_append.1 hb with hb | hb
      · exact List.mem_append_left _ (List.mem_append_left _ hb)
      · exact List.mem_append_right _ hb
    · simp [Service.unlink, Service.pushFree, Service.setAfter, Service.link, hp]
    · refine hlink b (hfree b hb) fun heq => ?_
      exact hapart place (by simp) b (List.mem_cons_of_mem _ hb) heq.symm

theorem enlist (cap period now : ℕ) (h : Rows s waiting free subs) (hb : s.bump ≠ 0) :
    Rows ({ s with bump := s.bump + kSubscriberBytes }.enlist s.bump cap period now) waiting free (s.bump :: subs) := by
  refine ⟨h.waits, h.frees, ?_, h.placed.addSub⟩
  refine h.listed.cons hb ?_ fun b hm => ?_
  · simp [Service.enlist, Service.subLink]
  · have hne : b ≠ s.bump := Nat.ne_of_lt (h.placed.sub_lt hm)
    simp [Service.enlist, Service.subLink, hne]

end Rows

/-! ## Slots -/

/-- The pool's slots are those taken and those free. -/
structure Slots (s : Service) (taken : List ℕ) : Prop where
  split : (taken ++ Pool.clear s.slotBase s.bits).Perm (List.range' s.slotBase s.bits.length)
  base : s.bits ≠ [] → s.slotBase ≠ 0
  room : s.slotBase + s.bits.length ≤ 2 ^ 32

namespace Slots

variable {s s' : Service} {taken taken' : List ℕ} {slot i : ℕ}

theorem perm (h : Slots s taken) (hp : taken.Perm taken') : Slots s taken' :=
  ⟨(hp.symm.append_right _).trans h.split, h.base, h.room⟩

theorem nodup (h : Slots s taken) : (taken ++ Pool.clear s.slotBase s.bits).Nodup :=
  h.split.nodup_iff.2 List.nodup_range'

theorem alloc (h : Slots s taken) (hi : s.bits[i]? = some false) :
    Slots { s with bits := s.bits.set i true } ((s.slotBase + i) :: taken) ∧ s.slotBase + i ∉ taken ∧
      s.slotBase + i ≠ 0 := by
  have hne : s.bits ≠ [] := fun hnil => by simp [hnil] at hi
  have hmem : s.slotBase + i ∈ Pool.clear s.slotBase s.bits := Pool.mem_clear.2 ⟨i, rfl, hi⟩
  refine ⟨⟨?_, fun _ => h.base hne, ?_⟩, fun ht => ?_, fun h₀ => h.base hne (by omega)⟩
  · show (((s.slotBase + i) :: taken) ++ Pool.clear s.slotBase (s.bits.set i true)).Perm
      (List.range' s.slotBase (s.bits.set i true).length)
    rw [List.length_set]
    refine List.Perm.trans ?_ h.split
    refine List.perm_middle.symm.trans ?_
    exact List.Perm.append_left taken (Pool.clear_take hi).symm
  · show s.slotBase + (s.bits.set i true).length ≤ 2 ^ 32
    rw [List.length_set]
    exact h.room
  · exact (List.nodup_append.1 h.nodup).2.2 _ ht _ hmem rfl

theorem give (h : Slots s (slot :: taken)) : Slots (s.slotFree slot) taken := by
  have hmem : slot ∈ List.range' s.slotBase s.bits.length := h.split.mem_iff.1 List.mem_cons_self
  obtain ⟨i, hi, rfl⟩ := List.mem_range'.1 hmem
  simp only [Nat.one_mul] at *
  have hroom := h.room
  have hindex : (s.slotBase + i + 2 ^ 32 - s.slotBase) % 2 ^ 32 = i := by omega
  have hbit : s.bits[i]? = some true := by
    rcases hb : s.bits[i] with _ | _
    · have hclear : s.slotBase + i ∈ Pool.clear s.slotBase s.bits :=
        Pool.mem_clear.2 ⟨i, rfl, by rw [List.getElem?_eq_getElem hi, hb]⟩
      exact absurd rfl ((List.nodup_append.1 h.nodup).2.2 _ List.mem_cons_self _ hclear)
    · rw [List.getElem?_eq_getElem hi, hb]
  unfold Service.slotFree
  rw [hindex]
  refine ⟨?_, fun hne => h.base fun hnil => hne ?_, ?_⟩
  · show (taken ++ Pool.clear s.slotBase (s.bits.set i false)).Perm
      (List.range' s.slotBase (s.bits.set i false).length)
    rw [List.length_set]
    refine List.Perm.trans ?_ h.split
    refine (List.Perm.append_left taken (Pool.clear_give hbit)).trans ?_
    exact List.perm_middle
  · show s.bits.set i false = []
    rw [hnil]
    rfl
  · show s.slotBase + (s.bits.set i false).length ≤ 2 ^ 32
    rw [List.length_set]
    exact hroom

end Slots

end Aegir.Timer
