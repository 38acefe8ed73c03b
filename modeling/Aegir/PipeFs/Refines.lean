/-
  The service's tables and chunks are the pipes there are.
-/
import Aegir.PipeFs.Chunks
import Aegir.PipeFs.Store

namespace Aegir.PipeFs

open Aegir.Lib

def Handle.end_ (h : Handle) : End := ⟨h.serial, h.badge, h.kind⟩

/-- The handles open on the pipe of the row `i`. -/
def endsOn (handles : List Handle) (i : ℕ) : List End :=
  (handles.filter fun h => decide (h.serial ≠ 0 ∧ h.pipe = i + 1)).map Handle.end_

def streamOf (o : Option Held) : List UInt8 := o.elim [] Held.stream

/-- The row of a pipe says what its ends are. -/
structure Row (handles : List Handle) (i : ℕ) (p : Pipe) (x : Held) : Prop where
  fits : Service.nameFits p.name = true
  name : p.name = x.name
  ever : p.readerEver = x.hadReader
  writer : p.writerOpen = (x.hadWriter && !x.writerLeft)
  count : p.openCount = x.ends.length
  ends : x.ends.Perm (endsOn handles i)
  alive : x.dead = false
  sound : x.Sound

/-- The rows of open handles are rows of pipes there are, and no serial is in two of them. -/
structure Ended (handles : List Handle) (serial : ℕ) (w : ℕ → Option Held) : Prop where
  live : ∀ h ∈ handles, h.serial ≠ 0 → ∃ i, h.pipe = i + 1 ∧ (w i).isSome = true
  distinct : ∀ (j k : ℕ) (h h' : Handle), handles[j]? = some h → handles[k]? = some h' → h.serial ≠ 0 →
    h.serial = h'.serial → j = k
  bound : ∀ h ∈ handles, h.serial ≤ serial

/-- The chunks are shared out between the free list and the chains of the pipes there are. -/
structure Owned (g : Chunks) (pipes : List Pipe) (w : ℕ → Option Held) (free : List ℕ)
    (chains : ℕ → List ℕ) : Prop where
  small : g.count < 2 ^ 32
  list : Chain g.freeNext g.freeHead free
  all : ∀ a, (a ≠ 0 ∧ a ≤ g.count) ↔ (a ∈ free ∨ ∃ i, a ∈ chains i)
  apart : ∀ i, ∀ a ∈ free, a ∉ chains i
  distinct : ∀ i j, ∀ a ∈ chains i, a ∈ chains j → i = j
  holds : ∀ i p, pipes[i]? = some p → Holds g p (chains i) (streamOf (w i))
  idle : ∀ i, w i = none → chains i = []

/-- The rows in use are those of the pipes there are. -/
structure Rows (handles : List Handle) (pipes : List Pipe) (t : Store) (w : ℕ → Option Held) : Prop where
  used : ∀ i p, pipes[i]? = some p → p.used = (w i).isSome
  beyond : ∀ i, pipes[i]? = none → w i = none
  row : ∀ i p x, pipes[i]? = some p → w i = some x → Row handles i p x
  mem : ∀ x, x ∈ t ↔ ∃ i, w i = some x
  unique : ∀ i j x y, w i = some x → w j = some y → x.name = y.name → i = j

structure Rep (s : Service) (t : Store) (w : ℕ → Option Held) (free : List ℕ) (chains : ℕ → List ℕ) :
    Prop where
  owned : Owned s.chunks s.pipes w free chains
  rows : Rows s.handles s.pipes t w
  ended : Ended s.handles s.handleSerial w

/-! ## A change of one row -/

section
variable {g g' : Chunks} {handles handles' : List Handle} {pipes : List Pipe} {t t' : Store}
  {w : ℕ → Option Held} {free free' c' : List ℕ} {chains : ℕ → List ℕ} {i : ℕ} {p p' : Pipe}

theorem getElem?_set_of_some (hp : pipes[i]? = some p) (j : ℕ) :
    (pipes.set i p')[j]? = if j = i then some p' else pipes[j]? := by
  split
  · next hj =>
    rw [hj, List.getElem?_set_self (List.getElem?_eq_some_iff.1 hp).1]
  · next hj => rw [List.getElem?_set_ne (Ne.symm hj)]

theorem Owned.nodup (h : Owned g pipes w free chains) (hp : pipes[i]? = some p) :
    (free ++ chains i).Nodup :=
  List.nodup_append.2 ⟨h.list.nodup, (h.holds i p hp).chain.nodup,
    fun a ha _ hb he => h.apart i a ha (he ▸ hb)⟩

theorem Owned.lt (h : Owned g pipes w free chains) (i : ℕ) : ∀ a ∈ free ++ chains i, a < 2 ^ 32 := by
  intro a ha
  have hall := (h.all a).2 ((List.mem_append.1 ha).imp id fun hm => ⟨i, hm⟩)
  exact hall.2.trans_lt h.small

theorem Owned.length_le (h : Owned g pipes w free chains) (hp : pipes[i]? = some p) :
    (chains i).length ≤ g.count := by
  have hsub : chains i ⊆ List.range' 1 g.count := fun a ha => by
    have hall := (h.all a).2 (Or.inr ⟨i, ha⟩)
    rw [List.mem_range'_1]
    omega
  have hle := (List.subperm_of_subset (h.holds i p hp).chain.nodup hsub).length_le
  rwa [List.length_range'] at hle

theorem Owned.edit (h : Owned g pipes w free chains) (hp : pipes[i]? = some p) (o : Option Held)
    (hd : Draws g g' free (chains i) free' c') (hh : Holds g' p' c' (streamOf o)) (hidle : o = none → c' = []) :
    Owned g' (pipes.set i p') (Function.update w i o) free' (Function.update chains i c') := by
  have hnd := List.nodup_append.1 (hd.nodup (h.nodup hp))
  have hmem : ∀ a, a ∈ free' ∨ a ∈ c' ↔ a ∈ free ∨ a ∈ chains i := fun a => by
    rw [← List.mem_append, ← List.mem_append]
    exact hd.perm.mem_iff
  -- the chunks of the other rows are not drawn on
  have hout : ∀ j, j ≠ i → ∀ a ∈ chains j, a ∉ free ∧ a ∉ chains i := fun j hj a ha =>
    ⟨fun hf => h.apart j a hf ha, fun hc => hj (h.distinct j i a ha hc)⟩
  have hout' : ∀ j, j ≠ i → ∀ a ∈ chains j, a ∉ free' ∧ a ∉ c' := fun j hj a ha => by
    have hno := hout j hj a ha
    have := hmem a
    tauto
  refine ⟨hd.count ▸ h.small, hd.list, fun a => ?_, fun j a ha => ?_, fun j k a hj hk => ?_,
    fun j q hq => ?_, fun j hj => ?_⟩
  · rw [hd.count, h.all]
    have hex : (∃ j, a ∈ Function.update chains i c' j) ↔ a ∈ c' ∨ ∃ j, j ≠ i ∧ a ∈ chains j := by
      constructor
      · rintro ⟨j, hj⟩
        rcases eq_or_ne j i with rfl | hji
        · rw [Function.update_self] at hj
          exact Or.inl hj
        · rw [Function.update_of_ne hji] at hj
          exact Or.inr ⟨j, hji, hj⟩
      · rintro (hc | ⟨j, hji, hj⟩)
        · exact ⟨i, by rwa [Function.update_self]⟩
        · exact ⟨j, by rwa [Function.update_of_ne hji]⟩
    have hex₀ : (∃ j, a ∈ chains j) ↔ a ∈ chains i ∨ ∃ j, j ≠ i ∧ a ∈ chains j := by
      constructor
      · rintro ⟨j, hj⟩
        rcases eq_or_ne j i with rfl | hji
        · exact Or.inl hj
        · exact Or.inr ⟨j, hji, hj⟩
      · rintro (hc | ⟨j, -, hj⟩)
        · exact ⟨i, hc⟩
        · exact ⟨j, hj⟩
    rw [hex, hex₀, ← or_assoc, ← or_assoc, hmem]
  · rcases eq_or_ne j i with rfl | hji
    · rw [Function.update_self]
      exact fun hc => hnd.2.2 a ha a hc rfl
    · rw [Function.update_of_ne hji]
      exact fun hc => (hout' j hji a hc).1 ha
  · rcases eq_or_ne j i with rfl | hji <;> rcases eq_or_ne k j with rfl | hkj
    · rfl
    · rw [Function.update_self] at hj
      rw [Function.update_of_ne hkj] at hk
      exact absurd hj (hout' k hkj a hk).2
    · rfl
    · rw [Function.update_of_ne hji] at hj
      rcases eq_or_ne k i with rfl | hki
      · rw [Function.update_self] at hk
        exact absurd hk (hout' j hji a hj).2
      · rw [Function.update_of_ne hki] at hk
        exact h.distinct j k a hj hk
  · rw [getElem?_set_of_some hp] at hq
    rcases eq_or_ne j i with rfl | hji
    · rw [if_pos rfl] at hq
      rw [Function.update_self, Function.update_self, ← Option.some.inj hq]
      exact hh
    · rw [if_neg hji] at hq
      rw [Function.update_of_ne hji, Function.update_of_ne hji]
      have hold := h.holds j q hq
      exact hold.congr fun a ha => hd.keeps a (hold.chain.ne_zero ha) (hout j hji a ha).1 (hout j hji a ha).2
  · rcases eq_or_ne j i with rfl | hji
    · rw [Function.update_self] at hj ⊢
      exact hidle hj
    · rw [Function.update_of_ne hji] at hj ⊢
      exact h.idle j hj

theorem Rows.edit (h : Rows handles pipes t w) (hp : pipes[i]? = some p) (o : Option Held)
    (hu : p'.used = o.isSome)
    (hrow : ∀ x, o = some x → Row handles' i p' x ∧ ∀ j y, j ≠ i → w j = some y → x.name ≠ y.name)
    (hends : ∀ j, j ≠ i → (endsOn handles' j).Perm (endsOn handles j))
    (ht : ∀ x, x ∈ t' ↔ ∃ j, Function.update w i o j = some x) :
    Rows handles' (pipes.set i p') t' (Function.update w i o) := by
  refine ⟨fun j q hq => ?_, fun j hj => ?_, fun j q x hq hx => ?_, ht, fun j k x y hx hy hn => ?_⟩
  · rw [getElem?_set_of_some hp] at hq
    rcases eq_or_ne j i with rfl | hji
    · rw [if_pos rfl] at hq
      rw [Function.update_self, ← Option.some.inj hq]
      exact hu
    · rw [if_neg hji] at hq
      rw [Function.update_of_ne hji]
      exact h.used j q hq
  · rw [getElem?_set_of_some hp] at hj
    rcases eq_or_ne j i with rfl | hji
    · rw [if_pos rfl] at hj
      cases hj
    · rw [if_neg hji] at hj
      rw [Function.update_of_ne hji]
      exact h.beyond j hj
  · rw [getElem?_set_of_some hp] at hq
    rcases eq_or_ne j i with rfl | hji
    · rw [if_pos rfl] at hq
      rw [Function.update_self] at hx
      rw [← Option.some.inj hq]
      exact (hrow x hx).1
    · rw [if_neg hji] at hq
      rw [Function.update_of_ne hji] at hx
      have hr := h.row j q x hq hx
      exact ⟨hr.fits, hr.name, hr.ever, hr.writer, hr.count, hr.ends.trans (hends j hji).symm,
        hr.alive, hr.sound⟩
  · rcases eq_or_ne j i with rfl | hji <;> rcases eq_or_ne k j with rfl | hkj
    · rfl
    · rw [Function.update_self] at hx
      rw [Function.update_of_ne hkj] at hy
      exact absurd hn ((hrow x hx).2 k y hkj hy)
    · rfl
    · rw [Function.update_of_ne hji] at hx
      rcases eq_or_ne k i with rfl | hki
      · rw [Function.update_self] at hy
        exact absurd hn.symm ((hrow y hy).2 j x hji hx)
      · rw [Function.update_of_ne hki] at hy
        exact h.unique j k x y hx hy hn

theorem Rows.mem_map (h : Rows handles pipes t w) {x : Held} (hx : w i = some x) (f : Held → Held)
    (hf : ∀ j y, j ≠ i → w j = some y → f y = y) (z : Held) :
    z ∈ t.map f ↔ ∃ j, Function.update w i (some (f x)) j = some z := by
  rw [List.mem_map]
  constructor
  · rintro ⟨y, hy, rfl⟩
    obtain ⟨j, hj⟩ := (h.mem y).1 hy
    rcases eq_or_ne j i with rfl | hji
    · refine ⟨j, ?_⟩
      rw [Function.update_self, Option.some.inj (hx.symm.trans hj)]
    · refine ⟨j, ?_⟩
      rw [Function.update_of_ne hji, hf j y hji hj]
      exact hj
  · rintro ⟨j, hj⟩
    rcases eq_or_ne j i with rfl | hji
    · rw [Function.update_self] at hj
      exact ⟨x, (h.mem x).2 ⟨j, hx⟩, Option.some.inj hj⟩
    · rw [Function.update_of_ne hji] at hj
      exact ⟨z, (h.mem z).2 ⟨j, hj⟩, hf j z hji hj⟩

end

/-! ## Handles -/

section
variable {handles : List Handle} {pipes : List Pipe} {t : Store} {w : ℕ → Option Held} {i j serial : ℕ}
  {r r' : Handle} {x y : Held} {e d : End}

theorem mem_endsOn : e ∈ endsOn handles i ↔ ∃ r ∈ handles, r.serial ≠ 0 ∧ r.pipe = i + 1 ∧ r.end_ = e := by
  simp only [endsOn, List.mem_map, List.mem_filter, decide_eq_true_eq, and_assoc]

theorem endsOn_cons (r : Handle) (handles : List Handle) (i : ℕ) :
    endsOn (r :: handles) i = endsOn [r] i ++ endsOn handles i := by
  rw [endsOn, endsOn, endsOn, ← List.map_append, ← List.filter_append, List.singleton_append]

theorem endsOn_live (hr : r.serial ≠ 0) : endsOn [r] i = if r.pipe = i + 1 then [r.end_] else [] := by
  unfold endsOn
  split
  · next hi => rw [List.filter_cons_of_pos (by simp [hr, hi]), List.filter_nil, List.map_singleton]
  · next hi => rw [List.filter_cons_of_neg (by simp [hi]), List.filter_nil, List.map_nil]

theorem endsOn_free (hr : r.serial = 0) : endsOn [r] i = [] := by
  rw [endsOn, List.filter_cons_of_neg (by simp [hr]), List.filter_nil, List.map_nil]

theorem endsOn_set (r' : Handle) (hj : handles[j]? = some r) (i : ℕ) :
    (endsOn [r] i ++ endsOn (handles.set j r') i).Perm (endsOn [r'] i ++ endsOn handles i) := by
  obtain ⟨hlt, rfl⟩ := List.getElem?_eq_some_iff.1 hj
  have hperm : ∀ {l l' : List Handle}, l.Perm l' → (endsOn l i).Perm (endsOn l' i) := fun hl =>
    (hl.filter _).map _
  have h₁ : (endsOn (handles.set j r') i).Perm (endsOn [r'] i ++ endsOn (handles.eraseIdx j) i) := by
    rw [← endsOn_cons]
    exact hperm (List.set_perm_cons_eraseIdx hlt r')
  have h₂ : (endsOn handles i).Perm (endsOn [handles[j]] i ++ endsOn (handles.eraseIdx j) i) := by
    rw [← endsOn_cons]
    exact hperm (List.getElem_cons_eraseIdx_perm hlt).symm
  refine (h₁.append_left _).trans (.trans ?_ (h₂.symm.append_left _))
  rw [← List.append_assoc, ← List.append_assoc]
  exact List.perm_append_comm.append_right _

theorem Ended.unique (h : Ended handles serial w) (hr : r ∈ handles) (hr' : r' ∈ handles)
    (h₀ : r.serial ≠ 0) (he : r.serial = r'.serial) : r = r' := by
  obtain ⟨j, hj⟩ := List.mem_iff_getElem?.1 hr
  obtain ⟨k, hk⟩ := List.mem_iff_getElem?.1 hr'
  have hjk := h.distinct j k r r' hj hk h₀ he
  subst hjk
  exact Option.some.inj (hj.symm.trans hk)

theorem Rows.end_unique (h : Rows handles pipes t w) (he : Ended handles serial w) (hx : w i = some x)
    (hy : w j = some y) (hex : e ∈ x.ends) (hdy : d ∈ y.ends) (hs : e.serial = d.serial) : i = j ∧ e = d := by
  have hrow : ∀ k z, w k = some z → ∃ p, Row handles k p z := fun k z hz => by
    rcases hp : pipes[k]? with _ | p
    · rw [h.beyond k hp] at hz
      cases hz
    · exact ⟨p, h.row k p z hp hz⟩
  obtain ⟨p, hpx⟩ := hrow i x hx
  obtain ⟨q, hqy⟩ := hrow j y hy
  obtain ⟨r, hr, h₀, hi, rfl⟩ := mem_endsOn.1 (hpx.ends.mem_iff.1 hex)
  obtain ⟨r', hr', -, hj, rfl⟩ := mem_endsOn.1 (hqy.ends.mem_iff.1 hdy)
  have hrr := he.unique hr hr' h₀ hs
  subst hrr
  exact ⟨by omega, rfl⟩

theorem handleLookup_some {s : Service} {badge : ℕ} (h : s.handleLookup serial badge = some (j, r)) :
    s.handles[j]? = some r ∧ r.serial = serial ∧ r.serial ≠ 0 ∧ r.badge = badge := by
  unfold Service.handleLookup at h
  split at h
  · cases h
  · next h₀ =>
    simp only [Option.bind_eq_bind, Option.bind_eq_some_iff] at h
    obtain ⟨k, hk, r', hr', h⟩ := h
    split at h
    · next hb =>
      cases h
      obtain ⟨hlt, hs, -⟩ := List.findIdx?_eq_some_iff_getElem.1 hk
      rw [List.getElem?_eq_getElem hlt] at hr'
      rw [Option.some.inj hr', decide_eq_true_eq] at hs
      exact ⟨by rw [List.getElem?_eq_getElem hlt, hr'], hs, by rw [hs]; exact h₀, hb⟩
    · cases h

theorem handleLookup_none {s : Service} {badge : ℕ} (he : Ended s.handles s.handleSerial w)
    (h : s.handleLookup serial badge = none) :
    ∀ r ∈ s.handles, r.serial ≠ 0 → ¬ (r.serial = serial ∧ r.badge = badge) := by
  rintro r hr h₀ ⟨rfl, rfl⟩
  rw [Service.handleLookup, if_neg h₀] at h
  rcases hk : s.handles.findIdx? fun h => decide (h.serial = r.serial) with _ | k
  · rw [List.findIdx?_eq_none_iff] at hk
    simpa using hk r hr
  · obtain ⟨hlt, hs, -⟩ := List.findIdx?_eq_some_iff_getElem.1 hk
    rw [decide_eq_true_eq] at hs
    have hrk := he.unique hr (List.getElem_mem hlt) h₀ hs.symm
    rw [hk] at h
    simp [List.getElem?_eq_getElem hlt, ← hrk] at h

end

end Aegir.PipeFs
