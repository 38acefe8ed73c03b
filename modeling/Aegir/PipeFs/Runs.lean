/-
  What each call does to the pipes there are.
-/
import Aegir.PipeFs.Refines

namespace Aegir.PipeFs

open Aegir.Lib

/-- A call was answered, and the tables are those of the pipes after it. -/
def Answered (s : Service) (t : Store) (badge : ℕ) (c : Call) (r : Option (Answer × Service)) : Prop :=
  ∃ answer s' w' free' chains', r = some (answer, s') ∧
    Rep s' (t.after badge (s.reached c) c answer) w' free' chains'

section
variable {s s' : Service} {t : Store} {w : ℕ → Option Held} {free : List ℕ} {chains : ℕ → List ℕ}
  {badge handle i j : ℕ} {p : Pipe} {x : Held} {r : Handle}

theorem Rep.lookup (h : Rep s t w free chains) (hl : s.handleLookup handle badge = some (j, r)) :
    s.handles[j]? = some r ∧ r.end_ = ⟨handle, badge, r.kind⟩ ∧ r.serial ≠ 0 ∧
      ∃ i p x, r.pipe = i + 1 ∧ s.pipes[i]? = some p ∧ w i = some x ∧ r.end_ ∈ x.ends := by
  obtain ⟨hj, hs, h₀, hb⟩ := handleLookup_some hl
  have hr : r ∈ s.handles := List.mem_of_getElem? hj
  obtain ⟨i, hi, hw⟩ := h.ended.live r hr h₀
  obtain ⟨x, hx⟩ := Option.isSome_iff_exists.1 hw
  rcases hp : s.pipes[i]? with _ | p
  · rw [h.rows.beyond i hp] at hx
    cases hx
  · refine ⟨hj, by rw [Handle.end_, hs, hb], h₀, i, p, x, hi, hp, hx, ?_⟩
    exact (h.rows.row i p x hp hx).ends.mem_iff.2 (mem_endsOn.2 ⟨r, hr, h₀, hi, rfl⟩)

theorem Rep.no_end (h : Rep s t w free chains) (hl : s.handleLookup handle badge = none) (hx : w i = some x) :
    ∀ e ∈ x.ends, ¬ (e.serial = handle ∧ e.badge = badge) := by
  intro e he
  rcases hp : s.pipes[i]? with _ | p
  · rw [h.rows.beyond i hp] at hx
    cases hx
  · obtain ⟨r, hr, h₀, -, rfl⟩ := mem_endsOn.1 ((h.rows.row i p x hp hx).ends.mem_iff.1 he)
    exact handleLookup_none h.ended hl r hr h₀

theorem Ended.congr {handles : List Handle} {serial : ℕ} {w w' : ℕ → Option Held}
    (h : Ended handles serial w) (hw : ∀ i, (w i).isSome = true → (w' i).isSome = true) :
    Ended handles serial w' := by
  refine ⟨fun r hr h₀ => ?_, h.distinct, h.bound⟩
  obtain ⟨i, hi, hs⟩ := h.live r hr h₀
  exact ⟨i, hi, hw i hs⟩

/-- **A pipe that stays**, changed by a map that changes no other. -/
theorem Rep.change (h : Rep s t w free chains) {g' : Chunks} {p' : Pipe} {handles' : List Handle}
    {serial' : ℕ} {free' c' : List ℕ} (f : Held → Held) (hp : s.pipes[i]? = some p) (hx : w i = some x)
    (hd : Draws s.chunks g' free (chains i) free' c') (hh : Holds g' p' c' (f x).stream)
    (hn : (f x).name = x.name) (hu : p'.used = p.used) (hrow : Row handles' i p' (f x))
    (hends : ∀ j, j ≠ i → (endsOn handles' j).Perm (endsOn s.handles j)) (he : Ended handles' serial' w)
    (hf : ∀ j y, j ≠ i → w j = some y → f y = y) :
    Rep ⟨g', s.pipes.set i p', handles', serial'⟩ (t.map f) (Function.update w i (some (f x))) free'
      (Function.update chains i c') := by
  refine ⟨h.owned.edit hp (some (f x)) hd hh (fun hf => by cases hf), ?_, he.congr fun j hj => ?_⟩
  · refine h.rows.edit hp (some (f x)) ?_ (fun y hy => ?_) hends (h.rows.mem_map hx f hf)
    · rw [hu, h.rows.used i p hp, hx]
      rfl
    · obtain rfl := Option.some.inj hy
      exact ⟨hrow, fun j y hji hy he => hji (h.rows.unique j i y x hy hx (he.symm.trans hn))⟩
  · rcases eq_or_ne j i with rfl | hji
    · rw [Function.update_self]
      rfl
    · rwa [Function.update_of_ne hji]

/-! ## Reading -/

/-- **What a read of a pipe is answered.** -/
theorem Rep.read (h : Rep s t w free chains) (hp : s.pipes[i]? = some p) (hx : w i = some x)
    (offset wanted : ℕ) :
    s.readPipe p offset wanted = some (.data ((x.stream.drop offset).take (min wanted kReadMax))
      (decide (x.stream.length ≤ offset + ((x.stream.drop offset).take (min wanted kReadMax)).length) &&
        !(x.hadWriter && !x.writerLeft)), s) := by
  have hh := h.owned.holds i p hp
  rw [hx] at hh
  have hread := readAt_eq offset (min wanted kReadMax) (h.owned.length_le hp) hh
  have hrow := h.rows.row i p x hp hx
  rw [Service.readPipe, hread, hrow.writer, hh.size]
  rfl

/-! ## Writing -/

theorem Rep.write (h : Rep s t w free chains) (badge handle : ℕ) (data : List UInt8) :
    Answered s t badge (.write handle data) (s.answerWrite badge handle data) := by
  have hrefused : Answered s t badge (.write handle data) (some (.word 0, s)) := by
    refine ⟨.word 0, s, w, free, chains, rfl, ?_⟩
    have hmap : (t.map fun x => if ⟨handle, badge, .write⟩ ∈ x.ends then
        { x with stream := x.stream ++ data.take 0 } else x) = t := by
      refine (List.map_congr_left fun x _ => ?_).trans (List.map_id t)
      rw [List.take_zero, List.append_nil, ite_self]
      rfl
    rw [Store.after, hmap]
    exact h
  rw [Service.answerWrite]
  rcases hl : s.handleLookup handle badge with _ | ⟨j, r⟩
  · exact hrefused
  obtain ⟨hj, hend, h₀, i, p, x, hi, hp, hx, hex⟩ := h.lookup hl
  by_cases hno : r.kind ≠ .write ∨ r.pipe = 0 ∨ kWriteMax < data.length
  · simp only [if_pos hno]
    exact hrefused
  have hh := h.owned.holds i p hp
  rw [hx] at hh
  obtain ⟨k, g', p', free', c', happ, -, hd, hh', hs', -⟩ :=
    append_spec h.owned.list (h.owned.nodup hp) (h.owned.lt i) hh data
  have hrow := h.rows.row i p x hp hx
  have hw : r.kind = .write := by_contra fun hf => hno (Or.inl hf)
  rw [hend, hw] at hex
  obtain ⟨f, hf⟩ : ∃ f : Held → Held, f = fun x => if ⟨handle, badge, .write⟩ ∈ x.ends then
      { x with stream := x.stream ++ data.take k } else x := ⟨_, rfl⟩
  have hfx : f x = { x with stream := x.stream ++ data.take k } := by rw [hf]; exact if_pos hex
  refine ⟨.word k, { s with chunks := g', pipes := s.pipes.set i p' }, Function.update w i (some (f x)), free',
    Function.update chains i c', ?_, ?_⟩
  · simp only [if_neg hno]
    rw [hi, Nat.add_sub_cancel, hp]
    simp only [Option.bind_eq_bind, Option.bind_some, happ]
  rw [Store.after, ← hf]
  refine h.change f hp hx hd ?_ ?_ hs'.used ?_ (fun _ _ => .refl _) h.ended fun j y hji hy => ?_
  · rw [hfx]; exact hh'
  · rw [hfx]
  · rw [hfx]
    exact ⟨by rw [hs'.name]; exact hrow.fits, hs'.name.trans hrow.name, hs'.readerEver.trans hrow.ever,
      hs'.writerOpen.trans hrow.writer, hs'.openCount.trans hrow.count, hrow.ends, hrow.alive,
      ⟨hrow.sound.had, hrow.sound.left⟩⟩
  · rw [hf]
    exact if_neg fun hey => hji (h.rows.end_unique h.ended hy hx hey hex rfl).1

/-! ## Opening -/

section
variable {path : List UInt8}

theorem pipeFind_some (h : Rep s t w free chains) (hf : s.pipeFind path = some i) :
    ∃ p x, s.pipes[i]? = some p ∧ w i = some x ∧ x.name = path := by
  unfold Service.pipeFind at hf
  split at hf
  · obtain ⟨hlt, hu, -⟩ := List.findIdx?_eq_some_iff_getElem.1 hf
    rw [Bool.and_eq_true, decide_eq_true_eq] at hu
    have hp : s.pipes[i]? = some s.pipes[i] := List.getElem?_eq_getElem hlt
    obtain ⟨x, hx⟩ := Option.isSome_iff_exists.1 ((h.rows.used i _ hp).symm.trans hu.1)
    exact ⟨_, x, hp, hx, (h.rows.row i _ x hp hx).name.symm.trans hu.2⟩
  · cases hf

theorem pipeFind_none (h : Rep s t w free chains) (hfits : Service.nameFits path = true)
    (hf : s.pipeFind path = none) : ∀ x ∈ t, x.name ≠ path := by
  rintro x hx rfl
  obtain ⟨i, hi⟩ := (h.rows.mem x).1 hx
  rcases hp : s.pipes[i]? with _ | p
  · rw [h.rows.beyond i hp] at hi
    cases hi
  rw [Service.pipeFind, if_pos hfits, List.findIdx?_eq_none_iff] at hf
  have hno := hf p (List.mem_of_getElem? hp)
  rw [h.rows.used i p hp, hi, (h.rows.row i p x hp hi).name] at hno
  simp at hno

/-- **The pipe of a name**, made when there is none. -/
theorem Rep.made (h : Rep s t w free chains) (hm : s.pipeMake path = some (i, s')) :
    ∃ w' chains', Rep s' (t.made path) w' free chains' ∧
      ∃ p x, s'.pipes[i]? = some p ∧ w' i = some x ∧ x.name = path := by
  unfold Service.pipeMake at hm
  split at hm
  swap
  · cases hm
  next hfits =>
  rcases hfind : s.pipeFind path with _ | k
  · -- an unused row is taken
    rw [hfind] at hm
    rcases hfree : s.pipes.findIdx? fun p => !p.used with _ | k
    · rw [hfree] at hm
      cases hm
    rw [hfree] at hm
    obtain ⟨rfl, rfl⟩ := Prod.mk.inj (Option.some.inj hm)
    obtain ⟨hlt, hu, -⟩ := List.findIdx?_eq_some_iff_getElem.1 hfree
    have hp : s.pipes[k]? = some s.pipes[k] := List.getElem?_eq_getElem hlt
    have hwk : w k = none := by
      have := h.rows.used k _ hp
      rw [Bool.not_eq_true'] at hu
      rw [hu] at this
      exact Option.isSome_eq_false_iff.1 this.symm |> Option.isNone_iff_eq_none.1
    have hnone := pipeFind_none h hfits hfind
    have hends : endsOn s.handles k = [] := by
      refine List.eq_nil_iff_forall_not_mem.2 fun e he => ?_
      obtain ⟨r, hr, h₀, hri, -⟩ := mem_endsOn.1 he
      obtain ⟨m, hm, hs⟩ := h.ended.live r hr h₀
      obtain rfl : m = k := by omega
      rw [hwk] at hs
      cases hs
    have hmade : t.made path = Held.new path :: t := by
      refine if_neg fun hany => ?_
      obtain ⟨x, hx, hn⟩ := List.any_eq_true.1 hany
      exact hnone x hx (of_decide_eq_true hn)
    refine ⟨Function.update w k (some (Held.new path)), Function.update chains k [], ?_, _, Held.new path,
      List.getElem?_set_self hlt, Function.update_self .., rfl⟩
    have hd : Draws s.chunks s.chunks free (chains k) free [] := by
      rw [h.owned.idle k hwk]
      exact .refl h.owned.list
    refine ⟨h.owned.edit hp _ hd (.nil rfl rfl rfl rfl) fun _ => rfl, ?_, h.ended.congr fun j hj => ?_⟩
    · refine h.rows.edit hp _ rfl (fun x hx => ?_) (fun _ _ => .refl _) fun x => ?_
      · obtain rfl := Option.some.inj hx
        refine ⟨⟨hfits, rfl, rfl, rfl, rfl, by rw [hends]; exact .refl _, rfl, .new path⟩, fun j y _ hy he => ?_⟩
        exact hnone y ((h.rows.mem y).2 ⟨j, hy⟩) he.symm
      · rw [hmade, List.mem_cons, h.rows.mem]
        constructor
        · rintro (rfl | ⟨j, hj⟩)
          · exact ⟨k, Function.update_self ..⟩
          · refine ⟨j, ?_⟩
            rw [Function.update_of_ne fun he => ?_]
            · exact hj
            · rw [he, hwk] at hj
              cases hj
        · rintro ⟨j, hj⟩
          rcases eq_or_ne j k with rfl | hji
          · rw [Function.update_self] at hj
            exact Or.inl (Option.some.inj hj).symm
          · rw [Function.update_of_ne hji] at hj
            exact Or.inr ⟨j, hj⟩
    · rcases eq_or_ne j k with rfl | hji
      · rw [Function.update_self]
        rfl
      · rwa [Function.update_of_ne hji]
  · rw [hfind] at hm
    obtain ⟨rfl, rfl⟩ := Prod.mk.inj (Option.some.inj hm)
    obtain ⟨p, x, hp, hx, hn⟩ := pipeFind_some h hfind
    have hmade : t.made path = t := if_pos (List.any_eq_true.2
      ⟨x, (h.rows.mem x).2 ⟨k, hx⟩, decide_eq_true hn⟩)
    exact ⟨w, chains, by rw [hmade]; exact h, p, x, hp, hx, hn⟩

theorem Rep.cut (h : Rep s t w free chains) (hp : s.pipes[i]? = some p) (hx : w i = some x) (flags : ℕ) :
    ∃ g' p' free' c', p.cutWhen (Service.truncates flags) s.chunks = some (g', p') ∧
      Draws s.chunks g' free (chains i) free' c' ∧ Holds g' p' c' (x.cut flags).stream ∧ SameEnds p p' := by
  have hh := h.owned.holds i p hp
  rw [hx] at hh
  by_cases ht : Service.truncates flags = true
  · obtain ⟨g', free', hcut, hd⟩ := cut_spec (h.owned.length_le hp) h.owned.list (h.owned.nodup hp)
      (h.owned.lt i) hh
    refine ⟨g', { p with firstChunk := 0, lastChunk := 0, lastUsed := 0, size := 0 }, free', [],
      (if_pos ht).trans hcut, hd, ?_, ⟨rfl, rfl, rfl, rfl, rfl⟩⟩
    rw [Held.cut, if_pos ht]
    exact .nil rfl rfl rfl rfl
  · refine ⟨s.chunks, p, free, chains i, if_neg ht, .refl h.owned.list, ?_, ⟨rfl, rfl, rfl, rfl, rfl⟩⟩
    rw [Held.cut, if_neg ht]
    exact hh

theorem Held.cut_fields (x : Held) (flags : ℕ) : (x.cut flags).name = x.name ∧ (x.cut flags).ends = x.ends ∧
    (x.cut flags).hadReader = x.hadReader ∧ (x.cut flags).hadWriter = x.hadWriter ∧
    (x.cut flags).writerLeft = x.writerLeft := by
  unfold Held.cut
  split
  · exact ⟨rfl, rfl, rfl, rfl, rfl⟩
  · exact ⟨rfl, rfl, rfl, rfl, rfl⟩

theorem Row.cut {handles : List Handle} {p' : Pipe} (h : Row handles i p x) (hs : SameEnds p p') (flags : ℕ) :
    Row handles i p' (x.cut flags) := by
  obtain ⟨h₁, h₂, h₃, h₄, h₅⟩ := x.cut_fields flags
  refine ⟨by rw [hs.name]; exact h.fits, ?_, ?_, ?_, ?_, by rw [h₂]; exact h.ends, ?_, h.sound.cut flags⟩
  · rw [h₁, hs.name, h.name]
  · rw [h₃, hs.readerEver, h.ever]
  · rw [h₄, h₅, hs.writerOpen, h.writer]
  · rw [h₂, hs.openCount, h.count]
  · rw [Held.dead, h₂, h₃]
    exact h.alive

theorem Row.attach {handles handles' : List Handle} {e : End} (h : Row handles i p x)
    (he : (endsOn handles' i).Perm (e :: endsOn handles i)) :
    Row handles' i (Service.attached p e.kind) (x.attach e) := by
  have hends : (e :: x.ends).Perm (endsOn handles' i) := (h.ends.cons e).trans he.symm
  rcases hk : e.kind with _ | _
  · have hx : x.attach e = { x with ends := e :: x.ends, hadReader := true } := by rw [Held.attach, hk]
    refine ⟨h.fits, ?_, ?_, ?_, ?_, ?_, ?_, h.sound.attach⟩ <;> rw [hx]
    · exact h.name
    · rfl
    · exact h.writer
    · exact congrArg (· + 1) h.count
    · exact hends
    · exact Bool.and_false _
  · have hx : x.attach e = { x with ends := e :: x.ends, hadWriter := true, writerLeft := false } := by
      rw [Held.attach, hk]
    refine ⟨h.fits, ?_, ?_, ?_, ?_, ?_, ?_, h.sound.attach⟩ <;> rw [hx]
    · exact h.name
    · exact h.ever
    · rfl
    · exact congrArg (· + 1) h.count
    · exact hends
    · exact Bool.and_false _

end

theorem handleAlloc_some {pipe : ℕ} {kind : Kind} (h : s.handleAlloc badge pipe kind = some s') :
    ∃ j r, s.handles[j]? = some r ∧ r.serial = 0 ∧ s' = { s with
      handles := s.handles.set j ⟨s.handleSerial + 1, badge, pipe, kind⟩
      handleSerial := s.handleSerial + 1 } := by
  simp only [Service.handleAlloc, Option.bind_eq_bind, Option.bind_eq_some_iff] at h
  obtain ⟨j, hj, h⟩ := h
  obtain ⟨hlt, h₀, -⟩ := List.findIdx?_eq_some_iff_getElem.1 hj
  exact ⟨j, _, List.getElem?_eq_getElem hlt, of_decide_eq_true h₀, (Option.some.inj h).symm⟩

theorem getElem?_set_cases {α : Type} {l : List α} {v a : α} {k : ℕ} (h : (l.set j v)[k]? = some a) :
    (k = j ∧ a = v) ∨ (k ≠ j ∧ l[k]? = some a) := by
  rw [List.getElem?_set] at h
  split at h
  · next hkj =>
    split at h
    · exact Or.inl ⟨hkj.symm, (Option.some.inj h).symm⟩
    · cases h
  · next hkj => exact Or.inr ⟨Ne.symm hkj, h⟩

theorem Ended.alloc {handles : List Handle} {serial : ℕ} {kind : Kind} (h : Ended handles serial w) (hi : (w i).isSome = true) :
    Ended (handles.set j ⟨serial + 1, badge, i + 1, kind⟩) (serial + 1) w := by
  have hmem : ∀ a ∈ handles.set j ⟨serial + 1, badge, i + 1, kind⟩,
      a ∈ handles ∨ a = ⟨serial + 1, badge, i + 1, kind⟩ := fun a ha => List.mem_or_eq_of_mem_set ha
  refine ⟨fun a ha h₀ => ?_, fun k m a b ha hb h₀ hs => ?_, fun a ha => ?_⟩
  · rcases hmem a ha with ha | rfl
    · exact h.live a ha h₀
    · exact ⟨i, rfl, hi⟩
  · -- the new serial is above all the others
    rcases getElem?_set_cases ha with ⟨hk, rfl⟩ | ⟨hk, ha⟩ <;>
      rcases getElem?_set_cases hb with ⟨hm, rfl⟩ | ⟨hm, hb⟩
    · rw [hk, hm]
    · exact absurd (h.bound b (List.mem_of_getElem? hb)) (by rw [← hs]; exact Nat.not_succ_le_self _)
    · exact absurd (h.bound a (List.mem_of_getElem? ha)) (by rw [hs]; exact Nat.not_succ_le_self _)
    · exact h.distinct k m a b ha hb h₀ hs
  · rcases hmem a ha with ha | rfl
    · exact (h.bound a ha).trans (Nat.le_succ _)
    · exact le_rfl

theorem Rep.openPath (h : Rep s t w free chains) (badge : ℕ) (path : List UInt8) (flags : ℕ) :
    Answered s t badge (.openPath path flags) (s.answerOpen badge path flags) := by
  rw [Service.answerOpen]
  rcases hm : s.pipeMake path with _ | ⟨i, s₁⟩
  · refine ⟨.word 0, s, w, free, chains, rfl, ?_⟩
    have hno : s.reached (.openPath path flags) = false := by rw [Service.reached, hm]; rfl
    rw [Store.after, hno]
    exact h
  have hyes : s.reached (.openPath path flags) = true := by rw [Service.reached, hm]; rfl
  obtain ⟨w₁, chains₁, h₁, p, x, hp, hx, hn⟩ := h.made hm
  obtain ⟨g', p', free', c', hcut, hd, hh, hs⟩ := h₁.cut hp hx flags
  have hrow := (h₁.rows.row i p x hp hx).cut hs flags
  have hother : ∀ j y, j ≠ i → w₁ j = some y → y.name ≠ path := fun j y hji hy he =>
    hji (h₁.rows.unique j i y x hy hx (he.trans hn.symm))
  rcases ha : Service.handleAlloc { s₁ with chunks := g', pipes := s₁.pipes.set i p' } badge (i + 1)
      (Service.kindOf flags) with _ | s₂
  · -- the pipe is there, but there is no row for the handle
    obtain ⟨f, hf⟩ : ∃ f : Held → Held, f = fun x => if x.name = path then x.opened badge flags 0 else x :=
      ⟨_, rfl⟩
    have hfx : f x = x.cut flags := by rw [hf]; exact if_pos hn
    refine ⟨.word 0, { s₁ with chunks := g', pipes := s₁.pipes.set i p' }, Function.update w₁ i (some (f x)),
      free', Function.update chains₁ i c', ?_, ?_⟩
    · simp only [hp, Option.bind_eq_bind, Option.bind_some, hcut, ha]
    rw [Store.after, hyes, if_pos rfl, ← hf]
    refine h₁.change f hp hx hd ?_ ?_ hs.used ?_ (fun _ _ => .refl _) h₁.ended fun j y hji hy => ?_
    · rw [hfx]; exact hh
    · rw [hfx]; exact (x.cut_fields flags).1
    · rw [hfx]; exact hrow
    · rw [hf]; exact if_neg (hother j y hji hy)
  · obtain ⟨j, r, hj, h₀, rfl⟩ := handleAlloc_some ha
    obtain ⟨e, he⟩ : ∃ e : End, e = ⟨s₁.handleSerial + 1, badge, Service.kindOf flags⟩ := ⟨_, rfl⟩
    obtain ⟨f, hf⟩ : ∃ f : Held → Held, f = fun x => if x.name = path then
        x.opened badge flags (s₁.handleSerial + 1) else x := ⟨_, rfl⟩
    have hfx : f x = (x.cut flags).attach e := by
      rw [hf, he]
      exact if_pos hn
    obtain ⟨row, hr⟩ : ∃ row : Handle, row = ⟨s₁.handleSerial + 1, badge, i + 1, Service.kindOf flags⟩ :=
      ⟨_, rfl⟩
    have hpipe : row.pipe = i + 1 := by rw [hr]
    have hend : row.end_ = e := by rw [hr, he]; rfl
    have hserial : row.serial ≠ 0 := by rw [hr]; exact Nat.succ_ne_zero _
    have hends : ∀ k, (endsOn (s₁.handles.set j row) k).Perm
        ((if i + 1 = k + 1 then [e] else []) ++ endsOn s₁.handles k) := fun k => by
      have hk := endsOn_set row hj k
      rw [endsOn_free h₀, List.nil_append, endsOn_live hserial, hpipe, hend] at hk
      exact hk
    have hself := hends i
    rw [if_pos rfl] at hself
    refine ⟨.word (s₁.handleSerial + 1),
      ⟨g', s₁.pipes.set i (Service.attached p' (Service.kindOf flags)), s₁.handles.set j row, s₁.handleSerial + 1⟩,
      Function.update w₁ i (some (f x)), free', Function.update chains₁ i c', ?_, ?_⟩
    · simp only [hp, Option.bind_eq_bind, Option.bind_some, hcut, ha, List.set_set, hr]
    rw [Store.after, hyes, if_pos rfl, ← hf]
    have hk : e.kind = Service.kindOf flags := by rw [he]
    refine h₁.change f hp hx hd ?_ ?_ ?_ ?_ (fun k hki => ?_)
      (hr ▸ h₁.ended.alloc (by rw [hx]; rfl)) fun k y hki hy => ?_
    · rw [hfx, ← hk]
      have hst : ((x.cut flags).attach e).stream = (x.cut flags).stream := by
        unfold Held.attach
        split <;> rfl
      rw [hst]
      rcases e.kind with _ | _
      · exact ⟨hh.chain, hh.last, hh.used, hh.size, hh.bytes⟩
      · exact ⟨hh.chain, hh.last, hh.used, hh.size, hh.bytes⟩
    · rw [hfx]
      have hna : ((x.cut flags).attach e).name = (x.cut flags).name := by
        unfold Held.attach
        split <;> rfl
      exact hna.trans (x.cut_fields flags).1
    · rw [← hs.used]
      rcases Service.kindOf flags with _ | _ <;> rfl
    · rw [hfx, ← hk]
      exact hrow.attach hself
    · have hkk := hends k
      rw [if_neg (by omega), List.nil_append] at hkk
      exact hkk
    · rw [hf]; exact if_neg (hother k y hki hy)

/-! ## Closing -/

theorem Rep.endOf (h : Rep s t w free chains) {e : End} (hx : w i = some x) (he : e ∈ x.ends) {y : Held}
    (hy : w j = some y) : y.endOf e.badge e.serial = if j = i then some e else none := by
  split
  · next hji =>
    subst hji
    obtain rfl : x = y := Option.some.inj (hx.symm.trans hy)
    rcases hd : x.endOf e.badge e.serial with _ | d
    · have hno := List.find?_eq_none.1 hd e he
      simp at hno
    · have hs := List.find?_some hd
      rw [decide_eq_true_eq] at hs
      rw [(h.rows.end_unique h.ended hx hx (List.mem_of_find?_eq_some hd) he hs.1).2]
  · next hji =>
    refine List.find?_eq_none.2 fun d hd hs => ?_
    rw [decide_eq_true_eq] at hs
    exact hji (h.rows.end_unique h.ended hy hx hd he hs.1).1

theorem Held.detach_fields (x : Held) (e : End) :
    (x.detach e).name = x.name ∧ (x.detach e).stream = x.stream ∧ (x.detach e).ends = x.ends.erase e ∧
      (x.detach e).hadReader = x.hadReader := by
  unfold Held.detach
  split <;> exact ⟨rfl, rfl, rfl, rfl⟩

theorem Row.detach {handles handles' : List Handle} {e : End} (h : Row handles i p x) (he : e ∈ x.ends)
    (hends : (e :: endsOn handles' i).Perm (endsOn handles i)) (ha : (x.detach e).dead = false) :
    Row handles' i (Service.detached p e.kind) (x.detach e) := by
  have hperm : (x.ends.erase e).Perm (endsOn handles' i) := by
    have := (h.ends.trans hends.symm).erase e
    rwa [List.erase_cons_head] at this
  have hcount : p.openCount - 1 = (x.ends.erase e).length := by
    rw [List.length_erase_of_mem he, h.count]
  rcases hk : e.kind with _ | _
  · have hx : x.detach e = { x with ends := x.ends.erase e } := by rw [Held.detach, hk]
    refine ⟨h.fits, ?_, ?_, ?_, ?_, ?_, ha, h.sound.detach⟩ <;> rw [hx]
    · exact h.name
    · exact h.ever
    · exact h.writer
    · exact hcount
    · exact hperm
  · have hx : x.detach e = { x with ends := x.ends.erase e, writerLeft := true } := by
      rw [Held.detach, hk]
    refine ⟨h.fits, ?_, ?_, ?_, ?_, ?_, ha, h.sound.detach⟩ <;> rw [hx]
    · exact h.name
    · exact h.ever
    · exact (Bool.and_false _).symm
    · exact hcount
    · exact hperm

theorem Row.dead {handles : List Handle} {e : End} (h : Row handles i p x) (he : e ∈ x.ends) :
    ((Service.detached p e.kind).readerEver && decide ((Service.detached p e.kind).openCount = 0)) =
      (x.detach e).dead := by
  have h₁ : (Service.detached p e.kind).readerEver = x.hadReader := by
    rw [← h.ever]
    rcases e.kind with _ | _ <;> rfl
  have h₂ : (Service.detached p e.kind).openCount = (x.ends.erase e).length := by
    rw [List.length_erase_of_mem he, ← h.count]
    rcases e.kind with _ | _ <;> rfl
  rw [Held.dead, h₁, h₂, (x.detach_fields e).2.2.1, (x.detach_fields e).2.2.2]
  refine congrArg (x.hadReader && ·) ?_
  rw [Bool.eq_iff_iff, decide_eq_true_eq]
  exact List.isEmpty_iff_length_eq_zero.symm

theorem Ended.close {handles : List Handle} {serial : ℕ} {w' : ℕ → Option Held} {row : Handle}
    (h : Ended handles serial w) (h₀ : row.serial = 0)
    (hw : ∀ k, (w k).isSome = true → (w' k).isSome = true ∨ endsOn (handles.set j row) k = []) :
    Ended (handles.set j row) serial w' := by
  have hmem : ∀ a ∈ handles.set j row, a ∈ handles ∨ a = row := fun a ha => List.mem_or_eq_of_mem_set ha
  refine ⟨fun a ha hs => ?_, fun k m a b ha hb hs he => ?_, fun a ha => ?_⟩
  · rcases hmem a ha with hm | rfl
    · obtain ⟨k, hk, hk'⟩ := h.live a hm hs
      refine ⟨k, hk, (hw k hk').resolve_right fun hnil => ?_⟩
      have hin : a.end_ ∈ endsOn (handles.set j row) k := mem_endsOn.2 ⟨a, ha, hs, hk, rfl⟩
      rw [hnil] at hin
      cases hin
    · exact absurd h₀ hs
  · rcases getElem?_set_cases ha with ⟨-, rfl⟩ | ⟨-, ha⟩
    · exact absurd h₀ hs
    · rcases getElem?_set_cases hb with ⟨-, rfl⟩ | ⟨-, hb⟩
      · exact absurd (he.trans h₀) hs
      · exact h.distinct k m a b ha hb hs he
  · rcases hmem a ha with hm | rfl
    · exact h.bound a hm
    · rw [h₀]
      exact Nat.zero_le _

/-- The pipe after one of its handles was closed: none, or what is left of it. -/
def leftOf (x : Held) (e : End) : Option Held := if (x.detach e).dead then none else some (x.detach e)

theorem leftOf_some {e : End} {y : Held} (h : leftOf x e = some y) :
    y = x.detach e ∧ (x.detach e).dead = false := by
  unfold leftOf at h
  split at h
  · cases h
  · next hd => exact ⟨(Option.some.inj h).symm, Bool.eq_false_iff.2 hd⟩

theorem leftOf_none {e : End} (h : leftOf x e = none) : (x.detach e).dead = true := by
  unfold leftOf at h
  split at h
  · assumption
  · cases h

theorem Rep.released (h : Rep s t w free chains) {handles' : List Handle} {e : End} (hp : s.pipes[i]? = some p)
    (hx : w i = some x) (he : e ∈ x.ends) (hends : (e :: endsOn handles' i).Perm (endsOn s.handles i)) :
    ∃ g' p' free' c', (Service.detached p e.kind).releaseWhen ((Service.detached p e.kind).readerEver &&
        decide ((Service.detached p e.kind).openCount = 0)) s.chunks = some (g', p') ∧
      Draws s.chunks g' free (chains i) free' c' ∧ Holds g' p' c' (streamOf (leftOf x e)) ∧
      p'.used = (leftOf x e).isSome ∧ (leftOf x e = none → c' = []) ∧
      ∀ y, leftOf x e = some y → Row handles' i p' y := by
  have hrow := h.rows.row i p x hp hx
  have hh : Holds s.chunks (Service.detached p e.kind) (chains i) x.stream := by
    have := h.owned.holds i p hp
    rw [hx] at this
    rcases e.kind with _ | _
    · exact ⟨this.chain, this.last, this.used, this.size, this.bytes⟩
    · exact ⟨this.chain, this.last, this.used, this.size, this.bytes⟩
  rw [hrow.dead he]
  rcases hd : (x.detach e).dead with _ | _
  · have ho : leftOf x e = some (x.detach e) := by rw [leftOf, hd]; rfl
    rw [ho]
    refine ⟨s.chunks, Service.detached p e.kind, free, chains i, rfl, .refl h.owned.list, ?_, ?_,
      fun hf => (by cases hf), fun y hy => ?_⟩
    · show Holds _ _ _ (x.detach e).stream
      rw [(x.detach_fields e).2.1]
      exact hh
    · have hu := h.rows.used i p hp
      rw [hx] at hu
      rcases e.kind with _ | _ <;> exact hu
    · rw [← Option.some.inj hy]
      exact hrow.detach he hends hd
  · have ho : leftOf x e = none := by rw [leftOf, hd]; rfl
    obtain ⟨g', free', hcut, hdr⟩ := cut_spec (h.owned.length_le hp) h.owned.list (h.owned.nodup hp)
      (h.owned.lt i) hh
    rw [ho]
    refine ⟨g', { Service.detached p e.kind with
      firstChunk := 0, lastChunk := 0, lastUsed := 0, size := 0, used := false, name := [] }, free', [], ?_, hdr,
      .nil rfl rfl rfl rfl, rfl, fun _ => rfl, fun y hy => by cases hy⟩
    rw [Pipe.releaseWhen, if_pos rfl, Pipe.release, hcut]
    rfl

theorem Rep.close (h : Rep s t w free chains) (badge handle : ℕ) :
    Answered s t badge (.close handle) (s.answerClose badge handle) := by
  rw [Service.answerClose]
  rcases hl : s.handleLookup handle badge with _ | ⟨j, r⟩
  · exact ⟨.word 0, s, w, free, chains, rfl, h⟩
  obtain ⟨hj, hend, h₀, i, p, x, hi, hp, hx, hex⟩ := h.lookup hl
  have hrow := h.rows.row i p x hp hx
  obtain ⟨row, hr⟩ : ∃ row : Handle, row = { r with serial := 0, pipe := 0 } := ⟨_, rfl⟩
  have hends : ∀ k, ((if r.pipe = k + 1 then [r.end_] else []) ++ endsOn (s.handles.set j row) k).Perm
      (endsOn s.handles k) := fun k => by
    have hk := endsOn_set row hj k
    rwa [endsOn_live h₀, endsOn_free (show row.serial = 0 by rw [hr]), List.nil_append] at hk
  have hself := hends i
  rw [if_pos hi] at hself
  have hother : ∀ k, k ≠ i → (endsOn (s.handles.set j row) k).Perm (endsOn s.handles k) := fun k hk => by
    have := hends k
    rwa [if_neg (by omega), List.nil_append] at this
  -- the pipe's part of the map of the pipes, and the others'
  obtain ⟨f, hf⟩ : ∃ f : Held → Held, f = fun x => ((x.endOf badge handle).map x.detach).getD x := ⟨_, rfl⟩
  have hof : ∀ k y, w k = some y → y.endOf badge handle = if k = i then some r.end_ else none := fun k y hy => by
    have := h.endOf hx hex hy
    rwa [hend] at this ⊢
  have hfx : f x = x.detach r.end_ := by
    rw [hf]
    show ((x.endOf badge handle).map x.detach).getD x = _
    rw [hof i x hx, if_pos rfl]
    rfl
  have hfy : ∀ k y, k ≠ i → w k = some y → f y = y := fun k y hk hy => by
    rw [hf]
    show ((y.endOf badge handle).map y.detach).getD y = _
    rw [hof k y hy, if_neg hk]
    rfl
  have halive : ∀ k y, w k = some y → y.dead = false := fun k y hy => by
    rcases hq : s.pipes[k]? with _ | q
    · rw [h.rows.beyond k hq] at hy
      cases hy
    · exact (h.rows.row k q y hq hy).alive
  obtain ⟨g', p', free', c', hrel, hd, hh, hu, hidle, hleft⟩ := h.released hp hx hex hself
  refine ⟨.word 1, ⟨g', s.pipes.set i p', s.handles.set j row, s.handleSerial⟩,
    Function.update w i (leftOf x r.end_), free', Function.update chains i c', ?_, ?_⟩
  · have hpipe : r.pipe ≠ 0 := by omega
    simp only [if_neg hpipe]
    rw [hi, Nat.add_sub_cancel, hp]
    simp only [Option.bind_eq_bind, Option.bind_some]
    rw [hend] at hrel
    rw [hrel, hr]
    rfl
  refine ⟨h.owned.edit hp _ hd hh hidle, h.rows.edit hp _ hu (fun y hy => ⟨hleft y hy, fun k z hk hz => ?_⟩) hother
    fun z => ?_, h.ended.close (by rw [hr]) fun k hk => ?_⟩
  · rw [(leftOf_some hy).1, (x.detach_fields _).1]
    exact fun he => hk (h.rows.unique k i z x hz hx he.symm)
  · have hmap := h.rows.mem_map hx f hfy
    show z ∈ (t.map fun x => ((x.endOf badge handle).map x.detach).getD x).filter _ ↔ _
    rw [← hf, List.mem_filter, hmap, hfx]
    constructor
    · rintro ⟨⟨k, hk⟩, hz⟩
      refine ⟨k, ?_⟩
      rcases eq_or_ne k i with rfl | hki
      · rw [Function.update_self] at hk ⊢
        rw [← Option.some.inj hk, Bool.not_eq_true'] at hz
        rw [leftOf, hz, ← hk]
        rfl
      · rwa [Function.update_of_ne hki] at hk ⊢
    · rintro ⟨k, hk⟩
      rcases eq_or_ne k i with rfl | hki
      · rw [Function.update_self] at hk
        obtain ⟨rfl, hz⟩ := leftOf_some hk
        exact ⟨⟨k, Function.update_self ..⟩, by rw [hz]; rfl⟩
      · rw [Function.update_of_ne hki] at hk
        exact ⟨⟨k, by rwa [Function.update_of_ne hki]⟩, by rw [halive k z hk]; rfl⟩
  · rcases eq_or_ne k i with rfl | hki
    · rcases hl : leftOf x r.end_ with _ | y
      · -- the pipe is gone: its last handle was this one
        refine Or.inr ?_
        have hdead := leftOf_none hl
        rw [Held.dead, Bool.and_eq_true, (x.detach_fields _).2.2.1, List.isEmpty_iff] at hdead
        have hperm := ((hrow.ends.trans hself.symm).erase r.end_)
        rw [hdead.2] at hperm
        have hnil := hperm.nil_eq
        rw [List.singleton_append, List.erase_cons_head] at hnil
        exact hnil.symm
      · rw [Function.update_self]
        exact Or.inl rfl
    · rw [Function.update_of_ne hki]
      exact Or.inl hk

/-! ## Every call -/

theorem Rep.readHandle (h : Rep s t w free chains) (hx : x ∈ t) (he : ⟨handle, badge, .read⟩ ∈ x.ends)
    (offset wanted : ℕ) :
    s.step badge (.readHandle handle offset wanted) = some (.data
      ((x.stream.drop offset).take (min wanted kReadMax))
      (decide (x.stream.length ≤ offset + ((x.stream.drop offset).take (min wanted kReadMax)).length) &&
        !(x.hadWriter && !x.writerLeft)), s) := by
  obtain ⟨i, hi⟩ := (h.rows.mem x).1 hx
  rw [Service.step, Service.answerReadHandle]
  rcases hl : s.handleLookup handle badge with _ | ⟨j, r⟩
  · exact absurd ⟨rfl, rfl⟩ (h.no_end hl hi _ he)
  · obtain ⟨-, hend, -, k, p, y, hk, hp, hy, hey⟩ := h.lookup hl
    obtain ⟨rfl, hee⟩ := h.rows.end_unique h.ended hi hy he hey (by rw [hend])
    obtain rfl : x = y := Option.some.inj (hi.symm.trans hy)
    have hkind : r.kind = .read := by
      have := congrArg End.kind hee
      exact this.symm
    have hgo : ¬ (r.kind ≠ .read ∨ r.pipe = 0) := by rw [hkind, hk]; simp
    simp only [if_neg hgo]
    rw [hk, Nat.add_sub_cancel, hp]
    exact h.read hp hi offset wanted

theorem Rep.step (h : Rep s t w free chains) (badge : ℕ) (c : Call) : Answered s t badge c (s.step badge c) := by
  cases c with
  | read path offset wanted =>
    rw [Service.step, Service.answerRead]
    rcases hf : s.pipeFind path with _ | i
    · exact ⟨.nothing, s, w, free, chains, rfl, h⟩
    · obtain ⟨p, x, hp, hx, -⟩ := pipeFind_some h hf
      simp only [hp, Option.bind_eq_bind, Option.bind_some]
      exact ⟨_, s, w, free, chains, h.read hp hx offset wanted, h⟩
  | readHandle handle offset wanted =>
    rw [Service.step, Service.answerReadHandle]
    rcases hl : s.handleLookup handle badge with _ | ⟨j, r⟩
    · exact ⟨.nothing, s, w, free, chains, rfl, h⟩
    obtain ⟨-, -, -, i, p, x, hi, hp, hx, -⟩ := h.lookup hl
    by_cases hno : r.kind ≠ .read ∨ r.pipe = 0
    · simp only [if_pos hno]
      exact ⟨.nothing, s, w, free, chains, rfl, h⟩
    · simp only [if_neg hno]
      rw [hi, Nat.add_sub_cancel, hp]
      exact ⟨_, s, w, free, chains, h.read hp hx offset wanted, h⟩
  | write handle data => exact h.write badge handle data
  | openPath path flags => exact h.openPath badge path flags
  | close handle => exact h.close badge handle

end

theorem link_spec {n : ℕ} {g : Chunks} {free : List ℕ} (h : Chain g.freeNext g.freeHead free)
    (hn : ∀ a ∈ free, n < a) (hb : g.freeHead < 2 ^ 32) (hn' : n < 2 ^ 32) :
    Chain (Chunks.link n g).freeNext (Chunks.link n g).freeHead (List.range' 1 n ++ free) ∧
      (Chunks.link n g).count = g.count := by
  induction n generalizing g free with
  | zero => exact ⟨h, rfl⟩
  | succ n ih =>
    have hfree : Chain (g.free (n + 1)).freeNext (g.free (n + 1)).freeHead ((n + 1) :: free) :=
      h.cons (Nat.succ_ne_zero n) (Chunks.freeNext_free hb) fun b hm =>
        (Chunks.sameAt_free (h.ne_zero hm) (Nat.succ_ne_zero n) (hn b hm).ne').freeNext_eq
    have hlt : ∀ a ∈ (n + 1) :: free, n < a := fun a ha => by
      rcases List.mem_cons.1 ha with rfl | ha
      · exact Nat.lt_succ_self n
      · exact (Nat.lt_succ_self n).trans (hn a ha)
    obtain ⟨hc, hcount⟩ := ih hfree hlt hn' (by omega)
    refine ⟨?_, hcount⟩
    rw [List.range'_concat, Nat.one_mul, List.append_assoc, List.singleton_append, Nat.add_comm 1 n]
    exact hc

theorem memoryInit_rep {size : ℕ} (hsize : size < 2 ^ 32) :
    Rep (memoryInit size) [] (fun _ => none) (List.range' 1 ((size - size / 4) / kChunkBytes)) fun _ => [] := by
  have hcount : (size - size / 4) / kChunkBytes < 2 ^ 32 :=
    (Nat.div_le_self _ _).trans_lt ((Nat.sub_le _ _).trans_lt hsize)
  have hstart : Chain (Chunks.mk Buf.zero ((size - size / 4) / kChunkBytes) 0).freeNext 0 [] := rfl
  obtain ⟨hc, hn⟩ := link_spec hstart (fun a ha => absurd ha List.not_mem_nil) (Nat.two_pow_pos 32) hcount
  rw [List.append_nil] at hc
  refine ⟨⟨?_, hc, fun a => ?_, fun _ _ _ => List.not_mem_nil, fun _ _ _ h => absurd h List.not_mem_nil,
    fun i p hp => ?_, fun _ _ => rfl⟩, ⟨fun i p hp => ?_, fun _ _ => rfl, fun _ _ _ _ h => ?_, fun x => ?_,
    fun _ _ _ _ h => ?_⟩, ⟨fun r hr h₀ => ?_, fun j k r r' hj _ h₀ => ?_, fun r hr => ?_⟩⟩
  · exact hn.trans_lt hcount
  · have : (memoryInit size).chunks.count = (size - size / 4) / kChunkBytes := hn
    rw [this, List.mem_range'_1]
    simp only [List.not_mem_nil, exists_const, or_false]
    omega
  · rw [List.eq_of_mem_replicate (List.mem_of_getElem? hp)]
    exact .nil rfl rfl rfl rfl
  · rw [List.eq_of_mem_replicate (List.mem_of_getElem? hp)]
    rfl
  · cases h
  · simp
  · cases h
  · rw [List.eq_of_mem_replicate hr] at h₀
    exact absurd rfl h₀
  · rw [List.eq_of_mem_replicate (List.mem_of_getElem? hj)] at h₀
    exact absurd rfl h₀
  · rw [List.eq_of_mem_replicate hr]
    exact Nat.zero_le _

/-- **The tables are those of the pipes there are, in every run**, and every call is answered. -/
theorem Rep.run {s : Service} {t : Store} {w : ℕ → Option Held} {free : List ℕ} {chains : ℕ → List ℕ}
    (h : Rep s t w free chains) (calls : List (ℕ × Call)) :
    ∃ s' t' w' free' chains', runCalls s t calls = some (s', t') ∧ Rep s' t' w' free' chains' := by
  induction calls generalizing s t w free chains with
  | nil => exact ⟨s, t, w, free, chains, rfl, h⟩
  | cons call calls ih =>
    obtain ⟨badge, c⟩ := call
    obtain ⟨answer, s₁, w₁, free₁, chains₁, hs, h₁⟩ := h.step badge c
    rw [runCalls, hs]
    exact ih h₁

end Aegir.PipeFs
