/-
  The calls on regular files against files with a cursor.
-/
import Aegir.Posix.Loops

namespace Aegir.Posix

open Aegir.Lib

/-! ## The view -/

namespace View

variable {F : Type} {a : View F} {d : Desc F} {fd : ℤ}

theorem set_self (hd : a.descs fd = some d) : a.set fd (some d) = a := by
  rw [set, ← hd, Function.update_eq_self]

variable (a) in
def AtEnd (fd : ℤ) : Prop := ∀ d, a.descs fd = some d → d.append = true → d.cursor = (a.content d.file).length

theorem AtEnd.writesAt (h : a.AtEnd fd) (hd : a.descs fd = some d) : a.writesAt d = d.cursor := by
  unfold View.writesAt
  split_ifs with happend
  · exact (h d hd happend).symm
  · rfl

theorem put_moved [DecidableEq F] {bytes : Bytes} (hd : a.descs fd = some d) (hat : bytes ≠ [] → a.writesAt d = d.cursor) :
    (a.put d.file (splice (a.content d.file) d.cursor bytes)).set fd (some { d with cursor := d.cursor + bytes.length }) =
      (if bytes.length ≠ 0 then a.set fd (some { d with cursor := a.writesAt d + bytes.length }) else a).put d.file
        (splice (a.content d.file) (a.writesAt d) bytes) := by
  by_cases hnil : bytes = []
  · subst hnil
    rw [splice_nil, splice_nil, if_neg (by simp)]
    exact set_self (a := a.put d.file _) hd
  · rw [if_pos (mt List.length_eq_zero_iff.1 hnil), hat hnil]
    rfl

end View

/-! ## The table -/

section
variable {σ F : Type} [DecidableEq F] {v : FilePorts σ F} {w : World σ} {a : View F} {s s' : σ} {fd : ℤ} {e : Entry}
  {d : Desc F}

/-! ## What a call leaves -/

theorem Held.isOn (h : Held v s e d) : IsOn v s e d.file := ⟨h.handle, h.path⟩

theorem Held.kept (h : Held v s e d) (hk : v.toHoldings.Kept s s') : Held v s' e d :=
  { h with handle := fun hne => hk.handle (h.handle hne), path := hk.path h.path }

theorem Held.moved (h : Held v s e d) (n : ℕ) : Held v s { e with offset := n } { d with cursor := n } :=
  { h with offset := rfl }

theorem Rep.services (h : Rep v w a) (hk : v.toHoldings.Kept w.services s') :
    Rep v ⟨w.process, s'⟩ ⟨a.descs, v.content s'⟩ where
  content := rfl
  free := h.free
  used he := by
    obtain ⟨d, hd, hheld⟩ := h.used he
    exact ⟨d, hd, hheld.kept hk⟩
  distinct := h.distinct

theorem Rep.moved (h : Rep v w a) (he : entryFor w.process.entries fd = some e) (hd : a.descs fd = some d) (n : ℕ) :
    Rep v (w.put fd (some { e with offset := n }) w.services) (a.set fd (some { d with cursor := n })) := by
  have hput : ∀ fd', entryFor (w.put fd (some { e with offset := n }) w.services).process.entries fd' =
      if fd' = fd then some { e with offset := n } else entryFor w.process.entries fd' :=
    entryFor_setEntry he (some { e with offset := n })
  have hold : ∀ {fd' e'}, entryFor (w.put fd (some { e with offset := n }) w.services).process.entries fd' = some e' →
      ∃ e₀, entryFor w.process.entries fd' = some e₀ ∧ e'.volume = e₀.volume ∧ e'.handle = e₀.handle := by
    intro fd' e' he'
    rw [hput] at he'
    split_ifs at he' with heq
    · obtain rfl := Option.some.inj he'
      exact ⟨e, heq ▸ he, rfl, rfl⟩
    · exact ⟨e', he', rfl, rfl⟩
  refine ⟨h.content, fun fd' hnone => ?_, fun {fd' e'} he' => ?_, fun {fd₁ fd₂ e₁ e₂} h₁ h₂ hne hvol hhandle => ?_⟩
  · rw [hput] at hnone
    split_ifs at hnone with heq
    exact (Function.update_of_ne heq _ _).trans (h.free fd' hnone)
  · rw [hput] at he'
    split_ifs at he' with heq
    · subst heq
      obtain rfl := Option.some.inj he'
      obtain ⟨d', hd', hheld⟩ := h.used he
      obtain rfl : d = d' := Option.some.inj (hd.symm.trans hd')
      exact ⟨_, Function.update_self _ _ _, hheld.moved n⟩
    · obtain ⟨d', hd', hheld⟩ := h.used he'
      exact ⟨d', (Function.update_of_ne heq _ _).trans hd', hheld⟩
  · obtain ⟨e₁', h₁', hvol₁, hhandle₁⟩ := hold h₁
    obtain ⟨e₂', h₂', hvol₂, hhandle₂⟩ := hold h₂
    exact h.distinct h₁' h₂' (hhandle₁ ▸ hne) (hvol₂ ▸ hvol₁ ▸ hvol) (hhandle₂ ▸ hhandle₁ ▸ hhandle)

theorem Rep.closed (h : Rep v w a) (he : entryFor w.process.entries fd = some e) (hcontent : v.content s' = v.content w.services)
    (hhandle : ∀ {volume handle f}, (e.handle ≠ 0 → (volume, handle) ≠ (e.volume, e.handle)) →
      v.onHandle volume handle w.services = some f → v.onHandle volume handle s' = some f)
    (hpath : ∀ {volume path f}, v.atPath volume path w.services = some f → v.atPath volume path s' = some f) :
    Rep v (w.put fd none s') (a.set fd none) := by
  have hput : ∀ fd', entryFor (w.put fd none s').process.entries fd' =
      if fd' = fd then none else entryFor w.process.entries fd' := entryFor_setEntry he none
  refine ⟨h.content.trans hcontent.symm, fun fd' hnone => ?_, fun {fd' e'} he' => ?_,
    fun {fd₁ fd₂ e₁ e₂} h₁ h₂ => ?_⟩
  · rw [hput] at hnone
    by_cases heq : fd' = fd
    · subst heq
      exact Function.update_self _ _ _
    · rw [if_neg heq] at hnone
      exact (Function.update_of_ne heq _ _).trans (h.free fd' hnone)
  · rw [hput] at he'
    split_ifs at he' with heq
    obtain ⟨d', hd', hheld⟩ := h.used he'
    refine ⟨d', (Function.update_of_ne heq _ _).trans hd',
      { hheld with handle := fun hne => hhandle (fun hne' hsame => heq ?_) (hheld.handle hne), path := hpath hheld.path }⟩
    obtain ⟨hvol, hsame⟩ := Prod.mk.inj hsame
    exact h.distinct he he' hne' hvol hsame
  · rw [hput] at h₁ h₂
    split_ifs at h₁ h₂
    exact h.distinct h₁ h₂

theorem Rep.opened (h : Rep v w a) (hk : v.toHoldings.Kept w.services s') (hheld : Held v s' e d)
    (hfresh : e.handle ≠ 0 → v.onHandle e.volume e.handle w.services = none) :
    a.descs (install w.process.entries e).1 = none ∧
      Rep v ⟨⟨(install w.process.entries e).2, w.process.cwd⟩, s'⟩
        ⟨Function.update a.descs (install w.process.entries e).1 (some d), v.content s'⟩ := by
  obtain ⟨hfree, hput⟩ := entryFor_install w.process.entries e
  have hother : ∀ {fd' e'}, entryFor w.process.entries fd' = some e' → e'.handle ≠ 0 →
      ¬ (e'.volume = e.volume ∧ e'.handle = e.handle) := by
    rintro fd' e' he' hne ⟨hvol, hhandle⟩
    obtain ⟨d', -, hheld'⟩ := h.used he'
    have hon := hheld'.handle hne
    rw [hvol, hhandle, hfresh (hhandle ▸ hne)] at hon
    cases hon
  refine ⟨h.free _ hfree, rfl, fun fd' hnone => ?_, fun {fd' e'} he' => ?_, fun {fd₁ fd₂ e₁ e₂} h₁ h₂ hne hvol hhandle => ?_⟩
  · rw [hput] at hnone
    split_ifs at hnone with heq
    exact (Function.update_of_ne heq _ _).trans (h.free fd' hnone)
  · rw [hput] at he'
    split_ifs at he' with heq
    · subst heq
      obtain rfl := Option.some.inj he'
      exact ⟨d, Function.update_self _ _ _, hheld⟩
    · obtain ⟨d', hd', hheld'⟩ := h.used he'
      exact ⟨d', (Function.update_of_ne heq _ _).trans hd', hheld'.kept hk⟩
  · rw [hput] at h₁ h₂
    split_ifs at h₁ h₂ with heq₁ heq₂ heq₂
    · exact heq₂.trans heq₁.symm
    · obtain rfl := Option.some.inj h₁
      exact absurd ⟨hvol, hhandle⟩ (hother h₂ (hhandle ▸ hne))
    · obtain rfl := Option.some.inj h₂
      exact absurd ⟨hvol.symm, hhandle.symm⟩ (hother h₁ hne)
    · exact h.distinct h₁ h₂ hne hvol hhandle

theorem Rep.quiet (h : Rep v w a) (hq : Quiet v w.services s') : Rep v ⟨w.process, s'⟩ a := by
  have hcontent : a.content = v.content s' := h.content.trans hq.content.symm
  have hrep := h.services hq.kept
  rw [← hcontent] at hrep
  exact hrep

theorem Rep.wrote {f : F} {offset : ℕ} {bytes : Bytes} (h : Rep v w a) (hw : Wrote v f offset bytes w.services s') :
    Rep v ⟨w.process, s'⟩ (a.put f (splice (a.content f) offset bytes)) := by
  have hrep := h.services hw.kept
  rw [hw.content, ← h.content] at hrep
  exact hrep

/-! ## Reading and writing -/

theorem readAt_reads (h : Rep v w a) (fd : ℤ) (count : ℕ) (at_ : Option ℕ) :
    ∃ reply w', Settles (fun fuel => readAt v.toPorts fuel w fd count at_) (reply, [], w') ∧
      ∃ a', a.Reads fd count at_ reply a' ∧ Rep v w' a' := by
  cases he : entryFor w.process.entries fd with
  | none =>
    refine ⟨.error .badf, w, .const fun fuel => ?_, a, ?_, h⟩
    · simp only [readAt, he, World.answer]
    · simp only [View.Reads, h.free fd he, and_self]
  | some e =>
    obtain ⟨d, hd, hheld⟩ := h.used he
    by_cases hreadable : e.readable = true
    · obtain ⟨⟨out, e', s'⟩, hr, hends⟩ := readBytes_ends (hheld.isOn.at (at_.getD e.offset)) count
      have hstart : at_.getD e.offset = at_.getD d.cursor := by rw [hheld.offset]
      have hspan : a.span d.file (at_.getD d.cursor) out.length = out := by
        rw [View.span, h.content, ← hstart]
        exact (List.prefix_iff_eq_take.1 hends.bytes).symm
      have hentry : (if at_ = none then e' else { e' with offset := e.offset }) =
          { e with offset := if at_ = none then e.offset + out.length else e.offset } := by
        rw [show e' = { e with offset := at_.getD e.offset + out.length } from hends.entry]
        cases at_ <;> rfl
      refine ⟨⟨.ok out.length, out, none⟩, w.put fd (some (if at_ = none then e' else { e' with offset := e.offset })) s',
        ?_, if at_ = none then a.set fd (some { d with cursor := d.cursor + out.length }) else a, ?_, ?_⟩
      · refine .congr (fun fuel => ?_) (hr.map fun r => ((⟨.ok r.1.length, r.1, none⟩, [],
          w.put fd (some (if at_ = none then r.2.1 else { r.2.1 with offset := e.offset })) r.2.2) : Outcome σ))
        simp only [readAt, he, hheld.directory, hreadable, Bool.false_eq_true, if_false, if_true]
      · simp only [View.Reads, hd, ← hheld.readable, hreadable, if_true]
        exact ⟨out.length, hends.length, congrArg List.length hspan, by rw [hspan], rfl⟩
      · have hmoved := (h.quiet hends.quiet).moved he hd (if at_ = none then e.offset + out.length else e.offset)
        rw [hentry]
        cases at_ with
        | none => rw [if_pos rfl, ← hheld.offset]; exact hmoved
        | some offset =>
          have hsome : ¬ some offset = none := Option.some_ne_none offset
          rw [if_neg hsome, hheld.offset, View.set_self hd] at hmoved
          rw [if_neg hsome, if_neg hsome, hheld.offset]
          exact hmoved
    · refine ⟨.error .badf, w, .const fun fuel => ?_, a, ?_, h⟩
      · simp only [readAt, he, World.answer, hheld.directory, hreadable, Bool.false_eq_true, if_false]
      · simp only [View.Reads, hd, ← hheld.readable, hreadable, Bool.false_eq_true, if_false, and_self]

theorem writeAt_writes (h : Rep v w a) (fd : ℤ) (bytes : Bytes) (at_ : Option ℕ) :
    ∃ reply rounds w', Settles (fun fuel => writeAt v.toPorts fuel w fd bytes at_) (reply, rounds, w') ∧
      ((at_ = none → bytes ≠ [] → a.AtEnd fd) → (∀ r ∈ rounds, r.Exact) →
        ∃ a', a.Writes fd bytes at_ reply a' ∧ Rep v w' a') := by
  cases he : entryFor w.process.entries fd with
  | none =>
    refine ⟨.error .badf, [], w, .const fun fuel => ?_, fun _ _ => ⟨a, ?_, h⟩⟩
    · simp only [writeAt, he, World.answer]
    · simp only [View.Writes, h.free fd he, and_self]
  | some e =>
    obtain ⟨d, hd, hheld⟩ := h.used he
    by_cases hwritable : d.writable = true
    · have hhandle := hheld.writing hwritable
      obtain ⟨n, rounds, s', hr, hwrote⟩ := writeBytes_wrote (hheld.isOn.at (at_.getD e.offset)) hhandle bytes
      have hentry : { e with offset := if at_ = none then e.offset + n else e.offset } =
          (if at_ = none then { e with offset := at_.getD e.offset + n } else e) := by
        cases at_ <;> rfl
      refine ⟨.ok n, rounds, w.put fd (some (if at_ = none then { e with offset := at_.getD e.offset + n } else e)) s', ?_,
        fun hend hexact => ?_⟩
      · refine .congr (fun fuel => ?_) (hr.map fun r =>
          ((.ok r.1, r.2.2.1, w.put fd (some (if at_ = none then r.2.1 else { r.2.1 with offset := e.offset })) r.2.2.2) :
            Outcome σ))
        simp only [writeAt, he, hheld.writable, hwritable, hhandle, ne_eq, not_false_eq_true, and_self, if_true]
      · obtain ⟨hle, hwrote⟩ := hwrote hexact
        have hstart : n ≠ 0 → at_.getD e.offset = at_.getD (a.writesAt d) := by
          intro hsome
          cases at_ with
          | some offset => rfl
          | none =>
            have hne : bytes ≠ [] := fun hnil => hsome (by rw [hnil] at hle; exact Nat.le_zero.1 hle)
            show e.offset = a.writesAt d
            rw [hheld.offset, (hend rfl hne).writesAt hd]
        have hsplice : splice (a.content d.file) (at_.getD e.offset) (bytes.take n) =
            splice (a.content d.file) (at_.getD (a.writesAt d)) (bytes.take n) := by
          by_cases hsome : n = 0
          · rw [hsome, List.take_zero, splice_nil, splice_nil]
          · rw [hstart hsome]
        have hmoved := (h.wrote hwrote).moved he hd (if at_ = none then e.offset + n else e.offset)
        dsimp only at hmoved
        rw [hsplice, hentry] at hmoved
        refine ⟨_, ?_, hmoved⟩
        simp only [View.Writes, hd, if_pos hwritable]
        refine ⟨n, hle, rfl, ?_⟩
        by_cases hcursor : at_ = none ∧ n ≠ 0
        · obtain ⟨rfl, hsome⟩ := hcursor
          have hat : e.offset = a.writesAt d := hstart hsome
          rw [if_pos rfl, if_pos ⟨rfl, hsome⟩, hat]
          rfl
        · -- the cursor stays
          have hstay : (if at_ = none then e.offset + n else e.offset) = d.cursor := by
            rw [← hheld.offset]
            split_ifs with hnone
            · have hzero : n = 0 := by_contra fun hsome => hcursor ⟨hnone, hsome⟩
              rw [hzero, Nat.add_zero]
            · rfl
          rw [if_neg hcursor, hstay]
          exact View.set_self (a := a.put d.file _) hd
    · refine ⟨.error .badf, [], w, .const fun fuel => ?_, fun _ _ => ⟨a, ?_, h⟩⟩
      · simp only [writeAt, he, World.answer, hheld.writable, hwritable, false_and, Bool.false_eq_true, if_false]
      · simp only [View.Writes, hd, hwritable, Bool.false_eq_true, if_false, and_self]

/-! ## Copying -/

theorem Rep.copied {in_ out : ℤ} {offset : Option ℕ} {count : ℕ} {from_ to_ : Entry} {d d' : Desc F} {c : Copy}
    (h : Rep v w a) (hfrom : entryFor w.process.entries in_ = some from_) (hto : entryFor w.process.entries out = some to_)
    (hd : a.descs in_ = some d) (hd' : a.descs out = some d') (hf : from_.offset = d.cursor) (hg : to_.offset = d'.cursor)
    (hmodes : d.readable = true ∧ d'.writable = true) (hother : in_ ≠ out) (hend : 0 < count → a.AtEnd out)
    (hcopied : Copied (v := v) d.file d'.file (offset.getD from_.offset) to_.offset count w.services c s') :
    ∃ a', a.Copies out in_ offset count ⟨.ok c.total, [], if offset = none then none else some c.position⟩ a' ∧
      Rep v (if offset = none then (w.put out (some { to_ with offset := c.out }) s').put in_
        (some { from_ with offset := c.position }) s' else w.put out (some { to_ with offset := c.out }) s') a' := by
  have hbytes := hcopied.bytes
  have hwrote : Wrote v d'.file d'.cursor (a.span d.file (offset.getD d.cursor) c.total) w.services s' := by
    rw [View.span, h.content, ← hf, ← hg]
    exact hcopied.wrote
  rw [← h.content, hf] at hbytes
  have hlength : (a.span d.file (offset.getD d.cursor) c.total).length = c.total := by
    rw [View.span, List.length_take, Nat.min_eq_left hbytes]
  have hat : a.span d.file (offset.getD d.cursor) c.total ≠ [] → a.writesAt d' = d'.cursor := by
    intro hsome
    rw [ne_eq, ← List.length_eq_zero_iff, hlength] at hsome
    have hbound := hcopied.bound
    exact (hend (by omega)).writesAt hd'
  have hout : c.out = d'.cursor + c.total := by rw [hcopied.writes, hg]
  have hview := View.put_moved hd' hat
  rw [hlength, ← hout] at hview
  have hmoved := (h.wrote hwrote).moved hto hd' c.out
  have hdesc := (Function.update_of_ne hother (some { d' with cursor := c.out }) a.descs).trans hd
  have hentry : entryFor (w.put out (some { to_ with offset := c.out }) s').process.entries in_ = some from_ :=
    (entryFor_setEntry hto _ in_).trans ((if_neg hother).trans hfrom)
  refine ⟨((if c.total ≠ 0 then a.set out (some { d' with cursor := a.writesAt d' + c.total }) else a).put d'.file
      (splice (a.content d'.file) (a.writesAt d') (a.span d.file (offset.getD d.cursor) c.total))).set in_
    (some (if offset = none then { d with cursor := d.cursor + c.total } else d)), ?_, ?_⟩
  · simp only [View.Copies, hd, hd', if_pos hmodes]
    refine ⟨c.total, hcopied.bound, hlength, ?_, rfl⟩
    cases offset with
    | none => rfl
    | some offset =>
      rw [if_neg nofun, hcopied.reads]
      rfl
  · rw [← hview]
    cases offset with
    | none =>
      have hposition : c.position = d.cursor + c.total := hf ▸ hcopied.reads
      rw [if_pos rfl, if_pos rfl, ← hposition]
      exact hmoved.moved hentry hdesc c.position
    | some offset =>
      rw [if_neg nofun, if_neg nofun, View.set_self hdesc]
      exact hmoved

theorem sendfile_copies (h : Rep v w a) (out in_ : ℤ) (offset : Option ℕ) (count : ℕ)
    (hne : ∀ {d d'}, a.descs in_ = some d → a.descs out = some d' → d.file ≠ d'.file) :
    ∃ reply rounds w', Settles (fun fuel => sendfile v.toPorts fuel w out in_ offset count) (reply, rounds, w') ∧
      ((0 < count → a.AtEnd out) → (∀ r ∈ rounds, r.Exact) → ∃ a', a.Copies out in_ offset count reply a' ∧ Rep v w' a') := by
  cases hfrom : entryFor w.process.entries in_ with
  | none =>
    refine ⟨.error .badf, [], w, .const fun fuel => ?_, fun _ _ => ⟨a, ?_, h⟩⟩
    · simp only [sendfile, hfrom, World.answer]
    · simp only [View.Copies, h.free in_ hfrom, and_self]
  | some from_ =>
    obtain ⟨d, hd, hf⟩ := h.used hfrom
    cases hto : entryFor w.process.entries out with
    | none =>
      refine ⟨.error .badf, [], w, .const fun fuel => ?_, fun _ _ => ⟨a, ?_, h⟩⟩
      · simp only [sendfile, hfrom, hto, World.answer]
      · simp only [View.Copies, hd, h.free out hto, and_self]
    | some to_ =>
      obtain ⟨d', hd', hg⟩ := h.used hto
      by_cases hmodes : d.readable = true ∧ d'.writable = true
      · have hhandle := hg.writing hmodes.2
        have hother : in_ ≠ out := by
          rintro rfl
          exact hne hd hd' (congrArg Desc.file (Option.some.inj (hd.symm.trans hd')))
        obtain ⟨c, s', hr, hcopied⟩ := copyBytes_copied (hne hd hd') hhandle hf.isOn hg.isOn (offset.getD from_.offset) count
        refine ⟨_, _, _, .congr (fun fuel => ?_) (hr.map fun r =>
          ((⟨.ok r.1.total, [], if offset = none then none else some r.1.position⟩, r.1.rounds,
            if offset = none then (w.put out (some { to_ with offset := r.1.out }) r.2).put in_
              (some { from_ with offset := r.1.position }) r.2 else w.put out (some { to_ with offset := r.1.out }) r.2) :
            Outcome σ)),
          fun hend hexact => h.copied hfrom hto hd hd' hf.offset hg.offset hmodes hother hend (hcopied hexact)⟩
        simp only [sendfile, hfrom, hto, hf.readable, hf.directory, hg.writable, hmodes.1, hmodes.2, Bool.not_true,
          Bool.or_false, beq_eq_false_iff_ne.2 hhandle, Bool.false_eq_true, if_false]
      · refine ⟨.error .badf, [], w, .const fun fuel => ?_, fun _ _ => ⟨a, ?_, h⟩⟩
        · have hrefused : (!from_.readable || from_.directory || !to_.writable || to_.handle == 0) = true := by
            rw [hf.readable, hf.directory, hg.writable]
            cases hread : d.readable <;> cases hwrite : d'.writable <;> simp_all
          simp only [sendfile, hfrom, hto, hrefused, if_true, World.answer]
        · simp only [View.Copies, hd, hd', if_neg hmodes, and_self]

/-! ## Opening -/

/-- A path that lands on no directory. -/
def OnFile (v : Volumes σ) (target : Option Target) (s : σ) : Prop :=
  match target with
  | none => True
  | some .root => False
  | some (.vfs full) => ∀ {r info}, resolve v full = some r → v.stat r.1 r.2 s = some info → info.kind = .file

def OpensTo (v : FilePorts σ F) (w : World σ) (a : View F) (access : Access) (creat trunc append : Bool) (r : Opened σ) : Prop :=
  ∃ a', a.Opens access creat trunc append ⟨r.1, [], none⟩ a' ∧ Rep v ⟨⟨r.2.1, w.process.cwd⟩, r.2.2⟩ a'

section
variable {access : Access} {creat excl trunc append : Bool} {volume : ℕ} {rest : Text}

theorem OpensTo.refused (h : Rep v w a) (hq : Quiet v w.services s') (errno : Errno) :
    OpensTo v w a access creat trunc append (.error errno, w.process.entries, s') :=
  ⟨a, .inl ⟨errno, rfl, rfl⟩, h.quiet hq⟩

theorem OpensTo.installed {f : F} {bytes : Bytes} (h : Rep v w a) (hk : v.toHoldings.Kept w.services s')
    (hcontent : v.content s' = Function.update (v.content w.services) f bytes)
    (hheld : Held v s' e ⟨f, 0, access ≠ .wronly, access ≠ .rdonly, append⟩)
    (hfresh : e.handle ≠ 0 → v.onHandle e.volume e.handle w.services = none) (htrunc : trunc = true → bytes = [])
    (hkeep : trunc = false → bytes = v.content w.services f ∨ creat = true ∧ bytes = []) :
    OpensTo v w a access creat trunc append (installed w.process.entries e s') := by
  obtain ⟨hfree, hrep⟩ := h.opened hk hheld hfresh
  rw [hcontent, ← h.content] at hrep
  rw [← h.content] at hkeep
  exact ⟨_, .inr ⟨_, f, bytes, rfl, hfree, htrunc, hkeep, rfl⟩, hrep⟩

theorem openForWrite_opens (h : Rep v w a) (haccess : access ≠ .rdonly) :
    OpensTo v w a access creat trunc append (openForWrite v.toVolumes w.process.entries volume rest
      (v.stat volume rest w.services) (access.flags creat excl trunc append) w.services) := by
  have hrefused : ∀ errno, OpensTo v w a access creat trunc append (.error errno, w.process.entries, w.services) :=
    .refused h (.refl w.services)
  unfold openForWrite
  split
  · exact hrefused _
  split
  · exact hrefused _
  split
  · exact hrefused _
  rename_i hmissing
  obtain ⟨handle, s', hopen⟩ : ∃ handle s', v.openWrite volume rest trunc w.services = (handle, s') := ⟨_, _, rfl⟩
  have hlaw := v.opensWrite volume rest trunc w.services
  simp only [Access.flags, hopen] at hlaw ⊢
  obtain ⟨hk, hanswer⟩ := hlaw
  by_cases hzero : handle = 0
  · rw [if_pos hzero] at hanswer ⊢
    exact .refused h ⟨hk, hanswer⟩ _
  · rw [if_neg hzero] at hanswer ⊢
    obtain ⟨f, bytes, hfresh, hhandle, hpath, hcontent, htrunc, hkeep⟩ := hanswer
    refine .installed h hk hcontent ⟨rfl, ?_, ?_, rfl, fun _ => hhandle, hpath, fun _ => hzero⟩ (fun _ => hfresh) htrunc
      fun hnot => (hkeep hnot).imp_right fun hmade => ⟨?_, hmade.2⟩
    · cases access <;> first | rfl | exact absurd rfl haccess
    · exact (decide_eq_true haccess).symm
    · by_contra hcreat
      exact hmissing ⟨hmade.1, hcreat⟩

theorem openForRead_opens (h : Rep v w a) :
    OpensTo v w a .rdonly false false append (openForRead v.toVolumes w.process.entries volume rest w.services) := by
  obtain ⟨answer, s', hopen⟩ : ∃ answer s', v.openRead volume rest w.services = (answer, s') := ⟨_, _, rfl⟩
  obtain ⟨hk, hcontent, hlaw⟩ := v.opensRead volume rest w.services
  rw [hopen] at hk hcontent hlaw
  cases answer with
  | none =>
    simp only [openForRead, hopen]
    exact .refused h ⟨hk, hcontent⟩ _
  | some answer =>
    obtain ⟨handle, member⟩ := answer
    obtain ⟨f, hpath, hhandle⟩ := hlaw rfl
    have hopened : ∀ {e : Entry}, e.directory = false → e.readable = true → e.writable = false → e.offset = 0 →
        v.atPath e.volume e.path s' = some f → (e.handle ≠ 0 → v.onHandle e.volume e.handle w.services = none ∧
          v.onHandle e.volume e.handle s' = some f) →
        OpensTo v w a .rdonly false false append (installed w.process.entries e s') := by
      intro e hdirectory hreadable hwritable hoffset hpath hhandle
      have hsame : v.content s' = Function.update (v.content w.services) f (v.content w.services f) := by
        rw [Function.update_eq_self]
        exact hcontent
      exact .installed h hk hsame
        ⟨hdirectory, hreadable, hwritable, hoffset, fun hne => (hhandle hne).2, hpath, fun hwrites => nomatch hwrites⟩
        (fun hne => (hhandle hne).1) (fun htrunc => nomatch htrunc) fun _ => .inl rfl
    simp only [openForRead, hopen]
    cases member with
    | none => exact hopened rfl rfl rfl rfl hpath fun hne => (hhandle hne).2
    | some member =>
      dsimp only
      split_ifs with hzero
      · exact hopened rfl rfl rfl rfl hpath fun hne => absurd rfl hne
      · exact hopened rfl rfl rfl rfl (hhandle hzero).1 fun hne => (hhandle hne).2

theorem open_opens (h : Rep v w a) {target : Option Target} (hfile : OnFile v.toVolumes target w.services)
    (hmodes : access = .rdonly → creat = false ∧ trunc = false) :
    OpensTo v w a access creat trunc append
      (openTarget v.toVolumes w.process.entries target (access.flags creat excl trunc append) w.services) := by
  cases target with
  | none => exact .refused h (.refl w.services) _
  | some target =>
    cases target with
    | root => exact hfile.elim
    | vfs full =>
      simp only [openTarget]
      cases hresolve : resolve v.toVolumes full with
      | none => exact .refused h (.refl w.services) _
      | some r =>
        obtain ⟨volume, rest⟩ := r
        have hkind := @hfile (volume, rest)
        by_cases haccess : access = .rdonly
        · obtain ⟨rfl, rfl⟩ := hmodes haccess
          subst haccess
          simp only [openPath, Access.flags, Bool.or_self, Bool.false_eq_true, if_false, reduceCtorEq, decide_false]
          cases hstat : v.stat volume rest w.services with
          | none => exact .refused h (.refl w.services) _
          | some info =>
            have hnot : info.kind ≠ .dir := by
              rw [hkind hresolve hstat]
              nofun
            simp only [if_neg hnot]
            exact openForRead_opens h
        · have hwrites : ((access.flags creat excl trunc append).wronly || (access.flags creat excl trunc append).rdwr ||
              (access.flags creat excl trunc append).creat || (access.flags creat excl trunc append).trunc) = true := by
            cases access <;> simp_all [Access.flags]
          simp only [openPath, hwrites, if_true]
          exact openForWrite_opens h haccess

end

/-! ## Seeking and closing -/

theorem lseek_seeks (h : Rep v w a) (fd offset : ℤ) (whence : Whence) :
    ∃ reply w', lseek v.toPorts w fd offset whence = some (reply, [], w') ∧
      ∃ a', a.Seeks fd offset whence reply a' ∧ Rep v w' a' := by
  have hrefused : ∀ errno, ∃ a', a.Seeks fd offset whence (.error errno) a' ∧ Rep v w a' :=
    fun errno => ⟨a, .inl ⟨errno, rfl, rfl⟩, h⟩
  cases he : entryFor w.process.entries fd with
  | none =>
    refine ⟨.error .badf, w, ?_, hrefused _⟩
    simp only [lseek, he, World.answer]
  | some e =>
    obtain ⟨d, hd, hheld⟩ := h.used he
    cases hbase : seekBase v.toPorts e whence w.services with
    | error errno =>
      refine ⟨.error errno, w, ?_, hrefused _⟩
      simp only [lseek, he, hbase, World.answer]
    | ok base =>
      by_cases hbefore : base + offset < 0
      · refine ⟨.error .inval, w, ?_, hrefused _⟩
        simp only [lseek, he, hbase, if_pos hbefore, World.answer]
      · refine ⟨.ok (base + offset).toNat, w.put fd (some { e with offset := (base + offset).toNat }) w.services, ?_,
          a.set fd (some { d with cursor := (base + offset).toNat }), .inr ⟨d, base, _, hd, rfl, rfl, by omega, ?_⟩,
          h.moved he hd _⟩
        · simp only [lseek, he, hbase, if_neg hbefore, hheld.directory, Bool.false_eq_true, if_false]
        · cases whence with
          | set => exact congrArg Nat.cast (Except.ok.inj hbase).symm
          | cur =>
            simp only [seekBase, hheld.directory, Bool.false_eq_true, if_false] at hbase
            exact congrArg Nat.cast ((Except.ok.inj hbase).symm.trans hheld.offset)
          | end_ =>
            simp only [seekBase] at hbase
            cases hstat : v.stat e.volume e.path w.services with
            | none => rw [hstat] at hbase; cases hbase
            | some info =>
              rw [hstat] at hbase
              have hsize : base = (a.content d.file).length := by
                rw [h.content, ← v.size hheld.path hstat]
                exact (Except.ok.inj hbase).symm
              exact congrArg Nat.cast hsize
          | other => cases hbase

theorem close_closes (h : Rep v w a) (fd : ℤ) :
    ∃ reply w', close v.toPorts w fd = some (reply, [], w') ∧ ∃ a', a.Meets (.close fd) reply a' ∧ Rep v w' a' := by
  cases he : entryFor w.process.entries fd with
  | none =>
    refine ⟨.error .badf, w, ?_, a, ?_, h⟩
    · simp only [close, he, World.answer]
    · simp only [View.Meets, h.free fd he, and_self]
  | some e =>
    obtain ⟨d, hd, -⟩ := h.used he
    refine ⟨.ok 0, w.put fd none (if e.handle = 0 then w.services else v.onClose e.volume e.handle w.services), ?_,
      a.set fd none, ?_, ?_⟩
    · simp only [close, he]
    · simp only [View.Meets, hd, and_self]
    · split_ifs with hzero
      · exact h.closed he rfl (fun _ hon => hon) fun hat => hat
      · obtain ⟨hcontent, hhandle, hpath⟩ := v.closes e.volume e.handle w.services
        exact h.closed he hcontent (fun hother hon => hhandle (hother hzero) hon) hpath

/-! ## Every call -/

theorem Rep.isSome (h : Rep v w a) (fd : ℤ) : (a.descs fd).isSome = (entryFor w.process.entries fd).isSome := by
  cases he : entryFor w.process.entries fd with
  | none =>
    rw [h.free fd he]
    rfl
  | some e =>
    obtain ⟨d, hd, -⟩ := h.used he
    rw [hd]
    rfl

/-- A call is on regular files: an open lands on no directory, a copy is from a file to another. -/
def Regular (v : FilePorts σ F) (w : World σ) (a : View F) : Call → Prop
  | .openat path .. => OnFile v.toVolumes (named w.process atFdCwd path) w.services
  | .sendfile out in_ .. => ∀ {d d'}, a.descs in_ = some d → a.descs out = some d' → d.file ≠ d'.file
  | _ => True

/-- Where the calls do what they are for: an open to read neither makes nor cuts the file, and what
    appends has its cursor at the end. -/
def Sound (a : View F) : Call → Prop
  | .openat _ access creat _ trunc _ => access = .rdonly → creat = false ∧ trunc = false
  | .write fd bytes => bytes ≠ [] → a.AtEnd fd
  | .sendfile out _ _ count => 0 < count → a.AtEnd out
  | _ => True

/-- **A call** returns, and does what it is for when it is `Sound` and its answers are exact. -/
theorem exec_meets (h : Rep v w a) (call : Call) (hregular : Regular v w a call) :
    ∃ reply rounds w', Settles (fun fuel => exec v.toPorts fuel w call) (reply, rounds, w') ∧
      (Sound a call → (∀ r ∈ rounds, r.Exact) → ∃ a', a.Meets call reply a' ∧ Rep v w' a') := by
  cases call with
  | openat path access creat excl trunc append =>
    have hopen : Sound a (.openat path access creat excl trunc append) → OpensTo v w a access creat trunc append
        (openat v.toVolumes w.process atFdCwd path (access.flags creat excl trunc append) w.services) := by
      intro hsound
      rw [openat_eq]
      exact open_opens h hregular hsound
    exact ⟨_, [], _, .const fun fuel => rfl, fun hsound _ => hopen hsound⟩
  | read fd count =>
    obtain ⟨reply, w', hr, hreads⟩ := readAt_reads h fd count none
    exact ⟨reply, [], w', hr, fun _ _ => hreads⟩
  | write fd bytes =>
    obtain ⟨reply, rounds, w', hr, hwrites⟩ := writeAt_writes h fd bytes none
    exact ⟨reply, rounds, w', hr, fun hsound => hwrites fun _ => hsound⟩
  | pread fd count offset =>
    by_cases hbefore : offset < 0 ∧ (entryFor w.process.entries fd).isSome = true
    · refine ⟨.error .inval, [], w, .const fun fuel => ?_, fun _ _ => ⟨a, ?_, h⟩⟩
      · rw [exec, pread_eq, if_pos hbefore, World.answer]
      · simp only [View.Meets, h.isSome, if_pos hbefore, and_self]
    · obtain ⟨reply, w', hr, a', hreads, hrep⟩ := readAt_reads h fd count (some offset.toNat)
      refine ⟨reply, [], w', .congr (fun fuel => ?_) hr, fun _ _ => ⟨a', ?_, hrep⟩⟩
      · rw [exec, pread_eq, if_neg hbefore]
      · simp only [View.Meets, h.isSome, if_neg hbefore]
        exact hreads
  | pwrite fd bytes offset =>
    by_cases hbefore : offset < 0 ∧ (entryFor w.process.entries fd).isSome = true
    · refine ⟨.error .inval, [], w, .const fun fuel => ?_, fun _ _ => ⟨a, ?_, h⟩⟩
      · rw [exec, pwrite_eq, if_pos hbefore, World.answer]
      · simp only [View.Meets, h.isSome, if_pos hbefore, and_self]
    · obtain ⟨reply, rounds, w', hr, hwrites⟩ := writeAt_writes h fd bytes (some offset.toNat)
      refine ⟨reply, rounds, w', .congr (fun fuel => ?_) hr, fun _ hexact => ?_⟩
      · rw [exec, pwrite_eq, if_neg hbefore]
      · simp only [View.Meets, h.isSome, if_neg hbefore]
        exact hwrites (fun hnone => by cases hnone) hexact
  | lseek fd offset whence =>
    obtain ⟨reply, w', hr, hseeks⟩ := lseek_seeks h fd offset whence
    exact ⟨reply, [], w', .const fun _ => hr, fun _ _ => hseeks⟩
  | sendfile out in_ offset count => exact sendfile_copies h out in_ offset count hregular
  | close fd =>
    obtain ⟨reply, w', hr, hcloses⟩ := close_closes h fd
    exact ⟨reply, [], w', .const fun _ => hr, fun _ _ => hcloses⟩

/-! ## Every run -/

/-- Each call of a run returns, and does to the files with cursors what it is for. -/
inductive Refines (v : FilePorts σ F) : World σ → View F → List Call → Prop
  | done {w : World σ} {a : View F} : Refines v w a []
  | call {w w' : World σ} {a a' : View F} {call : Call} {calls : List Call} {reply : Reply} {rounds : List Round} :
      Settles (fun fuel => exec v.toPorts fuel w call) (reply, rounds, w') → a.Meets call reply a' → Rep v w' a' →
      Refines v w' a' calls → Refines v w a (call :: calls)

/-- A run on regular files, whose calls meet a condition with what the volumes took. -/
def Along (v : FilePorts σ F) (cond : View F → Call → List Round → Prop) : List Call → World σ → View F → Prop
  | [], _, _ => True
  | call :: calls, w, a => Regular v w a call ∧
      ∀ reply rounds w', Settles (fun fuel => exec v.toPorts fuel w call) (reply, rounds, w') →
        cond a call rounds ∧ ∀ a', a.Meets call reply a' → Rep v w' a' → Along v cond calls w' a'

def Faithful (a : View F) (call : Call) (rounds : List Round) : Prop := Sound a call ∧ ∀ r ∈ rounds, r.Exact

theorem Rep.refines (h : Rep v w a) {calls : List Call} (halong : Along v Faithful calls w a) : Refines v w a calls := by
  induction calls generalizing w a with
  | nil => exact .done
  | cons call calls ih =>
    obtain ⟨hregular, hcall⟩ := halong
    obtain ⟨reply, rounds, w', hr, hmeets⟩ := exec_meets h call hregular
    obtain ⟨⟨hsound, hexact⟩, hrest⟩ := hcall reply rounds w' hr
    obtain ⟨a', hmeets, hrep⟩ := hmeets hsound hexact
    exact .call hr hmeets hrep (ih hrep (hrest a' hmeets hrep))

def View.initial (v : FilePorts σ F) (s : σ) : View F := ⟨fun _ => none, v.content s⟩

def World.initial (cwd : Cwd) (s : σ) : World σ := ⟨⟨[], cwd⟩, s⟩

theorem Rep.initial (v : FilePorts σ F) (cwd : Cwd) (s : σ) : Rep v (.initial cwd s) (.initial v s) := by
  have hnone : ∀ fd : ℤ, entryFor [] fd = none := fun fd => by simp [entryFor]
  refine ⟨rfl, fun fd _ => rfl, fun {fd e} he => ?_, fun {fd fd' e e'} he => ?_⟩
  all_goals
    rw [show entryFor (World.initial cwd s).process.entries fd = none from hnone fd] at he
    cases he

/-- **Descriptors refine files with cursors** along every run whose calls are faithful. -/
theorem calls_refine (v : FilePorts σ F) (cwd : Cwd) (s : σ) (calls : List Call)
    (h : Along v Faithful calls (.initial cwd s) (.initial v s)) : Refines v (.initial cwd s) (.initial v s) calls :=
  (Rep.initial v cwd s).refines h

end

/-! ## A store of one file -/

/-- The handles given out, and the bytes of the file that every path names. -/
def oneHolding : Holdings (ℕ × Bytes) Unit where
  onHandle _ handle s := if handle ≤ s.1 then some () else none
  atPath _ _ _ := some ()
  content s _ := s.2

theorem oneHolding_reads (named : ℕ × Bytes → Option Unit) (offset wanted : ℕ) (s : ℕ × Bytes) :
    oneHolding.Reads named offset wanted s
      (some ((s.2.drop offset).take wanted, decide (s.2.length ≤ offset + wanted)), s) := by
  refine ⟨⟨id, id⟩, rfl, fun {f bytes eof} _ hsome => ?_⟩
  cases hsome
  refine ⟨List.take_prefix _ _, fun hpos hnil => ?_⟩
  rw [List.take_eq_nil_iff, List.drop_eq_nil_iff] at hnil
  exact decide_eq_true (by omega)

theorem oneHolding_given {s : ℕ × Bytes} {bytes : Bytes} : oneHolding.Kept s (s.1 + 1, bytes) := by
  refine ⟨fun {volume handle f} hon => ?_, id⟩
  simp only [oneHolding] at hon ⊢
  split_ifs at hon with hle
  rw [if_pos (by omega)]

theorem oneHolding_fresh (volume : ℕ) (s : ℕ × Bytes) (bytes : Bytes) :
    oneHolding.onHandle volume (s.1 + 1) s = none ∧ oneHolding.onHandle volume (s.1 + 1) (s.1 + 1, bytes) = some () :=
  ⟨if_neg (by omega), if_pos (Nat.le_refl _)⟩

/-- A volume of one file, which takes and gives all that it is asked for, and serves no frames. -/
def oneFile : FilePorts (ℕ × Bytes) Unit where
  toHoldings := oneHolding
  volume name := if name = [] then none else some 1
  nameless := rfl
  stat _ _ s := some ⟨.file, s.2.length, 0, 0⟩
  openWrite _ _ truncate s := (s.1 + 1, s.1 + 1, if truncate then [] else s.2)
  openRead _ _ s := (some (s.1 + 1, none), s.1 + 1, s.2)
  onRead _ _ offset wanted s := (some ((s.2.drop offset).take wanted, s.2.length ≤ offset + wanted), s)
  onReadHandle _ _ offset wanted s := (some ((s.2.drop offset).take wanted, s.2.length ≤ offset + wanted), s)
  onReadFrame _ _ _ _ _ s := (none, s)
  onWrite _ _ offset bytes s := (some bytes.length, s.1, splice s.2 offset bytes)
  onWriteFrame _ _ _ _ s := (none, s)
  onClose _ _ s := s
  largeFrame _ := false
  pageFrame _ := false
  writeFrame _ := false
  size := by
    rintro _ _ s _ info - hstat
    cases hstat
    rfl
  reads _ _ _ _ _ := oneHolding_reads _ _ _ _
  readsHandle _ _ _ _ _ := oneHolding_reads _ _ _ _
  readsFrame _ _ _ _ _ _ := ⟨⟨id, id⟩, rfl, fun _ hsome => nomatch hsome⟩
  writes _ _ offset bytes s := by
    refine ⟨⟨id, id⟩, fun hsome => Option.some.inj hsome ▸ Nat.le_refl _, fun {f} _ => ?_⟩
    funext g
    rw [Option.getD_some, List.take_length, Function.update_self]
    rfl
  writesFrame _ _ _ _ _ := by
    refine ⟨⟨id, id⟩, (fun hsome => nomatch hsome), fun {f} _ => ?_⟩
    rw [Option.getD_none, List.take_zero, splice_nil, Function.update_eq_self]
  opensWrite volume path truncate s := by
    refine ⟨oneHolding_given, ?_⟩
    rw [if_neg (Nat.succ_ne_zero _)]
    obtain ⟨hfresh, hgiven⟩ := oneHolding_fresh volume s (if truncate then [] else s.2)
    refine ⟨(), if truncate then [] else s.2, hfresh, hgiven, rfl, ?_, fun htrunc => if_pos htrunc, fun hkeep => .inl ?_⟩
    · funext f
      rw [Function.update_self]
      rfl
    · rw [hkeep]
      rfl
  opensRead volume path s := by
    refine ⟨oneHolding_given, rfl, fun {handle member} hsome => ?_⟩
    cases hsome
    exact ⟨(), rfl, fun _ => ⟨rfl, (oneHolding_fresh volume s s.2).1, (oneHolding_fresh volume s s.2).2⟩⟩
  closes _ _ _ := ⟨rfl, fun _ hon => hon, fun hat => hat⟩

theorem oneFile_opens (access : Access) (creat trunc append : Bool) (hwrites : access ≠ .rdonly ∨ creat = true) :
    Regular oneFile (.initial ⟨true, []⟩ (0, [])) (.initial oneFile (0, [])) (.openat ['f', ':'] access creat false trunc append) ∧
    Settles (fun fuel => exec oneFile.toPorts fuel (.initial ⟨true, []⟩ (0, [])) (.openat ['f', ':'] access creat false trunc append))
      (.ok 3, [], ⟨⟨[some (.on 1 [] 1 false (access = .rdwr) true)], ⟨true, []⟩⟩, (1, [])⟩) := by
  have hnamed : named (World.initial ⟨true, []⟩ (0, ([] : Bytes))).process atFdCwd ['f', ':'] = some (.vfs ['f', ':']) := by decide
  constructor
  · simp only [Regular, hnamed]
    intro r info _ hstat
    cases hstat
    rfl
  · refine .const fun fuel => ?_
    simp only [exec, open_, openat_eq, hnamed]
    cases access <;> cases creat <;> cases trunc <;> first | rfl | simp at hwrites

theorem View.Opens.descs {F : Type} {a a' : View F} [DecidableEq F] {access : Access} {creat trunc append : Bool} {fd : ℕ}
    (h : a.Opens access creat trunc append (.ok fd) a') :
    ∃ f, a'.descs fd = some ⟨f, 0, access ≠ .wronly, access ≠ .rdonly, append⟩ := by
  rcases h with ⟨e, he, -⟩ | ⟨fd', f, bytes, hfd, -, -, -, rfl⟩
  · cases congrArg Reply.value he
  · obtain rfl := Except.ok.inj (congrArg Reply.value hfd)
    exact ⟨f, Function.update_self _ _ _⟩

/-- A file made, and two bytes written into it. -/
theorem calls_refine_two : Refines oneFile (.initial ⟨true, []⟩ (0, [])) (.initial oneFile (0, []))
    [.openat ['f', ':'] .rdwr true false false false, .write 3 [1, 2]] := by
  obtain ⟨hregular, hopen⟩ := oneFile_opens .rdwr true false false (.inl nofun)
  refine calls_refine oneFile ⟨true, []⟩ (0, []) _ ⟨hregular, fun reply rounds w' hr => ?_⟩
  obtain ⟨rfl, rfl, rfl⟩ : reply = .ok 3 ∧ rounds = [] ∧ w' = _ := by
    simpa only [Prod.mk.injEq] using hr.unique hopen
  refine ⟨⟨nofun, nofun⟩, fun a' hmeets hrep => ⟨trivial, fun reply rounds w' hr => ⟨⟨fun _ d hd happend => ?_, ?_⟩, fun _ _ _ => trivial⟩⟩⟩
  · obtain ⟨f, hf⟩ := View.Opens.descs hmeets
    obtain rfl := Option.some.inj (hf.symm.trans hd)
    cases happend
  · have hwrite : Settles (fun fuel => exec oneFile.toPorts fuel ⟨⟨[some (.on 1 [] 1 false true true)], ⟨true, []⟩⟩, (1, [])⟩
        (.write 3 [1, 2])) (.ok 2, [.inline 2 2], ⟨⟨[some { Entry.on 1 [] 1 false true true with offset := 2 }], ⟨true, []⟩⟩, (1, [1, 2])⟩) := by
      refine ⟨2, fun fuel hfuel => ?_⟩
      obtain ⟨n, rfl⟩ := Nat.exists_eq_add_of_le' hfuel
      rfl
    obtain ⟨-, rfl, -⟩ : reply = .ok 2 ∧ rounds = [.inline 2 2] ∧ w' = _ := by
      simpa only [Prod.mk.injEq] using hr.unique hwrite
    intro r hmem
    obtain rfl := List.mem_singleton.1 hmem
    exact .inl rfl

/-- A file opened to be read, and made if it is not there, can only be written. -/
theorem calls_diverge : ¬ ∀ calls, Along oneFile (fun _ _ _ => True) calls (.initial ⟨true, []⟩ (0, [])) (.initial oneFile (0, [])) →
    Refines oneFile (.initial ⟨true, []⟩ (0, [])) (.initial oneFile (0, [])) calls := by
  intro h
  obtain ⟨hregular, hopen⟩ := oneFile_opens .rdonly true false false (.inr rfl)
  have hrun := h [.openat ['f', ':'] .rdonly true false false false] ⟨hregular, fun _ _ _ _ => ⟨trivial, fun _ _ _ => trivial⟩⟩
  cases hrun with
  | call hr hmeets hrep _ =>
    have hcame := hr.unique hopen
    simp only [Prod.mk.injEq] at hcame
    obtain ⟨rfl, -, rfl⟩ := hcame
    obtain ⟨f, hf⟩ := View.Opens.descs hmeets
    have hentry : entryFor [some (.on 1 [] 1 false false true)] 3 = some (.on 1 [] 1 false false true) := rfl
    obtain ⟨d, hd, hheld⟩ := hrep.used hentry
    obtain rfl := Option.some.inj (hf.symm.trans hd)
    cases hheld.readable

end Aegir.Posix
