/-
  What a boot shell reports, over every run of its loop.
-/
import Aegir.Script.Shell

namespace Aegir.Script

open Relation

/-! ## What the log tells -/

namespace Event

def isAbort : Event → Bool
  | .aborted _ => true
  | _ => false

def ends : Event → Bool
  | .framesEmpty | .endCli => true
  | _ => false

def isWord : Event → Bool
  | .word _ => true
  | _ => false

end Event

/-- The outcome is reported once: nothing is sent before the command files end, then one word at
    once, nonzero exactly when the frames aborted until then are a failure, and none after it. -/
inductive Reports (failed : List Event → Prop) : List Event → Prop where
  | running {log : List Event} (haborts : ∀ e ∈ log, e.isAbort) : Reports failed log
  | ended {aborts after : List Event} {e : Event} {w : ℕ} (haborts : ∀ e ∈ aborts, e.isAbort)
      (hends : e.ends) (hword : w ≠ 0 ↔ failed aborts) (hafter : ∀ e ∈ after, ¬ e.isWord) :
      Reports failed (aborts ++ e :: .word w :: after)

def bootAborts (log : List Event) : List Event := log.takeWhile Event.isAbort

def Ended (log : List Event) : Prop := ∃ e ∈ log, e.ends

def AnyFailed (forced : Bool) (aborts : List Event) : Prop := forced ∨ ∃ cause, .aborted cause ∈ aborts

def LineFailed (forced : Bool) (aborts : List Event) : Prop := forced ∨ .aborted .line ∈ aborts

section
variable {p q : List Event → Prop} {log aborts after : List Event} {e : Event}

theorem Event.not_ends_of_isAbort (h : e.isAbort) : ¬ e.ends := by
  cases e <;> simp_all [isAbort, ends]

theorem Event.not_isAbort_of_ends (h : e.ends) : ¬ e.isAbort := fun ha => not_ends_of_isAbort ha h

theorem bootAborts_append (haborts : ∀ e ∈ aborts, e.isAbort) (hends : e.ends) :
    bootAborts (aborts ++ e :: after) = aborts := by
  rw [bootAborts, List.takeWhile_append_of_pos haborts,
    List.takeWhile_cons_of_neg (Event.not_isAbort_of_ends hends), List.append_nil]

theorem Reports.word (h : Reports p log) (hend : Ended log) :
    ∃ e w after, log = bootAborts log ++ e :: .word w :: after ∧ e.ends ∧
      (w ≠ 0 ↔ p (bootAborts log)) ∧ ∀ e ∈ after, ¬ e.isWord := by
  cases h with
  | running haborts =>
    obtain ⟨e, he, hends⟩ := hend
    exact absurd hends (Event.not_ends_of_isAbort (haborts e he))
  | @ended aborts after e w haborts hends hword hafter =>
    rw [bootAborts_append haborts hends]
    exact ⟨e, w, after, rfl, hends, hword, hafter⟩

theorem bootAborts_isAbort : ∀ e ∈ bootAborts log, e.isAbort := fun _ he => List.mem_takeWhile_imp he

theorem Reports.iff_of_ended (h : Reports p log) (hend : Ended log) :
    Reports q log ↔ (p (bootAborts log) ↔ q (bootAborts log)) := by
  obtain ⟨e, w, after, hlog, hends, hp, hafter⟩ := h.word hend
  constructor
  · intro hr
    obtain ⟨e', w', after', hlog', -, hq, -⟩ := hr.word hend
    have hcons : e :: .word w :: after = e' :: .word w' :: after' := List.append_cancel_left (hlog.symm.trans hlog')
    obtain ⟨-, hword, -⟩ : e = e' ∧ Event.word w = .word w' ∧ after = after' := by simpa using hcons
    rw [← hp, ← hq, Event.word.inj hword]
  · intro hpq
    rw [hlog]
    exact .ended bootAborts_isAbort hends (hp.trans hpq) hafter

end

/-! ## What a turn can do -/

/-- The end of the command files, and the word the shell sends for it. -/
def Boot.done (b : Boot) (e : Event) : Boot :=
  let word := if b.booting && b.bootStatus then [.word (if b.bootFailed || b.bootForcedFail then 10 else 0)] else []
  { b with booting := false, log := b.log ++ e :: word }

inductive Act : Boot → Boot → Prop where
  | line (b : Boot) : Act b { b with bootFailed := b.bootFailed || b.booting, log := b.log ++ [.aborted .line] }
  | command (b : Boot) : Act b { b with log := b.log ++ [.aborted .command] }
  | ends (b : Boot) (e : Event) (h : e.ends) : Act b (b.done e)

namespace Shell

variable (s : Shell) (t : Turn)

@[simp] theorem withStatus_toBoot (status : ℕ) : (s.withStatus status).toBoot = s.toBoot := rfl

theorem bootDone_toBoot (e : Event) : (s.note e).bootDone.toBoot = s.toBoot.done e := by
  obtain ⟨⟨bootStatus, booting, bootFailed, bootForcedFail, log⟩, -⟩ := s
  cases booting <;> cases bootStatus <;> simp [bootDone, note, Boot.done]

@[simp] theorem moved_toBoot (f : Option Frames) (status : ℕ) : (s.moved f status).toBoot = s.toBoot := by
  cases f <;> rfl

theorem runCommand_acts (c : Command) : ReflTransGen Act s.toBoot (s.runCommand c).toBoot := by
  cases c with
  | endCli =>
    have htold : (s.runCommand .endCli).toBoot = s.toBoot.done .endCli := s.bootDone_toBoot .endCli
    exact htold ▸ .single (.ends _ _ rfl)
  | done status => exact .refl
  | eval args =>
    have htold : (s.commandEval args).toBoot = s.toBoot := by unfold commandEval; split <;> rfl
    exact htold ▸ .refl
  | execute target =>
    have htold : (s.commandExecute target).toBoot = s.toBoot := by
      unfold commandExecute
      split
      · rfl
      · split <;> rfl
    exact htold ▸ .refl
  | quit code =>
    have htold : (s.commandQuit code).toBoot = s.toBoot := by
      unfold commandQuit
      split
      · rfl
      · split <;> rfl
    exact htold ▸ .refl
  | failAt level =>
    have htold : (s.commandFailat level).toBoot = s.toBoot := by
      unfold commandFailat
      split
      · rfl
      · split <;> rfl
    exact htold ▸ .refl
  | program started =>
    have htold : (s.runCommand (.program started)).toBoot = s.toBoot := by cases started <;> rfl
    exact htold ▸ .refl

theorem runLine_acts (line : Text) : ReflTransGen Act s.toBoot (s.runLine line t).toBoot := by
  unfold runLine
  dsimp only
  split
  · have htold : ((s.withStatus 0).commandLab (restOf line)).toBoot = s.toBoot := by unfold commandLab; split <;> rfl
    exact htold ▸ .refl
  · have htold : ((s.withStatus 0).commandSkip (restOf line)).toBoot = s.toBoot := by
      unfold commandSkip; split <;> simp
    exact htold ▸ .refl
  · have htold : ((s.withStatus 0).commandIf t.condition).toBoot = s.toBoot := by
      unfold commandIf
      split
      · rfl
      · split <;> simp
    exact htold ▸ .refl
  · have htold : ((s.withStatus 0).commandElse).toBoot = s.toBoot := by simp [commandElse]
    exact htold ▸ .refl
  · exact .refl
  · exact (s.withStatus 0).runCommand_acts t.command

theorem attention_toBoot : (s.attention t).toBoot = s.toBoot := by
  unfold attention
  split
  · rfl
  · split <;> rfl

theorem takeStatus_acts : ReflTransGen Act s.toBoot (s.takeStatus t).toBoot := by
  unfold takeStatus
  split
  · dsimp only
    split
    · exact .single (.command _)
    · exact .refl
  · exact .refl

theorem lineDone_acts : ReflTransGen Act s.toBoot s.lineDone.toBoot := by
  unfold lineDone
  split
  · exact .refl
  · dsimp only
    split
    · refine .single ?_
      have hact := Act.line s.toBoot
      cases hb : s.booting <;> simpa [abortFor, note, hb] using hact
    · exact .refl

theorem prompt_acts : ReflTransGen Act s.toBoot (s.prompt t).toBoot := by
  have hends : ReflTransGen Act s.toBoot (s.note .framesEmpty).bootDone.toBoot :=
    s.bootDone_toBoot .framesEmpty ▸ .single (.ends _ _ rfl)
  unfold prompt
  dsimp only
  split
  · exact hends
  · exact hends.trans (runLine_acts _ t _)

/-- **A turn** aborts frames and ends the command files, and does nothing else to the outcome. -/
theorem step_acts : ReflTransGen Act s.toBoot (s.step t).toBoot := by
  unfold step
  split
  · exact .refl
  · dsimp only
    split
    · exact s.attention_toBoot t ▸ .refl
    · have htake : ReflTransGen Act s.toBoot ((s.attention t).takeStatus t).toBoot :=
        s.attention_toBoot t ▸ (s.attention t).takeStatus_acts t
      split
      · exact htake
      · have hframes : ∀ f, ReflTransGen Act s.toBoot { (s.attention t).takeStatus t with frames := f }.toBoot :=
          fun _ => htake
        split
        · exact ((hframes _).trans (runLine_acts _ t _)).trans (lineDone_acts _)
        · exact (hframes _).trans (prompt_acts _ t)

theorem run_acts (turns : List Turn) : ReflTransGen Act s.toBoot (s.run turns).toBoot := by
  induction turns generalizing s with
  | nil => exact .refl
  | cons t turns ih => exact (s.step_acts t).trans (ih (s.step t))

end Shell

/-! ## The outcome -/

section
variable {b b' : Boot}

theorem Act.const (h : ReflTransGen Act b b') :
    b'.bootStatus = b.bootStatus ∧ b'.bootForcedFail = b.bootForcedFail := by
  induction h with
  | refl => exact ⟨rfl, rfl⟩
  | tail _ hact ih =>
    cases hact with
    | line => exact ih
    | command => exact ih
    | ends => exact ih

/-- What a boot shell has told: nothing while the script runs, its flag up exactly when a line
    failed, and the outcome once it is over. -/
inductive Told (b : Boot) : Prop where
  | booting (hb : b.booting = true) (haborts : ∀ e ∈ b.log, e.isAbort)
      (hfailed : b.bootFailed = true ↔ .aborted .line ∈ b.log) : Told b
  | reported (hb : b.booting = false) (hend : Ended b.log) (h : Reports (LineFailed b.bootForcedFail) b.log) : Told b

theorem Ended.append (h : Ended b.log) (l : List Event) : Ended (b.log ++ l) := by
  obtain ⟨e, he, hends⟩ := h
  exact ⟨e, List.mem_append_left _ he, hends⟩

theorem Reports.append {p : List Event → Prop} {log l : List Event} (h : Reports p log) (hend : Ended log)
    (hl : ∀ e ∈ l, ¬ e.isWord) : Reports p (log ++ l) := by
  obtain ⟨e, w, after, hlog, hends, hword, hafter⟩ := h.word hend
  have hrest : log ++ l = bootAborts log ++ e :: .word w :: (after ++ l) := by
    rw [hlog, bootAborts_append bootAborts_isAbort hends, List.append_assoc]
    rfl
  rw [hrest]
  refine .ended bootAborts_isAbort hends hword fun e he => ?_
  rcases List.mem_append.1 he with he | he
  · exact hafter e he
  · exact hl e he

theorem Told.act (hstatus : b.bootStatus = true) (h : Told b) (hact : Act b b') : Told b' := by
  cases h with
  | booting hb haborts hfailed =>
    cases hact with
    | line =>
      refine .booting hb (fun e he => ?_) ?_
      · rcases List.mem_append.1 he with he | he
        · exact haborts e he
        · rw [List.mem_singleton.1 he]
          rfl
      · simp [hb]
    | command =>
      refine .booting hb (fun e he => ?_) ?_
      · rcases List.mem_append.1 he with he | he
        · exact haborts e he
        · rw [List.mem_singleton.1 he]
          rfl
      · simpa using hfailed
    | ends e hends =>
      refine .reported rfl ⟨e, by simp [Boot.done], hends⟩ ?_
      have hlog : (b.done e).log = b.log ++ e :: .word (if b.bootFailed || b.bootForcedFail then 10 else 0) :: [] := by
        simp [Boot.done, hb, hstatus]
      rw [hlog]
      refine .ended haborts hends ?_ (by simp)
      show _ ↔ b.bootForcedFail = true ∨ _
      rw [← hfailed]
      cases b.bootFailed <;> cases b.bootForcedFail <;> simp
  | reported hb hend h =>
    cases hact with
    | line => exact .reported hb (hend.append _) (h.append hend (by simp [Event.isWord]))
    | command => exact .reported hb (hend.append _) (h.append hend (by simp [Event.isWord]))
    | ends e hends =>
      have hlog : (b.done e).log = b.log ++ [e] := by simp [Boot.done, hb]
      refine .reported rfl ?_ ?_
      · rw [hlog]
        exact hend.append _
      · rw [hlog]
        refine h.append hend fun e' he' hword => ?_
        rw [List.mem_singleton.1 he'] at hword
        cases e <;> simp_all [Event.ends, Event.isWord]

theorem Told.acts (hstatus : b.bootStatus = true) (h : Told b) (hacts : ReflTransGen Act b b') : Told b' := by
  induction hacts with
  | refl => exact h
  | tail hacts hact ih => exact ih.act ((Act.const hacts).1.trans hstatus) hact

theorem silent_acts (hb : b.booting = false) (hsilent : ∀ e ∈ b.log, ¬ e.isWord) (hacts : ReflTransGen Act b b') :
    b'.booting = false ∧ ∀ e ∈ b'.log, ¬ e.isWord := by
  induction hacts with
  | refl => exact ⟨hb, hsilent⟩
  | tail _ hact ih =>
    obtain ⟨hb, hsilent⟩ := ih
    cases hact with
    | line => simpa [hb, or_imp, forall_and, Event.isWord] using hsilent
    | command => simpa [hb, or_imp, forall_and, Event.isWord] using hsilent
    | ends e hends =>
      have hword : ¬ e.isWord := by cases e <;> simp_all [Event.ends, Event.isWord]
      simpa [Boot.done, hb, or_imp, forall_and, hword] using hsilent

end

/-- The boot file opens, and its `.KEY` line binds. -/
def Starts (file : Option File) : Prop := ∃ f lines, file = some f ∧ f.lines = some lines

/-- A boot session's shell after some turns of its loop. -/
def bootRun (path : Text) (file : Option File) (bootargs : Option Text) (turns : List Turn) : Shell :=
  (Shell.fresh.runBootScript path file bootargs).run turns

section
variable (path : Text) (file : Option File) (bootargs : Option Text) (turns : List Turn)

theorem runBootScript_started (h : Starts file) :
    (Shell.fresh.runBootScript path file bootargs).toBoot =
      { bootStatus := true, booting := true, bootFailed := false, bootForcedFail := Shell.forcesFail bootargs, log := [] } := by
  obtain ⟨f, lines, rfl, hlines⟩ := h
  simp [Shell.runBootScript, startScript, hlines, Shell.fresh, Frames.push, Frames.initial]

theorem runBootScript_not_started (h : ¬ Starts file) :
    (Shell.fresh.runBootScript path file bootargs).toBoot =
      { bootStatus := true, booting := false, bootFailed := false, bootForcedFail := Shell.forcesFail bootargs, log := [] } := by
  cases file with
  | none => simp [Shell.runBootScript, startScript, Shell.fresh]
  | some f =>
    have hlines : f.lines = none := by
      by_contra hne
      obtain ⟨lines, hlines⟩ := Option.ne_none_iff_exists'.1 hne
      exact h ⟨f, lines, rfl, hlines⟩
    simp [Shell.runBootScript, startScript, hlines, Shell.fresh]

theorem bootRun_told (h : Starts file) :
    Told (bootRun path file bootargs turns).toBoot ∧
      (bootRun path file bootargs turns).bootForcedFail = Shell.forcesFail bootargs := by
  have hacts := (Shell.fresh.runBootScript path file bootargs).run_acts turns
  rw [runBootScript_started path file bootargs h] at hacts
  refine ⟨Told.acts rfl (.booting rfl ?_ ?_) hacts, (Act.const hacts).2⟩
  · simp
  · simp

theorem bootRun_silent (h : ¬ Starts file) : ∀ e ∈ (bootRun path file bootargs turns).log, ¬ e.isWord := by
  have hacts := (Shell.fresh.runBootScript path file bootargs).run_acts turns
  rw [runBootScript_not_started path file bootargs h] at hacts
  exact (silent_acts rfl (by simp) hacts).2

theorem isAbort_of_not_ended {log : List Event} (h : ∀ e ∈ log, ¬ e.isWord) (hend : ¬ Ended log) :
    ∀ e ∈ log, e.isAbort := by
  intro e he
  cases e with
  | aborted cause => rfl
  | framesEmpty => exact absurd ⟨_, he, rfl⟩ hend
  | endCli => exact absurd ⟨_, he, rfl⟩ hend
  | word status => exact absurd rfl (h _ he)

/-- **The boot report**: in every run of the loop, the shell reports the outcome of its boot
    script once and truly, if and only if the script starts and a failing program is not the
    only failure. -/
theorem boot_report :
    Reports (AnyFailed (Shell.forcesFail bootargs)) (bootRun path file bootargs turns).log ↔
      (Ended (bootRun path file bootargs turns).log → Starts file ∧
        (.aborted .command ∈ bootAborts (bootRun path file bootargs turns).log →
          LineFailed (Shell.forcesFail bootargs) (bootAborts (bootRun path file bootargs turns).log))) := by
  by_cases hstarts : Starts file
  · obtain ⟨htold, hforced⟩ := bootRun_told path file bootargs turns hstarts
    cases htold with
    | booting hb haborts hfailed =>
      refine ⟨fun _ ⟨e, he, hends⟩ => absurd hends (Event.not_ends_of_isAbort (haborts e he)), fun _ => .running haborts⟩
    | reported hb hend h =>
      rw [hforced] at h
      rw [h.iff_of_ended hend]
      constructor
      · rintro hiff -
        exact ⟨hstarts, fun hcommand => hiff.2 (.inr ⟨_, hcommand⟩)⟩
      · intro hline
        constructor
        · rintro (hf | hl)
          · exact .inl hf
          · exact .inr ⟨_, hl⟩
        · rintro (hf | ⟨cause, hc⟩)
          · exact .inl hf
          · cases cause with
            | line => exact .inr hc
            | command => exact (hline hend).2 hc
  · have hsilent := bootRun_silent path file bootargs turns hstarts
    by_cases hend : Ended (bootRun path file bootargs turns).log
    · constructor
      · intro h
        obtain ⟨e, w, after, hlog, -⟩ := h.word hend
        refine absurd rfl (hsilent (.word w) ?_)
        rw [hlog]
        simp
      · intro h
        exact absurd (h hend).1 hstarts
    · exact ⟨fun _ h => absurd h hend, fun _ => .running (isAbort_of_not_ended hsilent hend)⟩

end

/-- A boot script of one line, whose program ends with 20: the outcome is 0. -/
theorem boot_report_fails :
    ¬ Reports (AnyFailed (Shell.forcesFail none))
      (bootRun ['S'] (some ⟨['w', 'o', 'r', 'k'], true⟩) none
        [⟨false, false, none, none, .program true, []⟩, ⟨false, false, some 20, none, .done 0, []⟩]).log := by
  have hlog : (bootRun ['S'] (some ⟨['w', 'o', 'r', 'k'], true⟩) none
      [⟨false, false, none, none, .program true, []⟩, ⟨false, false, some 20, none, .done 0, []⟩]).log =
      [.aborted .command, .framesEmpty, .word 0] := by decide
  rw [hlog]
  intro h
  obtain ⟨e, w, after, hsplit, -, hword, -⟩ := h.word ⟨.framesEmpty, by simp, rfl⟩
  have haborts : bootAborts [.aborted .command, .framesEmpty, .word 0] = [.aborted .command] := rfl
  rw [haborts] at hsplit hword
  have hw : w ≠ 0 := hword.2 (.inr ⟨.command, by simp⟩)
  simp_all

end Aegir.Script
