/-
  Lines that keep their order (trinket, `bidi.cc`).
-/
import Aegir.Trinket.Bidi

namespace Aegir.Trinket

open BidiClass

def reorderingClasses : List BidiClass := [R, AL, AN, LRE, RLE, LRO, RLO, PDF, LRI, RLI, FSI, PDI]

/-- What is left after the steps: at first, after W1, after W6 and after W7. -/
def calm : List BidiClass := [L, EN, ES, ET, CS, B, S, WS, ON, NSM, BN]
def calmW1 : List BidiClass := [L, EN, ES, ET, CS, B, S, WS, ON]
def calmW6 : List BidiClass := [L, EN, B, S, WS, ON]
def calmW7 : List BidiClass := [L, B, S, WS, ON]

variable {types st : List BidiClass} {c : BidiClass}

theorem mem_calm_iff : c ∈ calm ↔ c ∉ reorderingClasses := by
  cases c <;> decide

/-! ## Explicit levels -/

theorem firstStrong_calm (h : ∀ c ∈ types, c ∈ calm) : (firstStrong 0 types).getD 0 = 0 := by
  induction types with
  | nil => rfl
  | cons c types ih =>
    have hc := h c List.mem_cons_self
    have hrest := ih fun c' hc' => h c' (List.mem_cons_of_mem _ hc')
    unfold firstStrong
    cases c <;> first | exact absurd hc (by decide) | exact hrest | rfl

theorem step_calm (first : Option ℕ) (hc : c ∈ calm) :
    (Explicit.start 0).step 0 first c = ((0, c), Explicit.start 0) := by
  cases c <;> first | exact absurd hc (by decide) | rfl

theorem explicitFrom_calm (pdi : ℕ → Option ℕ) (i : ℕ) (h : ∀ c ∈ types, c ∈ calm) :
    explicitFrom 0 pdi i (Explicit.start 0) types = types.map fun c => (0, c) := by
  induction types generalizing i with
  | nil => rfl
  | cons c types ih =>
    rw [explicitFrom, step_calm _ (h c List.mem_cons_self)]
    dsimp only
    rw [ih (i + 1) fun c' hc' => h c' (List.mem_cons_of_mem _ hc'), List.map_cons]

theorem levelRunsFrom_level {levels : ℕ → ℕ} (hlevels : ∀ i, levels i = 0) {k : ℕ} {run : LevelRun} (hrun : run.level = 0)
    (retained : List ℕ) : ∀ r ∈ levelRunsFrom levels k run retained, r.level = 0 := by
  induction retained generalizing k run with
  | nil =>
    intro r hr
    rw [List.mem_singleton.1 hr]
    exact hrun
  | cons i retained ih =>
    have hsame : levels i = run.level := (hlevels i).trans hrun.symm
    have hnext : ({ run with end_ := k + 1 } : LevelRun).level = 0 := hrun
    unfold levelRunsFrom
    rw [if_pos hsame]
    exact ih hnext

theorem levelRuns_level {levels : ℕ → ℕ} (hlevels : ∀ i, levels i = 0) (retained : List ℕ) :
    ∀ r ∈ levelRuns levels retained, r.level = 0 := by
  cases retained with
  | nil => exact fun _ hr => absurd hr List.not_mem_nil
  | cons i retained => exact levelRunsFrom_level hlevels (hlevels i) retained

/-! ## A sequence -/

theorem w1_calm {prev : Option BidiClass} (hprev : ∀ p ∈ prev, p ∈ calmW1)
    (h : ∀ c ∈ st, c ∈ calm ∧ c ≠ BN) : ∀ c ∈ w1From 0 prev st, c ∈ calmW1 := by
  induction st generalizing prev with
  | nil => exact fun _ hc => absurd hc List.not_mem_nil
  | cons c st ih =>
    obtain ⟨hc, hbn⟩ := h c List.mem_cons_self
    have hnew : (if c ≠ NSM then c else prev.elim (classOf 0) fun p => if isIsolateOrPdi p then ON else p) ∈ calmW1 := by
      by_cases hnsm : c = NSM
      · rw [if_neg (not_not.2 hnsm)]
        cases prev with
        | none => decide
        | some p =>
          show (if isIsolateOrPdi p then ON else p) ∈ calmW1
          split
          · decide
          · exact hprev p rfl
      · rw [if_pos hnsm]
        cases c <;> first | exact absurd rfl hnsm | exact absurd rfl hbn | exact absurd hc (by decide) | decide
    unfold w1From
    dsimp only
    refine List.forall_mem_cons.2 ⟨hnew, ih ?_ fun c' hc' => h c' (List.mem_cons_of_mem _ hc')⟩
    intro p hp
    rw [← Option.mem_some_iff.1 hp]
    exact hnew

theorem w2_calm (h : ∀ c ∈ st, c ∈ calmW1) : w2From L st = st := by
  induction st with
  | nil => rfl
  | cons c st ih =>
    have hc := h c List.mem_cons_self
    have hrest := ih fun c' hc' => h c' (List.mem_cons_of_mem _ hc')
    unfold w2From
    cases c <;> first | exact absurd hc (by decide) | exact congrArg (List.cons _) hrest

theorem w3_calm (h : ∀ c ∈ st, c ∈ calmW1) : w3 st = st := by
  unfold w3
  refine (List.map_congr_left fun c hc => ?_).trans (List.map_id st)
  have hne : c ≠ AL := by
    rintro rfl
    exact absurd (h AL hc) (by decide)
  exact if_neg hne

theorem w4From_calm {prev : BidiClass} (h : ∀ c ∈ st, c ∈ calmW1) (hprev : prev ≠ AN) :
    ∀ c ∈ w4From prev st, c ∈ calmW1 := by
  fun_induction w4From prev st with
  | case1 => exact h
  | case2 => exact h
  | case3 prev c next st c' ih =>
    have hc : c' ∈ calmW1 := by
      have hc := h c List.mem_cons_self
      unfold c'
      split_ifs with hes hen han
      · decide
      · decide
      · exact absurd han.2.1 hprev
      · exact hc
    refine List.forall_mem_cons.2 ⟨hc, ih (fun c hc => h c (List.mem_cons_of_mem _ hc)) ?_⟩
    rintro heq
    rw [heq] at hc
    exact absurd hc (by decide)

theorem w4_calm (h : ∀ c ∈ st, c ∈ calmW1) : ∀ c ∈ w4 st, c ∈ calmW1 := by
  cases st with
  | nil => exact h
  | cons c st =>
    have hc := h c List.mem_cons_self
    refine List.forall_mem_cons.2 ⟨hc, w4From_calm (fun c' hc' => h c' (List.mem_cons_of_mem _ hc')) ?_⟩
    rintro rfl
    exact absurd hc (by decide)

theorem w5_calm {prev : Option BidiClass} {run : ℕ} (h : ∀ c ∈ st, c ∈ calmW1) :
    ∀ c ∈ w5From prev run st, c ∈ calmW1 := by
  have hrun : ∀ (p : Prop) [Decidable p] (n : ℕ), ∀ c ∈ List.replicate n (if p then EN else ET), c ∈ calmW1 := by
    intro p _ n c hc
    rw [(List.mem_replicate.1 hc).2]
    split <;> decide
  induction st generalizing prev run with
  | nil => exact hrun _ run
  | cons c st ih =>
    have hrest : ∀ c' ∈ st, c' ∈ calmW1 := fun c' hc' => h c' (List.mem_cons_of_mem _ hc')
    unfold w5From
    split
    · exact ih hrest
    · rw [List.forall_mem_append, List.forall_mem_cons]
      exact ⟨hrun _ run, h c List.mem_cons_self, ih hrest⟩

theorem w6_calm (h : ∀ c ∈ st, c ∈ calmW1) : ∀ c ∈ w6 st, c ∈ calmW6 := by
  unfold w6
  rw [List.forall_mem_map]
  intro c hc
  have hmem := h c hc
  cases c <;> first | exact absurd hmem (by decide) | decide

theorem w7_calm (h : ∀ c ∈ st, c ∈ calmW6) : ∀ c ∈ w7From L st, c ∈ calmW7 := by
  induction st with
  | nil => exact fun _ hc => absurd hc List.not_mem_nil
  | cons c st ih =>
    have hc := h c List.mem_cons_self
    have hrest := ih fun c' hc' => h c' (List.mem_cons_of_mem _ hc')
    unfold w7From
    cases c <;>
      first | exact absurd hc (by decide) | exact List.forall_mem_cons.2 ⟨by decide, hrest⟩

theorem set_calm {i : ℕ} (h : ∀ c ∈ st, c ∈ calmW7) : ∀ c ∈ st.set i L, c ∈ calmW7 := by
  intro c hc
  rcases List.mem_or_eq_of_mem_set hc with hc | rfl
  · exact h c hc
  · decide

theorem setMarks_calm {base : ℕ} (h : ∀ c ∈ st, c ∈ calmW7) : ∀ c ∈ setMarks types L base st, c ∈ calmW7 := by
  unfold setMarks
  generalize ((types.drop (base + 1)).takeWhile (· = NSM)).length = n
  induction n with
  | zero => exact h
  | succ n ih =>
    rw [List.range_succ, List.foldl_append]
    exact set_calm ih

theorem bracketPair_calm (pair : ℕ × ℕ) (h : ∀ c ∈ st, c ∈ calmW7) :
    ∀ c ∈ bracketPair 0 0 types st pair, c ∈ calmW7 := by
  have hinside : ∀ s ∈ ((st.take pair.2).drop (pair.1 + 1)).filterMap strongContrib, s = 0 := by
    intro s hs
    obtain ⟨c, hc, hstrong⟩ := List.mem_filterMap.1 hs
    have hmem := h c (List.mem_of_mem_take (List.mem_of_mem_drop hc))
    revert hstrong
    cases c <;> first | exact absurd hmem (by decide) | simp [strongContrib, eq_comm]
  unfold bracketPair
  dsimp only
  split
  · exact setMarks_calm (setMarks_calm (set_calm (set_calm h)))
  · next hnone =>
    split
    · exact h
    · next hsome =>
      obtain ⟨s, hs⟩ := List.exists_mem_of_ne_nil _ hsome
      rw [hinside s hs] at hs
      exact absurd hs hnone

theorem n0_calm (bracket : ℕ → Option (ℕ × Bool)) (cps : List ℕ) (h : ∀ c ∈ st, c ∈ calmW7) :
    ∀ c ∈ n0 0 0 bracket types cps st, c ∈ calmW7 := by
  unfold n0
  generalize (pairsFrom bracket 0 [] [] (st.zip cps)).mergeSort _ = pairs
  induction pairs generalizing st with
  | nil => exact h
  | cons pair pairs ih => exact ih (bracketPair_calm pair h)

theorem neutrals_calm {run : ℕ} (h : ∀ c ∈ st, c ∈ calmW7) : ∀ c ∈ neutralsFrom 0 0 0 run st, c = L := by
  have hrun : ∀ n, ∀ c ∈ List.replicate n (neutralClass 0 0 0), c = L := fun n c hc => (List.mem_replicate.1 hc).2
  induction st generalizing run with
  | nil => exact hrun run
  | cons c st ih =>
    have hc := h c List.mem_cons_self
    have hrest := fun run => @ih run fun c' hc' => h c' (List.mem_cons_of_mem _ hc')
    unfold neutralsFrom
    cases c <;>
      first
      | exact absurd hc (by decide)
      | exact hrest (run + 1)
      | exact List.forall_mem_append.2 ⟨hrun run, List.forall_mem_cons.2 ⟨rfl, hrest 0⟩⟩

theorem resolveSequence_calm (bracket : ℕ → Option (ℕ × Bool)) (cps : List ℕ) (h : ∀ c ∈ st, c ∈ calm ∧ c ≠ BN) :
    ∀ c ∈ resolveSequence 0 0 0 bracket types cps st, c = L := by
  have h₁ : ∀ c ∈ w1From 0 none st, c ∈ calmW1 := w1_calm (fun _ hp => by cases hp) h
  unfold resolveSequence
  dsimp only
  rw [show classOf 0 = L from rfl, w2_calm h₁, w3_calm h₁]
  exact neutrals_calm (n0_calm bracket cps (w7_calm (w6_calm (w5_calm (w4_calm h₁)))))

/-! ## A paragraph -/

theorem nth_mem {α : Type} {l : List α} {d : α} {i : ℕ} : nth l d i ∈ l ∨ nth l d i = d := by
  unfold nth
  rw [List.getD_eq_getElem?_getD]
  cases h : l[i]? with
  | none => exact .inr rfl
  | some a => exact .inl (List.mem_of_getElem? h)

theorem nth_map {α β : Type} (f : α → β) (l : List α) (d : α) (i : ℕ) : nth (l.map f) (f d) i = f (nth l d i) := by
  unfold nth
  rw [List.getD_eq_getElem?_getD, List.getD_eq_getElem?_getD, List.getElem?_map]
  cases l[i]? <;> rfl

def retained (t : Tables) (text : List ℕ) : List ℕ :=
  (List.range text.length).filter fun i => !isRemoved (nth (text.map t.bidiClass) ON i)

theorem resetBefore_calm {classes : ℕ → BidiClass} {levels : ℕ → ℕ} (h : levels = fun _ => 0) (before : List ℕ) :
    resetBefore classes 0 before levels = fun _ => 0 := by
  induction before generalizing levels with
  | nil => exact h
  | cons p before ih =>
    unfold resetBefore
    split
    · refine ih ?_
      rw [h]
      exact Function.update_eq_self p _
    · exact h

theorem separators_calm {classes : ℕ → BidiClass} {levels : ℕ → ℕ} (h : levels = fun _ => 0) (before l : List ℕ) :
    separatorsFrom classes 0 before l levels = fun _ => 0 := by
  induction l generalizing before levels with
  | nil => exact resetBefore_calm h before
  | cons i l ih =>
    unfold separatorsFrom
    refine ih ?_ (i :: before)
    split
    · refine resetBefore_calm ?_ before
      rw [h]
      exact Function.update_eq_self i _
    · exact h

theorem reorder_calm (l : List ℕ) : reorder (fun _ => 0) l = l := by
  have hodd : (l.map fun _ => 0).filter (· % 2 ≠ 0) = [] := by
    rw [List.filter_eq_nil_iff]
    simp
  have hmax : (l.map fun _ => 0).foldl max 0 = 0 := by
    clear hodd
    induction l with
    | nil => rfl
    | cons _ l ih => exact ih
  unfold reorder
  dsimp only
  rw [hodd, hmax]
  rfl

section
variable {t : Tables} {text : List ℕ}

theorem resolveFrom_calm (h : ∀ cp ∈ text, t.bidiClass cp ∈ calm) {resolved : ℕ → BidiClass}
    (hresolved : ∀ i, resolved i = nth (text.map t.bidiClass) ON i) {runs : List LevelRun} (hruns : ∀ r ∈ runs, r.level = 0)
    (successor : ℕ → Option ℕ) (start : ℕ) :
    resolveFrom t text (text.map t.bidiClass) (fun _ => 0) resolved 0 (retained t text) runs successor (fun _ => 0) start =
      fun _ => 0 := by
  have hlevel : ∀ r, (nth runs ⟨0, 0, 0⟩ r).level = 0 := by
    intro r
    rcases nth_mem (l := runs) (d := ⟨0, 0, 0⟩) (i := r) with hmem | hdef
    · exact hruns _ hmem
    · rw [hdef]
  unfold resolveFrom
  dsimp only
  rw [hlevel, ite_self, ite_self, ite_self]
  generalize hseq : ((runsFrom successor runs.length start).flatMap fun r =>
    ((retained t text).take (nth runs ⟨0, 0, 0⟩ r).end_).drop (nth runs ⟨0, 0, 0⟩ r).begin_) = seq
  have hin : ∀ i ∈ seq, i ∈ retained t text := by
    intro i hi
    rw [← hseq] at hi
    obtain ⟨r, -, hr⟩ := List.mem_flatMap.1 hi
    exact List.mem_of_mem_take (List.mem_of_mem_drop hr)
  have hst : ∀ c ∈ seq.map resolved, c ∈ calm ∧ c ≠ BN := by
    rw [List.forall_mem_map]
    intro i hi
    obtain ⟨hlt, hleft⟩ := List.mem_filter.1 (hin i hi)
    rw [hresolved]
    constructor
    · rcases nth_mem (l := text.map t.bidiClass) (d := ON) (i := i) with hmem | hdef
      · obtain ⟨cp, hcp, heq⟩ := List.mem_map.1 hmem
        rw [← heq]
        exact h cp hcp
      · rw [hdef]
        decide
    · intro hbn
      rw [hbn] at hleft
      exact absurd hleft (by decide)
  have hall : ∀ c ∈ resolveSequence 0 0 0 t.bracket (seq.map (nth (text.map t.bidiClass) ON)) (seq.map (nth text 0))
      (seq.map resolved), c = L := resolveSequence_calm t.bracket _ hst
  rw [show higherParity 0 0 = 0 from rfl]
  generalize resolveSequence 0 0 0 t.bracket _ _ _ = st at hall
  have hzip : ∀ x ∈ seq.zip st, x.2 = L := fun x hx => hall x.2 (List.of_mem_zip hx).2
  generalize seq.zip st = pairs at hzip
  induction pairs with
  | nil => rfl
  | cons x pairs ih =>
    rw [List.foldl_cons, hzip x List.mem_cons_self]
    have hkeep : Function.update (fun _ : ℕ => 0) x.1 (implicitLevel 0 L) = fun _ => 0 := Function.update_eq_self x.1 _
    rw [hkeep]
    exact ih fun y hy => hzip y (List.mem_cons_of_mem _ hy)

theorem analyzeParagraph_calm (h : ∀ cp ∈ text, t.bidiClass cp ∈ calm) :
    (analyzeParagraph t text none).order = retained t text ∧
      ∀ i, nth (analyzeParagraph t text none).levels 0 i = 0 := by
  have htypes : ∀ c ∈ text.map t.bidiClass, c ∈ calm := List.forall_mem_map.2 h
  have hfound := explicitFrom_calm (pdiMatch (text.map t.bidiClass)) 0 htypes
  have hbase : ∀ i, (nth ((text.map t.bidiClass).map fun c => ((0 : ℕ), c)) (0, ON) i) =
      (0, nth (text.map t.bidiClass) ON i) := fun i => nth_map (fun c => ((0 : ℕ), c)) _ ON i
  unfold analyzeParagraph
  dsimp only [Option.elim_none]
  rw [firstStrong_calm htypes, hfound]
  simp only [hbase]
  rw [← retained]
  have hfold : ∀ (starts : List ℕ) (runs : List LevelRun) (successor : ℕ → Option ℕ), (∀ r ∈ runs, r.level = 0) →
      starts.foldl (resolveFrom t text (text.map t.bidiClass) (fun _ => 0) (fun i => nth (text.map t.bidiClass) ON i) 0
        (retained t text) runs successor) (fun _ => 0) = fun _ => 0 := by
    intro starts runs successor hruns
    induction starts with
    | nil => rfl
    | cons start starts ih =>
      rw [List.foldl_cons, resolveFrom_calm h (fun _ => rfl) hruns]
      exact ih
  rw [hfold _ _ _ (levelRuns_level (fun _ => rfl) _), separators_calm rfl]
  refine ⟨reorder_calm _, fun i => ?_⟩
  rcases nth_mem (l := (List.range text.length).map fun _ => 0 % 2 ^ 8) (d := 0) (i := i) with hmem | hdef
  · obtain ⟨-, -, heq⟩ := List.mem_map.1 hmem
    exact heq.symm
  · exact hdef

end

end Aegir.Trinket
