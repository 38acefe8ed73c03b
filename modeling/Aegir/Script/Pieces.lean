/-
  Substitution in two passes: the pieces of a line, and the words they make.
-/
import Aegir.Lib.Words
import Aegir.Script.Substitute

namespace Aegir.Script

open Aegir.Lib (Atom)

/-! ## Pieces -/

/-- A piece of a line, with what it has of a reference. -/
inductive Piece (ρ : Type) where
  | quote
  | lit (c : Char)
  | ref (r : ρ)

/-- A reference: its text in the line, and its name. -/
structure Ref where
  spelling : Text
  name : Text

/-- `$name`, `{name}` and `${name}`. -/
def Ref.Spelled (r : Ref) : Prop :=
  (r.spelling = '$' :: r.name ∧ r.name ≠ [] ∧ ∀ c ∈ r.name, isNameChar c) ∨
    ('}' ∉ r.name ∧ (r.spelling = '{' :: r.name ++ ['}'] ∨ r.spelling = '$' :: '{' :: r.name ++ ['}']))

namespace Piece

variable {ρ σ : Type}

def map (f : ρ → σ) : Piece ρ → Piece σ
  | quote => quote
  | lit c => lit c
  | ref r => ref (f r)

def after (q : Bool) : Piece ρ → Bool
  | quote => !q
  | _ => q

def spelling : Piece Ref → Text
  | quote => ['"']
  | lit c => [c]
  | ref r => r.spelling

/-- What a piece comes to: a quote starts a word, and a blank outside quotes ends it. -/
def atoms (q : Bool) : Piece Text → List (Atom Char)
  | quote => [.glue []]
  | lit c => [if !q && isBlank c then .sep else .glue [c]]
  | ref value => if q then [.glue value] else value.map fun c => if isBlank c then .sep else .glue [c]

@[simp] theorem after_map (f : ρ → σ) (q : Bool) (p : Piece ρ) : (p.map f).after q = p.after q := by
  cases p <;> rfl

end Piece

def inQuotes {ρ : Type} (q : Bool) (ps : List (Piece ρ)) : Bool := ps.foldl Piece.after q

@[simp] theorem inQuotes_map {ρ σ : Type} (f : ρ → σ) (q : Bool) (ps : List (Piece ρ)) :
    inQuotes q (ps.map (Piece.map f)) = inQuotes q ps := by
  simp only [inQuotes, List.foldl_map, Piece.after_map]

/-- The pieces of what is left of a line, of which the reference before takes the first `skip`. -/
def piecesFrom : Text → ℕ → Except String (List (Piece Ref))
  | [], _ => .ok []
  | _ :: rest, skip + 1 => piecesFrom rest skip
  | c :: rest, 0 =>
    if c = '"' then (piecesFrom rest 0).map (.quote :: ·)
    else if c ≠ '$' ∧ c ≠ '{' then (piecesFrom rest 0).map (.lit c :: ·)
    else match reference c rest with
    | .error e => .error e
    | .ok none => (piecesFrom rest 0).map (.lit '$' :: ·)
    | .ok (some (name, skip)) => (piecesFrom rest skip).map (.ref ⟨c :: rest.take skip, name⟩ :: ·)

def atomsFrom : Bool → List (Piece Text) → List (Atom Char)
  | _, [] => []
  | q, p :: ps => p.atoms q ++ atomsFrom (p.after q) ps

theorem atomsFrom_append (q : Bool) (ps ps' : List (Piece Text)) :
    atomsFrom q (ps ++ ps') = atomsFrom q ps ++ atomsFrom (inQuotes q ps) ps' := by
  induction ps generalizing q with
  | nil => rfl
  | cons p ps ih => simp only [List.cons_append, atomsFrom, ih, inQuotes, List.foldl_cons, List.append_assoc]

/-! ## The line is the pieces' text -/

theorem map_ok {α β ε : Type} {f : α → β} {x : Except ε α} {b : β} (h : x.map f = .ok b) :
    ∃ a, x = .ok a ∧ f a = b := by
  cases x with
  | error e => cases h
  | ok a => exact ⟨a, rfl, Except.ok.inj h⟩

theorem braced_ok {rest name : Text} (h : braced rest = .ok name) :
    '}' ∉ name ∧ ∃ rest', rest = name ++ '}' :: rest' := by
  unfold braced at h
  split_ifs at h with hmem
  cases h
  obtain ⟨before, after, rfl, hnot⟩ := List.eq_append_cons_of_mem hmem
  have hall : ∀ c ∈ before, decide (c ≠ '}') = true := fun c hc => decide_eq_true fun he => hnot (he ▸ hc)
  have htake : (before ++ '}' :: after).takeWhile (· ≠ '}') = before := by
    rw [List.takeWhile_append_of_pos hall]
    simp
  rw [htake]
  exact ⟨hnot, after, rfl⟩

theorem reference_spelled {c : Char} {rest name : Text} {skip : ℕ} (hc : c = '$' ∨ c = '{')
    (h : reference c rest = .ok (some (name, skip))) : Ref.Spelled ⟨c :: rest.take skip, name⟩ := by
  unfold reference at h
  split_ifs at h with hbrace hsecond
  · obtain ⟨name', hb, he⟩ := map_ok h
    cases he
    obtain ⟨hmem, rest', rfl⟩ := braced_ok hb
    refine Or.inr ⟨hmem, Or.inl ?_⟩
    rw [hbrace]
    simp [List.take_append, List.take_of_length_le (Nat.le_succ _)]
  · obtain ⟨name', hb, he⟩ := map_ok h
    cases he
    obtain ⟨hmem, rest', hrest⟩ := braced_ok hb
    refine Or.inr ⟨hmem, Or.inr ?_⟩
    cases rest with
    | nil => cases hsecond
    | cons d rest =>
      obtain rfl : d = '{' := Option.some.inj hsecond
      rw [List.tail_cons] at hrest
      rw [hc.resolve_right hbrace, hrest]
      simp [List.take_append, List.take_of_length_le (Nat.le_succ _)]
  · dsimp only at h
    split_ifs at h with hname
    · cases h
    cases h
    refine Or.inl ⟨?_, hname, fun d hd => List.mem_takeWhile_imp hd⟩
    rw [hc.resolve_right hbrace, ← List.prefix_iff_eq_take.1 (List.takeWhile_prefix _)]

theorem reference_none {c : Char} {rest : Text} (hc : c = '$' ∨ c = '{')
    (h : reference c rest = .ok none) : c = '$' := by
  refine hc.resolve_right fun hbrace => ?_
  rw [reference, if_pos hbrace] at h
  obtain ⟨_, _, he⟩ := map_ok h
  cases he

theorem piecesFrom_spelling {line : Text} {skip : ℕ} {ps : List (Piece Ref)} (h : piecesFrom line skip = .ok ps) :
    ps.flatMap Piece.spelling = line.drop skip ∧ ∀ r, .ref r ∈ ps → r.Spelled := by
  induction line generalizing skip ps with
  | nil =>
    cases h
    simp
  | cons c rest ih =>
    cases skip with
    | succ skip => exact ih h
    | zero =>
      rw [piecesFrom] at h
      split_ifs at h with hquote hlit
      · obtain ⟨ps, hps, rfl⟩ := map_ok h
        obtain ⟨hs, hr⟩ := ih hps
        refine ⟨by rw [List.flatMap_cons, hs, hquote]; rfl, fun r hmem => ?_⟩
        rcases List.mem_cons.1 hmem with heq | hmem
        · cases heq
        · exact hr r hmem
      · obtain ⟨ps, hps, rfl⟩ := map_ok h
        obtain ⟨hs, hr⟩ := ih hps
        refine ⟨by rw [List.flatMap_cons, hs]; rfl, fun r hmem => ?_⟩
        rcases List.mem_cons.1 hmem with heq | hmem
        · cases heq
        · exact hr r hmem
      · have hc : c = '$' ∨ c = '{' := by tauto
        split at h
        · cases h
        · rename_i hnone
          obtain ⟨ps, hps, rfl⟩ := map_ok h
          obtain ⟨hs, hr⟩ := ih hps
          refine ⟨by rw [List.flatMap_cons, hs, reference_none hc hnone]; rfl, fun r hmem => ?_⟩
          rcases List.mem_cons.1 hmem with heq | hmem
          · cases heq
          · exact hr r hmem
        · rename_i name skip hsome
          obtain ⟨ps, hps, rfl⟩ := map_ok h
          obtain ⟨hs, hr⟩ := ih hps
          refine ⟨?_, fun r hmem => ?_⟩
          · rw [List.flatMap_cons, hs]
            exact congrArg (c :: ·) (List.take_append_drop skip rest)
          · rcases List.mem_cons.1 hmem with heq | hmem
            · cases heq
              exact reference_spelled hc hsome
            · exact hr r hmem

/-! ## The scan makes the words of the atoms -/

namespace Scan

def pending (s : Scan) : Option Text := if s.started then some s.current else none

def Good (s : Scan) : Prop := s.started = false → s.current = []

/-- A state comes after another with the atoms between them. -/
def After (s s' : Scan) (atoms : List (Atom Char)) : Prop :=
  s'.Good ∧ ∀ as, s'.words ++ Atom.words s'.pending as = s.words ++ Atom.words s.pending (atoms ++ as)

def put (s : Scan) : Piece Text → Scan
  | .quote => s.quote
  | .lit c => s.literal c
  | .ref text => s.value text

section
variable {s s' s'' : Scan} {atoms atoms' : List (Atom Char)}

theorem After.trans (h : After s s' atoms) (h' : After s' s'' atoms') : After s s'' (atoms ++ atoms') :=
  ⟨h'.1, fun as => by rw [h'.2, h.2, List.append_assoc]⟩

theorem Good.getD_pending (h : s.Good) : s.pending.getD [] = s.current := by
  unfold pending
  cases hs : s.started with
  | false => rw [h hs]; rfl
  | true => rfl

theorem Good.after_glue (h : s.Good) {text : Text} (hw : s'.words = s.words) (hc : s'.current = s.current ++ text)
    (hs : s'.started = true) : After s s' [.glue text] := by
  refine ⟨fun hf => (by simp [hs] at hf), fun as => ?_⟩
  rw [List.singleton_append, Atom.words_glue_cons, h.getD_pending, hw, pending, if_pos hs, hc]

theorem Good.after_blank (h : s.Good) : After s s.blank [.sep] := by
  unfold blank
  split_ifs with hs
  · refine ⟨fun _ => rfl, fun as => ?_⟩
    simp [pushWord, pending, hs, Atom.words_sep]
  · refine ⟨h, fun as => ?_⟩
    simp [pending, hs, Atom.words_sep]

theorem literal_dollar (s : Scan) : s.literal '$' = s.push '$' := by simp [literal, isBlank]

theorem blank_quoted (s : Scan) : s.blank.quoted = s.quoted := by
  unfold blank
  split_ifs <;> rfl

theorem Good.after_appendUnquoted (h : s.Good) (text : Text) :
    After s (s.appendUnquoted text) (text.map fun c => if isBlank c then .sep else .glue [c]) ∧
      (s.appendUnquoted text).quoted = s.quoted := by
  induction text generalizing s with
  | nil => exact ⟨⟨h, fun _ => rfl⟩, rfl⟩
  | cons c text ih =>
    rw [appendUnquoted, List.foldl_cons, List.map_cons]
    split_ifs
    · obtain ⟨ha, hq⟩ := ih h.after_blank.1
      exact ⟨h.after_blank.trans ha, hq.trans s.blank_quoted⟩
    · have hp : After s (s.push c) [.glue [c]] := h.after_glue rfl rfl rfl
      obtain ⟨ha, hq⟩ := ih hp.1
      exact ⟨hp.trans ha, hq⟩

theorem Good.after_put (h : s.Good) (p : Piece Text) :
    After s (s.put p) (p.atoms s.quoted) ∧ (s.put p).quoted = p.after s.quoted := by
  cases p with
  | quote => exact ⟨h.after_glue rfl (by rw [List.append_nil]; rfl) rfl, rfl⟩
  | lit c =>
    simp only [put, literal, Piece.atoms]
    split_ifs
    · exact ⟨h.after_blank, s.blank_quoted⟩
    · exact ⟨h.after_glue rfl rfl rfl, rfl⟩
  | ref text =>
    simp only [put, value, Piece.atoms]
    split_ifs
    · exact ⟨h.after_glue rfl rfl rfl, rfl⟩
    · exact h.after_appendUnquoted text

theorem Good.after_pieces (h : s.Good) (ps : List (Piece Text)) :
    After s (ps.foldl put s) (atomsFrom s.quoted ps) ∧ (ps.foldl put s).quoted = inQuotes s.quoted ps := by
  induction ps generalizing s with
  | nil => exact ⟨⟨h, fun _ => rfl⟩, rfl⟩
  | cons p ps ih =>
    obtain ⟨hp, hq⟩ := h.after_put p
    obtain ⟨ha, hq'⟩ := ih hp.1
    rw [hq] at ha hq'
    exact ⟨hp.trans ha, hq'⟩

theorem Good.finish_eq (h : s.Good) : s.finish =
    if s.quoted then .error "unmatched quote" else .ok (s.words ++ Atom.words s.pending []) := by
  unfold finish
  split_ifs
  · rfl
  · have hb := h.after_blank.2 []
    unfold blank pending at *
    split_ifs with hs <;> simp [pushWord, Atom.words]

end

end Scan

theorem substituteFrom_eq (arguments : Arguments) (environment : Lookup) (line : Text) (skip : ℕ) (s : Scan) :
    substituteFrom arguments environment line skip s = (piecesFrom line skip).bind fun ps =>
      ((ps.map (Piece.map fun r => expand arguments environment r.name)).foldl Scan.put s).finish := by
  induction line generalizing skip s with
  | nil => rfl
  | cons c rest ih =>
    cases skip with
    | succ skip => exact ih skip s
    | zero =>
      rw [substituteFrom, piecesFrom]
      split_ifs
      · rw [ih]
        cases piecesFrom rest 0 <;> rfl
      · rw [ih]
        cases piecesFrom rest 0 <;> rfl
      · cases reference c rest with
        | error e => rfl
        | ok found =>
          cases found with
          | none =>
            dsimp only
            rw [ih, ← s.literal_dollar]
            cases piecesFrom rest 0 <;> rfl
          | some found =>
            dsimp only
            rw [ih]
            cases piecesFrom rest found.2 <;> rfl

theorem substituteWords_eq (line : Text) (arguments : Arguments) (environment : Lookup) :
    substituteWords line arguments environment = (piecesFrom line 0).bind fun ps =>
      if inQuotes false ps then .error "unmatched quote"
      else .ok (Atom.words none (atomsFrom false
        (ps.map (Piece.map fun r => expand arguments environment r.name)))) := by
  rw [substituteWords, substituteFrom_eq]
  congr 1
  ext1 ps
  have hgood : Scan.Good ⟨[], [], false, false⟩ := fun _ => rfl
  obtain ⟨ha, hq⟩ := hgood.after_pieces (ps.map (Piece.map fun r => expand arguments environment r.name))
  have hw := ha.2 []
  rw [ha.1.finish_eq, hq, inQuotes_map, hw, List.append_nil]
  rfl

end Aegir.Script
