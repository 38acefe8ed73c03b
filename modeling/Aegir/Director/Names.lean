/-
  The names a manifest value lists.
-/
import Mathlib

namespace Aegir.Director

abbrev Text := List Char

abbrev Name := List Char

def isSpace (c : Char) : Bool := c == ' ' || c == '\t' || c == '\r'

def skipped (c : Char) : Bool := c == ',' || isSpace c

/-- One turn of the walk: the name it comes to, empty for none, and the text behind it. -/
def scan (text : Text) : Name × Text :=
  let start := text.dropWhile skipped
  ((start.takeWhile (· != ',')).rdropWhile isSpace, start.dropWhile (· != ','))

theorem length_scan {text : Text} (h : text ≠ []) : (scan text).2.length < text.length := by
  obtain ⟨c, text, rfl⟩ := List.exists_cons_of_ne_nil h
  simp only [scan, List.length_cons]
  by_cases hc : skipped c = true
  · rw [List.dropWhile_cons_of_pos hc]
    have h₁ := (List.dropWhile_suffix (l := text.dropWhile skipped) (· != ',')).length_le
    have h₂ := (List.dropWhile_suffix (l := text) skipped).length_le
    omega
  · have hcomma : (c != ',') = true := by
      simp only [skipped, Bool.or_eq_true, not_or] at hc
      simpa using hc.1
    rw [List.dropWhile_cons_of_neg hc, List.dropWhile_cons_of_pos (p := (· != ',')) hcomma]
    have h₁ := (List.dropWhile_suffix (l := text) (· != ',')).length_le
    omega

/-- The names of `text` into `out` from `base` on, at most `room` of them, and how many there are
    beside the `count` before.  A null `out` has no room. -/
def splitNames (text : Text) (base room count : ℕ) (out : ℕ → Name) : ℕ × (ℕ → Name) :=
  if h : text = [] then (count, out)
  else
    let name := (scan text).1
    if name = [] then splitNames (scan text).2 base room count out
    else splitNames (scan text).2 base room ((count + 1) % 2 ^ 32)
      (if count < room then Function.update out (base + count) name else out)
termination_by text.length
decreasing_by
  · exact length_scan h
  · exact length_scan h

def sameName (left right : Name) : Bool :=
  left.length == right.length && (List.range left.length).all fun i => left[i]? == right[i]?

@[simp] theorem sameName_iff {left right : Name} : sameName left right = true ↔ left = right := by
  constructor
  · intro h
    simp only [sameName, Bool.and_eq_true, beq_iff_eq, List.all_eq_true, List.mem_range] at h
    refine List.ext_getElem? fun i => ?_
    by_cases hi : i < left.length
    · exact h.2 i hi
    · rw [List.getElem?_eq_none (by omega), List.getElem?_eq_none (by omega)]
  · rintro rfl
    simp [sameName]

/-! ## What a text lists -/

def trim (text : Text) : Text := (text.dropWhile isSpace).rdropWhile isSpace

/-- The parts between commas, trimmed, without the empty ones. -/
def names (text : Text) : List Name := ((text.splitOn ',').map trim).filter fun name => decide (name ≠ [])

theorem names_nil : names [] = [] := rfl

theorem names_append (a b : Text) : names (a ++ ',' :: b) = names a ++ names b := by
  simp only [names, List.splitOn_append_cons_self, List.map_append, List.filter_append]

theorem names_comma (text : Text) : names (',' :: text) = names text := names_append [] text

theorem names_space {c : Char} (hc : isSpace c = true) (text : Text) : names (c :: text) = names text := by
  have hne : c ≠ ',' := by
    rintro rfl
    cases hc
  obtain ⟨head, tail, hsplit⟩ := List.exists_cons_of_ne_nil (List.splitOn_ne_nil ',' text)
  have htrim : trim (c :: head) = trim head := by rw [trim, List.dropWhile_cons_of_pos hc, trim]
  simp only [names, List.splitOn_cons_eq_if_modifyHead, beq_eq_false_iff_ne.2 hne, hsplit, Bool.false_eq_true, if_false,
    List.modifyHead_cons, List.map_cons, htrim]

theorem names_dropWhile (text : Text) : names (text.dropWhile skipped) = names text := by
  induction text with
  | nil => rfl
  | cons c text ih =>
    by_cases hc : skipped c = true
    · rw [List.dropWhile_cons_of_pos hc, ih]
      simp only [skipped, Bool.or_eq_true, beq_iff_eq] at hc
      rcases hc with rfl | hspace
      · exact (names_comma text).symm
      · exact (names_space hspace text).symm
    · rw [List.dropWhile_cons_of_neg hc]

theorem names_scan (text : Text) :
    names text = if (scan text).1 = [] then names (scan text).2 else (scan text).1 :: names (scan text).2 := by
  set start := text.dropWhile skipped with hstart
  set word := start.takeWhile (· != ',') with hword
  have hfree : ',' ∉ word := by
    intro hmem
    simpa using List.mem_takeWhile_imp hmem
  -- what stands before the next comma begins with no space
  have htrim : trim word = word.rdropWhile isSpace := by
    rw [trim]
    congr 1
    cases hcons : word with
    | nil => rfl
    | cons c rest =>
      refine List.dropWhile_cons_of_neg fun hspace => ?_
      have hhead : start.head? = some c := by
        cases hs : start with
        | nil => rw [hword, hs] at hcons; cases hcons
        | cons d rest' =>
          rw [hword, hs, List.takeWhile_cons] at hcons
          split at hcons
          · exact congrArg some (List.cons.inj hcons).1
          · cases hcons
      have hskip := List.head?_dropWhile_not skipped text
      rw [← hstart, hhead] at hskip
      simp [skipped, hspace] at hskip
  have hone : names word = if (scan text).1 = [] then [] else [(scan text).1] := by
    have hscan : (scan text).1 = word.rdropWhile isSpace := rfl
    rw [hscan, names, List.splitOn_eq_singleton hfree, List.map_singleton, htrim]
    by_cases hempty : word.rdropWhile isSpace = [] <;> simp [hempty]
  have hsplit : names text = names word ++ names (scan text).2 := by
    rw [← names_dropWhile text, ← hstart]
    conv_lhs => rw [← List.takeWhile_append_dropWhile (p := (· != ',')) (l := start), ← hword]
    show names (word ++ (scan text).2) = _
    cases hrest : (scan text).2 with
    | nil => rw [List.append_nil, names_nil, List.append_nil]
    | cons c rest =>
      have hc : c = ',' := by
        have hhead := List.head?_dropWhile_not (· != ',') start
        have hat : start.dropWhile (· != ',') = c :: rest := hrest
        rw [hat] at hhead
        simpa using hhead
      subst hc
      rw [names_append, names_comma]
  rw [hsplit, hone]
  split <;> rfl

theorem splitNames_eq (text : Text) (base room count : ℕ) (out : ℕ → Name) (h : count + (names text).length < 2 ^ 32) :
    (splitNames text base room count out).1 = count + (names text).length ∧
      (∀ p, p < base + count ∨ base + room ≤ p → (splitNames text base room count out).2 p = out p) ∧
      ∀ k name, (names text)[k]? = some name → count + k < room →
        (splitNames text base room count out).2 (base + count + k) = name := by
  fun_induction splitNames text base room count out with
  | case1 count out => exact ⟨rfl, fun _ _ => rfl, fun k name hk => by simp [names_nil] at hk⟩
  | case2 text count out hne name hname ih =>
    have hscan : names text = names (scan text).2 := (names_scan text).trans (if_pos hname)
    rw [hscan] at h ⊢
    exact ih h
  | case3 text count out hne name hname ih =>
    have hscan : names text = name :: names (scan text).2 := (names_scan text).trans (if_neg hname)
    rw [hscan, List.length_cons] at h
    have hmod : (count + 1) % 2 ^ 32 = count + 1 := Nat.mod_eq_of_lt (by omega)
    simp only [hmod, dite_eq_ite] at ih ⊢
    obtain ⟨hcount, hkept, hnew⟩ := ih (by omega)
    rw [hscan, List.length_cons]
    refine ⟨by omega, fun p hp => ?_, fun k found hk hroom => ?_⟩
    · rw [hkept p (by omega)]
      split
      · exact Function.update_of_ne (by omega) _ _
      · rfl
    · cases k with
      | zero =>
        rw [List.getElem?_cons_zero, Option.some.injEq] at hk
        rw [hkept _ (by omega), if_pos (by omega), Nat.add_zero, Function.update_self, hk]
      | succ k =>
        rw [List.getElem?_cons_succ] at hk
        have hplace : base + count + (k + 1) = base + (count + 1) + k := by omega
        rw [hplace]
        exact hnew k found hk (by omega)

theorem length_names_le (text : Text) : (names text).length ≤ text.length := by
  induction h : text.length using Nat.strong_induction_on generalizing text with
  | _ n ih =>
    by_cases hnil : text = []
    · subst hnil
      simp [names_nil]
    · have hlt := length_scan hnil
      have hrest := ih _ (h ▸ hlt) _ rfl
      rw [names_scan]
      split
      · omega
      · rw [List.length_cons]
        omega

end Aegir.Director
