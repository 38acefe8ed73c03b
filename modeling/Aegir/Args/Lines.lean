/-
  What the walk over a line does with each token.
-/
import Aegir.Args.Template
import Aegir.Lib.Shares

namespace Aegir.Args

open Aegir.Lib (fill)

/-- How the tokens of a line are read, before the bare ones have items. -/
def spell (items : List Item) : List Text → List Supplied
  | [] => []
  | token :: rest =>
    if '=' ∈ token then ⟨itemByName items (nameOf token), .named token⟩ :: spell items rest
    else match namedBare items token with
    | some item =>
      if item.switch then ⟨some item, .switch token⟩ :: spell items rest
      else match rest with
      | [] => [⟨some item, .dangling token⟩]
      | value :: rest => ⟨some item, .keyword token value⟩ :: spell items rest
    | none => ⟨none, .bare token⟩ :: spell items rest

def Word.isBare : Word → Bool
  | bare _ => true
  | _ => false

def bareTokens (l : List Supplied) : List Text :=
  l.filterMap fun s => match s.word with
    | .bare token => some token
    | _ => none

/-- The bare tokens, with the items that have them. -/
def placed (l : List Supplied) : List (Item × Text) :=
  l.filterMap fun s => match s.item, s.word with
    | some item, .bare token => some (item, token)
    | _, _ => none

/-- The tokens are right for an item. -/
def Word.Fits (items : List Item) (item : Item) : Word → Prop
  | named token => '=' ∈ token ∧ eqCi item.name (nameOf token)
  | switch token => '=' ∉ token ∧ eqCi item.name token ∧ item.switch = true
  | keyword token _ | dangling token => '=' ∉ token ∧ eqCi item.name token ∧ item.switch = false ∧ item.keyword = true
  | bare token => '=' ∉ token ∧ namedBare items token = none ∧ item.positional = true

section
variable {items : List Item} {item : Item}

theorem itemByName_some {name : Text} (h : itemByName items name = some item) :
    item ∈ items ∧ eqCi item.name name = true :=
  ⟨List.mem_of_find?_eq_some h, by simpa using List.find?_some h⟩

theorem namedBare_some {token : Text} (h : namedBare items token = some item) :
    item ∈ items ∧ eqCi item.name token = true ∧ (item.switch || item.keyword) = true := by
  obtain ⟨hname, hflags⟩ := Option.filter_eq_some_iff.1 h
  obtain ⟨hmem, heq⟩ := itemByName_some hname
  exact ⟨hmem, heq, hflags⟩

theorem positionalItemAt_some {index : ℕ} (h : positionalItemAt items index = some item) :
    item ∈ items ∧ item.positional = true :=
  List.mem_filter.1 (List.mem_of_getElem? h)

variable (items)

/-! ## One token -/

section
variable {token : Text} (rest : List Text)

theorem spell_named (h : '=' ∈ token) :
    spell items (token :: rest) = ⟨itemByName items (nameOf token), .named token⟩ :: spell items rest := by
  rw [spell, if_pos h]

theorem spell_switch (h : '=' ∉ token) (hn : namedBare items token = some item) (hs : item.switch = true) :
    spell items (token :: rest) = ⟨some item, .switch token⟩ :: spell items rest := by
  rw [spell, if_neg h, hn]
  simp only [hs, if_true]

theorem spell_dangling (h : '=' ∉ token) (hn : namedBare items token = some item) (hs : ¬ item.switch = true) :
    spell items [token] = [⟨some item, .dangling token⟩] := by
  rw [spell, if_neg h, hn]
  simp only [if_neg hs]

theorem spell_keyword (value : Text) (h : '=' ∉ token) (hn : namedBare items token = some item)
    (hs : ¬ item.switch = true) :
    spell items (token :: value :: rest) = ⟨some item, .keyword token value⟩ :: spell items rest := by
  rw [spell, if_neg h, hn]
  simp only [if_neg hs]

theorem spell_bare (h : '=' ∉ token) (hn : namedBare items token = none) :
    spell items (token :: rest) = ⟨none, .bare token⟩ :: spell items rest := by
  rw [spell, if_neg h, hn]

end

/-! ## The whole line -/

theorem forEach_tokens (positional : ℕ) (argv : List Text) :
    (forEach items positional argv).flatMap (fun s => s.word.tokens) = argv := by
  fun_induction forEach items positional argv with
  | case1 => rfl
  | case4 => rfl
  | case2 _ token rest h ih => rw [List.flatMap_cons, ih]; rfl
  | case3 _ token rest h item hn hs ih => rw [List.flatMap_cons, ih]; rfl
  | case5 _ token h item hn hs value rest ih => rw [List.flatMap_cons, ih]; rfl
  | case6 _ token rest h hn hp ih => rw [List.flatMap_cons, ih]; rfl
  | case7 _ token rest h hn place hp ih => rw [List.flatMap_cons, ih]; rfl

theorem namedBare_keyword {token : Text} (hn : namedBare items token = some item) (hs : ¬ item.switch = true) :
    item.switch = false ∧ item.keyword = true := by
  have hf := (namedBare_some hn).2.2
  rw [Bool.not_eq_true] at hs
  rw [hs, Bool.false_or] at hf
  exact ⟨hs, hf⟩

theorem forEach_fits (positional : ℕ) (argv : List Text) :
    ∀ s ∈ forEach items positional argv, ∀ item, s.item = some item → item ∈ items ∧ s.word.Fits items item := by
  fun_induction forEach items positional argv with
  | case1 => exact fun s hs => absurd hs List.not_mem_nil
  | case2 _ token rest h ih =>
    refine List.forall_mem_cons.2 ⟨fun item hitem => ?_, ih⟩
    obtain ⟨hmem, heq⟩ := itemByName_some hitem
    exact ⟨hmem, h, heq⟩
  | case3 _ token rest h item hn hs ih =>
    refine List.forall_mem_cons.2 ⟨fun item' hitem => ?_, ih⟩
    obtain rfl := Option.some.inj hitem
    obtain ⟨hmem, heq, -⟩ := namedBare_some hn
    exact ⟨hmem, h, heq, hs⟩
  | case4 _ token h item hn hs =>
    refine List.forall_mem_singleton.2 fun item' hitem => ?_
    obtain rfl := Option.some.inj hitem
    obtain ⟨hmem, heq, -⟩ := namedBare_some hn
    exact ⟨hmem, h, heq, namedBare_keyword items hn hs⟩
  | case5 _ token h item hn hs value rest ih =>
    refine List.forall_mem_cons.2 ⟨fun item' hitem => ?_, ih⟩
    obtain rfl := Option.some.inj hitem
    obtain ⟨hmem, heq, -⟩ := namedBare_some hn
    exact ⟨hmem, h, heq, namedBare_keyword items hn hs⟩
  | case6 _ token rest h hn hp ih => exact List.forall_mem_cons.2 ⟨fun _ hitem => (by cases hitem), ih⟩
  | case7 _ token rest h hn place hp ih =>
    refine List.forall_mem_cons.2 ⟨fun item hitem => ?_, ih⟩
    obtain rfl := Option.some.inj hitem
    obtain ⟨hmem, hpos⟩ := positionalItemAt_some hp
    exact ⟨hmem, h, hn, hpos⟩

theorem positionalTokensAfter_eq (argv : List Text) :
    positionalTokensAfter items argv = (bareTokens (spell items argv)).length := by
  fun_induction positionalTokensAfter items argv with
  | case1 => rfl
  | case2 token rest h ih => rw [ih, spell_named items rest h]; rfl
  | case3 token rest h hn ih => rw [ih, spell_bare items rest h hn, Nat.add_comm]; rfl
  | case4 token rest h item hn hs ih => rw [ih, spell_switch items rest h hn hs]; rfl
  | case5 token h item hn hs => rw [spell_dangling items h hn hs]; rfl
  | case6 token h item hn hs value rest ih => rw [ih, spell_keyword items rest value h hn hs]; rfl

theorem forEach_spelled (positional : ℕ) (argv : List Text) :
    (forEach items positional argv).filter (fun s => !s.word.isBare) =
      (spell items argv).filter fun s => !s.word.isBare := by
  fun_induction forEach items positional argv with
  | case1 => rfl
  | case2 _ token rest h ih => rw [spell_named items rest h]; exact congrArg (_ :: ·) ih
  | case3 _ token rest h item hn hs ih => rw [spell_switch items rest h hn hs]; exact congrArg (_ :: ·) ih
  | case4 _ token h item hn hs => rw [spell_dangling items h hn hs]
  | case5 _ token h item hn hs value rest ih =>
    rw [spell_keyword items rest value h hn hs]
    exact congrArg (_ :: ·) ih
  | case6 _ token rest h hn hp ih => rw [spell_bare items rest h hn]; exact ih
  | case7 _ token rest h hn place hp ih => rw [spell_bare items rest h hn]; exact ih

theorem forEach_placed (positional : ℕ) (argv : List Text) :
    placed (forEach items positional argv) =
      fill Item.multiple ((items.filter Item.positional).drop positional) (bareTokens (spell items argv)) := by
  fun_induction forEach items positional argv with
  | case1 => exact (Aegir.Lib.fill_nil_right _).symm
  | case2 _ token rest h ih =>
    rw [spell_named items rest h]
    cases itemByName items (nameOf token) <;> exact ih
  | case3 _ token rest h item hn hs ih => rw [spell_switch items rest h hn hs]; exact ih
  | case4 _ token h item hn hs =>
    rw [spell_dangling items h hn hs]
    exact (Aegir.Lib.fill_nil_right _).symm
  | case5 _ token h item hn hs value rest ih => rw [spell_keyword items rest value h hn hs]; exact ih
  | case6 positional token rest h hn hp ih =>
    rw [spell_bare items rest h hn]
    have hdrop : (items.filter Item.positional).drop positional = [] :=
      List.drop_eq_nil_of_le (List.getElem?_eq_none_iff.1 hp)
    rw [hdrop] at ih ⊢
    exact ih.trans (by cases bareTokens (spell items rest) <;> rfl)
  | case7 positional token rest h hn place hp ih =>
    rw [spell_bare items rest h hn]
    obtain ⟨hlt, hget⟩ := List.getElem?_eq_some_iff.1 hp
    show (place, token) :: placed (forEach items _ rest) = _
    rw [ih, List.drop_eq_getElem_cons hlt, hget, positionalTokensAfter_eq]
    show _ = fill Item.multiple (place :: _) (token :: bareTokens (spell items rest))
    rw [fill, List.length_drop]
    congr 2
    cases hm : place.multiple with
    | false => rfl
    | true =>
      simp only [positionalCount, Nat.sub_sub, Bool.true_eq_false, if_false, Bool.true_and]
      by_cases hlast : (bareTokens (spell items rest)).length ≤ (items.filter Item.positional).length - (positional + 1)
      · rw [if_pos hlast, if_neg (by simpa using hlast)]
      · rw [if_neg hlast, if_pos (by simpa using hlast), List.drop_eq_getElem_cons hlt, hget]

end

end Aegir.Args
