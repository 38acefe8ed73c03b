/-
  Where the paths of a view lead (`main.cc`, `compose_view`; `aegir-fs-bfs`, `walk`).
-/
import Aegir.Vfs.Contents

namespace Aegir.Vfs

open Aegir.Fs (kSlash components)
open Aegir.Bfs (Key)

/-- A path ends in the base's subtree, and where it ends with the base for the root. -/
structure Confined (c : Contents) (b : List Key) (path composed : List UInt8) : Prop where
  inside : ∀ place, c.walk composed = some place → b <+: place
  clamped : c.walk composed = c.walkIn b path

/-- A component that is left of the path, and the place it is put at, if there is one. -/
structure Kept where
  name : Key
  before : Option (List Key)

section
variable (c : Contents) (base : List UInt8) (b : List Key)

/-- A name may follow what is left: it is not the base's parent, and the base before it does
    not end in a slash, unless nothing has the name with the slash or without. -/
def MayFollow (left : List Kept) (place : Option (List Key)) (name : Key) : Prop :=
  (name = kDotDot → place = some b → c.isDir b = true → b = []) ∧
    (left = [] → Unslashed base ∨ b = [] ∨ c.step b b name = none ∧ c.step [] b.dropLast name = none)

/-- A parent may take the last name back: the name led from its place to the one below, or it
    is a dot name at the base.  Nothing is to be said where the path had failed before it. -/
def MayTakeBack (last : Kept) (place : Option (List Key)) : Prop :=
  last.before = none ∨ place ≠ none ∧ (last.name = kDot ∨ last.name = kDotDot → last.before = some b)

/-- The components are read the same way as text and on the volume, from where `left` leads
    to `place`. -/
def Sound : List Kept → Option (List Key) → List Key → Prop
  | _, _, [] => True
  | left, place, component :: rest =>
    if component = [] then
      match left with
      | [] => Sound [] place rest
      | last :: left => MayTakeBack b last place ∧ Sound left last.before rest
    else MayFollow c base b left place component ∧
      Sound (⟨component, place⟩ :: left) (place.bind (c.step b · component)) rest

end

/-! ## Steps inside the base -/

section
variable {c : Contents} {base : List UInt8} {b : List Key}

theorem above_inside {place : List Key} (h : b <+: place) : b <+: above b place := by
  unfold above
  split
  · exact List.prefix_rfl
  · next hne =>
    obtain ⟨rest, rfl⟩ := h
    have hrest : rest ≠ [] := by rintro rfl; simp at hne
    rw [List.dropLast_append_of_ne_nil hrest]
    exact List.prefix_append _ _

theorem above_root (place : List Key) : above [] place = place.dropLast := by
  unfold above
  split
  · next h => subst h; rfl
  · rfl

theorem above_below {place : List Key} {name : Key} (h : b <+: place) :
    above b (place ++ [name]) = place := by
  have hne : place ++ [name] ≠ b := by
    intro he
    have hl := h.length_le
    rw [← he, List.length_append] at hl
    simp at hl
  unfold above
  rw [if_neg hne, List.dropLast_concat]

theorem above_eq_self {place : List Key} (h : b <+: place) : above b place = place ↔ place = b := by
  constructor
  · intro he
    unfold above at he
    split at he
    · exact he.symm
    · have hl := congrArg List.length he
      rw [List.length_dropLast] at hl
      obtain rfl := List.eq_nil_of_length_eq_zero (show place.length = 0 by omega)
      exact (List.prefix_nil.1 h).symm
  · rintro rfl
    exact if_pos rfl

theorem above_above {place : List Key} (h : b <+: place) :
    above b (above b place) = place ↔ place = b := by
  constructor
  · intro he
    by_contra hne
    have hl : place.length ≠ 0 := by
      intro hz
      obtain rfl := List.eq_nil_of_length_eq_zero hz
      exact hne (List.prefix_nil.1 h).symm
    have hle : ∀ p : List Key, b <+: p → (above b p).length ≤ p.length := by
      intro p _
      unfold above
      split
      · next hp => rw [hp]
      · simp
    have h₁ : (above b place).length = place.length - 1 := by
      unfold above
      rw [if_neg hne, List.length_dropLast]
    have h₂ := hle _ (above_inside h)
    rw [he, h₁] at h₂
    omega
  · rintro rfl
    rw [(above_eq_self h).2 rfl, (above_eq_self h).2 rfl]

theorem step_cases {root place p : List Key} {n : Key} (hn : n ≠ [])
    (h : c.step root place n = some p) :
    c.isDir place = true ∧ (n = kDot ∧ p = place ∨ n = kDotDot ∧ p = above root place ∨
      n ≠ kDot ∧ n ≠ kDotDot ∧ p = place ++ [n]) := by
  unfold Contents.step at h
  rw [if_neg hn] at h
  split at h
  · cases h
  · next hd =>
    refine ⟨by simpa using hd, ?_⟩
    split at h
    · next hdot => exact .inl ⟨hdot, (Option.some.inj h).symm⟩
    · next hdot =>
      split at h
      · next hdd => exact .inr (.inl ⟨hdd, (Option.some.inj h).symm⟩)
      · next hdd =>
        split at h
        · exact .inr (.inr ⟨hdot, hdd, (Option.some.inj h).symm⟩)
        · cases h

@[simp] theorem step_parent (root place : List Key) :
    c.step root place [] = some (above root place) := if_pos rfl

theorem step_inside {place p : List Key} {n : Key} (hp : b <+: place) (h : c.step b place n = some p) :
    b <+: p := by
  by_cases hn : n = []
  · subst hn
    rw [step_parent] at h
    exact Option.some.inj h ▸ above_inside hp
  · obtain ⟨-, ⟨-, rfl⟩ | ⟨-, rfl⟩ | ⟨-, -, rfl⟩⟩ := step_cases hn h
    · exact hp
    · exact above_inside hp
    · exact hp.trans (List.prefix_append _ _)

/-- A name leads to the same place with the base above itself and with the parent above it,
    unless it is the parent of the base. -/
theorem step_root_iff {place : List Key} {n : Key} (hn : n ≠ []) :
    c.step [] place n = c.step b place n ↔
      (n = kDotDot → place = b → c.isDir b = true → b = []) := by
  have habove : place ≠ b → above [] place = above b place := by
    intro hne
    rw [above_root]
    exact (if_neg hne).symm
  have hfix : above [] b = above b b ↔ b = [] := by
    rw [above_root, above, if_pos rfl]
    constructor
    · intro h
      have hl := congrArg List.length h
      rw [List.length_dropLast] at hl
      exact List.eq_nil_of_length_eq_zero (by omega)
    · rintro rfl
      rfl
  unfold Contents.step
  rw [if_neg hn, if_neg hn]
  by_cases hd : c.isDir place = false
  · rw [if_pos hd, if_pos hd]
    refine iff_of_true rfl fun _ hp hb => ?_
    rw [hp, hb] at hd
    cases hd
  · rw [if_neg hd, if_neg hd]
    by_cases hdd : n = kDotDot
    · rw [if_neg (by rw [hdd]; decide), if_pos hdd, if_neg (by rw [hdd]; decide), if_pos hdd,
        Option.some_inj]
      by_cases hp : place = b
      · rw [hp, hfix]
        rw [hp] at hd
        exact ⟨fun h _ _ _ => h, fun h => h hdd rfl (by simpa using hd)⟩
      · exact iff_of_true (habove hp) fun _ h => absurd h hp
    · rw [if_neg hdd, if_neg hdd]
      exact iff_of_true rfl fun h => absurd h hdd

/-- A slash at the end of the base and a name lead to where the name leads in the base only
    if both lead nowhere. -/
theorem step_slash_iff {n : Key} (hn : n ≠ []) (hb : b ≠ []) :
    c.step [] b.dropLast n = c.step b b n ↔
      c.step b b n = none ∧ c.step [] b.dropLast n = none := by
  constructor
  · intro h
    rcases hp : c.step b b n with _ | p
    · exact ⟨rfl, h.trans hp⟩
    · -- the two places are of different lengths
      rw [hp] at h
      have hl : b.length ≠ 0 := fun hz => hb (List.eq_nil_of_length_eq_zero hz)
      have hab : above b b = b := if_pos rfl
      have hlen := congrArg List.length (above_root b.dropLast)
      rw [List.length_dropLast, List.length_dropLast] at hlen
      obtain ⟨-, ⟨h₁, rfl⟩ | ⟨h₁, rfl⟩ | ⟨h₁, h₂, rfl⟩⟩ := step_cases hn hp
      all_goals
        obtain ⟨-, ⟨g₁, hq⟩ | ⟨g₁, hq⟩ | ⟨g₁, g₂, hq⟩⟩ := step_cases hn h
        all_goals
          have hq := congrArg List.length hq
          simp only [hab, hlen, List.length_append, List.length_dropLast, List.length_singleton] at hq
          first | omega | exact absurd h₁ g₁ | exact absurd g₁ h₁ | exact absurd h₁ g₂
  · rintro ⟨h₁, h₂⟩
    rw [h₁, h₂]

/-! ## The two readings -/

def names (left : List Kept) : List Key := (left.map Kept.name).reverse

@[simp] theorem names_nil : names [] = [] := rfl

@[simp] theorem names_cons (k : Kept) (left : List Kept) : names (k :: left) = names left ++ [k.name] := by
  simp [names]

def Contents.walkLeft (c : Contents) (base : List UInt8) (left : List Key) : Option (List Key) :=
  c.walk (base ++ render left)

/-- What is left leads on the volume to where the path leads in the base, now and before each
    of the names. -/
inductive Agree (c : Contents) (base : List UInt8) (b : List Key) : List Kept → Option (List Key) → Prop where
  | base (h : c.walk base = some b) : Agree c base b [] (some b)
  | name {left : List Kept} {place : Option (List Key)} {n : Key} (h : Agree c base b left place)
      (hn : IsComponent n)
      (hw : c.walkLeft base (names left ++ [n]) = place.bind (c.step b · n)) :
      Agree c base b (⟨n, place⟩ :: left) (place.bind (c.step b · n))

namespace Agree
variable {left : List Kept} {place : Option (List Key)}

theorem walkLeft_eq (h : Agree c base b left place) : c.walkLeft base (names left) = place := by
  cases h with
  | base h => rwa [Contents.walkLeft, names_nil, render_nil, List.append_nil]
  | name _ _ hw => rwa [names_cons]

theorem isComponent (h : Agree c base b left place) : ∀ n ∈ names left, IsComponent n := by
  induction h with
  | base => simp
  | name _ hn _ ih =>
    rw [names_cons]
    intro n hm
    rcases List.mem_append.1 hm with hm | hm
    · exact ih n hm
    · exact List.mem_singleton.1 hm ▸ hn

theorem inside (h : Agree c base b left place) : ∀ p, place = some p → b <+: p := by
  induction h with
  | base =>
    intro p hp
    exact Option.some.inj hp ▸ List.prefix_rfl
  | name _ _ _ ih =>
    intro p hp
    obtain ⟨q, hq, hp⟩ := Option.bind_eq_some_iff.1 hp
    exact step_inside (ih q hq) hp

theorem walk_base (h : Agree c base b left place) : c.walk base = some b := by
  induction h with
  | base h => exact h
  | name _ _ _ ih => exact ih

end Agree

theorem walk_splitOn (hb : base ≠ []) (h : c.walk base = some b) :
    (base.splitOn kSlash).foldlM (c.step []) [] =
      some (if base.getLast? = some kSlash then b.dropLast else b) := by
  rw [Contents.walk, Contents.walkIn] at h
  split
  · next hlast =>
    obtain ⟨front, rfl⟩ := List.getLast?_eq_some_iff.1 hlast
    have hsplit : (front ++ [kSlash]).splitOn kSlash = front.splitOn kSlash ++ [[]] :=
      List.splitOn_append_cons_self ..
    have hcomp : components (front ++ [kSlash]) = front.splitOn kSlash := by
      have := components_append front []
      rwa [components_nil, List.append_nil] at this
    rw [hcomp] at h
    rw [hsplit, List.foldlM_append, h]
    simp [above_root]
  · next hlast =>
    rwa [components_of_unslashed ⟨hb, hlast⟩] at h

theorem walkLeft_snoc {left : List Key} {n : Key} (hl : ∀ m ∈ left, IsComponent m)
    (hn : IsComponent n) (hb : base ≠ []) (h : c.walk base = some b) :
    c.walkLeft base (left ++ [n]) =
      if left = [] ∧ base.getLast? = some kSlash then c.step [] b.dropLast n
      else (c.walkLeft base left).bind (c.step [] · n) := by
  have hsnoc : ∀ m ∈ left ++ [n], IsComponent m := by
    intro m hm
    rcases List.mem_append.1 hm with hm | hm
    · exact hl m hm
    · exact List.mem_singleton.1 hm ▸ hn
  have hsplit := walk_splitOn hb h
  have hone : ∀ place : List Key, [n].foldlM (c.step []) place = c.step [] place n := by
    intro place
    simp
  rw [Contents.walkLeft, Contents.walk, Contents.walkIn, components_base hsnoc (by simp),
    ← List.append_assoc, List.foldlM_append]
  by_cases hnil : left = []
  · subst hnil
    rw [List.append_nil, hsplit]
    by_cases hlast : base.getLast? = some kSlash
    · rw [if_pos hlast, if_pos ⟨rfl, hlast⟩]
      exact hone _
    · rw [if_neg hlast, if_neg fun ⟨_, hl⟩ => hlast hl, Contents.walkLeft, render_nil,
        List.append_nil, h]
      exact hone _
  · rw [if_neg fun ⟨hl, _⟩ => hnil hl, Contents.walkLeft, Contents.walk, Contents.walkIn,
      components_base hl hnil]
    exact congrArg _ (funext hone)

/-! ## Where the two readings agree -/

theorem follow_iff {left : List Kept} {place : Option (List Key)} {n : Key} (hb : base ≠ [])
    (h : Agree c base b left place) (hn : IsComponent n) :
    c.walkLeft base (names left ++ [n]) = place.bind (c.step b · n) ↔
      MayFollow c base b left place n := by
  rw [walkLeft_snoc h.isComponent hn hb h.walk_base]
  unfold MayFollow
  by_cases hslash : (names left = [] ∧ base.getLast? = some kSlash) ∧ b ≠ []
  · -- the base ends in a slash, so the name is looked up in its parent
    obtain ⟨hs, hbne⟩ := hslash
    have hleft : left = [] := by simpa [names] using hs.1
    subst hleft
    have hplace : place = some b := by
      cases h
      rfl
    have hun : ¬ Unslashed base := fun hu => hu.2 hs.2
    rw [if_pos hs, hplace, Option.bind_some, step_slash_iff hn.1 hbne]
    constructor
    · rintro ⟨h₁, h₂⟩
      refine ⟨?_, fun _ => .inr (.inr ⟨h₁, h₂⟩)⟩
      rintro rfl - hd
      simp [Contents.step, hd, kDot, kDotDot] at h₁
    · rintro ⟨-, h₂⟩
      rcases h₂ rfl with h₂ | h₂ | h₂
      · exact absurd h₂ hun
      · exact absurd h₂ hbne
      · exact h₂
  · have hfirst : (if names left = [] ∧ base.getLast? = some kSlash then c.step [] b.dropLast n
        else (c.walkLeft base (names left)).bind (c.step [] · n)) = place.bind (c.step [] · n) := by
      rw [h.walkLeft_eq]
      split
      · next hs =>
        have hbnil : b = [] := by
          by_contra hne
          exact hslash ⟨hs, hne⟩
        have hleft : left = [] := by simpa [names] using hs.1
        subst hleft
        cases h
        rw [hbnil]
        rfl
      · rfl
    have hopen : left = [] → Unslashed base ∨ b = [] ∨
        c.step b b n = none ∧ c.step [] b.dropLast n = none := by
      rintro rfl
      by_cases hlast : base.getLast? = some kSlash
      · refine .inr (.inl ?_)
        by_contra hne
        exact hslash ⟨⟨rfl, hlast⟩, hne⟩
      · exact .inl ⟨hb, hlast⟩
    rw [hfirst, and_iff_left hopen]
    rcases hp : place with _ | p
    · exact iff_of_true rfl nofun
    · rw [Option.bind_some, Option.bind_some, step_root_iff hn.1, Option.some_inj]

theorem takeBack_iff {left : List Kept} {last : Kept} {place : Option (List Key)}
    (h : Agree c base b (last :: left) place) :
    c.walkLeft base (names left) = place.bind (c.step b · []) ↔ MayTakeBack b last place := by
  obtain ⟨n, before⟩ := last
  cases h with
  | name h hn hw =>
    rw [h.walkLeft_eq]
    unfold MayTakeBack
    rcases hp : before with _ | p
    · exact iff_of_true rfl (.inl rfl)
    · have hin := h.inside p hp
      simp only [Option.bind_some, reduceCtorEq, false_or, Option.some_inj]
      rcases hq : c.step b p n with _ | q
      · simp
      · -- which of the places the name led to
        rw [Option.bind_some, step_parent, Option.some_inj]
        obtain ⟨-, ⟨hdot, rfl⟩ | ⟨hdd, rfl⟩ | ⟨hdot, hdd, rfl⟩⟩ := step_cases hn.1 hq
        · rw [eq_comm, above_eq_self hin]
          simp [hdot]
        · rw [eq_comm, above_above hin]
          simp [hdd]
        · rw [above_below hin]
          simp [hdot, hdd]

/-- Every start of the components is read alike, just if the components are sound. -/
theorem sound_iff {left : List Kept} {place : Option (List Key)} {cs : List Key} (hb : base ≠ [])
    (h : Agree c base b left place) (hc : ∀ n ∈ cs, kSlash ∉ n) :
    (∀ ds, ds <+: cs → c.walkLeft base (ds.foldl takeBack (names left)) =
      place.bind fun p => ds.foldlM (c.step b) p) ↔ Sound c base b left place cs := by
  induction cs generalizing left place with
  | nil =>
    refine iff_of_true (fun ds hds => ?_) trivial
    rw [List.prefix_nil.1 hds, List.foldl_nil, h.walkLeft_eq]
    simp
  | cons n cs ih =>
    have hrest : ∀ m ∈ cs, kSlash ∉ m := fun m hm => hc m (List.mem_cons_of_mem _ hm)
    -- the first component, and the rest from where it leads
    have hsplit : (∀ ds, ds <+: n :: cs → c.walkLeft base (ds.foldl takeBack (names left)) =
          place.bind fun p => ds.foldlM (c.step b) p) ↔
        c.walkLeft base (takeBack (names left) n) = place.bind (c.step b · n) ∧
        ∀ ds, ds <+: cs → c.walkLeft base (ds.foldl takeBack (takeBack (names left) n)) =
          (place.bind (c.step b · n)).bind fun p => ds.foldlM (c.step b) p := by
      constructor
      · intro hall
        have hcons : ∀ ds, ds <+: cs → c.walkLeft base (ds.foldl takeBack (takeBack (names left) n)) =
            (place.bind (c.step b · n)).bind fun p => ds.foldlM (c.step b) p := by
          intro ds hds
          have := hall (n :: ds) (List.cons_prefix_cons.2 ⟨rfl, hds⟩)
          simpa [List.foldlM_cons, Option.bind_assoc] using this
        refine ⟨?_, hcons⟩
        simpa using hcons [] List.nil_prefix
      · rintro ⟨-, hall⟩ ds hds
        cases ds with
        | nil =>
          rw [List.foldl_nil, h.walkLeft_eq]
          simp
        | cons d ds =>
          obtain ⟨rfl, hds'⟩ := List.cons_prefix_cons.1 hds
          simpa [List.foldlM_cons, Option.bind_assoc] using hall ds hds'
    rw [hsplit]
    unfold Sound
    by_cases hn : n = []
    · subst hn
      rw [if_pos rfl]
      have hback : takeBack (names left) [] = (names left).dropLast := if_pos rfl
      rw [hback]
      cases left with
      | nil =>
        have hplace : place.bind (c.step b · []) = place := by
          cases h
          simp [(above_eq_self (List.prefix_rfl (l := b))).2 rfl]
        have hnow : c.walkLeft base (names []).dropLast = place := h.walkLeft_eq
        rw [hplace, and_iff_right hnow]
        exact ih h hrest
      | cons last left =>
        rw [names_cons, List.dropLast_concat, takeBack_iff h]
        refine and_congr_right fun hback => ?_
        have heq := (takeBack_iff h).2 hback
        cases h with
        | name h _ _ =>
          rw [← heq, h.walkLeft_eq]
          exact ih h hrest
    · rw [if_neg hn]
      have hcomp : IsComponent n := ⟨hn, hc n List.mem_cons_self⟩
      have hput : takeBack (names left) n = names left ++ [n] := if_neg hn
      rw [hput, follow_iff hb h hcomp]
      refine and_congr_right fun hfollow => ?_
      have := ih (h.name hcomp ((follow_iff hb h hcomp).2 hfollow)) hrest
      rwa [names_cons] at this

end

/-! ## Views -/

theorem components_slashed {cs : List Key} (h : ∀ n ∈ cs, kSlash ∉ n) :
    components (cs.flatMap (· ++ [kSlash])) = cs := by
  induction cs with
  | nil => exact components_nil
  | cons n cs ih =>
    rw [List.flatMap_cons, List.append_assoc, List.singleton_append, components_append,
      splitOn_name (h n List.mem_cons_self), ih fun m hm => h m (List.mem_cons_of_mem _ hm)]
    rfl

theorem composeView_prefix {volume : Volume} {path q composed : List UInt8} {capacity : ℕ}
    (hb : volume.base ≠ []) (h : composeView volume path capacity = some composed)
    (hq : components q <+: components path) : ∃ r, composeView volume q capacity = some r := by
  obtain ⟨rest, hrest⟩ := hq
  unfold composeView at h ⊢
  rw [if_neg hb] at h ⊢
  obtain ⟨r', hr', -⟩ := Option.map_eq_some_iff.1 h
  rw [← hrest, List.foldlM_append] at hr'
  obtain ⟨r, hr, -⟩ := Option.bind_eq_some_iff.1 hr'
  exact ⟨_, by rw [hr]; rfl⟩

/-- The path, and each path that stops after some of its components, is confined. -/
def ConfinedOnTheWay (c : Contents) (volume : Volume) (b : List Key) (capacity : ℕ)
    (path : List UInt8) : Prop :=
  ∀ q r, components q <+: components path → composeView volume q capacity = some r →
    Confined c b q r

theorem confined_iff {c : Contents} {volume : Volume} {b : List Key} {capacity : ℕ}
    {q r : List UInt8} (hne : volume.base ≠ [])
    (h : composeView volume q capacity = some r) : Confined c b q r ↔
      c.walkLeft volume.base ((components q).foldl takeBack []) = (components q).foldlM (c.step b) b := by
  rw [composeView_eq hne h]
  constructor
  · rintro ⟨-, h⟩
    exact h
  · intro h
    refine ⟨fun place hp => ?_, h⟩
    have hplace : (components q).foldlM (c.step b) b = some place := h.symm.trans hp
    have hin : ∀ (cs : List Key) (p : List Key), b <+: p → cs.foldlM (c.step b) p = some place →
        b <+: place := by
      intro cs
      induction cs with
      | nil =>
        intro p hp h
        exact Option.some.inj h ▸ hp
      | cons n cs ih =>
        intro p hp h
        rw [List.foldlM_cons] at h
        obtain ⟨p', hp', h⟩ := Option.bind_eq_some_iff.1 h
        exact ih p' (step_inside hp hp') h
    exact hin _ b List.prefix_rfl hplace

def home : Contents := .single [104] ⟨true, [], 0, 2⟩ (by decide)

def homeView : Volume := ⟨[86], 0, 16, 0, [104]⟩

end Aegir.Vfs
