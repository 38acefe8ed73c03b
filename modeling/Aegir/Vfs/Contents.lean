/-
  Paths and what they lead to on a volume.
-/
import Aegir.Vfs.Namespace

namespace Aegir.Vfs

open Aegir.Fs (kSlash components)
open Aegir.Bfs (Key)

/-! ## Components -/

def Unslashed (path : List UInt8) : Prop := path ≠ [] ∧ path.getLast? ≠ some kSlash

def IsComponent (name : List UInt8) : Prop := name ≠ [] ∧ kSlash ∉ name

theorem splitOn_name {name : List UInt8} (h : kSlash ∉ name) : name.splitOn kSlash = [name] :=
  List.splitOn_eq_singleton h

theorem getLast?_splitOn {path : List UInt8} (h : Unslashed path) :
    (path.splitOn kSlash).getLast? ≠ some [] := by
  obtain ⟨hne, hlast⟩ := h
  induction path with
  | nil => exact absurd rfl hne
  | cons x xs ih =>
    rw [List.splitOn_cons_eq_if_modifyHead]
    by_cases hxs : xs = []
    · subst hxs
      have hx : x ≠ kSlash := by simpa using hlast
      simp [hx]
    · have hlast' : xs.getLast? ≠ some kSlash := by rwa [List.getLast?_cons_of_ne_nil hxs] at hlast
      have hrest := ih hxs hlast'
      rcases hs : xs.splitOn kSlash with _ | ⟨a, as⟩
      · exact absurd hs (List.splitOn_ne_nil _ _)
      · rw [hs] at hrest
        split
        · rwa [List.getLast?_cons_cons]
        · cases as with
          | nil => simp
          | cons a' as => rwa [List.modifyHead_cons, List.getLast?_cons_cons, ← List.getLast?_cons_cons]

theorem components_of_unslashed {path : List UInt8} (h : Unslashed path) :
    components path = path.splitOn kSlash := by
  simp only [components]
  rw [if_neg (getLast?_splitOn h)]

theorem components_nil : components [] = [] := by decide

theorem components_name {name : List UInt8} (h : IsComponent name) : components name = [name] := by
  simp only [components, splitOn_name h.2]
  rw [if_neg (by simpa using h.1)]

theorem components_append (a b : List UInt8) :
    components (a ++ kSlash :: b) = a.splitOn kSlash ++ components b := by
  have hne : b.splitOn kSlash ≠ [] := List.splitOn_ne_nil _ _
  simp only [components, List.splitOn_append_cons_self, List.getLast?_append_of_ne_nil _ hne]
  split
  · rw [List.dropLast_append_of_ne_nil hne]
  · rfl

theorem slash_notMem_components {path name : List UInt8} (h : name ∈ components path) :
    kSlash ∉ name := by
  have hall : ∀ path : List UInt8, ∀ part ∈ path.splitOn kSlash, kSlash ∉ part := by
    intro path
    induction path with
    | nil => simp [List.splitOn_nil]
    | cons x xs ih =>
      rw [List.splitOn_cons_eq_if_modifyHead]
      split
      · rintro part (_ | ⟨_, hpart⟩)
        · exact List.not_mem_nil
        · exact ih part hpart
      · next hx =>
        rcases hs : xs.splitOn kSlash with _ | ⟨a, as⟩
        · exact absurd hs (List.splitOn_ne_nil _ _)
        · rw [hs] at ih
          rw [List.modifyHead_cons]
          rintro part (_ | ⟨_, hpart⟩)
          · have ha := ih a List.mem_cons_self
            simp only [List.mem_cons, not_or]
            exact ⟨fun he => hx (by simp [he]), ha⟩
          · exact ih part (List.mem_cons_of_mem _ hpart)
  simp only [components] at h
  split at h
  · exact hall path name (List.mem_of_mem_dropLast h)
  · exact hall path name h

/-! ## What a view leaves of a path -/

/-- One component after those that are left: a parent takes the last one back. -/
def takeBack (left : List Key) (component : Key) : List Key :=
  if component = [] then left.dropLast else left ++ [component]

def cancelled (path : List UInt8) : List Key := (components path).foldl takeBack []

/-- Components as they stand after a base, each behind a slash. -/
def render (left : List Key) : List UInt8 := left.flatMap (kSlash :: ·)

@[simp] theorem render_nil : render [] = [] := rfl

@[simp] theorem render_cons (c : Key) (left : List Key) :
    render (c :: left) = kSlash :: c ++ render left := rfl

@[simp] theorem render_append (left right : List Key) :
    render (left ++ right) = render left ++ render right := by
  simp [render]

theorem takeBack_isComponent {left : List Key} {c : Key} (hl : ∀ n ∈ left, IsComponent n)
    (hc : kSlash ∉ c) : ∀ n ∈ takeBack left c, IsComponent n := by
  intro n hn
  unfold takeBack at hn
  split at hn
  · exact hl n (List.mem_of_mem_dropLast hn)
  · next hne =>
    rcases List.mem_append.1 hn with hn | hn
    · exact hl n hn
    · rw [List.mem_singleton.1 hn]
      exact ⟨hne, hc⟩

theorem foldl_takeBack_isComponent {left : List Key} {cs : List Key}
    (hl : ∀ n ∈ left, IsComponent n) (hc : ∀ c ∈ cs, kSlash ∉ c) :
    ∀ n ∈ cs.foldl takeBack left, IsComponent n := by
  induction cs generalizing left with
  | nil => exact hl
  | cons c cs ih =>
    rw [List.foldl_cons]
    exact ih (takeBack_isComponent hl (hc c List.mem_cons_self))
      fun c' hc' => hc c' (List.mem_cons_of_mem _ hc')

theorem rdropWhile_append_all {l t : List UInt8} (ht : ∀ x ∈ t, x ≠ kSlash) :
    (l ++ t).rdropWhile (· ≠ kSlash) = l.rdropWhile (· ≠ kSlash) := by
  unfold List.rdropWhile
  rw [List.reverse_append, List.dropWhile_append_of_pos]
  intro x hx
  simpa using ht x (List.mem_reverse.1 hx)

theorem composeStep_render {base r : List UInt8} {capacity : ℕ} {left : List Key} {c : Key}
    (hl : ∀ n ∈ left, IsComponent n) (h : composeStep base capacity (render left) c = some r) :
    r = render (takeBack left c) := by
  unfold composeStep at h
  unfold takeBack
  split at h
  · next hc =>
    rw [if_pos hc]
    obtain rfl := Option.some.inj h
    rcases List.eq_nil_or_concat left with rfl | ⟨left, t, rfl⟩
    · rfl
    · -- the last component has no slash, so the scan stops at the one before it
      have ht : ∀ x ∈ t, x ≠ kSlash := fun x hx he =>
        (hl t (by simp)).2 (he ▸ hx)
      have hrender : render (left ++ [t]) = (render left ++ [kSlash]) ++ t := by simp
      rw [List.concat_eq_append, hrender, List.dropLast_concat]
      rw [rdropWhile_append_all ht, List.rdropWhile_concat_neg _ _ _ (by simp), List.dropLast_concat]
  · next hc =>
    rw [if_neg hc]
    split at h
    · cases h
    · obtain rfl := Option.some.inj h
      simp

theorem foldlM_composeStep {base r : List UInt8} {capacity : ℕ} {cs : List Key} (left : List Key)
    (hl : ∀ n ∈ left, IsComponent n) (hc : ∀ c ∈ cs, kSlash ∉ c)
    (h : cs.foldlM (composeStep base capacity) (render left) = some r) :
    r = render (cs.foldl takeBack left) := by
  induction cs generalizing left with
  | nil => exact (Option.some.inj h).symm
  | cons c cs ih =>
    rw [List.foldlM_cons] at h
    obtain ⟨r', hr', h⟩ := Option.bind_eq_some_iff.1 h
    rw [composeStep_render hl hr'] at h
    exact ih _ (takeBack_isComponent hl (hc c List.mem_cons_self))
      (fun c' hc' => hc c' (List.mem_cons_of_mem _ hc')) h

theorem composeView_eq {volume : Volume} {path r : List UInt8} {capacity : ℕ}
    (hb : volume.base ≠ []) (h : composeView volume path capacity = some r) :
    r = volume.base ++ render (cancelled path) := by
  unfold composeView at h
  rw [if_neg hb] at h
  obtain ⟨r', hr', rfl⟩ := Option.map_eq_some_iff.1 h
  rw [foldlM_composeStep [] (fun _ hn => absurd hn List.not_mem_nil)
    (fun c hc => slash_notMem_components hc) hr']
  rfl

theorem components_render {left : List Key} {c : Key} (hc : IsComponent c)
    (hl : ∀ n ∈ left, IsComponent n) : components (c ++ render left) = c :: left := by
  induction left generalizing c with
  | nil => rw [render_nil, List.append_nil, components_name hc]
  | cons d left ih =>
    have hd := hl d List.mem_cons_self
    rw [render_cons, List.cons_append, components_append c, splitOn_name hc.2,
      ih hd fun n hn => hl n (List.mem_cons_of_mem _ hn)]
    rfl

theorem components_base {base : List UInt8} {left : List Key} (hl : ∀ n ∈ left, IsComponent n)
    (hne : left ≠ []) : components (base ++ render left) = base.splitOn kSlash ++ left := by
  cases left with
  | nil => exact absurd rfl hne
  | cons c left =>
    have hc := hl c List.mem_cons_self
    rw [render_cons, List.cons_append, components_append base,
      components_render hc fun n hn => hl n (List.mem_cons_of_mem _ hn)]

/-! ## What is on a volume -/

def kDot : Key := [46]
def kDotDot : Key := [46, 46]

/-- A name that a directory gives an entry: not a dot name, which it has for itself and its
    parent, and no more than 255 bytes. -/
structure IsName (name : Key) : Prop where
  component : IsComponent name
  dot : name ≠ kDot
  dotDot : name ≠ kDotDot
  short : name.length ≤ 255

instance (name : Key) : Decidable (IsName name) :=
  decidable_of_iff ((name ≠ [] ∧ kSlash ∉ name) ∧ name ≠ kDot ∧ name ≠ kDotDot ∧ name.length ≤ 255)
    ⟨fun ⟨h₁, h₂, h₃, h₄⟩ => ⟨h₁, h₂, h₃, h₄⟩, fun ⟨h₁, h₂, h₃, h₄⟩ => ⟨h₁, h₂, h₃, h₄⟩⟩

/-- A file or a directory, as `stat` and `read` see it. -/
structure Node where
  isDir : Bool
  bytes : List UInt8
  mtime : ℕ
  inode : ℕ
deriving DecidableEq

/-- What is on a volume: the node at each place, a place being the names that lead to it, and
    the names of each directory in the order it lists them. -/
structure Contents where
  node : List Key → Option Node
  names : List Key → List Key
  root : ∃ n, node [] = some n ∧ n.isDir = true
  /-- What is below a place is in a directory. -/
  within : ∀ place name n, node (place ++ [name]) = some n →
    ∃ d, node place = some d ∧ d.isDir = true
  listed : ∀ place name, name ∈ names place ↔ ∃ n, node (place ++ [name]) = some n
  nodup : ∀ place, (names place).Nodup
  named : ∀ place, ∀ name ∈ names place, IsName name

/-- The place above, with `root` above itself. -/
def above (root place : List Key) : List Key := if place = root then root else place.dropLast

namespace Contents

def isDir (c : Contents) (place : List Key) : Bool := (c.node place).any (·.isDir)

/-- One step of `walk`, with `root` above itself: an empty component is the parent, and a
    name is looked up in the directory. -/
def step (c : Contents) (root place : List Key) (component : Key) : Option (List Key) :=
  if component = [] then some (above root place)
  else if c.isDir place = false then none
  else if component = kDot then some place
  else if component = kDotDot then some (above root place)
  else if (c.node (place ++ [component])).isSome then some (place ++ [component]) else none

/-- `walk` from a place that is taken for the root. -/
def walkIn (c : Contents) (root : List Key) (path : List UInt8) : Option (List Key) :=
  (components path).foldlM (c.step root) root

/-- `walk`: where a path leads to on the volume. -/
def walk (c : Contents) (path : List UInt8) : Option (List Key) := c.walkIn [] path

/-- A volume with one entry in its root. -/
def single (name : Key) (node : Node) (h : IsName name) : Contents where
  node place := if place = [] then some ⟨true, [], 0, 1⟩ else if place = [name] then some node else none
  names place := if place = [] then [name] else []
  root := ⟨_, rfl, rfl⟩
  within place n m hm := by
    cases place with
    | nil => exact ⟨_, rfl, rfl⟩
    | cons a place => simp at hm
  listed place n := by
    constructor
    · intro hn
      split at hn
      · next hp =>
        subst hp
        rw [List.mem_singleton.1 hn]
        exact ⟨node, by simp⟩
      · cases hn
    · rintro ⟨m, hm⟩
      cases place with
      | nil =>
        have hname : n = name ∧ node = m := by simpa using hm
        simp [hname.1]
      | cons a place => simp at hm
  nodup place := by split <;> simp
  named place n hn := by
    split at hn
    · rw [List.mem_singleton.1 hn]
      exact h
    · cases hn

end Contents

end Aegir.Vfs
