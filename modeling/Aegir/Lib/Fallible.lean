/-
  Stateful functions that may refuse.

  `Fallible σ α` is a function of a state that either returns a value or
  refuses, and keeps the state it reached in both cases: a C++ member function
  that returns `bool` leaves its writes behind when it answers `false`.

  * `onFail m c` runs the cleanup `c` when `m` refuses and refuses in turn;
    `ignore m` drops the answer of `m`, as `(void)m()` does;
  * `forEach` is a loop over a list that stops at the first refusal, `forRange` one that counts;
  * `Post Q E r`: the run that ended in `r` returned a value into `Q` or refused
    into `E`; the rules compute it along a function's structure;
  * `Keeps R m`: every run of `m` relates the state before to the state after
    by the preorder `R`.  The rules take a function apart along its structure, and
    a function's own `Keeps` is an instance for its callers.
-/
import Mathlib

namespace Aegir.Lib

/-- A function of a state `σ` that returns an `α` or refuses. -/
def Fallible (σ α : Type) := σ → Option α × σ

namespace Fallible

variable {σ α β : Type}

instance : Monad (Fallible σ) where
  pure a := fun s => (some a, s)
  bind m f := fun s => match m s with
    | (some a, s') => f a s'
    | (none, s') => (none, s')

def fail : Fallible σ α := fun s => (none, s)

def get : Fallible σ σ := fun s => (some s, s)

def modify (f : σ → σ) : Fallible σ Unit := fun s => (some (), f s)

/-- Go on only if `c` holds. -/
def check (c : Bool) : Fallible σ Unit := if c then pure () else fail

def ofOption : Option α → Fallible σ α
  | some a => pure a
  | none => fail

/-- `if (!m()) { c(); return false; }` -/
def onFail (m : Fallible σ α) (c : Fallible σ Unit) : Fallible σ α := fun s => match m s with
  | (some a, s') => (some a, s')
  | (none, s') => (none, (c s').2)

/-- `(void)m()` -/
def ignore (m : Fallible σ α) : Fallible σ Unit := fun s => (some (), (m s).2)

/-- `if (c && !m()) return false;` -/
def when (c : Prop) [Decidable c] (m : Fallible σ Unit) : Fallible σ Unit := if c then m else pure ()

/-- `m` of a value that is there. -/
def whenSome (o : Option β) (m : β → Fallible σ Unit) : Fallible σ Unit :=
  match o with
  | some b => m b
  | none => pure ()

/-- Whether `m` answered. -/
def attempt (m : Fallible σ α) : Fallible σ (Option α) := fun s => (some (m s).1, (m s).2)

/-- The loop `for (x : l) if (!f(x)) return false;` -/
def forEach (f : β → Fallible σ Unit) : List β → Fallible σ Unit
  | [] => pure ()
  | x :: l => do f x; forEach f l

/-- The loop `for (i = 0; i < n; ++i) if (!f(i)) return false;` -/
def forRange (n : ℕ) (f : ℕ → Fallible σ Unit) : Fallible σ Unit := forEach f (List.range n)

@[simp] theorem pure_run (a : α) (s : σ) : (pure a : Fallible σ α) s = (some a, s) := rfl

theorem bind_run (m : Fallible σ α) (f : α → Fallible σ β) (s : σ) :
    (m >>= f) s = match m s with
      | (some a, s') => f a s'
      | (none, s') => (none, s') := rfl

theorem bind_of_some {m : Fallible σ α} {s s' : σ} {a : α} (h : m s = (some a, s'))
    (f : α → Fallible σ β) : (m >>= f) s = f a s' := by rw [bind_run, h]

theorem bind_of_none {m : Fallible σ α} {s s' : σ} (h : m s = (none, s'))
    (f : α → Fallible σ β) : (m >>= f) s = (none, s') := by rw [bind_run, h]

@[simp] theorem when_pos {c : Prop} [Decidable c] (h : c) (m : Fallible σ Unit) : when c m = m :=
  if_pos h

@[simp] theorem when_neg {c : Prop} [Decidable c] (h : ¬c) (m : Fallible σ Unit) :
    when c m = pure () := if_neg h

@[simp] theorem fail_run (s : σ) : (fail : Fallible σ α) s = (none, s) := rfl

@[simp] theorem get_run (s : σ) : (get : Fallible σ σ) s = (some s, s) := rfl

@[simp] theorem modify_run (f : σ → σ) (s : σ) : modify f s = (some (), f s) := rfl

@[simp] theorem get_bind_run (f : σ → Fallible σ β) (s : σ) : (get >>= f) s = f s s := rfl

@[simp] theorem pure_bind_run (a : α) (f : α → Fallible σ β) (s : σ) :
    ((pure a : Fallible σ α) >>= f) s = f a s := rfl

@[simp] theorem modify_bind_run (g : σ → σ) (f : Unit → Fallible σ β) (s : σ) :
    (modify g >>= f) s = f () (g s) := rfl

@[simp] theorem fail_bind_run (f : α → Fallible σ β) (s : σ) :
    ((fail : Fallible σ α) >>= f) s = (none, s) := rfl

theorem onFail_of_some {m : Fallible σ α} {s s' : σ} {a : α} (h : m s = (some a, s'))
    (c : Fallible σ Unit) : onFail m c s = (some a, s') := by simp only [onFail, h]

theorem onFail_of_none {m : Fallible σ α} {s s' : σ} (h : m s = (none, s'))
    (c : Fallible σ Unit) : onFail m c s = (none, (c s').2) := by simp only [onFail, h]

/-- A function that answered took its first step and then the rest. -/
theorem bind_eq_some {m : Fallible σ α} {f : α → Fallible σ β} {s s' : σ} {b : β}
    (h : (m >>= f) s = (some b, s')) :
    ∃ a s₁, m s = (some a, s₁) ∧ f a s₁ = (some b, s') := by
  rw [bind_run] at h
  rcases hm : m s with ⟨_ | a, s₁⟩
  · rw [hm] at h; simp at h
  · rw [hm] at h; exact ⟨a, s₁, rfl, h⟩

section
variable {f : α → Fallible σ β} {s s' : σ} {b : β}

/-- Either the first call fails, or the second one starts where it ended. -/
theorem bind_cases {m : Fallible σ α} {f : α → Fallible σ β} {s s' : σ} {o : Option β}
    (h : (m >>= f) s = (o, s')) : m s = (none, s') ∧ o = none ∨ ∃ a s₁, m s = (some a, s₁) ∧ f a s₁ = (o, s') := by
  rw [bind_run] at h
  rcases hm : m s with ⟨_ | a, s₁⟩
  · rw [hm] at h
    cases h
    exact Or.inl ⟨rfl, rfl⟩
  · rw [hm] at h
    exact Or.inr ⟨a, s₁, rfl, h⟩

theorem check_eq_some {c : Bool} {u : Unit} (h : check c s = (some u, s')) : c = true ∧ s' = s := by
  cases c with
  | false => cases h
  | true => cases h; exact ⟨rfl, rfl⟩

theorem check_bind_eq_some {c : Bool} {f : Unit → Fallible σ β} (h : (check c >>= f) s = (some b, s')) :
    c = true ∧ f () s = (some b, s') := by
  cases c with
  | false => cases h
  | true => exact ⟨rfl, h⟩

theorem ofOption_bind_eq_some {o : Option α} (h : (ofOption o >>= f) s = (some b, s')) :
    ∃ a, o = some a ∧ f a s = (some b, s') := by
  cases o with
  | none => cases h
  | some a => exact ⟨a, rfl, h⟩

theorem onFail_eq_some {m : Fallible σ α} {c : Fallible σ Unit} {a : α}
    (h : onFail m c s = (some a, s')) : m s = (some a, s') := by
  rcases hm : m s with ⟨_ | a', s₁⟩
  · rw [onFail_of_none hm] at h; cases h
  · rw [onFail_of_some hm] at h; exact h

theorem whenSome_eq_some {o : Option α} {m : α → Fallible σ Unit} {u : Unit}
    (h : whenSome o m s = (some u, s')) :
    (o = none ∧ s' = s) ∨ ∃ a, o = some a ∧ m a s = (some u, s') := by
  cases o with
  | none => cases h; exact Or.inl ⟨rfl, rfl⟩
  | some a => exact Or.inr ⟨a, rfl, h⟩

theorem when_eq_some {c : Prop} [Decidable c] {m : Fallible σ Unit} {u : Unit}
    (h : when c m s = (some u, s')) : (c ∧ m s = (some u, s')) ∨ (¬c ∧ s' = s) := by
  by_cases hc : c
  · rw [when_pos hc] at h; exact Or.inl ⟨hc, h⟩
  · rw [when_neg hc] at h; cases h; exact Or.inr ⟨hc, rfl⟩

end

/-! ## Pre- and postconditions -/

/-- A run returned its value into `Q`, or refused into `E`. -/
def Post (Q : α → σ → Prop) (E : σ → Prop) : Option α × σ → Prop
  | (some a, s) => Q a s
  | (none, s) => E s

namespace Post

variable {Q Q' : α → σ → Prop} {E E' : σ → Prop} {m : Fallible σ α} {s : σ}

theorem mono {r : Option α × σ} (h : Post Q E r) (hQ : ∀ a s, Q a s → Q' a s)
    (hE : ∀ s, E s → E' s) : Post Q' E' r := by
  rcases r with ⟨_ | a, s'⟩
  · exact hE s' h
  · exact hQ a s' h

theorem elim {r : Option α × σ} {R : σ → Prop} (h : Post Q E r) (hQ : ∀ a s, Q a s → R s)
    (hE : ∀ s, E s → R s) : R r.2 := by
  rcases r with ⟨_ | a, s'⟩
  · exact hE s' h
  · exact hQ a s' h

theorem bind {R : β → σ → Prop} {f : α → Fallible σ β} (hm : Post Q E (m s))
    (hf : ∀ a s', Q a s' → Post R E (f a s')) : Post R E ((m >>= f) s) := by
  rw [bind_run]
  rcases hr : m s with ⟨_ | a, s'⟩
  · rw [hr] at hm; exact hm
  · rw [hr] at hm; exact hf a s' hm

theorem onFail {c : Fallible σ Unit} (hm : Post Q E (m s)) (hc : ∀ s, E s → E' (c s).2) :
    Post Q E' (m.onFail c s) := by
  rcases hr : m s with ⟨_ | a, s'⟩
  · rw [hr] at hm; rw [onFail_of_none hr]; exact hc s' hm
  · rw [hr] at hm; rw [onFail_of_some hr]; exact hm

/-- A loop, by an invariant of the elements it has been through. -/
theorem forEach {f : β → Fallible σ Unit} (I : List β → σ → Prop) {l : List β} (h₀ : I [] s)
    (h : ∀ done x rest, l = done ++ x :: rest → ∀ s, I done s →
      Post (fun _ => I (done ++ [x])) E (f x s)) :
    Post (fun _ => I l) E (Fallible.forEach f l s) := by
  have key : ∀ rest done s, l = done ++ rest → I done s →
      Post (fun _ => I l) E (Fallible.forEach f rest s) := by
    intro rest
    induction rest with
    | nil =>
      intro done s hl hs
      rw [List.append_nil] at hl
      rw [hl]; exact hs
    | cons x rest ih =>
      intro done s hl hs
      exact Post.bind (h done x rest hl s hs) fun _ s' hs' => ih (done ++ [x]) s' (by simp [hl]) hs'
  exact key l [] s rfl h₀

/-- A loop that counts, by an invariant of the count. -/
theorem forRange {f : ℕ → Fallible σ Unit} {n : ℕ} (I : ℕ → σ → Prop) (h₀ : I 0 s)
    (h : ∀ i < n, ∀ s, I i s → Post (fun _ => I (i + 1)) E (f i s)) :
    Post (fun _ => I n) E (Fallible.forRange n f s) := by
  have hloop := Post.forEach (f := f) (E := E) (l := List.range n) (fun done => I done.length) h₀ ?_
  · rw [List.length_range] at hloop
    exact hloop
  · intro done x rest hl s hs
    have hlt : done.length < n := by
      have hlen := congrArg List.length hl
      simp only [List.length_range, List.length_append, List.length_cons] at hlen
      omega
    have hx : done.length = x := by
      have hat : (List.range n)[done.length]? = some x := by rw [hl, List.getElem?_append_right (Nat.le_refl _), Nat.sub_self]; rfl
      rw [List.getElem?_range hlt] at hat
      exact Option.some.inj hat
    subst hx
    rw [List.length_append, List.length_singleton]
    exact h _ hlt s hs

end Post

/-! A run that answered, step by step. -/

section
variable {s s' : σ} {u : Unit}

theorem Post.of_some {m : Fallible σ α} {Q : α → σ → Prop} (h : ∀ a s', m s = (some a, s') → Q a s') :
    Post Q (fun _ => True) (m s) := by
  rcases hm : m s with ⟨_ | a, s'⟩
  · trivial
  · exact h a s' hm

theorem forEach_eq_some {f : β → Fallible σ Unit} {l : List β} (I : List β → σ → Prop) (h₀ : I [] s)
    (hstep : ∀ done x rest, l = done ++ x :: rest → ∀ s s' u, I done s → f x s = (some u, s') → I (done ++ [x]) s')
    (h : forEach f l s = (some u, s')) : I l s' := by
  have hp : Post (fun _ => I l) (fun _ => True) (forEach f l s) :=
    Post.forEach I h₀ fun done x rest hl s hs => .of_some fun u s' hx => hstep done x rest hl s s' u hs hx
  rw [h] at hp
  exact hp

theorem forRange_eq_some {f : ℕ → Fallible σ Unit} {n : ℕ} (I : ℕ → σ → Prop) (h₀ : I 0 s)
    (hstep : ∀ i < n, ∀ s s' u, I i s → f i s = (some u, s') → I (i + 1) s')
    (h : forEach f (List.range n) s = (some u, s')) : I n s' := by
  have hp : Post (fun _ => I n) (fun _ => True) (forRange n f s) :=
    Post.forRange I h₀ fun i hi s hs => .of_some fun u s' hx => hstep i hi s s' u hs hx
  rw [forRange, h] at hp
  exact hp

end

/-! ## What every run keeps -/

/-- Every run of `m`, answered or refused, relates its two states by `R`. -/
class Keeps (R : σ → σ → Prop) (m : Fallible σ α) : Prop where
  keeps : ∀ s, R s (m s).2

theorem keeps_modify {R : σ → σ → Prop} {f : σ → σ} (h : ∀ s, R s (f s)) : Keeps R (modify f) := ⟨h⟩

instance keeps_ignore {R : σ → σ → Prop} {m : Fallible σ α} [hm : Keeps R m] : Keeps R (ignore m) :=
  ⟨hm.keeps⟩

section
variable {R : σ → σ → Prop} [IsPreorder σ R]

instance keeps_pure (a : α) : Keeps R (pure a : Fallible σ α) := ⟨fun s => refl_of R s⟩

instance keeps_fail : Keeps R (fail : Fallible σ α) := ⟨fun s => refl_of R s⟩

instance keeps_get : Keeps R (get : Fallible σ σ) := ⟨fun s => refl_of R s⟩

instance keeps_check (c : Bool) : Keeps R (check c : Fallible σ Unit) := by
  unfold check; split <;> infer_instance

instance keeps_ofOption (o : Option α) : Keeps R (ofOption o : Fallible σ α) := by
  cases o
  · exact keeps_fail
  · exact keeps_pure _

theorem keeps_bind {m : Fallible σ α} {f : α → Fallible σ β} (hm : Keeps R m)
    (hf : ∀ a, Keeps R (f a)) : Keeps R (m >>= f) := by
  constructor
  intro s
  have h₁ := hm.keeps s
  rw [bind_run]
  rcases hms : m s with ⟨_ | a, s'⟩
  · rw [hms] at h₁; exact h₁
  · rw [hms] at h₁; exact trans_of R h₁ ((hf a).keeps s')

theorem keeps_onFail {m : Fallible σ α} {c : Fallible σ Unit} (hm : Keeps R m) (hc : Keeps R c) :
    Keeps R (onFail m c) := by
  constructor
  intro s
  have h₁ := hm.keeps s
  rcases hms : m s with ⟨_ | a, s'⟩
  · rw [hms] at h₁; rw [onFail_of_none hms]; exact trans_of R h₁ (hc.keeps s')
  · rw [hms] at h₁; rw [onFail_of_some hms]; exact h₁

theorem keeps_when {c : Prop} [Decidable c] {m : Fallible σ Unit} (h : Keeps R m) :
    Keeps R (when c m) := by
  unfold when; split
  · exact h
  · exact keeps_pure ()

theorem keeps_whenSome {m : β → Fallible σ Unit} (h : ∀ b, Keeps R (m b)) (o : Option β) :
    Keeps R (whenSome o m) := by
  cases o with
  | none => exact keeps_pure ()
  | some b => exact h b

theorem keeps_forEach {f : β → Fallible σ Unit} (hf : ∀ x, Keeps R (f x)) (l : List β) :
    Keeps R (forEach f l) := by
  induction l with
  | nil => exact keeps_pure ()
  | cons x l ih => exact keeps_bind (hf x) fun _ => ih

instance {m : Fallible σ α} {f : α → Fallible σ β} [hm : Keeps R m] [hf : ∀ a, Keeps R (f a)] : Keeps R (m >>= f) :=
  keeps_bind hm hf

instance {m : Fallible σ α} {c : Fallible σ Unit} [hm : Keeps R m] [hc : Keeps R c] : Keeps R (onFail m c) :=
  keeps_onFail hm hc

instance {c : Prop} [Decidable c] {m : Fallible σ Unit} [hm : Keeps R m] : Keeps R (when c m) := keeps_when hm

instance {m : β → Fallible σ Unit} [hm : ∀ b, Keeps R (m b)] (o : Option β) : Keeps R (whenSome o m) :=
  keeps_whenSome hm o

instance {f : β → Fallible σ Unit} [hf : ∀ x, Keeps R (f x)] (l : List β) : Keeps R (forEach f l) := keeps_forEach hf l

omit [IsPreorder σ R] in
instance {c : Prop} [Decidable c] {m n : Fallible σ α} [hm : Keeps R m] [hn : Keeps R n] : Keeps R (if c then m else n) := by
  split
  · exact hm
  · exact hn

/-! A step that only looks, before one that depends on what it saw. -/

omit [IsPreorder σ R] in
theorem keeps_get_bind {f : σ → Fallible σ α} (h : ∀ s, R s (f s s).2) : Keeps R (get >>= f) := ⟨h⟩

theorem bind_keeps {m : Fallible σ β} {f : β → Fallible σ α} {s : σ} (hm : R s (m s).2)
    (hf : ∀ b s', m s = (some b, s') → R s' (f b s').2) : R s ((m >>= f) s).2 := by
  rw [bind_run]
  rcases hr : m s with ⟨_ | b, s'⟩
  · rw [hr] at hm; exact hm
  · rw [hr] at hm; exact trans_of R hm (hf b s' hr)

theorem check_bind_keeps {c : Bool} {f : Unit → Fallible σ α} {s : σ} (h : c = true → R s (f () s).2) :
    R s ((check c >>= f) s).2 := by
  cases c with
  | false => exact refl_of R s
  | true => exact h rfl

theorem ofOption_bind_keeps {o : Option β} {f : β → Fallible σ α} {s : σ}
    (h : ∀ b, o = some b → R s (f b s).2) : R s ((ofOption o >>= f) s).2 := by
  cases o with
  | none => exact refl_of R s
  | some b => exact h b rfl

end

end Fallible

end Aegir.Lib
