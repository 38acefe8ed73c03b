/-
  What a name relative to a directory descriptor names.

  A descriptor keeps the path its volume knows it by, and a name relative to it is composed with
  that path and with the current directory.
-/
import Aegir.Posix.Files

namespace Aegir.Posix

/-! ## The paths of a descriptor -/

def Target.name : Target → Text
  | .vfs full => full.takeWhile (· ≠ ':')
  | .root => []

/-- The path on its volume, which a descriptor keeps. -/
def Target.rest : Target → Text
  | .vfs full => (full.dropWhile (· ≠ ':')).drop 1
  | .root => []

def Target.top : Target → Text
  | .vfs full => '/' :: full.takeWhile (· ≠ ':')
  | .root => []

def below (rest n : Text) : Text :=
  if rest = [] ∨ rest.getLast? = some '/' then rest ++ n else rest ++ '/' :: n

def Target.absolute (t : Target) (n : Text) : Text := t.top ++ '/' :: below t.rest n

/-- A relative path that names no volume. -/
structure Relative (n : Text) : Prop where
  ne_nil : n ≠ []
  slash : n.head? ≠ some '/'
  volume : ¬ namesAVolume n

theorem anchoredPath_eq {entries : Entries} {fd : ℤ} {d : Entry} {n : Text} {capacity : ℕ} (hfd : 0 ≤ fd)
    (hd : entryFor entries fd = some d) (hdir : d.directory = true) (hn : Relative n) (hfits : n.length + 1 ≤ capacity) :
    anchoredPath entries fd n capacity = (below d.path n).take (capacity - 1) := by
  have hanchor : ¬ (fd < 0 ∨ n.head? = some '/' ∨ namesAVolume n = true) := by
    rintro (h | h | h)
    · omega
    · exact hn.slash h
    · exact hn.volume h
  rw [anchoredPath, if_neg (by omega), if_neg hanchor, hd]
  simp only [hdir, if_true]
  by_cases hlong : capacity - 1 ≤ d.path.length
  · -- the descriptor's own path fills the room
    have hlen : (d.path.take (capacity - 1)).length = capacity - 1 := by rw [List.length_take]; omega
    rw [if_neg (by rw [hlen]; omega), hlen, Nat.sub_self, List.take_zero, List.append_nil, below]
    split_ifs
    · rw [List.take_append_of_le_length hlong]
    · rw [List.take_append_of_le_length hlong]
  · have htake : d.path.take (capacity - 1) = d.path := List.take_of_length_le (by omega)
    rw [htake, below]
    by_cases hend : d.path = [] ∨ d.path.getLast? = some '/'
    · have hno : ¬ (d.path ≠ [] ∧ d.path.getLast? ≠ some '/' ∧ d.path.length + 1 < capacity) := by
        rintro ⟨hne, hlast, -⟩
        rcases hend with h | h
        · exact hne h
        · exact hlast h
      rw [if_neg hno, if_pos hend, List.take_append, htake]
    · have hyes : d.path ≠ [] ∧ d.path.getLast? ≠ some '/' ∧ d.path.length + 1 < capacity := by
        refine ⟨fun h => hend (.inl h), fun h => hend (.inr h), by omega⟩
      rw [if_pos hyes, if_neg hend, List.take_append, htake]
      have hsub : capacity - 1 - d.path.length = (capacity - 1 - (d.path ++ ['/']).length) + 1 := by
        rw [List.length_append, List.length_singleton]
        omega
      rw [hsub, List.take_succ_cons, List.append_assoc]
      rfl

/-! ## Where they land -/

theorem namesAVolume_take {path : Text} (h : ¬ namesAVolume path) (k : ℕ) : ¬ namesAVolume (path.take k) := by
  induction path generalizing k with
  | nil => simpa using h
  | cons c path ih =>
    cases k with
    | zero => simp [namesAVolume]
    | succ k =>
      simp only [namesAVolume, List.take_succ_cons] at h ⊢
      split_ifs at h ⊢ with hcolon hslash
      · exact h
      · simp
      · exact ih h k

theorem Cwd.posix_slash {c : Cwd} {C : Text} (h : c.posix = some C) : C.head? = some '/' ∧ C.length ≤ kPathCapacity := by
  unfold Cwd.posix at h
  split_ifs at h
  · cases h
    exact ⟨rfl, by decide⟩
  · unfold present at h
    obtain ⟨path, hpath, hfit⟩ := Option.bind_eq_some_iff.1 h
    split_ifs at hfit with hlong
    cases hfit
    refine ⟨?_, Nat.not_lt.1 hlong⟩
    simp only [Posix.absolute] at hpath
    split at hpath
    · cases hpath
    · split_ifs at hpath <;> cases hpath <;> rfl

def Fits (c : Cwd) (path : Text) : Prop := ∃ C, c.posix = some C ∧ C.length + 1 + path.length ≤ kPathCapacity

instance (c : Cwd) (path : Text) : Decidable (Fits c path) :=
  match h : c.posix with
  | none => .isFalse fun ⟨C, hC, _⟩ => by rw [h] at hC; cases hC
  | some C =>
    decidable_of_iff (C.length + 1 + path.length ≤ kPathCapacity)
      ⟨fun hfit => ⟨C, h, hfit⟩, fun ⟨C', hC', hfit⟩ => by rw [h] at hC'; cases hC'; exact hfit⟩

def Cwd.names (c : Cwd) : List Text := pushAll [] (c.posix.getD [])

theorem posixPath_of_relative {c : Cwd} {path : Text} (hp : Relative path) :
    posixPath path c =
      if Fits c path then landing ((climb path).on c.names) kPathCapacity else none := by
  unfold posixPath translate composed
  rw [if_neg hp.ne_nil, if_neg hp.volume, if_neg hp.slash]
  cases hc : c.posix with
  | none =>
    rw [if_neg fun ⟨C, hC, _⟩ => by rw [hc] at hC; cases hC]
    rfl
  | some C =>
    have hne : C ≠ [] := fun hnil => by simpa [hnil] using (Cwd.posix_slash hc).1
    by_cases hfit : C.length + 1 + path.length ≤ kPathCapacity
    · rw [if_pos ⟨C, hc, hfit⟩]
      dsimp only
      rw [if_neg (by rintro (h | h); exacts [hne h, by omega]), Option.bind_some, pushAll_slash, pushAll_eq path]
      simp only [Cwd.names, hc, Option.getD_some]
    · rw [if_neg fun ⟨C', hC', hfit'⟩ => by rw [hc] at hC'; cases hC'; exact hfit hfit']
      dsimp only
      rw [if_pos (.inr (by omega))]
      rfl

section
variable {entries : Entries} {c : Cwd} {fd : ℤ} {d : Entry} {n : Text}

theorem named_descriptor (hfd : 0 ≤ fd) (hd : entryFor entries fd = some d) (hdir : d.directory = true)
    (hn : Relative n) (hrel : Relative (below d.path n)) :
    named ⟨entries, c⟩ fd n =
      if Fits c (below d.path n) then landing ((climb (below d.path n)).on c.names) kPathCapacity else none := by
  have hlen : n.length ≤ (below d.path n).length := by
    unfold below
    split_ifs <;> simp only [List.length_append, List.length_cons] <;> omega
  have hshort : Fits c (below d.path n) → (below d.path n).length + 1 < kPathCapacity := by
    rintro ⟨C, hC, hfit⟩
    have hne : C ≠ [] := fun hnil => by simpa [hnil] using (Cwd.posix_slash hC).1
    have hpos := List.length_pos_iff.2 hne
    omega
  by_cases hfits : n.length + 1 ≤ kPathCapacity
  · have hanchor := anchoredPath_eq hfd hd hdir hn hfits
    have htake : Relative ((below d.path n).take (kPathCapacity - 1)) := by
      obtain ⟨a, path, hpath⟩ := List.exists_cons_of_ne_nil hrel.ne_nil
      refine ⟨?_, ?_, namesAVolume_take hrel.volume _⟩
      · rw [hpath]
        exact List.cons_ne_nil _ _
      · have hslash := hrel.slash
        rw [hpath] at hslash ⊢
        exact hslash
    simp only [named, hanchor, if_neg htake.ne_nil, posixPath_of_relative htake]
    by_cases hfit : Fits c (below d.path n)
    · have heq : (below d.path n).take (kPathCapacity - 1) = below d.path n :=
        List.take_of_length_le (by have := hshort hfit; omega)
      rw [heq]
    · rw [if_neg hfit, if_neg]
      rintro ⟨C, hC, hlong⟩
      have hne : C ≠ [] := fun hnil => by simpa [hnil] using (Cwd.posix_slash hC).1
      have hpos := List.length_pos_iff.2 hne
      refine hfit ⟨C, hC, ?_⟩
      rw [List.length_take] at hlong
      unfold kPathCapacity at hlong ⊢
      omega
  · have hanchor : anchoredPath entries fd n kPathCapacity = [] := by rw [anchoredPath, if_pos (by omega)]
    rw [if_neg fun hfit => by have := hshort hfit; omega]
    simp [named, hanchor]

theorem named_absolute (t : Target) :
    named ⟨entries, c⟩ atFdCwd (t.absolute n) =
      if (t.absolute n).length + 1 ≤ kPathCapacity then
        landing ((climb (below t.rest n)).on (pushAll [] t.top)) kPathCapacity
      else none := by
  have hslash : (t.absolute n).head? = some '/' := by cases t <;> rfl
  have hvolume : ¬ namesAVolume (t.absolute n) := by cases t <;> simp [Target.absolute, Target.top, namesAVolume]
  have hne : t.absolute n ≠ [] := by cases t <;> simp [Target.absolute, Target.top]
  by_cases hfit : (t.absolute n).length + 1 ≤ kPathCapacity
  · have hanchor : anchoredPath entries atFdCwd (t.absolute n) kPathCapacity = t.absolute n := by
      rw [anchoredPath, if_neg (by omega), if_pos (.inl (by decide))]
    have hcomposed : composed (t.absolute n) c.posix kPathCapacity = some (t.absolute n) := by
      unfold composed
      rw [if_pos hslash, if_neg (by omega)]
    simp only [named, hanchor, if_neg hne, if_pos hfit]
    rw [posixPath, translate, if_neg hne, if_neg hvolume, hcomposed, Option.bind_some, Target.absolute,
      pushAll_slash, pushAll_eq (below t.rest n)]
  · have hanchor : anchoredPath entries atFdCwd (t.absolute n) kPathCapacity = [] := by
      rw [anchoredPath, if_pos (by omega)]
    rw [if_neg hfit]
    simp [named, hanchor]

end

/-! ## The descriptor of a directory -/

section
variable {σ : Type} {v : Volumes σ} {entries entries' : Entries} {t : Target} {flags : Flags} {s s' : σ} {fd : ℕ}
  {d : Entry}

theorem eq_of_installed {e : Entry} (h : installed entries e s = (.ok fd, entries', s')) (hd : entryFor entries' fd = some d) :
    d = e ∧ 3 ≤ fd := by
  simp only [installed, Prod.mk.injEq, Except.ok.injEq] at h
  obtain ⟨rfl, rfl, -⟩ := h
  rw [(entryFor_install entries e).2, if_pos rfl] at hd
  exact ⟨(Option.some.inj hd).symm, Nat.le_add_left _ _⟩

theorem path_of_openTarget (h : openTarget v entries (some t) flags s = (.ok fd, entries', s'))
    (hd : entryFor entries' fd = some d) (hdir : d.directory = true) : d.path = t.rest ∧ 3 ≤ fd := by
  have hfile : ∀ {e : Entry} {u : σ}, e.directory = false → installed entries e u ≠ (.ok fd, entries', s') := by
    intro e u he hin
    rw [(eq_of_installed hin hd).1, he] at hdir
    cases hdir
  cases t with
  | root =>
    simp only [openTarget, openRoot] at h
    split_ifs at h
    · cases h
    · obtain ⟨rfl, hfd⟩ := eq_of_installed h hd
      exact ⟨rfl, hfd⟩
  | vfs full =>
    simp only [openTarget] at h
    split at h
    · cases h
    · rename_i volume rest hres
      have hrest : rest = (Target.vfs full).rest := by
        simp only [resolve] at hres
        obtain ⟨volume', -, hfit⟩ := Option.bind_eq_some_iff.1 hres
        split_ifs at hfit
        cases hfit
        rfl
      have hinstalled : ∀ {u : σ}, installed entries (.on volume rest 0 true false false) u = (.ok fd, entries', s') →
          d.path = (Target.vfs full).rest ∧ 3 ≤ fd := by
        intro u hin
        obtain ⟨rfl, hfd⟩ := eq_of_installed hin hd
        exact ⟨hrest, hfd⟩
      simp only [openPath] at h
      split_ifs at h
      · -- a directory was asked for
        split at h
        · cases h
        · split_ifs at h
          · exact hinstalled h
          · cases h
      · -- a write open never answers a directory
        simp only [openForWrite] at h
        split_ifs at h
        all_goals first | exact absurd h (hfile rfl) | cases h
      · split at h
        · cases h
        · split_ifs at h
          · exact hinstalled h
          · -- neither does a read open of a file
            simp only [openForRead] at h
            split at h
            · cases h
            · split at h
              · split_ifs at h
                all_goals exact absurd h (hfile rfl)
              · exact absurd h (hfile rfl)

end

/-! ## What the claim asks -/

section
variable {σ : Type} (v : Volumes σ)

/-- Under both current directories a name relative to a descriptor is answered as the absolute
    path is. -/
structure Answers (entries : Entries) (c₁ c₂ : Cwd) (fd : ℤ) (n abs : Text) (s : σ) : Prop where
  opened : ∀ flags, openat v ⟨entries, c₁⟩ fd n flags s = openat v ⟨entries, c₂⟩ fd n flags s ∧
    openat v ⟨entries, c₁⟩ fd n flags s = openat v ⟨entries, c₁⟩ atFdCwd abs flags s
  stat : newfstatat v ⟨entries, c₁⟩ fd n s = newfstatat v ⟨entries, c₂⟩ fd n s ∧
    newfstatat v ⟨entries, c₁⟩ fd n s = newfstatat v ⟨entries, c₁⟩ atFdCwd abs s
  access : faccessat v ⟨entries, c₁⟩ fd n s = faccessat v ⟨entries, c₂⟩ fd n s ∧
    faccessat v ⟨entries, c₁⟩ fd n s = faccessat v ⟨entries, c₁⟩ atFdCwd abs s

end

/-- A directory descriptor opened on `P` anchors its own directory, whatever the volumes hold and
    whatever has happened since, as long as the descriptor stands. -/
def Anchored (c₀ : Cwd) (P : Text) (t : Target) (n : Text) (c₁ c₂ : Cwd) : Prop :=
  ∀ (σ : Type) (v : Volumes σ) (entries entries' : Entries) (s s' : σ) (flags : Flags) (fd : ℕ) (d : Entry),
    openat v ⟨entries, c₀⟩ atFdCwd P flags s = (.ok fd, entries', s') → entryFor entries' fd = some d →
    d.directory = true → ∀ (later : Entries) (u : σ), entryFor later fd = some d →
      Answers v later c₁ c₂ fd n (t.absolute n) u

/-- The current directory agrees with the root of the descriptor's volume above the names that
    the composed name climbs, and leaves it the room the absolute path has. -/
structure Composes (t : Target) (n : Text) (c : Cwd) : Prop where
  relative : Relative (below t.rest n)
  fits : Fits c (below t.rest n) ↔ (t.absolute n).length + 1 ≤ kPathCapacity
  names : Fits c (below t.rest n) →
    c.names.drop (climb (below t.rest n)).drops = (pushAll [] t.top).drop (climb (below t.rest n)).drops

/-- No name has a colon, or is the `dev` of `/dev/null`. -/
structure PlainNames (t : Target) (n : Text) (c : Cwd) : Prop where
  named : t = .root ∨ t.name ≠ []
  relative : Relative (below t.rest n)
  here : Plain ((climb (below t.rest n)).on c.names)
  there : Plain ((climb (below t.rest n)).on (pushAll [] t.top))

/-! ## When it holds -/

section
variable {c₀ c c₁ c₂ : Cwd} {P n : Text} {t : Target} {entries : Entries} {fd : ℤ} {d : Entry}

theorem Composes.named (h : Composes t n c) (hn : Relative n) (hfd : 0 ≤ fd) (hd : entryFor entries fd = some d)
    (hdir : d.directory = true) (hpath : d.path = t.rest) (c' : Cwd) :
    named ⟨entries, c⟩ fd n = named ⟨entries, c'⟩ atFdCwd (t.absolute n) := by
  rw [named_descriptor hfd hd hdir hn (hpath ▸ h.relative), named_absolute, hpath]
  by_cases hfit : Fits c (below t.rest n)
  · rw [if_pos hfit, if_pos (h.fits.1 hfit), Climb.on, Climb.on, h.names hfit]
  · rw [if_neg hfit, if_neg fun habs => hfit (h.fits.2 habs)]

theorem Composes.anchored (h₁ : Composes t n c₁) (h₂ : Composes t n c₂) (hn : Relative n)
    (hP : Posix.named ⟨[], c₀⟩ atFdCwd P = some t) : Anchored c₀ P t n c₁ c₂ := by
  intro σ v entries entries' s s' flags fd d hopen hd hdir later u hlater
  have htarget : Posix.named ⟨entries, c₀⟩ atFdCwd P = some t := hP
  rw [openat_eq, htarget] at hopen
  obtain ⟨hpath, hfd⟩ := path_of_openTarget hopen hd hdir
  have hfd' : (0 : ℤ) ≤ fd := by omega
  have habs := h₁.named hn hfd' hlater hdir hpath c₁
  have hsame : Posix.named ⟨later, c₁⟩ fd n = Posix.named ⟨later, c₂⟩ fd n :=
    habs.trans (h₂.named hn hfd' hlater hdir hpath c₁).symm
  have hne : t.absolute n ≠ [] := by cases t <;> simp [Target.absolute, Target.top]
  constructor
  · intro flags
    simp only [openat_eq]
    exact ⟨by rw [hsame], by rw [habs]⟩
  · rw [newfstatat_eq v hn.ne_nil, newfstatat_eq v hn.ne_nil, newfstatat_eq v hne]
    exact ⟨by rw [hsame], by rw [habs]⟩
  · simp only [faccessat_eq]
    exact ⟨by rw [hsame], by rw [habs]⟩

end

/-! ## Only then -/

/-- Volumes that tell one path from every other. -/
def probe (a : Target) : Volumes Unit where
  volume name := if name = [] then none else if name = a.name then some 1 else some 2
  nameless := by simp
  stat volume rest _ := some ⟨.dir, 0, 0, if volume = 1 ∧ rest = a.rest then 1 else 2⟩
  openWrite _ _ _ s := (0, s)
  openRead _ _ s := (none, s)

theorem probe_resolve {a : Target} {full : Text} (hname : (Target.vfs full).name ≠ [])
    (hrest : (Target.vfs full).rest.length ≤ kPathCapacity) :
    resolve (probe a) full = some (if (Target.vfs full).name = a.name then 1 else 2, (Target.vfs full).rest) := by
  have hvolume : (probe a).volume (full.takeWhile (· ≠ ':')) =
      some (if (Target.vfs full).name = a.name then 1 else 2) := by
    show (if (Target.vfs full).name = [] then none else if (Target.vfs full).name = a.name then some 1 else some 2) = _
    rw [if_neg hname]
    split_ifs <;> rfl
  simp only [resolve, hvolume, Option.bind_some]
  exact if_neg (Nat.not_lt.2 hrest)

theorem Target.vfs_eq {full full' : Text} (hcolon : ':' ∈ full) (hcolon' : ':' ∈ full')
    (hname : (Target.vfs full).name = (Target.vfs full').name) (hrest : (Target.vfs full).rest = (Target.vfs full').rest) :
    full = full' := by
  have hsplit : ∀ {x : Text}, ':' ∈ x → x = (Target.vfs x).name ++ ':' :: (Target.vfs x).rest := by
    intro x hx
    induction x with
    | nil => simp at hx
    | cons c x ih =>
      by_cases hc : c = ':'
      · subst hc
        simp [Target.name, Target.rest]
      · have hmem : ':' ∈ x := by simpa [Ne.symm hc] using hx
        have hrec := ih hmem
        simp only [Target.name, Target.rest] at hrec ⊢
        rw [List.takeWhile_cons_of_pos (by simpa using hc), List.dropWhile_cons_of_pos (by simpa using hc),
          List.cons_append, ← hrec]
  rw [hsplit hcolon, hsplit hcolon', hname, hrest]

theorem spell_cases {names : List Text} (h : Names names) (hplain : Plain names) :
    spell names = .root ∨ ∃ full, spell names = .vfs full ∧ ':' ∈ full ∧ (Target.vfs full).name ≠ [] ∧
      (Target.vfs full).rest.length ≤ room names := by
  unfold spell
  split
  · exact .inl rfl
  · rename_i name rest hrev
    right
    have hmem : name ∈ names := List.mem_reverse.1 (hrev ▸ List.mem_cons_self)
    have hne : ∀ c ∈ name, decide (c ≠ ':') = true := by
      intro c hc
      rw [decide_eq_true_eq]
      rintro rfl
      exact (hplain _ hmem).1 hc
    have hname : (Target.vfs (name ++ ':' :: ['/'].intercalate rest)).name = name := by
      show List.takeWhile _ _ = _
      rw [List.takeWhile_append_of_pos hne, List.takeWhile_cons_of_neg (by simp), List.append_nil]
    have hrest : (Target.vfs (name ++ ':' :: ['/'].intercalate rest)).rest = ['/'].intercalate rest := by
      show List.drop 1 (List.dropWhile _ _) = _
      rw [List.dropWhile_append_of_pos hne, List.dropWhile_cons_of_neg (by simp)]
      rfl
    refine ⟨_, rfl, by simp, ?_, ?_⟩
    · rw [hname]
      exact (h _ hmem).1
    · have hroom : room names = room names.reverse := by
        simp only [room, List.map_reverse, List.sum_reverse]
      have hlen := length_intercalate_le rest
      rw [hrest, hroom, hrev]
      simp only [room, List.map_cons, List.sum_cons] at hlen ⊢
      omega

theorem probe_inj {x y : List Text} (hx : Names x) (hy : Names y) (hpx : Plain x) (hpy : Plain y)
    (hrx : room x ≤ kPathCapacity) (hry : room y ≤ kPathCapacity)
    (h : statTarget (probe (spell y)) (some (spell x)) () = statTarget (probe (spell y)) (some (spell y)) ()) : x = y := by
  have hvfs : ∀ (a : Target) {full : Text}, (Target.vfs full).name ≠ [] → (Target.vfs full).rest.length ≤ kPathCapacity →
      statTarget (probe a) (some (.vfs full)) () =
        some (fillKstat ⟨.dir, 0, 0, if (Target.vfs full).name = a.name ∧ (Target.vfs full).rest = a.rest then 1 else 2⟩) := by
    intro a full hname hrest
    simp only [statTarget, probe_resolve hname hrest, Option.bind_some]
    show some (fillKstat ⟨.dir, 0, 0, if (if _ then 1 else 2) = 1 ∧ _ then 1 else 2⟩) = _
    by_cases heq : (Target.vfs full).name = a.name
    · simp only [heq, if_true, true_and]
    · rw [if_neg heq, if_neg fun h => absurd h.1 (by decide), if_neg fun h => heq h.1]
  have hino : ∀ {i j : Info}, some (fillKstat i) = some (fillKstat j) → i.ino = j.ino :=
    fun h => congrArg Kstat.ino (Option.some.inj h)
  apply spell_inj hx hy hpx hpy
  obtain ⟨tx, htx⟩ : ∃ tx, tx = spell x := ⟨_, rfl⟩
  obtain ⟨ty, hty⟩ : ∃ ty, ty = spell y := ⟨_, rfl⟩
  rw [← htx, ← hty] at h ⊢
  rcases spell_cases hx hpx with hroot | ⟨full, hfull, hcolon, hname, hrest⟩
  · rcases spell_cases hy hpy with hroot' | ⟨full', hfull', -, hname', hrest'⟩
    · rw [htx, hty, hroot, hroot']
    · -- the root has no identity, and a directory of a volume has
      obtain rfl := hty.trans hfull'
      obtain rfl := htx.trans hroot
      rw [hvfs _ hname' (hrest'.trans hry)] at h
      have h := hino h
      dsimp only at h
      split_ifs at h
  · obtain rfl := htx.trans hfull
    rw [hvfs _ hname (hrest.trans hrx)] at h
    rcases spell_cases hy hpy with hroot' | ⟨full', hfull', hcolon', hname', hrest'⟩
    · obtain rfl := hty.trans hroot'
      have h := hino h
      dsimp only at h
      split_ifs at h
    · obtain rfl := hty.trans hfull'
      have hself := hvfs (.vfs full') hname' (hrest'.trans hry)
      rw [if_pos ⟨rfl, rfl⟩] at hself
      rw [hself] at h
      have h := hino h
      dsimp only at h
      split_ifs at h with heq
      · rw [Target.vfs_eq hcolon hcolon' heq.1 heq.2]
      · cases h

theorem posixPath_length {c : Cwd} {path full : Text} (h : posixPath path c = some (.vfs full)) :
    full.length ≤ kPathCapacity := by
  unfold posixPath translate at h
  split_ifs at h with hnil hvolume hlong
  · obtain rfl : path = full := by simpa using h
    exact Nat.not_lt.1 hlong
  · obtain ⟨whole, hwhole, hland⟩ := Option.bind_eq_some_iff.1 h
    have habs : whole.head? = some '/' ∧ whole.length ≤ kPathCapacity := by
      unfold composed at hwhole
      split_ifs at hwhole with hslash hlong
      · cases hwhole
        exact ⟨hslash, Nat.not_lt.1 hlong⟩
      · cases hc : c.posix with
        | none => simp [hc] at hwhole
        | some C =>
          rw [hc] at hwhole
          dsimp only at hwhole
          split_ifs at hwhole with hlong
          obtain rfl : C ++ '/' :: path = whole := by simpa using hwhole
          push Not at hlong
          obtain ⟨a, C', rfl⟩ := List.exists_cons_of_ne_nil hlong.1
          refine ⟨(Cwd.posix_slash hc).1, ?_⟩
          simp only [List.length_append, List.length_cons] at hlong ⊢
          omega
    exact landing_length hland ((room_pushAll_absolute habs.1).trans habs.2) (by decide)

def onlyDirectory : Flags := ⟨false, false, false, false, false, false, true⟩

theorem probe_opens (a : Target) {c₀ : Cwd} {P : Text} {t : Target} (hP : named ⟨[], c₀⟩ atFdCwd P = some t)
    (ht : t = .root ∨ t.name ≠ []) :
    ∃ d, openat (probe a) ⟨[], c₀⟩ atFdCwd P onlyDirectory () = (.ok 3, [some d], ()) ∧ d.directory = true ∧
      d.path = t.rest := by
  rw [openat_eq, hP]
  cases t with
  | root => exact ⟨.ofRoot, rfl, rfl, rfl⟩
  | vfs full =>
    have hname : (Target.vfs full).name ≠ [] := ht.resolve_left (by simp)
    have hfull : full.length ≤ kPathCapacity := by
      simp only [named] at hP
      split_ifs at hP
      exact posixPath_length hP
    have hrest : (Target.vfs full).rest.length ≤ kPathCapacity := by
      simp only [Target.rest, List.length_drop]
      have hlen := (List.dropWhile_suffix (fun c => decide (c ≠ ':')) (l := full)).length_le
      omega
    refine ⟨.on (if (Target.vfs full).name = a.name then 1 else 2) (Target.vfs full).rest 0 true false false, ?_, rfl, rfl⟩
    simp only [openTarget, probe_resolve hname hrest]
    rfl

section
variable {c₀ c c₁ c₂ : Cwd} {P n : Text} {t : Target}

theorem names_of_fits {path : Text} (h : Fits c path) :
    Names ((climb path).on c.names) ∧ room ((climb path).on c.names) ≤ kPathCapacity := by
  obtain ⟨C, hC, hfit⟩ := h
  have hnames : (climb path).on c.names = pushAll [] (C ++ '/' :: path) := by
    rw [pushAll_slash, ← pushAll_eq, Cwd.names, hC, Option.getD_some]
  have hhead := (Cwd.posix_slash hC).1
  rw [hnames]
  refine ⟨names_pushAll (by simp [Names]) _, (room_pushAll_absolute ?_).trans ?_⟩
  · cases C with
    | nil => simp at hhead
    | cons => exact hhead
  · simp only [List.length_append, List.length_cons]
    omega

theorem names_of_absolute (h : (t.absolute n).length + 1 ≤ kPathCapacity) :
    Names ((climb (below t.rest n)).on (pushAll [] t.top)) ∧
      room ((climb (below t.rest n)).on (pushAll [] t.top)) ≤ kPathCapacity := by
  have hnames : (climb (below t.rest n)).on (pushAll [] t.top) = pushAll [] (t.absolute n) := by
    rw [Target.absolute, pushAll_slash, pushAll_eq (below t.rest n)]
  rw [hnames]
  exact ⟨names_pushAll (by simp [Names]) _, (room_pushAll_absolute (by cases t <;> rfl)).trans (by omega)⟩

theorem Composes.of_answers {entries : Entries} {fd : ℤ} {d : Entry} (hn : Relative n) (hplain : PlainNames t n c)
    (hfd : 0 ≤ fd) (hd : entryFor entries fd = some d) (hdir : d.directory = true) (hpath : d.path = t.rest) (c' : Cwd)
    (h : newfstatat (probe (spell ((climb (below t.rest n)).on (pushAll [] t.top)))) ⟨entries, c⟩ fd n () =
      newfstatat (probe (spell ((climb (below t.rest n)).on (pushAll [] t.top)))) ⟨entries, c'⟩ atFdCwd (t.absolute n) ()) :
    Composes t n c := by
  obtain ⟨a, ha⟩ : ∃ a, a = (climb (below t.rest n)).on (pushAll [] t.top) := ⟨_, rfl⟩
  have hne : t.absolute n ≠ [] := by cases t <;> simp [Target.absolute, Target.top]
  rw [newfstatat_eq _ hn.ne_nil, newfstatat_eq _ hne, named_descriptor hfd hd hdir hn (hpath ▸ hplain.relative),
    named_absolute, hpath, ← ha] at h
  have hok : ∀ {x y : List Text}, Names y → Plain y → room y ≤ kPathCapacity →
      ∃ k, statTarget (probe (spell x)) (some (spell y)) () = some k := by
    intro x y hy hpy hry
    rcases spell_cases hy hpy with hroot | ⟨full, hfull, -, hname, hrest⟩
    · exact ⟨_, by rw [hroot]; rfl⟩
    · exact ⟨_, by rw [hfull, statTarget, probe_resolve hname (hrest.trans hry)]; rfl⟩
  by_cases hfit : Fits c (below t.rest n)
  · obtain ⟨hnames, hroom⟩ := names_of_fits hfit
    rw [if_pos hfit, landing_eq_spell hnames hplain.here hroom] at h
    obtain ⟨k, hk⟩ := hok (x := a) hnames hplain.here hroom
    by_cases habs : (t.absolute n).length + 1 ≤ kPathCapacity
    · obtain ⟨hnames', hroom'⟩ := names_of_absolute habs
      rw [← ha] at hnames' hroom'
      have hplain' : Plain a := ha ▸ hplain.there
      obtain ⟨k', hk'⟩ := hok (x := a) hnames' hplain' hroom'
      rw [if_pos habs, landing_eq_spell hnames' hplain' hroom', hk, hk'] at h
      have hsame : (climb (below t.rest n)).on c.names = a := by
        refine probe_inj hnames hnames' hplain.here hplain' hroom hroom' ?_
        rw [hk, hk']
        exact congrArg some (Except.ok.inj h)
      refine ⟨hplain.relative, ⟨fun _ => habs, fun _ => hfit⟩, fun _ => ?_⟩
      rw [ha, Climb.on, Climb.on] at hsame
      exact List.append_cancel_left hsame
    · rw [if_neg habs, hk] at h
      cases h
  · refine ⟨hplain.relative, ⟨fun h => absurd h hfit, fun habs => ?_⟩, fun h => absurd h hfit⟩
    obtain ⟨hnames', hroom'⟩ := names_of_absolute habs
    rw [← ha] at hnames' hroom'
    have hplain' : Plain a := ha ▸ hplain.there
    obtain ⟨k', hk'⟩ := hok (x := a) hnames' hplain' hroom'
    rw [if_neg hfit, if_pos habs, landing_eq_spell hnames' hplain' hroom', hk'] at h
    cases h

end

end Aegir.Posix
