/-
  The POSIX view of a path, as a pure value.

  `/Name/rest` is the native `Name:rest`, `/` is the synthetic root, and `.` and `..` are
  normalized.  The names kept so far are a stack, the innermost first.
-/
import Mathlib

namespace Aegir.Posix

abbrev Text := List Char

def namesAVolume : Text → Bool
  | [] => false
  | c :: path => if c = ':' then true else if c = '/' then false else namesAVolume path

inductive Target where
  | vfs (path : Text)
  | root
  deriving DecidableEq

/-! ## Names -/

/-- One component on the stack of names. -/
def push (names : List Text) (component : Text) : List Text :=
  if component = [] ∨ component = ['.'] then names
  else if component = ['.', '.'] then names.tail
  else component :: names

def pushAll (names : List Text) (path : Text) : List Text := (path.splitOn '/').foldl push names

theorem pushAll_slash (names : List Text) (a b : Text) :
    pushAll names (a ++ '/' :: b) = pushAll (pushAll names a) b := by
  rw [pushAll, List.splitOn_append_cons_self, List.foldl_append]
  rfl

/-- What components do to any stack: drop the first `drops` names, and put `own` on top. -/
structure Climb where
  drops : ℕ
  own : List Text

def Climb.push (c : Climb) (component : Text) : Climb :=
  if component = [] ∨ component = ['.'] then c
  else if component = ['.', '.'] then
    match c.own with
    | [] => ⟨c.drops + 1, []⟩
    | _ :: own => ⟨c.drops, own⟩
  else ⟨c.drops, component :: c.own⟩

def climb (path : Text) : Climb := (path.splitOn '/').foldl Climb.push ⟨0, []⟩

def Climb.on (c : Climb) (names : List Text) : List Text := c.own ++ names.drop c.drops

theorem Climb.push_on (c : Climb) (component : Text) (names : List Text) :
    (c.push component).on names = Posix.push (c.on names) component := by
  obtain ⟨drops, own⟩ := c
  unfold Climb.push Posix.push
  split_ifs
  · rfl
  · cases own <;> simp [Climb.on, List.tail_drop]
  · rfl

theorem pushAll_eq (path : Text) (names : List Text) : pushAll names path = (climb path).on names := by
  have hfold : ∀ (components : List Text) (c : Climb),
      components.foldl push (c.on names) = (components.foldl Climb.push c).on names := by
    intro components
    induction components with
    | nil => intro c; rfl
    | cons component components ih => intro c; rw [List.foldl_cons, List.foldl_cons, ← ih, c.push_on]
  exact hfold (path.splitOn '/') ⟨0, []⟩

/-! ## The translation -/

def lower (c : Char) : Char :=
  if 'A' ≤ c ∧ c ≤ 'Z' then Char.ofNat (c.toNat - 'A'.toNat + 'a'.toNat) else c

/-- `dev/null`, the case of its first name folded. -/
def isDevNull (path : Text) : Bool :=
  (path.take 3).map lower ++ path.drop 3 == ['d', 'e', 'v', '/', 'n', 'u', 'l', 'l']

/-- What is left of the names: the root, a volume's root, or a path of a volume. -/
def landing (names : List Text) (capacity : ℕ) : Option Target :=
  if isDevNull (['/'].intercalate names.reverse) then
    if capacity < 9 then none else some (.vfs ['N', 'I', 'L', ':', 'n', 'u', 'l', 'l'])
  else
    match names.reverse with
    | [] => some .root
    | [name] => if name.length = capacity then none else some (.vfs (name ++ [':']))
    | name :: rest => some (.vfs (name ++ ':' :: ['/'].intercalate rest))

/-- A path as written when it is absolute, else composed with the current directory. -/
def composed (path : Text) (cwd : Option Text) (capacity : ℕ) : Option Text :=
  if path.head? = some '/' then if capacity < path.length then none else some path
  else
    match cwd with
    | none => none
    | some cwd => if cwd = [] ∨ capacity < cwd.length + 1 + path.length then none else some (cwd ++ '/' :: path)

def translate (path : Text) (cwd : Option Text) (capacity : ℕ) : Option Target :=
  if path = [] then none
  else if namesAVolume path then if capacity < path.length then none else some (.vfs path)
  else (composed path cwd capacity).bind fun full => landing (pushAll [] full) capacity

/-! ## Lengths -/

def room (names : List Text) : ℕ := (names.map fun name => name.length + 1).sum

theorem room_push (names : List Text) (component : Text) : room (push names component) ≤ room names + (component.length + 1) := by
  unfold push
  split_ifs
  · omega
  · cases names <;> simp [room]; omega
  · simp [room]; omega

theorem room_splitOn (path : Text) : room (path.splitOn '/') = path.length + 1 := by
  induction path with
  | nil => rfl
  | cons c path ih =>
    obtain ⟨first, rest, hsplit⟩ := List.exists_cons_of_ne_nil (List.splitOn_ne_nil '/' path)
    rw [List.splitOn_cons_eq_if_modifyHead]
    rw [hsplit] at ih ⊢
    split_ifs <;> simp_all [room] <;> omega

theorem room_pushAll (names : List Text) (path : Text) : room (pushAll names path) ≤ room names + (path.length + 1) := by
  have hfold : ∀ (components names : List Text), room (components.foldl push names) ≤ room names + room components := by
    intro components
    induction components with
    | nil => intro names; simp [room]
    | cons component components ih =>
      intro names
      have hpush := room_push names component
      have hrest := ih (push names component)
      simp only [List.foldl_cons, room, List.map_cons, List.sum_cons] at hpush hrest ⊢
      omega
  exact room_splitOn path ▸ hfold (path.splitOn '/') names

theorem room_pushAll_absolute {path : Text} (h : path.head? = some '/') : room (pushAll [] path) ≤ path.length := by
  cases path with
  | nil => simp at h
  | cons c path =>
    obtain rfl : c = '/' := by simpa using h
    have hnil : pushAll [] ('/' :: path) = pushAll [] path := pushAll_slash [] [] path
    have hroom := room_pushAll [] path
    rw [hnil]
    simpa [room] using hroom

/-- Where names land, when none of them needs the room of another spelling. -/
def spell (names : List Text) : Target :=
  match names.reverse with
  | [] => .root
  | name :: rest => .vfs (name ++ ':' :: ['/'].intercalate rest)

/-- Names without a colon, of which none is the `dev` of `/dev/null`. -/
def Plain (names : List Text) : Prop := ∀ name ∈ names, ':' ∉ name ∧ name.map lower ≠ ['d', 'e', 'v']

def Names (names : List Text) : Prop := ∀ name ∈ names, name ≠ [] ∧ '/' ∉ name

theorem slash_of_mem_splitOn {path component : Text} (h : component ∈ path.splitOn '/') : '/' ∉ component := by
  induction path generalizing component with
  | nil => simp_all
  | cons c path ih =>
    obtain ⟨first, rest, hsplit⟩ := List.exists_cons_of_ne_nil (List.splitOn_ne_nil '/' path)
    rw [List.splitOn_cons_eq_if_modifyHead] at h
    rw [hsplit] at ih h
    split_ifs at h with hc
    · rcases List.mem_cons.1 h with rfl | h
      · simp
      · exact ih h
    · rcases List.mem_cons.1 h with rfl | h
      · intro hmem
        rcases List.mem_cons.1 hmem with rfl | hmem
        · simp at hc
        · exact ih List.mem_cons_self hmem
      · exact ih (List.mem_cons_of_mem _ h)

theorem names_pushAll {names : List Text} (h : Names names) (path : Text) : Names (pushAll names path) := by
  have hfold : ∀ (components names : List Text), (∀ c ∈ components, '/' ∉ c) → Names names →
      Names (components.foldl push names) := by
    intro components
    induction components with
    | nil => intro names _ hnames; exact hnames
    | cons component components ih =>
      intro names hslash hnames
      refine ih _ (fun c hc => hslash c (List.mem_cons_of_mem _ hc)) ?_
      unfold push
      split_ifs with hdrop hup
      · exact hnames
      · exact fun name hname => hnames name (List.mem_of_mem_tail hname)
      · intro name hname
        rcases List.mem_cons.1 hname with rfl | hname
        · exact ⟨fun hnil => hdrop (.inl hnil), hslash _ List.mem_cons_self⟩
        · exact hnames name hname
  exact hfold _ _ (fun c hc => slash_of_mem_splitOn hc) h

theorem landing_eq_spell {names : List Text} {capacity : ℕ} (h : Names names) (hplain : Plain names)
    (hroom : room names ≤ capacity) : landing names capacity = some (spell names) := by
  have hdev : isDevNull (['/'].intercalate names.reverse) = false := by
    by_contra hdev
    obtain ⟨path, hpath⟩ : ∃ path, path = ['/'].intercalate names.reverse := ⟨_, rfl⟩
    rw [← hpath, Bool.not_eq_false, isDevNull, beq_iff_eq] at hdev
    -- the first name of such a path folds to `dev`
    have hthree : 3 ≤ path.length := by
      have hlen := congrArg List.length hdev
      simp at hlen
      omega
    obtain ⟨hhead, htail⟩ : (path.take 3).map lower = ['d', 'e', 'v'] ∧ path.drop 3 = ['/', 'n', 'u', 'l', 'l'] :=
      List.append_inj hdev (by simp [hthree])
    have hslash : '/' ∉ path.take 3 := by
      intro hmem
      have hlower := List.mem_map_of_mem (f := lower) hmem
      rw [hhead] at hlower
      simp [lower] at hlower
    have hsplit : path.splitOn '/' = path.take 3 :: ['n', 'u', 'l', 'l'].splitOn '/' := by
      conv_lhs => rw [← List.take_append_drop 3 path, htail]
      exact List.splitOn_append_cons_self_of_not_mem hslash _
    have hne : names.reverse ≠ [] := by
      intro hnil
      rw [hpath, hnil] at hthree
      simp at hthree
    rw [hpath, List.splitOn_intercalate '/' (fun name hname => (h name (List.mem_reverse.1 hname)).2) hne, ← hpath] at hsplit
    have hmem : path.take 3 ∈ names := List.mem_reverse.1 (hsplit ▸ List.mem_cons_self)
    exact (hplain _ hmem).2 hhead
  unfold landing spell
  rw [hdev, if_neg Bool.false_ne_true]
  split
  · rename_i hnil
    rw [hnil]
  · rename_i name hname
    obtain rfl : names = [name] := by rw [← List.reverse_reverse names, hname]; rfl
    have hlen : name.length ≠ capacity := by
      simp [room] at hroom
      omega
    rw [if_neg hlen]
    rfl
  · rename_i name rest hrest hname
    rw [hname]

theorem spell_inj {a b : List Text} (ha : Names a) (hb : Names b) (hpa : Plain a) (hpb : Plain b)
    (h : spell a = spell b) : a = b := by
  have hrest : ∀ {x y : List Text}, Names x → Names y → ['/'].intercalate x = ['/'].intercalate y → x = y := by
    intro x y hx hy hxy
    have hempty : ∀ {z : List Text}, Names z → ['/'].intercalate z = [] → z = [] := by
      intro z hz hnil
      cases z with
      | nil => rfl
      | cons name z =>
        exfalso
        cases z with
        | nil => exact (hz name List.mem_cons_self).1 (by simpa using hnil)
        | cons => simp at hnil
    by_cases hnil : x = []
    · subst hnil
      exact (hempty hy (by simpa using hxy.symm)).symm
    · have hnil' : y ≠ [] := by
        rintro rfl
        exact hnil (hempty hx (by simpa using hxy))
      rw [← List.splitOn_intercalate '/' (fun w hw => (hx w hw).2) hnil, hxy,
        List.splitOn_intercalate '/' (fun w hw => (hy w hw).2) hnil']
  have hcolon : ∀ {x y : Text} {p q : Text}, ':' ∉ x → ':' ∉ y → x ++ ':' :: p = y ++ ':' :: q → x = y ∧ p = q := by
    intro x y p q hx hy hxy
    have hsplit := congrArg (List.splitOn ':') hxy
    rw [List.splitOn_append_cons_self_of_not_mem hx, List.splitOn_append_cons_self_of_not_mem hy] at hsplit
    have hhead : x = y := (List.cons.inj hsplit).1
    subst hhead
    exact ⟨rfl, (List.cons.inj (List.append_cancel_left hxy)).2⟩
  have hmem : ∀ {z : List Text} {name : Text} {rest : List Text}, z.reverse = name :: rest →
      name ∈ z ∧ ∀ w ∈ rest, w ∈ z := by
    intro z name rest hz
    refine ⟨List.mem_reverse.1 (hz ▸ List.mem_cons_self), fun w hw => ?_⟩
    exact List.mem_reverse.1 (hz ▸ List.mem_cons_of_mem _ hw)
  rw [← List.reverse_inj]
  unfold spell at h
  split at h
  · rename_i hnil
    split at h
    · rename_i hnil'
      rw [hnil, hnil']
    · cases h
  · rename_i name rest hname
    split at h
    · cases h
    · rename_i name' rest' hname'
      obtain ⟨hin, hall⟩ := hmem hname
      obtain ⟨hin', hall'⟩ := hmem hname'
      obtain ⟨rfl, htail⟩ := hcolon (hpa _ hin).1 (hpb _ hin').1 (Target.vfs.inj h)
      obtain rfl := hrest (fun w hw => ha w (hall w hw)) (fun w hw => hb w (hall' w hw)) htail
      rw [hname, hname']

theorem length_intercalate_le (names : List Text) : (['/'].intercalate names).length ≤ room names := by
  induction names with
  | nil => simp [room]
  | cons name names ih =>
    cases names with
    | nil => simp [room]
    | cons other names =>
      rw [List.intercalate_cons_of_ne_nil (List.cons_ne_nil _ _)]
      simp only [List.length_append, List.length_singleton, room, List.map_cons, List.sum_cons] at ih ⊢
      omega

theorem landing_length {names : List Text} {capacity : ℕ} {full : Text} (h : landing names capacity = some (.vfs full))
    (hroom : room names ≤ capacity) (hcap : 9 ≤ capacity) : full.length ≤ capacity := by
  have hrev : room names = room names.reverse := by simp only [room, List.map_reverse, List.sum_reverse]
  rw [hrev] at hroom
  unfold landing at h
  split at h
  · rw [if_neg (by omega)] at h
    obtain rfl : _ = full := by simpa using h
    exact Nat.le_of_succ_le hcap
  · split at h
    · cases h
    · rename_i name hname
      split_ifs at h
      obtain rfl : name ++ [':'] = full := by simpa using h
      simpa [hname, room] using hroom
    · rename_i name rest _ hname
      obtain rfl : name ++ ':' :: ['/'].intercalate rest = full := by simpa using h
      have hlen := length_intercalate_le rest
      rw [hname] at hroom
      simp only [room, List.map_cons, List.sum_cons, List.length_append, List.length_cons] at hlen hroom ⊢
      omega

/-- The view's form of a VFS path, of any length. -/
def absolute (vfs : Text) : Option Text :=
  let name := vfs.takeWhile (· ≠ ':')
  match vfs.dropWhile (· ≠ ':') with
  | [] => none
  | _ :: rest => if name = [] then none else some ('/' :: name ++ if rest = [] then [] else '/' :: rest)

def present (vfs : Text) (capacity : ℕ) : Option Text :=
  (absolute vfs).bind fun path => if capacity < path.length then none else some path

end Aegir.Posix
