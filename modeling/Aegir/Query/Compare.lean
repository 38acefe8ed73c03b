/-
  How a query compares an attribute with a literal (`query.cc`, `match_equation`).
-/
import Aegir.Query.Literal
import Aegir.Lib.Bytes

namespace Aegir.Query

open Aegir.Lib Aegir.Lib.Buf

/-! ## Types and operators -/

def typeCode (a b c d : Char) : ℕ := ((a.toNat * 256 + b.toNat) * 256 + c.toNat) * 256 + d.toNat

def kTypeString : ℕ := typeCode 'C' 'S' 'T' 'R'
def kTypeInt32 : ℕ := typeCode 'L' 'O' 'N' 'G'
def kTypeUInt32 : ℕ := typeCode 'U' 'L' 'N' 'G'
def kTypeInt64 : ℕ := typeCode 'L' 'L' 'N' 'G'
def kTypeUInt64 : ℕ := typeCode 'U' 'L' 'L' 'G'
def kTypeInt16 : ℕ := typeCode 'S' 'H' 'R' 'T'
def kTypeUInt16 : ℕ := typeCode 'U' 'S' 'H' 'T'
def kTypeInt8 : ℕ := typeCode 'B' 'Y' 'T' 'E'
def kTypeUInt8 : ℕ := typeCode 'U' 'B' 'Y' 'T'
def kTypeFloat : ℕ := typeCode 'F' 'L' 'O' 'T'
def kTypeDouble : ℕ := typeCode 'D' 'B' 'L' 'E'
def kTypeBool : ℕ := typeCode 'B' 'O' 'O' 'L'
def kTypeRaw : ℕ := typeCode 'R' 'A' 'W' 'T'
def kTypeMime : ℕ := typeCode 'M' 'I' 'M' 'S'

/-- The bytes a literal may hold, and of a value that are looked at. -/
def kMaxQueryValue : ℕ := 64

/-- An attribute's type code as a family. -/
inductive Family where
  | none
  | string
  | integer
  | unsigned
  | real
  | boolean
deriving DecidableEq

def familyOf (type : ℕ) : Family :=
  if type = kTypeString ∨ type = kTypeMime ∨ type = kTypeRaw then .string
  else if type = kTypeInt32 ∨ type = kTypeInt64 ∨ type = kTypeInt16 ∨ type = kTypeInt8 then .integer
  else if type = kTypeUInt32 ∨ type = kTypeUInt64 ∨ type = kTypeUInt16 ∨ type = kTypeUInt8 then .unsigned
  else if type = kTypeFloat ∨ type = kTypeDouble then .real
  else if type = kTypeBool then .boolean
  else .none

inductive QueryOp where
  | equal
  | unequal
  | greater
  | less
  | greaterEqual
  | lessEqual
  | and
  | or
deriving DecidableEq

/-- The last switch of `match_equation`. -/
def QueryOp.holds : QueryOp → Bool × ℤ → Bool
  | .equal, r => r.1
  | .unequal, r => !r.1
  | .greater, r => 0 < r.2
  | .less, r => r.2 < 0
  | .greaterEqual, r => 0 ≤ r.2
  | .lessEqual, r => r.2 ≤ 0
  | .and, _ | .or, _ => false

/-! ## Decoding -/

/-- The number the low `w` bits stand for in two's complement. -/
def toSigned (w n : ℕ) : ℤ := if n < 2 ^ (w - 1) then n else n - 2 ^ w

/-- The little-endian number of a value of exactly `w` bytes. -/
def field (w : ℕ) (data : Text) : Option ℕ := if data.length = w then some (le w (ofList data) 0) else none

def decodeInteger (data : Text) (type : ℕ) : Option ℤ :=
  if type = kTypeInt8 then (field 1 data).map (toSigned 8)
  else if type = kTypeUInt8 then (field 1 data).map Nat.cast
  else if type = kTypeInt16 then (field 2 data).map (toSigned 16)
  else if type = kTypeUInt16 then (field 2 data).map Nat.cast
  else if type = kTypeInt32 then (field 4 data).map (toSigned 32)
  else if type = kTypeUInt32 then (field 4 data).map Nat.cast
  else if type = kTypeInt64 then (field 8 data).map (toSigned 64)
  else if type = kTypeUInt64 then (field 8 data).map Nat.cast
  else none

/-- A floating-point number. -/
inductive Double where
  | finite (q : ℚ)
  | infinite (negative : Bool)
  | nan
deriving DecidableEq

/-- The number of a sign, `e` bits of exponent and `m` bits of mantissa. -/
def decodeBits (e m bits : ℕ) : Double :=
  let mantissa := bits % 2 ^ m
  let exponent := bits / 2 ^ m % 2 ^ e
  let negative : Bool := bits / 2 ^ (m + e) % 2 = 1
  if exponent = 2 ^ e - 1 then if mantissa = 0 then .infinite negative else .nan
  else
    let scale : ℤ := 2 - 2 ^ (e - 1) - m
    let q : ℚ := if exponent = 0 then mantissa * 2 ^ scale else (2 ^ m + mantissa) * 2 ^ (scale + exponent - 1)
    .finite (if negative then -q else q)

def decodeReal (data : Text) (type : ℕ) : Option Double :=
  if type = kTypeFloat ∧ data.length = 4 then some (decodeBits 8 23 (le 4 (ofList data) 0))
  else if type = kTypeDouble ∧ data.length = 8 then some (decodeBits 11 52 (le 8 (ofList data) 0))
  else none

/-! ## Comparing -/

def compareBytes : Text → Text → ℤ
  | [], [] => 0
  | [], _ :: _ => -1
  | _ :: _, [] => 1
  | a :: as, b :: bs => if a ≠ b then if a < b then -1 else 1 else compareBytes as bs

/-- `value < literal ? -1 : (value > literal ? 1 : 0)` and `value == literal`, of numbers. -/
def compareNumber {α : Type} [LT α] [DecidableLT α] [DecidableEq α] (value literal : α) : Bool × ℤ :=
  (value == literal, if value < literal then -1 else if literal < value then 1 else 0)

/-- The same of a double. -/
def compareReal : Double → ℚ → Bool × ℤ
  | .finite q, literal => compareNumber q literal
  | .infinite negative, _ => (false, if negative then -1 else 1)
  | .nan, _ => (false, 0)

def toUnsigned (n : ℤ) : ℤ := n % 2 ^ 64

/-- The switch over the literal: equality and order, when the families match. -/
def compareValue (type : ℕ) (data : Text) : Literal → Option (Bool × ℤ)
  | .string s =>
    if familyOf type ≠ .string then none else some (data == s, compareBytes data s)
  | .boolean b =>
    if familyOf type ≠ .boolean ∨ data.length ≠ 1 then none
    else
      let equal := (data.headD 0 != 0) == b
      some (equal, if equal then 0 else 1)
  | .integer n =>
    match familyOf type with
    | .real => (decodeReal data type).map fun value => compareReal value n
    | .integer => (decodeInteger data type).map fun value => compareNumber value n
    | .unsigned => (decodeInteger data type).map fun value => compareNumber value (toUnsigned n)
    | _ => none
  | .unsigned n =>
    match familyOf type with
    | .real => (decodeReal data type).map fun value => compareReal value n
    | .integer => (decodeInteger data type).map fun value => compareNumber value (toSigned 64 n)
    | .unsigned => (decodeInteger data type).map fun value => compareNumber value (n : ℤ)
    | _ => none
  | .real q =>
    match familyOf type with
    | .real => (decodeReal data type).map fun value => compareReal value q
    | .integer | .unsigned => (decodeInteger data type).map fun value => compareReal (.finite value) q
    | _ => none

/-- The answer of an operator about an attribute's value and a literal. -/
def matchValue (type : ℕ) (data : Text) (literal : Literal) (op : QueryOp) : Bool :=
  match compareValue type data literal with
  | none => false
  | some r => op.holds r

/-- One `attribute op value`. -/
structure QueryEquation where
  op : QueryOp
  attributeName : Text
  literal : Literal
deriving DecidableEq

/-- An inode as a query sees it: its name, size and time, and the type and value of
    each of its attributes. -/
structure Candidate where
  name : Text
  size : ℤ
  mtime : ℤ
  attributes : Text → Option (ℕ × Text)

/-- `put_le64` of a signed number. -/
def int64Bytes (n : ℤ) : Text := bytes (put 8 zero 0 (n % 2 ^ 64).toNat) 0 8

/-- The type and the whole value under a name: the inode's own or an attribute's. -/
def Candidate.stored (x : Candidate) (name : Text) : Option (ℕ × Text) :=
  if name = word ['n', 'a', 'm', 'e'] then some (kTypeString, x.name)
  else if name = word ['s', 'i', 'z', 'e'] then some (kTypeInt64, int64Bytes x.size)
  else if name = word ['l', 'a', 's', 't', '_', 'm', 'o', 'd', 'i', 'f', 'i', 'e', 'd'] then
    some (kTypeInt64, int64Bytes (x.mtime / 2 ^ 16))
  else x.attributes name

/-- `match_equation`: no more of a value than `kMaxQueryValue` bytes is read. -/
def matchEquation (x : Candidate) (e : QueryEquation) : Bool :=
  match x.stored e.attributeName with
  | none => false
  | some (type, stored) => matchValue type (stored.take kMaxQueryValue) e.literal e.op

def literalFor (quoted : Bool) (text : Text) : Literal := if quoted then .string text else literalOf text

/-! ## The values compared -/

/-- What an attribute holds. -/
inductive Value where
  | integer (signed : Bool) (v : ℤ)
  | real (x : Double)
  | boolean (b : Bool)
  | string (s : Text)
deriving DecidableEq

/-- The value of an attribute's type that is stored as these bytes, all of them. -/
def storedValue (type : ℕ) (stored : Text) : Option Value :=
  match familyOf type with
  | .string => some (.string stored)
  | .integer => (decodeInteger stored type).map (.integer true)
  | .unsigned => (decodeInteger stored type).map (.integer false)
  | .real => (decodeReal stored type).map .real
  | .boolean => if stored.length = 1 then some (.boolean (stored.headD 0 != 0)) else none
  | .none => none

def meaningFor (quoted : Bool) (text : Text) : Meaning := if quoted then .string text else meaning text

def Value.Comparable : Value → Meaning → Prop
  | .integer _ _, .integer _ | .integer _ _, .decimal _ _ => True
  | .real _, .integer _ | .real _, .decimal _ _ => True
  | .boolean _, .boolean _ => True
  | .string _, .string _ => True
  | _, _ => False

def Double.order : Double → ℚ → Option Ordering
  | .finite r, q => some (cmp r q)
  | .infinite negative, _ => some (if negative then .lt else .gt)
  | .nan, _ => none

/-- How the values compare, if they do: no number compares with nothing. -/
def Value.order : Value → Meaning → Option Ordering
  | .integer _ v, .integer n => some (cmp v n)
  | .integer _ v, .decimal m k => some (cmp (v : ℚ) (m / 10 ^ k))
  | .real x, .integer n => x.order n
  | .real x, .decimal m k => x.order (m / 10 ^ k)
  | .boolean a, .boolean b => some (cmp a b)
  | .string s, .string t => some (cmp s t)
  | _, _ => none

def QueryOp.answer : QueryOp → Ordering → Bool
  | .equal, o => o == .eq
  | .unequal, o => o != .eq
  | .greater, o => o == .gt
  | .less, o => o == .lt
  | .greaterEqual, o => o != .lt
  | .lessEqual, o => o != .gt
  | .and, _ | .or, _ => false

/-- `<`, `=` and `>` exclude each other, one of them holds, and `<=`, `>=` and `!=` are
    their unions. -/
structure Trichotomy (answers : QueryOp → Bool) : Prop where
  one : (answers .less || answers .equal || answers .greater) = true
  less_equal : (answers .less && answers .equal) = false
  less_greater : (answers .less && answers .greater) = false
  equal_greater : (answers .equal && answers .greater) = false
  lessEqual : answers .lessEqual = (answers .less || answers .equal)
  greaterEqual : answers .greaterEqual = (answers .greater || answers .equal)
  unequal : answers .unequal = (answers .less || answers .greater)

/-- The answers are those of the two values, when they are of comparable families. -/
def Value.Answers (v : Value) (m : Meaning) (answers : QueryOp → Bool) : Prop :=
  v.Comparable m → Trichotomy answers ∧ ∀ o, v.order m = some o → ∀ op, answers op = op.answer o

/-! ## The answers of an order -/

/-- What the code leaves of an order. -/
def encode : Ordering → Bool × ℤ
  | .lt => (false, -1)
  | .eq => (true, 0)
  | .gt => (false, 1)

def answersOf (r : Option (Bool × ℤ)) (op : QueryOp) : Bool :=
  match r with
  | none => false
  | some r => op.holds r

theorem answersOf_encode (o : Ordering) : answersOf (some (encode o)) = fun op => op.answer o := by
  funext op
  cases o <;> cases op <;> rfl

theorem trichotomy_answer (o : Ordering) : Trichotomy fun op => op.answer o := by
  cases o <;> exact ⟨rfl, rfl, rfl, rfl, rfl, rfl, rfl⟩

theorem not_trichotomy_none : ¬ Trichotomy (answersOf none) := fun h => absurd h.one (by decide)

theorem not_trichotomy_nan : ¬ Trichotomy (answersOf (some (false, 0))) := fun h => absurd h.one (by decide)

theorem answer_inj {o o' : Ordering} (h : ∀ op, QueryOp.answer op o = QueryOp.answer op o') : o = o' := by
  have h₁ := h .less
  have h₂ := h .greater
  cases o <;> cases o' <;> first | rfl | exact absurd h₁ (by decide) | exact absurd h₂ (by decide)

theorem answers_encode_iff {v : Value} {m : Meaning} {o o' : Ordering} (hc : v.Comparable m)
    (ho : v.order m = some o) : v.Answers m (answersOf (some (encode o'))) ↔ o' = o := by
  rw [answersOf_encode]
  constructor
  · intro h
    exact answer_inj ((h hc).2 o ho)
  · rintro rfl _
    refine ⟨trichotomy_answer _, fun o h op => ?_⟩
    rw [ho] at h
    rw [Option.some.inj h]

theorem compareNumber_eq {α : Type} [LinearOrder α] (a b : α) : compareNumber a b = encode (cmp a b) := by
  rcases lt_trichotomy a b with h | rfl | h
  · rw [(cmp_eq_lt_iff a b).2 h, compareNumber, if_pos h]
    simp [encode, h.ne]
  · simp [compareNumber, encode]
  · rw [(cmp_eq_gt_iff a b).2 h, compareNumber, if_neg h.not_gt, if_pos h]
    simp [encode, h.ne']

theorem compareReal_eq (x : Double) (q : ℚ) :
    compareReal x q = match x.order q with
      | some o => encode o
      | none => (false, 0) := by
  rcases x with r | negative | _
  · exact compareNumber_eq r q
  · cases negative <;> rfl
  · rfl

/-- A number compares alike with two others when it lies outside both, or they are one. -/
theorem cmp_eq_cmp_iff {α : Type} [LinearOrder α] (r a b : α) :
    cmp r a = cmp r b ↔ a = b ∨ r < min a b ∨ max a b < r := by
  rw [lt_min_iff, max_lt_iff]
  constructor
  · intro h
    rcases lt_trichotomy r a with ha | rfl | ha
    · rw [(cmp_eq_lt_iff r a).2 ha] at h
      exact Or.inr (Or.inl ⟨ha, (cmp_eq_lt_iff r b).1 h.symm⟩)
    · rw [cmp_self_eq_eq] at h
      exact Or.inl ((cmp_eq_eq_iff r b).1 h.symm)
    · rw [(cmp_eq_gt_iff r a).2 ha] at h
      exact Or.inr (Or.inr ⟨ha, (cmp_eq_gt_iff r b).1 h.symm⟩)
  · rintro (rfl | ⟨ha, hb⟩ | ⟨ha, hb⟩)
    · rfl
    · rw [(cmp_eq_lt_iff r a).2 ha, (cmp_eq_lt_iff r b).2 hb]
    · rw [(cmp_eq_gt_iff r a).2 ha, (cmp_eq_gt_iff r b).2 hb]

/-! ### Bytes -/

theorem cmp_cons (a b : UInt8) (as bs : Text) :
    cmp (a :: as) (b :: bs) = if a < b then .lt else if b < a then .gt else cmp as bs := by
  simp only [cmp, cmpUsing, List.cons_lt_cons_iff]
  rcases Nat.lt_trichotomy a.toNat b.toNat with h | h | h
  · have hab : a < b := UInt8.lt_iff_toNat_lt.2 h
    simp [hab]
  · obtain rfl := UInt8.toNat_inj.1 h
    simp [UInt8.lt_irrefl]
  · have hba : b < a := UInt8.lt_iff_toNat_lt.2 h
    have hab : ¬ a < b := UInt8.lt_asymm hba
    have hne : a ≠ b := fun he => UInt8.lt_irrefl b (he ▸ hba)
    simp [hba, hab, hne]

theorem cmp_nil_cons (b : UInt8) (bs : Text) : cmp ([] : Text) (b :: bs) = .lt := by
  simp [cmp, cmpUsing]

theorem cmp_cons_nil (a : UInt8) (as : Text) : cmp (a :: as) ([] : Text) = .gt := by
  simp [cmp, cmpUsing]

theorem cmp_nil_nil : cmp ([] : Text) [] = .eq := by simp [cmp, cmpUsing]

theorem compareBytes_eq (s t : Text) : (s == t, compareBytes s t) = encode (cmp s t) := by
  induction s generalizing t with
  | nil =>
    cases t with
    | nil => rw [cmp_nil_nil]; rfl
    | cons b bs => rw [cmp_nil_cons]; rfl
  | cons a as ih =>
    cases t with
    | nil => rw [cmp_cons_nil]; rfl
    | cons b bs =>
      rw [cmp_cons, compareBytes]
      by_cases hab : a = b
      · subst hab
        rw [if_neg (by simp), if_neg (UInt8.lt_irrefl a), if_neg (UInt8.lt_irrefl a), ← ih bs]
        simp
      · have hne : (a :: as == b :: bs) = false := by simp [hab]
        rw [if_pos hab, hne]
        by_cases hlt : a < b
        · rw [if_pos hlt, if_pos hlt]; rfl
        · have hgt : b < a := by
            rw [UInt8.lt_iff_toNat_lt] at hlt ⊢
            have : a.toNat ≠ b.toNat := fun h => hab (UInt8.toNat_inj.1 h)
            omega
          rw [if_neg hlt, if_neg hlt, if_pos hgt]; rfl

/-- A value cut to the longest literal compares as the whole, unless the literal is
    just what is left of it. -/
theorem cmp_take_iff {n : ℕ} (s t : Text) (ht : t.length ≤ n) :
    cmp (s.take n) t = cmp s t ↔ s.length ≤ n ∨ s.take n ≠ t := by
  induction s generalizing n t with
  | nil => simp
  | cons a as ih =>
    cases n with
    | zero =>
      obtain rfl := List.length_eq_zero_iff.1 (Nat.le_zero.1 ht)
      rw [List.take_zero, cmp_nil_nil, cmp_cons_nil]
      simp
    | succ n =>
      cases t with
      | nil =>
        rw [List.take_succ_cons, cmp_cons_nil, cmp_cons_nil]
        simp
      | cons b bs =>
        have hih := ih bs (by simpa using ht)
        rw [List.take_succ_cons, cmp_cons, cmp_cons, List.length_cons, Nat.add_le_add_iff_right]
        by_cases hab : a = b
        · subst hab
          rw [if_neg (UInt8.lt_irrefl a), if_neg (UInt8.lt_irrefl a), if_neg (UInt8.lt_irrefl a),
            if_neg (UInt8.lt_irrefl a), hih]
          simp
        · have hne : a ≠ b := hab
          simp only [ne_eq, List.cons.injEq, hab, false_and, not_false_eq_true, or_true, iff_true]
          by_cases hlt : a < b
          · rw [if_pos hlt, if_pos hlt]
          · have hgt : b < a := by
              rw [UInt8.lt_iff_toNat_lt] at hlt ⊢
              have : a.toNat ≠ b.toNat := fun h => hab (UInt8.toNat_inj.1 h)
              omega
            rw [if_neg hlt, if_neg hlt, if_pos hgt, if_pos hgt]

/-! ## Stored values -/

theorem field_some {w n : ℕ} {data : Text} (h : field w data = some n) : data.length = w ∧ n < 256 ^ w := by
  rw [field] at h
  split at h
  · cases h
    exact ⟨‹_›, le_lt w _ 0⟩
  · cases h

theorem decodeInteger_some {data : Text} {type : ℕ} {v : ℤ} (h : decodeInteger data type = some v) :
    data.length ≤ 8 ∧ (familyOf type = .unsigned → 0 ≤ v ∧ v < 2 ^ 64) := by
  have hread : ∀ {w : ℕ} {f : ℕ → ℤ}, (field w data).map f = some v → ∃ n, n < 256 ^ w ∧ f n = v ∧ data.length = w := by
    intro w f hm
    obtain ⟨n, hn, rfl⟩ := Option.map_eq_some_iff.1 hm
    exact ⟨n, (field_some hn).2, rfl, (field_some hn).1⟩
  unfold decodeInteger at h
  split_ifs at h with h₁ h₂ h₃ h₄ h₅ h₆ h₇ h₈
  · obtain ⟨n, -, -, hl⟩ := hread h
    exact ⟨by omega, fun hf => by subst h₁; exact absurd hf (by decide)⟩
  · obtain ⟨n, hn, rfl, hl⟩ := hread h
    exact ⟨by omega, fun _ => ⟨by simp, by push_cast; omega⟩⟩
  · obtain ⟨n, -, -, hl⟩ := hread h
    exact ⟨by omega, fun hf => by subst h₃; exact absurd hf (by decide)⟩
  · obtain ⟨n, hn, rfl, hl⟩ := hread h
    exact ⟨by omega, fun _ => ⟨by simp, by push_cast; omega⟩⟩
  · obtain ⟨n, -, -, hl⟩ := hread h
    exact ⟨by omega, fun hf => by subst h₅; exact absurd hf (by decide)⟩
  · obtain ⟨n, hn, rfl, hl⟩ := hread h
    exact ⟨by omega, fun _ => ⟨by simp, by push_cast; omega⟩⟩
  · obtain ⟨n, -, -, hl⟩ := hread h
    exact ⟨by omega, fun hf => by subst h₇; exact absurd hf (by decide)⟩
  · obtain ⟨n, hn, rfl, hl⟩ := hread h
    exact ⟨by omega, fun _ => ⟨by simp, by push_cast; omega⟩⟩

theorem decodeReal_some {data : Text} {type : ℕ} {x : Double} (h : decodeReal data type = some x) :
    data.length ≤ 8 := by
  unfold decodeReal at h
  split_ifs at h with h₁ h₂
  · exact by omega
  · exact by omega

theorem storedValue_some {type : ℕ} {stored : Text} {v : Value} (h : storedValue type stored = some v) :
    match v with
    | .integer signed n => familyOf type = (if signed then .integer else .unsigned) ∧ decodeInteger stored type = some n
    | .real x => familyOf type = .real ∧ decodeReal stored type = some x
    | .boolean b => familyOf type = .boolean ∧ stored.length = 1 ∧ (stored.headD 0 != 0) = b
    | .string s => familyOf type = .string ∧ stored = s := by
  unfold storedValue at h
  rcases hf : familyOf type with _ | _ | _ | _ | _ | _ <;> rw [hf] at h <;> dsimp only at h
  · cases h
  · cases h
    exact ⟨rfl, rfl⟩
  · obtain ⟨n, hn, rfl⟩ := Option.map_eq_some_iff.1 h
    exact ⟨rfl, hn⟩
  · obtain ⟨n, hn, rfl⟩ := Option.map_eq_some_iff.1 h
    exact ⟨rfl, hn⟩
  · obtain ⟨x, hx, rfl⟩ := Option.map_eq_some_iff.1 h
    exact ⟨rfl, hx⟩
  · split at h
    · cases h
      exact ⟨rfl, ‹_›, rfl⟩
    · cases h

theorem meaning_integer {text : Text} {n : ℤ} (h : meaning text = .integer n) : -2 ^ 63 ≤ n ∧ n < 2 ^ 63 := by
  rw [meaning] at h
  rcases takeSign text with ⟨negative, body⟩
  dsimp only at h
  split at h
  · split at h
    · cases h
      exact ‹_ ∧ _›
    · cases h
  · split at h
    · cases h
    · split_ifs at h

theorem meaning_string {text s : Text} (h : meaning text = .string s) : s = text := by
  rw [meaning] at h
  rcases takeSign text with ⟨negative, body⟩
  dsimp only at h
  split at h
  · split at h
    · cases h
    · cases h; rfl
  · split at h
    · cases h
    · split_ifs at h
      cases h; rfl

/-! ## When the answers are the values' -/

/-- The number lies outside the fraction `m / 10 ^ k` and `m`, or these are one. -/
def Outside (r : ℚ) (m : ℤ) (k : ℕ) : Prop :=
  (m : ℚ) = m / 10 ^ k ∨ r < min (m : ℚ) (m / 10 ^ k) ∨ max (m : ℚ) (m / 10 ^ k) < r

/-- The pairs of a value and a literal that the code compares as it should. -/
def Value.Exact : Value → Meaning → Prop
  | .integer signed v, .integer n => n ≠ -2 ^ 63 ∧ (signed = true ∨ 0 ≤ n ∨ n + 2 ^ 64 < v)
  | .integer _ v, .decimal m k => Outside v m k
  | .real x, .integer n => n ≠ -2 ^ 63 ∧ x ≠ .nan
  | .real x, .decimal m k => x ≠ .nan ∧ ∀ r, x = .finite r → Outside r m k
  | .boolean a, .boolean b => ¬ (a = false ∧ b = true)
  | .string s, .string t => s.length ≤ kMaxQueryValue ∨ s.take kMaxQueryValue ≠ t
  | _, _ => True

/-- A double against a rational: the code answers as `q`, read as `q'`. -/
theorem answers_real_iff {v : Value} {m : Meaning} {x : Double} {q q' : ℚ} (hc : v.Comparable m)
    (ho : v.order m = x.order q) :
    v.Answers m (answersOf (some (compareReal x q'))) ↔
      x ≠ .nan ∧ ∀ r, x = .finite r → cmp r q' = cmp r q := by
  rw [compareReal_eq]
  rcases x with r | negative | _
  · refine (answers_encode_iff hc ho).trans ?_
    simp
  · refine (answers_encode_iff hc ho).trans ?_
    simp
  · simp only [ne_eq, not_true_eq_false, false_and, iff_false]
    exact fun h => not_trichotomy_nan (h hc).1

theorem literalFor_eq (quoted : Bool) (text : Text) :
    literalFor quoted text =
      match meaningFor quoted text with
      | .integer n => if n = -2 ^ 63 then .string text else .integer n
      | .decimal m _ => .real m
      | .boolean b => .boolean b
      | .string s => .string s := by
  cases quoted
  · exact literalOf_eq text
  · rfl

section
variable {type : ℕ} {stored text : Text} {signed : Bool} {v n m : ℤ} {k : ℕ} {x : Double}

theorem answers_integer (hf : familyOf type = if signed then .integer else .unsigned)
    (hd : decodeInteger stored type = some v) (hn : -2 ^ 63 ≤ n ∧ n < 2 ^ 63) :
    (Value.integer signed v).Answers (.integer n)
        (answersOf (compareValue type stored (if n = -2 ^ 63 then .string text else .integer n))) ↔
      (Value.integer signed v).Exact (.integer n) := by
  have hc : ∀ signed, (Value.integer signed v).Comparable (.integer n) := fun _ => trivial
  by_cases hmin : n = -2 ^ 63
  · rw [if_pos hmin, compareValue, if_pos (by rw [hf]; cases signed <;> simp)]
    exact iff_of_false (fun h => not_trichotomy_none (h trivial).1) fun h => h.1 hmin
  · rw [if_neg hmin]
    cases signed
    · obtain ⟨h₀, hlt⟩ := (decodeInteger_some hd).2 hf
      have hcode : compareValue type stored (.integer n) = some (encode (cmp v (toUnsigned n))) := by
        rw [compareValue, hf, hd, ← compareNumber_eq]; rfl
      rw [hcode, answers_encode_iff (hc _) rfl, cmp_eq_cmp_iff]
      simp only [Value.Exact, toUnsigned, ne_eq, hmin, not_false_eq_true, Bool.false_eq_true, false_or, true_and]
      omega
    · have hcode : compareValue type stored (.integer n) = some (encode (cmp v n)) := by
        rw [compareValue, hf, hd, ← compareNumber_eq]; rfl
      rw [hcode, answers_encode_iff (hc _) rfl]
      exact iff_of_true rfl ⟨hmin, Or.inl rfl⟩

theorem answers_integer_decimal (hf : familyOf type = if signed then .integer else .unsigned)
    (hd : decodeInteger stored type = some v) :
    (Value.integer signed v).Answers (.decimal m k) (answersOf (compareValue type stored (.real m))) ↔
      (Value.integer signed v).Exact (.decimal m k) := by
  have hc : (Value.integer signed v).Comparable (.decimal m k) := trivial
  have hcode : compareValue type stored (.real m) = some (encode (cmp (v : ℚ) (m : ℚ))) := by
    rw [compareValue, hf, hd, ← compareNumber_eq]
    cases signed <;> rfl
  rw [hcode, answers_encode_iff hc rfl, cmp_eq_cmp_iff]
  rfl

theorem answers_real (hf : familyOf type = .real) (hd : decodeReal stored type = some x) :
    (Value.real x).Answers (.integer n)
        (answersOf (compareValue type stored (if n = -2 ^ 63 then .string text else .integer n))) ↔
      (Value.real x).Exact (.integer n) := by
  have hc : (Value.real x).Comparable (.integer n) := trivial
  by_cases hmin : n = -2 ^ 63
  · rw [if_pos hmin, compareValue, if_pos (by rw [hf]; simp)]
    exact iff_of_false (fun h => not_trichotomy_none (h trivial).1) fun h => h.1 hmin
  · have hcode : compareValue type stored (.integer n) = some (compareReal x n) := by
      rw [compareValue, hf, hd]; rfl
    rw [if_neg hmin, hcode, answers_real_iff hc rfl]
    simp only [Value.Exact, ne_eq, hmin, not_false_eq_true, true_and, implies_true, and_true]

theorem answers_real_decimal (hf : familyOf type = .real) (hd : decodeReal stored type = some x) :
    (Value.real x).Answers (.decimal m k) (answersOf (compareValue type stored (.real m))) ↔
      (Value.real x).Exact (.decimal m k) := by
  have hc : (Value.real x).Comparable (.decimal m k) := trivial
  have hcode : compareValue type stored (.real m) = some (compareReal x m) := by
    rw [compareValue, hf, hd]; rfl
  rw [hcode, answers_real_iff hc rfl]
  simp only [cmp_eq_cmp_iff]
  rfl

theorem answers_boolean {a b : Bool} (hf : familyOf type = .boolean) (hl : stored.length = 1)
    (ha : (stored.headD 0 != 0) = a) :
    (Value.boolean a).Answers (.boolean b) (answersOf (compareValue type stored (.boolean b))) ↔
      (Value.boolean a).Exact (.boolean b) := by
  have hc : (Value.boolean a).Comparable (.boolean b) := trivial
  have hcode : compareValue type stored (.boolean b) = some (encode (if a = b then .eq else .gt)) := by
    rw [compareValue, if_neg (by simp [hf, hl]), ha]
    cases a <;> cases b <;> rfl
  rw [hcode, answers_encode_iff hc rfl]
  cases a <;> cases b <;> simp [Value.Exact, cmp, cmpUsing]

theorem answers_string {s t : Text} (hf : familyOf type = .string) (ht : t.length ≤ kMaxQueryValue) :
    (Value.string s).Answers (.string t)
        (answersOf (compareValue type (s.take kMaxQueryValue) (.string t))) ↔
      (Value.string s).Exact (.string t) := by
  have hc : (Value.string s).Comparable (.string t) := trivial
  have hcode : compareValue type (s.take kMaxQueryValue) (.string t) =
      some (encode (cmp (s.take kMaxQueryValue) t)) := by
    rw [compareValue, if_neg (by simp [hf]), compareBytes_eq]
  rw [hcode, answers_encode_iff hc rfl, cmp_take_iff s t ht]
  rfl

end

/-- **The comparisons are those of the values**, for just these pairs: no integer literal
    is the least one of 64 bits; a negative one meets no unsigned attribute but those it
    lies below even as an unsigned number; a decimal fraction has the stored number on
    the same side as its digits without the point; a stored double is a number; a false
    attribute is not compared with `true`; and no string longer than a literal may be
    starts with just the literal. -/
theorem comparisons_iff {x : Candidate} {name text stored : Text} {type : ℕ} {v : Value}
    (hx : x.stored name = some (type, stored)) (hv : storedValue type stored = some v) (quoted : Bool)
    (ht : text.length ≤ kMaxQueryValue) :
    v.Answers (meaningFor quoted text) (fun op => matchEquation x ⟨op, name, literalFor quoted text⟩) ↔
      v.Exact (meaningFor quoted text) := by
  have hanswers : (fun op => matchEquation x ⟨op, name, literalFor quoted text⟩) =
      answersOf (compareValue type (stored.take kMaxQueryValue) (literalFor quoted text)) := by
    funext op
    rw [matchEquation, hx]
    rfl
  have hshort : stored.length ≤ 8 → stored.take kMaxQueryValue = stored := fun h =>
    List.take_of_length_le (by rw [kMaxQueryValue]; omega)
  have hvalue := storedValue_some hv
  rw [hanswers, literalFor_eq]
  rcases hm : meaningFor quoted text with n | ⟨m, k⟩ | b | t
  · have hn : -2 ^ 63 ≤ n ∧ n < 2 ^ 63 := by
      cases quoted
      · exact meaning_integer hm
      · cases hm
    cases v with
    | integer signed v =>
      rw [hshort (decodeInteger_some hvalue.2).1]
      exact answers_integer hvalue.1 hvalue.2 hn
    | real x =>
      rw [hshort (decodeReal_some hvalue.2)]
      exact answers_real hvalue.1 hvalue.2
    | boolean a => exact iff_of_true (fun h => h.elim) trivial
    | string s => exact iff_of_true (fun h => h.elim) trivial
  · cases v with
    | integer signed v =>
      rw [hshort (decodeInteger_some hvalue.2).1]
      exact answers_integer_decimal hvalue.1 hvalue.2
    | real x =>
      rw [hshort (decodeReal_some hvalue.2)]
      exact answers_real_decimal hvalue.1 hvalue.2
    | boolean a => exact iff_of_true (fun h => h.elim) trivial
    | string s => exact iff_of_true (fun h => h.elim) trivial
  · cases v with
    | boolean a =>
      obtain ⟨hf, hl, ha⟩ := hvalue
      rw [hshort (by omega)]
      exact answers_boolean hf hl ha
    | integer signed v => exact iff_of_true (fun h => h.elim) trivial
    | real x => exact iff_of_true (fun h => h.elim) trivial
    | string s => exact iff_of_true (fun h => h.elim) trivial
  · have htext : t = text := by
      cases quoted
      · exact meaning_string hm
      · exact (Meaning.string.inj hm).symm
    cases v with
    | string s =>
      obtain ⟨hf, rfl⟩ := hvalue
      exact answers_string hf (by rw [htext]; exact ht)
    | integer signed v => exact iff_of_true (fun h => h.elim) trivial
    | real x => exact iff_of_true (fun h => h.elim) trivial
    | boolean a => exact iff_of_true (fun h => h.elim) trivial

def fiveStars : Candidate where
  name := []
  size := 0
  mtime := 0
  attributes _ := some (kTypeUInt8, [5])

theorem comparisons_iff_fiveStars :
    (Value.integer false 5).Answers (meaningFor false (word ['3']))
      (fun op => matchEquation fiveStars ⟨op, word ['s'], literalFor false (word ['3'])⟩) :=
  (comparisons_iff (by decide : fiveStars.stored (word ['s']) = some (kTypeUInt8, [5])) (by decide) false
    (by decide)).2 ⟨by decide, Or.inr (Or.inl (by decide))⟩

/-- Five is not greater than minus one. -/
theorem unsigned_below_negative : fiveStars.stored (word ['s']) = some (kTypeUInt8, [5]) ∧
    storedValue kTypeUInt8 [5] = some (.integer false 5) ∧
    ¬ (Value.integer false 5).Answers (meaningFor false (word ['-', '1']))
      (fun op => matchEquation fiveStars ⟨op, word ['s'], literalFor false (word ['-', '1'])⟩) := by
  refine ⟨by decide, by decide, fun h => ?_⟩
  have hm : meaningFor false (word ['-', '1']) = .integer (-1) := by decide
  rw [hm] at h
  have hgreater := (h trivial).2 .gt (by decide) .greater
  exact absurd hgreater (by decide)

end Aegir.Query
