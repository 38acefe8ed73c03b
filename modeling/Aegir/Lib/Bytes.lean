/-
  Byte buffers and their little-endian fields.

  A buffer is a total function from positions to bytes, so a fixed-size memory,
  a disk and a byte stream are all buffers and every question about them is a
  question about positions.  `le w b i` is the little-endian number in the `w`
  bytes at `i`, `put w b i v` writes one, and `blit d i s n` copies the first
  `n` bytes of `s` to position `i` of `d`.

  * `le_put`: a field reads back what was put in it, modulo its width;
  * `le_congr`, `le_put_of_disjoint`: a field depends on its own bytes only;
  * `le_blit`: a field inside a copied range is the source's field.
-/
import Mathlib

namespace Aegir.Lib

abbrev Buf := ℕ → UInt8

namespace Buf

/-- The little-endian number in the `w` bytes at `i`. -/
def le : ℕ → Buf → ℕ → ℕ
  | 0, _, _ => 0
  | w + 1, b, i => (b i).toNat + 256 * le w b (i + 1)

/-- Write the low `w` bytes of `v`, least significant first, at `i`. -/
def put (w : ℕ) (b : Buf) (i v : ℕ) : Buf := fun j =>
  if i ≤ j ∧ j < i + w then UInt8.ofNat (v / 256 ^ (j - i)) else b j

/-- Copy the first `n` bytes of `s` to position `i` of `d`. -/
def blit (d : Buf) (i : ℕ) (s : Buf) (n : ℕ) : Buf := fun j =>
  if i ≤ j ∧ j < i + n then s (j - i) else d j

/-- The buffer that starts at position `i` of `b`. -/
def slice (b : Buf) (i : ℕ) : Buf := fun j => b (i + j)

/-- Copy a list of bytes to position `i` of `d`. -/
def puts (d : Buf) (i : ℕ) (s : List UInt8) : Buf := fun j =>
  if i ≤ j then (s[j - i]?).getD (d j) else d j

/-- Put the numbers of a list one after the other from `i`, each `w` bytes wide. -/
def putArray (w : ℕ) : Buf → ℕ → List ℕ → Buf
  | b, _, [] => b
  | b, i, v :: vs => putArray w (put w b i v) (i + w) vs

def ofList (s : List UInt8) : Buf := fun j => (s[j]?).getD 0

/-- The `n` bytes at `i`, as a list. -/
def bytes (b : Buf) (i n : ℕ) : List UInt8 := (List.range n).map fun k => b (i + k)

def zero : Buf := fun _ => 0

@[simp] theorem slice_apply (b : Buf) (i j : ℕ) : slice b i j = b (i + j) := rfl

@[simp] theorem zero_apply (i : ℕ) : zero i = 0 := rfl

/-! ## Single bytes -/

theorem put_of_mem {w i j v : ℕ} {b : Buf} (h₁ : i ≤ j) (h₂ : j < i + w) :
    put w b i v j = UInt8.ofNat (v / 256 ^ (j - i)) := if_pos ⟨h₁, h₂⟩

theorem put_of_notMem {w i j v : ℕ} {b : Buf} (h : j < i ∨ i + w ≤ j) :
    put w b i v j = b j := if_neg (by omega)

theorem blit_of_mem {d s : Buf} {i n j : ℕ} (h₁ : i ≤ j) (h₂ : j < i + n) :
    blit d i s n j = s (j - i) := if_pos ⟨h₁, h₂⟩

theorem blit_of_notMem {d s : Buf} {i n j : ℕ} (h : j < i ∨ i + n ≤ j) :
    blit d i s n j = d j := if_neg (by omega)

/-- A block of `n` bytes copied to the `b`th block of `d`. -/
theorem blit_block {d s : Buf} {n b j : ℕ} (hn : 0 < n) :
    blit d (b * n) s n j = if j / n = b then s (j % n) else d j := by
  have h₁ := Nat.div_add_mod j n
  have h₂ := Nat.mod_lt j hn
  split_ifs with h
  · subst h
    rw [Nat.mul_comm] at h₁
    rw [blit_of_mem (by omega) (by omega)]
    congr 1; omega
  · refine blit_of_notMem ?_
    by_contra hc
    refine h (Nat.div_eq_of_lt_le (by omega) ?_)
    rw [Nat.succ_mul]; omega

/-- A store of a block of `n` bytes changes the bytes of that block alone. -/
theorem blit_block_at {d s : Buf} {n b b' i : ℕ} (hi : i < n) :
    blit d (b * n) s n (b' * n + i) = if b' = b then s i else d (b' * n + i) := by
  rw [blit_block (Nat.zero_lt_of_lt hi), Nat.add_comm, Nat.add_mul_div_right _ _ (Nat.zero_lt_of_lt hi),
    Nat.div_eq_of_lt hi, Nat.zero_add, Nat.add_mul_mod_self_right, Nat.mod_eq_of_lt hi]

/-- Nothing is copied. -/
@[simp] theorem blit_nothing (d s : Buf) (i : ℕ) : blit d i s 0 = d := by
  funext j
  exact blit_of_notMem (by omega)

/-- A copy that goes on where another one ended. -/
theorem blit_blit (d s : Buf) (i n k : ℕ) : blit (blit d i s n) (i + n) (slice s n) k = blit d i s (n + k) := by
  funext j
  by_cases hlow : j < i + n
  · rw [blit_of_notMem (.inl hlow)]
    by_cases hin : i ≤ j
    · rw [blit_of_mem hin hlow, blit_of_mem hin (by omega)]
    · rw [blit_of_notMem (.inl (by omega)), blit_of_notMem (.inl (by omega))]
  · by_cases hhigh : j < i + n + k
    · rw [blit_of_mem (by omega) hhigh, blit_of_mem (by omega) (by omega), slice_apply]
      congr 1
      omega
    · rw [blit_of_notMem (.inr (by omega)), blit_of_notMem (.inr (by omega)), blit_of_notMem (.inr (by omega))]

theorem puts_of_notMem {d : Buf} {i j : ℕ} {s : List UInt8} (h : j < i ∨ i + s.length ≤ j) :
    puts d i s j = d j := by
  unfold puts
  split
  · rw [List.getElem?_eq_none (by omega)]; rfl
  · rfl

theorem puts_of_mem {d : Buf} {i k : ℕ} {s : List UInt8} (h : k < s.length) :
    puts d i s (i + k) = s[k] := by
  unfold puts
  rw [if_pos (Nat.le_add_right i k), Nat.add_sub_cancel_left, List.getElem?_eq_getElem h]; rfl

@[simp] theorem length_bytes (b : Buf) (i n : ℕ) : (bytes b i n).length = n := by simp [bytes]

theorem getElem_bytes {b : Buf} {i n k : ℕ} (h : k < (bytes b i n).length) :
    (bytes b i n)[k] = b (i + k) := by simp [bytes]

/-- A list of bytes is read back from where it was copied. -/
theorem bytes_eq_of_forall {b : Buf} {i : ℕ} {s : List UInt8}
    (h : ∀ k (hk : k < s.length), b (i + k) = s[k]) : bytes b i s.length = s := by
  refine List.ext_getElem (by simp) fun k h₁ h₂ => ?_
  rw [getElem_bytes, h k h₂]

theorem bytes_puts (d : Buf) (i : ℕ) (s : List UInt8) : bytes (puts d i s) i s.length = s :=
  bytes_eq_of_forall fun _ hk => puts_of_mem hk

theorem bytes_congr {a b : Buf} {i i' n : ℕ} (h : ∀ k < n, a (i + k) = b (i' + k)) :
    bytes a i n = bytes b i' n := by
  unfold bytes
  exact List.map_congr_left fun k hk => h k (List.mem_range.1 hk)

/-! ## Fields -/

theorem le_congr : ∀ {w : ℕ} {a b : Buf} {i i' : ℕ}, (∀ k < w, a (i + k) = b (i' + k)) →
    le w a i = le w b i'
  | 0, _, _, _, _, _ => rfl
  | w + 1, a, b, i, i', h => by
    have h₀ := h 0 (Nat.succ_pos w)
    have ih : le w a (i + 1) = le w b (i' + 1) := le_congr fun k hk => by
      have := h (k + 1) (by omega)
      rwa [show i + 1 + k = i + (k + 1) by omega, show i' + 1 + k = i' + (k + 1) by omega]
    simp only [le, ih]
    rw [Nat.add_zero, Nat.add_zero] at h₀
    rw [h₀]

theorem le_lt (w : ℕ) (b : Buf) (i : ℕ) : le w b i < 256 ^ w := by
  induction w generalizing i with
  | zero => simp [le]
  | succ w ih =>
    have h₁ := ih (i + 1)
    have h₂ := (b i).toNat_lt
    simp only [le, pow_succ]
    omega

theorem le_zero (w i : ℕ) : le w zero i = 0 := by
  induction w generalizing i with
  | zero => rfl
  | succ w ih => simp [le, ih]

/-- The bytes of a number put in a buffer, read as a number again. -/
theorem le_of_digits : ∀ {w : ℕ} {b : Buf} {i v : ℕ},
    (∀ k < w, b (i + k) = UInt8.ofNat (v / 256 ^ k)) → le w b i = v % 256 ^ w
  | 0, _, _, _, _ => by simp [le, Nat.mod_one]
  | w + 1, b, i, v, h => by
    have h₀ : b i = UInt8.ofNat v := by simpa using h 0 (Nat.succ_pos w)
    have ih : le w b (i + 1) = v / 256 % 256 ^ w := le_of_digits fun k hk => by
      rw [show i + 1 + k = i + (k + 1) by omega, h (k + 1) (by omega), pow_succ', Nat.div_div_eq_div_mul]
    have hb : (UInt8.ofNat v).toNat = v % 256 := by simp
    rw [le, h₀, ih, hb, pow_succ', Nat.mod_mul]

theorem le_put (w : ℕ) (b : Buf) (i v : ℕ) : le w (put w b i v) i = v % 256 ^ w :=
  le_of_digits fun k hk => by
    rw [put_of_mem (Nat.le_add_right i k) (by omega), Nat.add_sub_cancel_left]

theorem le_put_of_lt {w : ℕ} {b : Buf} {i v : ℕ} (h : v < 256 ^ w) :
    le w (put w b i v) i = v := by rw [le_put, Nat.mod_eq_of_lt h]

theorem le_put_of_disjoint {w w' : ℕ} {b : Buf} {i i' v : ℕ} (h : i + w ≤ i' ∨ i' + w' ≤ i) :
    le w (put w' b i' v) i = le w b i :=
  le_congr fun _ _ => put_of_notMem (by omega)

theorem le_blit {d s : Buf} {i n w j : ℕ} (h₁ : i ≤ j) (h₂ : j + w ≤ i + n) :
    le w (blit d i s n) j = le w s (j - i) :=
  le_congr fun k hk => by
    rw [blit_of_mem (by omega) (by omega), show j + k - i = j - i + k by omega]

/-- Buffers with the same field have the same bytes there. -/
theorem bytes_of_le_eq : ∀ {w : ℕ} {a b : Buf} {i i' : ℕ}, le w a i = le w b i' →
    ∀ k < w, a (i + k) = b (i' + k)
  | 0, _, _, _, _, _, k, hk => absurd hk (Nat.not_lt_zero k)
  | w + 1, a, b, i, i', h, k, hk => by
    have h₁ := (a i).toNat_lt
    have h₂ := (b i').toNat_lt
    simp only [le] at h
    cases k with
    | zero => exact UInt8.toNat_inj.1 (by simp only [Nat.add_zero]; omega)
    | succ k =>
      have := bytes_of_le_eq (show le w a (i + 1) = le w b (i' + 1) by omega) k (by omega)
      rwa [show i + 1 + k = i + (k + 1) by omega, show i' + 1 + k = i' + (k + 1) by omega] at this

/-! ## Arrays of fields -/

theorem putArray_of_notMem {w : ℕ} {b : Buf} {i j : ℕ} {vs : List ℕ}
    (h : j < i ∨ i + w * vs.length ≤ j) : putArray w b i vs j = b j := by
  induction vs generalizing b i with
  | nil => rfl
  | cons v vs ih =>
    rw [List.length_cons, Nat.mul_succ] at h
    rw [putArray, ih (by omega), put_of_notMem (by omega)]

/-- An array reads back what was put in it, modulo the width of its fields. -/
theorem le_putArray {w : ℕ} {b : Buf} {i k : ℕ} {vs : List ℕ} (h : k < vs.length) :
    le w (putArray w b i vs) (i + w * k) = vs[k] % 256 ^ w := by
  induction vs generalizing b i k with
  | nil => exact absurd h (Nat.not_lt_zero k)
  | cons v vs ih =>
    cases k with
    | zero =>
      have : le w (putArray w (put w b i v) (i + w) vs) i = le w (put w b i v) i :=
        le_congr fun _ _ => putArray_of_notMem (by omega)
      rw [putArray, Nat.mul_zero, Nat.add_zero, this, le_put]; rfl
    | succ k =>
      rw [putArray, Nat.mul_succ, show i + (w * k + w) = i + w + w * k by omega,
        ih (Nat.lt_of_succ_lt_succ h)]; rfl

theorem le_putArray_of_disjoint {w w' : ℕ} {b : Buf} {i j : ℕ} {vs : List ℕ}
    (h : j + w' ≤ i ∨ i + w * vs.length ≤ j) : le w' (putArray w b i vs) j = le w' b j :=
  le_congr fun _ _ => putArray_of_notMem (by omega)

theorem ofList_of_lt {s : List UInt8} {k : ℕ} (h : k < s.length) : ofList s k = s[k] := by
  rw [ofList, List.getElem?_eq_getElem h]; rfl

end Buf

end Aegir.Lib
