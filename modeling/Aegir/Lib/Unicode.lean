/-
  Code points in UTF-8 and UTF-16.

  A `Scalar` is a code point that stands for a character: none past the last plane, and no
  surrogate.  `utf8` is its bytes and `utf16` its units, the shortest ones.
-/
import Mathlib

namespace Aegir.Lib.Unicode

def Scalar (p : ℕ) : Prop := p < 0xd800 ∨ 0xe000 ≤ p ∧ p < 0x110000

instance : DecidablePred Scalar := fun p => inferInstanceAs (Decidable (p < 0xd800 ∨ 0xe000 ≤ p ∧ p < 0x110000))

def utf8 (p : ℕ) : List UInt8 :=
  if p < 0x80 then [.ofNat p]
  else if p < 0x800 then [.ofNat (0xc0 + p / 2 ^ 6), .ofNat (0x80 + p % 2 ^ 6)]
  else if p < 0x10000 then [.ofNat (0xe0 + p / 2 ^ 12), .ofNat (0x80 + p / 2 ^ 6 % 2 ^ 6), .ofNat (0x80 + p % 2 ^ 6)]
  else [.ofNat (0xf0 + p / 2 ^ 18), .ofNat (0x80 + p / 2 ^ 12 % 2 ^ 6), .ofNat (0x80 + p / 2 ^ 6 % 2 ^ 6),
    .ofNat (0x80 + p % 2 ^ 6)]

def utf16 (p : ℕ) : List ℕ :=
  if p < 0x10000 then [p] else [0xd800 + (p - 0x10000) / 2 ^ 10, 0xdc00 + (p - 0x10000) % 2 ^ 10]

theorem toNat_ofNat_of_lt {n : ℕ} (h : n < 256) : (UInt8.ofNat n).toNat = n := by
  rw [UInt8.toNat_ofNat']
  exact Nat.mod_eq_of_lt h

/-- A byte behind the first. -/
theorem toNat_continuation (n : ℕ) : (UInt8.ofNat (0x80 + n % 2 ^ 6)).toNat = 0x80 + n % 2 ^ 6 :=
  toNat_ofNat_of_lt (by omega)

end Aegir.Lib.Unicode
