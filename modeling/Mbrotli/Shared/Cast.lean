/-
# Casts between machine integers

What `as` and the wrapping operations make of a value that does not fit.
-/
import Mathlib.Data.Int.Order.Lemmas
import Mathlib.Tactic.NormNum

namespace Mbrotli.Compressor

/-- The value of a Rust `as i8` cast. -/
def asI8 (z : ℤ) : ℤ := z.bmod (2 ^ 8)

/-- The value of a Rust `as i32` cast. -/
def asI32 (n : ℕ) : ℤ := (n : ℤ).bmod (2 ^ 32)

/-- The value of a Rust `as usize` cast. -/
def asUsize (z : ℤ) : ℕ := (z % 2 ^ 64).toNat

/-- The value of `wrapping_sub`. -/
def wrappingSub (a b : ℕ) : ℕ := if b ≤ a then a - b else a + 2 ^ 64 - b

theorem wrappingSub_of_le {a b : ℕ} (h : b ≤ a) : wrappingSub a b = a - b := if_pos h

theorem wrappingSub_of_lt {a b : ℕ} (h : a < b) : wrappingSub a b = a + 2 ^ 64 - b :=
  if_neg (Nat.not_le.mpr h)

theorem asI32_eq {n : ℕ} (h : n < 2 ^ 31) : asI32 n = n := by
  have h' : n < 2147483648 := h
  show Int.bmod (n : ℤ) 4294967296 = n
  exact Int.bmod_eq_of_le (by omega) (by omega)

theorem asUsize_eq {z : ℤ} (h0 : 0 ≤ z) (h : z < 2 ^ 31) : (asUsize z : ℤ) = z := by
  have hlt : z < 2 ^ 64 := h.trans (by norm_num)
  rw [asUsize, Int.emod_eq_of_lt h0 hlt, Int.toNat_of_nonneg h0]

end Mbrotli.Compressor
