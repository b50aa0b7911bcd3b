/-
# A byte list as a bit string, least significant bit first

`bitAt I i` is bit `i` of the byte list `I` and `bitsAt I p n` the number its
`n` bits from `p` on spell, the first bit lowest. Past the end every bit is
zero. Words with the same low bits (`Nat.testBit`) are the same number, so
every fact about a field of the string is a fact about its bits.

Key theorems: `testBit_bitsAt`, `bitsAt_congr`, `bitsAt_mod`, `bitsAt_div`.
-/
import Mathlib.Data.Nat.Bitwise
import Mathlib.Tactic.Linarith
import Mathlib.Tactic.Ring

namespace Mbrotli
namespace BitString

/-- Bit `i` of a byte list, false past its end. -/
def bitAt (I : List UInt8) (i : ℕ) : Bool := (I.getD (i / 8) 0).toNat.testBit (i % 8)

/-- The `n` bits from `p` on as a number, the first bit lowest. -/
def bitsAt (I : List UInt8) : ℕ → ℕ → ℕ
  | _, 0 => 0
  | p, n + 1 => (bitAt I p).toNat + 2 * bitsAt I (p + 1) n

theorem bitAt_of_length_le {I : List UInt8} {i : ℕ} (h : 8 * I.length ≤ i) : bitAt I i = false := by
  have : I.length ≤ i / 8 := by omega
  simp [bitAt, List.getD_eq_getElem?_getD, List.getElem?_eq_none this]

theorem testBit_bitsAt (I : List UInt8) (p n i : ℕ) :
    (bitsAt I p n).testBit i = (decide (i < n) && bitAt I (p + i)) := by
  induction n generalizing p i with
  | zero => simp [bitsAt]
  | succ n ih =>
    rw [bitsAt]
    cases i with
    | zero => cases bitAt I p <;> simp [Nat.testBit_zero]
    | succ i =>
      have hdiv : ((bitAt I p).toNat + 2 * bitsAt I (p + 1) n) / 2 = bitsAt I (p + 1) n := by
        cases bitAt I p <;> simp
        omega
      rw [Nat.testBit_succ, hdiv, ih]
      simp [Nat.add_assoc, Nat.add_comm 1 i]

theorem bitsAt_lt (I : List UInt8) (p n : ℕ) : bitsAt I p n < 2 ^ n := by
  refine Nat.lt_pow_two_of_testBit _ fun i hi => ?_
  simp [testBit_bitsAt, hi]

/-- Two strings that agree on a range spell the same number there. -/
theorem bitsAt_congr {I J : List UInt8} {p n : ℕ}
    (h : ∀ i, p ≤ i → i < p + n → bitAt I i = bitAt J i) : bitsAt I p n = bitsAt J p n := by
  refine Nat.eq_of_testBit_eq fun i => ?_
  rw [testBit_bitsAt, testBit_bitsAt]
  by_cases hi : i < n
  · simp [hi, h (p + i) (by omega) (by omega)]
  · simp [hi]

theorem bitsAt_mod (I : List UInt8) (p n m : ℕ) (h : m ≤ n) :
    bitsAt I p n % 2 ^ m = bitsAt I p m := by
  refine Nat.eq_of_testBit_eq fun i => ?_
  rw [Nat.testBit_mod_two_pow, testBit_bitsAt, testBit_bitsAt]
  by_cases hi : i < m
  · simp [hi, show i < n by omega]
  · simp [hi]

theorem bitsAt_div (I : List UInt8) (p n m : ℕ) :
    bitsAt I p n / 2 ^ m = bitsAt I (p + m) (n - m) := by
  refine Nat.eq_of_testBit_eq fun i => ?_
  rw [← Nat.shiftRight_eq_div_pow, Nat.testBit_shiftRight, testBit_bitsAt, testBit_bitsAt]
  by_cases hi : m + i < n
  · simp [hi, show i < n - m by omega, Nat.add_assoc]
  · simp [hi, show ¬ i < n - m by omega]

/-- A number below `2 ^ n` with the bits of the string is that field of it. -/
theorem eq_bitsAt {I : List UInt8} {p n v : ℕ} (hv : v < 2 ^ n)
    (h : ∀ i, i < n → v.testBit i = bitAt I (p + i)) : v = bitsAt I p n := by
  refine Nat.eq_of_testBit_eq fun i => ?_
  rw [testBit_bitsAt]
  by_cases hi : i < n
  · simp [hi, h i hi]
  · have : v < 2 ^ i := lt_of_lt_of_le hv (Nat.pow_le_pow_right (by omega) (by omega))
    simp [hi, Nat.testBit_lt_two_pow this]

theorem bitAt_byte {I : List UInt8} {k : ℕ} {b : UInt8} (h : I[k]? = some b) {i : ℕ} (hi : i < 8) :
    bitAt I (8 * k + i) = b.toNat.testBit i := by
  have h1 : (8 * k + i) / 8 = k := by omega
  have h2 : (8 * k + i) % 8 = i := by omega
  simp [bitAt, h1, h2, List.getD_eq_getElem?_getD, h]

theorem toNat_testBit_of_le (b : UInt8) {i : ℕ} (hi : 8 ≤ i) : b.toNat.testBit i = false := by
  refine Nat.testBit_lt_two_pow (lt_of_lt_of_le (UInt8.toNat_lt b) ?_)
  exact Nat.pow_le_pow_right (by omega) hi

end BitString
end Mbrotli
