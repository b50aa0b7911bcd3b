/-
# The sliding window

The window a search runs over, and how a position of the stream is wrapped into the
thirty-two bits the searches work with.
-/
import Mathlib.Algebra.Order.Ring.Nat

namespace Mbrotli.Compressor

/-- The window a search runs over: the ring's bytes, and the mask that turns a
position into an index. -/
structure Window where
  data : List UInt8
  mask : ℕ

/-- What a search of a block reads at a position of the block, or within reach of one,
is the input's up to the end of the block. -/
def Window.Holds (w : Window) (limit : ℕ) (input : List UInt8) (start base bytes : ℕ) : Prop :=
  ∀ q i, start ≤ q + limit → q + i < start + bytes → i < bytes →
    w.data[(q &&& w.mask) + i]? = input[base + q + i - start]?

/-- The stretch of input one call processes, from a wrapped position on. -/
structure BlockSpan where
  position : ℕ
  bytes : ℕ
  deriving DecidableEq, Repr

/-- Wraps an input position into 32 bits: past three gibibytes, positions alternate
between two halves of one gibibyte. -/
def wrapPosition (position : ℕ) : ℕ :=
  let gb := position >>> 30
  if 2 < gb then position % 2 ^ 30 ||| (((gb - 1) % 2 + 1) <<< 30) else position % 2 ^ 32

theorem wrapPosition_eq {position : ℕ} (h : position < 3 * 2 ^ 30) :
    wrapPosition position = position := by
  have hgb : ¬ 2 < position >>> 30 := by rw [Nat.shiftRight_eq_div_pow]; omega
  rw [wrapPosition]
  simp only [if_neg hgb]
  exact Nat.mod_eq_of_lt (by omega)

/-- Past three gibibytes the wrapped position still is at least one in. -/
theorem le_wrapPosition {position : ℕ} (h : 3 * 2 ^ 30 ≤ position) :
    2 ^ 30 ≤ wrapPosition position ∧ wrapPosition position < 3 * 2 ^ 30 := by
  have hgb : 2 < position >>> 30 := by rw [Nat.shiftRight_eq_div_pow]; omega
  have hlow : position % 2 ^ 30 < 2 ^ 30 := Nat.mod_lt _ (by decide)
  rw [wrapPosition]
  simp only [if_pos hgb]
  rw [Nat.shiftLeft_eq, Nat.or_comm, mul_comm, ← Nat.two_pow_add_eq_or_of_lt hlow]
  omega

/-- Wrapping hides nothing from a window: the position is untouched, or the window is
full on either count. -/
theorem wrapPosition_reach {limit : ℕ} (hlimit : limit ≤ 2 ^ 30) (position : ℕ) :
    wrapPosition position = position ∨ (limit ≤ wrapPosition position ∧ limit ≤ position) := by
  by_cases h : position < 3 * 2 ^ 30
  · exact .inl (wrapPosition_eq h)
  · have := le_wrapPosition (not_lt.mp h)
    exact .inr ⟨by omega, by omega⟩

theorem wrapPosition_lt (position : ℕ) : wrapPosition position < 3 * 2 ^ 30 := by
  by_cases h : position < 3 * 2 ^ 30
  · rwa [wrapPosition_eq h]
  · exact (le_wrapPosition (not_lt.mp h)).2

theorem wrapPosition_le (position : ℕ) : wrapPosition position ≤ position := by
  by_cases h : position < 3 * 2 ^ 30
  · exact (wrapPosition_eq h).le
  · have := (le_wrapPosition (not_lt.mp h)).2
    omega

/-- A ring of at most `2 ^ 31` bytes does not see the wrap. -/
theorem wrapPosition_mod (position : ℕ) {n : ℕ} (hn : n ≤ 31) :
    wrapPosition position % 2 ^ n = position % 2 ^ n := by
  have h31 : wrapPosition position % 2 ^ 31 = position % 2 ^ 31 := by
    by_cases h : position < 3 * 2 ^ 30
    · rw [wrapPosition_eq h]
    · have hgb : 2 < position >>> 30 := by rw [Nat.shiftRight_eq_div_pow]; omega
      have hlow : position % 2 ^ 30 < 2 ^ 30 := Nat.mod_lt _ (by decide)
      rw [wrapPosition]
      simp only [if_pos hgb]
      rw [Nat.shiftLeft_eq, Nat.or_comm, mul_comm, ← Nat.two_pow_add_eq_or_of_lt hlow,
        Nat.shiftRight_eq_div_pow]
      omega
  have hdvd : 2 ^ n ∣ 2 ^ 31 := pow_dvd_pow 2 hn
  rw [← Nat.mod_mod_of_dvd _ hdvd, h31, Nat.mod_mod_of_dvd _ hdvd]

end Mbrotli.Compressor
