/-
# Match lengths

How many bytes two runs share. The source compares words and vectors at a time; the
counts are those of the comparison byte by byte.
-/
import Mathlib.Data.List.Basic
import Mathlib.Order.Lattice

namespace Mbrotli.Compressor

def matchLenBytes : List UInt8 → List UInt8 → ℕ
  | x :: xs, y :: ys => if x = y then matchLenBytes xs ys + 1 else 0
  | _, _ => 0

/-- The leading bytes two windows share, `limit` at most. -/
def commonPrefixLen (left right : List UInt8) (limit : ℕ) : ℕ :=
  matchLenBytes (left.take limit) (right.take limit)

/-- The bytes two places of a buffer share, zero if `limit` bytes do not fit behind
both. -/
def findMatchLength (data : List UInt8) (left right limit : ℕ) : ℕ :=
  if limit ≤ (data.drop left).length ∧ limit ≤ (data.drop right).length then
    commonPrefixLen (data.drop left) (data.drop right) limit
  else 0

theorem matchLenBytes_spec (xs ys : List UInt8) :
    matchLenBytes xs ys ≤ xs.length ∧ matchLenBytes xs ys ≤ ys.length ∧
      ∀ i < matchLenBytes xs ys, xs[i]? = ys[i]? := by
  induction xs generalizing ys with
  | nil => simp [matchLenBytes]
  | cons x xs ih =>
    cases ys with
    | nil => simp [matchLenBytes]
    | cons y ys =>
      obtain ⟨h1, h2, h3⟩ := ih ys
      rw [matchLenBytes]
      by_cases hxy : x = y
      · rw [if_pos hxy]
        refine ⟨Nat.succ_le_succ h1, Nat.succ_le_succ h2, ?_⟩
        intro i hi
        cases i with
        | zero => simp [hxy]
        | succ i => simpa using h3 i (by omega)
      · rw [if_neg hxy]
        simp

theorem commonPrefixLen_spec (left right : List UInt8) (limit : ℕ) :
    commonPrefixLen left right limit ≤ limit ∧ commonPrefixLen left right limit ≤ left.length ∧
      ∀ i < commonPrefixLen left right limit, left[i]? = right[i]? := by
  obtain ⟨h1, h2, h3⟩ := matchLenBytes_spec (left.take limit) (right.take limit)
  rw [List.length_take] at h1
  refine ⟨?_, ?_, ?_⟩
  · show matchLenBytes _ _ ≤ limit
    omega
  · show matchLenBytes _ _ ≤ left.length
    omega
  · intro i hi
    have hlt : i < limit := Nat.lt_of_lt_of_le hi (by show matchLenBytes _ _ ≤ limit; omega)
    have := h3 i hi
    rwa [List.getElem?_take_of_lt hlt, List.getElem?_take_of_lt hlt] at this

theorem findMatchLength_spec (data : List UInt8) (left right limit : ℕ) :
    findMatchLength data left right limit ≤ limit ∧
      ∀ i < findMatchLength data left right limit, data[left + i]? = data[right + i]? := by
  rw [findMatchLength]
  by_cases hfit : limit ≤ (data.drop left).length ∧ limit ≤ (data.drop right).length
  · rw [if_pos hfit]
    obtain ⟨h1, -, h2⟩ := commonPrefixLen_spec (data.drop left) (data.drop right) limit
    refine ⟨h1, fun i hi => ?_⟩
    have := h2 i hi
    rwa [List.getElem?_drop, List.getElem?_drop] at this
  · rw [if_neg hfit]
    exact ⟨Nat.zero_le _, fun i hi => absurd hi (Nat.not_lt_zero i)⟩

end Mbrotli.Compressor
