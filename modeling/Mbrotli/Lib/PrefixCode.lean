/-
# Canonical prefix codes

A canonical code is given by the symbols of each length, in increasing order
(`lists`). The code words of length `ℓ` are the numbers from `first ℓ` on, first
bit highest; the stream delivers the first bit lowest, so the word that starts
a string `v` is read reversed, `rev ℓ v`. `Match` says that `v` starts with the
`j`-th word of length `ℓ`; at most one word starts a string (`match_unique`), and
exactly one does if the code is `Complete` (`exists_match`).

`PrefixCode` is a complete code, or a code of a single symbol, which takes no
bits. `PrefixCode.lookup` decodes bit by bit; its result is the symbol of the word
that matches (`lookup_of_match`), and it reads no further than that
(`lookup_prefixLaw`).
-/
import Mbrotli.Lib.Reader

namespace Mbrotli
namespace Canonical

/-- The longest code word. -/
def maxLength : ℕ := 15

/-- The first `ℓ` bits of a string as a number, the first bit highest. -/
def rev : ℕ → ℕ → ℕ
  | 0, _ => 0
  | ℓ + 1, v => 2 * rev ℓ v + (v.testBit ℓ).toNat

theorem rev_lt (ℓ v : ℕ) : rev ℓ v < 2 ^ ℓ := by
  induction ℓ with
  | zero => simp [rev]
  | succ ℓ ih =>
    rw [rev, pow_succ]
    cases v.testBit ℓ <;> simp <;> omega

theorem rev_congr {ℓ v w : ℕ} (h : ∀ i, i < ℓ → v.testBit i = w.testBit i) : rev ℓ v = rev ℓ w := by
  induction ℓ with
  | zero => rfl
  | succ ℓ ih => rw [rev, rev, ih fun i hi => h i (by omega), h ℓ (by omega)]

theorem rev_mod {ℓ m : ℕ} (h : ℓ ≤ m) (v : ℕ) : rev ℓ (v % 2 ^ m) = rev ℓ v := by
  refine rev_congr fun i hi => ?_
  rw [Nat.testBit_mod_two_pow]
  simp [show i < m by omega]

theorem rev_eq_of_mod_eq {ℓ v w : ℕ} (h : v % 2 ^ ℓ = w % 2 ^ ℓ) : rev ℓ v = rev ℓ w := by
  rw [← rev_mod le_rfl v, h, rev_mod le_rfl]

theorem rev_div (ℓ k v : ℕ) : rev (ℓ + k) v / 2 ^ k = rev ℓ v := by
  induction k with
  | zero => simp
  | succ k ih =>
    rw [← Nat.add_assoc, rev, pow_succ', ← Nat.div_div_eq_div_mul]
    rw [show (2 * rev (ℓ + k) v + (v.testBit (ℓ + k)).toNat) / 2 = rev (ℓ + k) v by
      cases v.testBit (ℓ + k) <;> simp
      omega]
    exact ih

theorem testBit_rev {ℓ i : ℕ} (h : i < ℓ) (v : ℕ) :
    (rev ℓ v).testBit i = v.testBit (ℓ - 1 - i) := by
  induction ℓ generalizing i with
  | zero => omega
  | succ ℓ ih =>
    rw [rev]
    cases i with
    | zero => cases hb : v.testBit ℓ <;> simp [Nat.testBit_zero, hb]
    | succ i =>
      have hdiv : (2 * rev ℓ v + (v.testBit ℓ).toNat) / 2 = rev ℓ v := by
        cases v.testBit ℓ <;> simp
        omega
      rw [Nat.testBit_succ, hdiv, ih (by omega)]
      congr 1
      omega

/-- Reversing a word twice gives it back. -/
theorem rev_rev {ℓ c : ℕ} (h : c < 2 ^ ℓ) : rev ℓ (rev ℓ c) = c := by
  refine Nat.eq_of_testBit_eq fun i => ?_
  by_cases hi : i < ℓ
  · rw [testBit_rev hi, testBit_rev (by omega)]
    congr 1
    omega
  · have hle : 2 ^ ℓ ≤ 2 ^ i := Nat.pow_le_pow_right (by omega) (by omega)
    rw [Nat.testBit_lt_two_pow (lt_of_lt_of_le h hle),
      Nat.testBit_lt_two_pow (lt_of_lt_of_le (rev_lt ℓ _) hle)]

variable (lists : ℕ → List ℕ)

/-- The first code word of length `ℓ`. -/
def first : ℕ → ℕ
  | 0 => 0
  | ℓ + 1 => 2 * (first ℓ + (lists ℓ).length)

theorem first_mono (ℓ k : ℕ) : 2 ^ k * first lists ℓ ≤ first lists (ℓ + k) := by
  induction k with
  | zero => simp
  | succ k ih =>
    rw [← Nat.add_assoc, first, pow_succ']
    have : 2 ^ k * first lists ℓ ≤ first lists (ℓ + k) := ih
    rw [Nat.mul_assoc]
    omega

theorem end_mono (ℓ k : ℕ) (hk : 0 < k) :
    2 ^ k * (first lists ℓ + (lists ℓ).length) ≤ first lists (ℓ + k) := by
  obtain ⟨k, rfl⟩ : ∃ j, k = j + 1 := ⟨k - 1, by omega⟩
  calc 2 ^ (k + 1) * (first lists ℓ + (lists ℓ).length)
      = 2 ^ k * first lists (ℓ + 1) := by rw [first]; ring
    _ ≤ first lists (ℓ + 1 + k) := first_mono lists (ℓ + 1) k
    _ = first lists (ℓ + (k + 1)) := by congr 1; omega

/-- The string starts with the `j`-th word of length `ℓ`. -/
def Match (ℓ j v : ℕ) : Prop := j < (lists ℓ).length ∧ rev ℓ v = first lists ℓ + j

variable {lists}

theorem Match.of_mod_eq {ℓ j v w : ℕ} (h : Match lists ℓ j v) (hw : w % 2 ^ ℓ = v % 2 ^ ℓ) :
    Match lists ℓ j w := ⟨h.1, by rw [rev_eq_of_mod_eq hw, h.2]⟩

/-- A word's end bounds the longer prefixes of the strings it starts. -/
theorem Match.rev_lt {ℓ j v : ℕ} (h : Match lists ℓ j v) (k : ℕ) :
    rev (ℓ + k) v < 2 ^ k * (first lists ℓ + j + 1) := by
  have hd := rev_div ℓ k v
  rw [h.2] at hd
  have hpos : 0 < 2 ^ k := Nat.two_pow_pos k
  rw [Nat.mul_comm]
  exact (Nat.div_lt_iff_lt_mul hpos).mp (by omega)

theorem match_length_unique {ℓ ℓ' j j' v : ℕ} (h : Match lists ℓ j v) (h' : Match lists ℓ' j' v) :
    ¬ ℓ < ℓ' := by
  intro hlt
  obtain ⟨k, rfl⟩ : ∃ k, ℓ' = ℓ + k := ⟨ℓ' - ℓ, by omega⟩
  have h1 := h.rev_lt k
  have h2 := end_mono lists ℓ k (by omega)
  have h3 : 2 ^ k * (first lists ℓ + j + 1) ≤ 2 ^ k * (first lists ℓ + (lists ℓ).length) :=
    Nat.mul_le_mul_left _ (by have := h.1; omega)
  have h4 := h'.2
  omega

/-- At most one word starts a string. -/
theorem match_unique {ℓ ℓ' j j' v : ℕ} (h : Match lists ℓ j v) (h' : Match lists ℓ' j' v) :
    ℓ = ℓ' ∧ j = j' := by
  have h1 := match_length_unique h h'
  have h2 := match_length_unique h' h
  obtain rfl : ℓ = ℓ' := by omega
  exact ⟨rfl, by have := h.2; have := h'.2; omega⟩

/-- The words fill the code space. -/
def Complete (lists : ℕ → List ℕ) : Prop :=
  lists 0 = [] ∧ first lists maxLength + (lists maxLength).length = 2 ^ maxLength

/-- Some word of length at most `m` starts the string, or all of them lie before it. -/
theorem match_or_le (h0 : lists 0 = []) (v m : ℕ) :
    (∃ ℓ j, 1 ≤ ℓ ∧ ℓ ≤ m ∧ Match lists ℓ j v) ∨ first lists m + (lists m).length ≤ rev m v := by
  induction m with
  | zero => right; simp [first, h0, rev]
  | succ m ih =>
    rcases ih with ⟨ℓ, j, h1, h2, h3⟩ | hle
    · exact Or.inl ⟨ℓ, j, h1, by omega, h3⟩
    · by_cases hm : rev (m + 1) v < first lists (m + 1) + (lists (m + 1)).length
      · left
        have hf : first lists (m + 1) ≤ rev (m + 1) v := by rw [first, rev]; omega
        exact ⟨m + 1, rev (m + 1) v - first lists (m + 1), by omega, le_rfl, by omega, by omega⟩
      · right; omega

/-- In a complete code some word starts every string. -/
theorem exists_match (hc : Complete lists) (v : ℕ) :
    ∃ ℓ j, 1 ≤ ℓ ∧ ℓ ≤ maxLength ∧ Match lists ℓ j v := by
  rcases match_or_le hc.1 v maxLength with h | h
  · exact h
  · have := rev_lt maxLength v
    have := hc.2
    omega

/-- Bit-by-bit decoding from length `ℓ` on: `code` is the word read so far,
`fst` the first word of this length. -/
def decodeFrom (lists : ℕ → List ℕ) : ℕ → ℕ → ℕ → ℕ → ℕ → ℕ × ℕ
  | 0, _, _, _, _ => (0, 0)
  | fuel + 1, ℓ, code, fst, v =>
    let code := 2 * code + v % 2
    if code < fst + (lists ℓ).length then ((lists ℓ).getD (code - fst) 0, ℓ)
    else decodeFrom lists fuel (ℓ + 1) code (2 * (fst + (lists ℓ).length)) (v / 2)

/-- The symbol and the width of the word a string starts with. -/
def decode (lists : ℕ → List ℕ) (v : ℕ) : ℕ × ℕ := decodeFrom lists maxLength 1 0 0 v

theorem decodeFrom_of_match {ℓ j v : ℕ} (hm : Match lists ℓ j v) :
    ∀ (k m : ℕ), m + 1 + k = ℓ → ∀ fuel, k < fuel →
      decodeFrom lists fuel (m + 1) (rev m v) (first lists (m + 1)) (v / 2 ^ m) =
        ((lists ℓ).getD j 0, ℓ) := by
  have hcode : ∀ m, 2 * rev m v + v / 2 ^ m % 2 = rev (m + 1) v := fun m => by
    rw [rev]
    congr 1
    rw [Nat.testBit_eq_decide_div_mod_eq]
    rcases Nat.mod_two_eq_zero_or_one (v / 2 ^ m) with h | h <;> simp [h]
  intro k
  induction k with
  | zero =>
    intro m hk fuel hf
    obtain ⟨fuel, rfl⟩ : ∃ f, fuel = f + 1 := ⟨fuel - 1, by omega⟩
    obtain rfl : m + 1 = ℓ := by omega
    have h1 := hm.1
    have h2 := hm.2
    rw [decodeFrom]
    simp only [hcode]
    rw [if_pos (by omega), h2, Nat.add_sub_cancel_left]
  | succ k ih =>
    intro m hk fuel hf
    obtain ⟨fuel, rfl⟩ : ∃ f, fuel = f + 1 := ⟨fuel - 1, by omega⟩
    have hge : first lists (m + 1) + (lists (m + 1)).length ≤ rev (m + 1) v := by
      by_contra hlt
      have h1 := hm.2
      have h2 := end_mono lists (m + 1) (k + 1) (by omega)
      rw [show m + 1 + (k + 1) = ℓ by omega] at h2
      have h3 := rev_div (m + 1) (k + 1) v
      rw [show m + 1 + (k + 1) = ℓ by omega, h1] at h3
      have : first lists ℓ / 2 ^ (k + 1) ≤ (first lists ℓ + j) / 2 ^ (k + 1) :=
        Nat.div_le_div_right (by omega)
      have h4 : first lists (m + 1) + (lists (m + 1)).length ≤ first lists ℓ / 2 ^ (k + 1) :=
        (Nat.le_div_iff_mul_le (Nat.two_pow_pos _)).mpr (by rw [Nat.mul_comm]; exact h2)
      omega
    rw [decodeFrom]
    simp only [hcode]
    rw [if_neg (by omega), Nat.div_div_eq_div_mul, ← pow_succ]
    exact ih (m + 1) (by omega) fuel (by omega)

theorem decode_of_match (h0 : lists 0 = []) {ℓ j v : ℕ} (h1 : 1 ≤ ℓ) (h15 : ℓ ≤ maxLength)
    (hm : Match lists ℓ j v) :
    decode lists v = ((lists ℓ).getD j 0, ℓ) := by
  have := decodeFrom_of_match hm (ℓ - 1) 0 (by omega) maxLength (by omega)
  simpa [decode, rev, first, h0] using this

/-- The symbols of the code, shortest words first. -/
def symbols (lists : ℕ → List ℕ) : List ℕ := (List.range' 1 maxLength).flatMap lists

theorem mem_symbols {lists : ℕ → List ℕ} {s : ℕ} :
    s ∈ symbols lists ↔ ∃ ℓ, 1 ≤ ℓ ∧ ℓ ≤ maxLength ∧ s ∈ lists ℓ := by
  simp only [symbols, List.mem_flatMap, List.mem_range'_1, maxLength]
  constructor
  · rintro ⟨ℓ, h, hs⟩; exact ⟨ℓ, by omega, by omega, hs⟩
  · rintro ⟨ℓ, h1, h2, hs⟩; exact ⟨ℓ, by omega, hs⟩

instance (lists : ℕ → List ℕ) : Decidable (Complete lists) := inferInstanceAs (Decidable (_ ∧ _))

end Canonical

open Canonical

/-- A decodable canonical code: a single symbol, or a complete set of words. -/
structure PrefixCode where
  lists : ℕ → List ℕ
  /-- The only symbol of a code without words. -/
  single : Option ℕ
  complete : single = none → Complete lists

namespace PrefixCode

/-- The symbol the string starts with and the width of its word. -/
def lookup (c : PrefixCode) (v : ℕ) : ℕ × ℕ :=
  match c.single with
  | some s => (s, 0)
  | none => decode c.lists v

theorem lookup_of_match {c : PrefixCode} (hs : c.single = none) {ℓ j v : ℕ} (h1 : 1 ≤ ℓ)
    (h15 : ℓ ≤ maxLength) (hm : Match c.lists ℓ j v) : c.lookup v = ((c.lists ℓ).getD j 0, ℓ) := by
  rw [lookup, hs]
  exact decode_of_match (c.complete hs).1 h1 h15 hm

theorem lookup_prefixLaw (c : PrefixCode) : Reader.PrefixLaw c.lookup := by
  intro v
  cases hs : c.single with
  | some s => simp [lookup, hs]
  | none =>
    obtain ⟨ℓ, j, h1, h15, hm⟩ := exists_match (c.complete hs) v
    have hv := lookup_of_match hs h1 h15 hm
    rw [hv]
    refine ⟨h15, fun w hw => ?_⟩
    exact lookup_of_match hs h1 h15 (hm.of_mod_eq hw)

/-- The code of some lists: one symbol needs no words, more of them a complete code. -/
def ofLists (lists : ℕ → List ℕ) : Option PrefixCode :=
  match symbols lists with
  | [] => none
  | [s] => some ⟨lists, some s, fun h => nomatch h⟩
  | _ => if h : Complete lists then some ⟨lists, none, fun _ => h⟩ else none

/-- A code delivers the symbols of its lists. -/
theorem lookup_mem {lists : ℕ → List ℕ} {c : PrefixCode} (h : ofLists lists = some c) (v : ℕ) :
    (c.lookup v).1 ∈ symbols lists := by
  unfold ofLists at h
  split at h
  · cases h
  · rename_i s hs
    cases h
    simp [lookup, hs]
  · split at h
    · cases h
      rename_i hc
      obtain ⟨ℓ, j, h1, h15, hm⟩ := exists_match hc v
      rw [lookup_of_match (c := ⟨lists, none, fun _ => hc⟩) rfl h1 h15 hm, mem_symbols]
      refine ⟨ℓ, h1, h15, ?_⟩
      rw [List.getD_eq_getElem _ _ hm.1]
      exact List.getElem_mem _
    · cases h

end PrefixCode
end Mbrotli
