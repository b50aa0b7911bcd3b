/-
# Descriptions of prefix codes

What a description is, apart from how it is read: one to four symbols and a shape, or the
lengths of a code-length code and, in that code, the lengths of the symbols with
repetitions. A repetition right after one of its kind continues it (`Expansion.token`).
`CodeDescription.fields` is the bit string of a description, `CodeDescription.lengths` the lengths
it gives, `CodeDescription.Valid` says that it fits an alphabet.
-/
import Mathlib.Data.List.Sort
import Mbrotli.Decompressor.Core.HuffmanReader

namespace Mbrotli

open Canonical BitString

/-! ### Fields -/

/-- Fields, each a width and a value, stand one after the other from bit `p` to `q`. -/
def Spelled (I : List UInt8) : ℕ → List (ℕ × ℕ) → ℕ → Prop
  | p, [], q => p = q
  | p, (width, value) :: fields, q => bitsAt I p width = value ∧ Spelled I (p + width) fields q

theorem Spelled.le {I : List UInt8} {fields : List (ℕ × ℕ)} {p q : ℕ} (h : Spelled I p fields q) :
    p ≤ q := by
  induction fields generalizing p with
  | nil => exact le_of_eq h
  | cons field fields ih => exact le_trans (Nat.le_add_right p field.1) (ih h.2)

theorem spelled_append {I : List UInt8} {r : ℕ} {fields' : List (ℕ × ℕ)} :
    ∀ {fields : List (ℕ × ℕ)} {p : ℕ},
    Spelled I p (fields ++ fields') r ↔ ∃ q, Spelled I p fields q ∧ Spelled I q fields' r
  | [], p => by simp [Spelled]
  | (width, value) :: fields, p => by
    simp only [List.cons_append, Spelled, spelled_append, and_assoc, exists_and_left]

/-- The word of a symbol as a field: its first bit is the lowest. -/
def wordField (lengths : List ℕ) (s : ℕ) : ℕ × ℕ :=
  if usedSymbols lengths = 1 then (0, 0)
    else (lengths.getD s 0, rev (lengths.getD s 0) (codeword lengths s))

/-- A string spells a symbol of a complete code if it starts with the field of its word. -/
theorem spells_iff_wordField {lengths : List ℕ} (h15 : ∀ ℓ ∈ lengths, ℓ ≤ 15)
    (hcode : kraft lengths = 2 ^ 15 ∨ usedSymbols lengths = 1)
    {v s width : ℕ} : Canonical.Spells lengths v s width ↔ s < lengths.length ∧
    lengths.getD s 0 ≠ 0 ∧
      width = (wordField lengths s).1 ∧ v % 2 ^ width = (wordField lengths s).2 := by
  unfold Canonical.Spells wordField
  by_cases h1 : usedSymbols lengths = 1
  · simp only [if_pos h1]
    constructor
    · rintro ⟨hs, h0, rfl⟩
      exact ⟨hs, h0, rfl, Nat.mod_one v⟩
    · rintro ⟨hs, h0, rfl, -⟩
      exact ⟨hs, h0, rfl⟩
  · simp only [if_neg h1]
    have hc := (complete_ofLengths h15).2 (hcode.resolve_right h1)
    refine and_congr_right fun hs => and_congr_right fun h0 => and_congr_right fun hw => ?_
    have hle : lengths.getD s 0 ≤ 15 := by
      rw [List.getD_eq_getElem _ _ hs]
      exact h15 _ (List.getElem_mem _)
    have hlt : codeword lengths s < 2 ^ lengths.getD s 0 := by
      have h2 := (getD_ofLengths hs h0).1
      have := first_add_le_pow hc hle
      unfold codeword
      omega
    rw [hw]
    exact (mod_eq_rev_iff hlt).symm

/-! ### The code-length code -/

/-- The fixed pattern of a length of the code-length code. -/
def lengthField : ℕ → ℕ × ℕ
  | 0 => (2, 0)
  | 1 => (4, 7)
  | 2 => (3, 3)
  | 3 => (2, 2)
  | 4 => (2, 1)
  | _ => (4, 15)

/-- The lengths of the eighteen symbols. -/
def codeLengths (small : ℕ → ℕ) : List ℕ := (List.range 18).map small

/-- Lengths given for the symbols in `order`, from the `k`-th on. -/
def place : ℕ → (ℕ → ℕ) → List ℕ → ℕ → ℕ
  | _, small, [] => small
  | k, small, value :: rest => place (k + 1) (Function.update small (order.getD k 0) value) rest

/-- The lengths go on while the code is not complete, to the last symbol at most; there it
has one symbol if it is not complete. -/
def Stores : ℕ → (ℕ → ℕ) → List ℕ → Prop
  | k, small, [] => kraft (codeLengths small) = 2 ^ 15 ∨ k = 18 ∧
      usedSymbols (codeLengths small) = 1
  | k, small, value :: rest => k < 18 ∧ kraft (codeLengths small) < 2 ^ 15 ∧ value ≤ lengthBits ∧
      Stores (k + 1) (Function.update small (order.getD k 0) value) rest

/-! ### The lengths of the symbols -/

/-- A symbol of the code-length code with its extra field: a length, a repetition of the
previous length that is not zero, or one of zeros. -/
inductive Token where
  | length (ℓ : ℕ)
  | again (extra : ℕ)
  | zeros (extra : ℕ)
  deriving DecidableEq, Repr

namespace Token

def symbol : Token → ℕ
  | length ℓ => ℓ
  | again _ => 16
  | zeros _ => 17

def extra : Token → List (ℕ × ℕ)
  | length _ => []
  | again extra => [(2, extra)]
  | zeros extra => [(3, extra)]

/-- Repetitions have symbols of their own, and their fields bound the number. -/
def Fits : Token → Prop
  | length ℓ => ℓ < 16
  | again extra => extra < 2 ^ 2
  | zeros extra => extra < 2 ^ 3

instance : DecidablePred Fits
  | length _ => inferInstanceAs (Decidable (_ < _))
  | again _ => inferInstanceAs (Decidable (_ < _))
  | zeros _ => inferInstanceAs (Decidable (_ < _))

/-- The bits of a token in a code of the given lengths. -/
def fields (small : List ℕ) (t : Token) : List (ℕ × ℕ) := wordField small t.symbol :: t.extra

end Token

/-- The lengths so far, and what a repetition refers to. -/
structure Expansion where
  lengths : List ℕ := []
  /-- The last length that is not zero; eight before the first. -/
  previous : ℕ := 8
  /-- The symbol of the repetition right before, zero after a length, -/
  kind : ℕ := 0
  /-- and how often it has repeated. -/
  repeated : ℕ := 0
  deriving DecidableEq, Repr

namespace Expansion

/-- How often a repetition repeats in all that continues one of `before` times. -/
def total (before width extra : ℕ) : ℕ :=
  (if before = 0 then 0 else (before - 2) * 2 ^ width) + extra + 3

/-- A repetition of `length`; right after one of its kind it makes up the difference. -/
def run (x : Expansion) (symbol width length extra : ℕ) : Expansion :=
  let before := if x.kind = symbol then x.repeated else 0
  { x with
    lengths := x.lengths ++ List.replicate (total before width extra - before) length
    kind := symbol
    repeated := total before width extra }

def token (x : Expansion) : Token → Expansion
  | .length ℓ => { x with
      lengths := x.lengths ++ [ℓ]
      previous := if ℓ = 0 then x.previous else ℓ
      kind := 0
      repeated := 0 }
  | .again extra => x.run 16 2 x.previous extra
  | .zeros extra => x.run 17 3 0 extra

/-- The tokens fill the code space with the last of them, within the alphabet. -/
def Fills (small : List ℕ) (alphabet : ℕ) : Expansion → List Token → Prop
  | x, [] => kraft x.lengths = 2 ^ 15
  | x, t :: rest => kraft x.lengths < 2 ^ 15 ∧ t.Fits ∧ small.getD t.symbol 0 ≠ 0 ∧
      (x.token t).lengths.length ≤ alphabet ∧ Fills small alphabet (x.token t) rest

end Expansion

/-! ### Descriptions -/

inductive CodeDescription where
  /-- Symbols, and which lengths they have if there are four. -/
  | simple (symbols : List ℕ) (shape : ℕ)
  /-- The lengths of the code-length code from the `skip`-th on, and the tokens. -/
  | complex (skip : ℕ) (stored : List ℕ) (tokens : List Token)
  deriving DecidableEq, Repr

namespace CodeDescription

/-- The lengths of the code-length code. -/
def small (skip : ℕ) (stored : List ℕ) : List ℕ := codeLengths (place skip (fun _ => 0) stored)

/-- The lengths of the symbols. -/
def lengths (alphabet : ℕ) : CodeDescription → List ℕ
  | simple symbols shape => (List.range alphabet).map fun s =>
      if s ∈ symbols then (Builder.shapeLengths symbols.length shape).getD
      (symbols.idxOf s) 0 else 0
  | complex _ _ tokens => (tokens.foldl Expansion.token {}).lengths

/-- The bits of a description. -/
def fields (alphabet : ℕ) : CodeDescription → List (ℕ × ℕ)
  | simple symbols shape => (2, 1) :: (2, symbols.length - 1) ::
      (symbols.map fun s => (Builder.symbolWidth alphabet, s)) ++ if symbols.length = 4
      then [(1, shape)] else []
  | complex skip stored tokens => (2, skip) :: stored.map lengthField ++ tokens.flatMap
      (Token.fields (small skip stored))

/-- Distinct symbols of the alphabet; or a complete code-length code, or one of one symbol,
and lengths in it that fill the code space within the alphabet. -/
def Valid (alphabet : ℕ) : CodeDescription → Prop
  | simple symbols shape => 1 ≤ symbols.length ∧ symbols.length ≤ 4 ∧ symbols.Nodup ∧
      (∀ s ∈ symbols, s < alphabet) ∧
      shape < 2 ∧ (symbols.length ≠ 4 → shape = 0)
  | complex skip stored tokens => skip ≠ 1 ∧ skip < 4 ∧ Stores skip (fun _ => 0) stored ∧
      Expansion.Fills (small skip stored) alphabet {} tokens

end CodeDescription

end Mbrotli
