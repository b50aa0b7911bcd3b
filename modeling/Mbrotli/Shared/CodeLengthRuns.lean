/-
# The run-length form of code lengths

A sequence of code lengths is written in an alphabet of its own: the lengths, a repetition of
the last length that is not zero, and one of zeros. A repetition of `n + 3` is the digits
of `n`, the last one first, each but the last one less; the source pushes them and turns
them round.

The reader undoes a repetition with the number it has repeated so far (`Expansion.run`).
`repeat_digits` says that the digits come to `n + 3` there if none of their kind came right
before, and a writer of whole runs never starts one that would be continued (`Fresh`). So
the runs expand to the lengths (`writeTreeFrom_expands`), whether or not it uses
repetitions.

Key definitions: `repetitionDigits`, `writeHuffmanTree`, `Expands`.
Key theorems: `Expansion.repeat_digits`, `writeTreeFrom_expands`, `writeHuffmanTree_expands`.
-/
import Mbrotli.Decompressor.Core.HuffmanExact
import Mbrotli.Shared.SmoothedCodes

namespace Mbrotli.Compressor
open Canonical

def codeLengthCodes : ℕ := 18
def repeatPreviousCodeLength : ℕ := 16
def repeatZeroCodeLength : ℕ := 17
def initialRepeatedCodeLength : ℕ := 8

/-- The extra fields of a repetition, `width` bits each, in the order they are pushed. -/
def repetitionDigits (width : ℕ) : ℕ → ℕ → List ℕ
  | 0, _ => []
  | fuel + 1, repetitions =>
    let extra := repetitions % 2 ^ width
    let repetitions := repetitions >>> width
    extra :: if repetitions = 0 then [] else repetitionDigits width fuel (repetitions - 1)

/-- Symbols of the code-length code with their extra fields. -/
abbrev CodeLengthRuns := List (ℕ × ℕ)

namespace CodeLengthRuns

def push (runs : CodeLengthRuns) (symbol extra : ℕ) : CodeLengthRuns :=
  if runs.length < numCommandSymbols then runs ++ [(symbol, extra)] else runs

def reverse (runs : CodeLengthRuns) (start : ℕ) : CodeLengthRuns :=
  runs.take start ++ (runs.drop start).reverse

/-- The symbol alone, `repetitions` times. -/
def pushCopies (runs : CodeLengthRuns) (symbol repetitions : ℕ) : CodeLengthRuns :=
  (List.range repetitions).foldl (fun runs _ => push runs symbol 0) runs

/-- A repetition of three more than `repetitions`. -/
def pushRepetition (runs : CodeLengthRuns) (symbol width repetitions : ℕ) : CodeLengthRuns :=
  reverse ((repetitionDigits width (repetitions + 1) repetitions).foldl
    (fun runs extra => push runs symbol extra) runs) runs.length

/-- Emits `repetitions` copies of a non-zero `value`. -/
def writeRepetitions (runs : CodeLengthRuns) (previousValue value repetitions : ℕ) :
    CodeLengthRuns :=
  let (runs, repetitions) := if previousValue ≠ value then (push runs value 0, repetitions - 1)
    else (runs, repetitions)
  let (runs, repetitions) := if repetitions = 7 then (push runs value 0, repetitions - 1)
    else (runs, repetitions)
  if repetitions < 3 then pushCopies runs value repetitions
  else pushRepetition runs repeatPreviousCodeLength 2 (repetitions - 3)

/-- Emits `repetitions` zero code lengths. -/
def writeZeroRepetitions (runs : CodeLengthRuns) (repetitions : ℕ) : CodeLengthRuns :=
  let (runs, repetitions) := if repetitions = 11 then (push runs 0 0, repetitions - 1)
    else (runs, repetitions)
  if repetitions < 3 then pushCopies runs 0 repetitions
  else pushRepetition runs repeatZeroCodeLength 3 (repetitions - 3)

end CodeLengthRuns

open CodeLengthRuns

/-- The depths after a first one of `value` that are equal to it. -/
def sameAhead (value : ℕ) (rest : List ℕ) : ℕ := (rest.takeWhile (· = value)).length

/-- The runs of a depth sequence that are long enough to be repeated: how many symbols and
how many runs, one more of each kind, of zeros and of others. -/
def countRuns : ℕ → List ℕ → ℕ × ℕ → ℕ × ℕ → (ℕ × ℕ) × (ℕ × ℕ)
  | fuel + 1, value :: rest, zero, nonZero =>
    let reps := sameAhead value rest + 1
    countRuns fuel (rest.drop (reps - 1))
      (if 3 ≤ reps ∧ value = 0 then (zero.1 + reps, zero.2 + 1) else zero)
      (if 4 ≤ reps ∧ value ≠ 0 then (nonZero.1 + reps, nonZero.2 + 1) else nonZero)
  | _, _, zero, nonZero => (zero, nonZero)

/-- Whether run-length coding pays off, for non-zero lengths and for zeros. -/
def decideOverRleUse (depth : List ℕ) (length : ℕ) : Bool × Bool :=
  let (zero, nonZero) := countRuns length (depth.take length) (0, 1) (0, 1)
  (decide (nonZero.1 > nonZero.2 * 2), decide (zero.1 > zero.2 * 2))

/-- The runs of the depths that are left. -/
def writeTreeFrom (useRleForNonZero useRleForZero : Bool) : ℕ → List ℕ → ℕ → CodeLengthRuns →
    CodeLengthRuns
  | fuel + 1, value :: rest, previousValue, runs =>
    let reps := if value ≠ 0 ∧ useRleForNonZero ∨ value = 0 ∧ useRleForZero
    then sameAhead value rest + 1 else 1
    if value = 0 then
      writeTreeFrom useRleForNonZero useRleForZero fuel (rest.drop (reps - 1)) previousValue
        (writeZeroRepetitions runs reps)
    else
      writeTreeFrom useRleForNonZero useRleForZero fuel (rest.drop (reps - 1)) value
        (writeRepetitions runs previousValue value reps)
  | _, _, _, runs => runs

/-- Builds the run-length form of `depth[..length]`. -/
def writeHuffmanTree (depth : List ℕ) (length : ℕ) : Option CodeLengthRuns := do
  let newLength ← trimmed depth length
  let (useRleForNonZero, useRleForZero) :=
    if 50 < length then decideOverRleUse depth newLength else (false, false)
  return writeTreeFrom useRleForNonZero useRleForZero newLength (depth.take newLength)
    initialRepeatedCodeLength []

/-! ### A repetition and its digits -/

theorem repetitionDigits_lt {width fuel n d : ℕ} (h : d ∈ repetitionDigits width fuel n) :
    d < 2 ^ width := by
  induction fuel generalizing n with
  | zero => exact absurd h List.not_mem_nil
  | succ fuel ih =>
    rw [repetitionDigits] at h
    rcases List.mem_cons.1 h with rfl | h
    · exact Nat.mod_lt _ (Nat.two_pow_pos _)
    · split at h
      · exact absurd h List.not_mem_nil
      · exact ih h

/-- A number below a power of the base has as few digits. -/
theorem length_repetitionDigits {width k : ℕ} (fuel : ℕ) {n : ℕ} (hn : n < 2 ^ (width * (k + 1))) :
    (repetitionDigits width fuel n).length ≤ k + 1 := by
  induction fuel generalizing n k with
  | zero => exact Nat.zero_le _
  | succ fuel ih =>
    have hdiv : n >>> width < 2 ^ (width * k) := by
      rw [Nat.shiftRight_eq_div_pow, Nat.div_lt_iff_lt_mul (Nat.two_pow_pos _), ← pow_add]
      exact hn
    rw [repetitionDigits, List.length_cons]
    by_cases hlast : n >>> width = 0
    · rw [if_pos hlast]
      exact Nat.le_add_left _ _
    · rw [if_neg hlast]
      cases k with
      | zero => exact absurd (Nat.lt_one_iff.1 hdiv) hlast
      | succ k => exact Nat.succ_le_succ (ih ((Nat.sub_le _ _).trans_lt hdiv))

/-- A repetition is as long as three more than its digits. -/
theorem Expansion.repeat_digits {width symbol length : ℕ} {t : ℕ → Token} (fuel : ℕ) {n : ℕ}
    (hfuel : n < fuel) {x : Expansion}
    (ht : ∀ y : Expansion, y.previous = x.previous →
      ∀ d, y.token (t d) = y.run symbol width length d)
    (hfresh : x.kind = symbol → x.repeated = 0) :
    ((repetitionDigits width fuel n).reverse.map t).foldl Expansion.token x =
      { x with lengths := x.lengths ++
        List.replicate (n + 3) length, kind := symbol, repeated := n + 3 } := by
  induction fuel generalizing n with
  | zero => omega
  | succ fuel ih =>
    have hsplit : n = (n >>> width) * 2 ^ width + n % 2 ^ width := by
      rw [Nat.shiftRight_eq_div_pow]
      exact (Nat.div_add_mod' n (2 ^ width)).symm
    have hone : 0 < 2 ^ width := Nat.two_pow_pos width
    rw [repetitionDigits]
    by_cases hlast : n >>> width = 0
    · have hbefore : (if x.kind = symbol then x.repeated else 0) = 0 := by
        split
        · exact hfresh (by assumption)
        · rfl
      rw [if_pos hlast, List.reverse_singleton, List.map_singleton, List.foldl_cons, List.foldl_nil,
        ht x rfl, Expansion.run, hbefore]
      rw [hlast, Nat.zero_mul, Nat.zero_add] at hsplit
      simp only [Expansion.total, if_pos, Nat.zero_add, Nat.sub_zero, ← hsplit]
    · obtain ⟨m, hm⟩ : ∃ m, n >>> width = m + 1 := Nat.exists_eq_succ_of_ne_zero hlast
      have hle : m + 1 ≤ n := by
        rw [← hm, Nat.shiftRight_eq_div_pow]
        exact Nat.div_le_self _ _
      rw [if_neg hlast, hm, Nat.add_sub_cancel, List.reverse_cons, List.map_append,
        List.foldl_append, ih (show m < fuel by omega), List.map_singleton,
        List.foldl_cons, List.foldl_nil,
        ht { x with lengths := x.lengths ++ List.replicate (m + 3) length, kind :=
            symbol, repeated := m + 3 } rfl, Expansion.run]
      have htotal : Expansion.total (m + 3) width (n % 2 ^ width) = n + 3 := by
        rw [hm] at hsplit
        rw [Expansion.total, if_neg (Nat.succ_ne_zero _), show m + 3 - 2 = m + 1 by omega, ← hsplit]
      simp only [if_pos, htotal]
      rw [List.append_assoc, ← List.replicate_add, show m + 3 + (n + 3 - (m + 3)) = n + 3 by omega]

theorem length_repetitionDigits_le (width fuel n : ℕ) :
    (repetitionDigits width fuel n).length ≤ fuel := by
  induction fuel generalizing n with
  | zero => exact Nat.le_refl 0
  | succ fuel ih =>
    rw [repetitionDigits, List.length_cons]
    split
    · exact Nat.succ_le_succ (Nat.zero_le _)
    · exact Nat.succ_le_succ (ih _)

/-! ### What the runs expand to -/

/-- What an entry stands for. -/
def tokenOf (entry : ℕ × ℕ) : Token :=
  if entry.1 = repeatPreviousCodeLength then .again entry.2
  else if entry.1 = repeatZeroCodeLength then .zeros entry.2
  else .length entry.1

/-- What a reader has after the runs. -/
def expansion (runs : CodeLengthRuns) : Expansion := (runs.map tokenOf).foldl Expansion.token {}

theorem expansion_append (runs more : CodeLengthRuns) :
    expansion (runs ++ more) = (more.map tokenOf).foldl Expansion.token (expansion runs) := by
  rw [expansion, List.map_append, List.foldl_append]
  rfl

/-- The runs stand for the lengths `done`, the last of them that is not zero `previous`. -/
structure Expands (runs : CodeLengthRuns) (done : List ℕ) (previous : ℕ) : Prop where
  lengths : (expansion runs).lengths = done
  previous : (expansion runs).previous = previous
  fits : ∀ e ∈ runs, (tokenOf e).Fits
  count : runs.length ≤ done.length

/-- A repetition of `value` would not continue the last one. -/
def Fresh (x : Expansion) (value : ℕ) : Prop :=
  (x.kind = 16 → value ≠ x.previous) ∧ (x.kind = 17 → value ≠ 0)

variable {runs : CodeLengthRuns} {done rest : List ℕ} {p v n symbol width reps : ℕ}

theorem Expands.nil : Expands [] [] initialRepeatedCodeLength :=
  ⟨rfl, rfl, fun _ h => absurd h List.not_mem_nil, Nat.le_refl 0⟩

/-- One length. -/
theorem Expands.push (h : Expands runs done p) (hv : v < 16)
    (hroom : done.length < numCommandSymbols) :
    Expands (push runs v 0) (done ++ [v]) (if v = 0 then p else v) ∧
    (expansion (push runs v 0)).kind = 0 := by
  have htoken : tokenOf (v, 0) = .length v := by
    have h16 : v ≠ 16 := by omega
    have h17 : v ≠ 17 := by omega
    rw [tokenOf, repeatPreviousCodeLength, repeatZeroCodeLength, if_neg h16, if_neg h17]
  have hpush : CodeLengthRuns.push runs v 0 = runs ++ [(v, 0)] := if_pos (h.count.trans_lt hroom)
  have hexp : expansion (runs ++ [(v, 0)]) = (expansion runs).token (.length v) := by
    rw [expansion_append, List.map_singleton, htoken]
    rfl
  rw [hpush]
  refine ⟨⟨?_, ?_, fun e he => ?_, ?_⟩, by rw [hexp]; rfl⟩
  · rw [hexp, ← h.lengths]
    rfl
  · rw [hexp, ← h.previous]
    rfl
  · rcases List.mem_append.1 he with he | he
    · exact h.fits e he
    · rw [List.mem_singleton.1 he, htoken]
      exact hv
  · rw [List.length_append, List.length_append]
    exact Nat.add_le_add_right h.count 1

theorem Expands.pushCopies (h : Expands runs done p) (hv : v < 16) (hp : v = 0 ∨ v = p)
    (hroom : done.length + n ≤ numCommandSymbols) :
    Expands (pushCopies runs v n) (done ++ List.replicate n v) p ∧
    (0 < n → (expansion (pushCopies runs v n)).kind = 0) := by
  induction n with
  | zero => exact ⟨by rw [List.replicate_zero, List.append_nil]; exact h,
      fun hn => absurd hn (Nat.lt_irrefl 0)⟩
  | succ n ih =>
    have hlast : CodeLengthRuns.pushCopies runs v (n + 1) =
        CodeLengthRuns.push (CodeLengthRuns.pushCopies runs v n) v 0 := by
      rw [CodeLengthRuns.pushCopies, List.range_succ, List.foldl_append]
      rfl
    have hsame : (if v = 0 then p else v) = p := by
      split
      · rfl
      · exact hp.resolve_left (by assumption)
    obtain ⟨hstep, hkind⟩ :=
      (ih (by omega)).1.push hv (by rw [List.length_append, List.length_replicate]; omega)
    rw [hsame, List.append_assoc, ← List.replicate_succ'] at hstep
    rw [hlast]
    exact ⟨hstep, fun _ => hkind⟩

/-- The digits follow the runs, turned round. -/
theorem pushRepetition_eq (hroom : runs.length + (n + 1) ≤ numCommandSymbols) :
    pushRepetition runs symbol width n = runs ++ (repetitionDigits width (n + 1) n).reverse.map
    fun extra => (symbol, extra) := by
  have hpush : ∀ (digits : List ℕ) (runs : CodeLengthRuns), runs.length + digits.length ≤
    numCommandSymbols →
      digits.foldl (fun runs extra => push runs symbol extra) runs = runs ++ digits.map fun extra =>
      (symbol, extra) := by
    intro digits
    induction digits with
    | nil => exact fun runs _ => (List.append_nil runs).symm
    | cons d digits ih =>
      intro runs hlen
      rw [List.length_cons] at hlen
      rw [List.foldl_cons, push, if_pos (by omega),
        ih _ (by rw [List.length_append, List.length_singleton]; omega), List.append_assoc]
      rfl
  have hdigits := length_repetitionDigits_le width (n + 1) n
  rw [pushRepetition, hpush _ _ (by omega), reverse, List.take_left, List.drop_left,
    List.map_reverse]

/-- A repetition, of zeros or of the last length that is not zero. -/
theorem Expands.pushRepetition (h : Expands runs done p)
    (ht : ∀ y : Expansion, y.previous = p → ∀ d, y.token (tokenOf (symbol, d)) =
      y.run symbol width v d)
    (hfits : ∀ d < 2 ^ width, (tokenOf (symbol, d)).Fits) (hkind : (expansion runs).kind ≠ symbol)
    (hroom : done.length + (n + 3) ≤ numCommandSymbols) :
    Expands (pushRepetition runs symbol width n) (done ++ List.replicate (n + 3) v) p ∧
      (expansion (pushRepetition runs symbol width n)).kind = symbol := by
  have hcount := h.count
  have hexp : expansion (CodeLengthRuns.pushRepetition runs symbol width n) =
      { expansion runs with lengths :=
      (expansion runs).lengths ++ List.replicate (n + 3) v, kind := symbol, repeated := n +
      3 } := by
    rw [pushRepetition_eq (by omega), expansion_append, List.map_map]
    exact Expansion.repeat_digits (t := fun d => tokenOf (symbol, d)) (n + 1) (Nat.lt_succ_self n)
      (fun y hy => ht y (hy.trans h.previous)) fun hk => absurd hk hkind
  refine ⟨⟨?_, ?_, fun e he => ?_, ?_⟩, by rw [hexp]⟩
  · rw [hexp, ← h.lengths]
  · rw [hexp]
    exact h.previous
  · rw [pushRepetition_eq (by omega)] at he
    rcases List.mem_append.1 he with he | he
    · exact h.fits e he
    · obtain ⟨d, hd, rfl⟩ := List.mem_map.1 he
      exact hfits d (repetitionDigits_lt (List.mem_reverse.1 hd))
  · have hdigits := length_repetitionDigits_le width (n + 1) n
    rw [pushRepetition_eq (by omega), List.length_append, List.length_append, List.length_map,
      List.length_reverse, List.length_replicate]
    omega

/-- What is left of a run after the symbols that stand alone. -/
theorem Expands.close (h : Expands runs done p) (hv : v < 16) (hp : v = 0 ∨ v = p)
    (ht : ∀ y : Expansion, y.previous = p → ∀ d, y.token (tokenOf (symbol, d)) =
      y.run symbol width v d)
    (hfits : ∀ d < 2 ^ width, (tokenOf (symbol, d)).Fits) (hkind : (expansion runs).kind ≠ symbol)
    (hnone : n = 0 → (expansion runs).kind = 0)
    (hroom : done.length + n ≤ numCommandSymbols) :
    let runs' := if n < 3 then CodeLengthRuns.pushCopies runs v n
    else CodeLengthRuns.pushRepetition runs symbol width (n - 3)
    Expands runs' (done ++ List.replicate n v) p ∧
        ((expansion runs').kind = 0 ∨ (expansion runs').kind = symbol ∧ 3 ≤ n) := by
  dsimp only
  by_cases hn : n < 3
  · rw [if_pos hn]
    obtain ⟨hcopies, hzero⟩ := h.pushCopies hv hp hroom
    refine ⟨hcopies, Or.inl ?_⟩
    rcases Nat.eq_zero_or_pos n with rfl | hpos
    · exact hnone rfl
    · exact hzero hpos
  · rw [if_neg hn]
    have hthree : n - 3 + 3 = n := by omega
    obtain ⟨hrepeat, hsymbol⟩ := h.pushRepetition (n := n - 3) ht hfits hkind (by omega)
    rw [hthree] at hrepeat
    exact ⟨hrepeat, Or.inr ⟨hsymbol, by omega⟩⟩

/-- A run of a length that is not zero. -/
theorem Expands.writeRepetitions (h : Expands runs done p) (h0 : v ≠ 0) (hv : v < 16)
    (hreps : 1 ≤ reps)
    (hroom : done.length + reps ≤ numCommandSymbols) (hfresh : Fresh (expansion runs) v) :
    Expands (writeRepetitions runs p v reps) (done ++ List.replicate reps v) v ∧
      ((expansion (writeRepetitions runs p v reps)).kind = 0 ∨
        (expansion (writeRepetitions runs p v reps)).kind = 16 ∧ 3 ≤ reps) := by
  have htokens : ∀ y : Expansion, y.previous = v →
      ∀ d, y.token (tokenOf (repeatPreviousCodeLength, d)) =
      y.run repeatPreviousCodeLength 2 v d := by
    rintro y rfl d
    rfl
  have hfits : ∀ d < 2 ^ 2, (tokenOf (repeatPreviousCodeLength, d)).Fits := fun d hd => hd
  -- from the second symbol on the length repeats the one before it
  have hlater : ∀ (runs : CodeLengthRuns) (done : List ℕ) (n : ℕ), Expands runs done v →
    (expansion runs).kind ≠ 16 →
      (n = 0 → (expansion runs).kind = 0) → done.length + n ≤ numCommandSymbols →
      let next := if n = 7 then (CodeLengthRuns.push runs v 0, n - 1) else (runs, n)
      let runs' := if next.2 < 3 then CodeLengthRuns.pushCopies next.1 v next.2
        else CodeLengthRuns.pushRepetition next.1 repeatPreviousCodeLength 2 (next.2 - 3)
      Expands runs' (done ++ List.replicate n v) v ∧
          ((expansion runs').kind = 0 ∨ (expansion runs').kind = 16 ∧ 3 ≤ n) := by
    intro runs done n hexp hkind hnone hroom
    by_cases h7 : n = 7
    · rw [if_pos h7]
      obtain ⟨hpush, hzero⟩ := hexp.push hv (by omega)
      rw [if_neg h0] at hpush
      obtain ⟨hclose, hk⟩ :=
        hpush.close (n := n - 1) hv (Or.inr rfl) htokens hfits (by rw [hzero]; decide)
          (fun _ => hzero)
          (by rw [List.length_append, List.length_singleton]; omega)
      rw [List.append_assoc, List.singleton_append, ← List.replicate_succ,
        show n - 1 + 1 = n by omega] at hclose
      exact ⟨hclose, hk.imp_right fun hk => ⟨hk.1, by omega⟩⟩
    · rw [if_neg h7]
      exact hexp.close hv (Or.inr rfl) htokens hfits hkind hnone hroom
  by_cases hp : p ≠ v
  · obtain ⟨hpush, hzero⟩ := h.push hv (by omega)
    rw [if_neg h0] at hpush
    obtain ⟨hrest, hk⟩ := hlater _ _ (reps - 1) hpush (by rw [hzero]; decide) (fun _ => hzero)
      (by rw [List.length_append, List.length_singleton]; omega)
    rw [List.append_assoc, List.singleton_append, ← List.replicate_succ,
      show reps - 1 + 1 = reps by omega] at hrest
    rw [CodeLengthRuns.writeRepetitions, if_pos hp]
    exact ⟨hrest, hk.imp_right fun hk => ⟨hk.1, by omega⟩⟩
  · have hp' : p = v := not_not.1 hp
    rw [CodeLengthRuns.writeRepetitions, if_neg hp]
    exact hlater runs done reps (hp' ▸ h) (fun hk => hfresh.1 hk (hp'.symm.trans h.previous.symm))
      (fun hn => absurd hn (by omega)) hroom

/-- A run of zeros. -/
theorem Expands.writeZeroRepetitions (h : Expands runs done p) (hreps : 1 ≤ reps)
    (hroom : done.length + reps ≤ numCommandSymbols)
    (hfresh : Fresh (expansion runs) 0) :
    Expands (writeZeroRepetitions runs reps) (done ++ List.replicate reps 0) p ∧
      ((expansion (writeZeroRepetitions runs reps)).kind = 0 ∨
        (expansion (writeZeroRepetitions runs reps)).kind = 17 ∧ 3 ≤ reps) := by
  have htokens : ∀ y : Expansion, y.previous = p →
      ∀ d, y.token (tokenOf (repeatZeroCodeLength, d)) = y.run repeatZeroCodeLength 3 0 d :=
    fun y _ d => rfl
  have hfits : ∀ d < 2 ^ 3, (tokenOf (repeatZeroCodeLength, d)).Fits := fun d hd => hd
  by_cases h11 : reps = 11
  · obtain ⟨hpush, hzero⟩ := h.push (v := 0) (by decide) (by omega)
    rw [if_pos rfl] at hpush
    obtain ⟨hclose, hk⟩ :=
      hpush.close (n := reps - 1) (v := 0) (by decide) (Or.inl rfl) htokens hfits
        (by rw [hzero]; decide) (fun _ => hzero)
        (by rw [List.length_append, List.length_singleton]; omega)
    rw [List.append_assoc, List.singleton_append, ← List.replicate_succ,
      show reps - 1 + 1 = reps by omega] at hclose
    rw [CodeLengthRuns.writeZeroRepetitions, if_pos h11]
    exact ⟨hclose, hk.imp_right fun hk => ⟨hk.1, by omega⟩⟩
  · rw [CodeLengthRuns.writeZeroRepetitions, if_neg h11]
    exact h.close (by decide) (Or.inl rfl) htokens hfits (fun hk => hfresh.2 hk rfl)
      (fun hn => absurd hn (by omega)) hroom

theorem sameAhead_spec (v : ℕ) (rest : List ℕ) :
    rest = List.replicate (sameAhead v rest) v ++ rest.drop (sameAhead v rest) ∧
    (rest.drop (sameAhead v rest)).head? ≠ some v := by
  induction rest with
  | nil => exact ⟨rfl, fun h => by cases h⟩
  | cons x rest ih =>
    by_cases hx : x = v
    · have hsame : sameAhead v (x :: rest) = sameAhead v rest + 1 := by
        rw [sameAhead, List.takeWhile_cons_of_pos (by simpa using hx)]
        rfl
      rw [hsame, List.drop_succ_cons, List.replicate_succ, List.cons_append, ← ih.1, hx]
      exact ⟨rfl, ih.2⟩
    · have hsame : sameAhead v (x :: rest) = 0 := by
        rw [sameAhead, List.takeWhile_cons_of_neg (by simpa using hx)]
        rfl
      rw [hsame]
      exact ⟨rfl, fun h => hx (Option.some.inj h)⟩

/-- **The runs expand to the lengths**, wherever they use repetitions. -/
theorem writeTreeFrom_expands (nonZero zero : Bool) (fuel : ℕ) (hfuel : rest.length ≤ fuel)
    (h : Expands runs done p)
    (hv : ∀ v ∈ rest, v < 16) (hroom : done.length + rest.length ≤ numCommandSymbols)
    (hfresh : ∀ v, rest.head? = some v → Fresh (expansion runs) v) :
    ∃ p', Expands (writeTreeFrom nonZero zero fuel rest p runs) (done ++ rest) p' := by
  induction fuel generalizing rest runs done p with
  | zero =>
    rw [List.length_eq_zero_iff.1 (Nat.le_zero.1 hfuel), List.append_nil]
    exact ⟨p, h⟩
  | succ fuel ih =>
    cases rest with
    | nil =>
      rw [List.append_nil]
      exact ⟨p, h⟩
    | cons v rest =>
      rw [List.length_cons] at hfuel hroom
      obtain ⟨reps, hreps⟩ : ∃ reps,
        (if v ≠ 0 ∧ nonZero ∨ v = 0 ∧ zero then sameAhead v rest + 1 else 1) = reps := ⟨_, rfl⟩
      -- a run that is repeated is followed by another length
      have hrun : 1 ≤ reps ∧ reps ≤ rest.length + 1 ∧
        v :: rest = List.replicate reps v ++ rest.drop (reps - 1) ∧
          (3 ≤ reps → (rest.drop (reps - 1)).head? ≠ some v) := by
        obtain ⟨hsplit, hother⟩ := sameAhead_spec v rest
        have hle : sameAhead v rest ≤ rest.length := (List.takeWhile_prefix _).length_le
        by_cases hrle : v ≠ 0 ∧ nonZero ∨ v = 0 ∧ zero
        · rw [if_pos hrle] at hreps
          subst hreps
          refine ⟨Nat.le_add_left _ _, Nat.succ_le_succ hle, ?_, fun _ => hother⟩
          rw [Nat.add_sub_cancel, List.replicate_succ, List.cons_append, ← hsplit]
        · rw [if_neg hrle] at hreps
          subst hreps
          exact ⟨Nat.le_refl 1, Nat.le_add_left _ _, rfl, fun h => absurd h (by decide)⟩
      obtain ⟨h1, hle, hsplit, hother⟩ := hrun
      have hdone : ∀ done : List ℕ, done ++ List.replicate reps v ++ rest.drop (reps - 1) =
        done ++ v :: rest := fun done => by
        rw [List.append_assoc, ← hsplit]
      have hsub : ∀ w ∈ rest.drop (reps - 1), w < 16 :=
        fun w hw => hv w (List.mem_cons_of_mem _ (List.mem_of_mem_drop hw))
      have hlen : (rest.drop (reps - 1)).length = rest.length - (reps - 1) := List.length_drop
      have hv16 : v < 16 := hv v List.mem_cons_self
      by_cases h0 : v = 0
      · obtain ⟨hnext, hkind⟩ := h.writeZeroRepetitions h1 (by omega) (h0 ▸ hfresh v rfl)
        obtain ⟨p', hdone'⟩ := ih (by omega) hnext hsub
          (by rw [List.length_append, List.length_replicate]; omega) fun w hw => by
            refine ⟨fun hk => ?_, fun hk hw0 => ?_⟩
            · rcases hkind with hkind | ⟨hkind, -⟩
              · exact absurd (hkind.symm.trans hk) (by decide)
              · exact absurd (hkind.symm.trans hk) (by decide)
            · rcases hkind with hkind | ⟨-, h3⟩
              · exact absurd (hkind.symm.trans hk) (by decide)
              · exact hother h3 (by rw [hw, hw0, h0])
        refine ⟨p', ?_⟩
        rw [writeTreeFrom, hreps, if_pos h0]
        rw [← h0, hdone] at hdone'
        exact hdone'
      · obtain ⟨hnext, hkind⟩ := h.writeRepetitions h0 hv16 h1 (by omega) (hfresh v rfl)
        obtain ⟨p', hdone'⟩ := ih (by omega) hnext hsub
          (by rw [List.length_append, List.length_replicate]; omega) fun w hw => by
            refine ⟨fun hk hwv => ?_, fun hk => ?_⟩
            · rcases hkind with hkind | ⟨-, h3⟩
              · exact absurd (hkind.symm.trans hk) (by decide)
              · exact hother h3 (by rw [hw, hwv, hnext.previous])
            · rcases hkind with hkind | ⟨hkind, -⟩
              · exact absurd (hkind.symm.trans hk) (by decide)
              · exact absurd (hkind.symm.trans hk) (by decide)
        refine ⟨p', ?_⟩
        rw [writeTreeFrom, hreps, if_neg h0]
        rw [hdone] at hdone'
        exact hdone'

/-- The lengths without the zeros at the end. -/
theorem writeHuffmanTree_expands {depth : List ℕ} {length : ℕ} (hlen : length ≤ depth.length)
    (h704 : length ≤ numCommandSymbols)
    (h15 : ∀ d ∈ depth.take length, d ≤ 15) :
    ∃ newLength runs p', writeHuffmanTree depth length = some runs ∧ newLength ≤ length ∧
      (∀ j, newLength ≤ j → j < length → depth.getD j 0 = 0) ∧
      (0 < newLength → depth.getD (newLength - 1) 0 ≠ 0) ∧
      Expands runs (depth.take newLength) p' := by
  obtain ⟨newLength, htrim, hle, hzeros, hlast⟩ := trimmed_spec hlen
  obtain ⟨p', hexp⟩ :=
    writeTreeFrom_expands (if 50 < length then decideOverRleUse depth newLength
      else (false, false)).1
    (if 50 < length then decideOverRleUse depth newLength else (false, false)).2 newLength
    (by rw [List.length_take]; exact Nat.min_le_left _ _) Expands.nil
    (fun v hv => Nat.lt_succ_of_le (h15 v ((List.take_subset_take_left depth hle) hv)))
    (by rw [List.length_nil, List.length_take]; omega) fun v _ =>
      ⟨fun hk => absurd hk (by decide), fun hk => absurd hk (by decide)⟩
  refine ⟨newLength, _, p', ?_, hle, hzeros, hlast, hexp⟩
  rw [writeHuffmanTree, htrim]
  rfl

end Mbrotli.Compressor
