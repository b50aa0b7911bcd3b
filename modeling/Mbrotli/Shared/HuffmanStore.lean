/-
# Storing prefix codes

A code of up to four symbols is stored by their names, in the order of their depths; any
other by its run-length form in a code of eighteen symbols, which comes first. The fast
encoders use a fixed code for the run-length form and look repetitions up in tables.

The functions return the calls of the writer. The scans name the used symbols in order
(`scanUsed_spec`, `scanFast_spec`), the exchanges of a simple code sort them
(`sortSymbols_spec`), and depths that fill the code space are then one of the shapes the
reader knows (`shape_of_sorted`).

Key definitions: `storeHuffmanTree`, `storeSimpleCode`, `buildAndStoreHuffmanTree`,
`buildAndStoreHuffmanTreeFast`.
Key theorems: `scanUsed_spec`, `scanFast_spec`, `sortSymbols_spec`, `shape_of_sorted`.
-/
import Mathlib.Data.List.Nodup
import Mbrotli.Shared.Bits
import Mbrotli.Shared.CanonicalBits
import Mbrotli.Shared.CodeLengthRuns

namespace Mbrotli.Compressor

/-! ### The code-length code -/

def storageOrder : List ℕ := [1, 2, 3, 4, 0, 5, 17, 6, 16, 7, 8, 9, 10, 11, 12, 13, 14, 15]

def codeLengthHuffmanSymbols : List ℕ := [0, 7, 3, 2, 1, 15]

def codeLengthHuffmanDepths : List ℕ := [2, 4, 3, 2, 2, 4]

/-- The codes up to the last one with a depth, in storage order. -/
def lastStored (bitdepth : List ℕ) : ℕ → ℕ
  | 0 => 0
  | n + 1 => if bitdepth.getD (storageOrder.getD n 0) 0 ≠ 0 then n + 1 else lastStored bitdepth n

/-- The pattern of one length of the code-length code. -/
def storeLength (bitdepth : List ℕ) (order : ℕ) : Option BitOp := do
  let l ← bitdepth[order]?
  let nBits ← codeLengthHuffmanDepths[l]?
  let bits ← codeLengthHuffmanSymbols[l]?
  return .write nBits bits

/-- Stores the code that compresses the code-length alphabet itself. -/
def storeCodeLengthCode (numCodes : ℕ) (bitdepth : List ℕ) : Option (List BitOp) :=
  let codesToStore := if 1 < numCodes then lastStored bitdepth codeLengthCodes else codeLengthCodes
  let skipSome :=
    if bitdepth.getD (storageOrder.getD 0 0) 0 = 0 ∧ bitdepth.getD (storageOrder.getD 1 0) 0 = 0
      then
      if bitdepth.getD (storageOrder.getD 2 0) 0 = 0 then 3 else 2
    else 0
  if codesToStore < skipSome then none
  else do
    let lengths ← ((storageOrder.take codesToStore).drop skipSome).mapM (storeLength bitdepth)
    return .write 2 skipSome :: lengths

/-- Whether no code is used, one, or more (two), and the first of them. -/
def scanCodes : List ℕ → ℕ → ℕ → ℕ → ℕ × ℕ
  | [], _, numCodes, code => (numCodes, code)
  | count :: rest, i, numCodes, code =>
    if count ≠ 0 then
      if numCodes = 0 then scanCodes rest (i + 1) 1 i else (2, code)
    else scanCodes rest (i + 1) numCodes code

/-- A symbol of the run-length form with its extra field. -/
def storeRun (bitdepth symbols : List ℕ) (entry : ℕ × ℕ) : List BitOp :=
  .write (bitdepth.getD entry.1 0) (symbols.getD entry.1 0) ::
    if entry.1 = repeatPreviousCodeLength then [.write 2 entry.2]
    else if entry.1 = repeatZeroCodeLength then [.write 3 entry.2]
    else []

/-- Serialises `depths[..num]` as a prefix-code description. -/
def storeHuffmanTree (depths : List ℕ) (num : ℕ) (tree : List HuffmanNode) :
    Option (List HuffmanNode × List BitOp) := do
  let runs ← writeHuffmanTree depths num
  let histogram := (List.range codeLengthCodes).map fun symbol => (runs.map Prod.fst).count symbol
  let (numCodes, code) := scanCodes histogram 0 0 0
  let (tree, bitdepth) ← createHuffmanTree histogram codeLengthCodes 5 tree
    (List.replicate codeLengthCodes 0)
  let symbols ← convertBitDepthsToSymbols bitdepth codeLengthCodes
    (List.replicate codeLengthCodes 0)
  let calls ← storeCodeLengthCode numCodes bitdepth
  let bitdepth := if numCodes = 1 then bitdepth.set code 0 else bitdepth
  return (tree, calls ++ runs.flatMap (storeRun bitdepth symbols))

/-! ### The simple form -/

/-- Swaps two symbols if the later one is shorter. -/
def exchange (depth symbols : List ℕ) (i j : ℕ) : List ℕ :=
  if depth.getD (symbols.getD j 0) 0 < depth.getD (symbols.getD i 0) 0 then
    (symbols.set i (symbols.getD j 0)).set j (symbols.getD i 0)
  else symbols

/-- Exchanges the symbol at `i` with the `k` symbols from `j` on. -/
def exchangeFrom (depth : List ℕ) (i : ℕ) : ℕ → ℕ → List ℕ → List ℕ
  | 0, _, symbols => symbols
  | k + 1, j, symbols => exchangeFrom depth i k (j + 1) (exchange depth symbols i j)

/-- The exchanges of the `k` symbols from `i` on. -/
def sortFrom (depth : List ℕ) : ℕ → ℕ → List ℕ → List ℕ
  | 0, _, symbols => symbols
  | k + 1, i, symbols => sortFrom depth k (i + 1) (exchangeFrom depth i k (i + 1) symbols)

def sortSymbols (depth symbols : List ℕ) : List ℕ := sortFrom depth symbols.length 0 symbols

/-- Stores a simple prefix code of `count` symbols, four at most. -/
def storeSimpleCode (depth symbols : List ℕ) (count maxBits : ℕ) : List BitOp :=
  let symbols := sortSymbols depth (symbols.take count)
  [.write 2 1, .write 2 (count - 1)] ++ symbols.map (.write maxBits) ++
    if count = 4 then [.write 1 (if depth.getD (symbols.getD 0 0) 0 = 1 then 1 else 0)] else []

/-- How often `counter` can be halved before it is zero, plus `maxBits`. -/
def countBits : ℕ → ℕ → ℕ → ℕ
  | 0, _, maxBits => maxBits
  | fuel + 1, counter, maxBits => if counter ≠ 0 then countBits fuel (counter >>> 1)
      (maxBits + 1) else maxBits

/-- Builds a prefix code from `histogram` and writes its description. -/
def buildAndStoreHuffmanTree (histogram : List ℕ) (histogramLength alphabetSize : ℕ)
    (tree : List HuffmanNode) (depth bits : List ℕ) :
    Option (List HuffmanNode × List ℕ × List ℕ × List BitOp) :=
  let (count, symbols) := scanUsed (histogram.take histogramLength) 0 0 [0, 0, 0, 0]
  if alphabetSize = 0 then none
  else
    let maxBits := countBits alphabetSize (alphabetSize - 1) 0
    if count ≤ 1 then do
      let depth ← setAt depth (symbols.getD 0 0) 0
      let bits ← setAt bits (symbols.getD 0 0) 0
      return (tree, depth, bits, [.write 4 1, .write maxBits (symbols.getD 0 0)])
    else if depth.length < histogramLength then none
    else do
      let (tree, depth) ← createHuffmanTree histogram histogramLength 15 tree
        (List.replicate histogramLength 0 ++ depth.drop histogramLength)
      let bits ← convertBitDepthsToSymbols depth histogramLength bits
      if count ≤ 4 then return (tree, depth, bits, storeSimpleCode depth symbols count maxBits)
      else do
        let (tree, calls) ← storeHuffmanTree depth histogramLength tree
        return (tree, depth, bits, calls)

/-! ### The fast form -/

/-- The static code-length code. -/
def codeLengthDepth : List ℕ := [4, 4, 4, 4, 4, 4, 4, 4, 4, 4, 4, 4, 4, 5, 5, 0, 4, 4]

def codeLengthBits : List ℕ := [0, 8, 4, 12, 2, 10, 6, 14, 1, 9, 5, 13, 3, 15, 31, 0, 11, 7]

def staticCodeLengthCodeBits : ℕ := 40

def staticCodeLengthCode : ℕ := 0x000000FF55555554

/-- Appends one code-length symbol, and its extra bits, to an accumulator. -/
def pushSymbol (acc : ℕ × ℕ) (symbol extra extraBits : ℕ) : ℕ × ℕ :=
  let bits := acc.1 ||| (codeLengthBits.getD symbol 0 <<< acc.2)
  let len := acc.2 + codeLengthDepth.getD symbol 0
  (bits ||| (extra <<< len), len + extraBits)

/-- The symbols for `reps` zeros. -/
def zeroRuns (reps : ℕ) : CodeLengthRuns :=
  let (runs, left) := if reps = 11 then ([(0, 0)], reps - 1) else ([], reps)
  runs ++
    if left < 3 then List.replicate left (0, 0)
    else (repetitionDigits 3 (left - 3 + 1) (left - 3)).reverse.map fun extra =>
      (repeatZeroCodeLength, extra)

/-- An entry of the tables for zeros: the bits and how many they are. -/
def zeroReps (reps : ℕ) : ℕ × ℕ :=
  (zeroRuns reps).foldl (fun acc run => pushSymbol acc run.1 run.2 (if run.1 = repeatZeroCodeLength
    then 3 else 0)) (0, 0)

/-- An entry of the tables for the other lengths. -/
def nonZeroReps (reps : ℕ) : ℕ × ℕ :=
  (repetitionDigits 2 (reps + 1) reps).reverse.foldl
    (fun acc extra => pushSymbol acc repeatPreviousCodeLength extra 2) (0, 0)

/-- The tables have an entry for every length of an alphabet of commands. -/
def storeReps (table : ℕ → ℕ × ℕ) (reps : ℕ) : Option BitOp :=
  if reps < numCommandSymbols then some (.write (table reps).2 (table reps).1) else none

/-- The runs of the depths that are left. -/
def storeFastFrom : ℕ → List ℕ → ℕ → Option (List BitOp)
  | fuel + 1, value :: rest, previousValue => do
    let reps := sameAhead value rest + 1
    let rest := rest.drop (reps - 1)
    if value = 0 then do
      let call ← storeReps zeroReps reps
      let calls ← storeFastFrom fuel rest previousValue
      return call :: calls
    else do
      let single : BitOp := .write (codeLengthDepth.getD value 0) (codeLengthBits.getD value 0)
      let (first, reps) := if previousValue ≠ value then ([single], reps - 1) else ([], reps)
      let repeated ← if reps < 3 then some (List.replicate reps single)
        else (storeReps nonZeroReps (reps - 3)).map fun call => [call]
      let calls ← storeFastFrom fuel rest value
      return first ++ repeated ++ calls
  | _, _, _ => some []

/-- The symbols up to the last used one: how many there are, how many are used, and the
first four that are. -/
def scanFast : List ℕ → ℕ → ℕ → ℕ → List ℕ → Option (ℕ × ℕ × List ℕ)
  | _, 0, length, count, symbols => some (length, count, symbols)
  | [], _ + 1, _, _, _ => none
  | occurrences :: rest, total + 1, length, count, symbols =>
    if occurrences = 0 then scanFast rest (total + 1) (length + 1) count symbols
    else if occurrences ≤ total + 1 then
      scanFast rest (total + 1 - occurrences) (length + 1) (count + 1)
      (if count < 4 then symbols.set count length else symbols)
    else none

/-- Builds a prefix code from `histogram` and writes it with the static code. -/
def buildAndStoreHuffmanTreeFast (tree : List HuffmanNode) (histogram : List ℕ)
    (histogramTotal maxBits : ℕ) (depth bits : List ℕ) :
    Option (List HuffmanNode × List ℕ × List ℕ × List BitOp) := do
  let (length, count, symbols) ← scanFast histogram histogramTotal 0 0 [0, 0, 0, 0]
  if count ≤ 1 then do
    let depth ← setAt depth (symbols.getD 0 0) 0
    let bits ← setAt bits (symbols.getD 0 0) 0
    return (tree, depth, bits, [.write 4 1, .write maxBits (symbols.getD 0 0)])
  else if depth.length < length then none
  else do
    let (tree, depth) ← rebuildFrom false histogram length treeLimitFast 34 1 (nodesFor tree count)
      (List.replicate length 0 ++ depth.drop length)
    let bits ← convertBitDepthsToSymbols depth length bits
    if count ≤ 4 then return (tree, depth, bits, storeSimpleCode depth symbols count maxBits)
    else do
      let calls ← storeFastFrom length (depth.take length) initialRepeatedCodeLength
      return (tree, depth, bits, .write staticCodeLengthCodeBits staticCodeLengthCode :: calls)

/-! ### The used symbols -/

/-- The used symbols in order, the first of them all `symbol`. -/
def usedFrom : ℕ → List ℕ → List ℕ
  | _, [] => []
  | symbol, occurrences :: rest => if occurrences ≠ 0 then symbol :: usedFrom (symbol + 1) rest
      else usedFrom (symbol + 1) rest

theorem usedFrom_append (l l' : List ℕ) (symbol : ℕ) :
    usedFrom symbol (l ++ l') = usedFrom symbol l ++ usedFrom (symbol + l.length) l' := by
  induction l generalizing symbol with
  | nil => rfl
  | cons x l ih =>
    have hnext : symbol + 1 + l.length = symbol + (x :: l).length := by rw [List.length_cons]; omega
    rw [List.cons_append, usedFrom, usedFrom, ih, hnext]
    split <;> rfl

theorem usedSymbols_eq_usedFrom (data : List ℕ) (length : ℕ) :
    usedSymbols data length = (usedFrom 0 (data.take length)).reverse := by
  induction length with
  | zero => rfl
  | succ n ih =>
    rw [List.take_add_one, usedFrom_append, List.reverse_append, ← ih, usedSymbols,
      List.getD_eq_getElem?_getD]
    cases hn : data[n]? with
    | none => rfl
    | some x =>
      have hlen : (data.take n).length = n := by
        rw [List.length_take, Nat.min_eq_left (Nat.le_of_lt (List.getElem?_eq_some_iff.1 hn).1)]
      rw [hlen, Nat.zero_add, Option.toList_some, usedFrom]
      by_cases hx : x ≠ 0
      · rw [if_pos hx, Option.getD_some, if_pos hx]
        rfl
      · rw [if_neg hx, Option.getD_some, if_neg hx]
        rfl

/-- One more name, if it is among the first four. -/
theorem take_set_snoc {symbols : List ℕ} {count : ℕ} (hcount : count < 4)
    (hlen : symbols.length = 4) (s : ℕ) :
    (symbols.set count s).take (count + 1) = symbols.take count ++ [s] := by
  rw [List.take_add_one, List.take_set_of_le (Nat.le_refl count), List.getElem?_set_self (by omega)]
  rfl

/-- The scan names the used symbols while there are no more than four. -/
theorem scanUsed_spec (l : List ℕ) (symbol : ℕ) {count : ℕ} {symbols : List ℕ}
    (hlen : symbols.length = 4) (hcount : count ≤ 5) :
    (scanUsed l symbol count symbols).1 = min 5 (count + (usedFrom symbol l).length) ∧
      (count + (usedFrom symbol l).length ≤ 4 → (scanUsed l symbol count symbols).2.length = 4 ∧
        (scanUsed l symbol count symbols).2.take (count + (usedFrom symbol l).length) =
        symbols.take count ++ usedFrom symbol l) := by
  induction l generalizing symbol count symbols with
  | nil => exact ⟨(Nat.min_eq_right hcount).symm, fun _ => ⟨hlen, (List.append_nil _).symm⟩⟩
  | cons x l ih =>
    by_cases hx : x ≠ 0
    · rw [scanUsed, if_pos hx, usedFrom, if_pos hx, List.length_cons]
      by_cases h4 : count < 4
      · obtain ⟨hone, hnames⟩ := @ih (symbol + 1) (count + 1) (symbols.set count symbol)
          (by rw [List.length_set, hlen]) (by omega)
        rw [if_pos h4, hone]
        refine ⟨by omega, fun hle => ?_⟩
        obtain ⟨hlen', htake⟩ := hnames (by omega)
        refine ⟨hlen', ?_⟩
        rw [take_set_snoc h4 hlen, List.append_assoc] at htake
        rw [show count + ((usedFrom (symbol + 1) l).length + 1) =
          count + 1 + (usedFrom (symbol + 1) l).length by omega, htake]
        rfl
      · rw [if_neg h4]
        refine ⟨?_, fun hle => absurd hle (by omega)⟩
        split
        · show count = _
          omega
        · rw [(@ih (symbol + 1) (count + 1) symbols hlen (by omega)).1]
          omega
    · rw [scanUsed, if_neg hx, usedFrom, if_neg hx]
      exact ih (symbol + 1) hlen hcount

/-- The fast scan names them too, and ends behind the last. -/
theorem scanFast_spec (l : List ℕ) (length : ℕ) {count : ℕ} {symbols : List ℕ}
    (hlen : symbols.length = 4) :
    ∃ n symbols', scanFast l l.sum length count symbols =
    some (length + n, count + (usedFrom length (l.take n)).length, symbols') ∧
      n ≤ l.length ∧ (∀ v, n ≤ v → l.getD v 0 = 0) ∧ (0 < n → l.getD (n - 1) 0 ≠ 0) ∧
      symbols'.length = 4 ∧
      (count + (usedFrom length (l.take n)).length ≤ 4 →
        symbols'.take (count + (usedFrom length (l.take n)).length) =
        symbols.take count ++ usedFrom length (l.take n)) := by
  induction l generalizing length count symbols with
  | nil =>
    exact ⟨0, symbols, rfl, Nat.le_refl 0, fun _ _ => rfl, fun h => absurd h (Nat.lt_irrefl 0),
      hlen, fun _ => (List.append_nil _).symm⟩
  | cons x l ih =>
    rw [List.sum_cons]
    cases hsum : x + l.sum with
    | zero =>
      have hl : ∀ y ∈ x :: l, y = 0 := fun y hy =>
        Nat.eq_zero_of_le_zero ((List.le_sum_of_mem hy).trans (by rw [List.sum_cons, hsum]))
      refine ⟨0, symbols, rfl, Nat.zero_le _, fun v _ => ?_, fun h => absurd h (Nat.lt_irrefl 0),
        hlen, fun _ => (List.append_nil _).symm⟩
      rw [List.getD_eq_getElem?_getD]
      cases hget : (x :: l)[v]? with
      | none => rfl
      | some y => exact hl y (List.mem_of_getElem? hget)
    | succ total =>
      rw [scanFast]
      by_cases hx : x = 0
      · obtain ⟨n, symbols', hrun, hn, hrest, hlast, hlen', hnames⟩ :=
          @ih (length + 1) count symbols hlen
        have hused : usedFrom length ((x :: l).take (n + 1)) =
            usedFrom (length + 1) (l.take n) := by
          rw [List.take_succ_cons, usedFrom, if_neg (not_not.2 hx)]
        have hpos : 0 < n := by
          by_contra hzero
          have hall : l.sum = 0 := List.sum_eq_zero fun y hy => by
            obtain ⟨v, hv⟩ := List.mem_iff_getElem?.1 hy
            rw [← hrest v (by omega), List.getD_eq_getElem?_getD, hv]
            rfl
          omega
        refine ⟨n + 1, symbols', ?_, Nat.succ_le_succ hn, fun v hv => ?_, fun _ => ?_, hlen', ?_⟩
        · rw [if_pos hx, ← hsum, hx, Nat.zero_add, hrun, ← hx, hused, Nat.add_assoc,
            Nat.add_comm 1 n]
        · obtain ⟨v, rfl⟩ : ∃ w, v = w + 1 := ⟨v - 1, by omega⟩
          exact hrest v (by omega)
        · obtain ⟨m, rfl⟩ : ∃ m, n = m + 1 := ⟨n - 1, by omega⟩
          exact hlast hpos
        · rw [hused]
          exact hnames
      · obtain ⟨n, symbols', hrun, hn, hrest, hlast, hlen', hnames⟩ := @ih (length + 1) (count + 1)
          (if count < 4 then symbols.set count length else symbols) (by split <;> simp [hlen])
        have hused : usedFrom length ((x :: l).take (n + 1)) =
            length :: usedFrom (length + 1) (l.take n) := by
          rw [List.take_succ_cons, usedFrom, if_pos hx]
        refine ⟨n + 1, symbols', ?_, Nat.succ_le_succ hn, fun v hv => ?_, fun _ => ?_, hlen',
          fun hle => ?_⟩
        · rw [if_neg hx, if_pos (by omega), ← hsum, Nat.add_sub_cancel_left, hrun, hused,
            List.length_cons, Nat.add_assoc, Nat.add_comm 1 n,
            Nat.add_assoc count, Nat.add_comm 1]
        · obtain ⟨v, rfl⟩ : ∃ w, v = w + 1 := ⟨v - 1, by omega⟩
          exact hrest v (by omega)
        · rcases Nat.eq_zero_or_pos n with rfl | hpos
          · exact hx
          · obtain ⟨m, rfl⟩ : ∃ m, n = m + 1 := ⟨n - 1, by omega⟩
            exact hlast hpos
        · rw [hused, List.length_cons] at hle ⊢
          have htake := hnames (by omega)
          rw [if_pos (by omega), take_set_snoc (by omega) hlen, List.append_assoc] at htake
          rw [show count + ((usedFrom (length + 1) (l.take n)).length + 1) =
            count + 1 + (usedFrom (length + 1) (l.take n)).length by omega,
            htake]
          rfl

/-! ### The order of a simple code -/

section Exchanges

variable {depth symbols : List ℕ} {i j k : ℕ}

theorem exchange_symbols (hi : i < symbols.length) (hj : j < symbols.length) :
    (exchange depth symbols i j).Perm symbols := by
  rw [exchange]
  split
  · rw [List.getD_eq_getElem _ _ hi, List.getD_eq_getElem _ _ hj]
    exact List.set_set_perm hi hj
  · exact List.Perm.refl _

/-- What an exchange leaves at a place. -/
theorem getD_exchange (hi : i < symbols.length) (hj : j < symbols.length) (m : ℕ) :
    (exchange depth symbols i j).getD m 0 =
      if depth.getD (symbols.getD j 0) 0 < depth.getD (symbols.getD i 0) 0 then
        if m = j then symbols.getD i 0 else if m = i then symbols.getD j 0 else symbols.getD m 0
      else symbols.getD m 0 := by
  rw [exchange]
  split
  · by_cases hmj : m = j
    · rw [if_pos hmj, hmj, List.getD_eq_getElem?_getD,
        List.getElem?_set_self (by rw [List.length_set]; exact hj)]
      rfl
    · rw [if_neg hmj, List.getD_eq_getElem?_getD, List.getElem?_set_ne (Ne.symm hmj)]
      by_cases hmi : m = i
      · rw [if_pos hmi, hmi, List.getElem?_set_self hi]
        rfl
      · rw [if_neg hmi, List.getElem?_set_ne (Ne.symm hmi), ← List.getD_eq_getElem?_getD]
  · rfl

/-- The symbols before `i` are in order and no longer than those after them, the one at `i` is no
longer than those between it and `j`. -/
structure InOrderTo (depth symbols : List ℕ) (i j : ℕ) : Prop where
  before : ∀ a < i, ∀ b, a < b → b < symbols.length → depth.getD (symbols.getD a 0) 0 ≤
    depth.getD (symbols.getD b 0) 0
  least : ∀ m, i < m → m < j → depth.getD (symbols.getD i 0) 0 ≤ depth.getD (symbols.getD m 0) 0

theorem InOrderTo.exchange (h : InOrderTo depth symbols i j) (hij : i < j)
    (hj : j < symbols.length) :
    InOrderTo depth (exchange depth symbols i j) i (j + 1) := by
  have hi : i < symbols.length := hij.trans hj
  have hperm : (Compressor.exchange depth symbols i j).Perm symbols := exchange_symbols hi hj
  have hlen := hperm.length_eq
  refine ⟨fun a ha b hab hb => ?_, fun m him hmj => ?_⟩
  · rw [hlen] at hb
    have hab' := h.before a ha b hab hb
    have hai := h.before a ha i ha hi
    have haj := h.before a ha j (ha.trans hij) hj
    rw [getD_exchange hi hj, getD_exchange hi hj, if_neg (show a ≠ j by omega),
      if_neg (show a ≠ i by omega), ite_self]
    split
    · split
      · exact hai
      · split
        · exact haj
        · exact hab'
    · exact hab'
  · rw [getD_exchange hi hj, getD_exchange hi hj, if_neg (show i ≠ j by omega), if_pos rfl,
      if_neg (show m ≠ i by omega)]
    split
    · next hless =>
      split
      · exact hless.le
      · exact hless.le.trans (h.least m him (by omega))
    · next hless =>
      rcases Nat.lt_or_eq_of_le (Nat.le_of_lt_succ hmj) with hlt | rfl
      · exact h.least m him hlt
      · exact Nat.not_lt.1 hless

theorem exchangeFrom_spec (k : ℕ) (h : InOrderTo depth symbols i j) (hij : i < j)
    (hk : j + k = symbols.length) :
    (exchangeFrom depth i k j symbols).Perm symbols ∧
    InOrderTo depth (exchangeFrom depth i k j symbols) i symbols.length := by
  induction k generalizing j symbols with
  | zero => exact ⟨List.Perm.refl _, hk ▸ h⟩
  | succ k ih =>
    have hperm : (exchange depth symbols i j).Perm symbols := exchange_symbols (by omega) (by omega)
    have hlen := hperm.length_eq
    obtain ⟨hrest, hsorted⟩ := ih (h.exchange hij (by omega)) (by omega) (by rw [hlen]; omega)
    rw [hlen] at hsorted
    exact ⟨hrest.trans hperm, hsorted⟩

theorem sortFrom_spec (k : ℕ) (h : InOrderTo depth symbols i (i + 1))
    (hk : i + k = symbols.length) :
    (sortFrom depth k i symbols).Perm symbols ∧
    InOrderTo depth (sortFrom depth k i symbols) symbols.length (symbols.length + 1) := by
  induction k generalizing i symbols with
  | zero => exact ⟨List.Perm.refl _, by rw [← hk, Nat.add_zero]; exact h⟩
  | succ k ih =>
    obtain ⟨hperm, hsorted⟩ := exchangeFrom_spec k h (Nat.lt_succ_self i) (by omega)
    have hlen := hperm.length_eq
    have hnext : InOrderTo depth (exchangeFrom depth i k (i + 1) symbols) (i + 1) (i + 1 + 1) := by
      refine ⟨fun a ha b hab hb => ?_, fun m him hm => absurd hm (by omega)⟩
      rcases Nat.lt_or_eq_of_le (Nat.le_of_lt_succ ha) with hlt | rfl
      · exact hsorted.before a hlt b hab hb
      · exact hsorted.least b hab (hlen ▸ hb)
    obtain ⟨hrest, hdone⟩ := ih hnext (by rw [hlen]; omega)
    rw [hlen] at hdone
    exact ⟨hrest.trans hperm, hdone⟩

/-- The symbols are sorted by depth. -/
theorem sortSymbols_spec (depth symbols : List ℕ) : (sortSymbols depth symbols).Perm symbols ∧
    ((sortSymbols depth symbols).map fun s => depth.getD s 0).Pairwise (· ≤ ·) := by
  have hstart : InOrderTo depth symbols 0 (0 + 1) :=
    ⟨fun a ha => absurd ha (Nat.not_lt_zero a), fun m h h' => absurd h' (by omega)⟩
  obtain ⟨hperm, hsorted⟩ := sortFrom_spec symbols.length hstart (Nat.zero_add _)
  refine ⟨hperm, ?_⟩
  rw [List.pairwise_map, List.pairwise_iff_getElem]
  intro a b ha hb hab
  have hle : depth.getD ((sortSymbols depth symbols).getD a 0) 0 ≤
      depth.getD ((sortSymbols depth symbols).getD b 0) 0 :=
    hsorted.before a (hperm.length_eq ▸ ha) b hab hb
  rwa [List.getD_eq_getElem _ _ ha, List.getD_eq_getElem _ _ hb] at hle

end Exchanges

/-! ### Which depths a simple code has -/

/-- Two powers of two whose sum is one are equal. -/
theorem pow_add_pow {e f n : ℕ} (hef : f ≤ e) (h : 2 ^ e + 2 ^ f = 2 ^ n) : f = e ∧ n = e + 1 := by
  have hle : 2 ^ f ≤ 2 ^ e := Nat.pow_le_pow_right (by decide) hef
  have hpos : 0 < 2 ^ f := Nat.two_pow_pos f
  have hlow : 2 ^ e < 2 ^ n := by omega
  have hhigh : 2 ^ n ≤ 2 ^ (e + 1) := by rw [pow_succ]; omega
  have hn : n = e + 1 :=
    le_antisymm ((Nat.pow_le_pow_iff_right (by decide)).1 hhigh)
      ((Nat.pow_lt_pow_iff_right (by decide)).1 hlow)
  refine ⟨?_, hn⟩
  rw [hn, pow_succ] at h
  exact Nat.pow_right_injective (Nat.le_refl 2) (show 2 ^ f = 2 ^ e by omega)

theorem pow_add_pow_add_pow {e f g n : ℕ} (hef : f ≤ e) (hfg : g ≤ f)
    (h : 2 ^ e + 2 ^ f + 2 ^ g = 2 ^ n) :
    n = e + 1 ∧ e = f + 1 ∧ g = f := by
  have hle : 2 ^ f ≤ 2 ^ e := Nat.pow_le_pow_right (by decide) hef
  have hle' : 2 ^ g ≤ 2 ^ f := Nat.pow_le_pow_right (by decide) hfg
  have hpos' : 0 < 2 ^ g := Nat.two_pow_pos g
  have hpos : 0 < 2 ^ f := Nat.two_pow_pos f
  have hlow : 2 ^ e < 2 ^ n := by omega
  have hhigh : 2 ^ n < 2 ^ (e + 2) := by rw [pow_add]; omega
  have hn : n = e + 1 :=
    le_antisymm (Nat.le_of_lt_succ ((Nat.pow_lt_pow_iff_right (by decide)).1 hhigh))
      ((Nat.pow_lt_pow_iff_right (by decide)).1 hlow)
  rw [hn, pow_succ] at h
  obtain ⟨hgf, he⟩ := pow_add_pow hfg (show 2 ^ f + 2 ^ g = 2 ^ e by omega)
  exact ⟨hn, he, hgf⟩

/-- **The sorted depths of a complete code of two to four symbols** are a shape of the
reader. -/
theorem shape_of_sorted {depths : List ℕ} (h2 : 2 ≤ depths.length) (h4 : depths.length ≤ 4)
    (hsorted : depths.Pairwise (· ≤ ·))
    (h15 : ∀ d ∈ depths, d ≤ 15) (hkraft : (depths.map fun d => 2 ^ (15 - d)).sum = 2 ^ 15) :
    ∀ i < depths.length,
    (Builder.shapeLengths depths.length (if depths.length = 4 ∧
      depths.getD 0 0 = 1 then 1 else 0)).getD i 0 =
      depths.getD i 0 := by
  rcases depths with _ | ⟨a, _ | ⟨b, _ | ⟨c, _ | ⟨d, _ | ⟨e, rest⟩⟩⟩⟩⟩
  · exact absurd h2 (by decide)
  · exact absurd h2 (by simp)
  · have ha := h15 a (by simp)
    have hb := h15 b (by simp)
    have hab : a ≤ b := by simpa using hsorted
    obtain ⟨h1, h2⟩ := pow_add_pow (n := 15) (show 15 - b ≤ 15 - a by omega) (by simpa using hkraft)
    obtain rfl : a = 1 := by omega
    obtain rfl : b = 1 := by omega
    decide
  · have ha := h15 a (by simp)
    have hb := h15 b (by simp)
    have hc := h15 c (by simp)
    obtain ⟨⟨hab, -⟩, hbc⟩ : (a ≤ b ∧ a ≤ c) ∧ b ≤ c := by simpa using hsorted
    obtain ⟨h1, h2, h3⟩ :=
      pow_add_pow_add_pow (n := 15) (show 15 - b ≤ 15 - a by omega) (show 15 - c ≤ 15 - b by omega)
        (by simpa [Nat.add_assoc] using hkraft)
    obtain rfl : a = 1 := by omega
    obtain rfl : b = 2 := by omega
    obtain rfl : c = 2 := by omega
    decide
  · have ha := h15 a (by simp)
    have hb := h15 b (by simp)
    have hc := h15 c (by simp)
    have hd := h15 d (by simp)
    obtain ⟨⟨hab, -, -⟩, ⟨hbc, -⟩, hcd⟩ : (a ≤ b ∧ a ≤ c ∧ a ≤ d) ∧ (b ≤ c ∧ b ≤ d) ∧ c ≤ d := by
      simpa using hsorted
    have hsum : 2 ^ (15 - a) + 2 ^ (15 - b) + 2 ^ (15 - c) + 2 ^ (15 - d) = 2 ^ 15 := by
      simpa [Nat.add_assoc] using hkraft
    have hB : 2 ^ (15 - b) ≤ 2 ^ (15 - a) := Nat.pow_le_pow_right (by decide) (by omega)
    have hC : 2 ^ (15 - c) ≤ 2 ^ (15 - b) := Nat.pow_le_pow_right (by decide) (by omega)
    have hD : 2 ^ (15 - d) ≤ 2 ^ (15 - c) := Nat.pow_le_pow_right (by decide) (by omega)
    have hpos : 0 < 2 ^ (15 - d) := Nat.two_pow_pos _
    have ha2 : 15 - a < 15 := (Nat.pow_lt_pow_iff_right (a := 2) (by decide)).1 (by omega)
    have ha13 : 13 ≤ 15 - a := (Nat.pow_le_pow_iff_right (a := 2) (by decide)).1 (by omega)
    rcases (show a = 1 ∨ a = 2 by omega) with rfl | rfl
    · obtain ⟨h1, h2, h3⟩ :=
        pow_add_pow_add_pow (n := 14) (show 15 - c ≤ 15 - b by omega) (show 15 - d ≤
          15 - c by omega) (by omega)
      obtain rfl : b = 2 := by omega
      obtain rfl : c = 3 := by omega
      obtain rfl : d = 3 := by omega
      decide
    · have hd13 : 13 ≤ 15 - d := (Nat.pow_le_pow_iff_right (a := 2) (by decide)).1 (by omega)
      obtain rfl : b = 2 := by omega
      obtain rfl : c = 2 := by omega
      obtain rfl : d = 2 := by omega
      decide
  · exact absurd h4 (by simp)

end Mbrotli.Compressor
