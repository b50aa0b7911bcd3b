/-
# Context maps through writer and reader

The writer recodes a map twice before it stores it: each value as its place in a list of the
values that moves the last one to the front, and each run of zeros as a word of its width
with the rest of its length above (`runLengthCodeZeros`). The reader's `expand` undoes the
second and `inverseMoveToFront` the first, so a stored map is read back, of one tree or more
and in any number of calls (`context_map_round_trip`). The map of a stream without contexts
is stored directly, as one value and one run for each block type; it reads back as the map
that gives every block type the tree of its number (`trivial_map_round_trip`).

Key definitions: `encodeContextMap`, `storeTrivialContextMap`, `ReadsMapBack`.
Key theorems: `inverseMoveToFront_transform`, `expand_runLengthCodeZeros`, `context_map_round_trip`,
`trivial_map_round_trip`.
-/
import Mbrotli.Shared.CodeRoundTrip
import Mbrotli.Decompressor.Core.ContextMapReads

namespace Mbrotli.Compressor
open BitString Resumable

/-! ### Move to front -/

/-- The index of `value`, or the length of the list. -/
def indexOf (v : List ℕ) (value : ℕ) : ℕ := v.idxOf value

/-- Moves the entry at `index` to the front. -/
def moveToFront (v : List ℕ) (index : ℕ) : List ℕ :=
  if index < v.length then v.getD index 0 :: (v.take index ++ v.drop (index + 1)) else v

/-- The rounds of the transform over the list of the values. -/
def transformFrom : List ℕ → List ℕ → List ℕ
  | _, [] => []
  | mtf, value :: rest => indexOf mtf value :: transformFrom
      (moveToFront mtf (indexOf mtf value)) rest

/-- Recodes a context map so that recently used indices become small. -/
def moveToFrontTransform (input : List ℕ) : List ℕ :=
  transformFrom (List.range (input.foldl max 0 + 1)) input

variable {v input l : List ℕ}

theorem moveToFront_perm (v : List ℕ) (index : ℕ) : (moveToFront v index).Perm v := by
  unfold moveToFront
  split
  · rename_i h
    have hsplit : v = v.take index ++ v.getD index 0 :: v.drop (index + 1) := by
      rw [List.getD_eq_getElem _ _ h, List.getElem_cons_drop, List.take_append_drop]
    conv_rhs => rw [hsplit]
    exact List.perm_middle.symm
  · exact List.Perm.refl v

/-- The reader's table moves as the writer's list does. -/
theorem moveToFront_follows {symbols : ℕ → ℕ} {index : ℕ} (hindex : index < v.length)
    (h : ∀ i < v.length, symbols i = v.getD i 0) :
    ∀ i < (moveToFront v index).length, ContextMap.moveToFront symbols index i =
    (moveToFront v index).getD i 0 := by
  intro i hi
  rw [(moveToFront_perm v index).length_eq] at hi
  unfold moveToFront ContextMap.moveToFront
  rw [if_pos hindex]
  cases i with
  | zero => exact h index hindex
  | succ i =>
    rw [if_neg (Nat.succ_ne_zero i), List.getD_cons_succ, Nat.add_sub_cancel]
    by_cases hle : i + 1 ≤ index
    · rw [if_pos hle, h i (by omega), List.getD_append _ _ _ _ (by rw [List.length_take]; omega),
        List.getD_eq_getElem?_getD,
        List.getD_eq_getElem?_getD, List.getElem?_take_of_lt (by omega)]
    · rw [if_neg hle, h (i + 1) hi,
        List.getD_append_right _ _ _ _ (by rw [List.length_take]; omega),
        List.getD_eq_getElem?_getD,
        List.getD_eq_getElem?_getD, List.getElem?_drop, List.length_take, Nat.min_eq_left hindex.le]
      congr 2
      omega

theorem inverse_transformFrom (input : List ℕ) :
    ∀ {v : List ℕ} {symbols : ℕ → ℕ}, (∀ x ∈ input, x ∈ v) →
    (∀ i < v.length, symbols i = v.getD i 0) →
    ContextMap.inverseMoveToFront (transformFrom v input) symbols = input := by
  induction input with
  | nil => exact fun _ _ => rfl
  | cons value rest ih =>
    intro v symbols hmem h
    have hindex : indexOf v value < v.length :=
      List.idxOf_lt_length_of_mem (hmem value List.mem_cons_self)
    rw [transformFrom, ContextMap.inverseMoveToFront, h _ hindex, List.getD_eq_getElem _ _ hindex]
    have hvalue : v[indexOf v value] = value := List.getElem_idxOf hindex
    rw [hvalue,
      ih (fun x hx => (moveToFront_perm v _).mem_iff.2 (hmem x (List.mem_cons_of_mem _ hx)))
      (moveToFront_follows hindex h)]

theorem le_foldl_max (l : List ℕ) (m : ℕ) : m ≤ l.foldl max m ∧ ∀ x ∈ l, x ≤ l.foldl max m := by
  induction l generalizing m with
  | nil => exact ⟨Nat.le_refl m, fun x hx => absurd hx List.not_mem_nil⟩
  | cons y l ih =>
    obtain ⟨h1, h2⟩ := ih (max m y)
    refine ⟨(le_max_left m y).trans h1, fun x hx => ?_⟩
    rcases List.mem_cons.1 hx with rfl | hx
    · exact (le_max_right m x).trans h1
    · exact h2 x hx

/-- **The reader's transform undoes the writer's.** -/
theorem inverseMoveToFront_transform (input : List ℕ) :
    ContextMap.inverseMoveToFront (moveToFrontTransform input) id = input := by
  refine inverse_transformFrom input (fun x hx => ?_) fun i hi => ?_
  · rw [List.mem_range]
    exact Nat.lt_succ_of_le ((le_foldl_max input 0).2 x hx)
  · rw [List.length_range] at hi
    rw [List.getD_eq_getElem _ _ (by rw [List.length_range]; exact hi), List.getElem_range]
    rfl

/-- A place in the list is below every bound of the values. -/
theorem transformFrom_lt (input : List ℕ) : ∀ {v : List ℕ}, (∀ x ∈ input, x ∈ v) →
    ∀ i ∈ transformFrom v input, i < v.length := by
  induction input with
  | nil => exact fun _ i hi => absurd hi List.not_mem_nil
  | cons value rest ih =>
    intro v hmem i hi
    have hperm := moveToFront_perm v (indexOf v value)
    rcases List.mem_cons.1 hi with rfl | hi
    · exact List.idxOf_lt_length_of_mem (hmem value List.mem_cons_self)
    · rw [← hperm.length_eq]
      exact ih (fun x hx => hperm.mem_iff.2 (hmem x (List.mem_cons_of_mem _ hx))) i hi

theorem length_transformFrom (input v : List ℕ) :
    (transformFrom v input).length = input.length := by
  induction input generalizing v with
  | nil => rfl
  | cons value rest ih => rw [transformFrom, List.length_cons, ih, List.length_cons]

theorem moveToFrontTransform_lt {bound : ℕ} (hbound : ∀ x ∈ input, x < bound) :
    ∀ i ∈ moveToFrontTransform input, i < bound := by
  intro i hi
  cases input with
  | nil => exact absurd hi List.not_mem_nil
  | cons x rest =>
    have hlt :=
      transformFrom_lt (x :: rest) (fun y hy =>
      List.mem_range.2 (Nat.lt_succ_of_le ((le_foldl_max (x :: rest) 0).2 y hy))) i hi
    rw [List.length_range] at hlt
    have hmax : ∀ (l : List ℕ) (m : ℕ), m < bound → (∀ y ∈ l, y < bound) →
        l.foldl max m < bound := by
      intro l
      induction l with
      | nil => exact fun m hm _ => hm
      | cons y l ih =>
          exact fun m hm hl => ih _ (max_lt hm (hl y List.mem_cons_self)) fun z hz =>
          hl z (List.mem_cons_of_mem _ hz)
    have := hmax (x :: rest) 0 (Nat.zero_lt_of_lt (hbound x List.mem_cons_self)) hbound
    omega

/-! ### Runs of zeros -/

/-- Bits a run-length symbol occupies in the packed context map. -/
def contextMapSymbolBits : ℕ := 9

/-- The longest run of zeros, of which `reps` end where the list begins. -/
def longestZeros : List ℕ → ℕ → ℕ → ℕ
  | [], reps, maxReps => max maxReps reps
  | x :: rest, reps, maxReps => if x = 0 then longestZeros rest (reps + 1) maxReps
      else longestZeros rest 0 (max maxReps reps)

/-- The words of a run of `reps` zeros. -/
def zeroWords (maxPrefix : ℕ) : ℕ → ℕ → List ℕ
  | 0, _ => []
  | fuel + 1, reps =>
    if reps = 0 then []
    else if reps < 2 <<< maxPrefix
    then [Nat.log2 reps + ((reps - (1 <<< Nat.log2 reps)) <<< contextMapSymbolBits)]
    else (maxPrefix + (((1 <<< maxPrefix) - 1) <<< contextMapSymbolBits)) ::
    zeroWords maxPrefix fuel (reps - ((2 <<< maxPrefix) - 1))

/-- The words of the values, after `reps` zeros. The source counts the zeros of a run ahead;
here they are counted as they come. -/
def zerosFrom (maxPrefix : ℕ) : List ℕ → ℕ → List ℕ
  | [], reps => zeroWords maxPrefix reps reps
  | x :: rest, reps =>
    if x = 0 then zerosFrom maxPrefix rest (reps + 1)
    else zeroWords maxPrefix reps reps ++ (x + maxPrefix) :: zerosFrom maxPrefix rest 0

/-- Replaces runs of zeros with run-length words: the words and the widest prefix used. -/
def runLengthCodeZeros (v : List ℕ) (maxRunLengthPrefix : ℕ) : List ℕ × ℕ :=
  let maxReps := longestZeros v 0 0
  let maxPrefix := if 0 < maxReps then Nat.log2 maxReps else 0
  let maxPrefix := min maxPrefix maxRunLengthPrefix
  (zerosFrom maxPrefix v 0, maxPrefix)

/-- The symbol of a word, and what is above it. -/
def unpackWord (word : ℕ) : ℕ × ℕ :=
  (word &&& ((1 <<< contextMapSymbolBits) - 1), word >>> contextMapSymbolBits)

theorem unpackWord_eq {symbol : ℕ} (extra : ℕ) (h : symbol < 512) :
    unpackWord (symbol + (extra <<< contextMapSymbolBits)) = (symbol, extra) := by
  have hshift : extra <<< contextMapSymbolBits = extra * 512 := Nat.shiftLeft_eq extra 9
  refine Prod.ext ?_ ?_
  · show (symbol + (extra <<< contextMapSymbolBits)) &&& (2 ^ 9 - 1) = symbol
    rw [hshift, Nat.and_two_pow_sub_one_eq_mod]
    omega
  · show (symbol + (extra <<< contextMapSymbolBits)) >>> 9 = extra
    rw [hshift, Nat.shiftRight_eq_div_pow]
    omega

/-- What the reader needs of a word: a run of its width at most, or a value. -/
structure Wordly (run bound word : ℕ) : Prop where
  lt : (unpackWord word).1 < bound + run
  extra : (unpackWord word).1 ≠ 0 → (unpackWord word).1 ≤ run →
    (unpackWord word).2 < 2 ^ (unpackWord word).1
  value : ∀ x ∈ ContextMap.expand run (unpackWord word), x < bound

variable {run bound : ℕ}

theorem wordly_zeros (hrun : run ≤ 6) (hbound : 0 < bound) {k : ℕ} (extra : ℕ) (hk : k ≤ run)
    (hextra : extra < 2 ^ k) :
    Wordly run bound (k + (extra <<< contextMapSymbolBits)) ∧
      ContextMap.expand run (unpackWord (k + (extra <<< contextMapSymbolBits))) = List.replicate
      (2 ^ k + extra) 0 := by
  have hword := unpackWord_eq extra (show k < 512 by omega)
  have hexpand : ContextMap.expand run (unpackWord (k + (extra <<< contextMapSymbolBits))) =
      List.replicate (2 ^ k + extra) 0 := by
    rw [hword]
    unfold ContextMap.expand
    by_cases h0 : k = 0
    · rw [if_neg (fun h => h.1 h0)]
      subst h0
      have h1 : extra = 0 := by omega
      rw [h1]
      rfl
    · rw [if_pos ⟨h0, hk⟩]
  refine ⟨⟨?_, ?_, ?_⟩, hexpand⟩
  · rw [hword]
    show k < bound + run
    omega
  · rw [hword]
    exact fun _ _ => hextra
  · intro x hx
    rw [hexpand] at hx
    rw [List.eq_of_mem_replicate hx]
    exact hbound

theorem wordly_value (hrun : run ≤ 6) (hbound : bound ≤ 256) {x : ℕ} (h0 : x ≠ 0) (hx : x < bound) :
    Wordly run bound (x + run) ∧ ContextMap.expand run (unpackWord (x + run)) = [x] := by
  have hword := unpackWord_eq 0 (show x + run < 512 by omega)
  rw [Nat.zero_shiftLeft, Nat.add_zero] at hword
  have hexpand : ContextMap.expand run (unpackWord (x + run)) = [x] := by
    rw [hword]
    unfold ContextMap.expand
    rw [if_neg (by dsimp only; omega), if_neg (by dsimp only; omega), Nat.add_sub_cancel]
  refine ⟨⟨?_, ?_, ?_⟩, hexpand⟩
  · rw [hword]
    show x + run < bound + run
    omega
  · rw [hword]
    dsimp only
    omega
  · intro y hy
    rw [hexpand, List.mem_singleton] at hy
    omega

/-- The words of a run expand to it. -/
theorem zeroWords_spec (hrun : run ≤ 6) (hbound : 0 < bound) (fuel : ℕ) : ∀ reps ≤ fuel,
    (∀ w ∈ zeroWords run fuel reps, Wordly run bound w) ∧
      (zeroWords run fuel reps).flatMap (fun w => ContextMap.expand run (unpackWord w)) =
      List.replicate reps 0 := by
  have htwo : 2 <<< run = 2 * 2 ^ run := Nat.shiftLeft_eq 2 run
  have hone : ∀ k, 1 <<< k = 2 ^ k := fun k => by rw [Nat.shiftLeft_eq, Nat.one_mul]
  have hpos := Nat.two_pow_pos run
  induction fuel with
  | zero =>
    intro reps hreps
    obtain rfl : reps = 0 := by omega
    exact ⟨fun w hw => absurd hw List.not_mem_nil, rfl⟩
  | succ fuel ih =>
    intro reps hreps
    rw [zeroWords]
    split
    · rename_i h0
      rw [h0]
      exact ⟨fun w hw => absurd hw List.not_mem_nil, rfl⟩
    rename_i h0
    split
    · -- the last word has the width of what is left
      rename_i hlt
      have hlow := Nat.log2_self_le h0
      have hhigh := @Nat.lt_log2_self reps
      have hk : Nat.log2 reps ≤ run := by
        rw [htwo, ← Nat.pow_succ'] at hlt
        have := (Nat.log2_lt h0).2 hlt
        omega
      have hspec :=
        wordly_zeros hrun hbound (reps - 2 ^ Nat.log2 reps) hk
          (by rw [Nat.pow_succ] at hhigh; omega)
      rw [hone]
      refine ⟨fun w hw => ?_, ?_⟩
      · rw [List.mem_singleton.1 hw]
        exact hspec.1
      · rw [List.flatMap_cons, List.flatMap_nil, List.append_nil, hspec.2, Nat.add_sub_cancel' hlow]
    · -- a word of the widest kind
      rename_i hge
      rw [htwo] at hge
      have hspec := wordly_zeros hrun hbound (2 ^ run - 1) (Nat.le_refl run) (by omega)
      obtain ⟨hwords, hexpand⟩ := ih (reps - ((2 <<< run) - 1)) (by rw [htwo]; omega)
      rw [hone]
      refine ⟨fun w hw => ?_, ?_⟩
      · rcases List.mem_cons.1 hw with rfl | hw
        · exact hspec.1
        · exact hwords w hw
      · rw [List.flatMap_cons, hspec.2, hexpand, List.replicate_append_replicate, htwo]
        congr 1
        omega

theorem zerosFrom_spec (hrun : run ≤ 6) (hbound : bound ≤ 256) (hpos : 0 < bound) (l : List ℕ) :
    ∀ reps, (∀ x ∈ l, x < bound) →
    (∀ w ∈ zerosFrom run l reps, Wordly run bound w) ∧
      (zerosFrom run l reps).flatMap (fun w => ContextMap.expand run (unpackWord w)) =
      List.replicate reps 0 ++ l := by
  induction l with
  | nil =>
    intro reps _
    rw [List.append_nil]
    exact zeroWords_spec hrun hpos reps reps (Nat.le_refl reps)
  | cons x l ih =>
    intro reps hl
    rw [zerosFrom]
    split
    · rename_i h0
      obtain ⟨hwords, hexpand⟩ := ih (reps + 1) fun y hy => hl y (List.mem_cons_of_mem _ hy)
      refine ⟨hwords, ?_⟩
      rw [hexpand, h0, List.replicate_succ', List.append_assoc]
      rfl
    · rename_i h0
      obtain ⟨hzeros, hrunExpand⟩ := zeroWords_spec hrun hpos reps reps (Nat.le_refl reps)
      obtain ⟨hvalue, hexpandValue⟩ := wordly_value hrun hbound h0 (hl x List.mem_cons_self)
      obtain ⟨hwords, hexpand⟩ := ih 0 fun y hy => hl y (List.mem_cons_of_mem _ hy)
      refine ⟨fun w hw => ?_, ?_⟩
      · rcases List.mem_append.1 hw with hw | hw
        · exact hzeros w hw
        · rcases List.mem_cons.1 hw with rfl | hw
          · exact hvalue
          · exact hwords w hw
      · rw [List.flatMap_append, List.flatMap_cons, hrunExpand, hexpandValue, hexpand]
        rfl

/-- **The reader's entries expand to what the writer recoded.** -/
theorem expand_runLengthCodeZeros (hbound : bound ≤ 256) (hpos : 0 < bound)
    (hl : ∀ x ∈ l, x < bound) :
    (runLengthCodeZeros l 6).2 ≤ 6 ∧
    (∀ w ∈ (runLengthCodeZeros l 6).1, Wordly (runLengthCodeZeros l 6).2 bound w) ∧
      (runLengthCodeZeros l 6).1.flatMap
      (fun w => ContextMap.expand (runLengthCodeZeros l 6).2 (unpackWord w)) = l := by
  have hle : (runLengthCodeZeros l 6).2 ≤ 6 := min_le_right _ _
  obtain ⟨hwords, hexpand⟩ := zerosFrom_spec hle hbound hpos l 0 hl
  exact ⟨hle, hwords, hexpand⟩

/-! ### The writer -/

/-- Symbols a context map may use. -/
def maxContextMapSymbols : ℕ := 272

/-- Scratch buffers the context map encoder reuses; the histogram is cleared before each use. -/
structure ContextMapArena where
  depths : List ℕ := List.replicate maxContextMapSymbols 0
  bits : List ℕ := List.replicate maxContextMapSymbols 0

/-- The buffers have the room of the source's arrays. -/
def ContextMapArena.Sized (arena : ContextMapArena) : Prop :=
  arena.depths.length = maxContextMapSymbols ∧ arena.bits.length = maxContextMapSymbols

theorem ContextMapArena.sized : ({} : ContextMapArena).Sized :=
  ⟨List.length_replicate, List.length_replicate⟩

/-- Writes a number between zero and 255. -/
def storeVarLenUint8 (n : ℕ) : List BitOp :=
  if n = 0 then [.write 1 0]
  else
    let nbits := Nat.log2 n
    [.write 1 1, .write 3 nbits, .write nbits (n - (1 <<< nbits))]

/-- Writes an entry: its symbol's pattern, and for a run the rest of its length. -/
def storeEntry (maxRunLengthPrefix : ℕ) (depths bits : List ℕ) (entry : ℕ × ℕ) : List BitOp :=
  .write (depths.getD entry.1 0) (bits.getD entry.1 0) ::
    if 0 < entry.1 ∧ entry.1 ≤ maxRunLengthPrefix then [.write entry.1 entry.2] else []

/-- Writes a context map. -/
def encodeContextMap (arena : ContextMapArena) (contextMap : List ℕ) (numClusters : ℕ)
    (tree : List HuffmanNode) :
    Option (ContextMapArena × List HuffmanNode × List BitOp) :=
  let count := storeVarLenUint8 (numClusters - 1)
  if numClusters = 1 then some (arena, tree, count)
  else
    let (rleSymbols, maxRunLengthPrefix) := runLengthCodeZeros (moveToFrontTransform contextMap) 6
    let histogram := (List.range maxContextMapSymbols).map fun symbol =>
      (rleSymbols.map fun word => (unpackWord word).1).count symbol
    let useRle := if 0 < maxRunLengthPrefix then [.write 1 1, .write 4 (maxRunLengthPrefix - 1)]
      else [.write 1 0]
    let alphabet := numClusters + maxRunLengthPrefix
    do
      let (tree, depths, bits, calls) ← buildAndStoreHuffmanTree histogram alphabet alphabet tree
        arena.depths arena.bits
      return ({ depths, bits }, tree, count ++ useRle ++ calls ++
        rleSymbols.flatMap (fun word => storeEntry maxRunLengthPrefix depths bits
          (unpackWord word)) ++ [.write 1 1])

/-- Writes the context map that gives every block type its own histogram. -/
def storeTrivialContextMap (arena : ContextMapArena) (numTypes contextBits : ℕ)
    (tree : List HuffmanNode) :
    Option (ContextMapArena × List HuffmanNode × List BitOp) :=
  let count := storeVarLenUint8 (numTypes - 1)
  if numTypes ≤ 1 then some (arena, tree, count)
  else
    let repeatCode := contextBits - 1
    let repeatBits := (1 <<< repeatCode) - 1
    let alphabetSize := numTypes + repeatCode
    let histogram := (List.range alphabetSize).map fun symbol =>
      if contextBits ≤ symbol then 1 else if symbol = 0 then 1 else if symbol = repeatCode
        then numTypes else 0
    do
      let (tree, depths, bits, calls) ← buildAndStoreHuffmanTree histogram alphabetSize alphabetSize
        tree arena.depths arena.bits
      let pairs := (List.range numTypes).flatMap fun index =>
        let code := if index = 0 then 0 else index + contextBits - 1
        [.write (depths.getD code 0) (bits.getD code 0),
          .write (depths.getD repeatCode 0) (bits.getD repeatCode 0),
          .write repeatCode repeatBits]
      return ({ depths, bits }, tree, count ++ [.write 1 1, .write 4 (repeatCode - 1)] ++ calls ++
        pairs ++ [.write 1 1])

/-- The bits `stored` are read back as the map: wherever they stand in a stream, within what is
allowed of it, and however the stream is split into calls, a reader at its start takes just
them and has the values, or reports the memory limit it was given. -/
def ReadsMapBack (trees : ℕ) (values : List ℕ) (stored : List Bool) : Prop :=
  ∀ (m : ContextMap) (b : Builder) (memory : Memory) (I : List UInt8) (p total : ℕ)
    (limit : Option ℕ) (reservoir : Bits)
    (pieces : List (List UInt8)),
    m.stage = .treeCount → b.stage = .start → I.length ≤ u64Max →
    Mbrotli.Cursor I p reservoir total → total ≤ I.length →
    (∀ l, limit = some l → total ≤ l) → pieces ≠ [] → pieces.flatten = I.drop total →
    BitString.Spells I p stored →
    p + stored.length ≤ 8 * Builder.allowed limit I.length →
    ∃ n reservoir' total' m' b' memory',
      (∃ l, memory.limit = some l ∧ ∀ fuel, n ≤ fuel →
        calls (ContextMap.rounds values.length) fuel limit pieces (m, b, memory) reservoir total =
        (.fault (.error (.memoryLimitExceeded l)), (m', b', memory'), reservoir', total')) ∨
      ((∀ fuel, n ≤ fuel → calls (ContextMap.rounds values.length) fuel limit pieces (m, b,
        memory) reservoir total =
          (.done (), (m', b', memory'), reservoir', total')) ∧
        Mbrotli.Cursor I (p + stored.length) reservoir' total' ∧ m'.stage = .complete ∧
        m'.trees = trees ∧ m'.values.toList = values ∧
        b'.stage = .start ∧ memory'.limit = memory.limit)

/-- The same, field by field: the map's reader comes to the end of `stored`, or the memory limit
stops it. -/
def EndsMap (trees : ℕ) (values : List ℕ) (stored : List Bool) : Prop :=
  ∀ (m : ContextMap) (b : Builder) (memory : Memory) (I : List UInt8) (B p : ℕ),
    m.stage = .treeCount → b.stage = .start →
    BitString.Spells I p stored → p + stored.length ≤ 8 * B →
    ∃ r q, Ends (ContextMap.rounds values.length) I B (m, b, memory) p r q ∧
      ContextMap.Ended memory trees values r ∧ ((∃ s, r = .ok s) → q = p + stored.length)

theorem EndsMap.readsBack {trees : ℕ} {values : List ℕ} {stored : List Bool}
    (h : EndsMap trees values stored) :
    ReadsMapBack trees values stored := by
  intro m b memory I p total limit reservoir pieces hm hb hI hc ht hl hne hpieces hspells hend
  obtain ⟨r, q, hends, hended, hq⟩ := h m b memory I _ p hm hb hspells hend
  obtain ⟨n, reservoir', total', hcalls, hcursor⟩ :=
    calls_of_ends hI pieces hends hc ht hl hpieces (Or.inl hne)
  rcases r with ⟨e, m', b', memory'⟩ | ⟨m', b', memory'⟩
  · obtain ⟨l, hl, rfl⟩ := hended
    exact ⟨n, reservoir', total', m', b', memory', Or.inl ⟨l, hl, hcalls⟩⟩
  · rw [hq ⟨_, rfl⟩] at hcursor
    exact ⟨n, reservoir', total', m', b', memory', Or.inr ⟨hcalls, hcursor, hended⟩⟩

theorem storeVarLenUint8_writes {n : ℕ} (hn : n < 256) :
    FastCommands.Writes (storeVarLenUint8 n) (uint8Bits n) := by
  unfold storeVarLenUint8 uint8Bits
  split
  · exact FastCommands.Writes.write (by decide) (by decide)
  · rename_i h0
    have hlow := Nat.log2_self_le h0
    have hhigh := @Nat.lt_log2_self n
    have h8 : Nat.log2 n < 8 := (Nat.log2_lt h0).2 hn
    have hone : 1 <<< Nat.log2 n = 2 ^ Nat.log2 n := by rw [Nat.shiftLeft_eq, Nat.one_mul]
    dsimp only
    rw [hone, List.append_assoc]
    exact FastCommands.Writes.cons (by decide) (by decide) rfl
      (FastCommands.Writes.cons (by decide) (by omega) rfl
      (FastCommands.Writes.write (by rw [maxBitsPerWrite]; omega)
        (by rw [Nat.pow_succ] at hhigh; omega)))

/-! ### Round trips -/

variable {alphabet : ℕ} {used depth bits : List ℕ} {calls : List BitOp} {d : CodeDescription}

theorem Stored.word_fits (h : Stored alphabet used depth bits calls d) {s : ℕ} (hs : s ∈ used) :
    depth.getD s 0 ≤ maxBitsPerWrite ∧ bits.getD s 0 < 2 ^ depth.getD s 0 := by
  have hfits := wordField_fits h.valid.code.1 s
  rwa [(h.words s hs).2.2] at hfits

/-- An entry is written as its bits. -/
theorem Stored.storeEntry_writes (h : Stored alphabet used depth bits calls d) {run : ℕ}
    (hrun : run ≤ 6) {e : ℕ × ℕ} (hused : e.1 ∈ used)
    (hextra : e.1 ≠ 0 → e.1 ≤ run → e.2 < 2 ^ e.1) :
    FastCommands.Writes (storeEntry run depth bits e) (ContextMap.entryBits run depth bits e) := by
  obtain ⟨hwidth, hword⟩ := h.word_fits hused
  unfold storeEntry ContextMap.entryBits
  refine FastCommands.Writes.cons hwidth hword rfl ?_
  by_cases hr : e.1 ≠ 0 ∧ e.1 ≤ run
  · rw [if_pos hr, if_pos ⟨Nat.pos_of_ne_zero hr.1, hr.2⟩]
    exact FastCommands.Writes.write (by rw [maxBitsPerWrite]; omega) (hextra hr.1 hr.2)
  · rw [if_neg hr, if_neg fun h => hr ⟨h.1.ne', h.2⟩]
    exact FastCommands.Writes.nil

/-- The calls of a map whose code is stored write the map's bits, and these read back. -/
theorem Stored.map (h : Stored alphabet used depth bits calls d) {trees run : ℕ}
    (halpha : alphabet = trees + run) (hrun : run ≤ 6)
    (htwo : 2 ≤ trees) (h256 : trees ≤ 256) {entries : List (ℕ × ℕ)}
    (hused : ∀ e ∈ entries, e.1 ∈ used)
    (hextra : ∀ e ∈ entries, e.1 ≠ 0 → e.1 ≤ run → e.2 < 2 ^ e.1)
    (hvalue : ∀ e ∈ entries, ∀ v ∈ ContextMap.expand run e, v < trees)
    {values : List ℕ}
    (hvalues : ContextMap.inverseMoveToFront (entries.flatMap (ContextMap.expand run)) id =
      values) :
    FastCommands.Writes
    (storeVarLenUint8 (trees - 1) ++
      (if 0 < run then [.write 1 1, .write 4 (run - 1)] else [.write 1 0]) ++ calls ++
        entries.flatMap (storeEntry run depth bits) ++ [.write 1 1])
        (ContextMap.mapBits trees run d depth bits entries) ∧
      EndsMap trees values (ContextMap.mapBits trees run d depth bits entries) := by
  subst halpha
  constructor
  · have hentries : ∀ l : List (ℕ × ℕ), (∀ e ∈ l, e ∈ entries) →
        FastCommands.Writes (l.flatMap (storeEntry run depth bits))
        (l.flatMap (ContextMap.entryBits run depth bits)) := by
      intro l
      induction l with
      | nil => exact fun _ => FastCommands.Writes.nil
      | cons e l ih =>
        intro hl
        have he := hl e List.mem_cons_self
        rw [List.flatMap_cons, List.flatMap_cons]
        exact (h.storeEntry_writes hrun (hused e he) (hextra e he)).append
          (ih fun e' he' => hl e' (List.mem_cons_of_mem _ he'))
    have hprefix : FastCommands.Writes (if 0 < run then [.write 1 1, .write 4 (run - 1)]
      else [.write 1 0])
        (if run = 0 then ofNat 1 0 else ofNat 1 1 ++ ofNat 4 (run - 1)) := by
      by_cases h0 : run = 0
      · rw [if_pos h0, if_neg (by omega)]
        exact FastCommands.Writes.write (by decide) (by decide)
      · rw [if_neg h0, if_pos (by omega)]
        exact FastCommands.Writes.cons (by decide) (by decide) rfl
          (FastCommands.Writes.write (by decide) (by omega))
    exact ((((storeVarLenUint8_writes (by omega)).append hprefix).append h.writes).append
      (hentries entries fun _ he => he)).append
      (FastCommands.Writes.write (by decide) (by decide))
  · intro m b memory I B p hm hb hspells hend
    have hlength : (entries.flatMap (ContextMap.expand run)).length = values.length := by
      rw [← hvalues, ContextMap.length_inverseMoveToFront]
    rw [← hvalues, ContextMap.length_inverseMoveToFront]
    exact ContextMap.reads_map (by omega) htwo h256 h.valid h.fits h.words
      (fun e he => ⟨hused e he, (h.word_fits (hused e he)).2, hextra e he, hvalue e he⟩) rfl memory
      hm hb hspells hend

/-- A map of one tree. -/
theorem one_map (values : List ℕ) (hvalues : ∀ x ∈ values, x < 1) :
    FastCommands.Writes (storeVarLenUint8 0) (uint8Bits 0) ∧ EndsMap 1 values (uint8Bits 0) := by
  refine ⟨storeVarLenUint8_writes (by decide), fun m b memory I B p hm hb hspells hend => ?_⟩
  obtain ⟨r, hends, hended⟩ := ContextMap.reads_one values.length m b memory hm hb hspells hend
  have hzeros : List.replicate values.length 0 = values :=
    (List.eq_replicate_of_mem fun x hx => Nat.lt_one_iff.1 (hvalues x hx)).symm
  rw [hzeros] at hended
  exact ⟨r, _, hends, hended, fun _ => rfl⟩

theorem one_le_length_expand (run : ℕ) (e : ℕ × ℕ) : 1 ≤ (ContextMap.expand run e).length := by
  unfold ContextMap.expand
  split
  · rw [List.length_replicate]
    exact Nat.le_add_right_of_le (Nat.one_le_two_pow)
  · exact Nat.le_refl 1

/-- A map is stored without a panic, and its reader comes to the end of it. -/
theorem encodeContextMap_stores {arena : ContextMapArena} (harena : arena.Sized) {numClusters : ℕ}
    (h1 : 1 ≤ numClusters)
    (h256 : numClusters ≤ 256) {contextMap : List ℕ} (hvalues : ∀ x ∈ contextMap, x < numClusters)
    (hlen : contextMap.length ≤ 256 * 64)
    (tree : List HuffmanNode) :
    ∃ arena' tree' calls stored, encodeContextMap arena contextMap numClusters tree =
    some (arena', tree', calls) ∧
      FastCommands.Writes calls stored ∧ EndsMap numClusters contextMap stored ∧ arena'.Sized := by
  by_cases hone : numClusters = 1
  · subst hone
    obtain ⟨hwrites, hreads⟩ := one_map contextMap hvalues
    exact ⟨arena, tree, _, _, rfl, hwrites, hreads, harena⟩
  · obtain ⟨words, run, hcode⟩ : ∃ words run,
      runLengthCodeZeros (moveToFrontTransform contextMap) 6 = (words, run) := ⟨_, _, rfl⟩
    obtain ⟨hrun, hwords, hexpand⟩ :=
      expand_runLengthCodeZeros h256 (show 0 < numClusters by omega)
        (moveToFrontTransform_lt hvalues)
    rw [hcode] at hrun hwords hexpand
    dsimp only at hrun hwords hexpand
    have hcount : words.length ≤ 256 * 64 := by
      have hmapped : words.length ≤
          (words.flatMap fun w => ContextMap.expand run (unpackWord w)).length := by
        rw [List.length_flatMap]
        have hsum :=
          List.card_nsmul_le_sum (words.map fun w => (ContextMap.expand run (unpackWord w)).length)
            1 fun x hx => by
          obtain ⟨w, -, rfl⟩ := List.mem_map.1 hx
          exact one_le_length_expand run _
        rw [List.length_map, smul_eq_mul, Nat.mul_one] at hsum
        exact hsum
      rw [hexpand, moveToFrontTransform, length_transformFrom] at hmapped
      exact hmapped.trans hlen
    obtain ⟨histogram, hhistogram⟩ : ∃ histogram : List ℕ, histogram =
        (List.range maxContextMapSymbols).map fun symbol =>
        (words.map fun word => (unpackWord word).1).count symbol := ⟨_, rfl⟩
    have hsymbols : maxContextMapSymbols = 272 := rfl
    have hget : ∀ s < 272, histogram.getD s 0 =
        (words.map fun word => (unpackWord word).1).count s := by
      intro s hs
      rw [hhistogram, List.getD_eq_getElem?_getD, List.getElem?_map, List.getElem?_range (by omega)]
      rfl
    have htotal : (histogram.take (numClusters + run)).sum < 2 ^ 24 := by
      have hsum := List.sum_le_card_nsmul (histogram.take (numClusters + run)) (256 * 64)
        fun x hx => by
        have hx := List.mem_of_mem_take hx
        rw [hhistogram] at hx
        obtain ⟨s, -, rfl⟩ := List.mem_map.1 hx
        exact List.count_le_length.trans (by rw [List.length_map]; exact hcount)
      rw [smul_eq_mul, List.length_take] at hsum
      have : min (numClusters + run) histogram.length * (256 * 64) ≤ 272 * (256 * 64) :=
        Nat.mul_le_mul_right _ (by omega)
      omega
    have hlarge : numClusters + run ≤ Mbrotli.maxAlphabet := by rw [Mbrotli.maxAlphabet]; omega
    obtain ⟨hdepths, hbits⟩ := harena
    obtain ⟨tree', depths, bits, calls, d, hbuild, hstored, hnewDepths, hnewBits⟩ :=
      buildAndStoreHuffmanTree_stores
      (show numClusters + run ≤ numCommandSymbols by rw [numCommandSymbols]; omega) htotal (show 1 ≤
        numClusters + run by omega)
      (Nat.le_refl _) hlarge (show numClusters + run ≤ arena.depths.length by omega)
        (show numClusters + run ≤ arena.bits.length by omega)
      (List.ne_nil_of_length_pos (by omega)) (List.ne_nil_of_length_pos (by omega)) tree
    have hused : ∀ w ∈ words, (unpackWord w).1 ∈ usedSymbols histogram (numClusters + run) :=
      fun w hw => by
      have hlt := (hwords w hw).lt
      refine mem_usedSymbols.2 ⟨hlt, ?_⟩
      rw [hget _ (by omega)]
      have hmem : (unpackWord w).1 ∈ words.map fun word => (unpackWord word).1 :=
        List.mem_map_of_mem hw
      exact (List.count_pos_iff.2 hmem).ne'
    have hentries : ∀ e ∈ words.map unpackWord, ∃ w ∈ words, unpackWord w = e :=
      fun e he => List.mem_map.1 he
    have hspells : ContextMap.inverseMoveToFront
        ((words.map unpackWord).flatMap (ContextMap.expand run)) id = contextMap := by
      rw [List.flatMap_map, hexpand, inverseMoveToFront_transform]
    obtain ⟨hwrites, hreads⟩ := hstored.map rfl hrun (show 2 ≤ numClusters by omega) h256
      (fun e he => by obtain ⟨w, hw, rfl⟩ := hentries e he; exact hused w hw)
      (fun e he => by obtain ⟨w, hw, rfl⟩ := hentries e he; exact (hwords w hw).extra)
      (fun e he => by obtain ⟨w, hw, rfl⟩ := hentries e he; exact (hwords w hw).value)
        hspells
    refine ⟨{ depths, bits }, tree', _, _, ?_, hwrites, hreads, hnewDepths.trans hdepths,
      hnewBits.trans hbits⟩
    rw [encodeContextMap, if_neg hone, hcode]
    dsimp only
    rw [← hhistogram, hbuild, List.flatMap_map]
    rfl

/-- **Context maps survive the writer and the reader.** Whatever tree each context of at most
256 block types is given, the writer stores the map without a panic, and what it stores is
read back as the map, over any calls. -/
theorem context_map_round_trip {arena : ContextMapArena} (harena : arena.Sized) {numClusters : ℕ}
    (h1 : 1 ≤ numClusters)
    (h256 : numClusters ≤ 256) {contextMap : List ℕ} (hvalues : ∀ x ∈ contextMap, x < numClusters)
    (hlen : contextMap.length ≤ 256 * 64)
    (tree : List HuffmanNode) :
    ∃ arena' tree' calls stored, encodeContextMap arena contextMap numClusters tree =
    some (arena', tree', calls) ∧
      FastCommands.Writes calls stored ∧ ReadsMapBack numClusters contextMap stored := by
  obtain ⟨arena', tree', calls, stored, hstore, hwrites, hends, -⟩ :=
    encodeContextMap_stores harena h1 h256 hvalues hlen tree
  exact ⟨arena', tree', calls, stored, hstore, hwrites, hends.readsBack⟩

/-- Two block types of distances that share a tree in all their contexts but one. -/
theorem context_map_round_trip_two : ∃ arena' tree' calls stored,
    encodeContextMap {} [0, 0, 0, 0, 0, 1, 0, 0] 2 [] = some (arena', tree', calls) ∧
      FastCommands.Writes calls stored ∧ ReadsMapBack 2 [0, 0, 0, 0, 0, 1, 0, 0] stored :=
  context_map_round_trip ContextMapArena.sized (by decide) (by decide) (by decide) (by decide) []

/-! ### The map of a stream without contexts -/

/-- The values of the map that gives each block type its own tree. -/
def trivialMap (numTypes contextBits : ℕ) : List ℕ :=
  (List.range numTypes).flatMap fun index => List.replicate (2 ^ contextBits) index

/-- The entries of that map from block type `index` on: a value and a run for each. -/
def trivialEntries (contextBits index : ℕ) : ℕ → List (ℕ × ℕ)
  | 0 => []
  | n + 1 => (if index = 0 then 0 else index + contextBits - 1, 0) ::
      (contextBits - 1, (1 <<< (contextBits - 1)) - 1) ::
    trivialEntries contextBits (index + 1) n

/-- The table of the reader's transform before block type `index`. -/
structure Rotated (symbols : ℕ → ℕ) (index : ℕ) : Prop where
  first : 0 < index → symbols 0 = index - 1
  rest : ∀ i, index ≤ i → symbols i = i

theorem Rotated.zeros {symbols : ℕ → ℕ} {n : ℕ} {rest : List ℕ} :
    ContextMap.inverseMoveToFront (List.replicate n 0 ++ rest) symbols =
      List.replicate n (symbols 0) ++ ContextMap.inverseMoveToFront rest symbols := by
  have hfixed : ContextMap.moveToFront symbols 0 = symbols := by
    funext i
    unfold ContextMap.moveToFront
    split
    · rename_i h0
      rw [h0]
    · rw [if_neg (by omega)]
  induction n with
  | zero => rfl
  | succ n ih =>
    rw [List.replicate_succ, List.cons_append, ContextMap.inverseMoveToFront, hfixed, ih,
      List.replicate_succ, List.cons_append]

theorem Rotated.move {symbols : ℕ → ℕ} {index : ℕ} (h : Rotated symbols index) :
    symbols index = index ∧ Rotated (ContextMap.moveToFront symbols index) (index + 1) := by
  have hself := h.rest index (Nat.le_refl index)
  refine ⟨hself, fun _ => ?_, fun i hi => ?_⟩
  · unfold ContextMap.moveToFront
    rw [if_pos rfl, hself, Nat.add_sub_cancel]
  · unfold ContextMap.moveToFront
    rw [if_neg (by omega), if_neg (by omega)]
    exact h.rest i (by omega)

/-- The entries expand to the map's transform, block type by block type. -/
theorem trivialEntries_spec {contextBits : ℕ} (h2 : 2 ≤ contextBits) (n : ℕ) :
    ∀ {symbols : ℕ → ℕ} {index : ℕ}, Rotated symbols index →
    ContextMap.inverseMoveToFront
    ((trivialEntries contextBits index n).flatMap (ContextMap.expand (contextBits - 1))) symbols =
      (List.range' index n).flatMap fun i => List.replicate (2 ^ contextBits) i := by
  induction n with
  | zero => exact fun _ => rfl
  | succ n ih =>
    intro symbols index h
    have hpos := Nat.two_pow_pos (contextBits - 1)
    have hvalue : ContextMap.expand (contextBits - 1) (if index =
        0 then 0 else index + contextBits - 1, 0) = [index] := by
      unfold ContextMap.expand
      by_cases hz : index = 0
      · rw [if_pos hz, if_neg (fun h => h.1 rfl), if_pos rfl, hz]
      · rw [if_neg hz, if_neg (by dsimp only; omega), if_neg (by dsimp only; omega)]
        congr 1
        dsimp only
        omega
    have hzeros : ContextMap.expand (contextBits - 1)
        (contextBits - 1, (1 <<< (contextBits - 1)) - 1) =
        List.replicate (2 ^ contextBits - 1) 0 := by
      unfold ContextMap.expand
      rw [if_pos ⟨by omega, Nat.le_refl _⟩, Nat.shiftLeft_eq, Nat.one_mul]
      congr 1
      obtain ⟨k, rfl⟩ := Nat.exists_eq_add_of_le' (show 1 ≤ contextBits by omega)
      rw [Nat.add_sub_cancel] at hpos ⊢
      dsimp only
      rw [Nat.pow_succ]
      omega
    obtain ⟨hself, hmoved⟩ := h.move
    have hfront := hmoved.first (Nat.succ_pos index)
    rw [Nat.add_sub_cancel] at hfront
    rw [trivialEntries, List.flatMap_cons, List.flatMap_cons, hvalue, hzeros, List.singleton_append,
      ContextMap.inverseMoveToFront, hself,
      Rotated.zeros, hfront, ih hmoved, List.range'_succ, List.flatMap_cons, ← List.cons_append,
      ← List.replicate_succ]
    congr 2
    have := Nat.two_pow_pos contextBits
    omega

theorem mem_trivialEntries {contextBits : ℕ} (n : ℕ) :
    ∀ {index : ℕ} {e : ℕ × ℕ}, e ∈ trivialEntries contextBits index n →
    (∃ i, index ≤ i ∧ i < index + n ∧ e = (if i = 0 then 0 else i + contextBits - 1, 0)) ∨
    e = (contextBits - 1, (1 <<< (contextBits - 1)) - 1) := by
  induction n with
  | zero => exact fun he => absurd he List.not_mem_nil
  | succ n ih =>
    intro index e he
    rcases List.mem_cons.1 he with rfl | he
    · exact Or.inl ⟨index, Nat.le_refl _, by omega, rfl⟩
    · rcases List.mem_cons.1 he with rfl | he
      · exact Or.inr rfl
      · rcases ih he with ⟨i, h1, h2, h3⟩ | h
        · exact Or.inl ⟨i, by omega, by omega, h3⟩
        · exact Or.inr h

theorem flatMap_trivialEntries (contextBits : ℕ) (depths bits : List ℕ) (n : ℕ)
    (h2 : 2 ≤ contextBits) : ∀ index,
    (trivialEntries contextBits index n).flatMap (storeEntry (contextBits - 1) depths bits) =
      (List.range' index n).flatMap fun index =>
        [.write (depths.getD (if index = 0 then 0 else index + contextBits - 1) 0)
          (bits.getD (if index = 0 then 0 else index + contextBits - 1) 0),
          .write (depths.getD (contextBits - 1) 0) (bits.getD (contextBits - 1) 0),
          .write (contextBits - 1) ((1 <<< (contextBits - 1)) - 1)] := by
  induction n with
  | zero => exact fun _ => rfl
  | succ n ih =>
    intro index
    have hvalue : storeEntry (contextBits - 1) depths bits (if index =
      0 then 0 else index + contextBits - 1, 0) =
        [.write (depths.getD (if index = 0 then 0 else index + contextBits - 1) 0)
          (bits.getD (if index = 0 then 0 else index + contextBits - 1) 0)] := by
      unfold storeEntry
      by_cases hz : index = 0
      · rw [if_pos hz, if_neg fun h => absurd h.1 (Nat.lt_irrefl 0)]
      · rw [if_neg hz, if_neg (by dsimp only; omega)]
    have hzeros : storeEntry (contextBits - 1) depths bits
      (contextBits - 1, (1 <<< (contextBits - 1)) - 1) =
        [.write (depths.getD (contextBits - 1) 0) (bits.getD (contextBits - 1) 0),
          .write (contextBits - 1) ((1 <<< (contextBits - 1)) - 1)] := by
      unfold storeEntry
      rw [if_pos ⟨by dsimp only; omega, Nat.le_refl _⟩]
    rw [trivialEntries, List.flatMap_cons, List.flatMap_cons, ih (index + 1), List.range'_succ,
      List.flatMap_cons, hvalue, hzeros]
    rfl

/-- The trivial map likewise. -/
theorem storeTrivialContextMap_stores {arena : ContextMapArena} (harena : arena.Sized)
    {numTypes contextBits : ℕ} (h1 : 1 ≤ numTypes)
    (h256 : numTypes ≤ 256) (h2 : 2 ≤ contextBits) (h6 : contextBits ≤ 6)
    (tree : List HuffmanNode) :
    ∃ arena' tree' calls stored, storeTrivialContextMap arena numTypes contextBits tree =
    some (arena', tree', calls) ∧
      FastCommands.Writes calls stored ∧ EndsMap numTypes (trivialMap numTypes contextBits) stored ∧
      arena'.Sized := by
  by_cases hone : numTypes ≤ 1
  · obtain rfl : numTypes = 1 := by omega
    obtain ⟨hwrites, hreads⟩ := one_map (trivialMap 1 contextBits) fun x hx => by
      obtain ⟨i, hi, hx⟩ := List.mem_flatMap.1 hx
      rw [List.eq_of_mem_replicate hx]
      exact List.mem_range.1 hi
    exact ⟨arena, tree, _, _, rfl, hwrites, hreads, harena⟩
  · obtain ⟨histogram, hhistogram⟩ : ∃ histogram : List ℕ,
      histogram = (List.range (numTypes + (contextBits - 1))).map fun symbol =>
      if contextBits ≤ symbol then 1 else if symbol = 0 then 1 else if symbol = contextBits - 1
        then numTypes else 0 := ⟨_, rfl⟩
    have hget : ∀ s < numTypes + (contextBits - 1), histogram.getD s 0 =
        if contextBits ≤ s then 1 else if s = 0 then 1 else if s = contextBits - 1
        then numTypes else 0 := by
      intro s hs
      rw [hhistogram, List.getD_eq_getElem?_getD, List.getElem?_map, List.getElem?_range hs]
      rfl
    have htotal : (histogram.take (numTypes + (contextBits - 1))).sum < 2 ^ 24 := by
      have hsum := List.sum_le_card_nsmul (histogram.take (numTypes + (contextBits - 1))) 256
        fun x hx => by
        have hx := List.mem_of_mem_take hx
        rw [hhistogram] at hx
        obtain ⟨s, -, rfl⟩ := List.mem_map.1 hx
        split
        · decide
        split
        · decide
        split
        · exact h256
        · decide
      rw [smul_eq_mul, List.length_take] at hsum
      have : min (numTypes + (contextBits - 1)) histogram.length * 256 ≤ 272 * 256 :=
        Nat.mul_le_mul_right _ (by omega)
      omega
    obtain ⟨hdepths, hbits⟩ := harena
    have hsymbols : maxContextMapSymbols = 272 := rfl
    have hlarge : numTypes + (contextBits - 1) ≤ Mbrotli.maxAlphabet := by
      rw [Mbrotli.maxAlphabet]; omega
    obtain ⟨tree', depths, bits, calls, d, hbuild, hstored, hnewDepths, hnewBits⟩ :=
      buildAndStoreHuffmanTree_stores
        (show numTypes + (contextBits - 1) ≤
        numCommandSymbols by rw [numCommandSymbols]; omega) htotal
      (show 1 ≤ numTypes + (contextBits - 1) by omega)
      (Nat.le_refl _) hlarge (show _ ≤ arena.depths.length by omega) (show _ ≤
        arena.bits.length by omega)
      (List.ne_nil_of_length_pos (by omega)) (List.ne_nil_of_length_pos (by omega)) tree
    have hpos := Nat.two_pow_pos (contextBits - 1)
    have hshift : 1 <<< (contextBits - 1) = 2 ^ (contextBits - 1) := by
      rw [Nat.shiftLeft_eq, Nat.one_mul]
    have hsymbol : ∀ e ∈ trivialEntries contextBits 0 numTypes,
      e.1 ∈ usedSymbols histogram (numTypes + (contextBits - 1)) ∧
        (e.1 ≠ 0 → e.1 ≤ contextBits - 1 → e.2 < 2 ^ e.1) ∧
        ∀ v ∈ ContextMap.expand (contextBits - 1) e, v < numTypes := by
      intro e he
      rcases mem_trivialEntries numTypes he with ⟨i, -, hi, rfl⟩ | rfl
      · refine ⟨mem_usedSymbols.2 ?_, fun h0 hle => ?_, fun v hv => ?_⟩
        · dsimp only
          split
          · rename_i h0
            refine ⟨by omega, ?_⟩
            rw [hget 0 (by omega), if_neg (by omega), if_pos rfl]
            decide
          · rename_i h0
            refine ⟨by omega, ?_⟩
            rw [hget _ (by omega), if_pos (by omega)]
            decide
        · dsimp only at h0 hle
          split at h0
          · exact absurd rfl h0
          · rename_i hz
            rw [if_neg hz] at hle
            omega
        · unfold ContextMap.expand at hv
          dsimp only at hv
          by_cases hz : i = 0
          · rw [if_pos hz, if_neg (fun h => h.1 rfl), if_pos rfl, List.mem_singleton] at hv
            omega
          · rw [if_neg hz, if_neg (by omega), if_neg (by omega), List.mem_singleton] at hv
            omega
      · refine ⟨mem_usedSymbols.2 ⟨by dsimp only; omega, ?_⟩, fun _ _ => by
          dsimp only; omega, fun v hv => ?_⟩
        · dsimp only
          rw [hget _ (by omega), if_neg (by omega), if_neg (by omega), if_pos rfl]
          omega
        · unfold ContextMap.expand at hv
          rw [if_pos ⟨by dsimp only; omega, Nat.le_refl _⟩] at hv
          rw [List.eq_of_mem_replicate hv]
          omega
    have hstart : Rotated id 0 := ⟨fun h => absurd h (Nat.lt_irrefl 0), fun _ _ => rfl⟩
    have hspells := trivialEntries_spec h2 numTypes hstart
    rw [← List.range_eq_range'] at hspells
    obtain ⟨hwrites, hreads⟩ :=
      hstored.map rfl (show contextBits - 1 ≤ 6 by omega) (show 2 ≤ numTypes by omega) h256
        (fun e he => (hsymbol e he).1) (fun e he => (hsymbol e he).2.1)
        (fun e he => (hsymbol e he).2.2) hspells
    rw [if_pos (show 0 < contextBits - 1 by omega),
      flatMap_trivialEntries contextBits depths bits numTypes h2, ← List.range_eq_range'] at hwrites
    refine ⟨{ depths, bits }, tree', _, _, ?_, hwrites, hreads, hnewDepths.trans hdepths,
      hnewBits.trans hbits⟩
    rw [storeTrivialContextMap, if_neg hone]
    dsimp only
    rw [← hhistogram, hbuild]
    rfl

/-- **The map of a stream without contexts survives too**: it gives each block type the tree of
its number in all its contexts. -/
theorem trivial_map_round_trip {arena : ContextMapArena} (harena : arena.Sized)
    {numTypes contextBits : ℕ} (h1 : 1 ≤ numTypes)
    (h256 : numTypes ≤ 256) (h2 : 2 ≤ contextBits) (h6 : contextBits ≤ 6)
    (tree : List HuffmanNode) :
    ∃ arena' tree' calls stored, storeTrivialContextMap arena numTypes contextBits tree =
    some (arena', tree', calls) ∧
      FastCommands.Writes calls stored ∧
      ReadsMapBack numTypes (trivialMap numTypes contextBits) stored := by
  obtain ⟨arena', tree', calls, stored, hstore, hwrites, hends, -⟩ :=
    storeTrivialContextMap_stores harena h1 h256 h2 h6 tree
  exact ⟨arena', tree', calls, stored, hstore, hwrites, hends.readsBack⟩

theorem trivial_map_round_trip_three :
    ∃ arena' tree' calls stored, storeTrivialContextMap {} 3 6 [] = some (arena', tree', calls) ∧
    FastCommands.Writes calls stored ∧ ReadsMapBack 3 (trivialMap 3 6) stored :=
  trivial_map_round_trip ContextMapArena.sized (by decide) (by decide) (by decide) (by decide) []

end Mbrotli.Compressor
