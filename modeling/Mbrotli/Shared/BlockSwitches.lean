/-
# Block switches through writer and reader

The writer codes a block's type by the two before it and its length by a prefix and the rest.
What `buildAndStoreBlockSplitCode` stores, the header reader reads back: the number of types
and the first block's length, with codes that find every later switch
(`block_header_round_trip`).

`Follows` is the simulation between the writer of a stream of blocks and its reader: both are
in a block of the same type with the same number of symbols to go, and what the writer calls
its last two types are the reader's current and previous one. A stored symbol keeps it
(`Follows.store`), so the reader takes every symbol of the stream for what it is, wherever
the bits of other streams stand in between (`switched_symbols`).

Key definitions: `BlockEncoder`, `ReadsHeaderBack`, `Follows`, `TakesSymbols`.
Key theorems: `blockLengthCode_spec`, `block_header_round_trip`, `Follows.store`,
`switched_symbols`.
-/
import Mbrotli.Shared.ContextMapWriter
import Mbrotli.Decompressor.Core.BlockReads

namespace Mbrotli.Compressor.Bitstream
open BitString Resumable

/-! ### The length of a block -/

/-- The loop from a code on. -/
def blockLengthPrefixFrom (len : ℕ) : ℕ → ℕ → ℕ
  | 0, code => code
  | fuel + 1, code =>
    if code < numBlockLenSymbols - 1 ∧ (prefixCodeRanges.getD (code + 1) (0, 0)).1 ≤ len
    then blockLengthPrefixFrom len fuel (code + 1)
    else code

/-- The prefix code of a block length. -/
def blockLengthPrefixCode (len : ℕ) : ℕ :=
  blockLengthPrefixFrom len numBlockLenSymbols (if 177 ≤ len then (if 753 ≤ len then 20 else 14)
    else if 41 ≤ len then 7 else 0)

/-- A block length's prefix code, the number of its extra bits, and these. -/
def blockLengthCode (len : ℕ) : ℕ × ℕ × ℕ :=
  let code := blockLengthPrefixCode len
  let (offset, nbits) := prefixCodeRanges.getD code (0, 0)
  (code, nbits, len - offset)

/-- The ranges follow on each other. -/
theorem ranges_follow {code : ℕ} (h : code < 25) :
    (prefixCodeRanges.getD (code + 1) (0, 0)).1 = (prefixCodeRanges.getD code (0, 0)).1 + 2 ^
    (prefixCodeRanges.getD code (0, 0)).2 := by
  have hall : ∀ c < 25, (prefixCodeRanges.getD (c + 1) (0, 0)).1 =
      (prefixCodeRanges.getD c (0, 0)).1 + 2 ^ (prefixCodeRanges.getD c (0, 0)).2 := by
    decide
  exact hall code h

theorem blockLengthPrefixFrom_spec {len : ℕ} (hlen : len < 16625 + 2 ^ 24) (fuel : ℕ) :
    ∀ {code : ℕ}, code < 26 → 26 ≤ code + fuel →
    (prefixCodeRanges.getD code (0, 0)).1 ≤ len →
    blockLengthPrefixFrom len fuel code < 26 ∧
    (prefixCodeRanges.getD (blockLengthPrefixFrom len fuel code) (0, 0)).1 ≤ len ∧
      len < (prefixCodeRanges.getD (blockLengthPrefixFrom len fuel code) (0, 0)).1 +
        2 ^ (prefixCodeRanges.getD (blockLengthPrefixFrom len fuel code) (0, 0)).2 := by
  induction fuel with
  | zero => intro code h26 hfuel; omega
  | succ fuel ih =>
    intro code h26 hfuel hle
    rw [blockLengthPrefixFrom]
    have hlast : numBlockLenSymbols - 1 = 25 := rfl
    by_cases h : code < numBlockLenSymbols - 1 ∧ (prefixCodeRanges.getD (code + 1) (0, 0)).1 ≤ len
    · rw [if_pos h]
      exact ih (by omega) (by omega) h.2
    · rw [if_neg h]
      refine ⟨h26, hle, ?_⟩
      by_cases h25 : code = 25
      · subst h25
        exact hlen
      · rw [← ranges_follow (show code < 25 by omega)]
        by_contra hge
        exact h ⟨by omega, Nat.not_lt.1 hge⟩

/-- **Every length has a code, and the code gives it back.** -/
theorem blockLengthCode_spec {len : ℕ} (h1 : 1 ≤ len) (hlen : len < 16625 + 2 ^ 24) :
    (blockLengthCode len).1 < 26 ∧ (blockLengthCode len).2.1 =
    (prefixCodeRanges.getD (blockLengthCode len).1 (0, 0)).2 ∧
      (blockLengthCode len).2.2 < 2 ^ (blockLengthCode len).2.1 ∧
      (prefixCodeRanges.getD (blockLengthCode len).1 (0, 0)).1 + (blockLengthCode len).2.2 =
      len := by
  have hspec : ∀ {code : ℕ}, code < 26 → (prefixCodeRanges.getD code (0, 0)).1 ≤ len → _ :=
    fun h26 hle => blockLengthPrefixFrom_spec hlen numBlockLenSymbols h26 (Nat.le_add_left 26 _) hle
  have hstart : (if 177 ≤ len then (if 753 ≤ len then 20 else 14) else if 41 ≤ len then 7 else 0) <
    26 ∧
      (prefixCodeRanges.getD (if 177 ≤ len then (if 753 ≤ len then 20 else 14) else if 41 ≤ len
        then 7 else 0) (0, 0)).1 ≤ len := by
    split
    · split
      · exact ⟨by decide, by assumption⟩
      · exact ⟨by decide, by assumption⟩
    · split
      · exact ⟨by decide, by assumption⟩
      · exact ⟨by decide, h1⟩
  obtain ⟨hcode, hle, hlt⟩ := hspec hstart.1 hstart.2
  refine ⟨hcode, rfl, ?_, ?_⟩
  · show len - _ < _
    exact Nat.sub_lt_left_of_lt_add hle hlt
  · show _ + (len - _) = len
    exact Nat.add_sub_cancel' hle

/-! ### The writer -/

/-- Block-type symbols a meta-block may use. -/
def maxBlockTypeSymbols : ℕ := 258

/-- The two most recent block types. -/
structure BlockTypeCodeCalculator where
  lastType : ℕ := 1
  secondLastType : ℕ := 0

/-- The code for switching to `blockType`. -/
def BlockTypeCodeCalculator.next (c : BlockTypeCodeCalculator) (blockType : ℕ) :
    ℕ × BlockTypeCodeCalculator :=
  let typeCode := if blockType = c.lastType + 1 then 1 else if blockType = c.secondLastType then 0
    else blockType + 2
  (typeCode, { lastType := blockType, secondLastType := c.lastType })

/-- Prefix codes for block types and block lengths. -/
structure BlockSplitCode where
  calculator : BlockTypeCodeCalculator := {}
  typeDepths : List ℕ := List.replicate maxBlockTypeSymbols 0
  typeBits : List ℕ := List.replicate maxBlockTypeSymbols 0
  lengthDepths : List ℕ := List.replicate numBlockLenSymbols 0
  lengthBits : List ℕ := List.replicate numBlockLenSymbols 0

/-- Writes one block switch. -/
def BlockSplitCode.storeBlockSwitch (code : BlockSplitCode) (blockLen blockType : ℕ)
    (isFirstBlock : Bool) : BlockSplitCode × List BitOp :=
  let (typecode, calculator) := code.calculator.next blockType
  let (lencode, nextra, extra) := blockLengthCode blockLen
  ({ code with calculator },
    (if isFirstBlock then []
      else [.write (code.typeDepths.getD typecode 0) (code.typeBits.getD typecode 0)]) ++
    [.write (code.lengthDepths.getD lencode 0) (code.lengthBits.getD lencode 0),
      .write nextra extra])

/-- The block boundaries and types of one symbol stream: a type and a length for each block. -/
structure BlockSplit where
  numTypes : ℕ
  types : List ℕ
  lengths : List ℕ

/-- The codes of a list of types. -/
def typeCodes : BlockTypeCodeCalculator → List ℕ → List ℕ
  | _, [] => []
  | c, blockType :: rest => (c.next blockType).1 :: typeCodes (c.next blockType).2 rest

/-- Builds and writes the block-type and block-length codes of a split. The first block's type
is not counted, since it is not stored. -/
def buildAndStoreBlockSplitCode (split : BlockSplit) (tree : List HuffmanNode)
    (code : BlockSplitCode) :
    Option (List HuffmanNode × BlockSplitCode × List BitOp) :=
  let numTypes := split.numTypes
  let typeHisto := (List.range maxBlockTypeSymbols).map fun symbol =>
    ((typeCodes {} split.types).drop 1).count symbol
  let lengthHisto := (List.range numBlockLenSymbols).map fun symbol =>
    (split.lengths.map blockLengthPrefixCode).count symbol
  let count := storeVarLenUint8 (numTypes - 1)
  if 1 < numTypes then do
    let (tree, typeDepths, typeBits, typeCalls) ← buildAndStoreHuffmanTree typeHisto (numTypes + 2)
      (numTypes + 2) tree code.typeDepths code.typeBits
    let (tree, lengthDepths, lengthBits, lengthCalls) ←
      buildAndStoreHuffmanTree lengthHisto numBlockLenSymbols numBlockLenSymbols tree
      code.lengthDepths code.lengthBits
    let length ← split.lengths[0]?
    let blockType ← split.types[0]?
    let (code, calls) :=
      { code with typeDepths, typeBits, lengthDepths, lengthBits }.storeBlockSwitch length
      blockType true
    return (tree, code, count ++ typeCalls ++ lengthCalls ++ calls)
  else some (tree, code, count)

/-! ### The header round trip -/

/-- A split the writer is given: as many lengths as types, the first type zero, lengths of a
meta-block, and no more than one block when there is but one type. -/
structure BlockSplit.Valid (split : BlockSplit) : Prop where
  one : 1 ≤ split.numTypes
  most : split.numTypes ≤ 256
  same : split.lengths.length = split.types.length
  single : split.numTypes = 1 → split.types.length ≤ 1
  first : split.numTypes ≠ 1 → split.types[0]? = some 0
  types : ∀ t ∈ split.types, t < split.numTypes
  lengths : ∀ len ∈ split.lengths, 1 ≤ len ∧ len ≤ 2 ^ 24
  blocks : split.types.length < 2 ^ 24

/-- The calculator after the first block. -/
def afterFirst : BlockTypeCodeCalculator := { lastType := 0, secondLastType := 1 }

/-- What the writer can still store with its codes: the switches to come. -/
structure Covers (code : BlockSplitCode) (numTypes : ℕ)
    (types lengths usedTypes usedLengths : List ℕ) : Prop where
  typesUsed : ∀ s ∈ typeCodes code.calculator types, s ∈ usedTypes
  lengthsUsed : ∀ len ∈ lengths, blockLengthPrefixCode len ∈ usedLengths
  bound : ∀ t ∈ types, t < numTypes
  range : ∀ len ∈ lengths, 1 ≤ len ∧ len ≤ 2 ^ 24
  typesFit : ∀ s ∈ usedTypes, code.typeDepths.getD s 0 ≤ maxBitsPerWrite ∧
    code.typeBits.getD s 0 < 2 ^ code.typeDepths.getD s 0
  lengthsFit : ∀ s ∈ usedLengths, code.lengthDepths.getD s 0 ≤ maxBitsPerWrite ∧
    code.lengthBits.getD s 0 < 2 ^ code.lengthDepths.getD s 0

/-- The bits `stored` are read back as a header with the first block's length: wherever they
stand, and however the stream is split into calls. The reader's codes then find the patterns
of the writer's `code`, unless the memory limit refuses them room. -/
def ReadsHeaderBack (split : BlockSplit) (code : BlockSplitCode) (usedTypes usedLengths : List ℕ)
    (stored : List Bool) : Prop :=
  ∀ (b : Mbrotli.Block) (builder : Builder) (memory : Memory) (I : List UInt8) (p total : ℕ)
    (limit : Option ℕ) (reservoir : Bits)
    (pieces : List (List UInt8)),
    b.reset = b → builder.stage = .start → I.length ≤ u64Max → Mbrotli.Cursor I p reservoir total →
    total ≤ I.length →
    (∀ l, limit = some l → total ≤ l) → pieces ≠ [] → pieces.flatten = I.drop total →
    BitString.Spells I p stored →
    p + stored.length ≤ 8 * Builder.allowed limit I.length →
    ∃ n reservoir' total' b' builder' memory',
      (∃ l, memory.limit = some l ∧ ∀ fuel, n ≤ fuel →
        calls Mbrotli.Block.rounds fuel limit pieces (b, builder, memory) reservoir total =
        (.fault (.error (.memoryLimitExceeded l)), (b', builder', memory'), reservoir', total')) ∨
      ((∀ fuel, n ≤ fuel → calls Mbrotli.Block.rounds fuel limit pieces (b, builder,
        memory) reservoir total =
          (.done (), (b', builder', memory'), reservoir', total')) ∧
        Mbrotli.Cursor I (p + stored.length) reservoir' total' ∧
        b'.stage = .ready ∧ b'.count = split.numTypes ∧ b'.current = 0 ∧ b'.previous = 1 ∧
        b'.remaining = (if split.numTypes = 1 then u64Max else split.lengths.getD 0 0) ∧
        (split.numTypes ≠ 1 → b'.types.Finds usedTypes code.typeDepths code.typeBits ∧
          b'.lengths.Finds usedLengths code.lengthDepths code.lengthBits) ∧
        builder'.stage = .start ∧ memory'.limit = memory.limit)

/-- The same, field by field: the header's reader comes to the end of `stored`, or the memory
limit stops it. -/
def EndsHeader (split : BlockSplit) (code : BlockSplitCode) (usedTypes usedLengths : List ℕ)
    (stored : List Bool) : Prop :=
  ∀ (b : Mbrotli.Block) (builder : Builder) (memory : Memory) (I : List UInt8) (B p : ℕ),
    b.reset = b → builder.stage = .start →
    BitString.Spells I p stored → p + stored.length ≤ 8 * B →
    ∃ r q, Ends Mbrotli.Block.rounds I B (b, builder, memory) p r q ∧
      Mbrotli.Block.Opened memory split.numTypes (if split.numTypes = 1 then u64Max
        else split.lengths.getD 0 0) usedTypes code.typeDepths code.typeBits
        usedLengths code.lengthDepths code.lengthBits r ∧ ((∃ s, r = .ok s) → q = p + stored.length)

theorem EndsHeader.readsBack {split : BlockSplit} {code : BlockSplitCode}
    {usedTypes usedLengths : List ℕ} {stored : List Bool}
    (h : EndsHeader split code usedTypes usedLengths stored) :
    ReadsHeaderBack split code usedTypes usedLengths stored := by
  intro b builder memory I p total limit reservoir pieces hb hstart hI hc ht hl hne
    hpieces hspells hend
  obtain ⟨r, q, hends, hopened, hq⟩ := h b builder memory I _ p hb hstart hspells hend
  obtain ⟨n, reservoir', total', hcalls, hcursor⟩ :=
    calls_of_ends hI pieces hends hc ht hl hpieces (Or.inl hne)
  rcases r with ⟨e, b', builder', memory'⟩ | ⟨b', builder', memory'⟩
  · obtain ⟨l, hl, rfl⟩ := hopened
    exact ⟨n, reservoir', total', b', builder', memory', Or.inl ⟨l, hl, hcalls⟩⟩
  · rw [hq ⟨_, rfl⟩] at hcursor
    exact ⟨n, reservoir', total', b', builder', memory', Or.inr ⟨hcalls, hcursor, hopened⟩⟩

theorem typeCodes_lt {numTypes : ℕ} (types : List ℕ) :
    ∀ {c : BlockTypeCodeCalculator}, (∀ t ∈ types, t < numTypes) →
    ∀ s ∈ typeCodes c types, s < numTypes + 2 := by
  induction types with
  | nil => exact fun _ s hs => absurd hs List.not_mem_nil
  | cons t types ih =>
    intro c h s hs
    have ht := h t List.mem_cons_self
    rcases List.mem_cons.1 hs with rfl | hs
    · unfold BlockTypeCodeCalculator.next
      dsimp only
      split
      · omega
      split
      · omega
      · omega
    · exact ih (fun u hu => h u (List.mem_cons_of_mem _ hu)) s hs

theorem length_typeCodes (types : List ℕ) (c : BlockTypeCodeCalculator) :
    (typeCodes c types).length = types.length := by
  induction types generalizing c with
  | nil => rfl
  | cons t types ih => rw [typeCodes, List.length_cons, ih, List.length_cons]

/-- A histogram of symbols: those that occur are used. -/
theorem mem_histogram {n alphabet : ℕ} {l : List ℕ} (halpha : alphabet ≤ n) {s : ℕ} (hs : s ∈ l)
    (hlt : s < alphabet) :
    s ∈ usedSymbols ((List.range n).map fun symbol => l.count symbol) alphabet := by
  refine mem_usedSymbols.2 ⟨hlt, ?_⟩
  rw [List.getD_eq_getElem?_getD, List.getElem?_map, List.getElem?_range (by omega)]
  exact (List.count_pos_iff.2 hs).ne'

theorem countP_lt_succ (n : ℕ) (l : List ℕ) :
    (l.countP fun x => x < n) + l.count n = l.countP fun x => x < n + 1 := by
  induction l with
  | nil => rfl
  | cons x l ih =>
    rw [List.countP_cons, List.countP_cons, List.count_cons, ← ih]
    simp only [decide_eq_true_eq, beq_iff_eq]
    split <;> split <;> split <;> omega

theorem sum_counts (n : ℕ) (l : List ℕ) :
    ((List.range n).map fun symbol => l.count symbol).sum = l.countP fun x => x < n := by
  induction n with
  | zero => simp
  | succ n ih =>
    rw [List.range_succ, List.map_append, List.sum_append, ih, ← countP_lt_succ]
    simp

theorem sum_histogram {n alphabet : ℕ} {l : List ℕ} (hl : l.length < 2 ^ 24) :
    (((List.range n).map fun symbol => l.count symbol).take alphabet).sum < 2 ^ 24 := by
  have htake :=
    (List.take_sublist alphabet ((List.range n).map fun symbol => l.count symbol)).sum_le_sum
      fun _ _ => Nat.zero_le _
  rw [sum_counts] at htake
  exact (htake.trans List.countP_le_length).trans_lt hl

/-- A split's codes are stored, and cover every switch to come. -/
theorem buildAndStoreBlockSplitCode_stores {split : BlockSplit} (h : split.Valid)
    (tree : List HuffmanNode) :
    ∃ tree' code calls stored usedTypes usedLengths, buildAndStoreBlockSplitCode split tree {} =
    some (tree', code, calls) ∧
      FastCommands.Writes calls stored ∧ EndsHeader split code usedTypes usedLengths stored ∧
      (split.numTypes ≠ 1 → code.calculator = afterFirst ∧
        Covers code split.numTypes (split.types.drop 1) (split.lengths.drop 1) usedTypes
        usedLengths) := by
  have h1 := h.one
  have h256 := h.most
  by_cases hone : split.numTypes = 1
  · refine ⟨tree, {}, _, uint8Bits 0, [], [], ?_, storeVarLenUint8_writes (by decide), ?_,
      fun hne => absurd hone hne⟩
    · rw [buildAndStoreBlockSplitCode]
      dsimp only
      rw [if_neg (by omega), hone]
    · intro b builder memory I B p hb hstart hspells hend
      have hstage : b.stage = .typeCount := by rw [← hb]; rfl
      have hcurrent : b.current = 0 := by rw [← hb]; rfl
      have hprevious : b.previous = 1 := by rw [← hb]; rfl
      have hremaining : b.remaining = u64Max := by rw [← hb]; rfl
      obtain ⟨r, hends, hopened⟩ :=
        Mbrotli.Block.reads_one memory hstage hcurrent hprevious hstart hspells hend
      rw [hone, if_pos rfl, ← hremaining]
      exact ⟨r, _, hends, hopened, fun _ => rfl⟩
  · obtain ⟨types, htypes⟩ : ∃ types, split.types = 0 :: types := by
      have hfirst := h.first hone
      cases hs : split.types with
      | nil => rw [hs] at hfirst; cases hfirst
      | cons t types =>
        rw [hs] at hfirst
        obtain rfl : t = 0 := Option.some.inj hfirst
        exact ⟨types, rfl⟩
    obtain ⟨length, lengths, hlengths⟩ : ∃ length lengths, split.lengths = length :: lengths := by
      cases hs : split.lengths with
      | nil =>
        have hsame := h.same
        rw [hs, htypes] at hsame
        cases hsame
      | cons length lengths => exact ⟨length, lengths, rfl⟩
    have hblocks := h.blocks
    have hsame := h.same
    rw [htypes, List.length_cons] at hblocks hsame
    have hcodes : (typeCodes {} split.types).drop 1 = typeCodes afterFirst types := by
      rw [htypes]
      rfl
    have hbound : ∀ t ∈ types, t < split.numTypes :=
      fun t ht => h.types t (htypes ▸ List.mem_cons_of_mem _ ht)
    have hrange : ∀ len ∈ split.lengths, 1 ≤ len ∧ len < 16625 + 2 ^ 24 := fun len hlen => by
      have := h.lengths len hlen
      omega
    have hsymbols : maxBlockTypeSymbols = 258 := rfl
    have hsymbols' : numBlockLenSymbols = 26 := rfl
    have hlarge : split.numTypes + 2 ≤ Mbrotli.maxAlphabet := by rw [Mbrotli.maxAlphabet]; omega
    obtain ⟨tree₁, typeDepths, typeBits, typeCalls, d₁, hbuild₁, hstored₁, -⟩ :=
      buildAndStoreHuffmanTree_stores
        (show split.numTypes + 2 ≤ numCommandSymbols by rw [numCommandSymbols]; omega)
        (show (((List.range maxBlockTypeSymbols).map fun symbol =>
        ((typeCodes {} split.types).drop 1).count symbol).take (split.numTypes + 2)).sum < 2 ^ 24
        from sum_histogram (by rw [hcodes, length_typeCodes]; omega)) (show 1 ≤
          split.numTypes + 2 by omega) (Nat.le_refl _) hlarge
      (show split.numTypes + 2 ≤
        (List.replicate maxBlockTypeSymbols 0).length by rw [List.length_replicate]; omega)
      (show split.numTypes + 2 ≤
        (List.replicate maxBlockTypeSymbols 0).length by rw [List.length_replicate]; omega)
      (List.ne_nil_of_length_pos (by rw [List.length_replicate]; decide))
        (List.ne_nil_of_length_pos (by rw [List.length_replicate]; decide)) tree
    obtain ⟨tree₂, lengthDepths, lengthBits, lengthCalls, d₂, hbuild₂, hstored₂, -⟩ :=
      buildAndStoreHuffmanTree_stores
        (show numBlockLenSymbols ≤ numCommandSymbols by decide)
        (show (((List.range numBlockLenSymbols).map fun symbol =>
        (split.lengths.map blockLengthPrefixCode).count symbol).take numBlockLenSymbols).sum <
        2 ^ 24
        from sum_histogram (by rw [List.length_map]; omega)) (by decide) (Nat.le_refl _) (by decide)
      (show numBlockLenSymbols ≤
        (List.replicate numBlockLenSymbols 0).length by rw [List.length_replicate])
      (show numBlockLenSymbols ≤
        (List.replicate numBlockLenSymbols 0).length by rw [List.length_replicate])
      (List.ne_nil_of_length_pos (by rw [List.length_replicate]; decide))
        (List.ne_nil_of_length_pos (by rw [List.length_replicate]; decide)) tree₁
    have husedLengths : ∀ len ∈ split.lengths, blockLengthPrefixCode len ∈
        usedSymbols ((List.range numBlockLenSymbols).map fun symbol =>
        (split.lengths.map blockLengthPrefixCode).count symbol) numBlockLenSymbols :=
      fun len hlen => mem_histogram (Nat.le_refl _) (List.mem_map_of_mem hlen)
        (blockLengthCode_spec (hrange len hlen).1 (hrange len hlen).2).1
    have hmem : length ∈ split.lengths := hlengths ▸ List.mem_cons_self
    obtain ⟨hcode, hwidth, hextra, hvalue⟩ :=
      blockLengthCode_spec (hrange length hmem).1 (hrange length hmem).2
    rw [hwidth] at hextra
    obtain ⟨hlengthWidth, hlengthFits⟩ := hstored₂.word_fits (husedLengths length hmem)
    have hwidth24 := Mbrotli.Block.width_le (blockLengthCode length).1
    obtain ⟨calls, hcalls⟩ : ∃ calls, calls = storeVarLenUint8 (split.numTypes - 1) ++ typeCalls ++
      lengthCalls ++
        [.write (lengthDepths.getD (blockLengthCode length).1 0)
          (lengthBits.getD (blockLengthCode length).1 0),
          .write (blockLengthCode length).2.1 (blockLengthCode length).2.2] := ⟨_, rfl⟩
    refine ⟨tree₂, { calculator := afterFirst, typeDepths, typeBits, lengthDepths, lengthBits },
      calls,
      Mbrotli.Block.headerBits split.numTypes d₁ d₂ lengthDepths lengthBits
      (blockLengthCode length).1 (blockLengthCode length).2.2,
      usedSymbols ((List.range maxBlockTypeSymbols).map fun symbol =>
      ((typeCodes {} split.types).drop 1).count symbol) (split.numTypes + 2),
      usedSymbols ((List.range numBlockLenSymbols).map fun symbol =>
      (split.lengths.map blockLengthPrefixCode).count symbol) numBlockLenSymbols,
      ?_, ?_, ?_, fun _ => ⟨rfl, ?_⟩⟩
    · rw [buildAndStoreBlockSplitCode]
      dsimp only
      rw [if_pos (by omega), hbuild₁]
      simp only [Option.bind_eq_bind, Option.bind_some]
      rw [hbuild₂, hcalls, hlengths, htypes]
      rfl
    · rw [hcalls]
      refine (((storeVarLenUint8_writes (show split.numTypes - 1 < 256 by omega)).append
        hstored₁.writes).append hstored₂.writes).append ?_
      rw [hwidth]
      exact FastCommands.Writes.cons hlengthWidth hlengthFits rfl
        (FastCommands.Writes.write (hwidth24.trans (by decide)) hextra)
    · intro b builder memory I B p hb hstart hspells hend
      have hstage : b.stage = .typeCount := by rw [← hb]; rfl
      have hcurrent : b.current = 0 := by rw [← hb]; rfl
      have hprevious : b.previous = 1 := by rw [← hb]; rfl
      have hremaining : (if split.numTypes = 1 then u64Max else split.lengths.getD 0 0) =
          (prefixCodeRanges.getD (blockLengthCode length).1 (0, 0)).1 +
          (blockLengthCode length).2.2 := by
        rw [if_neg hone, hvalue, hlengths]
        rfl
      rw [hremaining]
      exact Mbrotli.Block.reads_header (show 2 ≤ split.numTypes by omega) h256 hstored₁.valid
        hstored₁.fits hstored₁.words hstored₂.valid hstored₂.fits
        hstored₂.words (husedLengths length hmem) hlengthFits hextra memory hstage hcurrent
          hprevious hstart hspells hend
    · refine ⟨fun s hs => ?_, fun len hlen => ?_, ?_, fun len hlen => ?_,
        fun s hs => hstored₁.word_fits hs, fun s hs => hstored₂.word_fits hs⟩
      · have hs : s ∈ typeCodes afterFirst types := by
          rw [htypes] at hs
          exact hs
        exact mem_histogram (by omega) (hcodes ▸ hs) (typeCodes_lt types hbound s hs)
      · exact husedLengths len (List.mem_of_mem_drop hlen)
      · rw [htypes]
        exact hbound
      · exact h.lengths len (List.mem_of_mem_drop hlen)

/-- **Block headers survive the writer and the reader.** The codes it builds cover every
switch of the split. -/
theorem block_header_round_trip {split : BlockSplit} (h : split.Valid) (tree : List HuffmanNode) :
    ∃ tree' code calls stored usedTypes usedLengths, buildAndStoreBlockSplitCode split tree {} =
    some (tree', code, calls) ∧
      FastCommands.Writes calls stored ∧ ReadsHeaderBack split code usedTypes usedLengths stored ∧
      (split.numTypes ≠ 1 → code.calculator = afterFirst ∧
        Covers code split.numTypes (split.types.drop 1) (split.lengths.drop 1) usedTypes
        usedLengths) := by
  obtain ⟨tree', code, calls, stored, usedTypes, usedLengths, hbuild, hwrites, hends, hcovers⟩ :=
    buildAndStoreBlockSplitCode_stores h tree
  exact ⟨tree', code, calls, stored, usedTypes, usedLengths, hbuild, hwrites,
    hends.readsBack, hcovers⟩

/-- Two types that take turns over three blocks. -/
theorem block_header_round_trip_turns : ∃ tree' code calls stored usedTypes usedLengths,
    buildAndStoreBlockSplitCode { numTypes := 2, types := [0, 1, 0], lengths := [5, 300, 40] } []
    {} = some (tree', code, calls) ∧
      FastCommands.Writes calls stored ∧
      ReadsHeaderBack { numTypes := 2, types := [0, 1, 0], lengths := [5, 300, 40] } code usedTypes
      usedLengths stored ∧
      (2 ≠ 1 → code.calculator = afterFirst ∧
        Covers code 2 [1, 0] [300, 40] usedTypes usedLengths) :=
  block_header_round_trip ⟨by decide, by decide, rfl, by decide,
    fun _ => rfl, by decide, by decide, by decide⟩ []

/-! ### A stream of blocks -/

/-- Writes the symbols of one stream, switching prefix codes at block borders. -/
structure BlockEncoder where
  histogramLength : ℕ
  blockTypes : List ℕ
  blockLengths : List ℕ
  splitCode : BlockSplitCode := {}
  blockIx : ℕ := 0
  blockLen : ℕ
  entropyIx : ℕ := 0
  depths : List ℕ
  bits : List ℕ

namespace BlockEncoder

/-- An encoder for the stream `split` describes. -/
def new (histogramLength : ℕ) (split : BlockSplit) (depths bits : List ℕ) : BlockEncoder :=
  { histogramLength, blockTypes := split.types, blockLengths := split.lengths,
    blockLen := split.lengths.getD 0 0, depths, bits }

/-- Opens the next block when the current one has run out. -/
def advanceBlock (e : BlockEncoder) (entropyIx : ℕ → ℕ) : Option (BlockEncoder × List BitOp) :=
  if e.blockLen ≠ 0 then some (e, [])
  else do
    let blockIx := e.blockIx + 1
    let blockLen ← e.blockLengths[blockIx]?
    let blockType ← e.blockTypes[blockIx]?
    let (splitCode, calls) := e.splitCode.storeBlockSwitch blockLen blockType false
    return ({ e with blockIx, blockLen, entropyIx := entropyIx blockType, splitCode }, calls)

/-- Writes one symbol with a code of the current block: `entropyIx` is what a block type keeps of
its codes, `histogram` where the symbol's code starts. -/
def store (e : BlockEncoder) (entropyIx : ℕ → ℕ) (histogram : ℕ → Option ℕ) (symbol : ℕ) :
    Option (BlockEncoder × List BitOp) := do
  let (e, calls) ← e.advanceBlock entropyIx
  if e.blockLen = 0 then none
  else
    let ix := (← histogram e.entropyIx) + symbol
    let depth ← e.depths[ix]?
    let bits ← e.bits[ix]?
    return ({ e with blockLen := e.blockLen - 1 }, calls ++ [.write depth bits])

/-- Writes one symbol with the current block's code. -/
def storeSymbol (e : BlockEncoder) (symbol : ℕ) : Option (BlockEncoder × List BitOp) :=
  e.store (fun blockType => blockType * e.histogramLength) some symbol

/-- Writes one symbol in `context`. -/
def storeSymbolWithContext (e : BlockEncoder) (symbol context : ℕ) (contextMap : List ℕ)
    (contextBits : ℕ) :
    Option (BlockEncoder × List BitOp) :=
  e.store (fun blockType => blockType <<< contextBits) (fun ix => contextMap[ix + context]?.map
    fun histo => histo * e.histogramLength) symbol

/-- The types of the symbols still to come. -/
def typesAhead (e : BlockEncoder) : List ℕ :=
  List.replicate e.blockLen (e.blockTypes.getD e.blockIx 0) ++
    ((e.blockTypes.drop (e.blockIx + 1)).zip (e.blockLengths.drop (e.blockIx + 1))).flatMap
    fun block => List.replicate block.2 block.1

end BlockEncoder

/-- The writer `e` and the reader `b` are at the same place of the stream. -/
structure Follows (numTypes : ℕ) (usedTypes usedLengths : List ℕ) (entropyIx : ℕ → ℕ)
    (e : BlockEncoder) (b : Mbrotli.Block) : Prop where
  stage : b.stage = .ready
  count : b.count = numTypes
  current : e.blockTypes.getD e.blockIx 0 = b.current
  entropy : e.entropyIx = entropyIx b.current
  single : numTypes = 1 → b.remaining ≠ 0 ∧ e.blockTypes.length ≤ e.blockIx + 1
  remaining : numTypes ≠ 1 → b.remaining = e.blockLen
  calculator : numTypes ≠ 1 → e.splitCode.calculator =
    { lastType := b.current, secondLastType := b.previous }
  types : numTypes ≠ 1 → b.types.Finds usedTypes e.splitCode.typeDepths e.splitCode.typeBits
  lengths : numTypes ≠ 1 → b.lengths.Finds usedLengths e.splitCode.lengthDepths
    e.splitCode.lengthBits
  covers : numTypes ≠ 1 → Covers e.splitCode numTypes (e.blockTypes.drop (e.blockIx + 1))
    (e.blockLengths.drop (e.blockIx + 1)) usedTypes usedLengths

/-- A symbol's code in a block of type `t`: where the writer has it, and the reader's table of it.
-/
def Slot (e : BlockEncoder) (entropyIx : ℕ → ℕ) (histogram : ℕ → Option ℕ) (trees : Group)
    (select : ℕ → ℕ) (symbol t : ℕ) : Prop :=
  ∃ start table used, histogram (entropyIx t) = some start ∧ start + symbol < e.depths.length ∧
    start + symbol < e.bits.length ∧
    trees.table (select t) = some table ∧
    table.Finds used (e.depths.drop start) (e.bits.drop start) ∧ symbol ∈ used ∧
    e.depths.getD (start + symbol) 0 ≤ maxBitsPerWrite ∧ e.bits.getD (start + symbol) 0 <
    2 ^ e.depths.getD (start + symbol) 0

/-- The reader takes `stored` for the symbol and goes on with `b'`, wherever the bits stand and
however the stream is split into calls. -/
def Takes (trees : Group) (select : ℕ → ℕ) (b : Mbrotli.Block) (symbol : ℕ) (stored : List Bool)
    (b' : Mbrotli.Block) : Prop :=
  ∀ (x : ℕ) (I : List UInt8) (p total : ℕ) (limit : Option ℕ) (reservoir : Bits)
    (pieces : List (List UInt8)),
    I.length ≤ u64Max → Mbrotli.Cursor I p reservoir total → total ≤ I.length →
    (∀ l, limit = some l → total ≤ l) → pieces ≠ [] →
    pieces.flatten = I.drop total → BitString.Spells I p stored →
    p + stored.length ≤ 8 * Builder.allowed limit I.length →
    ∃ n reservoir' total', (∀ fuel, n ≤ fuel →
      calls (Mbrotli.Block.symbolRounds trees select) fuel limit pieces (b, x) reservoir total =
        (.done (), (b', symbol), reservoir', total')) ∧
        Mbrotli.Cursor I (p + stored.length) reservoir' total'

/-- The writer's code of a type takes the reader to it. -/
theorem switchTo_next {b : Mbrotli.Block} {c : BlockTypeCodeCalculator}
    (hc : c = { lastType := b.current, secondLastType := b.previous }) {t : ℕ}
    (ht : t < b.count) : (b.switchTo (c.next t).1).current = t ∧
        (b.switchTo (c.next t).1).previous = b.current := by
  refine ⟨?_, rfl⟩
  subst hc
  unfold BlockTypeCodeCalculator.next Mbrotli.Block.switchTo
  dsimp only
  by_cases h1 : t = b.current + 1
  · rw [if_pos h1]
    show (b.current + 1) % b.count = t
    rw [← h1, Nat.mod_eq_of_lt ht]
  · rw [if_neg h1]
    by_cases h0 : t = b.previous
    · rw [if_pos h0]
      show b.previous % b.count = t
      rw [← h0, Nat.mod_eq_of_lt ht]
    · rw [if_neg h0]
      show t % b.count = t
      exact Nat.mod_eq_of_lt ht

theorem use_current (b : Mbrotli.Block) (n : ℕ) :
    (b.use n).current = b.current ∧ (b.use n).previous = b.previous ∧ (b.use n).stage = b.stage ∧
    (b.use n).count = b.count ∧ (b.use n).types = b.types ∧ (b.use n).lengths = b.lengths ∧
    (b.use n).remaining = if b.count = 1 then b.remaining else b.remaining - n := by
  unfold Mbrotli.Block.use
  split <;> exact ⟨rfl, rfl, rfl, rfl, rfl, rfl, rfl⟩

variable {numTypes : ℕ} {usedTypes usedLengths : List ℕ} {entropyIx : ℕ → ℕ} {histogram : ℕ →
    Option ℕ} {trees : Group} {select : ℕ → ℕ}
  {e : BlockEncoder} {b : Mbrotli.Block}

/-- One symbol of the current block. -/
theorem Follows.use (h : Follows numTypes usedTypes usedLengths entropyIx e b) :
    Follows numTypes usedTypes usedLengths entropyIx { e with blockLen := e.blockLen - 1 }
    (b.use 1) := by
  obtain ⟨h1, h2, h3, h4, h5, h6, h7⟩ := use_current b 1
  refine ⟨h3.trans h.stage, h4.trans h.count, h.current.trans h1.symm, by rw [h1]; exact h.entropy,
    fun hone => ?_, fun hone => ?_,
    fun hone => ?_, fun hone => ?_, fun hone => ?_, h.covers⟩
  · rw [h7, if_pos (h.count.trans hone)]
    exact h.single hone
  · rw [h7, if_neg (by rw [h.count]; exact hone), h.remaining hone]
  · rw [h1, h2]
    exact h.calculator hone
  · rw [h5]
    exact h.types hone
  · rw [h6]
    exact h.lengths hone

/-- The symbol itself: what is written, and that the reader takes it. -/
theorem Follows.symbol (h : Follows numTypes usedTypes usedLengths entropyIx e b)
    (hlen : e.blockLen ≠ 0) {s : ℕ}
    (hslot : Slot e entropyIx histogram trees select s b.current) :
    ∃ start, histogram e.entropyIx = some start ∧
    e.depths[start + s]? = some (e.depths.getD (start + s) 0) ∧
      e.bits[start + s]? = some (e.bits.getD (start + s) 0) ∧
      FastCommands.Writes [.write (e.depths.getD (start + s) 0) (e.bits.getD (start + s) 0)]
        (ofNat (e.depths.getD (start + s) 0) (e.bits.getD (start + s) 0)) ∧
      ∀ (I : List UInt8) (B p x : ℕ),
      BitString.Spells I p (ofNat (e.depths.getD (start + s) 0) (e.bits.getD (start + s) 0)) →
        p + e.depths.getD (start + s) 0 ≤ 8 * B →
        Ends (Mbrotli.Block.symbolRounds trees select) I B (b, x) p (.ok (b.use 1, s))
        (p + e.depths.getD (start + s) 0) := by
  obtain ⟨start, table, used, hstart, hdepths, hbits, htable, hfinds, hs, hwidth, hfits⟩ := hslot
  have hdrop : ∀ l : List ℕ, (l.drop start).getD s 0 = l.getD (start + s) 0 := fun l => by
    rw [List.getD_eq_getElem?_getD, List.getD_eq_getElem?_getD, List.getElem?_drop]
  refine ⟨start, h.entropy ▸ hstart, ?_, ?_, FastCommands.Writes.write hwidth hfits,
    fun I B p x hspells hend => ?_⟩
  · rw [List.getD_eq_getElem _ _ hdepths, List.getElem?_eq_getElem hdepths]
  · rw [List.getD_eq_getElem _ _ hbits, List.getElem?_eq_getElem hbits]
  · have hremaining : b.remaining ≠ 0 := by
      by_cases hone : numTypes = 1
      · exact (h.single hone).1
      · rw [h.remaining hone]
        exact hlen
    have hread := Mbrotli.Block.reads_symbol (I := I) (B := B) (p := p) x hremaining htable hfinds
      hs (by rw [hdrop, hdrop]; exact hfits)
      (by rw [hdrop, hdrop]; exact hspells) (by rw [hdrop]; exact hend)
    rwa [hdrop] at hread

/-- The encoder in its next block. -/
def BlockEncoder.opened (e : BlockEncoder) (entropyIx : ℕ → ℕ) (blockLen blockType : ℕ) :
    BlockEncoder :=
  { e with
    blockIx := e.blockIx + 1, blockLen, entropyIx := entropyIx blockType
    splitCode := { e.splitCode with calculator := (e.splitCode.calculator.next blockType).2 } }

/-- A symbol takes the first of the types ahead. -/
theorem BlockEncoder.typesAhead_use {e : BlockEncoder} {t : ℕ} {ahead : List ℕ}
    (hlen : e.blockLen ≠ 0) (hahead : e.typesAhead = t :: ahead) :
    e.blockTypes.getD e.blockIx 0 = t ∧
      BlockEncoder.typesAhead { e with blockLen := e.blockLen - 1 } = ahead := by
  obtain ⟨k, hk⟩ := Nat.exists_eq_succ_of_ne_zero hlen
  rw [BlockEncoder.typesAhead, hk, List.replicate_succ, List.cons_append] at hahead
  obtain ⟨hfirst, hrest⟩ := List.cons.inj hahead
  refine ⟨hfirst, ?_⟩
  rw [← hrest, BlockEncoder.typesAhead, hk]
  rfl

/-- The types ahead of a block that is used up are those of the next block on. -/
theorem BlockEncoder.typesAhead_opened {e : BlockEncoder} {blockLen u : ℕ} {types lengths : List ℕ}
    (entropyIx : ℕ → ℕ) (hlen : e.blockLen = 0)
    (htypes : e.blockTypes.drop (e.blockIx + 1) = u :: types)
    (hlengths : e.blockLengths.drop (e.blockIx + 1) = blockLen :: lengths) :
    (e.opened entropyIx blockLen u).typesAhead = e.typesAhead := by
  have hcur : e.blockTypes.getD (e.blockIx + 1) 0 = u := by
    have htype := congrArg (fun l => l[0]?) htypes
    rw [List.getElem?_drop, Nat.add_zero] at htype
    rw [List.getD_eq_getElem?_getD, htype]
    rfl
  rw [BlockEncoder.typesAhead, BlockEncoder.typesAhead, hlen, htypes, hlengths]
  show List.replicate blockLen (e.blockTypes.getD (e.blockIx + 1) 0) ++
    ((e.blockTypes.drop (e.blockIx + 1 + 1)).zip
      (e.blockLengths.drop (e.blockIx + 1 + 1))).flatMap _ = _
  rw [hcur, ← List.drop_drop, htypes, ← List.drop_drop, hlengths]
  rfl

/-- A used-up block with types ahead has a next block. -/
theorem BlockEncoder.next_of_typesAhead {e : BlockEncoder} {t : ℕ} {ahead : List ℕ}
    (hlen : e.blockLen = 0) (hahead : e.typesAhead = t :: ahead) :
    ∃ u types len lengths, e.blockTypes.drop (e.blockIx + 1) = u :: types ∧
      e.blockLengths.drop (e.blockIx + 1) = len :: lengths := by
  rw [BlockEncoder.typesAhead, hlen, List.replicate_zero, List.nil_append] at hahead
  cases htypes : e.blockTypes.drop (e.blockIx + 1) with
  | nil =>
    rw [htypes] at hahead
    cases hahead
  | cons u types =>
    cases hlengths : e.blockLengths.drop (e.blockIx + 1) with
    | nil =>
      rw [hlengths, List.zip_nil_right] at hahead
      cases hahead
    | cons len lengths => exact ⟨u, types, len, lengths, rfl, rfl⟩

/-- **A switch keeps writer and reader together**: the encoder in its next block, and the reader
behind the type's code and the length. -/
theorem Follows.opened (h : Follows numTypes usedTypes usedLengths entropyIx e b)
    (hone : numTypes ≠ 1) {u blockLen : ℕ} {types lengths : List ℕ}
    (htypes : e.blockTypes.drop (e.blockIx + 1) = u :: types)
    (hlengths : e.blockLengths.drop (e.blockIx + 1) = blockLen :: lengths) :
    (b.switchTo (e.splitCode.calculator.next u).1).current = u ∧
      Follows numTypes usedTypes usedLengths entropyIx (e.opened entropyIx blockLen u)
        { b.switchTo (e.splitCode.calculator.next u).1 with
          remaining := blockLen, stage := .ready } := by
  have hcovers := h.covers hone
  rw [htypes, hlengths] at hcovers
  have hu : u < b.count := by
    rw [h.count]
    exact hcovers.bound u List.mem_cons_self
  obtain ⟨hcurrent, hprevious⟩ := switchTo_next (h.calculator hone) hu
  have htype := congrArg (fun l => l[0]?) htypes
  rw [List.getElem?_drop, Nat.add_zero] at htype
  have hdropTypes : e.blockTypes.drop (e.blockIx + 1 + 1) = types := by
    rw [← List.drop_drop, htypes]
    rfl
  have hdropLengths : e.blockLengths.drop (e.blockIx + 1 + 1) = lengths := by
    rw [← List.drop_drop, hlengths]
    rfl
  refine ⟨hcurrent, rfl, h.count, ?_, by rw [hcurrent]; rfl, fun ho => absurd ho hone,
    fun _ => rfl, fun _ => ?_, h.types, h.lengths, fun _ => ?_⟩
  · show e.blockTypes.getD (e.blockIx + 1) 0 = _
    rw [List.getD_eq_getElem?_getD, htype, hcurrent]
    rfl
  · show ({ lastType := u, secondLastType := e.splitCode.calculator.lastType } :
      BlockTypeCodeCalculator) =
      { lastType := (b.switchTo (e.splitCode.calculator.next u).1).current
        secondLastType := (b.switchTo (e.splitCode.calculator.next u).1).previous }
    rw [hcurrent, hprevious, h.calculator hone]
  · show Covers _ numTypes (e.blockTypes.drop (e.blockIx + 1 + 1))
      (e.blockLengths.drop (e.blockIx + 1 + 1)) usedTypes usedLengths
    rw [hdropTypes, hdropLengths]
    exact ⟨fun v hv => hcovers.typesUsed v (List.mem_cons_of_mem _ hv),
      fun l hl => hcovers.lengthsUsed l (List.mem_cons_of_mem _ hl),
      fun v hv => hcovers.bound v (List.mem_cons_of_mem _ hv),
      fun l hl => hcovers.range l (List.mem_cons_of_mem _ hl),
      hcovers.typesFit, hcovers.lengthsFit⟩

/-- Takes of a reading that ends in every input that spells the symbol. -/
theorem Takes.of_ends {s : ℕ} {stored : List Bool} {b' : Mbrotli.Block}
    (hends : ∀ (I : List UInt8) (B p x : ℕ), BitString.Spells I p stored →
      p + stored.length ≤ 8 * B →
      Ends (Mbrotli.Block.symbolRounds trees select) I B (b, x) p (.ok (b', s))
        (p + stored.length)) :
    Takes trees select b s stored b' := by
  intro x I p total limit reservoir pieces hI hc ht hl hne hpieces hspells hend
  exact calls_of_ends hI pieces (hends I _ p x hspells hend) hc ht hl hpieces (Or.inl hne)

/-- A symbol behind a switch: the type's code, the length and the symbol are written, and the
reader takes all three. -/
theorem Follows.store_switch (h : Follows numTypes usedTypes usedLengths entropyIx e b)
    (hlen : e.blockLen = 0) (hone : numTypes ≠ 1) {u len : ℕ} {types lengths : List ℕ}
    (htypes : e.blockTypes.drop (e.blockIx + 1) = u :: types)
    (hlengths : e.blockLengths.drop (e.blockIx + 1) = len :: lengths)
    {s : ℕ} (hslot : Slot e entropyIx histogram trees select s u) :
    ∃ ops stored b', e.store entropyIx histogram s =
        some ({ e.opened entropyIx len u with blockLen := len - 1 }, ops) ∧
      FastCommands.Writes ops stored ∧
      Follows numTypes usedTypes usedLengths entropyIx
        { e.opened entropyIx len u with blockLen := len - 1 } b' ∧
      Takes trees select b s stored b' := by
  have htype : e.blockTypes[e.blockIx + 1]? = some u := by
    have := congrArg (fun l => l[0]?) htypes
    simpa using this
  have hlength : e.blockLengths[e.blockIx + 1]? = some len := by
    have := congrArg (fun l => l[0]?) hlengths
    simpa using this
  have hcovers := h.covers hone
  obtain ⟨hcurrent, hfollows⟩ := h.opened hone htypes hlengths
  rw [htypes, hlengths] at hcovers
  obtain ⟨hrange, hmost⟩ := hcovers.range len List.mem_cons_self
  obtain ⟨hcode, hwidth, hextra, hvalue⟩ :=
    blockLengthCode_spec hrange (show len < 16625 + 2 ^ 24 by omega)
  rw [hwidth] at hextra
  obtain ⟨k, rfl⟩ := Nat.exists_eq_add_of_le' hrange
  obtain ⟨c, hc⟩ : ∃ c, (e.splitCode.calculator.next u).1 = c := ⟨_, rfl⟩
  rw [hc] at hcurrent hfollows
  have hsymbol : c ∈ usedTypes := hc ▸ hcovers.typesUsed _ List.mem_cons_self
  have hlengthUsed : (blockLengthCode (k + 1)).1 ∈ usedLengths :=
    hcovers.lengthsUsed (k + 1) List.mem_cons_self
  obtain ⟨htypeWidth, htypeFits⟩ := hcovers.typesFit c hsymbol
  obtain ⟨hlengthWidth, hlengthFits⟩ := hcovers.lengthsFit _ hlengthUsed
  have hslot' : Slot (e.opened entropyIx (k + 1) u) entropyIx histogram trees select s
      ({ b.switchTo c with remaining := k + 1, stage := .ready } : Mbrotli.Block).current := by
    show Slot _ entropyIx histogram trees select s (b.switchTo c).current
    rw [hcurrent]
    exact hslot
  obtain ⟨start, hstart, hdepth, hbits, hwrites, hread⟩ :=
    hfollows.symbol (Nat.succ_ne_zero k) hslot'
  have hdepths : (e.opened entropyIx (k + 1) u).depths = e.depths := rfl
  have hpatterns : (e.opened entropyIx (k + 1) u).bits = e.bits := rfl
  rw [hdepths] at hdepth
  rw [hpatterns] at hbits
  rw [hdepths, hpatterns] at hwrites hread
  obtain ⟨ops, hops⟩ : ∃ ops, ops =
    [.write (e.splitCode.typeDepths.getD c 0) (e.splitCode.typeBits.getD c 0),
      .write (e.splitCode.lengthDepths.getD (blockLengthCode (k + 1)).1 0)
      (e.splitCode.lengthBits.getD (blockLengthCode (k + 1)).1 0),
      .write (blockLengthCode (k + 1)).2.1 (blockLengthCode (k + 1)).2.2] ++
      [BitOp.write (e.depths.getD (start + s) 0) (e.bits.getD (start + s) 0)] := ⟨_, rfl⟩
  refine ⟨ops, ofNat (e.splitCode.typeDepths.getD c 0) (e.splitCode.typeBits.getD c 0) ++
    Mbrotli.Block.spellLength e.splitCode.lengthDepths e.splitCode.lengthBits
    (blockLengthCode (k + 1)).1 (blockLengthCode (k + 1)).2.2 ++
    ofNat (e.depths.getD (start + s) 0) (e.bits.getD (start + s) 0), _, ?_, ?_, hfollows.use,
    Takes.of_ends ?_⟩
  · rw [BlockEncoder.store, BlockEncoder.advanceBlock, if_neg (not_not.2 hlen)]
    dsimp only
    rw [hlength, htype]
    simp only [Option.bind_eq_bind, Option.bind_some, Option.pure_def]
    rw [if_neg (Nat.succ_ne_zero k)]
    have hstart : histogram (entropyIx u) = some start := hstart
    rw [hstart]
    simp only [Option.bind_some]
    rw [hdepth, hbits, hops, ← hc]
    rfl
  · rw [hops]
    refine FastCommands.Writes.append ?_ hwrites
    have hlast :=
      FastCommands.Writes.write ((Mbrotli.Block.width_le (blockLengthCode (k + 1)).1).trans
        (by decide)) hextra
    rw [hwidth]
    exact FastCommands.Writes.cons htypeWidth htypeFits rfl
      (FastCommands.Writes.cons hlengthWidth hlengthFits rfl hlast)
  · intro I B p x hspells hend
    obtain ⟨hswitch, hsym⟩ := spells_append.1 hspells
    rw [List.length_append, length_ofNat, Mbrotli.Block.length_spellLength] at hsym
    rw [List.length_append, List.length_append, length_ofNat, length_ofNat,
      Mbrotli.Block.length_spellLength] at hend ⊢
    refine Mbrotli.Block.reads_switch x h.stage (by rw [h.remaining hone, hlen]) (h.types hone)
      (h.lengths hone) hsymbol htypeFits hlengthUsed
      hlengthFits hextra hswitch (by omega) ?_
    rw [hvalue]
    have hgo := hread I B _ x hsym (by omega)
    rw [Nat.add_assoc p] at hgo
    exact hgo

/-- **A stored symbol keeps writer and reader together**, with a switch before it or not. -/
theorem Follows.store (h : Follows numTypes usedTypes usedLengths entropyIx e b) {t : ℕ}
    {ahead : List ℕ} (hahead : e.typesAhead = t :: ahead)
    {s : ℕ} (hslot : Slot e entropyIx histogram trees select s t) :
    ∃ e' ops stored b', e.store entropyIx histogram s = some (e', ops) ∧
    FastCommands.Writes ops stored ∧
      Follows numTypes usedTypes usedLengths entropyIx e' b' ∧ e'.typesAhead = ahead ∧
      e'.depths = e.depths ∧ e'.bits = e.bits ∧ e'.histogramLength = e.histogramLength ∧
      Takes trees select b s stored b' := by
  by_cases hlen : e.blockLen = 0
  · -- the block is used up: the types ahead start with that of the next
    obtain ⟨u, types, len, lengths, htypes, hlengths⟩ :=
      BlockEncoder.next_of_typesAhead hlen hahead
    have hone : numTypes ≠ 1 := fun hone => by
      have hshort := (h.single hone).2
      rw [List.drop_eq_nil_of_le (by omega)] at htypes
      cases htypes
    have hrange : 1 ≤ len := by
      have hcovers := h.covers hone
      rw [htypes, hlengths] at hcovers
      exact (hcovers.range len List.mem_cons_self).1
    have hopened := BlockEncoder.typesAhead_opened entropyIx hlen htypes hlengths
    obtain ⟨hfirst, hrest⟩ := BlockEncoder.typesAhead_use (e := e.opened entropyIx len u)
      (Nat.ne_of_gt hrange) (hopened.trans hahead)
    obtain rfl : u = t := by
      rw [← hfirst]
      have htype := congrArg (fun l => l[0]?) htypes
      rw [List.getElem?_drop, Nat.add_zero] at htype
      show u = e.blockTypes.getD (e.blockIx + 1) 0
      rw [List.getD_eq_getElem?_getD, htype]
      rfl
    obtain ⟨ops, stored, b', hstore, hwrites, hfollows, htakes⟩ :=
      h.store_switch hlen hone htypes hlengths hslot
    exact ⟨_, ops, stored, b', hstore, hwrites, hfollows, hrest, rfl, rfl, rfl, htakes⟩
  · -- the block goes on
    obtain ⟨hfirst, hrest⟩ := BlockEncoder.typesAhead_use hlen hahead
    rw [← hfirst, h.current] at hslot
    obtain ⟨start, hstart, hdepth, hbits, hwrites, hread⟩ := h.symbol hlen hslot
    refine ⟨_, _, _, _, ?_, hwrites, h.use, hrest, rfl, rfl, rfl,
      Takes.of_ends fun I B p x hspells hend => ?_⟩
    · rw [BlockEncoder.store, BlockEncoder.advanceBlock, if_pos hlen]
      simp only [Option.bind_eq_bind, Option.bind_some]
      rw [if_neg hlen, hstart]
      simp only [Option.bind_some]
      rw [hdepth, hbits]
      rfl
    · rw [length_ofNat] at hend ⊢
      exact hread I B p x hspells hend

/-! ### The whole stream -/

namespace BlockEncoder

/-- Builds and writes the code that describes the stream's block switches. -/
def buildAndStoreBlockSwitchCodes (e : BlockEncoder) (split : BlockSplit)
    (tree : List HuffmanNode) :
    Option (List HuffmanNode × BlockEncoder × List BitOp) := do
  let (tree, splitCode, calls) ← buildAndStoreBlockSplitCode split tree e.splitCode
  return (tree, { e with splitCode }, calls)

/-- The histogram of a symbol in a block of type `t`: the type's own where there is no context map.
-/
def histogramOf (contextMap : List ℕ) (contextBits context t : ℕ) : Option ℕ :=
  if contextMap = [] then some t else contextMap[t <<< contextBits + context]?

/-- Writes one symbol as a meta-block does: in its context where there is a context map. -/
def storeIn (contextMap : List ℕ) (contextBits : ℕ) (e : BlockEncoder) (symbol context : ℕ) :
    Option (BlockEncoder × List BitOp) :=
  if contextMap = [] then e.storeSymbol symbol
    else e.storeSymbolWithContext symbol context contextMap contextBits

/-- Writes a list of symbols, each with its context, and gives the calls of each. -/
def storeAll (contextMap : List ℕ) (contextBits : ℕ) :
    BlockEncoder → List (ℕ × ℕ) → Option (BlockEncoder × List (List BitOp))
  | e, [] => some (e, [])
  | e, (symbol, context) :: rest => do
    let (e, ops) ← e.storeIn contextMap contextBits symbol context
    let (e, more) ← storeAll contextMap contextBits e rest
    return (e, ops :: more)

end BlockEncoder

/-- The type of each symbol of the stream. -/
def BlockSplit.symbolTypes (split : BlockSplit) : List ℕ :=
  (split.types.zip split.lengths).flatMap fun block => List.replicate block.2 block.1

/-- The reader's `trees` are the writer's codes, one in `histogramLength` entries after the other.
-/
def Coded (trees : Group) (count histogramLength : ℕ) (depths bits : List ℕ) (used : ℕ → List ℕ) :
    Prop :=
  ∀ h < count, ∃ table, trees.table h = some table ∧
    table.Finds (used h) (depths.drop (h * histogramLength)) (bits.drop (h * histogramLength)) ∧
    ∀ s ∈ used h, h * histogramLength + s < depths.length ∧ h * histogramLength + s < bits.length ∧
      depths.getD (h * histogramLength + s) 0 ≤ maxBitsPerWrite ∧
      bits.getD (h * histogramLength + s) 0 < 2 ^ depths.getD (h * histogramLength + s) 0

/-- A symbol, with its context, that has a code in a block of type `t`. -/
def HasCode (contextMap : List ℕ) (contextBits count : ℕ) (used : ℕ → List ℕ) (job : ℕ × ℕ)
    (t : ℕ) : Prop :=
  ∃ h, BlockEncoder.histogramOf contextMap contextBits job.2 t = some h ∧ h < count ∧ job.1 ∈ used h

/-- The reader's choice of a tree: by the same map. -/
def selectBy (contextMap : List ℕ) (contextBits context t : ℕ) : ℕ :=
  (BlockEncoder.histogramOf contextMap contextBits context t).getD 0

/-- The reader takes the symbols one after the other. -/
def TakesAll (trees : Group) (contextMap : List ℕ) (contextBits : ℕ) :
    Mbrotli.Block → List (ℕ × ℕ) → List (List Bool) → Prop
  | _, [], [] => True
  | b, (symbol, context) :: jobs, stored :: rest =>
    ∃ b', Takes trees (selectBy contextMap contextBits context) b symbol stored b' ∧
    TakesAll trees contextMap contextBits b' jobs rest
  | _, _, _ => False

/-- `b` is what a header's reader leaves behind the bits `stored`, wherever these stand in a
stream and however it is split into calls. -/
def HeaderRead (stored : List Bool) (b : Mbrotli.Block) : Prop :=
  ∃ (b₀ : Mbrotli.Block) (builder : Builder) (memory : Memory) (I : List UInt8) (p total : ℕ)
    (limit : Option ℕ) (reservoir : Bits)
    (pieces : List (List UInt8)) (n : ℕ) (builder' : Builder) (memory' : Memory)
      (reservoir' : Bits) (total' : ℕ),
    b₀.reset = b₀ ∧ builder.stage = .start ∧ I.length ≤ u64Max ∧
    Mbrotli.Cursor I p reservoir total ∧ total ≤ I.length ∧
    (∀ l, limit = some l → total ≤ l) ∧ pieces ≠ [] ∧ pieces.flatten = I.drop total ∧
    BitString.Spells I p stored ∧
    p + stored.length ≤ 8 * Builder.allowed limit I.length ∧ ∀ fuel, n ≤ fuel →
      calls Mbrotli.Block.rounds fuel limit pieces (b₀, builder, memory) reservoir total =
      (.done (), (b, builder', memory'), reservoir', total')

variable {contextMap readerMap : List ℕ} {contextBits histogramLength : ℕ} {depths bits : List ℕ}
    {used : ℕ → List ℕ} {split : BlockSplit} {count : ℕ}

/-- What a block type keeps of its codes. -/
def entropyOf (contextMap : List ℕ) (contextBits histogramLength t : ℕ) : ℕ :=
  if contextMap = [] then t * histogramLength else t <<< contextBits

theorem entropyOf_zero (contextMap : List ℕ) (contextBits histogramLength : ℕ) :
    entropyOf contextMap contextBits histogramLength 0 = 0 := by
  unfold entropyOf
  split
  · exact Nat.zero_mul _
  · exact Nat.zero_shiftLeft _

/-- Where the codes of a histogram start. -/
def startOf (contextMap : List ℕ) (histogramLength context ix : ℕ) : Option ℕ :=
  if contextMap = [] then some ix else contextMap[ix + context]?.map fun histo =>
    histo * histogramLength

theorem storeIn_eq (hlength : e.histogramLength = histogramLength) (symbol context : ℕ) :
    e.storeIn contextMap contextBits symbol context =
      e.store (entropyOf contextMap contextBits histogramLength)
      (startOf contextMap histogramLength context) symbol := by
  unfold BlockEncoder.storeIn BlockEncoder.storeSymbol BlockEncoder.storeSymbolWithContext
  rw [hlength]
  by_cases hmap : contextMap = []
  · subst hmap
    rfl
  · rw [if_neg hmap]
    congr 1
    · funext t
      rw [entropyOf, if_neg hmap]
    · funext ix
      rw [startOf, if_neg hmap]

/-- A symbol with a code has its place with writer and reader. -/
theorem Coded.slot (h : Coded trees count histogramLength e.depths e.bits used)
    {job : ℕ × ℕ} {t : ℕ}
    (hjob : HasCode contextMap contextBits count used job t)
    (hsame : selectBy readerMap contextBits job.2 t = selectBy contextMap contextBits job.2 t) :
    Slot e (entropyOf contextMap contextBits histogramLength)
    (startOf contextMap histogramLength job.2) trees
      (selectBy readerMap contextBits job.2) job.1 t := by
  obtain ⟨histo, hhisto, hlt, hused⟩ := hjob
  obtain ⟨table, htable, hfinds, hfit⟩ := h histo hlt
  obtain ⟨hdepths, hbits, hwidth, hword⟩ := hfit job.1 hused
  refine ⟨histo * histogramLength, table, used histo, ?_, hdepths, hbits, ?_, hfinds, hused,
    hwidth, hword⟩
  · unfold BlockEncoder.histogramOf at hhisto
    unfold startOf entropyOf
    split at hhisto
    · rename_i hmap
      rw [if_pos hmap, if_pos hmap, ← Option.some.inj hhisto]
    · rename_i hmap
      rw [if_neg hmap, if_neg hmap, hhisto]
      rfl
  · rw [hsame, selectBy, hhisto]
    exact htable

/-- A symbol with a code whose tree the reader's map chooses as the writer's does. -/
def Chosen (contextMap readerMap : List ℕ) (contextBits count : ℕ) (used : ℕ → List ℕ) (job : ℕ × ℕ)
    (t : ℕ) : Prop :=
  HasCode contextMap contextBits count used job t ∧ selectBy readerMap contextBits job.2 t =
    selectBy contextMap contextBits job.2 t

/-- **A run of stored symbols keeps writer and reader together.** -/
theorem Follows.storeAll (jobs : List (ℕ × ℕ)) :
    ∀ {e : BlockEncoder} {b : Mbrotli.Block} {types rest : List ℕ},
    Follows numTypes usedTypes usedLengths (entropyOf contextMap contextBits histogramLength) e b →
    e.histogramLength = histogramLength →
    Coded trees count histogramLength e.depths e.bits used → e.typesAhead = types ++ rest →
    List.Forall₂ (Chosen contextMap readerMap contextBits count used) jobs types →
    ∃ e' ops stored, e.storeAll contextMap contextBits jobs = some (e', ops) ∧
    List.Forall₂ FastCommands.Writes ops stored ∧
      e'.typesAhead = rest ∧ TakesAll trees readerMap contextBits b jobs stored := by
  induction jobs with
  | nil =>
    intro e b types rest h hlength hcoded hahead hjobs
    cases hjobs
    exact ⟨e, [], [], rfl, .nil, hahead, trivial⟩
  | cons job jobs ih =>
    intro e b types rest h hlength hcoded hahead hjobs
    obtain ⟨t, types', ⟨hjob, hsame⟩, hrestJobs, rfl⟩ := List.forall₂_cons_left_iff.1 hjobs
    obtain ⟨symbol, context⟩ := job
    obtain ⟨e₁, ops, stored, b₁, hstore, hwrites, hfollows, hahead₁, hdepths, hbits, hlength₁,
      htakes⟩ := h.store hahead (hcoded.slot hjob hsame)
    obtain ⟨e', more, storedMore, hrest, hwritesRest, hleft, htakesRest⟩ :=
      ih hfollows (hlength₁.trans hlength) (by rw [hdepths, hbits]; exact hcoded) hahead₁ hrestJobs
    refine ⟨e', ops :: more, stored :: storedMore, ?_, .cons hwrites hwritesRest, hleft, b₁,
      htakes, htakesRest⟩
    rw [BlockEncoder.storeAll, storeIn_eq hlength, hstore]
    simp only [Option.bind_eq_bind, Option.bind_some]
    rw [hrest]
    rfl

/-- The types of a split's symbols are those ahead of a new encoder. -/
theorem BlockSplit.Valid.typesAhead_new (h : split.Valid) (histogramLength : ℕ)
    (depths bits : List ℕ) (code : BlockSplitCode) :
    ({ BlockEncoder.new histogramLength split depths bits with splitCode := code } :
      BlockEncoder).typesAhead = split.symbolTypes := by
  have hsame := h.same
  show List.replicate (split.lengths.getD 0 0) (split.types.getD 0 0) ++
    ((split.types.drop (0 + 1)).zip (split.lengths.drop (0 + 1))).flatMap _ = split.symbolTypes
  unfold BlockSplit.symbolTypes
  cases htypes : split.types with
  | nil =>
    rw [htypes] at hsame
    rw [List.length_eq_zero_iff.1 hsame]
    rfl
  | cons t types =>
    cases hlengths : split.lengths with
    | nil =>
      rw [htypes, hlengths] at hsame
      cases hsame
    | cons length lengths => rfl

/-- A block as a header leaves it is at the writer's start. -/
theorem follows_new {code : BlockSplitCode} (h : split.Valid)
    (hcovers : split.numTypes ≠ 1 → code.calculator = afterFirst ∧
      Covers code split.numTypes (split.types.drop 1) (split.lengths.drop 1) usedTypes usedLengths)
    (hstage : b.stage = .ready) (hcount : b.count = split.numTypes) (hcurrent : b.current = 0)
    (hprevious : b.previous = 1)
    (hremaining : b.remaining = if split.numTypes = 1 then u64Max else split.lengths.getD 0 0)
    (hfinds : split.numTypes ≠ 1 → b.types.Finds usedTypes code.typeDepths code.typeBits ∧
      b.lengths.Finds usedLengths code.lengthDepths code.lengthBits) (hentropy : entropyIx 0 = 0) :
    Follows split.numTypes usedTypes usedLengths entropyIx
      { BlockEncoder.new histogramLength split depths bits with splitCode := code } b := by
  have hfirst : split.types.getD 0 0 = 0 := by
    by_cases hone : split.numTypes = 1
    · cases htypes : split.types with
      | nil => rfl
      | cons t types =>
        have ht := h.types t (htypes ▸ List.mem_cons_self)
        show t = 0
        omega
    · rw [List.getD_eq_getElem?_getD, h.first hone]
      rfl
  refine ⟨hstage, hcount, hfirst.trans hcurrent.symm, ?_, fun hone => ⟨?_, h.single hone⟩,
    fun hone => ?_, fun hone => ?_,
    fun hone => (hfinds hone).1, fun hone => (hfinds hone).2, fun hone => (hcovers hone).2⟩
  · rw [hcurrent, hentropy]
    rfl
  · rw [hremaining, if_pos hone]
    decide
  · rw [hremaining, if_neg hone]
    rfl
  · rw [hcurrent, hprevious]
    exact (hcovers hone).1

/-- Some reader of the header comes to its end. -/
theorem EndsHeader.exists_opened {code : BlockSplitCode} {stored : List Bool}
    (h : EndsHeader split code usedTypes usedLengths stored) :
    ∃ b builder memory, Mbrotli.Block.Opened {} split.numTypes
    (if split.numTypes = 1 then u64Max else split.lengths.getD 0 0) usedTypes
      code.typeDepths code.typeBits usedLengths code.lengthDepths code.lengthBits
      (.ok (b, builder, memory)) := by
  have hspells : BitString.Spells (packBytes stored.length stored) 0 stored := fun i hi => by
    rw [Nat.zero_add, bitAt_packBytes stored (by omega)]
  obtain ⟨r, q, -, hopened, -⟩ :=
    h ({} : Mbrotli.Block).reset {} {} _ stored.length 0 rfl rfl hspells (by omega)
  rcases r with ⟨e, b, builder, memory⟩ | ⟨b, builder, memory⟩
  · obtain ⟨l, hl, -⟩ := hopened
    cases hl
  · exact ⟨b, builder, memory, hopened⟩

/-- A header's reader that comes to its end leaves a block the writer's start is followed by. -/
theorem HeaderRead.follows {code : BlockSplitCode} {stored : List Bool} (hb : HeaderRead stored b)
    (h : split.Valid)
    (hreads : ReadsHeaderBack split code usedTypes usedLengths stored)
    (hcovers : split.numTypes ≠ 1 → code.calculator = afterFirst ∧
      Covers code split.numTypes (split.types.drop 1) (split.lengths.drop 1) usedTypes usedLengths)
      (hentropy : entropyIx 0 = 0) :
    Follows split.numTypes usedTypes usedLengths entropyIx
      { BlockEncoder.new histogramLength split depths bits with splitCode := code } b := by
  obtain ⟨b₀, builder, memory, I, p, total, limit, reservoir, pieces, n, builder', memory',
    reservoir', total', hreset, hstart, hI, hc, ht, hl, hne,
    hpieces, hspells, hend, hdone⟩ := hb
  obtain ⟨n', reservoir'', total'', b', builder'', memory'', hread⟩ :=
    hreads b₀ builder memory I p total limit reservoir pieces hreset hstart hI hc ht hl hne
      hpieces hspells hend
  have hdone := hdone (max n n') (le_max_left n n')
  rcases hread with ⟨l, -, hfault⟩ | ⟨hread, -, hstage, hcount, hcurrent, hprevious,
    hremaining, hfinds, -, -⟩
  · rw [hfault _ (le_max_right n n')] at hdone
    cases (Prod.mk.inj hdone).1
  · rw [hread _ (le_max_right n n')] at hdone
    obtain rfl : b' = b := (Prod.mk.inj (Prod.mk.inj (Prod.mk.inj hdone).2).1).1
    exact follows_new h hcovers hstage hcount hcurrent hprevious hremaining hfinds hentropy

theorem writes_unique {calls : List BitOp} {B C : List Bool} (hB : FastCommands.Writes calls B)
    (hC : FastCommands.Writes calls C) : B = C :=
  (hB.bits_eq []).symm.trans (hC.bits_eq [])

/-- **A stream of blocks survives the writer and the reader.** The writer never runs out of
blocks or codes, and the reader, past the header, takes every symbol for what it is. -/
theorem switched_symbols (h : split.Valid) (tree : List HuffmanNode)
    (hcoded : Coded trees count histogramLength depths bits used)
    {jobs : List (ℕ × ℕ)}
    (hjobs : List.Forall₂ (HasCode contextMap contextBits count used) jobs
      (split.symbolTypes.take jobs.length)) :
    ∃ tree' e calls stored e' ops symbols,
      (BlockEncoder.new histogramLength split depths bits).buildAndStoreBlockSwitchCodes split
      tree = some (tree', e, calls) ∧
      FastCommands.Writes calls stored ∧ e.storeAll contextMap contextBits jobs = some (e', ops) ∧
      List.Forall₂ FastCommands.Writes ops symbols ∧
      ∀ b, HeaderRead stored b → TakesAll trees contextMap contextBits b jobs symbols := by
  obtain ⟨tree', code, calls, stored, usedTypes, usedLengths, hbuild, hwrites, hends, hcovers⟩ :=
    buildAndStoreBlockSplitCode_stores h tree
  have hentropy := entropyOf_zero contextMap contextBits histogramLength
  have hchosen : List.Forall₂ (Chosen contextMap contextMap contextBits count used) jobs
      (split.symbolTypes.take jobs.length) :=
    hjobs.imp fun _ _ h => ⟨h, rfl⟩
  have hahead :=
    (h.typesAhead_new histogramLength depths bits code).trans
      (List.take_append_drop jobs.length _).symm
  obtain ⟨b, builder, memory, hstage, hcount, hcurrent, hprevious, hremaining, hfinds, -, -⟩ :=
    hends.exists_opened
  have hfollows : Follows split.numTypes usedTypes usedLengths
    (entropyOf contextMap contextBits histogramLength)
      { BlockEncoder.new histogramLength split depths bits with splitCode := code } b :=
    follows_new h hcovers hstage hcount hcurrent hprevious hremaining hfinds hentropy
  obtain ⟨e', ops, symbols, hstore, hsymbols, -, -⟩ :=
    hfollows.storeAll jobs rfl hcoded hahead hchosen
  refine ⟨tree', _, calls, stored, e', ops, symbols, ?_, hwrites, hstore, hsymbols, fun b hb => ?_⟩
  · show (buildAndStoreBlockSplitCode split tree {}).bind _ = _
    rw [hbuild]
    rfl
  · have hfollows : Follows split.numTypes usedTypes usedLengths
      (entropyOf contextMap contextBits histogramLength)
        { BlockEncoder.new histogramLength split depths bits with splitCode := code } b :=
        hb.follows h hends.readsBack hcovers hentropy
    obtain ⟨e'', ops', symbols', hstore', hsymbols', -, htakes⟩ :=
      hfollows.storeAll jobs rfl hcoded hahead hchosen
    obtain rfl : ops' = ops := (Prod.mk.inj (Option.some.inj (hstore'.symm.trans hstore))).2
    obtain rfl : symbols = symbols' :=
      List.right_unique_forall₂' (R := FastCommands.Writes) (fun _ _ _ => writes_unique)
        hsymbols hsymbols'
    exact htakes

/-- Four symbols in three blocks whose two types each have a code of one symbol. -/
theorem switched_symbols_turns : ∃ tree' e calls stored e' ops symbols,
    (BlockEncoder.new 2 { numTypes := 2, types := [0, 1, 0], lengths := [2, 1, 1] } [0, 0, 0, 0]
      [0, 0, 0, 0]).buildAndStoreBlockSwitchCodes
      { numTypes := 2, types := [0, 1, 0], lengths := [2, 1, 1] } [] = some (tree', e, calls) ∧
    FastCommands.Writes calls stored ∧ e.storeAll [] 0 [(0, 0), (0, 0), (0, 0), (0, 0)] =
    some (e', ops) ∧
    List.Forall₂ FastCommands.Writes ops symbols ∧
    ∀ b, HeaderRead stored b → TakesAll { count := 2 } [] 0 b [(0, 0), (0, 0), (0, 0),
      (0, 0)] symbols := by
  have hcoded : Coded { count := 2 } 2 2 [0, 0, 0, 0] [0, 0, 0, 0] fun _ => [0] := by
    intro h hh
    refine ⟨_, if_pos hh, ⟨fun v => ⟨Nat.zero_le _, fun w _ => rfl⟩, fun s hs v _ => ?_⟩,
      fun s hs => ?_⟩
    · obtain rfl := List.mem_singleton.1 hs
      have hdepth : ((List.drop (h * 2) [0, 0, 0, 0]).getD 0 0) = 0 := by
        interval_cases h <;> rfl
      rw [hdepth]
      rfl
    · obtain rfl := List.mem_singleton.1 hs
      interval_cases h <;> decide
  refine switched_symbols ⟨by decide, by decide, rfl, by decide,
    fun _ => rfl, by decide, by decide, by decide⟩ [] hcoded ?_
  have hhas : ∀ t < 2, HasCode [] 0 2 (fun _ => [0]) (0, 0) t :=
    fun t ht => ⟨t, rfl, ht, List.mem_singleton.2 rfl⟩
  exact .cons (hhas 0 (by decide))
    (.cons (hhas 0 (by decide)) (.cons (hhas 1 (by decide)) (.cons (hhas 0 (by decide)) .nil)))

end Mbrotli.Compressor.Bitstream
