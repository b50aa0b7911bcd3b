/-
# A compressed meta-block's header, through writer and reader

The header of a split meta-block holds its length, the block headers of the three streams,
the distance parameters, the context modes, two context maps and the codes of every
histogram. Each part has its own round trip; here the parts follow each other in one stream,
and the reader crosses them all (`storeMetaBlockHeader_crossed`), to stand at the first
command with the writer's blocks, maps and codes (`meta_block_header_round_trip`).

Key definitions: `MetaBlockWriter.storeMetaBlockHeader`, `MetaBlockSplit.Valid`, `AtCommands`.
Key theorems: `encodeMlen_spec`, `meta_block_header_round_trip`.
-/
import Mbrotli.Decompressor.Core.HeaderReads
import Mbrotli.Shared.CommandCodes
import Mbrotli.Shared.EntropyCodes

namespace Mbrotli.Compressor.Bitstream

open BitString Resumable

/-! ### The writer -/

def literalContextBits : ℕ := 6

def distanceContextBits : ℕ := 2

inductive ContextMode where
  | utf8
  | signed
  deriving DecidableEq, Repr

def ContextMode.code : ContextMode → ℕ
  | .utf8 => 2
  | .signed => 3

/-- A split meta-block: its histograms, blocks and context maps, which are empty where there are
none. -/
structure MetaBlockSplit extends Mbrotli.Compressor.MetaBlockSplit where
  literalSplit : BlockSplit
  commandSplit : BlockSplit
  distanceSplit : BlockSplit
  literalContextMap : List ℕ
  distanceContextMap : List ℕ

/-- The scratch of the meta-block writer. -/
structure MetaBlockWriter where
  tree : List HuffmanNode := []
  arena : Option ContextMapArena := none
  literalDepth : List ℕ := []
  literalBits : List ℕ := []
  commandDepth : List ℕ := []
  commandBits : List ℕ := []
  distanceDepth : List ℕ := []
  distanceBits : List ℕ := []

/-- Splits a meta-block length into its nibble count and value. -/
def encodeMlen (length : ℕ) : ℕ × ℕ × ℕ :=
  let lg := if length = 1 then 1 else Nat.log2 (length - 1) + 1
  let mnibbles := (if lg < 16 then 16 else lg + 3) / 4
  (mnibbles - 4, mnibbles * 4, length - 1)

/-- Writes the header of a compressed meta-block: whether it is the last, and its length. -/
def storeCompressedMetaBlockHeader (isFinalBlock : Bool) (length : ℕ) : List BitOp :=
  let (nibblesbits, nlenbits, lenbits) := encodeMlen length
  (if isFinalBlock then [.write 1 1, .write 1 0] else [.write 1 0]) ++ [.write 2 nibblesbits] ++
    [.write nlenbits lenbits] ++
    if isFinalBlock then [] else [.write 1 0]

/-- Writes a context map, the trivial one where it is empty. -/
def storeContextMap (arena : ContextMapArena) (contextMap : List ℕ) (numHistograms contextBits : ℕ)
    (tree : List HuffmanNode) :
    Option (ContextMapArena × List HuffmanNode × List BitOp) :=
  if contextMap = [] then storeTrivialContextMap arena numHistograms contextBits tree
    else encodeContextMap arena contextMap numHistograms tree

/-- What `store_meta_block` writes before the first command, and the encoders of its streams. -/
def MetaBlockWriter.storeMetaBlockHeader (w : MetaBlockWriter) (length : ℕ) (isLast : Bool)
    (contextMode : ContextMode) (dist : DistanceParams)
    (mb : MetaBlockSplit) :
    Option (MetaBlockWriter × BlockEncoder × BlockEncoder × BlockEncoder × List BitOp) := do
  let literalEnc := BlockEncoder.new numLiteralSymbols mb.literalSplit w.literalDepth w.literalBits
  let commandEnc := BlockEncoder.new numCommandSymbols mb.commandSplit w.commandDepth w.commandBits
  let distanceEnc :=
    BlockEncoder.new dist.alphabetSizeLimit mb.distanceSplit w.distanceDepth w.distanceBits
  let (tree, literalEnc, literalSwitches) ← literalEnc.buildAndStoreBlockSwitchCodes
    mb.literalSplit w.tree
  let (tree, commandEnc, commandSwitches) ← commandEnc.buildAndStoreBlockSwitchCodes
    mb.commandSplit tree
  let (tree, distanceEnc, distanceSwitches) ← distanceEnc.buildAndStoreBlockSwitchCodes
    mb.distanceSplit tree
  let params := [.write 2 dist.postfixBits, .write 4 (dist.numDirect >>> dist.postfixBits)]
  let modes := List.replicate mb.literalSplit.numTypes (.write 2 contextMode.code)
  let (arena, tree, literalMap) ← storeContextMap (w.arena.getD {}) mb.literalContextMap
    mb.literalHistograms.length literalContextBits tree
  let (arena, tree, distanceMap) ← storeContextMap arena mb.distanceContextMap
    mb.distanceHistograms.length distanceContextBits tree
  let (tree, literalEnc, literalCodes) ← literalEnc.buildAndStoreEntropyCodes mb.literalHistograms
    numLiteralSymbols tree
  let (tree, commandEnc, commandCodes) ← commandEnc.buildAndStoreEntropyCodes mb.commandHistograms
    numCommandSymbols tree
  let (tree, distanceEnc, distanceCodes) ← distanceEnc.buildAndStoreEntropyCodes
    mb.distanceHistograms dist.alphabetSizeMax tree
  return ({ tree, arena := some arena, literalDepth := literalEnc.depths, literalBits :=
    literalEnc.bits, commandDepth := commandEnc.depths
            commandBits := commandEnc.bits, distanceDepth := distanceEnc.depths, distanceBits :=
            distanceEnc.bits },
    literalEnc, commandEnc, distanceEnc,
    storeCompressedMetaBlockHeader isLast length ++
    (literalSwitches ++ (commandSwitches ++ (distanceSwitches ++ (params ++ (modes ++
      (literalMap ++ (distanceMap ++ (literalCodes ++ (commandCodes ++ distanceCodes))))))))))

/-! ### The length -/

/-- The nibbles are as few as hold the length, and no fewer than four. -/
theorem encodeMlen_spec {length : ℕ} (h1 : 1 ≤ length) (h24 : length ≤ 2 ^ 24) :
    ∃ nibbles, 4 ≤ nibbles ∧ nibbles ≤ 6 ∧
    encodeMlen length = (nibbles - 4, nibbles * 4, length - 1) ∧ length - 1 < 2 ^ (nibbles * 4) ∧
    (4 < nibbles → 2 ^ ((nibbles - 1) * 4) ≤ length - 1) := by
  by_cases hone : length = 1
  · subst hone
    exact ⟨4, by decide, by decide, rfl, by decide, fun h => absurd h (by decide)⟩
  obtain ⟨lg, hlg⟩ : ∃ lg, Nat.log2 (length - 1) = lg := ⟨_, rfl⟩
  have hlow : 2 ^ lg ≤ length - 1 := hlg ▸ Nat.log2_self_le (by omega)
  have hhigh : length - 1 < 2 ^ (lg + 1) := hlg ▸ Nat.lt_log2_self
  have hlt : lg < 24 :=
    (Nat.pow_lt_pow_iff_right (by decide : 1 < 2)).1
      (hlow.trans_lt (show length - 1 < 2 ^ 24 by omega))
  refine ⟨(if lg + 1 < 16 then 16 else lg + 1 + 3) / 4, ?_, ?_, ?_, ?_, ?_⟩
  · split <;> omega
  · split <;> omega
  · unfold encodeMlen
    rw [if_neg hone, hlg]
  · refine hhigh.trans_le (Nat.pow_le_pow_right (by decide) ?_)
    split <;> omega
  · intro h4
    refine le_trans (Nat.pow_le_pow_right (by decide) ?_) hlow
    split at h4 <;> split <;> omega

theorem storeCompressedMetaBlockHeader_writes {length : ℕ} (h1 : 1 ≤ length) (h24 : length ≤ 2 ^ 24)
    (isFinalBlock : Bool) :
    ∃ nibbles, 4 ≤ nibbles ∧ nibbles ≤ 6 ∧ length - 1 < 2 ^ (nibbles * 4) ∧
    (4 < nibbles → 2 ^ ((nibbles - 1) * 4) ≤ length - 1) ∧
      FastCommands.Writes (storeCompressedMetaBlockHeader isFinalBlock length)
      (Stream.lengthBits nibbles length isFinalBlock) := by
  obtain ⟨nibbles, h4, h6, heq, hfits, hshort⟩ := encodeMlen_spec h1 h24
  refine ⟨nibbles, h4, h6, hfits, hshort, ?_⟩
  have hnibbles : nibbles - 4 < 2 ^ 2 := by omega
  have hwidth : nibbles * 4 ≤ maxBitsPerWrite := by
    have : maxBitsPerWrite = 56 := rfl
    omega
  have hmiddle := (FastCommands.Writes.write (show 2 ≤ maxBitsPerWrite by decide) hnibbles).append
    (FastCommands.Writes.write hwidth hfits)
  unfold storeCompressedMetaBlockHeader Stream.lengthBits
  rw [heq]
  dsimp only
  cases isFinalBlock with
  | false =>
    have hflag :=
      FastCommands.Writes.write (show 1 ≤ maxBitsPerWrite by decide) (show 0 < 2 ^ 1 by decide)
    rw [List.append_assoc _ [_] [_], List.append_assoc _ (ofNat 2 _) (ofNat _ _)]
    exact (hflag.append hmiddle).append hflag
  | true =>
    have hflags :=
      (FastCommands.Writes.write (show 1 ≤ maxBitsPerWrite by decide) (show 1 <
        2 ^ 1 by decide)).append
      (FastCommands.Writes.write (show 1 ≤ maxBitsPerWrite by decide) (show 0 < 2 ^ 1 by decide))
    rw [List.append_assoc _ [_] [_], List.append_assoc _ (ofNat 2 _) (ofNat _ _)]
    exact (hflags.append hmiddle).append FastCommands.Writes.nil

/-! ### The context maps -/

/-- The map a reader is left with: the trivial one where the writer's is empty. -/
def mapOf (contextMap : List ℕ) (numHistograms contextBits : ℕ) : List ℕ :=
  if contextMap = [] then trivialMap numHistograms contextBits else contextMap

/-- A context map for a stream's types: each context has a histogram, and each type its own where
there is no map. -/
def Mapped (contextMap : List ℕ) (contextBits numTypes numHistograms : ℕ) : Prop :=
  if contextMap = [] then numHistograms = numTypes else contextMap.length =
    numTypes <<< contextBits ∧ ∀ x ∈ contextMap, x < numHistograms

theorem length_trivialMap (numTypes contextBits : ℕ) :
    (trivialMap numTypes contextBits).length = numTypes <<< contextBits := by
  rw [trivialMap, List.length_flatMap, Nat.shiftLeft_eq]
  simp only [List.length_replicate, List.map_const', List.sum_replicate,
    List.length_range, smul_eq_mul]

/-- A stream's context map is stored, and its reader comes to the end of it. -/
theorem storeContextMap_stores {arena : ContextMapArena} (harena : arena.Sized)
    {contextMap : List ℕ} {contextBits numTypes numHistograms : ℕ}
    (h2 : 2 ≤ contextBits) (h6 : contextBits ≤ 6) (hmost : numTypes ≤ 256)
    (htrees : 1 ≤ numHistograms ∧ numHistograms ≤ 256)
    (hmapped : Mapped contextMap contextBits numTypes numHistograms) (tree : List HuffmanNode) :
    ∃ arena' tree' calls stored, storeContextMap arena contextMap numHistograms contextBits tree =
    some (arena', tree', calls) ∧
      FastCommands.Writes calls stored ∧
      EndsMap numHistograms (mapOf contextMap numHistograms contextBits) stored ∧ arena'.Sized ∧
      (mapOf contextMap numHistograms contextBits).length = numTypes <<< contextBits := by
  unfold storeContextMap mapOf
  unfold Mapped at hmapped
  by_cases hempty : contextMap = []
  · rw [if_pos hempty] at hmapped
    subst hmapped
    obtain ⟨arena', tree', calls, stored, hstore, hwrites, hends, hsized⟩ :=
      storeTrivialContextMap_stores harena htrees.1 htrees.2 h2 h6 tree
    rw [if_pos hempty, if_pos hempty]
    exact ⟨arena', tree', calls, stored, hstore, hwrites, hends, hsized, length_trivialMap _ _⟩
  · rw [if_neg hempty] at hmapped
    have hlen : contextMap.length ≤ 256 * 64 := by
      rw [hmapped.1, Nat.shiftLeft_eq]
      exact Nat.mul_le_mul hmost (Nat.pow_le_pow_right (by decide) h6)
    obtain ⟨arena', tree', calls, stored, hstore, hwrites, hends, hsized⟩ :=
      encodeContextMap_stores harena htrees.1 htrees.2 hmapped.2 hlen tree
    rw [if_neg hempty, if_neg hempty]
    exact ⟨arena', tree', calls, stored, hstore, hwrites, hends, hsized, hmapped.1⟩

/-! ### The distances -/

/-- Every symbol of an alphabet without a large window is one the reader accepts. -/
theorem validateSymbol_small {d : DistanceLayout} (hlarge : d.large = false)
    (hscaleBits : d.postfix_ ≤ 3) (hdirect : d.direct ≤ 120) {symbol : ℕ}
    (hsymbol : symbol < d.alphabet) : d.validateSymbol symbol = .ok () := by
  have hmax : maxDistance = 2 ^ 63 - 4 := rfl
  have hshort : shortCodes = 16 := rfl
  have hscale : 2 ^ d.postfix_ ≤ 2 ^ 3 := Nat.pow_le_pow_right (by decide) hscaleBits
  unfold DistanceLayout.validateSymbol
  rw [if_neg (by omega), if_neg]
  rintro ⟨h16, hfar⟩
  refine absurd hfar (Nat.not_lt.2 ?_)
  unfold DistanceLayout.longDistance
  by_cases hnear : symbol < shortCodes + d.direct
  · rw [if_pos hnear]
    omega
  rw [if_neg hnear]
  dsimp only
  unfold DistanceLayout.alphabet at hsymbol
  rw [hlarge, if_neg (by decide), Nat.shiftLeft_eq] at hsymbol
  have hcode : (symbol - shortCodes - d.direct) >>> (d.postfix_ + 1) ≤ 23 := by
    rw [Nat.shiftRight_eq_div_pow, Nat.pow_succ]
    refine Nat.le_of_lt_succ ((Nat.div_lt_iff_lt_mul (by positivity)).2 ?_)
    omega
  have hextra : d.extraBits symbol ≤ 24 := by
    unfold DistanceLayout.extraBits
    rw [if_neg hnear]
    omega
  have hwide : 2 ^ d.extraBits symbol ≤ 2 ^ 24 := Nat.pow_le_pow_right (by decide) hextra
  have hlow := Nat.mod_lt (symbol - shortCodes - d.direct) (Nat.two_pow_pos d.postfix_)
  have hhigh : (2 + (symbol - shortCodes - d.direct) >>> d.postfix_ % 2) * 2 ^ d.extraBits symbol ≤
      3 * 2 ^ 24 :=
    Nat.mul_le_mul (by omega) hwide
  have hscaled : ((2 + (symbol - shortCodes - d.direct) >>> d.postfix_ % 2) * 2 ^
    d.extraBits symbol - 4 + (2 ^ d.extraBits symbol - 1)) * 2 ^ d.postfix_ ≤
      (3 * 2 ^ 24 + 2 ^ 24) * 2 ^ 3 := Nat.mul_le_mul (by omega) hscale
  rw [Nat.shiftLeft_eq, Nat.shiftLeft_eq]
  omega

/-- The two fields of the parameters hold them. -/
theorem params_lt {dist : DistanceParams} (hlegal : dist.Legal) :
    dist.postfixBits < 2 ^ 2 ∧ dist.numDirect >>> dist.postfixBits < 2 ^ 4 := by
  refine ⟨Nat.lt_succ_of_le hlegal.postfixBits, ?_⟩
  have hmultiple := hlegal.multiple
  rw [Nat.shiftLeft_eq] at hmultiple
  have hshift : dist.numDirect >>> dist.postfixBits = dist.numDirect >>> dist.postfixBits % 16 := by
    conv_lhs => rw [← hmultiple, Nat.shiftRight_eq_div_pow,
      Nat.mul_div_cancel _ (Nat.two_pow_pos _)]
  rw [hshift]
  exact Nat.mod_lt _ (by decide)

/-- An alphabet without a large window is small. -/
theorem alphabet_bounds {dist : DistanceParams} (hlegal : dist.Legal) :
    1 ≤ (dist.layout false).alphabet ∧ (dist.layout false).alphabet ≤ 520 := by
  have hscale : 2 ^ dist.postfixBits ≤ 2 ^ 3 := Nat.pow_le_pow_right (by decide) hlegal.postfixBits
  have hdirect : dist.numDirect ≤ 120 := hlegal.numDirect
  have heq : (dist.layout false).alphabet = 16 + dist.numDirect + 48 * 2 ^ dist.postfixBits := by
    rw [← Nat.shiftLeft_eq]
    rfl
  rw [heq]
  exact ⟨by omega, by omega⟩

/-- Without a large window the writer's alphabet is the reader's. -/
theorem forWindow_alphabet (postfixBits numDirect : ℕ) :
    (DistanceParams.forWindow false postfixBits numDirect).alphabetSizeMax =
    ((DistanceParams.forWindow false postfixBits numDirect).layout false).alphabet ∧
      (DistanceParams.forWindow false postfixBits numDirect).alphabetSizeLimit =
      (DistanceParams.forWindow false postfixBits numDirect).alphabetSizeMax := by
  refine ⟨?_, rfl⟩
  show numDistanceShortCodes + numDirect + (24 <<< (postfixBits + 1)) =
    shortCodes + numDirect + (48 <<< postfixBits)
  have hshift : 24 <<< (postfixBits + 1) = 48 <<< postfixBits := by
    rw [Nat.shiftLeft_eq, Nat.shiftLeft_eq, Nat.pow_succ]
    omega
  rw [hshift]
  rfl

/-! ### The header round trip -/

/-- A block that a header has opened, with codes that find the writer's patterns and cover the
switches of the split. -/
structure Opens (split : BlockSplit) (code : BlockSplitCode) (b : Mbrotli.Block) : Prop where
  ready : b.stage = .ready
  count : b.count = split.numTypes
  current : b.current = 0
  previous : b.previous = 1
  remaining : b.remaining = if split.numTypes = 1 then u64Max else split.lengths.getD 0 0
  switches : split.numTypes ≠ 1 → ∃ usedTypes usedLengths,
    b.types.Finds usedTypes code.typeDepths code.typeBits ∧
    b.lengths.Finds usedLengths code.lengthDepths code.lengthBits ∧ code.calculator = afterFirst ∧
      Covers code split.numTypes (split.types.drop 1) (split.lengths.drop 1) usedTypes usedLengths

/-- A split meta-block the writer is given. -/
structure MetaBlockSplit.Valid (mb : MetaBlockSplit) (distanceAlphabet : ℕ) : Prop where
  literalSplit : mb.literalSplit.Valid
  commandSplit : mb.commandSplit.Valid
  distanceSplit : mb.distanceSplit.Valid
  literalTrees : 1 ≤ mb.literalHistograms.length ∧ mb.literalHistograms.length ≤ 256
  commandTrees : mb.commandHistograms.length = mb.commandSplit.numTypes
  distanceTrees : 1 ≤ mb.distanceHistograms.length ∧ mb.distanceHistograms.length ≤ 256
  literalMap : Mapped mb.literalContextMap literalContextBits mb.literalSplit.numTypes
    mb.literalHistograms.length
  distanceMap : Mapped mb.distanceContextMap distanceContextBits mb.distanceSplit.numTypes
    mb.distanceHistograms.length
  literalCounts : ∀ data ∈ mb.literalHistograms, (data.take numLiteralSymbols).sum < 2 ^ 24
  commandCounts : ∀ data ∈ mb.commandHistograms, (data.take numCommandSymbols).sum < 2 ^ 24
  distanceCounts : ∀ data ∈ mb.distanceHistograms, (data.take distanceAlphabet).sum < 2 ^ 24

/-- An encoder at the start of its stream. -/
def BlockEncoder.Starts (e : BlockEncoder) (histogramLength : ℕ) (split : BlockSplit) : Prop :=
  ∃ code depths bits, e = { BlockEncoder.new histogramLength split depths bits
    with splitCode := code }

/-- A stream's encoder, and the block and the trees of a reader of it. -/
def Meets (e : BlockEncoder) (split : BlockSplit) (histograms : List (List ℕ)) (b : Mbrotli.Block)
    (trees : Group) : Prop :=
  Opens split e.splitCode b ∧ Coded trees histograms.length e.histogramLength e.depths e.bits
    fun h => usedSymbols (histograms.getD h []) e.histogramLength

/-- A stream that stands at the first command of the meta-block, with what its writer has. -/
def AtCommands (length : ℕ) (isLast : Bool) (contextMode : ContextMode) (dist : DistanceParams)
    (mb : MetaBlockSplit)
    (literal command distance : BlockEncoder) (s : Stream) : Prop :=
  ∃ t, s.Heading length isLast .command t ∧ t.distances = dist.layout false ∧
    (∀ j < mb.literalSplit.numTypes, t.modes j = contextMode.code) ∧
    (t.maps 0).values.toList = mapOf mb.literalContextMap mb.literalHistograms.length
    literalContextBits ∧
    (t.maps 1).values.toList = mapOf mb.distanceContextMap mb.distanceHistograms.length
    distanceContextBits ∧
    Meets literal mb.literalSplit mb.literalHistograms (t.blocks 0) (t.trees 0) ∧
    Meets command mb.commandSplit mb.commandHistograms (t.blocks 1) (t.trees 1) ∧
    Meets distance mb.distanceSplit mb.distanceHistograms (t.blocks 2) (t.trees 2)

/-- The rounds stop at a command. -/
def atCommand (stage : Stage) : Bool := decide (stage = .command)

section

variable {env : Env} {I : List UInt8} {B p length : ℕ} {last : Bool} {s : Stream}
    {t : Mbrotli.Tables}

theorem crosses_block {split : BlockSplit} {code : BlockSplitCode} {usedTypes usedLengths : List ℕ}
    {stored : List Bool} {i : Fin 3}
    (hends : EndsHeader split code usedTypes usedLengths stored)
    (hcovers : split.numTypes ≠ 1 → code.calculator = afterFirst ∧
      Covers code split.numTypes (split.types.drop 1) (split.lengths.drop 1) usedTypes usedLengths)
    (hs : s.Heading length last (.blocks i) t) (hreset : (t.blocks i).reset = t.blocks i) :
    Stream.Crosses env atCommand I B s p stored fun s' => ∃ b builder,
      s'.Heading length last (Stream.afterBlock i) ({ t with builder }.setBlock i b) ∧
      Opens split code b := by
  intro hspells hend
  obtain ⟨r, q, hr, hopened, hq⟩ :=
    hends (t.blocks i) t.builder s.memory I B p hreset hs.start hspells hend
  refine (Stream.passes_block hs (decide_eq_false (by simp)) hr hopened hq).mono fun s' hs' => ?_
  obtain ⟨b, builder, memory, hheading, hready, hcount, hcurrent, hprevious, hremaining,
    hfinds, -, -⟩ := hs'
  exact ⟨b, builder, hheading, hready, hcount, hcurrent, hprevious, hremaining, fun hne =>
    ⟨usedTypes, usedLengths, (hfinds hne).1, (hfinds hne).2, hcovers hne⟩⟩

theorem crosses_params {dist : DistanceParams} (hlegal : dist.Legal)
    (hs : s.Heading length last .distanceParams t) :
    Stream.Crosses env atCommand I B s p
    (ofNat 2 dist.postfixBits ++ ofNat 4 (dist.numDirect >>> dist.postfixBits)) fun s' => ∃ t',
      s'.Heading length last (.modes 0) t' ∧ t'.distances = dist.layout false ∧
      t'.blocks = t.blocks ∧ t'.maps = t.maps := by
  intro hspells hend
  obtain ⟨hscaleBits, hdirect⟩ := params_lt hlegal
  have hparams : dist.postfixBits ||| ((dist.numDirect >>> dist.postfixBits) <<< 2) < 2 ^ 6 :=
    Nat.or_lt_two_pow (hscaleBits.trans (by decide)) (by rw [Nat.shiftLeft_eq]; omega)
  rw [← ofNat_append 4 (dist.numDirect >>> dist.postfixBits) hscaleBits] at hspells hend ⊢
  rw [length_ofNat] at hend ⊢
  refine (Stream.passes_distanceParams hs hparams hspells hend).mono fun s' hs' => ?_
  obtain ⟨t', hheading, hdistances, hblocks, hmaps⟩ := hs'
  refine ⟨t', hheading, ?_, hblocks, hmaps⟩
  rw [hdistances, Nat.or_comm]
  exact fromHeader_eq_layout hlegal false

theorem crosses_modes {contextMode : ContextMode} {count : ℕ}
    (hs : s.Heading length last (.modes 0) t) (hcount : (t.blocks 0).count = count)
    (hone : 1 ≤ count) :
    Stream.Crosses env atCommand I B s p (List.replicate count (ofNat 2 contextMode.code)).flatten
    fun s' => ∃ modes,
      s'.Heading length last (.maps 0) { t with modes } ∧ ∀ j < count,
      modes j = contextMode.code := by
  intro hspells hend
  obtain ⟨k, rfl⟩ := Nat.exists_eq_add_of_le' hone
  have hcode : contextMode.code < 2 ^ 2 := by cases contextMode <;> decide
  have hlen : (List.replicate (k + 1) (ofNat 2 contextMode.code)).flatten.length = 2 * (k + 1) := by
    rw [List.length_flatten, List.map_replicate, List.sum_replicate, length_ofNat,
      smul_eq_mul, Nat.mul_comm]
  rw [hlen] at hend ⊢
  exact Stream.passes_modes (fun i => decide_eq_false (by simp)) hcode k hs hcount (Nat.zero_add _)
    (fun j hj => absurd hj (Nat.not_lt_zero j))
    hspells hend

theorem crosses_literalMap {trees : ℕ} {values : List ℕ} {stored : List Bool}
    (hends : EndsMap trees values stored)
    (hs : s.Heading length last (.maps 0) t) (hmap : (t.maps 0).stage = .treeCount)
    (hsize : values.length = t.mapSize 0) :
    Stream.Crosses env atCommand I B s p stored fun s' =>
    ∃ m builder, s'.Heading length last (.maps 1) ({ t with builder }.setMap 0 m) ∧
      m.trees = trees ∧ m.values.toList = values := by
  intro hspells hend
  obtain ⟨r, q, hr, hended, hq⟩ :=
    hends (t.maps 0) t.builder s.memory I B p hmap hs.start hspells hend
  rw [hsize] at hr
  exact Stream.passes_literalMap hs (decide_eq_false (by simp)) hr hended hq

theorem crosses_distanceMap {trees : ℕ} {values : List ℕ} {stored : List Bool}
    (hends : EndsMap trees values stored)
    (hs : s.Heading length last (.maps 1) t) (hmap : (t.maps 1).stage = .treeCount)
    (hsize : values.length = t.mapSize 1)
    (halpha : ∀ g, 1 ≤ t.alphabet g ∧ t.alphabet g ≤ Mbrotli.maxAlphabet) :
    Stream.Crosses env atCommand I B s p stored fun s' => ∃ m builder groups,
      s'.Heading length last (.trees 0 0) { { t with builder }.setMap 1 m with trees := groups } ∧
      m.trees = trees ∧ m.values.toList = values ∧
        ∀ g, (groups g).count = ({ t with builder }.setMap 1 m).treeCount g ∧ (groups g).Ready := by
  intro hspells hend
  obtain ⟨r, q, hr, hended, hq⟩ :=
    hends (t.maps 1) t.builder s.memory I B p hmap hs.start hspells hend
  rw [hsize] at hr
  exact Stream.passes_distanceMap hs (decide_eq_false (by simp)) halpha hr hended hq

theorem crosses_trees {alphabet : ℕ} {histograms : List (List ℕ)} {histogramLength : ℕ}
    {depths bits : List ℕ} {describe : ℕ → CodeDescription}
    {group : Fin 3} (hdescribed : Stream.Described alphabet histograms.length describe
      (fun h => usedSymbols (histograms.getD h []) histogramLength)
      (fun h => depths.drop (h * histogramLength)) (fun h => bits.drop (h * histogramLength)))
    (hcoded : ∀ g : Group, g.count = histograms.length →
      (∀ h < histograms.length, g.Shows h (usedSymbols (histograms.getD h []) histogramLength)
      (depths.drop (h * histogramLength)) (bits.drop (h * histogramLength))) →
      Coded g histograms.length histogramLength depths bits fun h =>
      usedSymbols (histograms.getD h []) histogramLength)
    (h1 : 1 ≤ alphabet) (hmax : alphabet ≤ Mbrotli.maxAlphabet) (hone : 1 ≤ histograms.length)
    (hs : s.Heading length last (.trees group 0) t) (halphabet : t.alphabet group = alphabet)
    (hvalid : group = 2 → ∀ symbol < alphabet, t.distances.validateSymbol symbol = .ok ())
    (htrees : (t.trees group).count = histograms.length)
    (hready : (t.trees group).Ready) :
    Stream.Crosses env atCommand I B s p (Stream.treesBits alphabet describe 0 histograms.length)
    fun s' => ∃ builder g,
      s'.Heading length last (Stream.afterTrees group) ({ t with builder }.setTree group g) ∧
        Coded g histograms.length histogramLength depths bits fun h =>
        usedSymbols (histograms.getD h []) histogramLength := by
  intro hspells hend
  refine (Stream.passes_trees hs (fun i => decide_eq_false (by simp)) h1 hmax hdescribed halphabet
    hvalid hone htrees hready hspells hend).mono
    fun s' hs' => ?_
  obtain ⟨builder, g, hheading, hcount, hshows⟩ := hs'
  exact ⟨builder, g, hheading, hcoded g hcount hshows⟩

end

theorem modes_write (contextMode : ContextMode) (count : ℕ) :
    FastCommands.Writes (List.replicate count (.write 2 contextMode.code))
    (List.replicate count (ofNat 2 contextMode.code)).flatten := by
  induction count with
  | zero => exact FastCommands.Writes.nil
  | succ n ih =>
    rw [List.replicate_succ, List.replicate_succ, List.flatten_cons]
    exact FastCommands.Writes.cons (by decide) (by cases contextMode <;> decide) rfl ih

/-- A stream at a meta-block's header gets over the bits `stored` to its first command, in a state
with `P`. -/
def CrossedToCommands (length : ℕ) (P : Stream → Prop) (stored : List Bool) : Prop :=
  ∀ (env : Env) (I : List UInt8) (B p : ℕ) (s : Stream), s.stage = .metaBlock → s.large = false →
    (∀ t, s.tables = some t → t.builder.stage = .start) → s.position + length ≤ u64Max →
    Stream.Crosses env atCommand I B s p stored P

/-- **The header is stored, and a reader crosses it.** -/
theorem storeMetaBlockHeader_crossed (w : MetaBlockWriter)
    (harena : ∀ arena, w.arena = some arena → arena.Sized) {length : ℕ} (h1 : 1 ≤ length)
    (h24 : length ≤ 2 ^ 24) (isLast : Bool) (contextMode : ContextMode) {postfixBits numDirect : ℕ}
    (hlegal : (DistanceParams.forWindow false postfixBits numDirect).Legal) {mb : MetaBlockSplit}
    (hmb : mb.Valid (DistanceParams.forWindow false postfixBits numDirect).alphabetSizeLimit) :
    ∃ w' literal command distance calls stored, w.storeMetaBlockHeader length isLast contextMode
        (DistanceParams.forWindow false postfixBits numDirect) mb =
        some (w', literal, command, distance, calls) ∧
      FastCommands.Writes calls stored ∧
      (literal.Starts numLiteralSymbols mb.literalSplit ∧
        command.Starts numCommandSymbols mb.commandSplit ∧
        distance.Starts (DistanceParams.forWindow false postfixBits numDirect).alphabetSizeLimit
        mb.distanceSplit) ∧
      CrossedToCommands length
        (AtCommands length isLast contextMode (DistanceParams.forWindow false postfixBits numDirect)
          mb literal command distance) stored := by
  obtain ⟨hmaxAlphabet, hlimit⟩ := forWindow_alphabet postfixBits numDirect
  generalize hdist : DistanceParams.forWindow false postfixBits numDirect =
    dist at hlegal hmb hmaxAlphabet hlimit ⊢
  obtain ⟨hdistOne, hsmall⟩ := alphabet_bounds hlegal
  obtain ⟨hscaleBits, hdirect⟩ := params_lt hlegal
  have hliteral : numLiteralSymbols = 256 := rfl
  have hcommand : numCommandSymbols = 704 := rfl
  have hmax : Mbrotli.maxAlphabet = 1128 := rfl
  -- the parts
  obtain ⟨nibbles, h4, h6, hfits, hshort, hwritesLength⟩ :=
    storeCompressedMetaBlockHeader_writes h1 h24 isLast
  obtain ⟨tree₀, code₀, calls₀, bits₀, types₀, lengths₀, hcode₀, hwrites₀, hends₀, hcovers₀⟩ :=
    buildAndStoreBlockSplitCode_stores hmb.literalSplit w.tree
  obtain ⟨tree₁, code₁, calls₁, bits₁, types₁, lengths₁, hcode₁, hwrites₁, hends₁, hcovers₁⟩ :=
    buildAndStoreBlockSplitCode_stores hmb.commandSplit tree₀
  obtain ⟨tree₂, code₂, calls₂, bits₂, types₂, lengths₂, hcode₂, hwrites₂, hends₂, hcovers₂⟩ :=
    buildAndStoreBlockSplitCode_stores hmb.distanceSplit tree₁
  have hsized : (w.arena.getD {}).Sized := by
    cases ha : w.arena with
    | none => exact ContextMapArena.sized
    | some arena => exact harena arena ha
  obtain ⟨arena₃, tree₃, calls₃, bits₃, hmap₃, hwrites₃, hends₃, hsized₃, hlen₃⟩ :=
    storeContextMap_stores hsized (by decide) (by decide)
      hmb.literalSplit.most hmb.literalTrees hmb.literalMap tree₂
  obtain ⟨arena₄, tree₄, calls₄, bits₄, hmap₄, hwrites₄, hends₄, hsized₄, hlen₄⟩ :=
    storeContextMap_stores hsized₃ (by decide) (by decide)
      hmb.distanceSplit.most hmb.distanceTrees hmb.distanceMap tree₃
  obtain ⟨tree₅, depths₅, patterns₅, calls₅, describe₅, hcodes₅, hwrites₅, hdescribed₅, hcoded₅⟩ :=
    { BlockEncoder.new numLiteralSymbols mb.literalSplit w.literalDepth w.literalBits
      with splitCode := code₀ }.buildAndStoreEntropyCodes_stores
      (show 1 ≤ numLiteralSymbols by decide) (show numLiteralSymbols ≤ numCommandSymbols by decide)
        (Nat.le_refl numLiteralSymbols)
      (show numLiteralSymbols ≤ Mbrotli.maxAlphabet by decide) hmb.literalCounts tree₄
  obtain ⟨tree₆, depths₆, patterns₆, calls₆, describe₆, hcodes₆, hwrites₆, hdescribed₆, hcoded₆⟩ :=
    { BlockEncoder.new numCommandSymbols mb.commandSplit w.commandDepth w.commandBits
      with splitCode := code₁ }.buildAndStoreEntropyCodes_stores
      (show 1 ≤ numCommandSymbols by decide) (Nat.le_refl numCommandSymbols)
        (Nat.le_refl numCommandSymbols)
      (show numCommandSymbols ≤ Mbrotli.maxAlphabet by decide) hmb.commandCounts tree₅
  obtain ⟨tree₇, depths₇, patterns₇, calls₇, describe₇, hcodes₇, hwrites₇, hdescribed₇, hcoded₇⟩ :=
    { BlockEncoder.new dist.alphabetSizeLimit mb.distanceSplit w.distanceDepth w.distanceBits
      with splitCode := code₂ }.buildAndStoreEntropyCodes_stores
      (show 1 ≤ dist.alphabetSizeLimit by omega) (show dist.alphabetSizeLimit ≤
        numCommandSymbols by omega)
      (show dist.alphabetSizeLimit ≤ dist.alphabetSizeMax by omega) (show dist.alphabetSizeMax ≤
        Mbrotli.maxAlphabet by omega)
      hmb.distanceCounts tree₆
  have hparams : FastCommands.Writes [.write 2 dist.postfixBits,
    .write 4 (dist.numDirect >>> dist.postfixBits)]
      (ofNat 2 dist.postfixBits ++ ofNat 4 (dist.numDirect >>> dist.postfixBits)) :=
    FastCommands.Writes.cons (by decide) hscaleBits rfl
      (FastCommands.Writes.write (by decide) hdirect)
  refine ⟨{ tree := tree₇, arena := some arena₄, literalDepth := depths₅, literalBits :=
    patterns₅, commandDepth := depths₆
            commandBits := patterns₆, distanceDepth := depths₇, distanceBits := patterns₇ },
    { BlockEncoder.new numLiteralSymbols mb.literalSplit w.literalDepth w.literalBits
      with splitCode := code₀, depths := depths₅, bits := patterns₅ },
    { BlockEncoder.new numCommandSymbols mb.commandSplit w.commandDepth w.commandBits
      with splitCode := code₁, depths := depths₆, bits := patterns₆ },
    { BlockEncoder.new dist.alphabetSizeLimit mb.distanceSplit w.distanceDepth w.distanceBits with
        splitCode := code₂, depths := depths₇, bits := patterns₇ }, _, _, ?_,
    hwritesLength.append (hwrites₀.append (hwrites₁.append (hwrites₂.append (hparams.append
    ((modes_write contextMode mb.literalSplit.numTypes).append
      (hwrites₃.append (hwrites₄.append (hwrites₅.append (hwrites₆.append hwrites₇))))))))),
    ⟨⟨code₀, depths₅, patterns₅, rfl⟩, ⟨code₁, depths₆, patterns₆, rfl⟩,
      ⟨code₂, depths₇, patterns₇, rfl⟩⟩,
    fun env I B p s hstage hlarge htables hposition => ?_⟩
  · have hnew : ∀ n split depths bits, (BlockEncoder.new n split depths bits).splitCode = {} :=
      fun _ _ _ _ => rfl
    simp only [MetaBlockWriter.storeMetaBlockHeader, BlockEncoder.buildAndStoreBlockSwitchCodes,
      hnew, hcode₀, hcode₁, hcode₂, hmap₃, hmap₄, hcodes₅,
      hcodes₆, hcodes₇, Option.bind_eq_bind, Option.bind_some, Option.pure_def]
  have hgo : ∀ {s' : Stream} {stage : Stage}, s'.stage = stage → stage ≠ .command →
      atCommand s'.stage = false :=
    fun h hne => decide_eq_false (h ▸ hne)
  -- the length
  refine Stream.Crosses.append (fun hspells hend => Stream.passes_metaBlock hstage hlarge htables h4
    h6 h1 hfits hshort hposition hspells hend)
    (by rintro s' ⟨_, hs', -⟩; exact hgo hs'.stage (by simp)) ?_
  rintro s₀ ⟨t₀, hs₀, hblocks, hmaps⟩
  -- the block headers
  refine Stream.Crosses.append (crosses_block hends₀ hcovers₀ hs₀ (hblocks 0))
    (by rintro s' ⟨_, _, hs', -⟩; exact hgo hs'.stage (by simp [Stream.afterBlock])) ?_
  rintro s₁ ⟨b₀, u₀, hs₁, hopens₀⟩
  refine Stream.Crosses.append (crosses_block hends₁ hcovers₁ hs₁ (hblocks 1))
    (by rintro s' ⟨_, _, hs', -⟩; exact hgo hs'.stage (by simp [Stream.afterBlock])) ?_
  rintro s₂ ⟨b₁, u₁, hs₂, hopens₁⟩
  refine Stream.Crosses.append (crosses_block hends₂ hcovers₂ hs₂ (hblocks 2))
    (by rintro s' ⟨_, _, hs', -⟩; exact hgo hs'.stage (by simp [Stream.afterBlock])) ?_
  rintro s₃ ⟨b₂, u₂, hs₃, hopens₂⟩
  -- the distance parameters and the modes
  refine Stream.Crosses.append (crosses_params hlegal hs₃)
    (by rintro s' ⟨_, hs', -⟩; exact hgo hs'.stage (by simp)) ?_
  rintro s₄ ⟨t₄, hs₄, hdistances, hblocks₄, hmaps₄⟩
  have hcount : (t₄.blocks 0).count = mb.literalSplit.numTypes := by
    rw [hblocks₄]; exact hopens₀.count
  refine Stream.Crosses.append (crosses_modes hs₄ hcount hmb.literalSplit.one)
    (by rintro s' ⟨_, hs', -⟩; exact hgo hs'.stage (by simp)) ?_
  rintro s₅ ⟨modes, hs₅, hmodes⟩
  -- the context maps
  have hmaps₅ : ∀ i, (t₄.maps i).stage = .treeCount := by rw [hmaps₄]; exact hmaps
  have hsize₀ : (mapOf mb.literalContextMap mb.literalHistograms.length literalContextBits).length =
      (t₄.blocks 0).count <<< 6 := by
    rw [hcount]
    exact hlen₃
  refine Stream.Crosses.append (crosses_literalMap hends₃ hs₅ (hmaps₅ 0) hsize₀)
    (by rintro s' ⟨_, _, hs', -⟩; exact hgo hs'.stage (by simp)) ?_
  rintro s₆ ⟨m₀, u₆, hs₆, htrees₀, hvalues₀⟩
  have hsize₁ :
      (mapOf mb.distanceContextMap mb.distanceHistograms.length distanceContextBits).length =
      (t₄.blocks 2).count <<< 2 := by
    rw [hblocks₄, hlen₄]
    exact congrArg (· <<< 2) hopens₂.count.symm
  have halpha : ∀ g : Fin 3, 1 ≤ t₄.alphabet g ∧ t₄.alphabet g ≤ Mbrotli.maxAlphabet := by
    intro g
    unfold Tables.alphabet
    rw [hdistances, hmax]
    split
    · exact ⟨by decide, by decide⟩
    split
    · exact ⟨by decide, by decide⟩
    · exact ⟨hdistOne, by omega⟩
  refine Stream.Crosses.append (crosses_distanceMap hends₄ hs₆ (hmaps₅ 1) hsize₁ halpha)
    (by rintro s' ⟨_, _, _, hs', -⟩; exact hgo hs'.stage (by simp)) ?_
  rintro s₇ ⟨m₁, u₇, groups, hs₇, htrees₁, hvalues₁, hgroups⟩
  -- the codes
  have hcount₁ : (t₄.blocks 1).count = mb.commandHistograms.length := by
    rw [hblocks₄, hmb.commandTrees]; exact hopens₁.count
  refine Stream.Crosses.append (crosses_trees hdescribed₅ hcoded₅ (by decide) (by omega)
    hmb.literalTrees.1 hs₇ rfl (fun h => absurd h (by decide))
    ((hgroups 0).1.trans htrees₀) (hgroups 0).2)
      (by rintro s' ⟨_, _, hs', -⟩; exact hgo hs'.stage (by simp [Stream.afterTrees])) ?_
  rintro s₈ ⟨u₈, g₀, hs₈, hcoded₀⟩
  refine Stream.Crosses.append (crosses_trees hdescribed₆ hcoded₆ (by decide) (by omega)
    (by rw [hmb.commandTrees]; exact hmb.commandSplit.one) hs₈ rfl
    (fun h => absurd h (by decide)) ((hgroups 1).1.trans hcount₁) (hgroups 1).2)
    (by rintro s' ⟨_, _, hs', -⟩; exact hgo hs'.stage (by simp [Stream.afterTrees])) ?_
  rintro s₉ ⟨u₉, g₁, hs₉, hcoded₁⟩
  intro hspells hend
  refine (crosses_trees hdescribed₇ hcoded₇ (by omega) (by omega) hmb.distanceTrees.1 hs₉ ?_ ?_
    ((hgroups 2).1.trans htrees₁) (hgroups 2).2
    hspells hend).mono fun s' hs' => ?_
  · show t₄.distances.alphabet = _
    rw [hdistances, hmaxAlphabet]
  · intro _ symbol hsymbol
    show t₄.distances.validateSymbol symbol = _
    rw [hmaxAlphabet] at hsymbol
    rw [hdistances]
    exact validateSymbol_small rfl hlegal.postfixBits hlegal.numDirect hsymbol
  · obtain ⟨u, g₂, hs', hcoded₂⟩ := hs'
    refine ⟨_, hs', hdistances, hmodes, hvalues₀, hvalues₁, ⟨?_, hcoded₀⟩,
      ⟨?_, hcoded₁⟩, ?_, hcoded₂⟩
    · show Opens _ _ (t₄.blocks 0)
      rw [hblocks₄]
      exact hopens₀
    · show Opens _ _ (t₄.blocks 1)
      rw [hblocks₄]
      exact hopens₁
    · show Opens _ _ (t₄.blocks 2)
      rw [hblocks₄]
      exact hopens₂

/-- The bits `stored` bring a stream at a meta-block's header to its first command, in a state with
`P`: wherever they stand and however the stream is split into calls, unless the memory limit refuses
it room. -/
def ReadsToCommands (length : ℕ) (P : Stream → Prop) (stored : List Bool) : Prop :=
  ∀ (env : Env) (s : Stream) (I : List UInt8) (p total : ℕ) (limit : Option ℕ) (reservoir : Bits)
    (pieces : List (List UInt8)),
    s.stage = .metaBlock → s.large = false → (∀ t, s.tables = some t → t.builder.stage = .start) →
    s.position + length ≤ u64Max →
    I.length ≤ u64Max → Mbrotli.Cursor I p reservoir total → total ≤ I.length →
    (∀ l, limit = some l → total ≤ l) → pieces ≠ [] →
    pieces.flatten = I.drop total → BitString.Spells I p stored →
    p + stored.length ≤ 8 * Builder.allowed limit I.length →
    ∃ n reservoir' total' s',
      (∃ l, s.memory.limit = some l ∧ ∀ fuel, n ≤ fuel →
        calls (Stream.rounds env atCommand) fuel limit pieces s reservoir total =
        (.fault (.error (.memoryLimitExceeded l)), s', reservoir', total')) ∨
      ((∀ fuel, n ≤ fuel → calls (Stream.rounds env atCommand) fuel limit pieces s reservoir total =
        (.done (), s', reservoir', total')) ∧
        Mbrotli.Cursor I (p + stored.length) reservoir' total' ∧
        s'.memory.limit = s.memory.limit ∧ P s')

theorem CrossedToCommands.mono {length : ℕ} {P Q : Stream → Prop} {stored : List Bool}
    (h : CrossedToCommands length P stored)
    (hPQ : ∀ s, P s → Q s) : CrossedToCommands length Q stored :=
  fun env I B p s hstage hlarge htables hposition hspells hend =>
  (h env I B p s hstage hlarge htables hposition hspells hend).mono hPQ

theorem AtCommands.stage {length : ℕ} {isLast : Bool} {contextMode : ContextMode}
    {dist : DistanceParams} {mb : MetaBlockSplit}
    {literal command distance : BlockEncoder} {s : Stream}
    (h : AtCommands length isLast contextMode dist mb literal command distance s) :
    s.stage = .command := by
  obtain ⟨t, hheading, -⟩ := h
  exact hheading.stage

/-- What is crossed in one stream is read over any calls. -/
theorem CrossedToCommands.reads {length : ℕ} {P : Stream → Prop} {stored : List Bool}
    (h : CrossedToCommands length P stored)
    (hP : ∀ s, P s → s.stage = .command) : ReadsToCommands length P stored := by
  intro env s I p total limit reservoir pieces hstage hlarge htables hposition hI hc ht hl hne
    hpieces hspells hend
  rcases h env I _ p s hstage hlarge htables hposition hspells hend with ⟨l, s', q, hlimit,
    hends⟩ | ⟨s', hsame, hs', hgo⟩
  · obtain ⟨n, reservoir', total', hcalls, -⟩ :=
      calls_of_ends hI pieces hends hc ht hl hpieces (Or.inl hne)
    exact ⟨n, reservoir', total', s', Or.inl ⟨l, hlimit, hcalls⟩⟩
  · have hends := hgo _ _ (Or.inl ⟨decide_eq_true (hP s' hs'), rfl, rfl⟩)
    obtain ⟨n, reservoir', total', hcalls, hcursor⟩ :=
      calls_of_ends hI pieces hends hc ht hl hpieces (Or.inl hne)
    exact ⟨n, reservoir', total', s', Or.inr ⟨hcalls, hcursor, hsame, hs'⟩⟩

/-- **The header of a split meta-block survives the writer and the reader.** -/
theorem meta_block_header_round_trip (w : MetaBlockWriter)
    (harena : ∀ arena, w.arena = some arena → arena.Sized) {length : ℕ} (h1 : 1 ≤ length)
    (h24 : length ≤ 2 ^ 24) (isLast : Bool) (contextMode : ContextMode) {postfixBits numDirect : ℕ}
    (hlegal : (DistanceParams.forWindow false postfixBits numDirect).Legal) {mb : MetaBlockSplit}
    (hmb : mb.Valid (DistanceParams.forWindow false postfixBits numDirect).alphabetSizeLimit) :
    ∃ w' literal command distance calls stored, w.storeMetaBlockHeader length isLast contextMode
        (DistanceParams.forWindow false postfixBits numDirect) mb =
        some (w', literal, command, distance, calls) ∧
      FastCommands.Writes calls stored ∧ ReadsToCommands length
        (AtCommands length isLast contextMode (DistanceParams.forWindow false postfixBits numDirect)
          mb literal command distance) stored := by
  obtain ⟨w', literal, command, distance, calls, stored, hstore, hwrites, -, hcrosses⟩ :=
    storeMetaBlockHeader_crossed w harena h1 h24 isLast contextMode hlegal hmb
  exact ⟨w', literal, command, distance, calls, stored, hstore, hwrites,
    hcrosses.reads fun s hs => hs.stage⟩

/-- Two types of literals that take turns, without context maps. -/
def turnsSplit : MetaBlockSplit where
  literalHistograms := [[3, 1] ++ List.replicate 254 0, [0, 5] ++ List.replicate 254 0]
  commandHistograms := [[2] ++ List.replicate 703 0]
  distanceHistograms := [[1] ++ List.replicate 543 0]
  literalSplit := { numTypes := 2, types := [0, 1], lengths := [4, 5] }
  commandSplit := { numTypes := 1, types := [0], lengths := [2] }
  distanceSplit := { numTypes := 1, types := [0], lengths := [1] }
  literalContextMap := []
  distanceContextMap := []

theorem sum_take_padded (l : List ℕ) (n k : ℕ) :
    ((l ++ List.replicate n 0).take k).sum ≤ l.sum := by
  rw [List.take_append, List.sum_append, List.take_replicate, List.sum_replicate, smul_eq_mul,
    Nat.mul_zero, Nat.add_zero]
  exact (List.take_sublist k l).sum_le_sum fun _ _ => Nat.zero_le _

theorem turnsSplit_valid : turnsSplit.Valid 64 where
  literalSplit :=
    ⟨by decide, by decide, rfl, by decide, fun _ => rfl, by decide, by decide, by decide⟩
  commandSplit := ⟨by decide, by decide, rfl, by decide, by decide, by decide, by decide, by decide⟩
  distanceSplit :=
    ⟨by decide, by decide, rfl, by decide, by decide, by decide, by decide, by decide⟩
  literalTrees := ⟨by decide, by decide⟩
  commandTrees := rfl
  distanceTrees := ⟨by decide, by decide⟩
  literalMap := (if_pos rfl : Mapped [] 6 2 2 = (2 = 2)).mpr rfl
  distanceMap := (if_pos rfl : Mapped [] 2 1 1 = (1 = 1)).mpr rfl
  literalCounts := fun data hdata => by
    rcases List.mem_cons.1 hdata with rfl | hdata
    · exact (sum_take_padded _ _ _).trans_lt (by decide)
    · rw [List.mem_singleton.1 hdata]
      exact (sum_take_padded _ _ _).trans_lt (by decide)
  commandCounts := fun data hdata => by
    rw [List.mem_singleton.1 hdata]
    exact (sum_take_padded _ _ _).trans_lt (by decide)
  distanceCounts := fun data hdata => by
    rw [List.mem_singleton.1 hdata]
    exact (sum_take_padded _ _ _).trans_lt (by decide)

theorem meta_block_header_round_trip_turns : ∃ w' literal command distance calls stored,
    ({} : MetaBlockWriter).storeMetaBlockHeader 12 true .utf8
    (DistanceParams.forWindow false 0 0) turnsSplit =
        some (w', literal, command, distance, calls) ∧
      FastCommands.Writes calls stored ∧ ReadsToCommands 12
        (AtCommands 12 true .utf8 (DistanceParams.forWindow false 0 0) turnsSplit literal command
          distance) stored :=
  meta_block_header_round_trip {} (fun _ h => by
    cases h) (by decide) (by decide) true .utf8 ⟨by decide, by decide, by decide⟩ turnsSplit_valid

end Mbrotli.Compressor.Bitstream
