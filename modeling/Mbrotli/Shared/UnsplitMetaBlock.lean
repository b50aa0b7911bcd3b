/-
# An unsplit meta-block's header, through writer and reader

The fast qualities do not split: a meta-block has one block type and one code per stream,
and between its length and its codes the header is thirteen zeros. The reader takes these
for what a split meta-block would spell out: three block headers of one type each, the
distance parameters, one context mode and two context maps of one tree
(`zeros_spell`). A histogram may be longer than the alphabet of its code: only
the symbols it uses have to be in it (`buildAndStoreHuffmanTree_storesUsed`).

Key definitions: `MetaBlockWriter.storeMetaBlockTrivialHeader`, `AtUnsplit`.
Key theorems: `crosses_unsplit`, `trivial_header_round_trip`.
-/
import Mbrotli.Shared.MetaBlockHeader

namespace Mbrotli.Compressor.Bitstream

open BitString Resumable

/-! ### The writer -/

/-- The most distance symbols of an unsplit meta-block. -/
def maxSimpleDistanceAlphabetSize : ℕ := 140

/-- `Vec::resize` with zeros. -/
def resize (table : List ℕ) (n : ℕ) : List ℕ := table.take n ++ List.replicate (n - table.length) 0

/-- Ensures room for the three codes used without block splitting. -/
def MetaBlockWriter.prepareSimpleCodes (w : MetaBlockWriter) : MetaBlockWriter :=
  { w with
    literalDepth := resize w.literalDepth numLiteralSymbols
    literalBits := resize w.literalBits numLiteralSymbols
    commandDepth := resize w.commandDepth numCommandSymbols
    commandBits := resize w.commandBits numCommandSymbols
    distanceDepth := resize w.distanceDepth maxSimpleDistanceAlphabetSize
    distanceBits := resize w.distanceBits maxSimpleDistanceAlphabetSize }

/-- What `store_meta_block_trivial` writes before the first command. -/
def MetaBlockWriter.storeMetaBlockTrivialHeader (w : MetaBlockWriter) (length : ℕ) (isLast : Bool)
    (dist : DistanceParams)
    (litHisto cmdHisto distHisto : List ℕ) : Option (MetaBlockWriter × List BitOp) := do
  let w := w.prepareSimpleCodes
  let (tree, literalDepth, literalBits, literals) ←
    buildAndStoreHuffmanTree litHisto numLiteralSymbols numLiteralSymbols w.tree
    w.literalDepth w.literalBits
  let (tree, commandDepth, commandBits, commands) ←
    buildAndStoreHuffmanTree cmdHisto numCommandSymbols numCommandSymbols tree
    w.commandDepth w.commandBits
  let (tree, distanceDepth, distanceBits, distances) ←
    buildAndStoreHuffmanTree distHisto maxSimpleDistanceAlphabetSize dist.alphabetSizeMax tree
    w.distanceDepth w.distanceBits
  return ({ w
    with tree, literalDepth, literalBits, commandDepth, commandBits, distanceDepth, distanceBits },
    storeCompressedMetaBlockHeader isLast length ++
    (.write 13 0 :: (literals ++ (commands ++ distances))))

theorem length_resize (table : List ℕ) (n : ℕ) : (resize table n).length = n := by
  unfold resize
  rw [List.length_append, List.length_take, List.length_replicate]
  omega

/-! ### The thirteen zeros -/

/-- One block type and one tree for a stream. -/
def unsplit : BlockSplit := { numTypes := 1, types := [0], lengths := [1] }

theorem unsplit_valid : unsplit.Valid :=
  ⟨by decide, by decide, rfl, by decide, by decide, by decide, by decide, by decide⟩

/-- The block header of one type is a zero. -/
theorem unsplit_ends : ∃ usedTypes usedLengths, EndsHeader unsplit {} usedTypes usedLengths
    (uint8Bits 0) := by
  obtain ⟨tree, code, calls, stored, usedTypes, usedLengths, hstore, hwrites, hends, -⟩ :=
    buildAndStoreBlockSplitCode_stores unsplit_valid []
  obtain ⟨rfl, rfl, rfl⟩ : [] = tree ∧ {} = code ∧ storeVarLenUint8 0 = calls := by
    have hsame :=
      Option.some.inj ((show buildAndStoreBlockSplitCode unsplit [] {} =
        some ([], {}, storeVarLenUint8 0) from rfl).symm.trans hstore)
    exact ⟨(Prod.mk.inj hsame).1, (Prod.mk.inj (Prod.mk.inj hsame).2).1,
      (Prod.mk.inj (Prod.mk.inj hsame).2).2⟩
  obtain rfl := writes_unique (storeVarLenUint8_writes (by decide)) hwrites
  exact ⟨usedTypes, usedLengths, hends⟩

/-- The zeros are a header's fields, each of its own width. -/
theorem zeros_spell : ofNat 13 0 =
    uint8Bits 0 ++ (uint8Bits 0 ++ (uint8Bits 0 ++ ((ofNat 2 0 ++ ofNat 4 0) ++
    ((List.replicate 1 (ofNat 2 0)).flatten ++ (uint8Bits 0 ++ uint8Bits 0))))) := by decide

/-! ### The reader -/

/-- A stream that stands at the first command of an unsplit meta-block, with its writer's codes. -/
def AtUnsplit (length : ℕ) (isLast : Bool) (w : MetaBlockWriter)
    (litHisto cmdHisto distHisto : List ℕ) (s : Stream) : Prop :=
  ∃ t, s.Heading length isLast .command t ∧
    t.distances = (DistanceParams.forWindow false 0 0).layout false ∧ t.modes 0 = 0 ∧
    (∀ i, (t.blocks i).count = 1 ∧ (t.blocks i).current = 0 ∧ (t.blocks i).remaining = u64Max) ∧
    (t.maps 0).values.toList = List.replicate 64 0 ∧ (t.maps 1).values.toList = List.replicate 4 0 ∧
    Coded (t.trees 0) 1 numLiteralSymbols w.literalDepth w.literalBits
    (fun h => usedSymbols ([litHisto].getD h []) numLiteralSymbols) ∧
    Coded (t.trees 1) 1 numCommandSymbols w.commandDepth w.commandBits
    (fun h => usedSymbols ([cmdHisto].getD h []) numCommandSymbols) ∧
    Coded (t.trees 2) 1 maxSimpleDistanceAlphabetSize w.distanceDepth w.distanceBits
      (fun h => usedSymbols ([distHisto].getD h []) maxSimpleDistanceAlphabetSize)

/-- One stored code is a group of one tree. -/
theorem stored_group {alphabet histogramLength : ℕ} {histogram depth bits : List ℕ}
    {calls : List BitOp} {d : CodeDescription}
    (h : Stored alphabet (usedSymbols histogram histogramLength) depth bits calls d)
    (hdepth : histogramLength ≤ depth.length)
    (hbits : histogramLength ≤ bits.length) :
    FastCommands.Writes calls (Stream.treesBits alphabet (fun _ => d) 0 [histogram].length) ∧
    Stream.Described alphabet [histogram].length (fun _ => d)
    (fun h => usedSymbols ([histogram].getD h []) histogramLength)
      (fun h => depth.drop (h * histogramLength)) (fun h => bits.drop (h * histogramLength)) ∧
    ∀ g : Group, g.count = [histogram].length →
    (∀ h < [histogram].length, g.Shows h (usedSymbols ([histogram].getD h []) histogramLength)
      (depth.drop (h * histogramLength)) (bits.drop (h * histogramLength))) →
      Coded g [histogram].length histogramLength depth bits fun h =>
      usedSymbols ([histogram].getD h []) histogramLength := by
  have hzero : ∀ {i : ℕ}, i < [histogram].length → i = 0 := fun hi => Nat.lt_one_iff.1 hi
  refine ⟨?_, fun i hi => ?_, fun g hcount hshows i hi => ?_⟩
  · have hone : Stream.treesBits alphabet (fun _ => d) 0 [histogram].length =
      fieldBits (d.fields alphabet) := List.append_nil _
    rw [hone]
    exact h.writes
  · obtain rfl := hzero hi
    beta_reduce
    rw [Nat.zero_mul, List.drop_zero, List.drop_zero]
    exact ⟨h.valid, h.fits, h.words⟩
  · obtain ⟨table, htable, hfinds⟩ := (hshows i hi).finds (by omega)
    obtain rfl := hzero hi
    refine ⟨table, htable, hfinds, fun symbol hsymbol => ?_⟩
    have hfits := h.word_fits hsymbol
    have hlt := (mem_usedSymbols.1 hsymbol).1
    rw [Nat.zero_mul, Nat.zero_add]
    exact ⟨by omega, by omega, hfits⟩

/-- **A reader crosses the header of an unsplit meta-block**, to its first command. -/
theorem crosses_unsplit (w : MetaBlockWriter) {length nibbles : ℕ} (h4 : 4 ≤ nibbles)
    (h6 : nibbles ≤ 6) (h1 : 1 ≤ length)
    (hfits : length - 1 < 2 ^ (nibbles * 4))
    (hshort : 4 < nibbles → 2 ^ ((nibbles - 1) * 4) ≤ length - 1) (isLast : Bool)
    {litHisto cmdHisto distHisto : List ℕ} {calls₀ calls₁ calls₂ : List BitOp}
    {d₀ d₁ d₂ : CodeDescription}
    (hstored₀ : Stored numLiteralSymbols (usedSymbols litHisto numLiteralSymbols) w.literalDepth
      w.literalBits calls₀ d₀)
    (hstored₁ : Stored numCommandSymbols (usedSymbols cmdHisto numCommandSymbols) w.commandDepth
      w.commandBits calls₁ d₁)
    (hstored₂ : Stored (DistanceParams.forWindow false 0 0).alphabetSizeMax
      (usedSymbols distHisto maxSimpleDistanceAlphabetSize) w.distanceDepth
      w.distanceBits calls₂ d₂)
    (hliterals : numLiteralSymbols ≤ w.literalDepth.length ∧
      numLiteralSymbols ≤ w.literalBits.length)
    (hcommands : numCommandSymbols ≤ w.commandDepth.length ∧
      numCommandSymbols ≤ w.commandBits.length)
    (hdistances : maxSimpleDistanceAlphabetSize ≤ w.distanceDepth.length ∧
      maxSimpleDistanceAlphabetSize ≤ w.distanceBits.length) :
    CrossedToCommands length (AtUnsplit length isLast w litHisto cmdHisto distHisto)
    (Stream.lengthBits nibbles length isLast ++ (ofNat 13 0 ++
      (Stream.treesBits numLiteralSymbols (fun _ => d₀) 0 1 ++
        (Stream.treesBits numCommandSymbols (fun _ => d₁) 0 1 ++
        Stream.treesBits (DistanceParams.forWindow false 0 0).alphabetSizeMax
        (fun _ => d₂) 0 1)))) := by
  intro env I B p s hstage hlarge htables hposition
  have hlegal : (DistanceParams.forWindow false 0 0).Legal := ⟨by decide, by decide, by decide⟩
  have halphabet : (DistanceParams.forWindow false 0 0).alphabetSizeMax = 64 := rfl
  have hlayout : ((DistanceParams.forWindow false 0 0).layout false).alphabet = 64 := rfl
  have hmax : Mbrotli.maxAlphabet = 1128 := rfl
  have hliteral : numLiteralSymbols = 256 := rfl
  have hcommand : numCommandSymbols = 704 := rfl
  obtain ⟨usedTypes, usedLengths, hblock⟩ := unsplit_ends
  obtain ⟨-, hdescribed₀, hcoded₀⟩ := stored_group hstored₀ hliterals.1 hliterals.2
  obtain ⟨-, hdescribed₁, hcoded₁⟩ := stored_group hstored₁ hcommands.1 hcommands.2
  obtain ⟨-, hdescribed₂, hcoded₂⟩ := stored_group hstored₂ hdistances.1 hdistances.2
  have hgo : ∀ {s' : Stream} {stage : Stage}, s'.stage = stage → stage ≠ .command →
      atCommand s'.stage = false :=
    fun h hne => decide_eq_false (h ▸ hne)
  rw [zeros_spell]
  simp only [List.append_assoc]
  -- the length
  refine Stream.Crosses.append (fun hspells hend => Stream.passes_metaBlock hstage hlarge htables h4
    h6 h1 hfits hshort hposition hspells hend)
    (by rintro s' ⟨_, hs', -⟩; exact hgo hs'.stage (by simp)) ?_
  rintro s₀ ⟨t₀, hs₀, hblocks, hmaps⟩
  -- the block headers
  have hcovers : unsplit.numTypes ≠ 1 → ({} : BlockSplitCode).calculator = afterFirst ∧
      Covers {} unsplit.numTypes (unsplit.types.drop 1) (unsplit.lengths.drop 1) usedTypes
      usedLengths := fun hne => absurd rfl hne
  refine Stream.Crosses.append (crosses_block hblock hcovers hs₀ (hblocks 0))
    (by rintro s' ⟨_, _, hs', -⟩; exact hgo hs'.stage (by simp [Stream.afterBlock])) ?_
  rintro s₁ ⟨b₀, u₀, hs₁, hopens₀⟩
  refine Stream.Crosses.append (crosses_block hblock hcovers hs₁ (hblocks 1))
    (by rintro s' ⟨_, _, hs', -⟩; exact hgo hs'.stage (by simp [Stream.afterBlock])) ?_
  rintro s₂ ⟨b₁, u₁, hs₂, hopens₁⟩
  refine Stream.Crosses.append (crosses_block hblock hcovers hs₂ (hblocks 2))
    (by rintro s' ⟨_, _, hs', -⟩; exact hgo hs'.stage (by simp [Stream.afterBlock])) ?_
  rintro s₃ ⟨b₂, u₂, hs₃, hopens₂⟩
  -- the distance parameters and the mode
  rw [← List.append_assoc (ofNat 2 0) (ofNat 4 0)]
  refine Stream.Crosses.append (crosses_params hlegal hs₃)
    (by rintro s' ⟨_, hs', -⟩; exact hgo hs'.stage (by simp)) ?_
  rintro s₄ ⟨t₄, hs₄, hlayout₄, hblocks₄, hmaps₄⟩
  have hcount : (t₄.blocks 0).count = 1 := by rw [hblocks₄]; exact hopens₀.count
  refine Stream.Crosses.append (fun hspells hend =>
    Stream.passes_modes (fun i => decide_eq_false (by simp)) (show 0 < 2 ^ 2 by decide) 0
    hs₄ hcount rfl
    (fun j hj => absurd hj (Nat.not_lt_zero j)) hspells hend)
      (by rintro s' ⟨_, hs', -⟩; exact hgo hs'.stage (by simp)) ?_
  rintro s₅ ⟨modes, hs₅, hmodes⟩
  -- the context maps
  have hmaps₅ : ∀ i, (t₄.maps i).stage = .treeCount := by rw [hmaps₄]; exact hmaps
  have hsize₀ : (List.replicate 64 0).length = (t₄.blocks 0).count <<< 6 := by rw [hcount]; rfl
  refine Stream.Crosses.append (crosses_literalMap (one_map (List.replicate 64 0) (by decide)).2 hs₅
    (hmaps₅ 0) hsize₀)
    (by rintro s' ⟨_, _, hs', -⟩; exact hgo hs'.stage (by simp)) ?_
  rintro s₆ ⟨m₀, u₆, hs₆, htrees₀, hvalues₀⟩
  have hsize₁ : (List.replicate 4 0).length = (t₄.blocks 2).count <<< 2 := by
    rw [hblocks₄]
    exact congrArg (· <<< 2) hopens₂.count.symm
  have halpha : ∀ g : Fin 3, 1 ≤ t₄.alphabet g ∧ t₄.alphabet g ≤ Mbrotli.maxAlphabet := by
    intro g
    unfold Tables.alphabet
    rw [hlayout₄, hmax, hlayout]
    split
    · exact ⟨by decide, by decide⟩
    split
    · exact ⟨by decide, by decide⟩
    · exact ⟨by decide, by decide⟩
  refine Stream.Crosses.append (crosses_distanceMap (one_map (List.replicate 4 0) (by decide)).2 hs₆
    (hmaps₅ 1) hsize₁ halpha)
    (by rintro s' ⟨_, _, _, hs', -⟩; exact hgo hs'.stage (by simp)) ?_
  rintro s₇ ⟨m₁, u₇, groups, hs₇, htrees₁, hvalues₁, hgroups⟩
  -- the codes
  have hcount₁ : (t₄.blocks 1).count = 1 := by rw [hblocks₄]; exact hopens₁.count
  refine Stream.Crosses.append (crosses_trees hdescribed₀ hcoded₀ (by decide) (by omega)
    (Nat.le_refl 1) hs₇ rfl (fun h => absurd h (by decide))
    ((hgroups 0).1.trans htrees₀) (hgroups 0).2)
      (by rintro s' ⟨_, _, hs', -⟩; exact hgo hs'.stage (by simp [Stream.afterTrees])) ?_
  rintro s₈ ⟨u₈, g₀, hs₈, hcodes₀⟩
  refine Stream.Crosses.append (crosses_trees hdescribed₁ hcoded₁ (by decide) (by omega)
    (Nat.le_refl 1) hs₈ rfl
    (fun h => absurd h (by decide)) ((hgroups 1).1.trans hcount₁) (hgroups 1).2)
    (by rintro s' ⟨_, _, hs', -⟩; exact hgo hs'.stage (by simp [Stream.afterTrees])) ?_
  rintro s₉ ⟨u₉, g₁, hs₉, hcodes₁⟩
  intro hspells hend
  refine (crosses_trees hdescribed₂ hcoded₂ (by decide) (by decide) (Nat.le_refl 1) hs₉ ?_ ?_
    ((hgroups 2).1.trans htrees₁) (hgroups 2).2
    hspells hend).mono fun s' hs' => ?_
  · show t₄.distances.alphabet = _
    rw [hlayout₄, hlayout, halphabet]
  · intro _ symbol hsymbol
    show t₄.distances.validateSymbol symbol = _
    rw [hlayout₄]
    exact validateSymbol_small rfl hlegal.postfixBits hlegal.numDirect
      (by rw [hlayout, ← halphabet]; exact hsymbol)
  · obtain ⟨u, g₂, hs', hcodes₂⟩ := hs'
    refine ⟨_, hs', hlayout₄, hmodes 0 (by decide), fun i => ?_, hvalues₀, hvalues₁, hcodes₀,
      hcodes₁, hcodes₂⟩
    show (t₄.blocks i).count = 1 ∧ (t₄.blocks i).current = 0 ∧ (t₄.blocks i).remaining = u64Max
    rw [hblocks₄]
    fin_cases i
    · exact ⟨hopens₀.count, hopens₀.current, hopens₀.remaining⟩
    · exact ⟨hopens₁.count, hopens₁.current, hopens₁.remaining⟩
    · exact ⟨hopens₂.count, hopens₂.current, hopens₂.remaining⟩

/-- **The header of an unsplit meta-block survives the writer and the reader.** -/
theorem trivial_header_round_trip (w : MetaBlockWriter) {length : ℕ} (h1 : 1 ≤ length)
    (h24 : length ≤ 2 ^ 24) (isLast : Bool)
    {litHisto cmdHisto distHisto : List ℕ}
    (hliterals : (litHisto.take numLiteralSymbols).sum < 2 ^ 24)
    (hcommands : (cmdHisto.take numCommandSymbols).sum < 2 ^ 24)
    (hdistances : (distHisto.take maxSimpleDistanceAlphabetSize).sum < 2 ^ 24)
    (hnames : ∀ symbol ∈ usedSymbols distHisto maxSimpleDistanceAlphabetSize,
      symbol < (DistanceParams.forWindow false 0 0).alphabetSizeMax) :
    ∃ w' calls stored, w.storeMetaBlockTrivialHeader length isLast
    (DistanceParams.forWindow false 0 0) litHisto cmdHisto distHisto = some (w', calls) ∧
      FastCommands.Writes calls stored ∧
      ReadsToCommands length (AtUnsplit length isLast w' litHisto cmdHisto distHisto) stored := by
  obtain ⟨nibbles, h4, h6, hfits, hshort, hwritesLength⟩ :=
    storeCompressedMetaBlockHeader_writes h1 h24 isLast
  -- the codes
  have hfilled : ∀ {table : List ℕ} {n : ℕ}, 1 ≤ n → resize table n ≠ [] := fun {table n} hn =>
    List.ne_nil_of_length_pos (by rw [length_resize]; exact hn)
  obtain ⟨tree₀, depth₀, bits₀, calls₀, d₀, hbuild₀, hstored₀, hdepth₀, hbits₀⟩ :=
    @buildAndStoreHuffmanTree_stores litHisto (resize w.literalDepth numLiteralSymbols)
      (resize w.literalBits numLiteralSymbols)
      numLiteralSymbols numLiteralSymbols (by decide) hliterals (by decide) (by decide) (by decide)
        (length_resize _ _).ge (length_resize _ _).ge
      (hfilled (by decide)) (hfilled (by decide)) w.tree
  obtain ⟨tree₁, depth₁, bits₁, calls₁, d₁, hbuild₁, hstored₁, hdepth₁, hbits₁⟩ :=
    @buildAndStoreHuffmanTree_stores cmdHisto (resize w.commandDepth numCommandSymbols)
      (resize w.commandBits numCommandSymbols)
      numCommandSymbols numCommandSymbols (by decide) hcommands (by decide) (by decide) (by decide)
        (length_resize _ _).ge (length_resize _ _).ge
      (hfilled (by decide)) (hfilled (by decide)) tree₀
  obtain ⟨tree₂, depth₂, bits₂, calls₂, d₂, hbuild₂, hstored₂, hdepth₂, hbits₂⟩ :=
    @buildAndStoreHuffmanTree_storesUsed distHisto
      (resize w.distanceDepth maxSimpleDistanceAlphabetSize)
      (resize w.distanceBits maxSimpleDistanceAlphabetSize) maxSimpleDistanceAlphabetSize
      (DistanceParams.forWindow false 0 0).alphabetSizeMax (by decide) hdistances (by decide)
      hnames (by decide) (length_resize _ _).ge (length_resize _ _).ge (hfilled (by decide))
        (hfilled (by decide)) tree₁
  rw [length_resize] at hdepth₀ hdepth₁ hdepth₂ hbits₀ hbits₁ hbits₂
  have hwrites₀ := (stored_group hstored₀ hdepth₀.ge hbits₀.ge).1
  have hwrites₁ := (stored_group hstored₁ hdepth₁.ge hbits₁.ge).1
  have hwrites₂ := (stored_group hstored₂ hdepth₂.ge hbits₂.ge).1
  have hwritesZeros : FastCommands.Writes [.write 13 0] (ofNat 13 0) :=
    FastCommands.Writes.write (by decide) (by decide)
  refine ⟨{ w with
      tree := tree₂, literalDepth := depth₀, literalBits := bits₀, commandDepth := depth₁
      commandBits := bits₁, distanceDepth := depth₂, distanceBits := bits₂ }, _, _, ?_,
    hwritesLength.append (hwritesZeros.append (hwrites₀.append (hwrites₁.append hwrites₂))),
    (crosses_unsplit _ h4 h6 h1 hfits hshort isLast hstored₀ hstored₁ hstored₂ ⟨hdepth₀.ge,
      hbits₀.ge⟩ ⟨hdepth₁.ge, hbits₁.ge⟩
      ⟨hdepth₂.ge, hbits₂.ge⟩).reads fun s hs => ?_⟩
  · simp only [MetaBlockWriter.storeMetaBlockTrivialHeader, MetaBlockWriter.prepareSimpleCodes,
      hbuild₀, hbuild₁, hbuild₂, Option.bind_eq_bind,
      Option.bind_some, Option.pure_def, List.singleton_append]
  · obtain ⟨t, hheading, -⟩ := hs
    exact hheading.stage

/-- Two literals, one command and one distance, in histograms of the writer's sizes. -/
theorem trivial_header_round_trip_two : ∃ w' calls stored,
    ({} : MetaBlockWriter).storeMetaBlockTrivialHeader 12 true (DistanceParams.forWindow false 0 0)
    ([3, 1] ++ List.replicate 254 0)
      ([2] ++ List.replicate 703 0) ([1] ++ List.replicate 543 0) = some (w', calls) ∧
    FastCommands.Writes calls stored ∧
    ReadsToCommands 12
    (AtUnsplit 12 true w' ([3, 1] ++ List.replicate 254 0) ([2] ++ List.replicate 703 0)
      ([1] ++ List.replicate 543 0)) stored := by
  refine trivial_header_round_trip {} (by decide) (by decide) true
    ((sum_take_padded _ _ _).trans_lt (by decide))
    ((sum_take_padded _ _ _).trans_lt (by decide)) ((sum_take_padded _ _ _).trans_lt (by decide))
      fun symbol hsymbol => ?_
  have halphabet : (DistanceParams.forWindow false 0 0).alphabetSizeMax = 64 := rfl
  rw [halphabet]
  by_contra hfar
  refine (mem_usedSymbols.1 hsymbol).2 ?_
  rw [List.getD_append_right _ _ _ _ (by rw [List.length_singleton]; omega),
    List.getD_eq_getElem?_getD, List.getElem?_replicate]
  split <;> rfl

end Mbrotli.Compressor.Bitstream
