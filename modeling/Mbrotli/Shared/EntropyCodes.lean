/-
# The codes of a stream's histograms, through writer and reader

Every histogram of a split stream has a prefix code of its own; the writer keeps the codes
one after the other in its tables of depths and patterns, and stores their descriptions.
A later code leaves the entries of an earlier one (`storeEntropyCodesFrom_stores`), as a
later slot of the reader's group leaves an earlier one: so each tree of the group the reader
ends with finds the symbols of its histogram at the writer's patterns
(`entropy_codes_round_trip`), which is what the symbols of the stream need to be taken.

Key definitions: `BlockEncoder.buildAndStoreEntropyCodes`, `ReadsGroupBack`.
Key theorems: `storeEntropyCodesFrom_stores`, `entropy_codes_round_trip`.
-/
import Mbrotli.Shared.BlockSwitches
import Mbrotli.Decompressor.Core.GroupReads

namespace Mbrotli.Compressor.Bitstream
open BitString Resumable

/-! ### The writer -/

/-- Builds and writes the codes of the histograms from number `index` on. -/
def storeEntropyCodesFrom (histogramLength alphabetSize : ℕ) :
    ℕ → List (List ℕ) → List HuffmanNode → List ℕ → List ℕ →
    Option (List HuffmanNode × List ℕ × List ℕ × List BitOp)
  | _, [], tree, depths, bits => some (tree, depths, bits, [])
  | index, data :: rest, tree, depths, bits => do
    let ix := index * histogramLength
    let (tree, depth, pattern, calls) ← buildAndStoreHuffmanTree data histogramLength alphabetSize
      tree (depths.drop ix) (bits.drop ix)
    let (tree, depths, bits, more) ←
      storeEntropyCodesFrom histogramLength alphabetSize (index + 1) rest tree
      (depths.take ix ++ depth) (bits.take ix ++ pattern)
    return (tree, depths, bits, calls ++ more)

/-- Builds and writes one prefix code per histogram. -/
def BlockEncoder.buildAndStoreEntropyCodes (e : BlockEncoder) (histograms : List (List ℕ))
    (alphabetSize : ℕ) (tree : List HuffmanNode) :
    Option (List HuffmanNode × BlockEncoder × List BitOp) := do
  let tableSize := histograms.length * e.histogramLength
  let (tree, depths, bits, calls) ←
    storeEntropyCodesFrom e.histogramLength alphabetSize 0 histograms tree
    (List.replicate tableSize 0) (List.replicate tableSize 0)
  return (tree, { e with depths, bits }, calls)

/-! ### Tables that stay -/

variable {histogramLength alphabetSize : ℕ}

/-- An entry below `n` of a table that keeps them. -/
theorem getD_of_take {l l' : List ℕ} {n i : ℕ} (h : l'.take n = l.take n) (hi : i < n) :
    l'.getD i 0 = l.getD i 0 := by
  rw [List.getD_eq_getElem?_getD, List.getD_eq_getElem?_getD, ← List.getElem?_take_of_lt hi, h,
    List.getElem?_take_of_lt hi]

theorem getD_drop_entry (l : List ℕ) (n i : ℕ) : (l.drop n).getD i 0 = l.getD (n + i) 0 := by
  rw [List.getD_eq_getElem?_getD, List.getD_eq_getElem?_getD, List.getElem?_drop]

/-- A table with a new end. -/
theorem getD_take_append {l x : List ℕ} {n : ℕ} (hn : n ≤ l.length) (i : ℕ) :
    (l.take n ++ x).getD (n + i) 0 = x.getD i 0 := by
  have hlen : (l.take n).length = n := by rw [List.length_take, Nat.min_eq_left hn]
  rw [List.getD_append_right _ _ _ _ (by omega), hlen, Nat.add_sub_cancel_left]

theorem treesBits_congr {alphabet : ℕ} {describe describe' : ℕ → CodeDescription}
    {index : ℕ} (n : ℕ)
    (h : ∀ i, index ≤ i → describe i = describe' i) :
    Stream.treesBits alphabet describe index n = Stream.treesBits alphabet describe' index n := by
  unfold Stream.treesBits
  rw [List.flatMap_def, List.flatMap_def]
  refine congrArg List.flatten (List.map_congr_left fun i hi => ?_)
  rw [h i (List.mem_range'_1.1 hi).1]

/-- **Every histogram's code is stored**, and its entries of the tables stay. -/
theorem storeEntropyCodesFrom_stores (hone : 1 ≤ histogramLength)
    (h704 : histogramLength ≤ numCommandSymbols)
    (halpha : histogramLength ≤ alphabetSize) (hmax : alphabetSize ≤ Mbrotli.maxAlphabet)
    (histograms : List (List ℕ)) :
    ∀ {index : ℕ} {tree : List HuffmanNode} {depths bits : List ℕ},
    (∀ data ∈ histograms, (data.take histogramLength).sum < 2 ^ 24) →
    depths.length = (index + histograms.length) * histogramLength →
    bits.length = (index + histograms.length) * histogramLength →
    ∃ tree' depths' bits' calls describe,
      storeEntropyCodesFrom histogramLength alphabetSize index histograms tree depths bits =
      some (tree', depths', bits', calls) ∧
      depths'.length = depths.length ∧ bits'.length = bits.length ∧
      depths'.take (index * histogramLength) = depths.take (index * histogramLength) ∧
      bits'.take (index * histogramLength) = bits.take (index * histogramLength) ∧
      FastCommands.Writes calls (Stream.treesBits alphabetSize describe index histograms.length) ∧
      ∀ h < histograms.length, ∃ calls',
      Stored alphabetSize (usedSymbols (histograms.getD h []) histogramLength)
        (depths'.drop ((index + h) * histogramLength))
        (bits'.drop ((index + h) * histogramLength)) calls' (describe (index + h)) := by
  induction histograms with
  | nil =>
    intro index tree depths bits hsum hdepths hbits
    exact ⟨tree, depths, bits, [], fun _ => .simple [] 0, rfl, rfl, rfl, rfl, rfl,
      FastCommands.Writes.nil, fun h hh => absurd hh (Nat.not_lt_zero h)⟩
  | cons data rest ih =>
    intro index tree depths bits hsum hdepths hbits
    rw [List.length_cons] at hdepths hbits
    have hsize : (index + (rest.length + 1)) * histogramLength =
      index * histogramLength + histogramLength + rest.length * histogramLength := by ring
    have hnext : (index + 1) * histogramLength = index * histogramLength + histogramLength :=
      Nat.succ_mul _ _
    rw [hsize] at hdepths hbits
    have hroomDepths : (depths.drop (index * histogramLength)).length =
        histogramLength + rest.length * histogramLength := by
      rw [List.length_drop]
      omega
    have hroomBits : (bits.drop (index * histogramLength)).length =
        histogramLength + rest.length * histogramLength := by
      rw [List.length_drop]
      omega
    obtain ⟨tree₁, depth, pattern, calls, d, hbuild, hstored, hdepth, hpattern⟩ :=
      buildAndStoreHuffmanTree_stores h704
        (hsum data List.mem_cons_self) (hone.trans halpha) halpha hmax (show histogramLength ≤
        (depths.drop (index * histogramLength)).length by omega)
      (show histogramLength ≤ (bits.drop (index * histogramLength)).length by omega)
        (List.ne_nil_of_length_pos (by omega))
      (List.ne_nil_of_length_pos (by omega)) tree
    rw [hroomDepths] at hdepth
    rw [hroomBits] at hpattern
    have hnewDepths : (depths.take (index * histogramLength) ++ depth).length =
        (index + 1 + rest.length) * histogramLength := by
      rw [List.length_append, List.length_take, hdepth, Nat.min_eq_left (by omega),
        Nat.add_right_comm, Nat.add_assoc index, hsize]
      omega
    have hnewBits : (bits.take (index * histogramLength) ++ pattern).length =
        (index + 1 + rest.length) * histogramLength := by
      rw [List.length_append, List.length_take, hpattern, Nat.min_eq_left (by omega),
        Nat.add_right_comm, Nat.add_assoc index, hsize]
      omega
    obtain ⟨tree', depths', bits', more, describe, hrest, hlenDepths, hlenBits, htakeDepths,
        htakeBits, hwrites, hcodes⟩ :=
      @ih (index + 1) tree₁ _ _ (fun data hdata => hsum data (List.mem_cons_of_mem _ hdata))
        hnewDepths hnewBits
    rw [hnext] at htakeDepths htakeBits
    have hprefix : ∀ {l l' x : List ℕ}, index * histogramLength ≤ l.length →
        l'.take (index * histogramLength + histogramLength) =
          (l.take (index * histogramLength) ++ x).take (index * histogramLength + histogramLength) →
        l'.take (index * histogramLength) = l.take (index * histogramLength) ∧
          ∀ s < histogramLength, (l'.drop (index * histogramLength)).getD s 0 = x.getD s 0 := by
      intro l l' x hl h
      constructor
      · have hshort := congrArg (List.take (index * histogramLength)) h
        rw [List.take_take, List.take_take, Nat.min_eq_left (Nat.le_add_right _ _)] at hshort
        rw [hshort, List.take_append_of_le_length (by rw [List.length_take]; omega),
          List.take_take, Nat.min_self]
      · intro s hs
        rw [getD_drop_entry, getD_of_take h (Nat.add_lt_add_left hs _), getD_take_append hl]
    obtain ⟨hkeepDepths, hentryDepths⟩ := hprefix (by omega) htakeDepths
    obtain ⟨hkeepBits, hentryBits⟩ := hprefix (by omega) htakeBits
    refine ⟨tree', depths', bits', calls ++ more, Function.update describe index d, ?_, ?_, ?_,
      hkeepDepths, hkeepBits, ?_, ?_⟩
    · rw [storeEntropyCodesFrom]
      dsimp only
      rw [hbuild]
      simp only [Option.bind_eq_bind, Option.bind_some]
      rw [hrest]
      rfl
    · rw [hlenDepths, hnewDepths, hdepths, Nat.add_right_comm, Nat.add_assoc index, hsize]
    · rw [hlenBits, hnewBits, hbits, Nat.add_right_comm, Nat.add_assoc index, hsize]
    · have hsame : Stream.treesBits alphabetSize (Function.update describe index d)
        (index + 1) rest.length =
          Stream.treesBits alphabetSize describe (index + 1) rest.length :=
        treesBits_congr _ fun i hi => Function.update_of_ne (by omega) _ _
      rw [List.length_cons, Stream.treesBits_succ, hsame, Function.update_self]
      exact hstored.writes.append hwrites
    · intro h hh
      cases h with
      | zero =>
        refine ⟨calls, ?_⟩
        rw [Nat.add_zero, Function.update_self]
        refine ⟨hstored.valid, hstored.fits, hstored.writes, fun s hs => ?_⟩
        have hlt := (mem_usedSymbols.1 hs).1
        rw [hentryDepths s hlt, hentryBits s hlt]
        exact hstored.words s hs
      | succ h =>
        rw [List.length_cons] at hh
        obtain ⟨calls', hcode⟩ := hcodes h (by omega)
        refine ⟨calls', ?_⟩
        rw [Function.update_of_ne (by omega), List.getD_cons_succ,
          Nat.add_comm h 1, ← Nat.add_assoc]
        exact hcode

/-! ### The round trip -/

/-- The stages outside a group's codes. -/
def past (group : Fin 3) : Stage → Bool
  | .trees g _ => decide (g ≠ group)
  | _ => true

theorem past_trees (group : Fin 3) (index : ℕ) : past group (.trees group index) = false :=
  decide_eq_false (not_not.2 rfl)

theorem past_after (group : Fin 3) : past group (Stream.afterTrees group) = true := by
  revert group
  decide

/-- The bits `stored` are read back as a group's codes, wherever they stand and however the
stream is split into calls: each tree finds the symbols of its histogram at the writer's
patterns, unless the memory limit refuses a table. -/
def ReadsGroupBack (alphabet count histogramLength : ℕ) (depths bits : List ℕ) (used : ℕ → List ℕ)
    (stored : List Bool) : Prop :=
  ∀ (env : Env) (group : Fin 3) (s : Stream) (t : Mbrotli.Tables) (I : List UInt8) (p total : ℕ)
    (limit : Option ℕ) (reservoir : Bits)
    (pieces : List (List UInt8)),
    s.stage = .trees group 0 → s.tables = some t → t.builder.stage = .start →
    t.alphabet group = alphabet → (t.trees group).count = count →
    (t.trees group).Ready → (group = 2 → ∀ symbol < alphabet,
      t.distances.validateSymbol symbol = .ok ()) →
    I.length ≤ u64Max → Mbrotli.Cursor I p reservoir total → total ≤ I.length →
    (∀ l, limit = some l → total ≤ l) → pieces ≠ [] →
    pieces.flatten = I.drop total → BitString.Spells I p stored →
    p + stored.length ≤ 8 * Builder.allowed limit I.length →
    ∃ n reservoir' total' s',
      (∃ l, s.memory.limit = some l ∧ ∀ fuel, n ≤ fuel →
        calls (Stream.rounds env (past group)) fuel limit pieces s reservoir total =
        (.fault (.error (.memoryLimitExceeded l)), s', reservoir', total')) ∨
      ((∀ fuel, n ≤ fuel → calls (Stream.rounds env (past group)) fuel limit pieces s reservoir
        total = (.done (), s', reservoir', total')) ∧
        Mbrotli.Cursor I (p + stored.length) reservoir' total' ∧
        s'.stage = Stream.afterTrees group ∧ s'.memory.limit = s.memory.limit ∧
        ∃ t', s'.tables = some t' ∧ t'.builder.stage = .start ∧
        Coded (t'.trees group) count histogramLength depths bits used ∧
          ∀ i, i ≠ group → t'.trees i = t.trees i)

/-- The codes are stored as a group's descriptions, and a group that shows them is the writer's. -/
theorem BlockEncoder.buildAndStoreEntropyCodes_stores (e : BlockEncoder)
    {histograms : List (List ℕ)} {alphabet : ℕ}
    (hone : 1 ≤ e.histogramLength) (h704 : e.histogramLength ≤ numCommandSymbols)
    (halpha : e.histogramLength ≤ alphabet)
    (hmax : alphabet ≤ Mbrotli.maxAlphabet)
    (hsum : ∀ data ∈ histograms, (data.take e.histogramLength).sum < 2 ^ 24)
    (tree : List HuffmanNode) :
    ∃ tree' depths bits calls describe, e.buildAndStoreEntropyCodes histograms alphabet tree =
    some (tree', { e with depths, bits }, calls) ∧
      FastCommands.Writes calls (Stream.treesBits alphabet describe 0 histograms.length) ∧
      Stream.Described alphabet histograms.length describe
      (fun h => usedSymbols (histograms.getD h []) e.histogramLength)
        (fun h => depths.drop (h * e.histogramLength))
        (fun h => bits.drop (h * e.histogramLength)) ∧
      ∀ g : Group, g.count = histograms.length →
      (∀ h < histograms.length, g.Shows h (usedSymbols (histograms.getD h []) e.histogramLength)
        (depths.drop (h * e.histogramLength)) (bits.drop (h * e.histogramLength))) →
        Coded g histograms.length e.histogramLength depths bits fun h =>
        usedSymbols (histograms.getD h []) e.histogramLength := by
  obtain ⟨tree', depths, bits, calls, describe, hstore, hlenDepths, hlenBits, -, -,
      hwrites, hcodes⟩ :=
    @storeEntropyCodesFrom_stores _ _ hone h704 halpha hmax histograms 0 tree
      (List.replicate (histograms.length * e.histogramLength) 0)
      (List.replicate (histograms.length * e.histogramLength) 0)
      hsum (by rw [List.length_replicate, Nat.zero_add])
        (by rw [List.length_replicate, Nat.zero_add])
  rw [List.length_replicate] at hlenDepths hlenBits
  refine ⟨tree', depths, bits, calls, describe, ?_, hwrites, fun h hh => ?_,
    fun g hcount hshows h hh => ?_⟩
  · rw [BlockEncoder.buildAndStoreEntropyCodes]
    dsimp only
    rw [hstore]
    rfl
  · obtain ⟨calls', hstored⟩ := hcodes h hh
    rw [Nat.zero_add] at hstored
    exact ⟨hstored.valid, hstored.fits, hstored.words⟩
  · obtain ⟨table, htable, hfinds⟩ := (hshows h hh).finds (by omega)
    refine ⟨table, htable, hfinds, fun symbol hsymbol => ?_⟩
    obtain ⟨calls', hstored⟩ := hcodes h hh
    rw [Nat.zero_add] at hstored
    have hfits := hstored.word_fits hsymbol
    rw [getD_drop_entry, getD_drop_entry] at hfits
    have hlt := (mem_usedSymbols.1 hsymbol).1
    have hroom : h * e.histogramLength + e.histogramLength ≤
        histograms.length * e.histogramLength := by
      rw [← Nat.succ_mul]
      exact Nat.mul_le_mul_right _ hh
    exact ⟨by omega, by omega, hfits⟩

/-- **The codes of a stream's histograms survive the writer and the reader.** -/
theorem entropy_codes_round_trip (e : BlockEncoder) {histograms : List (List ℕ)} {alphabet : ℕ}
    (hne : histograms ≠ [])
    (hone : 1 ≤ e.histogramLength) (h704 : e.histogramLength ≤ numCommandSymbols)
    (halpha : e.histogramLength ≤ alphabet)
    (hmax : alphabet ≤ Mbrotli.maxAlphabet)
    (hsum : ∀ data ∈ histograms, (data.take e.histogramLength).sum < 2 ^ 24)
    (tree : List HuffmanNode) :
    ∃ tree' e' calls stored, e.buildAndStoreEntropyCodes histograms alphabet tree =
    some (tree', e', calls) ∧
      FastCommands.Writes calls stored ∧
      ReadsGroupBack alphabet histograms.length e.histogramLength e'.depths e'.bits
        (fun h => usedSymbols (histograms.getD h []) e.histogramLength) stored := by
  obtain ⟨tree', depths, bits, calls, describe, hstore, hwrites, hdescribed, hcoded⟩ :=
    e.buildAndStoreEntropyCodes_stores hone h704 halpha hmax hsum tree
  refine ⟨tree', { e with depths, bits }, calls,
    Stream.treesBits alphabet describe 0 histograms.length, hstore, hwrites, ?_⟩
  intro env group s t I p total limit reservoir pieces hstage htables hstart halphabet hcount hready
    hvalid hI hc ht hl hpiecesNe hpieces hspells hend
  obtain ⟨k, hk⟩ := Nat.exists_eq_add_of_le' (List.length_pos_of_ne_nil hne)
  have hs : s.inTrees t group (.trees group 0) s.memory t.builder (t.trees group) = s := by
    unfold Stream.inTrees Tables.setTree
    rw [Function.update_eq_self, ← hstage, ← htables]
  have hspells' := hspells
  have hend' := hend
  rw [hk] at hspells' hend'
  have hread := Stream.reads_trees (B := Builder.allowed limit I.length) env (hone.trans halpha)
    hmax hdescribed halphabet
    hvalid (past_trees group) s k s.memory (show 0 + (k + 1) = _ by omega) hstart hcount hready
      (fun h hh => absurd hh (Nat.not_lt_zero h))
    hspells' hend'
  rw [hs, ← hk] at hread
  rcases hread with ⟨l, s', q, hlimit, hends⟩ | ⟨memory', b', g', hlimit, hb', hcount',
    -, hshows, hgo⟩
  · obtain ⟨n, reservoir', total', hcalls, -⟩ :=
      calls_of_ends hI pieces hends hc ht hl hpieces (Or.inl hpiecesNe)
    exact ⟨n, reservoir', total', s', Or.inl ⟨l, hlimit, hcalls⟩⟩
  · have hends := hgo _ _ (Or.inl ⟨past_after group, rfl, rfl⟩)
    obtain ⟨n, reservoir', total', hcalls, hcursor⟩ :=
      calls_of_ends hI pieces hends hc ht hl hpieces (Or.inl hpiecesNe)
    refine ⟨n, reservoir', total', _,
      Or.inr ⟨hcalls, hcursor, rfl, hlimit, _, rfl, hb', ?_,
        fun i hi => Function.update_of_ne hi _ _⟩⟩
    rw [Stream.trees_inTrees]
    exact hcoded g' hcount' hshows

/-- Two histograms of two symbols each, of which the second counts but one. -/
theorem entropy_codes_round_trip_two : ∃ tree' e' calls stored,
    ({ histogramLength := 2, blockTypes := [], blockLengths := [], blockLen := 0, depths := [],
        bits := [] } : BlockEncoder).buildAndStoreEntropyCodes
      [[3, 1], [0, 5]] 2 [] = some (tree', e', calls) ∧
    FastCommands.Writes calls stored ∧
    ReadsGroupBack 2 2 2 e'.depths e'.bits
    (fun h => usedSymbols (List.getD [[3, 1], [0, 5]] h []) 2) stored :=
  entropy_codes_round_trip
    { histogramLength := 2, blockTypes := [], blockLengths := [],
      blockLen := 0, depths := [], bits := [] }
    (List.cons_ne_nil _ _) (by decide) (by decide) (by decide) (by decide) (by decide) []

end Mbrotli.Compressor.Bitstream
