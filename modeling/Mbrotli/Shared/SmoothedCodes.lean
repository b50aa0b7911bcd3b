/-
# The prefix codes of smoothed histograms

`optimizeHistograms` smooths every histogram of a meta-block with one scratch, and
`buildDepths` is what `build_and_store_huffman_tree` writes to the depths; the bits it
writes are left out. The scratch is as dirty as the last histogram left it, so the run
lemma asks only for its length (`optimizeAll_run`).

A histogram of one used symbol gets a code of no bits by design: the decoder reads such
a symbol without a bit. From two used symbols on, every used symbol has a length.

Key definitions: `MetaBlockSplit`, `optimizeHistograms`, `buildDepths`, `SmoothedCode`.
Key theorems: `buildDepths_many`, `buildDepths_few`, `smoothedCode`, `optimizeAll_run`.
-/
import Mbrotli.Shared.HistogramRle
import Mbrotli.Shared.HuffmanBuilds

namespace Mbrotli.Compressor

def numLiteralSymbols : ℕ := 256

def numCommandSymbols : ℕ := 704

def numHistogramDistanceSymbols : ℕ := 544

/-- The counts of the histograms of a meta-block. -/
structure MetaBlockSplit where
  literalHistograms : List (List ℕ)
  commandHistograms : List (List ℕ)
  distanceHistograms : List (List ℕ)

/-- Smooths histograms one after the other with one scratch. -/
def optimizeAll (length : ℕ) : List (List ℕ) → List ℕ → Option (List (List ℕ) × List ℕ)
  | [], goodForRle => some ([], goodForRle)
  | data :: histograms, goodForRle => do
    let (data, goodForRle) ← optimizeHuffmanCountsForRle length data goodForRle
    let (histograms, goodForRle) ← optimizeAll length histograms goodForRle
    return (data :: histograms, goodForRle)

/-- Rounds every histogram so its prefix code codes well by run length. -/
def optimizeHistograms (numDistanceCodes : ℕ) (mb : MetaBlockSplit) : Option MetaBlockSplit := do
  let (literal, goodForRle) ← optimizeAll numLiteralSymbols mb.literalHistograms
    (List.replicate numCommandSymbols 0)
  let (command, goodForRle) ← optimizeAll numCommandSymbols mb.commandHistograms goodForRle
  let (distance, _) ← optimizeAll numDistanceCodes mb.distanceHistograms goodForRle
  return ⟨literal, command, distance⟩

/-- The used symbols, the first four of them by name; the count stops at five. -/
def scanUsed : List ℕ → ℕ → ℕ → List ℕ → ℕ × List ℕ
  | [], _, count, symbols => (count, symbols)
  | occurrences :: rest, symbol, count, symbols =>
    if occurrences ≠ 0 then
      if count < 4 then scanUsed rest (symbol + 1) (count + 1) (symbols.set count symbol)
      else if count > 4 then (count, symbols)
      else scanUsed rest (symbol + 1) (count + 1) symbols
    else scanUsed rest (symbol + 1) count symbols

/-- The depths of the code that `build_and_store_huffman_tree` builds, and the node
scratch it leaves. -/
def buildDepths (histogram : List ℕ) (histogramLength : ℕ) (tree : List HuffmanNode)
    (depth : List ℕ) :
    Option (List HuffmanNode × List ℕ) :=
  let (count, symbols) := scanUsed (histogram.take histogramLength) 0 0 [0, 0, 0, 0]
  if count ≤ 1 then (setAt depth (symbols.getD 0 0) 0).map fun depth => (tree, depth)
  else if depth.length < histogramLength then none
  else createHuffmanTree histogram histogramLength 15 tree (List.replicate histogramLength 0 ++
    depth.drop histogramLength)

variable {length count symbol : ℕ} {data counts c l depth goodForRle symbols : List ℕ}

theorem length_usedSymbols (data : List ℕ) (length : ℕ) :
    (usedSymbols data length).length = nonzeros data length := by
  induction length with
  | zero => rfl
  | succ i ih =>
    have htake : (data.take (i + 1)).countP (· ≠ 0) =
        (data.take i).countP (· ≠ 0) + if data.getD i 0 ≠ 0 then 1 else 0 := by
      rw [List.take_add_one, List.countP_append, List.getD_eq_getElem?_getD]
      cases data[i]? with
      | none => rfl
      | some x => simp [List.countP_cons]
    rw [nonzeros, htake, usedSymbols, ← nonzeros, ← ih]
    split <;> rfl

theorem scanUsed_zeros (h : ∀ x ∈ l, x = 0) (symbol count : ℕ) (symbols : List ℕ) :
    scanUsed l symbol count symbols = (count, symbols) := by
  induction l generalizing symbol with
  | nil => rfl
  | cons x l ih =>
    have hx : ¬x ≠ 0 := not_not_intro (h x List.mem_cons_self)
    rw [scanUsed, if_neg hx]
    exact ih (fun y hy => h y (List.mem_cons_of_mem _ hy)) _

theorem le_scanUsed (l : List ℕ) (symbol count : ℕ) (symbols : List ℕ) :
    count ≤ (scanUsed l symbol count symbols).1 := by
  induction l generalizing symbol count symbols with
  | nil => exact Nat.le_refl _
  | cons x l ih =>
    rw [scanUsed]
    split
    · split
      · exact (Nat.le_succ count).trans (ih _ _ _)
      · split
        · exact Nat.le_refl _
        · exact (Nat.le_succ count).trans (ih _ _ _)
    · exact ih _ _ _

/-- The scan tells two used symbols from fewer. -/
theorem scanUsed_le_one (hcount : count ≤ 1) : (scanUsed l symbol count symbols).1 ≤ 1 ↔
    count + l.countP (· ≠ 0) ≤ 1 := by
  induction l generalizing symbol count symbols with
  | nil => exact Iff.rfl
  | cons x l ih =>
    by_cases hx : x ≠ 0
    · rw [scanUsed, if_pos hx, if_pos (by omega), List.countP_cons_of_pos (by simpa using hx)]
      rcases Nat.lt_or_ge count 1 with hlt | hge
      · rw [ih (by omega)]
        omega
      · have := le_scanUsed l (symbol + 1) (count + 1) (symbols.set count symbol)
        omega
    · rw [scanUsed, if_neg hx, List.countP_cons_of_neg (by simpa using hx)]
      exact ih hcount

/-- The one used symbol is found. -/
theorem scanUsed_one {v : ℕ} (hone : l.countP (· ≠ 0) ≤ 1) (hv : l.getD v 0 ≠ 0)
    (hsymbols : 0 < symbols.length) :
    (scanUsed l symbol 0 symbols).2.getD 0 0 = symbol + v := by
  induction l generalizing symbol v with
  | nil => exact absurd rfl hv
  | cons x l ih =>
    by_cases hx : x ≠ 0
    · rw [List.countP_cons_of_pos (by simpa using hx)] at hone
      have hzeros : ∀ y ∈ l, y = 0 := by
        have hnone : l.countP (· ≠ 0) = 0 := by omega
        intro y hy
        simpa using List.countP_eq_zero.1 hnone y hy
      rw [scanUsed, if_pos hx, if_pos (by decide), scanUsed_zeros hzeros]
      have hv0 : v = 0 := by
        cases v with
        | zero => rfl
        | succ v =>
          rw [List.getD_cons_succ, List.getD_eq_getElem?_getD] at hv
          cases hy : l[v]? with
          | none => exact absurd (by rw [hy]; rfl) hv
          | some y => exact absurd (by rw [hy]; exact hzeros y (List.mem_of_getElem? hy)) hv
      rw [hv0, List.getD_eq_getElem?_getD, List.getElem?_set_self hsymbols]
      rfl
    · rw [List.countP_cons_of_neg (by simpa using hx)] at hone
      cases v with
      | zero => exact absurd hv hx
      | succ v =>
        rw [List.getD_cons_succ] at hv
        rw [scanUsed, if_neg hx, ih hone hv]
        omega

theorem getD_take {v : ℕ} (hv : v < length) : (data.take length).getD v 0 = data.getD v 0 := by
  rw [List.getD_eq_getElem?_getD, List.getD_eq_getElem?_getD, List.getElem?_take_of_lt hv]

/-- A code of one symbol has no bits. -/
theorem buildDepths_few (hfew : nonzeros data length ≤ 1) (hdepth : length ≤ depth.length)
    (hne : 0 < depth.length) (tree : List HuffmanNode) :
    ∃ depth', buildDepths data length tree depth = some (tree, depth') ∧ ∀ v < length,
    data.getD v 0 ≠ 0 → depth'.getD v 0 = 0 := by
  have hcount : (scanUsed (data.take length) 0 0 [0, 0, 0, 0]).1 ≤ 1 :=
    (scanUsed_le_one (Nat.zero_le 1)).2 (by rwa [Nat.zero_add])
  have hfound : ∀ v < length, data.getD v 0 ≠ 0 →
      (scanUsed (data.take length) 0 0 [0, 0, 0, 0]).2.getD 0 0 = v := by
    intro v hv hused
    rw [scanUsed_one hfew (by rwa [getD_take hv]) (by decide), Nat.zero_add]
  have hlt : (scanUsed (data.take length) 0 0 [0, 0, 0, 0]).2.getD 0 0 < depth.length := by
    by_cases hused : ∃ v < length, data.getD v 0 ≠ 0
    · obtain ⟨v, hv, hused⟩ := hused
      rw [hfound v hv hused]
      omega
    · have hzeros : ∀ x ∈ data.take length, x = 0 := by
        intro x hx
        obtain ⟨v, hv⟩ := List.mem_iff_getElem?.1 hx
        have hvlt : v < (data.take length).length := (List.getElem?_eq_some_iff.1 hv).1
        rw [List.length_take] at hvlt
        by_contra hne
        refine hused ⟨v, by omega, ?_⟩
        rwa [← getD_take (show v < length by omega), List.getD_eq_getElem?_getD, hv]
      rw [scanUsed_zeros hzeros]
      exact hne
  rw [buildDepths]
  dsimp only
  rw [if_pos hcount, setAt, if_pos hlt]
  refine ⟨_, rfl, fun v hv hused => ?_⟩
  rw [hfound v hv hused, List.getD_eq_getElem?_getD, List.getElem?_set_self (by omega)]
  rfl

/-- A code of more symbols has a length for each used one. -/
theorem buildDepths_many (hmany : 2 ≤ nonzeros data length) (hlength : length ≤ 704)
    (htotal : data.sum ≤ 2 ^ 25)
    (hdepth : length ≤ depth.length) (tree : List HuffmanNode) :
    ∃ tree' depth', buildDepths data length tree depth = some (tree', depth') ∧
      ∀ v < length, data.getD v 0 ≠ 0 → 1 ≤ depth'.getD v 0 ∧ depth'.getD v 0 ≤ 15 := by
  have hcount : ¬(scanUsed (data.take length) 0 0 [0, 0, 0, 0]).1 ≤ 1 := by
    rw [scanUsed_le_one (Nat.zero_le 1), Nat.zero_add, ← nonzeros]
    omega
  have hsum : (data.take length).sum ≤ 2 ^ 25 := by
    have := List.sum_take_add_sum_drop data length
    omega
  rw [buildDepths]
  dsimp only
  rw [if_neg hcount, if_neg (by omega)]
  obtain ⟨tree', depth', hrun, hcoded⟩ :=
    createHuffmanTree_coded (by rwa [length_usedSymbols]) hlength hsum
      (show length ≤
      (List.replicate length 0 ++ depth.drop
        length).length by rw [List.length_append, List.length_replicate]; omega) tree
  exact ⟨tree', depth', hrun, hcoded.used⟩

/-- What smoothing gives: safe counts, whose code has a length for each used symbol if
there are two of them. -/
structure SmoothedCode (length : ℕ) (before after : List ℕ) : Prop where
  safe : SmoothedSafely length before after
  coded : ∀ tree depth, length ≤ depth.length → 0 < depth.length → ∃ tree' depth',
    buildDepths after length tree depth = some (tree', depth') ∧
    ∀ v < length, before.getD v 0 ≠ 0 → (depth'.getD v 0 ≠ 0 ↔ 2 ≤ nonzeros before length)

/-- Used symbols stay used, so their number does not fall. -/
theorem SmoothedSafely.nonzeros_le (h : SmoothedSafely length counts c) :
    nonzeros counts length ≤ nonzeros c length := by
  rw [← length_usedSymbols, ← length_usedSymbols]
  refine ((usedSymbols_nodup counts length).subperm fun v hv => ?_).length_le
  have hv := mem_usedSymbols.1 hv
  exact mem_usedSymbols.2 ⟨hv.1, h.used v hv.2⟩

/-- A histogram of a meta-block is smoothed to one that has a code. -/
theorem smoothedCode (hlen : length ≤ counts.length) (hgood : length ≤ goodForRle.length)
    (hlength : length ≤ 704)
    (htotal : counts.sum ≤ 2 ^ 24) :
    ∃ c g, optimizeHuffmanCountsForRle length counts goodForRle = some (c, g) ∧
    g.length = goodForRle.length ∧ SmoothedCode length counts c := by
  have hbound : ∀ x ∈ counts, x < 2 ^ 32 :=
    fun x hx => ((List.le_sum_of_mem hx).trans htotal).trans_lt (by decide)
  by_cases hmany : 2 ≤ nonzeros counts length
  · obtain ⟨c, g, hrun, hg, hsafe⟩ := optimizeHuffmanCounts_smoothed hlen hgood hbound
    refine ⟨c, g, hrun, hg, hsafe, fun tree depth hdepth _ => ?_⟩
    have hsum := hsafe.total
    obtain ⟨tree', depth', hbuild, hused⟩ :=
      buildDepths_many (hmany.trans hsafe.nonzeros_le) hlength (hsum.trans (by omega)) hdepth tree
    refine ⟨tree', depth', hbuild, fun v hv hcount => ⟨fun _ => hmany, fun _ => ?_⟩⟩
    exact Nat.one_le_iff_ne_zero.1 (hused v hv (hsafe.used v hcount)).1
  · have hsame : optimizeHuffmanCountsForRle length counts goodForRle =
        some (counts, goodForRle) := by
      rw [optimizeHuffmanCountsForRle, if_pos (by omega)]
    refine ⟨counts, goodForRle, hsame, rfl, .refl length counts, fun tree depth hdepth hne => ?_⟩
    obtain ⟨depth', hbuild, hzero⟩ :=
      buildDepths_few (show nonzeros counts length ≤ 1 by omega) hdepth hne tree
    exact ⟨tree, depth', hbuild, fun v hv hcount => ⟨fun hne => absurd (hzero v hv hcount) hne,
      fun h => absurd h hmany⟩⟩

/-- Histograms of `n` counts of a meta-block of at most `2 ^ 24` bytes. -/
def Counted (n : ℕ) (histograms : List (List ℕ)) : Prop :=
  ∀ h ∈ histograms, h.length = n ∧ h.sum ≤ 2 ^ 24

theorem optimizeAll_run {n : ℕ} {histograms : List (List ℕ)} (hcounted : Counted n histograms)
    (hn : length ≤ n) (hlength : length ≤ 704)
    (hgood : goodForRle.length = 704) :
    ∃ smoothed g, optimizeAll length histograms goodForRle = some (smoothed, g) ∧ g.length = 704 ∧
      List.Forall₂ (SmoothedCode length) histograms smoothed := by
  induction histograms generalizing goodForRle with
  | nil => exact ⟨[], goodForRle, rfl, hgood, .nil⟩
  | cons h histograms ih =>
    obtain ⟨hlen, htotal⟩ := hcounted h List.mem_cons_self
    obtain ⟨c, g, hrun, hg, hcode⟩ :=
      smoothedCode (show length ≤ h.length by omega) (show length ≤ goodForRle.length by omega)
        hlength htotal
    obtain ⟨rest, g', hrest, hg', hcodes⟩ :=
      ih (fun x hx => hcounted x (List.mem_cons_of_mem _ hx)) (hg.trans hgood)
    refine ⟨c :: rest, g', ?_, hg', .cons hcode hcodes⟩
    rw [optimizeAll, hrun, Option.bind_eq_bind, Option.bind_some]
    dsimp only
    rw [hrest]
    rfl

/-- Smoothing is safe for any histogram and scratch. Every histogram of a meta-block is
smoothed to one whose code has a length for each symbol the meta-block uses, if it uses
two of them, and has no bits otherwise. -/
theorem histogramSmoothing_safe {numDistanceCodes : ℕ} {mb : MetaBlockSplit}
    (hlen : length ≤ counts.length) (hgood : length ≤ goodForRle.length)
    (hbound : ∀ x ∈ counts, x < 2 ^ 32) (hcodes : numDistanceCodes ≤ numHistogramDistanceSymbols)
    (hliteral : Counted numLiteralSymbols mb.literalHistograms)
    (hcommand : Counted numCommandSymbols mb.commandHistograms)
    (hdistance : Counted numHistogramDistanceSymbols mb.distanceHistograms) :
    (∃ c g, optimizeHuffmanCountsForRle length counts goodForRle = some (c, g) ∧
      SmoothedSafely length counts c) ∧
      ∃ mb', optimizeHistograms numDistanceCodes mb = some mb' ∧
        List.Forall₂ (SmoothedCode numLiteralSymbols) mb.literalHistograms mb'.literalHistograms ∧
        List.Forall₂ (SmoothedCode numCommandSymbols) mb.commandHistograms mb'.commandHistograms ∧
        List.Forall₂ (SmoothedCode numDistanceCodes) mb.distanceHistograms
        mb'.distanceHistograms := by
  obtain ⟨c, g, hrun, -, hsafe⟩ := optimizeHuffmanCounts_smoothed hlen hgood hbound
  refine ⟨⟨c, g, hrun, hsafe⟩, ?_⟩
  obtain ⟨literal, g₁, hl, hg₁, hsl⟩ := optimizeAll_run hliteral (Nat.le_refl _) (by decide)
    (show (List.replicate numCommandSymbols 0).length = 704 from List.length_replicate)
  obtain ⟨command, g₂, hc, hg₂, hsc⟩ := optimizeAll_run hcommand (Nat.le_refl _) (by decide) hg₁
  obtain ⟨distance, g₃, hd, -, hsd⟩ :=
    optimizeAll_run hdistance hcodes (hcodes.trans (by decide)) hg₂
  refine ⟨⟨literal, command, distance⟩, ?_, hsl, hsc, hsd⟩
  rw [optimizeHistograms, hl, Option.bind_eq_bind, Option.bind_some]
  dsimp only
  rw [hc, Option.bind_some]
  dsimp only
  rw [hd]
  rfl

/-- Counts that smoothing rewrites. -/
def uneven : List ℕ := (List.range 32).map fun i => 5 + i % 2

/-- Their literals, in a meta-block's alphabet. -/
def unevenLiterals : List ℕ := uneven ++ List.replicate 224 0

/-- Each stretch of the uneven counts becomes even, by itself and in a meta-block. -/
theorem histogramSmoothing_safe_uneven :
    (∃ c g, optimizeHuffmanCountsForRle 32 uneven (List.replicate 32 1) = some (c, g) ∧
      c = List.replicate 32 6 ∧ SmoothedSafely 32 uneven c) ∧
    ∃ mb', optimizeHistograms 64 ⟨[unevenLiterals], [], []⟩ = some mb' ∧
      mb'.literalHistograms ≠ [unevenLiterals] ∧
      List.Forall₂ (SmoothedCode 256) [unevenLiterals] mb'.literalHistograms ∧
      List.Forall₂ (SmoothedCode 704) [] mb'.commandHistograms ∧
      List.Forall₂ (SmoothedCode 64) [] mb'.distanceHistograms := by
  have hcounted : Counted numLiteralSymbols [unevenLiterals] := by
    intro h hh
    rw [List.mem_singleton.1 hh]
    exact ⟨by decide +kernel, by decide +kernel⟩
  obtain ⟨⟨c, g, hrun, hsafe⟩, mb', hmb, hliteral, hcommand, hdistance⟩ :=
    @histogramSmoothing_safe 32 uneven (List.replicate 32 1) 64 ⟨[unevenLiterals], [], []⟩
      (by decide) (by decide) (by decide) (by decide) hcounted (fun h hh => (nomatch hh))
      (fun h hh => (nomatch hh))
  have heven : (optimizeHuffmanCountsForRle 32 uneven (List.replicate 32 1)).map (·.1) =
      some (List.replicate 32 6) := by decide +kernel
  have hchanged : (optimizeHistograms 64 ⟨[unevenLiterals], [], []⟩).map (·.literalHistograms) ≠
      some [unevenLiterals] := by decide +kernel
  rw [hrun, Option.map_some, Option.some_inj] at heven
  rw [hmb, Option.map_some] at hchanged
  exact ⟨⟨c, g, hrun, heven, hsafe⟩, mb', hmb, fun h => hchanged (congrArg some h), hliteral,
    hcommand, hdistance⟩

/-- The code of a meta-block that uses one literal only has no bits. -/
theorem oneSymbol_no_bits :
    let data := List.replicate 65 0 ++ 3 :: List.replicate 190 0
    optimizeHistograms 64 ⟨[data], [], []⟩ = some ⟨[data], [], []⟩ ∧ data.getD 65 0 = 3 ∧
      ∃ depth', buildDepths data numLiteralSymbols [] (List.replicate 256 0) = some ([], depth') ∧
      depth'.getD 65 0 = 0 := by
  intro data
  have hused : data.getD 65 0 = 3 := by decide +kernel
  have hone : nonzeros data numLiteralSymbols = 1 := by decide +kernel
  obtain ⟨depth', hbuild, hzero⟩ :=
    buildDepths_few (show nonzeros data numLiteralSymbols ≤ 1 by omega)
      (show numLiteralSymbols ≤ (List.replicate 256 0).length by decide +kernel)
      (by decide +kernel) []
  refine ⟨?_, hused, depth', hbuild, hzero 65 (by decide) (by omega)⟩
  have hsame : ∀ g, optimizeHuffmanCountsForRle numLiteralSymbols data g = some (data, g) := by
    intro g
    rw [optimizeHuffmanCountsForRle, if_pos (by omega)]
  rw [optimizeHistograms, optimizeAll, hsame]
  rfl

end Mbrotli.Compressor
