/-
# Assigning histograms to their clusters

After the merges every input goes to its cheapest cluster, the clusters are summed up
again from their inputs, and those in use are renumbered in the order of their first
use.

`histogramRemap_data` says that a cluster then is the sum of its inputs, whatever was
merged before, and `remapReindex_clustered` that the renumbering keeps these sums.

Key definitions: `histogramRemap`, `histogramReindex`, `clusterHistograms`,
`DenseFrom`.
Key theorems: `sum_assigned`, `clustering_sound`.
-/
import Mbrotli.Compressor.Core.Hq.Cluster
import Mathlib.Algebra.BigOperators.Group.List.Basic

namespace Mbrotli.Compressor

variable {F : Type} [LinearOrder F] {n : ℕ}

/-- Forgets every symbol counted so far. -/
def Histogram.clear (K : CostRules F n) (_ : Histogram F n) : Histogram F n := K.empty

/-- What moving `histogram` into `candidate` would cost. -/
def bitCostDistance (K : CostRules F n) (histogram candidate : Histogram F n) (dataSize : ℕ) : F :=
  if histogram.totalCount = 0 then K.zero
  else K.sub (K.populationCost (histogram.sum candidate) dataSize) candidate.bitCost

/-- The cheapest cluster for a histogram, `previous` if no other is cheaper. -/
def cheapest (K : CostRules F n) (out : List (Histogram F n)) (clusters : List ℕ) (dataSize : ℕ)
    (histogram : Histogram F n)
    (previous : ℕ) : ℕ :=
  (clusters.foldl (fun best cluster =>
    let bits := bitCostDistance K histogram (out.getD cluster K.empty) dataSize
    if bits < best.2 then (cluster, bits) else best)
    (previous, bitCostDistance K histogram (out.getD previous K.empty) dataSize)).1

/-- Each input's cluster, the one of the input before it in case of a draw. -/
def remapSymbols (K : CostRules F n) (out : List (Histogram F n)) (clusters : List ℕ)
    (dataSize : ℕ) :
    List (Histogram F n) → ℕ → List ℕ
  | [], _ => []
  | histogram :: input, previous =>
    let best := cheapest K out clusters dataSize histogram previous
    best :: remapSymbols K out clusters dataSize input best

/-- Adds each input to its cluster. -/
def addInputs (out : List (Histogram F n)) : List (Histogram F n × ℕ) → List (Histogram F n)
  | [] => out
  | (source, symbol) :: rest => addInputs (out.modify symbol fun h => h.addHistogram source) rest

/-- Assigns every input histogram to its cheapest cluster and sums the clusters up
again. -/
def histogramRemap (K : CostRules F n) (input : List (Histogram F n)) (clusters : List ℕ)
    (out : List (Histogram F n))
    (dataSize : ℕ) (symbols : List ℕ) : List (Histogram F n) × List ℕ :=
  let symbols := remapSymbols K out clusters dataSize input (symbols.headD 0) ++
    symbols.drop input.length
  let out := clusters.foldl (fun out c => out.modify c (Histogram.clear K)) out
  (addInputs out (input.zip symbols), symbols)

/-- Numbers the clusters in the order of their first use; `none` is the source's
`u32::MAX`. -/
def assignIndices : List ℕ → List (Option ℕ) → ℕ → List (Option ℕ) × ℕ
  | [], newIndex, nextIndex => (newIndex, nextIndex)
  | symbol :: rest, newIndex, nextIndex =>
    if newIndex.getD symbol none = none then assignIndices rest
    (newIndex.set symbol (some nextIndex)) (nextIndex + 1)
    else assignIndices rest newIndex nextIndex

/-- Rewrites the symbols and copies each cluster out at its first use. -/
def renumber (K : CostRules F n) (out : List (Histogram F n)) (newIndex : List (Option ℕ)) :
    List ℕ → ℕ → List (Histogram F n) → List ℕ × List (Histogram F n)
  | [], _, reindexed => ([], reindexed)
  | symbol :: rest, written, reindexed =>
    let index := (newIndex.getD symbol none).getD (2 ^ 32 - 1)
    if index = written then
      let (symbols, reindexed) :=
        renumber K out newIndex rest (written + 1) (reindexed.set written (out.getD symbol K.empty))
      (index :: symbols, reindexed)
    else
      let (symbols, reindexed) := renumber K out newIndex rest written reindexed
      (index :: symbols, reindexed)

/-- Renumbers the clusters in use into a dense range; gives `out`, the symbols and how
many histograms remain. -/
def histogramReindex (K : CostRules F n) (out : List (Histogram F n)) (symbols : List ℕ)
    (length : ℕ) :
    List (Histogram F n) × List ℕ × ℕ :=
  let (newIndex, nextIndex) := assignIndices (symbols.take length) (List.replicate length none) 0
  let (renumbered, reindexed) :=
    renumber K out newIndex (symbols.take length) 0 (List.replicate nextIndex K.empty)
  (reindexed ++ out.drop reindexed.length, renumbered ++ symbols.drop length, reindexed.length)

def maxInputHistograms : ℕ := 64

/-- What the batches of the first pass share. -/
structure Batches (F : Type) (n : ℕ) where
  out : List (Histogram F n)
  clusterSize : List ℕ
  symbols : List ℕ
  clusters : List ℕ

/-- The batch of the inputs from `index` on. -/
def Batches.combine (K : CostRules F n) (dataSize maxHistograms index numToCombine : ℕ)
    (b : Batches F n) : Option (Batches F n) :=
  let P : CombineParams F n :=
    ⟨K, dataSize, numToCombine, maxHistograms, maxInputHistograms * maxInputHistograms / 2⟩
  (histogramCombine P b.out b.clusterSize (b.symbols.drop index)
    (List.range' index numToCombine)).map fun s =>
    ⟨s.out, s.clusterSize, b.symbols.take index ++ s.symbols, b.clusters ++ s.clusters⟩

/-- The batches, for at most `fuel` of them. -/
def firstPass (K : CostRules F n) (dataSize maxHistograms inSize : ℕ) :
    ℕ → ℕ → Batches F n → Option (Batches F n)
  | 0, _, _ => none
  | fuel + 1, index, b =>
    if index < inSize then
      (b.combine K dataSize maxHistograms index (min (inSize - index) maxInputHistograms)).bind
        (firstPass K dataSize maxHistograms inSize fuel (index + maxInputHistograms))
    else some b

/-- Clusters `input` into at most `maxHistograms` histograms; gives them and the one
each input maps to. -/
def clusterHistograms (K : CostRules F n) (input : List (Histogram F n))
    (dataSize maxHistograms : ℕ) :
    Option (List (Histogram F n) × List ℕ) :=
  let inSize := input.length
  let out := input.map fun h => { h with bitCost := K.populationCost h dataSize }
  (firstPass K dataSize maxHistograms inSize (inSize + 1) 0 ⟨out,
    List.replicate inSize 1, List.range inSize, []⟩).bind fun b =>
    let numClusters := b.clusters.length
    let maxNumPairs := min (64 * numClusters) (numClusters / 2 * numClusters)
    (histogramCombine ⟨K, dataSize, inSize, maxHistograms, maxNumPairs⟩ b.out b.clusterSize
      b.symbols b.clusters).map fun s =>
      let (out, symbols) := histogramRemap K input s.clusters s.out dataSize s.symbols
      let (out, symbols, finalSize) := histogramReindex K out symbols inSize
      (out.take finalSize, symbols)

variable {K : CostRules F n} {out input : List (Histogram F n)} {clusters symbols : List ℕ}
    {dataSize : ℕ}

theorem cheapest_mem {previous : ℕ} (h : previous ∈ clusters) (histogram : Histogram F n) :
    cheapest K out clusters dataSize histogram previous ∈ clusters := by
  have hfold : ∀ (l : List ℕ) (best : ℕ × F), l ⊆ clusters → best.1 ∈ clusters →
      (l.foldl (fun best cluster =>
        let bits := bitCostDistance K histogram (out.getD cluster K.empty) dataSize
        if bits < best.2 then (cluster, bits) else best) best).1 ∈ clusters := by
    intro l
    induction l with
    | nil => exact fun _ _ hb => hb
    | cons c l ih =>
      intro best hl hb
      rw [List.foldl_cons]
      refine ih _ (fun d hd => hl (List.mem_cons_of_mem _ hd)) ?_
      dsimp only
      split
      · exact hl List.mem_cons_self
      · exact hb
  exact hfold clusters _ (fun _ h => h) h

theorem length_remapSymbols (previous : ℕ) :
    (remapSymbols K out clusters dataSize input previous).length = input.length := by
  induction input generalizing previous with
  | nil => rfl
  | cons h input ih => rw [remapSymbols, List.length_cons, List.length_cons, ih]

theorem mem_remapSymbols {previous : ℕ} (h : previous ∈ clusters) :
    remapSymbols K out clusters dataSize input previous ⊆ clusters := by
  induction input generalizing previous with
  | nil => exact fun _ hc => nomatch hc
  | cons histogram input ih =>
    have hbest : cheapest K out clusters dataSize histogram previous ∈ clusters :=
      cheapest_mem h histogram
    intro c hc
    rw [remapSymbols] at hc
    rcases List.mem_cons.1 hc with rfl | hc
    · exact hbest
    · exact ih hbest hc

/-- The sum of one symbol's counts over the histograms that map to `c`. -/
def assignedSum (l : List (Histogram F n × ℕ)) (c : ℕ) (s : Fin n) : UInt32 :=
  ((l.filter fun q => q.2 = c).map fun q => q.1.data s).sum

theorem addInputs_data {c : ℕ} (hc : c < out.length) (l : List (Histogram F n × ℕ)) (s : Fin n) :
    ((addInputs out l).getD c K.empty).data s =
    (out.getD c K.empty).data s + assignedSum l c s := by
  induction l generalizing out with
  | nil => simp [addInputs, assignedSum]
  | cons q l ih =>
    obtain ⟨source, symbol⟩ := q
    rw [addInputs, ih (by rwa [List.length_modify]), assignedSum, assignedSum, List.filter_cons]
    simp only [List.getD_eq_getElem?_getD, List.getElem?_modify, List.getElem?_eq_getElem hc]
    by_cases hs : symbol = c
    · simp [hs, Histogram.addHistogram, add_assoc]
    · simp [hs]

theorem clear_getElem? (K : CostRules F n) (out : List (Histogram F n)) (l : List ℕ) (c : ℕ) :
    (l.foldl (fun out c => out.modify c (Histogram.clear K)) out)[c]? =
    if c ∈ l then out[c]?.map fun _ => K.empty else out[c]? := by
  induction l generalizing out with
  | nil => rfl
  | cons d l ih =>
    rw [List.foldl_cons, ih, List.getElem?_modify]
    by_cases hd : d = c
    · subst hd
      by_cases hl : d ∈ l <;> simp [hl, Histogram.clear, Function.comp_def]
    · have hcd : c ≠ d := fun h => hd h.symm
      simp [hd, hcd]

/-- A cluster is the sum of the inputs that map to it, whatever was merged before. -/
theorem histogramRemap_data {c : ℕ} (hc : c ∈ clusters) (hlt : c < out.length) (s : Fin n) :
    ((histogramRemap K input clusters out dataSize symbols).1.getD c K.empty).data s =
      assignedSum (input.zip (histogramRemap K input clusters out dataSize symbols).2) c s := by
  have hget := clear_getElem? K out clusters c
  rw [if_pos hc, List.getElem?_eq_getElem hlt] at hget
  have hlen : c < (clusters.foldl (fun out c => out.modify c (Histogram.clear K)) out).length :=
    (List.getElem?_eq_some_iff.1 hget).1
  rw [histogramRemap, addInputs_data hlen, List.getD_eq_getElem?_getD, hget]
  show (0 : UInt32) + _ = _
  rw [zero_add]

/-- Numbers below `next` are given, those from it on are given in order and without a
gap; `last` is how many there are in the end. -/
def DenseFrom : ℕ → List ℕ → ℕ → Prop
  | next, [], last => next = last
  | next, c :: rest, last => c < next ∧ DenseFrom next rest last ∨ c = next ∧
      DenseFrom (next + 1) rest last

theorem DenseFrom.le {next last : ℕ} {l : List ℕ} (h : DenseFrom next l last) : next ≤ last := by
  induction l generalizing next with
  | nil => exact le_of_eq h
  | cons c l ih =>
    rcases h with ⟨-, h⟩ | ⟨-, h⟩
    · exact ih h
    · exact Nat.le_of_succ_le (ih h)

theorem DenseFrom.lt {next last : ℕ} {l : List ℕ} (h : DenseFrom next l last) :
    ∀ c ∈ l, c < last := by
  induction l generalizing next with
  | nil => exact fun _ hc => nomatch hc
  | cons d l ih =>
    intro c hc
    rcases h with ⟨hd, h⟩ | ⟨hd, h⟩
    · rcases List.mem_cons.1 hc with rfl | hc
      · exact Nat.lt_of_lt_of_le hd h.le
      · exact ih h c hc
    · rcases List.mem_cons.1 hc with rfl | hc
      · exact hd ▸ h.le
      · exact ih h c hc

theorem DenseFrom.mem {next last : ℕ} {l : List ℕ} (h : DenseFrom next l last) {j : ℕ}
    (h1 : next ≤ j) (h2 : j < last) : j ∈ l := by
  induction l generalizing next with
  | nil => exact absurd h2 (not_lt.2 (h ▸ h1))
  | cons d l ih =>
    rcases h with ⟨-, h⟩ | ⟨hd, h⟩
    · exact List.mem_cons_of_mem _ (ih h h1)
    · rcases Nat.eq_or_lt_of_le h1 with he | hlt
      · exact he ▸ hd ▸ List.mem_cons_self
      · exact List.mem_cons_of_mem _ (ih h hlt)

/-- The numbers given so far are below `next` and all different. -/
structure Numbered (newIndex : List (Option ℕ)) (next : ℕ) : Prop where
  lt : ∀ {c j}, newIndex.getD c none = some j → j < next
  inj : ∀ {c d j}, newIndex.getD c none = some j → newIndex.getD d none = some j → c = d

theorem getD_set {newIndex : List (Option ℕ)} {c : ℕ} (hc : c < newIndex.length) (d : ℕ)
    (v : Option ℕ) :
    (newIndex.set c v).getD d none = if d = c then v else newIndex.getD d none := by
  rw [List.getD_eq_getElem?_getD, List.getD_eq_getElem?_getD, List.getElem?_set]
  by_cases hd : c = d
  · subst hd
    simp [hc]
  · have : d ≠ c := fun h => hd h.symm
    simp [hd, this]

theorem Numbered.set {newIndex : List (Option ℕ)} {next c : ℕ} (h : Numbered newIndex next)
    (hc : c < newIndex.length) :
    Numbered (newIndex.set c (some next)) (next + 1) := by
  constructor
  · intro d j hd
    rw [getD_set hc] at hd
    split at hd
    · rw [Option.some.injEq] at hd
      omega
    · exact Nat.lt_succ_of_lt (h.lt hd)
  · intro d e j hd he
    rw [getD_set hc] at hd he
    split at hd <;> split at he
    · omega
    · rw [Option.some.injEq] at hd
      exact absurd (h.lt he) (by omega)
    · rw [Option.some.injEq] at he
      exact absurd (h.lt hd) (by omega)
    · exact h.inj hd he

theorem assignIndices_keeps {l : List ℕ} {newIndex final : List (Option ℕ)} {next last : ℕ}
    (h : assignIndices l newIndex next = (final, last))
    (hlt : ∀ c ∈ l, c < newIndex.length) {c j : ℕ}
    (hc : newIndex.getD c none = some j) : final.getD c none = some j := by
  induction l generalizing newIndex next with
  | nil =>
    rw [assignIndices, Prod.mk.injEq] at h
    rw [← h.1]
    exact hc
  | cons d l ih =>
    have hd := hlt d List.mem_cons_self
    have hrest := fun e he => hlt e (List.mem_cons_of_mem _ he)
    rw [assignIndices] at h
    by_cases hnone : newIndex.getD d none = none
    · rw [if_pos hnone] at h
      refine ih h (by rwa [List.length_set]) ?_
      rw [getD_set hd, if_neg, hc]
      rintro rfl
      rw [hnone] at hc
      exact nomatch hc
    · rw [if_neg hnone] at h
      exact ih h hrest hc

/-- The number a cluster gets, `u32::MAX` if it has none. -/
def given (newIndex : List (Option ℕ)) (c : ℕ) : ℕ := (newIndex.getD c none).getD (2 ^ 32 - 1)

theorem given_eq {newIndex : List (Option ℕ)} {c j : ℕ} (h : newIndex.getD c none = some j) :
    given newIndex c = j := by
  rw [given, h]
  rfl

/-- What the renumbering does: the symbols are those of the final numbers, dense in the
order of first use, and each number from `next` on holds the cluster it was given to. -/
theorem renumber_spec (K : CostRules F n) (out : List (Histogram F n)) {l : List ℕ}
    {newIndex final : List (Option ℕ)} {next last : ℕ} {reindexed : List (Histogram F n)}
    (h : assignIndices l newIndex next = (final, last)) (hlt : ∀ c ∈ l, c < newIndex.length)
    (hnum : Numbered newIndex next)
    (hroom : last ≤ reindexed.length) :
    (renumber K out final l next reindexed).1 = l.map (given final) ∧
      DenseFrom next (renumber K out final l next reindexed).1 last ∧ Numbered final last ∧
      (∀ c ∈ l, final.getD c none ≠ none) ∧
      (renumber K out final l next reindexed).2.length = reindexed.length ∧
      (∀ j < next, (renumber K out final l next reindexed).2.getD j K.empty =
        reindexed.getD j K.empty) ∧
      ∀ c ∈ l, ∀ j, final.getD c none = some j → next ≤ j →
        (renumber K out final l next reindexed).2.getD j K.empty = out.getD c K.empty := by
  induction l generalizing newIndex next reindexed with
  | nil =>
    rw [assignIndices, Prod.mk.injEq] at h
    obtain ⟨rfl, rfl⟩ := h
    exact ⟨rfl, rfl, hnum, fun _ hc => (nomatch hc), rfl, fun _ _ => rfl, fun _ hc => (nomatch hc)⟩
  | cons d l ih =>
    have hd := hlt d List.mem_cons_self
    have hrest := fun e he => hlt e (List.mem_cons_of_mem d he)
    rw [assignIndices] at h
    by_cases hnone : newIndex.getD d none = none
    · -- the first use of `d`
      rw [if_pos hnone] at h
      have hset : (newIndex.set d (some next)).getD d none = some next := by
        rw [getD_set hd, if_pos rfl]
      have hrest' : ∀ c ∈ l, c < (newIndex.set d (some next)).length := by rwa [List.length_set]
      have hfinal := assignIndices_keeps h hrest' hset
      have hroom' : last ≤ (reindexed.set next (out.getD d K.empty)).length := by
        rwa [List.length_set]
      obtain ⟨h1, h2, h3, h4, h5, h6, h7⟩ := ih h hrest' (hnum.set hd) hroom'
      have hlast : next < last := h2.le
      rw [renumber, hfinal]
      dsimp only [Option.getD_some]
      rw [if_pos rfl]
      have hfirst :
          (renumber K out final l (next + 1) (reindexed.set next (out.getD d K.empty))).2.getD next
          K.empty = out.getD d K.empty := by
        rw [h6 next (Nat.lt_succ_self _), List.getD_eq_getElem?_getD,
          List.getElem?_set_self (by omega)]
        rfl
      refine ⟨?_, .inr ⟨rfl, h2⟩, h3, ?_, ?_, ?_, ?_⟩
      · show next :: _ = _
        rw [h1, List.map_cons, given_eq hfinal]
      · intro c hc
        rcases List.mem_cons.1 hc with rfl | hc
        · rw [hfinal]
          exact Option.some_ne_none _
        · exact h4 c hc
      · exact h5.trans List.length_set
      · intro j hj
        refine (h6 j (by omega)).trans ?_
        simp only [List.getD_eq_getElem?_getD]
        rw [List.getElem?_set_ne (by omega)]
      · intro c hc j hj hle
        rcases List.mem_cons.1 hc with rfl | hc
        · rw [hfinal, Option.some.injEq] at hj
          rw [← hj]
          exact hfirst
        · rcases Nat.eq_or_lt_of_le hle with he | hgt
          · rw [← he]
            rw [← he] at hj
            rw [← h3.inj hfinal hj]
            exact hfirst
          · exact h7 c hc j hj hgt
    · rw [if_neg hnone] at h
      obtain ⟨j, hj⟩ := Option.ne_none_iff_exists'.1 hnone
      have hfinal := assignIndices_keeps h hrest hj
      have hjlt := hnum.lt hj
      obtain ⟨h1, h2, h3, h4, h5, h6, h7⟩ := ih h hrest hnum hroom
      rw [renumber, hfinal]
      dsimp only [Option.getD_some]
      rw [if_neg (by omega)]
      refine ⟨?_, .inl ⟨hjlt, h2⟩, h3, ?_, h5, h6, ?_⟩
      · show j :: _ = _
        rw [h1, List.map_cons, given_eq hfinal]
      · intro c hc
        rcases List.mem_cons.1 hc with rfl | hc
        · rw [hfinal]
          exact Option.some_ne_none _
        · exact h4 c hc
      · intro c hc i hi hle
        rcases List.mem_cons.1 hc with rfl | hc
        · rw [hfinal, Option.some.injEq] at hi
          omega
        · exact h7 c hc i hi hle

omit [LinearOrder F] in
/-- Renumbering injectively keeps the inputs of each cluster together. -/
theorem assignedSum_map {g : ℕ → ℕ} {c : ℕ} (hg : ∀ d ∈ symbols, g d = g c → d = c) (s : Fin n) :
    assignedSum (input.zip (symbols.map g)) (g c) s = assignedSum (input.zip symbols) c s := by
  rw [assignedSum, assignedSum, List.zip_map_right, List.filter_map, List.map_map]
  have hfilter : (input.zip symbols).filter ((fun q => decide (q.2 = g c)) ∘ Prod.map id g) =
      (input.zip symbols).filter fun q => decide (q.2 = c) := by
    apply List.filter_congr
    intro q hq
    have hmem : q.2 ∈ symbols := (List.of_mem_zip (show (q.1, q.2) ∈ _ from hq)).2
    show decide (g q.2 = g c) = decide (q.2 = c)
    rw [decide_eq_decide]
    exact ⟨hg q.2 hmem, fun h => by rw [h]⟩
  rw [hfilter]
  rfl

theorem sum_range_ite {m c : ℕ} (hc : c < m) (a : UInt32) :
    ((List.range m).map fun j => if c = j then a else 0).sum = a := by
  induction m with
  | zero => exact absurd hc (Nat.not_lt_zero _)
  | succ m ih =>
    rw [List.range_succ, List.map_append, List.sum_append, List.map_singleton, List.sum_singleton]
    by_cases he : c = m
    · have hzero : ∀ j ∈ List.range m, (if c = j then a else 0) = 0 := by
        intro j hj
        rw [if_neg]
        have := List.mem_range.1 hj
        omega
      rw [if_pos he, List.map_congr_left hzero, List.map_const', List.sum_replicate,
        nsmul_zero, zero_add]
    · rw [if_neg he, ih (by omega), add_zero]

omit [LinearOrder F] in
/-- Every input is counted in exactly one output. -/
theorem sum_assigned {m : ℕ} (l : List (Histogram F n × ℕ)) (h : ∀ q ∈ l, q.2 < m) (s : Fin n) :
    ((List.range m).map fun j => assignedSum l j s).sum = (l.map fun q => q.1.data s).sum := by
  induction l with
  | nil =>
    simp only [assignedSum, List.filter_nil, List.map_nil, List.sum_nil]
    rw [List.map_const', List.sum_replicate, nsmul_zero]
  | cons q l ih =>
    have hcons : ∀ j, assignedSum (q :: l) j s = (if q.2 = j then q.1.data s else 0) +
        assignedSum l j s := by
      intro j
      rw [assignedSum, assignedSum, List.filter_cons]
      by_cases hj : q.2 = j
      · rw [if_pos (by simpa using hj), if_pos hj]
        rfl
      · rw [if_neg (by simpa using hj), if_neg hj, zero_add]
    simp only [hcons]
    rw [List.sum_map_add, sum_range_ite (h q List.mem_cons_self),
      ih fun r hr => h r (List.mem_cons_of_mem _ hr)]
    rfl

/-- What the clusterer gives: as many symbols as inputs, dense in the order of first
use, and each output the sum of the inputs that map to it. -/
structure Clustered (input out : List (Histogram F n)) (symbols : List ℕ) : Prop where
  length_symbols : symbols.length = input.length
  dense : DenseFrom 0 symbols out.length
  sums : ∀ {j : ℕ} {h : Histogram F n}, out[j]? = some h →
    ∀ s, h.data s = assignedSum (input.zip symbols) j s

omit [LinearOrder F] in
/-- The outputs hold every count of the inputs. -/
theorem Clustered.conserves (h : Clustered input out symbols) (s : Fin n) :
    (out.map fun h => h.data s).sum = (input.map fun h => h.data s).sum := by
  have hout : (out.map fun h => h.data s) = (List.range out.length).map fun j =>
      assignedSum (input.zip symbols) j s := by
    apply List.ext_getElem
    · rw [List.length_map, List.length_map, List.length_range]
    · intro j h1 h2
      rw [List.getElem_map, List.getElem_map, List.getElem_range]
      rw [List.length_map] at h1
      exact h.sums (List.getElem?_eq_getElem h1) s
  have hinput : ((input.zip symbols).map fun q => q.1.data s) = input.map fun h => h.data s := by
    rw [← congrArg (List.map fun h => h.data s)
      (List.map_fst_zip (Nat.le_of_eq h.length_symbols.symm)), List.map_map]
    rfl
  rw [hout, sum_assigned, hinput]
  intro q hq
  exact h.dense.lt _ (List.of_mem_zip (show (q.1, q.2) ∈ _ from hq)).2

/-- Remapping and renumbering any clusters the symbols lie in gives a clustering. -/
theorem remapReindex_clustered (K : CostRules F n) (dataSize : ℕ)
    (hbound : ∀ c ∈ clusters, c < out.length) (hlen : out.length = input.length)
    (hsym : symbols.length = input.length) (hmem : ∀ c ∈ symbols, c ∈ clusters) :
    let remapped := histogramRemap K input clusters out dataSize symbols
    let reindexed := histogramReindex K remapped.1 remapped.2 input.length
    Clustered input (reindexed.1.take reindexed.2.2) reindexed.2.1 ∧
      (reindexed.1.take reindexed.2.2).length ≤ clusters.length := by
  intro remapped reindexed
  have hremapped : remapped.2 = remapSymbols K out clusters dataSize input (symbols.headD 0) := by
    show _ ++ symbols.drop input.length = _
    rw [← hsym, List.drop_length, List.append_nil]
  have hlength : remapped.2.length = input.length := by rw [hremapped, length_remapSymbols]
  have hclusters : ∀ c ∈ remapped.2, c ∈ clusters := by
    rw [hremapped]
    cases symbols with
    | nil =>
      have hnil : input = [] := List.length_eq_zero_iff.1 hsym.symm
      rw [hnil]
      exact fun _ hc => nomatch hc
    | cons c rest => exact mem_remapSymbols (hmem c List.mem_cons_self)
  have htake : remapped.2.take input.length = remapped.2 := by rw [← hlength, List.take_length]
  obtain ⟨final, last, hassign⟩ : ∃ final last,
    assignIndices remapped.2 (List.replicate input.length none) 0 = (final, last) := ⟨_, _, rfl⟩
  have hnum : Numbered (List.replicate input.length none) 0 := by
    constructor
    · intro c j hc
      rw [List.getD_eq_getElem?_getD, List.getElem?_replicate] at hc
      split at hc <;> exact nomatch hc
    · intro c d j hc
      rw [List.getD_eq_getElem?_getD, List.getElem?_replicate] at hc
      split at hc <;> exact nomatch hc
  have hroom : last ≤ (List.replicate last K.empty).length := by rw [List.length_replicate]
  obtain ⟨h1, h2, h3, h4, h5, -, h7⟩ := renumber_spec K remapped.1 hassign
    (fun c hc => by rw [List.length_replicate, ← hlen]; exact hbound c (hclusters c hc)) hnum hroom
  rw [List.length_replicate] at h5
  have hreindexed :
    reindexed = ((renumber K remapped.1 final remapped.2 0 (List.replicate last K.empty)).2 ++
      remapped.1.drop (renumber K remapped.1 final remapped.2 0
        (List.replicate last K.empty)).2.length,
      (renumber K remapped.1 final remapped.2 0 (List.replicate last K.empty)).1 ++
      remapped.2.drop input.length,
      (renumber K remapped.1 final remapped.2 0 (List.replicate last K.empty)).2.length) := by
    show histogramReindex K remapped.1 remapped.2 input.length = _
    rw [histogramReindex, htake, hassign]
  have hout : reindexed.1.take reindexed.2.2 =
      (renumber K remapped.1 final remapped.2 0 (List.replicate last K.empty)).2 := by
    rw [hreindexed]
    exact List.take_left
  have hsymbols : reindexed.2.1 = remapped.2.map (given final) := by
    rw [hreindexed]
    show _ ++ remapped.2.drop input.length = _
    rw [← hlength, List.drop_length, List.append_nil, h1]
  rw [hout, hsymbols]
  rw [h1] at h2
  have hgiven : ∀ c ∈ remapped.2, final.getD c none = some (given final c) := by
    intro c hc
    obtain ⟨j, hj⟩ := Option.ne_none_iff_exists'.1 (h4 c hc)
    rw [given_eq hj, hj]
  refine ⟨⟨by rw [List.length_map, hlength], h5.symm ▸ h2, ?_⟩, ?_⟩
  · intro j h hj s
    have hlt : j < last := h5 ▸ (List.getElem?_eq_some_iff.1 hj).1
    obtain ⟨c, hc, rfl⟩ := List.mem_map.1 (h2.mem (Nat.zero_le j) hlt)
    have hcopy := h7 c hc _ (hgiven c hc) (Nat.zero_le _)
    rw [List.getD_eq_getElem?_getD, hj, Option.getD_some] at hcopy
    rw [assignedSum_map, hcopy]
    · exact histogramRemap_data (hclusters c hc) (hbound c (hclusters c hc)) s
    · intro d hd he
      exact h3.inj (hgiven d hd) (he ▸ hgiven c hc)
  · rw [h5]
    have hsub : List.range last ⊆ clusters.map (given final) := by
      intro j hj
      obtain ⟨c, hc, rfl⟩ := List.mem_map.1 (h2.mem (Nat.zero_le j) (List.mem_range.1 hj))
      exact List.mem_map.2 ⟨c, hclusters c hc, rfl⟩
    have := List.nodup_range.length_le_of_subset hsub
    rwa [List.length_range, List.length_map] at this

/-- After the batches below `index` every input before it has a surviving cluster, and
the others are clusters of their own. -/
structure Batches.Good (K : CostRules F n) (inSize index : ℕ) (b : Batches F n) : Prop where
  length_out : b.out.length = inSize
  cost : ∀ h ∈ b.out, K.Bits h.bitCost
  length_symbols : b.symbols.length = inSize
  nodup : b.clusters.Nodup
  bound : ∀ c ∈ b.clusters, c < inSize ∧ c < index
  symbol : ∀ c ∈ b.symbols.take index, c ∈ b.clusters
  fresh : b.symbols.drop index = List.range' index (inSize - index)

theorem Batches.Good.combine (hK : K.Finite) (dataSize : ℕ) {maxHistograms inSize index : ℕ}
    (hmax : 1 ≤ maxHistograms) {b : Batches F n}
    (h : b.Good K inSize index) (hindex : index < inSize) :
    ∃ b', b.combine K dataSize maxHistograms index (min (inSize - index) maxInputHistograms) =
    some b' ∧
      b'.Good K inSize (index + maxInputHistograms) := by
  set count := min (inSize - index) maxInputHistograms with hcount
  have hbatch : (b.symbols.drop index).take count = List.range' index count := by
    rw [h.fresh, show inSize - index = count + (inSize - index - count) by omega,
      ← List.range'_append_1]
    exact List.take_left' List.length_range'
  have hcall : Callable ⟨K, dataSize, count, maxHistograms,
    maxInputHistograms * maxInputHistograms / 2⟩ b.out
      (b.symbols.drop index) (List.range' index count) := by
    refine ⟨List.nodup_range', fun c hc => ?_, h.cost, fun c hc => hbatch ▸ hc,
      .inl (show 0 < 64 * 64 / 2 by decide)⟩
    rw [List.mem_range'_1] at hc
    rw [h.length_out]
    omega
  obtain ⟨t, ht, -, hgood, -, hwithin⟩ := histogramCombine_spec hK hmax hcall b.clusterSize
  have hrange : ∀ c ∈ t.clusters, index ≤ c ∧ c < index + count :=
    fun c hc => List.mem_range'_1.1 (hwithin.clusters hc)
  have hlength : t.symbols.length = inSize - index := by
    have := hwithin.length_symbols
    rw [this]
    show (b.symbols.drop index).length = _
    rw [List.length_drop, h.length_symbols]
  have htake : (b.symbols.take index).length = index :=
    List.length_take_of_le (by rw [h.length_symbols]; omega)
  refine ⟨_, by rw [Batches.combine, ht]; rfl, ?_⟩
  constructor
  · exact hwithin.length_out.trans h.length_out
  · exact hgood.cost
  · show (b.symbols.take index ++ t.symbols).length = inSize
    rw [List.length_append, htake, hlength]
    omega
  · refine List.nodup_append.2 ⟨h.nodup, hgood.nodup, ?_⟩
    intro c hc d hd he
    have h1 := (h.bound c hc).2
    have h2 := (hrange d hd).1
    omega
  · intro c hc
    rcases List.mem_append.1 hc with hc | hc
    · obtain ⟨h1, h2⟩ := h.bound c hc
      exact ⟨h1, by omega⟩
    · have := hrange c hc
      omega
  · intro c hc
    have hsplit : (b.symbols.take index ++ t.symbols).take (index + maxInputHistograms) =
        b.symbols.take index ++ t.symbols.take maxInputHistograms := by
      rw [List.take_append, htake, Nat.add_sub_cancel_left, List.take_of_length_le (by omega)]
    have hcut : t.symbols.take maxInputHistograms = t.symbols.take count := by
      rcases Nat.le_total maxInputHistograms (inSize - index) with hle | hle
      · rw [hcount, Nat.min_eq_right hle]
      · rw [List.take_of_length_le (by omega), List.take_of_length_le (by omega)]
    rw [hsplit, hcut] at hc
    rcases List.mem_append.1 hc with hc | hc
    · exact List.mem_append_left _ (h.symbol c hc)
    · exact List.mem_append_right _ (hgood.symbol c hc)
  · show (b.symbols.take index ++ t.symbols).drop (index + maxInputHistograms) = _
    rw [← List.drop_drop, List.drop_left' htake]
    rcases Nat.le_total maxInputHistograms (inSize - index) with hle | hle
    · have hdrop := hwithin.drop_symbols
      rw [show count = maxInputHistograms by omega] at hdrop
      refine hdrop.trans ?_
      show (b.symbols.drop index).drop maxInputHistograms = _
      rw [h.fresh, List.drop_range', Nat.mul_one, Nat.sub_sub]
    · rw [List.drop_eq_nil_of_le (by omega),
        show inSize - (index + maxInputHistograms) = 0 by omega]
      rfl

theorem Batches.Good.firstPass (hK : K.Finite) (dataSize : ℕ) {maxHistograms inSize : ℕ}
    (hmax : 1 ≤ maxHistograms) {fuel index : ℕ} {b : Batches F n}
    (h : b.Good K inSize index) (hfuel : inSize - index < fuel) :
    ∃ b' index', Mbrotli.Compressor.firstPass K dataSize maxHistograms inSize fuel index b =
    some b' ∧ inSize ≤ index' ∧
      b'.Good K inSize index' := by
  induction fuel generalizing index b with
  | zero => exact absurd hfuel (Nat.not_lt_zero _)
  | succ fuel ih =>
    rw [Mbrotli.Compressor.firstPass]
    by_cases hindex : index < inSize
    · obtain ⟨b', hb', hgood⟩ := h.combine hK dataSize hmax hindex
      rw [if_pos hindex, hb', Option.bind_some]
      have h64 : maxInputHistograms = 64 := rfl
      exact ih hgood (by omega)
    · rw [if_neg hindex]
      exact ⟨b, index, rfl, by omega, h⟩

/-- The clusterer gives a clustering of its inputs, of `maxHistograms` outputs at
most. -/
theorem clusterHistograms_spec (hK : K.Finite) {maxHistograms : ℕ} (hmax : 1 ≤ maxHistograms)
    (input : List (Histogram F n))
    (dataSize : ℕ) :
    ∃ out symbols, clusterHistograms K input dataSize maxHistograms = some (out, symbols) ∧
    Clustered input out symbols ∧
      out.length ≤ maxHistograms := by
  have hstart : Batches.Good K input.length 0
    ⟨input.map fun h => { h with bitCost := K.populationCost h dataSize },
      List.replicate input.length 1, List.range input.length, []⟩ := by
    constructor
    · exact List.length_map _
    · intro h hh
      obtain ⟨g, -, rfl⟩ := List.mem_map.1 hh
      exact ⟨hK.cost_nonneg _ _, hK.cost_lt _ _⟩
    · exact List.length_range
    · exact List.nodup_nil
    · exact fun _ hc => nomatch hc
    · exact fun _ hc => nomatch hc
    · exact List.range_eq_range'
  obtain ⟨b, index, hpass, hindex, hb⟩ :=
    hstart.firstPass hK dataSize hmax (show input.length - 0 < input.length + 1 by omega)
  have hall : b.symbols.take index = b.symbols :=
    List.take_of_length_le (by rw [hb.length_symbols]; exact hindex)
  have hroom : 0 < min (64 * b.clusters.length) (b.clusters.length / 2 * b.clusters.length) ∨
      b.clusters.length ≤ 1 := by
    rcases Nat.lt_or_ge 1 b.clusters.length with htwo | hone
    · have hhalf : 0 < b.clusters.length / 2 := Nat.div_pos htwo (by decide)
      have := Nat.mul_pos hhalf (show 0 < b.clusters.length by omega)
      exact .inl (by omega)
    · exact .inr hone
  have hcall : Callable ⟨K, dataSize, input.length, maxHistograms,
      min (64 * b.clusters.length) (b.clusters.length / 2 * b.clusters.length)⟩ b.out b.symbols
      b.clusters := by
    refine ⟨hb.nodup, fun c hc => hb.length_out ▸ (hb.bound c hc).1, hb.cost, fun c hc => ?_, hroom⟩
    have hc' := List.mem_of_mem_take hc
    rw [← hall] at hc'
    exact hb.symbol c hc'
  obtain ⟨t, ht, -, hgood, hle, hwithin⟩ := histogramCombine_spec hK hmax hcall b.clusterSize
  have hsym : t.symbols.length = input.length := hwithin.length_symbols.trans hb.length_symbols
  have hmem : ∀ c ∈ t.symbols, c ∈ t.clusters := by
    intro c hc
    refine hgood.symbol c ?_
    show c ∈ t.symbols.take input.length
    rwa [← hsym, List.take_length]
  obtain ⟨hclustered, hcount⟩ := remapReindex_clustered K dataSize hgood.bound
    (hwithin.length_out.trans hb.length_out) hsym hmem
  refine ⟨_, _, ?_, hclustered, hcount.trans hle⟩
  rw [clusterHistograms]
  dsimp only
  rw [hpass, Option.bind_some, ht]
  rfl

/-- **Histogram clustering terminates and conserves symbols.** A call of the merge loop
that is given clusters of its own ends with `maxClusters` of them at most, and in every
state on the way the first queued pair is a maximum of the queue and every queued pair
has two surviving clusters. A whole clustering maps every input to an output, numbers
the outputs in the order of their first use, and keeps every symbol's sum of counts. -/
theorem clustering_sound (K : CostRules F n) (hK : K.Finite) :
    (∀ (P : CombineParams F n) (out : List (Histogram F n)) (clusterSize symbols clusters : List ℕ),
      P.costs = K →
      1 ≤ P.maxClusters → Callable P out symbols clusters →
      (∃ t, histogramCombine P out clusterSize symbols clusters = some t ∧
        t.clusters.length ≤ P.maxClusters ∧
        Combining.Reaches P (.start P out clusterSize symbols clusters) t) ∧
      ∀ s, Combining.Reaches P (.start P out clusterSize symbols clusters) s →
        IsBest s.pairs ∧ ∀ p ∈ s.pairs, p.idx1 < p.idx2 ∧ p.idx1 ∈ s.clusters ∧
        p.idx2 ∈ s.clusters) ∧
    ∀ (input : List (Histogram F n)) (dataSize maxHistograms : ℕ), 1 ≤ maxHistograms →
      ∃ out symbols, clusterHistograms K input dataSize maxHistograms = some (out, symbols) ∧
      out.length ≤ maxHistograms ∧
        symbols.length = input.length ∧ (∀ c ∈ symbols, c < out.length) ∧
        DenseFrom 0 symbols out.length ∧
        ∀ s, (out.map fun h => h.data s).sum = (input.map fun h => h.data s).sum := by
  refine ⟨?_, ?_⟩
  · rintro P out clusterSize symbols clusters rfl hmax hcall
    obtain ⟨t, ht, hreach, -, hle, -⟩ := histogramCombine_spec hK hmax hcall clusterSize
    refine ⟨⟨t, ht, hle, hreach⟩, fun s hs => ?_⟩
    obtain ⟨hgood, -⟩ := (hcall.good clusterSize).reaches hK hmax hs
    exact ⟨hgood.best, fun p hp => ⟨(hgood.pair p hp).lt, (hgood.pair p hp).left,
      (hgood.pair p hp).right⟩⟩
  · intro input dataSize maxHistograms hmax
    obtain ⟨out, symbols, hrun, hclustered, hle⟩ := clusterHistograms_spec hK hmax input dataSize
    exact ⟨out, symbols, hrun, hle, hclustered.length_symbols, hclustered.dense.lt,
      hclustered.dense, hclustered.conserves⟩

/-- Whole costs: a histogram costs its number of counts, up to a thousand. -/
def wholeCosts : CostRules ℤ n where
  zero := 0
  limit := 10 ^ 99
  infinity := 10 ^ 200
  half x := x / 2
  add x y := x + y
  sub x y := x - y
  populationCost h _ := min h.totalCount 1000
  clusterCostDiff a b := -(a + b : ℕ)

theorem wholeCosts_finite : (wholeCosts (n := n)).Finite where
  zero_lt := show (0 : ℤ) < 10 ^ 99 by decide
  cost_nonneg _ _ := by simp [wholeCosts]
  cost_lt _ _ := lt_of_le_of_lt (min_le_right _ _) (show (1000 : ℤ) < 10 ^ 99 by decide)
  diff_nonpos _ _ := by simp [wholeCosts]
  half_nonpos {x} h := by
    have h' : x ≤ 0 := h
    show x / 2 ≤ 0
    omega
  sub_nonpos {x y} h h' := by
    have h1 : x ≤ 0 := h
    have h2 : 0 ≤ y := h'
    show x - y ≤ 0
    omega
  limit_le_sub {x} h := by
    have h' : x ≤ 0 := h
    show (10 ^ 99 : ℤ) ≤ 10 ^ 99 - x
    omega
  add_lt {x y} h h' := by
    have h1 : x ≤ 0 := h
    have h2 : y < 10 ^ 99 := h'
    show x + y < 10 ^ 99
    omega

/-- The counts of two symbols. -/
def counts (a b : UInt32) (s : Fin 2) : UInt32 := if s = 0 then a else b

/-- Three histograms over two symbols, cut to two. -/
theorem clustering_sound_three :
    let input : List (Histogram ℤ 2) := [⟨counts 3 0, 3, 0⟩, ⟨counts 0 5, 5, 0⟩, ⟨counts 2 1, 3, 0⟩]
    ∃ out symbols, clusterHistograms wholeCosts input 2 2 = some (out, symbols) ∧ out.length ≤ 2 ∧
      symbols.length = 3 ∧
      (∀ c ∈ symbols, c < out.length) ∧ DenseFrom 0 symbols out.length ∧
      ∀ s, (out.map fun h => h.data s).sum = (input.map fun h => h.data s).sum :=
  (clustering_sound wholeCosts wholeCosts_finite).2 [⟨counts 3 0, 3, 0⟩, ⟨counts 0 5, 5, 0⟩,
    ⟨counts 2 1, 3, 0⟩] 2 2 (by decide)

/-- Costs below the limit at which no merge can be queued: a histogram of two counts
costs `9e98`, and every merge makes the context map as much longer. -/
def spinningCosts : CostRules ℤ 2 where
  zero := 0
  limit := 10 ^ 99
  infinity := 10 ^ 200
  half x := x / 2
  add x y := x + y
  sub x y := x - y
  populationCost h _ := if h.totalCount ≤ 1 then 0 else 9 * 10 ^ 98
  clusterCostDiff _ _ := 9 * 10 ^ 98

/-- Two histograms of one count each, to be merged into one. -/
def spinningCall : CombineParams ℤ 2 := ⟨spinningCosts, 1, 2, 1, 1⟩

def spinningStart : Combining ℤ 2 :=
  .start spinningCall [⟨counts 1 0, 1, 0⟩, ⟨counts 0 1, 1, 0⟩] [1, 1] [0, 1] [0, 1]

/-- Nothing is queued, and the bar cannot go higher. -/
def spinningRaised : Combining ℤ 2 := { spinningStart with pending := [], threshold := 10 ^ 99 }

theorem run_spinningRaised (fuel : ℕ) : spinningRaised.run spinningCall fuel = none := by
  induction fuel with
  | zero => rfl
  | succ fuel ih =>
    rw [Combining.run, show spinningRaised.step spinningCall = some spinningRaised by rfl]
    exact ih

/-- Where a merge may make the context map longer the queue can stay empty with more
clusters than were asked for, and the loop raises its bar for ever. -/
theorem histogramCombine_spins :
    (∀ h dataSize, 0 ≤ spinningCosts.populationCost h dataSize ∧
      spinningCosts.populationCost h dataSize < 10 ^ 99) ∧
    (∀ a b, spinningCosts.clusterCostDiff a b < 10 ^ 99) ∧
    Callable spinningCall [⟨counts 1 0, 1, 0⟩, ⟨counts 0 1, 1, 0⟩] [0, 1] [0, 1] ∧
    ∀ fuel, spinningStart.run spinningCall fuel = none := by
  refine ⟨fun h _ => ?_, fun _ _ => ?_, ⟨by decide, by decide, ?_, by decide, .inl (by decide)⟩,
    fun fuel => ?_⟩
  · show (0 : ℤ) ≤ (if h.totalCount ≤ 1 then 0 else 9 * 10 ^ 98) ∧
      (if h.totalCount ≤ 1 then 0 else 9 * 10 ^ 98) < (10 ^ 99 : ℤ)
    split <;> decide
  · show (9 * 10 ^ 98 : ℤ) < 10 ^ 99
    decide
  · intro h hh
    simp only [List.mem_cons, List.not_mem_nil, or_false] at hh
    rcases hh with rfl | rfl <;> exact ⟨by decide, by decide⟩
  · rcases fuel with _ | _ | fuel
    · rfl
    · rfl
    · exact run_spinningRaised fuel

end Mbrotli.Compressor
