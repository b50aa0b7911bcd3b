/-
# Merging histograms that are similar enough to share a prefix code

The costs are doubles in the source. Here they are the elements of a linear order with
the arithmetic of `CostRules`, whose laws, `CostRules.Finite`, are those of rounded
arithmetic on finite costs below `1e99`.

A run of `histogram_combine` is a run of `Combining.step`: a pair is considered for the
queue, or the best queued pair is merged, or the bar is raised. `Combining.Good` is what
every step keeps and `Combining.weight` what every step lowers.

Key definitions: `compareAndPushToQueue`, `keepPairs`, `Combining.step`,
`histogramCombine`.
Key theorems: `compareAndPush_best`, `Combining.Good.step`, `histogramCombine_spec`.
-/
import Mbrotli.Lib.Index
import Mathlib.Data.UInt
import Mathlib.Data.List.Basic
import Mathlib.Order.Defs.LinearOrder
import Mathlib.Logic.Relation
import Mathlib.Tactic.Ring

namespace Mbrotli.Compressor

/-- Occurrence counts over an alphabet of `n` symbols. -/
structure Histogram (F : Type) (n : ℕ) where
  data : Fin n → UInt32
  totalCount : ℕ
  bitCost : F

/-- What histograms and merges cost. -/
structure CostRules (F : Type) [LinearOrder F] (n : ℕ) where
  zero : F
  /-- `1e99`, above every cost. -/
  limit : F
  infinity : F
  half : F → F
  add : F → F → F
  sub : F → F → F
  populationCost : Histogram F n → ℕ → F
  clusterCostDiff : ℕ → ℕ → F

variable {F : Type} [LinearOrder F] {n : ℕ}

/-- A histogram costs zero bits at least and less than `1e99`, the context map never
grows by a merge, and arithmetic rounds monotonically. -/
structure CostRules.Finite (K : CostRules F n) : Prop where
  zero_lt : K.zero < K.limit
  cost_nonneg : ∀ h dataSize, K.zero ≤ K.populationCost h dataSize
  cost_lt : ∀ h dataSize, K.populationCost h dataSize < K.limit
  diff_nonpos : ∀ a b, K.clusterCostDiff a b ≤ K.zero
  half_nonpos : ∀ {x}, x ≤ K.zero → K.half x ≤ K.zero
  sub_nonpos : ∀ {x y}, x ≤ K.zero → K.zero ≤ y → K.sub x y ≤ K.zero
  limit_le_sub : ∀ {x}, x ≤ K.zero → K.limit ≤ K.sub K.limit x
  add_lt : ∀ {x y}, x ≤ K.zero → y < K.limit → K.add x y < K.limit

namespace Histogram

/-- Adds every count of `other`; a count wraps, and the cached cost stays. -/
def addHistogram (h other : Histogram F n) : Histogram F n :=
  { h with data := fun s => h.data s + other.data s, totalCount := h.totalCount + other.totalCount }

/-- The sum of two histograms, with the cost of the first. -/
def sum (left right : Histogram F n) : Histogram F n :=
  ⟨fun s => left.data s + right.data s, left.totalCount + right.totalCount, left.bitCost⟩

end Histogram

def CostRules.empty (K : CostRules F n) : Histogram F n := ⟨fun _ => 0, 0, K.infinity⟩

/-- A candidate merge and what it would cost. -/
structure HistogramPair (F : Type) where
  idx1 : ℕ
  idx2 : ℕ
  costCombo : F
  costDiff : F

/-- Whether `left` is the worse candidate of the two: by its cost, then by the span of
its indices. -/
def pairIsLess (left right : HistogramPair F) : Bool :=
  if left.costDiff ≠ right.costDiff then decide (left.costDiff > right.costDiff)
  else decide (left.idx2 - left.idx1 > right.idx2 - right.idx1)

/-- The pair two clusters make and its change in cost before the cost of the two
combined. -/
def CostRules.gain (K : CostRules F n) (out : List (Histogram F n)) (clusterSize : List ℕ)
    (idx1 idx2 : ℕ) : F :=
  K.sub (K.sub (K.half (K.clusterCostDiff (clusterSize.getD idx1 0) (clusterSize.getD idx2 0)))
    (out.getD idx1 K.empty).bitCost) (out.getD idx2 K.empty).bitCost

/-- What a merge must stay below to join the queue. -/
def CostRules.threshold (K : CostRules F n) : List (HistogramPair F) → F
  | [] => K.limit
  | best :: _ => max best.costDiff K.zero

/-- What the two clusters cost combined, if that can pay against the best queued pair. -/
def CostRules.combo (K : CostRules F n) (out : List (Histogram F n)) (dataSize idx1 idx2 : ℕ)
    (costDiff : F)
    (pairs : List (HistogramPair F)) : Option F :=
  let left := out.getD idx1 K.empty
  let right := out.getD idx2 K.empty
  if left.totalCount = 0 then some right.bitCost
  else if right.totalCount = 0 then some left.bitCost
  else
    let costCombo := K.populationCost (left.sum right) dataSize
    if costCombo < K.sub (K.threshold pairs) costDiff then some costCombo else none

/-- Queues a pair, the best one first. -/
def queuePair (maxNumPairs : ℕ) (p : HistogramPair F) :
    List (HistogramPair F) → List (HistogramPair F)
  | [] => if 0 < maxNumPairs then [p] else []
  | best :: rest =>
    if pairIsLess best p then
      if rest.length + 1 < maxNumPairs then p :: rest ++ [best] else p :: rest
    else if rest.length + 1 < maxNumPairs then best :: rest ++ [p] else best :: rest

def compareAndPushToQueue (K : CostRules F n) (out : List (Histogram F n)) (clusterSize : List ℕ)
    (dataSize idx1 idx2 : ℕ)
    (maxNumPairs : ℕ) (pairs : List (HistogramPair F)) : List (HistogramPair F) :=
  if idx1 = idx2 then pairs
  else
    let low := min idx1 idx2
    let high := max idx1 idx2
    let costDiff := K.gain out clusterSize low high
    match K.combo out dataSize low high costDiff pairs with
    | none => pairs
    | some costCombo => queuePair maxNumPairs ⟨low, high, costCombo, K.add costDiff costCombo⟩ pairs

/-- Whether a pair has one of two clusters. -/
def HistogramPair.touches (p : HistogramPair F) (a b : ℕ) : Bool :=
  p.idx1 = a || p.idx2 = a || p.idx1 = b || p.idx2 = b

/-- Drops the pairs that touch either of two clusters, in place: `front` stands in the
first place until a pair is kept there. -/
def keepPairs (a b : ℕ) (front : HistogramPair F) :
    List (HistogramPair F) → List (HistogramPair F) → List (HistogramPair F)
  | [], kept => kept
  | p :: rest, kept =>
    if p.touches a b then keepPairs a b front rest kept
    else match kept with
      | [] => keepPairs a b front rest (if pairIsLess front p then [front] else [p])
      | best :: others =>
        keepPairs a b front rest (if pairIsLess best p then p :: others ++ [best]
          else best :: others ++ [p])

/-- What a call of the clusterer is given. -/
structure CombineParams (F : Type) [LinearOrder F] (n : ℕ) where
  costs : CostRules F n
  dataSize : ℕ
  symbolsSize : ℕ
  maxClusters : ℕ
  maxNumPairs : ℕ

/-- The state of a call: `clusters` are the surviving clusters, `pending` the pairs the
loop at hand has yet to consider, and `threshold` and `minClusterSize` the bar. -/
structure Combining (F : Type) (n : ℕ) where
  out : List (Histogram F n)
  clusterSize : List ℕ
  symbols : List ℕ
  clusters : List ℕ
  pairs : List (HistogramPair F)
  pending : List (ℕ × ℕ)
  threshold : F
  minClusterSize : ℕ

/-- The pairs of the first pass, each cluster with those behind it. -/
def allPairs : List ℕ → List (ℕ × ℕ)
  | [] => []
  | c :: rest => rest.map (fun d => (c, d)) ++ allPairs rest

/-- Removes a merged cluster from the surviving ones. -/
def removeCluster (clusters : List ℕ) (c : ℕ) : List ℕ :=
  if c ∈ clusters then clusters.erase c else clusters.dropLast

namespace Combining

variable (P : CombineParams F n)

def start (out : List (Histogram F n)) (clusterSize symbols clusters : List ℕ) : Combining F n :=
  ⟨out, clusterSize, symbols, clusters, [], allPairs clusters, P.costs.zero, 1⟩

/-- Merges the best pair. -/
def merge (s : Combining F n) (best : HistogramPair F) : Combining F n :=
  let survivor :=
    (s.out.getD best.idx1 P.costs.empty).addHistogram (s.out.getD best.idx2 P.costs.empty)
  let clusters := removeCluster s.clusters best.idx2
  { s with
    out := s.out.set best.idx1 { survivor with bitCost := best.costCombo }
    clusterSize :=
      s.clusterSize.set best.idx1 (s.clusterSize.getD best.idx1 0 + s.clusterSize.getD best.idx2 0)
    symbols :=
      (s.symbols.take P.symbolsSize).map (fun c => if c = best.idx2 then best.idx1 else c) ++
      s.symbols.drop P.symbolsSize
    clusters := clusters
    pairs := keepPairs best.idx1 best.idx2 best s.pairs []
    pending := clusters.map fun c => (best.idx1, c) }

/-- One turn of the loops: a pair is considered, or the best one merged, or the bar
raised. There is none when the loop ends. -/
def step (s : Combining F n) : Option (Combining F n) :=
  match s.pending with
  | (a, b) :: pending =>
    some { s with
      pairs :=
        compareAndPushToQueue P.costs s.out s.clusterSize P.dataSize a b P.maxNumPairs s.pairs
      pending := pending }
  | [] =>
    if s.clusters.length ≤ s.minClusterSize then none
    else
      -- nothing left that pays: the bar goes up so the loop ends
      let raised := { s with threshold := P.costs.limit, minClusterSize := P.maxClusters }
      match s.pairs with
      | [] => some raised
      | best :: _ => if s.threshold ≤ best.costDiff then some raised else some (s.merge P best)

/-- The loops, for at most `fuel` turns. -/
def run : ℕ → Combining F n → Option (Combining F n)
  | 0, _ => none
  | fuel + 1, s =>
    match s.step P with
    | none => some s
    | some s => run fuel s

/-- What each turn lowers. -/
def weight (s : Combining F n) : ℕ :=
  s.pending.length + s.clusters.length * (s.clusters.length + 1) +
    if s.threshold = P.costs.limit then 0 else 1

end Combining

/-- Merges clusters until no merge pays or `maxClusters` remain. -/
def histogramCombine (P : CombineParams F n) (out : List (Histogram F n))
    (clusterSize symbols clusters : List ℕ) :
    Option (Combining F n) :=
  let s := Combining.start P out clusterSize symbols clusters
  s.run P (s.weight P + 1)

variable {P : CombineParams F n} {K : CostRules F n} {p q best front : HistogramPair F}
    {pairs kept : List (HistogramPair F)}
  {out : List (Histogram F n)} {clusterSize : List ℕ} {s s' : Combining F n}

theorem pairIsLess_irrefl (p : HistogramPair F) : pairIsLess p p = false := by
  simp [pairIsLess]

theorem pairIsLess_trans {r : HistogramPair F} (h : pairIsLess p q = true)
    (h' : pairIsLess q r = true) :
    pairIsLess p r = true := by
  rw [pairIsLess] at h h' ⊢
  rcases eq_or_ne p.costDiff q.costDiff with hpq | hpq
  · rw [if_neg (not_not.2 hpq), decide_eq_true_eq] at h
    rcases eq_or_ne q.costDiff r.costDiff with hqr | hqr
    · rw [if_neg (not_not.2 hqr), decide_eq_true_eq] at h'
      rw [if_neg (not_not.2 (hpq.trans hqr)), decide_eq_true_eq]
      omega
    · rw [if_pos hqr, decide_eq_true_eq] at h'
      rw [if_pos (hpq ▸ hqr), decide_eq_true_eq, hpq]
      exact h'
  · rw [if_pos hpq, decide_eq_true_eq] at h
    rcases eq_or_ne q.costDiff r.costDiff with hqr | hqr
    · rw [if_pos (hqr ▸ hpq), decide_eq_true_eq, ← hqr]
      exact h
    · rw [if_pos hqr, decide_eq_true_eq] at h'
      have hlt : r.costDiff < p.costDiff := lt_trans h' h
      rw [if_pos hlt.ne', decide_eq_true_eq]
      exact hlt

/-- What is better than `p` is not worse than what `p` is not worse than. -/
theorem pairIsLess_of_better {r : HistogramPair F} (h : pairIsLess p q = true)
    (h' : pairIsLess p r = false) :
    pairIsLess q r = false := by
  rw [Bool.eq_false_iff] at h' ⊢
  exact fun hr => h' (pairIsLess_trans h hr)

/-- The first queued pair is a maximum of the queue. -/
def IsBest (pairs : List (HistogramPair F)) : Prop :=
  ∀ best ∈ pairs.head?, ∀ p ∈ pairs, pairIsLess best p = false

theorem isBest_nil : IsBest ([] : List (HistogramPair F)) := fun _ h => nomatch h

theorem isBest_single (p : HistogramPair F) : IsBest [p] := by
  intro best hbest q hq
  rw [List.head?_cons, Option.mem_some_iff] at hbest
  rw [← hbest, List.mem_singleton.1 hq]
  exact pairIsLess_irrefl p

/-- A worse pair may join the queue anywhere behind the first one. -/
theorem IsBest.append (h : IsBest (best :: kept)) (hp : pairIsLess best p = false) :
    IsBest (best :: kept ++ [p]) := by
  intro b hb q hq
  rw [List.cons_append, List.head?_cons, Option.mem_some_iff] at hb
  subst hb
  rcases List.mem_append.1 hq with hq | hq
  · exact h _ rfl q hq
  · rw [List.mem_singleton.1 hq]
    exact hp

/-- A better pair takes the first place. -/
theorem IsBest.replace (h : IsBest (best :: kept)) (hp : pairIsLess best p = true) :
    IsBest (p :: kept) := by
  intro b hb q hq
  rw [List.head?_cons, Option.mem_some_iff] at hb
  subst hb
  rcases List.mem_cons.1 hq with hq | hq
  · rw [hq]
    exact pairIsLess_irrefl _
  · exact pairIsLess_of_better hp (h best rfl q (List.mem_cons_of_mem _ hq))

theorem IsBest.exchange (h : IsBest (best :: kept)) (hp : pairIsLess best p = true) :
    IsBest (p :: kept ++ [best]) :=
  (h.replace hp).append (pairIsLess_of_better hp (pairIsLess_irrefl best))

theorem queuePair_best (h : IsBest pairs) (m : ℕ) : IsBest (queuePair m p pairs) := by
  cases pairs with
  | nil =>
    rw [queuePair]
    by_cases hm : 0 < m
    · rw [if_pos hm]
      exact isBest_single p
    · rw [if_neg hm]
      exact isBest_nil
  | cons best rest =>
    rw [queuePair]
    by_cases hless : pairIsLess best p = true
    · rw [if_pos hless]
      by_cases hm : rest.length + 1 < m
      · rw [if_pos hm]
        exact h.exchange hless
      · rw [if_neg hm]
        exact h.replace hless
    · rw [if_neg hless]
      by_cases hm : rest.length + 1 < m
      · rw [if_pos hm]
        exact h.append (Bool.eq_false_iff.2 hless)
      · rw [if_neg hm]
        exact h

theorem mem_queuePair {m : ℕ} (h : q ∈ queuePair m p pairs) : q = p ∨ q ∈ pairs := by
  cases pairs with
  | nil =>
    rw [queuePair] at h
    by_cases hm : 0 < m
    · rw [if_pos hm] at h
      exact .inl (List.mem_singleton.1 h)
    · rw [if_neg hm] at h
      exact nomatch h
  | cons best rest =>
    rw [queuePair] at h
    split at h <;> split at h <;> simp only [List.mem_append, List.mem_cons, List.not_mem_nil,
      or_false] at h ⊢ <;> tauto

theorem queuePair_ne_nil {m : ℕ} (h : pairs ≠ [] ∨ 0 < m) : queuePair m p pairs ≠ [] := by
  cases pairs with
  | nil =>
    rw [queuePair, if_pos (h.resolve_left (not_not.2 rfl))]
    exact List.cons_ne_nil _ _
  | cons best rest =>
    rw [queuePair]
    split <;> split <;> simp

/-- A cost the clusterer may cache or compare. -/
def CostRules.Bits (K : CostRules F n) (x : F) : Prop := K.zero ≤ x ∧ x < K.limit

theorem CostRules.gain_nonpos (hK : K.Finite) {a b : ℕ} (ha : K.Bits (out.getD a K.empty).bitCost)
    (hb : K.Bits (out.getD b K.empty).bitCost) : K.gain out clusterSize a b ≤ K.zero :=
  hK.sub_nonpos (hK.sub_nonpos (hK.half_nonpos (hK.diff_nonpos _ _)) ha.1) hb.1

theorem CostRules.combo_bits (hK : K.Finite) {dataSize a b : ℕ} {d c : F}
    (ha : K.Bits (out.getD a K.empty).bitCost)
    (hb : K.Bits (out.getD b K.empty).bitCost) (h : K.combo out dataSize a b d pairs = some c) :
    K.Bits c := by
  rw [CostRules.combo] at h
  dsimp only at h
  split at h
  · rw [Option.some.injEq] at h
    rw [← h]
    exact hb
  · split at h
    · rw [Option.some.injEq] at h
      rw [← h]
      exact ha
    · split at h
      · rw [Option.some.injEq] at h
        rw [← h]
        exact ⟨hK.cost_nonneg _ _, hK.cost_lt _ _⟩
      · exact nomatch h

/-- Against an empty queue every pair is good. -/
theorem CostRules.combo_nil (hK : K.Finite) {dataSize a b : ℕ} {d : F} (hd : d ≤ K.zero) :
    K.combo out dataSize a b d [] ≠ none := by
  rw [CostRules.combo]
  dsimp only
  split
  · exact Option.some_ne_none _
  · split
    · exact Option.some_ne_none _
    · rw [CostRules.threshold, if_pos (lt_of_lt_of_le (hK.cost_lt _ _) (hK.limit_le_sub hd))]
      exact Option.some_ne_none _

/-- What holds of a queued pair: it has two surviving clusters, and its costs are in
range. -/
structure HistogramPair.Queued (K : CostRules F n) (clusters : List ℕ) (p : HistogramPair F) :
    Prop where
  lt : p.idx1 < p.idx2
  left : p.idx1 ∈ clusters
  right : p.idx2 ∈ clusters
  combo : K.Bits p.costCombo
  diff : p.costDiff < K.limit

theorem compareAndPush_best (h : IsBest pairs) (dataSize a b m : ℕ) :
    IsBest (compareAndPushToQueue K out clusterSize dataSize a b m pairs) := by
  rw [compareAndPushToQueue]
  by_cases hab : a = b
  · rw [if_pos hab]
    exact h
  · rw [if_neg hab]
    dsimp only
    split
    · exact h
    · exact queuePair_best h m

theorem compareAndPush_queued (hK : K.Finite) {clusters : List ℕ} {dataSize a b m : ℕ}
    (ha : a ∈ clusters) (hb : b ∈ clusters)
    (hcost : ∀ c ∈ clusters, K.Bits (out.getD c K.empty).bitCost)
    (hpairs : ∀ p ∈ pairs, p.Queued K clusters) :
    ∀ p ∈ compareAndPushToQueue K out clusterSize dataSize a b m pairs, p.Queued K clusters := by
  rw [compareAndPushToQueue]
  by_cases hab : a = b
  · rw [if_pos hab]
    exact hpairs
  rw [if_neg hab]
  have hlow : min a b ∈ clusters := by
    rcases min_choice a b with h | h <;> rw [h] <;> assumption
  have hhigh : max a b ∈ clusters := by
    rcases max_choice a b with h | h <;> rw [h] <;> assumption
  dsimp only
  split
  · exact hpairs
  · next c hc =>
    have hbits := CostRules.combo_bits hK (hcost _ hlow) (hcost _ hhigh) hc
    intro p hp
    rcases mem_queuePair hp with rfl | hp
    · refine ⟨?_, hlow, hhigh, hbits,
        hK.add_lt (CostRules.gain_nonpos hK (hcost _ hlow) (hcost _ hhigh)) hbits.2⟩
      show min a b < max a b
      omega
    · exact hpairs p hp

theorem compareAndPush_ne_nil (hK : K.Finite) {clusters : List ℕ} {dataSize a b m : ℕ}
    (ha : a ∈ clusters) (hb : b ∈ clusters)
    (hcost : ∀ c ∈ clusters, K.Bits (out.getD c K.empty).bitCost) (h : pairs ≠ [] ∨ a ≠ b ∧ 0 < m) :
    compareAndPushToQueue K out clusterSize dataSize a b m pairs ≠ [] := by
  rw [compareAndPushToQueue]
  by_cases hab : a = b
  · rw [if_pos hab]
    exact h.resolve_right fun hne => hne.1 hab
  rw [if_neg hab]
  have hlow : min a b ∈ clusters := by
    rcases min_choice a b with h | h <;> rw [h] <;> assumption
  have hhigh : max a b ∈ clusters := by
    rcases max_choice a b with h | h <;> rw [h] <;> assumption
  dsimp only
  split
  · next hc =>
    intro hnil
    subst hnil
    exact CostRules.combo_nil hK (CostRules.gain_nonpos hK (hcost _ hlow) (hcost _ hhigh)) hc
  · exact queuePair_ne_nil (h.imp_right And.right)

theorem keepPairs_spec {a b : ℕ} (hfront : ∀ p ∈ pairs, pairIsLess front p = false)
    (hkept : IsBest kept) :
    IsBest (keepPairs a b front pairs kept) ∧
      ∀ p ∈ keepPairs a b front pairs kept, p ∈ kept ∨ p ∈ pairs ∧ p.touches a b = false := by
  induction pairs generalizing kept with
  | nil => exact ⟨hkept, fun p hp => .inl hp⟩
  | cons p rest ih =>
    have hrest : ∀ q ∈ rest, pairIsLess front q = false :=
      fun q hq => hfront q (List.mem_cons_of_mem _ hq)
    rw [keepPairs.eq_def]
    dsimp only
    by_cases ht : p.touches a b = true
    · rw [if_pos ht]
      obtain ⟨h1, h2⟩ := ih hrest hkept
      exact ⟨h1, fun q hq => (h2 q hq).imp_right fun h => ⟨List.mem_cons_of_mem _ h.1, h.2⟩⟩
    · rw [if_neg ht]
      have hp : p ∈ p :: rest ∧ p.touches a b = false :=
        ⟨List.mem_cons_self, Bool.eq_false_iff.2 ht⟩
      cases kept with
      | nil =>
        -- the first place still holds the pair just merged, which no pair beats
        have hless : ¬pairIsLess front p = true := by
          rw [hfront p List.mem_cons_self]
          exact Bool.false_ne_true
        dsimp only
        rw [if_neg hless]
        obtain ⟨h1, h2⟩ := ih hrest (isBest_single p)
        refine ⟨h1, fun q hq => ?_⟩
        rcases h2 q hq with h | h
        · rw [List.mem_singleton.1 h]
          exact .inr hp
        · exact .inr ⟨List.mem_cons_of_mem _ h.1, h.2⟩
      | cons best others =>
        dsimp only
        by_cases hless : pairIsLess best p = true
        · rw [if_pos hless]
          obtain ⟨h1, h2⟩ := ih hrest (hkept.exchange hless)
          refine ⟨h1, fun q hq => ?_⟩
          rcases h2 q hq with h | h
          · simp only [List.mem_append, List.mem_cons, List.not_mem_nil, or_false] at h ⊢
            rcases h with (rfl | h) | rfl
            · exact .inr ⟨.inl rfl, hp.2⟩
            · exact .inl (.inr h)
            · exact .inl (.inl rfl)
          · exact .inr ⟨List.mem_cons_of_mem _ h.1, h.2⟩
        · rw [if_neg hless]
          obtain ⟨h1, h2⟩ := ih hrest (hkept.append (Bool.eq_false_iff.2 hless))
          refine ⟨h1, fun q hq => ?_⟩
          rcases h2 q hq with h | h
          · simp only [List.mem_append, List.mem_cons, List.not_mem_nil, or_false] at h ⊢
            rcases h with (rfl | h) | rfl
            · exact .inl (.inl rfl)
            · exact .inl (.inr h)
            · exact .inr ⟨.inl rfl, hp.2⟩
          · exact .inr ⟨List.mem_cons_of_mem _ h.1, h.2⟩

theorem mem_removeCluster {clusters : List ℕ} {c d : ℕ} (hnodup : clusters.Nodup)
    (hc : c ∈ clusters) :
    d ∈ removeCluster clusters c ↔ d ≠ c ∧ d ∈ clusters := by
  rw [removeCluster, if_pos hc, hnodup.mem_erase_iff]

theorem length_removeCluster {clusters : List ℕ} {c : ℕ} (hc : c ∈ clusters) :
    (removeCluster clusters c).length = clusters.length - 1 := by
  rw [removeCluster, if_pos hc, List.length_erase_of_mem hc]

omit [LinearOrder F] in
theorem HistogramPair.touches_eq_false {a b : ℕ} (h : p.touches a b = false) :
    p.idx1 ≠ a ∧ p.idx2 ≠ a ∧ p.idx1 ≠ b ∧ p.idx2 ≠ b := by
  simpa [HistogramPair.touches, and_assoc] using h

/-- What every turn of the clusterer keeps. -/
structure Combining.Good (P : CombineParams F n) (s : Combining F n) : Prop where
  nodup : s.clusters.Nodup
  bound : ∀ c ∈ s.clusters, c < s.out.length
  cost : ∀ h ∈ s.out, P.costs.Bits h.bitCost
  pending : ∀ q ∈ s.pending, q.1 ∈ s.clusters ∧ q.2 ∈ s.clusters
  pair : ∀ p ∈ s.pairs, p.Queued P.costs s.clusters
  best : IsBest s.pairs
  room : 0 < P.maxNumPairs ∨ s.clusters.length ≤ 1
  /-- While two clusters are left there is a pair to merge, or one to consider. -/
  fed : s.pairs ≠ [] ∨ s.clusters.length ≤ 1 ∨ ∃ q ∈ s.pending, q.1 ≠ q.2
  symbol : ∀ c ∈ s.symbols.take P.symbolsSize, c ∈ s.clusters
  bar : s.threshold = P.costs.zero ∧ s.minClusterSize = 1 ∨ s.threshold = P.costs.limit ∧
    s.minClusterSize = P.maxClusters

/-- What a call never touches: the surviving clusters are some of the given ones, and
the symbols past its own stay. -/
structure Combining.Within (P : CombineParams F n) (s s' : Combining F n) : Prop where
  clusters : s'.clusters ⊆ s.clusters
  length_out : s'.out.length = s.out.length
  length_symbols : s'.symbols.length = s.symbols.length
  drop_symbols : s'.symbols.drop P.symbolsSize = s.symbols.drop P.symbolsSize

namespace Combining

theorem Within.refl (s : Combining F n) : Within P s s := ⟨fun _ h => h, rfl, rfl, rfl⟩

theorem Within.trans {s'' : Combining F n} (h : Within P s s') (h' : Within P s' s'') :
    Within P s s'' :=
  ⟨fun _ hc => h.clusters (h'.clusters hc), h'.length_out.trans h.length_out,
    h'.length_symbols.trans h.length_symbols,
    h'.drop_symbols.trans h.drop_symbols⟩

/-- What one turn does. -/
theorem step_cases (h : s.step P = some s') :
    (∃ a b pending, s.pending = (a, b) :: pending ∧
      s' = { s with
        pairs :=
  compareAndPushToQueue P.costs s.out s.clusterSize P.dataSize a b P.maxNumPairs s.pairs
        pending := pending }) ∨
    s.pending = [] ∧ s.minClusterSize < s.clusters.length ∧
      ((s.pairs = [] ∨ ∃ best ∈ s.pairs.head?, s.threshold ≤ best.costDiff) ∧
          s' = { s with threshold := P.costs.limit, minClusterSize := P.maxClusters } ∨
        ∃ best ∈ s.pairs.head?, s' = s.merge P best) := by
  rw [step] at h
  split at h
  · next a b pending hp =>
    rw [Option.some.injEq] at h
    exact .inl ⟨a, b, pending, hp, h.symm⟩
  · next hp =>
    by_cases hle : s.clusters.length ≤ s.minClusterSize
    · rw [if_pos hle] at h
      exact nomatch h
    · rw [if_neg hle] at h
      refine .inr ⟨hp, by omega, ?_⟩
      dsimp only at h
      split at h
      · next hnil =>
        rw [Option.some.injEq] at h
        exact .inl ⟨.inl hnil, h.symm⟩
      · next best rest hpairs =>
        have hbest : best ∈ s.pairs.head? := by
          rw [hpairs]
          rfl
        by_cases hbar : s.threshold ≤ best.costDiff
        · rw [if_pos hbar, Option.some.injEq] at h
          exact .inl ⟨.inr ⟨best, hbest, hbar⟩, h.symm⟩
        · rw [if_neg hbar, Option.some.injEq] at h
          exact .inr ⟨best, hbest, h.symm⟩

theorem step_eq_none (h : s.step P = none) :
    s.pending = [] ∧ s.clusters.length ≤ s.minClusterSize := by
  rw [step] at h
  split at h
  · exact nomatch h
  · next hp =>
    by_cases hle : s.clusters.length ≤ s.minClusterSize
    · exact ⟨hp, hle⟩
    · rw [if_neg hle] at h
      dsimp only at h
      split at h
      · exact nomatch h
      · split at h <;> exact nomatch h

theorem Good.bits (h : s.Good P) :
    ∀ c ∈ s.clusters, P.costs.Bits (s.out.getD c P.costs.empty).bitCost := by
  intro c hc
  have hlt := h.bound c hc
  rw [List.getD_eq_getElem?_getD, List.getElem?_eq_getElem hlt]
  exact h.cost _ (List.getElem_mem hlt)

theorem Good.considered (hK : P.costs.Finite) (h : s.Good P) {a b : ℕ} {pending : List (ℕ × ℕ)}
    (hp : s.pending = (a, b) :: pending) :
    Good P { s with
      pairs :=
  compareAndPushToQueue P.costs s.out s.clusterSize P.dataSize a b P.maxNumPairs s.pairs
      pending := pending } := by
  obtain ⟨ha, hb⟩ := h.pending (a, b) (hp ▸ List.mem_cons_self)
  refine
    { nodup := h.nodup
      bound := h.bound
      cost := h.cost
      pending := fun q hq => h.pending q (hp ▸ List.mem_cons_of_mem _ hq)
      pair := compareAndPush_queued hK ha hb h.bits h.pair
      best := compareAndPush_best h.best _ _ _ _
      room := h.room
      fed := ?_
      symbol := h.symbol
      bar := h.bar }
  have hpush : s.pairs ≠ [] ∨ a ≠ b ∧ 0 < P.maxNumPairs →
      compareAndPushToQueue P.costs s.out s.clusterSize P.dataSize a b P.maxNumPairs s.pairs ≠ [] :=
    compareAndPush_ne_nil hK ha hb h.bits
  rcases h.fed with hne | hone | ⟨q, hq, hqne⟩
  · exact .inl (hpush (.inl hne))
  · exact .inr (.inl hone)
  · rw [hp] at hq
    rcases List.mem_cons.1 hq with rfl | hq
    · rcases h.room with hroom | hone
      · exact .inl (hpush (.inr ⟨hqne, hroom⟩))
      · exact .inr (.inl hone)
    · exact .inr (.inr ⟨q, hq, hqne⟩)

theorem take_rename (f : ℕ → ℕ) (m : ℕ) (symbols : List ℕ) :
    ((symbols.take m).map f ++ symbols.drop m).take m = (symbols.take m).map f := by
  rcases Nat.le_total m symbols.length with h | h
  · apply List.take_left'
    rw [List.length_map, List.length_take_of_le h]
  · rw [List.drop_eq_nil_of_le h, List.append_nil, List.take_of_length_le]
    rw [List.length_map, List.length_take]
    omega

theorem drop_rename (f : ℕ → ℕ) (m : ℕ) (symbols : List ℕ) :
    ((symbols.take m).map f ++ symbols.drop m).drop m = symbols.drop m := by
  rcases Nat.le_total m symbols.length with h | h
  · apply List.drop_left'
    rw [List.length_map, List.length_take_of_le h]
  · rw [List.drop_eq_nil_of_le h, List.append_nil, List.drop_eq_nil_of_le]
    rw [List.length_map, List.length_take]
    omega

theorem Good.merged (h : s.Good P) (hbest : best ∈ s.pairs.head?) :
    Good P (s.merge P best) ∧ Within P s (s.merge P best) ∧
    (s.merge P best).clusters.length = s.clusters.length - 1 := by
  have hmem : best ∈ s.pairs := List.mem_of_mem_head? hbest
  obtain ⟨hlt, hleft, hright, hcombo, -⟩ := h.pair best hmem
  have hclusters : ∀ c, c ∈ (s.merge P best).clusters ↔ c ≠ best.idx2 ∧ c ∈ s.clusters :=
    fun c => mem_removeCluster h.nodup hright
  have hlen : (s.merge P best).clusters.length = s.clusters.length - 1 :=
    length_removeCluster hright
  have hleft' : best.idx1 ∈ (s.merge P best).clusters := (hclusters _).2 ⟨by omega, hleft⟩
  have hout : (s.merge P best).out.length = s.out.length := List.length_set
  obtain ⟨hk1, hk2⟩ :=
    keepPairs_spec (a := best.idx1) (b := best.idx2) (h.best best hbest) isBest_nil
  refine ⟨?_, ⟨fun c hc => ((hclusters c).1 hc).2, hout, ?_, drop_rename _ _ _⟩, hlen⟩
  · refine
      { nodup := ?_
        bound := fun c hc => hout ▸ h.bound c ((hclusters c).1 hc).2
        cost := ?_
        pending := ?_
        pair := ?_
        best := hk1
        room := h.room.imp_right fun hone => by omega
        fed := ?_
        symbol := ?_
        bar := h.bar }
    · show (removeCluster s.clusters best.idx2).Nodup
      rw [removeCluster, if_pos hright]
      exact h.nodup.erase _
    · intro x hx
      rcases List.mem_or_eq_of_mem_set hx with hx | rfl
      · exact h.cost x hx
      · exact hcombo
    · intro q hq
      obtain ⟨c, hc, rfl⟩ := List.mem_map.1 hq
      exact ⟨hleft', hc⟩
    · intro p hp
      obtain ⟨hp, ht⟩ := (hk2 p hp).resolve_left List.not_mem_nil
      obtain ⟨-, -, h1, h2⟩ := HistogramPair.touches_eq_false ht
      obtain ⟨hplt, hpl, hpr, hpc, hpd⟩ := h.pair p hp
      exact ⟨hplt, (hclusters _).2 ⟨h1, hpl⟩, (hclusters _).2 ⟨h2, hpr⟩, hpc, hpd⟩
    · rcases Nat.lt_or_ge 1 (s.merge P best).clusters.length with htwo | hone
      · -- two clusters are left, and one of them is not the survivor
        have hother : ∃ c ∈ (s.merge P best).clusters, c ≠ best.idx1 := by
          by_contra hall
          push Not at hall
          have hnodup : (s.merge P best).clusters.Nodup := by
            show (removeCluster s.clusters best.idx2).Nodup
            rw [removeCluster, if_pos hright]
            exact h.nodup.erase _
          have hsub : (s.merge P best).clusters ⊆ [best.idx1] :=
            fun c hc => List.mem_singleton.2 (hall c hc)
          have := hnodup.length_le_of_subset hsub
          rw [List.length_singleton] at this
          omega
        obtain ⟨c, hc, hne⟩ := hother
        exact .inr (.inr ⟨(best.idx1, c), List.mem_map.2 ⟨c, hc, rfl⟩, fun he => hne he.symm⟩)
      · exact .inr (.inl hone)
    · intro c hc
      have hc' : c ∈ (s.symbols.take P.symbolsSize).map (fun c => if c = best.idx2
          then best.idx1 else c) := by
        rw [← take_rename]
        exact hc
      obtain ⟨d, hd, rfl⟩ := List.mem_map.1 hc'
      by_cases he : d = best.idx2
      · rw [if_pos he]
        exact hleft'
      · rw [if_neg he]
        exact (hclusters d).2 ⟨he, h.symbol d hd⟩
  · show ((s.symbols.take P.symbolsSize).map _ ++ s.symbols.drop P.symbolsSize).length = _
    rw [List.length_append, List.length_map, ← List.length_append, List.take_append_drop]

/-- Every turn keeps the invariant and lowers the weight. -/
theorem Good.step (hK : P.costs.Finite) (hmax : 1 ≤ P.maxClusters) (h : s.Good P)
    (hs : s.step P = some s') :
    s'.Good P ∧ Within P s s' ∧ s'.weight P < s.weight P := by
  rcases step_cases hs with ⟨a, b, pending, hp, rfl⟩ | ⟨hp, hsize,
    ⟨hraise, rfl⟩ | ⟨best, hbest, rfl⟩⟩
  · refine ⟨h.considered hK hp, ⟨fun _ hc => hc, rfl, rfl, rfl⟩, ?_⟩
    rw [weight, weight, hp, List.length_cons]
    dsimp only
    omega
  · refine ⟨⟨h.nodup, h.bound, h.cost, h.pending, h.pair, h.best, h.room, h.fed, h.symbol,
      .inr ⟨rfl, rfl⟩⟩,
      ⟨fun _ hc => hc, rfl, rfl, rfl⟩, ?_⟩
    rcases h.bar with ⟨hthreshold, -⟩ | ⟨hthreshold, hmin⟩
    · rw [weight, weight, hthreshold, if_neg hK.zero_lt.ne]
      dsimp only
      rw [if_pos rfl]
      omega
    · -- past the raised bar there is always a pair that may be merged
      exfalso
      rcases hraise with hnil | ⟨best, hbest, hbar⟩
      · rcases h.fed with hne | hone | ⟨q, hq, -⟩
        · exact hne hnil
        · omega
        · rw [hp] at hq
          exact nomatch hq
      · rw [hthreshold] at hbar
        exact absurd (h.pair best (List.mem_of_mem_head? hbest)).diff (not_lt.2 hbar)
  · obtain ⟨hgood, hwithin, hlen⟩ := h.merged hbest
    refine ⟨hgood, hwithin, ?_⟩
    have hpending : (s.merge P best).pending.length = (s.merge P best).clusters.length :=
      List.length_map _
    have hthreshold : (s.merge P best).threshold = s.threshold := rfl
    rw [weight, weight, hpending, hthreshold, hlen, hp, List.length_nil]
    obtain ⟨c, hc⟩ : ∃ c, s.clusters.length = c + 1 := ⟨s.clusters.length - 1, by omega⟩
    rw [hc, Nat.add_sub_cancel]
    have : (c + 1) * (c + 1 + 1) = c * (c + 1) + c + c + 2 := by ring
    omega

/-- The turns that lead from one state to another. -/
def Reaches (P : CombineParams F n) : Combining F n → Combining F n → Prop :=
  Relation.ReflTransGen fun s s' => s.step P = some s'

theorem Good.reaches (hK : P.costs.Finite) (hmax : 1 ≤ P.maxClusters) (h : s.Good P)
    (hs : Reaches P s s') :
    s'.Good P ∧ Within P s s' := by
  induction hs with
  | refl => exact ⟨h, .refl s⟩
  | tail _ hstep ih =>
    obtain ⟨hgood, hwithin, -⟩ := ih.1.step hK hmax hstep
    exact ⟨hgood, ih.2.trans hwithin⟩

theorem Good.run (hK : P.costs.Finite) (hmax : 1 ≤ P.maxClusters) (h : s.Good P) {fuel : ℕ}
    (hfuel : s.weight P < fuel) :
    ∃ t, s.run P fuel = some t ∧ Reaches P s t ∧ t.step P = none := by
  induction fuel generalizing s with
  | zero => exact absurd hfuel (Nat.not_lt_zero _)
  | succ fuel ih =>
    rw [Combining.run]
    cases hstep : s.step P with
    | none => exact ⟨s, rfl, .refl, hstep⟩
    | some s' =>
      obtain ⟨hgood, -, hlt⟩ := h.step hK hmax hstep
      obtain ⟨t, hrun, hreach, hend⟩ := ih hgood (by omega)
      exact ⟨t, hrun, .head hstep hreach, hend⟩

/-- A state from which no turn is left has `maxClusters` clusters at most. -/
theorem Good.ended (hmax : 1 ≤ P.maxClusters) (h : s.Good P) (hend : s.step P = none) :
    s.clusters.length ≤ P.maxClusters := by
  obtain ⟨-, hle⟩ := step_eq_none hend
  rcases h.bar with ⟨-, hmin⟩ | ⟨-, hmin⟩ <;> omega

end Combining

theorem mem_allPairs {clusters : List ℕ} {q : ℕ × ℕ} (h : q ∈ allPairs clusters) :
    q.1 ∈ clusters ∧ q.2 ∈ clusters := by
  induction clusters with
  | nil => exact nomatch h
  | cons c rest ih =>
    rcases List.mem_append.1 h with h | h
    · obtain ⟨d, hd, rfl⟩ := List.mem_map.1 h
      exact ⟨List.mem_cons_self, List.mem_cons_of_mem _ hd⟩
    · exact ⟨List.mem_cons_of_mem _ (ih h).1, List.mem_cons_of_mem _ (ih h).2⟩

/-- What the callers of the clusterer give it. -/
structure Callable (P : CombineParams F n) (out : List (Histogram F n))
    (symbols clusters : List ℕ) : Prop where
  nodup : clusters.Nodup
  bound : ∀ c ∈ clusters, c < out.length
  cost : ∀ h ∈ out, P.costs.Bits h.bitCost
  symbol : ∀ c ∈ symbols.take P.symbolsSize, c ∈ clusters
  /-- The queue is sized by the clusters, so that two of them leave room for a pair. -/
  room : 0 < P.maxNumPairs ∨ clusters.length ≤ 1

theorem Callable.good {symbols clusters : List ℕ} (h : Callable P out symbols clusters)
    (clusterSize : List ℕ) :
    (Combining.start P out clusterSize symbols clusters).Good P where
  nodup := h.nodup
  bound := h.bound
  cost := h.cost
  pending := fun _ hq => mem_allPairs hq
  pair := fun _ hp => nomatch hp
  best := isBest_nil
  room := h.room
  fed := by
    match clusters, h.nodup with
    | [], _ => exact .inr (.inl (Nat.zero_le _))
    | [c], _ => exact .inr (.inl (le_refl _))
    | c :: d :: rest, hnodup =>
      refine .inr
        (.inr ⟨(c, d), List.mem_append_left _ (List.mem_map.2 ⟨d, List.mem_cons_self, rfl⟩), ?_⟩)
      intro he
      have hcd : c = d := he
      exact (List.nodup_cons.1 hnodup).1 (hcd ▸ List.mem_cons_self)
  symbol := h.symbol
  bar := .inl ⟨rfl, rfl⟩

/-- A call ends with `maxClusters` clusters at most, and in every state on the way the
first queued pair is a maximum of the queue and all queued pairs have surviving
clusters. -/
theorem histogramCombine_spec (hK : P.costs.Finite) (hmax : 1 ≤ P.maxClusters)
    {symbols clusters : List ℕ}
    (h : Callable P out symbols clusters) (clusterSize : List ℕ) :
    ∃ t, histogramCombine P out clusterSize symbols clusters = some t ∧
      Combining.Reaches P (.start P out clusterSize symbols clusters) t ∧ t.Good P ∧
      t.clusters.length ≤ P.maxClusters ∧
      Combining.Within P (.start P out clusterSize symbols clusters) t := by
  obtain ⟨t, hrun, hreach, hend⟩ := (h.good clusterSize).run hK hmax (Nat.lt_succ_self _)
  obtain ⟨hgood, hwithin⟩ := (h.good clusterSize).reaches hK hmax hreach
  exact ⟨t, hrun, hreach, hgood, hgood.ended hmax hend, hwithin⟩

end Mbrotli.Compressor
