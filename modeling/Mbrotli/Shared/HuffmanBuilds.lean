/-
# Rebuilding until the code fits

Both builders try again with every count raised to a limit that doubles, until the walk
finds no leaf below the depth limit. A raised tree is as heavy as a Fibonacci tree, so the
doubling ends before any sum of counts wraps (`rebuildFrom_coded`), and no attempt leaves
the pool of nodes or the stack: the checked build does the same.

The depths of a finished tree fill the code (`CompleteCode`).

Key definitions: `rebuildFrom`, `buildHuffmanTreeFast`, `CompleteCode`.
Key theorems: `rebuildFrom_coded`, `createHuffmanTree_coded`, `huffman_builds`.
-/
import Mbrotli.Shared.HuffmanTree
import Mathlib.Algebra.Order.BigOperators.Group.List

namespace Mbrotli.Compressor

/-- The rebuilds of a histogram with several used symbols, for at most `fuel` of them. -/
def rebuildFrom (tieByValue : Bool) (data : List ℕ) (length treeLimit : ℕ) :
    ℕ → ℕ → List HuffmanNode → List ℕ → Option (List HuffmanNode × List ℕ)
  | 0, _, _, _ => none
  | fuel + 1, countLimit, tree, depth =>
    let items := usedLeaves data countLimit length
    let n := items.length
    let tree := mergeNodes (sortItems tieByValue items ++ tree.drop n) n
    match setDepth (2 * n - 1) tree depth treeLimit with
    | none => none
    | some (true, depth) => some (tree, depth)
    | some (false, depth) => rebuildFrom tieByValue data length treeLimit fuel
        (countLimit * 2 % 2 ^ 32) tree depth

/-- The depth limit of the fast builder. -/
def treeLimitFast : ℕ := 14

/-- The symbols up to the last used one and how many of them are used: `total` counts the
occurrences that are left. -/
def scanTotal : List ℕ → ℕ → ℕ → ℕ → Option (ℕ × ℕ)
  | _, 0, length, count => some (length, count)
  | [], _ + 1, _, _ => none
  | occurrences :: rest, total + 1, length, count =>
    if occurrences = 0 then scanTotal rest (total + 1) (length + 1) count
    else if occurrences ≤ total + 1 then scanTotal rest (total + 1 - occurrences)
    (length + 1) (count + 1)
    else none

/-- The code of `build_and_store_huffman_tree_fast`. With one used symbol it is the last
one that was scanned. -/
def buildHuffmanTreeFast (histogram : List ℕ) (histogramTotal : ℕ) (tree : List HuffmanNode)
    (depth : List ℕ) :
    Option (List HuffmanNode × List ℕ) := do
  let (length, count) ← scanTotal histogram histogramTotal 0 0
  if count ≤ 1 then some (tree, depth.set (length - 1) 0)
  else rebuildFrom false histogram length treeLimitFast 34 1 (nodesFor tree count)
        (List.replicate length 0 ++ depth.drop length)

namespace Checked

def rebuildFrom (tieByValue : Bool) (data : List ℕ) (length treeLimit : ℕ) :
    ℕ → ℕ → List HuffmanNode → List ℕ → Option (List HuffmanNode × List ℕ)
  | 0, _, _, _ => none
  | fuel + 1, countLimit, tree, depth =>
    let items := usedLeaves data countLimit length
    let n := items.length
    if n ≤ tree.length then do
      let items ← sortItems tieByValue items
      let tree ← mergeNodes (items ++ tree.drop n) n
      let (fits, depth) ← setDepth (2 * n - 1) tree depth treeLimit
      if fits then some (tree, depth)
      else if countLimit * 2 < 2 ^ 32
        then rebuildFrom tieByValue data length treeLimit fuel (countLimit * 2) tree depth
      else none
    else none

def createHuffmanTree (data : List ℕ) (length treeLimit : ℕ) (tree : List HuffmanNode)
    (depth : List ℕ) :
    Option (List HuffmanNode × List ℕ) :=
  let items := usedLeaves data 1 length
  if items.length = 1 then
    let symbol := asUsize (nodeAt items 0).indexRightOrValue
    if symbol < depth.length then some (items ++ (nodesFor tree 1).drop 1, depth.set symbol 1)
      else none
  else rebuildFrom true data length treeLimit 34 1 (nodesFor tree items.length) depth

def buildHuffmanTreeFast (histogram : List ℕ) (histogramTotal : ℕ) (tree : List HuffmanNode)
    (depth : List ℕ) :
    Option (List HuffmanNode × List ℕ) := do
  let (length, count) ← scanTotal histogram histogramTotal 0 0
  if depth.length < length then none
  else if count ≤ 1 then some (tree, depth.set (length - 1) 0)
  else rebuildFrom false histogram length treeLimitFast 34 1 (nodesFor tree count)
        (List.replicate length 0 ++ depth.drop length)

end Checked

variable {data depth : List ℕ} {length treeLimit k fuel : ℕ} {tree : List HuffmanNode} {tie : Bool}
    {t : WeightedTree ℕ}

theorem length_usedLeaves (data : List ℕ) (countLimit length : ℕ) :
    (usedLeaves data countLimit length).length = (usedSymbols data length).length := by
  rw [usedLeaves_eq, List.length_map]

/-- With several used symbols the builder only rebuilds. -/
theorem createFrom_eq_rebuild (h : (usedSymbols data length).length ≠ 1) (countLimit : ℕ) :
    createFrom data length treeLimit fuel countLimit tree depth =
      rebuildFrom true data length treeLimit fuel countLimit tree depth := by
  induction fuel generalizing countLimit tree depth with
  | zero => rfl
  | succ fuel ih =>
    rw [createFrom, rebuildFrom]
    dsimp only
    rw [length_usedLeaves, if_neg h]
    generalize mergeNodes _ _ = pool
    rcases setDepth _ pool depth treeLimit with _ | ⟨fits, depth'⟩
    · rfl
    · cases fits with
      | true => rfl
      | false => exact ih _

/-! ### The depths fill the code -/

/-- The Kraft sum of the used symbols, as a multiple of `2 ^ -treeLimit`. -/
def kraftSum (data : List ℕ) (length treeLimit : ℕ) (depth : List ℕ) : ℕ :=
  ((usedSymbols data length).map fun v => 2 ^ (treeLimit - depth.getD v 0)).sum

/-- What the walk of a tree of the used symbols writes has Kraft sum one. -/
theorem kraftSum_walk (hvalues : t.values.Perm (usedSymbols data length))
    (hfit : t.height ≤ treeLimit) (hlimit : treeLimit < 16)
    (hdepth : length ≤ depth.length) :
    kraftSum data length treeLimit (writeDepths (t.depths 0) depth) = 2 ^ treeLimit := by
  have hfst := WeightedTree.map_fst_depths 0 t
  have hnodup : ((t.depths 0).map Prod.fst).Nodup :=
    hfst ▸ hvalues.symm.nodup (usedSymbols_nodup data length)
  have hread : ∀ q ∈ t.depths 0, (writeDepths (t.depths 0) depth).getD q.1 0 = q.2 := by
    intro q hq
    have hused := mem_usedSymbols.1 (hvalues.subset (hfst ▸ List.mem_map_of_mem hq))
    have hrange := WeightedTree.depths_range hq
    exact writeDepths_mem hnodup hq (hused.1.trans_le hdepth) (by omega)
  have hperm : kraftSum data length treeLimit (writeDepths (t.depths 0) depth) =
      (t.values.map fun v => 2 ^ (treeLimit - (writeDepths (t.depths 0) depth).getD v 0)).sum :=
    (hvalues.symm.map _).sum_eq
  rw [hperm, ← hfst, List.map_map]
  have hsame :
    (t.depths 0).map ((fun v => 2 ^ (treeLimit - (writeDepths (t.depths 0) depth).getD v 0)) ∘
      Prod.fst) =
      (t.depths 0).map fun q => 2 ^ (treeLimit - q.2) := by
    refine List.map_congr_left fun q hq => ?_
    rw [Function.comp_apply, hread q hq]
  rw [hsame]
  exact WeightedTree.kraft_depths (by omega)

/-! ### The rebuilds end -/

/-- The rebuilds end at the limit `2 ^ K` if a tree of that weight cannot be too high, and
the checked ones do the same. -/
theorem rebuildFrom_coded (tie : Bool) (treeLimit K : ℕ)
    (htwo : 2 ≤ (usedSymbols data length).length) (hlength : length < 2 ^ 14)
    (hlimit : treeLimit < 16) (hK : K < 32)
    (hsum : (data.take length).sum + (usedSymbols data length).length * 2 ^ K < 2 ^ 32 - 1)
    (hlight : (data.take length).sum + (usedSymbols data length).length * 2 ^ K <
      2 ^ K * Nat.fib (treeLimit + 3))
    (hk : k ≤ K) (hfuel : K - k < fuel) (hpool : 2 * (usedSymbols data length).length < tree.length)
    (hdepth : length ≤ depth.length) :
    ∃ tree' depth', rebuildFrom tie data length treeLimit fuel (2 ^ k) tree depth =
    some (tree', depth') ∧
      Checked.rebuildFrom tie data length treeLimit fuel (2 ^ k) tree depth = some (tree', depth') ∧
      PrefixCoded data length treeLimit depth depth' ∧ kraftSum data length treeLimit depth' =
      2 ^ treeLimit := by
  induction fuel generalizing k tree depth with
  | zero => omega
  | succ fuel ih =>
    set n := (usedSymbols data length).length with hn
    have hitems : (usedLeaves data (2 ^ k) length).length = n :=
      length_usedLeaves data (2 ^ k) length
    have hpow : n * 2 ^ k ≤ n * 2 ^ K := Nat.mul_le_mul_left n (Nat.pow_le_pow_right (by decide) hk)
    obtain ⟨t, hshape, hheavy, hvalues, hweight, hmerged⟩ :=
      @attempt_shape tree tie data length (2 ^ k) htwo hlength hpool
        ((Nat.add_le_add_left hpow _).trans_lt hsum)
    rw [← hn] at hshape hweight hmerged
    rw [rebuildFrom, Checked.rebuildFrom]
    dsimp only
    rw [hitems, if_pos (by omega), Checked.sortItems_eq, Option.bind_eq_bind, Option.bind_some,
      hmerged, Option.bind_eq_bind,
      Option.bind_some]
    set pool :=
      mergeNodes (sortItems tie (usedLeaves data (2 ^ k) length) ++ tree.drop n) n with hpooldef
    have hpoollen : pool.length = tree.length := by
      have hsorted := (sortItems_sorted tie (usedLeaves data (2 ^ k) length)).1.length_eq
      rw [hpooldef, mergeNodes, length_mergeFrom, List.length_set, List.length_set,
        List.length_append, List.length_drop, hsorted, hitems]
      omega
    have hsmall : n < 2 ^ 14 := (usedSymbols_length_le data length).trans_lt hlength
    have hvlen : ∀ v ∈ t.values, v < length := fun v hv => (mem_usedSymbols.1 (hvalues.subset hv)).1
    have hv31 : ∀ v ∈ t.values, v < 2 ^ 31 :=
      fun v hv => ((hvlen v hv).trans hlength).trans (by decide)
    have hsize : t.size ≤ pool.length := by
      have := t.size_eq
      rw [hvalues.length_eq] at this
      omega
    have hchecked : Checked.setDepth (2 * n - 1) pool depth treeLimit =
        setDepth (2 * n - 1) pool depth treeLimit :=
      Checked.setDepth_eq (by omega) (by omega) hdepth (by omega) hlimit ⟨t, hshape, hvlen⟩
    rw [hchecked]
    rcases setDepth_walk hshape (by omega) hv31 hlimit hsize depth with ⟨hfit, hrun⟩ | ⟨hdeep,
      depth₁, hrun, hwrote⟩
    · rw [hrun]
      exact ⟨pool, _, rfl, rfl, coded_walk hvalues htwo hfit hlimit hdepth,
        kraftSum_walk hvalues hfit hlimit hdepth⟩
    · rw [hrun]
      -- a tree that is too high is too heavy for the last limit
      have hlt : k < K := by
        rcases Nat.lt_or_eq_of_le hk with hlt | rfl
        · exact hlt
        · have hfib : Nat.fib (treeLimit + 3) ≤ Nat.fib (t.height + 2) := Nat.fib_mono (by omega)
          have hmul := Nat.mul_le_mul_left (2 ^ k) hfib
          have := hheavy.fib_le_weight
          omega
      have hnext : 2 ^ k * 2 < 2 ^ 32 := by
        rw [← Nat.pow_succ]
        exact Nat.pow_lt_pow_right (by decide) (by omega)
      have hdouble : 2 ^ k * 2 = 2 ^ (k + 1) := (Nat.pow_succ 2 k).symm
      obtain ⟨tree', depth', hrest, hrestChecked, hcoded, hkraft⟩ :=
        ih (show k + 1 ≤ K from hlt) (by omega)
          (show 2 * n < pool.length by omega) (show length ≤
          depth₁.length by rw [hwrote.length]; exact hdepth)
      rw [Option.bind_some]
      dsimp only
      rw [if_neg Bool.false_ne_true, if_pos hnext, Nat.mod_eq_of_lt hnext, hdouble]
      exact ⟨tree', depth', hrest, hrestChecked, hcoded.of_wrote hwrote hvalues, hkraft⟩

theorem length_nodesFor (tree : List HuffmanNode) (leaves : ℕ) :
    2 * leaves < (nodesFor tree leaves).length := by
  rw [nodesFor, List.length_append, List.length_replicate, treeCapacity]
  omega

/-- The most used symbols that the doubling is shown to end for: the program's alphabets have
18 symbols at limit five, 256 at fourteen and at most 704 at fifteen. -/
def maxUsed (treeLimit : ℕ) : ℕ :=
  if treeLimit = 5 then 18 else if treeLimit = 14 then 1580 else if treeLimit = 15 then 2567 else 0

theorem maxUsed_lt (treeLimit : ℕ) : maxUsed treeLimit < 2 ^ 14 := by
  rw [maxUsed]
  split
  · decide
  split
  · decide
  split <;> decide

/-- From the first attempt on. -/
theorem rebuilds_coded (tie : Bool) (htwo : 2 ≤ (usedSymbols data length).length)
    (hlength : length < 2 ^ 14) (hused : (usedSymbols data length).length ≤ maxUsed treeLimit)
    (htotal : (data.take length).sum < 2 ^ 24)
    (hpool : 2 * (usedSymbols data length).length < tree.length) (hdepth : length ≤ depth.length) :
    ∃ tree' depth', rebuildFrom tie data length treeLimit 34 1 tree depth = some (tree', depth') ∧
      Checked.rebuildFrom tie data length treeLimit 34 1 tree depth = some (tree', depth') ∧
      PrefixCoded data length treeLimit depth depth' ∧ kraftSum data length treeLimit depth' =
      2 ^ treeLimit := by
  rw [maxUsed] at hused
  by_cases h5 : treeLimit = 5
  · have hfib : Nat.fib (5 + 3) = 21 := by decide
    rw [if_pos h5] at hused
    subst h5
    exact rebuildFrom_coded tie 5 23 htwo hlength (by decide) (by decide) (by omega) (by omega)
      (Nat.zero_le 23) (by decide) hpool hdepth
  by_cases h14 : treeLimit = 14
  · have hfib : Nat.fib (14 + 3) = 1597 := by decide
    rw [if_neg h5, if_pos h14] at hused
    subst h14
    exact rebuildFrom_coded tie 14 20 htwo hlength (by decide) (by decide) (by omega) (by omega)
      (Nat.zero_le 20) (by decide) hpool hdepth
  by_cases h15 : treeLimit = 15
  · have hfib : Nat.fib (15 + 3) = 2584 := by decide
    rw [if_neg h5, if_neg h14, if_pos h15] at hused
    subst h15
    exact rebuildFrom_coded tie 15 20 htwo hlength (by decide) (by decide) (by omega) (by omega)
      (Nat.zero_le 20) (by decide) hpool hdepth
  · rw [if_neg h5, if_neg h14, if_neg h15] at hused
    omega

/-- The code of a histogram of a meta-block, which has at most `704` symbols. -/
theorem createHuffmanTree_coded (htwo : 2 ≤ (usedSymbols data length).length)
    (hlength : length ≤ 704)
    (htotal : (data.take length).sum ≤ 2 ^ 25) (hdepth : length ≤ depth.length)
    (tree : List HuffmanNode) :
    ∃ tree' depth', createHuffmanTree data length 15 tree depth = some (tree', depth') ∧
    PrefixCoded data length 15 depth depth' := by
  have hn : (usedSymbols data length).length ≤ 704 :=
    (usedSymbols_length_le data length).trans hlength
  have hfib : Nat.fib (15 + 3) = 2584 := by decide
  obtain ⟨tree', depth', hrun, -, hcoded, -⟩ :=
    rebuildFrom_coded true 15 15 htwo (by omega) (by decide) (by decide)
      (by omega) (by omega) (Nat.zero_le 15) (show 15 - 0 < 34 by decide)
      (length_nodesFor tree _) hdepth
  refine ⟨tree', depth', ?_, hcoded⟩
  rw [createHuffmanTree, length_usedLeaves, createFrom_eq_rebuild (by omega)]
  exact hrun

/-! ### The fast builder's scan -/

theorem usedSymbols_cons_length (x n : ℕ) (l : List ℕ) :
    (usedSymbols (x :: l) (n + 1)).length = (usedSymbols l n).length + if x = 0 then 0 else 1 := by
  induction n with
  | zero =>
    by_cases hx : x = 0
    · simp [usedSymbols, hx]
    · simp [usedSymbols, hx]
  | succ n ih =>
    have hleft : usedSymbols (x :: l) (n + 1 + 1) =
        if l.getD n 0 ≠ 0 then (n + 1) :: usedSymbols (x :: l) (n + 1)
        else usedSymbols (x :: l) (n + 1) := rfl
    have hright : usedSymbols l (n + 1) = if l.getD n 0 ≠ 0 then n :: usedSymbols l n
      else usedSymbols l n := rfl
    rw [hleft, hright]
    by_cases hn : l.getD n 0 ≠ 0
    · rw [if_pos hn, if_pos hn, List.length_cons, List.length_cons, ih]
      omega
    · rw [if_neg hn, if_neg hn, ih]

/-- The scan ends behind the last used symbol and counts the used ones. -/
theorem scanTotal_spec (l : List ℕ) (length count : ℕ) :
    ∃ n, scanTotal l l.sum length count = some (length + n, count + (usedSymbols l n).length) ∧
    n ≤ l.length ∧
      ∀ v, n ≤ v → l.getD v 0 = 0 := by
  induction l generalizing length count with
  | nil => exact ⟨0, rfl, Nat.le_refl 0, fun _ _ => rfl⟩
  | cons x l ih =>
    rw [List.sum_cons]
    cases hsum : x + l.sum with
    | zero =>
      have hx : x = 0 := by omega
      have hl : ∀ y ∈ l, y = 0 := fun y hy =>
        Nat.eq_zero_of_le_zero ((List.le_sum_of_mem hy).trans (by omega))
      refine ⟨0, rfl, Nat.zero_le _, fun v _ => ?_⟩
      rw [List.getD_eq_getElem?_getD]
      cases hget : (x :: l)[v]? with
      | none => rfl
      | some y =>
        rcases List.mem_cons.1 (List.mem_of_getElem? hget) with rfl | hy
        · exact hx
        · exact hl y hy
    | succ total =>
      rw [scanTotal]
      by_cases hx : x = 0
      · obtain ⟨n, hrun, hn, hrest⟩ := ih (length + 1) count
        refine ⟨n + 1, ?_, Nat.succ_le_succ hn, fun v hv => ?_⟩
        · rw [if_pos hx, ← hsum, hx, Nat.zero_add, hrun, usedSymbols_cons_length, if_pos rfl,
            Nat.add_assoc, Nat.add_comm 1 n]
          rfl
        · obtain ⟨v, rfl⟩ : ∃ w, v = w + 1 := ⟨v - 1, by omega⟩
          exact hrest v (by omega)
      · obtain ⟨n, hrun, hn, hrest⟩ := ih (length + 1) (count + 1)
        refine ⟨n + 1, ?_, Nat.succ_le_succ hn, fun v hv => ?_⟩
        · rw [if_neg hx, if_pos (by omega), ← hsum, Nat.add_sub_cancel_left, hrun,
            usedSymbols_cons_length, if_neg hx, Nat.add_assoc,
            Nat.add_comm 1 n, Nat.add_assoc count, Nat.add_comm 1]
        · obtain ⟨v, rfl⟩ : ∃ w, v = w + 1 := ⟨v - 1, by omega⟩
          exact hrest v (by omega)

/-- Symbols that do not occur may be left out. -/
theorem usedSymbols_of_zeros {n m : ℕ} (hnm : n ≤ m) (hzero : ∀ v, n ≤ v → data.getD v 0 = 0) :
    usedSymbols data m = usedSymbols data n := by
  induction m with
  | zero => rw [Nat.le_zero.1 hnm]
  | succ m ih =>
    rcases Nat.lt_or_eq_of_le hnm with hlt | rfl
    · rw [usedSymbols, if_neg (not_not.2 (hzero m (Nat.le_of_lt_succ hlt)))]
      exact ih (Nat.le_of_lt_succ hlt)
    · rfl

/-! ### Both builders -/

/-- A depth within the limit for each used symbol, none for the others, and no room left. -/
structure CompleteCode (data : List ℕ) (length treeLimit : ℕ) (depth : List ℕ) : Prop where
  used : ∀ v < length, data.getD v 0 ≠ 0 → 1 ≤ depth.getD v 0 ∧ depth.getD v 0 ≤ treeLimit
  unused : ∀ v < length, data.getD v 0 = 0 → depth.getD v 0 = 0
  kraft : kraftSum data length treeLimit depth = 2 ^ treeLimit

/-- **Both builders end with a complete code**, inside their pool and stack and without a
sum that wraps. -/
theorem huffman_builds (tree : List HuffmanNode) (depth : List ℕ) :
    (∀ treeLimit data length, treeLimit = 5 ∨ treeLimit = 15 → length < 2 ^ 14 →
      2 ≤ (usedSymbols data length).length →
      (usedSymbols data length).length ≤ maxUsed treeLimit → (data.take length).sum < 2 ^ 24 →
      length ≤ depth.length → (∀ v < length, depth.getD v 0 = 0) →
      ∃ tree' depth', createHuffmanTree data length treeLimit tree depth = some (tree', depth') ∧
        Checked.createHuffmanTree data length treeLimit tree depth = some (tree', depth') ∧
        CompleteCode data length treeLimit depth') ∧
    ∀ histogram : List ℕ, histogram.length < 2 ^ 14 →
      2 ≤ (usedSymbols histogram histogram.length).length →
      (usedSymbols histogram histogram.length).length ≤ maxUsed treeLimitFast →
      histogram.sum < 2 ^ 24 → histogram.length ≤ depth.length →
      (∀ v < histogram.length, depth.getD v 0 = 0) →
      ∃ tree' depth', buildHuffmanTreeFast histogram histogram.sum tree depth =
      some (tree', depth') ∧
        Checked.buildHuffmanTreeFast histogram histogram.sum tree depth = some (tree', depth') ∧
        CompleteCode histogram histogram.length treeLimitFast depth' := by
  constructor
  · intro treeLimit data length _ hlength htwo hmost htotal hdepth hzero
    obtain ⟨tree', depth', hrun, hchecked, hcoded, hkraft⟩ :=
      rebuilds_coded true htwo hlength hmost htotal
        (length_nodesFor tree (usedSymbols data length).length) hdepth
    refine ⟨tree', depth', ?_, ?_, hcoded.used,
      fun v hv hunused => (hcoded.unused v fun _ => hunused).trans (hzero v hv), hkraft⟩
    · rw [createHuffmanTree, length_usedLeaves, createFrom_eq_rebuild (by omega)]
      exact hrun
    · rw [Checked.createHuffmanTree]
      dsimp only
      rw [length_usedLeaves, if_neg (by omega)]
      exact hchecked
  · intro histogram hlength htwo hmost htotal hdepth hzero
    obtain ⟨n, hscan, hn, hrest⟩ := scanTotal_spec histogram 0 0
    rw [Nat.zero_add, Nat.zero_add] at hscan
    have hused := usedSymbols_of_zeros hn hrest
    have hcleared : ∀ v < histogram.length, (List.replicate n 0 ++ depth.drop n).getD v 0 = 0 := by
      intro v hv
      rw [List.getD_eq_getElem?_getD, List.getElem?_append, List.length_replicate]
      split
      · rw [List.getElem?_replicate]
        split <;> rfl
      · rw [List.getElem?_drop, ← List.getD_eq_getElem?_getD, Nat.add_sub_cancel' (by omega)]
        exact hzero v hv
    have hclearedLen : n ≤ (List.replicate n 0 ++ depth.drop n).length := by
      rw [List.length_append, List.length_replicate]
      exact Nat.le_add_right _ _
    have htake : (histogram.take n).sum < 2 ^ 24 := by
      have hsplit := congrArg List.sum (List.take_append_drop n histogram)
      rw [List.sum_append] at hsplit
      omega
    rw [hused] at htwo hmost
    obtain ⟨tree', depth', hrun, hchecked, hcoded, hkraft⟩ :=
      rebuilds_coded false htwo (hn.trans_lt hlength) hmost htake
        (length_nodesFor tree (usedSymbols histogram n).length) hclearedLen
    have houtside : ∀ v < histogram.length, histogram.getD v 0 ≠ 0 → v < n := by
      intro v _ hv
      by_contra hge
      exact hv (hrest v (Nat.not_lt.1 hge))
    refine ⟨tree', depth', ?_, ?_, fun v hv hne => hcoded.used v (houtside v hv hne) hne,
      fun v hv hunused => (hcoded.unused v fun _ => hunused).trans (hcleared v hv), ?_⟩
    · rw [buildHuffmanTreeFast, hscan, Option.bind_eq_bind, Option.bind_some]
      dsimp only
      rw [if_neg (by omega)]
      exact hrun
    · rw [Checked.buildHuffmanTreeFast, hscan, Option.bind_eq_bind, Option.bind_some]
      dsimp only
      rw [if_neg (by omega), if_neg (by omega)]
      exact hchecked
    · rw [kraftSum, hused]
      exact hkraft

/-- Two symbols that occur once each, in either builder. -/
theorem huffman_builds_two :
    (∃ tree' depth', createHuffmanTree [1, 1] 2 5 [] [0, 0] = some (tree', depth') ∧
      Checked.createHuffmanTree [1, 1] 2 5 [] [0, 0] = some (tree', depth') ∧
      CompleteCode [1, 1] 2 5 depth') ∧
    ∃ tree' depth', buildHuffmanTreeFast [1, 1] 2 [] [0, 0] = some (tree', depth') ∧
      Checked.buildHuffmanTreeFast [1, 1] 2 [] [0, 0] = some (tree', depth') ∧
      CompleteCode [1, 1] 2 treeLimitFast depth' := by
  obtain ⟨hcreate, hfast⟩ := huffman_builds [] [0, 0]
  exact ⟨hcreate 5 [1, 1] 2 (by decide) (by decide) (by decide) (by decide) (by decide) (by decide)
      (by decide),
    hfast [1, 1] (by decide) (by decide) (by decide) (by decide) (by decide) (by decide)⟩

/-- The histogram of two symbols that lie `m` symbols apart. -/
def endCounts (m : ℕ) : List ℕ := 1 :: (List.replicate m 0 ++ [1])

theorem getD_endCounts (m : ℕ) : (endCounts m).getD (m + 1) 0 = 1 := by
  rw [endCounts, List.getD_cons_succ, List.getD_eq_getElem?_getD,
    List.getElem?_append_right (by rw [List.length_replicate]),
    List.length_replicate, Nat.sub_self]
  rfl

theorem sum_take_endCounts (m : ℕ) : ((endCounts m).take (m + 2)).sum = 2 := by
  rw [endCounts, List.take_of_length_le (by simp)]
  simp

theorem usedSymbols_endCounts (m : ℕ) : usedSymbols (endCounts m) (m + 2) = [m + 1, 0] := by
  have hmiddle : ∀ k ≤ m, usedSymbols (endCounts m) (k + 1) = [0] := by
    intro k hk
    induction k with
    | zero => rfl
    | succ k ih =>
      have hzero : (endCounts m).getD (k + 1) 0 = 0 := by
        rw [endCounts, List.getD_cons_succ, List.getD_eq_getElem?_getD,
          List.getElem?_append_left (by rw [List.length_replicate]; omega),
          List.getElem?_replicate_of_lt (by omega)]
        rfl
      rw [usedSymbols, if_neg (not_not.2 hzero)]
      exact ih (by omega)
  rw [usedSymbols, getD_endCounts, if_pos Nat.one_ne_zero, hmiddle m (Nat.le_refl m)]

/-- Symbols are kept in 16 bits: of two symbols 40000 apart the second gets no depth. -/
theorem symbol_without_depth :
    40000 ∈ usedSymbols (endCounts 39999) 40001 ∧ ((endCounts 39999).take 40001).sum < 2 ^ 24 ∧
      ∃ tree' depth', createHuffmanTree (endCounts 39999) 40001 15 [] (List.replicate 40001 0) =
      some (tree', depth') ∧
        depth'.getD 40000 0 = 0 := by
  have hused : usedSymbols (endCounts 39999) 40001 = [40000, 0] := usedSymbols_endCounts 39999
  have hlast : (endCounts 39999).getD 40000 0 = 1 := getD_endCounts 39999
  have hitems : usedLeaves (endCounts 39999) 1 40001 = [.ofSymbol 1 (-25536), .ofSymbol 1 0] := by
    rw [usedLeaves_eq, hused, List.map_cons, hlast]
    rfl
  -- the walk writes the depth of symbol zero, and one past the end of any array
  have hwalk : ∀ depth : List ℕ, createFrom (endCounts 39999) 40001 15 34 1 (nodesFor [] 2) depth =
      some (mergeNodes (sortItems true [.ofSymbol 1 (-25536), .ofSymbol 1 0] ++
        (nodesFor [] 2).drop 2) 2,
        (depth.set 0 1).set (2 ^ 64 - 25536) 1) := by
    intro depth
    rw [createFrom]
    dsimp only
    rw [hitems]
    rfl
  have hrun := hwalk (List.replicate 40001 0)
  refine ⟨hused ▸ List.mem_cons_self, ?_, _, _, (by rw [createHuffmanTree, hitems]; exact hrun), ?_⟩
  · rw [sum_take_endCounts]
    decide
  · rw [getD_set_depth (by decide), getD_set_depth (by decide), List.getD_eq_getElem?_getD,
      List.getElem?_replicate_of_lt (by decide)]
    rfl

end Mbrotli.Compressor
