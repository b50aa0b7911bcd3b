/-
# Building depth-limited prefix codes

The leaves are sorted by a shell sort, merged in place by two queues that grow towards
each other in one pool of nodes, and given their depths by a walk with an explicit
stack. A code that is too deep is built again with every count raised to a limit that
doubles.

The pool is related to a `WeightedTree` by `Shape`, so that a merge is a join of the two
queues (`mergeFrom_shape`) and the walk gives the depths of the tree
(`setDepthFrom_walk`). The functions of `Checked` stop where an index leaves the pool or
the stack, or a sum its 32 bits; on the pools that are built they agree with the others.

Key definitions: `sortItems`, `mergeNodes`, `setDepth`, `createHuffmanTree`, `Shape`.
Key theorems: `sortItems_sorted`, `mergeNodes_shape`, `setDepth_walk`,
`Checked.setDepth_eq`, `attempt_shape`.
-/
import Mbrotli.Lib.WeightedTree
import Mbrotli.Shared.Cast
import Mathlib.Data.List.Basic
import Mathlib.Tactic.Linarith

namespace Mbrotli.Compressor

/-- One node of a tree under construction. -/
structure HuffmanNode where
  totalCount : ℕ
  indexLeft : ℤ
  indexRightOrValue : ℤ
deriving DecidableEq

/-- Ends the leaf and parent runs during merging. -/
def HuffmanNode.sentinel : HuffmanNode := ⟨2 ^ 32 - 1, -1, -1⟩

/-- `count` occurrences of symbol `value`. -/
def HuffmanNode.ofSymbol (count : ℕ) (value : ℤ) : HuffmanNode := ⟨count, -1, value⟩

/-- The value of a Rust `as i16` cast. -/
def asI16 (n : ℕ) : ℤ := (n : ℤ).bmod (2 ^ 16)

/-- The node at an index. -/
def nodeAt (tree : List HuffmanNode) (i : ℕ) : HuffmanNode := tree.getD i .sentinel

def treeCapacity (symbols : ℕ) : ℕ := 2 * symbols + 1

/-- Node scratch for a build over `leaves` used symbols; it only ever grows. -/
def nodesFor (tree : List HuffmanNode) (leaves : ℕ) : List HuffmanNode :=
  tree ++ List.replicate (treeCapacity leaves - tree.length) .sentinel

/-- Orders the leaves least popular first. -/
def precedes (tieByValue : Bool) (v0 v1 : HuffmanNode) : Bool :=
  if tieByValue ∧ v0.totalCount = v1.totalCount
    then decide (v0.indexRightOrValue > v1.indexRightOrValue)
  else decide (v0.totalCount < v1.totalCount)

/-- Sinks `tmp` from place `j` in steps of `gap`. -/
def sift (tieByValue : Bool) (gap : ℕ) (tmp : HuffmanNode) :
    ℕ → List HuffmanNode → ℕ → List HuffmanNode
  | 0, items, j => items.set j tmp
  | fuel + 1, items, j =>
    if gap ≤ j ∧ precedes tieByValue tmp (nodeAt items (j - gap)) then
      sift tieByValue gap tmp fuel (items.set j (nodeAt items (j - gap))) (j - gap)
    else items.set j tmp

/-- The places from `i` on, `k` of them, are sunk in turn. -/
def sortPass (tieByValue : Bool) (gap : ℕ) : ℕ → ℕ → List HuffmanNode → List HuffmanNode
  | 0, _, items => items
  | k + 1, i, items => sortPass tieByValue gap k (i + 1)
      (sift tieByValue gap (nodeAt items i) i items i)

def shellGaps : List ℕ := [132, 57, 23, 10, 4, 1]

/-- Shell sort of the items. The source writes the pass of a short list, whose gap is
one, as a loop of its own. -/
def sortItems (tieByValue : Bool) (items : List HuffmanNode) : List HuffmanNode :=
  if items.length < 13 then sortPass tieByValue 1 (items.length - 1) 1 items
  else (shellGaps.drop (if items.length < 57 then 2 else 0)).foldl
    (fun items gap => sortPass tieByValue gap (items.length - gap) gap items) items

/-- The lighter of the first leaf and the first parent, and where the runs go on. -/
def pick (tree : List HuffmanNode) (i j : ℕ) : ℕ × ℕ × ℕ :=
  if (nodeAt tree i).totalCount ≤ (nodeAt tree j).totalCount then (i, i + 1, j) else (j, i, j + 1)

/-- The last `k` merges of `n` leaves. -/
def mergeFrom (n : ℕ) : ℕ → List HuffmanNode → ℕ → ℕ → List HuffmanNode
  | 0, tree, _, _ => tree
  | k + 1, tree, i, j =>
    let (left, i, j) := pick tree i j
    let (right, i, j) := pick tree i j
    let parent := 2 * n - (k + 1)
    let node : HuffmanNode :=
      ⟨((nodeAt tree left).totalCount + (nodeAt tree right).totalCount) % 2 ^ 32, asI16 left,
        asI16 right⟩
    mergeFrom n k ((tree.set parent node).set (parent + 1) .sentinel) i j

/-- Merges the sorted leaves of `tree[..n]`; the root is node `2 * n - 1`. -/
def mergeNodes (tree : List HuffmanNode) (n : ℕ) : List HuffmanNode :=
  mergeFrom n (n - 1) ((tree.set n .sentinel).set (n + 1) .sentinel) 0 (n + 1)

/-- The nearest level, `level` or below, with a right child to visit. -/
def popLevel (stack : List ℤ) : ℕ → Option ℕ
  | 0 => if stack.getD 0 (-1) = -1 then none else some 0
  | level + 1 => if stack.getD (level + 1) (-1) = -1 then popLevel stack level else some (level + 1)

/-- The walk from node `p`, for at most `fuel` nodes. -/
def setDepthFrom (pool : List HuffmanNode) (maxDepth : ℕ) :
    ℕ → ℕ → ℕ → List ℤ → List ℕ → Option (Bool × List ℕ)
  | 0, _, _, _, _ => none
  | fuel + 1, p, level, stack, depth =>
    let node := nodeAt pool p
    if 0 ≤ node.indexLeft then
      if maxDepth < level + 1 then some (false, depth)
      else setDepthFrom pool maxDepth fuel (asUsize node.indexLeft) (level + 1)
        (stack.set (level + 1) node.indexRightOrValue) depth
    else
      let depth := depth.set (asUsize node.indexRightOrValue) (level % 2 ^ 8)
      match popLevel stack level with
      | none => some (true, depth)
      | some level => setDepthFrom pool maxDepth fuel (asUsize (stack.getD level (-1))) level
          (stack.set level (-1)) depth

/-- Assigns bit depths by walking the finished tree from node `root`; false if some
symbol would need more than `maxDepth` bits. -/
def setDepth (root : ℕ) (pool : List HuffmanNode) (depth : List ℕ) (maxDepth : ℕ) :
    Option (Bool × List ℕ) :=
  setDepthFrom pool maxDepth pool.length root 0 (List.replicate 16 (-1)) depth

/-- The leaves of the used symbols, the last symbol first, with their counts raised to
`countLimit`. -/
def usedLeaves (data : List ℕ) (countLimit : ℕ) : ℕ → List HuffmanNode
  | 0 => []
  | i + 1 =>
    if data.getD i 0 ≠ 0 then .ofSymbol (max (data.getD i 0) countLimit)
    (asI16 i) :: usedLeaves data countLimit i
    else usedLeaves data countLimit i

/-- The rebuilds, for at most `fuel` of them. -/
def createFrom (data : List ℕ) (length treeLimit : ℕ) : ℕ → ℕ → List HuffmanNode → List ℕ →
    Option (List HuffmanNode × List ℕ)
  | 0, _, _, _ => none
  | fuel + 1, countLimit, tree, depth =>
    let items := usedLeaves data countLimit length
    let n := items.length
    if n = 1 then some (items ++ tree.drop n,
      depth.set (asUsize (nodeAt items 0).indexRightOrValue) 1)
    else
      let tree := mergeNodes (sortItems true items ++ tree.drop n) n
      match setDepth (2 * n - 1) tree depth treeLimit with
      | none => none
      | some (true, depth) => some (tree, depth)
      | some (false, depth) => createFrom data length treeLimit fuel
          (countLimit * 2 % 2 ^ 32) tree depth

/-- Builds a depth-limited Huffman code over `data[..length]`. The limit is zero after
thirty-two doublings, so more than thirty-four rebuilds would go on for ever. -/
def createHuffmanTree (data : List ℕ) (length treeLimit : ℕ) (tree : List HuffmanNode)
    (depth : List ℕ) :
    Option (List HuffmanNode × List ℕ) :=
  createFrom data length treeLimit 34 1 (nodesFor tree (usedLeaves data 1 length).length) depth

/-! ### Checked builds

The same steps, that stop at an index outside the pool or the stack and at a sum that
does not fit its 32 bits. -/

namespace Checked

def write (tree : List HuffmanNode) (i : ℕ) (node : HuffmanNode) : Option (List HuffmanNode) :=
  if i < tree.length then some (tree.set i node) else none

def sift (tieByValue : Bool) (gap : ℕ) (tmp : HuffmanNode) :
    ℕ → List HuffmanNode → ℕ → Option (List HuffmanNode)
  | 0, items, j => write items j tmp
  | fuel + 1, items, j =>
    if gap ≤ j then do
      let item ← items[j - gap]?
      if precedes tieByValue tmp item then
        let items ← write items j item
        sift tieByValue gap tmp fuel items (j - gap)
      else write items j tmp
    else write items j tmp

def sortPass (tieByValue : Bool) (gap : ℕ) : ℕ → ℕ → List HuffmanNode → Option (List HuffmanNode)
  | 0, _, items => some items
  | k + 1, i, items => do
    let tmp ← items[i]?
    let items ← sift tieByValue gap tmp i items i
    sortPass tieByValue gap k (i + 1) items

def sortItems (tieByValue : Bool) (items : List HuffmanNode) : Option (List HuffmanNode) :=
  if items.length < 13 then sortPass tieByValue 1 (items.length - 1) 1 items
  else (shellGaps.drop (if items.length < 57 then 2 else 0)).foldlM
    (fun items gap => sortPass tieByValue gap (items.length - gap) gap items) items

def pick (tree : List HuffmanNode) (i j : ℕ) : Option (ℕ × ℕ × ℕ) := do
  let leaf ← tree[i]?
  let parent ← tree[j]?
  if leaf.totalCount ≤ parent.totalCount then some (i, i + 1, j) else some (j, i, j + 1)

def mergeFrom (n : ℕ) : ℕ → List HuffmanNode → ℕ → ℕ → Option (List HuffmanNode)
  | 0, tree, _, _ => some tree
  | k + 1, tree, i, j => do
    let (left, i, j) ← pick tree i j
    let (right, i, j) ← pick tree i j
    let parent := 2 * n - (k + 1)
    let l ← tree[left]?
    let r ← tree[right]?
    if l.totalCount + r.totalCount < 2 ^ 32 then
      let tree ← write tree parent ⟨l.totalCount + r.totalCount, asI16 left, asI16 right⟩
      let tree ← write tree (parent + 1) .sentinel
      mergeFrom n k tree i j
    else none

def mergeNodes (tree : List HuffmanNode) (n : ℕ) : Option (List HuffmanNode) := do
  let tree ← write tree n .sentinel
  let tree ← write tree (n + 1) .sentinel
  mergeFrom n (n - 1) tree 0 (n + 1)

def popLevel (stack : List ℤ) : ℕ → Option (Option ℕ)
  | 0 => do
    let top ← stack[0]?
    if top = -1 then some none else some (some 0)
  | level + 1 => do
    let top ← stack[level + 1]?
    if top = -1 then popLevel stack level else some (some (level + 1))

def setDepthFrom (pool : List HuffmanNode) (maxDepth : ℕ) :
    ℕ → ℕ → ℕ → List ℤ → List ℕ → Option (Bool × List ℕ)
  | 0, _, _, _, _ => none
  | fuel + 1, p, level, stack, depth => do
    let node ← pool[p]?
    if 0 ≤ node.indexLeft then
      if maxDepth < level + 1 then some (false, depth)
      else if level + 1 < stack.length then
        setDepthFrom pool maxDepth fuel (asUsize node.indexLeft) (level + 1)
          (stack.set (level + 1) node.indexRightOrValue) depth
      else none
    else if asUsize node.indexRightOrValue < depth.length then
      let depth := depth.set (asUsize node.indexRightOrValue) (level % 2 ^ 8)
      match ← popLevel stack level with
      | none => some (true, depth)
      | some level =>
        let top ← stack[level]?
        setDepthFrom pool maxDepth fuel (asUsize top) level (stack.set level (-1)) depth
    else none

def setDepth (root : ℕ) (pool : List HuffmanNode) (depth : List ℕ) (maxDepth : ℕ) :
    Option (Bool × List ℕ) :=
  setDepthFrom pool maxDepth pool.length root 0 (List.replicate 16 (-1)) depth

end Checked

variable {items tree pool : List HuffmanNode} {tmp u v w : HuffmanNode} {tie : Bool}
    {i j k gap n fuel : ℕ}

theorem nodeAt_set (hk : k < tree.length) (v : HuffmanNode) (i : ℕ) :
    nodeAt (tree.set k v) i = if i = k then v else nodeAt tree i := by
  rw [nodeAt, nodeAt, List.getD_eq_getElem?_getD, List.getD_eq_getElem?_getD, List.getElem?_set]
  by_cases hi : k = i
  · subst hi
    simp [hk]
  · have : i ≠ k := fun h => hi h.symm
    simp [hi, this]

theorem nodeAt_eq_getElem (hk : k < tree.length) : nodeAt tree k = tree[k] := by
  rw [nodeAt, List.getD_eq_getElem?_getD, List.getElem?_eq_getElem hk]
  rfl

/-- Moving the node at `k` up and the sunk one down is an exchange. -/
theorem exchange_perm (hj : j < items.length) (hk : k < items.length) (tmp : HuffmanNode) :
    ((items.set j (nodeAt items k)).set k tmp).Perm (items.set j tmp) := by
  by_cases hjk : j = k
  · subst hjk
    rw [List.set_set]
  · have hj' : j < (items.set j tmp).length := by rwa [List.length_set]
    have hk' : k < (items.set j tmp).length := by rwa [List.length_set]
    have hswap := List.set_set_perm hj' hk'
    rw [List.set_set, List.getElem_set_self, List.getElem_set_ne hjk,
      ← nodeAt_eq_getElem hk] at hswap
    exact hswap

theorem sift_perm (fuel : ℕ) (hj : j < items.length) :
    (sift tie gap tmp fuel items j).Perm (items.set j tmp) := by
  induction fuel generalizing items j with
  | zero => exact .refl _
  | succ fuel ih =>
    rw [sift]
    split
    · have hlen : j - gap < (items.set j (nodeAt items (j - gap))).length := by
        rw [List.length_set]
        omega
      exact (ih hlen).trans (exchange_perm hj (by omega) tmp)
    · exact .refl _

theorem sortPass_perm (hi : i + k ≤ items.length) : (sortPass tie gap k i items).Perm items := by
  induction k generalizing items i with
  | zero => exact .refl _
  | succ k ih =>
    have hperm : (sift tie gap (nodeAt items i) i items i).Perm items := by
      refine (sift_perm i (show i < items.length by omega)).trans ?_
      rw [nodeAt_eq_getElem (by omega), List.set_getElem_self]
    rw [sortPass]
    exact (ih (by rw [hperm.length_eq]; omega)).trans hperm

/-- `u` may stand before `v`. -/
def Before (tie : Bool) (u v : HuffmanNode) : Prop := precedes tie v u = false

theorem before_iff : Before tie u v ↔ u.totalCount < v.totalCount ∨
    u.totalCount = v.totalCount ∧ (tie = true → v.indexRightOrValue ≤ u.indexRightOrValue) := by
  rw [Before, precedes]
  by_cases h : tie = true ∧ v.totalCount = u.totalCount
  · rw [if_pos h, decide_eq_false_iff_not]
    constructor
    · exact fun hle => .inr ⟨h.2.symm, fun _ => le_of_not_gt hle⟩
    · rintro (hlt | ⟨-, ht⟩) hgt
      · omega
      · exact absurd (ht h.1) (not_le.2 hgt)
  · rw [if_neg h, decide_eq_false_iff_not]
    constructor
    · intro hle
      rcases Nat.lt_or_eq_of_le (Nat.le_of_not_lt hle) with hlt | he
      · exact .inl hlt
      · exact .inr ⟨he, fun ht => absurd ⟨ht, he.symm⟩ h⟩
    · rintro (hlt | ⟨he, -⟩) <;> omega

theorem Before.trans (h : Before tie u v) (h' : Before tie v w) : Before tie u w := by
  rw [before_iff] at h h' ⊢
  rcases h with h | ⟨h, ht⟩ <;> rcases h' with h' | ⟨h', ht'⟩
  · exact .inl (h.trans h')
  · exact .inl (h' ▸ h)
  · exact .inl (h ▸ h')
  · exact .inr ⟨h.trans h', fun hb => (ht' hb).trans (ht hb)⟩

theorem Before.count_le (h : Before tie u v) : u.totalCount ≤ v.totalCount := by
  rcases before_iff.1 h with h | ⟨h, -⟩ <;> omega

theorem before_of_precedes (h : precedes tie u v = true) : Before tie u v := by
  rw [before_iff]
  rw [precedes] at h
  by_cases hc : tie = true ∧ u.totalCount = v.totalCount
  · rw [if_pos hc, decide_eq_true_eq] at h
    exact .inr ⟨hc.2, fun _ => h.le⟩
  · rw [if_neg hc, decide_eq_true_eq] at h
    exact .inl h

/-- The first `i` items are in order. -/
def SortedTo (tie : Bool) (items : List HuffmanNode) (i : ℕ) : Prop :=
  ∀ a b, a < b → b < i → Before tie (nodeAt items a) (nodeAt items b)

/-- A place is free at `j`: the others up to `i` are in order, and those past it may
stand behind `tmp`. -/
structure Free (tie : Bool) (items : List HuffmanNode) (tmp : HuffmanNode) (i j : ℕ) : Prop where
  le : j ≤ i
  lt : i < items.length
  sorted : ∀ a b, a < b → b ≤ i → a ≠ j → b ≠ j → Before tie (nodeAt items a) (nodeAt items b)
  behind : ∀ b, j < b → b ≤ i → Before tie tmp (nodeAt items b)

theorem Free.put (h : Free tie items tmp i j)
    (hlast : 0 < j → Before tie (nodeAt items (j - 1)) tmp) :
    SortedTo tie (items.set j tmp) (i + 1) := by
  intro a b hab hb
  have hle := h.le
  have hj : j < items.length := Nat.lt_of_le_of_lt hle h.lt
  rw [nodeAt_set hj, nodeAt_set hj]
  by_cases haj : a = j
  · rw [if_pos haj, if_neg (by omega)]
    exact h.behind b (by omega) (by omega)
  · rw [if_neg haj]
    by_cases hbj : b = j
    · rw [if_pos hbj]
      have hbefore := hlast (by omega)
      by_cases ha1 : a = j - 1
      · rw [ha1]
        exact hbefore
      · exact (h.sorted a (j - 1) (by omega) (by omega) haj (by omega)).trans hbefore
    · rw [if_neg hbj]
      exact h.sorted a b hab (by omega) haj hbj

/-- Sinking in steps of one leaves the items in order. -/
theorem Free.sift (h : Free tie items tmp i j) (hfuel : j ≤ fuel) :
    SortedTo tie (Compressor.sift tie 1 tmp fuel items j) (i + 1) := by
  induction fuel generalizing items j with
  | zero =>
    obtain rfl : j = 0 := by omega
    exact h.put fun h0 => absurd h0 (Nat.lt_irrefl 0)
  | succ fuel ih =>
    rw [Compressor.sift]
    by_cases hc : 1 ≤ j ∧ precedes tie tmp (nodeAt items (j - 1)) = true
    · rw [if_pos hc]
      have hj : j < items.length := Nat.lt_of_le_of_lt h.le h.lt
      have hle := h.le
      have hfree : Free tie (items.set j (nodeAt items (j - 1))) tmp i (j - 1) := by
        refine ⟨by omega, by rw [List.length_set]; exact h.lt, fun a b hab hb ha hb' => ?_,
          fun b hb hbi => ?_⟩
        · rw [nodeAt_set hj, nodeAt_set hj]
          by_cases haj : a = j
          · rw [if_pos haj, if_neg (by omega)]
            exact h.sorted (j - 1) b (by omega) hb (by omega) (by omega)
          · rw [if_neg haj]
            by_cases hbj : b = j
            · rw [if_pos hbj]
              exact h.sorted a (j - 1) (by omega) (by omega) haj (by omega)
            · rw [if_neg hbj]
              exact h.sorted a b hab hb haj hbj
        · rw [nodeAt_set hj]
          by_cases hbj : b = j
          · rw [if_pos hbj]
            exact before_of_precedes hc.2
          · rw [if_neg hbj]
            exact h.behind b (by omega) hbi
      exact ih hfree (by omega)
    · rw [if_neg hc]
      refine h.put fun h0 => ?_
      rw [Before, ← Bool.not_eq_true]
      exact fun hp => hc ⟨h0, hp⟩

theorem SortedTo.pass (h : SortedTo tie items i) (hk : i + k = items.length) :
    SortedTo tie (sortPass tie 1 k i items) items.length := by
  induction k generalizing items i with
  | zero =>
    obtain rfl : i = items.length := hk
    exact h
  | succ k ih =>
    have hi : i < items.length := by omega
    have hfree : Free tie items (nodeAt items i) i i :=
      ⟨le_refl i, hi, fun a b hab hb ha hb' => h a b hab (by omega),
        fun b hb hbi => absurd hb (by omega)⟩
    have hlen : (Compressor.sift tie 1 (nodeAt items i) i items i).length = items.length := by
      rw [(sift_perm i hi).length_eq, List.length_set]
    rw [sortPass, ← hlen]
    exact ih (hfree.sift (le_refl i)) (by omega)

theorem sortPasses_perm (gaps : List ℕ) (items : List HuffmanNode) :
    (gaps.foldl (fun items gap => sortPass tie gap (items.length - gap) gap items) items).Perm
    items := by
  induction gaps generalizing items with
  | nil => exact .refl _
  | cons gap gaps ih =>
    rw [List.foldl_cons]
    refine (ih _).trans ?_
    rcases Nat.le_total gap items.length with h | h
    · exact sortPass_perm (by omega)
    · rw [Nat.sub_eq_zero_of_le h]
      exact .refl _

theorem sortedTo_one (items : List HuffmanNode) : SortedTo tie items 1 :=
  fun _ _ h h' => absurd h (by omega)

theorem SortedTo.pairwise (h : SortedTo tie items items.length) :
    items.Pairwise fun u v => u.totalCount ≤ v.totalCount := by
  rw [List.pairwise_iff_getElem]
  intro a b ha hb hab
  rw [← nodeAt_eq_getElem ha, ← nodeAt_eq_getElem hb]
  exact (h a b hab hb).count_le

/-- The sort rearranges the items and puts the least popular ones first: whatever the
passes with wider gaps leave, the last pass sinks in steps of one. -/
theorem sortItems_sorted (tie : Bool) (items : List HuffmanNode) :
    (sortItems tie items).Perm items ∧ (sortItems tie items).Pairwise fun u v =>
    u.totalCount ≤ v.totalCount := by
  have hlast : ∀ items : List HuffmanNode, 1 ≤ items.length →
      (sortPass tie 1 (items.length - 1) 1 items).Pairwise fun u v =>
      u.totalCount ≤ v.totalCount := by
    intro items h1
    have hperm : (sortPass tie 1 (items.length - 1) 1 items).Perm items := sortPass_perm (by omega)
    have hsorted : SortedTo tie (sortPass tie 1 (items.length - 1) 1 items) items.length :=
      (sortedTo_one items).pass (by omega)
    have hpair : SortedTo tie (sortPass tie 1 (items.length - 1) 1 items)
        (sortPass tie 1 (items.length - 1) 1 items).length :=
      hperm.length_eq.symm ▸ hsorted
    exact hpair.pairwise
  rw [sortItems]
  by_cases hshort : items.length < 13
  · rw [if_pos hshort]
    rcases Nat.eq_zero_or_pos items.length with h0 | h1
    · rw [List.length_eq_zero_iff.1 h0]
      exact ⟨.refl _, .nil⟩
    · exact ⟨sortPass_perm (by omega), hlast items h1⟩
  · rw [if_neg hshort]
    refine ⟨sortPasses_perm _ items, ?_⟩
    have hgaps : shellGaps.drop (if items.length < 57 then 2 else 0) =
        (shellGaps.drop (if items.length < 57 then 2 else 0)).dropLast ++ [1] := by
      by_cases h57 : items.length < 57
      · rw [if_pos h57]
        rfl
      · rw [if_neg h57]
        rfl
    rw [hgaps, List.foldl_append, List.foldl_cons, List.foldl_nil]
    refine hlast _ ?_
    rw [(sortPasses_perm _ items).length_eq]
    omega

open WeightedTree (takeMin joinMin Ready allValues totalWeight joinMin_isSome weight_le_totalWeight)

/-! ### The sort stays inside the items -/

namespace Checked

theorem node_eq (h : i < tree.length) : tree[i]? = some (nodeAt tree i) := by
  rw [nodeAt_eq_getElem h]
  exact List.getElem?_eq_getElem h

theorem write_eq (h : i < tree.length) (v : HuffmanNode) :
    write tree i v = some (tree.set i v) := if_pos h

theorem sift_eq (fuel : ℕ) (hj : j < items.length) :
    sift tie gap tmp fuel items j = some (Compressor.sift tie gap tmp fuel items j) := by
  induction fuel generalizing items j with
  | zero => exact write_eq hj tmp
  | succ fuel ih =>
    rw [sift, Compressor.sift]
    by_cases hgap : gap ≤ j
    · rw [if_pos hgap, node_eq (by omega), Option.bind_eq_bind, Option.bind_some]
      by_cases hbefore : precedes tie tmp (nodeAt items (j - gap)) = true
      · rw [if_pos hbefore, if_pos ⟨hgap, hbefore⟩, write_eq hj, Option.bind_eq_bind,
          Option.bind_some]
        exact ih (by rw [List.length_set]; omega)
      · rw [if_neg hbefore, if_neg fun h => hbefore h.2]
        exact write_eq hj tmp
    · rw [if_neg hgap, if_neg fun h => hgap h.1]
      exact write_eq hj tmp

theorem sortPass_eq (hi : k = 0 ∨ i + k ≤ items.length) :
    sortPass tie gap k i items = some (Compressor.sortPass tie gap k i items) := by
  induction k generalizing items i with
  | zero => rfl
  | succ k ih =>
    have hlt : i < items.length := by omega
    have hlen := (@sift_perm items (nodeAt items i) tie i gap i hlt).length_eq
    rw [List.length_set] at hlen
    rw [sortPass, Compressor.sortPass, node_eq hlt, Option.bind_eq_bind, Option.bind_some,
      sift_eq i hlt, Option.bind_eq_bind,
      Option.bind_some]
    exact ih (.inr (by omega))

theorem sortPasses_eq (gaps : List ℕ) (items : List HuffmanNode) :
    gaps.foldlM (fun items gap => sortPass tie gap (items.length - gap) gap items) items =
      some
      (gaps.foldl (fun items gap => Compressor.sortPass tie gap (items.length - gap) gap items)
        items) := by
  induction gaps generalizing items with
  | nil => rfl
  | cons gap gaps ih =>
    rw [List.foldlM_cons, List.foldl_cons, sortPass_eq (by omega), Option.bind_eq_bind,
      Option.bind_some]
    exact ih _

theorem sortItems_eq (items : List HuffmanNode) :
    sortItems tie items = some (Compressor.sortItems tie items) := by
  rw [sortItems, Compressor.sortItems]
  by_cases hshort : items.length < 13
  · rw [if_pos hshort, if_pos hshort]
    exact sortPass_eq (by omega)
  · rw [if_neg hshort, if_neg hshort]
    exact sortPasses_eq _ items

theorem pick_eq (hi : i < tree.length) (hj : j < tree.length) :
    pick tree i j = some (Compressor.pick tree i j) := by
  rw [pick, Compressor.pick, node_eq hi, node_eq hj]
  simp only [Option.bind_eq_bind, Option.bind_some]
  split <;> rfl

end Checked

variable {t x : WeightedTree ℕ} {as bs as' bs' : List (WeightedTree ℕ)} {parent bound p L : ℕ}

theorem asI16_eq (h : k < 2 ^ 15) : asI16 k = k := by
  have h' : k < 32768 := h
  show Int.bmod (k : ℤ) 65536 = k
  exact Int.bmod_eq_of_le (by omega) (by omega)

/-- Node `p` and those below it, all before `bound`, are the tree. -/
def Shape (pool : List HuffmanNode) (bound : ℕ) : ℕ → WeightedTree ℕ → Prop
  | p, .leaf w v => p < bound ∧ nodeAt pool p = .ofSymbol w v
  | p, .node l r => p < bound ∧ ∃ i j : ℕ, nodeAt pool p = ⟨l.weight + r.weight, i, j⟩ ∧
      Shape pool bound i l ∧ Shape pool bound j r

theorem Shape.lt (h : Shape pool bound p t) : p < bound := by
  cases t with
  | leaf => exact h.1
  | node => exact h.1

theorem Shape.count (h : Shape pool bound p t) : (nodeAt pool p).totalCount = t.weight := by
  cases t with
  | leaf =>
    rw [h.2]
    rfl
  | node =>
    obtain ⟨-, i, j, h, -⟩ := h
    rw [h]
    rfl

/-- What stands from the bound on does not matter. -/
theorem Shape.congr {pool' : List HuffmanNode} {bound' : ℕ} (h : Shape pool bound p t)
    (hsame : ∀ q < bound, nodeAt pool' q = nodeAt pool q) (hle : bound ≤ bound') :
    Shape pool' bound' p t := by
  induction t generalizing p with
  | leaf w v => exact ⟨h.1.trans_le hle, (hsame p h.1).trans h.2⟩
  | node l r ihl ihr =>
    obtain ⟨hp, i, j, hnode, hl, hr⟩ := h
    exact ⟨hp.trans_le hle, i, j, (hsame p hp).trans hnode, ihl hl, ihr hr⟩

/-- The leaves from `i` to `n` and the parents from `j` on are the two queues. -/
structure Queues (pool : List HuffmanNode) (n i j parent : ℕ) (as bs : List (WeightedTree ℕ)) :
    Prop where
  leaves : i + as.length = n
  parents : j + bs.length = parent
  past : n < j
  left : ∀ m t, as[m]? = some t → Shape pool parent (i + m) t
  right : ∀ m t, bs[m]? = some t → Shape pool parent (j + m) t
  endLeft : nodeAt pool n = .sentinel
  endRight : nodeAt pool parent = .sentinel
  room : parent < pool.length
  light : ∀ t ∈ as ++ bs, t.weight < 2 ^ 32 - 1

/-- Both runs are read inside the pool. -/
theorem Queues.inside (h : Queues pool n i j parent as bs) : i < pool.length ∧ j < pool.length := by
  obtain ⟨hleaves, hparents, hpast, hroom⟩ :=
    (⟨h.leaves, h.parents, h.past, h.room⟩ : _ ∧ _ ∧ _ ∧ _)
  omega

/-- What is picked from the pool is what is taken from the queues. -/
theorem Queues.pick (h : Queues pool n i j parent as bs) (hx : takeMin as bs = some (x, as', bs')) :
    ∃ q i' j', Compressor.pick pool i j = (q, i', j') ∧ Shape pool parent q x ∧
    Queues pool n i' j' parent as' bs' := by
  have hsentinel : HuffmanNode.sentinel.totalCount = 2 ^ 32 - 1 := rfl
  have hleaf : ∀ a rest, as = a :: rest → Shape pool parent i a ∧
      Queues pool n (i + 1) j parent rest bs := by
    rintro a rest rfl
    refine ⟨h.left 0 a rfl, by have := h.leaves; rw [List.length_cons] at this; omega, h.parents,
      h.past, fun m t hm => ?_, h.right, h.endLeft,
      h.endRight, h.room, fun t ht => h.light t (List.mem_cons_of_mem _ ht)⟩
    rw [Nat.add_assoc, Nat.add_comm 1]
    exact h.left (m + 1) t hm
  have hparent : ∀ b rest, bs = b :: rest → Shape pool parent j b ∧
      Queues pool n i (j + 1) parent as rest := by
    rintro b rest rfl
    refine ⟨h.right 0 b rfl,
      h.leaves, by have :=
        h.parents; rw [List.length_cons] at this; omega, by have := h.past; omega, h.left,
        fun m t hm => ?_,
      h.endLeft, h.endRight, h.room, fun t ht => h.light t ?_⟩
    · rw [Nat.add_assoc, Nat.add_comm 1]
      exact h.right (m + 1) t hm
    · rcases List.mem_append.1 ht with ht | ht
      · exact List.mem_append_left _ ht
      · exact List.mem_append_right _ (List.mem_cons_of_mem _ ht)
  rw [Compressor.pick]
  cases as with
  | nil =>
    cases bs with
    | nil => exact nomatch hx
    | cons b bs =>
      rw [takeMin, Option.some.injEq, Prod.mk.injEq, Prod.mk.injEq] at hx
      obtain ⟨rfl, rfl, rfl⟩ := hx
      obtain ⟨hshape, hq⟩ := hparent b bs rfl
      -- the leaves are used up, and the sentinel is heavier than any tree
      have hi : i = n := h.leaves
      have hlt := h.light b List.mem_cons_self
      rw [hi, h.endLeft, hsentinel, hshape.count, if_neg (by omega)]
      exact ⟨j, n, j + 1, rfl, hshape, hi ▸ hq⟩
  | cons a as =>
    obtain ⟨hshape, hq⟩ := hleaf a as rfl
    have hlt := h.light a List.mem_cons_self
    cases bs with
    | nil =>
      rw [takeMin, Option.some.injEq, Prod.mk.injEq, Prod.mk.injEq] at hx
      obtain ⟨rfl, rfl, rfl⟩ := hx
      have hj : j = parent := h.parents
      rw [hshape.count, hj, h.endRight, hsentinel, if_pos (by omega)]
      exact ⟨i, i + 1, parent, rfl, hshape, hj ▸ hq⟩
    | cons b bs =>
      obtain ⟨hshape', hq'⟩ := hparent b bs rfl
      rw [hshape.count, hshape'.count]
      rw [takeMin] at hx
      by_cases hle : a.weight ≤ b.weight
      · rw [if_pos hle, Option.some.injEq, Prod.mk.injEq, Prod.mk.injEq] at hx
        obtain ⟨rfl, rfl, rfl⟩ := hx
        rw [if_pos hle]
        exact ⟨i, i + 1, j, rfl, hshape, hq⟩
      · rw [if_neg hle, Option.some.injEq, Prod.mk.injEq, Prod.mk.injEq] at hx
        obtain ⟨rfl, rfl, rfl⟩ := hx
        rw [if_neg hle]
        exact ⟨j, i, j + 1, rfl, hshape', hq'⟩

/-- One merge is one join of the queues. -/
theorem Queues.merge (h : Queues pool n i j (2 * n - (k + 1)) as bs)
    (hj : joinMin as bs = some (as', bs'))
    (hk : k + 1 < n) (hn : 2 * n < 2 ^ 15) (hpool : 2 * n < pool.length)
    (hweight : totalWeight (as' ++ bs') < 2 ^ 32 - 1) :
    ∃ pool' i' j', mergeFrom n (k + 1) pool i j = mergeFrom n k pool' i' j' ∧
      Checked.mergeFrom n (k + 1) pool i j = Checked.mergeFrom n k pool' i' j' ∧
      pool'.length = pool.length ∧
      Queues pool' n i' j' (2 * n - k) as' bs' := by
  rw [joinMin] at hj
  split at hj
  · cases hj
  next left as1 bs1 h1 =>
  split at hj
  · cases hj
  next right as2 bs2 h2 =>
  rw [Option.some.injEq, Prod.mk.injEq] at hj
  obtain ⟨rfl, rfl⟩ := hj
  obtain ⟨q1, i1, j1, hpick1, hleft, hq1⟩ := h.pick h1
  obtain ⟨q2, i2, j2, hpick2, hright, hq2⟩ := hq1.pick h2
  have hparent : 2 * n - k = 2 * n - (k + 1) + 1 := by omega
  rw [hparent]
  set parent := 2 * n - (k + 1) with hdef
  have hjoin : (WeightedTree.node left right).weight < 2 ^ 32 - 1 :=
    lt_of_le_of_lt (weight_le_totalWeight
      (List.mem_append_right _ (List.mem_append_right _ (List.mem_singleton.2 rfl)))) hweight
  have hsum : left.weight + right.weight < 2 ^ 32 - 1 := hjoin
  have hnode : (⟨((nodeAt pool q1).totalCount + (nodeAt pool q2).totalCount) % 2 ^ 32, asI16 q1,
    asI16 q2⟩ : HuffmanNode) =
      ⟨left.weight + right.weight, q1, q2⟩ := by
    have hl := hleft.lt
    have hr := hright.lt
    rw [hleft.count, hright.count, Nat.mod_eq_of_lt (by omega), asI16_eq (by omega),
      asI16_eq (by omega)]
  set node : HuffmanNode := ⟨left.weight + right.weight, q1, q2⟩ with hnodedef
  have hlen : ((pool.set parent node).set (parent + 1) .sentinel).length = pool.length := by
    rw [List.length_set, List.length_set]
  have hread : ∀ q, nodeAt ((pool.set parent node).set (parent + 1) .sentinel) q =
      if q = parent + 1 then .sentinel else if q = parent then node else nodeAt pool q := by
    intro q
    rw [nodeAt_set (by rw [List.length_set]; omega), nodeAt_set (by omega)]
  have hsame : ∀ q < parent, nodeAt ((pool.set parent node).set (parent + 1) .sentinel) q =
      nodeAt pool q := by
    intro q hq
    rw [hread, if_neg (by omega), if_neg (by omega)]
  refine ⟨(pool.set parent node).set (parent + 1) .sentinel, i2, j2, ?_, ?_, hlen, ?_⟩
  · rw [mergeFrom, hpick1]
    dsimp only
    rw [hpick2]
    dsimp only
    rw [hnode]
  · obtain ⟨hi, hj⟩ := h.inside
    obtain ⟨hi1, hj1⟩ := hq1.inside
    have hl := hleft.lt
    have hr := hright.lt
    have hroom := h.room
    rw [Checked.mergeFrom, Checked.pick_eq hi hj, hpick1, Option.bind_eq_bind, Option.bind_some]
    dsimp only
    rw [Checked.pick_eq hi1 hj1, hpick2]
    simp only [Option.bind_eq_bind, Option.bind_some]
    rw [Checked.node_eq (by omega), Checked.node_eq (by omega)]
    simp only [Option.bind_some]
    rw [hleft.count, hright.count, if_pos (by omega), asI16_eq (by omega), asI16_eq (by omega),
      Checked.write_eq (by omega),
      Option.bind_some, Checked.write_eq (by rw [List.length_set]; omega), Option.bind_some]
  · have hpast := hq2.past
    have hparents := hq2.parents
    refine ⟨hq2.leaves, ?_, hpast, fun m t hm => (hq2.left m t hm).congr hsame (Nat.le_succ _),
      fun m t hm => ?_, ?_, ?_, ?_, ?_⟩
    · rw [List.length_append, List.length_singleton]
      omega
    · rcases Nat.lt_or_ge m bs2.length with hlt | hge
      · rw [List.getElem?_append_left hlt] at hm
        exact (hq2.right m t hm).congr hsame (Nat.le_succ _)
      · have hm' : m = bs2.length := by
          have := (List.getElem?_eq_some_iff.1 hm).1
          rw [List.length_append, List.length_singleton] at this
          omega
        rw [hm', List.getElem?_append_right (le_refl _), Nat.sub_self, List.getElem?_cons_zero,
          Option.some.injEq] at hm
        rw [← hm, hm', hparents]
        refine ⟨Nat.lt_succ_self _, q1, q2, ?_, hleft.congr hsame (Nat.le_succ _),
          hright.congr hsame (Nat.le_succ _)⟩
        rw [hread, if_neg (by omega), if_pos rfl]
    · rw [hsame n (by omega)]
      exact hq2.endLeft
    · rw [hread, if_pos rfl]
    · rw [hlen]
      omega
    · exact fun t ht => lt_of_le_of_lt (weight_le_totalWeight ht) hweight

/-- The merges leave one tree, at the last node. -/
theorem mergeFrom_shape (h : Queues pool n i j (2 * n - k) as bs) (hready : Ready L as bs)
    (hcount : (as ++ bs).length = k + 1)
    (hk : k < n) (hstart : k = 0 → bs ≠ []) (hn : 2 * n < 2 ^ 15) (hpool : 2 * n < pool.length)
    (hweight : totalWeight (as ++ bs) < 2 ^ 32 - 1) :
    ∃ t, Shape (mergeFrom n k pool i j) (2 * n) (2 * n - 1) t ∧ t.Heavy L ∧
    t.values.Perm (allValues (as ++ bs)) ∧
      t.weight = totalWeight (as ++ bs) ∧ Checked.mergeFrom n k pool i j =
      some (mergeFrom n k pool i j) := by
  induction k generalizing pool i j as bs with
  | zero =>
    rw [List.length_append] at hcount
    have hbs : bs.length ≠ 0 := fun h0 => hstart rfl (List.length_eq_zero_iff.1 h0)
    have has : as = [] := List.length_eq_zero_iff.1 (by omega)
    obtain ⟨t, rfl⟩ : ∃ t, bs = [t] := List.length_eq_one_iff.1 (by omega)
    subst has
    have hroot := h.right 0 t rfl
    have hparents := h.parents
    rw [List.length_singleton] at hparents
    rw [Nat.add_zero, show j = 2 * n - 1 by omega] at hroot
    refine ⟨t, hroot, hready.heavy t List.mem_cons_self, ?_, ?_, rfl⟩
    · simp [allValues]
    · simp [totalWeight]
  | succ k ih =>
    obtain ⟨as', bs', hj⟩ :=
      joinMin_isSome (show 2 ≤ (as ++ bs).length by omega) hready.left hready.right
    obtain ⟨hready', hlen, hvalues, htotal⟩ := hready.join hj
    obtain ⟨pool', i', j', hmerge, hchecked, hpool', hq⟩ :=
      h.merge hj hk hn hpool (htotal.symm ▸ hweight)
    have hne : k = 0 → bs' ≠ [] := by
      rintro - rfl
      rw [joinMin] at hj
      split at hj
      · cases hj
      · split at hj
        · cases hj
        · rw [Option.some.injEq, Prod.mk.injEq] at hj
          exact absurd hj.2 (by simp)
    obtain ⟨t, hshape, hheavy, hv, hw, hrun⟩ :=
      ih hq hready' (by omega) (by omega) hne (by omega) (htotal.symm ▸ hweight)
    rw [hmerge, hchecked]
    exact ⟨t, hshape, hheavy, hv.trans hvalues, hw.trans htotal, hrun⟩

theorem length_mergeFrom (n k : ℕ) (tree : List HuffmanNode) (i j : ℕ) :
    (mergeFrom n k tree i j).length = tree.length := by
  induction k generalizing tree i j with
  | zero => rfl
  | succ k ih =>
    rw [mergeFrom]
    dsimp only
    rw [ih, List.length_set, List.length_set]

/-- Sorted leaves are merged into one heavy tree. -/
theorem mergeNodes_shape {leaves : List (ℕ × ℕ)} (htwo : 2 ≤ leaves.length)
    (hsorted : leaves.Pairwise fun p q => p.1 ≤ q.1)
    (hL : ∀ p ∈ leaves, L ≤ p.1) (hn : 2 * leaves.length < 2 ^ 15)
    (hpool : 2 * leaves.length < tree.length)
    (htree : ∀ m p, leaves[m]? = some p → nodeAt tree m = .ofSymbol p.1 p.2)
    (hweight : (leaves.map Prod.fst).sum < 2 ^ 32 - 1) :
    ∃ t, Shape (mergeNodes tree leaves.length) (2 * leaves.length) (2 * leaves.length - 1) t ∧
    t.Heavy L ∧
      t.values.Perm (leaves.map Prod.snd) ∧ t.weight = (leaves.map Prod.fst).sum ∧
      Checked.mergeNodes tree leaves.length = some (mergeNodes tree leaves.length) := by
  set n := leaves.length with hndef
  set as : List (WeightedTree ℕ) := leaves.map fun p => .leaf p.1 p.2 with has
  have hready : Ready L as [] := WeightedTree.ready_leaves hsorted hL
  have htotal : totalWeight (as ++ []) = (leaves.map Prod.fst).sum := by
    rw [List.append_nil, totalWeight, has, List.map_map]
    rfl
  have hvalues : allValues (as ++ []) = leaves.map Prod.snd := by
    rw [List.append_nil, allValues, has, List.flatMap_map]
    exact List.map_eq_flatMap.symm
  have hread : ∀ q, nodeAt ((tree.set n .sentinel).set (n + 1) .sentinel) q =
      if q = n + 1 then .sentinel else if q = n then .sentinel else nodeAt tree q := by
    intro q
    rw [nodeAt_set (by rw [List.length_set]; omega), nodeAt_set (by omega)]
  have hq : Queues ((tree.set n .sentinel).set (n + 1) .sentinel) n 0 (n + 1)
      (2 * n - (n - 1)) as [] := by
    have hparent : 2 * n - (n - 1) = n + 1 := by omega
    rw [hparent]
    refine ⟨by rw [has, List.length_map, Nat.zero_add], rfl, Nat.lt_succ_self n, fun m t hm => ?_,
      fun m t hm => (by cases hm), ?_, ?_, ?_, ?_⟩
    · rw [has, List.getElem?_map, Option.map_eq_some_iff] at hm
      obtain ⟨p, hp, rfl⟩ := hm
      have hmn : m < n := (List.getElem?_eq_some_iff.1 hp).1
      refine ⟨by omega, ?_⟩
      rw [Nat.zero_add, hread, if_neg (by omega), if_neg (by omega)]
      exact htree m p hp
    · rw [hread, if_neg (by omega), if_pos rfl]
    · rw [hread, if_pos rfl]
    · rw [List.length_set, List.length_set]
      omega
    · exact fun t ht => lt_of_le_of_lt (weight_le_totalWeight ht) (htotal.symm ▸ hweight)
  obtain ⟨t, hshape, hheavy, hv, hw, hrun⟩ :=
    mergeFrom_shape hq hready (by rw [List.append_nil, has, List.length_map]; omega) (by omega)
      (fun h0 => absurd h0 (by omega)) hn (by rw [List.length_set, List.length_set]; exact hpool)
      (htotal.symm ▸ hweight)
  refine ⟨t, hshape, hheavy, hvalues ▸ hv, hw.trans htotal, ?_⟩
  rw [Checked.mergeNodes, Checked.write_eq (by omega), Option.bind_eq_bind, Option.bind_some,
    Checked.write_eq (by rw [List.length_set]; omega), Option.bind_some]
  exact hrun

/-- Writes the depths of a walk. -/
def writeDepths (l : List (ℕ × ℕ)) (depth : List ℕ) : List ℕ :=
  l.foldl (fun depth p => depth.set p.1 (p.2 % 2 ^ 8)) depth

/-- Goes on with the nearest right child that is left to visit. -/
def afterPop (pool : List HuffmanNode) (maxDepth fuel level : ℕ) (stack : List ℤ) (depth : List ℕ) :
    Option (Bool × List ℕ) :=
  match popLevel stack level with
  | none => some (true, depth)
  | some level => setDepthFrom pool maxDepth fuel (asUsize (stack.getD level (-1))) level
      (stack.set level (-1)) depth

variable {maxDepth level : ℕ} {stack : List ℤ} {depth : List ℕ}

theorem asUsize_natCast (h : k < 2 ^ 31) : asUsize k = k := by
  have := asUsize_eq (z := (k : ℤ)) (by omega) (by exact_mod_cast h)
  exact_mod_cast this

theorem getD_set_stack (hk : k < stack.length) (v : ℤ) (i : ℕ) :
    (stack.set k v).getD i (-1) = if i = k then v else stack.getD i (-1) := by
  rw [List.getD_eq_getElem?_getD, List.getD_eq_getElem?_getD, List.getElem?_set]
  by_cases hi : k = i
  · subst hi
    simp [hk]
  · have : i ≠ k := fun h => hi h.symm
    simp [hi, this]

/-- A right child is pushed and popped again. -/
theorem set_set_clear (hclear : ∀ k, level < k → stack.getD k (-1) = -1) (v : ℤ) :
    (stack.set (level + 1) v).set (level + 1) (-1) = stack := by
  rw [List.set_set]
  apply List.ext_getElem?
  intro i
  rw [List.getElem?_set]
  by_cases hi : level + 1 = i
  · subst hi
    rw [if_pos rfl]
    have := hclear (level + 1) (Nat.lt_succ_self _)
    rw [List.getD_eq_getElem?_getD] at this
    split
    · next hlt =>
      rw [List.getElem?_eq_getElem hlt] at this ⊢
      rw [Option.getD_some] at this
      rw [this]
    · next hge => rw [List.getElem?_eq_none (by omega)]
  · rw [if_neg hi]

/-- The walk of a tree that fits writes its depths and goes on above it. -/
theorem setDepthFrom_walk (h : Shape pool bound p t) (hbound : bound ≤ 2 ^ 31)
    (hvalues : ∀ v ∈ t.values, v < 2 ^ 31) (hmax : maxDepth < 16)
    (hstack : stack.length = 16) (hclear : ∀ k, level < k → stack.getD k (-1) = -1)
    (hfit : level + t.height ≤ maxDepth) (fuel : ℕ) :
    setDepthFrom pool maxDepth (t.size + fuel) p level stack depth =
      afterPop pool maxDepth fuel level stack (writeDepths (t.depths level) depth) := by
  induction t generalizing p level stack depth fuel with
  | leaf w v =>
    have hv := hvalues v List.mem_cons_self
    have hleft : ¬0 ≤ (nodeAt pool p).indexLeft := by
      rw [h.2]
      show ¬(0 : ℤ) ≤ -1
      decide
    have hvalue : (nodeAt pool p).indexRightOrValue = v := by rw [h.2, HuffmanNode.ofSymbol]
    rw [WeightedTree.size, Nat.add_comm 1, setDepthFrom]
    dsimp only
    rw [if_neg hleft, hvalue, asUsize_natCast hv]
    rfl
  | node l r ihl ihr =>
    obtain ⟨hp, i, j, hnode, hl, hr⟩ := h
    rw [WeightedTree.height] at hfit
    have hi := hl.lt
    have hj := hr.lt
    have hlevel : level + 1 < stack.length := by omega
    have hpushed : ∀ k, level + 1 < k → (stack.set (level + 1) (j : ℤ)).getD k (-1) = -1 := by
      intro k hk
      rw [getD_set_stack hlevel, if_neg (by omega)]
      exact hclear k (by omega)
    have htop : (stack.set (level + 1) (j : ℤ)).getD (level + 1) (-1) = j := by
      rw [getD_set_stack hlevel, if_pos rfl]
    rw [WeightedTree.size, show l.size + r.size + 1 + fuel =
      (l.size + (r.size + fuel)) + 1 by omega, setDepthFrom, hnode]
    dsimp only
    rw [if_pos (by omega), if_neg (by omega), asUsize_natCast (by omega),
      ihl hl (fun v hv => hvalues v (List.mem_append_left _ hv))
      (by rw [List.length_set]; exact hstack) hpushed (by omega),
      afterPop, popLevel, htop, if_neg (by omega)]
    dsimp only
    rw [htop, asUsize_natCast (by omega), set_set_clear hclear,
      ihr hr (fun v hv => hvalues v (List.mem_append_right _ hv)) hstack
      (fun k hk => hclear k (by omega)) (by omega),
      afterPop, afterPop, popLevel, hclear (level + 1) (Nat.lt_succ_self _), if_pos rfl]
    rw [WeightedTree.depths, writeDepths, writeDepths, writeDepths, List.foldl_append]

theorem writeDepths_length (l : List (ℕ × ℕ)) (depth : List ℕ) :
    (writeDepths l depth).length = depth.length := by
  induction l generalizing depth with
  | nil => rfl
  | cons q l ih =>
    rw [writeDepths, List.foldl_cons]
    exact (ih _).trans List.length_set

theorem getD_set_depth {v i : ℕ} (hi : k ≠ i) : (depth.set k v).getD i 0 = depth.getD i 0 := by
  rw [List.getD_eq_getElem?_getD, List.getD_eq_getElem?_getD, List.getElem?_set_ne hi]

theorem writeDepths_other {l : List (ℕ × ℕ)} {v : ℕ} (h : v ∉ l.map Prod.fst) :
    (writeDepths l depth).getD v 0 = depth.getD v 0 := by
  induction l generalizing depth with
  | nil => rfl
  | cons q l ih =>
    rw [List.map_cons, List.mem_cons, not_or] at h
    rw [writeDepths, List.foldl_cons]
    exact (ih h.2).trans (getD_set_depth (Ne.symm h.1))

/-- Each symbol of a walk gets its depth. -/
theorem writeDepths_mem {l : List (ℕ × ℕ)} (hnodup : (l.map Prod.fst).Nodup) {q : ℕ × ℕ}
    (hq : q ∈ l) (hlt : q.1 < depth.length)
    (h8 : q.2 < 2 ^ 8) : (writeDepths l depth).getD q.1 0 = q.2 := by
  induction l generalizing depth with
  | nil => exact nomatch hq
  | cons r l ih =>
    rw [List.map_cons, List.nodup_cons] at hnodup
    rw [writeDepths, List.foldl_cons]
    rcases List.mem_cons.1 hq with rfl | hq
    · refine (writeDepths_other hnodup.1).trans ?_
      rw [List.getD_eq_getElem?_getD, List.getElem?_set_self hlt, Option.getD_some,
        Nat.mod_eq_of_lt h8]
    · exact ih hnodup.2 hq (by rwa [List.length_set])

/-- What an attempt writes: the depths of some symbols of the tree. -/
structure Wrote (t : WeightedTree ℕ) (depth depth' : List ℕ) : Prop where
  length : depth'.length = depth.length
  other : ∀ v, v ∉ t.values → depth'.getD v 0 = depth.getD v 0

theorem wrote_walk (t : WeightedTree ℕ) (level : ℕ) (depth : List ℕ) :
    Wrote t depth (writeDepths (t.depths level) depth) :=
  ⟨writeDepths_length _ _, fun _ hv => writeDepths_other (by rwa [WeightedTree.map_fst_depths])⟩

/-- The walk of a tree that does not fit fails. -/
theorem setDepthFrom_fail (h : Shape pool bound p t) (hbound : bound ≤ 2 ^ 31)
    (hvalues : ∀ v ∈ t.values, v < 2 ^ 31) (hmax : maxDepth < 16)
    (hstack : stack.length = 16) (hclear : ∀ k, level < k → stack.getD k (-1) = -1)
    (hlevel : level ≤ maxDepth)
    (hdeep : maxDepth < level + t.height) (fuel : ℕ) :
    ∃ depth', setDepthFrom pool maxDepth (t.size + fuel) p level stack depth =
    some (false, depth') ∧ Wrote t depth depth' := by
  induction t generalizing p level stack depth fuel with
  | leaf w v =>
    rw [WeightedTree.height] at hdeep
    omega
  | node l r ihl ihr =>
    obtain ⟨hp, i, j, hnode, hl, hr⟩ := h
    rw [WeightedTree.height] at hdeep
    have hi := hl.lt
    have hj := hr.lt
    have hvl : ∀ v ∈ l.values, v < 2 ^ 31 := fun v hv => hvalues v (List.mem_append_left _ hv)
    have hvr : ∀ v ∈ r.values, v < 2 ^ 31 := fun v hv => hvalues v (List.mem_append_right _ hv)
    rw [WeightedTree.size, show l.size + r.size + 1 + fuel =
      (l.size + (r.size + fuel)) + 1 by omega, setDepthFrom, hnode]
    dsimp only
    rw [if_pos (by omega)]
    by_cases hnext : maxDepth < level + 1
    · rw [if_pos hnext]
      exact ⟨depth, rfl, rfl, fun _ _ => rfl⟩
    have hlevel' : level + 1 < stack.length := by omega
    have hpushed : ∀ k, level + 1 < k → (stack.set (level + 1) (j : ℤ)).getD k (-1) = -1 := by
      intro k hk
      rw [getD_set_stack hlevel', if_neg (by omega)]
      exact hclear k (by omega)
    have htop : (stack.set (level + 1) (j : ℤ)).getD (level + 1) (-1) = j := by
      rw [getD_set_stack hlevel', if_pos rfl]
    rw [if_neg hnext, asUsize_natCast (by omega)]
    by_cases hleft : maxDepth < level + 1 + l.height
    · obtain ⟨depth', hrun, hwrote⟩ :=
        ihl hl hvl (by rw [List.length_set]; exact hstack) hpushed (by omega) hleft (r.size + fuel)
      exact ⟨depth', hrun, hwrote.length,
        fun v hv => hwrote.other v fun hm => hv (List.mem_append_left _ hm)⟩
    · rw [setDepthFrom_walk hl hbound hvl hmax (by rw [List.length_set]; exact hstack) hpushed
        (by omega), afterPop, popLevel, htop,
        if_neg (by omega)]
      dsimp only
      rw [htop, asUsize_natCast (by omega), set_set_clear hclear]
      obtain ⟨depth', hrun, hwrote⟩ :=
        ihr hr hvr hstack (fun k hk => hclear k (by omega)) (show level + 1 ≤ maxDepth by omega)
          (by omega) fuel
      have hwalk := wrote_walk l (level + 1) depth
      exact ⟨depth', hrun, hwrote.length.trans hwalk.length,
        fun v hv => (hwrote.other v fun hm => hv (List.mem_append_right _ hm)).trans
        (hwalk.other v fun hm => hv (List.mem_append_left _ hm))⟩

/-- A finished tree gets its depths if it fits, and the walk says so. -/
theorem setDepth_walk (h : Shape pool bound p t) (hbound : bound ≤ 2 ^ 31)
    (hvalues : ∀ v ∈ t.values, v < 2 ^ 31) (hmax : maxDepth < 16)
    (hpool : t.size ≤ pool.length) (depth : List ℕ) :
    t.height ≤ maxDepth ∧ setDepth p pool depth maxDepth =
    some (true, writeDepths (t.depths 0) depth) ∨
      maxDepth < t.height ∧ ∃ depth', setDepth p pool depth maxDepth = some (false, depth') ∧
      Wrote t depth depth' := by
  have hclear : ∀ k, 0 < k → (List.replicate 16 (-1 : ℤ)).getD k (-1) = -1 := by
    intro k _
    rw [List.getD_eq_getElem?_getD, List.getElem?_replicate]
    split <;> rfl
  have hfuel : pool.length = t.size + (pool.length - t.size) := by omega
  rw [setDepth, hfuel]
  rcases Nat.lt_or_ge maxDepth t.height with hdeep | hfit
  · exact .inr ⟨hdeep, setDepthFrom_fail h hbound hvalues hmax List.length_replicate hclear
      (Nat.zero_le _) (by omega) _⟩
  · rw [setDepthFrom_walk h hbound hvalues hmax List.length_replicate hclear (by omega)]
    exact .inl ⟨hfit, rfl⟩

/-! ### The walk stays inside the pool and the stack -/

/-- A tree of symbols below `len` stands at node `q`. -/
def Visits (pool : List HuffmanNode) (bound len q : ℕ) : Prop :=
  ∃ t, Shape pool bound q t ∧ ∀ v ∈ t.values, v < len

theorem popLevel_le {top : ℕ} (h : popLevel stack level = some top) :
    top ≤ level ∧ stack.getD top (-1) ≠ -1 := by
  induction level with
  | zero =>
    rw [popLevel] at h
    split at h
    · cases h
    · next hne =>
      cases h
      exact ⟨Nat.le_refl 0, hne⟩
  | succ level ih =>
    rw [popLevel] at h
    split at h
    · exact ⟨(ih h).1.trans (Nat.le_succ _), (ih h).2⟩
    · next hne =>
      cases h
      exact ⟨Nat.le_refl _, hne⟩

namespace Checked

theorem top_eq (h : level < stack.length) : stack[level]? = some (stack.getD level (-1)) := by
  rw [List.getD_eq_getElem?_getD, List.getElem?_eq_getElem h, Option.getD_some]

theorem popLevel_eq (h : level < stack.length) :
    popLevel stack level = some (Compressor.popLevel stack level) := by
  induction level with
  | zero =>
    rw [popLevel, Compressor.popLevel, top_eq h, Option.bind_eq_bind, Option.bind_some]
    split <;> rfl
  | succ level ih =>
    rw [popLevel, Compressor.popLevel, top_eq h, Option.bind_eq_bind, Option.bind_some]
    split
    · exact ih (Nat.lt_of_succ_lt h)
    · rfl

/-- The nodes that wait on the stack are nodes of the tree. -/
theorem setDepthFrom_eq {len : ℕ} (hbound : bound ≤ pool.length) (hsmall : bound ≤ 2 ^ 31)
    (hlen : len ≤ depth.length) (hlen31 : len ≤ 2 ^ 31)
    (hmax : maxDepth < 16) (hlevel : level ≤ maxDepth) (hp : Visits pool bound len p)
    (hstack : stack.length = 16)
    (hwaiting : ∀ k, stack.getD k (-1) = -1 ∨ ∃ q : ℕ, stack.getD k (-1) = q ∧
      Visits pool bound len q) (fuel : ℕ) :
    setDepthFrom pool maxDepth fuel p level stack depth =
    Compressor.setDepthFrom pool maxDepth fuel p level stack depth := by
  induction fuel generalizing p level stack depth with
  | zero => rfl
  | succ fuel ih =>
    obtain ⟨t, hshape, hvalues⟩ := hp
    have hp := hshape.lt
    rw [setDepthFrom, Compressor.setDepthFrom, node_eq (hp.trans_le hbound), Option.bind_eq_bind,
      Option.bind_some]
    dsimp only
    cases t with
    | leaf w v =>
      have hv := hvalues v List.mem_cons_self
      have hnode : nodeAt pool p = .ofSymbol w v := hshape.2
      have hleft : ¬(0 : ℤ) ≤ (nodeAt pool p).indexLeft := by
        rw [hnode]
        show ¬(0 : ℤ) ≤ -1
        decide
      have hvalue : asUsize (nodeAt pool p).indexRightOrValue = v := by
        rw [hnode]
        exact asUsize_natCast (hv.trans_le hlen31)
      rw [if_neg hleft, if_neg hleft, hvalue, if_pos (hv.trans_le hlen), popLevel_eq (by omega),
        Option.bind_eq_bind,
        Option.bind_some]
      cases hpop : Compressor.popLevel stack level with
      | none => rfl
      | some top =>
        obtain ⟨htop, hne⟩ := popLevel_le hpop
        obtain ⟨q, hq, hvisits⟩ := (hwaiting top).resolve_left hne
        have hq31 : q < 2 ^ 31 := by
          obtain ⟨t, ht, -⟩ := hvisits
          exact ht.lt.trans_le hsmall
        dsimp only
        rw [top_eq (by omega), Option.bind_eq_bind, Option.bind_some, hq, asUsize_natCast hq31]
        refine ih (by rw [List.length_set]; exact hlen) (by omega) hvisits
          (by rw [List.length_set]; exact hstack) fun k => ?_
        rw [getD_set_stack (by omega)]
        split
        · exact .inl rfl
        · exact hwaiting k
    | node l r =>
      obtain ⟨-, a, b, hnode, hl, hr⟩ := hshape
      have ha : asUsize (a : ℤ) = a := asUsize_natCast (hl.lt.trans_le hsmall)
      rw [hnode, if_pos (Int.natCast_nonneg a), if_pos (Int.natCast_nonneg a), ha]
      by_cases hdeep : maxDepth < level + 1
      · rw [if_pos hdeep, if_pos hdeep]
      · rw [if_neg hdeep, if_neg hdeep, if_pos (by omega)]
        refine ih hlen (by omega) ⟨l, hl, fun v hv => hvalues v (List.mem_append_left _ hv)⟩
          (by rw [List.length_set]; exact hstack)
          fun k => ?_
        rw [getD_set_stack (by omega)]
        split
        · exact .inr ⟨b, rfl, r, hr, fun v hv => hvalues v (List.mem_append_right _ hv)⟩
        · exact hwaiting k

theorem setDepth_eq {len : ℕ} (hbound : bound ≤ pool.length) (hsmall : bound ≤ 2 ^ 31)
    (hlen : len ≤ depth.length) (hlen31 : len ≤ 2 ^ 31)
    (hmax : maxDepth < 16) (hp : Visits pool bound len p) :
    setDepth p pool depth maxDepth = Compressor.setDepth p pool depth maxDepth := by
  refine setDepthFrom_eq hbound hsmall hlen hlen31 hmax (Nat.zero_le _) hp List.length_replicate
    (fun k => .inl ?_) _
  rw [List.getD_eq_getElem?_getD, List.getElem?_replicate]
  split <;> rfl

end Checked

/-- The used symbols below `i`, the last one first. -/
def usedSymbols (data : List ℕ) : ℕ → List ℕ
  | 0 => []
  | i + 1 => if data.getD i 0 ≠ 0 then i :: usedSymbols data i else usedSymbols data i

variable {data : List ℕ} {length treeLimit : ℕ}

theorem mem_usedSymbols {v : ℕ} : v ∈ usedSymbols data length ↔ v < length ∧ data.getD v 0 ≠ 0 := by
  induction length with
  | zero => simp [usedSymbols]
  | succ i ih =>
    rw [usedSymbols]
    split
    · next hi =>
      rw [List.mem_cons, ih]
      constructor
      · rintro (rfl | ⟨hlt, hv⟩)
        · exact ⟨Nat.lt_succ_self _, hi⟩
        · exact ⟨Nat.lt_succ_of_lt hlt, hv⟩
      · rintro ⟨hlt, hv⟩
        exact (Nat.lt_succ_iff_lt_or_eq.1 hlt).elim (fun h => .inr ⟨h, hv⟩) .inl
    · next hi =>
      rw [ih]
      refine ⟨fun h => ⟨Nat.lt_succ_of_lt h.1, h.2⟩, fun h => ⟨?_, h.2⟩⟩
      rcases Nat.lt_succ_iff_lt_or_eq.1 h.1 with hlt | rfl
      · exact hlt
      · exact absurd h.2 hi

theorem usedSymbols_nodup (data : List ℕ) (length : ℕ) : (usedSymbols data length).Nodup := by
  induction length with
  | zero => exact .nil
  | succ i ih =>
    rw [usedSymbols]
    split
    · exact List.nodup_cons.2 ⟨fun h => absurd (mem_usedSymbols.1 h).1 (Nat.lt_irrefl i), ih⟩
    · exact ih

theorem usedSymbols_length_le (data : List ℕ) (length : ℕ) :
    (usedSymbols data length).length ≤ length := by
  have :=
    ((usedSymbols_nodup data length).subperm fun v hv =>
    List.mem_range.2 (mem_usedSymbols.1 hv).1).length_le
  rwa [List.length_range] at this

theorem usedLeaves_eq (data : List ℕ) (countLimit length : ℕ) :
    usedLeaves data countLimit length = (usedSymbols data length).map fun i =>
    .ofSymbol (max (data.getD i 0) countLimit) (asI16 i) := by
  induction length with
  | zero => rfl
  | succ i ih =>
    rw [usedLeaves, usedSymbols]
    split
    · rw [List.map_cons, ih]
    · exact ih

/-- The raised counts are at most the counts and the limit for each symbol. -/
theorem sum_raised_le (data : List ℕ) (countLimit length : ℕ) :
    ((usedSymbols data length).map fun i => max (data.getD i 0) countLimit).sum ≤
      (data.take length).sum + (usedSymbols data length).length * countLimit := by
  induction length with
  | zero => simp [usedSymbols]
  | succ i ih =>
    have htake : (data.take (i + 1)).sum = (data.take i).sum + data.getD i 0 := by
      rw [List.take_add_one, List.sum_append, List.getD_eq_getElem?_getD]
      cases data[i]? <;> simp
    rw [usedSymbols, htake]
    split
    · rw [List.map_cons, List.sum_cons, List.length_cons, Nat.succ_mul]
      omega
    · omega

/-- The code of a histogram: a depth in range for each used symbol, and nothing else
written. -/
structure PrefixCoded (data : List ℕ) (length treeLimit : ℕ) (depth depth' : List ℕ) : Prop where
  length_eq : depth'.length = depth.length
  used : ∀ v < length, data.getD v 0 ≠ 0 → 1 ≤ depth'.getD v 0 ∧ depth'.getD v 0 ≤ treeLimit
  unused : ∀ v, (v < length → data.getD v 0 = 0) → depth'.getD v 0 = depth.getD v 0

/-- The counts, raised to the limit, and the used symbols they belong to. -/
def raisedLeaves (data : List ℕ) (countLimit length : ℕ) : List (ℕ × ℕ) :=
  (usedSymbols data length).map fun i => (max (data.getD i 0) countLimit, i)

theorem asI16_symbol (hlength : length < 2 ^ 14) {i : ℕ} (hi : i ∈ usedSymbols data length) :
    asI16 i = i := by
  have hlt := (mem_usedSymbols.1 hi).1
  exact asI16_eq (hlt.trans (hlength.trans (by decide)))

theorem usedLeaves_raised (countLimit : ℕ) (hlength : length < 2 ^ 14) :
    usedLeaves data countLimit length = (raisedLeaves data countLimit length).map fun p =>
    .ofSymbol p.1 p.2 := by
  rw [usedLeaves_eq, raisedLeaves, List.map_map]
  apply List.map_congr_left
  intro i hi
  rw [asI16_symbol hlength hi]
  rfl

theorem map_snd_raisedLeaves (countLimit : ℕ) :
    (raisedLeaves data countLimit length).map Prod.snd = usedSymbols data length := by
  rw [raisedLeaves, List.map_map]
  exact List.map_id _

/-- The pairs of sorted nodes are the sorted pairs. -/
theorem sortItems_pairs {l : List (ℕ × ℕ)} (b : Bool) :
    ∃ l' : List (ℕ × ℕ), l'.Perm l ∧ (l'.Pairwise fun p q => p.1 ≤ q.1) ∧
      sortItems b (l.map fun p => .ofSymbol p.1 p.2) = l'.map fun p => .ofSymbol p.1 p.2 := by
  obtain ⟨hperm, hsorted⟩ := sortItems_sorted b (l.map fun p => .ofSymbol p.1 p.2)
  set items := sortItems b (l.map fun p => .ofSymbol p.1 p.2)
  have hitem : ∀ u ∈ items, HuffmanNode.ofSymbol u.totalCount (u.indexRightOrValue.toNat : ℤ) =
      u := by
    intro u hu
    obtain ⟨p, -, rfl⟩ := List.mem_map.1 (hperm.subset hu)
    show HuffmanNode.ofSymbol p.1 ((p.2 : ℤ).toNat : ℤ) = .ofSymbol p.1 p.2
    rw [Int.toNat_natCast]
  refine ⟨items.map fun u => (u.totalCount, u.indexRightOrValue.toNat), ?_,
    List.pairwise_map.2 hsorted, ?_⟩
  · have hback := hperm.map fun u => (u.totalCount, u.indexRightOrValue.toNat)
    rw [List.map_map] at hback
    exact hback.trans (List.Perm.of_eq (List.map_id l))
  · rw [List.map_map]
    conv_lhs => rw [← List.map_id items]
    exact List.map_congr_left fun u hu => (hitem u hu).symm

/-- One attempt builds a heavy tree of the used symbols. -/
theorem attempt_shape {countLimit : ℕ} (htwo : 2 ≤ (usedSymbols data length).length)
    (hlength : length < 2 ^ 14)
    (hpool : 2 * (usedSymbols data length).length < tree.length)
    (hsum : (data.take length).sum + (usedSymbols data length).length * countLimit < 2 ^ 32 - 1) :
    let n := (usedSymbols data length).length
    let items := sortItems tie (usedLeaves data countLimit length) ++ tree.drop n
    ∃ t, Shape (mergeNodes items n) (2 * n) (2 * n - 1) t ∧ t.Heavy countLimit ∧
      t.values.Perm (usedSymbols data length) ∧
      t.weight ≤ (data.take length).sum + n * countLimit ∧ Checked.mergeNodes items n =
      some (mergeNodes items n) := by
  intro n items
  obtain ⟨leaves, hperm, hsorted, hitems⟩ :=
    sortItems_pairs (l := raisedLeaves data countLimit length) tie
  have hlen : leaves.length = n := by rw [hperm.length_eq, raisedLeaves, List.length_map]
  have hn : n ≤ length := usedSymbols_length_le data length
  have hvalues : (leaves.map Prod.snd).Perm (usedSymbols data length) :=
    map_snd_raisedLeaves countLimit ▸ hperm.map Prod.snd
  have hweight : (leaves.map Prod.fst).sum ≤ (data.take length).sum + n * countLimit := by
    refine ((hperm.map Prod.fst).sum_eq).trans_le ?_
    rw [raisedLeaves, List.map_map]
    exact sum_raised_le data countLimit length
  have hheavy : ∀ p ∈ leaves, countLimit ≤ p.1 := by
    intro p hp
    obtain ⟨i, -, rfl⟩ := List.mem_map.1 (hperm.subset hp)
    exact Nat.le_max_right _ _
  have hitemsEq : items = (leaves.map fun p => .ofSymbol p.1 p.2) ++ tree.drop leaves.length := by
    rw [← hitems, ← usedLeaves_raised countLimit hlength, hlen]
  rw [hitemsEq, ← hlen]
  have hread : ∀ m p, leaves[m]? = some p →
      nodeAt ((leaves.map fun p => .ofSymbol p.1 p.2) ++ tree.drop leaves.length) m =
      .ofSymbol p.1 p.2 := by
    intro m p hm
    have hlt : m < (leaves.map fun p => HuffmanNode.ofSymbol p.1 p.2).length := by
      rw [List.length_map]
      exact (List.getElem?_eq_some_iff.1 hm).1
    rw [nodeAt, List.getD_eq_getElem?_getD, List.getElem?_append_left hlt, List.getElem?_map, hm,
      Option.map_some, Option.getD_some]
  have hroom : 2 * leaves.length <
      ((leaves.map fun p => HuffmanNode.ofSymbol p.1 p.2) ++ tree.drop leaves.length).length := by
    rw [List.length_append, List.length_map, List.length_drop]
    omega
  obtain ⟨t, hshape, hh, hv, hw, hrun⟩ :=
    mergeNodes_shape (by omega) hsorted hheavy (by omega) hroom hread (hweight.trans_lt hsum)
  exact ⟨t, hshape, hh, hv.trans hvalues, hw.trans_le (hlen.symm ▸ hweight), hrun⟩

/-- The depths of a walk of a tree of the used symbols are a code. -/
theorem coded_walk {t : WeightedTree ℕ} (hvalues : t.values.Perm (usedSymbols data length))
    (htwo : 2 ≤ (usedSymbols data length).length)
    (hfit : t.height ≤ treeLimit) (hlimit : treeLimit < 16) (hdepth : length ≤ depth.length) :
    PrefixCoded data length treeLimit depth (writeDepths (t.depths 0) depth) := by
  have hfst := WeightedTree.map_fst_depths 0 t
  refine ⟨writeDepths_length _ _, fun v hv hused => ?_,
    fun v hunused => writeDepths_other fun hm => ?_⟩
  · have hmem : v ∈ (t.depths 0).map Prod.fst :=
      hfst ▸ hvalues.symm.subset (mem_usedSymbols.2 ⟨hv, hused⟩)
    obtain ⟨q, hq, rfl⟩ := List.mem_map.1 hmem
    have hrange := WeightedTree.depths_range hq
    have hpos : 1 ≤ q.2 := by
      cases t with
      | leaf w u =>
        rw [← hvalues.length_eq] at htwo
        exact absurd htwo (by simp [WeightedTree.values])
      | node l r =>
        rw [WeightedTree.depths, List.mem_append] at hq
        exact hq.elim (fun h => (WeightedTree.depths_range h).1) fun h =>
          (WeightedTree.depths_range h).1
    have hnodup : ((t.depths 0).map Prod.fst).Nodup :=
      hfst ▸ hvalues.symm.nodup (usedSymbols_nodup data length)
    rw [writeDepths_mem hnodup hq (hv.trans_le hdepth) (by omega)]
    omega
  · have hv := mem_usedSymbols.1 (hvalues.subset (hfst ▸ hm))
    exact hv.2 (hunused hv.1)

/-- What failed attempts wrote is written again. -/
theorem PrefixCoded.of_wrote {t : WeightedTree ℕ} {depth₁ depth₂ : List ℕ}
    (h : PrefixCoded data length treeLimit depth₁ depth₂)
    (hwrote : Wrote t depth depth₁) (hvalues : t.values.Perm (usedSymbols data length)) :
    PrefixCoded data length treeLimit depth depth₂ := by
  refine ⟨h.length_eq.trans hwrote.length, h.used,
    fun v hunused => (h.unused v hunused).trans (hwrote.other v fun hm => ?_)⟩
  have hv := mem_usedSymbols.1 (hvalues.subset hm)
  exact hv.2 (hunused hv.1)

end Mbrotli.Compressor
