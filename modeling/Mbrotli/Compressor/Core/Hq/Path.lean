/-
# The forward pass keeps the nodes true

`Path` is a way through a block whose commands are true matches, with the distances
remembered along it. `Forward` is what the pricing loops keep: every node is a stub or
arrives from the end of a path, evaluated positions hold the distances of their paths,
and so do the queued starts. Only nodes past the evaluated positions are written, so
the paths that end before them stay.
-/
import Mbrotli.Compressor.Core.Hq.Zopfli
import Mbrotli.Compressor.Core.Reference

namespace Mbrotli.Compressor

/-! ### Paths -/

section

variable (env : Env) (limit : ℕ) (context : ℕ → ℕ) (input : List UInt8) (base : ℕ)

/-- The node's command starts at `s` of the block and ends at `q`: a true match, coded
against the distances remembered at `s`. -/
structure Arrives (node : ZopfliNode) (s q : ℕ) (cache : Fin 4 → ℤ) : Prop where
  tiles : s + node.insertLength + node.copyLength = q
  trueMatch : TrueMatch env limit context input (base + (s + node.insertLength)) node.copyLength
    node.lengthCode
    node.copyDistance
  spells : Spells cache node.copyDistance node.distanceCode

/-- The distances remembered after the node's command. -/
def after (cache : Fin 4 → ℤ) (s : ℕ) (node : ZopfliNode) : Fin 4 → ℤ :=
  if node.copyDistance ≤ min (base + (s + node.insertLength)) limit + env.prefixLen ∧
    node.distanceCode ≠ 0 then
    remember cache node.copyDistance
  else cache

/-- A way through the nodes, with the distances remembered at its end. -/
inductive Path (nodes : Nodes) (starting : Fin 4 → ℤ) : ℕ → (Fin 4 → ℤ) → Prop where
  | start : Path nodes starting 0 starting
  | step {s q : ℕ} {cache : Fin 4 → ℤ} (path : Path nodes starting s cache)
      (arrives : Arrives env limit context input base (nodes q) s q cache) :
      Path nodes starting q (after env limit base cache s (nodes q))

variable {env limit context input base}
variable {nodes nodes' : Nodes} {starting cache : Fin 4 → ℤ} {s q : ℕ} {node node' : ZopfliNode}

theorem Arrives.lt (h : Arrives env limit context input base node s q cache) : s < q := by
  have := h.tiles
  have := h.trueMatch.pos
  omega

/-- The start of a command is found from its end. -/
theorem Arrives.start_eq (h : Arrives env limit context input base node s q cache) :
    q - node.copyLength - node.insertLength = s := by
  have := h.tiles
  omega

theorem Arrives.congr (h : Arrives env limit context input base node s q cache)
    (hn : node.SameCommand node') :
    Arrives env limit context input base node' s q cache := by
  obtain ⟨h1, h2, h3, h4, h5⟩ := hn.accessors
  obtain ⟨t1, t2, t3⟩ := h
  rw [h1, h5] at t1
  rw [h1, h2, h3, h5] at t2
  rw [h3, h4] at t3
  exact ⟨t1, t2, t3⟩

theorem after_congr (cache : Fin 4 → ℤ) (s : ℕ) (hn : node.SameCommand node') :
    after env limit base cache s node = after env limit base cache s node' := by
  obtain ⟨-, -, h3, h4, h5⟩ := hn.accessors
  rw [after, after, h3, h4, h5]

/-- A path depends on the commands of the nodes up to its end only. -/
theorem Path.congr (h : Path env limit context input base nodes starting q cache)
    (hn : ∀ j ≤ q, (nodes j).SameCommand (nodes' j)) :
    Path env limit context input base nodes' starting q cache := by
  induction h with
  | start => exact .start
  | @step s q cache path arrives ih =>
    rw [after_congr cache s (hn q (le_refl _))]
    exact .step (ih fun j hj => hn j (hj.trans arrives.lt.le)) (arrives.congr (hn q (le_refl _)))

theorem ZopfliNode.SameCommand.refl (n : ZopfliNode) : n.SameCommand n := ⟨rfl, rfl, rfl⟩

/-- Nodes from `i` on are nothing to paths that end before. -/
theorem Path.update (h : Path env limit context input base nodes starting s cache) (hs : s < q)
    (node : ZopfliNode) :
    Path env limit context input base (Function.update nodes q node) starting s cache := by
  refine h.congr fun j hj => ?_
  rw [Function.update_of_ne (by omega)]
  exact .refl _

theorem Path.of_update
    (h : Path env limit context input base (Function.update nodes q node) starting s cache)
    (hs : s < q) : Path env limit context input base nodes starting s cache := by
  refine h.congr fun j hj => ?_
  rw [Function.update_of_ne (by omega)]
  exact .refl _

/-- The distances of a path are the decoder's kind of distances. -/
theorem Path.bounded (h : Path env limit context input base nodes starting q cache)
    (hb : ∀ i, 0 ≤ starting i ∧ starting i < 2 ^ 31) : ∀ i, 0 ≤ cache i ∧ cache i < 2 ^ 31 := by
  induction h with
  | start => exact hb
  | @step s q cache path arrives ih =>
    intro i
    rw [after]
    by_cases hr : (nodes q).copyDistance ≤ min (base + (s + (nodes q).insertLength)) limit +
      env.prefixLen ∧
        (nodes q).distanceCode ≠ 0
    · rw [if_pos hr]
      have hnarrow := arrives.trueMatch.narrow
      match i with
      | 0 => exact ⟨Int.natCast_nonneg _, by show ((nodes q).copyDistance : ℤ) < _; omega⟩
      | 1 => exact ih 0
      | 2 => exact ih 1
      | 3 => exact ih 2
    · rw [if_neg hr]
      exact ih i

end

/-! ### The remembered distances -/

/-- What the shortcuts reach depends on the nodes before `i` only. -/
theorem fillDistances_congr {nodes nodes' : Nodes} (starting : Fin 4 → ℤ) {i : ℕ}
    (hn : ∀ j < i, nodes j = nodes' j)
    (hb : ∀ j < i, (nodes j).shortcut ≤ j) (n : ℕ) {p : ℕ} (hp : p < i) :
    fillDistances starting nodes n p = fillDistances starting nodes' n p := by
  induction n generalizing p with
  | zero => rfl
  | succ n ih =>
    rw [fillDistances, fillDistances]
    by_cases h0 : 0 < p
    · have hprev : p - (nodes p).copyLength - (nodes p).insertLength < i := by omega
      rw [if_pos h0, if_pos h0]
      simp only []
      rw [← hn p hp, ← hn _ hprev, ih ((hb _ hprev).trans_lt hprev)]
    · rw [if_neg h0, if_neg h0]

theorem computeDistanceCache_congr {nodes nodes' : Nodes} (starting : Fin 4 → ℤ) {i q : ℕ}
    (hn : ∀ j < i, nodes j = nodes' j) (hb : ∀ j < i, (nodes j).shortcut ≤ j) (hq : q < i) :
    computeDistanceCache q starting nodes = computeDistanceCache q starting nodes' := by
  have hshort := hb q hq
  unfold computeDistanceCache
  rw [← hn q hq, fillDistances_congr starting hn hb 4 (by omega)]

/-- Filling fewer slots fills the first ones. -/
theorem fillDistances_take (starting : Fin 4 → ℤ) (nodes : Nodes) (n p : ℕ) (hn : n ≤ 3) :
    (fillDistances starting nodes (n + 1) p).take n = fillDistances starting nodes n p := by
  induction n generalizing p with
  | zero => rfl
  | succ n ih =>
    rw [fillDistances, fillDistances]
    by_cases h0 : 0 < p
    · rw [if_pos h0, if_pos h0]
      simp only [List.take_succ_cons]
      rw [ih _ (by omega)]
    · rw [if_neg h0, if_neg h0, List.take_take, Nat.min_eq_left (by omega)]

theorem fillDistances_length (starting : Fin 4 → ℤ) (nodes : Nodes) (n p : ℕ) (hn : n ≤ 4) :
    (fillDistances starting nodes n p).length = n := by
  induction n generalizing p with
  | zero => rfl
  | succ n ih =>
    rw [fillDistances]
    split
    · rw [List.length_cons, ih _ (by omega)]
    · rw [List.length_take, List.length_ofFn]
      omega

/-! ### The forward pass -/

section

variable (env : Env) (limit : ℕ) (context : ℕ → ℕ) (input : List UInt8) (base : ℕ)
    (starting : Fin 4 → ℤ)

/-- A queued start: an evaluated position that ends a path, with the path's distances. -/
def Queued (i : ℕ) (nodes : Nodes) (e : PosData) : Prop :=
  e.pos < i ∧ Path env limit context input base nodes starting e.pos e.distanceCache

/-- What the forward pass keeps, with the positions before `i` evaluated. -/
structure Forward (i : ℕ) (queue : StartPosQueue) (nodes : Nodes) : Prop where
  first : (nodes 0).length = 0 ∧ (nodes 0).dcodeInsertLength = 0
  later : ∀ q, 0 < q → (nodes q).SameCommand {} ∧ (i ≤ q → (nodes q).cost = infinity) ∨
    ∃ s cache, s < i ∧ Path env limit context input base nodes starting s cache ∧
      Arrives env limit context input base (nodes q) s q cache
  bounded : ∀ q < i, (nodes q).shortcut ≤ q
  caches : ∀ q < i, ∀ cache, Path env limit context input base nodes starting q cache →
    computeDistanceCache q starting nodes = cache
  queued : queue.All (Queued env limit context input base starting i nodes)

variable {env limit context input base starting}
variable {nodes : Nodes} {cache : Fin 4 → ℤ} {s q i : ℕ} {node : ZopfliNode} {queue : StartPosQueue}

theorem forward_start (starting : Fin 4 → ℤ) :
    Forward env limit context input base starting 0 {} stubNodes := by
  refine ⟨⟨rfl, rfl⟩, ?_, ?_, ?_, ?_⟩
  · intro q hq
    have hstub : stubNodes q = {} := Function.update_of_ne (by omega) _ _
    rw [hstub]
    exact .inl ⟨.refl _, fun _ => rfl⟩
  · intro q hq
    exact absurd hq (Nat.not_lt_zero q)
  · intro q hq
    exact absurd hq (Nat.not_lt_zero q)
  · intro k hk
    exact absurd hk (Nat.not_lt_zero k)

/-- **A true command may be recorded anywhere ahead.** -/
theorem Forward.record (h : Forward env limit context input base starting i queue nodes)
    (hs : s < i) (hq : i ≤ q)
    (hpath : Path env limit context input base nodes starting s cache)
    (harr : Arrives env limit context input base node s q cache) :
    Forward env limit context input base starting i queue (Function.update nodes q node) := by
  have hagree : ∀ j < i, nodes j = Function.update nodes q node j :=
    fun j hj => (Function.update_of_ne (by omega) _ _).symm
  refine ⟨?_, ?_, ?_, ?_, ?_⟩
  · rw [← hagree 0 (by omega)]
    exact h.first
  · intro p hp
    by_cases hpq : p = q
    · subst hpq
      rw [Function.update_self]
      exact .inr ⟨s, cache, hs, hpath.update (by omega) _, harr⟩
    · rw [Function.update_of_ne hpq]
      rcases h.later p hp with hstub | ⟨s', cache', hs', hpath', harr'⟩
      · exact .inl hstub
      · exact .inr ⟨s', cache', hs', hpath'.update (by omega) _, harr'⟩
  · intro p hp
    rw [← hagree p hp]
    exact h.bounded p hp
  · intro p hp cache' hpath'
    rw [← computeDistanceCache_congr starting hagree h.bounded hp]
    exact h.caches p hp cache' (hpath'.of_update (by omega))
  · intro k hk
    obtain ⟨h1, h2⟩ := h.queued k hk
    exact ⟨h1, h2.update (by omega) _⟩

/-- The shortcut test is the decoder's: the distance is remembered. -/
theorem remembered_iff {blockStart gap : ℕ} (hgap : gap = env.prefixLen)
    (hwrap : blockStart = base ∨ (limit ≤ blockStart ∧ limit ≤ base))
    (harr : Arrives env limit context input base node s q cache) :
    (node.copyDistance + node.copyLength ≤ blockStart + q + gap ∧ node.copyDistance ≤ limit + gap ∧
      0 < node.distanceCode) ↔
      (node.copyDistance ≤ min (base + (s + node.insertLength)) limit + env.prefixLen ∧
        node.distanceCode ≠ 0) := by
  have := harr.tiles
  omega

/-- The distances a node's command leaves are those its shortcut leads to. -/
theorem computeDistanceCache_evaluated {blockStart gap : ℕ} (hgap : gap = env.prefixLen)
    (hwrap : blockStart = base ∨ (limit ≤ blockStart ∧ limit ≤ base))
    (h : Forward env limit context input base starting i queue nodes)
    (hpath : Path env limit context input base nodes starting i cache) :
    computeDistanceCache i starting (Function.update nodes i
      ((nodes i).setShortcut (computeDistanceShortcut blockStart i limit gap nodes))) = cache := by
  set nodes' := Function.update nodes i
    ((nodes i).setShortcut (computeDistanceShortcut blockStart i limit gap nodes)) with hnodes
  have hagree : ∀ j < i, nodes j = nodes' j :=
    fun j hj => (Function.update_of_ne (by omega) _ _).symm
  have hself : nodes' i = (nodes i).setShortcut
      (computeDistanceShortcut blockStart i limit gap nodes) :=
    Function.update_self _ _ _
  have hfill : ∀ n p, p < i → fillDistances starting nodes n p =
      fillDistances starting nodes' n p :=
    fun n p hp => fillDistances_congr starting hagree h.bounded n hp
  unfold computeDistanceCache
  rw [hself]
  show (fun j : Fin 4 =>
    (fillDistances starting nodes' 4 (computeDistanceShortcut blockStart i limit gap nodes)).getD j
    0) = cache
  cases hpath with
  | start =>
    have hzero : computeDistanceShortcut blockStart 0 limit gap nodes = 0 := by
      unfold computeDistanceShortcut
      exact if_pos rfl
    rw [hzero]
    funext j
    match j with
    | 0 => rfl
    | 1 => rfl
    | 2 => rfl
    | 3 => rfl
  | @step s _ cache path arrives =>
    have hlt := arrives.lt
    have hprev : i - (nodes i).copyLength - (nodes i).insertLength = s := arrives.start_eq
    have hs := h.caches s hlt cache path
    have hsb := h.bounded s hlt
    unfold computeDistanceCache at hs
    have hiff := remembered_iff hgap hwrap arrives
    by_cases hr : (nodes i).copyDistance ≤ min (base + (s + (nodes i).insertLength)) limit +
      env.prefixLen ∧
        (nodes i).distanceCode ≠ 0
    · have hcut : computeDistanceShortcut blockStart i limit gap nodes = i := by
        unfold computeDistanceShortcut
        rw [if_neg (by omega), if_pos (hiff.2 hr)]
      have hi : nodes' i = (nodes i).setShortcut i := by rw [hself, hcut]
      have hthree : fillDistances starting nodes' 4 i =
          ((nodes i).copyDistance : ℤ) ::
          (fillDistances starting nodes 4 (nodes s).shortcut).take 3 := by
        rw [fillDistances, if_pos (by omega), hi]
        show asI32 (nodes i).copyDistance :: fillDistances starting nodes' 3
          (nodes' (i - (nodes i).copyLength - (nodes i).insertLength)).shortcut = _
        rw [hprev, ← hagree s hlt, ← hfill 3 _ (by omega), fillDistances_take _ _ _ _ (le_refl 3),
          asI32_eq arrives.trueMatch.narrow]
      have hlen := fillDistances_length starting nodes 4 (nodes s).shortcut (le_refl 4)
      rw [hcut, hthree, after, if_pos hr, ← hs]
      generalize fillDistances starting nodes 4 (nodes s).shortcut = l at hlen
      obtain ⟨a, b, c, d, rfl⟩ := List.length_eq_four.mp hlen
      funext j
      match j with
      | 0 => rfl
      | 1 => rfl
      | 2 => rfl
      | 3 => rfl
    · have hcut : computeDistanceShortcut blockStart i limit gap nodes = (nodes s).shortcut := by
        unfold computeDistanceShortcut
        rw [if_neg (by omega), if_neg (mt hiff.1 hr), hprev]
      rw [hcut, after, if_neg hr, ← hfill 4 _ (by omega)]
      exact hs

/-- **Evaluating a position keeps the pass sound.** -/
theorem Forward.evaluate {blockStart gap : ℕ} (model : CostModel) (hgap : gap = env.prefixLen)
    (hwrap : blockStart = base ∨ (limit ≤ blockStart ∧ limit ≤ base))
    (hmodel : model.le infinity (model.literalCosts 0 i) = false)
    (h : Forward env limit context input base starting i queue nodes) :
    let r := evaluateNode blockStart i limit gap starting model queue nodes
    Forward env limit context input base starting (i + 1) r.1 r.2 := by
  set nodes' := Function.update nodes i
    ((nodes i).setShortcut (computeDistanceShortcut blockStart i limit gap nodes)) with hnodes
  have hsame : ∀ j, (nodes j).SameCommand (nodes' j) := by
    intro j
    by_cases hj : j = i
    · subst hj
      rw [hnodes, Function.update_self]
      exact ⟨rfl, rfl, rfl⟩
    · rw [hnodes, Function.update_of_ne hj]
      exact .refl _
  have hpaths : ∀ {q cache}, Path env limit context input base nodes starting q cache →
      Path env limit context input base nodes' starting q cache :=
      fun hp => hp.congr fun j _ => hsame j
  have hpaths' : ∀ {q cache}, Path env limit context input base nodes' starting q cache →
      Path env limit context input base nodes starting q cache :=
    fun hp => hp.congr fun j _ => ⟨(hsame j).1.symm, (hsame j).2.1.symm, (hsame j).2.2.symm⟩
  have hagree : ∀ j < i, nodes j = nodes' j :=
    fun j hj => (Function.update_of_ne (by omega) _ _).symm
  have hcaches : ∀ q < i + 1, ∀ cache, Path env limit context input base nodes' starting q cache →
      computeDistanceCache q starting nodes' = cache := by
    intro q hq cache hpath
    by_cases hqi : q = i
    · subst hqi
      exact computeDistanceCache_evaluated hgap hwrap h (hpaths' hpath)
    · rw [← computeDistanceCache_congr starting hagree h.bounded (by omega : q < i)]
      exact h.caches q (by omega) cache (hpaths' hpath)
  have hcut : computeDistanceShortcut blockStart i limit gap nodes ≤ i := by
    unfold computeDistanceShortcut
    by_cases h0 : i = 0
    · rw [if_pos h0]
      omega
    rw [if_neg h0]
    split
    · exact le_refl i
    · have hpos : 0 < (nodes i).copyLength := by
        rcases h.later i (by omega) with ⟨hstub, -⟩ | ⟨s, cache, -, -, harr⟩
        · rw [hstub.accessors.1]
          decide
        · exact harr.trueMatch.pos
      have := h.bounded (i - (nodes i).copyLength - (nodes i).insertLength) (by omega)
      omega
  have hbounded : ∀ q < i + 1, (nodes' q).shortcut ≤ q := by
    intro q hq
    by_cases hqi : q = i
    · subst hqi
      rw [hnodes, Function.update_self]
      exact hcut
    · rw [← hagree q (by omega)]
      exact h.bounded q (by omega)
  have hlater : ∀ q, 0 < q → (nodes' q).SameCommand {} ∧ (i + 1 ≤ q → (nodes' q).cost = infinity) ∨
      ∃ s cache, s < i + 1 ∧ Path env limit context input base nodes' starting s cache ∧
        Arrives env limit context input base (nodes' q) s q cache := by
    intro q hq
    rcases h.later q hq with ⟨hstub, hinf⟩ | ⟨s, cache, hs, hpath, harr⟩
    · refine .inl ⟨⟨(hsame q).1.symm.trans hstub.1, (hsame q).2.1.symm.trans hstub.2.1,
        (hsame q).2.2.symm.trans hstub.2.2⟩, fun hiq => ?_⟩
      rw [hnodes, Function.update_of_ne (by omega)]
      exact hinf (by omega)
    · exact .inr ⟨s, cache, by omega, hpaths hpath, harr.congr (hsame q)⟩
  have hfirst : (nodes' 0).length = 0 ∧ (nodes' 0).dcodeInsertLength = 0 :=
    ⟨(hsame 0).1.symm.trans h.first.1, (hsame 0).2.2.symm.trans h.first.2⟩
  have hqueued : queue.All (Queued env limit context input base starting (i + 1) nodes') := by
    intro k hk
    obtain ⟨h1, h2⟩ := h.queued k hk
    exact ⟨by omega, hpaths h2⟩
  intro r
  by_cases hcheap : model.le (nodes i).cost (model.literalCosts 0 i)
  swap
  · have hr : r = (queue, nodes') := if_neg hcheap
    rw [hr]
    exact ⟨hfirst, hlater, hbounded, hcaches, hqueued⟩
  -- A stub costs too much to be queued, so the position ends a path.
  have hpath : ∃ cache, Path env limit context input base nodes starting i cache := by
    by_cases h0 : i = 0
    · subst h0
      exact ⟨starting, .start⟩
    · rcases h.later i (by omega) with ⟨-, hinf⟩ | ⟨s, cache, -, hpath, harr⟩
      · rw [hinf (le_refl i), hmodel] at hcheap
        exact absurd hcheap (by decide)
      · exact ⟨_, .step hpath harr⟩
  obtain ⟨cache, hpath⟩ := hpath
  have hr : r = (queue.push model {
      pos := i
      distanceCache := computeDistanceCache i starting nodes'
      costdiff := model.sub (nodes i).cost (model.literalCosts 0 i)
      cost := (nodes i).cost }, nodes') := if_pos hcheap
  rw [hr]
  refine ⟨hfirst, hlater, hbounded, hcaches,
    StartPosQueue.push_all hqueued ⟨Nat.lt_succ_self i, ?_⟩⟩
  show Path env limit context input base nodes' starting i (computeDistanceCache i starting nodes')
  rw [hcaches i (Nat.lt_succ_self i) cache (hpaths hpath)]
  exact hpaths hpath

end

end Mbrotli.Compressor
