/-
# Merging weighted trees by two queues

Huffman's algorithm over leaves sorted by weight: the two lightest trees are joined until
one is left, the joined trees waiting in a queue of their own. What a queue gives is
always a lightest tree (`takeMin_spec`), so the children of a tree never weigh more than
any tree that waits beside it (`Ready`). Hence the weight of a tree grows with its
height like the Fibonacci numbers (`Heavy.fib_le_weight`).

Key definitions: `WeightedTree`, `takeMin`, `joinMin`, `Heavy`, `Ready`.
Key theorems: `takeMin_spec`, `Ready.join`, `Heavy.fib_le_weight`.
-/
import Mathlib.Data.Nat.Fib.Basic
import Mathlib.Data.List.Perm.Basic
import Mathlib.Tactic.Ring

namespace Mbrotli

inductive WeightedTree (α : Type*) where
  | leaf (weight : ℕ) (value : α)
  | node (left right : WeightedTree α)

namespace WeightedTree

variable {α : Type*}

def weight : WeightedTree α → ℕ
  | leaf w _ => w
  | node l r => weight l + weight r

def height : WeightedTree α → ℕ
  | leaf _ _ => 0
  | node l r => max (height l) (height r) + 1

/-- The values at the leaves, each with its depth below `level`. -/
def depths : ℕ → WeightedTree α → List (α × ℕ)
  | level, leaf _ v => [(v, level)]
  | level, node l r => depths (level + 1) l ++ depths (level + 1) r

def values : WeightedTree α → List α
  | leaf _ v => [v]
  | node l r => values l ++ values r

/-- The number of nodes. -/
def size : WeightedTree α → ℕ
  | leaf _ _ => 1
  | node l r => size l + size r + 1

def children : WeightedTree α → List (WeightedTree α)
  | leaf _ _ => []
  | node l r => [l, r]

variable {t x y z left right : WeightedTree α} {as bs as' bs' : List (WeightedTree α)} {L : ℕ}

theorem size_eq (t : WeightedTree α) : t.size + 1 = 2 * t.values.length := by
  induction t with
  | leaf => rfl
  | node l r ihl ihr =>
    rw [size, values, List.length_append]
    omega

theorem map_fst_depths (level : ℕ) (t : WeightedTree α) :
    (t.depths level).map Prod.fst = t.values := by
  induction t generalizing level with
  | leaf => rfl
  | node l r ihl ihr => rw [depths, List.map_append, ihl, ihr, values]

/-- The depths leave no room for another leaf. -/
theorem kraft_depths {level limit : ℕ} (h : level + t.height ≤ limit) :
    ((t.depths level).map fun p => 2 ^ (limit - p.2)).sum = 2 ^ (limit - level) := by
  induction t generalizing level with
  | leaf w v => simp [depths]
  | node l r ihl ihr =>
    rw [height] at h
    have hhalf : limit - level = limit - (level + 1) + 1 := by omega
    rw [depths, List.map_append, List.sum_append, ihl (by omega), ihr (by omega), hhalf, pow_succ]
    ring

theorem depths_range {level : ℕ} {p : α × ℕ} (h : p ∈ t.depths level) :
    level ≤ p.2 ∧ p.2 ≤ level + t.height := by
  induction t generalizing level with
  | leaf w v =>
    rw [depths, List.mem_singleton] at h
    subst h
    exact ⟨le_refl _, Nat.le_add_right _ _⟩
  | node l r ihl ihr =>
    rw [height]
    rcases List.mem_append.1 h with h | h
    · have := ihl h
      omega
    · have := ihr h
      omega

/-- Every subtree weighs as much as the Fibonacci tree of its height, whose leaves
weigh `L`. -/
def Heavy (L : ℕ) : WeightedTree α → Prop
  | leaf w _ => L ≤ w
  | node l r => Heavy L l ∧ Heavy L r ∧ L * Nat.fib (max l.height r.height + 3) ≤
      l.weight + r.weight

theorem Heavy.fib_le_weight (h : t.Heavy L) : L * Nat.fib (t.height + 2) ≤ t.weight := by
  cases t with
  | leaf w v =>
    have hL : L ≤ w := h
    rw [height, Nat.zero_add, Nat.fib_two, Nat.mul_one]
    exact hL
  | node l r => exact h.2.2

/-- The first tree of either queue that is not heavier than the other's. -/
def takeMin : List (WeightedTree α) → List (WeightedTree α) →
    Option (WeightedTree α × List (WeightedTree α) × List (WeightedTree α))
  | [], [] => none
  | a :: as, [] => some (a, as, [])
  | [], b :: bs => some (b, [], bs)
  | a :: as, b :: bs => if a.weight ≤ b.weight then some (a, as, b :: bs) else some (b, a :: as, bs)

/-- One join: two lightest trees leave the queues and their parent joins the second. -/
def joinMin (as bs : List (WeightedTree α)) :
    Option (List (WeightedTree α) × List (WeightedTree α)) :=
  match takeMin as bs with
  | none => none
  | some (left, as, bs) =>
    match takeMin as bs with
    | none => none
    | some (right, as, bs) => some (as, bs ++ [node left right])

def Sorted (ts : List (WeightedTree α)) : Prop := ts.Pairwise fun x y => x.weight ≤ y.weight

/-- What is taken is a lightest tree of the two queues. -/
structure Taken (as bs : List (WeightedTree α)) (x : WeightedTree α)
    (as' bs' : List (WeightedTree α)) : Prop where
  perm : (x :: (as' ++ bs')).Perm (as ++ bs)
  light : ∀ z ∈ as' ++ bs', x.weight ≤ z.weight
  left : Sorted as'
  right : Sorted bs'
  mem_right : ∀ z ∈ bs', z ∈ bs

theorem takeMin_spec (ha : Sorted as) (hb : Sorted bs) (h : takeMin as bs = some (x, as', bs')) :
    Taken as bs x as' bs' := by
  cases as with
  | nil =>
    cases bs with
    | nil => exact nomatch h
    | cons b bs =>
      rw [takeMin, Option.some.injEq, Prod.mk.injEq, Prod.mk.injEq] at h
      obtain ⟨rfl, rfl, rfl⟩ := h
      obtain ⟨h1, h2⟩ := List.pairwise_cons.1 hb
      exact ⟨.refl _, h1, .nil, h2, fun z hz => List.mem_cons_of_mem _ hz⟩
  | cons a as =>
    obtain ⟨ha1, ha2⟩ := List.pairwise_cons.1 ha
    cases bs with
    | nil =>
      rw [takeMin, Option.some.injEq, Prod.mk.injEq, Prod.mk.injEq] at h
      obtain ⟨rfl, rfl, rfl⟩ := h
      refine ⟨.refl _, fun z hz => ha1 z ?_, ha2, .nil, fun z hz => nomatch hz⟩
      rwa [List.append_nil] at hz
    | cons b bs =>
      obtain ⟨hb1, hb2⟩ := List.pairwise_cons.1 hb
      rw [takeMin] at h
      by_cases hle : a.weight ≤ b.weight
      · rw [if_pos hle, Option.some.injEq, Prod.mk.injEq, Prod.mk.injEq] at h
        obtain ⟨rfl, rfl, rfl⟩ := h
        refine ⟨.refl _, fun z hz => ?_, ha2, hb, fun z hz => hz⟩
        rcases List.mem_append.1 hz with hz | hz
        · exact ha1 z hz
        · rcases List.mem_cons.1 hz with rfl | hz
          · exact hle
          · exact hle.trans (hb1 z hz)
      · rw [if_neg hle, Option.some.injEq, Prod.mk.injEq, Prod.mk.injEq] at h
        obtain ⟨rfl, rfl, rfl⟩ := h
        refine ⟨List.perm_middle.symm, fun z hz => ?_, ha, hb2,
          fun z hz => List.mem_cons_of_mem _ hz⟩
        rcases List.mem_append.1 hz with hz | hz
        · rcases List.mem_cons.1 hz with rfl | hz
          · omega
          · have := ha1 z hz
            omega
        · exact hb1 z hz

theorem takeMin_isSome (h : as ++ bs ≠ []) : ∃ x as' bs', takeMin as bs = some (x, as', bs') := by
  cases as with
  | nil =>
    cases bs with
    | nil => exact absurd rfl h
    | cons b bs => exact ⟨_, _, _, rfl⟩
  | cons a as =>
    cases bs with
    | nil => exact ⟨_, _, _, rfl⟩
    | cons b bs =>
      rw [takeMin]
      split <;> exact ⟨_, _, _, rfl⟩

/-- The two queues between joins. -/
structure Ready (L : ℕ) (as bs : List (WeightedTree α)) : Prop where
  left : Sorted as
  right : Sorted bs
  heavy : ∀ x ∈ as ++ bs, x.Heavy L
  /-- A child left the queues before every tree that waits. -/
  light : ∀ x ∈ as ++ bs, ∀ y ∈ x.children, ∀ z ∈ as ++ bs, y.weight ≤ z.weight
  joined : ∀ x ∈ bs, ∃ l r, x = node l r

/-- The taller of two trees has a child one lower, which the other outweighs. -/
theorem fib_le_join (hx : x.Heavy L) (hy : y.Heavy L) (hle : y.height ≤ x.height)
    (hchild : ∀ c ∈ x.children, c.weight ≤ y.weight) :
    L * Nat.fib (x.height + 3) ≤ x.weight + y.weight := by
  have hfib : Nat.fib (x.height + 3) = Nat.fib (x.height + 1) + Nat.fib (x.height + 2) :=
    Nat.fib_add_two
  have hx' := hx.fib_le_weight
  have hlow : L * Nat.fib (x.height + 1) ≤ y.weight := by
    cases x with
    | leaf w v =>
      rw [height, Nat.zero_add, Nat.fib_one]
      have hy' := hy.fib_le_weight
      rw [height, Nat.le_zero] at hle
      rw [hle, Nat.zero_add, Nat.fib_two] at hy'
      exact hy'
    | node l r =>
      obtain ⟨hl, hr, -⟩ := hx
      have hwl := hchild l List.mem_cons_self
      have hwr := hchild r (List.mem_cons_of_mem _ List.mem_cons_self)
      rw [height]
      rcases Nat.le_total l.height r.height with h | h
      · rw [Nat.max_eq_right h]
        exact hr.fib_le_weight.trans hwr
      · rw [Nat.max_eq_left h]
        exact hl.fib_le_weight.trans hwl
  rw [hfib, Nat.mul_add]
  omega

theorem heavy_node (hl : left.Heavy L) (hr : right.Heavy L)
    (hlr : ∀ c ∈ left.children, c.weight ≤ right.weight)
    (hrl : ∀ c ∈ right.children, c.weight ≤ left.weight) : (node left right).Heavy L := by
  refine ⟨hl, hr, ?_⟩
  rcases Nat.le_total left.height right.height with h | h
  · rw [Nat.max_eq_right h, Nat.add_comm left.weight]
    exact fib_le_join hr hl h hrl
  · rw [Nat.max_eq_left h]
    exact fib_le_join hl hr h hlr

/-- The values and the weight that wait. -/
def totalWeight (ts : List (WeightedTree α)) : ℕ := (ts.map weight).sum

def allValues (ts : List (WeightedTree α)) : List α := ts.flatMap values

theorem weight_le_totalWeight {ts : List (WeightedTree α)} (h : t ∈ ts) :
    t.weight ≤ totalWeight ts := by
  induction ts with
  | nil => exact nomatch h
  | cons s ts ih =>
    rw [totalWeight, List.map_cons, List.sum_cons]
    rcases List.mem_cons.1 h with rfl | h
    · exact Nat.le_add_right _ _
    · have := ih h
      rw [totalWeight] at this
      omega

theorem Taken.subset (h : Taken as bs x as' bs') : ∀ z ∈ as' ++ bs', z ∈ as ++ bs :=
  fun _ hz => h.perm.subset (List.mem_cons_of_mem _ hz)

theorem Taken.mem (h : Taken as bs x as' bs') : x ∈ as ++ bs := h.perm.subset List.mem_cons_self

theorem Taken.length (h : Taken as bs x as' bs') : (as' ++ bs').length + 1 = (as ++ bs).length := by
  rw [← h.perm.length_eq, List.length_cons]

/-- A join keeps the queues ready, and the values and the weight that wait. -/
theorem Ready.join (h : Ready L as bs) (hj : joinMin as bs = some (as', bs')) :
    Ready L as' bs' ∧ (as' ++ bs').length + 1 = (as ++ bs).length ∧
    (allValues (as' ++ bs')).Perm (allValues (as ++ bs)) ∧
      totalWeight (as' ++ bs') = totalWeight (as ++ bs) := by
  rw [joinMin] at hj
  split at hj
  · exact nomatch hj
  next left as1 bs1 h1 =>
  split at hj
  · exact nomatch hj
  next right as2 bs2 h2 =>
  rw [Option.some.injEq, Prod.mk.injEq] at hj
  obtain ⟨rfl, rfl⟩ := hj
  have t1 := takeMin_spec h.left h.right h1
  have t2 := takeMin_spec t1.left t1.right h2
  have hsub : ∀ z ∈ as2 ++ bs2, z ∈ as ++ bs := fun z hz => t1.subset z (t2.subset z hz)
  have hright : right ∈ as ++ bs := t1.subset right t2.mem
  have hlr : left.weight ≤ right.weight := t1.light right t2.mem
  have hmem : ∀ z ∈ as2 ++ (bs2 ++ [node left right]), z ∈ as2 ++ bs2 ∨ z = node left right := by
    intro z hz
    rw [← List.append_assoc] at hz
    exact (List.mem_append.1 hz).imp_right List.mem_singleton.1
  -- a child of a waiting tree is no heavier than the lightest tree, and so than the join
  have hchild : ∀ x ∈ as ++ bs, ∀ y ∈ x.children, y.weight ≤ left.weight :=
    fun x hx y hy => h.light x hx y hy left t1.mem
  have hperm : (left :: right :: (as2 ++ bs2)).Perm (as ++ bs) :=
    (List.Perm.cons left t2.perm).trans t1.perm
  refine ⟨⟨t2.left, ?_, ?_, ?_, ?_⟩, ?_, ?_, ?_⟩
  · refine List.pairwise_append.2 ⟨t2.right, List.pairwise_singleton _ _, fun x hx z hz => ?_⟩
    rw [List.mem_singleton.1 hz]
    have hxbs : x ∈ bs := t1.mem_right x (t2.mem_right x hx)
    obtain ⟨l, r, rfl⟩ := h.joined x hxbs
    have hl := hchild _ (List.mem_append_right _ hxbs) l List.mem_cons_self
    have hr := hchild _ (List.mem_append_right _ hxbs) r (List.mem_cons_of_mem _ List.mem_cons_self)
    rw [weight, weight]
    omega
  · intro z hz
    rcases hmem z hz with hz | rfl
    · exact h.heavy z (hsub z hz)
    · refine heavy_node (h.heavy left t1.mem) (h.heavy right hright) (fun c hc => ?_) fun c hc =>
        hchild right hright c hc
      have := hchild left t1.mem c hc
      omega
  · intro x hx y hy z hz
    have hnode : left.weight + right.weight = (node left right).weight := rfl
    rcases hmem x hx with hx | rfl
    · rcases hmem z hz with hz | rfl
      · exact h.light x (hsub x hx) y hy z (hsub z hz)
      · have := hchild x (hsub x hx) y hy
        omega
    · have hy' : y = left ∨ y = right := by simpa [children] using hy
      rcases hmem z hz with hz | rfl
      · have hz' := t2.light z hz
        rcases hy' with rfl | rfl <;> omega
      · rcases hy' with rfl | rfl <;> omega
  · intro x hx
    rcases List.mem_append.1 hx with hx | hx
    · exact h.joined x (t1.mem_right x (t2.mem_right x hx))
    · exact ⟨left, right, List.mem_singleton.1 hx⟩
  · have := hperm.length_eq
    simp only [List.length_cons, List.length_append, List.length_nil] at this ⊢
    omega
  · have hv : (allValues (left :: right :: (as2 ++ bs2))).Perm (allValues (as ++ bs)) :=
      hperm.flatMap_right _
    refine List.Perm.trans ?_ hv
    rw [← List.append_assoc]
    show (allValues ((as2 ++ bs2) ++ [node left right])).Perm _
    simp only [allValues, List.flatMap_append, List.flatMap_cons, List.flatMap_nil, values,
      List.append_nil]
    rw [← List.append_assoc left.values]
    exact List.perm_append_comm
  · have hw : totalWeight (left :: right :: (as2 ++ bs2)) = totalWeight (as ++ bs) :=
      (hperm.map weight).sum_eq
    rw [← hw]
    simp only [totalWeight, List.map_append, List.map_cons, List.map_nil, List.sum_append,
      List.sum_cons, List.sum_nil, weight]
    omega

theorem joinMin_isSome (h : 2 ≤ (as ++ bs).length) (ha : Sorted as) (hb : Sorted bs) :
    ∃ as' bs', joinMin as bs = some (as', bs') := by
  have hne : as ++ bs ≠ [] := by
    rintro he
    rw [he] at h
    exact absurd h (by simp)
  obtain ⟨x, as1, bs1, h1⟩ := takeMin_isSome hne
  have hlen := (takeMin_spec ha hb h1).length
  have hne1 : as1 ++ bs1 ≠ [] := by
    rintro he
    rw [he, List.length_nil] at hlen
    omega
  obtain ⟨y, as2, bs2, h2⟩ := takeMin_isSome hne1
  refine ⟨as2, bs2 ++ [node x y], ?_⟩
  rw [joinMin, h1]
  dsimp only
  rw [h2]

theorem ready_leaves {leaves : List (ℕ × α)} (hsorted : leaves.Pairwise fun p q => p.1 ≤ q.1)
    (hL : ∀ p ∈ leaves, L ≤ p.1) :
    Ready L (leaves.map fun p => leaf p.1 p.2) [] := by
  have hmem : ∀ x ∈ leaves.map (fun p => leaf p.1 p.2) ++ [], ∃ p ∈ leaves, x = leaf p.1 p.2 := by
    intro x hx
    rw [List.append_nil] at hx
    obtain ⟨p, hp, rfl⟩ := List.mem_map.1 hx
    exact ⟨p, hp, rfl⟩
  refine ⟨List.pairwise_map.2 hsorted, .nil, fun x hx => ?_, fun x hx y hy => ?_,
    fun x hx => nomatch hx⟩
  · obtain ⟨p, hp, rfl⟩ := hmem x hx
    exact hL p hp
  · obtain ⟨p, -, rfl⟩ := hmem x hx
    exact nomatch hy

end WeightedTree
end Mbrotli
