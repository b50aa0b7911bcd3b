/-
# The nodes of the shortest path

One node for each byte of a block: the command that arrives there most cheaply. A
node's last word is its cost while commands are priced, then the position whose
command supplies the next remembered distance, and at last the way to the next node.

Costs are single-precision numbers. Their arithmetic is left open: a cost is the bit
pattern that shares a node's word with the other two, and a `CostModel` brings the
comparisons and the sums.
-/
import Mathlib.Logic.Function.Basic
import Mathlib.Data.Nat.Bitwise
import Mathlib.Tactic.Set
import Mbrotli.Shared.Cast
import Mbrotli.Shared.Distance

namespace Mbrotli.Compressor

/-- The bit pattern of a cost. -/
abbrev Cost := ℕ

/-- `1.7e38`, the stand-in for infinity. -/
def infinity : Cost := 0x7EFFC99E

/-- What commands are priced with. -/
structure CostModel where
  lt : Cost → Cost → Bool
  le : Cost → Cost → Bool
  add : Cost → Cost → Cost
  sub : Cost → Cost → Cost
  ofNat : ℕ → Cost
  literalCosts : ℕ → ℕ → Cost
  minCostCmd : Cost
  distanceCost : ℕ → Cost
  commandCosts : ℕ → Bool → ℕ → Cost

/-- The cheapest known way of reaching one byte of the block. -/
structure ZopfliNode where
  /-- Copy length in the low twenty-five bits, `len + 9 - lenCode` above. -/
  length : ℕ := 1
  distance : ℕ := 0
  /-- Insert length in the low twenty-seven bits, short distance code above. -/
  dcodeInsertLength : ℕ := 0
  payload : ℕ := infinity
  deriving DecidableEq, Repr

/-- The nodes of a block, by position. -/
abbrev Nodes := ℕ → ZopfliNode

namespace ZopfliNode

def copyLength (n : ZopfliNode) : ℕ := n.length % 2 ^ 25

/-- The copy length the decoder reads. -/
def lengthCode (n : ZopfliNode) : ℕ :=
  let modifier := n.length >>> 25
  if 96 ≤ modifier then modifier - 96 else n.copyLength + 9 - modifier

def copyDistance (n : ZopfliNode) : ℕ := n.distance

/-- The distance code the copy is written with: a short code is stored one higher. -/
def distanceCode (n : ZopfliNode) : ℕ :=
  let shortCode := n.dcodeInsertLength >>> 27
  if shortCode = 0 then n.copyDistance + numDistanceShortCodes - 1 else shortCode - 1

def insertLength (n : ZopfliNode) : ℕ := n.dcodeInsertLength % 2 ^ 27

def commandLength (n : ZopfliNode) : ℕ := n.copyLength + n.insertLength

def cost (n : ZopfliNode) : Cost := n.payload

def shortcut (n : ZopfliNode) : ℕ := n.payload

def next (n : ZopfliNode) : ℕ := n.payload

def setCost (n : ZopfliNode) (cost : Cost) : ZopfliNode := { n with payload := cost }

def setShortcut (n : ZopfliNode) (shortcut : ℕ) : ZopfliNode := { n with payload := shortcut }

def setNext (n : ZopfliNode) (next : ℕ) : ZopfliNode := { n with payload := next }

/-- The node of the copy of `len` bytes at `pos` from `dist` back, after the literals
since `startPos`. Modifiers from 96 on spell the length code itself. -/
def record (pos startPos len lenCode dist shortCode : ℕ) (cost : Cost) : ZopfliNode :=
  let modifier := wrappingSub (len + 9) lenCode % 2 ^ 32
  let modifier := if 96 ≤ modifier then 96 + lenCode else modifier
  { length := len % 2 ^ 32 ||| (modifier <<< 25) % 2 ^ 32
    distance := dist % 2 ^ 32
    dcodeInsertLength := (shortCode <<< 27) % 2 ^ 32 ||| (pos - startPos) % 2 ^ 32
    payload := cost }

end ZopfliNode

/-- A candidate command start, with the distances remembered there. -/
structure PosData where
  pos : ℕ := 0
  distanceCache : Fin 4 → ℤ := fun _ => 0
  costdiff : Cost := 0
  cost : Cost := 0

/-- The eight most promising starts, in a ring sorted by cost difference. -/
structure StartPosQueue where
  queue : Fin 8 → PosData := fun _ => {}
  idx : ℕ := 0

namespace StartPosQueue

def clear (q : StartPosQueue) : StartPosQueue := { q with idx := 0 }

def len (q : StartPosQueue) : ℕ := if q.idx < 8 then q.idx else 8

/-- Moves what is cheaper than `posdata` down a slot, `n` entries at most, and puts it
behind them. -/
def shift (model : CostModel) (posdata : PosData) : ℕ → Fin 8 → (Fin 8 → PosData) → Fin 8 → PosData
  | 0, here, queue => Function.update queue here posdata
  | n + 1, here, queue =>
    let next := here + 1
    if model.le posdata.costdiff (queue next).costdiff then Function.update queue here posdata
    else shift model posdata n next (Function.update queue here (queue next))

def push (model : CostModel) (q : StartPosQueue) (posdata : PosData) : StartPosQueue :=
  let start := Fin.ofNat 8 (7 - q.idx % 8)
  let q' : StartPosQueue := { q with idx := q.idx + 1 }
  { q' with queue := shift model posdata (q'.len - 1) start q.queue }

/-- The `k`th cheapest candidate. -/
def get (q : StartPosQueue) (k : ℕ) : PosData := q.queue (Fin.ofNat 8 k - Fin.ofNat 8 q.idx)

end StartPosQueue

/-! ### Reading a node back -/

/-- Two fields packed into a word of thirty-two bits. -/
theorem packed_fields {low high bits : ℕ} (hb : bits ≤ 32) (hlow : low < 2 ^ bits) :
    (low % 2 ^ 32 ||| (high <<< bits) % 2 ^ 32) % 2 ^ bits = low ∧
      (low % 2 ^ 32 ||| (high <<< bits) % 2 ^ 32) >>> bits = high % 2 ^ (32 - bits) := by
  have hshift : (high <<< bits) % 2 ^ 32 = 2 ^ bits * (high % 2 ^ (32 - bits)) := by
    rw [Nat.shiftLeft_eq, mul_comm, ← Nat.mul_mod_mul_left, ← pow_add, Nat.add_sub_cancel' hb]
  have hle : 2 ^ bits ≤ 2 ^ 32 := Nat.pow_le_pow_right (by decide) hb
  rw [hshift, Nat.mod_eq_of_lt (hlow.trans_le hle), Nat.or_comm, ← Nat.two_pow_add_eq_or_of_lt hlow]
  refine ⟨?_, ?_⟩
  · rw [Nat.mul_add_mod, Nat.mod_eq_of_lt hlow]
  · rw [Nat.shiftRight_eq_div_pow, Nat.mul_add_div (Nat.two_pow_pos _),
      Nat.div_eq_of_lt hlow, Nat.add_zero]

namespace ZopfliNode

section

variable {pos startPos len lenCode dist shortCode : ℕ} (cost : Cost)

@[simp] theorem copyLength_record (h : len < 2 ^ 25) :
    (record pos startPos len lenCode dist shortCode cost).copyLength = len :=
  (packed_fields (by decide) h).1

/-- The coded length survives the packing of its modifier in seven bits. -/
theorem lengthCode_record (h : len < 2 ^ 25) (hcode : lenCode = len ∨ lenCode ≤ 31) :
    (record pos startPos len lenCode dist shortCode cost).lengthCode = lenCode := by
  have hcopy : (record pos startPos len lenCode dist shortCode cost).copyLength = len :=
    copyLength_record cost h
  set modifier := if 96 ≤ wrappingSub (len + 9) lenCode % 2 ^ 32 then 96 + lenCode
    else wrappingSub (len + 9) lenCode % 2 ^ 32 with hmod
  have hfield : (record pos startPos len lenCode dist shortCode cost).length >>> 25 =
      modifier % 2 ^ 7 :=
    (packed_fields (by decide) h).2
  have hwrap : (lenCode ≤ len + 9 ∧ wrappingSub (len + 9) lenCode % 2 ^ 32 = len + 9 - lenCode) ∨
      (96 ≤ wrappingSub (len + 9) lenCode % 2 ^ 32 ∧ lenCode ≤ 31) := by
    by_cases hc : lenCode ≤ len + 9
    · rw [wrappingSub_of_le hc]
      exact .inl ⟨hc, by omega⟩
    · rw [wrappingSub_of_lt (not_le.mp hc)]
      exact .inr ⟨by omega, by omega⟩
  rw [lengthCode, hfield, hcopy]
  by_cases hlong : 96 ≤ wrappingSub (len + 9) lenCode % 2 ^ 32
  · rw [hmod, if_pos hlong]
    have hle : lenCode ≤ 31 := by
      rcases hcode with rfl | hle
      · rcases hwrap with hw | hw
        · omega
        · exact hw.2
      · exact hle
    rw [Nat.mod_eq_of_lt (by omega)]
    simp only [if_pos (Nat.le_add_right 96 lenCode), Nat.add_sub_cancel_left]
  · rw [hmod, if_neg hlong]
    rcases hwrap with ⟨h1, h2⟩ | ⟨h1, -⟩
    · rw [h2] at hlong ⊢
      rw [Nat.mod_eq_of_lt (by omega)]
      simp only [if_neg hlong]
      omega
    · exact absurd h1 hlong

theorem dcode_fields (h : pos - startPos < 2 ^ 27) :
    (record pos startPos len lenCode dist shortCode cost).dcodeInsertLength % 2 ^ 27 =
    pos - startPos ∧
      (record pos startPos len lenCode dist shortCode cost).dcodeInsertLength >>> 27 =
      shortCode % 2 ^ 5 := by
  show ((shortCode <<< 27) % 2 ^ 32 ||| (pos - startPos) % 2 ^ 32) % 2 ^ 27 = _ ∧
    ((shortCode <<< 27) % 2 ^ 32 ||| (pos - startPos) % 2 ^ 32) >>> 27 = _
  rw [Nat.or_comm]
  exact packed_fields (by decide) h

@[simp] theorem insertLength_record (h : pos - startPos < 2 ^ 27) :
    (record pos startPos len lenCode dist shortCode cost).insertLength = pos - startPos :=
  (dcode_fields cost h).1

@[simp] theorem copyDistance_record (h : dist < 2 ^ 32) :
    (record pos startPos len lenCode dist shortCode cost).copyDistance = dist :=
  Nat.mod_eq_of_lt h

/-- A recorded short code comes back one lower, and none as the distance spelled out. -/
theorem distanceCode_record (h : pos - startPos < 2 ^ 27) (hd : dist < 2 ^ 32)
    (hs : shortCode ≤ 16) :
    (record pos startPos len lenCode dist shortCode cost).distanceCode =
      if shortCode = 0 then dist + numDistanceShortCodes - 1 else shortCode - 1 := by
  rw [distanceCode, (dcode_fields cost h).2, copyDistance_record cost hd,
    Nat.mod_eq_of_lt (by omega)]

end

/-- The nodes carry the same command. -/
def SameCommand (n n' : ZopfliNode) : Prop :=
  n.length = n'.length ∧ n.distance = n'.distance ∧ n.dcodeInsertLength = n'.dcodeInsertLength

theorem SameCommand.accessors {n n' : ZopfliNode} (h : n.SameCommand n') :
    n.copyLength = n'.copyLength ∧ n.lengthCode = n'.lengthCode ∧ n.copyDistance = n'.copyDistance ∧
      n.distanceCode = n'.distanceCode ∧ n.insertLength = n'.insertLength := by
  obtain ⟨h1, h2, h3⟩ := h
  simp only [copyLength, lengthCode, copyDistance, distanceCode, insertLength, h1, h2, h3, and_self]

end ZopfliNode

/-! ### The queue -/

namespace StartPosQueue

/-- Every candidate in the queue has the property. -/
def All (P : PosData → Prop) (q : StartPosQueue) : Prop := ∀ k < q.len, P (q.get k)

/-- Moving entries down fills the one slot that is free. -/
theorem shift_all {P : PosData → Prop} (model : CostModel) {posdata : PosData} (hp : P posdata)
    (start : Fin 8) (n o : ℕ)
    (ho : o + n ≤ 7) {queue : Fin 8 → PosData}
    (hrest : ∀ j ≤ o + n, j ≠ o → P (queue (start + Fin.ofNat 8 j))) :
    ∀ j ≤ o + n,
    P (shift model posdata n (start + Fin.ofNat 8 o) queue (start + Fin.ofNat 8 j)) := by
  have hslots : ∀ s : Fin 8, ∀ j ≤ 7, ∀ o ≤ 7, j ≠ o → s + Fin.ofNat 8 j ≠ s + Fin.ofNat 8 o := by
    decide
  have hslot := hslots start
  have hput : ∀ j ≤ o + n,
      P (Function.update queue (start + Fin.ofNat 8 o) posdata (start + Fin.ofNat 8 j)) := by
    intro j hj
    by_cases hjo : j = o
    · rw [hjo, Function.update_self]
      exact hp
    · rw [Function.update_of_ne (hslot j (by omega) o (by omega) hjo)]
      exact hrest j hj hjo
  induction n generalizing o queue with
  | zero => exact hput
  | succ n ih =>
    rw [shift]
    have hnext : start + Fin.ofNat 8 o + 1 = start + Fin.ofNat 8 (o + 1) := by
      have hall : ∀ s : Fin 8, ∀ o ≤ 6, s + Fin.ofNat 8 o + 1 = s + Fin.ofNat 8 (o + 1) := by decide
      exact hall start o (by omega)
    simp only [hnext]
    by_cases hle : model.le posdata.costdiff (queue (start + Fin.ofNat 8 (o + 1))).costdiff
    · rw [if_pos hle]
      exact hput
    rw [if_neg hle]
    -- The slot that is free has moved up by one.
    have hmoved : ∀ j ≤ o + 1 + n, j ≠ o + 1 → P (Function.update queue (start + Fin.ofNat 8 o)
        (queue (start + Fin.ofNat 8 (o + 1))) (start + Fin.ofNat 8 j)) := by
      intro j hj hjo
      by_cases hjo' : j = o
      · rw [hjo', Function.update_self]
        exact hrest (o + 1) (by omega) (by omega)
      · rw [Function.update_of_ne (hslot j (by omega) o (by omega) hjo')]
        exact hrest j (by omega) hjo'
    have h := ih (o + 1) (by omega) hmoved (by
      intro j hj
      by_cases hjo : j = o + 1
      · rw [hjo, Function.update_self]
        exact hp
      · rw [Function.update_of_ne (hslot j (by omega) (o + 1) (by omega) hjo)]
        exact hmoved j hj hjo)
    intro j hj
    exact h j (by omega)

/-- **Pushing keeps what holds of every candidate.** -/
theorem push_all {P : PosData → Prop} {model : CostModel} {q : StartPosQueue}
    {posdata : PosData} (h : q.All P)
    (hp : P posdata) : (q.push model posdata).All P := by
  have hall : ∀ k i : Fin 8, k - (i + 1) = Fin.ofNat 8 (7 - i) + k ∧
    k - i = Fin.ofNat 8 (7 - i) + (k + 1) := by decide
  have hidx : (Fin.ofNat 8 q.idx : ℕ) = q.idx % 8 := rfl
  -- Slots count from the one the candidate starts at.
  have hnew : ∀ k, Fin.ofNat 8 k - Fin.ofNat 8 (q.idx + 1) =
      Fin.ofNat 8 (7 - q.idx % 8) + Fin.ofNat 8 k := by
    intro k
    have hsucc : Fin.ofNat 8 (q.idx + 1) = Fin.ofNat 8 q.idx + 1 :=
      Fin.ext (by simp [Fin.val_add, Fin.ofNat])
    rw [hsucc, (hall _ _).1, hidx]
  have hold : ∀ k, Fin.ofNat 8 k - Fin.ofNat 8 q.idx =
      Fin.ofNat 8 (7 - q.idx % 8) + Fin.ofNat 8 (k + 1) := by
    intro k
    have hsucc : Fin.ofNat 8 (k + 1) = Fin.ofNat 8 k + 1 :=
      Fin.ext (by simp [Fin.val_add, Fin.ofNat])
    rw [hsucc, (hall _ _).2, hidx]
  have hrest : ∀ j ≤ 0 + (({ q with idx := q.idx + 1 } : StartPosQueue).len - 1), j ≠ 0 →
      P (q.queue (Fin.ofNat 8 (7 - q.idx % 8) + Fin.ofNat 8 j)) := by
    intro j hj hj0
    obtain ⟨k, rfl⟩ : ∃ k, j = k + 1 := ⟨j - 1, by omega⟩
    rw [← hold]
    refine h k ?_
    simp only [len] at hj ⊢
    split at hj <;> split <;> omega
  have h7 : 0 + (({ q with idx := q.idx + 1 } : StartPosQueue).len - 1) ≤ 7 := by
    simp only [len]
    split <;> omega
  have hshift := shift_all model hp (Fin.ofNat 8 (7 - q.idx % 8)) _ 0 h7 hrest
  intro k hk
  have hk' : k < ({ q with idx := q.idx + 1 } : StartPosQueue).len := hk
  have hzero : Fin.ofNat 8 (7 - q.idx % 8) + Fin.ofNat 8 0 = Fin.ofNat 8 (7 - q.idx % 8) := by
    simp [Fin.ofNat]
  have := hshift k (by omega)
  rw [hzero] at this
  show P ((q.push model posdata).queue (Fin.ofNat 8 k - Fin.ofNat 8 (q.idx + 1)))
  rw [hnew]
  exact this

end StartPosQueue

end Mbrotli.Compressor
