/-
# Distance arithmetic

A distance symbol is one of sixteen short codes, which refer to the four most
recent distances (`Cache`), a direct distance, or a bucket with extra bits. The
resumable stages compute it (`DistanceLayout.resolve`); the command loop looks up a
table of `Partial`s, the bucket's width and base. Both agree on every symbol the header
accepts, which is shown with the rest of the arithmetic in `DistanceArithmetic`.
-/
import Mathlib.Data.Fin.VecNotation
import Mathlib.Logic.Function.Basic
import Mbrotli.Decompressor.Core.Memory

namespace Mbrotli

def shortCodes : ℕ := 16
def maxDistance : ℕ := 2 ^ 63 - 4

structure DistanceLayout where
  postfix_ : ℕ := 0
  direct : ℕ := 0
  large : Bool := false
  deriving DecidableEq, Repr

/-- A symbol's extra-bit width, and its distance before the extra field. -/
structure Partial where
  width : ℕ := 0
  base : ℕ := 0
  deriving DecidableEq, Repr

/-- Bytes of a `Partial`. -/
def Partial.size : ℕ := 16

/-- The four most recent distances as a ring. Only the low two bits of the source's
push count are ever looked at. -/
structure Cache where
  slots : Fin 4 → ℕ := ![16, 15, 11, 4]
  index : Fin 4 := 0

namespace Cache

/-- The `back`-th most recent distance, zero being the most recent. -/
def recent (c : Cache) (back : Fin 4) : ℕ := c.slots (c.index - 1 - back)

/-- Takes the most recent distance out, so that `push` returns it. -/
def pop (c : Cache) : ℕ × Cache := (c.slots (c.index - 1), { c with index := c.index - 1 })

def push (c : Cache) (distance : ℕ) : Cache :=
  { slots := Function.update c.slots c.index distance, index := c.index + 1 }

@[simp] theorem pop_fst (c : Cache) : c.pop.1 = c.recent 0 := by
  have h : ∀ i : Fin 4, i - 1 = i - 1 - 0 := by decide
  exact congrArg c.slots (h c.index)

/-- Pushing the distance just taken out leaves the ring as it was. -/
@[simp] theorem push_pop (c : Cache) : c.pop.2.push (c.recent 0) = c := by
  have h : ∀ i : Fin 4, i - 1 + 1 = i := by decide
  rw [← pop_fst]
  simp [pop, push, h]

end Cache

namespace DistanceLayout

def fromHeader (header : ℕ) (large : Bool) : DistanceLayout :=
  let postfix_ := header % 4
  { postfix_, direct := (header >>> 2) <<< postfix_, large }

def alphabet (d : DistanceLayout) : ℕ :=
  shortCodes + d.direct + ((if d.large then 124 else 48) <<< d.postfix_)

def extraBits (d : DistanceLayout) (symbol : ℕ) : ℕ :=
  if symbol < shortCodes + d.direct then 0
  else 1 + ((symbol - shortCodes - d.direct) >>> (d.postfix_ + 1))

/-- The distance of a long code; the source computes it in 128 bits. -/
def longDistance (d : DistanceLayout) (symbol extra : ℕ) : ℕ :=
  if symbol < shortCodes + d.direct then symbol - shortCodes + 1
  else
    let code := symbol - shortCodes - d.direct
    let high := code >>> d.postfix_
    let low := code % 2 ^ d.postfix_
    let offset := ((2 + high % 2) <<< d.extraBits symbol) - 4
    ((offset + extra) <<< d.postfix_) + low + d.direct + 1

/-- The distance of a long code in 64 bits, wrapping as a release build does. -/
def shortWindowDistance (d : DistanceLayout) (symbol extra : ℕ) : ℕ :=
  if symbol < shortCodes + d.direct then symbol - shortCodes + 1
  else
    let code := symbol - shortCodes - d.direct
    let high := code >>> d.postfix_
    let low := code % 2 ^ d.postfix_
    let offset := (((2 + high % 2) <<< d.extraBits symbol) % 2 ^ 64 + 2 ^ 64 - 4) % 2 ^ 64
    ((((offset + extra) % 2 ^ 64) <<< d.postfix_) % 2 ^ 64 + (low + d.direct + 1)) % 2 ^ 64

/-- A symbol is accepted if its largest possible distance is. -/
def validateSymbol (d : DistanceLayout) (symbol : ℕ) : Except DecodeError Unit :=
  if d.alphabet ≤ symbol then .error (.invalidData .distance)
  else if shortCodes ≤ symbol ∧ maxDistance < d.longDistance symbol (2 ^ d.extraBits symbol - 1)
    then
    .error (.invalidData .distance)
  else .ok ()

def shortIndex : List (Fin 4) := [0, 1, 2, 3, 0, 0, 0, 0, 0, 0, 1, 1, 1, 1, 1, 1]
def shortOffset : List ℤ := [0, 0, 0, 0, -1, 1, -2, 2, -3, 3, -1, 1, -2, 2, -3, 3]

/-- One of the sixteen short codes against the recent distances. -/
def short (symbol : ℕ) (cache : Cache) : Except DecodeError ℕ :=
  let v := (cache.recent (shortIndex.getD (symbol % 16) 0) : ℤ) + shortOffset.getD (symbol % 16) 0
  if 0 < v ∧ v ≤ maxDistance then .ok v.toNat else .error (.invalidData .distance)

/-- The distance of a long code of a large window, if it fits 64 bits. -/
def resolveLarge (d : DistanceLayout) (symbol extra : ℕ) : Except DecodeError ℕ :=
  if u64Max < d.longDistance symbol extra then .error (.invalidData .distance)
  else .ok (d.longDistance symbol extra)

/-- The distance of a symbol with its extra field. -/
def resolve (d : DistanceLayout) (symbol extra : ℕ) (cache : Cache) : Except DecodeError ℕ :=
  if shortCodes ≤ symbol then
    if d.large then d.resolveLarge symbol extra
    else .ok (d.shortWindowDistance symbol extra)
  else short symbol cache

/-- What wraps at 64 bits on the way is the distance modulo `2 ^ 64`. -/
theorem shortWindowDistance_eq {d : DistanceLayout} {symbol extra : ℕ}
    (h : d.longDistance symbol extra ≤ u64Max) :
    d.shortWindowDistance symbol extra = d.longDistance symbol extra := by
  have hmax : u64Max + 1 = 2 ^ 64 := rfl
  rw [longDistance] at h ⊢
  rw [shortWindowDistance]
  by_cases hdirect : symbol < shortCodes + d.direct
  · rw [if_pos hdirect, if_pos hdirect]
  rw [if_neg hdirect] at h ⊢
  rw [if_neg hdirect]
  simp only [] at h ⊢
  set code := symbol - shortCodes - d.direct with hcode
  set shifted := (2 + code >>> d.postfix_ % 2) <<< d.extraBits symbol with hshifted
  have hfour : 4 ≤ shifted := by
    have hbits : 1 ≤ d.extraBits symbol := by
      rw [extraBits, if_neg hdirect]
      exact Nat.le_add_right _ _
    rw [hshifted, Nat.shiftLeft_eq]
    calc 4 = 2 * 2 ^ 1 := rfl
      _ ≤ (2 + code >>> d.postfix_ % 2) * 2 ^ d.extraBits symbol :=
        Nat.mul_le_mul (Nat.le_add_right _ _) (Nat.pow_le_pow_right (by decide) hbits)
  have hgrow : shifted - 4 + extra ≤ (shifted - 4 + extra) <<< d.postfix_ := by
    rw [Nat.shiftLeft_eq]
    exact Nat.le_mul_of_pos_right _ (Nat.two_pow_pos _)
  have hoffset : (shifted % 2 ^ 64 + 2 ^ 64 - 4) % 2 ^ 64 = shifted - 4 := by omega
  rw [hoffset, Nat.mod_eq_of_lt (by omega : shifted - 4 + extra < 2 ^ 64),
    Nat.mod_eq_of_lt (by omega : (shifted - 4 + extra) <<< d.postfix_ < 2 ^ 64),
    Nat.mod_eq_of_lt (by omega)]
  omega

/-- A long code whose distance fits 64 bits resolves to it in either window. -/
theorem resolve_long {d : DistanceLayout} {symbol extra : ℕ} (h16 : shortCodes ≤ symbol)
    (h : d.longDistance symbol extra ≤ u64Max) (cache : Cache) :
    d.resolve symbol extra cache = .ok (d.longDistance symbol extra) := by
  rw [resolve, if_pos h16, resolveLarge, if_neg (Nat.not_lt.2 h),
    shortWindowDistance_eq h, ite_self]

/-- The split of one symbol. The entry of a symbol the header rejects may wrap. -/
def entry (d : DistanceLayout) (symbol : ℕ) : Partial :=
  if symbol < shortCodes then ⟨0, 0⟩
  else if symbol < shortCodes + d.direct then ⟨0, symbol - shortCodes + 1⟩
  else
    let code := symbol - shortCodes - d.direct
    let width := 1 + (code >>> (d.postfix_ + 1))
    let high := code >>> d.postfix_
    let low := code % 2 ^ d.postfix_
    let offset := (((2 + high % 2) <<< width) % 2 ^ 64 + 2 ^ 64 - 4) % 2 ^ 64
    ⟨width, ((offset <<< d.postfix_) % 2 ^ 64 + (low + d.direct + 1)) % 2 ^ 64⟩

/-- The layout whose split is a constant table. -/
def isStandard (d : DistanceLayout) : Bool := d.postfix_ = 0 && d.direct = 0 && !d.large

/-- The per-symbol split: the constant table for the standard layout, else the
filled one. -/
def table (d : DistanceLayout) (filled : Buffer Partial) (symbol : ℕ) : Partial :=
  if d.isStandard then d.entry symbol else filled.get symbol

/-- Fills the table anew. A refused growth leaves it empty. -/
def fillTable (d : DistanceLayout) (table : Buffer Partial) (memory : Memory) :
    Except (DecodeError × Buffer Partial) (Memory × Buffer Partial) :=
  match memory.reserve Partial.size table.clear d.alphabet with
  | .error e => .error (e, table.clear)
  | .ok (memory, table) => .ok (memory, table.extend d.alphabet d.entry)

end DistanceLayout
end Mbrotli
