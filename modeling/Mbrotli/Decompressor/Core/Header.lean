/-
# Stream and meta-block headers

Both headers are read transactionally: a header looks ahead as far as it must, and
accepts its bits only once it is validated.
-/
import Mbrotli.Lib.Reader
import Mbrotli.Decompressor.Config

namespace Mbrotli

inductive MetaBlock where
  | endOfStream
  | compressed (length : ℕ) (last : Bool)
  | uncompressed (length : ℕ)
  | metadata (length : ℕ) (last : Bool)
  deriving DecidableEq, Repr

namespace Header

/-- Checks a declared window against the policy and accepts its `width` bits. -/
def declare (limit : WindowLimit) (declared width : ℕ) (large : Bool) : Reader Fault Window :=
  if large && !limit.large then .throw (.error .largeWindowDisabled)
  else if limit.bits < declared then .throw (.error (.windowLimitExceeded declared limit.bits))
  else match if large then Window.large declared else Window.standard declared with
  | none => .throw InvalidDataKind.header.fault
  | some window => do
    .skip width
    return window

def window (limit : WindowLimit) : Reader Fault Window := do
  let first ← .look 1
  if first = 0 then declare limit 16 1 false
  else do
    let short ← .look 4
    if short >>> 1 ≠ 0 then declare limit (17 + (short >>> 1)) 4 false
    else do
      let long ← .look 7
      if long >>> 4 = 0 then declare limit 17 7 false
      else if long >>> 4 = 1 then do
        let marker ← .look 8
        if marker ≠ 0x11 then .throw InvalidDataKind.header.fault
        else do
          let header ← .look 14
          let declared := header >>> 8
          if declared < 10 ∨ 62 < declared then .throw InvalidDataKind.header.fault
          else declare limit declared 14 true
      else declare limit (8 + (long >>> 4)) 7 false

/-- A metadata block's header after `width` bits of it. -/
def metadata (width : ℕ) (last : Bool) : Reader Fault MetaBlock := do
  let header ← .look (width + 3)
  if (header >>> width) % 2 ≠ 0 then .throw InvalidDataKind.metaBlock.fault
  else do
    let bytes := header >>> (width + 1)
    let header ← .look (width + 3 + bytes * 8)
    let encodedLength := header >>> (width + 3)
    if 1 < bytes ∧ encodedLength >>> ((bytes - 1) * 8) = 0
      then .throw InvalidDataKind.metaBlock.fault
    else do
      .skip (width + 3 + bytes * 8)
      .toByte InvalidDataKind.padding.fault
      return .metadata (if bytes = 0 then 0 else encodedLength + 1) last

/-- The rest of a header whose length field starts after `width` bits. -/
def sized (width : ℕ) (last : Bool) : Reader Fault MetaBlock := do
  let header ← .look (width + 2)
  let nibbles := (header >>> width) + 4
  if nibbles = 7 then metadata (width + 2) last
  else do
    let all := width + 2 + nibbles * 4
    let header ← .look (all + (!last).toNat)
    let encodedLength := (header >>> (width + 2)) % 2 ^ (nibbles * 4)
    if 4 < nibbles ∧ encodedLength >>> ((nibbles - 1) * 4) = 0 then
      .throw InvalidDataKind.metaBlock.fault
    else do
      .skip (all + (!last).toNat)
      if !last && header >>> all ≠ 0 then do
        .toByte InvalidDataKind.padding.fault
        return .uncompressed (encodedLength + 1)
      else return .compressed (encodedLength + 1) last

def metablock : Reader Fault MetaBlock := do
  let first ← .look 1
  if first = 0 then sized 1 false
  else do
    let flags ← .look 2
    if flags &&& 2 ≠ 0 then do
      .skip 2
      return .endOfStream
    else sized 2 true

/-! ### Atomicity -/

theorem declare_atomic (limit : WindowLimit) (declared width : ℕ) (large : Bool) :
    (declare limit declared width large).Atomic width := by
  unfold declare
  split
  · trivial
  split
  · trivial
  split
  · trivial
  · exact ⟨rfl, trivial⟩

theorem window_atomic (limit : WindowLimit) : (window limit).Atomic 0 := by
  refine ⟨by decide, fun first _ => ?_⟩
  show Reader.Atomic 1 (ite _ _ _)
  split
  · exact declare_atomic ..
  refine ⟨by decide, fun short _ => ?_⟩
  show Reader.Atomic 4 (ite _ _ _)
  split
  · exact declare_atomic ..
  refine ⟨by decide, fun long _ => ?_⟩
  show Reader.Atomic 7 (ite _ _ _)
  split
  · exact declare_atomic ..
  split
  · refine ⟨by decide, fun marker _ => ?_⟩
    show Reader.Atomic 8 (ite _ _ _)
    split
    · trivial
    refine ⟨by decide, fun header _ => ?_⟩
    show Reader.Atomic 14 (ite _ _ _)
    split
    · trivial
    · exact declare_atomic ..
  · exact declare_atomic ..

theorem metadata_atomic {width : ℕ} (hw : width ≤ 4) (last : Bool) :
    (metadata width last).Atomic width := by
  refine ⟨by simp only [Reader.fieldMax]; omega, fun header hv => ?_⟩
  rw [show max width (width + 3) = width + 3 by omega]
  show Reader.Atomic (width + 3) (ite _ _ _)
  split
  · trivial
  have hb : header >>> (width + 1) < 4 := by
    rw [Nat.shiftRight_eq_div_pow]
    exact Nat.div_lt_of_lt_mul (by rw [show (4 : ℕ) = 2 ^ 2 from rfl, ← pow_add]; exact hv)
  refine ⟨by simp only [Reader.fieldMax]; omega, fun header' _ => ?_⟩
  rw [show max (width + 3) (width + 3 + header >>> (width + 1) * 8) =
    width + 3 + header >>> (width + 1) * 8 by omega]
  show Reader.Atomic _ (ite _ _ _)
  split
  · trivial
  · exact ⟨rfl, trivial⟩

theorem sized_atomic {width : ℕ} (hw : width ≤ 2) (last : Bool) :
    (sized width last).Atomic width := by
  refine ⟨by simp only [Reader.fieldMax]; omega, fun header hv => ?_⟩
  rw [show max width (width + 2) = width + 2 by omega]
  show Reader.Atomic (width + 2) (ite _ _ _)
  split
  · exact metadata_atomic (by omega) last
  have hb : header >>> width < 4 := by
    rw [Nat.shiftRight_eq_div_pow]
    exact Nat.div_lt_of_lt_mul (by rw [show (4 : ℕ) = 2 ^ 2 from rfl, ← pow_add]; exact hv)
  have hl : (!last).toNat ≤ 1 := Bool.toNat_le _
  have hn : header >>> width + 4 < 8 := by omega
  generalize header >>> width + 4 = n at hn ⊢
  refine ⟨by simp only [Reader.fieldMax]; omega, fun header' _ => ?_⟩
  rw [show max (width + 2) (width + 2 + n * 4 + (!last).toNat) =
    width + 2 + n * 4 + (!last).toNat by omega]
  show Reader.Atomic _ (ite _ _ _)
  split
  · trivial
  refine ⟨rfl, ?_⟩
  show Reader.Settled (ite _ _ _)
  split <;> trivial

theorem metablock_atomic : metablock.Atomic 0 := by
  refine ⟨by decide, fun first _ => ?_⟩
  show Reader.Atomic 1 (ite _ _ _)
  split
  · exact sized_atomic (by omega) false
  refine ⟨by decide, fun flags _ => ?_⟩
  show Reader.Atomic 2 (ite _ _ _)
  split
  · exact ⟨rfl, trivial⟩
  · exact sized_atomic (by omega) true

end Header
end Mbrotli
