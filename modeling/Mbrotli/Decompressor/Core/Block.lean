/-
# Block switches

`Block` is the switch state of one of literals, commands or distances. `headerStep`
is a round of the source's resumable `Block::header`, `switchStep` a field of a
switch; `prepare` switches when the current block is used up, and `switchFast` does
so with all its bits buffered.

A block of one type is given `u64::MAX` symbols, more than any run uses: its count is
not taken down.
-/
import Mbrotli.Shared.Format
import Mbrotli.Decompressor.Core.Bits
import Mbrotli.Decompressor.Core.Huffman

namespace Mbrotli

/-- Reads a number of 0 to 255, `Bits::uint8`. -/
def Bits.uint8 : Reader Fault ℕ := do
  let first ← .look 1
  if first = 0 then do
    .skip 1
    return 0
  else do
    let head ← .look 4
    let n := head >>> 1
    if n = 0 then do
      .skip 4
      return 1
    else do
      let all ← .look (4 + n)
      .skip (4 + n)
      return 2 ^ n + (all >>> 4)

theorem Bits.uint8_atomic : Bits.uint8.Atomic 0 := by
  refine ⟨by decide, fun first _ => ?_⟩
  show Reader.Atomic 1 (ite _ _ _)
  split
  · exact ⟨rfl, trivial⟩
  refine ⟨by decide, fun head hh => ?_⟩
  show Reader.Atomic 4 (ite _ _ _)
  split
  · exact ⟨rfl, trivial⟩
  have hn : head >>> 1 < 8 := by rw [Nat.shiftRight_eq_div_pow]; omega
  exact ⟨by simp only [Reader.fieldMax]; omega,
    fun _ _ => ⟨by omega, trivial⟩⟩

inductive BlockStage where
  | typeCount
  | typeTree
  | lengthTree
  | lengthSymbol
  | lengthExtra (symbol : ℕ)
  | ready
  deriving DecidableEq, Repr

structure Block where
  count : ℕ := 1
  current : ℕ := 0
  remaining : ℕ := u64Max
  previous : ℕ := 1
  stage : BlockStage := .typeCount
  types : Group := {}
  lengths : Group := {}

/-- Number of block-length symbols. -/
def numBlockLenSymbols : ℕ := 26

/-- One symbol of an owned code, whole words loaded where the input allows. -/
def Group.decodeRefilling (g : Group) : Reader Fault ℕ :=
  match g.single with
  | none => .throw .panic
  | some table => .symbol (some maxLength) table.lookup

/-- One symbol of a group's code, accepting bytes only as the code needs them. -/
def Group.decode (g : Group) (tree : ℕ) : Reader Fault ℕ :=
  match g.table tree with
  | none => .throw .panic
  | some table => .symbol none table.lookup

namespace Block

/-- Starts a meta-block: one type, no switches, and no pending header. -/
def reset (b : Block) : Block :=
  { b with count := 1, current := 0, previous := 1, remaining := u64Max, stage := .typeCount }

def switchTo (b : Block) (symbol : ℕ) : Block :=
  let next := (match symbol with
    | 0 => b.previous
    | 1 => b.current + 1
    | _ => symbol - 2) % b.count
  { b with previous := b.current, current := next }

/-- The next field of a block switch: its type, its length's code, the extra bits. -/
def switchStep (b : Block) : Reader Fault Block :=
  match b.stage with
  | .lengthSymbol => do
    let symbol ← b.lengths.decodeRefilling
    return { b with stage := .lengthExtra symbol }
  | .lengthExtra symbol => do
    let (base, width) := prefixCodeRanges.getD symbol (0, 0)
    let extra ← .read width
    return { b with remaining := base + extra, stage := .ready }
  | _ => do
    let symbol ← b.types.decodeRefilling
    return { b.switchTo symbol with stage := .lengthSymbol }

/-- One round of `Block::header`, and whether it completes the header. -/
def headerStep (b : Block) (builder : Builder) (memory : Memory) :
    Reader Fault
    (Except (DecodeError × Block × Builder × Memory) (Bool × Block × Builder × Memory)) :=
  match b.stage with
  | .typeCount => do
    let count ← Bits.uint8
    let b := { b with count := count + 1 }
    return if count = 0 then .ok (true, { b with stage := .ready }, builder, memory)
      else .ok (false, { b with stage := .typeTree }, builder, memory)
  | .typeTree => do
    let (builder, done) ← builder.step (b.count + 2)
    return if done then
      match builder.build (b.count + 2) memory b.types with
      | .error (e, memory, types) => .error (e, { b with types }, builder, memory)
      | .ok (_, memory, types) => .ok (false, { b with types, stage := .lengthTree },
          builder, memory)
    else .ok (false, b, builder, memory)
  | .lengthTree => do
    let (builder, done) ← builder.step numBlockLenSymbols
    return if done then
      match builder.build numBlockLenSymbols memory b.lengths with
      | .error (e, memory, lengths) => .error (e, { b with lengths }, builder, memory)
      | .ok (_, memory, lengths) => .ok (false, { b with lengths, stage := .lengthSymbol },
          builder, memory)
    else .ok (false, b, builder, memory)
  | .ready => return .ok (true, b, builder, memory)
  | _ => do
    let b ← b.switchStep
    return .ok (b.stage = .ready, b, builder, memory)

/-- Reads the fields of a switch until the new block's length is known. -/
def switchLoop : ℕ → Block → Bits → Input → Exec Unit × Block × Bits × Input
  | 0, b, bits, input => (.done (), b, bits, input)
  | fuel + 1, b, bits, input =>
    match exec b.switchStep bits input with
    | (.done b, bits, input) =>
      if b.stage = .ready then (.done (), b, bits, input) else switchLoop fuel b bits input
    | (.empty, bits, input) => (.empty, b, bits, input)
    | (.fault f, bits, input) => (.fault f, b, bits, input)

/-- Byte-exact block switch when the current block is exhausted. -/
def prepare (b : Block) (bits : Bits) (input : Input) : Exec Unit × Block × Bits × Input :=
  if b.remaining ≠ 0 then (.done (), b, bits, input) else switchLoop 3 b bits input

/-- Takes `n` symbols off the current block. -/
def use (b : Block) (n : ℕ) : Block :=
  if b.count = 1 then b else { b with remaining := b.remaining - n }

/-- Block switch with at least 54 buffered bits: two codes and a 24-bit extra
field. A missing code is a panic. -/
def switchFast (b : Block) (bits : Bits) : Option (Block × Bits) := do
  let types ← b.types.single
  let (symbol, bits) := bits.decodeFast types.lookup
  let b := b.switchTo symbol
  let lengths ← b.lengths.single
  let (symbol, bits) := bits.decodeFast lengths.lookup
  let (base, width) := prefixCodeRanges.getD symbol (0, 0)
  let (extra, bits) := bits.take width
  return ({ b with remaining := base + extra }, bits)

def switchReady (b : Block) : Bool := b.stage = .ready

end Block
end Mbrotli
