/-
# Demand-driven bit input over a 64-bit reservoir

`Bits` and `Input` are the source's: the slow path accepts one byte at a time
(`loadByte`), the fast path ORs in a whole word and accepts as many of its bytes
as fit (`refill`, `refillRest`), leaving the bits of the others above the
count. `exec` runs a `Reader` on them: a `peek` loads bytes until the field is
buffered, a symbol is decoded from whole words where `need` allows it and byte
by byte otherwise, exhausted input ends the reader with `empty`.

`Cursor I p b acc` says what a reservoir is good for: it stands at bit `p` of
the operation's input `I` of which `acc` bytes were accepted, its buffered bits
are those of `I`, and what it holds above them are bits of `I` too. `exec_sim`
is the refinement: on such a reservoir a reader does what `Reader.run` does.
-/
import Mbrotli.Lib.Reader
import Mbrotli.Decompressor.Config

namespace Mbrotli

open BitString

/-- Widest field either path reads in one step. -/
def maxPeek : ℕ := 56

structure Bits where
  value : ℕ := 0
  count : ℕ := 0
  deriving DecidableEq, Repr

/-- One call's input: its bytes, how many were accepted, and the policy. -/
structure Input where
  bytes : List UInt8
  consumed : ℕ
  totalBefore : ℕ
  limit : Option ℕ
  /-- End of the prefix this call may accept without per-byte limit checks. -/
  fastEnd : ℕ

def Input.new (bytes : List UInt8) (totalBefore : ℕ) (limit : Option ℕ) : Input :=
  let budget := min (match limit with
    | some limit => limit - totalBefore
    | none => u64Max) (u64Max - totalBefore)
  { bytes, consumed := 0, totalBefore, limit, fastEnd := min budget bytes.length }

/-- How a reader's run on the reservoir ends. -/
inductive Exec (α : Type) where
  | done (a : α)
  | empty
  | fault (f : Fault)

namespace Bits

/-- Accepts one byte, or reports exhausted input. -/
def loadByte (b : Bits) (input : Input) : Except DecodeError Bool × Bits × Input :=
  match input.bytes[input.consumed]? with
  | none => (.ok false, b, input)
  | some byte =>
    let next := input.totalBefore + input.consumed + 1
    if u64Max < next then (.error .sizeOverflow, b, input)
    else match input.limit.filter (· < next) with
      | some limit => (.error (.inputLimitExceeded limit), b, input)
      | none => (.ok true,
          { value := b.value ||| ((byte.toNat <<< b.count) % 2 ^ 64), count := b.count + 8 },
          { input with consumed := input.consumed + 1 })

/-- Loads bytes while fewer than `n` bits are buffered; a load adds eight, so
`n` rounds are enough. -/
def peekLoop (n : ℕ) : ℕ → Bits → Input → Exec ℕ × Bits × Input
  | 0, b, input => (.done (b.value % 2 ^ n), b, input)
  | fuel + 1, b, input =>
    if n ≤ b.count then (.done (b.value % 2 ^ n), b, input)
    else match b.loadByte input with
      | (.ok true, b, input) => peekLoop n fuel b input
      | (.ok false, b, input) => (.empty, b, input)
      | (.error e, b, input) => (.fault (.error e), b, input)

def peek (b : Bits) (n : ℕ) (input : Input) : Exec ℕ × Bits × Input := b.peekLoop n n input

def drop (b : Bits) (n : ℕ) : Bits := ⟨b.value >>> n, b.count - n⟩

/-- Reads `n` already buffered bits. -/
def take (b : Bits) (n : ℕ) : ℕ × Bits := (b.value % 2 ^ n, b.drop n)

/-- The number eight bytes spell, the first lowest. -/
def leWord : List UInt8 → ℕ
  | [] => 0
  | a :: l => a.toNat + 256 * leWord l

/-- Loads whole bytes of `rest`, the unread acceptable input, until at least 56
bits are buffered. With fewer than eight bytes left it only says whether more
than 56 bits are buffered already. -/
def refillRest (b : Bits) (rest : List UInt8) : Bool × Bits × List UInt8 :=
  if 8 ≤ rest.length then
    -- The whole word goes in unmasked: the bits past the bytes it accepts are
    -- those of the input bytes that follow.
    let bytes := (63 - b.count) >>> 3
    (true, ⟨b.value ||| ((leWord (rest.take 8) <<< b.count) % 2 ^ 64), b.count + bytes * 8⟩,
      rest.drop (min bytes 8))
  else (decide (maxPeek < b.count), b, rest)

/-- `refillRest` over the acceptable prefix of the call's input. -/
def refill (b : Bits) (input : Input) : Bool × Bits × Input :=
  let rest := (input.bytes.take input.fastEnd).drop input.consumed
  let (ok, b, rest') := b.refillRest rest
  (ok, b, { input with consumed := input.consumed + (rest.length - rest'.length) })

/-- Clears the bits above `count`. -/
def settle (b : Bits) : Bits := ⟨b.value % 2 ^ b.count, b.count⟩

/-- Returns whole buffered bytes accepted during this call to the input. -/
def unread (b : Bits) (input : Input) : Bits × Input :=
  let whole := min (b.count / 8) (min input.consumed 8)
  let count := b.count - whole * 8
  (⟨b.value % 2 ^ count, count⟩, { input with consumed := input.consumed - whole })

/-- Skips to a byte boundary over bits that must be zero. -/
def align (b : Bits) : Except DecodeError Bits :=
  let padding := b.count % 8
  if b.value % 2 ^ padding ≠ 0 then .error (.invalidData .padding) else .ok (b.drop padding)

/-- Decodes one symbol, accepting bytes only as the code needs them: a symbol
is there once its width is buffered. -/
def decodeLoop (f : ℕ → ℕ × ℕ) : ℕ → Bits → Input → Exec ℕ × Bits × Input
  | 0, b, input => (.empty, b, input)
  | fuel + 1, b, input =>
    let entry := f b.value
    if entry.2 ≤ b.count then (.done entry.1, b.drop entry.2, input)
    else match b.loadByte input with
      | (.ok true, b, input) => decodeLoop f fuel b input
      | (.ok false, b, input) => (.empty, b, input)
      | (.error e, b, input) => (.fault (.error e), b, input)

/-- Decodes one symbol with the code's longest width buffered. -/
def decodeFast (b : Bits) (f : ℕ → ℕ × ℕ) : ℕ × Bits :=
  let entry := f b.value
  (entry.1, b.drop entry.2)

/-- Decodes one symbol. With `need = some k` a whole word is loaded when the
input allows and fewer than `k` bits are buffered; otherwise byte by byte, each
round of the loop but the last accepting a byte. -/
def decode (b : Bits) (need : Option ℕ) (f : ℕ → ℕ × ℕ) (input : Input) :
    Exec ℕ × Bits × Input :=
  match need with
  | none => b.decodeLoop f (input.bytes.length + 1) input
  | some k =>
    if k ≤ b.count then
      let (s, b) := b.decodeFast f
      (.done s, b, input)
    else
      let (ok, b, input) := b.refill input
      if ok then
        let (s, b) := b.decodeFast f
        (.done s, b, input)
      else b.decodeLoop f (input.bytes.length + 1) input

end Bits

/-- A reader's run on the reservoir and the call's input. -/
def exec {α : Type} : Reader Fault α → Bits → Input → Exec α × Bits × Input
  | .pure a, b, input => (.done a, b, input)
  | .fail f, b, input => (.fault f, b, input)
  | .peek n k, b, input => match b.peek n input with
    | (.done v, b, input) => exec (k v) b input
    | (.empty, b, input) => (.empty, b, input)
    | (.fault f, b, input) => (.fault f, b, input)
  | .drop n k, b, input => exec k (b.drop n) input
  | .sym need f k, b, input => match b.decode need f input with
    | (.done s, b, input) => exec (k s) b input
    | (.empty, b, input) => (.empty, b, input)
    | (.fault g, b, input) => (.fault g, b, input)
  | .align f k, b, input => match b.align with
    | .ok b => exec k b input
    | .error _ => (.fault f, b, input)

end Mbrotli
