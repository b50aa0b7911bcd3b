/-
# History and delivery

The history is a ring whose length is a power of two, grown up to the window size,
or, for a linear member, the caller's slice. The kernels write whole pieces of it:
copies that may overlap themselves, sixteen- and thirty-two-byte snapshots that may
write past the copy's end, and fills that grow the ring.

`Output` is one call's destination. Decoded bytes wait in the ring until a write
reaches its end or the call pauses (`flushRing`).
-/
import Mbrotli.Decompressor.Core.Memory

namespace Mbrotli

/-- Smallest ring allocation. -/
def minRing : ℕ := 64

/-- A byte slice of the caller. -/
structure Slice where
  get : ℕ → UInt8
  len : ℕ

namespace Slice

def put (s : Slice) (index : ℕ) (byte : UInt8) : Slice :=
  { s with get := fun i => if i = index then byte else s.get i }

/-- Writes `n` bytes of `source` at `start`. -/
def copy (s : Slice) (start n : ℕ) (source : ℕ → UInt8) : Slice :=
  { s with get := fun i => if start ≤ i ∧ i < start + n then source (i - start) else s.get i }

def empty : Slice := ⟨fun _ => 0, 0⟩

def ofList (l : List UInt8) : Slice := ⟨fun i => l.getD i 0, l.length⟩

/-- The first `n` bytes. -/
def take (s : Slice) (n : ℕ) : List UInt8 := (List.range n).map s.get

end Slice

structure Output where
  bytes : Slice
  /-- Collect a member in history up to this many bytes. -/
  collect : Option ℕ
  /-- `bytes` is the member's history: delivering only advances `produced`. -/
  linear : Bool
  produced : ℕ
  totalBefore : ℕ
  limit : Option ℕ
  exact : OutputSize

namespace Output

/-- Whether delivery copies history bytes into `bytes`. -/
def delivers (o : Output) : Bool := o.collect.isNone && !o.linear

/-- Bytes this call can hold. -/
def capacity (o : Output) : ℕ := o.collect.getD o.bytes.len

/-- Length of the linear history visible to bulk work. -/
def historyEnd (position remaining outEnd : ℕ) : ℕ := min (min (position + remaining) u64Max) outEnd

/-- What the policy says about a `next`-th output byte. -/
def policy (limit : Option ℕ) (exact : OutputSize) (next : ℕ) : Except DecodeError Unit :=
  if u64Max < next then .error .sizeOverflow
  else match limit.filter (· < next) with
    | some limit => .error (.outputLimitExceeded limit)
    | none => match exact with
      | .exact expected =>
        if expected < next then .error (.outputSizeMismatch expected next) else .ok ()
      | .unknown => .ok ()

/-- Whether there is room for the next byte, once the policy allows one. -/
def ready (o : Output) : Except DecodeError Bool :=
  match policy o.limit o.exact (o.totalBefore + o.produced + 1) with
  | .error e => .error e
  | .ok () => .ok (o.produced < o.capacity)

/-- Largest `produced` this call may reach without per-byte policy checks. -/
def fastEnd (o : Output) : ℕ :=
  let budget := u64Max - o.totalBefore
  let budget := match o.limit with
    | some limit => min budget (limit - o.totalBefore)
    | none => budget
  let budget := match o.exact with
    | .exact expected => min budget (expected - o.totalBefore)
    | .unknown => budget
  min budget o.capacity

end Output

def isPowerOfTwo (n : ℕ) : Bool := n = 2 ^ Nat.log2 n

/-- Index of `position` in a history of `len` bytes: a power of two wraps. -/
def historyIndex (len position : ℕ) : ℕ := if isPowerOfTwo len then position % len else position

/-- Delivers history bytes decoded since `flushed`. -/
def flushRing (ring : ℕ → UInt8) (len position flushed : ℕ) (o : Output) : ℕ × Output :=
  let pending := position - flushed
  if pending ≠ 0 then
    let start := historyIndex len flushed
    let bytes := if o.delivers then o.bytes.copy o.produced pending fun i =>
      ring (start + i) else o.bytes
    (position, { o with bytes, produced := o.produced + pending })
  else (flushed, o)

/-! ### Copies inside the history -/

def putByte (ring : ℕ → UInt8) (index : ℕ) (byte : UInt8) : ℕ → UInt8 :=
  fun i => if i = index then byte else ring i

/-- `copy_within`: the source is read before anything is written. -/
def copyWithin (ring : ℕ → UInt8) (src dst n : ℕ) : ℕ → UInt8 :=
  fun i => if dst ≤ i ∧ i < dst + n then ring (src + (i - dst)) else ring i

def fill (ring : ℕ → UInt8) (dst n : ℕ) (byte : UInt8) : ℕ → UInt8 :=
  fun i => if dst ≤ i ∧ i < dst + n then byte else ring i

/-- Byte by byte, so a byte just written can be read. -/
def copyBytes (ring : ℕ → UInt8) (src dst : ℕ) : ℕ → ℕ → UInt8
  | 0 => ring
  | n + 1 => let ring := copyBytes ring src dst n
    putByte ring (dst + n) (ring (src + n))

/-- Doubles the replicated stretch until `len` bytes are written. -/
def copyDoubling (src dst len : ℕ) : ℕ → ℕ → ℕ → (ℕ → UInt8) → ℕ → UInt8
  | 0, _, _, ring => ring
  | fuel + 1, done, chunk, ring =>
    if done < len then
      let n := min chunk (len - done)
      copyDoubling src dst len fuel (done + n) (chunk * 2) (copyWithin ring src (dst + done) n)
    else ring

/-- Copies `len` bytes from `distance` back where the regions overlap and neither
wraps. -/
def copyOverlapping (ring : ℕ → UInt8) (dst src len distance : ℕ) : ℕ → UInt8 :=
  if distance = 1 then fill ring dst len (ring src)
  else if len ≤ 16 then copyBytes ring src dst len
  else copyDoubling src dst len len 0 distance ring

/-- Copies a snapshot of `lanes` bytes when both windows are inside the history. -/
def copySnapshot (lanes : ℕ) (ring : ℕ → UInt8) (size src dst : ℕ) : Option (ℕ → UInt8) :=
  if src + lanes ≤ size ∧ dst + lanes ≤ size then some (copyWithin ring src dst lanes) else none

/-- Copies `length` bytes from `distance` back, in pieces that do not wrap. -/
def copyRing (size distance : ℕ) : ℕ → ℕ → (ℕ → UInt8) → ℕ → ℕ → Output →
    (ℕ → UInt8) × ℕ × ℕ × Output
  | 0, _, ring, position, flushed, o => (ring, position, flushed, o)
  | fuel + 1, length, ring, position, flushed, o =>
    if length = 0 then (ring, position, flushed, o)
    else
      let dst := historyIndex size position
      let src := historyIndex size (position - distance)
      let piece := min (min length (size - dst)) (size - src)
      let ring :=
        if src < dst ∧ distance < piece then copyOverlapping ring dst src piece distance
        else match if piece ≤ 16 then copySnapshot 16 ring size src dst else none with
          | some ring => ring
          | none => copyWithin ring src dst piece
      let position := position + piece
      let (flushed, o) := if dst + piece = size then flushRing ring size position flushed o
        else (flushed, o)
      copyRing size distance fuel (length - piece) ring position flushed o

/-- Writes `bytes` at `position` in pieces, delivering what reaches the end. -/
def writeRing (size : ℕ) : ℕ → List UInt8 → (ℕ → UInt8) → ℕ → ℕ → Output →
    (ℕ → UInt8) × ℕ × ℕ × Output
  | 0, _, ring, position, flushed, o => (ring, position, flushed, o)
  | fuel + 1, bytes, ring, position, flushed, o =>
    if bytes.isEmpty then (ring, position, flushed, o)
    else
      let dst := historyIndex size position
      let piece := min bytes.length (size - dst)
      let ring := fun i => if dst ≤ i ∧ i < dst + piece then bytes.getD (i - dst) 0 else ring i
      let position := position + piece
      let (flushed, o) := if dst + piece = size then flushRing ring size position flushed o
        else (flushed, o)
      writeRing size fuel (bytes.drop piece) ring position flushed o

/-- `writeRing` that delivers nothing. -/
def writeRingSilent (size : ℕ) : ℕ → List UInt8 → (ℕ → UInt8) → ℕ → (ℕ → UInt8) × ℕ
  | 0, _, ring, position => (ring, position)
  | fuel + 1, bytes, ring, position =>
    if bytes.isEmpty then (ring, position)
    else
      let dst := historyIndex size position
      let piece := min bytes.length (size - dst)
      let ring := fun i => if dst ≤ i ∧ i < dst + piece then bytes.getD (i - dst) 0 else ring i
      writeRingSilent size fuel (bytes.drop piece) ring (position + piece)

/-! ### Growth -/

/-- The smallest power of two that is no less. -/
def nextPowerOfTwo (n : ℕ) : ℕ := if n ≤ 1 then 1 else 2 ^ (Nat.log2 (n - 1) + 1)

/-- Power-of-two allocation length for `stop` bytes of history, at most the window. -/
def ringSize (len windowSize stop : ℕ) : ℕ :=
  min (max (max (min (nextPowerOfTwo stop) u64Max) (min (len * 2) u64Max)) minRing) windowSize

/-- Grows the ring so positions below `stop` are addressable. A full ring wraps. -/
def growRing (memory : Memory) (ring : Buffer UInt8) (windowSize stop : ℕ) :
    Except DecodeError (Memory × Buffer UInt8) :=
  if stop ≤ ring.len ∨ windowSize ≤ ring.len then .ok (memory, ring)
  else memory.resize 1 ring (ringSize ring.len windowSize stop) 0

/-- Grows the ring for a unit-distance run, filling everything from `position` on
with the repeated byte. -/
def repeatGrow (memory : Memory) (ring : Buffer UInt8) (windowSize position : ℕ) (byte : UInt8)
    (stop : ℕ) : Except DecodeError (Memory × Buffer UInt8) :=
  let desired := ringSize ring.len windowSize stop
  match memory.reserve 1 ring desired with
  | .error e => .error e
  | .ok (memory, ring) =>
    let ring := { ring with get := fill ring.get position (ring.len - position) byte }
    .ok (memory, ring.resize desired byte)

/-- The two most recent bytes before `position`, zero before any output. -/
def previousBytes (ring : ℕ → UInt8) (len position : ℕ) : UInt8 × UInt8 :=
  if 2 ≤ position then (ring (historyIndex len (position - 1)),
    ring (historyIndex len (position - 2)))
  else if position = 0 then (0, 0) else (ring 0, 0)

end Mbrotli
