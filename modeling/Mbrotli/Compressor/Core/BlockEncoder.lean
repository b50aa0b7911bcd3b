/-
# The encoders of qualities two to eleven

Both families gather blocks until a meta-block is worth writing, write it behind the
bits carried from the last one, and hand out its whole bytes. They differ in their
search and in what they gather at most.

What runs over the window is a parameter: `BlockKernels` has the search, the counts the
gathering looks at, and the meta-block writer. What is here is the order of the steps
and every early return.
-/
import Mbrotli.Compressor.Core.Fast
import Mbrotli.Shared.Ringbuffer

namespace Mbrotli.Compressor
open BitString

/-- The search and the meta-block writer of one family, over `Work`: the window, the
matcher, the gathered commands and the statistics. `A` is an attached dictionary. -/
structure BlockKernels (A : Type) where
  Work : Type
  /-- The window takes a block in. -/
  write : Work → List UInt8 → Work
  /-- The matcher is prepared, the last command extended and the block searched. -/
  createReferences : Work → BlockSpan → Bool → Option A → Work
  numLiterals : Work → ℕ
  numCommands : Work → ℕ
  /-- The literals behind the last command become a command. -/
  insertRest : Work → Work
  /-- The matcher starts over: positions wrapped. -/
  unprepare : Work → Work
  /-- A meta-block of so many bytes, the last or not. -/
  writeMetaBlock : Work → ℕ → Bool → BitWriter → BitWriter × Work
  /-- The next meta-block begins at this position. -/
  beginMetaBlock : Work → ℕ → Work

/-- What a family gathers before it writes. -/
structure Gathering where
  inputBlockSize : ℕ
  maxMetablockSize : ℕ
  /-- Symbols past which a quality without block splitting writes early. -/
  maxDelayed : Option ℕ

variable {A : Type}

structure BlockEncoder (k : BlockKernels A) where
  gathering : Gathering
  work : k.Work
  /-- The window holds input. -/
  isAllocated : Bool := false
  inputPos : ℕ := 0
  lastProcessedPos : ℕ := 0
  lastFlushPos : ℕ := 0
  lastBytes : ℕ
  lastBytesBits : ℕ
  isLastBlockEmitted : Bool := false
  finished : Bool := false
  storage : List UInt8 := []
  outputLen : ℕ := 0

namespace BlockEncoder

variable {k : BlockKernels A}

def copyInputToRingBuffer (e : BlockEncoder k) (input : List UInt8) : BlockEncoder k :=
  if input = [] then e
  else { e with work := k.write e.work input, isAllocated := true, inputPos := e.inputPos +
    input.length }

/-- The input counts as processed; a wrapped position starts the matcher over. -/
def updateLastProcessedPos (e : BlockEncoder k) : BlockEncoder k :=
  let wrapped := wrapPosition e.inputPos < wrapPosition e.lastProcessedPos
  { e with lastProcessedPos := e.inputPos, work := if wrapped then k.unprepare e.work else e.work }

def reserveStorage (e : BlockEncoder k) (size : ℕ) : Except CompressError (BlockEncoder k) := do
  let reserve ← FastEncoder.fragmentReserve size
  .ok { e with storage := growZeroed e.storage reserve }

def seedStorageWithThePartialByte (e : BlockEncoder k) : BlockEncoder k :=
  if e.storage.length < 2 then e
    else { e with storage := splice e.storage 0 (leBytes 2 e.lastBytes) }

/-- The two bits that close a stream that never had any input. -/
def emitEmptyStream (e : BlockEncoder k) : Except CompressError (BlockEncoder k) := do
  let e ← e.reserveStorage 0
  let e :=
    { e with lastBytes := e.lastBytes ||| (3 <<< e.lastBytesBits), lastBytesBits :=
    e.lastBytesBits + 2 }
  .ok { e.seedStorageWithThePartialByte
    with outputLen := (e.lastBytesBits + 7) >>> 3, finished := true }

/-- Whether the next block still fits, and nothing asks for the meta-block now. -/
def gathersMore (e : BlockEncoder k) : Bool :=
  let g := e.gathering
  let delayed := match g.maxDelayed with
    | some limit => limit ≤ k.numLiterals e.work + k.numCommands e.work
    | none => false
  !delayed && decide (e.inputPos - e.lastFlushPos + g.inputBlockSize ≤ g.maxMetablockSize) &&
    decide (k.numLiterals e.work < g.maxMetablockSize / 8) &&
    decide (k.numCommands e.work < g.maxMetablockSize / 8)

/-- Writes the gathered input as one meta-block. -/
def emit (e : BlockEncoder k) (isLast : Bool) : Except CompressError (BlockEncoder k) := do
  let metablockSize := e.inputPos - e.lastFlushPos
  let e ← e.reserveStorage metablockSize
  let e := e.seedStorageWithThePartialByte
  let (w, work) :=
    k.writeMetaBlock e.work metablockSize isLast
      { storage := e.storage, position := e.lastBytesBits }
  if w.overflowed then .error .bufferOverflow
  else
    let complete := w.position / 8
    let e := { e with
      storage := w.storage
      lastBytes := (w.byte complete).toNat
      lastBytesBits := w.position % 8
      lastFlushPos := e.inputPos
      work := k.beginMetaBlock work e.inputPos }
    .ok { e.updateLastProcessedPos with outputLen := complete, finished := isLast }

/-- Processes the gathered input, and writes a meta-block if one is due. -/
def encodeData (e : BlockEncoder k) (isLast forceFlush : Bool) (attached : Option A) :
    Except CompressError (BlockEncoder k) :=
  let e := { e with outputLen := 0 }
  let delta := e.inputPos - e.lastProcessedPos
  if delta = 0 ∧ e.isAllocated = false then (if isLast then e.emitEmptyStream else .ok e)
  else if delta = 0 ∧ isLast = false ∧ forceFlush = false then .ok e
  else if e.isLastBlockEmitted then .error .bufferOverflow
  else
    let e := { e with
      isLastBlockEmitted := isLast
      work :=
        k.createReferences e.work ⟨wrapPosition e.lastProcessedPos,
          delta % 2 ^ 32⟩ isLast attached }
    if !isLast && !forceFlush && e.gathersMore then .ok e.updateLastProcessedPos
    else
      let e := { e with work := k.insertRest e.work }
      if isLast = false ∧ e.inputPos = e.lastFlushPos then .ok e else e.emit isLast

/-- Back to what the constructor left, but for the storage: `work` is the search reset. -/
def reset (e : BlockEncoder k) (gathering : Gathering) (work : k.Work) (header : ℕ × ℕ) :
    BlockEncoder k :=
  { gathering, work, lastBytes := header.1, lastBytesBits := header.2, storage := e.storage }

/-- What the scratch holds of the last call. -/
def output (e : BlockEncoder k) : Except CompressError (List UInt8 × BlockEncoder k) :=
  if e.storage.length < e.outputLen then .error .bufferOverflow
    else .ok (e.storage.take e.outputLen, e)

/-- Compresses one block: the bytes it completed. -/
def encodeBlockWith (e : BlockEncoder k) (input : List UInt8) (isLast : Bool)
    (attached : Option A) :
    Except CompressError (List UInt8 × BlockEncoder k) := do
  let e ← (e.copyInputToRingBuffer input).encodeData isLast false attached
  e.output

/-- Compresses a block that is not the last, closes the meta-block and pads to a byte. -/
def flushBlock (e : BlockEncoder k) (input : List UInt8) (attached : Option A) :
    Except CompressError (List UInt8 × BlockEncoder k) := do
  let e ← (e.copyInputToRingBuffer input).encodeData false true attached
  let e ← e.reserveStorage 0
  if e.storage.length < e.outputLen + bytePaddingSlack then .error .bufferOverflow
  else
    let (padded, tail, lastBytes, lastBytesBits) :=
      injectBytePadding e.lastBytes e.lastBytesBits (e.storage.drop e.outputLen)
    { e with
      storage := e.storage.take e.outputLen ++ tail, lastBytes, lastBytesBits
      outputLen := e.outputLen + padded }.output

end BlockEncoder

/-! ### The two families -/

/-- Symbols a quality without block splitting gathers at most. -/
def maxNumDelayedSymbols : ℕ := 0x2FFF

/-- `max_metablock_size` of both families. -/
def maxMetablockSize (lgwin lgblock : ℕ) : ℕ := 1 <<< min (1 + max lgwin lgblock) 24

/-- The search and writer of each family, and what they start from. The greedy matcher is
chosen by a size hint, and sized for the input that is expected. -/
structure Kernels (A : Type) where
  fragment : FragmentKernels
  greedy : BlockKernels A
  hq : BlockKernels A
  greedyWork : GreedyParams → ℕ → ℕ → greedy.Work
  hqWork : HqParams → hq.Work
  /-- The same search for another hint, if that keeps its shape. -/
  retarget : greedy.Work → GreedyParams → ℕ → ℕ → Option greedy.Work
  /-- The matcher's tables are allocated. -/
  materialize : greedy.Work → greedy.Work
  /-- The search of an earlier stream starts over. -/
  resetGreedy : greedy.Work → greedy.Work
  /-- The same, if the search is one for these parameters. -/
  resetHq : hq.Work → HqParams → Option hq.Work

variable (K : Kernels A)

abbrev GreedyEncoder := BlockEncoder K.greedy

abbrev HqEncoder := BlockEncoder K.hq

/-- The header a stream begins with; a continuation has none. -/
def streamHeader (window : ResolvedWindow) (streamOffset : ℕ) : ℕ × ℕ :=
  if streamOffset ≠ 0 then (0, 0) else window.header

def GreedyParams.gathering (p : GreedyParams) : Gathering where
  inputBlockSize := p.inputBlockSize
  maxMetablockSize := maxMetablockSize p.lgwin p.lgblock
  maxDelayed := if p.quality.splitsBlocks then none else some maxNumDelayedSymbols

def HqParams.gathering (p : HqParams) : Gathering where
  inputBlockSize := p.inputBlockSize
  maxMetablockSize := maxMetablockSize p.lgwin p.lgblock
  maxDelayed := none

/-- The output follows `sizeHint`; the storage is sized for `expectedInput` bytes. -/
def GreedyEncoder.expecting (params : CompressParams) (quality : GreedyQuality)
    (sizeHint expectedInput : ℕ) :
    Except CompressError (GreedyEncoder K) := do
  let resolved ← GreedyParams.new params quality
  let (lastBytes, lastBytesBits) := streamHeader resolved.window resolved.streamOffset
  .ok {
    gathering := resolved.gathering
    work := K.greedyWork resolved sizeHint expectedInput
    lastBytes, lastBytesBits }

def GreedyEncoder.new (params : CompressParams) (quality : GreedyQuality) (sizeHint : ℕ) :
    Except CompressError (GreedyEncoder K) :=
  GreedyEncoder.expecting K params quality sizeHint sizeHint

/-- Re-aims an encoder that has encoded no input at another hint. A new one keeps the
bits an empty flush has already written. -/
def GreedyEncoder.retargetSizeHint (e : GreedyEncoder K) (params : CompressParams)
    (quality : GreedyQuality)
    (expectedInput : ℕ) : Except CompressError (GreedyEncoder K) := do
  let sizeHint := params.sizeHint.getD 0
  let resolved ← GreedyParams.new params quality
  match K.retarget e.work resolved sizeHint expectedInput with
  | some work => .ok { e with work := K.materialize work }
  | none =>
    let rebuilt ← GreedyEncoder.expecting K params quality sizeHint expectedInput
    .ok { rebuilt with
      work := K.materialize rebuilt.work, lastBytes := e.lastBytes, lastBytesBits :=
        e.lastBytesBits }

/-- A kept encoder serves another stream if the hint keeps its shape. -/
def GreedyEncoder.resetFor (e : GreedyEncoder K) (params : CompressParams) (quality : GreedyQuality)
    (sizeHint : ℕ) :
    Option (GreedyEncoder K) :=
  match GreedyParams.new params quality with
  | .error _ => none
  | .ok fresh =>
    (K.retarget e.work fresh sizeHint sizeHint).map fun work =>
      e.reset fresh.gathering (K.resetGreedy work) (streamHeader fresh.window fresh.streamOffset)

def HqEncoder.new (params : CompressParams) (quality : HqQuality) : HqEncoder K :=
  let resolved := HqParams.new params quality
  let (lastBytes, lastBytesBits) := streamHeader resolved.window resolved.streamOffset
  { gathering := resolved.gathering
    work := K.hqWork resolved
    lastBytes, lastBytesBits }

/-- A kept encoder serves another stream of the same parameters. -/
def HqEncoder.resetFor (e : HqEncoder K) (params : CompressParams) (quality : HqQuality) :
    Option (HqEncoder K) :=
  let fresh := HqParams.new params quality
  (K.resetHq e.work fresh).map fun work =>
    e.reset fresh.gathering work (streamHeader fresh.window fresh.streamOffset)

end Mbrotli.Compressor
