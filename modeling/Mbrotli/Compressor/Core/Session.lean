/-
# Encoder sessions

A session runs one stream over the buffers of its compressor. `EncoderSession.start` checks
the stream and builds the encoder, `EncoderSession.process` runs one call, and a stream
that failed stays failed.
-/
import Mbrotli.Compressor.Core.Driver

namespace Mbrotli
namespace Compressor

/-- Why a stream or a call is refused. A failed reservation of memory is not modelled. -/
inductive EncodeError where
  | streamPositionOverflow (position inputBytes : ℕ)
  | outputTooSmall (provided : ℕ)
  | bound
  | dictionaryUnsupportedForQuality (quality : ℕ)
  | unsupportedStreamOffset (offset : ℕ)
  | abandonedSession
  | invalidState
  | internalInvariant
  deriving DecidableEq, Repr

def EncodeError.fromCore (error : CompressError) (provided : ℕ) : EncodeError :=
  match error with
  | .outputTooSmall => .outputTooSmall provided
  | .boundOverflow => .bound
  | .unsupportedLargeWindow _ | .unsupportedQuality _ | .bufferOverflow => .internalInvariant

/-- What the caller knows of the stream's length. -/
inductive InputSize where
  | unknown
  | exact (size : ℕ)
  deriving DecidableEq, Repr

def InputSize.hint : InputSize → ℕ
  | .unknown => 0
  | .exact size => min size u64Max

structure StreamConfig where
  inputSize : InputSize := .unknown
  streamOffset : ℕ := 0
  deriving DecidableEq, Repr

/-- The configuration of a compressor. -/
structure EncoderConfig where
  quality : Fin 12
  window : WindowBits
  blockSize : Option ℕ := none
  mode : CompressMode := .generic
  distance : DistanceCodes := {}
  literalContext : Bool := true

namespace EncoderConfig

def lower (c : EncoderConfig) (sizeHint : Option ℕ) : CompressParams :=
  { quality := c.quality, lgwin := c.window, lgblock := c.blockSize, mode := c.mode, sizeHint
    distanceCodes := c.distance, literalContextModeling := c.literalContext, streamOffset := 0 }

end EncoderConfig

/-- The largest logical position. -/
def maxPosition : ℕ := 2 ^ 63 - 1

end Compressor

variable {A : Type}

open Compressor in
/-- A compressor: its settings, and the encoder and buffers its streams use. -/
structure Compressor (K : Kernels A) where
  config : EncoderConfig
  workspace : Option (Encoder K) := none
  buffers : Buffers := {}
  active : Bool := false

namespace Compressor

variable {K : Kernels A}

def ensureAvailable (c : Compressor K) : Except EncodeError Unit :=
  if c.active then .error .abandonedSession else .ok ()

def checkDictionary (c : Compressor K) : Except EncodeError Unit :=
  if qualityReadsAPrefix c.config.quality then .ok ()
    else .error (.dictionaryUnsupportedForQuality c.config.quality)

/-- A dictionary needs a quality that reads it. -/
def checkAttached (c : Compressor K) (dictionary : Option A) : Except EncodeError Unit :=
  if dictionary.isSome then c.checkDictionary else .ok ()

def streamParams (c : Compressor K) (stream : StreamConfig) (sizeHint : ℕ) :
    Except EncodeError CompressParams :=
  let inputBytes := match stream.inputSize with
    | .exact size => size
    | .unknown => 0
  if maxPosition < stream.streamOffset + inputBytes
    then .error (.streamPositionOverflow stream.streamOffset inputBytes)
  else
    .ok { c.config.lower (some sizeHint) with
      streamOffset := min stream.streamOffset (2 ^ min c.config.window.bits 30 - 16) }

/-- A compressor that has compressed nothing. -/
def new (config : EncoderConfig) : Compressor K := { config }

/-- Checks the stream and takes the compressor for it: its kept encoder, or a new one. -/
def begin (c : Compressor K) (dictionary : Option A) (stream : StreamConfig) :
    Except EncodeError (ℕ × Compressor K) := do
  c.ensureAvailable
  if stream.streamOffset ≠ 0 ∧ c.config.quality < 2
    then .error (.unsupportedStreamOffset stream.streamOffset)
  else
    c.checkAttached dictionary
    let params ← c.streamParams stream stream.inputSize.hint
    match Encoder.acquire K c.workspace params 0 with
    | .error e => .error (.fromCore e 0)
    | .ok encoder => .ok (encoder.blockSizeLimit,
        { c with workspace := some encoder, buffers := {}, active := true })

/-- The most an inferred size hint says. -/
def maxInferredSizeHint : ℕ := 1 <<< 30

/-- Streams up to this length have their storage sized for it. -/
def sizedStorageLimit : ℕ := 4096

/-- Whether the size hint is still to be inferred. -/
inductive SizeHint where
  | settled
  | opened
  deriving DecidableEq, Repr

structure OperationState where
  state : StreamState
  stream : StreamConfig
  hint : SizeHint
  logicalPosition : ℕ
  deriving DecidableEq, Repr

structure EncoderSession (K : Kernels A) where
  compressor : Compressor K
  dictionary : Option A
  operation : OperationState

namespace OperationState

def new (limit : ℕ) (stream : StreamConfig) : OperationState where
  state := { limit, flint := stream.streamOffset ≠ 0 }
  stream
  hint := match stream.inputSize with
    | .unknown => .opened
    | .exact _ => .settled
  logicalPosition := stream.streamOffset

end OperationState

namespace EncoderSession

/-- Starts a stream. -/
def start (c : Compressor K) (dictionary : Option A) (stream : StreamConfig) :
    Except EncodeError (EncoderSession K) := do
  let (limit, compressor) ← c.begin dictionary stream
  .ok { compressor, dictionary, operation := .new limit stream }

/-- Settles an open size hint in the call that first encodes: a block fills, or a flush
or the end is asked for. -/
def inferSizeHint (s : EncoderSession K) (input : ℕ) (operation : Operation) :
    Except EncodeError (EncoderSession K) :=
  let known := s.compressor.buffers.staging.length + input
  if s.operation.hint = .settled then .ok s
  else if known = 0 ∨ (known < s.operation.state.blockLimit ∧ operation = .process) then .ok s
  else do
    let s := { s with operation := { s.operation with hint := .settled } }
    let params ← s.compressor.streamParams s.operation.stream (min known maxInferredSizeHint)
    match s.compressor.workspace with
    | none => .error .internalInvariant
    | some encoder =>
      match encoder.retargetSizeHint params (if operation = .finish ∧
        known ≤ sizedStorageLimit then known else 0) with
      | .error e => .error (.fromCore e 0)
      | .ok encoder => .ok { s with compressor := { s.compressor with workspace := some encoder } }

def fail (s : EncoderSession K) : EncoderSession K :=
  { s with operation := { s.operation with state := { s.operation.state with phase := .failed } } }

/-- Runs one call into a destination; `none` would be one that does not return. -/
def process (s : EncoderSession K) (input : List UInt8) (output : Destination)
    (operation : Operation) :
    Option (Except EncodeError Progress × EncoderSession K × Destination) :=
  if s.operation.state.phase = .failed then some (.error .invalidState, s, output)
  else if s.operation.state.phase ≠ .finished ∧
    maxPosition < s.operation.logicalPosition + input.length then
    some (.error (.streamPositionOverflow s.operation.logicalPosition input.length), s, output)
  else match s.inferSizeHint input.length operation with
    | .error e => some (.error e, s.fail, output)
    | .ok s =>
      match s.compressor.workspace with
      | none => some (.error .internalInvariant, s.fail, output)
      | some encoder =>
        (s.operation.state.process true s.dictionary encoder s.compressor.buffers input
          { destination := output }
            operation).map fun (r, w) =>
          let compressor := { s.compressor with workspace := some w.encoder, buffers := w.buffers }
          match r with
          | .error e =>
            (.error (.fromCore e 0),
              { s with compressor, operation := { s.operation with state := w.state } },
              w.output.destination)
          | .ok progress =>
            (.ok progress,
              { s with
                compressor
                operation := { s.operation with
                  state := w.state, logicalPosition :=
                    s.operation.logicalPosition + progress.consumed } },
              w.output.destination)

/-- The end is seen once everything pending was delivered. -/
def isFinished (s : EncoderSession K) : Bool :=
  s.operation.state.phase = .finished ∧ s.compressor.buffers.pending.length ≤
    s.compressor.buffers.served

end EncoderSession
end Compressor
end Mbrotli
