/-
# Operations

`OperationState` is the progress and the lifecycle of one decoding operation; every
call receives the decoder and the dictionary. `OperationState.process` is one call:
it checks the lifecycle, runs members until it stops, and counts what it accepted and
delivered, on failure too.

A call that panics, or that outlives its fuel, has no result: `none`.
-/
import Mbrotli.Decompressor.Core.Stages

namespace Mbrotli

inductive RetentionPolicy where
  | aggressive
  | currentConfig
  | bounded (maxBytes : ℕ)
  | releaseAll
  deriving DecidableEq, Repr

/-- A reusable decoder. -/
structure Decompressor where
  config : DecoderConfig := {}
  retention : RetentionPolicy := .aggressive
  workspace : Stream := {}
  active : Bool := false

namespace Decompressor

def retainedBytes (d : Decompressor) : ℕ := d.workspace.retainedBytes

/-- Clears abandoned sessions and releases all owned workspace. -/
def recover (d : Decompressor) : Decompressor := { d with workspace := {}, active := false }

/-- Applies a retention policy once. -/
def trim (d : Decompressor) (policy : RetentionPolicy) : Decompressor :=
  match policy with
  | .releaseAll => { d with workspace := {} }
  | .bounded maxBytes => if maxBytes < d.retainedBytes then { d with workspace := {} } else d
  | _ => d

/-- Changes the policy and clears abandoned or previous stream state. -/
def reconfigure (d : Decompressor) (config : DecoderConfig) : Decompressor :=
  let d := if d.active ∨ d.retention = .releaseAll ∨
    (config ≠ d.config ∧ d.retention = .currentConfig)
    then d.recover else d
  { d with config, workspace := d.workspace.reset config, active := false }

end Decompressor

inductive DecodeOperation where
  | process | finish
  deriving DecidableEq, Repr

inductive DecoderStatus where
  | needsInput | needsOutput | finished
  deriving DecidableEq, Repr

structure DecodeProgress where
  consumed : ℕ
  produced : ℕ
  status : DecoderStatus
  deriving DecidableEq, Repr

structure DecodeFailure where
  error : DecodeError
  consumed : ℕ
  produced : ℕ
  deriving DecidableEq, Repr

/-- How one call delivers decoded bytes. -/
inductive Delivery where
  | slice
  | collect (capacity : ℕ)
  | linear
  deriving DecidableEq, Repr

structure OperationState where
  exact : OutputSize
  totalIn : ℕ := 0
  totalOut : ℕ := 0
  members : ℕ := 0
  window : Option Window := none
  finalEnd : ℕ := 0
  finishing : Bool := false
  boundary : Bool := false
  finished : Bool := false
  failed : Bool := false
  deriving DecidableEq, Repr

namespace OperationState

/-- Validates the stream against `decoder` and claims it for one operation. -/
def start (d : Decompressor) (exact : OutputSize) :
    Except DecodeError (OperationState × Decompressor) :=
  if d.active then .error .abandonedSession
  else match exact, d.config.limits.output with
  | .exact expected, some limit =>
    if limit < expected then .error (.outputLimitExceeded limit) else .ok (claim d)
  | _, _ => .ok (claim d)
where
  claim (d : Decompressor) : OperationState × Decompressor :=
    let d := match d.config.limits.workspace with
      | some limit => if limit < d.retainedBytes then d.recover else d
      | none => d
    ({ exact }, { d with workspace := d.workspace.reset d.config, active := true })

/-- What a member boundary leads to: the operation's end, a wait for input, or the
next member (`none`). -/
def atBoundary (op : OperationState) (config : DecoderConfig) (m : Machine) :
    Option (Except DecodeError DecoderStatus) :=
  if config.members = .single ∨ (op.finishing ∧ m.input.consumed = m.input.bytes.length) then
    match op.exact with
    | .exact expected =>
      if op.totalOut + m.output.produced ≠ expected then
        some (.error (.outputSizeMismatch expected (op.totalOut + m.output.produced)))
      else some (.ok .finished)
    | .unknown => some (.ok .finished)
  else if m.input.consumed = m.input.bytes.length then some (.ok .needsInput)
  else none

/-- One member's run, and what its end leads to: the call's result, or another
turn (`none`). -/
def member (env : Env) (fuel : ℕ) (op : OperationState) (m : Machine) :
    Option (Option (Except Fault DecoderStatus) × OperationState × Machine) :=
  match m.run env fuel with
  | none => none
  | some (r, m) =>
    let op := { op with window := m.stream.window.or op.window }
    match r with
    | .error f => some (some (.error f), op, m)
    | .ok .input =>
      some (some (if op.finishing then .error (.error .unexpectedEndOfInput) else .ok .needsInput),
        op, m)
    | .ok .output => some (some (.ok .needsOutput), op, m)
    | .ok .member =>
      let m := { m with output := { m.output with linear := false } }
      if u64Max < op.members + 1 then some (some (.error (.error .sizeOverflow)), op, m)
      else some (none, { op with members := op.members + 1, boundary := true }, m)

/-- Runs members until the call stops. -/
def loop (env : Env) : ℕ → OperationState → Machine →
    Option (Except Fault DecoderStatus × OperationState × Machine)
  | 0, _, _ => none
  | fuel + 1, op, m =>
    match if op.boundary then op.atBoundary env.config m else none with
    | some (.ok .finished) => some (.ok .finished, { op with finished := true }, m)
    | some (.ok status) => some (.ok status, op, m)
    | some (.error e) => some (.error (.error e), op, m)
    | none =>
      let m := if op.boundary then { m with stream := m.stream.reset env.config } else m
      match { op with boundary := false }.member env fuel m with
      | none => none
      | some (some r, op, m) => some (r, op, m)
      | some (none, op, m) => loop env fuel op m

/-- The buffers of one call. -/
def buffers (op : OperationState) (config : DecoderConfig) (stream : Stream) (input : List UInt8)
    (output : Slice) (delivery : Delivery) : Machine where
  stream := stream
  input := .new input op.totalIn config.limits.input
  output := {
    bytes := output
    collect := match delivery with
      | .collect capacity => some capacity
      | _ => none
    linear := delivery = .linear ∧ op.totalIn = 0 ∧ op.totalOut = 0
    produced := 0
    totalBefore := op.totalOut
    limit := config.limits.output
    exact := op.exact }

/-- What a call returns: its result, and the operation, decoder and output after it. -/
abbrev Returned := Except DecodeFailure DecodeProgress × OperationState × Decompressor × Slice

/-- Runs the members a call's buffers allow, and counts. -/
def drive (program : Program) (fuel : ℕ) (op : OperationState) (d : Decompressor)
    (dictionary : Option DictionaryRef) (input : List UInt8) (output : Slice)
    (delivery : Delivery) :
    Option Returned :=
  let env : Env := ⟨program, d.config, dictionary⟩
  match op.loop env fuel (op.buffers d.config d.workspace input output delivery) with
  | none | some (.error .panic, _, _) => none
  | some (.ok status, op, m) =>
    some (.ok ⟨m.input.consumed, m.output.produced, status⟩,
      { op with totalIn := op.totalIn + m.input.consumed, totalOut := op.totalOut +
        m.output.produced },
      { d with workspace := m.stream }, m.output.bytes)
  | some (.error (.error e), op, m) =>
    some (.error ⟨e, m.input.consumed, m.output.produced⟩,
      { op with
        totalIn := op.totalIn + m.input.consumed, totalOut := op.totalOut + m.output.produced
        failed := true },
      { d with workspace := m.stream }, m.output.bytes)

/-- Runs one call of the incremental contract. -/
def process (program : Program) (fuel : ℕ) (op : OperationState) (d : Decompressor)
    (dictionary : Option DictionaryRef) (input : List UInt8) (output : Slice)
    (operation : DecodeOperation) (delivery : Delivery) : Option Returned :=
  let invalid (e : DecodeError) : Option Returned :=
    some (.error ⟨e, 0, 0⟩, { op with failed := true }, d, output)
  if op.failed then invalid .invalidState
  else if op.finished then some (.ok ⟨0, 0, .finished⟩, op, d, output)
  else
    let stop := op.totalIn + input.length
    if u64Max < stop then invalid .sizeOverflow
    else if op.finishing then
      if operation ≠ .finish ∨ stop ≠ op.finalEnd then invalid .invalidState
      else op.drive program fuel d dictionary input output delivery
    else if operation = .finish then
      { op with finalEnd := stop, finishing := true }.drive program fuel d dictionary input
        output delivery
    else op.drive program fuel d dictionary input output delivery

/-- Ends the operation, leaving the decoder ready for the next one. -/
def release (d : Decompressor) : Decompressor :=
  { d with active := false, workspace := d.workspace.reset d.config }.trim d.retention

end OperationState
end Mbrotli
