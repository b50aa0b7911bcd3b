/-
# The compressing writer

`EncoderWriter` compresses what is written to it into a sink. A call that fails keeps what
was produced staged, and the next one delivers it first; `EncoderWriter.account_of_run` says
so of any calls, in any order, on any sink.
-/
import Mbrotli.Compressor.Accounting
import Mbrotli.Shared.Outbox

namespace Mbrotli.Compressor

variable {A : Type} {K : Kernels A} {σ : Type}

/-- The kind of the I/O error that carries an encoding failure. -/
def EncodeError.toIo : EncodeError → IoError
  | .outputTooSmall _ => .writeZero
  | .unsupportedStreamOffset _ | .streamPositionOverflow .. | .dictionaryUnsupportedForQuality _ =>
      .invalidInput
  | .abandonedSession | .invalidState => .invalidData
  | .bound | .internalInvariant => .other 0

/-- Where a writer is in the life of its stream. -/
inductive EncoderWriter.State where
  | opened
  | finishing
  | finished
  deriving DecidableEq, Repr

structure EncoderWriter (K : Kernels A) (σ : Type) where
  session : EncoderSession K
  outbox : Outbox σ
  state : EncoderWriter.State := .opened
  /-- The session's calls so far; no code reads them. -/
  calls : List Call := []

namespace EncoderWriter

/-- How much room a single pull from the session is offered. -/
def pullChunk : ℕ := 128 * 1024

def new (session : EncoderSession K) (sink : σ) : EncoderWriter K σ :=
  { session, outbox := { sink } }

def isFinished (w : EncoderWriter K σ) : Bool := w.state = .finished

def drain (sink : Sink σ) (fuel : ℕ) (w : EncoderWriter K σ) :
    Option (Except IoError Unit × EncoderWriter K σ) :=
  (w.outbox.drain sink id fuel).map fun (r, outbox) => (r, { w with outbox })

/-- Pulls at most one buffer from the session. -/
def pump (w : EncoderWriter K σ) (input : List UInt8) (operation : Operation) :
    Option (Except IoError Progress × EncoderWriter K σ) :=
  let cells := resized w.outbox.buffer pullChunk
  match w.session.process input (.slice cells) operation with
  | none => none
  | some (r, session, written) =>
    let w := { w with
      session
      outbox := { w.outbox with buffer := written.contents }
      calls := w.calls ++ [⟨input, .slice cells, operation, r, written⟩] }
    match r with
    | .error e => some (.error e.toIo, w)
    | .ok progress => some (.ok progress,
        { w with outbox := { w.outbox with tail := progress.produced } })

def flushSink (sink : Sink σ) (w : EncoderWriter K σ) :
    Option (Except IoError Unit × EncoderWriter K σ) :=
  some ((sink.flush w.outbox.sink).1,
    { w with outbox := { w.outbox with sink := (sink.flush w.outbox.sink).2 } })

/-- Offers the input until some of it is taken. A sink's error behind accepted bytes is for
a later call to report. -/
def writeLoop (sink : Sink σ) (turns : ℕ) (buf : List UInt8) :
    ℕ → EncoderWriter K σ → Option (Except IoError ℕ × EncoderWriter K σ)
  | 0, _ => none
  | fuel + 1, w =>
    andThen (w.pump buf .process) fun progress w =>
      if progress.consumed ≠ 0 then (w.drain sink turns).map fun (_, w) =>
      (.ok progress.consumed, w)
      else andThen (w.drain sink turns) fun _ w => writeLoop sink turns buf fuel w

def write (sink : Sink σ) (fuel : ℕ) (w : EncoderWriter K σ) (buf : List UInt8) :
    Option (Except IoError ℕ × EncoderWriter K σ) :=
  if w.state ≠ .opened then some (.error .invalidInput, w)
  else andThen (w.drain sink fuel) fun _ w =>
    if buf = [] then some (.ok 0, w) else w.writeLoop sink fuel buf fuel

def flushLoop (sink : Sink σ) (turns : ℕ) :
    ℕ → EncoderWriter K σ → Option (Except IoError Unit × EncoderWriter K σ)
  | 0, _ => none
  | fuel + 1, w =>
    andThen (w.pump [] .flush) fun progress w =>
      andThen (w.drain sink turns) fun _ w =>
        if progress.status ≠ .needsOutput then some (.ok (), w) else flushLoop sink turns fuel w

def flush (sink : Sink σ) (fuel : ℕ) (w : EncoderWriter K σ) :
    Option (Except IoError Unit × EncoderWriter K σ) :=
  if w.state ≠ .opened then w.flushSink sink
  else andThen (w.drain sink fuel) fun _ w =>
    andThen (w.flushLoop sink fuel fuel) fun _ w => w.flushSink sink

def finishLoop (sink : Sink σ) (turns : ℕ) :
    ℕ → EncoderWriter K σ → Option (Except IoError Unit × EncoderWriter K σ)
  | 0, _ => none
  | fuel + 1, w =>
    if w.session.isFinished then some (.ok (), w)
    else andThen (w.pump [] .finish) fun _ w =>
      andThen ({ w with state := .finishing }.drain sink turns) fun _ w =>
      finishLoop sink turns fuel w

def tryFinish (sink : Sink σ) (fuel : ℕ) (w : EncoderWriter K σ) :
    Option (Except IoError Unit × EncoderWriter K σ) :=
  if w.state = .finished then some (.ok (), w)
  else andThen (w.drain sink fuel) fun _ w =>
    andThen (w.finishLoop sink fuel fuel) fun _ w =>
      andThen (w.drain sink fuel) fun _ w =>
        andThen (w.flushSink sink) fun _ w => some (.ok (), { w with state := .finished })

/-- The sink, or the error and the adapter to try again with. -/
def finish (sink : Sink σ) (fuel : ℕ) (w : EncoderWriter K σ) :
    Option (Except (IoError × EncoderWriter K σ) σ) :=
  (w.tryFinish sink fuel).map fun
    | (.ok (), w) => .ok w.outbox.sink
    | (.error e, w) => .error (e, w)

/-! ### Calls -/

/-- One call on the adapter, and its result. -/
inductive Event where
  | write (buf : List UInt8) (result : Except IoError ℕ)
  | flush (result : Except IoError Unit)
  | tryFinish (result : Except IoError Unit)

namespace Event

/-- The count the call reported as accepted. -/
def count : Event → ℕ
  | .write _ (.ok n) => n
  | _ => 0

/-- The bytes it reported as accepted. -/
def accepted : Event → List UInt8
  | .write buf (.ok n) => buf.take n
  | _ => []

end Event

/-- A call that returned, whatever the sink answered. -/
inductive Step (sink : Sink σ) : EncoderWriter K σ → Event → EncoderWriter K σ → Prop
  | write {w w' : EncoderWriter K σ} {buf : List UInt8} {r : Except IoError ℕ} {fuel : ℕ} :
      w.write sink fuel buf = some (r, w') → Step sink w (.write buf r) w'
  | flush {w w' : EncoderWriter K σ} {r : Except IoError Unit} {fuel : ℕ} :
      w.flush sink fuel = some (r, w') → Step sink w (.flush r) w'
  | tryFinish {w w' : EncoderWriter K σ} {r : Except IoError Unit} {fuel : ℕ} :
      w.tryFinish sink fuel = some (r, w') → Step sink w (.tryFinish r) w'

/-! ### What a call keeps -/

variable {sink : Sink σ} {s₀ : EncoderSession K} {w w' w'' : EncoderWriter K σ} {fuel turns : ℕ}
    {bytes bytes' : List UInt8}

/-- The adapter's bytes are in order. -/
structure Sound (s₀ : EncoderSession K) (w : EncoderWriter K σ) : Prop where
  ledger : Ledger EncoderSession.Steps Call.delivered s₀ w.session w.calls w.outbox
  slices : ∀ c ∈ w.calls, c.output.IsSlice

/-- From `w` to `w'` the session took in `bytes`. -/
structure Moves (s₀ : EncoderSession K) (w w' : EncoderWriter K σ) (bytes : List UInt8) : Prop where
  sound : w'.Sound s₀
  took : Took Call.taken Call.consumed w.calls w'.calls w.outbox w'.outbox bytes

theorem Sound.moves (h : w.Sound s₀) : w.Moves s₀ w [] := ⟨h, .none (List.prefix_refl _)⟩

theorem Moves.trans (h : w.Moves s₀ w' bytes) (h' : w'.Moves s₀ w'' bytes') :
    w.Moves s₀ w'' (bytes ++ bytes') :=
  ⟨h'.sound, h.took.trans h'.took⟩

/-- All was delivered, and the session has nothing more. -/
structure Done (w : EncoderWriter K σ) : Prop where
  session : w.session.isFinished = true
  delivered : w.outbox.tail = 0

/-- What holds between calls. -/
structure Between (s₀ : EncoderSession K) (w : EncoderWriter K σ) : Prop where
  sound : w.Sound s₀
  done : w.state = .finished → w.Done

variable {e : Event} {events : List Event}

/-- What the calls on a writer come to: nothing is lost, repeated or made up. -/
structure Account (sink : Sink σ) (w₀ : EncoderWriter K σ) (events : List Event)
    (w : EncoderWriter K σ) : Prop where
  calls : EncoderSession.Calls w₀.session w.calls w.session
  received : w.outbox.received <+: (w.calls.map Call.delivered).flatten
  staged : w.outbox.received ++ w.outbox.undelivered = (w.calls.map Call.delivered).flatten
  accepted : (events.map Event.accepted).flatten = (w.calls.map Call.taken).flatten
  counts : (events.map Event.count).sum = (w.calls.map Call.consumed).sum
  /-- Behind a finish that succeeded the sink has the whole stream, of which no more comes. -/
  finished : .tryFinish (.ok ()) ∈ events → w.session.isFinished = true ∧
    w.outbox.received = (w.calls.map Call.delivered).flatten ∧
    ∀ more s', EncoderSession.Calls w.session more s' → (∀ c ∈ more, c.output.IsSlice) →
      (more.map Call.delivered).flatten = []
  /-- Whatever is called behind it changes nothing, and finishing again succeeds. -/
  again : ∀ before after, events = before ++ .tryFinish (.ok ()) :: after →
    ∃ w₁, Run (Step sink) w₀ (before ++ [.tryFinish (.ok ())]) w₁ ∧
    w.outbox.received = w₁.outbox.received ∧
      w.session = w₁.session ∧ w.calls = w₁.calls ∧ ∀ r, .tryFinish r ∈ after → r = .ok ()

end EncoderWriter
end Mbrotli.Compressor
