/-
# The compressing reader

`EncoderReader` yields the compressed form of a source. Source bytes wait in a buffer until
the session takes them in, and compressed bytes go straight to the caller;
`EncoderReader.account_of_run` says that they are the session's, once and in order.
-/
import Mbrotli.Compressor.Io.Writer

namespace Mbrotli.Compressor

variable {A : Type} {K : Kernels A} {τ : Type}

structure EncoderReader (K : Kernels A) (τ : Type) where
  session : EncoderSession K
  source : τ
  /-- `input[head..tail]` was read and not yet taken in by the session. -/
  input : List UInt8 := []
  head : ℕ := 0
  tail : ℕ := 0
  eof : Bool := false
  finished : Bool := false
  /-- What the source has yielded, and the session's calls; no code reads them. -/
  fetched : List UInt8 := []
  calls : List Call := []

namespace EncoderReader

/-- How many source bytes one refill asks for. -/
def fillChunk : ℕ := 64 * 1024

def new (session : EncoderSession K) (source : τ) : EncoderReader K τ := { session, source }

/-- What was read ahead: `into_parts` hands it back. -/
def buffered (r : EncoderReader K τ) : List UInt8 := (r.input.take r.tail).drop r.head

def fillLoop (source : Source τ) :
    ℕ → EncoderReader K τ → Option (Except IoError Unit × EncoderReader K τ)
  | 0, _ => none
  | fuel + 1, r =>
    match source.read r.source r.input.length with
    | (.ok [], s) => some (.ok (), { r with source := s, eof := true })
    | (.ok bytes, s) =>
      some (.ok (), { r with
        source := s
        input := bytes ++ r.input.drop bytes.length
        tail := min bytes.length r.input.length
        fetched := r.fetched ++ bytes })
    | (.error .interrupted, s) => fillLoop source fuel { r with source := s }
    | (.error e, s) => some (.error e, { r with source := s })

/-- Reads the next stretch of source bytes, retrying an interruption. -/
def fill (source : Source τ) (fuel : ℕ) (r : EncoderReader K τ) :
    Option (Except IoError Unit × EncoderReader K τ) :=
  fillLoop source fuel { r with head := 0, tail := 0, input := resized r.input fillChunk }

/-- Fills an empty buffer, unless the source has ended. -/
def refill (source : Source τ) (fuel : ℕ) (r : EncoderReader K τ) :
    Option (Except IoError Unit × EncoderReader K τ) :=
  if r.head = r.tail ∧ r.eof = false then r.fill source fuel else some (.ok (), r)

/-- What the session took in leaves the buffer. -/
def advance (r : EncoderReader K τ) (progress : Progress) : EncoderReader K τ :=
  let head := r.head + progress.consumed
  { r with
    head := if head = r.tail then 0 else head
    tail := if head = r.tail then 0 else r.tail
    finished := r.finished || progress.status = .finished }

/-- Hands the session what is buffered, and the caller's cells. -/
def pull (r : EncoderReader K τ) (cells : List UInt8) :
    Option (Except IoError Progress × EncoderReader K τ × List UInt8) :=
  let operation := if r.eof then .finish else .process
  match r.session.process r.buffered (.slice cells) operation with
  | none => none
  | some (result, session, written) =>
    let r :=
      { r with session, calls := r.calls ++
        [⟨r.buffered, .slice cells, operation, result, written⟩] }
    match result with
    | .error e => some (.error e.toIo, r, written.contents)
    | .ok progress =>
      some (.ok progress, r.advance progress, written.contents)

def readLoop (source : Source τ) (turns : ℕ) :
    ℕ → EncoderReader K τ → List UInt8 → Option (Except IoError ℕ × EncoderReader K τ × List UInt8)
  | 0, _, _ => none
  | fuel + 1, r, cells =>
    andThen ((r.refill source turns).map fun (x, r) => (x, r, cells)) fun _ (r, cells) =>
      andThen (r.pull cells) fun progress (r, cells) =>
        if 0 < progress.produced then some (.ok progress.produced, r, cells)
        else if r.finished then some (.ok 0, r, cells)
        else readLoop source turns fuel r cells

/-- Fills the caller's cells with the next compressed bytes: the count, and the cells then. -/
def read (source : Source τ) (fuel : ℕ) (r : EncoderReader K τ) (cells : List UInt8) :
    Option (Except IoError ℕ × EncoderReader K τ × List UInt8) :=
  if cells = [] ∨ r.finished then some (.ok 0, r, cells) else r.readLoop source fuel fuel cells

/-! ### Calls -/

/-- One call on the adapter: the caller's cells before and after it, and its result. -/
inductive Event where
  | read (cells : List UInt8) (result : Except IoError ℕ) (after : List UInt8)

namespace Event

def count : Event → ℕ
  | .read _ (.ok n) _ => n
  | _ => 0

/-- The caller's cells. -/
def cells : Event → List UInt8
  | .read cells _ _ => cells

/-- The bytes the caller got. -/
def delivered : Event → List UInt8
  | .read _ (.ok n) after => after.take n
  | _ => []

/-- A read with room that reports the end of the stream. -/
def AtEnd (e : Event) : Prop := ∃ cells after, e = .read cells (.ok 0) after ∧ cells ≠ []

end Event

/-- A call that returned, whatever the source answered. -/
inductive Step (source : Source τ) : EncoderReader K τ → Event → EncoderReader K τ → Prop
  | read {r r' : EncoderReader K τ} {cells after : List UInt8} {x : Except IoError ℕ} {fuel : ℕ} :
      r.read source fuel cells = some (x, r', after) → Step source r (.read cells x after) r'

/-! ### What a call keeps -/

variable {source : Source τ} {s₀ : EncoderSession K} {r r' r'' : EncoderReader K τ} {fuel turns : ℕ}
  {bytes bytes' cells after : List UInt8}

/-- The adapter's bytes are in order. -/
structure Sound (s₀ : EncoderSession K) (r : EncoderReader K τ) : Prop where
  run : EncoderSession.Calls s₀ r.calls r.session
  slices : ∀ c ∈ r.calls, c.output.IsSlice
  head_le : r.head ≤ r.tail
  tail_le : r.tail ≤ r.input.length
  fetched : r.fetched = (r.calls.map Call.taken).flatten ++ r.buffered
  /-- The stream only ends behind all of the source. -/
  ended : r.session.operation.state.phase = .finished → r.eof = true ∧ r.head = r.tail
  finished : r.finished = true → r.session.isFinished = true

/-- From `r` to `r'` the session delivered `bytes`. -/
structure Moves (s₀ : EncoderSession K) (r r' : EncoderReader K τ) (bytes : List UInt8) : Prop where
  sound : r'.Sound s₀
  calls : ∃ more, r'.calls = r.calls ++ more ∧ (more.map Call.delivered).flatten = bytes

theorem Sound.moves (h : r.Sound s₀) : r.Moves s₀ r [] := ⟨h, [], (List.append_nil _).symm, rfl⟩

theorem Moves.trans (h : r.Moves s₀ r' bytes) (h' : r'.Moves s₀ r'' bytes') :
    r.Moves s₀ r'' (bytes ++ bytes') := by
  obtain ⟨more, h1, h2⟩ := h.calls
  obtain ⟨more', h3, h4⟩ := h'.calls
  refine ⟨h'.sound, more ++ more', ?_, ?_⟩
  · rw [h3, h1, List.append_assoc]
  · rw [List.map_append, List.flatten_append, h2, h4]

variable {events : List Event}

/-- What the reads of a run come to. -/
structure Account (s₀ : EncoderSession K) (events : List Event) (r : EncoderReader K τ) : Prop where
  calls : EncoderSession.Calls s₀ r.calls r.session
  delivered : (events.map Event.delivered).flatten = (r.calls.map Call.delivered).flatten
  counts : (events.map Event.count).sum = ((r.calls.map Call.delivered).flatten).length
  fetched : r.fetched = (r.calls.map Call.taken).flatten ++ r.buffered
  /-- A read with room that yields nothing comes behind the whole stream of the whole source. -/
  ended : (∃ e ∈ events, e.AtEnd) → r.session.isFinished = true ∧ r.eof = true ∧
    r.fetched = (r.calls.map Call.taken).flatten ∧
    ∀ more s', EncoderSession.Calls r.session more s' → (∀ c ∈ more, c.output.IsSlice) →
      (more.map Call.delivered).flatten = []

end EncoderReader
end Mbrotli.Compressor
