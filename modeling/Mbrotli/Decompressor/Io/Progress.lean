/-
# The decompressing adapters get on

Over a sink that accepts and a source that serves, calls on the adapters come to something:
what is written is taken in, finishing reaches the end, and every read delivers something
until the end. Only a failure of the session's own, or an error of the other side, stops a
call. How long one call of the session may take is not the adapters' to say: `Returning` is
a session whose calls come back.
-/
import Mathlib.Data.Prod.Lex
import Mbrotli.Decompressor.Io.Reader
import Mbrotli.Shared.Serving

namespace Mbrotli

variable {σ τ : Type}

/-! ### Sessions -/

namespace DecoderSession

variable {program : Program} {s s' : DecoderSession} {c : Call} {calls : List Call}

/-- The payload has at most `limit` bytes. -/
def Bounded (program : Program) (s : DecoderSession) (limit : ℕ) : Prop :=
  ∀ calls s', Calls program s calls s' → s'.operation.totalOut ≤ limit

end DecoderSession

/-! ### The reader -/

namespace DecoderReader

variable {program : Program} {source : Source τ} {rest : τ → List UInt8} {tries interrupts : τ →
    ℕ} {s₀ : DecoderSession}
  {r r' : DecoderReader τ} {output after : Slice}

/-- There is room to read ahead, and an error that waits is a failure's. -/
structure Ready (r : DecoderReader τ) : Prop where
  room : 0 < r.buffer.length
  pending : r.pendingError ≠ none → r.failed = true

variable {turns fuel : ℕ} {e : Event} {events : List Event}

/-- What reading on comes to over a source that serves, from a session whose calls return. -/
structure Delivers (program : Program) (source : Source τ) (r : DecoderReader τ) : Prop where
  /-- Any reads with room deliver any number of bytes, or come to the end or a failure. -/
  reaches : ∀ count (ask : ℕ → Slice), (∀ k, (ask k).len ≠ 0) →
    ∃ events r', Run (Step program source) r events r' ∧
    (∀ k e, events[k]? = some e → e.asked = ask k) ∧
    ((∃ e ∈ events, e.AtEnd) ∨ r'.failed = true ∨ count ≤ (events.map Event.count).sum)
  /-- A payload that is bounded is read to its end, unless the session fails. -/
  ends : ∀ limit, r.session.Bounded program limit → ∀ ask : ℕ → Slice, (∀ k, (ask k).len ≠ 0) →
    ∃ events r', Run (Step program source) r events r' ∧
    (∀ k e, events[k]? = some e → e.asked = ask k) ∧
      ((∃ e ∈ events, e.AtEnd) ∨ r'.failed = true)

end DecoderReader

/-! ### The writer -/

namespace DecoderWriter

variable {program : Program} {sink : Sink σ} {tries interrupts : σ →
    ℕ} {s₀ : DecoderSession} {w w' : DecoderWriter σ}
  {input : List UInt8} {operation : DecodeOperation} {limit : ℕ}

/-- The errors still to be reported but for the session's: the sink's, and one that waits. -/
def patience (tries : σ → ℕ) (w : DecoderWriter σ) : ℕ :=
  2 * tries w.outbox.sink + (if w.pendingError = none then 0 else 1)

/-- How a call that fails leaves the writer: fewer errors are to come, or the session failed. -/
def Excused (tries : σ → ℕ) (w w' : DecoderWriter σ) : Prop :=
  w'.patience tries < w.patience tries ∨ w'.lifecycle = .failed

theorem drain_settles (hsink : sink.Accepts tries interrupts) (h : w.Sound program s₀) :
    ∃ r w', Settles (fun turns _ => w.drain sink turns) (r, w') ∧ w'.pendingError = w.pendingError ∧
      tries w'.outbox.sink ≤ tries w.outbox.sink ∧ ∀ e, r = .error e →
      tries w'.outbox.sink < tries w.outbox.sink := by
  obtain ⟨r, o, h1, h2⟩ :=
    @Outbox.drain_settles _ _ asU16 _ _ hsink _ (fun n hn => asU16_of_le (h.size ▸ hn))
      h.ledger.bounds
  exact ⟨r, { w with outbox := o }, h1.map _, rfl, h2.le, h2.lt⟩

variable {e : Event} {events : List Event}

/-- What calls on a writer come to over an accepting sink, from a session whose calls return
and whose payload is bounded. -/
structure Delivers (program : Program) (sink : Sink σ) (tries : σ → ℕ) (w : DecoderWriter σ) :
    Prop where
  /-- Input is taken in, until the member ends; an error is one less to come, or the session's. -/
  write : ∀ input, input ≠ [] → w.lifecycle = .accepting →
    ∃ r w', Step program sink w (.write input r) w' ∧
    ((∃ n, r = .ok n ∧ 0 < n) ∨ Excused tries w w' ∨ w'.session.isFinished = true)
  /-- Few retries of a finish reach its success. -/
  finish : ∃ errors : List IoError, errors.length ≤ w.patience tries ∧
    ((∃ w', Run (Step program sink) w (errors.map (fun e => .tryFinish (.error e)) ++
      [.tryFinish (.ok ())]) w') ∨
      ∃ w' e, Run (Step program sink) w (errors.map (fun e => .tryFinish (.error e)) ++
        [.tryFinish (.error e)]) w' ∧
        w'.lifecycle = .failed)

end DecoderWriter
end Mbrotli
