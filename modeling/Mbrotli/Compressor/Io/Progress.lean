/-
# The compressing adapters get on

Over a sink that accepts and a source that serves, every call on the adapters ends, and
comes to something: what is written is taken in, finishing reaches the end, and reading goes
through the whole stream (`EncoderWriter.delivers_of_run`, `EncoderReader.delivers_of_run`).
Only a failure of the session's own, or an error of the other side, stops a call.
-/
import Mathlib.Data.Prod.Lex
import Mbrotli.Compressor.Io.Reader
import Mbrotli.Compressor.Progress
import Mbrotli.Shared.Serving

namespace Mbrotli.Compressor

variable {A : Type} {K : Kernels A} {σ τ : Type}

namespace EncoderWriter

variable {sink : Sink σ} {tries interrupts : σ →
    ℕ} {s₀ : EncoderSession K} {w w' : EncoderWriter K σ} {input buf : List UInt8}
  {operation : Operation}

/-- The session failed a call. -/
def Refused (w : EncoderWriter K σ) : Prop := ∃ c ∈ w.calls, ∃ e, c.result = .error e

/-- How a call leaves the sink: an error of it is one less to come, and no other error is
reported but the session's. -/
structure Served {α : Type} (tries : σ → ℕ) (w w' : EncoderWriter K σ) (r : Except IoError α) :
    Prop where
  le : tries w'.outbox.sink ≤ tries w.outbox.sink
  cause : ∀ e, r = .error e → tries w'.outbox.sink < tries w.outbox.sink ∨ w'.Refused

theorem Served.trans {α β : Type} {w'' : EncoderWriter K σ} {a : α} {r : Except IoError β}
    (h : Served tries w w' (.ok a : Except IoError α)) (h' : Served tries w' w'' r) :
    Served tries w w'' r :=
  ⟨h'.le.trans h.le, fun e he => (h'.cause e he).imp (fun hlt => hlt.trans_le h.le) id⟩

theorem Served.error {α β : Type} {e : IoError}
    (h : Served tries w w' (.error e : Except IoError α)) :
    Served tries w w' (.error e : Except IoError β) :=
  ⟨h.le, fun _ _ => h.cause e rfl⟩

theorem drain_settles (hsink : sink.Accepts tries interrupts) (h : w.Sound s₀) :
    ∃ r w', Settles (fun turns _ => w.drain sink turns) (r, w') ∧ Served tries w w' r := by
  obtain ⟨r, o, h1, h2⟩ := @Outbox.drain_settles _ _ id _ _ hsink _ (fun _ _ => rfl) h.ledger.bounds
  exact ⟨r, { w with outbox := o }, h1.map _, h2.le, fun e he => Or.inl (h2.lt e he)⟩

variable {fuel turns : ℕ} {e : Event} {events : List Event}

/-- What every call on a writer comes to over an accepting sink. Only an error of the sink,
of which few are left, or a failed call of the session stands in for success. -/
structure Delivers (sink : Sink σ) (tries : σ → ℕ) (w : EncoderWriter K σ) : Prop where
  write : ∀ buf, buf ≠ [] → w.state = .opened → ∃ r w', Step sink w (.write buf r) w' ∧
    ((∃ n, r = .ok n ∧ 0 < n) ∨ tries w'.outbox.sink < tries w.outbox.sink ∨ w'.Refused)
  flush : ∃ r w', Step sink w (.flush r) w' ∧
    (r = .ok () ∨ tries w'.outbox.sink < tries w.outbox.sink ∨ w'.Refused)
  /-- Few retries of a finish reach its success. -/
  finish : ∃ errors : List IoError, errors.length ≤ tries w.outbox.sink ∧
    ((∃ w', Run (Step sink) w (errors.map (fun e => .tryFinish (.error e)) ++ [.tryFinish (.ok ())])
      w') ∨
      ∃ w' e, Run (Step sink) w (errors.map (fun e => .tryFinish (.error e)) ++
        [.tryFinish (.error e)]) w' ∧ w'.Refused)

end EncoderWriter

/-! ### The reader -/

namespace EncoderReader

variable {source : Source τ} {rest : τ → List UInt8} {tries interrupts : τ →
    ℕ} {s₀ : EncoderSession K} {r r' : EncoderReader K τ}
  {cells after : List UInt8}

/-- The session failed a call. -/
def Refused (r : EncoderReader K τ) : Prop := ∃ c ∈ r.calls, ∃ e, c.result = .error e

/-- What there is of the source has been read or is to come, and its end was seen behind it. -/
structure Reading (rest : τ → List UInt8) (whole : List UInt8) (r : EncoderReader K τ) : Prop where
  whole : r.fetched ++ rest r.source = whole
  eof : r.eof = true → rest r.source = []

/-- What is left of the source counts for more than what waits in the buffer, and that for
more than what the session holds. -/
def debt (rest : τ → List UInt8) (tries : τ → ℕ) (r : EncoderReader K τ) : ℕ :=
  6 * (rest r.source).length + tries r.source + (if r.eof then 0 else 1) + 4 * r.buffered.length +
    r.session.debt

/-- What is left to do, and then what is left to deliver. -/
def weight (rest : τ → List UInt8) (tries : τ → ℕ) (r : EncoderReader K τ) : ℕ ×ₗ ℕ :=
  toLex (r.debt rest tries, r.session.owing)

variable {turns fuel : ℕ} {whole : List UInt8} {e : Event} {events : List Event}

/-- What reading on comes to over a source that serves: any reads with room reach the end of
the stream with the whole source read, unless a call of the session fails. -/
structure Delivers (source : Source τ) (whole : List UInt8) (r : EncoderReader K τ) : Prop where
  reaches : ∀ ask : ℕ → List UInt8, (∀ k, ask k ≠ []) → ∃ events r', Run (Step source) r events r' ∧
    (∀ k e, events[k]? = some e → e.cells = ask k) ∧
    ((∃ e ∈ events, e.AtEnd) ∧ r'.fetched = whole ∨ r'.Refused)
  /-- One read with room ends, with bytes or at the end of the stream, or by an error. -/
  returns : ∀ cells, cells ≠ [] → ∃ x r' after, Step source r (.read cells x after) r' ∧
    ∀ n, x = .ok n → 0 < n ∨ r'.finished = true

end EncoderReader
end Mbrotli.Compressor
