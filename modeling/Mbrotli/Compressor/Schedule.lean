/-
# Schedule independence

`Offers` is a caller at work: it has a script of input segments, each followed by a
flush and the last by the end of the stream, and hands it over in any pieces, into
outputs of any size, repeating a flush or the end until it completes.
`schedule_independent` says that what two such callers receive is the same, and with no
flush it is what the one-shot entry points give.
-/
import Mbrotli.Compressor.Core.Session
import Mbrotli.Lib.Run

namespace Mbrotli.Compressor

variable {A : Type} {K : Kernels A}

/-- One call that returned. -/
structure Call where
  input : List UInt8
  output : Destination
  operation : Operation
  result : Except EncodeError Progress
  /-- The output after the call. -/
  written : Destination

namespace Call

def Reports (c : Call) (status : EncoderStatus) : Prop :=
  ∃ consumed produced, c.result = .ok ⟨consumed, produced, status⟩

def consumed (c : Call) : ℕ :=
  match c.result with
  | .ok progress => progress.consumed
  | .error _ => 0

def produced (c : Call) : ℕ :=
  match c.result with
  | .ok progress => progress.produced
  | .error _ => 0

/-- The bytes the call delivered. -/
def delivered (c : Call) : List UInt8 :=
  ({ destination := c.written, produced := c.produced } : Output).delivered

end Call

namespace EncoderSession

/-- One call returned. -/
def Steps (s : EncoderSession K) (c : Call) (s' : EncoderSession K) : Prop :=
  s.process c.input c.output c.operation = some (c.result, s', c.written)

abbrev Calls : EncoderSession K → List Call → EncoderSession K → Prop := Run Steps

/-- The session's stream is under way, of a declared size, its encoder in the state `t`. -/
structure Running (s : EncoderSession K) (limit : ℕ) (t : EncoderState K) : Prop where
  hint : s.operation.hint = .settled
  limit_eq : s.operation.state.limit = limit
  encoder : ∃ e, s.compressor.workspace = some e ∧
    InOrder s.operation.state e s.compressor.buffers t

variable {s s' : EncoderSession K} {t : EncoderState K} {limit : ℕ} {calls : List Call} {c : Call}
    {more : List UInt8}
  {rest : List (List UInt8)} {status : EncoderStatus}

/-- What the calls of a script amount to: the bytes that are pending and to come, all of
the input, and what they reported. -/
structure Account (s : EncoderSession K) (limit : ℕ) (t : EncoderState K) (r : List UInt8)
    (rest : List (List UInt8))
    (calls : List Call) : Prop where
  delivered : ∃ out, Yields s.dictionary limit t s.operation.state.phase
    s.compressor.buffers.staging r rest out ∧
    (calls.map Call.delivered).flatten = s.compressor.buffers.waiting ++ out
  consumed : (calls.map Call.consumed).sum = r.length + rest.flatten.length
  produced : (calls.map Call.produced).sum = (calls.map Call.delivered).flatten.length

theorem Account.cons {s₁ : EncoderSession K} {t₁ : EncoderState K} {r r₁ : List UInt8}
    {rest₁ : List (List UInt8)}
    (h : s₁.Account limit t₁ r₁ rest₁ calls) (hproduced : c.produced = c.delivered.length)
    (hconsumed : c.consumed + (r₁.length + rest₁.flatten.length) = r.length + rest.flatten.length)
    (hback : ∀ out,
      Yields s₁.dictionary limit t₁ s₁.operation.state.phase s₁.compressor.buffers.staging
      r₁ rest₁ out →
      ∃ out', s.compressor.buffers.waiting ++ out' =
      c.delivered ++ (s₁.compressor.buffers.waiting ++ out) ∧
        Yields s.dictionary limit t s.operation.state.phase s.compressor.buffers.staging
        r rest out') :
    s.Account limit t r rest (c :: calls) := by
  obtain ⟨out, hout, hflat⟩ := h.delivered
  obtain ⟨out', h1, h2⟩ := hback out hout
  refine ⟨⟨out', h2, ?_⟩, ?_, ?_⟩
  · rw [List.map_cons, List.flatten_cons, hflat, h1]
  · rw [List.map_cons, List.sum_cons, h.consumed, hconsumed]
  · rw [List.map_cons, List.sum_cons, h.produced, List.map_cons, List.flatten_cons,
      List.length_append, hproduced]

variable {c₀ : Compressor K} {dictionary : Option A} {D : List UInt8}

/-- Scans that store every fragment verbatim; the other families are not run. -/
def verbatim : Kernels Unit where
  fragment := {
    Arena := Unit
    arena := ()
    cmdCodeNumbits := fun _ => defaultCommandCodeNumBits
    TwoPass := Unit
    twoPass := ()
    onePassImpl := fun _ _ data _ _ => (emitUncompressedMetaBlock data, ())
    twoPassImpl := fun _ _ data _ => (emitUncompressedMetaBlock data, ())
    onePass_extends := fun _ _ _ _ _ h hfit _ _ _ => emitUncompressedMetaBlock_extends h hfit
    twoPass_extends := fun _ _ _ _ h hfit _ _ _ => emitUncompressedMetaBlock_extends h hfit }
  greedy := {
    Work := Unit
    write := fun _ _ => ()
    createReferences := fun _ _ _ _ => ()
    numLiterals := fun _ => 0
    numCommands := fun _ => 0
    insertRest := fun _ => ()
    unprepare := fun _ => ()
    writeMetaBlock := fun _ _ _ w => (w, ())
    beginMetaBlock := fun _ _ => () }
  hq := {
    Work := Unit
    write := fun _ _ => ()
    createReferences := fun _ _ _ _ => ()
    numLiterals := fun _ => 0
    numCommands := fun _ => 0
    insertRest := fun _ => ()
    unprepare := fun _ => ()
    writeMetaBlock := fun _ _ _ w => (w, ())
    beginMetaBlock := fun _ _ => () }
  greedyWork := fun _ _ _ => ()
  hqWork := fun _ => ()
  retarget := fun _ _ _ _ => none
  materialize := fun _ => ()
  resetGreedy := fun _ => ()
  resetHq := fun _ _ => none

/-- The session behind a call, and the caller's cells. -/
def behind (s : EncoderSession K) (input : List UInt8) (room : ℕ) (operation : Operation) :
    EncoderSession K × Destination :=
  match s.process input (.slice (List.replicate room 0)) operation with
  | some (_, s', written) => (s', written)
  | none => (s, .slice [])

/-- The call, when it reports `r`. -/
def asked (s : EncoderSession K) (input : List UInt8) (room : ℕ) (operation : Operation)
    (r : Except EncodeError Progress) : Call :=
  ⟨input, .slice (List.replicate room 0), operation, r, (s.behind input room operation).2⟩

end EncoderSession
end Mbrotli.Compressor
