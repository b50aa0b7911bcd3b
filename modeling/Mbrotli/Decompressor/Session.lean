/-
# Sessions

`DecoderSession` drives one operation on a decoder with the dictionary it started
with. `Calls` is a history of calls that returned: any inputs, any outputs and any
operations, with what each was given and what it reported.
-/
import Mbrotli.Decompressor.Core.Session
import Mbrotli.Lib.Run

namespace Mbrotli

structure DecoderSession where
  decoder : Decompressor
  dictionary : Option DictionaryRef
  operation : OperationState

/-- One call that returned. -/
structure Call where
  input : List UInt8
  output : Slice
  operation : DecodeOperation
  result : Except DecodeFailure DecodeProgress
  /-- The output after the call. -/
  written : Slice

namespace Call

def consumed (c : Call) : ℕ :=
  match c.result with
  | .ok progress => progress.consumed
  | .error failure => failure.consumed

def produced (c : Call) : ℕ :=
  match c.result with
  | .ok progress => progress.produced
  | .error failure => failure.produced

/-- Whether the call reported this status. -/
def Reports (c : Call) (status : DecoderStatus) : Prop :=
  ∃ consumed produced, c.result = .ok ⟨consumed, produced, status⟩

def Fails (c : Call) : Prop := ∃ failure, c.result = .error failure

/-- The bytes the call delivered. -/
def delivered (c : Call) : List UInt8 := c.written.take c.produced

end Call

namespace DecoderSession

def start (d : Decompressor) (exact : OutputSize) (dictionary : Option DictionaryRef) :
    Except DecodeError DecoderSession :=
  match OperationState.start d exact with
  | .error e => .error e
  | .ok (operation, decoder) => .ok { decoder, dictionary, operation }

def process (program : Program) (fuel : ℕ) (s : DecoderSession) (input : List UInt8)
    (output : Slice)
    (operation : DecodeOperation) :
    Option (Except DecodeFailure DecodeProgress × DecoderSession × Slice) :=
  match s.operation.process program fuel s.decoder s.dictionary input output operation .slice with
  | none => none
  | some (r, operation, decoder, written) => some (r, { s with operation, decoder }, written)

/-- Delivers what the input accepted so far still produces. -/
def flush (program : Program) (fuel : ℕ) (s : DecoderSession) (output : Slice) :
    Option (Except DecodeFailure DecodeProgress × DecoderSession × Slice) :=
  s.process program fuel [] output .process

/-- Declares the end of input with none left. -/
def finish (program : Program) (fuel : ℕ) (s : DecoderSession) (output : Slice) :
    Option (Except DecodeFailure DecodeProgress × DecoderSession × Slice) :=
  s.process program fuel [] output .finish

/-- Ends the operation. -/
def intoDecompressor (s : DecoderSession) : Decompressor := OperationState.release s.decoder

/-- Ends the operation and starts another in place; a session that cannot is failed. -/
def reinit (s : DecoderSession) (exact : OutputSize) : Except DecodeError Unit × DecoderSession :=
  let decoder := OperationState.release s.decoder
  match OperationState.start decoder exact with
  | .error e => (.error e, { s with decoder, operation := { s.operation with failed := true } })
  | .ok (operation, decoder) => (.ok (), { s with decoder, operation })

theorem reinit_ok {s s' : DecoderSession} {exact : OutputSize}
    (h : s.reinit exact = (.ok (), s')) :
    start s.intoDecompressor exact s.dictionary = .ok s' := by
  rw [reinit] at h
  rw [start, intoDecompressor]
  cases hstart : OperationState.start (OperationState.release s.decoder) exact with
  | error e =>
    rw [hstart] at h
    cases h
  | ok started =>
    rw [hstart] at h
    cases h
    rfl

/-- A session that cannot start again is latched, its decoder released. -/
theorem reinit_error {s s' : DecoderSession} {exact : OutputSize} {e : DecodeError}
    (h : s.reinit exact = (.error e, s')) :
    s'.operation.failed = true ∧ s'.decoder = s.intoDecompressor := by
  rw [reinit] at h
  cases hstart : OperationState.start (OperationState.release s.decoder) exact with
  | error e =>
    rw [hstart] at h
    cases h
    exact ⟨rfl, rfl⟩
  | ok started =>
    rw [hstart] at h
    cases h

/-- One call returned, whatever fuel it needed. -/
def Steps (program : Program) (s : DecoderSession) (c : Call) (s' : DecoderSession) : Prop :=
  ∃ fuel, s.process program fuel c.input c.output c.operation = some (c.result, s', c.written)

abbrev Calls (program : Program) : DecoderSession → List Call → DecoderSession → Prop :=
  Run (Steps program)

end DecoderSession
end Mbrotli
