/-
# Decoder errors and configuration

`DecodeError` and `InvalidDataKind` are the source's error enumerations,
`DecoderConfig` its validated policy: the window limit, single or concatenated
members and the byte limits. `Fault` adds to the errors the Rust panic, which
ends a call without a result.
-/
import Mbrotli.Lib.Index
import Mathlib.Tactic.Linarith

namespace Mbrotli

/-- The largest `u64`, also the largest `usize`: targets are 64-bit. -/
def u64Max : ℕ := 2 ^ 64 - 1

inductive InvalidDataKind where
  | header | metaBlock | huffman | contextMap | distance | dictionaryReference | padding
  deriving DecidableEq, Repr

inductive DecodeError where
  | invalidData (kind : InvalidDataKind)
  | unexpectedEndOfInput
  | trailingData (offset : ℕ)
  | outputTooSmall (written : ℕ)
  | outputSizeMismatch (expected actual : ℕ)
  | inputLimitExceeded (limit : ℕ)
  | outputLimitExceeded (limit : ℕ)
  | windowLimitExceeded (declared allowed : ℕ)
  | largeWindowDisabled
  | memoryLimitExceeded (limit : ℕ)
  | allocationFailed
  | sizeOverflow
  | abandonedSession
  | invalidState
  | internalInvariant
  deriving DecidableEq, Repr

/-- What ends a computation early: a reported error, or a panic (an index out
of bounds), after which the call has no result. -/
inductive Fault where
  | error (e : DecodeError)
  | panic
  deriving DecidableEq, Repr

/-- `InvalidDataKind` as an error, as the source's `into()`. -/
abbrev InvalidDataKind.fault (k : InvalidDataKind) : Fault := .error (.invalidData k)

inductive WindowEncoding where
  | standard | large
  deriving DecidableEq, Repr

/-- A declared window: `10..=24` bits standard, `10..=62` bits large. -/
structure Window where
  bits : ℕ
  encoding : WindowEncoding
  deriving DecidableEq, Repr

def Window.standard (bits : ℕ) : Option Window :=
  if bits < 10 ∨ 24 < bits then none else some ⟨bits, .standard⟩

def Window.large (bits : ℕ) : Option Window :=
  if bits < 10 ∨ 62 < bits then none else some ⟨bits, .large⟩

theorem Window.standard_eq_some {bits : ℕ} {w : Window} (h : Window.standard bits = some w) :
    w = ⟨bits, .standard⟩ ∧ 10 ≤ bits ∧ bits ≤ 24 := by
  unfold Window.standard at h
  split at h
  · cases h
  · cases h
    exact ⟨rfl, by omega, by omega⟩

theorem Window.large_eq_some {bits : ℕ} {w : Window} (h : Window.large bits = some w) :
    w = ⟨bits, .large⟩ ∧ 10 ≤ bits ∧ bits ≤ 62 := by
  unfold Window.large at h
  split at h
  · cases h
  · cases h
    exact ⟨rfl, by omega, by omega⟩

inductive MemberMode where
  | single | concatenated
  deriving DecidableEq, Repr

structure WindowLimit where
  bits : ℕ
  large : Bool
  deriving DecidableEq, Repr

structure DecodeLimits where
  input : Option ℕ := none
  output : Option ℕ := none
  workspace : Option ℕ := none
  deriving DecidableEq, Repr

structure DecoderConfig where
  window : WindowLimit := ⟨62, true⟩
  members : MemberMode := .single
  limits : DecodeLimits := {}
  deriving DecidableEq, Repr

inductive OutputSize where
  | unknown
  | exact (size : ℕ)
  deriving DecidableEq, Repr

end Mbrotli
