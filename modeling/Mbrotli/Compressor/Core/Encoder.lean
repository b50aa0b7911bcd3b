/-
# The encoder a quality routes to

`EncoderState` is an encoder without the storage it writes into, and
`Encoder.Represents` says which one an encoder is in: what it hands out depends on
nothing else.
-/
import Mathlib.Tactic.IntervalCases
import Mbrotli.Compressor.Core.BlockEncoder

namespace Mbrotli.Compressor
open BitString

variable {A : Type} (K : Kernels A)

inductive Encoder where
  /-- Qualities zero and one: one fragment at a time. -/
  | fast (encoder : FastEncoder K.fragment)
  /-- Qualities two to nine. -/
  | greedy (encoder : GreedyEncoder K)
  /-- Qualities ten and eleven. -/
  | hq (encoder : HqEncoder K)

/-- The quality as the greedy encoder numbers it, and the high-quality one. -/
def greedyQuality : Fin 12 → Option GreedyQuality
  | 2 => some .q2
  | 3 => some .q3
  | 4 => some .q4
  | 5 => some .q5
  | 6 => some .q6
  | 7 => some .q7
  | 8 => some .q8
  | 9 => some .q9
  | _ => none

def hqQuality : Fin 12 → Option HqQuality
  | 10 => some .q10
  | 11 => some .q11
  | _ => none

namespace Encoder

variable {K}

variable (K) in
/-- The encoder `params` asks for; a size hint of theirs wins over the caller's. -/
def new (params : CompressParams) (sizeHint : ℕ) : Except CompressError (Encoder K) :=
  match FastEncoder.new K.fragment params with
  | .ok e => .ok (.fast e)
  | .error (.unsupportedQuality _) =>
    match greedyQuality params.quality with
    | some quality =>
        (GreedyEncoder.new K params quality (params.sizeHint.getD sizeHint)).map .greedy
    | none =>
      match hqQuality params.quality with
      | some quality => .ok (.hq (HqEncoder.new K params quality))
      | none => .error (.unsupportedQuality params.quality)
  | .error e => .error e

/-- Restores an encoder kept from an earlier stream, if these parameters would build its shape. -/
def resetFor (e : Encoder K) (params : CompressParams) (sizeHint : ℕ) : Option (Encoder K) :=
  match e with
  | .fast f => if f.matchesParams params then some (.fast f.reset) else none
  | .greedy g => (greedyQuality params.quality).bind fun quality =>
    (GreedyEncoder.resetFor K g params quality (params.sizeHint.getD sizeHint)).map .greedy
  | .hq h => (hqQuality params.quality).bind fun quality =>
      (HqEncoder.resetFor K h params quality).map .hq

variable (K) in
/-- The kept encoder if it fits, or a new one. -/
def acquire (kept : Option (Encoder K)) (params : CompressParams) (sizeHint : ℕ) :
    Except CompressError (Encoder K) :=
  match kept.bind fun e => e.resetFor params sizeHint with
  | some e => .ok e
  | none => new K params sizeHint

/-- The largest input one block takes. -/
def blockSizeLimit : Encoder K → ℕ
  | .fast e => e.blockSizeLimit
  | .greedy e => e.gathering.inputBlockSize
  | .hq e => e.gathering.inputBlockSize

/-- Re-aims an encoder that has encoded no input; only the greedy search reads the hint. -/
def retargetSizeHint (e : Encoder K) (params : CompressParams) (expectedInput : ℕ) :
    Except CompressError (Encoder K) :=
  match e with
  | .greedy g =>
    match greedyQuality params.quality with
    | some quality => (GreedyEncoder.retargetSizeHint K g params quality expectedInput).map .greedy
    | none => .error (.unsupportedQuality params.quality)
  | e => .ok e

def encodeBlockWith (e : Encoder K) (input : List UInt8) (isLast : Bool) (attached : Option A) :
    Except CompressError (List UInt8 × Encoder K) :=
  match e with
  | .fast e => (e.encodeBlock input isLast).map fun r => (r.1, .fast r.2)
  | .greedy e => (e.encodeBlockWith input isLast attached).map fun r => (r.1, .greedy r.2)
  | .hq e => (e.encodeBlockWith input isLast attached).map fun r => (r.1, .hq r.2)

def flushBlock (e : Encoder K) (input : List UInt8) (attached : Option A) :
    Except CompressError (List UInt8 × Encoder K) :=
  match e with
  | .fast e => (e.flushBlock input).map fun r => (r.1, .fast r.2)
  | .greedy e => (e.flushBlock input attached).map fun r => (r.1, .greedy r.2)
  | .hq e => (e.flushBlock input attached).map fun r => (r.1, .hq r.2)

end Encoder

/-! ### Without the storage -/

inductive EncoderState where
  | fast (independent : Bool) (state : FastState K.fragment)
  | greedy (encoder : GreedyEncoder K)
  | hq (encoder : HqEncoder K)

namespace EncoderState

variable {K}

/-- One block's bytes. -/
def block (attached : Option A) (s : EncoderState K) (input : List UInt8) (isLast : Bool) :
    Except CompressError (List UInt8 × EncoderState K) :=
  match s with
  | .fast independent s => .ok ((s.fragment independent input isLast).1,
      .fast independent (s.fragment independent input isLast).2)
  | .greedy e => (e.encodeBlockWith input isLast attached).map fun r => (r.1, .greedy r.2)
  | .hq e => (e.encodeBlockWith input isLast attached).map fun r => (r.1, .hq r.2)

/-- The bytes of a block that closes its meta-block and ends at a byte. -/
def flush (attached : Option A) (s : EncoderState K) (input : List UInt8) :
    Except CompressError (List UInt8 × EncoderState K) :=
  match s with
  | .fast independent s => .ok ((s.flush independent input).1,
      .fast independent (s.flush independent input).2)
  | .greedy e => (e.flushBlock input attached).map fun r => (r.1, .greedy r.2)
  | .hq e => (e.flushBlock input attached).map fun r => (r.1, .hq r.2)

end EncoderState

namespace Encoder

variable {K} {attached : Option A} {e e' : Encoder K} {s : EncoderState K}
    {input bytes : List UInt8} {isLast : Bool}

/-- The encoder is in the state `s`. -/
inductive Represents : Encoder K → EncoderState K → Prop
  | fast {e : FastEncoder K.fragment} {s : FastState K.fragment} :
      e.Represents s → Represents (.fast e) (.fast e.independent s)
  | greedy (e : GreedyEncoder K) : Represents (.greedy e) (.greedy e)
  | hq (e : HqEncoder K) : Represents (.hq e) (.hq e)

theorem ok_of_map {ε α β : Type} {x : Except ε α} {f : α → β} {b : β} (h : x.map f = .ok b) :
    ∃ a, x = .ok a ∧ f a = b := by
  cases x with
  | error e => cases h
  | ok a =>
    cases h
    exact ⟨a, rfl, rfl⟩

/-- What a block's bytes are is the state's to say. -/
theorem encodeBlockWith_spec (h : e.Represents s) (hfit : input.length ≤ 2 ^ 24)
    (hlast : input = [] → isLast = true)
    (hrun : e.encodeBlockWith input isLast attached = .ok (bytes, e')) :
    ∃ s', s.block attached input isLast = .ok (bytes, s') ∧
    (isLast = false → e'.Represents s') := by
  unfold Encoder.encodeBlockWith at hrun
  cases h with
  | fast h =>
    obtain ⟨⟨bytes', e₁⟩, hblock, heq⟩ := ok_of_map hrun
    cases heq
    obtain ⟨h1, h2, h3, -⟩ := FastEncoder.encodeBlock_spec h hfit hlast hblock
    subst h1
    refine ⟨_, rfl, fun hopen => ?_⟩
    have hrep := h2 hopen
    rw [← h3] at hrep ⊢
    exact .fast hrep
  | greedy e =>
    obtain ⟨⟨bytes', e₁⟩, hblock, heq⟩ := ok_of_map hrun
    cases heq
    exact ⟨.greedy e₁, by rw [EncoderState.block, hblock]; rfl, fun _ => .greedy e₁⟩
  | hq e =>
    obtain ⟨⟨bytes', e₁⟩, hblock, heq⟩ := ok_of_map hrun
    cases heq
    exact ⟨.hq e₁, by rw [EncoderState.block, hblock]; rfl, fun _ => .hq e₁⟩

theorem flushBlock_spec (h : e.Represents s) (hfit : input.length ≤ 2 ^ 24)
    (hrun : e.flushBlock input attached = .ok (bytes, e')) :
    ∃ s', s.flush attached input = .ok (bytes, s') ∧ e'.Represents s' := by
  unfold Encoder.flushBlock at hrun
  cases h with
  | fast h =>
    obtain ⟨⟨bytes', e₁⟩, hblock, heq⟩ := ok_of_map hrun
    cases heq
    obtain ⟨h1, h2, h3, -⟩ := FastEncoder.flushBlock_spec h hfit hblock
    subst h1
    refine ⟨_, rfl, ?_⟩
    rw [← h3] at h2 ⊢
    exact .fast h2
  | greedy e =>
    obtain ⟨⟨bytes', e₁⟩, hblock, heq⟩ := ok_of_map hrun
    cases heq
    exact ⟨.greedy e₁, by rw [EncoderState.flush, hblock]; rfl, .greedy e₁⟩
  | hq e =>
    obtain ⟨⟨bytes', e₁⟩, hblock, heq⟩ := ok_of_map hrun
    cases heq
    exact ⟨.hq e₁, by rw [EncoderState.flush, hblock]; rfl, .hq e₁⟩

/-- A fast encoder that begins a stream. -/
structure FastFresh (params : CompressParams) (f : FastEncoder K.fragment) : Prop where
  quality : params.quality ≤ 1
  standard : params.lgwin.kind ≠ .large
  represents : f.Represents ⟨f.core, ofNat f.lastBytesBits f.lastBytes⟩
  limit_pos : 0 < f.blockSizeLimit
  limit_le : f.blockSizeLimit ≤ 2 ^ 24
  header : (f.lastBytes, f.lastBytesBits) =
    ((ResolvedWindow.new params).atLeast windowBitsFast).header

/-- An encoder of another family that begins a stream. -/
structure BlockFresh {k : BlockKernels A} (params : CompressParams) (e : BlockEncoder k) :
    Prop where
  quality : ¬ params.quality ≤ 1
  window : ¬ (params.lgwin.kind = .large ∧ params.quality ≤ 2)
  limit_pos : 0 < e.gathering.inputBlockSize
  limit_le : e.gathering.inputBlockSize ≤ 2 ^ 24
  unallocated : e.isAllocated = false
  inputPos : e.inputPos = e.lastProcessedPos
  header : (e.lastBytes, e.lastBytesBits) =
    streamHeader (ResolvedWindow.new params) params.streamOffset

/-- The encoder begins a stream of these parameters, whatever it keeps of an earlier one. -/
inductive Fresh (params : CompressParams) : Encoder K → Prop
  | fast {f : FastEncoder K.fragment} : FastFresh params f → Fresh params (.fast f)
  | greedy {g : GreedyEncoder K} : BlockFresh params g → Fresh params (.greedy g)
  | hq {h : HqEncoder K} : BlockFresh params h → Fresh params (.hq h)

variable {params : CompressParams} {sizeHint : ℕ}

end Encoder
end Mbrotli.Compressor
