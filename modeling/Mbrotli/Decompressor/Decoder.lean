/-
# One-shot decoding

The four one-shot shapes of `Decompressor`: into a new vector, appended to one, into
a slice that is also the first member's history, and into uninitialized memory.
Allocation is taken to succeed. A shape that has no result, because a call panics or
outlives its fuel, is `none`.
-/
import Mbrotli.Decompressor.Core.Session
import Mbrotli.Decompressor.Core.Stored

namespace Mbrotli

namespace Decompressor

/-- The payload of `src` when it is one complete stored member that may be copied
out directly. -/
def storedOneShot (d : Decompressor) (src : List UInt8) : Option (List UInt8) :=
  if d.active ∨ d.config.members ≠ .single ∨ d.config.limits ≠ {} then none
  else storedPayload src d.config.window

/-- The window-sized collection the owned vector may take over. -/
def collectCapacity (op : OperationState) : ℕ :=
  match op.window with
  | none => 0
  | some window => 2 ^ window.bits

/-- The rest of a finished decode's input is trailing data. -/
def checkConsumed (consumed : ℕ) (src appended : List UInt8) : Except DecodeError (List UInt8) :=
  if consumed ≠ src.length then .error (.trailingData consumed) else .ok appended

/-- Decodes the rest of `src` chunk by chunk. -/
def decodeLoop (program : Program) (dictionary : Option DictionaryRef) (src : List UInt8) :
    ℕ → OperationState → Decompressor → ℕ → List UInt8 → ℕ →
      Option (Except DecodeError (List UInt8) × Decompressor)
  | 0, _, _, _, _, _ => none
  | fuel + 1, op, d, consumed, written, chunk =>
    match op.process program fuel d dictionary (src.drop consumed)
    ⟨fun _ => 0, chunk⟩ .finish .slice with
    | none => none
    | some (.error failure, _, d, _) => some (.error failure.error, d)
    | some (.ok progress, op, d, output) =>
      let consumed := consumed + progress.consumed
      let written := written ++ output.take progress.produced
      if progress.status = .finished then some (checkConsumed consumed src written, d)
      else decodeLoop program dictionary src fuel op d consumed written
        (min (max (chunk * 2) d.workspace.declaredRemaining) (2 ^ 24))

/-- The first chunk's length. -/
def firstChunk (d : Decompressor) (src : List UInt8) : ℕ :=
  min (max (max 256 (min (src.length * 4) (2 ^ 16))) d.workspace.declaredRemaining) (2 ^ 24)

/-- The session of `decodeInto`: the bytes it appends. -/
def decodeSession (program : Program) (fuel : ℕ) (dictionary : Option DictionaryRef)
    (src : List UInt8) (collect : Bool) (op : OperationState) (d : Decompressor) :
    Option (Except DecodeError (List UInt8) × Decompressor) :=
  -- Parse up to the first byte of output with no destination at all.
  match op.process program fuel d dictionary src .empty .finish .slice with
  | none => none
  | some (.error failure, _, d, _) => some (.error failure.error, d)
  | some (.ok probe, op, d, _) =>
    let consumed := probe.consumed
    if probe.status = .finished then some (checkConsumed consumed src [], d)
    else if collect then
      match op.process program fuel d dictionary (src.drop consumed) .empty .finish
          (.collect (collectCapacity op)) with
      | none => none
      | some (.error failure, _, d, _) => some (.error failure.error, d)
      | some (.ok progress, op, d, _) =>
        let consumed := consumed + progress.consumed
        if progress.status = .finished then
          if consumed ≠ src.length then some (.error (.trailingData consumed), d)
          else
            let (taken, workspace) := d.workspace.takeCollected
            some (.ok taken, { d with workspace })
        else
          -- A member larger than its window needs ordinary delivery from here.
          decodeLoop program dictionary src fuel op d consumed d.workspace.collected
            (d.firstChunk src)
    else decodeLoop program dictionary src fuel op d consumed [] (d.firstChunk src)

/-- Appends a decoded operation to `dst`, rolling back on error. -/
def decodeInto (program : Program) (fuel : ℕ) (d : Decompressor) (dictionary : Option DictionaryRef)
    (src dst : List UInt8) (capacity : ℕ) :
    Option (Except DecodeError (ℕ × ℕ) × Decompressor × List UInt8) :=
  let collect := decide (dst = [] ∧ capacity = 0 ∧ d.retainedBytes = 0 ∧
    d.config.members = .single) &&
    dictionary.isNone
  match OperationState.start d .unknown with
  | .error e => some (.error e, d, dst)
  | .ok (op, d) =>
    match decodeSession program fuel dictionary src collect op d with
    | none => none
    | some (.error e, d) => some (.error e, OperationState.release d, dst)
    | some (.ok appended, d) =>
      some (.ok (dst.length, dst.length + appended.length), OperationState.release d,
        dst ++ appended)

/-- Decodes all input into a new vector. -/
def decompress (program : Program) (fuel : ℕ) (d : Decompressor) (src : List UInt8) :
    Option (Except DecodeError (List UInt8) × Decompressor) :=
  match d.storedOneShot src with
  | some payload => some (.ok payload, d.trim d.retention)
  | none => match d.decodeInto program fuel none src [] 0 with
    | none => none
    | some (.error e, d, _) => some (.error e, d)
    | some (.ok _, d, dst) => some (.ok dst, d)

/-- Appends a decoded operation to `dst`, a vector of `capacity` bytes. -/
def decompressInto (program : Program) (fuel : ℕ) (d : Decompressor) (src dst : List UInt8)
    (capacity : ℕ) : Option (Except DecodeError (ℕ × ℕ) × Decompressor × List UInt8) :=
  d.decodeInto program fuel none src dst capacity

/-- What the single `Finish` call of a fixed-slice decode means. -/
def oneShotOutcome (progress : DecodeProgress) (inputLen : ℕ) : Except DecodeError ℕ :=
  if progress.status = .needsOutput then .error (.outputTooSmall progress.produced)
  else if progress.consumed ≠ inputLen then .error (.trailingData progress.consumed)
  else .ok progress.produced

/-- One `Finish` call over a whole slice. -/
def decodeOnce (program : Program) (fuel : ℕ) (d : Decompressor) (dictionary : Option DictionaryRef)
    (src : List UInt8) (dst : Slice) (delivery : Delivery) :
    Option (Except DecodeError ℕ × Decompressor × Slice) :=
  match OperationState.start d .unknown with
  | .error e => some (.error e, d, dst)
  | .ok (op, d) =>
    match op.process program fuel d dictionary src dst .finish delivery with
    | none => none
    | some (.error failure, _, d, dst) => some (.error failure.error, OperationState.release d, dst)
    | some (.ok progress, _, d, dst) =>
      some (oneShotOutcome progress src.length, OperationState.release d, dst)

/-- Decodes into a slice, which is also the first member's history. -/
def decompressToSlice (program : Program) (fuel : ℕ) (d : Decompressor) (src : List UInt8)
    (dst : Slice) :
    Option (Except DecodeError ℕ × Decompressor × Slice) :=
  d.decodeOnce program fuel none src dst .linear

/-- Decodes into uninitialized memory. -/
def decompressToUninit (program : Program) (fuel : ℕ) (d : Decompressor) (src : List UInt8)
    (dst : Slice) :
    Option (Except DecodeError ℕ × Decompressor × Slice) :=
  match (d.storedOneShot src).filter fun payload => payload.length ≤ dst.len with
  | some payload =>
    some (.ok payload.length, d.trim d.retention,
      dst.copy 0 payload.length fun i => payload.getD i 0)
  | none => d.decodeOnce program fuel none src dst .slice

/-- Decodes all input into a new vector with an external dictionary. -/
def decompressWithDictionary (program : Program) (fuel : ℕ) (d : Decompressor)
    (dictionary : DictionaryRef) (src : List UInt8) :
    Option (Except DecodeError (List UInt8) × Decompressor) :=
  match d.decodeInto program fuel (some dictionary) src [] 0 with
  | none => none
  | some (.error e, d, _) => some (.error e, d)
  | some (.ok _, d, dst) => some (.ok dst, d)

/-! ### What a one-shot leaves behind -/

section oneShot

variable {program : Program} {fuel : ℕ} {d d' : Decompressor} {src dst dst' : List UInt8}
  {capacity : ℕ}

/-- A decode appends what it reports, or leaves the destination as it was. -/
theorem decodeInto_spec {dictionary : Option DictionaryRef} {r : Except DecodeError (ℕ × ℕ)}
    (h : d.decodeInto program fuel dictionary src dst capacity = some (r, d', dst')) :
    (∃ appended, r = .ok (dst.length, dst.length + appended.length) ∧ dst' = dst ++ appended) ∨
      (∃ e, r = .error e) ∧ dst' = dst := by
  rw [decodeInto] at h
  cases hstart : OperationState.start d .unknown with
  | error e =>
    rw [hstart] at h
    cases h
    exact .inr ⟨⟨e, rfl⟩, rfl⟩
  | ok started =>
    rw [hstart] at h
    dsimp only at h
    split at h
    · cases h
    · cases h
      exact .inr ⟨⟨_, rfl⟩, rfl⟩
    · cases h
      exact .inl ⟨_, rfl, rfl⟩

theorem decompressInto_ok {start stop : ℕ}
    (h : d.decompressInto program fuel src dst capacity = some (.ok (start, stop), d', dst')) :
    start = dst.length ∧ stop = dst'.length ∧ dst <+: dst' := by
  rcases decodeInto_spec h with ⟨appended, hr, rfl⟩ | ⟨⟨e, he⟩, -⟩
  · cases hr
    exact ⟨rfl, List.length_append.symm, List.prefix_append _ _⟩
  · cases he

/-- A decode that fails rolls its destination back. -/
theorem decompressInto_error {e : DecodeError}
    (h : d.decompressInto program fuel src dst capacity = some (.error e, d', dst')) :
    dst' = dst := by
  rcases decodeInto_spec h with ⟨appended, hr, -⟩ | ⟨-, hdst⟩
  · cases hr
  · exact hdst

/-- What a dictionary's one-shot returns is all a decode into an empty vector appends. -/
theorem decompressWithDictionary_ok {dictionary : DictionaryRef} {bytes : List UInt8}
    (h : d.decompressWithDictionary program fuel dictionary src = some (.ok bytes, d')) :
    d.decodeInto program fuel (some dictionary) src [] 0 =
    some (.ok (0, bytes.length), d', bytes) := by
  rw [decompressWithDictionary] at h
  split at h
  · cases h
  · cases h
  · rename_i range d₁ dst₁ hdecode
    cases h
    rcases decodeInto_spec hdecode with ⟨appended, hr, hdst⟩ | ⟨⟨e, he⟩, -⟩
    · cases hr
      rw [List.nil_append] at hdst
      rw [hdecode, hdst, List.length_nil, Nat.zero_add]
    · cases he

/-- **A fixed-slice decode that succeeds took in all of its input**, in the one `Finish`
call it makes, and reports what that call produced. -/
theorem decompressToSlice_ok {output written : Slice} {n : ℕ}
    (h : d.decompressToSlice program fuel src output = some (.ok n, d', written)) :
    ∃ op op' d₁ d₂ progress, OperationState.start d .unknown = .ok (op, d₁) ∧
      op.process program fuel d₁ none src output .finish .linear =
        some (.ok progress, op', d₂, written) ∧
      progress.consumed = src.length ∧ progress.produced = n ∧ progress.status ≠ .needsOutput ∧
      d' = OperationState.release d₂ := by
  rw [decompressToSlice, decodeOnce] at h
  cases hstart : OperationState.start d .unknown with
  | error e =>
    rw [hstart] at h
    cases h
  | ok started =>
    obtain ⟨op, d₁⟩ := started
    rw [hstart] at h
    dsimp only at h
    split at h
    · cases h
    · cases h
    · rename_i progress op' d₂ written₂ hprocess
      obtain ⟨hout, rfl, rfl⟩ :
          oneShotOutcome progress src.length = .ok n ∧ OperationState.release d₂ = d' ∧
            written₂ = written := by simpa using h
      rw [oneShotOutcome] at hout
      split at hout
      · cases hout
      rename_i hstatus
      split at hout
      · cases hout
      rename_i hconsumed
      cases hout
      exact ⟨op, op', d₁, d₂, progress, rfl, hprocess, not_not.mp hconsumed, rfl, hstatus, rfl⟩

end oneShot

end Decompressor
end Mbrotli
