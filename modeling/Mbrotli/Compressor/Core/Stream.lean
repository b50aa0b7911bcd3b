/-
# Block scheduling

One scheduler drives one-shot and incremental compression. It delivers what is pending,
gathers input up to a block, and encodes a block once it is known whether more follows:
a full block is held until the next byte, a flush or the end. A fast encoder writes
straight into a slice with room for the worst case, or behind a vector's bytes; anything
else goes through the encoder's scratch, and what does not fit waits for the next call.

`process_spec` is what one call does to the bytes still to come (`Emits`).
-/
import Mbrotli.Compressor.Core.Encoder

namespace Mbrotli.Compressor
open BitString

inductive Operation where
  | process
  | flush
  | finish
  deriving DecidableEq, Repr

inductive EncoderStatus where
  | needsInput
  | needsOutput
  | finished
  deriving DecidableEq, Repr

structure Progress where
  consumed : ℕ
  produced : ℕ
  status : EncoderStatus
  deriving DecidableEq, Repr

inductive Phase where
  | opened
  | flushed
  | finished
  | failed
  deriving DecidableEq, Repr

namespace Encoder

variable {A : Type} {K : Kernels A}

/-- Encodes one block for an operation: the bytes it completed. -/
def encode (e : Encoder K) (input : List UInt8) (operation : Operation) (attached : Option A) :
    Except CompressError (List UInt8 × Encoder K) :=
  match operation with
  | .flush => e.flushBlock input attached
  | .finish => e.encodeBlockWith input true attached
  | .process => e.encodeBlockWith input false attached

end Encoder

namespace EncoderState

variable {A : Type} {K : Kernels A}

/-- A block's bytes, by what it is encoded for. -/
def encode (attached : Option A) (s : EncoderState K) (input : List UInt8) (operation : Operation) :
    Except CompressError (List UInt8 × EncoderState K) :=
  match operation with
  | .flush => s.flush attached input
  | .finish => s.block attached input true
  | .process => s.block attached input false

end EncoderState

/-! ### The destination -/

/-- The caller's destination: initialized bytes, cells that are only written, or a vector
and how it grows. -/
inductive Destination where
  | slice (bytes : List UInt8)
  | uninit (cells : List (Option UInt8))
  | append (bytes : List UInt8) (grown : ℕ → ℕ)

/-- The bytes the destination holds. -/
def Destination.contents : Destination → List UInt8
  | .slice bytes => bytes
  | .uninit cells => cells.map (·.getD 0)
  | .append bytes _ => bytes

/-- The output of one call. -/
structure Output where
  destination : Destination
  produced : ℕ := 0

namespace Output

/-- Copies what fits; a vector takes everything. -/
def append (o : Output) (bytes : List UInt8) : ℕ × Output :=
  match o.destination with
  | .slice output =>
    let count := min bytes.length (output.length - o.produced)
    (count,
      { destination := .slice (splice output o.produced (bytes.take count)),
        produced := o.produced + count })
  | .uninit output =>
    let count := min bytes.length (output.length - o.produced)
    let cells := output.take o.produced ++ (bytes.take count).map some ++
      output.drop (o.produced + count)
    (count, { destination := .uninit cells, produced := o.produced + count })
  | .append output grown =>
    (bytes.length, { destination := .append (output ++ bytes) grown, produced := o.produced +
      bytes.length })

/-- The bytes this call has delivered. -/
def delivered (o : Output) : List UInt8 :=
  match o.destination with
  | .slice output => output.take o.produced
  | .uninit output => (output.take o.produced).map (·.getD 0)
  | .append output _ => output.drop (output.length - o.produced)

/-- The destination has room for what was produced. -/
def Fits (o : Output) : Prop :=
  match o.destination with
  | .slice output => o.produced ≤ output.length
  | .uninit output => o.produced ≤ output.length
  | .append output _ => o.produced ≤ output.length

theorem take_splice {bytes new : List UInt8} {start : ℕ} (h : start + new.length ≤ bytes.length) :
    (splice bytes start new).take (start + new.length) = bytes.take start ++ new := by
  have htake : (bytes.take start).length = start := by
    rw [List.length_take]
    omega
  rw [splice, List.append_assoc, ← List.append_assoc,
    List.take_append_of_le_length (by rw [List.length_append]; omega),
    List.take_of_length_le (by rw [List.length_append]; omega)]

theorem append_spec {o o' : Output} {bytes : List UInt8} {count : ℕ} (h : o.Fits)
    (happ : o.append bytes = (count, o')) :
    count ≤ bytes.length ∧ o'.delivered = o.delivered ++ bytes.take count ∧ o'.Fits ∧
    o'.produced = o.produced + count := by
  obtain ⟨destination, produced⟩ := o
  cases destination with
  | slice output =>
    rw [append] at happ
    cases happ
    rw [Fits] at h
    dsimp only at h
    have hlen : (bytes.take (min bytes.length (output.length - produced))).length =
        min bytes.length (output.length - produced) := by
      rw [List.length_take]
      omega
    have hroom : produced + (bytes.take (min bytes.length (output.length - produced))).length ≤
      output.length := by omega
    refine ⟨Nat.min_le_left _ _, ?_, ?_, rfl⟩
    · rw [delivered, delivered]
      dsimp only
      have htake := take_splice hroom
      rwa [hlen] at htake
    · rw [Fits]
      dsimp only
      rw [length_splice hroom]
      omega
  | uninit output =>
    rw [append] at happ
    cases happ
    rw [Fits] at h
    dsimp only at h
    have hlen :
      (output.take produced ++ (bytes.take (min bytes.length (output.length - produced))).map
        some).length =
        produced + min bytes.length (output.length - produced) := by
      rw [List.length_append, List.length_map, List.length_take, List.length_take]
      omega
    refine ⟨Nat.min_le_left _ _, ?_, ?_, rfl⟩
    · rw [delivered, delivered]
      dsimp only
      rw [List.take_append_of_le_length (by omega), List.take_of_length_le (by omega),
        List.map_append, List.map_map]
      congr 1
      exact List.map_id _
    · rw [Fits]
      dsimp only
      rw [List.length_append, hlen]
      omega
  | append output grown =>
    rw [append] at happ
    cases happ
    rw [Fits] at h
    dsimp only at h
    refine ⟨le_refl _, ?_, ?_, rfl⟩
    · rw [delivered, delivered, List.take_length]
      dsimp only
      rw [List.length_append, Nat.add_sub_add_right, List.drop_append_of_le_length (Nat.sub_le _ _)]
    · rw [Fits]
      dsimp only
      rw [List.length_append]
      omega

/-- A vector keeps its bytes in front of what is produced. -/
def Extends (o o' : Output) : Prop :=
  ∀ bytes grown, o.destination = .append bytes grown →
    ∃ tail, o'.destination = .append (bytes ++ tail) grown ∧ o'.produced = o.produced + tail.length

theorem Extends.trans {o o' o'' : Output} (h : o.Extends o') (h' : o'.Extends o'') :
    o.Extends o'' := by
  intro bytes grown hd
  obtain ⟨tail, h1, h2⟩ := h bytes grown hd
  obtain ⟨tail', h3, h4⟩ := h' _ _ h1
  refine ⟨tail ++ tail', ?_, ?_⟩
  · rw [h3, List.append_assoc]
  · rw [h4, h2, List.length_append, Nat.add_assoc]

/-- Behind a vector's bytes stand the ones delivered. -/
theorem Extends.contents {bytes : List UInt8} {grown : ℕ → ℕ} {o : Output}
    (h : ({ destination := .append bytes grown } : Output).Extends o) :
    o.destination.contents = bytes ++ o.delivered := by
  obtain ⟨tail, h1, h2⟩ := h bytes grown rfl
  have hproduced : o.produced = tail.length := by rw [h2, Nat.zero_add]
  rw [h1, delivered, h1, hproduced]
  show bytes ++ tail = bytes ++ (bytes ++ tail).drop _
  rw [List.length_append, Nat.add_sub_cancel, List.drop_left]

theorem append_extends {o o' : Output} {bytes : List UInt8} {count : ℕ}
    (h : o.append bytes = (count, o')) :
    o.Extends o' := by
  intro output grown hd
  rw [append, hd] at h
  cases h
  exact ⟨bytes, rfl, rfl⟩

end Output

variable {A : Type} {K : Kernels A}

/-! ### The scheduler -/

structure StreamState where
  phase : Phase := .opened
  limit : ℕ
  /-- A continuation's first two bytes are flushed on their own. -/
  flint : Bool
  deriving DecidableEq, Repr

namespace StreamState

/-- The most a stream gathers before it has to encode. -/
def blockLimit (s : StreamState) : ℕ := if s.flint then 2 else s.limit

end StreamState

/-- What is kept between calls: gathered input, and output that did not fit. -/
structure Buffers where
  staging : List UInt8 := []
  pending : List UInt8 := []
  served : ℕ := 0
  deriving DecidableEq, Repr

namespace Buffers

/-- The output still to be delivered. -/
def waiting (b : Buffers) : List UInt8 := b.pending.drop b.served

/-- Delivers what is pending; whether nothing is left. -/
def drain (b : Buffers) (o : Output) : Bool × Buffers × Output :=
  let (count, o) := o.append b.waiting
  let b := { b with served := b.served + count }
  if b.served < b.pending.length then (false, b, o)
    else (true, { b with pending := [], served := 0 }, o)

end Buffers

namespace Delivery

/-- Through the encoder's scratch: what the output took, and what it did not. A one-shot
destination (`allowPending` unset) has to take everything. -/
def scratch (allowPending : Bool) (attached : Option A) (encoder : Encoder K) (output : Output)
    (input : List UInt8)
    (operation : Operation) : Except CompressError (Encoder K × Output × List UInt8) := do
  let (bytes, encoder) ← encoder.encode input operation attached
  let (direct, output) := output.append bytes
  if direct < bytes.length ∧ allowPending = false then .error .outputTooSmall
  else .ok (encoder, output, bytes.drop direct)

/-- Encodes and delivers a block: the encoder, the output, and what did not fit. -/
def encode (allowPending : Bool) (attached : Option A) (encoder : Encoder K) (output : Output)
    (input : List UInt8)
    (operation : Operation) : Except CompressError (Encoder K × Output × List UInt8) :=
  if operation = .flush then scratch allowPending attached encoder output input operation
  else match encoder, output.destination with
    | .fast fast, .slice bytes => do
      let reserve ← FastEncoder.fragmentReserve input.length
      if reserve ≤ (bytes.drop output.produced).length then
        let (complete, tail, fast) ← fast.encodeBlockInto input (operation = .finish)
          (bytes.drop output.produced)
        .ok (.fast fast,
          { destination := .slice (bytes.take output.produced ++ tail),
            produced := output.produced + complete }, [])
      else scratch allowPending attached encoder output input operation
    | .fast fast, .append bytes grown => do
      let (bytes', fast) ← fast.encodeBlockAppend input (operation = .finish) grown bytes
      .ok (.fast fast,
        { destination := .append bytes' grown,
          produced := output.produced + (bytes'.length - bytes.length) }, [])
    | _, _ => scratch allowPending attached encoder output input operation

end Delivery

/-- What one call works on. -/
structure Work (K : Kernels A) where
  state : StreamState
  encoder : Encoder K
  buffers : Buffers
  output : Output
  consumed : ℕ := 0

namespace Work

/-- How much of the input the next block takes in. -/
def take (input : List UInt8) (w : Work K) : ℕ :=
  min (w.state.blockLimit - w.buffers.staging.length) (input.length - w.consumed)

def atEnd (input : List UInt8) (w : Work K) : Bool := w.consumed + w.take input = input.length

/-- The next block is a continuation's first two bytes, and more may follow. -/
def restarts (input : List UInt8) (operation : Operation) (w : Work K) : Bool :=
  w.state.flint && w.buffers.staging.length + w.take input == 2 &&
    (!w.atEnd input || operation ≠ .finish)

/-- What the next block is encoded for. -/
def blockOperation (input : List UInt8) (operation : Operation) (w : Work K) : Operation :=
  if w.restarts input operation then .flush else if w.atEnd input then operation else .process

/-- The next block. -/
def block (input : List UInt8) (w : Work K) : List UInt8 :=
  w.buffers.staging ++ (input.drop w.consumed).take (w.take input)

/-- The input that is left does not fill a block: it is kept. -/
def hold (input : List UInt8) (w : Work K) : Work K :=
  { w with
    buffers := { w.buffers with staging := w.block input }
    consumed := w.consumed + w.take input
    state := if w.take input ≠ 0 then { w.state with phase := .opened } else w.state }

/-- The next block was encoded. -/
def deliver (input : List UInt8) (operation : Operation) (w : Work K) (encoder : Encoder K)
    (output : Output)
    (pending : List UInt8) : Work K :=
  { state := { w.state with
      phase := match w.blockOperation input operation with
        | .finish => .finished
        | .flush => if w.restarts input operation then .opened else .flushed
        | .process => .opened
      flint := w.state.flint && !w.restarts input operation }
    encoder, output
    buffers := { staging := [], pending, served := 0 }
    consumed := w.consumed + w.take input }

/-- One turn of the scheduler with nothing pending: how the call ends, or `none` for
another turn. -/
def turn (allowPending : Bool) (attached : Option A) (input : List UInt8) (operation : Operation)
    (w : Work K) :
    Option (Except CompressError EncoderStatus) × Work K :=
  if w.state.phase = .finished then (some (.ok .finished), w)
  else if w.state.phase = .flushed ∧ w.consumed = input.length ∧ operation = .flush
    then (some (.ok .needsInput), w)
  else if w.atEnd input = true ∧ operation = .process ∧ w.restarts input operation = false then
    (some (.ok .needsInput), w.hold input)
  else match Delivery.encode allowPending attached w.encoder w.output (w.block input)
    (w.blockOperation input operation) with
    | .error e => (some (.error e), { w with state := { w.state with phase := .failed } })
    | .ok (encoder, output, pending) => (none, w.deliver input operation encoder output pending)

/-- Delivers what is pending, and takes a turn. -/
def round (allowPending : Bool) (attached : Option A) (input : List UInt8) (operation : Operation)
    (w : Work K) :
    Option (Except CompressError EncoderStatus) × Work K :=
  let (drained, buffers, output) := w.buffers.drain w.output
  if drained then { w with buffers, output }.turn allowPending attached input operation
  else (some (.ok .needsOutput), { w with buffers, output })

def loop (allowPending : Bool) (attached : Option A) (input : List UInt8) (operation : Operation) :
    ℕ → Work K → Option (Except CompressError EncoderStatus × Work K)
  | 0, _ => none
  | fuel + 1, w =>
    match w.round allowPending attached input operation with
    | (some r, w) => some (r, w)
    | (none, w) => loop allowPending attached input operation fuel w

end Work

namespace StreamState

/-- The turns one call takes at most. -/
def turns (input : List UInt8) : ℕ := input.length + 3

/-- Runs one call; `none` would be a call that takes more turns. -/
def process (allowPending : Bool) (attached : Option A) (state : StreamState) (encoder : Encoder K)
    (buffers : Buffers)
    (input : List UInt8) (output : Output) (operation : Operation) :
    Option (Except CompressError Progress × Work K) :=
  (Work.loop allowPending attached input operation (turns input)
    { state, encoder, buffers, output }).map fun (r, w) =>
    (r.map fun status => ⟨w.consumed, w.output.produced, status⟩, w)

end StreamState

/-! ### A call takes few turns -/

namespace Work

variable {allowPending : Bool} {attached : Option A} {input : List UInt8} {operation : Operation}
    {w w' : Work K}
  {r : Option (Except CompressError EncoderStatus)}

/-- What a turn can do. -/
theorem turn_cases (h : w.turn allowPending attached input operation = (r, w')) :
    w.state.phase = .finished ∧ r = some (.ok .finished) ∧ w' = w ∨
    w.state.phase ≠ .finished ∧ (
      w.state.phase = .flushed ∧ w.consumed = input.length ∧ operation = .flush ∧
      r = some (.ok .needsInput) ∧ w' = w ∨
      w.atEnd input = true ∧ operation = .process ∧ r = some (.ok .needsInput) ∧ w' = w.hold input ∨
      (∃ e, r = some (.error e) ∧ w' = { w with state := { w.state with phase := .failed } }) ∨
      ∃ encoder output pending, r = none ∧ w' = w.deliver input operation encoder output pending ∧
        (w.state.phase = .flushed → operation = .flush → w.consumed ≠ input.length) ∧
        (w.restarts input operation = false → w.atEnd input = true → operation ≠ .process) ∧
        Delivery.encode allowPending attached w.encoder w.output (w.block input)
        (w.blockOperation input operation) =
          .ok (encoder, output, pending)) := by
  rw [turn] at h
  by_cases hfinished : w.state.phase = .finished
  · rw [if_pos hfinished] at h
    cases h
    exact .inl ⟨hfinished, rfl, rfl⟩
  rw [if_neg hfinished] at h
  refine .inr ⟨hfinished, ?_⟩
  by_cases hflushed : w.state.phase = .flushed ∧ w.consumed = input.length ∧ operation = .flush
  · rw [if_pos hflushed] at h
    cases h
    exact .inl ⟨hflushed.1, hflushed.2.1, hflushed.2.2, rfl, rfl⟩
  rw [if_neg hflushed] at h
  by_cases hheld : w.atEnd input = true ∧ operation = .process ∧ w.restarts input operation = false
  · rw [if_pos hheld] at h
    cases h
    exact .inr (.inl ⟨hheld.1, hheld.2.1, rfl, rfl⟩)
  rw [if_neg hheld] at h
  split at h
  · cases h
    exact .inr (.inr (.inl ⟨_, rfl, rfl⟩))
  · rename_i encoder output pending hencode
    cases h
    exact .inr (.inr (.inr ⟨encoder, output, pending, rfl, rfl,
      fun h1 h2 h3 => hflushed ⟨h1, h3, h2⟩,
      fun h1 h2 h3 => hheld ⟨h2, h3, h1⟩, hencode⟩))

/-- The turns left at most. -/
def left (input : List UInt8) (operation : Operation) (w : Work K) : ℕ :=
  if w.state.phase = .finished ∨
    (w.state.phase = .flushed ∧ w.consumed = input.length ∧ operation = .flush) then 1
  else input.length - w.consumed + (if w.state.blockLimit ≤ w.buffers.staging.length
    then 1 else 0) + 2

theorem blockLimit_pos {s : StreamState} (h : 0 < s.limit) : 0 < s.blockLimit := by
  rw [StreamState.blockLimit]
  split <;> omega

theorem take_le (input : List UInt8) (w : Work K) : w.take input ≤ input.length - w.consumed :=
  Nat.min_le_right _ _

theorem drain_staging {b b' : Buffers} {o o' : Output} {drained : Bool}
    (h : b.drain o = (drained, b', o')) :
    b'.staging = b.staging := by
  rw [Buffers.drain] at h
  simp only at h
  split at h <;> (cases h; rfl)

end Work

namespace Delivery

variable {allowPending : Bool} {attached : Option A} {e e' : Encoder K} {s : EncoderState K}
    {o o' : Output}
  {input pending : List UInt8} {operation : Operation}

/-- What a delivery does to the output and what is pending. -/
structure Delivers (allowPending : Bool) (attached : Option A) (s : EncoderState K)
    (input : List UInt8)
    (operation : Operation) (o : Output) (e' : Encoder K) (o' : Output) (pending : List UInt8) :
    Prop where
  fits : o'.Fits
  front : o.Extends o'
  kept : allowPending = false → pending = []
  encoded : ∃ bytes s', s.encode attached input operation = .ok (bytes, s') ∧
    o'.delivered ++ pending = o.delivered ++ bytes ∧ (operation ≠ .finish → e'.Represents s')

theorem scratch_spec (h : e.Represents s) (hfit : input.length ≤ 2 ^ 24)
    (hempty : operation = .process → input ≠ [])
    (ho : o.Fits) (hrun : scratch allowPending attached e o input operation =
      .ok (e', o', pending)) :
    Delivers allowPending attached s input operation o e' o' pending := by
  rw [scratch] at hrun
  obtain ⟨⟨bytes, e₁⟩, hencode, hrun⟩ := ok_of_bind hrun
  rcases happ : o.append bytes with ⟨direct, o₁⟩
  dsimp only at hrun
  rw [happ] at hrun
  dsimp only at hrun
  obtain ⟨hle, hdel, hfits, -⟩ := Output.append_spec ho happ
  by_cases hshort : direct < bytes.length ∧ allowPending = false
  · rw [if_pos hshort] at hrun
    cases hrun
  rw [if_neg hshort] at hrun
  cases hrun
  refine ⟨hfits, Output.append_extends happ, fun hall => ?_, ?_⟩
  · have : ¬ direct < bytes.length := fun hlt => hshort ⟨hlt, hall⟩
    exact List.drop_eq_nil_of_le (by omega)
  have hsplit : o'.delivered ++ bytes.drop direct = o.delivered ++ bytes := by
    rw [hdel, List.append_assoc, List.take_append_drop]
  cases operation with
  | flush =>
    obtain ⟨s', h1, h2⟩ := Encoder.flushBlock_spec h hfit hencode
    exact ⟨bytes, s', h1, hsplit, fun _ => h2⟩
  | finish =>
    obtain ⟨s', h1, -⟩ := Encoder.encodeBlockWith_spec h hfit (fun _ => rfl) hencode
    exact ⟨bytes, s', h1, hsplit, fun hne => absurd rfl hne⟩
  | process =>
    obtain ⟨s', h1, h2⟩ :=
      Encoder.encodeBlockWith_spec h hfit (fun hnil => absurd hnil (hempty rfl)) hencode
    exact ⟨bytes, s', h1, hsplit, fun _ => h2 rfl⟩

/-- A fragment written where the output stands. -/
theorem fast_delivers {f f' : FastEncoder K.fragment} {t : FastState K.fragment}
    (hne : operation ≠ .flush)
    (hfits : o'.Fits) (hfront : o.Extends o')
    (hrep : operation ≠ .finish →
      f'.Represents (t.fragment f.independent input (operation = .finish)).2)
    (hind : f'.independent = f.independent)
    (hdel : o'.delivered = o.delivered ++
      (t.fragment f.independent input (operation = .finish)).1) :
    Delivers allowPending attached (.fast f.independent t) input operation o (.fast f') o' [] := by
  refine ⟨hfits, hfront, fun _ => rfl, (t.fragment f.independent input (operation = .finish)).1,
    .fast f.independent (t.fragment f.independent input (operation = .finish)).2, ?_, ?_,
    fun hopen => ?_⟩
  · cases operation with
    | flush => exact absurd rfl hne
    | finish => rfl
    | process => rfl
  · rw [List.append_nil, hdel]
  · have h := hrep hopen
    rw [← hind] at h ⊢
    exact .fast h

/-- **However a block is delivered, its bytes are the state's.** -/
theorem encode_spec (h : e.Represents s) (hfit : input.length ≤ 2 ^ 24)
    (hempty : operation = .process → input ≠ [])
    (ho : o.Fits) (hrun : encode allowPending attached e o input operation =
      .ok (e', o', pending)) :
    Delivers allowPending attached s input operation o e' o' pending := by
  have hlast : operation ≠ .flush → input = [] → decide (operation = .finish) = true := by
    rintro hne hnil
    cases operation with
    | flush => exact absurd rfl hne
    | finish => rfl
    | process => exact absurd hnil (hempty rfl)
  unfold encode at hrun
  by_cases hflush : operation = .flush
  · rw [if_pos hflush] at hrun
    exact scratch_spec h hfit hempty ho hrun
  rw [if_neg hflush] at hrun
  cases h with
  | fast h =>
    rename_i f t
    rcases hdest : o.destination with output | cells | ⟨output, grown⟩
    · -- in place
      rw [hdest] at hrun
      dsimp only at hrun
      obtain ⟨reserve, -, hrun⟩ := ok_of_bind hrun
      by_cases hroom : reserve ≤ (output.drop o.produced).length
      · rw [if_pos hroom] at hrun
        obtain ⟨⟨complete, tail, f'⟩, hinto, hrun⟩ := ok_of_bind hrun
        cases hrun
        obtain ⟨h1, h2, h3, h4, -⟩ := FastEncoder.encodeBlockInto_spec h hfit (hlast hflush) hinto
        have hproduced : o.produced ≤ output.length := by
          rw [Output.Fits, hdest] at ho
          exact ho
        have htake : (output.take o.produced).length = o.produced :=
          List.length_take_of_le hproduced
        refine fast_delivers hflush ?_ ?_ (fun hopen => h3 (decide_eq_false hopen)) h4 ?_
        · show o.produced + complete ≤ (output.take o.produced ++ tail).length
          rw [List.length_append, htake]
          omega
        · intro bytes grown hvec
          rw [hdest] at hvec
          cases hvec
        · rw [Output.delivered, Output.delivered, hdest]
          show (output.take o.produced ++ tail).take (o.produced + complete) =
            output.take o.produced ++ _
          rw [List.take_append, htake, Nat.add_sub_cancel_left,
            List.take_of_length_le (by omega), h1]
      · rw [if_neg hroom] at hrun
        exact scratch_spec (.fast h) hfit hempty ho hrun
    · rw [hdest] at hrun
      exact scratch_spec (.fast h) hfit hempty ho hrun
    · -- behind a vector's bytes
      rw [hdest] at hrun
      dsimp only at hrun
      obtain ⟨⟨output', f'⟩, happend, hrun⟩ := ok_of_bind hrun
      cases hrun
      obtain ⟨h1, h3, h4, -⟩ := FastEncoder.encodeBlockAppend_spec h hfit (hlast hflush) happend
      have hproduced : o.produced ≤ output.length := by
        rw [Output.Fits, hdest] at ho
        exact ho
      have hlen : output'.length = output.length +
          (t.fragment f.independent input (operation = .finish)).1.length := by
        rw [h1, List.length_append]
      refine fast_delivers hflush ?_ ?_ (fun hopen => h3 (decide_eq_false hopen)) h4 ?_
      · show o.produced + (output'.length - output.length) ≤ output'.length
        omega
      · intro bytes grown' hvec
        rw [hdest] at hvec
        cases hvec
        refine ⟨(t.fragment f.independent input (operation = .finish)).1, by rw [← h1], ?_⟩
        show o.produced + (output'.length - output.length) = _
        omega
      · rw [Output.delivered, Output.delivered, hdest]
        show output'.drop (output'.length - (o.produced + (output'.length - output.length))) =
          output.drop _ ++ _
        rw [show output'.length - (o.produced + (output'.length - output.length)) =
          output.length - o.produced by omega, h1,
          List.drop_append_of_le_length (Nat.sub_le _ _)]
  | greedy e => exact scratch_spec (.greedy e) hfit hempty ho hrun
  | hq e => exact scratch_spec (.hq e) hfit hempty ho hrun

end Delivery
/-! ### What is still to come -/

/-- The bytes of a script: `r` is left of the segment at hand, each of `rest` follows a
flush, and the last segment ends the stream. Nothing is encoded for a flush right after
one (`flushed`). -/
inductive Emits (attached : Option A) (limit : ℕ) :
    EncoderState K → Bool → List UInt8 → List (List UInt8) → List UInt8 → Prop
  | block {s s' flushed r rest bytes out} : limit < r.length →
      s.encode attached (r.take limit) .process = .ok (bytes, s') →
      Emits attached limit s' false (r.drop limit) rest out →
      Emits attached limit s flushed r rest (bytes ++ out)
  | flush {s s' flushed r next rest bytes out} : r.length ≤ limit → (flushed = true → r ≠ []) →
      s.encode attached r .flush = .ok (bytes, s') → Emits attached limit s' true next rest out →
      Emits attached limit s flushed r (next :: rest) (bytes ++ out)
  | aligned {s next rest out} : Emits attached limit s true next rest out →
      Emits attached limit s true [] (next :: rest) out
  | finish {s s' flushed r bytes} :
      r.length ≤ limit → s.encode attached r .finish = .ok (bytes, s') →
      Emits attached limit s flushed r [] bytes

namespace Emits

variable {attached : Option A} {limit : ℕ} {s s' : EncoderState K} {flushed : Bool} {r : List UInt8}
  {rest : List (List UInt8)} {out out' : List UInt8}

/-- A script has one output. -/
theorem unique (h : Emits attached limit s flushed r rest out)
    (h' : Emits attached limit s flushed r rest out') :
    out = out' := by
  induction h generalizing out' with
  | block hlong henc _ ih =>
    cases h' with
    | block _ henc' h' =>
      rw [henc] at henc'
      cases henc'
      rw [ih h']
    | flush hshort => omega
    | aligned => cases Nat.not_lt_zero _ hlong
    | finish hshort => omega
  | flush hshort hmore henc _ ih =>
    cases h' with
    | block hlong => omega
    | flush _ _ henc' h' =>
      rw [henc] at henc'
      cases henc'
      rw [ih h']
    | aligned => exact absurd rfl (hmore rfl)
  | aligned _ ih =>
    cases h' with
    | block hlong => cases Nat.not_lt_zero _ hlong
    | flush _ hmore => exact absurd rfl (hmore rfl)
    | aligned h' => exact ih h'
  | finish hshort henc =>
    cases h' with
    | block hlong => omega
    | finish _ henc' =>
      rw [henc] at henc'
      cases henc'
      rfl

end Emits

/-- What is still to come of a stream, when `r` of the segment at hand has not been
taken in. -/
def Yields (attached : Option A) (limit : ℕ) (s : EncoderState K) (phase : Phase)
    (staging r : List UInt8)
    (rest : List (List UInt8)) (out : List UInt8) : Prop :=
  match phase with
  | .finished => r = [] ∧ rest = [] ∧ out = []
  | .flushed => Emits attached limit s true r rest out
  | _ => Emits attached limit s false (staging ++ r) rest out

/-- The state of a stream between calls is in order, and its encoder in the state `s`. -/
structure InOrder (state : StreamState) (e : Encoder K) (b : Buffers) (s : EncoderState K) :
    Prop where
  limit_pos : 0 < state.limit
  limit_le : state.limit ≤ 2 ^ 24
  flint : state.flint = false
  staged : b.staging.length ≤ state.limit
  served : b.served ≤ b.pending.length
  aligned : state.phase = .flushed → b.staging = []
  represents : state.phase ≠ .finished → e.Represents s

namespace Work

variable {allowPending : Bool} {attached : Option A} {input more : List UInt8}
    {operation : Operation} {w w' : Work K}
  {result : Option (Except CompressError EncoderStatus)} {s : EncoderState K}
    {rest : List (List UInt8)}

/-- The call's work so far is in order. -/
structure Ordered (input : List UInt8) (w : Work K) (s : EncoderState K) : Prop where
  inOrder : InOrder w.state w.encoder w.buffers s
  fits : w.output.Fits
  consumed_le : w.consumed ≤ input.length
  done : w.state.phase = .finished → w.consumed = input.length

theorem length_block (w : Work K) (input : List UInt8) :
    (w.block input).length = w.buffers.staging.length + w.take input := by
  have := w.take_le input
  rw [block, List.length_append, List.length_take, List.length_drop]
  omega

/-- What a call's status says. -/
structure Ends (input : List UInt8) (operation : Operation) (status : EncoderStatus) (w : Work K) :
    Prop where
  finished : status = .finished → w.state.phase = .finished ∧ w.buffers.waiting = []
  needsInput : status = .needsInput → w.consumed = input.length ∧ w.buffers.waiting = [] ∧
    w.state.phase ≠ .finished ∧
    operation ≠ .finish ∧ (operation = .flush → w.state.phase = .flushed)

end Work

theorem Output.delivered_new (d : Destination) : ({ destination := d } : Output).delivered = [] ∧
    ({ destination := d } : Output).Fits := by
  cases d with
  | slice output => exact ⟨rfl, Nat.zero_le _⟩
  | uninit cells => exact ⟨rfl, Nat.zero_le _⟩
  | append output grown =>
    refine ⟨?_, Nat.zero_le _⟩
    rw [delivered]
    exact List.drop_eq_nil_of_le (le_refl _)

namespace StreamState

variable {allowPending : Bool} {attached : Option A} {state : StreamState} {e : Encoder K}
    {s : EncoderState K}
  {buffers : Buffers} {input more : List UInt8} {destination : Destination} {operation : Operation}
  {rest : List (List UInt8)} {progress : Progress} {w : Work K}

end StreamState

/-- Finishes a stream in one call, without staging or pending storage. -/
def finish (encoder : Encoder K) (attached : Option A) (input : List UInt8)
    (destination : Destination) :
    Option (Except CompressError ℕ × Work K) :=
  (StreamState.process false attached { limit := encoder.blockSizeLimit, flint := false }
    encoder {} input
    { destination } .finish).map fun (r, w) => (r.map (·.produced), w)

/-- The family that writes straight into the destination. -/
def Encoder.isFast : Encoder K → Bool
  | .fast _ => true
  | _ => false

/-- `n` more bytes go into the output. How much of a slice a fast encoder's scratch takes up
is its scan's to say. -/
def Output.Room (fast : Bool) (o : Output) (n : ℕ) : Prop :=
  match o.destination with
  | .slice output => fast = false ∧ o.produced + n ≤ output.length
  | .uninit output => fast = false ∧ o.produced + n ≤ output.length
  | .append output _ => 8 * (output.length + n) + 7 ≤ u64Max

theorem Output.Room.append {fast : Bool} {o o' : Output} {bytes : List UInt8} {count n : ℕ}
    (h : o.Room fast (bytes.length + n))
    (happ : o.append bytes = (count, o')) : count = bytes.length ∧ o'.Room fast n := by
  obtain ⟨destination, produced⟩ := o
  cases destination with
  | slice output =>
    obtain ⟨hslow, hroom⟩ : fast = false ∧ produced + (bytes.length + n) ≤ output.length := h
    rw [Output.append] at happ
    cases happ
    have hcount : min bytes.length (output.length - produced) = bytes.length := by omega
    refine ⟨hcount, hslow, ?_⟩
    show produced + min bytes.length (output.length - produced) + n ≤
      (splice output produced _).length
    rw [hcount, List.take_length, length_splice (by omega)]
    omega
  | uninit output =>
    obtain ⟨hslow, hroom⟩ : fast = false ∧ produced + (bytes.length + n) ≤ output.length := h
    rw [Output.append] at happ
    cases happ
    have hcount : min bytes.length (output.length - produced) = bytes.length := by omega
    refine ⟨hcount, hslow, ?_⟩
    show produced + min bytes.length (output.length - produced) + n ≤
      (output.take produced ++ (bytes.take _).map some ++
      output.drop (produced + _)).length
    rw [hcount, List.length_append, List.length_append, List.length_take, List.length_map,
      List.length_take, List.length_drop]
    omega
  | append output grown =>
    have hroom : 8 * (output.length + (bytes.length + n)) + 7 ≤ u64Max := h
    rw [Output.append] at happ
    cases happ
    refine ⟨rfl, ?_⟩
    show 8 * ((output ++ bytes).length + n) + 7 ≤ u64Max
    rw [List.length_append]
    omega

namespace Delivery

variable {attached : Option A} {e : Encoder K} {s s' : EncoderState K} {o : Output}
    {input bytes : List UInt8} {operation : Operation}
  {n : ℕ}

/-- The other families go through the scratch. -/
theorem encode_slow {allowPending : Bool} (hslow : ∀ f, e ≠ .fast f) :
    encode allowPending attached e o input operation =
    scratch allowPending attached e o input operation := by
  unfold encode
  split
  · rfl
  split
  · exact absurd rfl (hslow _)
  · exact absurd rfl (hslow _)
  · rfl

/-- With room, the scratch hands over the block whole. -/
theorem scratch_ok {e' : Encoder K} (henc : e.encode input operation attached = .ok (bytes, e'))
    (hroom : o.Room e.isFast (bytes.length + n)) :
    ∃ o', scratch false attached e o input operation = .ok (e', o', []) ∧
      o'.Room e.isFast n := by
  rcases happ : o.append bytes with ⟨count, o'⟩
  obtain ⟨hcount, hroom'⟩ := hroom.append happ
  refine ⟨o', ?_, hroom'⟩
  rw [scratch, henc]
  simp only [bind, Except.bind, happ, hcount, Nat.lt_irrefl, false_and, if_false, List.drop_length]

/-- **With room, a block that can be encoded is delivered.** -/
theorem encode_ok (h : e.Represents s) (hfit : input.length ≤ 2 ^ 24)
    (hempty : operation = .process → input ≠ [])
    (hflush : operation ≠ .flush) (henc : s.encode attached input operation = .ok (bytes, s'))
    (hroom : o.Room e.isFast (bytes.length + n)) :
    ∃ e' o', encode false attached e o input operation = .ok (e', o', []) ∧
      (operation ≠ .finish → e'.Represents s') ∧ o'.Room e'.isFast n := by
  have hlast : input = [] → decide (operation = .finish) = true := by
    intro hnil
    cases operation with
    | flush => exact absurd rfl hflush
    | finish => rfl
    | process => exact absurd hnil (hempty rfl)
  cases h with
  | fast h =>
    rename_i f t
    obtain ⟨destination, produced⟩ := o
    cases destination with
    | slice output => cases hroom.1
    | uninit output => cases hroom.1
    | append output grown =>
      have hlong : 8 * (output.length + (bytes.length + n)) + 7 ≤ u64Max := hroom
      have hnarrow := h.narrow
      obtain ⟨bytes', f', happ⟩ : ∃ bytes' f',
        f.encodeBlockAppend input (decide (operation = .finish)) grown output =
          .ok (bytes', f') := by
        rw [FastEncoder.encodeBlockAppend]
        dsimp only
        rw [if_neg (by omega)]
        exact ⟨_, _, rfl⟩
      obtain ⟨h1, h2, h3, -⟩ := FastEncoder.encodeBlockAppend_spec h hfit hlast happ
      have hbytes : bytes = (t.fragment f.independent input (decide (operation = .finish))).1 ∧
          s' =
          .fast f.independent (t.fragment f.independent input
            (decide (operation = .finish))).2 := by
        cases operation with
        | flush => exact absurd rfl hflush
        | finish =>
          cases henc
          exact ⟨rfl, rfl⟩
        | process =>
          cases henc
          exact ⟨rfl, rfl⟩
      refine ⟨.fast f', { destination := .append bytes' grown, produced := produced +
        (bytes'.length - output.length) }, ?_,
        fun hne => ?_, ?_⟩
      · unfold encode
        rw [if_neg hflush]
        dsimp only
        rw [happ]
        rfl
      · have hrep := h2 (decide_eq_false hne)
        rw [hbytes.2]
        rw [← h3] at hrep ⊢
        exact .fast hrep
      · show 8 * (bytes'.length + n) + 7 ≤ u64Max
        rw [h1, List.length_append, ← hbytes.1]
        omega
  | greedy g =>
    have hslow : ∀ f, (.greedy g : Encoder K) ≠ .fast f := by
      intro f hf
      cases hf
    obtain ⟨g', hg, rfl⟩ : ∃ g', (.greedy g : Encoder K).encode input operation attached =
      .ok (bytes, .greedy g') ∧
        s' = .greedy g' := by
      cases operation with
      | flush => exact absurd rfl hflush
      | finish =>
        obtain ⟨⟨b, g'⟩, hblock, heq⟩ := Encoder.ok_of_map henc
        cases heq
        exact ⟨g', by rw [Encoder.encode, Encoder.encodeBlockWith, hblock]; rfl, rfl⟩
      | process =>
        obtain ⟨⟨b, g'⟩, hblock, heq⟩ := Encoder.ok_of_map henc
        cases heq
        exact ⟨g', by rw [Encoder.encode, Encoder.encodeBlockWith, hblock]; rfl, rfl⟩
    obtain ⟨o', ho, hroom'⟩ := scratch_ok hg hroom
    exact ⟨.greedy g', o', (encode_slow hslow).trans ho, fun _ => .greedy g', hroom'⟩
  | hq g =>
    have hslow : ∀ f, (.hq g : Encoder K) ≠ .fast f := by
      intro f hf
      cases hf
    obtain ⟨g', hg, rfl⟩ : ∃ g', (.hq g : Encoder K).encode input operation attached =
        .ok (bytes, .hq g') ∧ s' = .hq g' := by
      cases operation with
      | flush => exact absurd rfl hflush
      | finish =>
        obtain ⟨⟨b, g'⟩, hblock, heq⟩ := Encoder.ok_of_map henc
        cases heq
        exact ⟨g', by rw [Encoder.encode, Encoder.encodeBlockWith, hblock]; rfl, rfl⟩
      | process =>
        obtain ⟨⟨b, g'⟩, hblock, heq⟩ := Encoder.ok_of_map henc
        cases heq
        exact ⟨g', by rw [Encoder.encode, Encoder.encodeBlockWith, hblock]; rfl, rfl⟩
    obtain ⟨o', ho, hroom'⟩ := scratch_ok hg hroom
    exact ⟨.hq g', o', (encode_slow hslow).trans ho, fun _ => .hq g', hroom'⟩

end Delivery

namespace Work

variable {attached : Option A} {input out : List UInt8} {w w' : Work K} {s : EncoderState K}

/-- A one-shot call between two blocks: nothing is staged, and there is room for the rest. -/
structure Roomy (attached : Option A) (input : List UInt8) (w : Work K) : Prop where
  limit : 0 < w.state.limit ∧ w.state.limit ≤ 2 ^ 24
  flint : w.state.flint = false
  buffers : w.buffers = {}
  consumed_le : w.consumed ≤ input.length
  phase : w.state.phase = .finished ∨ w.state.phase = .opened ∧ ∃ s out, w.encoder.Represents s ∧
    Emits attached w.state.limit s false (input.drop w.consumed) [] out ∧
    w.output.Room w.encoder.isFast out.length

/-- A drain with nothing pending leaves the room there is. -/
theorem Roomy.drain {drained : Bool} {b : Buffers} {o : Output} (h : w.Roomy attached input)
    (hd : w.buffers.drain w.output = (drained, b, o)) :
    drained = true ∧ { w with buffers := b, output := o }.Roomy attached input := by
  obtain ⟨hlimit, hflint, hbuffers, hconsumed, hphase⟩ := h
  rw [hbuffers, Buffers.drain] at hd
  rcases happ : w.output.append ({} : Buffers).waiting with ⟨count, o'⟩
  have hnone : ¬ ({} : Buffers).served + count < ({} : Buffers).pending.length := Nat.not_lt_zero _
  rw [happ] at hd
  dsimp only at hd
  rw [if_neg hnone] at hd
  cases hd
  refine ⟨rfl, hlimit, hflint, rfl, hconsumed, hphase.imp id fun hopen => ⟨hopen.1, ?_⟩⟩
  obtain ⟨s, out, h1, h2, h3⟩ := hopen.2
  have hroom : w.output.Room w.encoder.isFast (({} : Buffers).waiting.length + out.length) := by
    rw [Buffers.waiting, List.drop_nil, List.length_nil, Nat.zero_add]
    exact h3
  exact ⟨s, out, h1, h2, (hroom.append happ).2⟩

/-- A turn of it ends the stream or goes on to the next block. -/
theorem Roomy.turn {r : Option (Except CompressError EncoderStatus)} (h : w.Roomy attached input)
    (ht : w.turn false attached input .finish = (r, w')) :
    r = some (.ok .finished) ∨ r = none ∧ w'.Roomy attached input := by
  obtain ⟨⟨hpos, hle⟩, hflint, hbuffers, hconsumed, hphase⟩ := h
  rcases hphase with hfinished | ⟨hopen, s, out, hrep, hemits, hroom⟩
  · rw [Work.turn, if_pos hfinished] at ht
    cases ht
    exact Or.inl rfl
  have hlimit : w.state.blockLimit = w.state.limit := by
    rw [StreamState.blockLimit, hflint]
    rfl
  have htake : w.take input = min w.state.limit (input.length - w.consumed) := by
    rw [take, hlimit, hbuffers]
    rfl
  have hblock : w.block input = (input.drop w.consumed).take (w.take input) := by
    rw [block, hbuffers]
    rfl
  have hrestart : w.restarts input .finish = false := by
    rw [restarts, hflint]
    rfl
  have hlength : (input.drop w.consumed).length = input.length - w.consumed := List.length_drop
  -- the block at hand can be encoded, and what is behind it has room
  obtain ⟨bytes, s', n, henc, hroom', hnext⟩ : ∃ bytes s' n,
      s.encode attached (w.block input) (w.blockOperation input .finish) = .ok (bytes, s') ∧
      w.output.Room w.encoder.isFast (bytes.length + n) ∧
      (w.blockOperation input .finish = .finish ∨ w.blockOperation input .finish = .process ∧
        w.block input ≠ [] ∧
        ∃ out', out'.length = n ∧ Emits attached w.state.limit s' false
        (input.drop (w.consumed + w.take input)) [] out') := by
    have hop : w.blockOperation input .finish = if w.atEnd input then .finish else .process := by
      rw [blockOperation, hrestart]
      rfl
    cases hemits with
    | block hlong henc hrest =>
      rename_i s' bytes out'
      rw [hlength] at hlong
      have hfull : w.take input = w.state.limit := by omega
      have hmore : w.atEnd input = false := by
        rw [atEnd, hfull]
        exact decide_eq_false (by omega)
      rw [hmore] at hop
      rw [hblock, hfull, hop]
      rw [List.drop_drop] at hrest
      rw [List.length_append] at hroom
      refine ⟨bytes, s', out'.length, henc, hroom, Or.inr ⟨rfl, fun hnil => ?_, out', rfl, hrest⟩⟩
      have hzero := congrArg List.length hnil
      rw [List.length_take, hlength, List.length_nil] at hzero
      omega
    | finish hshort henc =>
      rename_i s'
      rw [hlength] at hshort
      have hall : w.take input = input.length - w.consumed := by omega
      have hend : w.atEnd input = true := by
        rw [atEnd, hall]
        exact decide_eq_true (by omega)
      rw [hend] at hop
      rw [hblock, hall, ← hlength, List.take_length, hop]
      exact ⟨out, s', 0, henc, hroom, Or.inl rfl⟩
  have hfit : (w.block input).length ≤ 2 ^ 24 := by
    rw [hblock, List.length_take]
    omega
  have hempty : w.blockOperation input .finish = .process → w.block input ≠ [] := by
    intro hp
    rcases hnext with hf | hf
    · rw [hf] at hp
      cases hp
    · exact hf.2.1
  have hflush : w.blockOperation input .finish ≠ .flush := by
    rcases hnext with hf | hf
    · rw [hf]
      decide
    · rw [hf.1]
      decide
  obtain ⟨e', o', hencode, hrep', hroom''⟩ := Delivery.encode_ok hrep hfit hempty hflush henc hroom'
  rw [Work.turn, if_neg (by rw [hopen]; decide), if_neg (fun h => absurd h.2.2 (by decide)),
    if_neg (fun h => absurd h.2.1 (by decide)),
    hencode] at ht
  cases ht
  refine Or.inr ⟨rfl, ⟨hpos, hle⟩, ?_, rfl, ?_, ?_⟩
  · show (w.state.flint && _) = false
    rw [hflint]
    rfl
  · show w.consumed + w.take input ≤ input.length
    omega
  · rcases hnext with hf | ⟨hf, -, out', hlen, hrest⟩
    · left
      rw [deliver, hf]
    · right
      refine ⟨?_, s', out', hrep' (by rw [hf]; decide), hrest, hlen ▸ hroom''⟩
      rw [deliver, hf]

/-- **A one-shot call with room succeeds.** -/
theorem Roomy.loop {fuel : ℕ} {r : Except CompressError EncoderStatus} (h : w.Roomy attached input)
    (hl : w.loop false attached input .finish fuel = some (r, w')) : r = .ok .finished := by
  induction fuel generalizing w with
  | zero => cases hl
  | succ fuel ih =>
    rw [Work.loop, round] at hl
    rcases hd : w.buffers.drain w.output with ⟨drained, b, o⟩
    obtain ⟨rfl, hroomy⟩ := h.drain hd
    rw [hd] at hl
    dsimp only at hl
    rw [if_pos rfl] at hl
    rcases ht : Work.turn false attached input .finish { w with buffers := b, output := o }
      with ⟨r', v⟩
    rw [ht] at hl
    rcases hroomy.turn ht with rfl | ⟨rfl, hnext⟩
    · cases hl
      rfl
    · exact ih hnext hl

end Work

end Mbrotli.Compressor
