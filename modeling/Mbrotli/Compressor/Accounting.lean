/-
# What a session accounts for

Whatever stream a session runs, of a known length or not, a new one or a continuation: a
call takes in no more than its input, what it reports as produced stands in its output,
and the stream ends only in a call that asks for the end and takes in all of its input.
-/
import Mbrotli.Compressor.Schedule

namespace Mbrotli.Compressor

variable {A : Type} {K : Kernels A}

def Destination.IsSlice (d : Destination) : Prop := ∃ bytes, d = .slice bytes

/-- The input a call took in. -/
def Call.taken (c : Call) : List UInt8 := c.input.take c.consumed

theorem Output.append_isSlice {o o' : Output} {bytes : List UInt8} {count : ℕ}
    (h : o.append bytes = (count, o'))
    (hs : o.destination.IsSlice) : o'.destination.IsSlice := by
  obtain ⟨output, hd⟩ := hs
  rw [append, hd] at h
  cases h
  exact ⟨_, rfl⟩

theorem Delivery.scratch_isSlice {allowPending : Bool} {attached : Option A} {e e' : Encoder K}
    {o o' : Output}
    {input pending : List UInt8} {operation : Operation}
    (h : scratch allowPending attached e o input operation = .ok (e', o', pending))
    (hs : o.destination.IsSlice) :
    o'.destination.IsSlice := by
  rw [scratch] at h
  obtain ⟨⟨bytes, e₁⟩, -, h⟩ := ok_of_bind h
  rcases happ : o.append bytes with ⟨direct, o₁⟩
  dsimp only at h
  rw [happ] at h
  dsimp only at h
  split at h
  · cases h
  · cases h
    exact Output.append_isSlice happ hs

theorem Delivery.encode_isSlice {allowPending : Bool} {attached : Option A} {e e' : Encoder K}
    {o o' : Output}
    {input pending : List UInt8} {operation : Operation}
    (h : encode allowPending attached e o input operation = .ok (e', o', pending))
    (hs : o.destination.IsSlice) :
    o'.destination.IsSlice := by
  unfold encode at h
  split at h
  · exact scratch_isSlice h hs
  split at h
  · obtain ⟨reserve, -, h⟩ := ok_of_bind h
    split at h
    · obtain ⟨⟨complete, tail, f⟩, -, h⟩ := ok_of_bind h
      cases h
      exact ⟨_, rfl⟩
    · exact scratch_isSlice h hs
  · rename_i hd
    obtain ⟨output, hs⟩ := hs
    rw [hs] at hd
    cases hd
  · exact scratch_isSlice h hs

/-! ### One call -/

/-- A stream between calls: some encoder behind a bounded block. -/
structure Standing (state : StreamState) (e : Encoder K) (b : Buffers) : Prop where
  limit_pos : 0 < state.limit
  limit_le : state.limit ≤ 2 ^ 24
  staged : b.staging.length ≤ 2 ^ 24
  ended : state.phase = .finished → b.staging = []
  represents : state.phase ≠ .finished → ∃ t, e.Represents t

namespace Work

variable {attached : Option A} {input : List UInt8} {operation : Operation} {w w' : Work K}
  {r : Option (Except CompressError EncoderStatus)}

/-- The call's work so far: nothing is produced or taken in that is not there. -/
structure Accounted (input : List UInt8) (w : Work K) : Prop where
  standing : w.state.phase ≠ .failed → Standing w.state w.encoder w.buffers
  fits : w.output.Fits
  slice : w.output.destination.IsSlice
  consumed_le : w.consumed ≤ input.length

/-- The stream ends in the call only if it asks for the end, which comes behind the input. -/
def EndsOnly (input : List UInt8) (operation : Operation) (w w' : Work K) : Prop :=
  w'.state.phase = .finished →
    w.state.phase = .finished ∧ w'.consumed = w.consumed ∨ operation = .finish ∧
    w'.consumed = input.length

theorem length_block_le (h : Standing w.state w.encoder w.buffers) :
    (w.block input).length ≤ 2 ^ 24 := by
  have hlimit : w.state.blockLimit ≤ 2 ^ 24 := by
    rw [StreamState.blockLimit]
    split
    · decide
    · exact h.limit_le
  have hstaged := h.staged
  have hroom : w.take input ≤ w.state.blockLimit - w.buffers.staging.length := Nat.min_le_left _ _
  rw [length_block]
  omega

/-- Only a full block is encoded for input alone. -/
theorem block_ne_nil (h : Standing w.state w.encoder w.buffers) (hle : w.consumed ≤ input.length)
    (hprocess : w.restarts input operation = false → w.atEnd input = true → operation ≠ .process)
    (hop : w.blockOperation input operation = .process) : w.block input ≠ [] := by
  have hpos := blockLimit_pos h.limit_pos
  rw [blockOperation] at hop
  split at hop
  · cases hop
  rename_i hrestarts
  split at hop
  · rename_i hend
    exact absurd hop (hprocess (Bool.eq_false_of_not_eq_true hrestarts) hend)
  · rename_i hmore
    have hne : w.consumed + w.take input ≠ input.length := fun he => hmore (decide_eq_true he)
    have hmin : w.take input = min (w.state.blockLimit - w.buffers.staging.length)
      (input.length - w.consumed) := rfl
    intro hnil
    have hlen := w.length_block input
    rw [hnil, List.length_nil] at hlen
    omega

theorem turn_accounted (h : w.Accounted input) (hphase : w.state.phase ≠ .failed)
    (hturn : w.turn true attached input operation = (r, w')) :
    w'.Accounted input ∧ EndsOnly input operation w w' ∧
      (r = some (.ok .finished) → w'.state.phase = .finished ∧ w'.buffers = w.buffers) ∧
      (w'.state.phase = .failed ↔ ∃ e, r = some (.error e)) := by
  have hstand := h.standing hphase
  have htake := w.take_le input
  have hle := h.consumed_le
  rcases turn_cases hturn with ⟨h1, rfl, rfl⟩ | ⟨h1,
    ⟨-, -, -, rfl, rfl⟩ | ⟨-, -, rfl, rfl⟩ | ⟨e, rfl, rfl⟩ |
    ⟨encoder, output, pending, rfl, rfl, -, h3, h4⟩⟩
  · exact ⟨h, fun hf => Or.inl ⟨hf, rfl⟩, fun _ => ⟨h1, rfl⟩, ⟨fun hf => absurd hf hphase, by simp⟩⟩
  · exact ⟨h, fun hf => Or.inl ⟨hf, rfl⟩, by simp, fun hf => absurd hf hphase, by simp⟩
  · -- input held back
    have hstate : (w.hold input).state.phase = w.state.phase ∨
        (w.hold input).state.phase = .opened := by
      rw [hold]
      dsimp only
      split
      · exact Or.inr rfl
      · exact Or.inl rfl
    have hlimit : (w.hold input).state.limit = w.state.limit := by
      rw [hold]
      dsimp only
      split <;> rfl
    have hopen : (w.hold input).state.phase ≠ .finished := fun hf => by
      rcases hstate with hs | hs
      · exact h1 (hs ▸ hf)
      · rw [hs] at hf
        cases hf
    refine ⟨⟨fun _ => ⟨hlimit ▸ hstand.limit_pos, hlimit ▸ hstand.limit_le, length_block_le hstand,
      fun hf => absurd hf hopen, fun _ => hstand.represents h1⟩, h.fits, h.slice, ?_⟩, fun hf =>
      ?_, by simp, fun hf => ?_, by simp⟩
    · show w.consumed + w.take input ≤ input.length
      omega
    · exact absurd hf hopen
    · rcases hstate with hs | hs
      · exact absurd (hs ▸ hf) hphase
      · rw [hs] at hf
        cases hf
  · exact ⟨⟨fun hf => absurd rfl hf, h.fits, h.slice, hle⟩, fun hf => (by cases hf), by simp,
      fun _ => ⟨e, rfl⟩, fun _ => rfl⟩
  · -- a block was encoded
    obtain ⟨t, ht⟩ := hstand.represents h1
    have hblock : (w.block input).length ≤ 2 ^ 24 := length_block_le hstand
    have hdel :=
      Delivery.encode_spec ht hblock (fun hop => block_ne_nil hstand hle h3 hop) h.fits h4
    obtain ⟨bytes, t', -, -, hrep⟩ := hdel.encoded
    refine ⟨⟨fun _ => ⟨hstand.limit_pos, hstand.limit_le, Nat.zero_le _, fun _ => rfl,
      fun hopen => ⟨t', hrep ?_⟩⟩, hdel.fits,
      Delivery.encode_isSlice h4 h.slice, ?_⟩, fun hf => ?_, by simp, fun hf => ?_,
      by simp⟩
    · intro hop
      refine hopen ?_
      simp only [deliver, hop]
    · show w.consumed + w.take input ≤ input.length
      omega
    · refine Or.inr ?_
      have hop : w.blockOperation input operation = .finish := by
        simp only [deliver] at hf
        split at hf
        · assumption
        · split at hf <;> cases hf
        · cases hf
      rw [blockOperation] at hop
      split at hop
      · cases hop
      split at hop
      · rename_i hend
        exact ⟨hop, of_decide_eq_true hend⟩
      · cases hop
    · simp only [deliver] at hf
      split at hf
      · cases hf
      · split at hf <;> cases hf
      · cases hf

theorem drain_accounted {b : Buffers} {o : Output} {drained : Bool} (h : w.Accounted input)
    (hd : w.buffers.drain w.output = (drained, b, o)) :
    { w with buffers := b, output := o }.Accounted input ∧ (drained = true → b.waiting = []) := by
  have hstaging := drain_staging hd
  rw [Buffers.drain] at hd
  rcases happ : w.output.append w.buffers.waiting with ⟨count, o'⟩
  rw [happ] at hd
  dsimp only at hd
  obtain ⟨-, -, hfits, -⟩ := Output.append_spec h.fits happ
  have hslice := Output.append_isSlice happ h.slice
  have hstand : w.state.phase ≠ .failed → Standing w.state w.encoder b := fun hf =>
    ⟨(h.standing hf).limit_pos, (h.standing hf).limit_le, hstaging ▸ (h.standing hf).staged,
      fun hd => hstaging ▸ (h.standing hf).ended hd, (h.standing hf).represents⟩
  split at hd
  · cases hd
    exact ⟨⟨hstand, hfits, hslice, h.consumed_le⟩, by simp⟩
  · cases hd
    exact ⟨⟨hstand, hfits, hslice, h.consumed_le⟩, fun _ => rfl⟩

theorem loop_accounted {fuel : ℕ} {status : Except CompressError EncoderStatus}
    (h : w.Accounted input)
    (hphase : w.state.phase ≠ .failed)
    (hrun : w.loop true attached input operation fuel = some (status, w')) :
    w'.Accounted input ∧ EndsOnly input operation w w' ∧
      (status = .ok .finished → w'.state.phase = .finished ∧ w'.buffers.waiting = []) ∧
      (w'.state.phase = .failed ↔ ∃ e, status = .error e) := by
  induction fuel generalizing w with
  | zero => cases hrun
  | succ fuel ih =>
    rw [loop, round] at hrun
    rcases hd : w.buffers.drain w.output with ⟨drained, b, o⟩
    obtain ⟨hv, hwaiting⟩ := drain_accounted h hd
    rw [hd] at hrun
    dsimp only at hrun
    cases drained with
    | false =>
      cases hrun
      exact ⟨hv, fun hf => Or.inl ⟨hf, rfl⟩, by simp, fun hf => absurd hf hphase,
        by simp⟩
    | true =>
      rw [if_pos rfl] at hrun
      obtain ⟨v, hveq⟩ : ∃ v : Work K, v = { w with buffers := b, output := o } := ⟨_, rfl⟩
      have hstate : v.state = w.state := by rw [hveq]
      have hb : v.buffers = b := by rw [hveq]
      have hcons : v.consumed = w.consumed := by rw [hveq]
      rw [← hveq] at hrun hv
      rcases hturn : v.turn true attached input operation with ⟨r, v'⟩
      rw [hturn] at hrun
      obtain ⟨h1, h2, h3, h4⟩ := turn_accounted hv (hstate ▸ hphase) hturn
      cases r with
      | some r =>
        cases hrun
        refine ⟨h1, fun hf => hstate ▸ hcons ▸ h2 hf, fun hr => ?_, fun hf => ?_, fun he => ?_⟩
        · obtain ⟨g1, g2⟩ := h3 (by rw [hr])
          exact ⟨g1, by rw [g2, hb, hwaiting rfl]⟩
        · obtain ⟨e, he⟩ := h4.mp hf
          exact ⟨e, Option.some.inj he⟩
        · obtain ⟨e, rfl⟩ := he
          exact h4.mpr ⟨e, rfl⟩
      | none =>
        have hphase' : v'.state.phase ≠ .failed := fun hf => by
          obtain ⟨e, he⟩ := h4.mp hf
          cases he
        obtain ⟨g1, g2, g3, g4⟩ := ih h1 hphase' hrun
        refine ⟨g1, fun hf => ?_, g3, g4⟩
        rcases g2 hf with ⟨hf', hsame⟩ | hended
        · rcases h2 hf' with ⟨hf'', hsame'⟩ | ⟨hop, hall⟩
          · exact Or.inl ⟨hstate ▸ hf'', by rw [hsame, hsame', hcons]⟩
          · exact Or.inr ⟨hop, hsame.trans hall⟩
        · exact Or.inr hended

end Work

/-! ### One session -/

namespace EncoderSession

variable {s s' : EncoderSession K} {c : Call} {calls : List Call}

/-- A session that has not failed has an encoder, behind a bounded block. -/
def Standing (s : EncoderSession K) : Prop :=
  s.operation.state.phase ≠ .failed →
    ∃ e, s.compressor.workspace = some e ∧
    Compressor.Standing s.operation.state e s.compressor.buffers

theorem retarget_represents {e e' : Encoder K} {params : CompressParams} {expected : ℕ}
    (h : e.retargetSizeHint params expected = .ok e') (ht : ∃ t, e.Represents t) :
    ∃ t, e'.Represents t := by
  unfold Encoder.retargetSizeHint at h
  split at h
  · split at h
    · obtain ⟨g, -, rfl⟩ := Encoder.ok_of_map h
      exact ⟨_, .greedy g⟩
    · cases h
  · cases h
    exact ht

/-- Settling the size hint changes the encoder's search, and nothing of the stream. -/
theorem infer_standing {input : ℕ} {operation : Operation} (h : s.Standing)
    (hphase : s.operation.state.phase ≠ .failed)
    (hi : s.inferSizeHint input operation = .ok s') :
    s'.Standing ∧ s'.operation.state = s.operation.state ∧
    s'.compressor.buffers = s.compressor.buffers ∧
      s'.operation.logicalPosition = s.operation.logicalPosition := by
  rw [inferSizeHint] at hi
  dsimp only at hi
  split at hi
  · cases hi
    exact ⟨h, rfl, rfl, rfl⟩
  split at hi
  · cases hi
    exact ⟨h, rfl, rfl, rfl⟩
  obtain ⟨params, -, hi⟩ := ok_of_bind hi
  split at hi
  · cases hi
  rename_i e hwork
  split at hi
  · cases hi
  rename_i e' hretarget
  cases hi
  obtain ⟨e₀, hwork₀, hstand⟩ := h hphase
  rw [hwork] at hwork₀
  cases hwork₀
  exact ⟨fun _ => ⟨e', rfl, hstand.limit_pos, hstand.limit_le, hstand.staged, hstand.ended,
    fun hopen => retarget_represents hretarget (hstand.represents hopen)⟩, rfl, rfl, rfl⟩

/-- What one call is accountable for. -/
structure Accounted (s : EncoderSession K) (c : Call) (s' : EncoderSession K) : Prop where
  standing : s'.Standing
  consumed_le : c.consumed ≤ c.input.length
  produced_eq : c.produced = c.delivered.length
  written : c.written.IsSlice
  finished : c.Reports .finished → s'.isFinished = true
  ends : s'.operation.state.phase = .finished →
    s.operation.state.phase = .finished ∧ c.consumed = 0 ∨ c.operation = .finish ∧
    c.consumed = c.input.length

/-- Nothing more comes of the session: it failed, or its stream ended and was delivered. -/
def Ended (s : EncoderSession K) : Prop :=
  s.operation.state.phase = .failed ∨ s.operation.state.phase = .finished ∧
    s.compressor.buffers.waiting = []

end EncoderSession

end Mbrotli.Compressor
