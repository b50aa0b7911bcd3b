/-
# The session protocol

`DecoderSession.Protocol` is what every history of calls on one operation obeys: the
totals are the sums of what the calls reported and stay within the policy, a status
says what the buffers say, a finished or failed operation stays so, and the end that
the first `Finish` declares is latched. `DecoderSession.protocol` proves it for any
inputs, outputs and operations, in any order, on a decoder of any history.
-/
import Mbrotli.Decompressor.History
import Mbrotli.Decompressor.Session

namespace Mbrotli

namespace DecoderSession

variable {program : Program} {s s' : DecoderSession} {calls : List Call}

/-- The protocol over a history of calls that leads to `s`. -/
structure Protocol (program : Program) (config : DecoderConfig) (exact : OutputSize)
    (calls : List Call) (s : DecoderSession) : Prop where
  totalIn : s.operation.totalIn = (calls.map Call.consumed).sum
  totalOut : s.operation.totalOut = (calls.map Call.produced).sum
  inputLimit : ∀ limit, config.limits.input = some limit → s.operation.totalIn ≤ limit
  outputLimit : ∀ limit, config.limits.output = some limit → s.operation.totalOut ≤ limit
  exactSize : ∀ size, exact = .exact size → s.operation.totalOut ≤ size
  needsInput : ∀ c ∈ calls, c.Reports .needsInput → c.consumed = c.input.length
  needsOutput : ∀ c ∈ calls, c.Reports .needsOutput → c.produced = c.output.len
  /-- After a member whose end was read and checked, with the declared size delivered. -/
  finished : (∃ c ∈ calls, c.Reports .finished) → s.operation.boundary = true ∧
    0 < s.operation.members ∧
    s.decoder.workspace.stage = .endOfMember ∧ ∀ size, exact = .exact size →
    s.operation.totalOut = size
  afterFinished : ∀ before c after, calls = before ++ c :: after → c.Reports .finished →
    ∀ c' ∈ after, c'.result = .ok ⟨0, 0, .finished⟩
  afterFailure : ∀ before c after, calls = before ++ c :: after → c.Fails →
    ∀ c' ∈ after, c'.result = .error ⟨.invalidState, 0, 0⟩
  /-- The first `Finish` latches the end; a later call that does not keep to it fails,
  unless the operation has finished. -/
  latched : ∀ before c mid c' after, calls = before ++ c :: (mid ++ c' :: after) →
    (∀ b ∈ before, b.operation ≠ .finish) → c.operation = .finish →
    c'.operation ≠ .finish ∨ ((before ++ c :: mid).map Call.consumed).sum + c'.input.length ≠
      (before.map Call.consumed).sum + c.input.length →
    c'.Fails ∨ ∃ b ∈ before ++ c :: mid, b.Reports .finished
  /-- What the last three say of calls that returned a next call does: it returns at once,
  with any fuel. -/
  nextFinished : (∃ c ∈ calls, c.Reports .finished) → ∀ fuel input output operation,
    s.process program fuel input output operation = some (.ok ⟨0, 0, .finished⟩, s, output)
  nextFailure : (∃ c ∈ calls, c.Fails) → ∀ fuel input output operation,
    s.process program fuel input output operation = some (.error ⟨.invalidState, 0, 0⟩, s, output)
  nextLatched : ∀ before c mid, calls = before ++ c :: mid →
    (∀ b ∈ before, b.operation ≠ .finish) → c.operation = .finish →
    (∀ b ∈ calls, ¬ b.Reports .finished) → ∀ fuel input output operation,
    operation ≠ .finish ∨ (calls.map Call.consumed).sum + input.length ≠
      (before.map Call.consumed).sum + c.input.length →
    ∃ failure s', s.process program fuel input output operation = some (.error failure, s', output)

/-- The session's operation is in order. -/
def Running (program : Program) (s : DecoderSession) : Prop :=
  s.operation.Operating program s.decoder

theorem steps_called (h : s.Running program) {c : Call} (hs : Steps program s c s') :
    s.operation.Called program s.decoder c.input c.output .slice c.result s'.operation
    s'.decoder := by
  obtain ⟨fuel, he⟩ := hs
  unfold process at he
  split at he
  · cases he
  · rename_i r op d w hp
    cases he
    exact OperationState.process_called h hp

theorem steps_running (h : s.Running program) {c : Call} (hs : Steps program s c s') :
    s'.Running program :=
  (steps_called h hs).operating

theorem calls_running (h : s.Running program) (hc : Calls program s calls s') :
    s'.Running program :=
  hc.invariant (fun _ _ _ h hs => steps_running h hs) h

/-- One call's counts are what the totals grow by. -/
theorem steps_counts (h : s.Running program) {c : Call} (hs : Steps program s c s') :
    s'.operation.totalIn = s.operation.totalIn + c.consumed ∧
      s'.operation.totalOut = s.operation.totalOut + c.produced := by
  have hc := steps_called h hs
  have ht := hc.totals
  have hr := hc.counts
  unfold Call.consumed Call.produced
  cases hres : c.result with
  | ok progress =>
    rw [hres] at hr
    obtain ⟨h1, h2⟩ := hr
    exact ⟨by dsimp only; omega, by dsimp only; omega⟩
  | error failure =>
    rw [hres] at hr
    obtain ⟨h1, h2⟩ := hr
    exact ⟨by dsimp only; omega, by dsimp only; omega⟩

theorem calls_counts (h : s.Running program) (hc : Calls program s calls s') :
    s'.operation.totalIn = s.operation.totalIn + (calls.map Call.consumed).sum ∧
      s'.operation.totalOut = s.operation.totalOut + (calls.map Call.produced).sum := by
  induction hc with
  | nil s => simp
  | cons hs _ ih =>
    obtain ⟨h1, h2⟩ := steps_counts h hs
    obtain ⟨h3, h4⟩ := ih (steps_running h hs)
    simp only [List.map_cons, List.sum_cons]
    omega

theorem calls_config (h : s.Running program) (hc : Calls program s calls s') :
    s'.decoder.config = s.decoder.config ∧ s'.operation.exact = s.operation.exact := by
  induction hc with
  | nil s => exact ⟨rfl, rfl⟩
  | cons hs _ ih =>
    have hcall := steps_called h hs
    obtain ⟨h1, h2⟩ := ih (steps_running h hs)
    exact ⟨h1.trans hcall.config.1, h2.trans hcall.exact⟩

/-! ### The lifecycle -/

/-- A finished operation answers at once. -/
theorem process_of_finished (hf : s.operation.failed = false) (hd : s.operation.finished = true)
    (fuel : ℕ) (input : List UInt8) (output : Slice) (operation : DecodeOperation) :
    s.process program fuel input output operation =
      some (.ok ⟨0, 0, .finished⟩, s, output) := by
  unfold process OperationState.process
  rw [if_neg (by rw [hf]; exact Bool.false_ne_true), if_pos hd]

/-- So does a failed one. -/
theorem process_of_failed (hf : s.operation.failed = true) (fuel : ℕ) (input : List UInt8)
    (output : Slice) (operation : DecodeOperation) :
    s.process program fuel input output operation =
      some (.error ⟨.invalidState, 0, 0⟩, s, output) := by
  have hsame : { s.operation with failed := true } = s.operation := by rw [← hf]
  unfold process OperationState.process
  rw [if_pos hf]
  dsimp only
  rw [hsame]

theorem steps_finished (hf : s.operation.failed = false)
    (hd : s.operation.finished = true) {c : Call}
    (hs : Steps program s c s') : c.result = .ok ⟨0, 0, .finished⟩ ∧ s' = s := by
  obtain ⟨fuel, he⟩ := hs
  unfold process at he
  split at he
  · cases he
  · rename_i r op d w hp
    obtain ⟨h1, rfl, rfl⟩ := OperationState.process_finished hf hd hp
    cases he
    exact ⟨h1, rfl⟩

theorem steps_failed (hf : s.operation.failed = true) {c : Call} (hs : Steps program s c s') :
    c.result = .error ⟨.invalidState, 0, 0⟩ ∧ s' = s := by
  obtain ⟨fuel, he⟩ := hs
  unfold process at he
  split at he
  · cases he
  · rename_i r op d w hp
    obtain ⟨h1, rfl, rfl⟩ := OperationState.process_failed hf hp
    cases he
    exact ⟨h1, rfl⟩

theorem calls_finished (hf : s.operation.failed = false) (hd : s.operation.finished = true)
    (hc : Calls program s calls s') : (∀ c ∈ calls, c.result = .ok ⟨0, 0, .finished⟩) ∧ s' = s := by
  induction hc with
  | nil => exact ⟨(fun _ h => nomatch h), rfl⟩
  | cons hs _ ih =>
    obtain ⟨h1, rfl⟩ := steps_finished hf hd hs
    obtain ⟨h2, h3⟩ := ih hf hd
    exact ⟨List.forall_mem_cons.mpr ⟨h1, h2⟩, h3⟩

theorem calls_failed (hf : s.operation.failed = true) (hc : Calls program s calls s') :
    (∀ c ∈ calls, c.result = .error ⟨.invalidState, 0, 0⟩) ∧ s' = s := by
  induction hc with
  | nil => exact ⟨(fun _ h => nomatch h), rfl⟩
  | cons hs _ ih =>
    obtain ⟨h1, rfl⟩ := steps_failed hf hs
    obtain ⟨h2, h3⟩ := ih hf
    exact ⟨List.forall_mem_cons.mpr ⟨h1, h2⟩, h3⟩

theorem steps_reports_finished (h : s.Running program) {c : Call} (hs : Steps program s c s')
    (hr : c.Reports .finished) :
    s'.operation.finished = true ∧ s'.operation.failed = false := by
  have hc := steps_called h hs
  obtain ⟨n, p, hr⟩ := hr
  have hd := hc.finished.mpr ⟨n, p, hr⟩
  exact ⟨hd, hc.operating.apart hd⟩

/-! ### The latch -/

/-- What the latch holds once the first `Finish` was accepted or refused. -/
def Latched (stop : ℕ) (s : DecoderSession) : Prop :=
  s.operation.failed = true ∨ s.operation.finished = true ∨
    s.operation.finishing = true ∧ s.operation.finalEnd = stop

theorem steps_unlatched (h : s.Running program) (hl : s.operation.finishing = false) {c : Call}
    (hs : Steps program s c s') (hop : c.operation ≠ .finish) : s'.operation.finishing = false := by
  obtain ⟨fuel, he⟩ := hs
  unfold process at he
  split at he
  · cases he
  rename_i r op d w hp
  cases he
  cases hf : s.operation.failed with
  | true => rw [(OperationState.process_failed hf hp).2.1]; exact hl
  | false =>
    cases hd : s.operation.finished with
    | true => rw [(OperationState.process_finished hf hd hp).2.1]; exact hl
    | false =>
      rcases OperationState.process_running hf hd hp with ⟨e, -, rfl, -⟩ | ⟨-, op1,
        hdrive, heq, -, h4⟩
      · exact hl
      · have hop1 : op1.Operating program s.decoder := by
          rw [heq]
          exact ⟨h.stream, h.budget, h.atEnd, h.input, h.output, h.exact, h.finished, h.apart⟩
        rw [(OperationState.drive_called hop1 (by rw [heq]; exact hd)
          (by rw [heq]; exact hf) hdrive).2.1]
        exact h4 hl hop

/-- The first `Finish` latches its end; later calls keep it. -/
theorem steps_latched (h : s.Running program) {stop : ℕ} {c : Call} (hs : Steps program s c s')
    (hl : s.Latched stop ∨ s.operation.finishing = false ∧ c.operation = .finish ∧
      stop = s.operation.totalIn + c.input.length) : s'.Latched stop := by
  obtain ⟨fuel, he⟩ := hs
  unfold process at he
  split at he
  · cases he
  rename_i r op d w hp
  cases he
  cases hf : s.operation.failed with
  | true => exact Or.inl (by rw [(OperationState.process_failed hf hp).2.1]; exact hf)
  | false =>
    cases hd : s.operation.finished with
    | true =>
        exact Or.inr (Or.inl (by rw [(OperationState.process_finished hf hd hp).2.1]; exact hd))
    | false =>
      rcases OperationState.process_running hf hd hp with ⟨e, -, rfl, -⟩ | ⟨h1, op1,
        hdrive, heq, h3, -⟩
      · exact Or.inl rfl
      · have hop1 : op1.Operating program s.decoder := by
          rw [heq]
          exact ⟨h.stream, h.budget, h.atEnd, h.input, h.output, h.exact, h.finished, h.apart⟩
        have hdr :=
          OperationState.drive_called hop1 (by rw [heq]; exact hd) (by rw [heq]; exact hf) hdrive
        refine Or.inr (Or.inr ?_)
        rw [hdr.2.1, hdr.2.2]
        rcases hl with hl | ⟨-, hop, rfl⟩
        · rcases hl with hl | hl | ⟨hl, rfl⟩
          · rw [hf] at hl; cases hl
          · rw [hd] at hl; cases hl
          · obtain ⟨f1, f2⟩ := h3 (Or.inl hl)
            exact ⟨f1, f2.trans (h1 hl).2⟩
        · exact h3 (Or.inr hop)

theorem steps_refused {stop : ℕ} (hl : s.Latched stop)
    (hd : s.operation.finished = false) {c : Call}
    (hs : Steps program s c s') (hne : c.operation ≠ .finish ∨
      s.operation.totalIn + c.input.length ≠ stop) : c.Fails := by
  obtain ⟨fuel, he⟩ := hs
  unfold process at he
  split at he
  · cases he
  rename_i r op d w hp
  simp only [Option.some.injEq, Prod.mk.injEq] at he
  unfold Call.Fails
  rw [← he.1]
  cases hf : s.operation.failed with
  | true => exact ⟨_, (OperationState.process_failed hf hp).1⟩
  | false =>
    rcases OperationState.process_running hf hd hp with ⟨e, rfl, -, -⟩ | ⟨h1, -⟩
    · exact ⟨_, rfl⟩
    · rcases hl with hl | hl | ⟨hl, rfl⟩
      · rw [hf] at hl; cases hl
      · rw [hd] at hl; cases hl
      · obtain ⟨g1, g2⟩ := h1 hl
        rcases hne with hne | hne
        · exact absurd g1 hne
        · exact absurd g2 hne

/-- A call that does not keep to the latch is refused before it touches the decoder. -/
theorem process_of_latched {stop : ℕ} (hl : s.Latched stop) (hd : s.operation.finished = false)
    {input : List UInt8} {operation : DecodeOperation} (fuel : ℕ) (output : Slice)
    (hne : operation ≠ .finish ∨ s.operation.totalIn + input.length ≠ stop) :
    ∃ failure s', s.process program fuel input output operation =
      some (.error failure, s', output) := by
  rcases hl with hf | hf | ⟨hfinishing, rfl⟩
  · exact ⟨_, s, process_of_failed hf fuel input output operation⟩
  · exact absurd (hd.symm.trans hf) Bool.false_ne_true
  · cases hf : s.operation.failed with
    | true => exact ⟨_, s, process_of_failed hf fuel input output operation⟩
    | false =>
      unfold process OperationState.process
      rw [if_neg (by rw [hf]; exact Bool.false_ne_true),
        if_neg (by rw [hd]; exact Bool.false_ne_true)]
      dsimp only
      by_cases hover : u64Max < s.operation.totalIn + input.length
      · rw [if_pos hover]
        exact ⟨_, _, rfl⟩
      · rw [if_neg hover, if_pos hfinishing, if_pos hne]
        exact ⟨_, _, rfl⟩

/-- The end of the first `Finish` is latched for the calls after it. -/
theorem calls_latched (h : s.Running program) (hl : s.operation.finishing = false)
    {before mid : List Call} {c : Call}
    (hb : ∀ b ∈ before, b.operation ≠ .finish) (hop : c.operation = .finish)
    (hc : Calls program s (before ++ c :: mid) s') :
    s'.Latched (s.operation.totalIn + (before.map Call.consumed).sum + c.input.length) := by
  obtain ⟨s1, hc1, hc2⟩ := hc.of_append
  obtain ⟨s2, hs, hc3⟩ := hc2.of_cons
  have h1 := calls_running h hc1
  have hl1 : s1.operation.finishing = false := by
    clear hc hc2 hs hc3 h1
    induction hc1 with
    | nil => exact hl
    | cons hs _ ih =>
      obtain ⟨hb1, hb2⟩ := List.forall_mem_cons.mp hb
      exact ih (steps_running h hs) (steps_unlatched h hl hs hb1) hb2
  have hl2 := steps_latched h1 hs (Or.inr ⟨hl1, hop, rfl⟩)
  rw [(calls_counts h hc1).1] at hl2
  have h2 := steps_running h1 hs
  clear hc hc2 hc1 hs h1 hl1
  induction hc3 with
  | nil => exact hl2
  | cons hs _ ih => exact ih (steps_latched h2 hs (Or.inl hl2)) (steps_running h2 hs)

/-- Only a call that reports it finishes an operation. -/
theorem calls_finished_reports (h : s.Running program) (hd : s.operation.finished = false)
    (hc : Calls program s calls s') (hd' : s'.operation.finished = true) :
    ∃ c ∈ calls, c.Reports .finished := by
  induction hc with
  | nil => rw [hd] at hd'; cases hd'
  | @cons s s1 _ c calls hs _ ih =>
    cases hd1 : s1.operation.finished with
    | true =>
      obtain ⟨n, p, hr⟩ := (steps_called h hs).finished.mp hd1
      exact ⟨c, List.mem_cons_self, n, p, hr⟩
    | false =>
      obtain ⟨c', hmem, hr⟩ := ih (steps_running h hs) hd1 hd'
      exact ⟨c', List.mem_cons_of_mem _ hmem, hr⟩

/-- A session starts in order, with nothing counted. -/
theorem start_running {d : Decompressor} {exact : OutputSize} {dictionary : Option DictionaryRef}
    (hd : d.Idle program) (hs : start d exact dictionary = .ok s) :
    s.Running program ∧ s.operation = { exact } ∧ s.decoder.config = d.config := by
  unfold start at hs
  split at hs
  · cases hs
  · rename_i op d' he
    cases hs
    obtain ⟨h1, h2, h3, -⟩ := OperationState.start_operating hd he
    exact ⟨h1, h2, h3⟩

/-- Every history of calls on a session obeys the protocol. -/
theorem protocol {d : Decompressor} (hd : History program none d) {exact : OutputSize}
    {dictionary : Option DictionaryRef} (hs : start d exact dictionary = .ok s)
    (hc : Calls program s calls s') :
    Protocol program d.config exact calls s' := by
  obtain ⟨h, hop, hconf⟩ := start_running hd.idle hs
  have h' := calls_running h hc
  obtain ⟨c1, c2⟩ := calls_config h hc
  obtain ⟨n1, n2⟩ := calls_counts h hc
  have hlabels : ∀ c ∈ calls, (c.Reports .needsInput → c.consumed = c.input.length) ∧
      (c.Reports .needsOutput → c.produced = c.output.len) := by
    refine hc.labels (P := Running program) (fun s c s' hs hst => ?_) h
    have hcall := steps_called hs hst
    refine ⟨hcall.operating, ?_, ?_⟩
    · rintro ⟨n, p, hr⟩
      rw [← hcall.input n p hr]
      simp only [Call.consumed, hr]
    · rintro ⟨n, p, hr⟩
      rw [← hcall.output n p hr rfl]
      simp only [Call.produced, hr]
  have hfin : ∀ before c after, calls = before ++ c :: after → c.Reports .finished →
      (∀ c' ∈ after, c'.result = .ok ⟨0, 0, .finished⟩) ∧ s'.operation.finished = true := by
    rintro before c after rfl hr
    obtain ⟨s1, hc1, hc2⟩ := hc.of_append
    obtain ⟨s2, hst, hc3⟩ := hc2.of_cons
    obtain ⟨f1, f2⟩ := steps_reports_finished (calls_running h hc1) hst hr
    obtain ⟨f3, rfl⟩ := calls_finished f2 f1 hc3
    exact ⟨f3, f1⟩
  have hexact : s'.operation.exact = exact := by rw [c2, hop]
  refine ⟨by rw [n1, hop, Nat.zero_add], by rw [n2, hop, Nat.zero_add], ?_, ?_, ?_,
    fun c hm => (hlabels c hm).1,
    fun c hm => (hlabels c hm).2, ?_, fun before c after he hr =>
    (hfin before c after he hr).1, ?_, ?_, ?_, ?_, ?_⟩
  · exact fun l hl => h'.input l (by rw [c1, hconf]; exact hl)
  · exact fun l hl => h'.output l (by rw [c1, hconf]; exact hl)
  · exact fun n hn => h'.exact n (hexact.trans hn)
  · rintro ⟨c, hm, hr⟩
    obtain ⟨before, after, he⟩ := List.append_of_mem hm
    have hd := (hfin before c after he hr).2
    obtain ⟨f1, f2⟩ := h'.finished hd
    obtain ⟨f3, f4⟩ := h'.atEnd f1
    exact ⟨f1, f4, f3, fun n hn => f2 n (hexact.trans hn)⟩
  · rintro before c after rfl ⟨f, hr⟩
    obtain ⟨s1, hc1, hc2⟩ := hc.of_append
    obtain ⟨s2, hst, hc3⟩ := hc2.of_cons
    have hf := (steps_called (calls_running h hc1) hst).failed.mpr ⟨f, hr⟩
    exact (calls_failed hf hc3).1
  · rintro before c mid c' after rfl hb hfinish hne
    have hsplit : before ++ c :: (mid ++ c' :: after) = (before ++ c :: mid) ++ c' :: after := by
      simp
    rw [hsplit] at hc
    obtain ⟨s1, hc1, hc2⟩ := hc.of_append
    obtain ⟨s2, hst, -⟩ := hc2.of_cons
    have hl := calls_latched h (by rw [hop]) hb hfinish hc1
    rw [hop] at hl
    cases hd1 : s1.operation.finished with
    | true => exact Or.inr (calls_finished_reports h (by rw [hop]) hc1 hd1)
    | false =>
      refine Or.inl (steps_refused hl hd1 hst ?_)
      rw [(calls_counts h hc1).1, hop]
      simpa only [Nat.zero_add] using hne
  · rintro ⟨c, hm, hr⟩
    obtain ⟨before, after, he⟩ := List.append_of_mem hm
    have hd := (hfin before c after he hr).2
    exact process_of_finished (h'.apart hd) hd
  · rintro ⟨c, hm, f, hr⟩
    obtain ⟨before, after, rfl⟩ := List.append_of_mem hm
    obtain ⟨s1, hc1, hc2⟩ := hc.of_append
    obtain ⟨s2, hst, hc3⟩ := hc2.of_cons
    have hf := (steps_called (calls_running h hc1) hst).failed.mpr ⟨f, hr⟩
    obtain ⟨-, rfl⟩ := calls_failed hf hc3
    exact process_of_failed hf
  · rintro before c mid rfl hb hfinish hunfinished fuel input output operation hne
    have hl := calls_latched h (by rw [hop]) hb hfinish hc
    have hd' : s'.operation.finished = false := by
      cases hd : s'.operation.finished with
      | false => rfl
      | true =>
        obtain ⟨b, hmem, hr⟩ := calls_finished_reports h (by rw [hop]) hc hd
        exact absurd hr (hunfinished b hmem)
    refine process_of_latched hl hd' fuel output (hne.imp_right fun hne => ?_)
    rw [n1, hop]
    simpa only [Nat.zero_add] using hne

/-- A call that was evaluated is a step. -/
theorem steps_of_result {fuel : ℕ} {input : List UInt8} {output : Slice}
    {operation : DecodeOperation}
    {r : Except DecodeFailure DecodeProgress}
    (h : (s.process program fuel input output operation).map (·.1) = some r) :
    ∃ s' written, Steps program s ⟨input, output, operation, r, written⟩ s' := by
  obtain ⟨⟨r', s', written⟩, he, rfl⟩ := Option.map_eq_some_iff.mp h
  exact ⟨s', written, fuel, he⟩

/-- A new decoder's session. -/
def fresh : DecoderSession :=
  { decoder := { workspace := ({} : Stream).reset {}, active := true }, dictionary := none
    operation := { exact := .unknown } }

/-- A decoder that delivers at most four bytes. -/
def limited : DecoderConfig := { limits := { output := some 4 } }

/-- A session on it that one byte is declared for. -/
def declared : DecoderSession :=
  { decoder := { config := limited, workspace := ({} : Stream).reset limited, active := true }
    dictionary := none, operation := { exact := .exact 1 } }

/-- The protocol over three calls on a member of one byte: the first takes part of it in, the
second delivers the byte, and the third ends the operation. -/
theorem protocol_three_calls : ∃ s c₁ c₂ c₃, Calls ⟨fun _ => 0, 0⟩ declared [c₁, c₂, c₃] s ∧
    c₁.Reports .needsInput ∧ c₂.delivered = [104] ∧ c₃.Reports .finished ∧
    Protocol ⟨fun _ => 0, 0⟩ limited (.exact 1) [c₁, c₂, c₃] s := by
  have he : ((declared.process ⟨fun _ => 0, 0⟩ 40 [0x0b, 0x00] .empty .process).bind fun x =>
      (x.2.1.process ⟨fun _ => 0, 0⟩ 40 [0x80, 104] (.ofList [0, 0]) .process).bind fun y =>
      (y.2.1.process ⟨fun _ => 0, 0⟩ 40 [0x03] .empty .finish).map fun z =>
        (x.1, y.1, y.2.2.take 1, z.1)) =
      some (.ok ⟨2, 0, .needsInput⟩, .ok ⟨2, 1, .needsInput⟩, [104], .ok ⟨1, 0, .finished⟩) := by
    decide +kernel
  obtain ⟨⟨r₁, s₁, w₁⟩, h₁, he⟩ := Option.bind_eq_some_iff.mp he
  obtain ⟨⟨r₂, s₂, w₂⟩, h₂, he⟩ := Option.bind_eq_some_iff.mp he
  obtain ⟨⟨r₃, s₃, w₃⟩, h₃, he⟩ := Option.map_eq_some_iff.mp he
  simp only [Prod.mk.injEq] at he
  obtain ⟨rfl, rfl, hbytes, rfl⟩ := he
  have hcalls : Calls ⟨fun _ => 0, 0⟩ declared [⟨[0x0b, 0x00], .empty, .process, _, w₁⟩,
      ⟨[0x80, 104], .ofList [0, 0], .process, _, w₂⟩, ⟨[0x03], .empty, .finish, _, w₃⟩] s₃ :=
    .cons ⟨40, h₁⟩ (.cons ⟨40, h₂⟩ (.single ⟨40, h₃⟩))
  exact ⟨s₃, _, _, _, hcalls, ⟨2, 0, rfl⟩, hbytes, ⟨1, 0, rfl⟩,
    protocol (.new limited .aggressive)
      (show start { config := limited } (.exact 1) none = .ok declared from rfl) hcalls⟩

/-- After a `Finish` that finished the operation, another call does not fail. -/
theorem finished_before_latch : ∃ s c c', Calls ⟨fun _ => 0, 0⟩ fresh [c, c'] s ∧
    c.operation = .finish ∧
    c'.operation ≠ .finish ∧ ¬ c'.Fails := by
  have he : (fresh.process ⟨fun _ => 0, 0⟩ 20 [6] .empty .finish).map (·.1) =
      some (.ok ⟨1, 0, .finished⟩) := by
    decide +kernel
  obtain ⟨s', written, hs⟩ := steps_of_result he
  have hrun : fresh.Running ⟨fun _ => 0, 0⟩ :=
    (start_running (History.new {} .aggressive).idle (show start {} .unknown none =
      .ok fresh from rfl)).1
  obtain ⟨f1, f2⟩ := steps_reports_finished hrun hs ⟨1, 0, rfl⟩
  have hs' : Steps ⟨fun _ => 0, 0⟩ s' ⟨[], .empty, .process, .ok ⟨0, 0, .finished⟩, .empty⟩ s' := by
    refine ⟨0, ?_⟩
    unfold process OperationState.process
    rw [if_neg (by simp [f2]), if_pos f1]
  refine ⟨s', _, _, .cons hs (.single hs'), rfl, by decide, ?_⟩
  rintro ⟨f, hf⟩
  cases hf

end DecoderSession
end Mbrotli
