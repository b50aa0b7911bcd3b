/-
# Every call keeps an operation sound

`Operating` is what every state of an operation satisfies between its calls: its
decoder is sound under the configured budget, its totals are within the policy, and a
member boundary is where the decoder stopped after a member's padding. A call keeps
it, whatever it is given and however it ends (`process_called`), and its report
says what the buffers and the totals say (`Reported`).
-/
import Mbrotli.Decompressor.Core.Sound.Stages
import Mbrotli.Decompressor.Core.Session

namespace Mbrotli

namespace Stream

variable {program : Program} {s : Stream}

/-- What stays true of an abandoned decoder, and under a policy with another budget. -/
structure Idle (program : Program) (s : Stream) : Prop where
  ring : RingLength s.ring.len
  window : s.windowSize = 0 ∨ WindowSize s.windowSize
  live : s.memory.live = s.owned program

theorem Sound.idle (h : s.Sound program) : s.Idle program := ⟨h.ring, h.window, h.live⟩

theorem owned_reset (config : DecoderConfig) :
    (s.reset config).owned program = s.owned program := by
  unfold reset owned
  cases s.tables <;> rfl

/-- A reset keeps every buffer, and brings the configured budget. -/
theorem Idle.reset (h : s.Idle program) (config : DecoderConfig) : (s.reset config).Idle program :=
  ⟨h.ring, h.window, h.live.trans (owned_reset config).symm⟩

/-- It is sound where what is retained fits that budget. -/
theorem Idle.reset_sound (h : s.Idle program) {config : DecoderConfig}
    (hfit : ∀ l, config.limits.workspace = some l → s.memory.live ≤ l) :
    (s.reset config).Sound program :=
  ⟨h.ring, h.window, Or.inl rfl, h.live.trans (owned_reset config).symm, hfit, trivial⟩

theorem Idle.new (program : Program) : ({} : Stream).Idle program := (sound_new program).idle

/-- The collected ring leaves with its bytes. -/
theorem Sound.takeCollected (h : s.Sound program) : s.takeCollected.2.Sound program := by
  have hlive := h.live
  simp only [owned] at hlive
  refine ⟨Or.inl rfl, h.window, h.windowed, ?_, fun l hl => ?_, h.maps⟩
  · simp only [Stream.takeCollected, owned, Buffer.new]
    omega
  · have := h.within l hl
    simp only [Stream.takeCollected]
    omega

end Stream

/-- What a call's members keep: as a turn, but that later members are not linear. -/
structure Machine.Drives (program : Program) (m m' : Machine) : Prop where
  stream : m.stream.Goes program m'.stream
  input : m.input.Moves m'.input
  frame : m'.output.frame = m.output.frame
  linear : m.output.linear = false → m'.output.linear = false
  produced : m'.output.produced ≤ m.output.fastEnd

namespace Machine

variable {program : Program} {m m' : Machine}

theorem Goes.drives (h : m.Goes program m') : m.Drives program m' :=
  ⟨h.stream, h.input, h.frame, fun hl => h.linear.trans hl, h.produced⟩

theorem Drives.trans {m'' : Machine} (h : m.Drives program m') (h' : m'.Drives program m'') :
    m.Drives program m'' :=
  ⟨h.stream.trans h'.stream, h.input.trans h'.input, h'.frame.trans h.frame, h'.linear ∘ h.linear,
    by rw [← Output.fastEnd_of_frame h.frame]; exact h'.produced⟩

theorem Drives.sound (h : m.Drives program m') : m'.Sound program :=
  ⟨h.stream.sound, h.input.wf, by rw [Output.fastEnd_of_frame h.frame]; exact h.produced⟩

end Machine

namespace OperationState

variable {env : Env} {op op' : OperationState} {m m' : Machine}

/-- A member boundary is a validated member's end. -/
def AtEnd (op : OperationState) (s : Stream) : Prop :=
  op.boundary = true → s.stage = .endOfMember ∧ 0 < op.members

/-- The same operation: what a call's members do not change. -/
structure Same (op op' : OperationState) : Prop where
  exact : op'.exact = op.exact
  totalIn : op'.totalIn = op.totalIn
  totalOut : op'.totalOut = op.totalOut
  finalEnd : op'.finalEnd = op.finalEnd
  finishing : op'.finishing = op.finishing
  failed : op'.failed = op.failed
  members : op.members ≤ op'.members

theorem Same.refl (op : OperationState) : op.Same op := ⟨rfl, rfl, rfl, rfl, rfl, rfl, le_rfl⟩

theorem Same.trans {op'' : OperationState} (h : op.Same op') (h' : op'.Same op'') : op.Same op'' :=
  ⟨h'.exact.trans h.exact, h'.totalIn.trans h.totalIn, h'.totalOut.trans h.totalOut,
    h'.finalEnd.trans h.finalEnd,
    h'.finishing.trans h.finishing, h'.failed.trans h.failed, le_trans h.members h'.members⟩

/-- What a call's members lead to. -/
structure Drove (program : Program) (op : OperationState) (m : Machine)
    (r : Except Fault DecoderStatus)
    (op' : OperationState) (m' : Machine) : Prop where
  drives : m.Drives program m'
  same : op.Same op'
  atEnd : op'.AtEnd m'.stream
  input : r = .ok .needsInput → m'.input.bytes.length ≤ m'.input.consumed
  output : r = .ok .needsOutput → m'.output.linear = false → m'.output.produced = m'.output.capacity
  done : op'.finished = true → r = .ok .finished ∨ op.finished = true
  finished : r = .ok .finished → op'.finished = true ∧ op'.boundary = true ∧
    ∀ n, op.exact = .exact n → op.totalOut + m'.output.produced = n

theorem Drove.trans {program : Program} {op1 : OperationState} {m1 : Machine}
    {r : Except Fault DecoderStatus}
    (hd : m.Drives program m1) (hs : op.Same op1) (hf : op1.finished = op.finished)
    (h : Drove program op1 m1 r op' m') : Drove program op m r op' m' where
  drives := hd.trans h.drives
  same := hs.trans h.same
  atEnd := h.atEnd
  input := h.input
  output := h.output
  done he := (h.done he).imp_right (hf ▸ ·)
  finished he := by
    obtain ⟨h1, h2, h3⟩ := h.finished he
    exact ⟨h1, h2, fun n hn => by rw [← hs.totalOut]; exact h3 n (hs.exact.trans hn)⟩

/-- What a boundary leads to is decided by the buffers and the exact size. -/
theorem atBoundary_spec {config : DecoderConfig} {r : Except DecodeError DecoderStatus}
    (h : op.atBoundary config m = some r) :
    (r = .ok .needsInput → m.input.bytes.length ≤ m.input.consumed) ∧ r ≠ .ok .needsOutput ∧
      (r = .ok .finished → ∀ n, op.exact = .exact n → op.totalOut + m.output.produced = n) := by
  unfold atBoundary at h
  split at h
  · split at h
    · rename_i expected hexact
      split at h
      · cases h
        exact ⟨(fun he => nomatch he), (fun he => nomatch he), (fun he => nomatch he)⟩
      · rename_i hsize
        cases h
        refine ⟨(fun he => nomatch he), (fun he => nomatch he), fun _ n hn => ?_⟩
        have : n = expected := by
          rw [hexact] at hn
          cases hn
          rfl
        omega
    · rename_i hexact
      cases h
      exact ⟨(fun he => nomatch he), (fun he => nomatch he), fun _ n hn => by
        rw [hexact] at hn; cases hn⟩
  · split at h
    · rename_i hcons
      cases h
      exact ⟨fun _ => le_of_eq hcons.symm, (fun he => nomatch he), (fun he => nomatch he)⟩
    · cases h

/-- One member's run. -/
theorem member_drove (h : m.Sound env.program) (hb : op.boundary = false) {fuel : ℕ}
    {r : Option (Except Fault DecoderStatus)} (he : op.member env fuel m = some (r, op', m')) :
    match r with
    | some r => Drove env.program op m r op' m' ∧ r ≠ .ok .finished
    | none => m.Drives env.program m' ∧ op.Same op' ∧ op'.finished = op.finished ∧
          op'.AtEnd m'.stream := by
  unfold member at he
  split at he
  · cases he
  rename_i r1 m1 hrun
  have hr := Machine.run_ran h hrun
  have hd := hr.goes.drives
  have hbase : ∀ (r : Except Fault DecoderStatus),
    (r = .ok .needsInput → m1.input.bytes.length ≤ m1.input.consumed) →
      (r = .ok .needsOutput → m1.output.linear = false → m1.output.produced = m1.output.capacity) →
      r ≠ .ok .finished →
      Drove env.program op m r { op with window := m1.stream.window.or op.window } m1 ∧
        r ≠ .ok .finished := fun r h1 h2 h3 =>
    ⟨⟨hd, ⟨rfl, rfl, rfl, rfl, rfl, rfl, le_rfl⟩, (fun he => by rw [hb] at he; cases he),
      h1, h2, Or.inr,
      fun he => absurd he h3⟩, h3⟩
  dsimp only at he
  split at he
  · cases he
    exact hbase _ (fun he => nomatch he) (fun he => nomatch he) (fun he => nomatch he)
  · cases he
    dsimp only
    split
    · exact hbase _ (fun he => nomatch he) (fun he => nomatch he) (fun he => nomatch he)
    · exact hbase _ (fun _ => hr.input rfl) (fun he => nomatch he) (fun he => nomatch he)
  · cases he
    exact hbase _ (fun he => nomatch he) (fun _ => hr.output rfl) (fun he => nomatch he)
  · have hd' : m.Drives env.program { m1 with output := { m1.output with linear := false } } :=
      ⟨hd.stream, hd.input, hd.frame, fun _ => rfl, hd.produced⟩
    split at he
    · cases he
      exact ⟨⟨hd', ⟨rfl, rfl, rfl, rfl, rfl, rfl, le_rfl⟩, (fun he => by rw [hb] at he; cases he),
        (fun he => nomatch he), (fun he => nomatch he), Or.inr, (fun he => nomatch he)⟩,
        (fun he => nomatch he)⟩
    · cases he
      exact ⟨hd', ⟨rfl, rfl, rfl, rfl, rfl, rfl, Nat.le_succ _⟩, rfl,
        fun _ => ⟨hr.member rfl, Nat.succ_pos _⟩⟩

theorem loop_drove : ∀ (fuel : ℕ) (op : OperationState) (m : Machine), m.Sound env.program →
    m.stream.memory.limit = env.config.limits.workspace → op.AtEnd m.stream → ∀ {r op' m'},
    op.loop env fuel m = some (r, op', m') → Drove env.program op m r op' m' := by
  intro fuel
  induction fuel with
  | zero => intro op m _ _ _ r op' m' he; cases he
  | succ fuel ih =>
    intro op m h hlim hend r op' m' he
    have hself : m.Drives env.program m := (Machine.Goes.refl h).drives
    unfold loop at he
    cases hat : (if op.boundary then op.atBoundary env.config m else none) with
    | some b =>
      have hb : op.boundary = true ∧ op.atBoundary env.config m = some b := by
        split at hat
        · exact ⟨‹_›, hat⟩
        · cases hat
      obtain ⟨s1, s2, s3⟩ := atBoundary_spec hb.2
      rw [hat] at he
      cases b with
      | error e =>
        cases he
        exact ⟨hself, .refl op, hend, (fun he => nomatch he), (fun he => nomatch he), Or.inr,
          (fun he => nomatch he)⟩
      | ok status =>
        cases status with
        | finished =>
          cases he
          exact ⟨hself, ⟨rfl, rfl, rfl, rfl, rfl, rfl, le_rfl⟩, hend, (fun he => nomatch he),
            (fun he => nomatch he),
            fun _ => Or.inl rfl, fun _ => ⟨rfl, hb.1, s3 rfl⟩⟩
        | needsInput =>
          cases he
          exact ⟨hself, .refl op, hend, fun _ => s1 rfl, (fun he => nomatch he), Or.inr,
            (fun he => nomatch he)⟩
        | needsOutput => exact absurd rfl s2
    | none =>
      rw [hat] at he
      dsimp only at he
      generalize hm1 : (if op.boundary then { m with stream := m.stream.reset env.config } else m) =
        m1 at he
      have hd : m.Drives env.program m1 ∧ m1.stream.memory.limit = env.config.limits.workspace := by
        subst hm1
        split
        · have hs : (m.stream.reset env.config).Sound env.program :=
            h.stream.idle.reset_sound fun l hl => h.stream.within l (hlim.trans hl)
          exact ⟨⟨⟨hs, hlim.symm⟩, .refl h.input, rfl, id, h.produced⟩, rfl⟩
        · exact ⟨hself, hlim⟩
      have hs0 : op.Same { op with boundary := false } := ⟨rfl, rfl, rfl, rfl, rfl, rfl, le_rfl⟩
      split at he
      · cases he
      · rename_i r2 op2 m2 hmem
        cases he
        exact (member_drove hd.1.sound rfl hmem).1.trans hd.1 hs0 rfl
      · rename_i op2 m2 hmem
        obtain ⟨h1, h2, h3, h4⟩ := member_drove hd.1.sound rfl hmem
        have hlim2 : m2.stream.memory.limit = env.config.limits.workspace :=
          h1.stream.limit.trans hd.2
        exact (ih op2 m2 h1.sound hlim2 h4 he).trans (hd.1.trans h1) (hs0.trans h2) h3

/-- What holds between the calls of an operation. -/
structure Operating (program : Program) (op : OperationState) (d : Decompressor) : Prop where
  stream : d.workspace.Sound program
  budget : d.workspace.memory.limit = d.config.limits.workspace
  atEnd : op.AtEnd d.workspace
  input : ∀ l, d.config.limits.input = some l → op.totalIn ≤ l
  output : ∀ l, d.config.limits.output = some l → op.totalOut ≤ l
  exact : ∀ n, op.exact = .exact n → op.totalOut ≤ n
  finished : op.finished = true → op.boundary = true ∧ ∀ n, op.exact = .exact n → op.totalOut = n
  apart : op.finished = true → op.failed = false

/-- What a call reports, as counts. -/
def Reported (r : Except DecodeFailure DecodeProgress) (consumed produced : ℕ) : Prop :=
  match r with
  | .ok progress => progress.consumed = consumed ∧ progress.produced = produced
  | .error failure => failure.consumed = consumed ∧ failure.produced = produced

/-- What a call leads to, whatever it was given. -/
structure Called (program : Program) (op : OperationState) (d : Decompressor) (input : List UInt8)
    (output : Slice)
    (delivery : Delivery) (r : Except DecodeFailure DecodeProgress) (op' : OperationState)
    (d' : Decompressor) : Prop where
  operating : op'.Operating program d'
  config : d'.config = d.config ∧ d'.retention = d.retention ∧ d'.active = d.active
  exact : op'.exact = op.exact
  counts : Reported r (op'.totalIn - op.totalIn) (op'.totalOut - op.totalOut)
  totals : op.totalIn ≤ op'.totalIn ∧ op.totalOut ≤ op'.totalOut
  input : ∀ c p, r = .ok ⟨c, p, .needsInput⟩ → c = input.length
  output : ∀ c p, r = .ok ⟨c, p, .needsOutput⟩ → delivery = .slice → p = output.len
  finished : op'.finished = true ↔ ∃ c p, r = .ok ⟨c, p, .finished⟩
  failed : op'.failed = true ↔ ∃ f, r = .error f

theorem drive_called {program : Program} {d d' : Decompressor} (h : op.Operating program d)
    (hf : op.finished = false)
    (hfail : op.failed = false) {fuel : ℕ} {dictionary : Option DictionaryRef} {input : List UInt8}
    {output written : Slice} {delivery : Delivery} {r : Except DecodeFailure DecodeProgress}
    (he : op.drive program fuel d dictionary input output delivery = some (r, op', d', written)) :
    Called program op d input output delivery r op' d' ∧ op'.finishing = op.finishing ∧
      op'.finalEnd = op.finalEnd := by
  unfold drive at he
  dsimp only at he
  generalize hm : op.buffers d.config d.workspace input output delivery = m at he
  have hs : m.Sound program := by
    subst hm
    exact ⟨h.stream, Input.Wf.new _ _ _, Nat.zero_le _⟩
  have hloop : ∀ {x op1 m1}, op.loop ⟨program, d.config, dictionary⟩ fuel m = some (x, op1, m1) →
      Drove program op m x op1 m1 := fun hx =>
    @loop_drove ⟨program, d.config, dictionary⟩ fuel op m hs (by subst hm; exact h.budget)
      (by subst hm; exact h.atEnd) _ _ _ hx
  have hin : m.input.totalBefore = op.totalIn ∧ m.input.limit = d.config.limits.input ∧
      m.input.bytes = input := by
    subst hm
    exact ⟨rfl, rfl, rfl⟩
  have hout : m.output.totalBefore = op.totalOut ∧ m.output.limit = d.config.limits.output ∧
      m.output.exact = op.exact := by
    subst hm
    exact ⟨rfl, rfl, rfl⟩
  -- what either end has in common
  have hend : ∀ {x : Except Fault DecoderStatus} {op1 : OperationState} {m1 : Machine}
    {op2 : OperationState},
      Drove program op m x op1 m1 → op2.exact = op1.exact → op2.boundary = op1.boundary →
      op2.members = op1.members →
      op2.finished = op1.finished → (op2.failed = true → x ≠ .ok .finished) →
      op2.totalIn = op1.totalIn + m1.input.consumed →
      op2.totalOut = op1.totalOut + m1.output.produced →
      op2.Operating program { d with workspace := m1.stream } ∧ op2.exact = op.exact ∧
        op2.totalIn = op.totalIn + m1.input.consumed ∧
        op2.totalOut = op.totalOut + m1.output.produced := by
    intro x op1 m1 op2 hd h1 h2 h3 h4 h7 h5 h6
    have hprod := hd.drives.produced
    rw [hd.same.totalIn] at h5
    rw [hd.same.totalOut] at h6
    refine ⟨⟨hd.drives.stream.sound, hd.drives.stream.limit.trans (by subst hm; exact h.budget), ?_,
      ?_, ?_, ?_, ?_, ?_⟩,
      h1.trans hd.same.exact, h5, h6⟩
    · intro hb
      rw [h3]
      exact hd.atEnd (h2 ▸ hb)
    · intro l hl
      have hwf := hd.drives.input
      have :=
        hwf.wf.le_limit (hwf.limit.trans (hin.2.1.trans hl))
          (by rw [hwf.totalBefore, hin.1]; exact h.input l hl)
      rw [hwf.totalBefore, hin.1] at this
      omega
    · intro l hl
      have := Output.produced_le_limit hd.drives.sound.produced (l := l)
      have hfr := hd.drives.frame
      have e1 : m1.output.frame.totalBefore = m.output.frame.totalBefore :=
        congrArg Output.totalBefore hfr
      have e2 : m1.output.frame.limit = m.output.frame.limit := congrArg Output.limit hfr
      simp only [Output.frame] at e1 e2
      have := this (e2.trans (hout.2.1.trans hl)) (by rw [e1, hout.1]; exact h.output l hl)
      rw [e1, hout.1] at this
      omega
    · intro n hn
      have := Output.produced_le_exact hd.drives.sound.produced (n := n)
      have hfr := hd.drives.frame
      have e1 : m1.output.frame.totalBefore = m.output.frame.totalBefore :=
        congrArg Output.totalBefore hfr
      have e2 : m1.output.frame.exact = m.output.frame.exact := congrArg Output.exact hfr
      simp only [Output.frame] at e1 e2
      have hn' : op.exact = .exact n := hd.same.exact ▸ h1 ▸ hn
      have := this (e2.trans (hout.2.2.trans hn')) (by rw [e1, hout.1]; exact h.exact n hn')
      rw [e1, hout.1] at this
      omega
    · intro hfin
      have hx := (hd.done (h4 ▸ hfin)).resolve_right (by simp [hf])
      obtain ⟨-, f2, f3⟩ := hd.finished hx
      refine ⟨h2 ▸ f2, fun n hn => ?_⟩
      rw [h6]
      exact f3 n (hd.same.exact ▸ h1 ▸ hn)
    · intro hfin
      have hx := (hd.done (h4 ▸ hfin)).resolve_right (by simp [hf])
      exact Bool.eq_false_iff.mpr fun hf' => h7 hf' hx
  split at he
  · cases he
  · cases he
  · rename_i status op1 m1 hl
    cases he
    have hd := hloop hl
    obtain ⟨e1, e2, e3, e4⟩ := @hend _ op1 m1 { op1 with
        totalIn := op1.totalIn + m1.input.consumed
        totalOut := op1.totalOut + m1.output.produced } hd rfl rfl rfl rfl
        (fun hf' => absurd (hd.same.failed.symm.trans hf') (by simp [hfail])) rfl rfl
    refine ⟨⟨e1, ⟨rfl, rfl, rfl⟩, e2, ⟨by dsimp only at e3 ⊢; omega, by dsimp only at e4 ⊢; omega⟩,
      ⟨by omega, by omega⟩, ?_, ?_, ?_, ?_⟩,
      hd.same.finishing, hd.same.finalEnd⟩
    · intro c p hr
      cases hr
      have h1 := hd.input rfl
      have h2 := hd.drives.input.wf.fastEnd_le
      have h3 := hd.drives.input.wf.consumed
      rw [hd.drives.input.bytes, hin.2.2] at h1 h2
      omega
    · intro c p hr hdel
      cases hr
      have hlin : m.output.linear = false := by
        subst hm
        simp [buffers, hdel]
      have h1 := hd.output rfl (hd.drives.linear hlin)
      rw [h1, Output.capacity_of_frame hd.drives.frame]
      subst hm
      simp [buffers, hdel, Output.capacity]
    · constructor
      · intro hfin
        cases (hd.done hfin).resolve_right (by simp [hf])
        exact ⟨_, _, rfl⟩
      · rintro ⟨c, p, hr⟩
        cases hr
        exact (hd.finished rfl).1
    · simp only [reduceCtorEq, exists_false, iff_false]
      rw [hd.same.failed, hfail]
      decide
  · rename_i e op1 m1 hl
    cases he
    have hd := hloop hl
    obtain ⟨e1, e2, e3, e4⟩ := @hend _ op1 m1 { op1 with
        totalIn := op1.totalIn + m1.input.consumed
        totalOut := op1.totalOut + m1.output.produced
        failed := true } hd rfl rfl rfl rfl (fun _ he => by cases he) rfl rfl
    refine ⟨⟨e1, ⟨rfl, rfl, rfl⟩, e2, ⟨by dsimp only at e3 ⊢; omega, by dsimp only at e4 ⊢; omega⟩,
      ⟨by omega, by omega⟩, (fun _ _ he => by cases he),
      (fun _ _ he => by cases he), ?_, ?_⟩, hd.same.finishing, hd.same.finalEnd⟩
    · constructor
      · intro hfin
        cases (hd.done hfin).resolve_right (by simp [hf])
      · rintro ⟨c, p, hr⟩
        cases hr
    · exact ⟨fun _ => ⟨_, rfl⟩, fun _ => rfl⟩

section process

variable {program : Program} {d d' : Decompressor} {fuel : ℕ} {dictionary : Option DictionaryRef}
variable {input : List UInt8} {output written : Slice} {operation : DecodeOperation}
    {delivery : Delivery}
variable {r : Except DecodeFailure DecodeProgress}

/-- A failed operation stays as it is. -/
theorem process_failed (hf : op.failed = true)
    (he : op.process program fuel d dictionary input output operation delivery =
      some (r, op', d', written)) :
    r = .error ⟨.invalidState, 0, 0⟩ ∧ op' = op ∧ d' = d := by
  unfold process at he
  rw [if_pos hf] at he
  cases he
  refine ⟨rfl, ?_, rfl⟩
  rw [← hf]

/-- A finished operation stays as it is. -/
theorem process_finished (hf : op.failed = false) (hd : op.finished = true)
    (he : op.process program fuel d dictionary input output operation delivery =
      some (r, op', d', written)) :
    r = .ok ⟨0, 0, .finished⟩ ∧ op' = op ∧ d' = d := by
  unfold process at he
  rw [if_neg (by simp [hf]), if_pos hd] at he
  cases he
  exact ⟨rfl, rfl, rfl⟩

/-- What a call refuses before it touches the decoder. -/
theorem called_invalid (h : op.Operating program d) (hd : op.finished = false) (e : DecodeError) :
    Called program op d input output delivery (.error ⟨e, 0, 0⟩) { op with failed := true } d :=
  ⟨⟨h.stream, h.budget, h.atEnd, h.input, h.output, h.exact, h.finished, fun hf => by
    rw [hd] at hf; cases hf⟩,
    ⟨rfl, rfl, rfl⟩, rfl, ⟨(Nat.sub_self _).symm, (Nat.sub_self _).symm⟩, ⟨le_rfl, le_rfl⟩,
    (fun _ _ he => nomatch he),
    (fun _ _ he => nomatch he), ⟨(fun hf => by rw [hd] at hf; cases hf),
      (fun ⟨_, _, he⟩ => nomatch he)⟩,
    ⟨fun _ => ⟨_, rfl⟩, fun _ => rfl⟩⟩

/-- An unfinished, unfailed operation: the latch, or the members. -/
theorem process_running (hf : op.failed = false) (hd : op.finished = false)
    (he : op.process program fuel d dictionary input output operation delivery =
      some (r, op', d', written)) :
    (∃ e, r = .error ⟨e, 0, 0⟩ ∧ op' = { op with failed := true } ∧ d' = d) ∨
      (op.finishing = true → operation = .finish ∧ op.totalIn + input.length = op.finalEnd) ∧
        ∃ op1 : OperationState, op1.drive program fuel d dictionary input output delivery =
        some (r, op', d', written) ∧
          op1 = { op with finalEnd := op1.finalEnd, finishing := op1.finishing } ∧
          (op.finishing = true ∨ operation = .finish → op1.finishing = true ∧
            op1.finalEnd = op.totalIn + input.length) ∧
          (op.finishing = false → operation ≠ .finish → op1.finishing = false) := by
  unfold process at he
  rw [if_neg (by simp [hf]), if_neg (by simp [hd])] at he
  dsimp only at he
  split at he
  · cases he
    exact Or.inl ⟨_, rfl, rfl, rfl⟩
  split at he
  · rename_i hfin
    split at he
    · cases he
      exact Or.inl ⟨_, rfl, rfl, rfl⟩
    · rename_i hlatch
      simp only [ne_eq, not_or, not_not] at hlatch
      refine Or.inr ⟨fun _ => hlatch, op, he, rfl, fun _ => ⟨hfin, hlatch.2.symm⟩, fun hf' => ?_⟩
      rw [hfin] at hf'
      cases hf'
  · rename_i hfin
    split at he
    · rename_i hop
      exact Or.inr ⟨fun h => absurd h hfin, _, he, rfl, fun _ => ⟨rfl, rfl⟩,
        fun _ hne => absurd hop hne⟩
    · rename_i hop
      refine Or.inr ⟨fun h => absurd h hfin, op, he, rfl,
        fun h => h.elim (absurd · hfin) (absurd · hop), fun h _ => h⟩

/-- Every call keeps the operation in order. -/
theorem process_called (h : op.Operating program d)
    (he : op.process program fuel d dictionary input output operation delivery =
      some (r, op', d', written)) :
    Called program op d input output delivery r op' d' := by
  cases hf : op.failed with
  | true =>
    obtain ⟨rfl, rfl, rfl⟩ := process_failed hf he
    have hd : op'.finished = false := Bool.eq_false_iff.mpr fun hd => by
      have := h.apart hd
      rw [hf] at this
      cases this
    have hc : Called program op' d' input output delivery _ _ d' :=
      called_invalid h hd .invalidState
    rwa [show { op' with failed := true } = op' by rw [← hf]] at hc
  | false =>
    cases hd : op.finished with
    | true =>
      obtain ⟨rfl, rfl, rfl⟩ := process_finished hf hd he
      exact ⟨h, ⟨rfl, rfl, rfl⟩, rfl, ⟨(Nat.sub_self _).symm, (Nat.sub_self _).symm⟩,
        ⟨le_rfl, le_rfl⟩,
        (fun _ _ he => nomatch he), (fun _ _ he => nomatch he), ⟨fun _ => ⟨0, 0, rfl⟩, fun _ => hd⟩,
        ⟨fun hf' => (by rw [hf] at hf'; cases hf'), fun ⟨_, he⟩ => nomatch he⟩⟩
    | false =>
      rcases process_running hf hd he with ⟨e, rfl, rfl, rfl⟩ | ⟨-, op1, hdrive, heq, -, -⟩
      · exact called_invalid h hd e
      · have h1 : op1.Operating program d := by
          rw [heq]
          exact ⟨h.stream, h.budget, h.atEnd, h.input, h.output, h.exact, h.finished, h.apart⟩
        have hc := (drive_called h1 (by rw [heq]; exact hd) (by rw [heq]; exact hf) hdrive).1
        have t1 : op1.totalIn = op.totalIn := by rw [heq]
        have t2 : op1.totalOut = op.totalOut := by rw [heq]
        have t3 : op1.exact = op.exact := by rw [heq]
        exact ⟨hc.operating, hc.config, hc.exact.trans t3, t1 ▸ t2 ▸ hc.counts, t1 ▸ t2 ▸ hc.totals,
          hc.input, hc.output,
          hc.finished, hc.failed⟩

end process

/-- A decoder that starts an operation is in order. -/
theorem start_operating {program : Program} {d d' : Decompressor} {exact : OutputSize}
    (h : d.workspace.Idle program) (he : start d exact = .ok (op, d')) :
    op.Operating program d' ∧ op = { exact } ∧ d'.config = d.config ∧ d'.retention = d.retention ∧
    d.active = false := by
  have hclaim : (start.claim exact d).1.Operating program (start.claim exact d).2 := by
    unfold start.claim
    refine ⟨?_, rfl, (fun hb => nomatch hb), fun _ _ => Nat.zero_le _, fun _ _ => Nat.zero_le _,
      fun _ _ => Nat.zero_le _,
      (fun hf => nomatch hf), fun _ => rfl⟩
    split
    · rename_i limit hlim
      split
      · exact (Stream.Idle.new program).reset_sound fun _ _ => Nat.zero_le _
      · rename_i hfit
        refine h.reset_sound fun l hl => ?_
        rw [hlim] at hl
        cases hl
        exact Nat.le_of_not_lt hfit
    · rename_i hlim
      refine h.reset_sound fun l hl => ?_
      rw [hlim] at hl
      cases hl
  have hconf : (start.claim exact d).2.config = d.config ∧ (start.claim exact d).2.retention =
      d.retention := by
    unfold start.claim
    dsimp only
    split
    · split <;> exact ⟨rfl, rfl⟩
    · exact ⟨rfl, rfl⟩
  unfold start at he
  split at he
  · cases he
  rename_i hactive
  have hactive : d.active = false := Bool.eq_false_iff.mpr hactive
  split at he
  · split at he
    · cases he
    · cases he
      exact ⟨hclaim, rfl, hconf.1, hconf.2, hactive⟩
  · cases he
    exact ⟨hclaim, rfl, hconf.1, hconf.2, hactive⟩

end OperationState
end Mbrotli
