/-
# Every turn of the stage machine keeps the decoder sound

`Machine.Goes` is what a turn keeps of the decoder and the call's buffers, and `Turn`
adds what a stop says: input was wanted with all of it accepted, output with the
buffer full, and a member's end at the stage that checks its padding. Each stage is a
turn (`round_turn`), so a run of them is (`runStages_ran`, `run_ran`).
-/
import Mbrotli.Decompressor.Core.Sound.Fast

namespace Mbrotli

open Memory (Grew)

namespace Stream

variable {program : Program} {s s' : Stream}

theorem Goes.refl (h : s.Sound program) : s.Goes program s := ⟨h, rfl⟩

theorem Sound.withBits (h : s.Sound program) (bits : Bits) : { s with bits }.Sound program :=
  ⟨h.ring, h.window, h.windowed, h.live, h.within, h.maps⟩

/-- At these stages no context map is being read. -/
theorem mapsReady_of_inCommand (h : s.stage.InCommand) : s.MapsReady := by
  unfold MapsReady
  unfold Stage.InCommand at h
  split <;> split at h <;> first | trivial | simp_all

theorem inCommand_ne_window (h : s.stage.InCommand) : s.stage ≠ .window := by
  intro hs
  rw [hs] at h
  exact h

/-- An update inside a command that owns nothing new. -/
theorem Sound.goto (h : s.Sound program) (hw : WindowSize s.windowSize) (hr : s'.ring = s.ring)
    (hp : s'.prefixHistory = s.prefixHistory) (hmem : s'.memory = s.memory)
    (hwin : s'.windowSize = s.windowSize)
    (ht : s'.tables = s.tables) (hm : s'.MapsReady) : s.Goes program s' :=
  h.control hr hp hmem ht (hwin ▸ hw) hm

theorem ensureRing_goes (h : s.Sound program) (hw : WindowSize s.windowSize) {stop : ℕ}
    (he : s.ensureRing stop = .ok s') :
    s.Goes program s' ∧ s' = { s with memory := s'.memory, ring := s'.ring } ∧
      min stop s.windowSize ≤ s'.ring.len := by
  unfold ensureRing at he
  split at he
  · cases he
  · rename_i m ring hg
    cases he
    obtain ⟨g1, g2, g3, -⟩ := growRing_sound h.ring hw hg
    refine ⟨⟨⟨g2, h.window, h.windowed, ?_, g1.within h.within, h.maps⟩, g1.limit⟩, rfl, g3⟩
    have := g1.live
    have := h.live
    simp only [owned] at this ⊢
    omega

theorem repeatGrowing_goes (h : s.Sound program) (hw : WindowSize s.windowSize) {stop : ℕ}
    (he : s.repeatGrowing stop = .ok (some s')) : s.Goes program s' ∧
      s' = { s with memory := s'.memory, ring := s'.ring, position := stop } := by
  unfold repeatGrowing at he
  split at he
  · cases he
  · split at he
    · cases he
    · rename_i m ring hg
      cases he
      obtain ⟨g1, g2, -⟩ := repeatGrow_sound h.ring hw hg
      refine ⟨⟨⟨g2, h.window, h.windowed, ?_, g1.within h.within, h.maps⟩, g1.limit⟩, rfl⟩
      have := g1.live
      have := h.live
      simp only [owned] at this ⊢
      omega

theorem writeRaw_goes (h : s.Sound program) (hw : WindowSize s.windowSize) {bytes : List UInt8}
    (he : s.writeRaw bytes = .ok s') : s.Goes program s' ∧ s'.stage = s.stage ∧
    s'.windowSize = s.windowSize := by
  unfold writeRaw at he
  dsimp only at he
  split at he
  · rename_i hfit
    split at he
    · cases he
    · rename_i m c hr
      cases he
      obtain ⟨r1, -, r3, -⟩ := ringSize_spec h.ring hw (s.position + bytes.length)
      obtain ⟨-, -, hlen, -, hcap, -⟩ := Memory.reserve_ok hr
      have hgrew := Memory.reserve_grew hr
      have hext : ∀ get f,
          ((⟨get, c.len, c.cap⟩ : Buffer UInt8).extend (bytes.length - (s.ring.len - s.position))
            f).cap = c.cap :=
        fun get f => Buffer.extend_cap _ _ (by dsimp only; omega)
      have hres : ∀ get f,
        (((⟨get, c.len, c.cap⟩ : Buffer UInt8).extend
          (bytes.length - (s.ring.len - s.position)) f).resize
          (ringSize s.ring.len s.windowSize (s.position + bytes.length)) 0).cap = c.cap :=
        fun get f => (Buffer.resize_cap _ _ (by rw [hext]; exact hcap)).trans (hext get f)
      refine ⟨⟨⟨Or.inr (by rw [Buffer.resize_len]; exact r1), h.window, h.windowed, ?_,
        hgrew.within h.within, h.maps⟩,
        hgrew.limit⟩, rfl, rfl⟩
      have h1 := hgrew.live
      have h2 := h.live
      simp only [owned] at h2 ⊢
      rw [hres]
      omega
  · split at he
    · cases he
    · rename_i s1 hs
      cases he
      obtain ⟨g, heq, -⟩ := ensureRing_goes h hw hs
      refine ⟨⟨⟨g.sound.ring, g.sound.window, g.sound.windowed, g.sound.live, g.sound.within,
        g.sound.maps⟩, g.limit⟩, ?_, ?_⟩
      · rw [heq]
      · rw [heq]

end Stream

/-- A decoder and the buffers of one call, in order. -/
structure Machine.Sound (program : Program) (m : Machine) : Prop where
  stream : m.stream.Sound program
  input : m.input.Wf
  produced : m.output.produced ≤ m.output.fastEnd

/-- What a turn keeps. -/
structure Machine.Goes (program : Program) (m m' : Machine) : Prop where
  stream : m.stream.Goes program m'.stream
  input : m.input.Moves m'.input
  frame : m'.output.frame = m.output.frame
  linear : m'.output.linear = m.output.linear
  produced : m'.output.produced ≤ m.output.fastEnd

namespace Machine

variable {program : Program} {m m' : Machine}

theorem Goes.refl (h : m.Sound program) : m.Goes program m :=
  ⟨.refl h.stream, .refl h.input, rfl, rfl, h.produced⟩

theorem Goes.sound (h : m.Goes program m') : m'.Sound program :=
  ⟨h.stream.sound, h.input.wf, by rw [Output.fastEnd_of_frame h.frame]; exact h.produced⟩

theorem Goes.trans {m'' : Machine} (h : m.Goes program m') (h' : m'.Goes program m'') :
    m.Goes program m'' :=
  ⟨h.stream.trans h'.stream, h.input.trans h'.input, h'.frame.trans h.frame,
    h'.linear.trans h.linear,
    by rw [← Output.fastEnd_of_frame h.frame]; exact h'.produced⟩

/-- Only the decoder's state changes. -/
theorem Goes.ofStream (h : m.Sound program) {s : Stream} (hs : m.stream.Goes program s) :
    m.Goes program { m with stream := s } := ⟨hs, .refl h.input, rfl, rfl, h.produced⟩

/-- Bits are taken from the reservoir, and bytes from the input. -/
theorem Goes.ofBits (h : m.Sound program) (bits : Bits) {input : Input} (hi : m.input.Moves input) :
    m.Goes program { m with stream := { m.stream with bits }, input } :=
  ⟨⟨h.stream.withBits bits, rfl⟩, hi, rfl, rfl, h.produced⟩

end Machine

/-- What a turn leads to. -/
structure Turn (program : Program) (m : Machine) (r : Flow × Machine) : Prop where
  goes : m.Goes program r.2
  input : r.1 = .stop .input → r.2.input.bytes.length ≤ r.2.input.consumed
  output : r.1 = .stop .output → r.2.output.linear = false →
    r.2.output.produced = r.2.output.capacity
  member : r.1 = .stop .member → r.2.stream.stage = .endOfMember

namespace Machine

variable {program : Program} {m : Machine}

theorem turn_after {m' : Machine} {r : Flow × Machine} (h : m.Goes program m')
    (ht : Turn program m' r) :
    Turn program m r := ⟨h.trans ht.goes, ht.input, ht.output, ht.member⟩

theorem turn_next {m' : Machine} (h : m.Goes program m') : Turn program m m'.next :=
  ⟨h, (fun he => nomatch he), (fun he => nomatch he), (fun he => nomatch he)⟩

theorem turn_fault {m' : Machine} (h : m.Goes program m') (f : Fault) :
    Turn program m (.fault f, m') :=
  ⟨h, (fun he => nomatch he), (fun he => nomatch he), (fun he => nomatch he)⟩

theorem turn_input {m' : Machine} (h : m.Goes program m')
    (hc : m'.input.bytes.length ≤ m'.input.consumed) :
    Turn program m (m'.stop .input) :=
  ⟨h, (fun _ => hc), (fun he => nomatch he), (fun he => nomatch he)⟩

theorem turn_output {m' : Machine} (h : m.Goes program m')
    (hc : m'.output.linear = false → m'.output.produced = m'.output.capacity) :
    Turn program m (m'.stop .output) :=
  ⟨h, (fun he => nomatch he), (fun _ => hc), (fun he => nomatch he)⟩

theorem read_turn {α : Type} {P : α → Prop} {r : Reader Fault α} (hr : r.Returns P)
    (h : m.Sound program)
    {k : α → Machine → Flow × Machine}
    (hk : ∀ a bits input, P a → m.Goes program { m with stream := { m.stream with bits }, input } →
      Turn program { m with stream := { m.stream with bits }, input }
        (k a { m with stream := { m.stream with bits }, input })) :
        Turn program m (m.read r k) := by
  obtain ⟨h1, h2⟩ := exec_moves r m.stream.bits m.input h.input
  unfold read
  split
  · rename_i a bits input he
    rw [he] at h1
    have hg := Goes.ofBits h bits h1
    exact turn_after hg (hk a bits input (exec_returns hr he) hg)
  · rename_i bits input he
    rw [he] at h1
    exact turn_input (Goes.ofBits h bits h1) (h2 _ _ he)
  · rename_i f bits input he
    rw [he] at h1
    exact turn_fault (Goes.ofBits h bits h1) f

theorem whenReady_turn (h : m.Sound program) {k : Machine → Flow × Machine}
    (hk : m.output.produced < m.output.fastEnd → Turn program m (k m)) :
    Turn program m (m.whenReady k) := by
  unfold whenReady
  split
  · exact turn_fault (.refl h) _
  · rename_i hr
    exact turn_output (.refl h) fun _ => Output.ready_ok hr h.produced (Or.inl rfl)
  · rename_i hr
    exact hk (Output.ready_true hr)

theorem goto_turn (h : m.Sound program) (hw : WindowSize m.stream.windowSize) (stage : Stage)
    (hm : { m.stream with stage }.MapsReady) : Turn program m (m.goto stage) :=
  turn_next (Goes.ofStream h (h.stream.control rfl rfl rfl rfl hw hm))

end Machine

theorem Stream.emit_goes {program : Program} {s s' : Stream} {o o' : Output} {byte : UInt8}
    (h : s.Sound program)
    (hw : WindowSize s.windowSize) (he : s.emit o byte = .ok (s', o')) :
    s.Goes program s' ∧ s'.stage = s.stage ∧ s'.tables = s.tables ∧
      o'.frame = o.frame ∧ o'.linear = o.linear ∧ o'.produced = o.produced + 1 := by
  unfold emit at he
  split at he
  · cases he
  dsimp only at he
  have hframe : ∀ (b : Bool) (bytes : Slice), bytes.len = o.bytes.len →
      ({ o with bytes := if b then bytes else o.bytes, produced := o.produced + 1 } :
        Output).frame = o.frame := by
    intro b bytes hb
    cases b
    · rfl
    · simp only [Output.frame, if_true, hb]
  split at he
  · cases he
  · rename_i s1 hs
    cases he
    split at hs
    · cases hs
      refine ⟨⟨⟨h.ring, h.window, h.windowed, h.live, h.within, h.maps⟩, rfl⟩, rfl, rfl,
        hframe _ _ rfl, rfl, rfl⟩
    · split at hs
      · cases hs
      · rename_i s2 hens
        cases hs
        obtain ⟨g, heq, -⟩ := Stream.ensureRing_goes h hw hens
        refine ⟨⟨⟨g.sound.ring, g.sound.window, g.sound.windowed, g.sound.live, g.sound.within,
          g.sound.maps⟩,
          g.limit⟩, ?_, ?_, hframe _ _ rfl, rfl, rfl⟩ <;> rw [heq]

/-! ### The command loop -/

namespace Machine

variable {program : Program} {m : Machine}

/-- What the command loop is entered with. -/
def entered (m : Machine) (t : Tables) : Entered where
  linear := m.output.linear
  outEnd := m.output.fastEnd
  output := m.output
  memory := m.stream.memory
  ringCap := if m.output.linear then 0 else m.stream.ring.cap
  blocks := t.blocks

theorem enterFast_held (h : m.Sound program) (t : Tables) :
    (m.stream.enterFast t m.input m.output m.output.fastEnd).Held (m.entered t) := by
  have hp := h.produced
  refine ⟨rfl, rfl, le_rfl, ?_, fun hlin => ?_, ?_, fun _ => ?_, fun _ => rfl⟩
  · simp only [Stream.enterFast, entered]
    omega
  · have hlin : m.output.linear = false := hlin
    simp only [Stream.enterFast, hlin, Bool.false_eq_true, if_false]
    exact h.stream.ring
  · simp only [Stream.enterFast, entered]
    split <;> exact .refl _ _
  · simp only [Stream.enterFast, entered]
    split <;> rfl

/-- Leaving the loop with sound locals leaves the decoder sound. -/
theorem leaveFast_goes (h : m.Sound program) (hw : WindowSize m.stream.windowSize) {t : Tables}
    (ht : m.stream.tables = some t) {l : Fast} (hl : l.Held (m.entered t)) {stage : Stage}
    (hs : stage.InCommand) :
    m.Goes program ⟨{ (m.stream.leaveFast t m.input l).1 with stage },
      (m.stream.leaveFast t m.input l).2.1,
      (m.stream.leaveFast t m.input l).2.2⟩ := by
  have hf := hl.flush
  have hin := Bits.rest_moves h.input l.rest
  have hroom := hf.room
  have hprod : l.flush.output.produced ≤ m.output.fastEnd := by
    simp only [entered] at hroom
    omega
  have htables : ∀ l' : Fast, l'.Held (m.entered t) →
      Tables.owned { t with blocks := l'.blocks, scratch := l'.scratch, scratchPos := l'.scratchPos
        } = t.owned := by
    intro l' h'
    have h0 := h'.owned 0
    have h1 := h'.owned 1
    have h2 := h'.owned 2
    simp only [entered] at h0 h1 h2
    simp only [Tables.owned, h0, h1, h2]
  have hgrew := hf.grew
  have hkept := hf.kept
  have hring := hf.ring
  have hlin := hf.linear
  simp only [entered] at hgrew hkept hring hlin
  unfold Stream.leaveFast
  dsimp only
  split
  · rename_i hlinear
    have hl' : m.output.linear = true := hlin ▸ hlinear
    refine ⟨?_, hin, hf.frame, hlin, hprod⟩
    refine h.stream.update rfl hw ?_ (Stream.mapsReady_of_inCommand hs)
    have hk : l.flush.ring.cap = 0 := by simpa [hl'] using hkept hl'
    rw [hk] at hgrew
    simp only [hl', if_true] at hgrew
    refine hgrew.add (k := m.stream.owned program) (by omega) ?_
    simp only [Stream.owned, ht, htables _ hf]
    omega
  · rename_i hlinear
    have hl' : m.output.linear = false := by
      rw [← hlin]
      exact Bool.eq_false_iff.mpr hlinear
    refine ⟨?_, hin, hf.frame, hlin, hprod⟩
    simp only [hl', Bool.false_eq_true, if_false] at hgrew
    refine ⟨⟨hring hl', Or.inr hw, Or.inr hw, ?_, hgrew.within h.stream.within,
      Stream.mapsReady_of_inCommand hs⟩, hgrew.limit⟩
    have h1 := hgrew.live
    have h2 := h.stream.live
    simp only [Stream.owned, ht] at h2
    simp only [Stream.owned, htables _ hf]
    omega

theorem leaveFast_stage (s : Stream) (t : Tables) (input : Input) (l : Fast) :
    (s.leaveFast t input l).1.stage = s.stage := by
  unfold Stream.leaveFast
  dsimp only
  split <;> rfl

/-- The command loop keeps the decoder sound, and ends inside a command. -/
theorem fast_goes (env : Env) (h : m.Sound program) (hs : m.stream.stage.InCommand) {fuel : ℕ}
    {m' : Machine}
    {r : Except Fault Unit}
    (he : m.stream.fast env fuel m.output.fastEnd m.input m.output =
      some (r, m'.stream, m'.input, m'.output)) :
    m.Goes program m' ∧ m'.stream.stage.InCommand := by
  obtain ⟨s, i, o⟩ := m'
  have hw := h.stream.windowSize (Stream.inCommand_ne_window hs)
  unfold Stream.fast at he
  split at he
  · cases he
    exact ⟨.refl h, hs⟩
  rename_i t ht
  dsimp only at he
  split at he
  · cases he
  rename_i exit l hloop
  obtain ⟨hl, hexit⟩ :=
    FastEnv.loop_held (e := m.entered t) rfl hw _ _ _ _ (enterFast_held h t) hloop
  split at he
  · rename_i stage
    cases he
    exact ⟨leaveFast_goes h hw ht hl hexit, hexit⟩
  · cases he
    have hstage := leaveFast_stage m.stream t m.input l
    refine ⟨?_, hstage.symm ▸ hs⟩
    have hg := @leaveFast_goes program m h hw t ht l hl m.stream.stage hs
    rw [← hstage] at hg
    exact hg

end Machine

/-! ### Writing byte by byte -/

namespace Block

theorem use_owned (b : Block) (n : ℕ) : (b.use n).owned = b.owned := by
  unfold use
  split <;> rfl

theorem switchLoop_keeps : ∀ (fuel : ℕ) (b : Block) (bits : Bits) (input : Input), input.Wf →
    let r := b.switchLoop fuel bits input
    r.2.1.owned = b.owned ∧ input.Moves r.2.2.2 ∧
      (∀ b' bits' input', r = (.empty, b', bits', input') →
        input'.bytes.length ≤ input'.consumed) := by
  intro fuel
  induction fuel with
  | zero => intro b bits input h; exact ⟨rfl, .refl h, fun _ _ _ he => nomatch he⟩
  | succ fuel ih =>
    intro b bits input h
    unfold switchLoop
    obtain ⟨h1, h2⟩ := exec_moves b.switchStep bits input h
    dsimp only
    split
    · rename_i b' bits' input' he
      rw [he] at h1
      have hk := exec_returns b.switchStep_keeps he
      have hown := Block.owned_congr hk.1 hk.2.1
      split
      · exact ⟨hown, h1, fun _ _ _ he => nomatch he⟩
      · obtain ⟨i1, i2, i3⟩ := ih b' bits' input' h1.wf
        exact ⟨i1.trans hown, h1.trans i2, i3⟩
    · rename_i bits' input' he
      rw [he] at h1
      refine ⟨rfl, h1, fun _ _ _ he' => ?_⟩
      cases he'
      exact h2 _ _ he
    · rename_i f bits' input' he
      rw [he] at h1
      exact ⟨rfl, h1, fun _ _ _ he' => nomatch he'⟩

theorem prepare_keeps (b : Block) (bits : Bits) {input : Input} (h : input.Wf) :
    let r := b.prepare bits input
    r.2.1.owned = b.owned ∧ input.Moves r.2.2.2 ∧
      (∀ b' bits' input', r = (.empty, b', bits', input') →
        input'.bytes.length ≤ input'.consumed) := by
  unfold prepare
  split
  · exact ⟨rfl, .refl h, fun _ _ _ he => nomatch he⟩
  · exact switchLoop_keeps 3 b bits input h

end Block

namespace Machine

variable {program : Program} {m m' : Machine}

theorem emit_turn (h : m.Sound program) (hw : WindowSize m.stream.windowSize)
    (hroom : m.output.produced < m.output.fastEnd) {byte : UInt8} {k : Machine → Flow × Machine}
    (hk : ∀ m', m.Goes program m' → m'.stream.stage = m.stream.stage → Turn program m' (k m')) :
    Turn program m (m.emit byte k) := by
  unfold emit
  split
  · exact turn_fault (.refl h) _
  · rename_i s o he
    obtain ⟨g, h2, -, h4, h5, h6⟩ := Stream.emit_goes h.stream hw he
    have hg : m.Goes program { m with stream := s, output := o } :=
      ⟨g, .refl h.input, h4, h5, by rw [h6]; exact hroom⟩
    exact turn_after hg (hk _ hg h2)

theorem setTables_goes (h : m.Sound program) (hs : m.stream.stage.InCommand) {t t' : Tables}
    (ht : m.stream.tables = some t) (ho : t'.owned = t.owned) :
    m.stream.Goes program { m.stream with tables := some t' } := by
  refine h.stream.update rfl (h.stream.windowSize (Stream.inCommand_ne_window hs)) ?_
    (Stream.mapsReady_of_inCommand (s := { m.stream with tables := some t' }) hs)
  exact Stream.owned_tables t t' ht (ho ▸ .refl _ _)

theorem owned_setBlock_eq {t : Tables} {i : Fin 3} {b : Block} (hb : b.owned = (t.blocks i).owned) :
    (t.setBlock i b).owned = t.owned := by
  have := t.owned_setBlock i b
  omega

theorem prepare_turn (h : m.Sound program) (hs : m.stream.stage.InCommand) {t : Tables}
    (ht : m.stream.tables = some t) {i : Fin 3} {k : Tables → Machine → Flow × Machine}
    (hk : ∀ t' m', m.Goes program m' → m'.stream.stage = m.stream.stage →
      m'.stream.tables = some t' → t'.owned = t.owned →
      m'.output = m.output → Turn program m' (k t' m')) : Turn program m (m.prepare t i k) := by
  unfold prepare
  obtain ⟨h1, h2, h3⟩ := (t.blocks i).prepare_keeps m.stream.bits h.input
  split
  rename_i r b bits input he
  rw [he] at h1 h2
  have ho : (t.setBlock i b).owned = t.owned := owned_setBlock_eq h1
  have hset := setTables_goes h hs ht ho
  have hg :
      m.Goes program { m with stream :=
    { m.stream with bits, tables := some (t.setBlock i b) }, input } :=
    ⟨⟨hset.sound.withBits bits, hset.limit⟩, h2, rfl, rfl, h.produced⟩
  dsimp only
  split
  · exact turn_after hg (hk _ _ hg rfl rfl ho rfl)
  · exact turn_input hg (h3 _ _ _ he)
  · exact turn_fault hg _

/-! ### Stages that write -/

theorem metadata_turn (h : m.Sound program) (hs : m.stream.stage = .metadata) :
    Turn program m m.metadata := by
  have hw := h.stream.windowSize (by simp [hs])
  have hmaps : ∀ s : Stream, s.stage = .metadata → s.MapsReady :=
    fun s h => by simp only [Stream.MapsReady, h]
  unfold metadata
  split
  · exact goto_turn h hw _ trivial
  split
  · exact turn_next (.ofStream h (h.stream.control rfl rfl rfl rfl hw (hmaps _ hs)))
  dsimp only
  split
  · refine read_turn (returns_any _) h fun _ bits input _ hg => ?_
    exact turn_next (.ofStream hg.sound (hg.sound.stream.control rfl rfl rfl rfl hw (hmaps _ hs)))
  · refine turn_next ⟨h.stream.control rfl rfl rfl rfl hw (hmaps _ hs), ?_, rfl, rfl, h.produced⟩
    exact h.input.moves (by have := h.input.consumed; omega)

theorem raw_turn (h : m.Sound program) (hs : m.stream.stage = .raw) :
    Turn program m (m.raw m.output.fastEnd) := by
  have hw := h.stream.windowSize (by simp [hs])
  have hmaps : ∀ s : Stream, s.stage = .raw → s.MapsReady :=
    fun s h => by simp only [Stream.MapsReady, h]
  unfold raw
  split
  · exact goto_turn h hw _ trivial
  refine whenReady_turn h fun hroom => ?_
  split
  · have hg :
        m.Goes program { m with stream := { m.stream with bits := (m.stream.bits.take 8).2 } } :=
      .ofBits h _ (.refl h.input)
    exact turn_after hg (emit_turn hg.sound hw hroom fun m' hg' _ => turn_next (.refl hg'.sound))
  dsimp only
  split
  · refine read_turn (returns_any _) h fun byte bits input _ hg => ?_
    exact emit_turn hg.sound hw hroom fun m' hg' _ => turn_next (.refl hg'.sound)
  rename_i hcount
  generalize hn : min (min m.stream.remaining (m.input.fastEnd - m.input.consumed))
    (m.output.fastEnd - m.output.produced) = n at hcount
  have hg : m.Goes program { m with stream := { m.stream with bits := m.stream.bits.settle } } :=
    .ofBits h _ (.refl h.input)
  have hmove : m.input.Moves { m.input with consumed := m.input.consumed + n } :=
    h.input.moves (by have := h.input.consumed; omega)
  have hprod : m.output.produced + n ≤ m.output.fastEnd := by omega
  generalize hdst : (if m.output.collect.isNone
    then m.output.bytes.copy m.output.produced n fun i =>
    ((m.input.bytes.drop m.input.consumed).take n).getD i 0 else m.output.bytes) = dst
  have hlen : dst.len = m.output.bytes.len := by
    rw [← hdst]
    split <;> rfl
  have hframe : ({ m.output with bytes := dst, produced := m.output.produced + n } : Output).frame =
      m.output.frame := by
    simp only [Output.frame, hlen]
  split
  · exact turn_fault hg _
  · rename_i s he
    split at he
    · cases he
      refine turn_next ⟨?_, hmove, hframe, rfl, hprod⟩
      exact hg.stream.trans (hg.stream.sound.control rfl rfl rfl rfl hw (hmaps _ hs))
    · obtain ⟨g1, g2, g3⟩ := Stream.writeRaw_goes hg.stream.sound hw he
      refine turn_next ⟨?_, hmove, hframe, rfl, hprod⟩
      have hw' : WindowSize s.windowSize := g3 ▸ hw
      exact (hg.stream.trans g1).trans
        (g1.sound.control rfl rfl rfl rfl hw' (hmaps _ (g2.trans hs)))

/-! ### Commands -/

theorem enterFast_turn {env : Env} (h : m.Sound program) (hs : m.stream.stage.InCommand) {fuel : ℕ}
    {k : Machine → Flow × Machine}
    (hk : ∀ m', m.Goes program m' → m'.stream.stage = m.stream.stage → Turn program m' (k m'))
    {r : Flow × Machine} (he : m.enterFast env fuel m.output.fastEnd k = some r) :
    Turn program m r := by
  unfold enterFast at he
  split at he
  · cases he
  · rename_i f s i o hf
    cases he
    exact turn_fault (@fast_goes program m env h hs _ ⟨s, i, o⟩ _ hf).1 f
  · rename_i s i o hf
    cases he
    have hg := (@fast_goes program m env h hs _ ⟨s, i, o⟩ _ hf).1
    show Turn program m (ite _ _ _)
    split
    · rename_i hstage
      exact turn_after hg (hk _ hg hstage)
    · exact turn_next hg

theorem Sound.windowSize (h : m.Sound program) (hs : m.stream.stage.InCommand) :
    WindowSize m.stream.windowSize :=
  h.stream.windowSize (Stream.inCommand_ne_window hs)

/-- The workspace's tables change, and the stage to one that owns nothing new. -/
theorem Goes.setTables (h : m.Sound program) (hs : m.stream.stage.InCommand) {t t' : Tables}
    (ht : m.stream.tables = some t) (ho : t'.owned = t.owned) :
    m.Goes program { m with stream := { m.stream with tables := some t' } } :=
  .ofStream h (setTables_goes h hs ht ho)

theorem slowCommand_turn (h : m.Sound program) (hs : m.stream.stage = .command) :
    Turn program m m.slowCommand := by
  have hin : m.stream.stage.InCommand := hs ▸ trivial
  unfold slowCommand
  split
  · exact turn_fault (.refl h) _
  rename_i t ht
  refine prepare_turn h hin ht fun t1 m1 hg1 hs1 ht1 _ _ => ?_
  refine read_turn (returns_any _) hg1.sound fun symbol bits input _ hg2 => ?_
  have hset :=
    setTables_goes hg2.sound (hs1 ▸ hin) ht1 (owned_setBlock_eq (Block.use_owned (t1.blocks 1) 1))
  exact turn_next (.ofStream hg2.sound (hset.trans (hset.sound.control rfl rfl rfl rfl
    (hg2.sound.windowSize (hs1 ▸ hin)) trivial)))

theorem command_turn {env : Env} (h : m.Sound program) (hs : m.stream.stage = .command) {fuel : ℕ}
    {r : Flow × Machine} (he : m.command env fuel m.output.fastEnd = some r) :
    Turn program m r := by
  have hin : m.stream.stage.InCommand := hs ▸ trivial
  unfold command at he
  split at he
  · cases he
    exact goto_turn h (h.windowSize hin) _ trivial
  · refine enterFast_turn h hin (fun m' hg hs' => ?_) he
    split
    · exact goto_turn hg.sound (hg.sound.windowSize (hs' ▸ hin)) _ trivial
    · exact slowCommand_turn hg.sound (hs'.trans hs)

/-- The tail's literals: how far they get, and what stops them. -/
theorem tailLoop_goes (t : Tables) (lut map : ℕ → ℕ) : ∀ (n : ℕ) (m : Machine), m.Sound program →
    m.stream.stage.InCommand → m.output.produced + n ≤ m.output.fastEnd →
    let r := tailLoop t lut map n m
    m.Goes program r.2.2 ∧ r.2.2.stream.stage = m.stream.stage ∧
      r.2.2.stream.tables = m.stream.tables ∧
      (r.2.1 = .ok false → r.2.2.input.bytes.length ≤ r.2.2.input.consumed) := by
  intro n
  induction n with
  | zero => intro m h _ _; exact ⟨.refl h, rfl, rfl, (fun he => nomatch he)⟩
  | succ n ih =>
    intro m h hs hroom
    unfold tailLoop
    dsimp only
    generalize ((t.trees 0).decode (map (lut (m.stream.previous m.output).1.toNat |||
      lut (256 + (m.stream.previous m.output).2.toNat)))) = reader
    obtain ⟨h1, h2⟩ := exec_moves reader m.stream.bits m.input h.input
    split
    · rename_i bits input he
      rw [he] at h1
      exact ⟨.ofBits h bits h1, rfl, rfl, fun _ => h2 _ _ he⟩
    · rename_i f bits input he
      rw [he] at h1
      exact ⟨.ofBits h bits h1, rfl, rfl, (fun he => nomatch he)⟩
    · rename_i symbol bits input he
      rw [he] at h1
      have hg := Goes.ofBits h bits h1
      split
      · exact ⟨hg, rfl, rfl, (fun he => nomatch he)⟩
      · rename_i s o hemit
        obtain ⟨g, g1, g2, g3, g4, g5⟩ :=
          Stream.emit_goes hg.sound.stream (hg.sound.windowSize hs) hemit
        have hs' : Stage.InCommand s.stage := g1.symm ▸ hs
        have hgo : m.Goes program ⟨{ s with remaining := m.stream.remaining }, input, o⟩ := by
          refine hg.trans ⟨?_, .refl h1.wf, g3, g4, ?_⟩
          · exact g.trans (g.sound.control rfl rfl rfl rfl
              (g.sound.windowSize (Stream.inCommand_ne_window hs'))
                (Stream.mapsReady_of_inCommand hs'))
          · show o.produced ≤ m.output.fastEnd
            rw [g5]
            omega
        obtain ⟨i1, i2, i3, i4⟩ := ih _ hgo.sound hs' (by
          show o.produced + n ≤ o.fastEnd
          rw [g5, Output.fastEnd_of_frame (o := m.output) g3]
          omega)
        exact ⟨hgo.trans i1, i2.trans g1, i3.trans g2, i4⟩

theorem literalTail_turn (h : m.Sound program) (hs : m.stream.stage.InCommand) {t : Tables}
    (ht : m.stream.tables = some t) (hroom : m.output.produced < m.output.fastEnd) :
    Turn program m (m.literalTail m.output.fastEnd t) := by
  unfold literalTail
  dsimp only
  split
  · exact turn_fault (.refl h) _
  generalize hrun : min (min m.stream.literals (t.blocks 0).remaining)
    (max (m.output.fastEnd - m.output.produced) 1) = run
  obtain ⟨h1, h2, h3, h4⟩ := tailLoop_goes t (contextLut (t.modes (t.blocks 0).current))
    (fun i => (t.maps 0).values.get ((t.blocks 0).current * 64 + i)) run m h hs (by omega)
  generalize tailLoop t (contextLut (t.modes (t.blocks 0).current))
    (fun i => (t.maps 0).values.get ((t.blocks 0).current * 64 + i)) run m = x at h1 h2 h3 h4 ⊢
  obtain ⟨done, r, m1⟩ := x
  dsimp only at h1 h2 h3 h4 ⊢
  have hs1 : m1.stream.stage.InCommand := h2.symm ▸ hs
  have hset :=
    setTables_goes h1.sound hs1 (h3.trans ht)
      (owned_setBlock_eq (Block.use_owned (t.blocks 0) done))
  have hg : m.Goes program { m1 with stream := { m1.stream with
      tables := some (t.setBlock 0 ((t.blocks 0).use done))
      remaining := m1.stream.remaining - done, literals := m1.stream.literals - done } } :=
    h1.trans
      (.ofStream h1.sound (hset.trans (hset.sound.control rfl rfl rfl rfl (h1.sound.windowSize hs1)
      (Stream.mapsReady_of_inCommand hs1))))
  split
  · exact turn_fault hg _
  · exact turn_next hg
  · exact turn_input hg (h4 rfl)

theorem slowLiterals_turn (h : m.Sound program) (hs : m.stream.stage.InCommand) :
    Turn program m (m.slowLiterals m.output.fastEnd) := by
  unfold slowLiterals
  refine whenReady_turn h fun hroom => ?_
  split
  · exact turn_fault (.refl h) _
  rename_i t ht
  refine prepare_turn h hs ht fun t1 m1 hg1 hs1 ht1 _ ho1 => ?_
  have hs1' : m1.stream.stage.InCommand := hs1 ▸ hs
  have hroom1 : m1.output.produced < m1.output.fastEnd := ho1 ▸ hroom
  split
  · refine read_turn (returns_any _) hg1.sound fun byte bits input _ hg2 => ?_
    have hg3 :=
      Goes.setTables hg2.sound hs1' ht1 (owned_setBlock_eq (Block.use_owned (t1.blocks 0) 1))
    refine turn_after hg3 (emit_turn hg3.sound (hg3.sound.windowSize hs1') hroom1
      fun m' hg4 hs4 => ?_)
    have hs4' : m'.stream.stage.InCommand := hs4 ▸ hs1'
    exact turn_next (.ofStream hg4.sound (hg4.sound.stream.control rfl rfl rfl rfl
      (hg4.sound.windowSize hs4') (Stream.mapsReady_of_inCommand hs4')))
  · have := literalTail_turn hg1.sound hs1' ht1 hroom1
    rwa [ho1] at this

theorem literals_turn {env : Env} (h : m.Sound program) (hs : m.stream.stage = .literals) {fuel : ℕ}
    {r : Flow × Machine} (he : m.literals env fuel m.output.fastEnd = some r) :
    Turn program m r := by
  have hin : m.stream.stage.InCommand := hs ▸ trivial
  unfold literals at he
  split at he
  · cases he
    exact goto_turn h (h.windowSize hin) _ (by split <;> trivial)
  split at he
  · cases he
    exact turn_fault (.refl h) _
  · rename_i hr
    cases he
    exact turn_output (.refl h) fun _ => Output.ready_ok hr h.produced (Or.inl rfl)
  split at he
  · refine enterFast_turn h hin (fun m' hg hs' => ?_) he
    split
    · exact turn_next (.refl hg.sound)
    · have := slowLiterals_turn hg.sound (hs' ▸ hin)
      rwa [Output.fastEnd_of_frame hg.frame] at this
  · cases he
    exact slowLiterals_turn h hin

theorem distance_turn (h : m.Sound program) (hs : m.stream.stage = .distance) :
    Turn program m m.distance := by
  have hin : m.stream.stage.InCommand := hs ▸ trivial
  unfold distance
  split
  · exact turn_next (.ofStream h (h.stream.control rfl rfl rfl rfl (h.windowSize hin) trivial))
  split
  · exact turn_fault (.refl h) _
  rename_i t ht
  refine prepare_turn h hin ht fun t1 m1 hg1 hs1 ht1 _ _ => ?_
  have hin1 : m1.stream.stage.InCommand := hs1 ▸ hin
  refine read_turn (returns_any _) hg1.sound fun symbol bits input _ hg2 => ?_
  have hset :=
    setTables_goes hg2.sound hin1 ht1 (owned_setBlock_eq (Block.use_owned (t1.blocks 2) 1))
  exact turn_next (.ofStream hg2.sound (hset.trans (hset.sound.control rfl rfl rfl rfl
    (hg2.sound.windowSize hin1) trivial)))

theorem pushDistance_goes {s : Stream} (h : s.Sound program) (hw : WindowSize s.windowSize)
    (stage : Stage)
    (hs : { s with stage }.MapsReady) : s.Goes program { pushDistance s with stage } := by
  unfold pushDistance
  split
  · exact h.control rfl rfl rfl rfl hw hs
  · exact h.control rfl rfl rfl rfl hw hs

theorem savePrefixHistory_goes (h : m.Sound program) (hs : m.stream.stage.InCommand)
    (available length : ℕ) :
    match m.savePrefixHistory available length with
    | .error r => m.stream.Goes program r.2
    | .ok s => m.stream.Goes program s ∧ s.stage = m.stream.stage := by
  have hw := h.windowSize hs
  have hclear : m.stream.Goes program
      { m.stream with prefixHistory := m.stream.prefixHistory.clear } :=
    h.stream.update rfl hw (.refl _ _) (Stream.mapsReady_of_inCommand hs)
  unfold savePrefixHistory
  dsimp only
  split
  · rename_i r hr
    split at hr
    · cases hr
      exact hclear
    · cases hr
  · rename_i s hr
    split at hr
    · cases hr
    · rename_i memory saved hres
      cases hr
      obtain ⟨-, -, hlen, -, hcap, -⟩ := Memory.reserve_ok hres
      have hgrew := Memory.reserve_grew hres
      refine ⟨h.stream.update rfl hw ?_ (Stream.mapsReady_of_inCommand hs), rfl⟩
      have hext : ∀ f : ℕ → UInt8, (saved.extend length f).cap = saved.cap := fun f =>
        Buffer.extend_cap _ _ (by simp only [Buffer.clear_len] at hlen; omega)
      simp only [Buffer.clear_cap] at hgrew
      refine hgrew.add (k := m.stream.owned program - m.stream.prefixHistory.cap * 1) ?_ ?_
      · simp only [Stream.owned]
        omega
      · simp only [Stream.owned, hext]
        omega

theorem resolve_turn (env : Env) (h : m.Sound program) (hs : m.stream.stage = .resolve) :
    Turn program m (m.resolve env) := by
  have hin : m.stream.stage.InCommand := hs ▸ trivial
  have hw := h.windowSize hin
  unfold resolve
  dsimp only
  split
  · split
    · exact turn_fault (.refl h) _
    split
    · rename_i e s he
      split at he
      · have hsave := savePrefixHistory_goes h hin (min m.stream.position m.stream.maxBackward)
          (min (m.stream.copy - (env.prefixLen - (env.prefixLen - (m.stream.distance -
            min m.stream.position m.stream.maxBackward))))
            (min m.stream.position m.stream.maxBackward))
        rw [he] at hsave
        exact turn_fault (.ofStream h hsave) _
      · cases he
    · rename_i s he
      have hsave : m.stream.Goes program s ∧ s.stage = m.stream.stage := by
        split at he
        · have hsave := savePrefixHistory_goes h hin (min m.stream.position m.stream.maxBackward)
            (min (m.stream.copy - (env.prefixLen - (env.prefixLen - (m.stream.distance -
              min m.stream.position m.stream.maxBackward))))
              (min m.stream.position m.stream.maxBackward))
          rw [he] at hsave
          exact hsave
        · cases he
          exact ⟨.refl h.stream, rfl⟩
      have hw' := hsave.1.sound.windowSize (by simp [hsave.2, hs])
      exact turn_next (.ofStream h (hsave.1.trans (pushDistance_goes hsave.1.sound hw' _ trivial)))
  split
  · split
    · exact turn_fault (.refl h) _
    rename_i t ht
    split
    · exact turn_fault (.refl h) _
    split
    · exact turn_fault (.refl h) _
    split
    · exact turn_fault (.refl h) _
    · rename_i word _ _ _
      have hset :=
        @setTables_goes program m h hin t { t with scratch := word, scratchPos := 0 } ht rfl
      exact turn_next (.ofStream h (hset.trans (hset.sound.control rfl rfl rfl rfl hw trivial)))
  split
  · exact turn_fault (.refl h) _
  · exact turn_next (.ofStream h (pushDistance_goes h.stream hw _ trivial))

end Machine

/-! ### Bulk writes -/

/-- On a ring every piece advances, so all of a copy is written. -/
theorem copyRing_position {size : ℕ} (hs : PowerOfTwo size) (distance : ℕ) :
    ∀ (fuel length : ℕ) (ring : ℕ → UInt8)
    (position flushed : ℕ) (o : Output), length ≤ fuel →
    (copyRing size distance fuel length ring position flushed o).2.1 = position + length := by
  intro fuel
  induction fuel with
  | zero => intro length ring position flushed o h; simp only [copyRing]; omega
  | succ fuel ih =>
    intro length ring position flushed o h
    unfold copyRing
    split
    · dsimp only; omega
    · have hdst : historyIndex size position < size := by
        rw [hs.historyIndex]; exact Nat.mod_lt _ hs.pos
      have hsrc : historyIndex size (position - distance) < size := by
        rw [hs.historyIndex]; exact Nat.mod_lt _ hs.pos
      dsimp only
      rw [ih _ _ _ _ _ (by omega)]
      omega

theorem RingLength.powerOfTwo {n : ℕ} (h : RingLength n) (hn : 0 < n) : PowerOfTwo n :=
  h.resolve_left (by omega)

/-- Another slice of the same length leaves the frame. -/
theorem Output.frame_bytes {o o' : Output} (h : o'.frame = o.frame) {bytes : Slice}
    (hb : bytes.len = o.bytes.len) :
    ({ o' with bytes } : Output).frame = o.frame := by
  have hlen : bytes.len = o'.bytes.len := hb.trans (congrArg (fun x : Output => x.bytes.len) h).symm
  rw [← h]
  simp only [frame, hlen]

/-- Writing that is then delivered. -/
theorem Wrote.flush {o o' : Output} {position position' flushed' n : ℕ}
    (h : Wrote o o' position position' position flushed' n) (ring : ℕ → UInt8) (len : ℕ) :
    (flushRing ring len position' flushed' o').2.produced = o.produced + (position' - position) ∧
      position' ≤ position + n ∧ (flushRing ring len position' flushed' o').2.frame = o.frame ∧
      (flushRing ring len position' flushed' o').2.linear = o.linear := by
  obtain ⟨a1, a2, a3, a4, a5, a6⟩ := h
  obtain ⟨-, f2, f3, f4⟩ := flushRing_spec ring len position' flushed' o' a3
  exact ⟨by omega, a2, f3.trans a5, f4.trans a6⟩

namespace Machine

variable {program : Program} {m m' : Machine}

theorem copyBytes_goes (h : m.Sound program) (hw : WindowSize m.stream.windowSize)
    {outEnd n : ℕ} (h0 : 0 < n)
    (hroom : m.output.produced + n ≤ m.output.fastEnd) (he : m.copyBytes outEnd n = .ok m') :
    m.Goes program m' ∧ m'.stream.stage = m.stream.stage ∧
    m'.stream.windowSize = m.stream.windowSize ∧
      m'.stream.copy = m.stream.copy ∧
      (m.output.linear = false → m'.output.produced = m.output.produced + n) := by
  unfold copyBytes at he
  dsimp only at he
  split at he
  · rename_i hlin
    cases he
    have hwrote :=
      copyRing_wrote (Output.historyEnd m.stream.position m.stream.remaining outEnd)
        m.stream.distance
        n n m.output.bytes.get m.stream.position m.stream.position m.output le_rfl
    generalize copyRing (Output.historyEnd m.stream.position m.stream.remaining outEnd)
      m.stream.distance
      n n m.output.bytes.get m.stream.position m.stream.position m.output = r at hwrote
    obtain ⟨get, position, flushed, output⟩ := r
    obtain ⟨f1, f2, f3, f4⟩ := hwrote.flush m.stream.ring.get m.stream.ring.len
    dsimp only at f1 f2 f3 f4 ⊢
    refine ⟨⟨⟨⟨h.stream.ring, h.stream.window, h.stream.windowed, h.stream.live, h.stream.within,
      h.stream.maps⟩, rfl⟩,
      .refl h.input, Output.frame_bytes f3 rfl, f4, ?_⟩, rfl, rfl, rfl, fun hl =>
      absurd hlin (by simp [hl])⟩
    dsimp only
    omega
  · split at he
    · cases he
    · rename_i s hgrow
      cases he
      obtain ⟨g, heq⟩ := Stream.repeatGrowing_goes h.stream hw hgrow
      obtain ⟨-, f2, f3, f4⟩ :=
        flushRing_spec s.ring.get s.ring.len s.position m.stream.position m.output
          (by rw [heq]; exact Nat.le_add_right _ _)
      have hpos : s.position = m.stream.position + n := by rw [heq]
      refine ⟨⟨g, .refl h.input, f3, f4, ?_⟩, by rw [heq], by rw [heq], by rw [heq], fun _ => ?_⟩
      · dsimp only
        rw [f2, hpos]
        omega
      · dsimp only
        rw [f2, hpos]
        omega
    · split at he
      · cases he
      · rename_i s hens
        cases he
        obtain ⟨g, heq, hlen⟩ := Stream.ensureRing_goes h.stream hw hens
        have hpos : s.position = m.stream.position := by rw [heq]
        have hcopy : s.copy = m.stream.copy := by rw [heq]
        have hsize : PowerOfTwo s.ring.len := g.sound.ring.powerOfTwo (by
          have := hw.powerOfTwo.pos
          omega)
        have hwrote :=
          copyRing_wrote s.ring.len s.distance n n s.ring.get s.position s.position m.output le_rfl
        have hp :=
          copyRing_position hsize s.distance n n s.ring.get s.position s.position m.output le_rfl
        generalize copyRing s.ring.len s.distance n n s.ring.get s.position s.position m.output =
          r at hwrote hp
        obtain ⟨get, position, flushed, output⟩ := r
        obtain ⟨f1, f2, f3, f4⟩ := hwrote.flush get s.ring.len
        dsimp only at hp f1 f2 f3 f4 ⊢
        refine ⟨⟨⟨⟨g.sound.ring, g.sound.window, g.sound.windowed, g.sound.live, g.sound.within,
          g.sound.maps⟩, g.limit⟩,
          .refl h.input, f3, f4, ?_⟩, by rw [heq], by rw [heq], hcopy, fun _ => ?_⟩
        · dsimp only
          omega
        · omega

theorem copy_turn (h : m.Sound program) (hs : m.stream.stage = .copy) :
    Turn program m (m.copy m.output.fastEnd) := by
  have hin : m.stream.stage.InCommand := hs ▸ trivial
  have hw := h.windowSize hin
  unfold copy
  split
  · exact goto_turn h hw _ trivial
  rename_i hcopy
  refine whenReady_turn h fun hroom => ?_
  dsimp only
  split
  · exact turn_fault (.refl h) _
  split
  · exact turn_fault (.refl h) _
  rename_i m1 he
  generalize hn : min m.stream.copy (m.output.fastEnd - m.output.produced) = n at he ⊢
  obtain ⟨g, g1, g2, g3, g4⟩ := copyBytes_goes h hw (by omega) (by omega) he
  have hin1 : m1.stream.stage.InCommand := g1.symm ▸ hin
  have hw1 := g.sound.windowSize hin1
  have hg : m.Goes program { m1 with stream := { m1.stream with
      copy := m1.stream.copy - n, remaining := m1.stream.remaining - n } } :=
    g.trans
      (.ofStream g.sound (g.sound.stream.control rfl rfl rfl rfl hw1
        (Stream.mapsReady_of_inCommand hin1)))
  split
  · rename_i hrest
    split
    · exact turn_fault hg _
    · rename_i b hready
      refine turn_output hg fun hlin => ?_
      have hlin0 : m.output.linear = false := g.linear.symm.trans hlin
      have hprod := g4 hlin0
      refine Output.ready_ok hready hg.sound.produced (Or.inr ?_)
      show m1.output.fastEnd ≤ m1.output.produced
      rw [Output.fastEnd_of_frame g.frame, hprod]
      have hrest : m1.stream.copy - n ≠ 0 := hrest
      omega
  · exact turn_after hg (goto_turn hg.sound hw1 _ trivial)

theorem writeBytes_goes (h : m.Sound program) (hw : WindowSize m.stream.windowSize)
    {bytes : List UInt8}
    (hroom : m.output.produced + bytes.length ≤ m.output.fastEnd)
    (he : m.writeBytes bytes = .ok m') :
    m.Goes program m' ∧ m'.stream.stage = m.stream.stage ∧
    m'.stream.windowSize = m.stream.windowSize := by
  unfold writeBytes at he
  dsimp only at he
  split at he
  · cases he
    have hlen : (m.output.bytes.copy m.output.produced bytes.length fun i => bytes.getD i 0).len =
      m.output.bytes.len := rfl
    generalize (m.output.bytes.copy m.output.produced bytes.length fun i => bytes.getD i 0) =
      dst at hlen
    obtain ⟨-, f2, f3, f4⟩ :=
      flushRing_spec m.stream.ring.get m.stream.ring.len (m.stream.position + bytes.length)
        m.stream.position { m.output with bytes := dst } (by omega)
    have f3 := f3.trans (Output.frame_bytes (o := m.output) rfl hlen)
    refine ⟨⟨⟨⟨h.stream.ring, h.stream.window, h.stream.windowed, h.stream.live, h.stream.within,
      h.stream.maps⟩, rfl⟩,
      .refl h.input, f3, f4, ?_⟩, rfl, rfl⟩
    dsimp only at f2 ⊢
    omega
  · split at he
    · cases he
    · rename_i s hens
      cases he
      obtain ⟨g, heq, -⟩ := Stream.ensureRing_goes h.stream hw hens
      have hwrote :=
        writeRing_wrote s.ring.len bytes.length bytes s.ring.get s.position s.position
          m.output le_rfl
      generalize writeRing s.ring.len bytes.length bytes s.ring.get s.position s.position m.output =
        r at hwrote
      obtain ⟨get, position, flushed, output⟩ := r
      obtain ⟨f1, f2, f3, f4⟩ := hwrote.flush get s.ring.len
      dsimp only at f1 f2 f3 f4 ⊢
      refine ⟨⟨⟨⟨g.sound.ring, g.sound.window, g.sound.windowed, g.sound.live, g.sound.within,
        g.sound.maps⟩, g.limit⟩,
        .refl h.input, f3, f4, ?_⟩, by rw [heq], by rw [heq]⟩
      dsimp only
      omega

theorem prefixRun_turn (env : Env) (h : m.Sound program) {offset start : ℕ}
    (hs : m.stream.stage = .prefixRun offset start) :
    Turn program m (m.prefixRun env m.output.fastEnd offset start) := by
  have hw := h.stream.windowSize (by simp [hs])
  unfold prefixRun
  split
  · exact goto_turn h hw _ trivial
  split
  · exact goto_turn h hw _ (by split <;> trivial)
  refine whenReady_turn h fun hroom => ?_
  dsimp only
  split
  · exact turn_fault (.refl h) _
  split
  · exact turn_fault (.refl h) _
  split
  · exact turn_fault (.refl h) _
  · rename_i m1 he
    obtain ⟨g, -, g2⟩ := writeBytes_goes h hw (by rw [List.length_take]; omega) he
    exact turn_next
      (g.trans (.ofStream g.sound (g.sound.stream.control rfl rfl rfl rfl (g2.symm ▸ hw) trivial)))

theorem prefixHistory_turn (h : m.Sound program) {offset start : ℕ}
    (hs : m.stream.stage = .prefixHistory offset start) :
    Turn program m (m.prefixHistory offset start) := by
  have hw := h.stream.windowSize (by simp [hs])
  unfold prefixHistory
  split
  · exact goto_turn h hw _ trivial
  split
  · exact goto_turn h hw _ trivial
  refine whenReady_turn h fun hroom => emit_turn h hw hroom fun m' hg hs' => ?_
  have hw' := hg.sound.stream.windowSize (by simp [hs', hs])
  exact turn_next (.ofStream hg.sound (hg.sound.stream.control rfl rfl rfl rfl hw' trivial))

theorem dictionary_turn (h : m.Sound program) (hs : m.stream.stage = .dictionary) :
    Turn program m m.dictionary := by
  have hin : m.stream.stage.InCommand := hs ▸ trivial
  have hw := h.windowSize hin
  unfold dictionary
  split
  · exact turn_fault (.refl h) _
  rename_i t ht
  split
  · exact goto_turn h hw _ trivial
  refine whenReady_turn h fun hroom => ?_
  have hg := @Goes.setTables program m h hin t { t with scratchPos := t.scratchPos + 1 } ht rfl
  exact turn_after hg (emit_turn hg.sound hw hroom fun m' hg' _ => turn_next (.refl hg'.sound))

theorem readStage_turn {env : Env} (h : m.Sound env.program) :
    Turn env.program m (m.readStage env) := by
  unfold readStage
  refine read_turn (Stream.readStage_goes env h.stream) h fun u bits input hu hg => ?_
  have hgo : Goes env.program { m with stream := { m.stream with bits }, input }
      { m with stream := { Stream.Update.state u with bits }, input } :=
    ⟨⟨hu.sound.withBits bits, hu.limit⟩, .refl hg.input.wf, rfl, rfl, hg.sound.produced⟩
  cases u with
  | error r => exact turn_fault hgo _
  | ok s => exact turn_next hgo

theorem readStage_endOfMember {env : Env} {m m' : Machine} (hs : m.stream.stage = .endOfMember)
    (hm : m.readStage env = (.next, m')) : m'.stream.stage = .endOfMember := by
  have hret : (m.stream.readStage env).Returns fun u =>
      (Stream.Update.state u).stage = .endOfMember := by
    unfold Stream.readStage
    simp only [hs]
    exact (returns_any _).bind fun _ _ => hs
  unfold readStage read at hm
  split at hm
  · rename_i u bits input he
    have hu := exec_returns hret he
    cases u with
    | error r => cases hm
    | ok s =>
      cases hm
      exact hu
  · cases hm
  · cases hm

/-! ### The machine -/

/-- One turn of the stage machine. -/
theorem round_turn {env : Env} (h : m.Sound env.program) {fuel : ℕ} {r : Flow × Machine}
    (he : m.round env fuel m.output.fastEnd = some r) : Turn env.program m r := by
  unfold round at he
  split at he
  case h_1 hs => cases he; exact metadata_turn h hs
  case h_2 hs => cases he; exact raw_turn h hs
  case h_3 hs => exact command_turn h hs he
  case h_4 hs => exact literals_turn h hs he
  case h_5 hs => cases he; exact distance_turn h hs
  case h_6 hs => cases he; exact resolve_turn env h hs
  case h_7 hs => cases he; exact copy_turn h hs
  case h_8 hs => cases he; exact dictionary_turn h hs
  case h_9 hs => cases he; exact prefixRun_turn env h hs
  case h_10 hs => cases he; exact prefixHistory_turn h hs
  case h_11 hs =>
    cases he
    exact goto_turn h (h.stream.windowSize (by simp [hs])) _ (by split <;> trivial)
  case h_12 hs =>
    cases he
    have ht : Turn env.program m (m.readStage env) := readStage_turn h
    split
    · rename_i m' hm
      rw [hm] at ht
      refine ⟨ht.goes, (fun he => nomatch he), (fun he => nomatch he), fun _ => ?_⟩
      exact readStage_endOfMember hs hm
    · exact ht
  case h_13 => cases he; exact readStage_turn h

/-- What a run of turns leads to. -/
structure Ran (program : Program) (m : Machine) (r : Except Fault Stop) (m' : Machine) : Prop where
  goes : m.Goes program m'
  input : r = .ok .input → m'.input.bytes.length ≤ m'.input.consumed
  output : r = .ok .output → m'.output.linear = false → m'.output.produced = m'.output.capacity
  member : r = .ok .member → m'.stream.stage = .endOfMember

theorem runStages_ran {env : Env} : ∀ (fuel : ℕ) (m : Machine), m.Sound env.program → ∀ {r m'},
    m.runStages env m.output.fastEnd fuel = some (r, m') → Ran env.program m r m' := by
  intro fuel
  induction fuel with
  | zero => intro m _ r m' he; cases he
  | succ fuel ih =>
    intro m h r m' he
    unfold runStages at he
    split at he
    · cases he
    · rename_i m1 hround
      have ht := round_turn h hround
      rw [← Output.fastEnd_of_frame ht.goes.frame] at he
      have hr := ih m1 ht.goes.sound he
      exact ⟨ht.goes.trans hr.goes, hr.input, hr.output, hr.member⟩
    · rename_i reason m1 hround
      have ht := round_turn h hround
      cases he
      exact ⟨ht.goes, fun h => ht.input (by cases h; rfl), fun h => ht.output (by cases h; rfl),
        fun h => ht.member (by cases h; rfl)⟩
    · rename_i f m1 hround
      have ht := round_turn h hround
      cases he
      exact ⟨ht.goes, (fun he => nomatch he), (fun he => nomatch he), (fun he => nomatch he)⟩

/-- A call's run of a member: reading ahead is undone where it matters. -/
theorem run_ran {env : Env} (h : m.Sound env.program) {fuel : ℕ} {r : Except Fault Stop}
    {m' : Machine}
    (he : m.run env fuel = some (r, m')) : Ran env.program m r m' := by
  unfold run at he
  split at he
  · cases he
  · rename_i r1 m1 hrun
    have hr := runStages_ran fuel m h hrun
    split at he
    · rename_i hstop
      cases he
      have hin := Bits.unread_moves m1.stream.bits hr.goes.sound.input
      refine ⟨hr.goes.trans (.ofBits hr.goes.sound _ hin), ?_, hr.output, hr.member⟩
      rintro rfl
      simp at hstop
    · cases he
      exact ⟨hr.goes.trans (.ofBits hr.goes.sound _ (.refl hr.goes.sound.input)), hr.input,
        hr.output, hr.member⟩

end Machine
end Mbrotli
