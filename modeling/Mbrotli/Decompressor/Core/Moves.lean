/-
# What a call's input and output keep

Whatever is read, a call's input only moves on, never past the end its limits allow,
and a reader that ends for want of input has accepted all of it (`exec_moves`).
Whatever is written, a call's output keeps its policy, and its count grows by the
bytes that leave the history's pending part (`flushRing_spec`, `copyRing_wrote`,
`writeRing_wrote`).
-/
import Mbrotli.Decompressor.Core.Bits
import Mbrotli.Decompressor.Core.Ring

namespace Mbrotli

/-! ### Input -/

/-- The call's input as `Input.new` set it up, accepted so far within its fast end. -/
structure Input.Wf (input : Input) : Prop where
  fastEnd : input.fastEnd = (Input.new input.bytes input.totalBefore input.limit).fastEnd
  consumed : input.consumed ≤ input.fastEnd

/-- The same input, accepted up to another place. -/
structure Input.Moves (input input' : Input) : Prop where
  wf : input'.Wf
  eq : input' = { input with consumed := input'.consumed }

namespace Input

theorem Wf.new (bytes : List UInt8) (totalBefore : ℕ) (limit : Option ℕ) :
    (Input.new bytes totalBefore limit).Wf := ⟨rfl, Nat.zero_le _⟩

theorem Wf.moves {input : Input} (h : input.Wf) {n : ℕ} (hn : n ≤ input.fastEnd) :
    input.Moves { input with consumed := n } := ⟨⟨h.fastEnd, hn⟩, rfl⟩

theorem Moves.refl {input : Input} (h : input.Wf) : input.Moves input := ⟨h, rfl⟩

theorem Moves.trans {a b c : Input} (h : a.Moves b) (h' : b.Moves c) : a.Moves c :=
  ⟨h'.wf, by rw [h'.eq, h.eq]⟩

theorem Moves.bytes {a b : Input} (h : a.Moves b) : b.bytes = a.bytes := by rw [h.eq]

theorem Moves.totalBefore {a b : Input} (h : a.Moves b) : b.totalBefore = a.totalBefore := by
  rw [h.eq]

theorem Moves.limit {a b : Input} (h : a.Moves b) : b.limit = a.limit := by rw [h.eq]

theorem Wf.fastEnd_le {input : Input} (h : input.Wf) : input.fastEnd ≤ input.bytes.length := by
  rw [h.fastEnd]
  exact min_le_right _ _

/-- No more is accepted than the limit allows. -/
theorem Wf.le_limit {input : Input} (h : input.Wf) {l : ℕ} (hl : input.limit = some l)
    (hbefore : input.totalBefore ≤ l) : input.totalBefore + input.consumed ≤ l := by
  have hc := h.consumed
  rw [h.fastEnd] at hc
  simp only [Input.new, hl] at hc
  omega

end Input

namespace Bits

theorem loadByte_moves {b : Bits} {input : Input} (h : input.Wf) :
    match b.loadByte input with
    | (.ok ok, _, input') => input.Moves input' ∧ (if ok then input'.consumed = input.consumed + 1
        else input'.bytes.length ≤ input'.consumed)
    | (.error _, _, input') => input.Moves input' := by
  unfold loadByte
  cases hb : input.bytes[input.consumed]? with
  | none => exact ⟨.refl h, List.getElem?_eq_none_iff.mp hb⟩
  | some byte =>
    have hlt : input.consumed < input.bytes.length := by
      by_contra hc
      rw [List.getElem?_eq_none (by omega)] at hb
      cases hb
    simp only
    by_cases hu : u64Max < input.totalBefore + input.consumed + 1
    · rw [if_pos hu]; exact .refl h
    · rw [if_neg hu]
      cases hf : input.limit.filter (· < input.totalBefore + input.consumed + 1) with
      | some l => exact .refl h
      | none =>
        refine ⟨h.moves ?_, rfl⟩
        rw [h.fastEnd]
        cases hl : input.limit with
        | none => simp only [Input.new]; omega
        | some l =>
          rw [hl] at hf
          have := Option.filter_eq_none_iff.mp hf l rfl
          simp only [decide_eq_true_eq] at this
          simp only [Input.new]
          omega

theorem peekLoop_moves (n : ℕ) : ∀ (fuel : ℕ) (b : Bits) (input : Input), input.Wf →
    input.Moves (b.peekLoop n fuel input).2.2 ∧
      ∀ b' input', b.peekLoop n fuel input = (.empty, b', input') →
      input'.bytes.length ≤ input'.consumed := by
  intro fuel
  induction fuel with
  | zero => intro b input h; exact ⟨.refl h, fun _ _ he => nomatch he⟩
  | succ fuel ih =>
    intro b input h
    rw [peekLoop]
    by_cases hn : n ≤ b.count
    · rw [if_pos hn]; exact ⟨.refl h, fun _ _ he => nomatch he⟩
    · rw [if_neg hn]
      have hl := loadByte_moves (b := b) h
      rcases hb : b.loadByte input with ⟨r, b', input'⟩
      rw [hb] at hl
      rcases r with e | ok
      · exact ⟨hl, fun _ _ he => nomatch he⟩
      · cases ok with
        | false => exact ⟨hl.1, fun _ _ he => by cases he; exact hl.2⟩
        | true =>
          obtain ⟨h1, h2⟩ := ih b' input' hl.1.wf
          exact ⟨hl.1.trans h1, h2⟩

theorem decodeLoop_moves (f : ℕ → ℕ × ℕ) : ∀ (fuel : ℕ) (b : Bits) (input : Input), input.Wf →
    input.bytes.length < input.consumed + fuel →
    input.Moves (b.decodeLoop f fuel input).2.2 ∧
      ∀ b' input', b.decodeLoop f fuel input = (.empty, b', input') →
      input'.bytes.length ≤ input'.consumed := by
  intro fuel
  induction fuel with
  | zero => intro b input h hf; have := h.fastEnd_le; have := h.consumed; omega
  | succ fuel ih =>
    intro b input h hf
    rw [decodeLoop]
    by_cases hw : (f b.value).2 ≤ b.count
    · simp only [if_pos hw]; exact ⟨.refl h, fun _ _ he => nomatch he⟩
    · simp only [if_neg hw]
      have hl := loadByte_moves (b := b) h
      rcases hb : b.loadByte input with ⟨r, b', input'⟩
      rw [hb] at hl
      rcases r with e | ok
      · exact ⟨hl, fun _ _ he => nomatch he⟩
      · cases ok with
        | false => exact ⟨hl.1, fun _ _ he => by cases he; exact hl.2⟩
        | true =>
          simp only [if_true] at hl
          obtain ⟨h1, h2⟩ := ih b' input' hl.1.wf (by rw [hl.1.bytes, hl.2]; omega)
          exact ⟨hl.1.trans h1, h2⟩

/-- Bytes taken from the acceptable rest stay within the fast end. -/
theorem rest_moves {input : Input} (h : input.Wf) (rest : List UInt8) :
    let all := (input.bytes.take input.fastEnd).drop input.consumed
    input.Moves { input with consumed := input.consumed + (all.length - rest.length) } := by
  intro all
  refine h.moves ?_
  have : all.length = input.fastEnd - input.consumed := by
    simp only [all, List.length_drop, List.length_take]
    have := h.fastEnd_le
    omega
  have := h.consumed
  omega

theorem decode_moves (b : Bits) (need : Option ℕ) (f : ℕ → ℕ × ℕ) {input : Input} (h : input.Wf) :
    input.Moves (b.decode need f input).2.2 ∧
      ∀ b' input', b.decode need f input = (.empty, b', input') →
      input'.bytes.length ≤ input'.consumed := by
  unfold decode
  cases need with
  | none => exact decodeLoop_moves f _ b input h (by omega)
  | some k =>
    simp only
    by_cases hk : k ≤ b.count
    · rw [if_pos hk]; exact ⟨.refl h, fun _ _ he => nomatch he⟩
    · rw [if_neg hk]
      have hr : input.Moves (b.refill input).2.2 := rest_moves h _
      rcases hb : b.refill input with ⟨ok, b', input'⟩
      rw [hb] at hr
      cases ok with
      | true => exact ⟨hr, fun _ _ he => nomatch he⟩
      | false =>
        obtain ⟨h1, h2⟩ := decodeLoop_moves f (input'.bytes.length + 1) b' input' hr.wf (by omega)
        exact ⟨hr.trans h1, h2⟩

theorem unread_moves (b : Bits) {input : Input} (h : input.Wf) : input.Moves (b.unread input).2 :=
  h.moves (by have := h.consumed; omega)

end Bits

/-- A reader moves the input on; where it lacks a byte, all was accepted. -/
theorem exec_moves {α : Type} (r : Reader Fault α) : ∀ (b : Bits) (input : Input), input.Wf →
    input.Moves (exec r b input).2.2 ∧
      ∀ b' input', exec r b input = (.empty, b', input') →
      input'.bytes.length ≤ input'.consumed := by
  induction r with
  | pure a => intro b input h; exact ⟨.refl h, fun _ _ he => nomatch he⟩
  | fail f => intro b input h; exact ⟨.refl h, fun _ _ he => nomatch he⟩
  | peek n k ih =>
    intro b input h
    have hp := b.peekLoop_moves n n input h
    rw [exec]
    rcases hb : b.peek n input with ⟨e, b', input'⟩
    rw [show b.peekLoop n n input = (e, b', input') from hb] at hp
    rcases e with v | _ | f
    · obtain ⟨h1, h2⟩ := ih v b' input' hp.1.wf
      exact ⟨hp.1.trans h1, h2⟩
    · exact ⟨hp.1, fun _ _ he => by cases he; exact hp.2 _ _ rfl⟩
    · exact ⟨hp.1, fun _ _ he => nomatch he⟩
  | drop n k ih => intro b input h; exact ih (b.drop n) input h
  | sym need f k ih =>
    intro b input h
    have hp := b.decode_moves need f h
    rw [exec]
    rcases hb : b.decode need f input with ⟨e, b', input'⟩
    rw [hb] at hp
    rcases e with v | _ | f
    · obtain ⟨h1, h2⟩ := ih v b' input' hp.1.wf
      exact ⟨hp.1.trans h1, h2⟩
    · exact ⟨hp.1, fun _ _ he => by cases he; exact hp.2 _ _ rfl⟩
    · exact ⟨hp.1, fun _ _ he => nomatch he⟩
  | align f k ih =>
    intro b input h
    rw [exec]
    cases b.align with
    | ok b' => exact ih b' input h
    | error e => exact ⟨.refl h, fun _ _ he => nomatch he⟩

theorem exec_returns {α : Type} {P : α → Prop} {r : Reader Fault α} (h : r.Returns P) :
    ∀ {b b' : Bits} {input input' : Input} {a : α}, exec r b input = (.done a, b', input') →
    P a := by
  induction r with
  | pure a => intro b b' input input' a' he; cases he; exact h
  | fail f => intro b b' input input' a' he; cases he
  | peek n k ih =>
    intro b b' input input' a he
    rw [exec] at he
    rcases hb : b.peek n input with ⟨e, b1, input1⟩
    rw [hb] at he
    rcases e with v | _ | f
    · exact ih v (h v) he
    · cases he
    · cases he
  | drop n k ih => intro b b' input input' a he; exact ih h he
  | sym need f k ih =>
    intro b b' input input' a he
    rw [exec] at he
    rcases hb : b.decode need f input with ⟨e, b1, input1⟩
    rw [hb] at he
    rcases e with v | _ | f
    · exact ih v (h v) he
    · cases he
    · cases he
  | align f k ih =>
    intro b b' input input' a he
    rw [exec] at he
    cases hb : b.align with
    | ok b1 => rw [hb] at he; exact ih h he
    | error e => rw [hb] at he; cases he

/-! ### Output -/

/-- What a call never changes of its output, linear delivery apart. -/
def Output.frame (o : Output) : Output :=
  { o with bytes := ⟨fun _ => 0, o.bytes.len⟩, produced := 0, linear := false }

namespace Output

variable {o o' : Output}

theorem capacity_of_frame (h : o'.frame = o.frame) : o'.capacity = o.capacity := by
  have h1 : o'.frame.collect = o.frame.collect := congrArg Output.collect h
  have h2 : o'.frame.bytes.len = o.frame.bytes.len := congrArg (fun x : Output => x.bytes.len) h
  simp only [frame] at h1 h2
  rw [capacity, capacity, h1, h2]

theorem fastEnd_of_frame (h : o'.frame = o.frame) : o'.fastEnd = o.fastEnd := by
  have h1 : o'.frame.totalBefore = o.frame.totalBefore := congrArg Output.totalBefore h
  have h2 : o'.frame.limit = o.frame.limit := congrArg Output.limit h
  have h3 : o'.frame.exact = o.frame.exact := congrArg Output.exact h
  simp only [frame] at h1 h2 h3
  rw [fastEnd, fastEnd, h1, h2, h3, capacity_of_frame h]

theorem ready_true {o : Output} (h : o.ready = .ok true) : o.produced < o.fastEnd := by
  unfold ready policy at h
  split at h
  · cases h
  · rename_i hp
    split at hp
    · cases hp
    · split at hp
      · cases hp
      · rename_i hu hl
        have hcap : o.produced < o.capacity := by simpa using h
        unfold fastEnd
        cases hlim : o.limit with
        | none =>
          cases hex : o.exact with
          | unknown => simp only; omega
          | exact e =>
            rw [hex] at hp
            simp only at hp
            split at hp
            · cases hp
            · simp only; omega
        | some l =>
          rw [hlim] at hl
          have := Option.filter_eq_none_iff.mp hl l rfl
          simp only [decide_eq_true_eq] at this
          cases hex : o.exact with
          | unknown => simp only; omega
          | exact e =>
            rw [hex] at hp
            simp only at hp
            split at hp
            · cases hp
            · simp only; omega

/-- The policy allows a byte that there is no room for: the buffer is full. -/
theorem ready_ok {o : Output} {b : Bool} (h : o.ready = .ok b) (hp : o.produced ≤ o.fastEnd)
    (hfull : b = false ∨ o.fastEnd ≤ o.produced) : o.produced = o.capacity := by
  have hle : o.fastEnd ≤ o.capacity := min_le_right _ _
  cases b with
  | true =>
    have := ready_true h
    rcases hfull with hfull | hfull
    · cases hfull
    · omega
  | false =>
    unfold ready at h
    split at h
    · cases h
    · have : ¬ o.produced < o.capacity := by simpa using h
      omega

/-- What was delivered stays within the limits. -/
theorem produced_le_limit {o : Output} (hp : o.produced ≤ o.fastEnd) {l : ℕ} (hl : o.limit = some l)
    (hbefore : o.totalBefore ≤ l) : o.totalBefore + o.produced ≤ l := by
  unfold fastEnd at hp
  rw [hl] at hp
  cases hex : o.exact <;> rw [hex] at hp <;> simp only at hp <;> omega

theorem produced_le_exact {o : Output} (hp : o.produced ≤ o.fastEnd) {n : ℕ}
    (hn : o.exact = .exact n)
    (hbefore : o.totalBefore ≤ n) : o.totalBefore + o.produced ≤ n := by
  unfold fastEnd at hp
  rw [hn] at hp
  cases hl : o.limit <;> rw [hl] at hp <;> simp only at hp <;> omega

end Output

/-- A flush delivers what is pending. -/
theorem flushRing_spec (ring : ℕ → UInt8) (len position flushed : ℕ) (o : Output)
    (h : flushed ≤ position) :
    (flushRing ring len position flushed o).1 = position ∧
      (flushRing ring len position flushed o).2.produced = o.produced + (position - flushed) ∧
      (flushRing ring len position flushed o).2.frame = o.frame ∧
      (flushRing ring len position flushed o).2.linear = o.linear := by
  unfold flushRing
  dsimp only
  split
  · refine ⟨rfl, rfl, ?_, rfl⟩
    simp only [Output.frame]
    split <;> rfl
  · exact ⟨by simp only; omega, by simp only; omega, rfl, rfl⟩

/-- What writing history in pieces keeps: delivered and pending bytes grow with the position. -/
structure Wrote (o o' : Output) (position position' flushed flushed' n : ℕ) : Prop where
  le : position ≤ position'
  le_add : position' ≤ position + n
  flushed_le : flushed' ≤ position'
  produced : o'.produced + (position' - flushed') = o.produced + (position - flushed) +
    (position' - position)
  frame : o'.frame = o.frame
  linear : o'.linear = o.linear

theorem Wrote.refl (o : Output) {position flushed n : ℕ} (h : flushed ≤ position) :
    Wrote o o position position flushed flushed n :=
  ⟨le_rfl, Nat.le_add_right _ _, h, by omega, rfl, rfl⟩

theorem Wrote.trans {o o' o'' : Output} {p p' p'' f f' f'' n n' : ℕ} (h : Wrote o o' p p' f f' n)
    (h' : Wrote o' o'' p' p'' f' f'' n') : Wrote o o'' p p'' f f'' (n + n') := by
  obtain ⟨a1, a2, a3, a4, a5, a6⟩ := h
  obtain ⟨b1, b2, b3, b4, b5, b6⟩ := h'
  exact ⟨by omega, by omega, b3, by omega, b5.trans a5, b6.trans a6⟩

theorem Wrote.mono {o o' : Output} {p p' f f' n n' : ℕ} (h : Wrote o o' p p' f f' n) (hn : n ≤ n') :
    Wrote o o' p p' f f' n' := { h with le_add := by have := h.le_add; omega }

/-- One piece, delivered if it reaches the end of the ring. -/
theorem wrote_piece (o : Output) (ring : ℕ → UInt8) (size dst piece : ℕ) {position flushed : ℕ}
    (h : flushed ≤ position) :
    let r := if dst + piece = size then flushRing ring size (position + piece) flushed o
    else (flushed, o)
    Wrote o r.2 position (position + piece) flushed r.1 piece := by
  dsimp only
  split
  · obtain ⟨f1, f2, f3, f4⟩ := flushRing_spec ring size (position + piece) flushed o (by omega)
    rw [f1]
    exact ⟨by omega, le_rfl, le_rfl, by omega, f3, f4⟩
  · exact ⟨by omega, le_rfl, by omega, by dsimp only; omega, rfl, rfl⟩

theorem copyRing_wrote (size distance : ℕ) :
    ∀ (fuel length : ℕ) (ring : ℕ → UInt8) (position flushed : ℕ)
    (o : Output), flushed ≤ position →
    let r := copyRing size distance fuel length ring position flushed o
    Wrote o r.2.2.2 position r.2.1 flushed r.2.2.1 length := by
  intro fuel
  induction fuel with
  | zero => intro length ring position flushed o h; exact .refl o h
  | succ fuel ih =>
    intro length ring position flushed o h
    rw [copyRing]
    by_cases hl : length = 0
    · rw [if_pos hl]; exact .refl o h
    · rw [if_neg hl]
      dsimp only
      have hp := fun ring => wrote_piece o ring size (historyIndex size position)
        (min (min length (size - historyIndex size position))
          (size - historyIndex size (position - distance))) h
      exact ((hp _).trans (ih _ _ _ _ _ (hp _).flushed_le)).mono (by omega)

theorem writeRing_wrote (size : ℕ) :
    ∀ (fuel : ℕ) (bytes : List UInt8) (ring : ℕ → UInt8) (position flushed : ℕ)
    (o : Output), flushed ≤ position →
    let r := writeRing size fuel bytes ring position flushed o
    Wrote o r.2.2.2 position r.2.1 flushed r.2.2.1 bytes.length := by
  intro fuel
  induction fuel with
  | zero => intro bytes ring position flushed o h; exact .refl o h
  | succ fuel ih =>
    intro bytes ring position flushed o h
    rw [writeRing]
    by_cases hb : bytes.isEmpty
    · rw [if_pos hb]; exact .refl o h
    · rw [if_neg hb]
      dsimp only
      have hp := fun ring => wrote_piece o ring size (historyIndex size position)
        (min bytes.length (size - historyIndex size position)) h
      exact ((hp _).trans (ih _ _ _ _ _ (hp _).flushed_le)).mono (by rw [List.length_drop]; omega)

end Mbrotli
