/-
# The description reader is exact

`Builder.read` runs rounds until a description is complete, refused or waits for input;
`Builder.parse` is the same over the operation's bit string. A round asks for no more bits
than its field has (`step_atomic`), so that a call continues where the last one paused, and
`readCalls` says of every split what one call says (`readCalls_parse`).
-/
import Mbrotli.Decompressor.Core.Cursor
import Mbrotli.Decompressor.Core.HuffmanDecode
import Mbrotli.Decompressor.Core.HuffmanDescription

namespace Mbrotli

open Canonical BitString

theorem Reader.Gives.run {ε α : Type} {P : α → Prop} {m : Reader ε α} (hm : m.Gives P)
    {I : List UInt8} {B p q : ℕ} {a : α}
    (h : m.run I B p = .done a q) : P a := by
  induction m generalizing p with
  | pure a => cases h; exact hm
  | fail e => cases h
  | peek n k ih =>
    simp only [Reader.run] at h
    split at h
    · exact ih _ (hm _ (bitsAt_lt _ _ _)) h
    · cases h
  | drop n k ih => exact ih hm h
  | sym need f k ih =>
    simp only [Reader.run] at h
    split at h
    · exact ih _ (hm _) h
    · cases h
  | align e k ih =>
    simp only [Reader.run] at h
    split at h
    · cases h
    · exact ih hm h

namespace Builder

variable {alphabet : ℕ} {b b' : Builder} {I : List UInt8} {B p q : ℕ}

/-! ### Rounds -/

/-- A bound on the rounds a description still takes. -/
def rounds (alphabet : ℕ) (b : Builder) : ℕ :=
  match b.stage with
  | .start => 2 * alphabet + 22
  | .simpleCount => 7
  | .simpleSymbols => b.count - b.index + 2
  | .simpleShape => 1
  | .codeLengths => 18 - b.index + 2 * alphabet + 3
  | .symbols => 2 * (alphabet - b.index) + 1
  | .repeat _ => 2 * (alphabet - b.index)

/-- The loop of `read`. -/
def readLoop (alphabet : ℕ) : ℕ → Builder → Bits → Input → Exec Unit × Builder × Bits × Input
  | 0, b, bits, input => (.empty, b, bits, input)
  | fuel + 1, b, bits, input =>
    match exec (b.step alphabet) bits input with
    | (.done (b, true), bits, input) => (.done (), b, bits, input)
    | (.done (b, false), bits, input) => readLoop alphabet fuel b bits input
    | (.empty, bits, input) => (.empty, b, bits, input)
    | (.fault f, bits, input) => (.fault f, b, bits, input)

/-- Reads a description: done, or out of input, or refused. -/
def read (alphabet : ℕ) (b : Builder) (bits : Bits) (input : Input) :
    Exec Unit × Builder × Bits × Input :=
  readLoop alphabet (rounds alphabet b + 1) b bits input

/-- A description read over calls, each with the next bytes of the input; a call that runs
out of input settles the reservoir. How it ended, the builder, the reservoir and the bytes
accepted. -/
def readCalls (alphabet : ℕ) (limit : Option ℕ) : List (List UInt8) → Builder → Bits → ℕ →
    Exec Unit × Builder × Bits × ℕ
  | [], b, bits, total => (.empty, b, bits, total)
  | bytes :: rest, b, bits, total =>
    match b.read alphabet bits (Input.new bytes total limit) with
    | (.empty, b, bits, input) => readCalls alphabet limit rest b bits.settle input.accepted
    | (r, b, bits, input) => (r, b, bits, input.accepted)

/-- A round brings the end of the description nearer, unless it is the last. -/
def Nearer (alphabet : ℕ) (b : Builder) (r : Builder × Bool) : Prop :=
  r.2 = false → rounds alphabet r.1 < rounds alphabet b

theorem codeLengths_nearer (hstage : b.stage = .codeLengths) :
    (b.step alphabet).Gives (Nearer alphabet b) := by
  have hrounds : rounds alphabet b = 18 - b.index + 2 * alphabet + 3 := by
    simp only [rounds, hstage]
  unfold step
  split
  · trivial
  rw [hstage]
  dsimp only
  split
  · rename_i hmore
    have hnext : ∀ value : ℕ, Nearer alphabet b
        (if value ≠ 0 then
          { b with
            small := Function.update b.small (order.getD b.index 0) value, index := b.index + 1
            count := b.count + 1, space := b.space - (32 >>> value : ℕ) }
        else { b with small := Function.update b.small (order.getD b.index 0) value, index :=
          b.index + 1 }, false) :=
      fun value _ => by
        have hstage' : ∀ b' : Builder, b'.stage = .codeLengths → b'.index = b.index + 1 →
            rounds alphabet b' < rounds alphabet b := by
          intro b' h1 h2
          rw [hrounds]
          simp only [rounds, h1, h2]
          omega
        dsimp only
        split
        · exact hstage' _ hstage rfl
        · exact hstage' _ hstage rfl
    rw [hstage] at hnext
    intro first _
    show Reader.Gives _ (ite _ _ _)
    split
    · exact hnext 0
    show Reader.Gives _ (ite _ _ _)
    split
    · exact hnext 4
    show Reader.Gives _ (ite _ _ _)
    split
    · exact hnext 3
    intro next _
    show Reader.Gives _ (ite _ _ _)
    split
    · exact hnext 2
    intro last _
    exact hnext (if last = 7 then 1 else 5)
  · split
    · trivial
    · intro _
      rw [hrounds]
      simp only [rounds]
      omega

/-- A round that does not complete the description leaves fewer. -/
theorem step_nearer (h : b.Reading alphabet) : (b.step alphabet).Gives (Nearer alphabet b) := by
  by_cases halpha : alphabet = 0 ∨ maxAlphabet < alphabet
  · unfold step
    rw [if_pos halpha]
    trivial
  cases hstage : b.stage with
  | start =>
    unfold step
    rw [if_neg halpha, hstage]
    refine (Reader.gives_read 2).bind fun skip hskip => ?_
    intro _
    dsimp only
    split
    · simp only [rounds, hstage]
      omega
    · simp only [rounds, hstage]
      omega
  | simpleCount =>
    unfold step
    rw [if_neg halpha, hstage]
    refine (Reader.gives_read 2).bind fun count hcount => ?_
    intro _
    simp only [rounds, hstage]
    omega
  | simpleSymbols =>
    unfold step
    rw [if_neg halpha, hstage]
    dsimp only
    split
    · rename_i hlt
      refine (Reader.gives_read _).bind fun symbol _ => ?_
      show Reader.Gives _ (ite _ _ _)
      split
      · trivial
      · intro _
        simp only [rounds, hstage]
        omega
    · intro _
      simp only [rounds, hstage]
      omega
  | simpleShape =>
    unfold step
    rw [if_neg halpha, hstage]
    dsimp only
    show Reader.Gives _ (ite _ _ _)
    split
    · exact (Reader.gives_read 1).bind fun _ _ hf => nomatch hf
    · exact fun hf => nomatch hf
  | codeLengths => exact codeLengths_nearer hstage
  | symbols =>
    unfold Reading at h
    rw [hstage] at h
    unfold step
    rw [if_neg halpha, hstage]
    dsimp only
    split
    · exact fun hf => nomatch hf
    split
    · trivial
    rename_i hstop
    have hlt : b.index < alphabet := lt_of_le_of_ne h.index fun he => hstop (Or.inr he)
    intro v
    show Reader.Gives _ (ite _ _ _)
    split
    · intro _
      have hstage' : ∀ b' : Builder, b'.stage = .symbols → b'.index = b.index + 1 →
          rounds alphabet b' < rounds alphabet b := by
        intro b' h1 h2
        simp only [rounds, h1, h2, hstage]
        omega
      dsimp only
      split
      · obtain ⟨p1, -, p3⟩ := push_same (b := b) b.index (b.code.lookup v).1
        exact hstage' _ (p1.trans hstage) (congrArg (· + 1) p3)
      · exact hstage' _ hstage rfl
    · intro _
      simp only [rounds, hstage]
      omega
  | «repeat» symbol =>
    unfold step
    rw [if_neg halpha, hstage]
    refine (Reader.gives_read _).bind fun extra _ => ?_
    dsimp only
    generalize hlength : (if symbol = 16 then b.previous else 0) = length
    generalize hbefore : (if b.repeatLength ≠ length then 0 else b.repeated) = before
    generalize hrepeated : (if before = 0 then 0 else (before - 2) <<< (symbol - 14)) +
      extra + 3 = repeated
    have hgrows : before < repeated := by
      rw [← hrepeated]
      split
      · omega
      · have : (before - 2) * 1 ≤ (before - 2) <<< (symbol - 14) := by
          rw [Nat.shiftLeft_eq]
          exact Nat.mul_le_mul_left _ (Nat.two_pow_pos _)
        omega
    show Reader.Gives _ (ite _ _ _)
    split
    · trivial
    rename_i hstop
    intro _
    have hstage' : ∀ b' : Builder, b'.stage = .symbols → b'.index = b.index + (repeated - before) →
        rounds alphabet b' < rounds alphabet b := by
      intro b' h1 h2
      simp only [rounds, h1, h2, hstage]
      omega
    dsimp only
    split
    · obtain ⟨p1, -, -⟩ :=
        pushRun_same (b := { b with repeatLength := length, repeated, stage := .symbols }) b.index
          (b.index + (repeated - before)) length
      exact hstage' _ p1 rfl
    · exact hstage' _ rfl rfl

/-! ### A round is atomic -/

theorem symbolWidth_le (h : alphabet ≤ maxAlphabet) : symbolWidth alphabet ≤ 11 := by
  unfold symbolWidth
  split
  · omega
  · have : Nat.log2 (alphabet - 1) < 11 :=
      (Nat.log2_lt (by omega)).2 (by simp only [maxAlphabet] at h; omega)
    omega

theorem codeLengths_atomic (hstage : b.stage = .codeLengths) : (b.step alphabet).Atomic 0 := by
  unfold step
  split
  · trivial
  rw [hstage]
  dsimp only
  split
  · refine ⟨by decide, fun first _ => ?_⟩
    show Reader.Atomic _ (ite _ _ _)
    split
    · exact ⟨rfl, trivial⟩
    show Reader.Atomic _ (ite _ _ _)
    split
    · exact ⟨rfl, trivial⟩
    show Reader.Atomic _ (ite _ _ _)
    split
    · exact ⟨rfl, trivial⟩
    refine ⟨by decide, fun next _ => ?_⟩
    show Reader.Atomic _ (ite _ _ _)
    split
    · exact ⟨rfl, trivial⟩
    refine ⟨by decide, fun last _ => ?_⟩
    exact ⟨rfl, trivial⟩
  · split
    · trivial
    · rfl

/-- A round asks for just the bits of its field. -/
theorem step_atomic (h : b.Reading alphabet) : (b.step alphabet).Atomic 0 := by
  by_cases halpha : alphabet = 0 ∨ maxAlphabet < alphabet
  · unfold step
    rw [if_pos halpha]
    trivial
  have hwidth : symbolWidth alphabet ≤ Reader.fieldMax :=
    le_trans (symbolWidth_le (by omega)) (by decide)
  cases hstage : b.stage with
  | start =>
    unfold step
    rw [if_neg halpha, hstage]
    exact (Reader.atomic_read (by decide)).bind (fun _ => trivial) fun _ => rfl
  | simpleCount =>
    unfold step
    rw [if_neg halpha, hstage]
    exact (Reader.atomic_read (by decide)).bind (fun _ => trivial) fun _ => rfl
  | simpleSymbols =>
    unfold step
    rw [if_neg halpha, hstage]
    dsimp only
    split
    · refine (Reader.atomic_read hwidth).bind (fun symbol => ?_) fun symbol => ?_
      · show Reader.Settled (ite _ _ _)
        split <;> trivial
      · show Reader.Atomic _ (ite _ _ _)
        split <;> trivial
    · rfl
  | simpleShape =>
    unfold step
    rw [if_neg halpha, hstage]
    dsimp only
    show Reader.Atomic _ (ite _ _ _)
    split
    · exact (Reader.atomic_read (by decide)).bind (fun _ => trivial) fun _ => rfl
    · rfl
  | codeLengths => exact codeLengths_atomic hstage
  | symbols =>
    unfold Reading at h
    rw [hstage] at h
    unfold step
    rw [if_neg halpha, hstage]
    dsimp only
    split
    · rfl
    split
    · trivial
    obtain ⟨c, hc⟩ := h.code
    have hlaw : Reader.PrefixLaw b.code.lookup := by
      rw [show b.code.lookup = c.lookup from funext fun v => (hc v).1]
      exact c.lookup_prefixLaw
    refine (Reader.atomic_symbol hlaw fun w hw v => ?_).bind (fun symbol => ?_) fun symbol => ?_
    · obtain rfl := Option.mem_some.1 hw
      rw [(hc v).1]
      exact (hc v).2.1
    · show Reader.Settled (ite _ _ _)
      split <;> trivial
    · show Reader.Atomic _ (ite _ _ _)
      split <;> rfl
  | «repeat» symbol =>
    unfold Reading at h
    rw [hstage] at h
    have hsymbol : symbol - 14 ≤ Reader.fieldMax :=
      le_trans (by omega) (show 3 ≤ Reader.fieldMax by decide)
    unfold step
    rw [if_neg halpha, hstage]
    refine (Reader.atomic_read hsymbol).bind (fun extra => ?_) fun extra => ?_
    · dsimp only
      generalize (if symbol = 16 then b.previous else 0) = length
      generalize (if b.repeatLength ≠ length then 0 else b.repeated) = before
      generalize (if before = 0 then 0 else (before - 2) <<< (symbol - 14)) = continued
      show Reader.Settled (ite _ _ _)
      split <;> trivial
    · dsimp only
      generalize (if symbol = 16 then b.previous else 0) = length
      generalize (if b.repeatLength ≠ length then 0 else b.repeated) = before
      generalize (if before = 0 then 0 else (before - 2) <<< (symbol - 14)) = continued
      show Reader.Atomic _ (ite _ _ _)
      split <;> trivial

/-! ### The unsplit reader -/

/-- The rounds of a description from bit `p` on, `B` bytes of the input to be had: how they
end, the builder then, and where the last of them began. -/
def parseLoop (I : List UInt8) (B alphabet : ℕ) :
    ℕ → Builder → ℕ → Reader.Result Fault Unit × Builder × ℕ
  | 0, b, p => (.stall, b, p)
  | fuel + 1, b, p =>
    match (b.step alphabet).run I B p with
    | .done (b', true) q => (.done () q, b', p)
    | .done (b', false) q => parseLoop I B alphabet fuel b' q
    | .failed f q => (.failed f q, b, p)
    | .stall => (.stall, b, p)

def parse (I : List UInt8) (B alphabet : ℕ) (b : Builder) (p : ℕ) :
    Reader.Result Fault Unit × Builder × ℕ :=
  parseLoop I B alphabet (rounds alphabet b + 1) b p

theorem run_reading (h : b.Reading alphabet) {last : Bool}
    (hr : (b.step alphabet).run I B p = .done (b', last) q) :
    b'.Reading alphabet ∧ (last = true → b'.stage = .start ∧ b'.Described alphabet) :=
  (step_gives h).run hr

theorem run_rounds (h : b.Reading alphabet)
    (hr : (b.step alphabet).run I B p = .done (b', false) q) :
    rounds alphabet b' < rounds alphabet b := (step_nearer h).run hr rfl

theorem parseLoop_fuel (n : ℕ) : ∀ {b : Builder} {p fuel : ℕ}, b.Reading alphabet →
    rounds alphabet b < n → n ≤ fuel →
    parseLoop I B alphabet fuel b p = parseLoop I B alphabet n b p := by
  induction n with
  | zero => intro b p fuel _ hn; exact absurd hn (Nat.not_lt_zero _)
  | succ n ih =>
    intro b p fuel h hn hf
    obtain ⟨fuel, rfl⟩ : ∃ k, fuel = k + 1 := ⟨fuel - 1, by omega⟩
    unfold parseLoop
    rcases hr : (b.step alphabet).run I B p with ⟨⟨b', _ | _⟩, q⟩ | ⟨f, q⟩ | _
    · have := run_rounds h hr
      exact ih (run_reading h hr).1 (by omega) (by omega)
    · rfl
    · rfl
    · rfl

/-- One round of the unsplit reader. -/
theorem parse_eq (h : b.Reading alphabet) : parse I B alphabet b p =
    match (b.step alphabet).run I B p with
    | .done (b', true) q => (.done () q, b', p)
    | .done (b', false) q => parse I B alphabet b' q
    | .failed f q => (.failed f q, b, p)
    | .stall => (.stall, b, p) := by
  unfold parse
  rw [parseLoop]
  rcases hr : (b.step alphabet).run I B p with ⟨⟨b', _ | _⟩, q⟩ | ⟨f, q⟩ | _
  · exact parseLoop_fuel _ (run_reading h hr).1 (Nat.lt_succ_self _) (run_rounds h hr)
  · rfl
  · rfl
  · rfl

theorem parse_next (h : b.Reading alphabet)
    (hr : (b.step alphabet).run I B p = .done (b', false) q) :
    parse I B alphabet b p = parse I B alphabet b' q := by rw [parse_eq h, hr]

/-- A reader that waits at a builder goes on from there when there is more; what has ended
stays ended. -/
theorem parse_more {C : ℕ} (hBC : B ≤ C) (n : ℕ) : ∀ {b : Builder} {p : ℕ}, rounds alphabet b < n →
    b.Reading alphabet → p ≤ 8 * B →
    match parse I B alphabet b p with
    | (.stall, b', q) => parse I C alphabet b p = parse I C alphabet b' q ∧
        b'.Reading alphabet ∧ q ≤ 8 * B
    | r => parse I C alphabet b p = r := by
  induction n with
  | zero => intro b p hn; exact absurd hn (Nat.not_lt_zero _)
  | succ n ih =>
    intro b p hn h hp
    have hatomic := step_atomic h
    have hmono : (b.step alphabet).run I B p ≠ .stall →
        (b.step alphabet).run I C p = (b.step alphabet).run I B p :=
      Reader.run_mono hatomic hBC hp fun _ _ => rfl
    rw [parse_eq h]
    rcases hr : (b.step alphabet).run I B p with ⟨⟨b₁, _ | _⟩, q⟩ | ⟨f, q⟩ | _
    · have hC := hmono (by rw [hr]; simp)
      have hq : q ≤ 8 * B := (hatomic.run_le hp hr).2
      have hrest := ih (by have := run_rounds h hr; omega) (run_reading h hr).1 hq
      rw [hr] at hC
      rw [parse_next h hC]
      exact hrest
    · have hC := hmono (by rw [hr]; simp)
      dsimp only
      rw [parse_eq h, hC, hr]
    · have hC := hmono (by rw [hr]; simp)
      dsimp only
      rw [parse_eq h, hC, hr]
    · exact ⟨rfl, h, hp⟩

/-! ### Calls -/

/-- How a call that starts at `input` ends when the unsplit reader ends with `r`. -/
def Parsed (I : List UInt8) (input : Input) (r : Reader.Result Fault Unit × Builder × ℕ) :
    Exec Unit × Builder × Bits × Input → Prop
  | (.done _, b', bits, input') => input.Advances input' ∧
      ∃ q p', r = (.done () q, b', p') ∧ Cursor I q bits input'.accepted
  | (.empty, b', bits, input') => input.Advances input' ∧ Offered I input' ∧
      ∃ q, r = (.stall, b', q) ∧ Cursor I q bits input'.accepted ∧
      input'.consumed = input.bytes.length
  | (.fault f, b', _, input') => input.Advances input' ∧ ((∃ q p', r = (.failed f q, b', p')) ∨
      ∃ q, r = (.stall, b', q) ∧ input.fastEnd < input.bytes.length ∧
      f = .error (.inputLimitExceeded input.available))

theorem Parsed.of_advances {input input' : Input} {r : Reader.Result Fault Unit × Builder × ℕ}
    {x : Exec Unit × Builder × Bits × Input} (h : Parsed I input' r x)
    (ha : input.Advances input') : Parsed I input r x := by
  obtain ⟨x, b'', bits, input''⟩ := x
  have hav := ha.available
  rcases x with _ | _ | f
  · exact ⟨ha.trans h.1, h.2⟩
  · obtain ⟨g1, g2, q, g3, g4, g5⟩ := h
    exact ⟨ha.trans g1, g2, q, g3, g4, by rw [g5, ha.1]⟩
  · obtain ⟨g1, g2 | ⟨q, g2, g3, g4⟩⟩ := h
    · exact ⟨ha.trans g1, Or.inl g2⟩
    · rw [ha.1] at g3
      exact ⟨ha.trans g1, Or.inr ⟨q, g2, g3, by rw [g4, hav]⟩⟩

/-- A call does what the unsplit reader does with the bytes it may accept. -/
theorem readLoop_parse (n : ℕ) : ∀ {b : Builder} {p fuel : ℕ} {bits : Bits} {input : Input},
    rounds alphabet b < n → n ≤ fuel →
    b.Reading alphabet → Offered I input → Cursor I p bits input.accepted →
    Parsed I input (parse I input.available alphabet b p)
    (readLoop alphabet fuel b bits input) := by
  induction n with
  | zero => intro b p fuel bits input hn; exact absurd hn (Nat.not_lt_zero _)
  | succ n ih =>
    intro b p fuel bits input hn hf h ho hc
    obtain ⟨fuel, rfl⟩ : ∃ k, fuel = k + 1 := ⟨fuel - 1, by omega⟩
    have hsim := exec_sim (Or.inl ⟨step_atomic h, Nat.zero_le _⟩) ho hc
    rw [parse_eq h]
    unfold readLoop
    rcases hx : exec (b.step alphabet) bits input with ⟨⟨b₁, _ | _⟩ | _ | f, bits', input'⟩
    · rw [hx] at hsim
      obtain ⟨h1, h2, q, hr, h3⟩ := hsim
      rw [hr]
      have :=
        ih (by have := run_rounds h hr; omega) (show n ≤ fuel by omega) (run_reading h hr).1 h2 h3
      rw [h1.available] at this
      exact this.of_advances h1
    · rw [hx] at hsim
      obtain ⟨h1, h2, q, hr, h3⟩ := hsim
      rw [hr]
      exact ⟨h1, q, p, rfl, h3⟩
    · rw [hx] at hsim
      obtain ⟨h1, h2, hr, h3, h4⟩ := hsim
      rw [hr]
      exact ⟨h1, h2, p, rfl, h3, h4⟩
    · rw [hx] at hsim
      obtain ⟨h1, h2, ⟨q, hr, h3⟩ | ⟨hr, h3, h4, h5, h6⟩⟩ := hsim
      · rw [hr]
        exact ⟨h1, Or.inl ⟨q, p, rfl⟩⟩
      · rw [hr]
        exact ⟨h1, Or.inr ⟨p, rfl, h5, h6⟩⟩

/-- What the caller is told, of an input of `n` bytes. -/
def verdict (limit : Option ℕ) (n : ℕ) : Reader.Result Fault Unit → Exec Unit
  | .done _ _ => .done ()
  | .failed f _ => .fault f
  | .stall => match limit.filter (· < n) with
    | some limit => .fault (.error (.inputLimitExceeded limit))
    | none => .empty

/-- The bytes of an input of `n` bytes that the limit allows. -/
def allowed (limit : Option ℕ) (n : ℕ) : ℕ := (limit.elim n) (min n)

/-- **Every split of the input into calls reads what one call would.** -/
theorem readCalls_parse {limit : Option ℕ} (hI : I.length ≤ u64Max) :
    ∀ (pieces : List (List UInt8)) {b : Builder} {p : ℕ}
    {bits : Bits} {total : ℕ}, b.Reading alphabet → Cursor I p bits total → total ≤ I.length →
    (∀ l, limit = some l → total ≤ l) →
    pieces.flatten = I.drop total → (pieces ≠ [] ∨ parse I total alphabet b p = (.stall, b, p)) →
    (readCalls alphabet limit pieces b bits total).1 =
        verdict limit I.length (parse I (allowed limit I.length) alphabet b p).1 ∧
      (readCalls alphabet limit pieces b bits total).2.1 =
      (parse I (allowed limit I.length) alphabet b p).2.1 ∧
      ∀ q, (parse I (allowed limit I.length) alphabet b p).1 = .done () q →
        Cursor I q (readCalls alphabet limit pieces b bits total).2.2.1
        (readCalls alphabet limit pieces b bits total).2.2.2
  | [], b, p, bits, total, h, hc, ht, hl, hpieces, hstall => by
    have hlen : total = I.length := by
      have := congrArg List.length hpieces
      simp only [List.flatten_nil, List.length_nil, List.length_drop] at this
      omega
    have hstall := hstall.resolve_left (not_not.2 rfl)
    have hallowed : allowed limit I.length = total := by
      unfold allowed
      cases limit with
      | none => exact hlen.symm
      | some l =>
        have := hl l rfl
        simp only [Option.elim_some]
        omega
    rw [hallowed, hstall]
    refine ⟨?_, rfl, fun q hq => by cases hq⟩
    unfold readCalls verdict
    cases limit with
    | none => rfl
    | some l =>
      have := hl l rfl
      simp [Option.filter, show ¬ l < I.length by omega]
  | bytes :: rest, b, p, bits, total, h, hc, ht, hl, hpieces, _ => by
    have hdrop : ∀ k a, bytes[k]? = some a → I[total + k]? = some a := fun k a hk => by
      have hflat : (bytes ++ rest.flatten)[k]? = some a := by
        rw [List.getElem?_append_left (List.getElem?_eq_some_iff.1 hk).1]
        exact hk
      rw [List.flatten_cons] at hpieces
      rw [hpieces, List.getElem?_drop] at hflat
      exact hflat
    have hlen : total + (bytes.length + rest.flatten.length) = I.length := by
      have := congrArg List.length hpieces
      simp only [List.flatten_cons, List.length_append, List.length_drop] at this
      omega
    have ho := offered_new hdrop hl (by omega)
    have hsim := readLoop_parse _ (Nat.lt_succ_self (rounds alphabet b)) le_rfl h ho hc
    -- the call may accept no more than the limit allows of the whole input
    obtain ⟨A, hA⟩ : ∃ A, (Input.new bytes total limit).available = A := ⟨_, rfl⟩
    have hfast := ho.fastEnd_le
    have hbytes : (Input.new bytes total limit).bytes = bytes := rfl
    have hbefore : (Input.new bytes total limit).totalBefore = total := rfl
    have hlimit : (Input.new bytes total limit).limit = limit := rfl
    have hAle : A ≤ allowed limit I.length := by
      rw [← hA]
      unfold allowed
      cases limit with
      | none =>
        simp only [Option.elim_none, Input.available, hbefore]
        rw [hbytes] at hfast
        omega
      | some l =>
        have := ho.limit l rfl
        simp only [Option.elim_some, Input.available, hbefore]
        rw [hbytes] at hfast
        rw [hbefore] at this
        omega
    have hpA : p ≤ 8 * A := by
      have := hc.pos
      rw [← hA, Input.available, hbefore]
      omega
    have hmore := parse_more (I := I) hAle _ (Nat.lt_succ_self (rounds alphabet b)) h hpA
    rw [hA] at hsim
    unfold readCalls read
    rcases hx : readLoop alphabet (rounds alphabet b + 1) b bits (Input.new bytes total limit)
      with ⟨_ | _ | f, b', bits', input'⟩
    · rw [hx] at hsim
      obtain ⟨-, q, p', hr, hcur⟩ := hsim
      rw [hr] at hmore
      rw [hmore]
      refine ⟨rfl, rfl, fun q' hq => ?_⟩
      cases hq
      exact hcur
    · rw [hx] at hsim
      obtain ⟨hadv, hoff, q, hr, hcur, hconsumed⟩ := hsim
      have hsame := parse_more (I := I) (le_refl A) _ (Nat.lt_succ_self (rounds alphabet b)) h hpA
      rw [hr] at hmore hsame
      obtain ⟨hgo, hb', -⟩ := hmore
      have haccepted : input'.accepted = total + bytes.length := by
        rw [Input.accepted, hconsumed, hadv.1]
        rfl
      have htotal : A = input'.accepted := by
        have h1 := hoff.consumed_le
        have h2 := hadv.available
        rw [hA, Input.available] at h2
        have h3 : input'.totalBefore = total := by rw [hadv.1]; rfl
        have h4 : A ≤ total + bytes.length := by
          rw [← hA, Input.available, hbefore]
          exact Nat.add_le_add_left hfast total
        rw [hconsumed, hbytes] at h1
        omega
      rw [hgo]
      refine readCalls_parse hI rest hb' hcur.settle ?_ ?_ ?_ (Or.inr ?_)
      · rw [haccepted]
        omega
      · intro l hl'
        have := hoff.limit l (by rw [hadv.1]; exact hl')
        have := hoff.consumed_le
        unfold Input.accepted
        omega
      · rw [haccepted, ← List.drop_drop, ← hpieces, List.flatten_cons, List.drop_left]
      · rw [← htotal, ← hsame.1]
    · rw [hx] at hsim
      obtain ⟨hadv, ⟨q, p', hr⟩ | ⟨q, hr, hshort, hf⟩⟩ := hsim
      · rw [hr] at hmore
        rw [hmore]
        exact ⟨rfl, rfl, fun q' hq => by cases hq⟩
      · have hclosed := ho.closed hshort
        have hlim : limit = some A := by
          rw [← hlimit, hclosed, ← hA]
          rfl
        have hAlt : A < I.length := by
          rw [← hA, Input.available, hbefore]
          rw [hbytes] at hshort
          omega
        have hall : allowed limit I.length = A := by
          rw [hlim]
          exact min_eq_right (Nat.le_of_lt hAlt)
        rw [hall, hr]
        refine ⟨?_, rfl, fun q' hq => by cases hq⟩
        rw [hlim, hf, hA]
        simp [verdict, Option.filter, hAlt]

end Builder
end Mbrotli
