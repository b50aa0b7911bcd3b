/-
# A reservoir follows the operation's bit string

`Cursor I p b acc`: the reservoir `b` stands at bit `p` of the operation's
input `I`, `acc` bytes of which were accepted. `Offered I input`: the call's
input is the part of `I` after `totalBefore`, accepted at most up to its fast
end, which is short of the whole only where the input limit falls.

Loading a byte, a whole-word refill, `settle` and `unread` keep the cursor
(`loadByte_cursor`, `refillRest_cursor`, `Cursor.settle`, `unread_cursor`), and
a reader run on the reservoir does what it does on `I` (`exec_sim`).
-/
import Mbrotli.Decompressor.Core.Bits

namespace Mbrotli

open BitString

structure Cursor (I : List UInt8) (p : ℕ) (b : Bits) (acc : ℕ) : Prop where
  pos : p + b.count = 8 * acc
  count_lt : b.count < 64
  value_lt : b.value < 2 ^ 64
  low : ∀ i, i < b.count → b.value.testBit i = bitAt I (p + i)
  high : ∀ i, b.value.testBit i = true → bitAt I (p + i) = true

structure Offered (I : List UInt8) (input : Input) : Prop where
  bytes : ∀ k a, input.bytes[k]? = some a → I[input.totalBefore + k]? = some a
  consumed_le : input.consumed ≤ input.fastEnd
  fastEnd_le : input.fastEnd ≤ input.bytes.length
  limit : ∀ l, input.limit = some l → input.totalBefore + input.fastEnd ≤ l
  closed : input.fastEnd < input.bytes.length →
    input.limit = some (input.totalBefore + input.fastEnd)
  total : input.totalBefore + input.bytes.length ≤ u64Max

/-- Bytes of the operation accepted so far. -/
def Input.accepted (input : Input) : ℕ := input.totalBefore + input.consumed

/-- Bytes of the operation this call may accept. -/
def Input.available (input : Input) : ℕ := input.totalBefore + input.fastEnd

/-- The same input further on. -/
def Input.Advances (input input' : Input) : Prop :=
  input' = { input with consumed := input'.consumed } ∧ input.consumed ≤ input'.consumed

theorem Input.Advances.refl (input : Input) : input.Advances input := ⟨rfl, le_rfl⟩

theorem Input.Advances.trans {a b c : Input} (h : a.Advances b) (h' : b.Advances c) :
    a.Advances c := by
  obtain ⟨e1, l1⟩ := h
  obtain ⟨e2, l2⟩ := h'
  exact ⟨by rw [e2, e1], le_trans l1 l2⟩

theorem Input.Advances.available {a b : Input} (h : a.Advances b) : b.available = a.available := by
  rw [h.1]; rfl

theorem Offered.move {I : List UInt8} {input : Input} (h : Offered I input) {n : ℕ}
    (hn : n ≤ input.fastEnd) : Offered I { input with consumed := n } :=
  ⟨h.bytes, hn, h.fastEnd_le, h.limit, h.closed, h.total⟩

theorem offered_new {I bytes : List UInt8} {T : ℕ} {limit : Option ℕ}
    (hb : ∀ k a, bytes[k]? = some a → I[T + k]? = some a) (hl : ∀ l, limit = some l → T ≤ l)
    (ht : T + bytes.length ≤ u64Max) : Offered I (Input.new bytes T limit) := by
  cases limit with
  | none =>
    refine ⟨hb, Nat.zero_le _, min_le_right _ _, by simp [Input.new], fun h => ?_, ht⟩
    simp only [Input.new] at h
    omega
  | some l =>
    have := hl l rfl
    refine ⟨hb, Nat.zero_le _, min_le_right _ _, fun l' h => ?_, fun h => ?_, ht⟩
    · cases h
      simp only [Input.new]
      omega
    · simp only [Input.new] at h ⊢
      congr 1
      omega

namespace Cursor

variable {I : List UInt8} {p acc : ℕ} {b : Bits}

theorem peek_eq (h : Cursor I p b acc) {n : ℕ} (hn : n ≤ b.count) :
    b.value % 2 ^ n = bitsAt I p n := by
  refine eq_bitsAt (Nat.mod_lt _ (Nat.two_pow_pos n)) fun i hi => ?_
  rw [Nat.testBit_mod_two_pow]
  simp [hi, h.low i (by omega)]

theorem drop (h : Cursor I p b acc) {n : ℕ} (hn : n ≤ b.count) :
    Cursor I (p + n) (b.drop n) acc := by
  refine ⟨?_, ?_, ?_, fun i hi => ?_, fun i hi => ?_⟩
  · simp only [Bits.drop]; have := h.pos; omega
  · simp only [Bits.drop]; have := h.count_lt; omega
  · exact lt_of_le_of_lt (Nat.shiftRight_le _ _) h.value_lt
  · simp only [Bits.drop] at hi ⊢
    rw [Nat.testBit_shiftRight, h.low _ (by omega), Nat.add_assoc]
  · simp only [Bits.drop] at hi
    rw [Nat.testBit_shiftRight] at hi
    rw [Nat.add_assoc]
    exact h.high _ hi

/-- Clearing the bits above the count keeps the cursor, and then nothing in the
reservoir depends on bytes that were not accepted. -/
theorem settle (h : Cursor I p b acc) : Cursor I p b.settle acc := by
  refine ⟨h.pos, h.count_lt, lt_of_le_of_lt (Nat.mod_le _ _) h.value_lt, fun i hi => ?_,
    fun i hi => ?_⟩
  · simp only [Bits.settle] at hi ⊢
    rw [Nat.testBit_mod_two_pow]
    simp [hi, h.low i hi]
  · simp only [Bits.settle] at hi
    rw [Nat.testBit_mod_two_pow, Bool.and_eq_true] at hi
    exact h.high i hi.2

/-- The width of the next symbol of a code is what the string says it is, as
far as it is buffered. -/
theorem sym_eq (h : Cursor I p b acc) {f : ℕ → ℕ × ℕ} (hf : Reader.PrefixLaw f)
    (hw : (f b.value).2 ≤ b.count ∨ (f (bitsAt I p 15)).2 ≤ b.count) :
    f b.value = f (bitsAt I p 15) := by
  have key : ∀ n, n ≤ b.count → n ≤ 15 → b.value % 2 ^ n = bitsAt I p 15 % 2 ^ n :=
    fun n h1 h2 => by
    rw [h.peek_eq h1, bitsAt_mod _ _ _ _ h2]
  rcases hw with hw | hw
  · exact ((hf _).2 _ (key _ hw (hf _).1).symm).symm
  · exact (hf _).2 _ (key _ hw (hf _).1)

end Cursor

/-! ### Loading -/

theorem testBit_byte_shift (a : UInt8) (c i : ℕ) :
    ((a.toNat <<< c) % 2 ^ 64).testBit i =
      (decide (i < 64) && (decide (c ≤ i ∧ i < c + 8) && a.toNat.testBit (i - c))) := by
  rw [Nat.testBit_mod_two_pow, Nat.testBit_shiftLeft]
  by_cases h1 : c ≤ i
  · by_cases h2 : i < c + 8
    · simp [h1, h2]
    · simp [h1, h2, toNat_testBit_of_le a (show 8 ≤ i - c by omega)]
  · simp [h1]

theorem Cursor.load {I : List UInt8} {p acc : ℕ} {b : Bits} (h : Cursor I p b acc) {a : UInt8}
    (ha : I[acc]? = some a) (hc : b.count ≤ 55) :
    Cursor I p ⟨b.value ||| ((a.toNat <<< b.count) % 2 ^ 64), b.count + 8⟩ (acc + 1) := by
  have hpos := h.pos
  refine ⟨by simp only; omega, by simp only; omega, ?_, fun i hi => ?_, fun i hi => ?_⟩
  · exact Nat.or_lt_two_pow h.value_lt (Nat.mod_lt _ (by norm_num))
  · simp only at hi ⊢
    rw [Nat.testBit_or, testBit_byte_shift]
    by_cases h1 : i < b.count
    · simp [show ¬ b.count ≤ i by omega, h.low i h1]
    · have hb : bitAt I (p + i) = a.toNat.testBit (i - b.count) := by
        rw [show p + i = 8 * acc + (i - b.count) by omega, bitAt_byte ha (by omega)]
      have hv : b.value.testBit i = true → a.toNat.testBit (i - b.count) = true :=
        fun hv => hb ▸ h.high i hv
      rw [hb]
      cases hv' : b.value.testBit i
      · simp [show b.count ≤ i by omega, hi, show i < 64 by omega]
      · simp [hv hv']
  · simp only at hi
    rw [Nat.testBit_or, testBit_byte_shift, Bool.or_eq_true] at hi
    rcases hi with hi | hi
    · exact h.high i hi
    · simp only [Bool.and_eq_true, decide_eq_true_eq] at hi
      rw [show p + i = 8 * acc + (i - b.count) by omega, bitAt_byte ha (by omega)]
      exact hi.2.2

/-- One byte accepted, or none left in this call, or the limit reached. -/
theorem loadByte_cursor {I : List UInt8} {p : ℕ} {b : Bits} {input : Input}
    (ho : Offered I input) (h : Cursor I p b input.accepted) (hc : b.count ≤ 55) :
    match b.loadByte input with
    | (.ok true, b', input') => b'.count = b.count + 8 ∧ input.Advances input' ∧ Offered I input' ∧
        Cursor I p b' input'.accepted
    | (.ok false, b', input') => b' = b ∧ input' = input ∧ input.consumed = input.bytes.length
    | (.error e, b', input') => b' = b ∧ input' = input ∧ input.consumed = input.fastEnd ∧
        input.fastEnd < input.bytes.length ∧ e = .inputLimitExceeded input.available := by
  unfold Bits.loadByte
  have hcon := ho.consumed_le
  have hfl := ho.fastEnd_le
  cases hb : input.bytes[input.consumed]? with
  | none =>
    refine ⟨rfl, rfl, ?_⟩
    have := List.getElem?_eq_none_iff.mp hb
    omega
  | some a =>
    have hlt : input.consumed < input.bytes.length := (List.getElem?_eq_some_iff.mp hb).1
    have htot := ho.total
    have hacc : I[input.accepted]? = some a := ho.bytes _ _ hb
    have hload : input.consumed < input.fastEnd →
        Offered I { input with consumed := input.consumed + 1 } ∧
        Cursor I p ⟨b.value ||| ((a.toNat <<< b.count) % 2 ^ 64), b.count + 8⟩
          ({ input with consumed := input.consumed + 1 } : Input).accepted :=
      fun hlt' => ⟨ho.move hlt', h.load hacc hc⟩
    simp only [show ¬ u64Max < input.totalBefore + input.consumed + 1 by omega, if_false]
    cases hl : input.limit.filter (· < input.totalBefore + input.consumed + 1) with
    | none =>
      have : input.consumed < input.fastEnd := by
        by_contra hcn
        have := ho.closed (by omega)
        rw [this, Option.filter_eq_none_iff] at hl
        have := hl _ rfl
        simp only [decide_eq_true_eq] at this
        omega
      exact ⟨rfl, ⟨rfl, Nat.le_succ _⟩, hload this⟩
    | some l =>
      obtain ⟨hl, hnext⟩ := Option.filter_eq_some_iff.mp hl
      simp only [decide_eq_true_eq] at hnext
      have h1 := ho.limit l hl
      have h2 : input.fastEnd < input.bytes.length := by omega
      have h3 := ho.closed h2
      rw [hl, Option.some.injEq] at h3
      exact ⟨rfl, rfl, by omega, h2, by rw [h3]; rfl⟩

theorem testBit_leWord : ∀ (l : List UInt8) (i : ℕ), (Bits.leWord l).testBit i = bitAt l i
  | [], i => by simp [Bits.leWord, bitAt]
  | a :: l, i => by
    have hbyte : bitAt (a :: l) (8 * 0 + i % 8) = a.toNat.testBit (i % 8) :=
      bitAt_byte (I := a :: l) rfl (by omega)
    have h256 : (Bits.leWord (a :: l)) = 2 ^ 8 * Bits.leWord l + a.toNat := by
      rw [Bits.leWord]; ring
    rw [h256, Nat.testBit_two_pow_mul_add _ (UInt8.toNat_lt a)]
    by_cases hi : i < 8
    · rw [if_pos hi]
      rw [show 8 * 0 + i % 8 = i by omega, show i % 8 = i by omega] at hbyte
      exact hbyte.symm
    · rw [if_neg hi, testBit_leWord l]
      unfold bitAt
      rw [show i / 8 = (i - 8) / 8 + 1 by omega, show (i - 8) % 8 = i % 8 by omega]
      simp

/-- A whole-word refill over the acceptable input `rest`, which starts after the
`acc` accepted bytes. -/
theorem refillRest_cursor {I : List UInt8} {p acc : ℕ} {b : Bits} {rest : List UInt8}
    (h : Cursor I p b acc) (hr : ∀ k a, rest[k]? = some a → I[acc + k]? = some a) :
    match b.refillRest rest with
    | (ok, b', rest') => rest' = rest.drop (rest.length - rest'.length) ∧
        rest'.length ≤ rest.length ∧
        Cursor I p b' (acc + (rest.length - rest'.length)) ∧ b.count ≤ b'.count ∧
        (ok = true → 56 ≤ b'.count) ∧ (ok = false → b' = b ∧ rest' = rest ∧ rest.length < 8) := by
  unfold Bits.refillRest
  by_cases h8 : 8 ≤ rest.length
  · have hpos := h.pos
    have hcl := h.count_lt
    set n := (63 - b.count) >>> 3 with hn
    have hn' : n = (63 - b.count) / 8 := by rw [hn, Nat.shiftRight_eq_div_pow]
    have hn7 : n ≤ 7 := by omega
    rw [if_pos h8]
    have hlen : rest.length - (rest.drop (min n 8)).length = n := by
      rw [List.length_drop]; omega
    have hword : ∀ j, j < 64 → bitAt (rest.take 8) j = bitAt I (8 * acc + j) := fun j hj => by
      obtain ⟨a, ha⟩ : ∃ a, rest[j / 8]? = some a :=
        ⟨_, List.getElem?_eq_getElem (by omega : j / 8 < rest.length)⟩
      have ht : (rest.take 8)[j / 8]? = some a := by
        rw [List.getElem?_take_of_lt (by omega), ha]
      have hI := hr _ _ ha
      have e1 := bitAt_byte ht (show j % 8 < 8 by omega)
      have e2 := bitAt_byte hI (show j % 8 < 8 by omega)
      rw [show 8 * (j / 8) + j % 8 = j by omega] at e1
      rw [show 8 * (acc + j / 8) + j % 8 = 8 * acc + j by omega] at e2
      rw [e1, e2]
    have htb : ∀ i, ((Bits.leWord (rest.take 8) <<< b.count) % 2 ^ 64).testBit i =
        (decide (i < 64 ∧ b.count ≤ i) && bitAt I (p + i)) := fun i => by
      rw [Nat.testBit_mod_two_pow, Nat.testBit_shiftLeft, testBit_leWord]
      by_cases h1 : i < 64
      · by_cases h2 : b.count ≤ i
        · rw [hword _ (by omega), show 8 * acc + (i - b.count) = p + i by omega]
          simp [h1, h2]
        · simp [h2]
      · simp [h1]
    simp only [hlen]
    refine ⟨?_, by rw [List.length_drop]; omega,
      ⟨?_, ?_, ?_, fun i hi => ?_, fun i hi => ?_⟩, ?_, ?_, ?_⟩
    · rw [show min n 8 = n by omega]
    · simp only; omega
    · simp only; omega
    · exact Nat.or_lt_two_pow h.value_lt (Nat.mod_lt _ (by norm_num))
    · simp only at hi ⊢
      rw [Nat.testBit_or, htb]
      by_cases h1 : i < b.count
      · simp [show ¬ b.count ≤ i by omega, h.low i h1]
      · have hv := h.high i
        simp only [show i < 64 by omega, show b.count ≤ i by omega, and_self, decide_true,
          Bool.true_and]
        cases hv' : b.value.testBit i
        · simp
        · simp [hv hv']
    · simp only at hi
      rw [Nat.testBit_or, htb, Bool.or_eq_true, Bool.and_eq_true] at hi
      rcases hi with hi | hi
      · exact h.high i hi
      · exact hi.2
    · omega
    · intro _; omega
    · intro hc; cases hc
  · rw [if_neg h8]
    simp only [Nat.sub_self, List.drop_zero, Nat.add_zero, le_refl, true_and]
    refine ⟨h, ?_, fun _ => by omega⟩
    intro hd
    have := of_decide_eq_true hd
    simp only [maxPeek] at this
    omega

theorem refill_cursor {I : List UInt8} {p : ℕ} {b : Bits} {input : Input}
    (ho : Offered I input) (h : Cursor I p b input.accepted) :
    match b.refill input with
    | (ok, b', input') => input.Advances input' ∧ Offered I input' ∧ Cursor I p b' input'.accepted ∧
        b.count ≤ b'.count ∧ (ok = true → 56 ≤ b'.count) ∧
        (ok = false → b' = b ∧ input' = input) := by
  unfold Bits.refill
  have hcon := ho.consumed_le
  have hfl := ho.fastEnd_le
  set rest := (input.bytes.take input.fastEnd).drop input.consumed with hrest
  have hlen : rest.length = input.fastEnd - input.consumed := by
    rw [hrest, List.length_drop, List.length_take]; omega
  have hr : ∀ k a, rest[k]? = some a → I[input.accepted + k]? = some a := fun k a hk => by
    have hk' : k < rest.length := (List.getElem?_eq_some_iff.mp hk).1
    rw [hrest, List.getElem?_drop, List.getElem?_take_of_lt (by omega)] at hk
    have := ho.bytes _ _ hk
    rwa [← Nat.add_assoc] at this
  have := refillRest_cursor h hr
  rcases hb : b.refillRest rest with ⟨ok, b', rest'⟩
  rw [hb] at this
  obtain ⟨-, h2, h3, h4, h5, h6⟩ := this
  simp only [hb]
  refine ⟨⟨rfl, Nat.le_add_right _ _⟩, ho.move (by omega), ?_, h4, h5, fun hok => ?_⟩
  · have e :
      ({ input with consumed := input.consumed + (rest.length - rest'.length) } : Input).accepted
        = input.accepted + (rest.length - rest'.length) := by
      simp only [Input.accepted]; omega
    rw [e]
    exact h3
  · obtain ⟨e1, e2, -⟩ := h6 hok
    refine ⟨e1, ?_⟩
    rw [e2]
    simp

/-- Returning whole bytes of this call keeps the cursor; what stays is less than
a byte, or no byte of this call is left accepted. -/
theorem unread_cursor {I : List UInt8} {p : ℕ} {b : Bits} {input : Input}
    (ho : Offered I input) (h : Cursor I p b input.accepted) :
    Offered I (b.unread input).2 ∧ Cursor I p (b.unread input).1 (b.unread input).2.accepted ∧
      (b.unread input).2 = { input with consumed := (b.unread input).2.consumed } ∧
      (b.unread input).2.consumed ≤ input.consumed ∧
      (b.unread input).1.value < 2 ^ (b.unread input).1.count ∧
      ((b.unread input).1.count < 8 ∨ (b.unread input).2.consumed = 0) := by
  unfold Bits.unread
  have hpos := h.pos
  have hcl := h.count_lt
  have hcon := ho.consumed_le
  simp only [Input.accepted] at hpos
  set whole := min (b.count / 8) (min input.consumed 8) with hwhole
  have hacc : ({ input with consumed := input.consumed - whole } : Input).accepted =
      input.accepted - whole := by
    simp only [Input.accepted]; omega
  refine ⟨ho.move (by omega), ⟨?_, ?_, ?_, fun i hi => ?_, fun i hi => ?_⟩, rfl, ?_, ?_, ?_⟩
  · rw [hacc]; simp only [Input.accepted]; omega
  · simp only; omega
  · exact lt_of_le_of_lt (Nat.mod_le _ _) h.value_lt
  · simp only at hi ⊢
    rw [Nat.testBit_mod_two_pow]
    simp [hi, h.low i (by omega)]
  · simp only at hi
    rw [Nat.testBit_mod_two_pow, Bool.and_eq_true] at hi
    exact h.high i hi.2
  · simp only; omega
  · exact Nat.mod_lt _ (Nat.two_pow_pos _)
  · simp only; omega

/-! ### Fields -/

variable {I : List UInt8}

theorem peekLoop_sim (n : ℕ) (hn : n ≤ maxPeek) :
    ∀ (fuel p : ℕ) (b : Bits) (input : Input), Offered I input → Cursor I p b input.accepted →
      n ≤ b.count + 8 * fuel →
      match b.peekLoop n fuel input with
      | (.done v, b', input') => v = bitsAt I p n ∧ n ≤ b'.count ∧ b.count ≤ b'.count ∧
          input.Advances input' ∧ Offered I input' ∧ Cursor I p b' input'.accepted
      | (.empty, b', input') => 8 * input.available < p + n ∧ input.Advances input' ∧
          Offered I input' ∧
          Cursor I p b' input'.accepted ∧ input'.consumed = input.bytes.length
      | (.fault f, b', input') => 8 * input.available < p + n ∧ input.Advances input' ∧
          Offered I input' ∧ Cursor I p b' input'.accepted ∧ input'.consumed = input.fastEnd ∧
          input.fastEnd < input.bytes.length ∧
          f = .error (.inputLimitExceeded input.available) := by
  intro fuel
  induction fuel with
  | zero =>
    intro p b input ho h hf
    have hnb : n ≤ b.count := by omega
    exact ⟨h.peek_eq hnb, hnb, le_rfl, .refl _, ho, h⟩
  | succ fuel ih =>
    intro p b input ho h hf
    unfold Bits.peekLoop
    by_cases hnb : n ≤ b.count
    · rw [if_pos hnb]
      exact ⟨h.peek_eq hnb, hnb, le_rfl, .refl _, ho, h⟩
    · rw [if_neg hnb]
      have hc : b.count ≤ 55 := by simp only [maxPeek] at hn; omega
      have hl := loadByte_cursor ho h hc
      rcases hb : b.loadByte input with ⟨r, b', input'⟩
      rw [hb] at hl
      have hpos := h.pos
      have hcon := ho.consumed_le
      rcases r with e | ok
      · obtain ⟨rfl, rfl, h3, h4, rfl⟩ := hl
        refine ⟨?_, .refl _, ho, h, h3, h4, rfl⟩
        simp only [Input.accepted, Input.available] at hpos ⊢
        omega
      · cases ok with
        | false =>
          obtain ⟨rfl, rfl, h3⟩ := hl
          refine ⟨?_, .refl _, ho, h, h3⟩
          have := ho.fastEnd_le
          simp only [Input.accepted, Input.available] at hpos ⊢
          omega
        | true =>
          obtain ⟨h1, h2, h3, h4⟩ := hl
          have := ih p b' input' h3 h4 (by omega)
          simp only
          rcases hr : b'.peekLoop n fuel input' with ⟨r, b'', input''⟩
          rw [hr] at this
          have hlen : input'.bytes = input.bytes := by rw [h2.1]
          have hfe : input'.fastEnd = input.fastEnd := by rw [h2.1]
          rcases r with v | _ | f
          · obtain ⟨g1, g2, g3, g4, g5⟩ := this
            exact ⟨g1, g2, by omega, h2.trans g4, g5⟩
          · obtain ⟨g1, g2, g3, g4, g5⟩ := this
            rw [h2.available] at g1
            exact ⟨g1, h2.trans g2, g3, g4, by rw [g5, hlen]⟩
          · obtain ⟨g1, g2, g3, g4, g5, g6, g7⟩ := this
            rw [h2.available] at g1 g7
            exact ⟨g1, h2.trans g2, g3, g4, by rw [g5, hfe], by rwa [hlen, hfe] at g6, g7⟩

theorem decodeLoop_sim {f : ℕ → ℕ × ℕ} (hf : Reader.PrefixLaw f) :
    ∀ (fuel p : ℕ) (b : Bits) (input : Input), Offered I input → Cursor I p b input.accepted →
      input.bytes.length ≤ input.consumed + fuel →
      match b.decodeLoop f (fuel + 1) input with
      | (.done s, b', input') => s = (f (bitsAt I p 15)).1 ∧ input.Advances input' ∧
          Offered I input' ∧
          Cursor I (p + (f (bitsAt I p 15)).2) b' input'.accepted
      | (.empty, b', input') => 8 * input.available < p + (f (bitsAt I p 15)).2 ∧
          input.Advances input' ∧
          Offered I input' ∧ Cursor I p b' input'.accepted ∧ input'.consumed = input.bytes.length
      | (.fault g, b', input') => 8 * input.available < p + (f (bitsAt I p 15)).2 ∧
          input.Advances input' ∧ Offered I input' ∧ Cursor I p b' input'.accepted ∧
          input'.consumed = input.fastEnd ∧ input.fastEnd < input.bytes.length ∧
          g = .error (.inputLimitExceeded input.available) := by
  intro fuel
  induction fuel with
  | zero =>
    intro p b input ho h hfu
    rw [Bits.decodeLoop]
    by_cases hw : (f b.value).2 ≤ b.count
    · have he := h.sym_eq hf (Or.inl hw)
      simp only [hw, if_true]
      rw [he] at hw ⊢
      exact ⟨rfl, .refl _, ho, h.drop hw⟩
    · have hlt : b.count < (f (bitsAt I p 15)).2 := by
        by_contra hc
        rw [h.sym_eq hf (Or.inr (by omega))] at hw
        omega
      have hnone : input.bytes[input.consumed]? = none := List.getElem?_eq_none (by omega)
      have hload : b.loadByte input = (.ok false, b, input) := by unfold Bits.loadByte; rw [hnone]
      have hpos := h.pos
      have hcon := ho.consumed_le
      have := ho.fastEnd_le
      simp only [hw, if_false, hload]
      refine ⟨?_, .refl _, ho, h, by omega⟩
      simp only [Input.accepted, Input.available] at hpos ⊢
      omega
  | succ fuel ih =>
    intro p b input ho h hfu
    rw [Bits.decodeLoop]
    by_cases hw : (f b.value).2 ≤ b.count
    · have he := h.sym_eq hf (Or.inl hw)
      simp only [hw, if_true]
      rw [he] at hw ⊢
      exact ⟨rfl, .refl _, ho, h.drop hw⟩
    · have hlt : b.count < (f (bitsAt I p 15)).2 := by
        by_contra hc
        rw [h.sym_eq hf (Or.inr (by omega))] at hw
        omega
      simp only [hw, if_false]
      have h15 := (hf (bitsAt I p 15)).1
      have hl := loadByte_cursor ho h (by omega)
      rcases hb : b.loadByte input with ⟨r, b', input'⟩
      rw [hb] at hl
      have hpos := h.pos
      have hcon := ho.consumed_le
      rcases r with e | ok
      · obtain ⟨rfl, rfl, h3, h4, rfl⟩ := hl
        refine ⟨?_, .refl _, ho, h, h3, h4, rfl⟩
        simp only [Input.accepted, Input.available] at hpos ⊢
        omega
      · cases ok with
        | false =>
          obtain ⟨rfl, rfl, h3⟩ := hl
          refine ⟨?_, .refl _, ho, h, h3⟩
          have := ho.fastEnd_le
          simp only [Input.accepted, Input.available] at hpos ⊢
          omega
        | true =>
          obtain ⟨h1, h2, h3, h4⟩ := hl
          have hlen : input'.bytes = input.bytes := by rw [h2.1]
          have hfe : input'.fastEnd = input.fastEnd := by rw [h2.1]
          have htb : input'.totalBefore = input.totalBefore := by rw [h2.1]
          have hfuel : input'.bytes.length ≤ input'.consumed + fuel := by
            have hpos' := h4.pos
            simp only [Input.accepted] at hpos hpos'
            rw [hlen]
            omega
          have := ih p b' input' h3 h4 hfuel
          simp only
          rcases hr : b'.decodeLoop f (fuel + 1) input' with ⟨r, b'', input''⟩
          rw [hr] at this
          rcases r with v | _ | f
          · obtain ⟨g1, g4, g5⟩ := this
            exact ⟨g1, h2.trans g4, g5⟩
          · obtain ⟨g1, g2, g3, g4, g5⟩ := this
            rw [h2.available] at g1
            exact ⟨g1, h2.trans g2, g3, g4, by rw [g5, hlen]⟩
          · obtain ⟨g1, g2, g3, g4, g5, g6, g7⟩ := this
            rw [h2.available] at g1 g7
            exact ⟨g1, h2.trans g2, g3, g4, by rw [g5, hfe], by rwa [hlen, hfe] at g6, g7⟩

theorem decode_sim {f : ℕ → ℕ × ℕ} (hf : Reader.PrefixLaw f) {need : Option ℕ}
    (hn : ∀ w ∈ need, ∀ v, (f v).2 ≤ w) {p : ℕ} {b : Bits} {input : Input}
    (ho : Offered I input) (h : Cursor I p b input.accepted) :
    match b.decode need f input with
    | (.done s, b', input') => s = (f (bitsAt I p 15)).1 ∧ input.Advances input' ∧
        Offered I input' ∧
        Cursor I (p + (f (bitsAt I p 15)).2) b' input'.accepted
    | (.empty, b', input') => 8 * input.available < p + (f (bitsAt I p 15)).2 ∧
        input.Advances input' ∧
        Offered I input' ∧ Cursor I p b' input'.accepted ∧ input'.consumed = input.bytes.length
    | (.fault g, b', input') => 8 * input.available < p + (f (bitsAt I p 15)).2 ∧
        input.Advances input' ∧ Offered I input' ∧ Cursor I p b' input'.accepted ∧
        input'.consumed = input.fastEnd ∧ input.fastEnd < input.bytes.length ∧
        g = .error (.inputLimitExceeded input.available) := by
  unfold Bits.decode
  cases need with
  | none => exact decodeLoop_sim hf _ p b input ho h (by omega)
  | some k =>
    have hk := hn k rfl
    have fast : ∀ {b' : Bits} {input' : Input}, Cursor I p b' input'.accepted →
        (f b'.value).2 ≤ b'.count → (b'.decodeFast f).1 = (f (bitsAt I p 15)).1 ∧
          Cursor I (p + (f (bitsAt I p 15)).2) (b'.decodeFast f).2 input'.accepted :=
      fun hc hw => by
        have he := hc.sym_eq hf (Or.inl hw)
        unfold Bits.decodeFast
        rw [he] at hw ⊢
        exact ⟨rfl, hc.drop hw⟩
    simp only
    by_cases hkb : k ≤ b.count
    · obtain ⟨e1, e2⟩ := fast h (le_trans (hk _) hkb)
      rw [if_pos hkb]
      exact ⟨e1, .refl _, ho, e2⟩
    · rw [if_neg hkb]
      have hr := refill_cursor ho h
      rcases hb : b.refill input with ⟨ok, b', input'⟩
      rw [hb] at hr
      obtain ⟨r1, r2, r3, r4, r5, r6⟩ := hr
      cases ok with
      | true =>
        have h15 := (hf b'.value).1
        obtain ⟨e1, e2⟩ := fast r3 (by have := r5 rfl; omega)
        exact ⟨e1, r1, r2, e2⟩
      | false =>
        obtain ⟨rfl, rfl⟩ := r6 rfl
        exact decodeLoop_sim hf _ p b' input' ho h (Nat.le_add_left _ _)

/-- The result of a run on the reservoir matches the outcome `r` of `Reader.run`
at `p`: the cursor stands where that ended, or at `p` again where it stalled,
and then the whole of the call's input was accepted or the limit reached. -/
def Matches {α : Type} (I : List UInt8) (input : Input) (p : ℕ) (r : Reader.Result Fault α) :
    Exec α × Bits × Input → Prop
  | (.done a, b', input') => input.Advances input' ∧ Offered I input' ∧
      ∃ q, r = .done a q ∧ Cursor I q b' input'.accepted
  | (.empty, b', input') => input.Advances input' ∧ Offered I input' ∧
      r = .stall ∧ Cursor I p b' input'.accepted ∧ input'.consumed = input.bytes.length
  | (.fault f, b', input') => input.Advances input' ∧ Offered I input' ∧
      ((∃ q, r = .failed f q ∧ Cursor I q b' input'.accepted) ∨
        (r = .stall ∧ Cursor I p b' input'.accepted ∧ input'.consumed = input.fastEnd ∧
          input.fastEnd < input.bytes.length ∧ f = .error (.inputLimitExceeded input.available)))

/-- What is read further on matches from where the reader started, if it cannot
stall any more or nothing was accepted yet. -/
theorem Matches.of_advances {α : Type} {input input' : Input} {p q : ℕ} {r : Reader.Result Fault α}
    {x : Exec α × Bits × Input} (h : Matches I input' q r x) (ha : input.Advances input')
    (hq : r ≠ .stall ∨ q = p) : Matches I input p r x := by
  obtain ⟨x, b'', input''⟩ := x
  have hav := ha.available
  rcases x with v | _ | f
  · exact ⟨ha.trans h.1, h.2⟩
  · obtain ⟨g1, g2, g3, g4, g5⟩ := h
    obtain rfl := hq.resolve_left (not_not.mpr g3)
    exact ⟨ha.trans g1, g2, g3, g4, by rw [g5, ha.1]⟩
  · obtain ⟨g1, g2, g3 | ⟨g3, g4, g5, g6, g7⟩⟩ := h
    · exact ⟨ha.trans g1, g2, Or.inl g3⟩
    · obtain rfl := hq.resolve_left (not_not.mpr g3)
      rw [ha.1] at g5 g6
      exact ⟨ha.trans g1, g2, Or.inr ⟨g3, g4, g5, g6, by rw [g7, hav]⟩⟩

/-- A reader run on the reservoir does what it does on the operation's input:
it ends or fails where `Reader.run` does, and is short of input exactly where
that stalls. -/
theorem exec_sim {α : Type} {m : Reader Fault α} :
    ∀ {seen p : ℕ} {b : Bits} {input : Input}, (m.Atomic seen ∧ seen ≤ b.count ∨ m.Settled) →
      Offered I input → Cursor I p b input.accepted →
      Matches I input p (m.run I input.available p) (exec m b input) := by
  induction m with
  | pure a => exact fun _ ho h => ⟨.refl _, ho, _, rfl, h⟩
  | fail e => exact fun _ ho h => ⟨.refl _, ho, Or.inl ⟨_, rfl, h⟩⟩
  | peek n k ih =>
    intro seen p b input hm ho h
    rcases hm with ⟨⟨hn, hk⟩, hseen⟩ | hm
    · have hp := peekLoop_sim n hn n p b input ho h (by omega)
      unfold exec Bits.peek
      rcases hb : b.peekLoop n n input with ⟨r, b', input'⟩
      rw [hb] at hp
      rcases r with v | _ | f
      · obtain ⟨rfl, h2, h3, h4, h5, h6⟩ := hp
        have hle : p + n ≤ 8 * input.available := by
          have := h6.pos
          have := h5.consumed_le
          rw [← h4.available]
          simp only [Input.accepted, Input.available] at *
          omega
        have := ih (bitsAt I p n) (Or.inl ⟨hk _ (bitsAt_lt _ _ _), by omega⟩) h5 h6
        simp only [Reader.run, if_pos hle]
        rw [h4.available] at this
        exact this.of_advances h4 (Or.inr rfl)
      · obtain ⟨h1, h2⟩ := hp
        exact ⟨h2.1, h2.2.1, by simp only [Reader.run]; rw [if_neg (by omega)], h2.2.2⟩
      · obtain ⟨h1, h2, h3, h4⟩ := hp
        exact ⟨h2, h3, Or.inr ⟨by simp only [Reader.run]; rw [if_neg (by omega)], h4⟩⟩
    · exact hm.elim
  | drop n k ih =>
    intro seen p b input hm ho h
    rcases hm with ⟨⟨rfl, hk⟩, hseen⟩ | hm
    · exact (@ih 0 _ _ _ (Or.inr hk) ho (h.drop hseen)).of_advances (.refl _)
        (Or.inl (hk.run_ne_stall _ _ _))
    · exact hm.elim
  | sym need f k ih =>
    intro seen p b input hm ho h
    rcases hm with ⟨⟨rfl, ⟨hf, hn⟩, hk⟩, hseen⟩ | hm
    · have hp := decode_sim hf hn ho h
      unfold exec
      rcases hb : b.decode need f input with ⟨r, b', input'⟩
      rw [hb] at hp
      rcases r with s | _ | g
      · obtain ⟨rfl, h4, h5, h6⟩ := hp
        have hle : p + (f (bitsAt I p 15)).2 ≤ 8 * input.available := by
          have := h6.pos
          have := h5.consumed_le
          rw [← h4.available]
          simp only [Input.accepted, Input.available] at *
          omega
        have := @ih (f (bitsAt I p 15)).1 0 _ _ _ (Or.inr (hk _)) h5 h6
        simp only [Reader.run, if_pos hle]
        rw [h4.available] at this
        exact this.of_advances h4 (Or.inl ((hk _).run_ne_stall _ _ _))
      · obtain ⟨h1, h2⟩ := hp
        exact ⟨h2.1, h2.2.1, by simp only [Reader.run]; rw [if_neg (by omega)], h2.2.2⟩
      · obtain ⟨h1, h2, h3, h4⟩ := hp
        exact ⟨h2, h3, Or.inr ⟨by simp only [Reader.run]; rw [if_neg (by omega)], h4⟩⟩
    · exact hm.elim
  | align e k ih =>
    intro seen p b input hm ho h
    have hk : k.Settled := by rcases hm with ⟨⟨-, hk⟩, -⟩ | hk <;> exact hk
    have hpos := h.pos
    have hpad : Reader.padding p = b.count % 8 := by
      unfold Reader.padding
      simp only [Input.accepted] at hpos
      omega
    have hle : b.count % 8 ≤ b.count := Nat.mod_le _ _
    unfold exec Bits.align
    simp only [Reader.run, hpad, h.peek_eq hle]
    by_cases hz : bitsAt I p (b.count % 8) = 0
    · simp only [hz, ne_eq, not_true_eq_false, if_false]
      exact (@ih 0 _ _ _ (Or.inr hk) ho (h.drop hle)).of_advances (.refl _)
        (Or.inl (hk.run_ne_stall _ _ _))
    · simp only [ne_eq, hz, not_false_eq_true, if_true]
      exact ⟨.refl _, ho, Or.inl ⟨p, rfl, h⟩⟩

end Mbrotli
