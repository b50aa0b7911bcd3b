/-
# Which descriptions are accepted

`Accepts` is the unsplit reader's acceptance. Each stage is taken twice: what is accepted
from a builder at that stage is a description's rest (`codeLengths_sound`, `symbols_sound`,
`simpleSymbols_sound`), and a description's rest is accepted (`codeLengths_complete`,
`symbols_complete`, `simpleSymbols_complete`). What a builder holds is said in terms of the
description read so far: `Lengths`, and `Reads` for the lengths of the symbols.
-/
import Mathlib.Algebra.BigOperators.Group.List.Lemmas
import Mathlib.Algebra.BigOperators.Ring.List
import Mbrotli.Decompressor.Core.HuffmanRead

namespace Mbrotli

open Canonical BitString

/-! ### The code-length code -/

section CodeLengths

variable {small : ℕ → ℕ}

theorem kraft_codeLengths (h5 : ∀ s, small s ≤ lengthBits) :
    kraft (codeLengths small) = 1024 * LengthCode.spent small (List.range 18) := by
  have hword : ∀ ℓ, ℓ ≤ 5 → (if ℓ = 0 then 0 else 2 ^ (Canonical.maxLength - ℓ)) = 1024 * if ℓ = 0
      then 0 else 32 >>> ℓ := by
    decide
  unfold kraft codeLengths LengthCode.spent
  rw [List.map_map, ← List.sum_map_mul_left]
  congr 1
  exact List.map_congr_left fun s _ => hword _ (h5 s)

theorem usedSymbols_codeLengths (small : ℕ → ℕ) :
    usedSymbols (codeLengths small) = LengthCode.used small (List.range 18) := by
  unfold usedSymbols codeLengths LengthCode.used
  rw [List.countP_map, List.countP_eq_length_filter]
  rfl

theorem getD_codeLengths (small : ℕ → ℕ) {s : ℕ} (hs : s < 18) :
    (codeLengths small).getD s 0 = small s := by
  simp [codeLengths, hs]

theorem codeLengths_le (h5 : ∀ s, small s ≤ lengthBits) : ∀ ℓ ∈ codeLengths small, ℓ ≤ lengthBits :=
  fun ℓ hℓ => by
  obtain ⟨s, -, rfl⟩ := List.mem_map.1 hℓ
  exact h5 s

theorem lists_codeLengths (h5 : ∀ s, small s ≤ lengthBits) :
    LengthCode.lists small = ofLengths (codeLengths small) := by
  funext ℓ
  unfold LengthCode.lists ofLengths LengthCode.symbolsOf
  have hlen : (codeLengths small).length = 18 := by simp [codeLengths]
  rw [hlen]
  have hfilter : ((List.range 18).filter fun s => decide (small s = ℓ)) =
      (List.range 18).filter fun s => decide ((codeLengths small).getD s 0 = ℓ) :=
    List.filter_congr fun s hs => by rw [getD_codeLengths small (List.mem_range.1 hs)]
  by_cases h0 : ℓ = 0
  · rw [if_neg (by omega), if_pos h0]
  · rw [if_neg h0]
    by_cases hℓ : ℓ ≤ lengthBits
    · rw [if_pos ⟨Nat.one_le_iff_ne_zero.2 h0, hℓ⟩]
      exact hfilter
    · rw [if_neg (by omega), ← hfilter]
      refine (List.filter_eq_nil_iff.2 fun s _ => ?_).symm
      have := h5 s
      simp only [decide_eq_true_eq]
      omega

/-- A symbol takes at most the whole space. -/
theorem LengthCode.spent_le (lengths : ℕ → ℕ) (l : List ℕ) :
    spent lengths l ≤ 32 * used lengths l := by
  unfold spent used
  induction l with
  | nil => simp
  | cons s l ih =>
    rw [List.map_cons, List.sum_cons, List.filter_cons]
    by_cases h0 : lengths s = 0
    · simpa [h0] using ih
    · have : 32 >>> lengths s ≤ 32 := Nat.shiftRight_le 32 _
      rw [if_neg h0, if_pos (by simpa using h0), List.length_cons]
      omega

/-- A code that a description may use for its lengths. -/
structure SmallCode (small : List ℕ) : Prop where
  length : small.length = 18
  le : ∀ ℓ ∈ small, ℓ ≤ lengthBits
  code : kraft small = 2 ^ 15 ∨ usedSymbols small = 1

theorem SmallCode.le15 {small : List ℕ} (h : SmallCode small) : ∀ ℓ ∈ small, ℓ ≤ 15 := fun ℓ hℓ =>
  le_trans (h.le ℓ hℓ) (by decide)

/-- The table of the code-length code finds what a string spells. -/
theorem lookup_build_of_spells (h5 : ∀ s, small s ≤ lengthBits)
    (hcode : SmallCode (codeLengths small)) {v s width : ℕ}
    (h : Canonical.Spells (codeLengths small) v s width) :
    (LengthCode.build small (LengthCode.used small (List.range 18))).lookup v = (s, width) := by
  have hready : LengthCode.used small (List.range 18) = 1 ∨
      LengthCode.spent small (List.range 18) = 32 := by
    have h1 := hcode.code
    rw [kraft_codeLengths h5, usedSymbols_codeLengths] at h1
    omega
  obtain ⟨c, hc, hlookup⟩ := LengthCode.lookup_build (fun s _ => h5 s) hready
  rw [lists_codeLengths h5] at hc
  rw [(hlookup v).1]
  exact lookup_of_spells hcode.le15 hc h

end CodeLengths

/-! ### Growing the lengths -/

/-- A repetition that is continued grows. -/
theorem Expansion.lt_total (before width extra : ℕ) : before < total before width extra := by
  unfold total
  split
  · omega
  · have := Nat.mul_le_mul_left (before - 2) (Nat.two_pow_pos width)
    omega

theorem Expansion.length_lt_token (x : Expansion) (t : Token) :
    x.lengths.length < (x.token t).lengths.length := by
  have hrun : ∀ symbol width length extra,
      x.lengths.length < (x.run symbol width length extra).lengths.length := by
    intro symbol width length extra
    have := lt_total (if x.kind = symbol then x.repeated else 0) width extra
    simp only [run, List.length_append, List.length_replicate]
    omega
  cases t with
  | length ℓ => simp [token]
  | again extra => exact hrun _ _ _ _
  | zeros extra => exact hrun _ _ _ _

section Growing

variable {lengths : List ℕ}

theorem kraft_append_replicate (lengths : List ℕ) (n ℓ : ℕ) :
    kraft (lengths ++ List.replicate n ℓ) = kraft lengths + if ℓ = 0 then 0
    else n * 2 ^ (15 - ℓ) := by
  unfold kraft
  rw [List.map_append, List.sum_append, List.map_replicate, List.sum_replicate]
  by_cases h0 : ℓ = 0
  · simp [h0]
  · simp [h0, Canonical.maxLength]

theorem appendAt_appendAt (lists : ℕ → List ℕ) (ℓ : ℕ) (l l' : List ℕ) :
    appendAt (appendAt lists ℓ l) ℓ l' = appendAt lists ℓ (l ++ l') := by
  unfold appendAt
  rw [Function.update_idem, Function.update_self, List.append_assoc]

theorem appendAt_nil (lists : ℕ → List ℕ) (ℓ : ℕ) : appendAt lists ℓ [] = lists := by
  unfold appendAt
  rw [List.append_nil, Function.update_eq_self]

/-- A run of one length. -/
theorem ofLengths_append_replicate (lengths : List ℕ) (ℓ n : ℕ) :
    ofLengths (lengths ++ List.replicate n ℓ) =
    if ℓ = 0 then ofLengths lengths else appendAt (ofLengths lengths) ℓ
    (List.range' lengths.length n) := by
  induction n with
  | zero => simp [appendAt_nil]
  | succ n ih =>
    rw [List.replicate_succ', ← List.append_assoc, ofLengths_concat, ih]
    by_cases h0 : ℓ = 0
    · rw [if_pos h0, if_pos h0, if_pos h0]
    · rw [if_neg h0, if_neg h0, if_neg h0, appendAt_appendAt, List.length_append,
        List.length_replicate,
        List.range'_concat, Nat.one_mul]

end Growing

namespace Builder

variable {alphabet : ℕ} {b b' : Builder} {I : List UInt8} {B p q : ℕ}

/-- The unsplit reader accepts a description that ends at bit `q`. -/
def Accepts (I : List UInt8) (B alphabet : ℕ) (b : Builder) (p : ℕ) (b' : Builder) (q : ℕ) : Prop :=
  ∃ p', parse I B alphabet b p = (.done () q, b', p')

theorem accepts_next {b₁ : Builder} {p₁ : ℕ} (h : b.Reading alphabet)
    (hr : (b.step alphabet).run I B p = .done (b₁, false) p₁) :
    Accepts I B alphabet b p b' q ↔ Accepts I B alphabet b₁ p₁ b' q := by
  unfold Accepts
  rw [parse_next h hr]

theorem accepts_last {b₁ : Builder} {p₁ : ℕ} (h : b.Reading alphabet)
    (hr : (b.step alphabet).run I B p = .done (b₁, true) p₁) :
    Accepts I B alphabet b p b' q ↔ b₁ = b' ∧ p₁ = q := by
  unfold Accepts
  rw [parse_eq h, hr]
  constructor
  · rintro ⟨p', he⟩
    simp only [Prod.mk.injEq, Reader.Result.done.injEq, true_and] at he
    exact ⟨he.2.1, he.1⟩
  · rintro ⟨rfl, rfl⟩
    exact ⟨p, rfl⟩

theorem not_accepts_failed {f : Fault} {p₁ : ℕ} (h : b.Reading alphabet)
    (hr : (b.step alphabet).run I B p = .failed f p₁) : ¬ Accepts I B alphabet b p b' q := by
  rintro ⟨p', he⟩
  rw [parse_eq h, hr] at he
  simp at he

theorem not_accepts_stall (h : b.Reading alphabet) (hr : (b.step alphabet).run I B p = .stall) :
    ¬ Accepts I B alphabet b p b' q := by
  rintro ⟨p', he⟩
  rw [parse_eq h, hr] at he
  simp at he

/-- The acceptance of one round that may stall. -/
theorem accepts_of_run {b₁ : Builder} {width : ℕ} (h : b.Reading alphabet)
    (hr : (b.step alphabet).run I B p = if p + width ≤ 8 * B then .done (b₁, false) (p + width)
      else .stall) :
    Accepts I B alphabet b p b' q ↔ p + width ≤ 8 * B ∧
    Accepts I B alphabet b₁ (p + width) b' q := by
  by_cases hw : p + width ≤ 8 * B
  · rw [if_pos hw] at hr
    rw [accepts_next h hr]
    exact (and_iff_right hw).symm
  · rw [if_neg hw] at hr
    exact ⟨fun ha => absurd ha (not_accepts_stall h hr), fun ha => absurd ha.1 hw⟩

/-! ### Reading the code-length code -/

/-- The builder with one more length of the code-length code. -/
def store (b : Builder) (value : ℕ) : Builder :=
  if value ≠ 0 then
    { b with
      small := Function.update b.small (order.getD b.index 0) value, index := b.index + 1
      count := b.count + 1, space := b.space - (32 >>> value : ℕ) }
  else { b with small := Function.update b.small (order.getD b.index 0) value, index := b.index +
    1 }

theorem store_stage (value : ℕ) : (b.store value).stage = b.stage := by
  unfold store
  split <;> rfl

theorem store_small (value : ℕ) :
    (b.store value).small = Function.update b.small (order.getD b.index 0) value := by
  unfold store
  split <;> rfl

theorem store_index (value : ℕ) : (b.store value).index = b.index + 1 := by
  unfold store
  split <;> rfl

theorem Lengths.store (h : b.Lengths) (hi : b.index < 18) {value : ℕ} (hv : value ≤ lengthBits) :
    (b.store value).Lengths := by
  refine h.read hi hv (store_small value) (store_index value) ?_ ?_
  · unfold Builder.store
    split <;> rfl
  · unfold Builder.store
    split
    · rfl
    · simp

/-- Every string starts with the pattern of one length. -/
theorem lengthField_cases : ∀ w, w < 16 → ∃ value, value ≤ 5 ∧ w % 2 ^ (lengthField value).1 =
    (lengthField value).2 := by
  decide

theorem lengthField_le (value : ℕ) : (lengthField value).1 ≤ 4 := by
  unfold lengthField
  split <;> simp

theorem codeLengths_step (halpha : ¬ (alphabet = 0 ∨ maxAlphabet < alphabet))
    (hstage : b.stage = .codeLengths)
    (hmore : b.index < 18 ∧ 0 < b.space) : b.step alphabet =
      .peek 2 fun first =>
        if first = 0 then .drop 2 (.pure (b.store 0, false))
        else if first = 1 then .drop 2 (.pure (b.store 4, false))
        else if first = 2 then .drop 2 (.pure (b.store 3, false))
        else .peek 3 fun next =>
          if next = 3 then .drop 3 (.pure (b.store 2, false))
          else .peek 4 fun last => .drop 4
          (.pure (b.store (if last = 7 then 1 else 5), false)) := by
  cases b
  cases hstage
  rw [step, if_neg halpha]
  dsimp only
  rw [if_pos hmore]
  rfl

/-- A round of the code lengths reads the length whose pattern stands there. -/
theorem codeLengths_run (halpha : ¬ (alphabet = 0 ∨ maxAlphabet < alphabet))
    (hstage : b.stage = .codeLengths)
    (hmore : b.index < 18 ∧ 0 < b.space) {value : ℕ} (hv : value ≤ 5)
    (hbits : bitsAt I p (lengthField value).1 = (lengthField value).2) :
    (b.step alphabet).run I B p =
      if p + (lengthField value).1 ≤ 8 * B then .done (b.store value, false)
      (p + (lengthField value).1) else .stall := by
  have h2 : bitsAt I p 2 = bitsAt I p 4 % 2 ^ 2 := (bitsAt_mod I p 4 2 (by decide)).symm
  have h3 : bitsAt I p 3 = bitsAt I p 4 % 2 ^ 3 := (bitsAt_mod I p 4 3 (by decide)).symm
  have h16 := bitsAt_lt I p 4
  have hw : bitsAt I p (lengthField value).1 = bitsAt I p 4 % 2 ^ (lengthField value).1 :=
    (bitsAt_mod I p 4 _ (lengthField_le value)).symm
  rw [hw] at hbits
  rw [codeLengths_step halpha hstage hmore, Reader.run]
  rw [h2]
  interval_cases value <;> simp only [lengthField] at hbits ⊢
  · rw [if_pos (show bitsAt I p 4 % 2 ^ 2 = 0 from hbits)]
    rfl
  · have e0 : ¬ bitsAt I p 4 % 2 ^ 2 = 0 := by omega
    have e1 : ¬ bitsAt I p 4 % 2 ^ 2 = 1 := by omega
    have e2 : ¬ bitsAt I p 4 % 2 ^ 2 = 2 := by omega
    have e3 : ¬ bitsAt I p 4 % 2 ^ 3 = 3 := by omega
    have e4 : bitsAt I p 4 = 7 := by omega
    rw [if_neg e0, if_neg e1, if_neg e2, Reader.run, h3, if_neg e3, Reader.run, if_pos e4]
    simp only [Reader.run]
    split
    · split
      · rfl
      · rw [if_neg (by omega)]
    · rw [if_neg (by omega)]
  · have e0 : ¬ bitsAt I p 4 % 2 ^ 2 = 0 := by omega
    have e1 : ¬ bitsAt I p 4 % 2 ^ 2 = 1 := by omega
    have e2 : ¬ bitsAt I p 4 % 2 ^ 2 = 2 := by omega
    rw [if_neg e0, if_neg e1, if_neg e2, Reader.run, h3, if_pos hbits]
    simp only [Reader.run]
    split
    · rfl
    · rw [if_neg (by omega)]
  · have e0 : ¬ bitsAt I p 4 % 2 ^ 2 = 0 := by omega
    have e1 : ¬ bitsAt I p 4 % 2 ^ 2 = 1 := by omega
    rw [if_neg e0, if_neg e1, if_pos hbits]
    rfl
  · have e0 : ¬ bitsAt I p 4 % 2 ^ 2 = 0 := by omega
    rw [if_neg e0, if_pos hbits]
    rfl
  · have e0 : ¬ bitsAt I p 4 % 2 ^ 2 = 0 := by omega
    have e1 : ¬ bitsAt I p 4 % 2 ^ 2 = 1 := by omega
    have e2 : ¬ bitsAt I p 4 % 2 ^ 2 = 2 := by omega
    have e3 : ¬ bitsAt I p 4 % 2 ^ 3 = 3 := by omega
    have e4 : ¬ bitsAt I p 4 = 7 := by omega
    rw [if_neg e0, if_neg e1, if_neg e2, Reader.run, h3, if_neg e3, Reader.run, if_neg e4]
    simp only [Reader.run]
    split
    · split
      · rfl
      · rw [if_neg (by omega)]
    · rw [if_neg (by omega)]

/-- The builder's lists are those of the lengths. -/
structure Assigned (lengths : List ℕ) (bound : ℕ) (b : Builder) : Prop where
  chained : Chained b (ofLengths lengths) bound
  last : Canonical.symbols (ofLengths lengths) ≠ [] →
    b.last ∈ Canonical.symbols (ofLengths lengths) ∧
    ∀ s ∈ Canonical.symbols (ofLengths lengths), s ≤ b.last

/-- The builder has read the lengths of `x` with a code of the lengths `small`. -/
structure Reads (small : List ℕ) (alphabet : ℕ) (x : Expansion) (b : Builder) : Prop where
  lookup : ∀ v s width, Canonical.Spells small v s width → b.code.lookup v = (s, width)
  assigned : b.Assigned x.lengths b.index
  index : b.index = x.lengths.length
  le : b.index ≤ alphabet
  space : b.space = 32768 - (kraft x.lengths : ℤ)
  previous : b.previous = x.previous
  range : 1 ≤ x.previous ∧ x.previous ≤ 15
  lengths_le : ∀ ℓ ∈ x.lengths, ℓ ≤ 15
  /-- The count of the repetition right before is that of the length it repeated. -/
  repeated : x.kind = 0 ∧ b.repeated = 0 ∨ x.kind = 16 ∧ b.repeatLength = x.previous ∧
    b.repeated = x.repeated ∨
    x.kind = 17 ∧ b.repeatLength = 0 ∧ b.repeated = x.repeated

/-- The builder before the first symbol. -/
def opened (b : Builder) : Builder :=
  let b := { b with code := LengthCode.build b.small b.count }.clear
  { b with index := 0, space := 32768, previous := 8, repeated := 0, repeatLength :=
        0, stage := .symbols }

theorem codeLengths_end (halpha : ¬ (alphabet = 0 ∨ maxAlphabet < alphabet))
    (hstage : b.stage = .codeLengths)
    (hmore : ¬ (b.index < 18 ∧ 0 < b.space)) : (b.step alphabet).run I B p =
      if b.space < 0 ∨ (b.count ≠ 1 ∧ b.space ≠ 0) then .failed InvalidDataKind.huffman.fault p
      else .done (b.opened, false) p := by
  unfold step
  rw [if_neg halpha, hstage]
  dsimp only
  rw [if_neg hmore]
  split <;> rfl

theorem Lengths.kraft_eq (h : b.Lengths) :
    (kraft (codeLengths b.small) : ℤ) = 32768 - 1024 * b.space := by
  have h1 := kraft_codeLengths h.le
  have h2 := h.space
  omega

theorem Lengths.usedSymbols_eq (h : b.Lengths) : usedSymbols (codeLengths b.small) = b.count := by
  rw [h.count, usedSymbols_codeLengths]

/-- The code-length code is read; the builder may start on the symbols. -/
theorem Lengths.opened (h : b.Lengths) (hdone : b.count = 1 ∨ b.space = 0) :
    SmallCode (codeLengths b.small) ∧ b.opened.stage = .symbols ∧ b.opened.Reading alphabet ∧
      Reads (codeLengths b.small) alphabet {} b.opened := by
  have hcode : SmallCode (codeLengths b.small) := by
    refine ⟨by simp [codeLengths], codeLengths_le h.le, ?_⟩
    have h1 := h.kraft_eq
    have h2 := h.usedSymbols_eq
    omega
  have hnil : ofLengths ([] : List ℕ) = fun _ => [] := by
    funext ℓ
    simp [ofLengths]
  have hempty : Canonical.symbols (fun _ => []) = [] := List.flatMap_eq_nil_iff.2 fun _ _ => rfl
  have hsame : SameLists b.clear b.opened := ⟨rfl, rfl, rfl, rfl, rfl⟩
  refine ⟨hcode, rfl, reading_listing rfl (h.listing hdone rfl hsame rfl rfl), ?_⟩
  refine ⟨fun v s width hs => ?_, ⟨?_, fun hne => ?_⟩, rfl, Nat.zero_le _, rfl,
    rfl, by decide, by simp, Or.inl ⟨rfl, rfl⟩⟩
  · have := lookup_build_of_spells h.le hcode hs
    rw [← h.count] at this
    exact this
  · rw [hnil]
    exact hsame.chained (Chained.clear b 0)
  · rw [hnil] at hne
    exact absurd hempty hne

/-- What is accepted from the code lengths on starts with lengths of a code. -/
theorem codeLengths_sound (halpha : ¬ (alphabet = 0 ∨ maxAlphabet < alphabet)) (n : ℕ) :
    ∀ {b : Builder} {p : ℕ},
    rounds alphabet b < n → b.stage = .codeLengths → b.Lengths → p ≤ 8 * B →
    Accepts I B alphabet b p b' q →
    ∃ rest b₁ p₁, Stores b.index b.small rest ∧ Spelled I p (rest.map lengthField) p₁ ∧ p₁ ≤ 8 * B ∧
      SmallCode (codeLengths (place b.index b.small rest)) ∧ b₁.stage = .symbols ∧
      b₁.Reading alphabet ∧
      Reads (codeLengths (place b.index b.small rest)) alphabet {} b₁ ∧
      Accepts I B alphabet b₁ p₁ b' q := by
  induction n with
  | zero => intro b p hn; exact absurd hn (Nat.not_lt_zero _)
  | succ n ih =>
    intro b p hn hstage h hp ha
    have hreading : b.Reading alphabet := reading_lengths hstage h
    have hkraft := h.kraft_eq
    have hused := h.usedSymbols_eq
    by_cases hmore : b.index < 18 ∧ 0 < b.space
    · obtain ⟨value, hv, hbits⟩ := lengthField_cases _ (bitsAt_lt I p 4)
      rw [bitsAt_mod I p 4 _ (lengthField_le value)] at hbits
      have hrun := codeLengths_run (B := B) halpha hstage hmore hv hbits
      obtain ⟨hw, ha⟩ := (accepts_of_run hreading hrun).1 ha
      rw [if_pos hw] at hrun
      have hless := run_rounds hreading hrun
      obtain ⟨rest, b₁, p₁, h1, h2, h3, h4⟩ :=
        ih (by omega) ((store_stage value).trans hstage) (h.store hmore.1 hv) hw ha
      rw [store_index, store_small] at h1 h4
      exact ⟨value :: rest, b₁, p₁, ⟨hmore.1, by omega, hv, h1⟩, ⟨hbits, h2⟩, h3, h4⟩
    · have hrun := codeLengths_end (I := I) (B := B) (p := p) halpha hstage hmore
      by_cases hbad : b.space < 0 ∨ (b.count ≠ 1 ∧ b.space ≠ 0)
      · rw [if_pos hbad] at hrun
        exact absurd ha (not_accepts_failed hreading hrun)
      · rw [if_neg hbad] at hrun
        have hi := h.index
        obtain ⟨h1, h2, h3, h4⟩ := h.opened (by omega)
        refine ⟨[], b.opened, p, ?_, rfl, hp, h1, h2, h3, h4, (accepts_next hreading hrun).1 ha⟩
        show _ ∨ _
        omega

/-- Lengths of a code are read up to the first symbol. -/
theorem codeLengths_complete (halpha : ¬ (alphabet = 0 ∨ maxAlphabet < alphabet)) {p₁ : ℕ}
    (hp₁ : p₁ ≤ 8 * B) :
    ∀ (rest : List ℕ) {b : Builder} {p : ℕ}, b.stage = .codeLengths → b.Lengths →
    Stores b.index b.small rest →
    Spelled I p (rest.map lengthField) p₁ →
    ∃ b₁ : Builder, SmallCode (codeLengths (place b.index b.small rest)) ∧ b₁.stage = .symbols ∧
    b₁.Reading alphabet ∧
      Reads (codeLengths (place b.index b.small rest)) alphabet {} b₁ ∧
      ∀ b' q, Accepts I B alphabet b₁ p₁ b' q → Accepts I B alphabet b p b' q
  | [], b, p, hstage, h, hs, hp => by
    obtain rfl : p = p₁ := hp
    have hkraft := h.kraft_eq
    have hused := h.usedSymbols_eq
    have hs : kraft (codeLengths b.small) = 2 ^ 15 ∨ b.index = 18 ∧
      usedSymbols (codeLengths b.small) = 1 := hs
    -- a code of one symbol takes at most half of the space
    have hspace : 0 ≤ b.space := by
      rcases hs with hs | ⟨-, hs⟩
      · omega
      · have h1 := h.space
        have h2 := LengthCode.spent_le b.small (List.range 18)
        rw [← h.count, ← hused, hs] at h2
        omega
    have hrun := codeLengths_end (I := I) (B := B) (p := p) halpha hstage (by omega)
    rw [if_neg (by omega)] at hrun
    obtain ⟨h1, h2, h3, h4⟩ := h.opened (by omega)
    exact ⟨b.opened, h1, h2, h3, h4, fun b' q => (accepts_next (reading_lengths hstage h) hrun).2⟩
  | value :: rest, b, p, hstage, h, hs, hp => by
    obtain ⟨hi, hk, hv, hs⟩ := hs
    obtain ⟨hbits, hp⟩ := hp
    have hkraft := h.kraft_eq
    have hrun := codeLengths_run (B := B) halpha hstage (by omega) hv hbits
    have hle := le_trans hp.le hp₁
    rw [← store_index value, ← store_small value] at hs
    obtain ⟨b₁, h1, h2, h3, h4, h5⟩ :=
      codeLengths_complete halpha hp₁ rest ((store_stage value).trans hstage)
        (h.store hi hv) hs hp
    rw [store_index, store_small] at h1 h4
    exact ⟨b₁, h1, h2, h3, h4, fun b' q ha => (accepts_of_run (reading_lengths hstage h) hrun).2
      ⟨hle, h5 b' q ha⟩⟩

/-! ### Reading the lengths of the symbols -/

/-- The builder with the length of one more symbol. -/
def literal (b : Builder) (symbol : ℕ) : Builder :=
  let b := if symbol ≠ 0 then
      { b.push b.index symbol with previous := symbol, space := b.space - (32768 >>> symbol : ℕ) }
    else b
  { b with index := b.index + 1, repeated := 0 }

/-- The length a repetition repeats, how often the ones right before it did, and how often
it does in all. -/
def repeats (b : Builder) (symbol extra : ℕ) : ℕ × ℕ × ℕ :=
  let length := if symbol = 16 then b.previous else 0
  let before := if b.repeatLength ≠ length then 0 else b.repeated
  (length, before, (if before = 0 then 0 else (before - 2) <<< (symbol - 14)) + extra + 3)

/-- The builder with `repeated` symbols of a length, `before` of which it had already. -/
def again (b : Builder) (length before repeated : ℕ) : Builder :=
  let stop := b.index + (repeated - before)
  let b := { b with repeatLength := length, repeated, stage := .symbols }
  let b := if length ≠ 0 then
      { b.pushRun b.index stop length
        with space := b.space - ((repeated - before) <<< (15 - length) : ℕ) }
    else b
  { b with index := stop }

theorem symbols_step (halpha : ¬ (alphabet = 0 ∨ maxAlphabet < alphabet))
    (hstage : b.stage = .symbols)
    (hspace : 0 < b.space) (hindex : b.index ≠ alphabet) : b.step alphabet =
      .sym (some lengthBits) b.code.lookup fun symbol =>
        if symbol < 16 then .pure (b.literal symbol, false) else .pure
        ({ b with stage := .repeat symbol }, false) := by
  cases b
  cases hstage
  rw [step, if_neg halpha]
  dsimp only at hspace hindex ⊢
  rw [if_neg (by omega), if_neg (by omega)]
  rfl

theorem repeat_step (halpha : ¬ (alphabet = 0 ∨ maxAlphabet < alphabet)) {symbol : ℕ}
    (hstage : b.stage = .repeat symbol) :
    b.step alphabet = .peek (symbol - 14) fun extra => .drop (symbol - 14)
      (if alphabet < b.index + ((b.repeats symbol extra).2.2 - (b.repeats symbol extra).2.1)
        then .fail InvalidDataKind.huffman.fault
        else .pure
        (b.again (b.repeats symbol extra).1 (b.repeats symbol extra).2.1
          (b.repeats symbol extra).2.2, false)) := by
  cases b
  cases hstage
  rw [step, if_neg halpha]
  rfl

namespace Reads

variable {small : List ℕ} {x : Expansion}

/-- One more length. -/
theorem literal (h : Reads small alphabet x b) (ha : alphabet ≤ maxAlphabet)
    (hlt : b.index < alphabet) {ℓ : ℕ} (h16 : ℓ < 16) :
    Reads small alphabet (x.token (.length ℓ)) (b.literal ℓ) := by
  have hkraft : kraft (x.lengths ++ [ℓ]) = kraft x.lengths + if ℓ = 0 then 0 else 2 ^ (15 - ℓ) := by
    have := kraft_append_replicate x.lengths 1 ℓ
    rwa [List.replicate_one, Nat.one_mul] at this
  have hle : ∀ m ∈ x.lengths ++ [ℓ], m ≤ 15 := fun m hm => by
    rcases List.mem_append.1 hm with hm | hm
    · exact h.lengths_le m hm
    · rw [List.mem_singleton.1 hm]
      omega
  by_cases h0 : ℓ = 0
  · subst h0
    have hlists : ofLengths (x.lengths ++ [0]) = ofLengths x.lengths := by
      rw [ofLengths_concat, if_pos rfl]
    have hsame : SameLists b (b.literal 0) := ⟨rfl, rfl, rfl, rfl, rfl⟩
    refine ⟨h.lookup, ⟨?_, ?_⟩, ?_, hlt, ?_, h.previous, h.range, hle, Or.inl ⟨rfl, rfl⟩⟩
    · show Chained _ (ofLengths (x.lengths ++ [0])) _
      rw [hlists]
      exact (hsame.chained h.assigned.chained).mono (Nat.le_succ _)
    · show Canonical.symbols (ofLengths (x.lengths ++ [0])) ≠ [] → _
      rw [show (x.token (.length 0)).lengths = x.lengths ++ [0] from rfl, hlists]
      exact h.assigned.last
    · show b.index + 1 = (x.lengths ++ [0]).length
      rw [List.length_append, h.index]
      rfl
    · show b.space = 32768 - (kraft (x.lengths ++ [0]) : ℤ)
      rw [hkraft, if_pos rfl, Nat.add_zero]
      exact h.space
  · have h1 : 1 ≤ ℓ := Nat.one_le_iff_ne_zero.2 h0
    have hlists : ofLengths (x.lengths ++ [ℓ]) = appendAt (ofLengths x.lengths) ℓ [b.index] := by
      rw [ofLengths_concat, if_neg h0, h.index]
    have hpush :=
      h.assigned.chained.push h1 (by omega) (lt_of_lt_of_le hlt (le_trans ha (by decide)))
        fun m hm => lt_irrefl _ (h.assigned.chained.lt m _ hm)
    rw [max_eq_right (Nat.le_succ _), ← hlists] at hpush
    obtain ⟨-, p2, p3⟩ := push_same (b := b) b.index ℓ
    have hliteral : b.literal ℓ = { b.push b.index ℓ with
        previous := ℓ, space := b.space - (32768 >>> ℓ : ℕ), index :=
          (b.push b.index ℓ).index + 1, repeated := 0 } := by
      unfold Builder.literal
      rw [if_pos h0]
    have hsame : SameLists (b.push b.index ℓ) (b.literal ℓ) := by
      rw [hliteral]
      exact ⟨rfl, rfl, rfl, rfl, rfl⟩
    have hindex : (b.literal ℓ).index = b.index + 1 := by
      rw [hliteral]
      exact congrArg (· + 1) p3
    have hlast : (b.literal ℓ).last = b.index := by
      rw [hliteral]
      rfl
    have hchained : Chained (b.literal ℓ) (ofLengths (x.lengths ++ [ℓ])) (b.literal ℓ).index := by
      rw [hindex]
      exact hsame.chained hpush
    refine ⟨fun v s width hs => ?_, ⟨hchained, fun _ => ⟨?_, fun s hs => ?_⟩⟩, ?_, ?_, ?_,
      ?_, ?_, hle, ?_⟩
    · rw [hliteral]
      show (b.push b.index ℓ).code.lookup v = _
      rw [p2]
      exact h.lookup v s width hs
    · show (b.literal ℓ).last ∈ Canonical.symbols (ofLengths (x.lengths ++ [ℓ]))
      rw [hlast, hlists]
      exact (mem_symbols_appendAt h1 (by omega)).2 (Or.inr (List.mem_singleton.2 rfl))
    · obtain ⟨m, -, -, hm⟩ := mem_symbols.1 hs
      have := hchained.lt m s hm
      rw [hlast]
      omega
    · show (b.literal ℓ).index = (x.lengths ++ [ℓ]).length
      rw [hindex, List.length_append, h.index]
      rfl
    · omega
    · show (b.literal ℓ).space = 32768 - (kraft (x.lengths ++ [ℓ]) : ℤ)
      have hword : (32768 >>> ℓ : ℕ) = 2 ^ (15 - ℓ) := by
        rw [Nat.shiftRight_eq_div_pow,
          show 32768 = 2 ^ ℓ * 2 ^ (15 - ℓ) by rw [← pow_add, show ℓ + (15 - ℓ) = 15 by omega]; rfl,
          Nat.mul_div_cancel_left _ (Nat.two_pow_pos _)]
      have hspace : (b.literal ℓ).space = b.space - (32768 >>> ℓ : ℕ) := by
        rw [hliteral]
      rw [hspace, hkraft, if_neg h0, h.space, hword]
      push_cast
      ring
    · rw [hliteral]
      exact (if_neg h0).symm
    · show 1 ≤ (if ℓ = 0 then x.previous else ℓ) ∧ (if ℓ = 0 then x.previous else ℓ) ≤ 15
      rw [if_neg h0]
      omega
    · rw [hliteral]
      exact Or.inl ⟨rfl, rfl⟩

/-- How often the repetitions right before did repeat. -/
theorem repeats (h : Reads small alphabet x b) {symbol : ℕ}
    (hsymbol : symbol = 16 ∨ symbol = 17) (extra : ℕ) :
    b.repeats symbol extra = (if symbol = 16 then x.previous else 0, if x.kind = symbol
      then x.repeated else 0,
      Expansion.total (if x.kind = symbol then x.repeated else 0) (symbol - 14) extra) := by
  have hp := h.previous
  have hr := h.range
  have hbefore : (if b.repeatLength ≠ (if symbol = 16 then b.previous else 0) then 0
    else b.repeated) =
      if x.kind = symbol then x.repeated else 0 := by
    rw [hp]
    rcases h.repeated with ⟨h1, h2⟩ | ⟨h1, h2, h3⟩ | ⟨h1, h2, h3⟩ <;> rcases hsymbol with rfl | rfl
    · simp [h1, h2]
    · simp [h1, h2]
    · simp [h1, h2, h3]
    · simp [h1, h2, show x.previous ≠ 0 by omega]
    · simp [h1, h2, show (0 : ℕ) ≠ x.previous by omega]
    · simp [h1, h2, h3]
  unfold Builder.repeats Expansion.total
  dsimp only
  rw [hbefore, hp, Nat.shiftLeft_eq]

/-- A repetition. -/
theorem again (h : Reads small alphabet x b) (ha : alphabet ≤ maxAlphabet)
    {symbol width length extra : ℕ}
    (hsymbol : symbol = 16 ∧ length = x.previous ∨ symbol = 17 ∧ length = 0)
    (hstop : (x.run symbol width length extra).lengths.length ≤ alphabet) :
    Reads small alphabet (x.run symbol width length extra)
    (b.again length (if x.kind = symbol then x.repeated else 0)
      (Expansion.total (if x.kind = symbol then x.repeated else 0) width extra)) := by
  have hrun : x.run symbol width length extra = { x with
      lengths :=
        x.lengths ++ List.replicate (Expansion.total (if x.kind = symbol then x.repeated
          else 0) width extra -
        if x.kind = symbol then x.repeated else 0) length
      kind := symbol
      repeated := Expansion.total (if x.kind = symbol then x.repeated else 0) width extra } := rfl
  have hgrows := Expansion.lt_total (if x.kind = symbol then x.repeated else 0) width extra
  rw [hrun] at hstop ⊢
  generalize (if x.kind = symbol then x.repeated else 0) = before at hgrows hstop ⊢
  generalize Expansion.total before width extra = repeated at hgrows hstop ⊢
  dsimp only at hstop
  rw [List.length_append, List.length_replicate, ← h.index] at hstop
  have hlength : length ≤ 15 := by
    have := h.range
    omega
  have hkraft := kraft_append_replicate x.lengths (repeated - before) length
  have hlists := ofLengths_append_replicate x.lengths length (repeated - before)
  have hle : ∀ m ∈ x.lengths ++ List.replicate (repeated - before) length, m ≤ 15 := fun m hm => by
    rcases List.mem_append.1 hm with hm | hm
    · exact h.lengths_le m hm
    · rw [List.eq_of_mem_replicate hm]
      exact hlength
  have hcount : b.index + (repeated - before) =
      (x.lengths ++ List.replicate (repeated - before) length).length := by
    rw [List.length_append, List.length_replicate, h.index]
  have hrepeated : symbol = 0 ∧ repeated = 0 ∨ symbol = 16 ∧ length = x.previous ∧
    repeated = repeated ∨
      symbol = 17 ∧ length = 0 ∧ repeated = repeated := by
    rcases hsymbol with ⟨h1, h2⟩ | ⟨h1, h2⟩
    · exact Or.inr (Or.inl ⟨h1, h2, rfl⟩)
    · exact Or.inr (Or.inr ⟨h1, h2, rfl⟩)
  by_cases h0 : length = 0
  · rw [if_pos h0] at hlists hkraft
    have hagain : b.again length before repeated = { b with
        repeatLength := length, repeated, stage := .symbols,
            index := b.index + (repeated - before) } := by
      subst h0
      rfl
    rw [hagain]
    refine ⟨h.lookup, ⟨?_, ?_⟩, hcount, hstop, ?_, h.previous, h.range, hle, hrepeated⟩
    · have hsame : SameLists b { b with
          repeatLength := length, repeated, stage := .symbols, index :=
            b.index + (repeated - before) } := ⟨rfl, rfl, rfl, rfl, rfl⟩
      show Chained _ (ofLengths _) _
      rw [hlists]
      exact (hsame.chained h.assigned.chained).mono (Nat.le_add_right _ _)
    · show Canonical.symbols (ofLengths _) ≠ [] → _
      dsimp only
      rw [hlists]
      exact h.assigned.last
    · show b.space = _
      dsimp only
      rw [hkraft, Nat.add_zero]
      exact h.space
  · rw [if_neg h0] at hlists hkraft
    have h1 : 1 ≤ length := Nat.one_le_iff_ne_zero.2 h0
    obtain ⟨b₀, hb₀⟩ : ∃ b₀ : Builder,
      b₀ = { b with repeatLength := length, repeated, stage := .symbols } := ⟨_, rfl⟩
    have hagain : b.again length before repeated =
      { b₀.pushRun b.index (b.index + (repeated - before)) length with
        space := b.space - ((repeated - before) <<< (15 - length) : ℕ), index :=
          b.index + (repeated - before) } := by
      unfold Builder.again
      dsimp only
      rw [if_pos h0, hb₀]
    have hsame₀ : SameLists b b₀ := by
      rw [hb₀]
      exact ⟨rfl, rfl, rfl, rfl, rfl⟩
    have hpush :=
      (hsame₀.chained h.assigned.chained).pushRun h1 hlength (show b.index <
        b.index + (repeated - before) by omega)
      (le_trans hstop (le_trans ha (by decide))) le_rfl
    rw [Nat.add_sub_cancel_left, h.index, ← hlists, ← h.index] at hpush
    obtain ⟨-, p2, p3⟩ := pushRun_same (b := b₀) b.index (b.index + (repeated - before)) length
    have hsame : SameLists (b₀.pushRun b.index (b.index + (repeated - before)) length)
        (b.again length before repeated) := by
      rw [hagain]
      exact ⟨rfl, rfl, rfl, rfl, rfl⟩
    have hindex : (b.again length before repeated).index = b.index + (repeated - before) := by
      rw [hagain]
    have hlast : (b.again length before repeated).last = b.index + (repeated - before) - 1 := by
      rw [hagain]
      rfl
    have hchained : Chained (b.again length before repeated)
        (ofLengths (x.lengths ++ List.replicate (repeated - before) length))
        (b.again length before repeated).index := by
      rw [hindex]
      exact hsame.chained hpush
    have hfields : (b₀.pushRun b.index (b.index + (repeated - before)) length).repeatLength =
      length ∧
        (b₀.pushRun b.index (b.index + (repeated - before)) length).repeated = repeated := by
      rw [hb₀]
      unfold Builder.pushRun
      dsimp only
      split <;> exact ⟨rfl, rfl⟩
    refine ⟨fun v s width hs => ?_, ⟨hchained, fun _ => ⟨?_, fun s hs => ?_⟩⟩, ?_, ?_, ?_, ?_,
      h.range, hle, ?_⟩
    · rw [hagain]
      show (b₀.pushRun b.index (b.index + (repeated - before)) length).code.lookup v = _
      rw [p2, hb₀]
      exact h.lookup v s width hs
    · show (b.again length before repeated).last ∈ Canonical.symbols (ofLengths (x.lengths ++ _))
      rw [hlast, hlists, ← h.index]
      exact (mem_symbols_appendAt h1 hlength).2 (Or.inr (List.mem_range'_1.2 (by omega)))
    · obtain ⟨m, -, -, hm⟩ := mem_symbols.1 hs
      have := hchained.lt m s hm
      rw [hlast]
      omega
    · rw [hindex]
      exact hcount
    · rw [hindex]
      exact hstop
    · have hspace : (b.again length before repeated).space =
          b.space - ((repeated - before) <<< (15 - length) : ℕ) := by
        rw [hagain]
      rw [hspace]
      dsimp only
      rw [hkraft, h.space, Nat.shiftLeft_eq]
      push_cast
      ring
    · rw [hagain]
      show (b₀.pushRun b.index (b.index + (repeated - before)) length).previous = _
      rw [p3, hb₀]
      exact h.previous
    · rw [hagain]
      dsimp only
      rw [hfields.1, hfields.2]
      exact hrepeated

end Reads

section Symbols

variable {small : List ℕ}

/-- A round that reads a symbol of the code-length code. -/
theorem symbols_run (halpha : ¬ (alphabet = 0 ∨ maxAlphabet < alphabet))
    (hstage : b.stage = .symbols) (hspace : 0 < b.space)
    (hindex : b.index ≠ alphabet) {s width : ℕ}
    (hlookup : b.code.lookup (bitsAt I p 15) = (s, width)) :
    (b.step alphabet).run I B p = if p + width ≤ 8 * B then
      .done (if s < 16 then b.literal s else { b with stage := .repeat s }, false) (p + width)
      else .stall := by
  rw [symbols_step halpha hstage hspace hindex, Reader.run, hlookup]
  by_cases hs : s < 16
  · simp only [if_pos hs, Reader.run]
  · simp only [if_neg hs, Reader.run]

/-- A round that reads the extra field of a repetition within the alphabet. -/
theorem repeat_run (halpha : ¬ (alphabet = 0 ∨ maxAlphabet < alphabet)) {symbol : ℕ}
    (hstage : b.stage = .repeat symbol)
    {length before repeated : ℕ} (hrepeats : b.repeats symbol (bitsAt I p (symbol - 14)) =
      (length, before, repeated)) :
    (b.step alphabet).run I B p = if p + (symbol - 14) ≤ 8 * B then
      (if alphabet < b.index + (repeated - before)
        then .failed InvalidDataKind.huffman.fault (p + (symbol - 14))
        else .done (b.again length before repeated, false) (p + (symbol - 14))) else .stall := by
  rw [repeat_step halpha hstage, Reader.run]
  simp only [Reader.run, hrepeats]
  by_cases hstop : alphabet < b.index + (repeated - before)
  · simp only [if_pos hstop, Reader.run]
  · simp only [if_neg hstop, Reader.run]

/-- What a symbol of a repetition refers to does not change while its field is awaited. -/
theorem Reads.await {x : Expansion} (h : Reads small alphabet x b) (symbol : ℕ) :
    Reads small alphabet x { b with stage := .repeat symbol } := by
  have hsame : SameLists b { b with stage := .repeat symbol } := ⟨rfl, rfl, rfl, rfl, rfl⟩
  exact ⟨h.lookup, ⟨hsame.chained h.assigned.chained, h.assigned.last⟩, h.index, h.le, h.space,
    h.previous, h.range, h.lengths_le, h.repeated⟩

/-- The token that a symbol and its extra field make. -/
theorem exists_token {s : ℕ} (h16 : 16 ≤ s) (h18 : s < 18) {extra : ℕ} (he : extra < 2 ^ (s - 14)) :
    ∃ t : Token, t.Fits ∧ t.symbol = s ∧ t.extra = [(s - 14, extra)] := by
  obtain rfl | rfl : s = 16 ∨ s = 17 := by omega
  · exact ⟨.again extra, he, rfl, rfl⟩
  · exact ⟨.zeros extra, he, rfl, rfl⟩

theorem token_run (x : Expansion) {t : Token} {s extra : ℕ} (hs : t.symbol = s) (ht : t.Fits)
    (h16 : 16 ≤ s)
    (he : t.extra = [(s - 14, extra)]) : (s = 16 ∨ s = 17) ∧
      x.token t = x.run s (s - 14) (if s = 16 then x.previous else 0) extra := by
  cases t with
  | length ℓ =>
    have : ℓ < 16 := ht
    have : ℓ = s := hs
    omega
  | again extra' =>
    obtain rfl : 16 = s := hs
    simp only [Token.extra, List.cons.injEq, Prod.mk.injEq, and_true] at he
    obtain ⟨-, rfl⟩ := he
    exact ⟨Or.inl rfl, rfl⟩
  | zeros extra' =>
    obtain rfl : 17 = s := hs
    simp only [Token.extra, List.cons.injEq, Prod.mk.injEq, and_true] at he
    obtain ⟨-, rfl⟩ := he
    exact ⟨Or.inr rfl, rfl⟩

/-- The two rounds of a repetition. -/
theorem Reads.repeat_accepts {x : Expansion} (h : Reads small alphabet x b)
    (ha : alphabet ≤ maxAlphabet)
    (halpha : ¬ (alphabet = 0 ∨ maxAlphabet < alphabet)) {t : Token} {s extra : ℕ}
    (hstage : b.stage = .repeat s)
    (hreading : b.Reading alphabet) (hs : t.symbol = s) (ht : t.Fits) (h16 : 16 ≤ s)
    (he : t.extra = [(s - 14, extra)])
    (hbits : bitsAt I p (s - 14) = extra) :
    (∀ b' q, Accepts I B alphabet b p b' q → p + (s - 14) ≤ 8 * B ∧
      (x.token t).lengths.length ≤ alphabet) ∧
      (p + (s - 14) ≤ 8 * B → (x.token t).lengths.length ≤ alphabet → ∃ b₁ : Builder,
        b₁.stage = .symbols ∧
        b₁.Reading alphabet ∧ Reads small alphabet (x.token t) b₁ ∧
        rounds alphabet b₁ < rounds alphabet b ∧
        ∀ b' q, Accepts I B alphabet b p b' q ↔ Accepts I B alphabet b₁ (p + (s - 14)) b' q) := by
  obtain ⟨hsymbol, htoken⟩ := token_run x hs ht h16 he
  have hrepeats := h.repeats hsymbol extra
  rw [← hbits] at hrepeats
  have hrun := repeat_run (I := I) (B := B) halpha hstage hrepeats
  rw [hbits] at hrun hrepeats
  have hcount : b.index + (Expansion.total (if x.kind = s then x.repeated else 0) (s - 14) extra -
      if x.kind = s then x.repeated else 0) = (x.token t).lengths.length := by
    rw [htoken]
    simp only [Expansion.run, List.length_append, List.length_replicate, h.index]
  rw [hcount] at hrun
  constructor
  · intro b' q hacc
    by_cases hw : p + (s - 14) ≤ 8 * B
    · refine ⟨hw, ?_⟩
      by_contra hlt
      rw [if_pos hw, if_pos (Nat.lt_of_not_le hlt)] at hrun
      exact not_accepts_failed hreading hrun hacc
    · rw [if_neg hw] at hrun
      exact absurd hacc (not_accepts_stall hreading hrun)
  · intro hw hle
    rw [if_pos hw, if_neg (Nat.not_lt.2 hle)] at hrun
    have hagain : ∀ length before repeated, (b.again length before repeated).stage = .symbols := by
      intro length before repeated
      unfold Builder.again
      dsimp only
      split
      · exact (pushRun_same _ _ _).1
      · rfl
    refine ⟨_, hagain _ _ _, (run_reading hreading hrun).1, ?_, run_rounds hreading hrun,
      fun b' q => accepts_next hreading hrun⟩
    rw [htoken] at hle ⊢
    exact h.again ha (by rcases hsymbol with rfl | rfl <;> simp) hle

/-- What is accepted from the symbols on are tokens that fill the code space. -/
theorem symbols_sound (halpha : ¬ (alphabet = 0 ∨ maxAlphabet < alphabet))
    (hsmall : SmallCode small) (n : ℕ) :
    ∀ {b : Builder} {p : ℕ} {x : Expansion}, rounds alphabet b < n → b.stage = .symbols →
    b.Reading alphabet →
    Reads small alphabet x b → p ≤ 8 * B → Accepts I B alphabet b p b' q →
    ∃ tokens, Expansion.Fills small alphabet x tokens ∧
    Spelled I p (tokens.flatMap (Token.fields small)) q ∧ q ≤ 8 * B ∧
      b'.stage = .start ∧ b'.Assigned (tokens.foldl Expansion.token x).lengths alphabet := by
  induction n with
  | zero => intro b p x hn; exact absurd hn (Nat.not_lt_zero _)
  | succ n ih =>
    intro b p x hn hstage hreading h hp hacc
    have hspace := h.space
    have ha : alphabet ≤ maxAlphabet := by omega
    by_cases hfull : b.space = 0
    · have hrun : (b.step alphabet).run I B p = .done ({ b with stage := .start }, true) p := by
        unfold step
        rw [if_neg halpha, hstage]
        dsimp only
        rw [if_pos hfull]
        rfl
      obtain ⟨rfl, rfl⟩ := (accepts_last hreading hrun).1 hacc
      have hsame : SameLists b { b with stage := .start } := ⟨rfl, rfl, rfl, rfl, rfl⟩
      refine ⟨[], ?_, rfl, hp, rfl, (hsame.chained h.assigned.chained).mono h.le, h.assigned.last⟩
      show kraft x.lengths = 2 ^ 15
      omega
    by_cases hstop : b.space < 0 ∨ b.index = alphabet
    · have hrun : (b.step alphabet).run I B p = .failed InvalidDataKind.huffman.fault p := by
        unfold step
        rw [if_neg halpha, hstage]
        dsimp only
        rw [if_neg hfull, if_pos hstop]
        rfl
      exact absurd hacc (not_accepts_failed hreading hrun)
    obtain ⟨s, width, hspell⟩ := exists_spells hsmall.le15 hsmall.code (bitsAt I p 15)
    obtain ⟨hs, h0, hwidth, hbits⟩ := (spells_iff_wordField hsmall.le15 hsmall.code).1 hspell
    rw [hsmall.length] at hs
    have hw15 : width ≤ 15 := by
      rw [hwidth]
      unfold wordField
      split
      · exact Nat.zero_le _
      · rw [List.getD_eq_getElem _ _ (by rw [hsmall.length]; exact hs)]
        exact hsmall.le15 _ (List.getElem_mem _)
    rw [bitsAt_mod I p 15 width hw15, hwidth] at hbits
    have hrun :=
      symbols_run (B := B) halpha hstage (by omega) (fun he => hstop (Or.inr he))
        (h.lookup _ _ _ hspell)
    rw [hwidth] at hrun
    obtain ⟨hw, hacc⟩ := (accepts_of_run hreading hrun).1 hacc
    rw [if_pos hw] at hrun
    have hless := run_rounds hreading hrun
    have hread := (run_reading hreading hrun).1
    have hk : kraft x.lengths < 2 ^ 15 := by omega
    by_cases h16 : s < 16
    · rw [if_pos h16] at hacc hless hread
      have hlt : b.index < alphabet := lt_of_le_of_ne h.le fun he => hstop (Or.inr he)
      have hstage' : (b.literal s).stage = .symbols := by
        unfold Builder.literal
        dsimp only
        split
        · exact (push_same _ _).1.trans hstage
        · exact hstage
      have hnext := h.literal ha hlt h16
      obtain ⟨tokens, h1, h2, h3⟩ := ih (by omega) hstage' hread hnext hw hacc
      refine ⟨.length s :: tokens, ⟨hk, h16, h0, ?_, h1⟩, ⟨hbits, h2⟩, h3⟩
      rw [← hnext.index]
      exact hnext.le
    · rw [if_neg h16] at hacc hless hread
      obtain ⟨t, ht, htsymbol, hextra⟩ :=
        exists_token (Nat.not_lt.1 h16) hs (bitsAt_lt I (p + (wordField small s).1) (s - 14))
      obtain ⟨hsound, hnext⟩ :=
        (h.await s).repeat_accepts (I := I) (B := B) ha halpha rfl hread htsymbol ht
          (Nat.not_lt.1 h16) hextra rfl
      obtain ⟨hw', hle⟩ := hsound b' q hacc
      obtain ⟨b₁, hstage₁, hread₁, hreads₁, hless₁, hiff⟩ := hnext hw' hle
      obtain ⟨tokens, h1, h2, h3⟩ := ih (by omega) hstage₁ hread₁ hreads₁ hw' ((hiff b' q).1 hacc)
      refine ⟨t :: tokens, ⟨hk, ht, by rw [htsymbol]; exact h0, hle, h1⟩, ?_, h3⟩
      rw [List.flatMap_cons, Token.fields, htsymbol, hextra]
      exact ⟨hbits, rfl, h2⟩

/-- Tokens that fill the code space are accepted. -/
theorem symbols_complete (halpha : ¬ (alphabet = 0 ∨ maxAlphabet < alphabet))
    (hsmall : SmallCode small) (hq : q ≤ 8 * B) :
    ∀ (tokens : List Token) {b : Builder} {p : ℕ} {x : Expansion}, b.stage = .symbols →
    b.Reading alphabet →
    Reads small alphabet x b → Expansion.Fills small alphabet x tokens →
    Spelled I p (tokens.flatMap (Token.fields small)) q → ∃ b', Accepts I B alphabet b p b' q
  | [], b, p, x, hstage, hreading, h, hfills, hspelled => by
    obtain rfl : p = q := hspelled
    have hfills : kraft x.lengths = 2 ^ 15 := hfills
    have hspace := h.space
    have hrun : (b.step alphabet).run I B p = .done ({ b with stage := .start }, true) p := by
      unfold step
      rw [if_neg halpha, hstage]
      dsimp only
      rw [if_pos (by omega)]
      rfl
    exact ⟨_, (accepts_last hreading hrun).2 ⟨rfl, rfl⟩⟩
  | t :: tokens, b, p, x, hstage, hreading, h, hfills, hspelled => by
    obtain ⟨hk, ht, h0, hle, hfills⟩ := hfills
    have hspace := h.space
    have ha : alphabet ≤ maxAlphabet := by omega
    have hlt : b.index < alphabet := by
      have := x.length_lt_token t
      rw [h.index]
      omega
    rw [List.flatMap_cons, Token.fields, List.cons_append] at hspelled
    obtain ⟨hbits, hspelled⟩ := hspelled
    have h18 : t.symbol < small.length := by
      by_contra hge
      rw [List.getD_eq_default _ _ (Nat.not_lt.1 hge)] at h0
      exact h0 rfl
    have hw15 : (wordField small t.symbol).1 ≤ 15 := by
      unfold wordField
      split
      · exact Nat.zero_le _
      · rw [List.getD_eq_getElem _ _ h18]
        exact hsmall.le15 _ (List.getElem_mem _)
    have hspell : Canonical.Spells small (bitsAt I p 15) t.symbol (wordField small t.symbol).1 := by
      refine (spells_iff_wordField hsmall.le15 hsmall.code).2 ⟨h18, h0, rfl, ?_⟩
      rw [bitsAt_mod I p 15 _ hw15]
      exact hbits
    have hrun :=
      symbols_run (B := B) halpha hstage (by omega) (Nat.ne_of_lt hlt) (h.lookup _ _ _ hspell)
    have hw : p + (wordField small t.symbol).1 ≤ 8 * B := le_trans hspelled.le hq
    have hnext : ∀ b', Accepts I B alphabet _ _ b' q → Accepts I B alphabet b p b' q :=
      fun b' hacc =>
      (accepts_of_run hreading hrun).2 ⟨hw, hacc⟩
    rw [if_pos hw] at hrun
    have hread := (run_reading hreading hrun).1
    by_cases h16 : t.symbol < 16
    · rw [if_pos h16] at hnext hread
      obtain ⟨ℓ, rfl⟩ : ∃ ℓ, t = .length ℓ := by
        cases t with
        | length ℓ => exact ⟨ℓ, rfl⟩
        | again extra => exact absurd h16 (Nat.lt_irrefl 16)
        | zeros extra => exact absurd h16 (show ¬ 17 < 16 by decide)
      have hstage' : (b.literal ℓ).stage = .symbols := by
        unfold Builder.literal
        dsimp only
        split
        · exact (push_same _ _).1.trans hstage
        · exact hstage
      obtain ⟨b', hacc⟩ :=
        symbols_complete halpha hsmall hq tokens hstage' hread (h.literal ha hlt h16)
          hfills hspelled
      exact ⟨b', hnext b' hacc⟩
    · rw [if_neg h16] at hnext hread
      obtain ⟨extra, hextra⟩ : ∃ extra, t.extra = [(t.symbol - 14, extra)] := by
        cases t with
        | length ℓ => exact absurd ht h16
        | again extra => exact ⟨extra, rfl⟩
        | zeros extra => exact ⟨extra, rfl⟩
      rw [hextra] at hspelled
      obtain ⟨hfield, hspelled⟩ := hspelled
      have hw' : p + (wordField small t.symbol).1 + (t.symbol - 14) ≤ 8 * B :=
        le_trans hspelled.le hq
      obtain ⟨b₁, hstage₁, hread₁, hreads₁, -, hiff⟩ :=
        ((h.await t.symbol).repeat_accepts (I := I) (B := B) ha
          halpha rfl hread rfl ht (Nat.not_lt.1 h16) hextra hfield).2 hw' hle
      obtain ⟨b', hacc⟩ :=
        symbols_complete halpha hsmall hq tokens hstage₁ hread₁ hreads₁ hfills hspelled
      exact ⟨b', hnext b' ((hiff b' q).2 hacc)⟩

end Symbols

/-! ### Simple descriptions -/

/-- Pairs in the order of a canonical code. -/
def Before (r s : ℕ × ℕ) : Prop := r.1 < s.1 ∨ r.1 = s.1 ∧ r.2 < s.2

theorem insertPair_sorted (r : ℕ × ℕ) : ∀ {l : List (ℕ × ℕ)}, l.Pairwise (fun s t => ¬ Before t s) →
    (insertPair r l).Pairwise fun s t => ¬ Before t s
  | [], _ => List.pairwise_singleton _ _
  | s :: l, h => by
    obtain ⟨hs, hl⟩ := List.pairwise_cons.1 h
    unfold insertPair
    by_cases hb : r.1 < s.1 ∨ r.1 = s.1 ∧ r.2 < s.2
    · rw [if_pos hb]
      refine List.pairwise_cons.2 ⟨fun t ht hbt => ?_, h⟩
      rcases List.mem_cons.1 ht with rfl | ht
      · unfold Before at hbt
        omega
      · have := hs t ht
        unfold Before at hbt this
        omega
    · rw [if_neg hb]
      refine List.pairwise_cons.2 ⟨fun t ht => ?_, insertPair_sorted r hl⟩
      rcases List.mem_cons.1 ((insertPair_perm r l).mem_iff.1 ht) with rfl | ht
      · exact hb
      · exact hs t ht

theorem shapePairs_sorted (symbols : ℕ → ℕ) (count shape : ℕ) :
    (shapePairs symbols count shape).Pairwise fun s t => ¬ Before t s := by
  have key : ∀ l acc : List (ℕ × ℕ), acc.Pairwise (fun s t => ¬ Before t s) →
      (l.foldl (fun acc r => insertPair r acc) acc).Pairwise fun s t => ¬ Before t s := by
    intro l
    induction l with
    | nil => exact fun _ h => h
    | cons r l ih => exact fun acc h => ih _ (insertPair_sorted r h)
  exact key _ [] List.Pairwise.nil

/-- The symbols of each length among the pairs. -/
def ofPairs (pairs : List (ℕ × ℕ)) (ℓ : ℕ) : List ℕ := (pairs.filter fun r => r.1 = ℓ).map Prod.snd

theorem mem_ofPairs {pairs : List (ℕ × ℕ)} {ℓ s : ℕ} : s ∈ ofPairs pairs ℓ ↔ (ℓ, s) ∈ pairs := by
  unfold ofPairs
  simp only [List.mem_map, List.mem_filter, decide_eq_true_eq]
  constructor
  · rintro ⟨⟨m, t⟩, ⟨hmem, rfl⟩, rfl⟩
    exact hmem
  · exact fun h => ⟨(ℓ, s), ⟨h, rfl⟩, rfl⟩

theorem ofPairs_concat (pairs : List (ℕ × ℕ)) (r : ℕ × ℕ) :
    ofPairs (pairs ++ [r]) = appendAt (ofPairs pairs) r.1 [r.2] := by
  funext ℓ
  unfold ofPairs
  rw [List.filter_append, List.map_append]
  by_cases hℓ : ℓ = r.1
  · subst hℓ
    simp [appendAt]
  · simp [appendAt, hℓ, Ne.symm hℓ]

/-- The lists of pushed pairs. -/
theorem pushPairs_ofPairs (b : Builder) (ha : alphabet ≤ noSymbol) (pairs : List (ℕ × ℕ))
    (hpairs : ∀ r ∈ pairs, 1 ≤ r.1 ∧ r.1 ≤ 15 ∧ r.2 < alphabet)
    (hnodup : (pairs.map Prod.snd).Nodup) :
    Chained (pushPairs b.clear pairs) (ofPairs pairs) alphabet := by
  induction pairs using List.reverseRecOn with
  | nil => exact Chained.clear b alphabet
  | append_singleton pairs r ih =>
    rw [List.map_append, List.nodup_append] at hnodup
    obtain ⟨hnodup, -, hdisjoint⟩ := hnodup
    have hrest := ih (fun t ht => hpairs t (List.mem_append_left _ ht)) hnodup
    obtain ⟨h1, h15, hlt⟩ := hpairs r (by simp)
    have hpush := hrest.push h1 h15 (lt_of_lt_of_le hlt ha) fun ℓ hmem =>
      hdisjoint r.2 (List.mem_map.2 ⟨(ℓ, r.2), mem_ofPairs.1 hmem, rfl⟩) r.2 (by simp) rfl
    rw [max_eq_left hlt] at hpush
    rw [ofPairs_concat]
    have hfold : pushPairs b.clear (pairs ++ [r]) = (pushPairs b.clear pairs).push r.2 r.1 := by
      unfold pushPairs
      rw [List.foldl_append]
      rfl
    rw [hfold]
    exact hpush

/-- The symbols read of a simple description. -/
def given (b : Builder) (n : ℕ) : List ℕ := (List.range n).map b.symbols

theorem Simple.nodup {n : ℕ} (h : b.Simple alphabet n) : (b.given n).Nodup := by
  refine (List.nodup_map_iff_inj_on List.nodup_range).2 fun i hi j hj he => ?_
  exact h.inj i j (List.mem_range.1 hi) (List.mem_range.1 hj) he

theorem Simple.getD_lengths {n : ℕ} (h : b.Simple alphabet n) (shape : ℕ) {i : ℕ} (hi : i < n) :
    ((CodeDescription.simple (b.given n) shape).lengths alphabet).getD (b.symbols i) 0 =
    (shapeLengths n shape).getD i 0 := by
  have hlen : (b.given n).length = n := by simp [given]
  have hget : (b.given n).getD i 0 = b.symbols i := by simp [given, hi]
  have hidx : (b.given n).idxOf (b.symbols i) = i := by
    rw [← hget, List.getD_eq_getElem _ _ (by rw [hlen]; exact hi)]
    exact h.nodup.idxOf_getElem i _
  have hmem : b.symbols i ∈ b.given n := List.mem_map_of_mem (List.mem_range.2 hi)
  unfold CodeDescription.lengths
  rw [List.getD_eq_getElem _ _ (by simpa using h.lt i hi)]
  simp only [List.getElem_map, List.getElem_range]
  rw [if_pos hmem, hlen, hidx]

/-- The pairs of a simple description list its lengths. -/
theorem Simple.ofLengths_eq (h : b.Simple alphabet b.count) (h1 : 1 ≤ b.count)
    (h4 : b.count ≤ 4) (shape : ℕ) :
    ofLengths ((CodeDescription.simple (b.given b.count) shape).lengths alphabet) =
    ofPairs (shapePairs b.symbols b.count shape) := by
  have hperm := shapePairs_perm b.symbols b.count shape
  have hsorted := shapePairs_sorted b.symbols b.count shape
  have hnodup : ((shapePairs b.symbols b.count shape).map Prod.snd).Nodup := by
    rw [(hperm.map Prod.snd).nodup_iff, List.map_map]
    exact h.nodup
  have hlength : ((CodeDescription.simple (b.given b.count) shape).lengths alphabet).length =
      alphabet := by
    simp [CodeDescription.lengths]
  funext ℓ
  refine List.Pairwise.eq_of_mem_iff (r := (· < ·)) ?_ ?_ fun s => ?_
  · unfold ofLengths
    split
    · exact List.Pairwise.nil
    · exact List.pairwise_lt_range.filter _
  · unfold ofPairs
    rw [List.pairwise_map]
    refine ((hsorted.and (List.pairwise_map.1 hnodup)).filter _).imp_of_mem fun {r t} hr ht hrt =>
      ?_
    have er := (List.mem_filter.1 hr).2
    have et := (List.mem_filter.1 ht).2
    simp only [decide_eq_true_eq] at er et
    obtain ⟨hb, hne⟩ := hrt
    unfold Before at hb
    omega
  · rw [mem_ofLengths, mem_ofPairs, hperm.mem_iff, List.mem_map, hlength]
    constructor
    · rintro ⟨hs, hget, h0⟩
      have hmem : s ∈ b.given b.count := by
        by_contra hnot
        unfold CodeDescription.lengths at hget
        rw [List.getD_eq_getElem _ _ (by simpa using hs)] at hget
        simp only [List.getElem_map, List.getElem_range, if_neg hnot] at hget
        exact h0 hget.symm
      obtain ⟨i, hi, rfl⟩ := List.mem_map.1 hmem
      refine ⟨i, hi, ?_⟩
      rw [← h.getD_lengths shape (List.mem_range.1 hi), hget]
    · rintro ⟨i, hi, he⟩
      obtain ⟨rfl, rfl⟩ := Prod.mk.inj he
      have hi := List.mem_range.1 hi
      refine ⟨h.lt i hi, h.getD_lengths shape hi, ?_⟩
      have := (shapeLengths_range h1 h4 shape hi).1
      omega

/-- The builder of a simple description. -/
theorem Simple.assigned (h : b.Simple alphabet b.count) (ha : alphabet ≤ maxAlphabet)
    (h1 : 1 ≤ b.count) (h4 : b.count ≤ 4)
    (shape : ℕ) :
    Assigned ((CodeDescription.simple (b.given b.count) shape).lengths alphabet) alphabet
      { pushPairs b.clear (shapePairs b.symbols b.count shape) with
        last := ((shapePairs b.symbols b.count shape).map Prod.snd).foldl max 0,
        stage := .start } := by
  have hperm := shapePairs_perm b.symbols b.count shape
  have hpairs : ∀ r ∈ shapePairs b.symbols b.count shape, 1 ≤ r.1 ∧ r.1 ≤ 15 ∧ r.2 < alphabet :=
    fun r hr => by
    obtain ⟨i, hi, rfl⟩ := List.mem_map.1 (hperm.mem_iff.1 hr)
    have hi := List.mem_range.1 hi
    obtain ⟨r1, r15⟩ := shapeLengths_range h1 h4 shape hi
    exact ⟨r1, r15, h.lt i hi⟩
  have hnodup : ((shapePairs b.symbols b.count shape).map Prod.snd).Nodup := by
    rw [(hperm.map Prod.snd).nodup_iff, List.map_map]
    exact h.nodup
  have hchained := pushPairs_ofPairs b (le_trans ha (by decide)) _ hpairs hnodup
  have hsame : SameLists (pushPairs b.clear (shapePairs b.symbols b.count shape))
      { pushPairs b.clear (shapePairs b.symbols b.count shape) with
        last := ((shapePairs b.symbols b.count shape).map Prod.snd).foldl max 0,
            stage := .start } :=
    ⟨rfl, rfl, rfl, rfl, rfl⟩
  have hmem : ∀ s, s ∈ Canonical.symbols (ofPairs (shapePairs b.symbols b.count shape)) ↔
      s ∈ (shapePairs b.symbols b.count shape).map Prod.snd := fun s => by
    rw [mem_symbols, List.mem_map]
    constructor
    · rintro ⟨ℓ, -, -, hs⟩
      exact ⟨(ℓ, s), mem_ofPairs.1 hs, rfl⟩
    · rintro ⟨r, hr, rfl⟩
      exact ⟨r.1, (hpairs r hr).1, (hpairs r hr).2.1, mem_ofPairs.2 hr⟩
  refine ⟨?_, ?_⟩
  · rw [h.ofLengths_eq h1 h4]
    exact hsame.chained hchained
  · rw [h.ofLengths_eq h1 h4]
    intro hne
    obtain ⟨s, hs⟩ := List.exists_mem_of_ne_nil _ hne
    have hlast := foldl_max_spec ((shapePairs b.symbols b.count shape).map Prod.snd) 0
    exact ⟨(hmem _).2 (foldl_max_mem (List.ne_nil_of_mem ((hmem s).1 hs))),
      fun t ht => hlast.2.2 t ((hmem t).1 ht)⟩

/-- The builder with one more symbol of a simple description. -/
def name (b : Builder) (symbol : ℕ) : Builder :=
  { b with symbols := Function.update b.symbols b.index symbol, index := b.index + 1 }

/-- The builder of a simple description once its shape is known. -/
def shaped (b : Builder) (shape : ℕ) : Builder :=
  { pushPairs b.clear (shapePairs b.symbols b.count shape) with
    last := ((shapePairs b.symbols b.count shape).map Prod.snd).foldl max 0, stage := .start }

theorem given_name (symbol : ℕ) :
    (b.name symbol).given (b.index + 1) = b.given b.index ++ [symbol] := by
  unfold given name
  rw [List.range_succ, List.map_append]
  congr 1
  · refine List.map_congr_left fun i hi => Function.update_of_ne ?_ _ _
    exact Nat.ne_of_lt (List.mem_range.1 hi)
  · simp

theorem simpleSymbols_run (halpha : ¬ (alphabet = 0 ∨ maxAlphabet < alphabet))
    (hstage : b.stage = .simpleSymbols)
    (hlt : b.index < b.count) : (b.step alphabet).run I B p =
    if p + symbolWidth alphabet ≤ 8 * B then
      (if alphabet ≤ bitsAt I p (symbolWidth alphabet) ∨
        bitsAt I p (symbolWidth alphabet) ∈ b.given b.index then
        .failed InvalidDataKind.huffman.fault (p + symbolWidth alphabet)
        else .done (b.name (bitsAt I p (symbolWidth alphabet)), false) (p + symbolWidth alphabet))
        else .stall := by
  have hstep : b.step alphabet = .peek (symbolWidth alphabet) fun symbol =>
    .drop (symbolWidth alphabet)
      (if alphabet ≤ symbol ∨ (List.range b.index).any (fun i => b.symbols i = symbol)
        then .fail InvalidDataKind.huffman.fault
        else .pure (b.name symbol, false)) := by
    cases b
    cases hstage
    rw [step, if_neg halpha]
    dsimp only at hlt ⊢
    rw [if_pos hlt]
    rfl
  have hany : ∀ symbol, ((List.range b.index).any (fun i => b.symbols i = symbol)) = true ↔
      symbol ∈ b.given b.index := by
    intro symbol
    simp [given]
  rw [hstep, Reader.run]
  simp only [Reader.run, hany]
  split
  · split <;> rfl
  · rfl

theorem simpleShape_run (halpha : ¬ (alphabet = 0 ∨ maxAlphabet < alphabet))
    (hstage : b.stage = .simpleShape) :
    (b.step alphabet).run I B p =
      if b.count = 4 then (if p + 1 ≤
        8 * B then .done (b.shaped (bitsAt I p 1), true) (p + 1) else .stall)
      else .done (b.shaped 0, true) p := by
  unfold step
  rw [if_neg halpha, hstage]
  dsimp only
  by_cases h4 : b.count = 4
  · rw [if_pos h4, if_pos h4]
    rfl
  · rw [if_neg h4, if_neg h4]
    rfl

theorem simpleSymbols_done (halpha : ¬ (alphabet = 0 ∨ maxAlphabet < alphabet))
    (hstage : b.stage = .simpleSymbols)
    (hge : ¬ b.index < b.count) : (b.step alphabet).run I B p =
    .done ({ b with stage := .simpleShape }, false) p := by
  unfold step
  rw [if_neg halpha, hstage]
  dsimp only
  rw [if_neg hge]
  rfl

theorem reading_simple (h : b.Reading alphabet) (hstage : b.stage = .simpleSymbols) :
    1 ≤ b.count ∧ b.count ≤ 4 ∧ b.index ≤ b.count ∧ b.Simple alphabet b.index := by
  unfold Reading at h
  rw [hstage] at h
  exact h

theorem length_given (n : ℕ) : (b.given n).length = n := by simp [given]

/-- What is accepted from the symbols of a simple description on. -/
theorem simpleSymbols_sound (halpha : ¬ (alphabet = 0 ∨ maxAlphabet < alphabet)) (n : ℕ) :
    ∀ {b : Builder} {p : ℕ},
    b.count - b.index < n → b.stage = .simpleSymbols → b.Reading alphabet → p ≤ 8 * B →
    Accepts I B alphabet b p b' q →
    ∃ rest shape p₁, (b.given b.index ++ rest).length = b.count ∧
    (CodeDescription.simple (b.given b.index ++ rest) shape).Valid alphabet ∧
      Spelled I p (rest.map fun s => (symbolWidth alphabet, s)) p₁ ∧
      Spelled I p₁ (if b.count = 4 then [(1, shape)] else []) q ∧
      q ≤ 8 * B ∧ b'.stage = .start ∧
      b'.Assigned ((CodeDescription.simple (b.given b.index ++ rest) shape).lengths alphabet)
      alphabet := by
  induction n with
  | zero => intro b p hn; exact absurd hn (Nat.not_lt_zero _)
  | succ n ih =>
    intro b p hn hstage hreading hp hacc
    obtain ⟨h1, h4, hle, hsimple⟩ := reading_simple hreading hstage
    by_cases hlt : b.index < b.count
    · have hrun := simpleSymbols_run (I := I) (B := B) (p := p) halpha hstage hlt
      by_cases hw : p + symbolWidth alphabet ≤ 8 * B
      · rw [if_pos hw] at hrun
        by_cases hbad : alphabet ≤ bitsAt I p (symbolWidth alphabet) ∨
          bitsAt I p (symbolWidth alphabet) ∈ b.given b.index
        · rw [if_pos hbad] at hrun
          exact absurd hacc (not_accepts_failed hreading hrun)
        · rw [if_neg hbad] at hrun
          have hindex : (b.name (bitsAt I p (symbolWidth alphabet))).index = b.index + 1 := rfl
          have hcount : (b.name (bitsAt I p (symbolWidth alphabet))).count = b.count := rfl
          obtain ⟨rest, shape, p₁, g1, g2, g3, g4⟩ :=
            ih (b := b.name _) (by rw [hindex, hcount]; omega) hstage
              (run_reading hreading hrun).1 hw ((accepts_next hreading hrun).1 hacc)
          rw [hindex, given_name, List.append_assoc] at g1 g2 g4
          exact ⟨_ :: rest, shape, p₁, g1, g2, ⟨rfl, g3⟩, g4⟩
      · rw [if_neg hw] at hrun
        exact absurd hacc (not_accepts_stall hreading hrun)
    · have heq : b.index = b.count := by omega
      have hrun := simpleSymbols_done (I := I) (B := B) (p := p) halpha hstage hlt
      have hread := (run_reading hreading hrun).1
      have hacc := (accepts_next hreading hrun).1 hacc
      rw [heq] at hsimple
      have hsame : Simple alphabet ({ b with stage := .simpleShape } : Builder).count
        { b with stage := .simpleShape } := ⟨hsimple.lt, hsimple.inj⟩
      have hrun' :=
        simpleShape_run (I := I) (B := B) (p := p)
          (b := { b with stage := .simpleShape }) halpha rfl
      have hassigned : ∀ shape,
        Assigned ((CodeDescription.simple (b.given b.count) shape).lengths alphabet) alphabet
          (shaped { b with stage := .simpleShape } shape) :=
          hsame.assigned (show alphabet ≤ maxAlphabet by omega) h1 h4
      have hvalid : ∀ shape, shape < 2 → (b.count ≠ 4 → shape = 0) →
          (CodeDescription.simple (b.given b.count) shape).Valid alphabet := by
        intro shape h2 h0
        refine ⟨by rw [length_given]; exact h1, by rw [length_given]; exact h4, hsimple.nodup,
          fun s hs => ?_, h2, ?_⟩
        · obtain ⟨i, hi, rfl⟩ := List.mem_map.1 hs
          exact hsimple.lt i (List.mem_range.1 hi)
        · rw [length_given]
          exact h0
      have hnil : b.given b.index ++ [] = b.given b.count := by rw [List.append_nil, heq]
      by_cases hfour : b.count = 4
      · have hrun' := hrun'.trans (if_pos hfour)
        by_cases hw : p + 1 ≤ 8 * B
        · rw [if_pos hw] at hrun'
          obtain ⟨rfl, rfl⟩ := (accepts_last hread hrun').1 hacc
          refine ⟨[], bitsAt I p 1, p, ?_, ?_, rfl, ?_, hw, rfl, ?_⟩
          · rw [hnil, length_given]
          · rw [hnil]
            exact hvalid _ (bitsAt_lt I p 1) fun hne => absurd hfour hne
          · rw [if_pos hfour]
            exact ⟨rfl, rfl⟩
          · rw [hnil]
            exact hassigned _
        · rw [if_neg hw] at hrun'
          exact absurd hacc (not_accepts_stall hread hrun')
      · have hrun' := hrun'.trans (if_neg hfour)
        obtain ⟨rfl, rfl⟩ := (accepts_last hread hrun').1 hacc
        refine ⟨[], 0, p, ?_, ?_, rfl, ?_, hp, rfl, ?_⟩
        · rw [hnil, length_given]
        · rw [hnil]
          exact hvalid 0 (by decide) fun _ => rfl
        · rw [if_neg hfour]
          rfl
        · rw [hnil]
          exact hassigned 0

/-- The symbols and the shape of a simple description are accepted. -/
theorem simpleSymbols_complete (halpha : ¬ (alphabet = 0 ∨ maxAlphabet < alphabet)) {shape p₁ : ℕ}
    (hq : q ≤ 8 * B) :
    ∀ (rest : List ℕ) {b : Builder} {p : ℕ}, b.stage = .simpleSymbols → b.Reading alphabet →
    (b.given b.index ++ rest).length = b.count → (b.given b.index ++ rest).Nodup →
    (∀ s ∈ rest, s < alphabet) →
    Spelled I p (rest.map fun s => (symbolWidth alphabet, s)) p₁ →
    Spelled I p₁ (if b.count = 4 then [(1, shape)] else []) q →
    ∃ b', Accepts I B alphabet b p b' q
  | [], b, p, hstage, hreading, hlen, _, _, hp, hshape => by
    obtain rfl : p = p₁ := hp
    rw [List.append_nil, length_given] at hlen
    have hrun := simpleSymbols_done (I := I) (B := B) (p := p) halpha hstage (by omega)
    have hread := (run_reading hreading hrun).1
    have hrun' :=
      simpleShape_run (I := I) (B := B) (p := p) (b := { b with stage := .simpleShape }) halpha rfl
    by_cases hfour : b.count = 4
    · have hrun' := hrun'.trans (if_pos hfour)
      rw [if_pos hfour] at hshape
      obtain ⟨-, rfl⟩ : _ ∧ p + 1 = q := hshape
      rw [if_pos hq] at hrun'
      exact ⟨_, (accepts_next hreading hrun).2 ((accepts_last hread hrun').2 ⟨rfl, rfl⟩)⟩
    · have hrun' := hrun'.trans (if_neg hfour)
      rw [if_neg hfour] at hshape
      obtain rfl : p = q := hshape
      exact ⟨_, (accepts_next hreading hrun).2 ((accepts_last hread hrun').2 ⟨rfl, rfl⟩)⟩
  | s :: rest, b, p, hstage, hreading, hlen, hnodup, hlt, hp, hshape => by
    obtain ⟨hbits, hp⟩ := hp
    have hcount : b.index < b.count := by
      rw [List.length_append, length_given, List.length_cons] at hlen
      omega
    have hrun := simpleSymbols_run (I := I) (B := B) (p := p) halpha hstage hcount
    have hw : p + symbolWidth alphabet ≤ 8 * B := le_trans hp.le (le_trans hshape.le hq)
    have hfresh : s ∉ b.given b.index := fun hmem =>
      (List.nodup_append.1 hnodup).2.2 s hmem s List.mem_cons_self rfl
    have hgood : ¬ (alphabet ≤ s ∨ s ∈ b.given b.index) := fun hbad =>
      hbad.elim (fun h => absurd (hlt s List.mem_cons_self) (Nat.not_lt.2 h)) hfresh
    rw [if_pos hw, hbits, if_neg hgood] at hrun
    have hgiven : (b.name s).given (b.name s).index ++ rest = b.given b.index ++ s :: rest := by
      show (b.name s).given (b.index + 1) ++ rest = _
      rw [given_name, List.append_assoc]
      rfl
    rw [← hgiven] at hlen hnodup
    obtain ⟨b', hacc⟩ :=
      simpleSymbols_complete halpha hq rest (b := b.name s) hstage
        (run_reading hreading hrun).1 hlen hnodup
        (fun t ht => hlt t (List.mem_cons_of_mem s ht)) hp hshape
    exact ⟨b', (accepts_next hreading hrun).2 hacc⟩

end Builder
end Mbrotli
