/-
# The bits of a canonical code

`convertBitDepthsToSymbols` gives every symbol that has a depth the next code of its
depth. A code is stored with its first bit lowest, `reverseBits` of it, four bits at a
time. The codes are those of the canonical code of the depths, and no sum of sixteen bits
wraps, if the depths take no more than the code space.

Key definitions: `reverseBits`, `convertBitDepthsToSymbols`.
Key theorems: `reverseBits_eq`, `convertBitDepthsToSymbols_spec`.
-/
import Mbrotli.Lib.CodeLengths
import Mbrotli.Shared.HistogramRle

namespace Mbrotli.Compressor
open Canonical

def reverseLut : List ℕ :=
  [0x00, 0x08, 0x04, 0x0C, 0x02, 0x0A, 0x06, 0x0E, 0x01, 0x09, 0x05, 0x0D, 0x03, 0x0B, 0x07, 0x0F]

/-- `k` more groups of four bits. -/
def reverseGroups : ℕ → ℕ → ℕ → ℕ
  | 0, _, retval => retval
  | k + 1, bits, retval => reverseGroups k (bits >>> 4)
      ((retval <<< 4) ||| reverseLut.getD ((bits >>> 4) % 16) 0)

/-- Reverses the low `numBits` bits of `bits`. -/
def reverseBits (numBits bits : ℕ) : ℕ :=
  (reverseGroups ((numBits - 1) / 4) bits (reverseLut.getD (bits % 16) 0) >>>
    ((2 ^ 64 - numBits) % 4)) % 2 ^ 16

/-- The number of symbols of each depth. -/
def countDepths : List ℕ → List ℕ → Option (List ℕ)
  | [], blCount => some blCount
  | d :: depth, blCount => do
    let blCount ← setAt blCount d ((blCount.getD d 0 + 1) % 2 ^ 16)
    countDepths depth blCount

/-- The first code of a depth. -/
def firstCode (blCount : List ℕ) : ℕ → ℕ
  | 0 => 0
  | i + 1 => (firstCode blCount i + blCount.getD i 0) * 2 % 2 ^ 16

/-- The codes of the symbols from `i` on. -/
def assignCodes : List ℕ → ℕ → List ℕ → List ℕ → Option (List ℕ)
  | [], _, _, bits => some bits
  | d :: depth, i, nextCode, bits =>
    if d ≠ 0 then do
      let code ← nextCode[d]?
      let bits ← setAt bits i (reverseBits d code)
      assignCodes depth (i + 1) (nextCode.set d ((code + 1) % 2 ^ 16)) bits
    else assignCodes depth (i + 1) nextCode bits

/-- Turns canonical bit depths into the bit patterns of the stream. -/
def convertBitDepthsToSymbols (depth : List ℕ) (len : ℕ) (bits : List ℕ) : Option (List ℕ) :=
  if depth.length < len then none
  else do
    let blCount ← countDepths (depth.take len) (List.replicate 16 0)
    assignCodes (depth.take len) 0 ((List.range 16).map (firstCode (blCount.set 0 0))) bits

/-! ### Reversing -/

theorem rev_add (ℓ k v : ℕ) : rev (ℓ + k) v = rev ℓ v * 2 ^ k + rev k (v >>> ℓ) := by
  induction k with
  | zero => simp [rev]
  | succ k ih =>
    have hbit : v.testBit (ℓ + k) = (v >>> ℓ).testBit k := by rw [Nat.testBit_shiftRight]
    rw [← Nat.add_assoc, rev, rev, ih, hbit, pow_succ]
    ring

theorem reverseLut_eq (v : ℕ) : reverseLut.getD (v % 16) 0 = rev 4 v := by
  have hall : ∀ x < 16, reverseLut.getD x 0 = rev 4 x := by decide
  rw [hall _ (Nat.mod_lt _ (by decide))]
  exact rev_mod (Nat.le_refl 4) v

theorem reverseGroups_eq (k m v : ℕ) :
    reverseGroups k (v >>> (4 * m)) (rev (4 * m + 4) v) = rev (4 * (m + k) + 4) v := by
  induction k generalizing m with
  | zero => rfl
  | succ k ih =>
    have hshift : v >>> (4 * m) >>> 4 = v >>> (4 * (m + 1)) := by
      rw [← Nat.shiftRight_add, Nat.mul_succ]
    have hgroup : (rev (4 * m + 4) v <<< 4) ||| rev 4 (v >>> (4 * (m + 1))) =
        rev (4 * (m + 1) + 4) v := by
      rw [← Nat.shiftLeft_add_eq_or_of_lt (rev_lt 4 _), Nat.shiftLeft_eq, rev_add (4 * (m + 1)) 4 v]
      rfl
    rw [reverseGroups, reverseLut_eq, hshift, hgroup, ih (m + 1), Nat.add_assoc m 1 k,
      Nat.add_comm 1 k]

/-- Up to fifteen bits are reversed. -/
theorem reverseBits_eq {n : ℕ} (h1 : 1 ≤ n) (h15 : n ≤ 15) (v : ℕ) : reverseBits n v = rev n v := by
  have hgroups := reverseGroups_eq ((n - 1) / 4) 0 v
  have hwidth : 4 * (0 + (n - 1) / 4) + 4 = n + (2 ^ 64 - n) % 4 := by omega
  rw [hwidth] at hgroups
  have hlt : rev n v < 2 ^ 16 := (rev_lt n v).trans_le (Nat.pow_le_pow_right (by decide) (by omega))
  have hstart : reverseGroups ((n - 1) / 4) v (reverseLut.getD (v % 16) 0) =
      rev (n + (2 ^ 64 - n) % 4) v := by
    rw [reverseLut_eq]
    exact hgroups
  rw [reverseBits, hstart, Nat.shiftRight_eq_div_pow, rev_div, Nat.mod_eq_of_lt hlt]

/-! ### The codes -/

theorem countDepths_spec (depth blCount : List ℕ) (hlen : blCount.length = 16)
    (h15 : ∀ d ∈ depth, d ≤ 15)
    (hsmall : ∀ d, blCount.getD d 0 + depth.length < 2 ^ 16) :
    ∃ blCount', countDepths depth blCount = some blCount' ∧ blCount'.length = 16 ∧
      ∀ d ≤ 15, blCount'.getD d 0 = blCount.getD d 0 + depth.count d := by
  induction depth generalizing blCount with
  | nil => exact ⟨blCount, rfl, hlen, fun _ _ => rfl⟩
  | cons x depth ih =>
    have hx : x < blCount.length := hlen ▸ Nat.lt_succ_of_le (h15 x List.mem_cons_self)
    have hnext : (blCount.getD x 0 + 1) % 2 ^ 16 = blCount.getD x 0 + 1 := by
      have := hsmall x
      rw [List.length_cons] at this
      omega
    have hget : ∀ d, (blCount.set x (blCount.getD x 0 + 1)).getD d 0 = blCount.getD d 0 + if x = d
        then 1 else 0 := by
      intro d
      by_cases hd : x = d
      · rw [if_pos hd, ← hd, List.getD_eq_getElem?_getD, List.getElem?_set_self hx]
        rfl
      · rw [if_neg hd, List.getD_eq_getElem?_getD, List.getElem?_set_ne hd,
          List.getD_eq_getElem?_getD]
        rfl
    obtain ⟨blCount', hrun, hlen', hcount⟩ :=
      ih (blCount.set x (blCount.getD x 0 + 1)) (by rw [List.length_set, hlen])
        (fun d hd => h15 d (List.mem_cons_of_mem _ hd)) fun d => by
        have := hsmall d
        rw [List.length_cons] at this
        rw [hget]
        split <;> omega
    refine ⟨blCount', ?_, hlen', fun d hd => ?_⟩
    · rw [countDepths, setAt, if_pos hx, hnext]
      exact hrun
    · rw [hcount d hd, hget, List.count_cons]
      simp only [beq_iff_eq]
      omega

theorem length_ofLengths (lengths : List ℕ) {ℓ : ℕ} (h0 : ℓ ≠ 0) :
    (ofLengths lengths ℓ).length = lengths.count ℓ := by
  induction lengths using List.reverseRecOn with
  | nil =>
    rw [ofLengths, if_neg h0]
    rfl
  | append_singleton lengths x ih =>
    rw [ofLengths_concat, List.count_append, ← ih]
    by_cases hx : x = 0
    · rw [if_pos hx, List.count_singleton, if_neg (by simp [hx, Ne.symm h0]), Nat.add_zero]
    · rw [if_neg hx, appendAt]
      by_cases hℓ : ℓ = x
      · subst hℓ
        rw [Function.update_self, List.length_append]
        simp
      · rw [Function.update_of_ne hℓ, List.count_singleton,
          if_neg (by simpa using Ne.symm hℓ), Nat.add_zero]

/-- Depths within the code space leave the codes within theirs. -/
theorem codeEnd_le_pow {lengths : List ℕ} (h15 : ∀ ℓ ∈ lengths, ℓ ≤ 15)
    (hfit : kraft lengths ≤ 2 ^ 15) {ℓ : ℕ} (hℓ : ℓ ≤ 15) :
    codeEnd (ofLengths lengths) ℓ ≤ 2 ^ ℓ := by
  have hend : codeEnd (ofLengths lengths) 15 ≤ 2 ^ 15 := (codeEnd_ofLengths h15).le.trans hfit
  rcases Nat.lt_or_eq_of_le hℓ with hlt | rfl
  · have hmono := end_mono (ofLengths lengths) ℓ (15 - ℓ) (by omega)
    rw [Nat.add_sub_cancel' hℓ] at hmono
    have hbound : 2 ^ (15 - ℓ) * codeEnd (ofLengths lengths) ℓ ≤ 2 ^ (15 - ℓ) * 2 ^ ℓ := by
      rw [← pow_add, Nat.sub_add_cancel hℓ]
      exact hmono.trans ((Nat.le_add_right _ _).trans hend)
    exact Nat.le_of_mul_le_mul_left hbound (Nat.two_pow_pos _)
  · exact hend

theorem firstCode_eq {lengths blCount : List ℕ} (h15 : ∀ ℓ ∈ lengths, ℓ ≤ 15)
    (hfit : kraft lengths ≤ 2 ^ 15)
    (hcount : ∀ d ≤ 15, blCount.getD d 0 = (ofLengths lengths d).length) {ℓ : ℕ} (hℓ : ℓ ≤ 15) :
    firstCode blCount ℓ = first (ofLengths lengths) ℓ := by
  induction ℓ with
  | zero => rfl
  | succ ℓ ih =>
    have hend : first (ofLengths lengths) ℓ + (ofLengths lengths ℓ).length ≤ 2 ^ ℓ :=
      codeEnd_le_pow h15 hfit (Nat.le_of_succ_le hℓ)
    have hpow : 2 ^ ℓ ≤ 2 ^ 14 := Nat.pow_le_pow_right (by decide) (by omega)
    rw [firstCode, ih (Nat.le_of_succ_le hℓ), hcount ℓ (Nat.le_of_succ_le hℓ), first]
    omega

/-- The codes from a symbol on: `done` are the depths before it. -/
theorem assignCodes_spec {lengths : List ℕ} (h15 : ∀ ℓ ∈ lengths, ℓ ≤ 15)
    (hfit : kraft lengths ≤ 2 ^ 15) (rest : List ℕ)
    {done nextCode bits : List ℕ} (hsplit : lengths = done ++ rest) (hlen : nextCode.length = 16)
    (hbits : lengths.length ≤ bits.length)
    (hnext : ∀ ℓ, 1 ≤ ℓ → ℓ ≤ 15 → nextCode.getD ℓ 0 = first (ofLengths lengths) ℓ + done.count ℓ) :
    ∃ bits', assignCodes rest done.length nextCode bits = some bits' ∧ bits'.length = bits.length ∧
      (∀ s < lengths.length, done.length ≤ s → lengths.getD s 0 ≠ 0 →
        bits'.getD s 0 = rev (lengths.getD s 0) (codeword lengths s)) ∧
      ∀ s, (s < lengths.length → done.length ≤ s → lengths.getD s 0 = 0) →
      bits'.getD s 0 = bits.getD s 0 := by
  induction rest generalizing done nextCode bits with
  | nil =>
    rw [List.append_nil] at hsplit
    exact ⟨bits, rfl, rfl, fun s hs hge => absurd hs (by rw [hsplit]; omega), fun _ _ => rfl⟩
  | cons d rest ih =>
    have hsplit' : lengths = (done ++ [d]) ++ rest := by rw [hsplit, List.append_assoc]; rfl
    have hlength : done.length < lengths.length := by
      rw [hsplit, List.length_append, List.length_cons]; omega
    have hd : lengths.getD done.length 0 = d := by
      rw [hsplit, List.getD_append_right _ _ _ _ (Nat.le_refl _), Nat.sub_self]
      rfl
    have htake : lengths.take done.length = done := by rw [hsplit, List.take_left]
    have hdone : (done ++ [d]).length = done.length + 1 := by rw [List.length_append]; rfl
    by_cases h0 : d = 0
    · obtain ⟨bits', hrun, hlen', hused, hkept⟩ := ih hsplit' hlen hbits fun ℓ h1 hℓ => by
        rw [hnext ℓ h1 hℓ, List.count_append, List.count_singleton,
          if_neg (by simp [h0]; omega), Nat.add_zero]
      rw [hdone] at hrun hused hkept
      refine ⟨bits', ?_, hlen', fun s hs hge hne => ?_,
        fun s hs => hkept s fun h1 h2 => hs h1 (by omega)⟩
      · rw [assignCodes, if_neg (not_not.2 h0)]
        exact hrun
      · rcases Nat.lt_or_eq_of_le hge with hlt | rfl
        · exact hused s hs hlt hne
        · exact absurd (hd.trans h0) hne
    · have h1 : 1 ≤ d := Nat.one_le_iff_ne_zero.2 h0
      have hd15 : d ≤ 15 := h15 d (by rw [hsplit]; simp)
      have hcode := hnext d h1 hd15
      have hword : codeword lengths done.length = first (ofLengths lengths) d + done.count d := by
        rw [codeword, hd, htake]
      -- the code is one of those of its depth
      have hlt : first (ofLengths lengths) d + done.count d < 2 ^ 15 := by
        have hrange := (getD_ofLengths hlength (by rw [hd]; exact h0)).1
        rw [hd, htake] at hrange
        have hend : first (ofLengths lengths) d + (ofLengths lengths d).length ≤ 2 ^ d :=
          codeEnd_le_pow h15 hfit hd15
        have hpow : 2 ^ d ≤ 2 ^ 15 := Nat.pow_le_pow_right (by decide) hd15
        omega
      have hget : nextCode[d]? = some (first (ofLengths lengths) d + done.count d) := by
        rw [← hcode, List.getD_eq_getElem?_getD, List.getElem?_eq_getElem (by omega)]
        rfl
      have hset : ∀ ℓ v, (nextCode.set d v).getD ℓ 0 = if d = ℓ then v else nextCode.getD ℓ 0 := by
        intro ℓ v
        by_cases hℓ : d = ℓ
        · rw [if_pos hℓ, ← hℓ, List.getD_eq_getElem?_getD, List.getElem?_set_self (by omega)]
          rfl
        · rw [if_neg hℓ, List.getD_eq_getElem?_getD, List.getElem?_set_ne hℓ,
            List.getD_eq_getElem?_getD]
      have hmod : (first (ofLengths lengths) d + done.count d + 1) % 2 ^ 16 =
        first (ofLengths lengths) d + done.count d + 1 := by omega
      obtain ⟨bits', hrun, hlen', hused, hkept⟩ := ih hsplit'
        (show (nextCode.set d (first (ofLengths lengths) d + done.count d + 1)).length =
          16 by rw [List.length_set, hlen])
        (show lengths.length ≤
          (bits.set done.length (reverseBits d
            (first (ofLengths lengths) d + done.count d))).length by
          rw [List.length_set]; exact hbits) fun ℓ hℓ1 hℓ => by
          rw [hset, List.count_append, List.count_singleton]
          by_cases hdℓ : d = ℓ
          · rw [if_pos hdℓ, hdℓ, if_pos (beq_self_eq_true ℓ), Nat.add_assoc]
          · rw [if_neg hdℓ, hnext ℓ hℓ1 hℓ, if_neg (by simpa using hdℓ), Nat.add_zero]
      rw [hdone] at hrun hused hkept
      rw [List.length_set] at hlen'
      refine ⟨bits', ?_, hlen', fun s hs hge hne => ?_, fun s hs => ?_⟩
      · rw [assignCodes, if_pos h0, hget, Option.bind_eq_bind, Option.bind_some, setAt,
          if_pos (by omega), Option.bind_eq_bind,
          Option.bind_some, hmod]
        exact hrun
      · rcases Nat.lt_or_eq_of_le hge with hlt' | rfl
        · exact hused s hs hlt' hne
        · rw [hkept done.length fun _ h => absurd h (by omega), List.getD_eq_getElem?_getD,
            List.getElem?_set_self (by omega), hd, hword,
            Option.getD_some, reverseBits_eq h1 hd15]
      · have hne : done.length ≠ s :=
          fun h => h0 (hd.symm.trans (h ▸ hs (h ▸ hlength) (Nat.le_of_eq h)))
        rw [hkept s fun h1 h2 => hs h1 (by omega), List.getD_eq_getElem?_getD,
          List.getElem?_set_ne hne, List.getD_eq_getElem?_getD]

/-- **The patterns are the canonical words**, the first bit lowest; nothing else is
written. -/
theorem convertBitDepthsToSymbols_spec {depth bits : List ℕ} {len : ℕ} (hdepth : len ≤ depth.length)
    (hbits : len ≤ bits.length)
    (hlen : len < 2 ^ 16) (h15 : ∀ d ∈ depth.take len, d ≤ 15)
    (hfit : kraft (depth.take len) ≤ 2 ^ 15) :
    ∃ bits', convertBitDepthsToSymbols depth len bits = some bits' ∧ bits'.length = bits.length ∧
      (∀ s < len, depth.getD s 0 ≠ 0 →
        bits'.getD s 0 = rev (depth.getD s 0) (codeword (depth.take len) s)) ∧
      ∀ s, (s < len → depth.getD s 0 = 0) → bits'.getD s 0 = bits.getD s 0 := by
  have htake : (depth.take len).length = len := by rw [List.length_take, Nat.min_eq_left hdepth]
  have hget : ∀ s < len, (depth.take len).getD s 0 = depth.getD s 0 := fun s hs => by
    rw [List.getD_eq_getElem?_getD, List.getElem?_take_of_lt hs, List.getD_eq_getElem?_getD]
  have hzeros : ∀ d, (List.replicate 16 0).getD d 0 = 0 := fun d => by
    rw [List.getD_eq_getElem?_getD, List.getElem?_replicate]
    split <;> rfl
  obtain ⟨blCount, hcount, hlen16, hcounts⟩ :=
    countDepths_spec (depth.take len) (List.replicate 16 0) (by simp) h15
      fun d => by rw [hzeros, htake]; omega
  have hlists : ∀ d ≤ 15, (blCount.set 0 0).getD d 0 = (ofLengths (depth.take len) d).length := by
    intro d hd
    by_cases h0 : d = 0
    · rw [h0, List.getD_eq_getElem?_getD, List.getElem?_set_self (by omega), ofLengths, if_pos rfl]
      rfl
    · rw [List.getD_eq_getElem?_getD, List.getElem?_set_ne (Ne.symm h0),
        ← List.getD_eq_getElem?_getD, hcounts d hd, hzeros, Nat.zero_add,
        length_ofLengths _ h0]
  obtain ⟨bits', hrun, hlen', hused, hkept⟩ := assignCodes_spec h15 hfit (depth.take len)
    (show depth.take len = [] ++ depth.take len from rfl)
    (show ((List.range 16).map (firstCode (blCount.set 0 0))).length = 16 by simp)
    (show (depth.take len).length ≤ bits.length by rw [htake]; exact hbits) fun ℓ _ hℓ => by
      rw [List.getD_eq_getElem?_getD, List.getElem?_map, List.getElem?_range (by omega)]
      exact firstCode_eq h15 hfit hlists hℓ
  rw [htake] at hused hkept
  refine ⟨bits', ?_, hlen', fun s hs hne => ?_,
    fun s hs => hkept s fun h _ => (hget s h).trans (hs h)⟩
  · rw [convertBitDepthsToSymbols, if_neg (by omega), hcount]
    exact hrun
  · rw [hused s hs (Nat.zero_le s) (by rw [hget s hs]; exact hne), hget s hs]

end Mbrotli.Compressor
