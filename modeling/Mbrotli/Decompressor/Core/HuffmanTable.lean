/-
# The tables decode the canonical code

`Builder.fill` places the words of a complete code length by length: short words in
the root, which is doubled to its full size, longer ones in second-level tables, one
for each eight-bit prefix. `fill_spec` is the result: whatever the storage held
before, the table it fills looks up what the bit-by-bit decoder finds, and the tables
of the group's other codes keep theirs.

`RootShown` says that a placed word is found, with the place of its second-level table;
the walk over the second level keeps the prefix it is in (`Walk.At`), from which the
table widths (`tableBits_spec`) and the disjointness of the tables follow.
-/
import Mathlib.Data.Nat.ModEq
import Mbrotli.Decompressor.Core.Huffman

namespace Mbrotli

open Canonical BitString

/-! ### Keys -/

theorem rev_append (a b v : ℕ) : rev (a + b) v = 2 ^ b * rev a v + rev b (v / 2 ^ a) := by
  induction b with
  | zero => simp [rev]
  | succ b ih =>
    rw [← Nat.add_assoc, rev, ih, rev, Nat.testBit_div_two_pow, pow_succ]
    rw [Nat.add_comm b a]
    ring

/-- A word's key is the word with its bits reversed. -/
theorem keyOf_eq (code : ℕ) {ℓ : ℕ} (hℓ : ℓ ≤ 15) : keyOf code ℓ = rev ℓ code := by
  have h16 : ((rev 8 (code % 256) <<< 8) ||| rev 8 ((code >>> 8) % 256)) = rev 16 code := by
    have h1 : rev 8 (code % 256) = rev 8 code := rev_mod (m := 8) le_rfl code
    have h2 : rev 8 ((code >>> 8) % 256) = rev 8 (code / 2 ^ 8) := by
      rw [Nat.shiftRight_eq_div_pow]; exact rev_mod (m := 8) le_rfl _
    rw [h1, h2, show (16 : ℕ) = 8 + 8 from rfl, rev_append 8 8, Nat.shiftLeft_eq,
      Nat.mul_comm (rev 8 code), Nat.two_pow_add_eq_or_of_lt (rev_lt 8 _)]
  rw [keyOf, h16, Nat.shiftRight_eq_div_pow]
  have := rev_div ℓ (16 - ℓ) code
  rw [show ℓ + (16 - ℓ) = 16 by omega] at this
  exact this

/-- The strings a word starts are those with its key in the low bits. -/
theorem mod_eq_rev_iff {ℓ c v : ℕ} (hc : c < 2 ^ ℓ) : v % 2 ^ ℓ = rev ℓ c ↔ rev ℓ v = c := by
  constructor
  · intro h
    rw [← rev_mod le_rfl v, h, rev_rev hc]
  · intro h
    have h2 : rev ℓ (rev ℓ v) = rev ℓ c := by rw [h]
    rw [← h2, ← rev_mod le_rfl v, rev_rev (Nat.mod_lt _ (Nat.two_pow_pos ℓ))]

/-- Writing a word of `ℓ` bits at its key and every `2 ^ ℓ`-th entry after it. -/
theorem replicate_apply (base len : ℕ) (code : Code) {step : ℕ} (hs : 0 < step) :
    ∀ (fuel index : ℕ) (codes : ℕ → Code), len ≤ index + fuel * step → ∀ i,
      replicate codes base len code step fuel index i =
        if base ≤ i ∧ i < base + len ∧ index ≤ i - base ∧ (i - base) % step = index % step then code
        else codes i := by
  intro fuel
  induction fuel with
  | zero =>
    intro index codes hf i
    rw [replicate, if_neg (by omega)]
  | succ fuel ih =>
    intro index codes hf i
    rw [replicate]
    by_cases hi : index < len
    · rw [if_pos hi, ih (index + step) _ (by rw [Nat.succ_mul] at hf; omega), Nat.add_mod_right]
      split_ifs with h1 h2 h3 h4 h4
      · rfl
      · exact absurd ⟨h1.1, h1.2.1, by omega, h1.2.2.2⟩ h2
      · rfl
      · subst h3
        exact absurd ⟨by omega, by omega, by omega, by rw [Nat.add_sub_cancel_left]⟩ h4
      · -- the next entry of the residue class after `index` is `index + step`
        obtain ⟨hb, hlt, hle, hmod⟩ := h4
        have hd := (Nat.modEq_iff_dvd' hle).mp (show index ≡ i - base [MOD step] from hmod.symm)
        have := Nat.le_of_dvd (by omega) hd
        exact absurd ⟨hb, hlt, by omega, hmod⟩ h1
      · rfl
    · rw [if_neg hi, if_neg (by omega)]

/-- A word placed in a table of `2 ^ m ≥ 2 ^ ℓ` entries is found where its key is. -/
theorem replicate_key (codes : ℕ → Code) (base : ℕ) (code : Code) {ℓ m key : ℕ}
    (hk : key < 2 ^ ℓ) (i : ℕ) :
    replicate codes base (2 ^ m) code (2 ^ ℓ) (2 ^ m) key i =
      if base ≤ i ∧ i < base + 2 ^ m ∧ (i - base) % 2 ^ ℓ = key then code else codes i := by
  have hpos := Nat.two_pow_pos ℓ
  rw [replicate_apply base _ code hpos _ _ _ (by nlinarith [Nat.two_pow_pos m])]
  rw [Nat.mod_eq_of_lt hk]
  refine if_congr ⟨fun h => ⟨h.1, h.2.1, h.2.2.2⟩, fun h => ⟨h.1, h.2.1, ?_, h.2.2⟩⟩ rfl rfl
  rw [← h.2.2]
  exact Nat.mod_le _ _

/-! ### The root -/

section Root

variable {lists : ℕ → List ℕ}

theorem first_add_le_pow (hc : Complete lists) {ℓ : ℕ} (hℓ : ℓ ≤ 15) :
    first lists ℓ + (lists ℓ).length ≤ 2 ^ ℓ := by
  by_cases h : ℓ = 15
  · subst h
    exact hc.2.le
  · have h1 := end_mono lists ℓ (15 - ℓ) (by omega)
    have h2 : first lists 15 + (lists 15).length = 2 ^ 15 := hc.2
    rw [show ℓ + (15 - ℓ) = 15 by omega] at h1
    have h3 : 2 ^ (15 - ℓ) * (first lists ℓ + (lists ℓ).length) ≤ 2 ^ (15 - ℓ) * 2 ^ ℓ := by
      rw [← pow_add, show 15 - ℓ + ℓ = 15 by omega]
      omega
    exact Nat.le_of_mul_le_mul_left h3 (Nat.two_pow_pos _)

/-- The root of `current` entries at `start` shows the `j`-th word of length `ℓ`. -/
def RootShown (lists : ℕ → List ℕ) (codes : ℕ → Code) (start current ℓ j : ℕ) : Prop :=
  ∀ i, i < current → Match lists ℓ j i → codes (start + i) = ⟨ℓ, (lists ℓ).getD j 0⟩

/-- Placing a word in a root shows it, and keeps the others. -/
theorem rootShown_replicate (hc : Complete lists) (codes : ℕ → Code) (start : ℕ) {m ℓ j : ℕ}
    (hℓ : 1 ≤ ℓ) (hm : ℓ ≤ m) (hm15 : m ≤ 15) (hj : j < (lists ℓ).length) :
    let codes' := replicate codes start (2 ^ m) ⟨ℓ, (lists ℓ).getD j 0⟩ (2 ^ ℓ) (2 ^ m)
      (keyOf (first lists ℓ + j) ℓ)
    RootShown lists codes' start (2 ^ m) ℓ j ∧
      ∀ ℓ' j', RootShown lists codes start (2 ^ m) ℓ' j' →
      RootShown lists codes' start (2 ^ m) ℓ' j' := by
  have hlt : first lists ℓ + j < 2 ^ ℓ := by
    have := first_add_le_pow hc (show ℓ ≤ 15 by omega); omega
  simp only [keyOf_eq _ (show ℓ ≤ 15 by omega)]
  constructor
  · intro i hi hmatch
    rw [replicate_key _ _ _ (rev_lt ℓ _), if_pos]
    refine ⟨by omega, by omega, ?_⟩
    rw [Nat.add_sub_cancel_left, mod_eq_rev_iff hlt]
    exact hmatch.2
  · intro ℓ' j' hold i hi hmatch
    rw [replicate_key _ _ _ (rev_lt ℓ _)]
    split_ifs with h
    · rw [Nat.add_sub_cancel_left, mod_eq_rev_iff hlt] at h
      obtain ⟨rfl, rfl⟩ := match_unique hmatch ⟨hj, h.2.2⟩
      rfl
    · exact hold i hi hmatch

theorem replicate_outside (codes : ℕ → Code) (base len : ℕ) (code : Code) {ℓ m key i : ℕ}
    (hk : key < 2 ^ ℓ) (hlen : len = 2 ^ m) (hi : ¬ (base ≤ i ∧ i < base + len)) :
    replicate codes base len code (2 ^ ℓ) len key i = codes i := by
  subst hlen
  rw [replicate_key _ _ _ hk, if_neg fun h => hi ⟨h.1, h.2.1⟩]

/-- The loop over the words of one root length, from the `k`-th on. -/
theorem placeRoot_spec (hc : Complete lists) (start : ℕ) {m ℓ : ℕ} (hℓ : 1 ≤ ℓ) (hm : ℓ ≤ m)
    (hm15 : m ≤ 15) :
    ∀ (k : ℕ) (codes : ℕ → Code), k ≤ (lists ℓ).length →
      let r := Builder.placeRoot start (2 ^ m) ℓ ((lists ℓ).drop k) (first lists ℓ + k) codes
      r.1 = first lists ℓ + (lists ℓ).length ∧
      (∀ j, k ≤ j → j < (lists ℓ).length → RootShown lists r.2 start (2 ^ m) ℓ j) ∧
      (∀ ℓ' j', RootShown lists codes start (2 ^ m) ℓ' j' →
        RootShown lists r.2 start (2 ^ m) ℓ' j') ∧
      ∀ i, ¬ (start ≤ i ∧ i < start + 2 ^ m) → r.2 i = codes i := by
  intro k codes hk
  induction hn : (lists ℓ).length - k generalizing k codes with
  | zero =>
    obtain rfl : k = (lists ℓ).length := by omega
    rw [List.drop_length]
    exact ⟨rfl, fun j h1 h2 => by omega, fun _ _ h => h, fun _ _ => rfl⟩
  | succ n ih =>
    have hlt : k < (lists ℓ).length := by omega
    rw [List.drop_eq_getElem_cons hlt]
    simp only [Builder.placeRoot]
    obtain ⟨h1, h2⟩ := rootShown_replicate hc codes start hℓ hm hm15 hlt
    rw [List.getD_eq_getElem _ _ hlt] at h1 h2
    obtain ⟨r1, r2, r3, r4⟩ :=
      ih (k + 1) (replicate codes start (2 ^ m) ⟨ℓ, (lists ℓ)[k]⟩ (2 ^ ℓ) (2 ^ m)
        (keyOf (first lists ℓ + k) ℓ)) (by omega) (by omega)
    refine ⟨r1, fun j hj1 hj2 => ?_, fun ℓ' j' h => r3 ℓ' j' (h2 ℓ' j' h), fun i hi => ?_⟩
    · rcases Nat.eq_or_lt_of_le hj1 with rfl | hj1
      · exact r3 ℓ k h1
      · exact r2 j hj1 hj2
    · rw [Nat.add_assoc, r4 i hi,
        replicate_outside _ _ _ _ (by rw [keyOf_eq _ (by omega)]; exact rev_lt ℓ _) rfl hi]

/-- The loop over the root lengths from `ℓ` to `m`. -/
theorem rootLoop_spec (hc : Complete lists) {b : Builder} (hb : ∀ ℓ, b.chain ℓ = lists ℓ)
    (start : ℕ) {m : ℕ}
    (hm15 : m ≤ 15) : ∀ (n ℓ : ℕ) (codes : ℕ → Code), 1 ≤ ℓ → ℓ + n = m + 1 →
      let r := b.rootLoop start (2 ^ m) (List.range' ℓ n) (first lists ℓ) codes
      r.1 = first lists (m + 1) ∧
      (∀ ℓ' j, ℓ ≤ ℓ' → ℓ' ≤ m → j < (lists ℓ').length → RootShown lists r.2 start (2 ^ m) ℓ' j) ∧
      (∀ ℓ' j', RootShown lists codes start (2 ^ m) ℓ' j' →
        RootShown lists r.2 start (2 ^ m) ℓ' j') ∧
      ∀ i, ¬ (start ≤ i ∧ i < start + 2 ^ m) → r.2 i = codes i := by
  intro n
  induction n with
  | zero =>
    intro ℓ codes _ hℓ
    obtain rfl : ℓ = m + 1 := by omega
    exact ⟨rfl, fun ℓ' j h1 h2 => by omega, fun _ _ h => h, fun _ _ => rfl⟩
  | succ n ih =>
    intro ℓ codes h1 hℓ
    rw [List.range'_succ]
    simp only [Builder.rootLoop, hb]
    obtain ⟨p1, p2, p3, p4⟩ := placeRoot_spec hc start h1 (show ℓ ≤ m by omega) hm15 0 codes
      (Nat.zero_le _)
    rw [List.drop_zero, Nat.add_zero] at p1 p2 p3 p4
    obtain ⟨r1, r2, r3, r4⟩ :=
      ih (ℓ + 1) (Builder.placeRoot start (2 ^ m) ℓ (lists ℓ) (first lists ℓ) codes).2
        (by omega) (by omega)
    rw [p1, Nat.mul_comm _ 2, ← first]
    refine ⟨r1, fun ℓ' j hl1 hl2 hj => ?_, fun ℓ' j' h => r3 ℓ' j' (p3 ℓ' j' h), fun i hi => by
      rw [r4 i hi, p4 i hi]⟩
    rcases Nat.eq_or_lt_of_le hl1 with rfl | hl1
    · exact r3 ℓ j (p2 j (Nat.zero_le _) hj)
    · exact r2 ℓ' j hl1 hl2 hj

/-- Doubling a root repeats its entries. -/
theorem doubleRoot_spec {start : ℕ} : ∀ (fuel m : ℕ) (codes : ℕ → Code), m ≤ 8 → 8 < m + fuel → ∀ i,
    Builder.doubleRoot start fuel (2 ^ m) codes (start + i) =
      if i < 256 then codes (start + i % 2 ^ m) else codes (start + i) := by
  intro fuel
  induction fuel with
  | zero => intro m codes hm hf; omega
  | succ fuel ih =>
    intro m codes hm hf i
    rw [Builder.doubleRoot]
    rcases Nat.eq_or_lt_of_le hm with rfl | hm
    · rw [if_neg (by decide)]
      split_ifs with h
      · rw [Nat.mod_eq_of_lt (show i < 2 ^ 8 from h)]
      · rfl
    have hpow : 2 ^ (m + 1) = 2 * 2 ^ m := by rw [pow_succ]; omega
    have hle : 2 ^ (m + 1) ≤ 2 ^ 8 := Nat.pow_le_pow_right (by omega) (by omega)
    rw [if_pos (by simp only [rootSize]; omega), ← pow_succ, ih (m + 1) _ (by omega) (by omega)]
    by_cases h : i < 256
    · rw [if_pos h, if_pos h]
      have hmod : i % 2 ^ (m + 1) < 2 ^ (m + 1) := Nat.mod_lt _ (Nat.two_pow_pos _)
      have hmm : i % 2 ^ (m + 1) % 2 ^ m = i % 2 ^ m :=
        Nat.mod_mod_of_dvd _ (pow_dvd_pow 2 (by omega))
      by_cases hi : i % 2 ^ (m + 1) < 2 ^ m
      · rw [if_neg (by omega), ← hmm, Nat.mod_eq_of_lt hi]
      · rw [if_pos (by omega)]
        have hsub : i % 2 ^ (m + 1) % 2 ^ m = i % 2 ^ (m + 1) - 2 ^ m := by
          rw [Nat.mod_eq_sub_mod (Nat.le_of_not_lt hi), Nat.mod_eq_of_lt (by omega)]
        rw [← hmm, hsub]
        congr 1
        omega
    · rw [if_neg h, if_neg h, if_neg (by omega)]

theorem doubleRoot_outside {start : ℕ} : ∀ (fuel m : ℕ) (codes : ℕ → Code), m ≤ 8 → ∀ i,
    ¬ (start ≤ i ∧ i < start + 256) →
      Builder.doubleRoot start fuel (2 ^ m) codes i = codes i := by
  intro fuel
  induction fuel with
  | zero => intro m codes _ i _; rfl
  | succ fuel ih =>
    intro m codes hm i hi
    rw [Builder.doubleRoot]
    split_ifs with h
    · have hm8 : m ≠ 8 := fun he => h (by rw [he]; rfl)
      have hle : 2 ^ (m + 1) ≤ 2 ^ 8 := Nat.pow_le_pow_right (by omega) (by omega)
      rw [pow_succ] at hle
      rw [← pow_succ, ih (m + 1) _ (by omega) i hi, if_neg (by omega)]
    · rfl

end Root

/-! ### The second level -/

section Second

variable {lists : ℕ → List ℕ} {counts : ℕ → ℕ}

/-- The eight-bit prefix of the `j`-th word of length `ℓ`. -/
def wordPrefix (lists : ℕ → List ℕ) (ℓ j : ℕ) : ℕ := (first lists ℓ + j) / 2 ^ (ℓ - 8)

theorem wordPrefix_lt (hc : Complete lists) {ℓ j : ℕ} (h8 : 8 ≤ ℓ) (h15 : ℓ ≤ 15)
    (hj : j < (lists ℓ).length) : wordPrefix lists ℓ j < 256 := by
  have h := first_add_le_pow hc h15
  refine Nat.div_lt_of_lt_mul ?_
  rw [show (256 : ℕ) = 2 ^ 8 from rfl, ← pow_add, show ℓ - 8 + 8 = ℓ by omega]
  omega

/-- A long word's key: its prefix selects the root entry, the rest the second. -/
theorem keyOf_split {ℓ : ℕ} (c : ℕ) (h8 : 8 ≤ ℓ) (h15 : ℓ ≤ 15) :
    keyOf c ℓ % rootSize = rev 8 (c / 2 ^ (ℓ - 8)) ∧ keyOf c ℓ >>> rootBits = rev (ℓ - 8) c := by
  have h := rev_append (ℓ - 8) 8 c
  rw [show ℓ - 8 + 8 = ℓ by omega] at h
  have hlt := rev_lt 8 (c / 2 ^ (ℓ - 8))
  rw [keyOf_eq c h15, h, Nat.shiftRight_eq_div_pow]
  simp only [rootSize, rootBits]
  omega

theorem match_second {ℓ j v : ℕ} (hc : Complete lists) (h8 : 8 ≤ ℓ) (h15 : ℓ ≤ 15)
    (hj : j < (lists ℓ).length) :
    Match lists ℓ j v ↔
      v % 256 = rev 8 (wordPrefix lists ℓ j) ∧
      v / 256 % 2 ^ (ℓ - 8) = rev (ℓ - 8) (first lists ℓ + j) := by
  have hlt : first lists ℓ + j < 2 ^ ℓ := by have := first_add_le_pow hc h15; omega
  have hsplit := rev_append (ℓ - 8) 8 (first lists ℓ + j)
  rw [show ℓ - 8 + 8 = ℓ by omega] at hsplit
  have h1 := rev_lt 8 ((first lists ℓ + j) / 2 ^ (ℓ - 8))
  have hmod : v % 2 ^ ℓ = v % 256 + 256 * (v / 256 % 2 ^ (ℓ - 8)) := by
    rw [show 2 ^ ℓ = 256 * 2 ^ (ℓ - 8) by
      rw [show (256 : ℕ) = 2 ^ 8 from rfl, ← pow_add, show 8 + (ℓ - 8) = ℓ by omega], Nat.mod_mul]
  unfold Match wordPrefix
  rw [← mod_eq_rev_iff hlt, hmod, hsplit]
  constructor
  · rintro ⟨-, h⟩
    omega
  · rintro ⟨h2, h3⟩
    exact ⟨hj, by omega⟩

theorem rev8_injective {p q : ℕ} (hp : p < 256) (hq : q < 256) (h : rev 8 p = rev 8 q) : p = q := by
  have hp' : rev 8 (rev 8 p) = p := rev_rev hp
  have hq' : rev 8 (rev 8 q) = q := rev_rev hq
  rw [← hp', ← hq', h]

/-- The loop that sizes a table stops where the words fill the prefix, or at the
longest length. -/
theorem nextTableBits_spec {remaining : ℕ → ℕ} {P : ℕ} (hr : ∀ ℓ, counts ℓ = (lists ℓ).length) :
    ∀ (fuel ℓ s : ℕ) (left : ℤ), 8 ≤ ℓ → ℓ ≤ 15 → 15 ≤ ℓ + fuel →
    left = (P + 1 : ℕ) * 2 ^ (ℓ - 8) - s →
      s + remaining ℓ = first lists ℓ + (lists ℓ).length →
      (∀ ℓ', ℓ < ℓ' → remaining ℓ' = counts ℓ') →
      let t := nextTableBits remaining fuel ℓ left
      ℓ - 8 ≤ t ∧ t ≤ 7 ∧ (t = 7 ∨ (P + 1) * 2 ^ t ≤
          first lists (8 + t) + (lists (8 + t)).length) := by
  intro fuel
  induction fuel with
  | zero =>
    intro ℓ s left h8 h15 hf _ _ _
    obtain rfl : ℓ = 15 := by omega
    exact ⟨le_rfl, le_rfl, Or.inl rfl⟩
  | succ fuel ih =>
    intro ℓ s left h8 h15 hf hleft hs hrem
    rw [nextTableBits]
    by_cases hlt : ℓ < 15
    · rw [if_pos (show ℓ < Mbrotli.maxLength from hlt)]
      by_cases hle : left - remaining ℓ ≤ 0
      · simp only [if_pos hle]
        refine ⟨le_rfl, by simp only [rootBits]; omega, Or.inr ?_⟩
        simp only [rootBits]
        rw [show 8 + (ℓ - 8) = ℓ by omega, ← hs]
        rw [hleft] at hle
        push_cast at hle
        zify
        linarith
      · simp only [if_neg hle]
        obtain ⟨r1, r2, r3⟩ :=
          ih (ℓ + 1) (first lists (ℓ + 1)) ((left - remaining ℓ) * 2) (by omega) (by omega)
            (by omega) (by
            rw [hleft, first, ← hs, show ℓ + 1 - 8 = ℓ - 8 + 1 by omega, pow_succ]
            push_cast
            ring) (by rw [hrem _ (by omega), hr]) (fun ℓ' h => hrem ℓ' (by omega))
        exact ⟨by omega, r2, r3⟩
    · rw [if_neg (show ¬ ℓ < Mbrotli.maxLength from hlt)]
      obtain rfl : ℓ = 15 := by omega
      exact ⟨le_rfl, le_rfl, Or.inl rfl⟩

/-- A table started at the boundary of prefix `P` is wide enough for its words. -/
theorem tableBits_spec (remaining : ℕ → ℕ) {P ℓ k : ℕ} (hr : ∀ ℓ, counts ℓ = (lists ℓ).length)
    (h8 : 8 ≤ ℓ) (h15 : ℓ ≤ 15) (hk : k ≤ (lists ℓ).length)
    (hP : first lists ℓ + k = P * 2 ^ (ℓ - 8))
    (hcur : remaining ℓ = counts ℓ - k) (hrem : ∀ ℓ', ℓ < ℓ' → remaining ℓ' = counts ℓ') :
    ℓ - 8 ≤ tableBits remaining ℓ ∧ tableBits remaining ℓ ≤ 7 ∧
      ∀ ℓ' j, 8 + tableBits remaining ℓ < ℓ' → ℓ' ≤ 15 → j < (lists ℓ').length →
      P + 1 ≤ wordPrefix lists ℓ' j := by
  have h := nextTableBits_spec (P := P) hr maxLength ℓ (first lists ℓ + k) (2 ^ (ℓ - 8)) h8 h15
    (by simp [Mbrotli.maxLength]) (by rw [hP]; push_cast; ring) (by rw [hcur, hr]; omega) hrem
  change ℓ - 8 ≤ tableBits remaining ℓ ∧ tableBits remaining ℓ ≤ 7 ∧ (tableBits remaining ℓ = 7 ∨
    (P + 1) * 2 ^ tableBits remaining ℓ ≤ first lists (8 + tableBits remaining ℓ) +
      (lists (8 + tableBits remaining ℓ)).length) at h
  refine ⟨h.1, h.2.1, fun ℓ' j h1 h2 hj => ?_⟩
  generalize tableBits remaining ℓ = t at h h1
  rcases h.2.2 with h3 | h3
  · omega
  · rw [wordPrefix, Nat.le_div_iff_mul_le (Nat.two_pow_pos _)]
    have h4 := end_mono lists (8 + t) (ℓ' - (8 + t)) (by omega)
    rw [show 8 + t + (ℓ' - (8 + t)) = ℓ' by omega] at h4
    calc (P + 1) * 2 ^ (ℓ' - 8) = 2 ^ (ℓ' - (8 + t)) * ((P + 1) * 2 ^ t) := by
          rw [show ℓ' - 8 = ℓ' - (8 + t) + t by omega, pow_add]; ring
      _ ≤ 2 ^ (ℓ' - (8 + t)) * (first lists (8 + t) + (lists (8 + t)).length) :=
        Nat.mul_le_mul_left _ h3
      _ ≤ first lists ℓ' + j := by omega

/-- A word of length `ℓ'` placed before the `k`-th of length `ℓ`. -/
def Before (lists : ℕ → List ℕ) (ℓ k ℓ' j : ℕ) : Prop :=
  9 ≤ ℓ' ∧ (ℓ' < ℓ ∨ ℓ' = ℓ ∧ j < k) ∧ j < (lists ℓ').length

/-- The prefixes of the words placed are no greater than that of the next one; they
are smaller if it starts a prefix. -/
theorem Before.prefix_lt {ℓ k ℓ' j P : ℕ} (h : Before lists ℓ k ℓ' j)
    (hP : first lists ℓ + k ≤ P * 2 ^ (ℓ - 8)) :
    wordPrefix lists ℓ' j < P := by
  rw [wordPrefix, Nat.div_lt_iff_lt_mul (Nat.two_pow_pos _)]
  obtain ⟨h9, h | ⟨rfl, hj⟩, hlen⟩ := h
  · have h1 := end_mono lists ℓ' (ℓ - ℓ') (by omega)
    rw [show ℓ' + (ℓ - ℓ') = ℓ by omega] at h1
    have h2 : 2 ^ (ℓ - ℓ') * (first lists ℓ' + (lists ℓ').length) ≤
        2 ^ (ℓ - ℓ') * (P * 2 ^ (ℓ' - 8)) := by
      calc 2 ^ (ℓ - ℓ') * (first lists ℓ' + (lists ℓ').length) ≤ P * 2 ^ (ℓ - 8) := by omega
        _ = 2 ^ (ℓ - ℓ') * (P * 2 ^ (ℓ' - 8)) := by
          rw [show ℓ - 8 = ℓ - ℓ' + (ℓ' - 8) by omega, pow_add]; ring
    have := Nat.le_of_mul_le_mul_left h2 (Nat.two_pow_pos _)
    omega
  · omega

/-- Where the walk stands before a word of length `ℓ`: at the end of the root words,
or in the table of the prefix `P`, which has room for all its words. -/
def Walk.At (lists : ℕ → List ℕ) (ℓ : ℕ) (w : Walk) : Prop :=
  (∀ ℓ', ℓ < ℓ' → w.remaining ℓ' = (lists ℓ').length) ∧
  ((w.low = none ∧ w.appended = 0 ∧ w.tableStart = 0 ∧ ∃ P, w.code = P * 2 ^ (ℓ - 8)) ∨
    ∃ P t, P < 256 ∧ w.low = some (rev 8 P) ∧ t ≤ 7 ∧ w.appended = w.tableStart + 2 ^ t ∧
      P * 2 ^ (ℓ - 8) ≤ w.code ∧ w.code ≤ (P + 1) * 2 ^ (ℓ - 8) ∧
      ∀ ℓ' j, 8 + t < ℓ' → ℓ' ≤ 15 → j < (lists ℓ').length → P + 1 ≤ wordPrefix lists ℓ' j)

/-- A placed long word: its table, and its entries there. The table of the prefix the
walk is in comes last. -/
def SecondShown (lists : ℕ → List ℕ) (codes : ℕ → Code) (start base : ℕ) (w : Walk) (ℓ j : ℕ) :
    Prop :=
  ∃ t s, ℓ ≤ 8 + t ∧
    (w.low = some (rev 8 (wordPrefix lists ℓ j)) → s = w.tableStart ∧ s + 2 ^ t = w.appended) ∧
    (w.low ≠ some (rev 8 (wordPrefix lists ℓ j)) → s + 2 ^ t ≤ w.tableStart) ∧
    codes (start + rev 8 (wordPrefix lists ℓ j)) = ⟨t + 8, base + s⟩ ∧
    ∀ i, i < 2 ^ t → i % 2 ^ (ℓ - 8) = rev (ℓ - 8) (first lists ℓ + j) →
      codes (base + s + i) = ⟨ℓ - 8, (lists ℓ).getD j 0⟩

/-- The storage with the root words and the long words before the `k`-th of length
`ℓ` placed; `old` is what it held. -/
structure Filled (lists : ℕ → List ℕ) (old codes : ℕ → Code) (start base ℓ k : ℕ) (w : Walk) :
    Prop where
  code : w.code = first lists ℓ + k
  walk : w.At lists ℓ
  tableStart_le : w.tableStart ≤ w.appended
  roots : ∀ ℓ' j, 1 ≤ ℓ' → ℓ' ≤ 8 → j < (lists ℓ').length → RootShown lists codes start 256 ℓ' j
  seconds : ∀ ℓ' j, Before lists ℓ k ℓ' j → SecondShown lists codes start base w ℓ' j
  /-- The current table is installed. -/
  table : ∀ x, w.low = some x → x < 256 ∧
    codes (start + x) = ⟨Nat.log2 (w.appended - w.tableStart) + 8, base + w.tableStart⟩
  frame : ∀ i, i < base → ¬ (start ≤ i ∧ i < start + 256) → codes i = old i

/-- The walk's next prefix, from the low key bits it remembers. -/
theorem Walk.At.fresh {ℓ k : ℕ} {w : Walk} (hc : Complete lists) (h : w.At lists ℓ) (h9 : 9 ≤ ℓ)
    (h15 : ℓ ≤ 15)
    (hcode : w.code = first lists ℓ + k) (hk : k < (lists ℓ).length) :
    (w.low ≠ some (rev 8 (wordPrefix lists ℓ k)) → w.code = wordPrefix lists ℓ k * 2 ^ (ℓ - 8)) ∧
    (w.low = some (rev 8 (wordPrefix lists ℓ k)) → ∃ t, t ≤ 7 ∧ ℓ ≤ 8 + t ∧
      w.appended = w.tableStart + 2 ^ t ∧
      ∀ ℓ' j, 8 + t < ℓ' → ℓ' ≤ 15 → j < (lists ℓ').length →
      wordPrefix lists ℓ k + 1 ≤ wordPrefix lists ℓ' j) := by
  have hP : wordPrefix lists ℓ k = w.code / 2 ^ (ℓ - 8) := by rw [wordPrefix, hcode]
  have hpos := Nat.two_pow_pos (ℓ - 8)
  have hp256 := wordPrefix_lt hc (show 8 ≤ ℓ by omega) h15 hk
  obtain ⟨-, ⟨hlow, -, -, P, hcP⟩ | ⟨P, t, hP256, hlow, ht, happ, hge, hle, hroom⟩⟩ := h
  · refine ⟨fun _ => ?_, fun h => by rw [hlow] at h; cases h⟩
    rw [hP, hcP, Nat.mul_div_cancel _ hpos]
  · constructor
    · intro hne
      have hPne : P ≠ w.code / 2 ^ (ℓ - 8) := fun he => hne (by rw [hlow, he, hP])
      have h1 : P ≤ w.code / 2 ^ (ℓ - 8) := (Nat.le_div_iff_mul_le hpos).mpr hge
      have h2 : (P + 1) * 2 ^ (ℓ - 8) ≤ w.code :=
        (Nat.le_div_iff_mul_le hpos).mp (by omega)
      have h3 : w.code = (P + 1) * 2 ^ (ℓ - 8) := le_antisymm hle h2
      rw [hP, h3, Nat.mul_div_cancel _ hpos]
    · intro he
      rw [hlow] at he
      have hPeq := rev8_injective hP256 hp256 (Option.some.inj he)
      subst hPeq
      refine ⟨t, ht, ?_, happ, hroom⟩
      by_contra hlt
      have := hroom ℓ k (by omega) h15 hk
      omega

namespace Filled

variable {old codes : ℕ → Code} {start base ℓ k : ℕ} {w : Walk}

/-- A new prefix opens a table. -/
theorem openTable (hF : Filled lists old codes start base ℓ k w) (hc : Complete lists)
    (hr : ∀ ℓ, counts ℓ = (lists ℓ).length) (h9 : 9 ≤ ℓ) (h15 : ℓ ≤ 15) (hk : k < (lists ℓ).length)
    (hb : start + 256 ≤ base) (hne : w.low ≠ some (rev 8 (wordPrefix lists ℓ k))) :
    let remaining := Function.update w.remaining ℓ (counts ℓ - k)
    let w' : Walk := { w with
      remaining, appended := w.appended + 2 ^ tableBits remaining ℓ
      low := some (rev 8 (wordPrefix lists ℓ k)), tableStart := w.appended }
    Filled lists old
      (fun i => if i = start + rev 8 (wordPrefix lists ℓ k) then
        ⟨Nat.log2 (w'.appended - w'.tableStart) + 8, base + w'.tableStart⟩ else codes i)
      start base ℓ k w' := by
  intro remaining w'
  have hP := (hF.walk.fresh hc h9 h15 hF.code hk).1 hne
  have hP256 := wordPrefix_lt hc (show 8 ≤ ℓ by omega) h15 hk
  have hx256 := rev_lt 8 (wordPrefix lists ℓ k)
  obtain ⟨t1, t2, t3⟩ :=
    tableBits_spec remaining (P := wordPrefix lists ℓ k) hr (by omega) h15 hk.le
      (by rw [← hF.code, hP]) (by simp [remaining])
      (fun ℓ' h => by
      simp only [remaining]
      rw [Function.update_of_ne (by omega), hF.walk.1 ℓ' h, hr])
  refine ⟨hF.code, ⟨fun ℓ' h => ?_,
    Or.inr ⟨wordPrefix lists ℓ k, tableBits remaining ℓ, hP256, rfl, t2, rfl,
    hP.ge, by rw [show w'.code = w.code from rfl, hP]; exact Nat.mul_le_mul_right _ (by omega),
    t3⟩⟩,
    Nat.le_add_right _ _, fun ℓ' j h1 h8 hj i hi hm => ?_, fun ℓ' j hbef => ?_, fun x hx =>
    ?_, fun i hi hroot => ?_⟩
  · simp only [w', remaining]
    rw [Function.update_of_ne (by omega), hF.walk.1 ℓ' h]
  · -- a root word does not start the strings with this prefix
    rw [if_neg, hF.roots ℓ' j h1 h8 hj i hi hm]
    intro he
    obtain rfl : i = rev 8 (wordPrefix lists ℓ k) := by omega
    have hlt : first lists ℓ + k < 2 ^ ℓ := by have := first_add_le_pow hc h15; omega
    have hv : Match lists ℓ k (rev ℓ (first lists ℓ + k)) := ⟨hk, rev_rev hlt⟩
    have h2 := ((match_second hc (show 8 ≤ ℓ by omega) h15 hk).mp hv).1
    have h3 : Match lists ℓ' j (rev ℓ (first lists ℓ + k)) := by
      refine hm.of_mod_eq ?_
      rw [← h2, show (256 : ℕ) = 2 ^ 8 from rfl, Nat.mod_mod_of_dvd _ (pow_dvd_pow 2 h8)]
    have := (match_unique hv h3).1
    omega
  · have hlt := hbef.prefix_lt (P := wordPrefix lists ℓ k) (by rw [← hF.code, hP])
    have hne' : rev 8 (wordPrefix lists ℓ' j) ≠ rev 8 (wordPrefix lists ℓ k) := fun he => by
      have := rev8_injective (by omega) hP256 he
      omega
    obtain ⟨t, s, g1, g2, g3, g4, g5⟩ := hF.seconds ℓ' j hbef
    have hs : s + 2 ^ t ≤ w.appended := by
      by_cases hl : w.low = some (rev 8 (wordPrefix lists ℓ' j))
      · exact (g2 hl).2.le
      · exact le_trans (g3 hl) hF.tableStart_le
    refine ⟨t, s, g1, fun he => absurd (Option.some.inj he).symm hne', fun _ => hs, ?_,
      fun i hi hmod => ?_⟩
    · exact (if_neg (by omega)).trans g4
    · exact (if_neg (by omega)).trans (g5 i hi hmod)
  · cases hx
    exact ⟨hx256, if_pos rfl⟩
  · exact (if_neg (by omega)).trans (hF.frame i hi hroot)

/-- A word goes to the table of its prefix. -/
theorem place (hF : Filled lists old codes start base ℓ k w) (hc : Complete lists)
    (h9 : 9 ≤ ℓ) (h15 : ℓ ≤ 15) (hk : k < (lists ℓ).length)
    (hb : start + 256 ≤ base) (hlow : w.low = some (rev 8 (wordPrefix lists ℓ k))) :
    Filled lists old
      (replicate codes (base + w.tableStart) (w.appended - w.tableStart)
        ⟨ℓ - 8, (lists ℓ).getD k 0⟩ (2 ^ (ℓ - 8))
        (w.appended - w.tableStart) (rev (ℓ - 8) (first lists ℓ + k)))
      start base ℓ (k + 1) { w with code := w.code + 1 } := by
  obtain ⟨t, ht, hℓt, happ, hroom⟩ := (hF.walk.fresh hc h9 h15 hF.code hk).2 hlow
  have hP256 := wordPrefix_lt hc (show 8 ≤ ℓ by omega) h15 hk
  have hx256 := rev_lt 8 (wordPrefix lists ℓ k)
  have hlen : w.appended - w.tableStart = 2 ^ t := by rw [happ, Nat.add_sub_cancel_left]
  have hrep := replicate_key codes (base + w.tableStart) ⟨ℓ - 8, (lists ℓ).getD k 0⟩ (m := t)
    (rev_lt (ℓ - 8) (first lists ℓ + k))
  rw [hlen]
  have hroot : ∀ i, i < 256 → replicate codes (base + w.tableStart) (2 ^ t)
    ⟨ℓ - 8, (lists ℓ).getD k 0⟩
      (2 ^ (ℓ - 8)) (2 ^ t) (rev (ℓ - 8) (first lists ℓ + k)) (start + i) = codes (start + i) :=
      fun i hi => by
    rw [hrep, if_neg (by omega)]
  refine ⟨by simp only [hF.code]; omega,
    ⟨hF.walk.1, Or.inr ⟨wordPrefix lists ℓ k, t, hP256, hlow, ht, happ, ?_, ?_,
    hroom⟩⟩, hF.tableStart_le, fun ℓ' j h1 h8 hj i hi hm => ?_, fun ℓ' j hbef => ?_, fun x hx =>
    ?_, fun i hi hr => ?_⟩
  · have := Nat.div_mul_le_self w.code (2 ^ (ℓ - 8))
    simp only [wordPrefix, ← hF.code]
    omega
  · have := Nat.lt_div_mul_add (a := w.code) (Nat.two_pow_pos (ℓ - 8))
    simp only [wordPrefix, ← hF.code, Nat.succ_mul]
    omega
  · rw [hroot i hi, hF.roots ℓ' j h1 h8 hj i hi hm]
  · by_cases hnew : ℓ' = ℓ ∧ j = k
    · obtain ⟨rfl, rfl⟩ := hnew
      refine ⟨t, w.tableStart, hℓt, fun _ => ⟨rfl, happ.symm⟩, fun h => absurd hlow h, ?_,
        fun i hi hmod => ?_⟩
      · rw [hroot _ hx256, (hF.table _ hlow).2, hlen, Nat.log2_two_pow]
      · rw [hrep, if_pos]
        exact ⟨by omega, by omega, by rw [Nat.add_sub_cancel_left]; exact hmod⟩
    · have hold : Before lists ℓ k ℓ' j := ⟨hbef.1, by
        rcases hbef.2.1 with h | ⟨h1, h2⟩
        · exact Or.inl h
        · exact Or.inr ⟨h1, by have : j ≠ k := fun h => hnew ⟨h1, h⟩
                               omega⟩, hbef.2.2⟩
      have h15' : ℓ' ≤ 15 := by rcases hold.2.1 with h | h <;> omega
      have hp256' := wordPrefix_lt hc (show 8 ≤ ℓ' by have := hold.1; omega) h15' hold.2.2
      obtain ⟨u, s, g1, g2, g3, g4, g5⟩ := hF.seconds ℓ' j hold
      refine ⟨u, s, g1, g2, g3, by rw [hroot _ (rev_lt 8 _), g4], fun i hi hmod => ?_⟩
      rw [hrep, if_neg, g5 i hi hmod]
      rintro ⟨i1, i2, i3⟩
      by_cases hl : w.low = some (rev 8 (wordPrefix lists ℓ' j))
      · -- the same table: no string starts with both words
        have hPP := rev8_injective hp256' hP256 (Option.some.inj (hl.symm.trans hlow))
        obtain ⟨rfl, -⟩ := g2 hl
        rw [Nat.add_sub_cancel_left] at i3
        have hv : (rev 8 (wordPrefix lists ℓ k) + 256 * i) % 256 = rev 8 (wordPrefix lists ℓ k) ∧
            (rev 8 (wordPrefix lists ℓ k) + 256 * i) / 256 = i := by omega
        have hm := (match_second hc (show 8 ≤ ℓ by omega) h15 hk).mpr ⟨hv.1, by rw [hv.2]; exact i3⟩
        have hm' := (match_second hc (show 8 ≤ ℓ' by have := hold.1; omega) h15' hold.2.2).mpr
          ⟨by rw [hv.1, hPP], by rw [hv.2]; exact hmod⟩
        obtain ⟨rfl, rfl⟩ := match_unique hm' hm
        exact hnew ⟨rfl, rfl⟩
      · have := g3 hl
        omega
  · obtain ⟨g1, g2⟩ := hF.table x hx
    exact ⟨g1, by rw [hroot x g1, g2]⟩
  · rw [hrep, if_neg (by omega), hF.frame i hi hr]

/-- The next length starts where the words of this one end. -/
theorem double (hF : Filled lists old codes start base ℓ (lists ℓ).length w) (h9 : 8 ≤ ℓ) :
    Filled lists old codes start base (ℓ + 1) 0 { w with code := w.code * 2 } := by
  have hpow : 2 ^ (ℓ + 1 - 8) = 2 ^ (ℓ - 8) * 2 := by
    rw [show ℓ + 1 - 8 = ℓ - 8 + 1 by omega, pow_succ]
  refine ⟨by simp only [hF.code, first]; omega, ⟨fun ℓ' h => hF.walk.1 ℓ' (by omega), ?_⟩,
    hF.tableStart_le,
    hF.roots, fun ℓ' j hbef => hF.seconds ℓ' j ?_, hF.table, hF.frame⟩
  · rcases hF.walk.2 with ⟨h1, h2, h3, P, hP⟩ | ⟨P, t, h1, h2, h3, h4, h5, h6, h7⟩
    · exact Or.inl ⟨h1, h2, h3, P, by simp only [hP, hpow]; ring⟩
    · refine Or.inr ⟨P, t, h1, h2, h3, h4, ?_, ?_, h7⟩
      · rw [hpow, ← Nat.mul_assoc]; exact Nat.mul_le_mul_right 2 h5
      · rw [hpow, ← Nat.mul_assoc]; exact Nat.mul_le_mul_right 2 h6
  · obtain ⟨b1, b2, b3⟩ := hbef
    refine ⟨b1, ?_, b3⟩
    rcases b2 with h | ⟨_, h⟩
    · rcases Nat.lt_succ_iff_lt_or_eq.mp h with h | rfl
      · exact Or.inl h
      · exact Or.inr ⟨rfl, b3⟩
    · omega

/-- One word: its table is opened if it starts a prefix, and it is placed there. -/
theorem placeWord (hF : Filled lists old codes start base ℓ k w) (hc : Complete lists)
    (hr : ∀ ℓ, counts ℓ = (lists ℓ).length) (h9 : 9 ≤ ℓ) (h15 : ℓ ≤ 15) (hk : k < (lists ℓ).length)
    (hb : start + 256 ≤ base) (rest : List ℕ) {len : ℕ}
    (hlen : base + (w.advance counts ℓ k).2.appended ≤ len) :
    ∃ codes', Filled lists old codes' start base ℓ (k + 1)
        { (w.advance counts ℓ k).2 with code := (w.advance counts ℓ k).2.code + 1 } ∧
      Builder.placeSecond counts start base len ℓ ((lists ℓ).getD k 0 :: rest) k w codes =
        Builder.placeSecond counts start base len ℓ rest (k + 1)
          { (w.advance counts ℓ k).2 with code := (w.advance counts ℓ k).2.code + 1 } codes' := by
  obtain ⟨hmod, hdiv⟩ := keyOf_split w.code (show 8 ≤ ℓ by omega) h15
  have hP : w.code / 2 ^ (ℓ - 8) = wordPrefix lists ℓ k := by rw [hF.code, wordPrefix]
  rw [hP] at hmod
  simp only [rootBits] at hdiv
  simp only [Builder.placeSecond]
  by_cases hlow : w.low = some (rev 8 (wordPrefix lists ℓ k))
  · have hadv : w.advance counts ℓ k = (false, w) := by
      simp only [Walk.advance, hmod, hlow, ne_eq, not_true_eq_false, if_false]
    rw [hadv]
    refine ⟨_, hF.place hc h9 h15 hk hb hlow, ?_⟩
    simp only [Bool.false_eq_true, false_and, if_false, rootBits, hdiv]
    rw [hF.code]
  · have hadv : w.advance counts ℓ k = (true, { w with
        remaining := Function.update w.remaining ℓ (counts ℓ - k)
        appended := w.appended + 2 ^ tableBits (Function.update w.remaining ℓ (counts ℓ - k)) ℓ
        low := some (rev 8 (wordPrefix lists ℓ k)), tableStart := w.appended }) := by
      simp only [Walk.advance, hmod, hlow, ne_eq, not_false_eq_true, if_true]
    have hopen := hF.openTable hc hr h9 h15 hk hb hlow
    rw [hadv] at hlen ⊢
    refine ⟨_, hopen.place hc h9 h15 hk hb rfl, ?_⟩
    rw [if_neg (by simp only [true_and]; exact Nat.not_lt.mpr hlen)]
    simp only [rootBits, hdiv, hmod, if_true]
    rw [hF.code]

end Filled

theorem Walk.appended_le_advance (w : Walk) (ℓ k : ℕ) :
    w.appended ≤ (w.advance counts ℓ k).2.appended := by
  simp only [Walk.advance]
  split
  · exact Nat.le_add_right _ _
  · exact le_rfl

theorem Walk.appended_le_size (ℓ : ℕ) :
    ∀ (n k : ℕ) (w : Walk), w.appended ≤ (w.size counts ℓ n k).appended
  | 0, _, _ => le_rfl
  | n + 1, k, w => le_trans (w.appended_le_advance ℓ k)
      (appended_le_size ℓ n (k + 1) { (w.advance counts ℓ k).2
        with code := (w.advance counts ℓ k).2.code + 1 })

theorem appended_le_secondLoop :
    ∀ (l : List ℕ) (w : Walk), w.appended ≤ (secondLoop counts l w).appended
  | [], _ => le_rfl
  | ℓ :: l, w => le_trans (w.appended_le_size ℓ (counts ℓ) 0)
      (appended_le_secondLoop l { w.size counts ℓ (counts ℓ) 0
        with code := (w.size counts ℓ (counts ℓ) 0).code * 2 })

variable {old : ℕ → Code} {start base len : ℕ}

/-- The loop over the words of one second-level length, from the `k`-th on. -/
theorem placeSecond_spec (hc : Complete lists) (hr : ∀ ℓ, counts ℓ = (lists ℓ).length)
    {ℓ : ℕ} (h9 : 9 ≤ ℓ)
    (h15 : ℓ ≤ 15) (hb : start + 256 ≤ base) : ∀ (n k : ℕ) (codes : ℕ → Code) (w : Walk),
      k + n = (lists ℓ).length → Filled lists old codes start base ℓ k w →
      base + (w.size counts ℓ n k).appended ≤ len →
      ∃ codes', Builder.placeSecond counts start base len ℓ ((lists ℓ).drop k) k w codes =
          .ok (w.size counts ℓ n k, codes') ∧
        Filled lists old codes' start base ℓ (lists ℓ).length (w.size counts ℓ n k) := by
  intro n
  induction n with
  | zero =>
    intro k codes w hk hF _
    obtain rfl : k = (lists ℓ).length := by omega
    rw [List.drop_length]
    exact ⟨codes, rfl, hF⟩
  | succ n ih =>
    intro k codes w hk hF hlen
    have hlt : k < (lists ℓ).length := by omega
    simp only [Walk.size] at hlen
    have hstep : base + (w.advance counts ℓ k).2.appended ≤ len :=
      le_trans (Nat.add_le_add_left (@Walk.appended_le_size counts ℓ n (k + 1)
        { (w.advance counts ℓ k).2 with code := (w.advance counts ℓ k).2.code + 1 }) base) hlen
    obtain ⟨codes', hF', he⟩ := hF.placeWord hc hr h9 h15 hlt hb ((lists ℓ).drop (k + 1)) hstep
    obtain ⟨codes'', h1, h2⟩ := ih (k + 1) codes' _ (by omega) hF' hlen
    refine ⟨codes'', ?_, h2⟩
    rw [List.drop_eq_getElem_cons hlt, ← List.getD_eq_getElem _ 0 hlt, he, h1]
    rfl

/-- The loop over the second-level lengths from `ℓ` on. -/
theorem fillSecond_spec (hc : Complete lists) (hr : ∀ ℓ, counts ℓ = (lists ℓ).length) {b : Builder}
    (hchain : ∀ ℓ, b.chain ℓ = lists ℓ) (hcounts : b.counts = counts) (hb : start + 256 ≤ base) :
    ∀ (n ℓ : ℕ) (codes : ℕ → Code) (w : Walk), 9 ≤ ℓ → ℓ + n = 16 →
    Filled lists old codes start base ℓ 0 w →
      base + (secondLoop counts (List.range' ℓ n) w).appended ≤ len →
      ∃ codes', b.fillSecond start base len (List.range' ℓ n) w codes =
          .ok (secondLoop counts (List.range' ℓ n) w, codes') ∧
        Filled lists old codes' start base 16 0 (secondLoop counts (List.range' ℓ n) w) := by
  intro n
  induction n with
  | zero =>
    intro ℓ codes w _ hℓ hF _
    obtain rfl : ℓ = 16 := by omega
    exact ⟨codes, rfl, hF⟩
  | succ n ih =>
    intro ℓ codes w h9 hℓ hF hlen
    rw [List.range'_succ] at hlen ⊢
    simp only [secondLoop] at hlen
    have hsize : base + (w.size counts ℓ (counts ℓ) 0).appended ≤ len :=
      le_trans (Nat.add_le_add_left (@appended_le_secondLoop counts (List.range' (ℓ + 1) n)
        { w.size counts ℓ (counts ℓ) 0 with code := (w.size counts ℓ (counts ℓ) 0).code * 2 }) base)
        hlen
    obtain ⟨codes', h1, h2⟩ := placeSecond_spec hc hr h9 (by omega) hb (counts ℓ) 0 codes w
      (by rw [hr, Nat.zero_add]) hF hsize
    obtain ⟨codes'', h3, h4⟩ :=
      ih (ℓ + 1) codes' _ (by omega) (by omega) (h2.double (by omega)) hlen
    refine ⟨codes'', ?_, h4⟩
    rw [List.drop_zero] at h1
    simp only [Builder.fillSecond, hchain, hcounts, h1, bind, Except.bind]
    exact h3

/-- Storage that decodes `c` with the root at `start` and second-level tables in
`[lo, hi)`, whatever the rest of it holds. -/
def Holds (codes : ℕ → Code) (start lo hi : ℕ) (c : PrefixCode) : Prop :=
  ∀ codes' : ℕ → Code, (∀ i, start ≤ i ∧ i < start + rootSize ∨ lo ≤ i ∧ i < hi →
    codes' i = codes i) →
    ∀ v, Table.lookup ⟨fun i => codes' (start + i), codes'⟩ v = c.lookup v

/-- Storage that shows every word decodes the code. -/
theorem holds_of_shown {codes : ℕ → Code} {w : Walk} (hc : Complete lists)
    (hw : w.tableStart ≤ w.appended)
    (roots : ∀ ℓ j, 1 ≤ ℓ → ℓ ≤ 8 → j < (lists ℓ).length → RootShown lists codes start 256 ℓ j)
    (seconds : ∀ ℓ j, 9 ≤ ℓ → ℓ ≤ 15 → j < (lists ℓ).length →
      SecondShown lists codes start base w ℓ j) :
    Holds codes start base (base + w.appended) ⟨lists, none, fun _ => hc⟩ := by
  intro codes' heq v
  obtain ⟨ℓ, j, h1, h15, hm⟩ := exists_match hc v
  rw [PrefixCode.lookup_of_match rfl h1 h15 hm]
  have hroot : codes' (start + v % rootSize) = codes (start + v % 256) := by
    have := Nat.mod_lt v (show 0 < rootSize by decide)
    exact heq _ (Or.inl ⟨by omega, by omega⟩)
  simp only [Table.lookup, hroot]
  by_cases h8 : ℓ ≤ 8
  · have hm' : Match lists ℓ j (v % 256) := hm.of_mod_eq (by
      rw [show (256 : ℕ) = 2 ^ 8 from rfl, Nat.mod_mod_of_dvd _ (pow_dvd_pow 2 h8)])
    rw [roots ℓ j h1 h8 hm.1 _ (Nat.mod_lt _ (by decide)) hm']
    exact if_neg (by simp only [rootBits]; omega)
  · obtain ⟨t, s, g1, g2, g3, g4, g5⟩ := seconds ℓ j (by omega) h15 hm.1
    obtain ⟨hp, hs⟩ := (match_second hc (show 8 ≤ ℓ by omega) h15 hm.1).mp hm
    have hend : s + 2 ^ t ≤ w.appended := by
      by_cases hl : w.low = some (rev 8 (wordPrefix lists ℓ j))
      · exact (g2 hl).2.le
      · exact le_trans (g3 hl) hw
    have hidx : v / 256 % 2 ^ t < 2 ^ t := Nat.mod_lt _ (Nat.two_pow_pos t)
    have hsecond : codes' (base + s + v / 256 % 2 ^ t) = ⟨ℓ - 8, (lists ℓ).getD j 0⟩ := by
      rw [heq _ (Or.inr ⟨by omega, by omega⟩)]
      exact g5 _ hidx (by rw [Nat.mod_mod_of_dvd _ (pow_dvd_pow 2 (by omega)), hs])
    rw [hp, g4, if_pos (by simp only [rootBits]; omega)]
    simp only [rootBits, Nat.add_sub_cancel]
    rw [Nat.shiftRight_eq_div_pow, show (2 : ℕ) ^ 8 = 256 from rfl, hsecond]
    simp only [Prod.mk.injEq, true_and]
    omega

end Second

/-! ### Completeness -/

section Space

variable {lists : ℕ → List ℕ} {counts : ℕ → ℕ}

/-- The code space left after the words of the lengths from `ℓ` on. -/
theorem space_spec (hr : ∀ ℓ, counts ℓ = (lists ℓ).length) : ∀ (n ℓ : ℕ) (space : ℤ) (longest : ℕ),
    ℓ + n = 15 → space * 2 = 2 ^ ℓ - first lists ℓ →
    match Builder.space_ counts (List.range' ℓ (n + 1)) space longest with
    | .ok (left, top) => left = 2 ^ 15 - ((first lists 15 + (lists 15).length : ℕ) : ℤ) ∧
        top = (List.range' ℓ (n + 1)).foldl
        (fun m length => if counts length ≠ 0 then length else m) longest
    | .error e => e = .invalidData .huffman ∧
        (2 : ℤ) ^ 15 < ((first lists 15 + (lists 15).length : ℕ) : ℤ) := by
  intro n
  induction n with
  | zero =>
    intro ℓ space longest hℓ hs
    obtain rfl : ℓ = 15 := by omega
    simp only [List.range'_succ, List.range'_zero, Builder.space_, List.foldl]
    by_cases hneg : space * 2 - counts 15 < 0
    · rw [if_pos hneg]
      refine ⟨rfl, ?_⟩
      rw [hs, hr] at hneg
      push_cast
      linarith
    · rw [if_neg hneg]
      refine ⟨?_, rfl⟩
      rw [hs, hr]
      push_cast
      ring
  | succ n ih =>
    intro ℓ space longest hℓ hs
    rw [List.range'_succ]
    simp only [Builder.space_, List.foldl]
    have hnext : (space * 2 - counts ℓ) * 2 = 2 ^ (ℓ + 1) - first lists (ℓ + 1) := by
      rw [hs, hr, first, pow_succ]
      push_cast
      ring
    by_cases hneg : space * 2 - counts ℓ < 0
    · rw [if_pos hneg]
      refine ⟨rfl, ?_⟩
      have h1 := end_mono lists ℓ (15 - ℓ) (by omega)
      rw [show ℓ + (15 - ℓ) = 15 by omega] at h1
      have h2 : 2 ^ ℓ < first lists ℓ + (lists ℓ).length := by
        rw [hs, hr] at hneg
        have : (2 : ℤ) ^ ℓ < (first lists ℓ + (lists ℓ).length : ℕ) := by push_cast; linarith
        exact_mod_cast this
      have h3 : 2 ^ (15 - ℓ) * 2 ^ ℓ < 2 ^ (15 - ℓ) * (first lists ℓ + (lists ℓ).length) :=
        Nat.mul_lt_mul_of_pos_left h2 (Nat.two_pow_pos _)
      rw [← pow_add, show 15 - ℓ + ℓ = 15 by omega] at h3
      have h4 : 2 ^ 15 < first lists 15 + (lists 15).length := by omega
      exact_mod_cast h4
    · rw [if_neg hneg]
      exact ih (ℓ + 1) _ _ (by omega) hnext

theorem le_foldl_longest (l : List ℕ) : ∀ m, (∀ ℓ ∈ l, m ≤ ℓ) → l.Pairwise (· ≤ ·) →
    m ≤ l.foldl (fun m length => if counts length ≠ 0 then length else m) m ∧
      ∀ ℓ ∈ l, counts ℓ ≠ 0 → ℓ ≤ l.foldl
      (fun m length => if counts length ≠ 0 then length else m) m := by
  induction l with
  | nil => intro m _ _; exact ⟨le_rfl, fun ℓ h => nomatch h⟩
  | cons a l ih =>
    intro m hm hl
    simp only [List.foldl]
    rw [List.pairwise_cons] at hl
    by_cases ha : counts a ≠ 0
    · rw [if_pos ha]
      obtain ⟨h1, h2⟩ := ih a hl.1 hl.2
      refine ⟨le_trans (hm a (by simp)) h1, fun ℓ hℓ hne => ?_⟩
      rcases List.mem_cons.mp hℓ with rfl | hℓ
      · exact h1
      · exact h2 ℓ hℓ hne
    · rw [if_neg ha]
      obtain ⟨h1, h2⟩ := ih m (fun ℓ h => hm ℓ (List.mem_cons_of_mem a h)) hl.2
      refine ⟨h1, fun ℓ hℓ hne => ?_⟩
      rcases List.mem_cons.mp hℓ with rfl | hℓ
      · exact absurd hne ha
      · exact h2 ℓ hℓ hne

/-- No word is longer than the longest length. -/
theorem le_longest {ℓ : ℕ} (hℓ : ℓ ≤ 15) (h : counts ℓ ≠ 0) : ℓ ≤ longest counts :=
  (le_foldl_longest (List.range (Mbrotli.maxLength + 1)) 0 (fun _ _ => Nat.zero_le _)
    (List.pairwise_le_range)).2 ℓ (List.mem_range.mpr (Nat.lt_succ_of_le hℓ)) h

theorem rootEnd_eq (h0 : lists 0 = []) (hr : ∀ ℓ, counts ℓ = (lists ℓ).length) (n : ℕ) :
    rootEnd counts n = first lists (n + 1) := by
  induction n with
  | zero => simp [rootEnd, first, h0]
  | succ n ih => rw [rootEnd, ih, hr, Nat.mul_comm]; rfl

end Space

/-! ### Filling -/

/-- Storage that is grown keeps the group's roots and tables. -/
theorem Group.reach_spec (g : Group) (bound : ℕ) (memory : Memory) :
    match g.reach bound memory with
    | .ok (_, g') => g'.count = g.count ∧ g'.used = g.used ∧ bound ≤ g'.codes.len ∧
        g.codes.len ≤ g'.codes.len ∧
        ∀ i, i < g.codes.len → g'.codes.get i = g.codes.get i
    | .error e => ∃ l, memory.limit = some l ∧ e = .memoryLimitExceeded l := by
  unfold Group.reach
  by_cases h : g.codes.len < bound
  · rw [if_pos h]
    cases hm : memory.resize Code.size g.codes bound {} with
    | error e => exact Memory.reserve_error (Memory.resize_error hm)
    | ok r =>
      obtain ⟨c, hc, hb⟩ := Memory.resize_ok hm
      obtain ⟨-, hget, hlen, -⟩ := Memory.reserve_ok hc
      refine ⟨rfl, rfl, ?_, ?_, fun i hi => ?_⟩
      · simp only [hb, Buffer.resize_len]; exact le_rfl
      · simp only [hb, Buffer.resize_len]; omega
      · simp only [hb]
        rw [Buffer.resize_get_of_lt _ _ (by omega), hget]
  · rw [if_neg h]
    exact ⟨rfl, rfl, by omega, le_rfl, fun _ _ => rfl⟩

/-- The lists of a completed description, as the builder keeps them. -/
structure Listed (b : Builder) (lists : ℕ → List ℕ) : Prop where
  zero : lists 0 = []
  chain : ∀ ℓ, b.chain ℓ = lists ℓ
  counts : ∀ ℓ, b.counts ℓ = (lists ℓ).length
  total : b.total = (symbols lists).length
  last : symbols lists ≠ [] → b.last = (symbols lists).foldl max 0

namespace Builder

variable {b : Builder} {lists : ℕ → List ℕ}

theorem fillSecond_nil (start base len : ℕ) (codes : ℕ → Code) :
    ∀ (l : List ℕ) (w : Walk), (∀ ℓ ∈ l, b.chain ℓ = []) →
      ∃ w', b.fillSecond start base len l w codes = .ok (w', codes) ∧ w'.appended = w.appended := by
  intro l
  induction l with
  | nil => intro w _; exact ⟨w, rfl, rfl⟩
  | cons ℓ l ih =>
    intro w hl
    obtain ⟨w', h1, h2⟩ :=
      ih { w with code := w.code * 2 } (fun x hx => hl x (List.mem_cons_of_mem ℓ hx))
    refine ⟨w', ?_, h2⟩
    simp only [fillSecond, hl ℓ (by simp), placeSecond, bind, Except.bind]
    exact h1

/-- The root: the words of up to eight bits, in 256 entries. -/
theorem root_spec (hl : Listed b lists) (hc : Complete lists) (start : ℕ) (codes : ℕ → Code)
    (htop : 1 ≤ longest b.counts) :
    let m := min (longest b.counts) rootBits
    let r := b.rootLoop start (2 ^ m) (lengths.take m) 0 codes
    r.1 = first lists (m + 1) ∧
    (∀ ℓ j, 1 ≤ ℓ → ℓ ≤ 8 → j < (lists ℓ).length →
      RootShown lists (doubleRoot start rootBits (2 ^ m) r.2) start 256 ℓ j) ∧
    ∀ i, ¬ (start ≤ i ∧ i < start + 256) → doubleRoot start rootBits (2 ^ m) r.2 i = codes i := by
  intro m
  have hm8 : m ≤ 8 := Nat.min_le_right _ _
  have hm1 : 1 ≤ m := by simp only [m, rootBits]; omega
  have htake : lengths.take m = List.range' 1 m := by
    have h : ∀ m, m ≤ 8 → lengths.take m = List.range' 1 m := by decide
    exact h m hm8
  have hfirst : first lists 1 = 0 := by simp [first, hl.zero]
  obtain ⟨r1, r2, -, r4⟩ :=
    rootLoop_spec hc hl.chain start (show m ≤ 15 by omega) m 1 codes le_rfl (by omega)
  rw [hfirst] at r1 r2 r4
  intro r
  simp only [r, htake]
  have hpow : 2 ^ m ≤ 256 := by
    have := Nat.pow_le_pow_right (show 0 < 2 by omega) hm8
    omega
  refine ⟨r1, fun ℓ j h1 h8 hj i hi hmatch => ?_, fun i hi => ?_⟩
  · have hℓm : ℓ ≤ m := by
      have := @le_longest b.counts _ (show ℓ ≤ 15 by omega) (by rw [hl.counts]; omega)
      simp only [m, rootBits]
      omega
    rw [doubleRoot_spec rootBits m _ hm8 (by simp only [rootBits]; omega), if_pos hi]
    refine r2 ℓ j h1 hℓm hj _ (Nat.mod_lt _ (Nat.two_pow_pos m)) (hmatch.of_mod_eq ?_)
    exact Nat.mod_mod_of_dvd _ (pow_dvd_pow 2 hℓm)
  · rw [doubleRoot_outside rootBits m _ hm8 i hi, r4 i (by omega)]

/-- The second level after the root: the storage decodes the code. -/
theorem second_spec (hl : Listed b lists) (hc : Complete lists) (old : ℕ → Code)
    (start base len : ℕ) {codes : ℕ → Code}
    (hstart : start + 256 ≤ base) (hlen : base + secondSize b.counts ≤ len) {code : ℕ}
    (hcode : code = first lists (min (longest b.counts) rootBits + 1))
    (roots : ∀ ℓ j, 1 ≤ ℓ → ℓ ≤ 8 → j < (lists ℓ).length → RootShown lists codes start 256 ℓ j)
    (frame : ∀ i, ¬ (start ≤ i ∧ i < start + 256) → codes i = old i) :
    ∃ w codes', b.fillSecond start base len secondLengths { code, remaining := b.counts } codes =
    .ok (w, codes') ∧
      w.appended = secondSize b.counts ∧
      Holds codes' start base (base + w.appended) ⟨lists, none, fun _ => hc⟩ ∧
      ∀ i, i < base → ¬ (start ≤ i ∧ i < start + 256) → codes' i = old i := by
  by_cases htop : longest b.counts ≤ rootBits
  · -- no word goes through a second level
    have hnil : ∀ ℓ, 9 ≤ ℓ → ℓ ≤ 15 → lists ℓ = [] := fun ℓ h9 h15 => by
      by_contra hne
      have :=
        @le_longest b.counts _ h15 (by rw [hl.counts]; exact (List.length_pos_iff.mpr hne).ne')
      simp only [rootBits] at htop
      omega
    obtain ⟨w, h1, h2⟩ := fillSecond_nil (b := b) start base len codes secondLengths
      { code, remaining := b.counts } fun ℓ hℓ => by
        have h : ∀ ℓ ∈ secondLengths, 9 ≤ ℓ ∧ ℓ ≤ 15 := by decide
        rw [hl.chain]
        exact hnil ℓ (h ℓ hℓ).1 (h ℓ hℓ).2
    have hsize : secondSize b.counts = 0 := if_pos htop
    refine ⟨w, codes, h1, by rw [h2, hsize], ?_, fun i _ hi => frame i hi⟩
    rw [h2]
    refine holds_of_shown (w := { code := 0, remaining := b.counts }) hc le_rfl roots
      fun ℓ j h9 h15 hj => ?_
    rw [hnil ℓ h9 h15] at hj
    exact absurd hj (Nat.not_lt_zero j)
  · have hmin : min (longest b.counts) rootBits = 8 := by simp only [rootBits] at htop ⊢; omega
    rw [hmin] at hcode
    have hsize : secondSize b.counts =
        (secondLoop b.counts (List.range' 9 7) { code, remaining := b.counts }).appended := by
      rw [secondSize, if_neg htop, rootEnd_eq hl.zero hl.counts, hcode]
      rfl
    rw [hsize] at hlen ⊢
    have hF : Filled lists old codes start base 9 0 { code, remaining := b.counts } :=
      { code := hcode
        walk := ⟨fun ℓ _ => hl.counts ℓ, Or.inl ⟨rfl, rfl, rfl, first lists 8 + (lists 8).length, by
          rw [show (9 : ℕ) - 8 = 1 from rfl, pow_one, Nat.mul_comm]; exact hcode⟩⟩
        tableStart_le := le_rfl
        roots := roots
        seconds := fun ℓ j h => by have := h.1; have := h.2.1; omega
        table := fun x h => nomatch h
        frame := fun i _ hi => frame i hi }
    obtain ⟨codes', h1, h2⟩ :=
      fillSecond_spec hc hl.counts hl.chain rfl hstart 7 9 codes _ le_rfl rfl hF hlen
    refine ⟨_, codes', h1, rfl, ?_, h2.frame⟩
    exact holds_of_shown hc h2.tableStart_le h2.roots fun ℓ j h9 h15 hj =>
      h2.seconds ℓ j ⟨h9, Or.inl (by omega), hj⟩

/-- What filling a slot leads to: the code of the lists in that slot, with the slots
before it untouched, or their error; or the budget refuses. -/
theorem fill_spec (hl : Listed b lists) {g : Group} {start : ℕ} (hstart : start + rootSize ≤ g.used)
    (hused : g.used ≤ g.codes.len) (memory : Memory) :
    match b.fill g start memory with
    | .ok (largest, _, g') => largest = (Canonical.symbols lists).foldl max 0 ∧
        g'.count = g.count ∧ g'.used = g.used + (if b.total = 1 then 0 else secondSize b.counts) ∧
        g'.used ≤ g'.codes.len ∧
        (∀ i, i < g.used → ¬ (start ≤ i ∧ i < start + rootSize) → g'.codes.get i = g.codes.get i) ∧
        ∃ c, PrefixCode.ofLists lists = some c ∧ Holds g'.codes.get start g.used g'.used c
    | .error (e, _) => e = .invalidData .huffman ∧ PrefixCode.ofLists lists = none ∨
        ∃ l, memory.limit = some l ∧ e = .memoryLimitExceeded l := by
  have hcounts : ∀ ℓ, b.counts ℓ = (lists ℓ).length := hl.counts
  unfold fill
  by_cases h0 : b.total = 0
  · rw [if_pos h0]
    have hnil := List.eq_nil_of_length_eq_zero (hl.total ▸ h0)
    exact Or.inl ⟨rfl, by simp only [PrefixCode.ofLists, hnil]⟩
  rw [if_neg h0, if_neg (by omega)]
  have hne : Canonical.symbols lists ≠ [] := fun h => h0 (by rw [hl.total, h]; rfl)
  by_cases h1 : b.total = 1
  · -- a single symbol fills the root with a word of no bits
    rw [if_pos h1]
    obtain ⟨s, hs⟩ := List.length_eq_one_iff.mp (hl.total ▸ h1)
    have hlast : b.last = s := by rw [hl.last hne, hs]; simp
    have hof : PrefixCode.ofLists lists = some ⟨lists, some s, fun h => by cases h⟩ := by
      unfold PrefixCode.ofLists
      split
      · rename_i h; rw [hs] at h; cases h
      · rename_i t h; rw [hs] at h; cases h; rfl
      · rename_i h; exact absurd hs (h s)
    have hreach := g.reach_spec g.used memory
    cases hr : g.reach g.used memory with
    | error e => rw [hr] at hreach; exact Or.inr hreach
    | ok r =>
      rw [hr] at hreach
      obtain ⟨m1, g1⟩ := r
      obtain ⟨r1, r2, r3, -, r5⟩ := hreach
      refine ⟨hl.last hne, r1, by rw [if_pos h1]; exact r2, by simp only; omega,
        fun i hi hnot => ?_, _, hof,
        fun codes' heq v => ?_⟩
      · exact (if_neg hnot).trans (r5 i (by omega))
      · have hroot : codes' (start + v % rootSize) = ⟨0, s⟩ := by
          have := Nat.mod_lt v (show 0 < rootSize by decide)
          rw [heq _ (Or.inl ⟨by omega, by omega⟩)]
          exact (if_pos ⟨by omega, by omega⟩).trans (by rw [hlast])
        simp only [Table.lookup, hroot, PrefixCode.lookup]
        exact if_neg (Nat.not_lt_zero _)
  rw [if_neg h1]
  have hof : PrefixCode.ofLists lists =
      if h : Complete lists then some ⟨lists, none, fun _ => h⟩ else none := by
    unfold PrefixCode.ofLists
    split
    · rename_i h; exact absurd h hne
    · rename_i t h; exact absurd (by rw [hl.total, h]; rfl) h1
    · rfl
  have hspace := space_spec hcounts 14 1 1 0 rfl (by simp [first, hl.zero])
  rw [show List.range' 1 (14 + 1) = lengths by decide] at hspace
  cases hsp : space_ b.counts lengths 1 0 with
  | error e =>
    rw [hsp] at hspace
    refine Or.inl ⟨hspace.1, ?_⟩
    rw [hof, dif_neg]
    intro hc
    have := hspace.2
    rw [show first lists 15 + (lists 15).length = 2 ^ 15 from hc.2] at this
    norm_num at this
  | ok r =>
    obtain ⟨left, top⟩ := r
    rw [hsp] at hspace
    obtain ⟨hleft, htop⟩ := hspace
    by_cases hz : left ≠ 0
    · simp only [if_pos hz]
      refine Or.inl ⟨by simp, ?_⟩
      rw [hof, dif_neg]
      intro hc
      rw [show first lists 15 + (lists 15).length = 2 ^ 15 from hc.2] at hleft
      exact hz (by rw [hleft]; norm_num)
    simp only [if_neg hz]
    have hc : Complete lists := ⟨hl.zero, by
      have h2 : ((first lists 15 + (lists 15).length : ℕ) : ℤ) = 2 ^ 15 := by
        have := not_not.mp hz
        linarith
      exact_mod_cast h2⟩
    have htop' : top = longest b.counts := by
      rw [htop]
      simp only [longest]
      rw [show List.range (Mbrotli.maxLength + 1) = 0 :: lengths by decide, List.foldl_cons]
      congr 1
      split <;> rfl
    have hlong1 : 1 ≤ longest b.counts := by
      obtain ⟨s, hs⟩ := List.exists_mem_of_ne_nil _ hne
      obtain ⟨ℓ, hℓ1, hℓ15, hsℓ⟩ := mem_symbols.mp hs
      have := @le_longest b.counts _ hℓ15 (by
        rw [hcounts]; exact (List.length_pos_of_mem hsℓ).ne')
      omega
    have hreach := g.reach_spec (g.used + secondSize b.counts) memory
    cases hr : g.reach (g.used + secondSize b.counts) memory with
    | error e => rw [hr] at hreach; exact Or.inr hreach
    | ok r =>
      rw [hr] at hreach
      obtain ⟨m1, g1⟩ := r
      obtain ⟨r1, r2, r3, r4, r5⟩ := hreach
      obtain ⟨k1, k2, k3⟩ := root_spec hl hc start g1.codes.get hlong1
      obtain ⟨w, codes', w1, w2, w3, w4⟩ := second_spec hl hc g1.codes.get start g.used g1.codes.len
        hstart r3 k1 k2 k3
      simp only [htop', r2, w1]
      refine ⟨hl.last hne, r1, by rw [if_neg h1, w2], by rw [w2]; exact r3, fun i hi hnot => ?_, _,
        by rw [hof, dif_pos hc], w3⟩
      rw [w4 i hi hnot, r5 i (by omega)]

end Builder
end Mbrotli
