/-
# The canonical code of an assignment of lengths

`ofLengths` sorts the symbols of an assignment by length, `codeword` is the word the
canonical code gives a symbol, and `Spells` says that a string starts with it; a code
of one symbol spells it with no bits. The code is complete if the lengths' Kraft sum is
one (`complete_ofLengths`), and then every string spells a symbol (`exists_spells`),
the one a decoder of the code finds (`lookup_of_spells`).

`appendAt` grows the list of one length; the code space taken grows with it
(`codeEnd_appendAt`).
-/
import Mathlib.Data.List.Induction
import Mathlib.Data.List.Nodup
import Mbrotli.Lib.PrefixCode

namespace Mbrotli

open Canonical

/-! ### Growing a list -/

/-- Lists with symbols appended to that of one length. -/
def appendAt (lists : ℕ → List ℕ) (length : ℕ) (l : List ℕ) : ℕ → List ℕ :=
  Function.update lists length (lists length ++ l)

section AppendAt

variable {lists : ℕ → List ℕ} {length : ℕ} {l : List ℕ}

theorem symbols_appendAt_length (lists : ℕ → List ℕ) {length : ℕ} (l : List ℕ) (h1 : 1 ≤ length)
    (h15 : length ≤ 15) : (symbols (appendAt lists length l)).length =
    (symbols lists).length + l.length := by
  have key : ∀ n start : ℕ, start ≤ length → length < start + n →
      ((List.range' start n).flatMap (appendAt lists length l)).length =
        ((List.range' start n).flatMap lists).length + l.length := by
    intro n
    induction n with
    | zero => intro start h2 h3; omega
    | succ n ih =>
      intro start h2 h3
      rw [List.range'_succ, List.flatMap_cons, List.flatMap_cons, List.length_append,
        List.length_append]
      rcases Nat.eq_or_lt_of_le h2 with rfl | h2
      · have hrest : (List.range' (start + 1) n).flatMap (appendAt lists start l) =
            (List.range' (start + 1) n).flatMap lists := by
          rw [List.flatMap_def, List.flatMap_def]
          congr 1
          refine List.map_congr_left fun ℓ hℓ => ?_
          have := (List.mem_range'_1.mp hℓ).1
          exact Function.update_of_ne (by omega) _ _
        rw [hrest]
        simp only [appendAt, Function.update_self, List.length_append]
        omega
      · rw [ih (start + 1) (by omega) (by omega)]
        have : appendAt lists length l start = lists start := Function.update_of_ne (by omega) _ _
        rw [this]
        omega
  exact key maxLength 1 h1 (by simp only [maxLength]; omega)

theorem mem_appendAt {ℓ s : ℕ} : s ∈ appendAt lists length l ℓ ↔ s ∈ lists ℓ ∨
    ℓ = length ∧ s ∈ l := by
  by_cases h : ℓ = length
  · subst h
    simp [appendAt]
  · simp [appendAt, h]

theorem mem_symbols_appendAt {s : ℕ} (h1 : 1 ≤ length) (h15 : length ≤ 15) :
    s ∈ symbols (appendAt lists length l) ↔ s ∈ symbols lists ∨ s ∈ l := by
  simp only [mem_symbols, mem_appendAt]
  constructor
  · rintro ⟨ℓ, hℓ1, hℓ15, hs | ⟨rfl, hs⟩⟩
    · exact Or.inl ⟨ℓ, hℓ1, hℓ15, hs⟩
    · exact Or.inr hs
  · rintro (⟨ℓ, hℓ1, hℓ15, hs⟩ | hs)
    · exact ⟨ℓ, hℓ1, hℓ15, Or.inl hs⟩
    · exact ⟨length, h1, h15, Or.inr ⟨rfl, hs⟩⟩

/-- The words up to those of length `m` take this much of the space of `m` bits. -/
def codeEnd (lists : ℕ → List ℕ) (m : ℕ) : ℕ := first lists m + (lists m).length

theorem codeEnd_succ (lists : ℕ → List ℕ) (m : ℕ) :
    codeEnd lists (m + 1) = 2 * codeEnd lists m + (lists (m + 1)).length := rfl

theorem codeEnd_appendAt_of_lt :
    ∀ {m : ℕ}, m < length → codeEnd (appendAt lists length l) m = codeEnd lists m
  | 0, h => by
    have : appendAt lists length l 0 = lists 0 := Function.update_of_ne h.ne _ _
    simp [codeEnd, first, this]
  | m + 1, h => by
    have : appendAt lists length l (m + 1) = lists (m + 1) := Function.update_of_ne h.ne _ _
    rw [codeEnd_succ, codeEnd_succ, this, codeEnd_appendAt_of_lt (Nat.lt_of_succ_lt h)]

/-- A word takes a power of two of the space. -/
theorem codeEnd_appendAt {m : ℕ} (h : length ≤ m) :
    codeEnd (appendAt lists length l) m = codeEnd lists m + l.length * 2 ^ (m - length) := by
  induction m, h using Nat.le_induction with
  | base =>
    cases length with
    | zero => simp [codeEnd, first, appendAt]
    | succ n =>
      rw [codeEnd_succ, codeEnd_succ, codeEnd_appendAt_of_lt (Nat.lt_succ_self n)]
      simp [appendAt, Nat.add_assoc]
  | succ m h ih =>
    have : appendAt lists length l (m + 1) = lists (m + 1) := Function.update_of_ne (by omega) _ _
    rw [codeEnd_succ, codeEnd_succ, this, ih, show m + 1 - length =
      m - length + 1 by omega, pow_succ]
    ring

end AppendAt

namespace Canonical

/-! ### Lengths -/

/-- The symbols of each length, in increasing order. -/
def ofLengths (lengths : List ℕ) (ℓ : ℕ) : List ℕ :=
  if ℓ = 0 then [] else (List.range lengths.length).filter fun s => lengths.getD s 0 = ℓ

/-- The Kraft sum of the lengths, in words of the greatest length. -/
def kraft (lengths : List ℕ) : ℕ :=
  (lengths.map fun ℓ => if ℓ = 0 then 0 else 2 ^ (maxLength - ℓ)).sum

/-- The symbols that have a length. -/
def usedSymbols (lengths : List ℕ) : ℕ := lengths.countP (· ≠ 0)

/-- The word of a symbol: those of its length are in symbol order. -/
def codeword (lengths : List ℕ) (s : ℕ) : ℕ :=
  first (ofLengths lengths) (lengths.getD s 0) + (lengths.take s).count (lengths.getD s 0)

/-- The string `v` starts with the word of `s`, which has `width` bits. The only symbol
of a code takes no bits. -/
def Spells (lengths : List ℕ) (v s width : ℕ) : Prop :=
  s < lengths.length ∧ lengths.getD s 0 ≠ 0 ∧
    if usedSymbols lengths = 1 then width = 0 else width = lengths.getD s 0 ∧
    rev width v = codeword lengths s

variable {lengths : List ℕ}

theorem mem_ofLengths {ℓ s : ℕ} : s ∈ ofLengths lengths ℓ ↔ s < lengths.length ∧
    lengths.getD s 0 = ℓ ∧ ℓ ≠ 0 := by
  unfold ofLengths
  by_cases h : ℓ = 0
  · simp [h]
  · simp [h]

/-- One more length. -/
theorem ofLengths_concat (lengths : List ℕ) (x : ℕ) :
    ofLengths (lengths ++ [x]) =
      if x = 0 then ofLengths lengths else appendAt (ofLengths lengths) x [lengths.length] := by
  have hfilter : ∀ ℓ, (List.range lengths.length).filter
    (fun s => decide ((lengths ++ [x]).getD s 0 = ℓ)) =
      (List.range lengths.length).filter fun s => decide (lengths.getD s 0 = ℓ) := by
    intro ℓ
    apply List.filter_congr
    intro s hs
    rw [List.getD_append _ _ _ _ (List.mem_range.1 hs)]
  have hlast : (lengths ++ [x]).getD lengths.length 0 = x := by simp
  funext ℓ
  unfold ofLengths
  by_cases h0 : ℓ = 0
  · by_cases hx : x = 0
    · simp [h0, hx]
    · rw [if_pos h0, if_neg hx, appendAt, Function.update_of_ne (by omega), if_pos h0]
  · rw [if_neg h0, List.length_append, List.length_singleton, List.range_succ,
      List.filter_append, hfilter]
    by_cases hx : x = 0
    · simp [hx, h0, Ne.symm h0]
    · by_cases hℓ : ℓ = x
      · subst hℓ
        simp [hx, appendAt]
      · simp [hx, h0, hℓ, Ne.symm hℓ, appendAt]

theorem symbols_ofLengths_length (h15 : ∀ ℓ ∈ lengths, ℓ ≤ maxLength) :
    (symbols (ofLengths lengths)).length = usedSymbols lengths := by
  induction lengths using List.reverseRecOn with
  | nil => rfl
  | append_singleton lengths x ih =>
    have hrest := ih fun ℓ hℓ => h15 ℓ (List.mem_append_left _ hℓ)
    have hx : x ≤ maxLength := h15 x (by simp)
    rw [ofLengths_concat]
    by_cases h0 : x = 0
    · simp [usedSymbols, h0] at hrest ⊢
      exact hrest
    · rw [if_neg h0, symbols_appendAt_length _ _ (Nat.pos_of_ne_zero h0) hx, hrest]
      simp [usedSymbols, h0]

/-- The words of a code take their Kraft sum of the space. -/
theorem codeEnd_ofLengths (h15 : ∀ ℓ ∈ lengths, ℓ ≤ maxLength) :
    codeEnd (ofLengths lengths) maxLength = kraft lengths := by
  induction lengths using List.reverseRecOn with
  | nil => rfl
  | append_singleton lengths x ih =>
    have hrest := ih fun ℓ hℓ => h15 ℓ (List.mem_append_left _ hℓ)
    have hx : x ≤ maxLength := h15 x (by simp)
    rw [ofLengths_concat]
    unfold kraft at hrest ⊢
    rw [List.map_append, List.sum_append, ← hrest]
    by_cases h0 : x = 0
    · simp [h0]
    · rw [if_neg h0, codeEnd_appendAt hx]
      simp [h0]

theorem complete_ofLengths (h15 : ∀ ℓ ∈ lengths, ℓ ≤ maxLength) :
    Complete (ofLengths lengths) ↔ kraft lengths = 2 ^ maxLength := by
  rw [← codeEnd_ofLengths h15]
  exact ⟨fun h => h.2, fun h => ⟨rfl, h⟩⟩

/-! ### Words -/

/-- A symbol is as many places after the first of its length as symbols of the length
come before it. -/
theorem getD_ofLengths {s : ℕ} (hs : s < lengths.length) (h0 : lengths.getD s 0 ≠ 0) :
    (lengths.take s).count (lengths.getD s 0) < (ofLengths lengths (lengths.getD s 0)).length ∧
      (ofLengths lengths (lengths.getD s 0)).getD ((lengths.take s).count (lengths.getD s 0)) 0 =
      s := by
  have hsplit : List.range lengths.length =
      List.range s ++ s :: List.range' (s + 1) (lengths.length - s - 1) := by
    have happend := List.range'_append_1 (s := 0) (m := s) (n := lengths.length - s - 1 + 1)
    rw [Nat.zero_add, show s + (lengths.length - s - 1 + 1) = lengths.length by omega] at happend
    rw [List.range_eq_range', List.range_eq_range', ← List.range'_succ, happend]
  have hbefore :
    ((List.range s).filter fun t => decide (lengths.getD t 0 = lengths.getD s 0)).length =
      (lengths.take s).count (lengths.getD s 0) := by
    have hmap : (lengths.take s) = (List.range s).map fun t => lengths.getD t 0 := by
      apply List.ext_getElem
      · simp [hs.le]
      · intro i h1 h2
        have hi : i < lengths.length := by simp at h1; omega
        simp [hi]
    rw [hmap, List.count, List.countP_map, List.countP_eq_length_filter]
    rfl
  unfold ofLengths
  rw [if_neg h0, hsplit, List.filter_append, List.filter_cons_of_pos (by simp), ← hbefore]
  refine ⟨?_, ?_⟩
  · rw [List.length_append, List.length_cons]
    omega
  · simp

/-- A string spells a symbol of a code with words if its word starts it. -/
theorem Spells.match {v s width : ℕ} (h : Spells lengths v s width) (h1 : usedSymbols lengths ≠ 1) :
    width = lengths.getD s 0 ∧ Match (ofLengths lengths) width ((lengths.take s).count width) v ∧
      (ofLengths lengths width).getD ((lengths.take s).count width) 0 = s := by
  obtain ⟨hs, h0, hw⟩ := h
  rw [if_neg h1] at hw
  obtain ⟨rfl, hrev⟩ := hw
  obtain ⟨hlt, hget⟩ := getD_ofLengths hs h0
  exact ⟨rfl, ⟨hlt, hrev⟩, hget⟩

theorem ofLengths_nodup (lengths : List ℕ) (ℓ : ℕ) : (ofLengths lengths ℓ).Nodup := by
  unfold ofLengths
  split
  · exact List.nodup_nil
  · exact List.nodup_range.filter _

theorem spells_of_match {v ℓ j : ℕ} (h1 : usedSymbols lengths ≠ 1)
    (hm : Match (ofLengths lengths) ℓ j v) :
    Spells lengths v ((ofLengths lengths ℓ).getD j 0) ℓ := by
  obtain ⟨s, hset⟩ : ∃ s, s = (ofLengths lengths ℓ).getD j 0 := ⟨_, rfl⟩
  rw [← hset]
  have hmem : s ∈ ofLengths lengths ℓ := by
    rw [hset, List.getD_eq_getElem _ _ hm.1]
    exact List.getElem_mem _
  obtain ⟨hs, rfl, h0⟩ := mem_ofLengths.1 hmem
  obtain ⟨hlt, hget⟩ := getD_ofLengths hs h0
  have hj : j = (lengths.take s).count (lengths.getD s 0) := by
    have hsame := hget.trans hset
    rw [List.getD_eq_getElem _ _ hm.1, List.getD_eq_getElem _ _ hlt] at hsame
    exact ((ofLengths_nodup _ _).getElem_inj_iff.1 hsame).symm
  refine ⟨hs, h0, ?_⟩
  rw [if_neg h1]
  exact ⟨rfl, by rw [hm.2, hj]; rfl⟩

/-- The only symbol of a code. -/
theorem symbols_of_usedSymbols (h15 : ∀ ℓ ∈ lengths, ℓ ≤ maxLength)
    (h1 : usedSymbols lengths = 1) {s : ℕ}
    (hs : s < lengths.length) (h0 : lengths.getD s 0 ≠ 0) : symbols (ofLengths lengths) = [s] := by
  have hlen := symbols_ofLengths_length h15
  rw [h1] at hlen
  obtain ⟨t, ht⟩ := List.length_eq_one_iff.1 hlen
  have hle : lengths.getD s 0 ≤ maxLength := by
    rw [List.getD_eq_getElem _ _ hs]
    exact h15 _ (List.getElem_mem _)
  have hmem : s ∈ symbols (ofLengths lengths) :=
    mem_symbols.2 ⟨lengths.getD s 0, Nat.pos_of_ne_zero h0, hle, mem_ofLengths.2 ⟨hs, rfl, h0⟩⟩
  rw [ht, List.mem_singleton] at hmem
  rw [ht, hmem]

/-- **Every string spells a symbol** of a complete code or of a code of one symbol. -/
theorem exists_spells (h15 : ∀ ℓ ∈ lengths, ℓ ≤ maxLength)
    (hcode : kraft lengths = 2 ^ maxLength ∨ usedSymbols lengths = 1) (v : ℕ) :
    ∃ s width, Spells lengths v s width := by
  by_cases h1 : usedSymbols lengths = 1
  · obtain ⟨ℓ, hmem, h0⟩ := List.countP_pos_iff.1 (Nat.lt_of_lt_of_eq Nat.one_pos h1.symm)
    obtain ⟨s, hs, hget⟩ := List.getElem_of_mem hmem
    refine ⟨s, 0, hs, ?_, ?_⟩
    · rw [List.getD_eq_getElem _ _ hs, hget]
      simpa using h0
    · rw [if_pos h1]
  · have hc := (complete_ofLengths h15).2 (hcode.resolve_right h1)
    obtain ⟨ℓ, j, -, -, hm⟩ := exists_match hc v
    exact ⟨_, _, spells_of_match h1 hm⟩

/-- A decoder of the code finds the symbol a string spells. -/
theorem lookup_of_spells (h15 : ∀ ℓ ∈ lengths, ℓ ≤ maxLength) {c : PrefixCode}
    (hc : PrefixCode.ofLists (ofLengths lengths) = some c) {v s width : ℕ}
    (h : Spells lengths v s width) :
    c.lookup v = (s, width) := by
  have hlen := symbols_ofLengths_length h15
  by_cases h1 : usedSymbols lengths = 1
  · have hsym := symbols_of_usedSymbols h15 h1 h.1 h.2.1
    have hw := h.2.2
    rw [if_pos h1] at hw
    rw [PrefixCode.ofLists, hsym] at hc
    cases hc
    rw [hw]
    rfl
  · obtain ⟨hw, hm, hget⟩ := h.match h1
    have hnone : c.single = none ∧ c.lists = ofLengths lengths := by
      unfold PrefixCode.ofLists at hc
      split at hc
      · cases hc
      · rename_i t ht
        rw [ht] at hlen
        exact absurd hlen.symm h1
      · split at hc
        · cases hc
          exact ⟨rfl, rfl⟩
        · cases hc
    have hpos : 1 ≤ width := by
      rw [hw]
      exact Nat.pos_of_ne_zero h.2.1
    have hle : width ≤ maxLength := by
      rw [hw, List.getD_eq_getElem _ _ h.1]
      exact h15 _ (List.getElem_mem _)
    rw [PrefixCode.lookup_of_match hnone.1 hpos hle (by rw [hnone.2]; exact hm), hnone.2, hget]

/-- A complete code and a code of one symbol can be decoded. -/
theorem exists_ofLists (h15 : ∀ ℓ ∈ lengths, ℓ ≤ maxLength)
    (hcode : kraft lengths = 2 ^ maxLength ∨ usedSymbols lengths = 1) :
    ∃ c, PrefixCode.ofLists (ofLengths lengths) = some c := by
  have hlen := symbols_ofLengths_length h15
  unfold PrefixCode.ofLists
  split
  · rename_i hnil
    obtain ⟨s, _, h⟩ := exists_spells h15 hcode 0
    have hle : lengths.getD s 0 ≤ maxLength := by
      rw [List.getD_eq_getElem _ _ h.1]
      exact h15 _ (List.getElem_mem _)
    have hmem : s ∈ symbols (ofLengths lengths) :=
      mem_symbols.2 ⟨_, Nat.pos_of_ne_zero h.2.1, hle, mem_ofLengths.2 ⟨h.1, rfl, h.2.1⟩⟩
    rw [hnil] at hmem
    cases hmem
  · exact ⟨_, rfl⟩
  · rename_i hne
    have h1 : usedSymbols lengths ≠ 1 := fun h1 => by
      rw [h1] at hlen
      obtain ⟨t, ht⟩ := List.length_eq_one_iff.1 hlen
      exact hne t ht
    exact ⟨_, dif_pos ((complete_ofLengths h15).2 (hcode.resolve_right h1))⟩

end Canonical
end Mbrotli
