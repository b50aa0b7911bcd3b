/-
# Stored codes as descriptions

What a writer of codes stores are the fields of a description: the lengths of the code-length code
are stored up to the last that takes space (`storeCodeLengthCode_spec`), and the runs are
tokens that fill the code space with the last of them (`complex_valid`).

The depths of a tree are the lengths of the description, up to zeros at the end, which change
no word (`wordField_append_zeros`).

Key definitions: `fieldCalls`, `shown`.
Key theorems: `kraft_take`, `storeCodeLengthCode_spec`, `complex_valid`.
-/
import Mbrotli.Compressor.Core.Fast.Commands
import Mbrotli.Decompressor.Core.HuffmanUnique
import Mbrotli.Shared.HuffmanStore

namespace Mbrotli.Compressor
open BitString Canonical

/-! ### Fields and calls -/

/-- A call for each field. -/
def fieldCalls (fields : List (ℕ × ℕ)) : List BitOp := fields.map fun f => .write f.1 f.2

theorem fieldCalls_writes {fields : List (ℕ × ℕ)}
    (hfit : ∀ f ∈ fields, f.1 ≤ maxBitsPerWrite ∧ f.2 < 2 ^ f.1) :
    FastCommands.Writes (fieldCalls fields) (fieldBits fields) := by
  induction fields with
  | nil => exact FastCommands.Writes.nil
  | cons f fields ih =>
    obtain ⟨hwide, hlt⟩ := hfit f List.mem_cons_self
    exact FastCommands.Writes.cons hwide hlt rfl (ih fun g hg => hfit g (List.mem_cons_of_mem _ hg))

/-! ### The depths as lengths -/

variable {data depth bits : List ℕ} {length treeLimit : ℕ}

theorem take_succ_getD {n : ℕ} (hn : n < depth.length) :
    depth.take (n + 1) = depth.take n ++ List.replicate 1 (depth.getD n 0) := by
  rw [List.take_add_one, List.getD_eq_getElem?_getD, List.getElem?_eq_getElem hn]
  rfl

/-- The Kraft sum of the depths, and how many there are. -/
theorem kraft_take (hlimit : treeLimit ≤ 15) (hlen : length ≤ depth.length)
    (hused : ∀ v < length, data.getD v 0 ≠ 0 → 1 ≤ depth.getD v 0 ∧ depth.getD v 0 ≤ treeLimit)
    (hunused : ∀ v < length, data.getD v 0 = 0 → depth.getD v 0 = 0) :
    kraft (depth.take length) = 2 ^ (15 - treeLimit) * kraftSum data length treeLimit depth ∧
      Canonical.usedSymbols (depth.take length) = (usedSymbols data length).length := by
  induction length with
  | zero => exact ⟨by rw [kraftSum, usedSymbols]; rfl, rfl⟩
  | succ n ih =>
    obtain ⟨hkraft, hcount⟩ :=
      ih (Nat.le_of_succ_le hlen) (fun v hv => hused v (Nat.lt_succ_of_lt hv)) fun v hv =>
      hunused v (Nat.lt_succ_of_lt hv)
    have hcount' : Canonical.usedSymbols (depth.take n ++ List.replicate 1 (depth.getD n 0)) =
        Canonical.usedSymbols (depth.take n) + if depth.getD n 0 = 0 then 0 else 1 := by
      rw [Canonical.usedSymbols, List.countP_append, ← Canonical.usedSymbols]
      by_cases h0 : depth.getD n 0 = 0
      · rw [h0]
        rfl
      · rw [if_neg h0, List.replicate_one, List.countP_cons_of_pos (by simpa using h0),
          List.countP_nil]
    rw [take_succ_getD hlen, kraft_append_replicate, hkraft, hcount', hcount, kraftSum,
      kraftSum, usedSymbols]
    by_cases hn : data.getD n 0 ≠ 0
    · obtain ⟨h1, hle⟩ := hused n (Nat.lt_succ_self n) hn
      have hpow : 2 ^ (15 - depth.getD n 0) =
          2 ^ (15 - treeLimit) * 2 ^ (treeLimit - depth.getD n 0) := by
        rw [← pow_add]
        congr 1
        omega
      rw [if_pos hn, if_neg (by omega), if_neg (by omega), List.map_cons, List.sum_cons,
        List.length_cons, Nat.one_mul, hpow, Nat.mul_add]
      exact ⟨Nat.add_comm _ _, rfl⟩
    · rw [if_neg hn, if_pos (hunused n (Nat.lt_succ_self n) (not_not.1 hn)),
        if_pos (hunused n (Nat.lt_succ_self n) (not_not.1 hn))]
      exact ⟨rfl, rfl⟩

/-- Zeros at the end change no word. -/
theorem wordField_append_zeros (lengths : List ℕ) (n : ℕ) {s : ℕ} (hs : s < lengths.length) :
    wordField (lengths ++ List.replicate n 0) s = wordField lengths s := by
  have hused : Canonical.usedSymbols (lengths ++ List.replicate n 0) =
      Canonical.usedSymbols lengths := by
    rw [Canonical.usedSymbols, List.countP_append, List.countP_replicate]
    simp [Canonical.usedSymbols]
  have hget : (lengths ++ List.replicate n 0).getD s 0 = lengths.getD s 0 :=
    List.getD_append _ _ _ _ hs
  have hword : codeword (lengths ++ List.replicate n 0) s = codeword lengths s := by
    rw [codeword, codeword, hget, ofLengths_append_replicate, if_pos rfl,
      List.take_append_of_le_length (Nat.le_of_lt hs)]
  rw [wordField, wordField, hused, hget, hword]

/-! ### The lengths of the code-length code -/

/-- The depths of the first `k` codes in storage order. -/
def shown (bitdepth : List ℕ) (k s : ℕ) : ℕ := if order.idxOf s < k then bitdepth.getD s 0 else 0

variable {bitdepth : List ℕ} {k codes : ℕ}

theorem idxOf_order : ∀ k < 18, order.idxOf (order.getD k 0) = k := by decide

theorem order_idxOf {s : ℕ} (hs : s < 18) :
    order.idxOf s < 18 ∧ order.getD (order.idxOf s) 0 = s := by
  have hall : ∀ s < 18, order.idxOf s < 18 ∧ order.getD (order.idxOf s) 0 = s := by decide
  exact hall s hs

theorem shown_succ (hk : k < 18) :
    Function.update (shown bitdepth k) (order.getD k 0) (bitdepth.getD (order.getD k 0) 0) =
    shown bitdepth (k + 1) := by
  funext s
  rw [Function.update_apply, shown, shown]
  by_cases hs : s = order.getD k 0
  · rw [if_pos hs, hs, idxOf_order k hk, if_pos (Nat.lt_succ_self k)]
  · rw [if_neg hs]
    have hne : order.idxOf s ≠ k := fun he => by
      by_cases h18 : s < 18
      · exact hs (by rw [← he, (order_idxOf h18).2])
      · have hall : ∀ t ∈ order, t < 18 := by decide
        have hnot : order.idxOf s = order.length :=
          List.idxOf_eq_length fun hmem => h18 (hall s hmem)
        have : order.length = 18 := rfl
        omega
    have hiff : order.idxOf s < k ↔ order.idxOf s < k + 1 := by omega
    by_cases hlt : order.idxOf s < k
    · rw [if_pos hlt, if_pos (hiff.1 hlt)]
    · rw [if_neg hlt, if_neg fun h => hlt (hiff.2 h)]

theorem codeLengths_shown (hlen : bitdepth.length = 18)
    (hzeros : ∀ j, codes ≤ j → j < 18 → bitdepth.getD (order.getD j 0) 0 = 0) :
    codeLengths (shown bitdepth codes) = bitdepth := by
  refine List.ext_getElem (by rw [codeLengths, List.length_map, List.length_range, hlen])
    fun s h1 h2 => ?_
  rw [hlen] at h2
  obtain ⟨hidx, hget⟩ := order_idxOf h2
  simp only [codeLengths, List.getElem_map, List.getElem_range, shown]
  rw [← List.getD_eq_getElem bitdepth 0 (by omega)]
  split
  · rfl
  · rw [← hget, hzeros _ (by omega) hidx]

theorem kraft_shown_le (hlen : bitdepth.length = 18) (k : ℕ) :
    kraft (codeLengths (shown bitdepth k)) ≤ kraft bitdepth := by
  have hself : codeLengths (shown bitdepth 18) = bitdepth :=
    codeLengths_shown hlen fun j h h' => absurd h' (by omega)
  have hle : kraft (codeLengths (shown bitdepth k)) ≤ kraft (codeLengths (shown bitdepth 18)) := by
    rw [kraft, kraft, codeLengths, codeLengths, List.map_map, List.map_map]
    refine List.sum_le_sum fun s hs => ?_
    rw [Function.comp_apply, Function.comp_apply, shown, shown,
      if_pos (order_idxOf (List.mem_range.1 hs)).1]
    by_cases hk : order.idxOf s < k
    · rw [if_pos hk]
    · rw [if_neg hk, if_pos rfl]
      exact Nat.zero_le _
  rwa [hself] at hle

/-- A depth that is not shown yet leaves room. -/
theorem kraft_shown_lt (hlen : bitdepth.length = 18) {j : ℕ} (hkj : k ≤ j) (hj : j < 18)
    (hne : bitdepth.getD (order.getD j 0) 0 ≠ 0) :
    kraft (codeLengths (shown bitdepth k)) < kraft bitdepth := by
  have hself : codeLengths (shown bitdepth 18) = bitdepth :=
    codeLengths_shown hlen fun i h h' => absurd h' (by omega)
  have hlt : kraft (codeLengths (shown bitdepth k)) < kraft (codeLengths (shown bitdepth 18)) := by
    rw [kraft, kraft, codeLengths, codeLengths, List.map_map, List.map_map]
    refine List.sum_lt_sum _ _ (fun s hs => ?_)
      ⟨order.getD j 0, List.mem_range.2 (Builder.order_lt j hj), ?_⟩
    · rw [Function.comp_apply, Function.comp_apply, shown, shown,
        if_pos (order_idxOf (List.mem_range.1 hs)).1]
      by_cases hk : order.idxOf s < k
      · rw [if_pos hk]
      · rw [if_neg hk, if_pos rfl]
        exact Nat.zero_le _
    · rw [Function.comp_apply, Function.comp_apply, shown, shown, idxOf_order j hj,
        if_neg (Nat.not_lt.2 hkj), if_pos hj, if_pos rfl, if_neg hne]
      exact Nat.two_pow_pos _
  rwa [hself] at hlt

/-- The depths from the `k`-th on are stored. -/
theorem stores_shown (hlen : bitdepth.length = 18) (h5 : ∀ s, bitdepth.getD s 0 ≤ lengthBits)
    (hcodes : codes ≤ 18)
    (hzeros : ∀ j, codes ≤ j → j < 18 → bitdepth.getD (order.getD j 0) 0 = 0)
    (hspace : ∀ k < codes, kraft (codeLengths (shown bitdepth k)) < 2 ^ 15)
    (hend : kraft bitdepth = 2 ^ 15 ∨ codes = 18 ∧ Canonical.usedSymbols bitdepth = 1) (n : ℕ)
    (hk : k + n = codes) :
    Stores k (shown bitdepth k) (((order.take codes).drop k).map fun s => bitdepth.getD s 0) ∧
      place k (shown bitdepth k) (((order.take codes).drop k).map fun s => bitdepth.getD s 0) =
      shown bitdepth codes := by
  have horder : (order.take codes).length = codes := by
    rw [List.length_take]
    exact Nat.min_eq_left hcodes
  induction n generalizing k with
  | zero =>
    obtain rfl : k = codes := hk
    rw [List.drop_eq_nil_of_le horder.le]
    refine ⟨?_, rfl⟩
    show kraft (codeLengths (shown bitdepth k)) = 2 ^ 15 ∨ k = 18 ∧
      Canonical.usedSymbols (codeLengths (shown bitdepth k)) = 1
    rw [codeLengths_shown hlen hzeros]
    exact hend
  | succ n ih =>
    obtain ⟨hrest, hplace⟩ := ih (show k + 1 + n = codes by omega)
    have hnext : (order.take codes).drop k = order.getD k 0 :: (order.take codes).drop (k + 1) := by
      rw [List.drop_eq_getElem_cons (by omega), List.getElem_take, List.getD_eq_getElem]
    rw [← shown_succ (show k < 18 by omega)] at hrest hplace
    rw [hnext, List.map_cons]
    exact ⟨⟨by omega, hspace k (by omega), h5 _, hrest⟩, hplace⟩

theorem lastStored_spec (bitdepth : List ℕ) (n : ℕ) : lastStored bitdepth n ≤ n ∧
    (∀ j, lastStored bitdepth n ≤ j → j < n → bitdepth.getD (order.getD j 0) 0 = 0) ∧
    (0 < lastStored bitdepth n → bitdepth.getD (order.getD (lastStored bitdepth n - 1) 0) 0 ≠
      0) := by
  induction n with
  | zero => exact ⟨Nat.le_refl 0, fun j _ h => absurd h (Nat.not_lt_zero j),
      fun h => absurd h (Nat.lt_irrefl 0)⟩
  | succ n ih =>
    obtain ⟨hle, hzeros, hlast⟩ := ih
    rw [lastStored]
    by_cases hn : bitdepth.getD (storageOrder.getD n 0) 0 ≠ 0
    · rw [if_pos hn]
      exact ⟨Nat.le_refl _, fun j h h' => absurd h' (by omega), fun _ => hn⟩
    · rw [if_neg hn]
      refine ⟨Nat.le_succ_of_le hle, fun j h h' => ?_, hlast⟩
      rcases Nat.lt_or_eq_of_le (Nat.le_of_lt_succ h') with hlt | rfl
      · exact hzeros j h hlt
      · exact not_not.1 hn

theorem storeLength_eq (hlen : bitdepth.length = 18) (h5 : ∀ s, bitdepth.getD s 0 ≤ lengthBits)
    {s : ℕ} (hs : s < 18) :
    storeLength bitdepth s =
    some (.write (lengthField (bitdepth.getD s 0)).1 (lengthField (bitdepth.getD s 0)).2) := by
  have htables : ∀ l ≤ 5, codeLengthHuffmanDepths[l]? = some (lengthField l).1 ∧
      codeLengthHuffmanSymbols[l]? = some (lengthField l).2 := by
    decide
  have hget : bitdepth[s]? = some (bitdepth.getD s 0) := by
    rw [List.getD_eq_getElem?_getD, List.getElem?_eq_getElem (by omega)]
    rfl
  obtain ⟨hdepth, hsymbol⟩ := htables _ (h5 s)
  rw [storeLength, hget]
  simp only [Option.bind_eq_bind, Option.bind_some, hdepth, hsymbol]
  rfl

theorem mapM_storeLength (hlen : bitdepth.length = 18) (h5 : ∀ s, bitdepth.getD s 0 ≤ lengthBits)
    {l : List ℕ} (hl : ∀ s ∈ l, s < 18) :
    l.mapM (storeLength bitdepth) =
    some (fieldCalls ((l.map fun s => bitdepth.getD s 0).map lengthField)) := by
  induction l with
  | nil => rfl
  | cons s l ih =>
    rw [List.mapM_cons, storeLength_eq hlen h5 (hl s List.mem_cons_self),
      ih fun t ht => hl t (List.mem_cons_of_mem _ ht)]
    rfl

/-- The codes that are skipped have no depth. -/
theorem shown_skipped (hlen : bitdepth.length = 18)
    (hskip : ∀ j < k, bitdepth.getD (order.getD j 0) 0 = 0) : shown bitdepth k = fun _ => 0 := by
  funext s
  rw [shown]
  split
  · next hlt =>
    by_cases hs : s < 18
    · rw [← (order_idxOf hs).2, hskip _ hlt]
    · exact List.getD_eq_default _ _ (by omega)
  · rfl

/-- The code-length code is stored as its lengths. -/
theorem storeCodeLengthCode_spec (hlen : bitdepth.length = 18)
    (h5 : ∀ s, bitdepth.getD s 0 ≤ lengthBits)
    (hne : ∃ s < 18, bitdepth.getD s 0 ≠ 0) {numCodes : ℕ}
    (hcode : numCodes = 1 ∧ Canonical.usedSymbols bitdepth = 1 ∧ kraft bitdepth < 2 ^ 15 ∨
      numCodes = 2 ∧ kraft bitdepth = 2 ^ 15) :
    ∃ skip stored, storeCodeLengthCode numCodes bitdepth =
    some (fieldCalls ((2, skip) :: stored.map lengthField)) ∧ skip ≠ 1 ∧ skip < 4 ∧
      Stores skip (fun _ => 0) stored ∧ CodeDescription.small skip stored = bitdepth := by
  obtain ⟨hle, hzeros, hlast⟩ := lastStored_spec bitdepth 18
  obtain ⟨s, hs, hsne⟩ := hne
  obtain ⟨hidx, hget⟩ := order_idxOf hs
  obtain ⟨codes, hcodes⟩ : ∃ codes,
    (if 1 < numCodes then lastStored bitdepth codeLengthCodes else codeLengthCodes) = codes :=
    ⟨_, rfl⟩
  obtain ⟨skip, hskip⟩ : ∃ skip,
    (if bitdepth.getD (storageOrder.getD 0 0) 0 = 0 ∧
      bitdepth.getD (storageOrder.getD 1 0) 0 = 0 then
      if bitdepth.getD (storageOrder.getD 2 0) 0 = 0 then 3 else 2 else 0) = skip := ⟨_, rfl⟩
  have hskipped : skip ≠ 1 ∧ skip < 4 ∧ ∀ j < skip, bitdepth.getD (order.getD j 0) 0 = 0 := by
    subst hskip
    split
    · next h01 =>
      split
      · next h2 =>
        refine ⟨by decide, by decide, fun j hj => ?_⟩
        rcases (show j = 0 ∨ j = 1 ∨ j = 2 by omega) with rfl | rfl | rfl
        · exact h01.1
        · exact h01.2
        · exact h2
      · refine ⟨by decide, by decide, fun j hj => ?_⟩
        rcases (show j = 0 ∨ j = 1 by omega) with rfl | rfl
        · exact h01.1
        · exact h01.2
    · exact ⟨by decide, by decide, fun j hj => absurd hj (Nat.not_lt_zero j)⟩
  have hends : codes ≤ 18 ∧ (∀ j, codes ≤ j → j < 18 → bitdepth.getD (order.getD j 0) 0 = 0) ∧
      (∀ k < codes, kraft (codeLengths (shown bitdepth k)) < 2 ^ 15) ∧
      (kraft bitdepth = 2 ^ 15 ∨ codes = 18 ∧ Canonical.usedSymbols bitdepth = 1) := by
    rcases hcode with ⟨rfl, hone, hspace⟩ | ⟨rfl, hfull⟩
    · rw [if_neg (by decide)] at hcodes
      subst hcodes
      exact ⟨Nat.le_refl 18, fun j h h' => absurd h' (Nat.not_lt.2 h),
        fun k _ => (kraft_shown_le hlen k).trans_lt hspace, Or.inr ⟨rfl, hone⟩⟩
    · rw [if_pos (by decide)] at hcodes
      subst hcodes
      refine ⟨hle, hzeros, fun k hk => ?_, Or.inl hfull⟩
      have hlt :=
        kraft_shown_lt hlen (show k ≤ lastStored bitdepth 18 - 1 by exact Nat.le_sub_one_of_lt hk)
          (show lastStored bitdepth 18 - 1 < 18 by omega) (hlast (Nat.zero_lt_of_lt hk))
      exact hfull ▸ hlt
  obtain ⟨hle18, hafter, hspace, hend⟩ := hends
  have hbetween : skip ≤ codes := by
    have hlow : skip ≤ order.idxOf s := by
      by_contra hlt
      exact hsne (by rw [← hget, hskipped.2.2 _ (Nat.not_le.1 hlt)])
    have hhigh : order.idxOf s < codes := by
      by_contra hge
      exact hsne (by rw [← hget, hafter _ (Nat.not_lt.1 hge) hidx])
    omega
  obtain ⟨hstores, hplace⟩ :=
    stores_shown hlen h5 hle18 hafter hspace hend (codes - skip) (show skip + (codes - skip) =
      codes by omega)
  rw [shown_skipped hlen hskipped.2.2] at hstores hplace
  refine ⟨skip, _, ?_, hskipped.1, hskipped.2.1, hstores, ?_⟩
  · rw [storeCodeLengthCode, hcodes, hskip, if_neg (Nat.not_lt.2 hbetween),
      mapM_storeLength (l := (storageOrder.take codes).drop skip) hlen h5]
    · rfl
    · intro t ht
      have hall : ∀ t ∈ storageOrder, t < 18 := by decide
      exact hall t (List.mem_of_mem_take (List.mem_of_mem_drop ht))
  · rw [CodeDescription.small, hplace]
    exact codeLengths_shown hlen hafter

/-! ### The runs as tokens -/

theorem kraft_append (lengths lengths' : List ℕ) :
    kraft (lengths ++ lengths') = kraft lengths + kraft lengths' := by
  rw [kraft, List.map_append, List.sum_append]
  rfl

/-- Lengths that end with one that is not zero take some of the space. -/
theorem kraft_pos {lengths : List ℕ} (hne : lengths ≠ []) (hlast : lengths.getLast hne ≠ 0) :
    0 < kraft lengths := by
  have hmem : 2 ^ (Canonical.maxLength - lengths.getLast hne) ∈ lengths.map fun ℓ =>
      if ℓ = 0 then 0 else 2 ^ (Canonical.maxLength - ℓ) :=
    List.mem_map.2 ⟨_, List.getLast_mem hne, if_neg hlast⟩
  exact (Nat.two_pow_pos _).trans_le (List.le_sum_of_mem hmem)

/-- Tokens add lengths. -/
theorem foldl_token_append (tokens : List Token) (x : Expansion) :
    ∃ more, (tokens.foldl Expansion.token x).lengths = x.lengths ++ more ∧
    tokens.length ≤ more.length := by
  induction tokens generalizing x with
  | nil => exact ⟨[], (List.append_nil _).symm, Nat.le_refl 0⟩
  | cons t tokens ih =>
    obtain ⟨more, hmore, hle⟩ := ih (x.token t)
    have hlt := x.length_lt_token t
    have hone : ∃ first, (x.token t).lengths = x.lengths ++ first := by
      cases t with
      | length ℓ => exact ⟨_, rfl⟩
      | again extra => exact ⟨_, rfl⟩
      | zeros extra => exact ⟨_, rfl⟩
    obtain ⟨first, hfirst⟩ := hone
    rw [hfirst, List.length_append] at hlt
    refine ⟨first ++ more, ?_, ?_⟩
    · rw [List.foldl_cons, hmore, hfirst, List.append_assoc]
    · rw [List.length_cons, List.length_append]
      omega

/-- Tokens fill the code space with the last of them if what they expand to does, and ends
with a length that is not zero. -/
theorem fills_of_lengths {small : List ℕ} {alphabet : ℕ} (tokens : List Token) (x : Expansion)
    (htokens : ∀ t ∈ tokens, t.Fits ∧ small.getD t.symbol 0 ≠ 0)
    (hkraft : kraft (tokens.foldl Expansion.token x).lengths = 2 ^ 15)
    (hlast : ∀ hne, (tokens.foldl Expansion.token x).lengths.getLast hne ≠ 0)
    (hlen : (tokens.foldl Expansion.token x).lengths.length ≤ alphabet) :
    Expansion.Fills small alphabet x tokens := by
  induction tokens generalizing x with
  | nil => exact hkraft
  | cons t tokens ih =>
    obtain ⟨hfits, hused⟩ := htokens t List.mem_cons_self
    obtain ⟨more, hmore, hcount⟩ := foldl_token_append (t :: tokens) x
    obtain ⟨more', hmore', -⟩ := foldl_token_append tokens (x.token t)
    have hne : more ≠ [] := List.ne_nil_of_length_pos (by rw [List.length_cons] at hcount; omega)
    have hroom : 0 < kraft more := by
      refine kraft_pos hne fun h0 =>
        hlast (by rw [hmore]; exact List.append_ne_nil_of_right_ne_nil _ hne) ?_
      simp only [hmore]
      rw [List.getLast_append_of_ne_nil _ hne, h0]
    refine ⟨?_, hfits, hused, ?_, ih _ (fun u hu => htokens u (List.mem_cons_of_mem _ hu))
      hkraft hlast hlen⟩
    · rw [hmore, kraft_append] at hkraft
      omega
    · rw [List.foldl_cons, hmore', List.length_append] at hlen
      omega

theorem tokenOf_symbol {e : ℕ × ℕ} (h : (tokenOf e).Fits) :
    (tokenOf e).symbol = e.1 ∧ e.1 < 18 := by
  rw [tokenOf] at h ⊢
  by_cases h16 : e.1 = repeatPreviousCodeLength
  · rw [if_pos h16, h16]
    exact ⟨rfl, by decide⟩
  · by_cases h17 : e.1 = repeatZeroCodeLength
    · rw [if_neg h16, if_pos h17, h17]
      exact ⟨rfl, by decide⟩
    · rw [if_neg h16, if_neg h17] at h ⊢
      have hlt : e.1 < 16 := h
      exact ⟨rfl, by omega⟩

theorem wordField_fits {small : List ℕ} (h15 : ∀ ℓ ∈ small, ℓ ≤ 15) (s : ℕ) :
    (wordField small s).1 ≤ maxBitsPerWrite ∧
    (wordField small s).2 < 2 ^ (wordField small s).1 := by
  rw [wordField]
  split
  · exact ⟨Nat.zero_le _, by decide⟩
  · refine ⟨?_, rev_lt _ _⟩
    by_cases hs : s < small.length
    · rw [List.getD_eq_getElem _ _ hs]
      exact (h15 _ (List.getElem_mem _)).trans (by decide)
    · rw [List.getD_eq_default _ _ (Nat.not_lt.1 hs)]
      exact Nat.zero_le _

theorem tokenFields_fit {small : List ℕ} (h15 : ∀ ℓ ∈ small, ℓ ≤ 15) {t : Token} (ht : t.Fits) :
    ∀ f ∈ t.fields small, f.1 ≤ maxBitsPerWrite ∧ f.2 < 2 ^ f.1 := by
  intro f hf
  rcases List.mem_cons.1 hf with rfl | hf
  · exact wordField_fits h15 _
  · cases t with
    | length ℓ => exact absurd hf List.not_mem_nil
    | again extra =>
      rw [List.mem_singleton.1 hf]
      exact ⟨by show 2 ≤ 56; decide, ht⟩
    | zeros extra =>
      rw [List.mem_singleton.1 hf]
      exact ⟨by show 3 ≤ 56; decide, ht⟩

/-- A run is stored as the fields of its token. -/
theorem storeRun_eq {small bitdepth symbols : List ℕ} {e : ℕ × ℕ} (h : (tokenOf e).Fits)
    (hword : wordField small e.1 = (bitdepth.getD e.1 0, symbols.getD e.1 0)) :
    storeRun bitdepth symbols e = fieldCalls ((tokenOf e).fields small) := by
  have hsymbol := (tokenOf_symbol h).1
  rw [storeRun, Token.fields, hsymbol, hword, tokenOf]
  by_cases h16 : e.1 = repeatPreviousCodeLength
  · rw [if_pos h16, if_pos h16]
    rfl
  · by_cases h17 : e.1 = repeatZeroCodeLength
    · rw [if_neg h16, if_pos h17, if_neg h16, if_pos h17]
      rfl
    · rw [if_neg h16, if_neg h17, if_neg h16, if_neg h17]
      rfl

theorem lengthField_fits (v : ℕ) :
    (lengthField v).1 ≤ maxBitsPerWrite ∧ (lengthField v).2 < 2 ^ (lengthField v).1 := by
  unfold lengthField
  split <;> decide

/-- A code-length code in storage, and runs whose symbols are all in it. -/
theorem complex_valid {alphabet skip : ℕ} {stored : List ℕ} {runs : CodeLengthRuns} {done : List ℕ}
    {p : ℕ} (hskip : skip ≠ 1) (hskip4 : skip < 4)
    (hstores : Stores skip (fun _ => 0) stored) (hexp : Expands runs done p)
    (hused : ∀ e ∈ runs, (CodeDescription.small skip stored).getD e.1 0 ≠ 0)
    (hkraft : kraft done = 2 ^ 15)
    (hlast : ∀ hne, done.getLast hne ≠ 0) (hlen : done.length ≤ alphabet) :
    (CodeDescription.complex skip stored (runs.map tokenOf)).Valid alphabet ∧
      (CodeDescription.complex skip stored (runs.map tokenOf)).lengths alphabet = done ∧
      ∀ f ∈ (CodeDescription.complex skip stored (runs.map tokenOf)).fields alphabet,
      f.1 ≤ maxBitsPerWrite ∧ f.2 < 2 ^ f.1 := by
  have hdone : ((runs.map tokenOf).foldl Expansion.token {}).lengths = done := hexp.lengths
  have hcode := hstores.smallCode fun _ => Nat.zero_le _
  refine ⟨⟨hskip, hskip4, hstores,
    fills_of_lengths _ _ ?_ (by rw [hdone]; exact hkraft) ?_ (by rw [hdone]; exact hlen)⟩, hdone,
    ?_⟩
  · intro t ht
    obtain ⟨e, he, rfl⟩ := List.mem_map.1 ht
    exact ⟨hexp.fits e he, by rw [(tokenOf_symbol (hexp.fits e he)).1]; exact hused e he⟩
  · intro hne
    simp only [hdone]
    exact hlast _
  · intro f hf
    rcases List.mem_cons.1 hf with rfl | hf
    · exact ⟨by show 2 ≤ 56; decide, by show skip < 4; exact hskip4⟩
    · rcases List.mem_append.1 hf with hf | hf
      · obtain ⟨v, -, rfl⟩ := List.mem_map.1 hf
        exact lengthField_fits v
      · obtain ⟨t, ht, hf⟩ := List.mem_flatMap.1 hf
        obtain ⟨e, he, rfl⟩ := List.mem_map.1 ht
        exact tokenFields_fit hcode.1 (hexp.fits e he) f hf

end Mbrotli.Compressor
