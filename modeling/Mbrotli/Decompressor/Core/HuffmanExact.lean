/-
# The description reader, over any calls

`accepts_sound` and `accepts_complete` join the stages: the unsplit reader accepts just
the valid descriptions. `CodeDescription.Valid.code` says that their lengths are those of a
code, which `buildSlot` builds (`Assigned.buildSlot`).

`read_exact` is the result over calls.
-/
import Mbrotli.Decompressor.Core.HuffmanAccepts

namespace Mbrotli

open Canonical BitString

/-! ### Deciding what a description is -/

instance decidableSpelled (I : List UInt8) :
    ∀ (p : ℕ) (fields : List (ℕ × ℕ)) (q : ℕ), Decidable (Spelled I p fields q)
  | p, [], q => inferInstanceAs (Decidable (p = q))
  | p, (width, value) :: fields, q =>
    have := decidableSpelled I (p + width) fields q
    inferInstanceAs (Decidable (bitsAt I p width = value ∧ Spelled I (p + width) fields q))

instance decidableStores : ∀ (k : ℕ) (small : ℕ → ℕ) (stored : List ℕ),
    Decidable (Stores k small stored)
  | k, small, [] =>
    inferInstanceAs
    (Decidable (kraft (codeLengths small) = 2 ^ 15 ∨ k = 18 ∧ usedSymbols (codeLengths small) = 1))
  | k, small, value :: rest =>
    have := decidableStores (k + 1) (Function.update small (order.getD k 0) value) rest
    inferInstanceAs (Decidable (k < 18 ∧ kraft (codeLengths small) < 2 ^ 15 ∧ value ≤ lengthBits ∧
      Stores (k + 1) (Function.update small (order.getD k 0) value) rest))

instance Expansion.decidableFills (small : List ℕ) (alphabet : ℕ) :
    ∀ (x : Expansion) (tokens : List Token),
    Decidable (Fills small alphabet x tokens)
  | x, [] => inferInstanceAs (Decidable (kraft x.lengths = 2 ^ 15))
  | x, t :: rest =>
    have := decidableFills small alphabet (x.token t) rest
    inferInstanceAs (Decidable (kraft x.lengths < 2 ^ 15 ∧ t.Fits ∧ small.getD t.symbol 0 ≠ 0 ∧
      (x.token t).lengths.length ≤ alphabet ∧ Fills small alphabet (x.token t) rest))

instance CodeDescription.decidableValid (alphabet : ℕ) : DecidablePred (Valid alphabet)
  | simple symbols shape => inferInstanceAs
      (Decidable (1 ≤ symbols.length ∧ symbols.length ≤ 4 ∧ symbols.Nodup ∧
      (∀ s ∈ symbols, s < alphabet) ∧ shape < 2 ∧ (symbols.length ≠ 4 → shape = 0)))
  | complex skip stored tokens =>
      inferInstanceAs (Decidable (skip ≠ 1 ∧ skip < 4 ∧ Stores skip (fun _ => 0) stored ∧
      Expansion.Fills (small skip stored) alphabet {} tokens))

/-! ### The lengths of a valid description -/

theorem Expansion.token_le {x : Expansion} (hp : x.previous ≤ 15) (hx : ∀ ℓ ∈ x.lengths, ℓ ≤ 15)
    {t : Token} (ht : t.Fits) :
    (x.token t).previous ≤ 15 ∧ ∀ ℓ ∈ (x.token t).lengths, ℓ ≤ 15 := by
  have hrun : ∀ symbol width length extra, length ≤ 15 →
      ∀ ℓ ∈ (x.run symbol width length extra).lengths, ℓ ≤ 15 := by
    intro symbol width length extra hlength ℓ hℓ
    rcases List.mem_append.1 hℓ with hℓ | hℓ
    · exact hx ℓ hℓ
    · rw [List.eq_of_mem_replicate hℓ]
      exact hlength
  cases t with
  | length m =>
    have hm : m < 16 := ht
    refine ⟨?_, fun ℓ hℓ => ?_⟩
    · show (if m = 0 then x.previous else m) ≤ 15
      split <;> omega
    · rcases List.mem_append.1 hℓ with hℓ | hℓ
      · exact hx ℓ hℓ
      · rw [List.mem_singleton.1 hℓ]
        omega
  | again extra => exact ⟨hp, hrun _ _ _ _ hp⟩
  | zeros extra => exact ⟨hp, hrun _ _ _ _ (Nat.zero_le _)⟩

/-- Tokens that fill the code space give lengths of a complete code. -/
theorem Expansion.Fills.code {small : List ℕ} {alphabet : ℕ} {tokens : List Token} {x : Expansion}
    (h : Fills small alphabet x tokens) (hp : x.previous ≤ 15) (hx : ∀ ℓ ∈ x.lengths, ℓ ≤ 15)
    (hlen : x.lengths.length ≤ alphabet) :
    (∀ ℓ ∈ (tokens.foldl token x).lengths, ℓ ≤ 15) ∧
    (tokens.foldl token x).lengths.length ≤ alphabet ∧
      kraft (tokens.foldl token x).lengths = 2 ^ 15 := by
  induction tokens generalizing x with
  | nil => exact ⟨hx, hlen, h⟩
  | cons t tokens ih =>
    obtain ⟨-, ht, -, hle, h⟩ := h
    obtain ⟨h1, h2⟩ := token_le hp hx ht
    exact ih h h1 h2 hle

namespace Builder

variable {alphabet : ℕ} {b b' : Builder} {I : List UInt8} {B p q : ℕ}

theorem codeEnd_ofPairs (pairs : List (ℕ × ℕ)) (hpairs : ∀ r ∈ pairs, r.1 ≤ 15) :
    codeEnd (ofPairs pairs) 15 = (pairs.map fun r => 2 ^ (15 - r.1)).sum := by
  induction pairs using List.reverseRecOn with
  | nil => rfl
  | append_singleton pairs r ih =>
    rw [ofPairs_concat, codeEnd_appendAt (hpairs r (by simp)),
      ih fun t ht => hpairs t (List.mem_append_left _ ht)]
    simp

theorem symbols_ofPairs (pairs : List (ℕ × ℕ)) (hpairs : ∀ r ∈ pairs, 1 ≤ r.1 ∧ r.1 ≤ 15) :
    (Canonical.symbols (ofPairs pairs)).length = pairs.length := by
  induction pairs using List.reverseRecOn with
  | nil => rfl
  | append_singleton pairs r ih =>
    obtain ⟨h1, h15⟩ := hpairs r (by simp)
    rw [ofPairs_concat, symbols_appendAt_length _ _ h1 h15,
      ih fun t ht => hpairs t (List.mem_append_left _ ht)]
    simp

/-- The lengths of a simple description are those of a complete code, or of one symbol. -/
theorem Simple.code (h : b.Simple alphabet b.count) (h1 : 1 ≤ b.count) (h4 : b.count ≤ 4)
    {shape : ℕ} (h2 : shape < 2) :
    (∀ ℓ ∈ (CodeDescription.simple (b.given b.count) shape).lengths alphabet, ℓ ≤ 15) ∧
      (kraft ((CodeDescription.simple (b.given b.count) shape).lengths alphabet) = 2 ^ 15 ∨
        usedSymbols ((CodeDescription.simple (b.given b.count) shape).lengths alphabet) = 1) := by
  have hperm := shapePairs_perm b.symbols b.count shape
  have hpairs : ∀ r ∈ shapePairs b.symbols b.count shape, 1 ≤ r.1 ∧ r.1 ≤ 15 := fun r hr => by
    obtain ⟨i, hi, rfl⟩ := List.mem_map.1 (hperm.mem_iff.1 hr)
    exact shapeLengths_range h1 h4 shape (List.mem_range.1 hi)
  have h15 : ∀ ℓ ∈ (CodeDescription.simple (b.given b.count) shape).lengths alphabet, ℓ ≤ 15 :=
    fun ℓ hℓ => by
    obtain ⟨s, -, rfl⟩ := List.mem_map.1 hℓ
    split
    · rename_i hmem
      have hidx := List.idxOf_lt_length_of_mem hmem
      rw [length_given] at hidx ⊢
      exact (shapeLengths_range h1 h4 shape hidx).2
    · exact Nat.zero_le _
  refine ⟨h15, ?_⟩
  have hkraft : kraft ((CodeDescription.simple (b.given b.count) shape).lengths alphabet) =
      ((List.range b.count).map fun i => 2 ^ (15 - (shapeLengths b.count shape).getD i 0)).sum := by
    calc kraft ((CodeDescription.simple (b.given b.count) shape).lengths alphabet)
        = codeEnd (ofPairs (shapePairs b.symbols b.count shape)) 15 := by
          rw [← h.ofLengths_eq h1 h4]
          exact (codeEnd_ofLengths h15).symm
      _ = ((shapePairs b.symbols b.count shape).map fun r => 2 ^ (15 - r.1)).sum :=
          codeEnd_ofPairs _ fun r hr => (hpairs r hr).2
      _ = ((List.range b.count).map fun i =>
          2 ^ (15 - (shapeLengths b.count shape).getD i 0)).sum := by
          rw [(hperm.map _).sum_eq, List.map_map]
          rfl
  have hused : usedSymbols ((CodeDescription.simple (b.given b.count) shape).lengths alphabet) =
      b.count := by
    rw [← symbols_ofLengths_length h15, h.ofLengths_eq h1 h4, symbols_ofPairs _ hpairs,
      hperm.length_eq]
    simp
  rw [hkraft, hused]
  have hshape : ∀ count, count ≤ 4 → 1 ≤ count → ∀ shape, shape < 2 →
      ((List.range count).map fun i => 2 ^ (15 - (shapeLengths count shape).getD i 0)).sum =
      2 ^ 15 ∨ count = 1 := by
    decide
  exact hshape b.count h4 h1 shape h2

end Builder

/-- A builder whose simple description has the given symbols. -/
theorem CodeDescription.exists_simple {alphabet : ℕ} {symbols : List ℕ} (hnodup : symbols.Nodup)
    (hlt : ∀ s ∈ symbols, s < alphabet) :
    ∃ b : Builder, b.count = symbols.length ∧ b.Simple alphabet b.count ∧
    b.given b.count = symbols := by
  refine ⟨{ symbols := fun i => symbols.getD i 0, count := symbols.length }, rfl,
    ⟨fun i hi => ?_, fun i j hi hj he => ?_⟩, ?_⟩
  · have hi : i < symbols.length := hi
    show symbols.getD i 0 < alphabet
    rw [List.getD_eq_getElem _ _ hi]
    exact hlt _ (List.getElem_mem _)
  · have hi : i < symbols.length := hi
    have hj : j < symbols.length := hj
    have he : symbols.getD i 0 = symbols.getD j 0 := he
    rw [List.getD_eq_getElem _ _ hi, List.getD_eq_getElem _ _ hj] at he
    exact hnodup.getElem_inj_iff.1 he
  · show (List.range symbols.length).map (fun i => symbols.getD i 0) = symbols
    refine List.ext_getElem (by simp) fun i h1 h2 => ?_
    rw [List.getElem_map, List.getElem_range, List.getD_eq_getElem _ _ h2]

/-- **The lengths of a valid description are those of a complete code or of one symbol.** -/
theorem CodeDescription.Valid.code {alphabet : ℕ} {d : CodeDescription} (h : d.Valid alphabet) :
    (∀ ℓ ∈ d.lengths alphabet, ℓ ≤ 15) ∧ (d.lengths alphabet).length ≤ alphabet ∧
      (kraft (d.lengths alphabet) = 2 ^ 15 ∨ usedSymbols (d.lengths alphabet) = 1) := by
  cases d with
  | simple symbols shape =>
    obtain ⟨h1, h4, hnodup, hlt, h2, -⟩ := h
    obtain ⟨b, hcount, hsimple, hgiven⟩ := exists_simple hnodup hlt
    obtain ⟨h15, hcode⟩ := hsimple.code (by omega) (by omega) h2
    rw [hgiven] at h15 hcode
    exact ⟨h15, by simp [lengths], hcode⟩
  | complex skip stored tokens =>
    obtain ⟨-, -, -, hfills⟩ := h
    obtain ⟨h15, hlen, hkraft⟩ := hfills.code (by decide) (by simp) (Nat.zero_le _)
    exact ⟨h15, hlen, Or.inl hkraft⟩

namespace Builder

variable {alphabet : ℕ} {b b' : Builder} {I : List UInt8} {B p q : ℕ}

/-! ### From the start -/

/-- The builder once the shape of a description is known. -/
def started (b : Builder) (skip : ℕ) : Builder :=
  let b := { b with index := skip, space := 32, count := 0 }
  if skip = 1 then { b with stage := .simpleCount }
    else { b with small := fun _ => 0, stage := .codeLengths }

/-- The builder once the number of symbols is known. -/
def counted (b : Builder) (count : ℕ) : Builder :=
  { b with count := count + 1, index := 0, stage := .simpleSymbols }

theorem start_run (halpha : ¬ (alphabet = 0 ∨ maxAlphabet < alphabet)) (hstage : b.stage = .start) :
    (b.step alphabet).run I B p = if p + 2 ≤ 8 * B then .done (b.started (bitsAt I p 2), false)
    (p + 2) else .stall := by
  unfold step
  rw [if_neg halpha, hstage]
  rfl

theorem simpleCount_run (halpha : ¬ (alphabet = 0 ∨ maxAlphabet < alphabet))
    (hstage : b.stage = .simpleCount) :
    (b.step alphabet).run I B p = if p + 2 ≤ 8 * B then .done (b.counted (bitsAt I p 2), false)
    (p + 2) else .stall := by
  unfold step
  rw [if_neg halpha, hstage]
  rfl

theorem reading_start (hstage : b.stage = .start) : b.Reading alphabet := by
  unfold Reading
  rw [hstage]
  trivial

/-- What the unsplit reader accepts is a valid description, and the builder has its lists. -/
theorem accepts_sound (halpha : ¬ (alphabet = 0 ∨ maxAlphabet < alphabet))
    (hstage : b.stage = .start)
    (hacc : Accepts I B alphabet b p b' q) : ∃ d :
    CodeDescription, d.Valid alphabet ∧ Spelled I p (d.fields alphabet) q ∧ q ≤ 8 * B ∧
      b'.stage = .start ∧ b'.Assigned (d.lengths alphabet) alphabet := by
  have hreading : b.Reading alphabet := reading_start hstage
  have hrun := start_run (I := I) (B := B) (p := p) halpha hstage
  obtain ⟨hw, hacc⟩ := (accepts_of_run hreading hrun).1 hacc
  rw [if_pos hw] at hrun
  have hread := (run_reading hreading hrun).1
  have hskip := bitsAt_lt I p 2
  by_cases h1 : bitsAt I p 2 = 1
  · have hstarted : (b.started (bitsAt I p 2)).stage = .simpleCount := by
      unfold started
      dsimp only
      rw [if_pos h1]
    have hrun' := simpleCount_run (I := I) (B := B) (p := p + 2) halpha hstarted
    obtain ⟨hw', hacc⟩ := (accepts_of_run hread hrun').1 hacc
    rw [if_pos hw'] at hrun'
    obtain ⟨symbols, shape, p₁, g1, g2, g3, g4, g5, g6, g7⟩ :=
      simpleSymbols_sound halpha _ (Nat.lt_succ_self _) rfl
        (run_reading hread hrun').1 hw' hacc
    have hgiven : ((b.started (bitsAt I p 2)).counted (bitsAt I (p + 2) 2)).given
        ((b.started (bitsAt I p 2)).counted (bitsAt I (p + 2) 2)).index ++ symbols = symbols := rfl
    rw [hgiven] at g1 g2 g7
    have hcount : ((b.started (bitsAt I p 2)).counted (bitsAt I (p + 2) 2)).count =
      bitsAt I (p + 2) 2 + 1 := rfl
    rw [hcount] at g1 g4
    refine ⟨.simple symbols shape, g2, ⟨h1, by omega, ?_⟩, g5, g6, g7⟩
    refine spelled_append.2 ⟨p₁, g3, ?_⟩
    rw [g1]
    exact g4
  · have hstarted : b.started (bitsAt I p 2) =
        { b with index := bitsAt I p 2, space := 32, count := 0, small := fun _ => 0, stage :=
        .codeLengths } := by
      unfold started
      dsimp only
      rw [if_neg h1]
    rw [hstarted] at hacc hread
    have hlengths :
        Lengths {
          b with
          index := bitsAt I p 2, space := 32, count := 0, small := fun _ => 0
          stage := .codeLengths } :=
      lengths_start (by simp only; omega) rfl rfl rfl
    obtain ⟨stored, b₁, p₁, g1, g2, g3, g4, g5, g6, g7, g8⟩ :=
      codeLengths_sound halpha _ (Nat.lt_succ_self _) rfl hlengths hw hacc
    obtain ⟨tokens, k1, k2, k3, k4, k5⟩ :=
      symbols_sound halpha g4 _ (Nat.lt_succ_self _) g5 g6 g7 g3 g8
    refine ⟨.complex (bitsAt I p 2) stored tokens, ⟨h1, hskip, g1, k1⟩, ⟨rfl, ?_⟩, k3, k4, k5⟩
    exact spelled_append.2 ⟨p₁, g2, k2⟩

/-- A valid description is accepted. -/
theorem accepts_complete (halpha : ¬ (alphabet = 0 ∨ maxAlphabet < alphabet))
    (hstage : b.stage = .start) {d : CodeDescription}
    (hd : d.Valid alphabet) (hspelled : Spelled I p (d.fields alphabet) q) (hq : q ≤ 8 * B) :
    ∃ b', Accepts I B alphabet b p b' q := by
  have hreading : b.Reading alphabet := reading_start hstage
  have hrun := start_run (I := I) (B := B) (p := p) halpha hstage
  cases d with
  | simple symbols shape =>
    obtain ⟨h1, h4, hnodup, hlt, -, -⟩ := hd
    obtain ⟨hskip, hcount, hspelled⟩ := hspelled
    obtain ⟨p₁, hsymbols, hshape⟩ := spelled_append.1 hspelled
    have hw' : p + 2 + 2 ≤ 8 * B := le_trans hsymbols.le (le_trans hshape.le hq)
    have hw : p + 2 ≤ 8 * B := by omega
    rw [if_pos hw] at hrun
    have hread := (run_reading hreading hrun).1
    have hstarted : (b.started (bitsAt I p 2)).stage = .simpleCount := by
      unfold started
      dsimp only
      rw [if_pos hskip]
    have hrun' := simpleCount_run (I := I) (B := B) (p := p + 2) halpha hstarted
    rw [if_pos hw', hcount] at hrun'
    have hcounted : ((b.started (bitsAt I p 2)).counted (symbols.length - 1)).count =
        symbols.length := by
      show symbols.length - 1 + 1 = _
      omega
    have hlength : (((b.started (bitsAt I p 2)).counted (symbols.length - 1)).given 0 ++
      symbols).length =
        ((b.started (bitsAt I p 2)).counted (symbols.length - 1)).count := by
      rw [hcounted]
      rfl
    rw [← hcounted] at hshape
    obtain ⟨b', hacc⟩ :=
      simpleSymbols_complete halpha hq symbols rfl (run_reading hread hrun').1 hlength hnodup hlt
        hsymbols hshape
    exact ⟨b', (accepts_next hreading hrun).2 ((accepts_next hread hrun').2 hacc)⟩
  | complex skip stored tokens =>
    obtain ⟨h1, -, hstores, hfills⟩ := hd
    obtain ⟨hskip, hspelled⟩ := hspelled
    obtain ⟨p₁, hstored, htokens⟩ := spelled_append.1 hspelled
    have hp₁ : p₁ ≤ 8 * B := le_trans htokens.le hq
    have hw : p + 2 ≤ 8 * B := le_trans hstored.le hp₁
    have h18 : skip < 4 := hskip ▸ bitsAt_lt I p 2
    rw [if_pos hw, hskip] at hrun
    have hstarted : b.started skip =
        { b with index := skip, space := 32, count := 0, small := fun _ => 0, stage :=
        .codeLengths } := by
      unfold started
      dsimp only
      rw [if_neg h1]
    rw [hstarted] at hrun
    have hlengths :
        Lengths { b with index := skip, space := 32, count := 0, small := fun _ => 0, stage :=
      .codeLengths } :=
      lengths_start (by simp only; omega) rfl rfl rfl
    obtain ⟨b₁, g1, g2, g3, g4, g5⟩ :=
      codeLengths_complete halpha hp₁ stored rfl hlengths hstores hstored
    obtain ⟨b', hacc⟩ := symbols_complete halpha g1 hq tokens g2 g3 g4 hfills htokens
    exact ⟨b', (accepts_next hreading hrun).2 (g5 b' q hacc)⟩

/-! ### Building -/

/-- The lists of a valid description are built: only the memory limit can prevent it, and
the table decodes the lengths. -/
theorem Assigned.buildSlot {lengths : List ℕ} (h : b.Assigned lengths alphabet)
    (ha : alphabet ≤ maxAlphabet)
    (h15 : ∀ ℓ ∈ lengths, ℓ ≤ 15) (hcode : kraft lengths = 2 ^ 15 ∨ usedSymbols lengths = 1)
    {g : Group} {tree : ℕ}
    (htree : tree < g.count) (hg : g.Ready) (memory : Memory) :
    match b.buildSlot alphabet g tree memory with
    | .error (e, _) => ∃ l, memory.limit = some l ∧ e = .memoryLimitExceeded l
    | .ok (_, _, g') => Table.Decodes lengths
          ⟨fun i => g'.codes.get (tree * rootSize + i), g'.codes.get⟩ := by
  obtain ⟨c, hc⟩ := exists_ofLists h15 hcode
  have hne : Canonical.symbols (ofLengths lengths) ≠ [] := fun hnil => by
    unfold PrefixCode.ofLists at hc
    rw [hnil] at hc
    cases hc
  have hlast : b.last < alphabet := by
    obtain ⟨ℓ, -, -, hmem⟩ := mem_symbols.1 (h.last hne).1
    exact h.chained.lt ℓ _ hmem
  have hlisted := h.chained.listed ha h.last
  have hstart : tree * rootSize + rootSize ≤ g.used := by
    rw [← Nat.succ_mul]
    exact (Nat.mul_le_mul_right _ htree).trans hg.roots
  have hspec := fill_spec hlisted hstart hg.used_le memory
  unfold Builder.buildSlot
  rw [if_neg (by omega)]
  generalize b.fill g (tree * rootSize) memory = r at hspec
  rcases r with ⟨e, memory', g'⟩ | ⟨largest, memory', g'⟩
  · rcases hspec with ⟨-, hnone⟩ | hmemory
    · rw [hnone] at hc
      cases hc
    · exact hmemory
  · obtain ⟨-, -, -, -, -, c', hc', hholds⟩ := hspec
    exact Table.decodes_of_lookup h15 hc' (hholds _ fun _ _ => rfl)

theorem ofLengths_increasing (lengths : List ℕ) (ℓ : ℕ) :
    (ofLengths lengths ℓ).Pairwise (· < ·) := by
  unfold ofLengths
  split
  · exact List.Pairwise.nil
  · exact List.pairwise_lt_range.filter _

/-- **The description reader is exact.** From a builder at the start of a description,
whatever it read before, every split of the input into calls gives the verdict and the
builder that one call gives. It accepts just the valid descriptions that end within the
bytes allowed; the builder then has the symbols of each length in increasing order, the
last of them all in `last`, and a slot of a group is built from them unless the memory
limit is reached. -/
theorem read_exact (h1 : 1 ≤ alphabet) (hmax : alphabet ≤ maxAlphabet) (hstage : b.stage = .start)
    (hI : I.length ≤ u64Max)
    {limit : Option ℕ} {bits : Bits} {total : ℕ} (hc : Cursor I p bits total)
    (ht : total ≤ I.length)
    (hl : ∀ l, limit = some l → total ≤ l) {pieces : List (List UInt8)} (hne : pieces ≠ [])
    (hpieces : pieces.flatten = I.drop total) :
    (readCalls alphabet limit pieces b bits total).1 =
    (readCalls alphabet limit [I.drop total] b bits total).1 ∧
    (readCalls alphabet limit pieces b bits total).2.1 =
    (readCalls alphabet limit [I.drop total] b bits total).2.1 ∧
    ((readCalls alphabet limit pieces b bits total).1 = .done () ↔
      ∃ (d : CodeDescription) (q : ℕ), d.Valid alphabet ∧ Spelled I p (d.fields alphabet) q ∧
      q ≤ 8 * allowed limit I.length) ∧
    ∀ b' bits' total', readCalls alphabet limit pieces b bits total =
    (.done (), b', bits', total') →
      ∃ (d : CodeDescription) (q : ℕ), d.Valid alphabet ∧ Spelled I p (d.fields alphabet) q ∧
      Cursor I q bits' total' ∧
        b'.stage = .start ∧ (∀ ℓ, b'.chain ℓ = ofLengths (d.lengths alphabet) ℓ ∧
          (b'.chain ℓ).Pairwise (· < ·)) ∧
        (b'.last ∈ Canonical.symbols (ofLengths (d.lengths alphabet)) ∧
          ∀ s ∈ Canonical.symbols (ofLengths (d.lengths alphabet)), s ≤ b'.last) ∧
        ∀ (g : Group) (tree : ℕ) (memory : Memory), tree < g.count → g.Ready →
          match b'.buildSlot alphabet g tree memory with
          | .error (e, _) => ∃ l, memory.limit = some l ∧ e = .memoryLimitExceeded l
          | .ok (_, _, g') => Table.Decodes (d.lengths alphabet)
                ⟨fun i => g'.codes.get (tree * rootSize + i), g'.codes.get⟩ := by
  have halpha : ¬ (alphabet = 0 ∨ maxAlphabet < alphabet) := by omega
  have hreading : b.Reading alphabet := reading_start hstage
  obtain ⟨m1, m2, m3⟩ := readCalls_parse hI pieces hreading hc ht hl hpieces (Or.inl hne)
  obtain ⟨s1, s2, -⟩ :=
    readCalls_parse hI [I.drop total] hreading hc ht hl (by simp) (Or.inl (by simp))
  -- the verdict says done just where the unsplit reader accepts
  have hdone : ∀ r : Reader.Result Fault Unit, verdict limit I.length r = .done () →
      ∃ q, r = .done () q := by
    intro r hr
    rcases r with ⟨-, q⟩ | ⟨f, q⟩ | _
    · exact ⟨q, rfl⟩
    · cases hr
    · unfold verdict at hr
      dsimp only at hr
      split at hr <;> cases hr
  have haccepts : (readCalls alphabet limit pieces b bits total).1 = .done () →
      ∃ q, Accepts I (allowed limit I.length) alphabet b p
      (readCalls alphabet limit pieces b bits total).2.1 q ∧
        Cursor I q (readCalls alphabet limit pieces b bits total).2.2.1
        (readCalls alphabet limit pieces b bits total).2.2.2 := by
    intro hd
    rw [m1] at hd
    obtain ⟨q, hq⟩ := hdone _ hd
    refine ⟨q, ⟨(parse I (allowed limit I.length) alphabet b p).2.2, ?_⟩, m3 q hq⟩
    rw [m2, ← hq]
  refine ⟨m1.trans s1.symm, m2.trans s2.symm, ⟨fun hd => ?_, ?_⟩, fun b' bits' total' hr => ?_⟩
  · obtain ⟨q, hacc, -⟩ := haccepts hd
    obtain ⟨d, g1, g2, g3, -⟩ := accepts_sound halpha hstage hacc
    exact ⟨d, q, g1, g2, g3⟩
  · rintro ⟨d, q, g1, g2, g3⟩
    obtain ⟨b', p', hparse⟩ := accepts_complete halpha hstage g1 g2 g3
    rw [m1, hparse]
    rfl
  · obtain ⟨q, hacc, hcur⟩ := haccepts (by rw [hr])
    rw [hr] at hacc hcur
    obtain ⟨d, g1, g2, -, g4, g5⟩ := accepts_sound halpha hstage hacc
    obtain ⟨h15, -, hcode⟩ := g1.code
    have hlisted := g5.chained.listed hmax g5.last
    have hnonempty : Canonical.symbols (ofLengths (d.lengths alphabet)) ≠ [] := fun hnil => by
      obtain ⟨c, hc⟩ := exists_ofLists h15 hcode
      unfold PrefixCode.ofLists at hc
      rw [hnil] at hc
      cases hc
    refine ⟨d, q, g1, g2, hcur, g4, fun ℓ => ⟨hlisted.chain ℓ, ?_⟩, g5.last hnonempty,
      fun g tree memory htree hg => ?_⟩
    · rw [hlisted.chain ℓ]
      exact ofLengths_increasing _ ℓ
    · exact g5.buildSlot hmax h15 hcode htree hg memory

/-- Eight symbols of three bits, two chained repetitions, four calls, a builder that was
used before. -/
theorem read_exact_chained :
    (readCalls 8 none [[30], [0, 39], [], [1]]
      { tail := fun _ => 5, small := fun _ => 3, repeated := 9 } {} 0).1 = .done () := by
  have hc : Cursor [30, 0, 39, 1] 0 {} 0 :=
    ⟨rfl, by decide, by decide, fun i hi => absurd hi (Nat.not_lt_zero i),
      fun i hi => by simp at hi⟩
  have hvalid :
    (CodeDescription.complex 2 [1, 0, 0, 0, 0, 0, 1] [.length 3, .again 0, .again 0]).Valid 8 := by
    decide +kernel
  have hspelled : Spelled [30, 0, 39, 1] 0
      ((CodeDescription.complex 2 [1, 0, 0, 0, 0, 0, 1] [.length 3, .again 0, .again 0]).fields 8)
      27 := by decide +kernel
  have h := read_exact (show 1 ≤ 8 by decide) (by decide)
    (show ({ tail := fun _ => 5, small := fun _ => 3, repeated := 9 } : Builder).stage =
      .start from rfl) (by decide) hc
    (Nat.zero_le _) (show ∀ l, (none : Option ℕ) = some l → 0 ≤ l from fun l _ => Nat.zero_le l)
    (show [[30], [0, 39], [], [1]] ≠ [] by decide) rfl
  exact h.2.2.1.2 ⟨_, 27, hvalid, hspelled, by decide⟩

end Builder
end Mbrotli
