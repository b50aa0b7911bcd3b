/-
# A bit string has one description

Two valid descriptions of an alphabet that stand at one place are the same, and end at the
same bit: every field says which comes next, the lengths of the code-length code are words of a
fixed code, and the tokens words of the code they give.

So a reader that meets the bits of a description reads that description. `ReadsBack` is
what follows for the code it was made from, wherever the bits stand and however they come:
they are accepted, and every table built from them finds each used symbol at its pattern.

Key definitions: `fieldBits`, `Table.DecodesWord`, `ReadsBack`.
Key theorems: `CodeDescription.unique`, `CodeDescription.readsBack`.
-/
import Mbrotli.Decompressor.Core.HuffmanExact
import Mbrotli.Lib.BitList

namespace Mbrotli

open Canonical BitString

variable {I : List UInt8} {p q q' alphabet : ℕ}

theorem spelled_cons {f : ℕ × ℕ} {fields : List (ℕ × ℕ)} :
    Spelled I p (f :: fields) q ↔ bitsAt I p f.1 = f.2 ∧ Spelled I (p + f.1) fields q := Iff.rfl

/-- Fields of one width. -/
theorem symbols_unique {width : ℕ} :
    ∀ {symbols symbols' : List ℕ} {p : ℕ}, symbols.length = symbols'.length →
    Spelled I p (symbols.map fun s => (width, s)) q →
    Spelled I p (symbols'.map fun s => (width, s)) q' → symbols = symbols' ∧ q = q'
  | [], [], _, _, h, h' => ⟨rfl, h.symm.trans h'⟩
  | s :: symbols, s' :: symbols', p, hlen, h, h' => by
    obtain ⟨hs, h⟩ := h
    obtain ⟨hs', h'⟩ := h'
    obtain ⟨hrest, hq⟩ := symbols_unique (Nat.succ_inj.1 hlen) h h'
    exact ⟨by rw [← hs, ← hs', hrest], hq⟩

theorem lengthField_unique : ∀ v ≤ 5, ∀ v' ≤ 5, ∀ x < 16, x % 2 ^ (lengthField v).1 =
    (lengthField v).2 →
    x % 2 ^ (lengthField v').1 = (lengthField v').2 → v = v' := by
  decide

/-- The lengths of the code-length code. -/
theorem stored_unique : ∀ {stored stored' : List ℕ} {k p : ℕ} {small : ℕ → ℕ},
    Stores k small stored → Stores k small stored' →
    Spelled I p (stored.map lengthField) q → Spelled I p (stored'.map lengthField) q' →
    stored = stored' ∧ q = q'
  | [], [], _, _, _, _, _, h, h' => ⟨rfl, h.symm.trans h'⟩
  | [], _ :: _, k, _, small, hs, hs', _, _ => by
    obtain ⟨hk, hspace, -, -⟩ := hs'
    have hs : kraft (codeLengths small) = 2 ^ 15 ∨ k = 18 ∧ usedSymbols (codeLengths small) = 1 :=
      hs
    omega
  | _ :: _, [], k, _, small, hs, hs', _, _ => by
    obtain ⟨hk, hspace, -, -⟩ := hs
    have hs' : kraft (codeLengths small) = 2 ^ 15 ∨ k = 18 ∧ usedSymbols (codeLengths small) = 1 :=
      hs'
    omega
  | v :: stored, v' :: stored', k, p, small, hs, hs', h, h' => by
    obtain ⟨-, -, hv, hs⟩ := hs
    obtain ⟨-, -, hv', hs'⟩ := hs'
    obtain ⟨hbits, h⟩ := spelled_cons.1 h
    obtain ⟨hbits', h'⟩ := spelled_cons.1 h'
    rw [← bitsAt_mod I p 4 _ (Builder.lengthField_le v)] at hbits
    rw [← bitsAt_mod I p 4 _ (Builder.lengthField_le v')] at hbits'
    obtain rfl := lengthField_unique v hv v' hv' _ (bitsAt_lt I p 4) hbits hbits'
    obtain ⟨hrest, hq⟩ := stored_unique hs hs' h h'
    exact ⟨by rw [hrest], hq⟩

/-- The lengths that are stored are those of a code. -/
theorem Stores.smallCode : ∀ {stored : List ℕ} {k : ℕ} {small : ℕ → ℕ}, Stores k small stored →
    (∀ s, small s ≤ lengthBits) →
    (∀ ℓ ∈ codeLengths (place k small stored), ℓ ≤ 15) ∧
      (kraft (codeLengths (place k small stored)) = 2 ^ 15 ∨
        usedSymbols (codeLengths (place k small stored)) = 1)
  | [], _, _, hs, h5 => ⟨fun ℓ hℓ => (codeLengths_le h5 ℓ hℓ).trans (by decide),
      hs.imp_right And.right⟩
  | v :: stored, k, small, hs, h5 => by
    obtain ⟨-, -, hv, hs⟩ := hs
    have hle : ∀ s, Function.update small (order.getD k 0) v s ≤ lengthBits := fun s => by
      rw [Function.update_apply]
      split
      · exact hv
      · exact h5 s
    have hcode := Stores.smallCode hs hle
    exact hcode

theorem Token.eq_of_symbol {t t' : Token} (ht : t.Fits) (ht' : t'.Fits) (h : t.symbol = t'.symbol)
    (h1 : Spelled I p t.extra q) (h2 : Spelled I p t'.extra q') : t = t' ∧ q = q' := by
  cases t with
  | length ℓ =>
    cases t' with
    | length ℓ' => exact ⟨congrArg Token.length h, h1.symm.trans h2⟩
    | again extra => exact absurd ht (by rw [show ℓ = 16 from h]; decide)
    | zeros extra => exact absurd ht (by rw [show ℓ = 17 from h]; decide)
  | again extra =>
    cases t' with
    | length ℓ' => exact absurd ht' (by rw [show ℓ' = 16 from h.symm]; decide)
    | again extra' =>
      obtain ⟨hv, hp⟩ := h1
      obtain ⟨hv', hp'⟩ := h2
      exact ⟨by rw [← hv, ← hv'], hp.symm.trans hp'⟩
    | zeros extra' => exact absurd h (show (16 : ℕ) ≠ 17 by decide)
  | zeros extra =>
    cases t' with
    | length ℓ' => exact absurd ht' (by rw [show ℓ' = 17 from h.symm]; decide)
    | again extra' => exact absurd h (show (17 : ℕ) ≠ 16 by decide)
    | zeros extra' =>
      obtain ⟨hv, hp⟩ := h1
      obtain ⟨hv', hp'⟩ := h2
      exact ⟨by rw [← hv, ← hv'], hp.symm.trans hp'⟩

/-- The tokens. -/
theorem tokens_unique {small : List ℕ} (h15 : ∀ ℓ ∈ small, ℓ ≤ 15)
    (hcode : kraft small = 2 ^ 15 ∨ usedSymbols small = 1) :
    ∀ {tokens tokens' : List Token} {x : Expansion} {p : ℕ},
    Expansion.Fills small alphabet x tokens →
    Expansion.Fills small alphabet x tokens' → Spelled I p (tokens.flatMap (Token.fields small)) q →
    Spelled I p (tokens'.flatMap (Token.fields small)) q' → tokens = tokens' ∧ q = q'
  | [], [], _, _, _, _, h, h' => ⟨rfl, h.symm.trans h'⟩
  | [], _ :: _, x, _, hx, hx', _, _ => by
    obtain ⟨hspace, -⟩ := hx'
    have hx : kraft x.lengths = 2 ^ 15 := hx
    omega
  | _ :: _, [], x, _, hx, hx', _, _ => by
    obtain ⟨hspace, -⟩ := hx
    have hx' : kraft x.lengths = 2 ^ 15 := hx'
    omega
  | t :: tokens, t' :: tokens', x, p, hx, hx', h, h' => by
    obtain ⟨-, hfits, hused, -, hx⟩ := hx
    obtain ⟨-, hfits', hused', -, hx'⟩ := hx'
    rw [List.flatMap_cons] at h h'
    obtain ⟨m, ht, h⟩ := spelled_append.1 h
    obtain ⟨m', ht', h'⟩ := spelled_append.1 h'
    obtain ⟨hword, hextra⟩ := spelled_cons.1 ht
    obtain ⟨hword', hextra'⟩ := spelled_cons.1 ht'
    have hmem : ∀ {s : ℕ}, small.getD s 0 ≠ 0 → s < small.length := fun {s} h0 => by
      by_contra hge
      exact h0 (by rw [List.getD_eq_default _ _ (Nat.not_lt.1 hge)])
    have hwide : ∀ s, (wordField small s).1 ≤ 15 := by
      intro s
      rw [wordField]
      split
      · exact Nat.zero_le _
      · by_cases hs : s < small.length
        · rw [List.getD_eq_getElem _ _ hs]
          exact h15 _ (List.getElem_mem _)
        · rw [List.getD_eq_default _ _ (Nat.not_lt.1 hs)]
          exact Nat.zero_le _
    rw [← bitsAt_mod I p 15 _ (hwide _)] at hword hword'
    -- one word of the code starts the string
    obtain ⟨c, hc⟩ := exists_ofLists h15 hcode
    have hspell :=
      lookup_of_spells h15 hc ((spells_iff_wordField h15 hcode).2 ⟨hmem hused, hused, rfl, hword⟩)
    have hspell' :=
      lookup_of_spells h15 hc ((spells_iff_wordField h15 hcode).2 ⟨hmem hused',
        hused', rfl, hword'⟩)
    have hsame : t.symbol = t'.symbol := congrArg Prod.fst (hspell.symm.trans hspell')
    rw [← hsame] at hextra'
    obtain ⟨rfl, rfl⟩ := Token.eq_of_symbol hfits hfits' hsame hextra hextra'
    obtain ⟨rfl, hq⟩ := tokens_unique h15 hcode hx hx' h h'
    exact ⟨rfl, hq⟩

/-- **A bit string has at most one description of an alphabet.** -/
theorem CodeDescription.unique {d d' : CodeDescription} (hd : d.Valid alphabet)
    (hd' : d'.Valid alphabet)
    (h : Spelled I p (d.fields alphabet) q) (h' : Spelled I p (d'.fields alphabet) q') :
    d = d' ∧ q = q' := by
  cases d with
  | simple symbols shape =>
    obtain ⟨h1, -, -, -, -, hshape⟩ := hd
    obtain ⟨hskip, hcount, h⟩ := h
    cases d' with
    | simple symbols' shape' =>
      obtain ⟨h1', -, -, -, -, hshape'⟩ := hd'
      obtain ⟨-, hcount', h'⟩ := h'
      obtain ⟨m, hsymbols, h⟩ := spelled_append.1 h
      obtain ⟨m', hsymbols', h'⟩ := spelled_append.1 h'
      obtain ⟨rfl, rfl⟩ := symbols_unique (by omega) hsymbols hsymbols'
      by_cases h4 : symbols.length = 4
      · rw [if_pos h4] at h h'
        obtain ⟨hv, hq⟩ := h
        obtain ⟨hv', hq'⟩ := h'
        exact ⟨by rw [← hv, ← hv'], hq.symm.trans hq'⟩
      · rw [if_neg h4] at h h'
        exact ⟨by rw [hshape h4, hshape' h4], h.symm.trans h'⟩
    | complex skip stored tokens => exact absurd (h'.1.symm.trans hskip) hd'.1
  | complex skip stored tokens =>
    obtain ⟨hne, -, hs, hx⟩ := hd
    obtain ⟨hskip, h⟩ := h
    cases d' with
    | simple symbols' shape' => exact absurd (hskip.symm.trans h'.1) hne
    | complex skip' stored' tokens' =>
      obtain ⟨-, -, hs', hx'⟩ := hd'
      obtain ⟨hskip', h'⟩ := h'
      obtain rfl : skip = skip' := hskip.symm.trans hskip'
      obtain ⟨m, hstored, h⟩ := spelled_append.1 h
      obtain ⟨m', hstored', h'⟩ := spelled_append.1 h'
      obtain ⟨rfl, rfl⟩ := stored_unique hs hs' hstored hstored'
      obtain ⟨h15, hcode⟩ := hs.smallCode fun _ => Nat.zero_le _
      obtain ⟨rfl, hq⟩ := tokens_unique h15 hcode hx hx' h h'
      exact ⟨rfl, hq⟩

/-! ### Reading a description back -/

/-- The bits of fields. -/
def fieldBits (fields : List (ℕ × ℕ)) : List Bool := fields.flatMap fun f => ofNat f.1 f.2

theorem fieldBits_append (fields fields' : List (ℕ × ℕ)) :
    fieldBits (fields ++ fields') = fieldBits fields ++ fieldBits fields' :=
  List.flatMap_append

/-- Bits that spell the fields are read as the fields. -/
theorem spelled_of_spells {fields : List (ℕ × ℕ)} (hfit : ∀ f ∈ fields, f.2 < 2 ^ f.1) {p : ℕ}
    (h : BitString.Spells I p (fieldBits fields)) :
    Spelled I p fields (p + (fieldBits fields).length) := by
  induction fields generalizing p with
  | nil => rfl
  | cons f fields ih =>
    obtain ⟨hfirst, hrest⟩ :=
      spells_append.1 (show BitString.Spells I p (ofNat f.1 f.2 ++ fieldBits fields) from h)
    rw [length_ofNat] at hrest
    have hlen : p + (fieldBits (f :: fields)).length = p + f.1 + (fieldBits fields).length := by
      rw [fieldBits, List.flatMap_cons, List.length_append, length_ofNat, ← fieldBits]
      omega
    have hvalue : f.2 = bitsAt I p f.1 := eq_bitsAt (hfit f List.mem_cons_self) fun i hi => by
      rw [hfirst i (by rw [length_ofNat]; exact hi), getD_ofNat hi]
    rw [hlen]
    exact spelled_cons.2 ⟨hvalue.symm, ih (fun g hg => hfit g (List.mem_cons_of_mem _ hg)) hrest⟩

/-- The table takes the `width` bits of `word` for the symbol, in each of its ways. As in
`Table.Decodes`, `v` is any string that continues the buffered bits. -/
structure Table.DecodesWord (t : Table) (symbol width word : ℕ) : Prop where
  fast : ∀ (bits : Bits) (v : ℕ), 15 ≤ bits.count →
    v % 2 ^ bits.count = bits.value % 2 ^ bits.count → v % 2 ^ width = word →
    t.decodeFast bits = (symbol, bits.drop width)
  tried : ∀ (bits : Bits) (v : ℕ), v % 2 ^ bits.count = bits.value % 2 ^ bits.count →
    v % 2 ^ width = word →
    t.tryDecode bits = if width ≤ bits.count then (some symbol, bits.drop width) else (none, bits)
  stream : ∀ (I : List UInt8) (p : ℕ) (bits : Bits) (input : Input), Offered I input →
    Cursor I p bits input.accepted →
    bitsAt I p width = word →
    Answers I input p symbol width (t.decode bits input) ∧
    Answers I input p symbol width (t.decodeRefilling bits input)

/-- A word of the code. -/
theorem Table.Decodes.decodesWord {lengths : List ℕ} {t : Table} (h : t.Decodes lengths)
    {s width word : ℕ} (hwidth : width ≤ 15)
    (hword : ∀ v, v % 2 ^ width = word → Canonical.Spells lengths v s width) :
    t.DecodesWord s width word where
  fast bits v hcount hv hspell := h.fast bits v s width hcount hv (hword v hspell)
  tried bits v hv hspell := h.tried bits v s width hv (hword v hspell)
  stream I p bits input ho hc hspell :=
    h.stream I p bits input s width ho hc (hword _ (by rw [bitsAt_mod I p 15 width hwidth, hspell]))

/-- Wherever the bits `B` stand in a stream within what is allowed of it, and however the stream is
split into calls, a builder at its start accepts them, stops at their end, and every slot it can pay
for finds each used symbol at its pattern. -/
def ReadsBack (alphabet : ℕ) (used depth bits : List ℕ) (B : List Bool) : Prop :=
  ∀ (b : Builder) (I : List UInt8) (p total : ℕ) (limit : Option ℕ) (reservoir : Bits)
    (pieces : List (List UInt8)),
    b.stage = .start → I.length ≤ u64Max → Cursor I p reservoir total → total ≤ I.length →
    (∀ l, limit = some l → total ≤ l) →
    pieces ≠ [] → pieces.flatten = I.drop total → BitString.Spells I p B →
    p + B.length ≤ 8 * Builder.allowed limit I.length →
    ∃ b' reservoir' total', Builder.readCalls alphabet limit pieces b reservoir total =
    (.done (), b', reservoir', total') ∧
      Cursor I (p + B.length) reservoir' total' ∧ b'.stage = .start ∧
      ∀ (g : Group) (tree : ℕ) (memory : Memory), tree < g.count → g.Ready →
        (∀ e rest, b'.buildSlot alphabet g tree memory = .error (e, rest) →
          ∃ l, memory.limit = some l ∧ e = .memoryLimitExceeded l) ∧
        ∀ largest memory' g', b'.buildSlot alphabet g tree memory = .ok (largest, memory', g') →
        ∀ s ∈ used,
          Table.DecodesWord ⟨fun i => g'.codes.get (tree * rootSize + i),
            g'.codes.get⟩ s (depth.getD s 0) (bits.getD s 0)

/-- **A description reads back**: the reader finds it and no other. -/
theorem CodeDescription.readsBack {d : CodeDescription} {used depth bits : List ℕ}
    (h1 : 1 ≤ alphabet) (hmax : alphabet ≤ maxAlphabet)
    (hd : d.Valid alphabet) (hfit : ∀ f ∈ d.fields alphabet, f.2 < 2 ^ f.1)
    (hwords : ∀ s ∈ used, s < (d.lengths alphabet).length ∧ (d.lengths alphabet).getD s 0 ≠ 0 ∧
      wordField (d.lengths alphabet) s = (depth.getD s 0, bits.getD s 0)) :
    ReadsBack alphabet used depth bits (fieldBits (d.fields alphabet)) := by
  intro b I p total limit reservoir pieces hstage hI hc ht hl hne hpieces hspells hend
  have hspelled := spelled_of_spells hfit hspells
  obtain ⟨-, -, hdone, hafter⟩ := Builder.read_exact h1 hmax hstage hI hc ht hl hne hpieces
  have haccepted := hdone.2 ⟨d, _, hd, hspelled, hend⟩
  obtain ⟨r, b', reservoir', total', hr⟩ :
      ∃ r b' reservoir' total', Builder.readCalls alphabet limit pieces b reservoir total =
      (r, b', reservoir', total') := ⟨_, _, _, _, rfl⟩
  rw [hr] at haccepted
  obtain rfl : r = .done () := haccepted
  obtain ⟨d', q, hd', hspelled', hcursor, hstart, -, -, hslots⟩ := hafter b' reservoir' total' hr
  obtain ⟨rfl, rfl⟩ := CodeDescription.unique hd hd' hspelled hspelled'
  obtain ⟨h15, -, hcode⟩ := hd.code
  refine ⟨b', reservoir', total', hr, hcursor, hstart, fun g tree memory htree hg => ?_⟩
  have hslot := hslots g tree memory htree hg
  refine ⟨fun e rest he => ?_, fun largest memory' g' hok s hs => ?_⟩
  · rw [he] at hslot
    exact hslot
  · rw [hok] at hslot
    have hdecodes : Table.Decodes (d.lengths alphabet) ⟨fun i => g'.codes.get (tree * rootSize + i),
      g'.codes.get⟩ := hslot
    obtain ⟨hlt, h0, hword⟩ := hwords s hs
    have hwidth : depth.getD s 0 ≤ 15 := by
      have hle : (wordField (d.lengths alphabet) s).1 ≤ 15 := by
        rw [wordField]
        split
        · exact Nat.zero_le _
        · rw [List.getD_eq_getElem _ _ hlt]
          exact h15 _ (List.getElem_mem _)
      rwa [hword] at hle
    refine hdecodes.decodesWord hwidth fun v hv =>
      (spells_iff_wordField h15 hcode).2 ⟨hlt, h0, ?_, ?_⟩
    · rw [hword]
    · rw [hword]
      exact hv

end Mbrotli
