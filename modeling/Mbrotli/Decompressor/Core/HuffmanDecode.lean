/-
# Decoding with the two-level tables

A table is asked in three ways: `decodeFast` with fifteen bits buffered, `decode` byte
by byte, and `decodeRefilling`, which is the one or the other. `fill_decodes` says of
every complete code, and of every code of one symbol, that the table `Builder.fill`
makes of its lengths answers each of them with the symbol the bits spell and takes just
its bits, whatever the storage held before and whatever is above the buffered bits.

`Table.Decodes` collects the three answers; they all come from `Table.lookup`.
-/
import Mbrotli.Decompressor.Core.Cursor
import Mbrotli.Decompressor.Core.HuffmanLists

namespace Mbrotli

open Canonical BitString

namespace Table

/-- Decodes with at least fifteen buffered bits. -/
def decodeFast (t : Table) (bits : Bits) : ℕ × Bits :=
  let peek := bits.value
  let entry := t.root (peek % rootSize)
  if rootBits < entry.bits then
    let index := entry.value + (peek >>> rootBits) % 2 ^ (entry.bits - rootBits)
    let bits := bits.drop rootBits
    let entry := t.second index
    (entry.value, bits.drop entry.bits)
  else (entry.value, bits.drop entry.bits)

/-- Decodes with whatever is buffered; `none` needs at least one more byte. -/
def tryDecode (t : Table) (bits : Bits) : Option ℕ × Bits :=
  let available := bits.count
  let peek := bits.value
  let entry := t.root (peek % rootSize)
  if rootBits < entry.bits then
    if available < rootBits then (none, bits)
    else
      let entry := t.second (entry.value + (peek >>> rootBits) % 2 ^ (entry.bits - rootBits))
      let width := rootBits + entry.bits
      if available < width then (none, bits) else (some entry.value, bits.drop width)
  else if available < entry.bits then (none, bits)
  else (some entry.value, bits.drop entry.bits)

/-- Decodes one symbol, accepting bytes only as the code needs them; every round but
the last accepts one. -/
def decodeLoop (t : Table) : ℕ → Bits → Input → Exec ℕ × Bits × Input
  | 0, bits, input => (.empty, bits, input)
  | fuel + 1, bits, input =>
    match t.tryDecode bits with
    | (some symbol, bits) => (.done symbol, bits, input)
    | (none, bits) =>
      match bits.loadByte input with
      | (.ok true, bits, input) => decodeLoop t fuel bits input
      | (.ok false, bits, input) => (.empty, bits, input)
      | (.error e, bits, input) => (.fault (.error e), bits, input)

def decode (t : Table) (bits : Bits) (input : Input) : Exec ℕ × Bits × Input :=
  t.decodeLoop (input.bytes.length + 1) bits input

/-- Decodes one symbol, loading a whole word when the input allows. -/
def decodeRefilling (t : Table) (bits : Bits) (input : Input) : Exec ℕ × Bits × Input :=
  if maxLength ≤ bits.count then
    let (symbol, bits) := t.decodeFast bits
    (.done symbol, bits, input)
  else
    let (ok, bits, input) := bits.refill input
    if ok then
      let (symbol, bits) := t.decodeFast bits
      (.done symbol, bits, input)
    else t.decode bits input

/-! ### What the tables are asked is a lookup -/

theorem drop_drop (bits : Bits) (a b : ℕ) : (bits.drop a).drop b = bits.drop (a + b) := by
  simp only [Bits.drop, Nat.shiftRight_add, Nat.sub_sub]

theorem decodeFast_eq (t : Table) (bits : Bits) : t.decodeFast bits = bits.decodeFast t.lookup := by
  unfold decodeFast Bits.decodeFast lookup
  dsimp only
  split
  · rw [drop_drop]
  · rfl

theorem tryDecode_eq (t : Table) (bits : Bits) : t.tryDecode bits =
    if (t.lookup bits.value).2 ≤ bits.count
    then (some (t.lookup bits.value).1, bits.drop (t.lookup bits.value).2)
    else (none, bits) := by
  unfold tryDecode lookup
  dsimp only
  split
  · -- the whole width exceeds the root's bits
    by_cases hroot : bits.count < rootBits
    · rw [if_pos hroot, if_neg (by omega)]
    · rw [if_neg hroot]
      split
      · rw [if_neg (by omega)]
      · rw [if_pos (by omega)]
  · split
    · rw [if_neg (by omega)]
    · rw [if_pos (by omega)]

theorem decodeLoop_eq (t : Table) : ∀ (fuel : ℕ) (bits : Bits) (input : Input),
    t.decodeLoop fuel bits input = bits.decodeLoop t.lookup fuel input
  | 0, _, _ => rfl
  | fuel + 1, bits, input => by
    unfold decodeLoop Bits.decodeLoop
    rw [tryDecode_eq]
    by_cases h : (t.lookup bits.value).2 ≤ bits.count
    · simp only [if_pos h]
    · simp only [if_neg h]
      rcases bits.loadByte input with ⟨_ | _ | _, bits', input'⟩
      · rfl
      · rfl
      · exact decodeLoop_eq t fuel bits' input'

theorem decode_eq (t : Table) (bits : Bits) (input : Input) :
    t.decode bits input = bits.decode none t.lookup input :=
  t.decodeLoop_eq _ bits input

theorem decodeRefilling_eq (t : Table) (bits : Bits) (input : Input) :
    t.decodeRefilling bits input = bits.decode (some maxLength) t.lookup input := by
  unfold decodeRefilling Bits.decode
  simp only [decodeFast_eq, decode_eq]
  rfl

/-! ### Tables that decode a code -/

/-- What decoding byte by byte or by whole words comes to at bit `p` of an operation's
input: the symbol spelled there and the cursor after its word, or else fewer bits than the
word has. -/
def Answers (I : List UInt8) (input : Input) (p symbol width : ℕ) : Exec ℕ × Bits × Input → Prop
  | (.done s, bits, input') => s = symbol ∧ input.Advances input' ∧ Offered I input' ∧
      Cursor I (p + width) bits input'.accepted
  | (.empty, bits, input') => 8 * input.available < p + width ∧ input.Advances input' ∧
      Offered I input' ∧
      Cursor I p bits input'.accepted ∧ input'.consumed = input.bytes.length
  | (.fault f, bits, input') => 8 * input.available < p + width ∧ input.Advances input' ∧
      Offered I input' ∧
      Cursor I p bits input'.accepted ∧ f = .error (.inputLimitExceeded input.available)

/-- The table decodes the code of the lengths. In the first two answers `v` is any string
that continues the buffered bits: what the reservoir holds above them does not matter. In
the last it is what the operation's input goes on with. -/
structure Decodes (lengths : List ℕ) (t : Table) : Prop where
  fast : ∀ (bits : Bits) (v s width : ℕ), 15 ≤ bits.count →
    v % 2 ^ bits.count = bits.value % 2 ^ bits.count →
    Spells lengths v s width → t.decodeFast bits = (s, bits.drop width)
  tried : ∀ (bits : Bits) (v s width : ℕ), v % 2 ^ bits.count = bits.value % 2 ^ bits.count →
    Spells lengths v s width →
    t.tryDecode bits = if width ≤ bits.count then (some s, bits.drop width) else (none, bits)
  stream : ∀ (I : List UInt8) (p : ℕ) (bits : Bits) (input : Input) (s width : ℕ), Offered I input →
    Cursor I p bits input.accepted → Spells lengths (bitsAt I p 15) s width →
    Answers I input p s width (t.decode bits input) ∧
    Answers I input p s width (t.decodeRefilling bits input)

/-- A table that looks up what the code spells decodes it. -/
theorem decodes_of_lookup {t : Table} {lengths : List ℕ} (h15 : ∀ ℓ ∈ lengths, ℓ ≤ 15)
    {c : PrefixCode}
    (hc : PrefixCode.ofLists (ofLengths lengths) = some c) (ht : ∀ v, t.lookup v = c.lookup v) :
    Decodes lengths t := by
  have hlaw : Reader.PrefixLaw t.lookup := by
    rw [funext ht]
    exact c.lookup_prefixLaw
  have hspell : ∀ {v s width}, Spells lengths v s width → t.lookup v = (s, width) := fun h => by
    rw [ht]
    exact lookup_of_spells h15 hc h
  -- the word is found in the buffered bits as soon as they hold it
  have hbuffered : ∀ {bits : Bits} {v s width}, v % 2 ^ bits.count = bits.value % 2 ^ bits.count →
      Spells lengths v s width → (width ≤ bits.count ∨ (t.lookup bits.value).2 ≤ bits.count) →
      t.lookup bits.value = (s, width) := by
    intro bits v s width hv hs hw
    have hmod : ∀ n, n ≤ bits.count → v % 2 ^ n = bits.value % 2 ^ n := fun n hn => by
      rw [← Nat.mod_mod_of_dvd v (pow_dvd_pow 2 hn), hv, Nat.mod_mod_of_dvd _ (pow_dvd_pow 2 hn)]
    rcases hw with hw | hw
    · have := (hlaw v).2 bits.value
      rw [hspell hs] at this
      exact this (hmod width hw).symm
    · exact ((hlaw bits.value).2 v (hmod _ hw)).symm.trans (hspell hs)
  refine ⟨?_, ?_, ?_⟩
  · intro bits v s width hcount hv hs
    have h := hbuffered hv hs (Or.inr ((hlaw _).1.trans hcount))
    rw [decodeFast_eq, Bits.decodeFast, h]
  · intro bits v s width hv hs
    rw [tryDecode_eq]
    by_cases hw : width ≤ bits.count
    · have h := hbuffered hv hs (Or.inl hw)
      rw [h]
    · rw [if_neg hw, if_neg fun hle => hw ?_]
      have h := hbuffered hv hs (Or.inr hle)
      rw [h] at hle
      exact hle
  · intro I p bits input s width ho hcursor hs
    have hanswers : ∀ need : Option ℕ, (∀ w ∈ need, ∀ v, (t.lookup v).2 ≤ w) →
        Answers I input p s width (bits.decode need t.lookup input) := by
      intro need hneed
      have hsim := decode_sim hlaw hneed ho hcursor
      rw [hspell hs] at hsim
      generalize bits.decode need t.lookup input = r at hsim
      rcases r with ⟨_ | _ | _, bits', input'⟩
      · exact hsim
      · exact hsim
      · obtain ⟨h1, h2, h3, h4, -, -, h7⟩ := hsim
        exact ⟨h1, h2, h3, h4, h7⟩
    rw [decode_eq, decodeRefilling_eq]
    refine ⟨hanswers none (by simp), hanswers (some maxLength) fun w hw v => ?_⟩
    obtain rfl := Option.mem_some.1 hw
    exact (hlaw v).1

end Table

/-! ### Groups and assignments -/

/-- The roots of a group come first; the tables appended so far are stored. -/
structure Group.Ready (g : Group) : Prop where
  roots : g.count * rootSize ≤ g.used
  used_le : g.used ≤ g.codes.len

/-- A prepared group is ready, whatever it was used for before. -/
theorem Group.prepare_ready {g g' : Group} {count alphabet : ℕ} {memory memory' : Memory}
    (h : g.prepare count alphabet memory = .ok (memory', g')) : g'.count = count ∧ g'.Ready := by
  unfold Group.prepare at h
  split at h
  · cases h
  · dsimp only at h
    split at h
    · cases hm : memory.resize Code.size g.codes (count * rootSize) {} with
      | error e =>
        rw [hm] at h
        cases h
      | ok r =>
        rw [hm] at h
        cases h
        obtain ⟨c, -, hb⟩ := Memory.resize_ok hm
        refine ⟨rfl, le_rfl, ?_⟩
        simp only [hb, Buffer.resize_len]
        exact le_rfl
    · cases h
      rename_i hlen
      exact ⟨rfl, le_rfl, Nat.not_lt.1 hlen⟩

namespace Builder

/-- The rest of an assignment, from the length of `symbol` on. -/
def assignFrom (b : Builder) : ℕ → List ℕ → Except DecodeError Builder
  | _, [] => .ok b
  | symbol, length :: rest =>
    if maxLength < length then .error (.invalidData .huffman)
    else assignFrom (if length ≠ 0 then b.push symbol length else b) (symbol + 1) rest

/-- Replaces the lists with an explicit length per symbol. -/
def assign (b : Builder) (lengths : List ℕ) : Except DecodeError Builder :=
  b.clear.assignFrom 0 lengths

theorem assignFrom_concat (x : ℕ) : ∀ (lengths : List ℕ) (b : Builder) (symbol : ℕ),
    b.assignFrom symbol (lengths ++ [x]) =
      match b.assignFrom symbol lengths with
      | .error e => .error e
      | .ok b' => b'.assignFrom (symbol + lengths.length) [x]
  | [], _, _ => rfl
  | length :: rest, b, symbol => by
    rw [List.cons_append, assignFrom, assignFrom]
    split
    · rfl
    · rw [assignFrom_concat x rest, List.length_cons, Nat.add_right_comm, Nat.add_assoc]

/-- The builder of an assignment keeps its lists. -/
theorem assign_chained (b : Builder) {lengths : List ℕ} (halphabet : lengths.length ≤ maxAlphabet)
    (h15 : ∀ ℓ ∈ lengths, ℓ ≤ 15) : ∃ b', b.assign lengths = .ok b' ∧
      Chained b' (ofLengths lengths) lengths.length ∧
      (Canonical.symbols (ofLengths lengths) ≠ [] →
        b'.last ∈ Canonical.symbols (ofLengths lengths) ∧
        ∀ s ∈ Canonical.symbols (ofLengths lengths), s ≤ b'.last) := by
  induction lengths using List.reverseRecOn with
  | nil =>
    refine ⟨b.clear, rfl, ?_, fun h => absurd rfl h⟩
    have hnil : ofLengths [] = fun _ => [] := by
      funext ℓ
      simp [ofLengths]
    rw [hnil]
    exact Chained.clear b 0
  | append_singleton lengths x ih =>
    rw [List.length_append, List.length_singleton] at halphabet
    obtain ⟨b', hassign, hchained, hlast⟩ :=
      ih (Nat.le_of_succ_le halphabet) fun ℓ hℓ => h15 ℓ (List.mem_append_left _ hℓ)
    have hx : x ≤ 15 := h15 x (by simp)
    have hstep : b.assign (lengths ++ [x]) =
        .ok (if x ≠ 0 then b'.push lengths.length x else b') := by
      unfold assign at hassign ⊢
      rw [assignFrom_concat, hassign]
      show b'.assignFrom (0 + lengths.length) [x] = _
      rw [Nat.zero_add, assignFrom, if_neg (show ¬ Mbrotli.maxLength < x from Nat.not_lt.2 hx)]
      rfl
    refine ⟨_, hstep, ?_⟩
    rw [ofLengths_concat, List.length_append, List.length_singleton]
    by_cases h0 : x = 0
    · rw [if_pos h0, if_neg (not_not.2 h0)]
      exact ⟨hchained.mono (Nat.le_succ _), hlast⟩
    · have h1 : 1 ≤ x := Nat.one_le_iff_ne_zero.2 h0
      have hfresh : ∀ ℓ, lengths.length ∉ ofLengths lengths ℓ :=
        fun ℓ hmem => absurd (hchained.lt ℓ _ hmem) (lt_irrefl _)
      have hsymbol : lengths.length < noSymbol := Nat.lt_of_lt_of_le halphabet (by decide)
      have hpushed := hchained.push h1 hx hsymbol hfresh
      rw [max_eq_right (Nat.le_succ _)] at hpushed
      rw [if_neg h0, if_pos h0]
      refine ⟨hpushed, fun _ => ?_⟩
      have hlast' : (b'.push lengths.length x).last = lengths.length := rfl
      rw [hlast']
      refine ⟨(mem_symbols_appendAt h1 hx).2 (Or.inr (by simp)), fun s hs => ?_⟩
      obtain ⟨ℓ, -, -, hmem⟩ := mem_symbols.1 hs
      exact Nat.le_of_lt_succ (hpushed.lt ℓ s hmem)

/-- **The tables decode the canonical code.** For every complete code and every code of
one symbol, over whatever a group's storage holds, filling a slot appends what
`secondSize` says, nothing for a single symbol, leaves the other slots, and makes a table
that decodes the code however the rest of the storage changes; only the memory limit can
prevent it. -/
theorem fill_decodes {lengths : List ℕ} (halphabet : lengths.length ≤ maxAlphabet)
    (h15 : ∀ ℓ ∈ lengths, ℓ ≤ 15)
    (hcode : kraft lengths = 2 ^ 15 ∨ usedSymbols lengths = 1) (b : Builder) {g : Group} {tree : ℕ}
    (htree : tree < g.count) (hg : g.Ready) (memory : Memory) :
    (∀ v, ∃ s width, Spells lengths v s width) ∧ ∃ b', b.assign lengths = .ok b' ∧
      match b'.fill g (tree * rootSize) memory with
      | .error (e, _) => ∃ l, memory.limit = some l ∧ e = .memoryLimitExceeded l
      | .ok (_, _, g') => g'.count = g.count ∧ g'.Ready ∧
          g'.used = g.used + (if usedSymbols lengths = 1 then 0 else secondSize b'.counts) ∧
          (∀ i, i < g.used → ¬ (tree * rootSize ≤ i ∧ i < tree * rootSize + rootSize) →
            g'.codes.get i = g.codes.get i) ∧
          ∀ codes' : ℕ → Code,
            (∀ i, tree * rootSize ≤ i ∧ i < tree * rootSize + rootSize ∨ g.used ≤ i ∧ i < g'.used →
              codes' i = g'.codes.get i) →
            Table.Decodes lengths ⟨fun i => codes' (tree * rootSize + i), codes'⟩ := by
  refine ⟨exists_spells h15 hcode, ?_⟩
  obtain ⟨b', hassign, hchained, hlast⟩ := b.assign_chained halphabet h15
  refine ⟨b', hassign, ?_⟩
  have hlisted := hchained.listed halphabet hlast
  have htotal : b'.total = usedSymbols lengths :=
    hchained.total.trans (symbols_ofLengths_length h15)
  have hstart : tree * rootSize + rootSize ≤ g.used := by
    rw [← Nat.succ_mul]
    exact (Nat.mul_le_mul_right _ htree).trans hg.roots
  obtain ⟨c, hc⟩ := exists_ofLists h15 hcode
  have hspec := fill_spec hlisted hstart hg.used_le memory
  generalize b'.fill g (tree * rootSize) memory = r at hspec
  rcases r with ⟨e, memory', g'⟩ | ⟨largest, memory', g'⟩
  · rcases hspec with ⟨-, hnone⟩ | hmemory
    · rw [hnone] at hc
      cases hc
    · exact hmemory
  · obtain ⟨-, hcount, hused, hlen, hframe, c', hc', hholds⟩ := hspec
    rw [htotal] at hused
    refine ⟨hcount, ⟨?_, hlen⟩, hused, hframe, fun codes' hsame => ?_⟩
    · rw [hcount, hused]
      exact hg.roots.trans (Nat.le_add_right _ _)
    · exact Table.decodes_of_lookup h15 hc' (hholds codes' hsame)

/-- Three symbols in a group whose storage is full of stale entries. -/
theorem fill_decodes_stale : ∃ b' largest memory g', ({} : Builder).assign [2, 1, 2] = .ok b' ∧
    b'.fill { codes := ⟨fun _ => ⟨13, 700⟩, 600, 600⟩, count := 1, used := 256 } (0 * rootSize) {} =
      .ok (largest, memory, g') ∧
    Table.Decodes [2, 1, 2] ⟨fun i => g'.codes.get (0 * rootSize + i), g'.codes.get⟩ := by
  obtain ⟨-, b', hassign, hfill⟩ :=
    @fill_decodes [2, 1, 2] (by decide) (by decide) (Or.inl (by decide)) {}
      { codes := ⟨fun _ => ⟨13, 700⟩, 600, 600⟩, count := 1, used := 256 } 0 (by decide)
      ⟨by decide, by decide⟩ {}
  generalize hr : b'.fill { codes := ⟨fun _ => ⟨13, 700⟩, 600, 600⟩, count := 1, used := 256 }
    (0 * rootSize) {} = r at hfill
  rcases r with ⟨e, memory, g'⟩ | ⟨largest, memory, g'⟩
  · obtain ⟨l, hl, -⟩ := hfill
    cases hl
  · exact ⟨b', largest, memory, g', hassign, hr, hfill.2.2.2.2 _ fun _ _ => rfl⟩

/-- What `decode` and `decodeRefilling` give for a zero byte by a table of two codewords of
one bit, with `garbage` in an empty reservoir. -/
def decodedAbove (garbage : ℕ) : Option (Option ℕ × Option ℕ) :=
  (({} : Builder).assign [1, 1]).toOption.bind fun b' =>
    (b'.fill { codes := ⟨fun _ => {}, 600, 600⟩, count := 1, used := 256 } 0 {}).toOption.map
      fun r =>
      let table : Table := ⟨r.2.2.codes.get, r.2.2.codes.get⟩
      let symbol : Exec ℕ → Option ℕ := fun
        | .done s => some s
        | _ => none
      (symbol (table.decode ⟨garbage, 0⟩ (.new [0] 0 none)).1,
        symbol (table.decodeRefilling ⟨garbage, 0⟩ (.new [0] 0 none)).1)

/-- A single symbol of nine bits appends nothing, where `secondSize` counts a table of
128 entries; and a bit above an empty reservoir changes the symbol that is decoded
once a byte was loaded, the byte being ORed in. -/
theorem fill_decodes_fails :
    ((({} : Builder).assign [0, 9]).toOption.bind fun b' =>
      (b'.fill { codes := ⟨fun _ => {}, 600, 600⟩, count := 1, used := 256 } 0 {}).toOption.map
      fun r =>
        (r.2.2.used, 256 + secondSize b'.counts)) = some (256, 384) ∧
    Spells [1, 1] (bitsAt [0] 0 15) 0 1 ∧ decodedAbove 0 = some (some 0, some 0) ∧
    decodedAbove 1 = some (some 1, some 1) := by
  refine ⟨by decide +kernel, ⟨by decide, by decide, ?_⟩, by decide +kernel, by decide +kernel⟩
  decide +kernel

end Builder
end Mbrotli
