/-
# Reading block headers and switches

A block header stands in a stream as the number of types, the codes of the types and of the
lengths, and the length of the first block; a switch as a type and a length. `reads_header`
follows the resumable header reader over such a stream to its last bit. `symbolRounds` reads
one symbol of a stream of blocks, behind a switch where the block is used up.

Key definitions: `Block.rounds`, `Block.headerBits`, `Block.symbolRounds`.
Key theorems: `Block.reads_header`, `Block.reads_symbol`.
-/
import Mbrotli.Decompressor.Core.ContextMapReads

namespace Mbrotli.Block

open BitString Resumable

variable {I : List UInt8} {B p q count : ℕ} {b : Block}
    {usedTypes typeDepths typeBits usedLengths lengthDepths lengthBits : List ℕ}

/-- The resumable reader of a block header. -/
def rounds : Step (Block × Builder × Memory) := fun s => s.1.headerStep s.2.1 s.2.2

/-- A block's length: a symbol of the length code, and what exceeds the symbol's base. -/
def spellLength (lengthDepths lengthBits : List ℕ) (symbol extra : ℕ) : List Bool :=
  ofNat (lengthDepths.getD symbol 0) (lengthBits.getD symbol 0) ++
    ofNat (prefixCodeRanges.getD symbol (0, 0)).2 extra

/-- The bits of a block header of several types. -/
def headerBits (count : ℕ) (types lengths : CodeDescription) (lengthDepths lengthBits : List ℕ)
    (symbol extra : ℕ) : List Bool :=
  uint8Bits (count - 1) ++ fieldBits (types.fields (count + 2)) ++
    fieldBits (lengths.fields numBlockLenSymbols) ++
    spellLength lengthDepths lengthBits symbol extra

theorem width_le (symbol : ℕ) : (prefixCodeRanges.getD symbol (0, 0)).2 ≤ 24 := by
  by_cases h : symbol < 26
  · have hall : ∀ s < 26, (prefixCodeRanges.getD s (0, 0)).2 ≤ 24 := by decide
    exact hall symbol h
  · rw [List.getD_eq_default _ _ (by show 26 ≤ symbol; omega)]
    exact Nat.zero_le _

theorem length_spellLength (lengthDepths lengthBits : List ℕ) (symbol extra : ℕ) :
    (spellLength lengthDepths lengthBits symbol extra).length =
    lengthDepths.getD symbol 0 + (prefixCodeRanges.getD symbol (0, 0)).2 := by
  unfold spellLength
  rw [List.length_append, length_ofNat, length_ofNat]

/-! ### The fields of a switch -/

/-- A type's symbol. -/
theorem type_run (hstage : b.stage = .ready) (h : b.types.Finds usedTypes typeDepths typeBits)
    {s : ℕ} (hs : s ∈ usedTypes)
    (hfits : typeBits.getD s 0 < 2 ^ typeDepths.getD s 0)
    (hspells : Spells I p (ofNat (typeDepths.getD s 0) (typeBits.getD s 0)))
    (hend : p + typeDepths.getD s 0 ≤ 8 * B) :
    b.switchStep.Atomic 0 ∧ b.switchStep.run I B p =
    .done { b.switchTo s with stage := .lengthSymbol } (p + typeDepths.getD s 0) := by
  obtain ⟨hatomic, hrun⟩ := h.run hs hspells hfits hend
  unfold switchStep
  rw [hstage]
  refine ⟨hatomic.bind (fun _ => trivial) fun _ => rfl, ?_⟩
  show (b.types.decodeRefilling.bind _).run I B p = _
  rw [Reader.run_bind, hrun]
  rfl

/-- A length's symbol. -/
theorem lengthSymbol_run (hstage : b.stage = .lengthSymbol)
    (h : b.lengths.Finds usedLengths lengthDepths lengthBits) {s : ℕ}
    (hs : s ∈ usedLengths) (hfits : lengthBits.getD s 0 < 2 ^ lengthDepths.getD s 0)
    (hspells : Spells I p (ofNat (lengthDepths.getD s 0) (lengthBits.getD s 0)))
    (hend : p + lengthDepths.getD s 0 ≤ 8 * B) :
    b.switchStep.Atomic 0 ∧ b.switchStep.run I B p = .done { b with stage := .lengthExtra s }
    (p + lengthDepths.getD s 0) := by
  obtain ⟨hatomic, hrun⟩ := h.run hs hspells hfits hend
  unfold switchStep
  rw [hstage]
  refine ⟨hatomic.bind (fun _ => trivial) fun _ => rfl, ?_⟩
  show (b.lengths.decodeRefilling.bind _).run I B p = _
  rw [Reader.run_bind, hrun]
  rfl

/-- What exceeds the symbol's base. -/
theorem lengthExtra_run {s extra : ℕ} (hstage : b.stage = .lengthExtra s)
    (hextra : extra < 2 ^ (prefixCodeRanges.getD s (0, 0)).2)
    (hspells : Spells I p (ofNat (prefixCodeRanges.getD s (0, 0)).2 extra))
    (hend : p + (prefixCodeRanges.getD s (0, 0)).2 ≤ 8 * B) :
    b.switchStep.Atomic 0 ∧ b.switchStep.run I B p =
      .done { b with remaining := (prefixCodeRanges.getD s (0, 0)).1 + extra, stage := .ready }
      (p + (prefixCodeRanges.getD s (0, 0)).2) := by
  have hwidth := width_le s
  unfold switchStep
  rw [hstage]
  constructor
  · exact Reader.read_atomic (hwidth.trans (by decide)) (fun _ => trivial) fun _ => rfl
  · exact (Reader.run_read _ hextra hspells hend).trans rfl

/-! ### The header -/

/-- What a header's reader says once it is over: the block it starts with, or the memory limit. -/
def Opened (memory : Memory) (count remaining : ℕ)
    (usedTypes typeDepths typeBits usedLengths lengthDepths lengthBits : List ℕ) :
    Except (DecodeError × Block × Builder × Memory) (Block × Builder × Memory) → Prop
  | .error (e, _, _, _) => ∃ l, memory.limit = some l ∧ e = .memoryLimitExceeded l
  | .ok (b, builder, memory') => b.stage = .ready ∧ b.count = count ∧ b.current = 0 ∧
      b.previous = 1 ∧ b.remaining = remaining ∧
      (count ≠ 1 → b.types.Finds usedTypes typeDepths typeBits ∧
        b.lengths.Finds usedLengths lengthDepths lengthBits) ∧
      builder.stage = .start ∧ memory'.limit = memory.limit

/-- The number of types. -/
theorem typeCount_run (hstage : b.stage = .typeCount) (hcount : 1 ≤ count) (h256 : count ≤ 256)
    (builder : Builder) (memory : Memory)
    (hspells : Spells I p (uint8Bits (count - 1)))
    (hend : p + (uint8Bits (count - 1)).length ≤ 8 * B) :
    (rounds (b, builder, memory)).Atomic 0 ∧ (rounds (b, builder, memory)).run I B p =
      .done (if count = 1 then .ok (true, { b with count := 1, stage := .ready }, builder, memory)
        else .ok (false, { b with count := count, stage := .typeTree }, builder, memory))
        (p + (uint8Bits (count - 1)).length) := by
  have hrun := Bits.uint8_reads (show count - 1 < 256 by omega) hspells hend
  have hstep : rounds (b, builder, memory) = Bits.uint8.bind fun n => .pure
      (if n = 0 then .ok (true, { b with count := n + 1, stage := .ready }, builder, memory)
        else .ok (false, { b with count := n + 1, stage := .typeTree }, builder, memory)) := by
    show b.headerStep builder memory = _
    unfold headerStep
    rw [hstage]
    rfl
  rw [hstep]
  refine ⟨Bits.uint8_atomic.bind (fun _ => trivial) fun _ => rfl, ?_⟩
  rw [Reader.run_bind, hrun]
  show Reader.Result.done (if count - 1 = 0 then _ else _) _ = _
  by_cases h1 : count = 1
  · rw [if_pos h1, if_pos (by omega), h1]
  · rw [if_neg h1, if_neg (by omega), Nat.sub_add_cancel hcount]

/-- A header's last fields are those of a switch. -/
theorem switch_round {b b' : Block} (builder : Builder) (memory : Memory)
    (hstage : b.stage = .lengthSymbol ∨ ∃ s, b.stage = .lengthExtra s)
    (h : b.switchStep.Atomic 0 ∧ b.switchStep.run I B p = .done b' q) :
    (rounds (b, builder, memory)).Atomic 0 ∧
      (rounds (b, builder, memory)).run I B p =
      .done (.ok (b'.stage = .ready, b', builder, memory)) q := by
  have hstep : rounds (b, builder, memory) = b.switchStep.bind fun b =>
      .pure (.ok (b.stage = .ready, b, builder, memory)) := by
    show b.headerStep builder memory = _
    unfold headerStep
    rcases hstage with hstage | ⟨s, hstage⟩
    · rw [hstage]
      rfl
    · rw [hstage]
      rfl
  rw [hstep]
  refine ⟨h.1.bind (fun _ => trivial) fun _ => rfl, ?_⟩
  rw [Reader.run_bind, h.2]
  rfl

/-- The header goes on once the description of the types' code is read. -/
def typesRead (b : Block) (memory : Memory) (builder : Builder) :
    Except (DecodeError × Block × Builder × Memory) (Bool × Block × Builder × Memory) :=
  match builder.build (b.count + 2) memory b.types with
  | .error (e, memory, types) => .error (e, { b with types }, builder, memory)
  | .ok (_, memory, types) => .ok (false, { b with types, stage := .lengthTree }, builder, memory)

/-- And once that of the lengths' code is. -/
def lengthsRead (b : Block) (memory : Memory) (builder : Builder) :
    Except (DecodeError × Block × Builder × Memory) (Bool × Block × Builder × Memory) :=
  match builder.build numBlockLenSymbols memory b.lengths with
  | .error (e, memory, lengths) => .error (e, { b with lengths }, builder, memory)
  | .ok (_, memory, lengths) => .ok (false, { b with lengths, stage := .lengthSymbol },
      builder, memory)

/-- **A header that stands in the stream is read to its last bit.** -/
theorem reads_header (htwo : 2 ≤ count) (h256 : count ≤ 256) {types lengths : CodeDescription}
    (htypes : types.Valid (count + 2)) (htypesFit : ∀ f ∈ types.fields (count + 2), f.2 < 2 ^ f.1)
    (htypesWords : ∀ s ∈ usedTypes, s < (types.lengths (count + 2)).length ∧
      (types.lengths (count + 2)).getD s 0 ≠ 0 ∧
      wordField (types.lengths (count + 2)) s = (typeDepths.getD s 0, typeBits.getD s 0))
    (hlengths : lengths.Valid numBlockLenSymbols)
    (hlengthsFit : ∀ f ∈ lengths.fields numBlockLenSymbols, f.2 < 2 ^ f.1)
    (hlengthsWords : ∀ s ∈ usedLengths, s < (lengths.lengths numBlockLenSymbols).length ∧
      (lengths.lengths numBlockLenSymbols).getD s 0 ≠ 0 ∧
      wordField (lengths.lengths numBlockLenSymbols) s =
      (lengthDepths.getD s 0, lengthBits.getD s 0))
    {symbol extra : ℕ} (hsymbol : symbol ∈ usedLengths)
    (hfits : lengthBits.getD symbol 0 < 2 ^ lengthDepths.getD symbol 0)
    (hextra : extra < 2 ^ (prefixCodeRanges.getD symbol (0, 0)).2)
    {b : Block} {builder : Builder} (memory : Memory) (hb : b.stage = .typeCount)
    (hcurrent : b.current = 0) (hprevious : b.previous = 1)
    (hstart : builder.stage = .start)
    (hspells : Spells I p (headerBits count types lengths lengthDepths lengthBits symbol extra))
    (hend : p + (headerBits count types lengths lengthDepths lengthBits symbol extra).length ≤
      8 * B) :
    ∃ r q, Ends rounds I B (b, builder, memory) p r q ∧
      Opened memory count ((prefixCodeRanges.getD symbol (0, 0)).1 + extra) usedTypes typeDepths
      typeBits usedLengths lengthDepths lengthBits r ∧
      ((∃ s, r = .ok s) →
        q = p + (headerBits count types lengths lengthDepths lengthBits symbol extra).length) := by
  obtain ⟨hhead, hlength⟩ :=
    spells_append.1 (show Spells I p
      ((uint8Bits (count - 1) ++ fieldBits (types.fields (count + 2)) ++
    fieldBits (lengths.fields numBlockLenSymbols)) ++ spellLength lengthDepths lengthBits symbol
    extra) from hspells)
  obtain ⟨hhead, hlengthsCode⟩ := spells_append.1 hhead
  obtain ⟨hcount, htypesCode⟩ := spells_append.1 hhead
  rw [List.length_append] at hlengthsCode
  rw [List.length_append, List.length_append] at hlength
  have hlen : (headerBits count types lengths lengthDepths lengthBits symbol extra).length =
    (uint8Bits (count - 1)).length +
      (fieldBits (types.fields (count + 2))).length +
      (fieldBits (lengths.fields numBlockLenSymbols)).length +
      (lengthDepths.getD symbol 0 + (prefixCodeRanges.getD symbol (0, 0)).2) := by
    unfold headerBits
    rw [List.length_append, List.length_append, List.length_append, length_spellLength]
  obtain ⟨hlengthSymbol, hlengthExtra⟩ :=
    spells_append.1 (show Spells I _ (ofNat _ _ ++ ofNat _ _) from hlength)
  rw [length_ofNat] at hlengthExtra
  obtain ⟨hfirstAtomic, hfirst⟩ :=
    typeCount_run hb (show 1 ≤ count by omega) h256 builder memory hcount (show _ ≤ 8 * B by omega)
  rw [if_neg (show count ≠ 1 by omega)] at hfirst
  -- the code of the types
  obtain ⟨builder₁, hrounds₁, hstart₁, hbuild₁⟩ := description_rounds (show 1 ≤ count + 2 by omega)
    (show count + 2 ≤ maxAlphabet by rw [maxAlphabet]; omega) htypes htypesFit htypesWords hstart
    htypesCode (show _ ≤ 8 * B by omega)
  obtain ⟨herror₁, hgo₁, -⟩ :=
    Ends.description rounds (fun builder => ({ b with count := count, stage := .typeTree },
      builder, memory))
    (typesRead { b with count := count, stage := .typeTree } memory)
    (fun builder => by
      show headerStep _ _ _ = _
      unfold headerStep
      rfl) hrounds₁
  rcases hbuild₁ b.types memory with ⟨l, memory₁, g₁, hl, hfailed⟩ | ⟨largest, memory₁, g₁, hbuilt,
    hlimit₁, hfinds₁⟩
  · rw [typesRead, hfailed] at herror₁
    exact ⟨_, _, .next hfirstAtomic hfirst (herror₁ _ rfl), ⟨l, hl, rfl⟩, by rintro ⟨s, ⟨⟩⟩⟩
  · rw [typesRead, hbuilt] at hgo₁
    -- the code of the lengths
    obtain ⟨builder₂, hrounds₂, hstart₂, hbuild₂⟩ :=
      description_rounds (show 1 ≤ numBlockLenSymbols by decide) (by decide) hlengths hlengthsFit
        hlengthsWords hstart₁ hlengthsCode (show _ ≤ 8 * B by omega)
    obtain ⟨herror₂, hgo₂, -⟩ := Ends.description rounds
      (fun builder => ({ b with count := count, types := g₁, stage := .lengthTree },
        builder, memory₁))
      (lengthsRead { b with count := count, types := g₁, stage := .lengthTree } memory₁)
      (fun builder => by
        show headerStep _ _ _ = _
        unfold headerStep
        rfl) hrounds₂
    have hposition : p + (uint8Bits (count - 1)).length +
      (fieldBits (types.fields (count + 2))).length =
        p + ((uint8Bits (count - 1)).length + (fieldBits (types.fields (count + 2))).length) :=
        Nat.add_assoc _ _ _
    rw [hposition] at hgo₁
    rcases hbuild₂ b.lengths memory₁ with ⟨l, memory₂, g₂, hl, hfailed⟩ | ⟨largest, memory₂, g₂,
      hbuilt₂, hlimit₂, hfinds₂⟩
    · rw [lengthsRead, hfailed] at herror₂
      exact ⟨_, _, .next hfirstAtomic hfirst (hgo₁ _ _ _ rfl (herror₂ _ rfl)),
        ⟨l, hlimit₁ ▸ hl, rfl⟩, by rintro ⟨s, ⟨⟩⟩⟩
    · rw [lengthsRead, hbuilt₂] at hgo₂
      have hposition₂ :
        p + ((uint8Bits (count - 1)).length + (fieldBits (types.fields (count + 2))).length) +
          (fieldBits (lengths.fields numBlockLenSymbols)).length =
          p + ((uint8Bits (count - 1)).length +
          (fieldBits (types.fields (count + 2))).length +
          (fieldBits (lengths.fields numBlockLenSymbols)).length) := Nat.add_assoc _ _ _
      rw [hposition₂] at hgo₂
      -- the first length
      obtain ⟨hsymbolAtomic, hsymbolRun⟩ := switch_round builder₂ memory₂ (Or.inl rfl)
        (lengthSymbol_run (b := { b with count := count, types := g₁, lengths := g₂, stage :=
        .lengthSymbol }) rfl hfinds₂ hsymbol hfits
          hlengthSymbol (show _ ≤ 8 * B by omega))
      obtain ⟨hextraAtomic, hextraRun⟩ := switch_round builder₂ memory₂ (Or.inr ⟨symbol, rfl⟩)
        (lengthExtra_run
          (b := { b with count := count, types := g₁, lengths := g₂, stage := .lengthExtra symbol })
          rfl hextra
          hlengthExtra (show _ ≤ 8 * B by omega))
      refine ⟨_, _, .next hfirstAtomic hfirst
        (hgo₁ _ _ _ rfl (hgo₂ _ _ _ rfl
          (.next hsymbolAtomic hsymbolRun (.last hextraAtomic hextraRun)))),
        ?_, fun _ => by omega⟩
      exact ⟨rfl, rfl, hcurrent, hprevious, rfl, fun _ => ⟨hfinds₁, hfinds₂⟩, hstart₂,
        hlimit₂.trans hlimit₁⟩

/-- A header of one type. -/
theorem reads_one {b : Block} {builder : Builder} (memory : Memory) (hb : b.stage = .typeCount)
    (hcurrent : b.current = 0)
    (hprevious : b.previous = 1) (hstart : builder.stage = .start)
    (hspells : Spells I p (uint8Bits 0)) (hend : p + 1 ≤ 8 * B) :
    ∃ r, Ends rounds I B (b, builder, memory) p r (p + 1) ∧
      Opened memory 1 b.remaining usedTypes typeDepths typeBits usedLengths lengthDepths
      lengthBits r := by
  obtain ⟨hatomic, hrun⟩ := typeCount_run hb (Nat.le_refl 1) (by decide) builder memory hspells hend
  exact ⟨_, .last hatomic hrun, rfl, rfl, hcurrent, hprevious, rfl,
    fun h => absurd rfl h, hstart, rfl⟩

/-! ### A stream of blocks -/

/-- One symbol of a stream of blocks: the fields of a switch while the block is used up, then a
symbol of the code that `select` gives the block's type. -/
def symbolRounds (trees : Group) (select : ℕ → ℕ) : Step (Block × ℕ) := fun s =>
  if s.1.remaining = 0 then s.1.switchStep.bind fun b => .pure (.ok (false, b, s.2))
  else (trees.decode (select s.1.current)).bind fun symbol => .pure (.ok (true, s.1.use 1, symbol))

variable {trees : Group} {select : ℕ → ℕ}

/-- A field of a switch in such a stream. -/
theorem field_round {b b' : Block} (trees : Group) (select : ℕ → ℕ) (x : ℕ)
    (hremaining : b.remaining = 0)
    (h : b.switchStep.Atomic 0 ∧ b.switchStep.run I B p = .done b' q) :
    (symbolRounds trees select (b, x)).Atomic 0 ∧
      (symbolRounds trees select (b, x)).run I B p = .done (.ok (false, b', x)) q := by
  have hstep : symbolRounds trees select (b, x) = b.switchStep.bind fun b =>
    .pure (.ok (false, b, x)) := if_pos hremaining
  rw [hstep]
  refine ⟨h.1.bind (fun _ => trivial) fun _ => rfl, ?_⟩
  rw [Reader.run_bind, h.2]
  rfl

/-- A switch and what follows it. -/
theorem reads_switch {b : Block} (x : ℕ) (hstage : b.stage = .ready) (hremaining : b.remaining = 0)
    (htypes : b.types.Finds usedTypes typeDepths typeBits)
    (hlengths : b.lengths.Finds usedLengths lengthDepths lengthBits) {s symbol extra : ℕ}
    (hs : s ∈ usedTypes) (hsfits : typeBits.getD s 0 < 2 ^ typeDepths.getD s 0)
    (hsymbol : symbol ∈ usedLengths)
    (hfits : lengthBits.getD symbol 0 < 2 ^ lengthDepths.getD symbol 0)
    (hextra : extra < 2 ^ (prefixCodeRanges.getD symbol (0, 0)).2)
    (hspells : Spells I p (ofNat (typeDepths.getD s 0) (typeBits.getD s 0) ++
      spellLength lengthDepths lengthBits symbol extra))
    (hend : p +
      (typeDepths.getD s 0 + (lengthDepths.getD symbol 0 + (prefixCodeRanges.getD symbol (0, 0)).2))
      ≤ 8 * B)
    {r : Except (DecodeError × Block × ℕ) (Block × ℕ)}
    (hrest : Ends (symbolRounds trees select) I B
      ({ b.switchTo s with remaining := (prefixCodeRanges.getD symbol (0, 0)).1 + extra, stage :=
  .ready }, x)
      (p +
        (typeDepths.getD s 0 + (lengthDepths.getD symbol 0 +
          (prefixCodeRanges.getD symbol (0, 0)).2))) r q) :
    Ends (symbolRounds trees select) I B (b, x) p r q := by
  obtain ⟨htype, hlength⟩ := spells_append.1 hspells
  obtain ⟨hlengthSymbol, hlengthExtra⟩ :=
    spells_append.1 (show Spells I _ (ofNat _ _ ++ ofNat _ _) from hlength)
  rw [length_ofNat] at hlengthSymbol hlengthExtra
  rw [length_ofNat] at hlengthExtra
  obtain ⟨a1, r1⟩ :=
    field_round trees select x hremaining
      (type_run (B := B) hstage htypes hs hsfits htype (by omega))
  obtain ⟨a2, r2⟩ :=
    field_round (b := { b.switchTo s with stage := .lengthSymbol }) trees select x hremaining
      (lengthSymbol_run (b := { b.switchTo s with stage := .lengthSymbol }) (B := B) rfl hlengths
      hsymbol hfits hlengthSymbol (by omega))
  obtain ⟨a3, r3⟩ :=
    field_round (b := { b.switchTo s with stage := .lengthExtra symbol }) trees select x hremaining
      (lengthExtra_run (b := { b.switchTo s with stage := .lengthExtra symbol }) (B := B) rfl hextra
      hlengthExtra (by omega))
  rw [← Nat.add_assoc, ← Nat.add_assoc] at hrest
  exact .next a1 r1 (.next a2 r2 (.next a3 r3 hrest))

/-- The symbol itself. -/
theorem reads_symbol {b : Block} (x : ℕ) (hremaining : b.remaining ≠ 0) {t : Table}
    (ht : trees.table (select b.current) = some t)
    {used depths bits : List ℕ} (hfinds : t.Finds used depths bits) {s : ℕ} (hs : s ∈ used)
    (hfits : bits.getD s 0 < 2 ^ depths.getD s 0)
    (hspells : Spells I p (ofNat (depths.getD s 0) (bits.getD s 0)))
    (hend : p + depths.getD s 0 ≤ 8 * B) :
    Ends (symbolRounds trees select) I B (b, x) p (.ok (b.use 1, s)) (p + depths.getD s 0) := by
  obtain ⟨hatomic, hrun⟩ := hfinds.run hs hspells hfits hend (show ∀ w ∈ (none : Option ℕ),
    w = maxLength from fun w hw => by cases hw)
  have hstep : symbolRounds trees select (b, x) =
      (Reader.symbol none t.lookup).bind fun symbol => .pure (.ok (true, b.use 1, symbol)) := by
    unfold symbolRounds Group.decode
    rw [if_neg hremaining, ht]
  refine .last ?_ ?_
  · rw [hstep]
    exact hatomic.bind (fun _ => trivial) fun _ => rfl
  · rw [hstep, Reader.run_bind, hrun]
    rfl

end Mbrotli.Block
