/-
# Meta-blocks without codes, through writer and reader

A meta-block that would not shrink is stored: a header, zeros up to a byte boundary and the
bytes themselves, copied out of the ring buffer in two pieces where they run past its end.
The ring holds the last of what was written (`RingBuffer.Holds`), so the pieces are the
resource's own bytes, in order (`ring_carries`); the reader crosses header and zeros and
stands at the first of them, and after the last it finds what the writer closes the stream
with (`stored_meta_block_round_trip`). A fragment whose scan made it larger is undone and stored
the same way (`grown_fragment_round_trip`); a flush pads its last byte with an empty metadata
block (`flush_padding_round_trip`).

Key definitions: `storeUncompressedMetaBlock`, `Carries`, `ReadsStored`.
Key theorems: `Carries.copies`, `storedBits_reads`, `stored_meta_block_round_trip`,
`grown_fragment_round_trip`.
-/
import Mbrotli.Compressor.Core.Fast
import Mbrotli.Shared.MetaBlockHeader
import Mbrotli.Shared.Ring

namespace Mbrotli.Compressor.Bitstream

open BitString Resumable

/-! ### The writer -/

/-- Writes the header of an uncompressed meta-block, which is never the last. -/
def storeUncompressedMetaBlockHeader (length : ℕ) : List BitOp :=
  let (nibblesbits, nlenbits, lenbits) := encodeMlen length
  [.write 1 0, .write 2 nibblesbits, .write nlenbits lenbits, .write 1 1]

/-- Copies a slice of the input, if it has it. -/
def writeSlice (input : List UInt8) (start len : ℕ) : List BitOp :=
  if start + len ≤ input.length then [.writeBytes ((input.drop start).take len)] else []

/-- Copies `len` bytes of the input, around the end of the window if there is one. -/
def writeWrapped (input : List UInt8) (position mask len : ℕ) : List BitOp :=
  let maskedPos := position &&& mask
  -- a mask of every bit set is a flat buffer's, which cannot wrap
  if mask < u64Max ∧ mask + 1 < maskedPos + len then
    let head := mask + 1 - maskedPos
    writeSlice input maskedPos head ++ writeSlice input 0 (len - head)
  else writeSlice input maskedPos len

/-- Writes the input verbatim, and an empty meta-block behind it where the stream ends. -/
def storeUncompressedMetaBlock (isFinalBlock : Bool) (input : List UInt8) (position mask len : ℕ) :
    List BitOp :=
  storeUncompressedMetaBlockHeader len ++
    (.jumpToByteBoundary :: (writeWrapped input position mask len ++ (.prepareStorage ::
    if isFinalBlock then [.write 1 1, .write 1 1, .jumpToByteBoundary] else [])))

/-! ### What it writes -/

/-- The input has the payload at the positions from `position` on, under a mask of `k` ones. -/
structure Carries (input : List UInt8) (position mask : ℕ) (payload : List UInt8) : Prop where
  window : ∃ k ≤ 63, mask + 1 = 2 ^ k ∧ payload.length ≤ 2 ^ k
  bytes : ∀ i < payload.length, input[(position + i) &&& mask]? = payload[i]?

/-- Calls of whole bytes behind whole bytes. -/
def Copies (calls : List BitOp) (payload : List UInt8) : Prop :=
  ∀ B : List Bool, B.length % 8 = 0 → BitOp.LegalRun calls B true ∧
    BitOp.runBits calls B = B ++ bytesBits payload ∧ BitOp.runClean calls B true = true

theorem bytesBits_append (a b : List UInt8) : bytesBits (a ++ b) = bytesBits a ++ bytesBits b := by
  unfold bytesBits
  rw [List.length_append, Nat.mul_add, List.range_add, List.map_append, List.map_map]
  congr 1
  · refine List.map_congr_left fun i hi => ?_
    have hlt : i < 8 * a.length := List.mem_range.1 hi
    unfold bitAt
    rw [List.getD_append _ _ _ _ (by omega)]
  · refine List.map_congr_left fun i _ => ?_
    show bitAt (a ++ b) (8 * a.length + i) = bitAt b i
    unfold bitAt
    rw [List.getD_append_right _ _ _ _ (by omega), show (8 * a.length + i) / 8 - a.length =
      i / 8 by omega,
      show (8 * a.length + i) % 8 = i % 8 by omega]

theorem Copies.append {xs ys : List BitOp} {a b : List UInt8} (hx : Copies xs a)
    (hy : Copies ys b) : Copies (xs ++ ys) (a ++ b) := by
  intro B hB
  obtain ⟨hlegal, hbits, hclean⟩ := hx B hB
  obtain ⟨hlegal', hbits', hclean'⟩ :=
    hy (B ++ bytesBits a) (by rw [List.length_append, length_bytesBits]; omega)
  rw [BitOp.legalRun_append, BitOp.runBits_append, BitOp.runClean_append, hbits, hclean,
    bytesBits_append, ← List.append_assoc]
  exact ⟨⟨hlegal, hlegal'⟩, hbits', hclean'⟩

/-- A slice that the input has. -/
theorem writeSlice_copies {input payload : List UInt8} {start : ℕ}
    (h : ∀ i < payload.length, input[start + i]? = payload[i]?)
    (hstart : payload = [] → start ≤ input.length) :
    Copies (writeSlice input start payload.length) payload := by
  have hfit : start + payload.length ≤ input.length := by
    rcases List.eq_nil_or_concat payload with rfl | ⟨init, last, rfl⟩
    · exact hstart rfl
    · have hlast := h init.length (by simp)
      rw [List.concat_eq_append, List.getElem?_concat_length] at hlast
      have hlt := (List.getElem?_eq_some_iff.1 hlast).1
      rw [List.concat_eq_append, List.length_append, List.length_singleton]
      omega
  have hslice : (input.drop start).take payload.length = payload := by
    refine List.ext_getElem? fun i => ?_
    by_cases hi : i < payload.length
    · rw [List.getElem?_take_of_lt hi, List.getElem?_drop, h i hi]
    · rw [List.getElem?_eq_none (by rw [List.length_take]; omega), List.getElem?_eq_none (by omega)]
  unfold writeSlice
  rw [if_pos hfit, hslice]
  exact fun B hB => ⟨⟨hB, trivial⟩, rfl, rfl⟩

/-- The payload is copied whole, in two slices where it wraps. -/
theorem Carries.copies {input payload : List UInt8} {position mask : ℕ}
    (h : Carries input position mask payload) (hne : payload ≠ []) :
    Copies (writeWrapped input position mask payload.length) payload := by
  obtain ⟨k, hk, hmask, hlen⟩ := h.window
  have hpos := List.length_pos_of_ne_nil hne
  have hsize : 2 ^ k ≤ 2 ^ 63 := Nat.pow_le_pow_right (by decide) hk
  have hmax : u64Max = 2 ^ 64 - 1 := rfl
  obtain rfl : mask = 2 ^ k - 1 := by omega
  have hmasked : ∀ n, n &&& (2 ^ k - 1) = n % 2 ^ k := fun n => Nat.and_two_pow_sub_one_eq_mod n k
  obtain ⟨start, hstart⟩ : ∃ start, position % 2 ^ k = start := ⟨_, rfl⟩
  have hlt : start < 2 ^ k := hstart ▸ Nat.mod_lt _ (Nat.two_pow_pos _)
  have hplace : ∀ i, (position + i) % 2 ^ k = (start + i) % 2 ^ k :=
    fun i => by rw [← hstart, Nat.mod_add_mod]
  have hbytes : ∀ i < payload.length, input[(start + i) % 2 ^ k]? = payload[i]? := fun i hi => by
    rw [← hplace, ← hmasked]
    exact h.bytes i hi
  unfold writeWrapped
  dsimp only
  rw [hmasked, hstart, hmask]
  by_cases hwrap : 2 ^ k < start + payload.length
  · obtain ⟨head, hhead⟩ : ∃ head, 2 ^ k - start = head := ⟨_, rfl⟩
    have hfirst : (payload.take head).length = head := by rw [List.length_take]; omega
    have hsecond : (payload.drop head).length = payload.length - head := List.length_drop
    rw [if_pos ⟨by omega, hwrap⟩, hhead]
    have hcopies := (@writeSlice_copies input (payload.take head) start (fun i hi => by
        rw [hfirst] at hi
        rw [List.getElem?_take_of_lt hi, ← hbytes i (by omega), Nat.mod_eq_of_lt (by omega)])
      fun hnil => by rw [hnil] at hfirst; exact absurd hfirst (by simp; omega)).append
      (@writeSlice_copies input (payload.drop head) 0 (fun i hi => by
        rw [hsecond] at hi
        rw [List.getElem?_drop, ← hbytes (head + i) (by omega), Nat.zero_add, ← Nat.add_assoc,
          show start + head = 2 ^ k by omega,
          Nat.add_mod_left, Nat.mod_eq_of_lt (by omega)])
      fun _ => Nat.zero_le _)
    rw [hfirst, hsecond, List.take_append_drop] at hcopies
    exact hcopies
  · rw [if_neg fun hboth => hwrap hboth.2]
    refine writeSlice_copies (fun i hi => ?_) fun hnil => absurd hnil hne
    rw [← hbytes i hi, Nat.mod_eq_of_lt (by omega)]

/-- What closes the stream behind the last of its bytes. -/
def endBits (isFinalBlock : Bool) : List Bool :=
  if isFinalBlock then ofNat 1 1 ++ ofNat 1 1 ++ List.replicate 6 false else []

/-- The bits of a stored meta-block behind `offset` bits. -/
def storedBits (nibbles : ℕ) (payload : List UInt8) (offset : ℕ) (isFinalBlock : Bool) :
    List Bool :=
  Stream.rawBits nibbles payload.length ++
    (List.replicate (Reader.padding (offset + (Stream.rawBits nibbles payload.length).length))
      false ++
    (bytesBits payload ++ endBits isFinalBlock))

theorem padding_eq (B : List Bool) :
    BitOp.padding B = List.replicate (Reader.padding B.length) false := by
  unfold BitOp.padding Reader.padding
  congr 1
  omega

/-- The closing meta-block takes the rest of its byte. -/
theorem padding_end {whole : List Bool} (hwhole : whole.length % 8 = 0) :
    whole ++ ofNat 1 1 ++ ofNat 1 1 ++ BitOp.padding (whole ++ ofNat 1 1 ++ ofNat 1 1) =
    whole ++ endBits true := by
  have hsix : Reader.padding (whole ++ ofNat 1 1 ++ ofNat 1 1).length = 6 := by
    rw [List.length_append, List.length_append, length_ofNat]
    unfold Reader.padding
    omega
  unfold endBits
  rw [padding_eq, hsix, if_pos rfl]
  simp only [List.append_assoc]

theorem storeUncompressedMetaBlockHeader_writes {length : ℕ} (h1 : 1 ≤ length)
    (h24 : length ≤ 2 ^ 24) :
    ∃ nibbles, 4 ≤ nibbles ∧ nibbles ≤ 6 ∧ length - 1 < 2 ^ (nibbles * 4) ∧
    (4 < nibbles → 2 ^ ((nibbles - 1) * 4) ≤ length - 1) ∧
      FastCommands.Writes (storeUncompressedMetaBlockHeader length)
      (Stream.rawBits nibbles length) := by
  obtain ⟨nibbles, h4, h6, heq, hfits, hshort⟩ := encodeMlen_spec h1 h24
  refine ⟨nibbles, h4, h6, hfits, hshort, ?_⟩
  have hwidth : nibbles * 4 ≤ maxBitsPerWrite := by
    have : maxBitsPerWrite = 56 := rfl
    omega
  unfold storeUncompressedMetaBlockHeader Stream.rawBits
  rw [heq, List.append_assoc, List.append_assoc]
  exact FastCommands.Writes.cons (by decide) (by decide) rfl
    (FastCommands.Writes.cons (by decide) (show nibbles - 4 < 2 ^ 2 by omega) rfl
    (FastCommands.Writes.cons hwidth hfits rfl (FastCommands.Writes.write (by decide) (by decide))))

/-- The whole run, behind any bits. -/
theorem storeUncompressedMetaBlock_writes {input payload : List UInt8} {position mask : ℕ}
    (h : Carries input position mask payload)
    (hne : payload ≠ []) (h24 : payload.length ≤ 2 ^ 24) (isFinalBlock : Bool) (B : List Bool) :
    ∃ nibbles, 4 ≤ nibbles ∧ nibbles ≤ 6 ∧ payload.length - 1 < 2 ^ (nibbles * 4) ∧
      (4 < nibbles → 2 ^ ((nibbles - 1) * 4) ≤ payload.length - 1) ∧
      BitOp.LegalRun (storeUncompressedMetaBlock isFinalBlock input position mask payload.length) B
      true ∧
      BitOp.runBits (storeUncompressedMetaBlock isFinalBlock input position mask payload.length) B =
        B ++ storedBits nibbles payload B.length isFinalBlock := by
  obtain ⟨nibbles, h4, h6, hfits, hshort, hheader⟩ :=
    storeUncompressedMetaBlockHeader_writes (List.length_pos_of_ne_nil hne) h24
  refine ⟨nibbles, h4, h6, hfits, hshort, ?_⟩
  obtain ⟨head, hhead⟩ : ∃ head, B ++ Stream.rawBits nibbles payload.length = head := ⟨_, rfl⟩
  obtain ⟨zeros, hzeros⟩ : ∃ zeros, BitOp.padding head = zeros := ⟨_, rfl⟩
  have hlenHead : head.length = B.length + (Stream.rawBits nibbles payload.length).length := by
    rw [← hhead, List.length_append]
  have hlenZeros : zeros.length = Reader.padding head.length := by
    rw [← hzeros, padding_eq, List.length_replicate]
  have haligned : (head ++ zeros).length % 8 = 0 := by
    rw [List.length_append, hlenZeros]
    unfold Reader.padding
    omega
  obtain ⟨hlegal, hbits, hclean⟩ := h.copies hne (head ++ zeros) haligned
  have hwhole : (head ++ zeros ++ bytesBits payload).length % 8 = 0 := by
    rw [List.length_append, length_bytesBits]
    omega
  have hspelled : head ++ zeros ++ bytesBits payload ++ endBits isFinalBlock =
      B ++ storedBits nibbles payload B.length isFinalBlock := by
    unfold storedBits
    rw [← hzeros, padding_eq, hlenHead, ← hhead]
    simp only [List.append_assoc]
  have hclosed : BitOp.LegalRun (if isFinalBlock then [.write 1 1, .write 1 1, .jumpToByteBoundary]
    else []) (head ++ zeros ++ bytesBits payload) true ∧
      BitOp.runBits (if isFinalBlock then [.write 1 1, .write 1 1, .jumpToByteBoundary] else [])
      (head ++ zeros ++ bytesBits payload) =
        head ++ zeros ++ bytesBits payload ++ endBits isFinalBlock := by
    cases isFinalBlock with
    | false => exact ⟨trivial, (List.append_nil _).symm⟩
    | true => exact ⟨⟨⟨by decide, by decide, rfl⟩, ⟨by decide, by decide, rfl⟩, rfl, trivial⟩,
        padding_end hwhole⟩
  unfold storeUncompressedMetaBlock
  rw [BitOp.legalRun_append, BitOp.runBits_append, hheader.bits_eq, hheader.clean, hhead]
  show (_ ∧ (true = true ∧ BitOp.LegalRun _ (head ++ BitOp.padding head) true)) ∧
    BitOp.runBits _ (head ++ BitOp.padding head) = _
  rw [hzeros, BitOp.legalRun_append, BitOp.runBits_append, hbits, hclean, ← hspelled]
  exact ⟨⟨hheader.legal B, rfl, hlegal, hwhole, hclosed.1⟩, hclosed.2⟩

/-! ### The ring -/

/-- A ring carries what was last written, wherever its writer's position wraps. -/
theorem ring_carries {rbBits lgblock : ℕ} (hs : RingBuffer.Sizes rbBits lgblock) {rb : RingBuffer}
    {history : List UInt8}
    (h : RingBuffer.Holds rbBits lgblock rb history) {start len position : ℕ}
    (hend : start + len ≤ history.length)
    (hreach : history.length ≤ start + 2 ^ rbBits)
    (hposition : position % 2 ^ rbBits = start % 2 ^ rbBits) :
    Carries rb.buffer position rb.mask ((history.drop start).take len) := by
  have hlen : ((history.drop start).take len).length = len := by
    rw [List.length_take, List.length_drop]
    omega
  refine ⟨⟨rbBits, hs.le.trans (by decide), ?_, by omega⟩, fun i hi => ?_⟩
  · rw [h.shape.mask]
    exact Nat.sub_add_cancel (Nat.one_le_two_pow)
  · rw [hlen] at hi
    have hsame : (position + i) &&& rb.mask = (start + i) &&& rb.mask := by
      rw [h.shape.masked, h.shape.masked, ← Nat.mod_add_mod, hposition, Nat.mod_add_mod]
    have hread := h.read hs (p := start + i) (by omega) (by omega) (Or.inl rfl) (by omega)
    rw [hsame, List.getElem?_take_of_lt hi, List.getElem?_drop]
    exact hread

/-! ### The reader -/

/-- A stream at the stage `start` comes from bit `p` to `q` and the stage `stop` in one read, as
`next` of what it was, however it is split into calls. -/
def Reads (I : List UInt8) (p q : ℕ) (start stop : Stage) (length : ℕ) (next : Stream → Stream) :
    Prop :=
  ∀ (env : Env) (s : Stream) (total : ℕ) (limit : Option ℕ) (reservoir : Bits)
    (pieces : List (List UInt8)),
    s.stage = start → s.position + length ≤ u64Max → I.length ≤ u64Max →
    Mbrotli.Cursor I p reservoir total → total ≤ I.length →
    (∀ l, limit = some l → total ≤ l) → pieces ≠ [] → pieces.flatten = I.drop total →
    q ≤ 8 * Builder.allowed limit I.length →
    ∃ n reservoir' total', (∀ fuel, n ≤ fuel →
      calls (Stream.rounds env fun stage => decide (stage = stop)) fuel limit pieces s reservoir
      total = (.done (), next s, reservoir', total')) ∧
        Mbrotli.Cursor I q reservoir' total'

theorem reads_once {I : List UInt8} {p q length : ℕ} {start stop : Stage} {next : Stream → Stream}
    (hstop : ∀ s, s.stage = start → (next s).stage = stop)
    (h : ∀ (env : Env) (s : Stream) (B : ℕ), s.stage = start →
      s.position + length ≤ u64Max → q ≤ 8 * B →
      (s.readStage env).Atomic 0 ∧ (s.readStage env).run I B p = .done (.ok (next s)) q) :
      Reads I p q start stop length next := by
  intro env s total limit reservoir pieces hs hposition hI hc ht hl hne hpieces hend
  obtain ⟨hatomic, hrun⟩ := h env s _ hs hposition hend
  have hround : (Stream.rounds env (fun stage => decide (stage = stop)) s).run I
      (Builder.allowed limit I.length) p = .done (.ok (true, next s)) q := by
    unfold Stream.rounds
    rw [Reader.run_bind, hrun]
    show Reader.Result.done (Except.ok (decide ((next s).stage = stop), next s)) q = _
    rw [decide_eq_true (hstop s hs)]
  have hsettled : (Stream.rounds env (fun stage => decide (stage = stop)) s).Atomic 0 := by
    unfold Stream.rounds
    exact hatomic.bind (fun _ => trivial) fun _ => rfl
  exact calls_of_ends hI pieces (.last hsettled hround) hc ht hl hpieces (Or.inl hne)

/-- A meta-block's header is one read, whatever it says. -/
theorem reads_header {I : List UInt8} {p q length : ℕ} {stop : Stage} {next : Stream → Stream}
    {header : MetaBlock}
    (hrun : ∀ B, q ≤ 8 * B → Header.metablock.run I B p = .done header q)
    (hstop : ∀ s, (next s).stage = stop)
    (hnext : ∀ program (s : Stream), s.position + length ≤ u64Max →
      s.enterMetaBlock program header = .ok (next s)) :
    Reads I p q .metaBlock stop length next := by
  refine reads_once (fun s _ => hstop s) fun env s B hs hposition hend => ?_
  have hread : s.readStage env = Header.metablock.bind fun header =>
      .pure (s.enterMetaBlock env.program header) := by
    unfold Stream.readStage
    rw [hs]
    rfl
  rw [hread]
  refine ⟨Header.metablock_atomic.bind (fun _ => trivial) fun _ => rfl, ?_⟩
  rw [Reader.run_bind, hrun B hend]
  show Reader.Result.done (s.enterMetaBlock env.program header) q = _
  rw [hnext env.program s hposition]

/-- The header of a stored meta-block, and the zeros behind it. -/
theorem reads_raw {I : List UInt8} {p nibbles length : ℕ} (h4 : 4 ≤ nibbles) (h6 : nibbles ≤ 6)
    (h1 : 1 ≤ length)
    (hfits : length - 1 < 2 ^ (nibbles * 4))
    (hshort : 4 < nibbles → 2 ^ ((nibbles - 1) * 4) ≤ length - 1)
    (hspells : BitString.Spells I p (Stream.rawBits nibbles length))
    (hzeros : BitString.Spells I (p + (Stream.rawBits nibbles length).length)
      (List.replicate (Reader.padding (p + (Stream.rawBits nibbles length).length)) false)) :
    Reads I p
    (p + (Stream.rawBits nibbles length).length +
      Reader.padding (p + (Stream.rawBits nibbles length).length)) .metaBlock .raw length
      fun s => { s with remaining := length, last := false, stage := .raw } :=
  reads_header (fun B hend => Stream.metablock_raw_run h4 h6 h1 hfits hshort hspells (by omega)
    hzeros) (fun _ => rfl)
    fun _ s hposition => if_neg (Nat.not_lt.2 hposition)

/-- The empty meta-block that ends a stream. -/
theorem reads_end {I : List UInt8} {p : ℕ}
    (hspells : BitString.Spells I p (ofNat 1 1 ++ ofNat 1 1)) :
    Reads I p (p + 2) .metaBlock .endOfMember 0 fun s => { s with stage := .endOfMember } :=
  reads_header (fun _ hend => Stream.metablock_end_run hspells hend) (fun _ => rfl) fun _ _ _ => rfl

/-- The zeros behind it. -/
theorem reads_padding {I : List UInt8} {p : ℕ}
    (hspells : BitString.Spells I p (List.replicate (Reader.padding p) false)) :
    Reads I p (p + Reader.padding p) .endOfMember .endOfMember 0 fun s => s := by
  refine reads_once (fun _ hs => hs) fun env s B hs hposition hend => ?_
  have hread : s.readStage env = (Reader.toByte InvalidDataKind.padding.fault).bind fun _ =>
      .pure (.ok s) := by
    unfold Stream.readStage
    rw [hs]
    rfl
  rw [hread]
  exact ⟨⟨rfl, trivial⟩, Stream.toByte_run _ hspells⟩

/-- The bits `stored` behind the bits `B` are read back: header and zeros up to the byte `first`,
the payload from there on, and behind it nothing, or the end of the stream. -/
def ReadsStored (B stored : List Bool) (payload : List UInt8) (first : ℕ) (isFinalBlock : Bool) :
    Prop :=
  ∀ I : List UInt8, BitString.Spells I 0 (B ++ stored) → (B ++ stored).length ≤ 8 * I.length →
    Reads I B.length (8 * first) .metaBlock .raw payload.length
    (fun s => { s with remaining := payload.length, last := false, stage := .raw }) ∧
    (I.drop first).take payload.length = payload ∧
    if isFinalBlock then
      Reads I (8 * (first + payload.length)) (8 * (first + payload.length) + 2) .metaBlock
        .endOfMember 0 (fun s => { s with stage := .endOfMember }) ∧
        Reads I (8 * (first + payload.length) + 2) (B ++ stored).length .endOfMember
        .endOfMember 0 fun s => s
    else (B ++ stored).length = 8 * (first + payload.length)

theorem storedBits_reads {payload : List UInt8} {nibbles : ℕ} (hne : payload ≠ [])
    (h4 : 4 ≤ nibbles) (h6 : nibbles ≤ 6)
    (hfits : payload.length - 1 < 2 ^ (nibbles * 4))
    (hshort : 4 < nibbles → 2 ^ ((nibbles - 1) * 4) ≤ payload.length - 1)
    (isFinalBlock : Bool) (B : List Bool) :
    ∃ first, ReadsStored B (storedBits nibbles payload B.length isFinalBlock) payload first
    isFinalBlock := by
  obtain ⟨behind, hbehind⟩ : ∃ behind, B.length + (Stream.rawBits nibbles payload.length).length =
    behind := ⟨_, rfl⟩
  obtain ⟨first, hfirst⟩ : ∃ first, behind + Reader.padding behind = 8 * first :=
    ⟨(behind + 7) / 8, by unfold Reader.padding; omega⟩
  refine ⟨first, fun I hspells hI => ?_⟩
  unfold storedBits at hspells hI ⊢
  rw [hbehind] at hspells hI ⊢
  obtain ⟨-, hspells⟩ := spells_append.1 hspells
  obtain ⟨hraw, hspells⟩ := spells_append.1 hspells
  obtain ⟨hzeros, hspells⟩ := spells_append.1 hspells
  obtain ⟨hbytes, hclose⟩ := spells_append.1 hspells
  rw [Nat.zero_add] at hraw hzeros hbytes hclose
  rw [hbehind] at hzeros hbytes hclose
  rw [List.length_replicate, hfirst] at hbytes hclose
  rw [length_bytesBits, ← Nat.mul_add] at hclose
  have htotal :
    (B ++ (Stream.rawBits nibbles payload.length ++ (List.replicate (Reader.padding behind) false ++
      (bytesBits payload ++ endBits isFinalBlock)))).length =
      8 * (first + payload.length) + (endBits isFinalBlock).length := by
    simp only [List.length_append, List.length_replicate, length_bytesBits]
    omega
  refine ⟨?_, ?_, ?_⟩
  · have hreads :=
      reads_raw h4 h6 (List.length_pos_of_ne_nil hne) hfits hshort hraw
        (by rw [hbehind]; exact hzeros)
    rw [hbehind, hfirst] at hreads
    exact hreads
  · rw [htotal] at hI
    have hslice := hbytes.packBytes (n := payload.length) (by rw [length_bytesBits]) (by omega)
    have hself : BitString.Spells payload (8 * 0) (bytesBits payload) := fun i hi => by
      rw [length_bytesBits] at hi
      rw [getD_bytesBits hi, Nat.zero_add]
    have hpack := hself.packBytes (n := payload.length) (by rw [length_bytesBits]) (by omega)
    rw [List.drop_zero, List.take_of_length_le (le_refl _)] at hpack
    rw [hslice, ← hpack]
  · rw [htotal]
    unfold endBits at hclose ⊢
    cases isFinalBlock with
    | false => rfl
    | true =>
      obtain ⟨hmark, hpad⟩ := spells_append.1 hclose
      have hsix : Reader.padding (8 * (first + payload.length) + 2) = 6 := by
        unfold Reader.padding
        omega
      have hreads := @reads_padding I (8 * (first + payload.length) + 2) (by rw [hsix]; exact hpad)
      rw [hsix] at hreads
      exact ⟨reads_end hmark, hreads⟩

/-- **A stored meta-block carries the ring's bytes to the reader.** -/
theorem stored_meta_block_round_trip {rbBits lgblock : ℕ} (hs : RingBuffer.Sizes rbBits lgblock)
    {ops : List RingOp}
    (hfits : ∀ op ∈ ops, op.Fits (2 ^ lgblock)) {start len position : ℕ} (h1 : 1 ≤ len)
    (h24 : len ≤ 2 ^ 24)
    (hend : start + len ≤ (ops.foldl RingOp.extend []).length)
    (hreach : (ops.foldl RingOp.extend []).length ≤ start + 2 ^ rbBits)
    (hposition : position % 2 ^ rbBits = start % 2 ^ rbBits) (isFinalBlock : Bool) (B : List Bool) :
    let rb := ops.foldl RingBuffer.apply (.new rbBits lgblock)
    let run := storeUncompressedMetaBlock isFinalBlock rb.buffer position rb.mask len
    ∃ (stored : List Bool) (first : ℕ), BitOp.LegalRun run B true ∧
      BitOp.runBits run B = B ++ stored ∧
      ReadsStored B stored (((ops.foldl RingOp.extend []).drop start).take len) first
      isFinalBlock := by
  intro rb run
  have hcarries :=
    ring_carries hs (RingBuffer.Holds.run hs ops (RingBuffer.new_holds hs) hfits) hend
      hreach hposition
  obtain ⟨payload, hpayload⟩ : ∃ payload, ((ops.foldl RingOp.extend []).drop start).take len =
    payload := ⟨_, rfl⟩
  obtain rfl : payload.length = len := by
    rw [← hpayload, List.length_take, List.length_drop]
    omega
  rw [hpayload] at hcarries ⊢
  have hne := List.ne_nil_of_length_pos h1
  obtain ⟨nibbles, h4, h6, hfit, hshort, hlegal, hbits⟩ :=
    storeUncompressedMetaBlock_writes hcarries hne h24 isFinalBlock B
  obtain ⟨first, hreads⟩ := storedBits_reads hne h4 h6 hfit hshort isFinalBlock B
  exact ⟨_, first, hlegal, hbits, hreads⟩

/-- Six bytes around the end of a ring of sixteen, behind one bit, and the end of the stream. -/
theorem stored_meta_block_round_trip_wraps :
    let ops : List RingOp :=
      [.write [1, 2, 3], .write [4, 5, 6, 7], .write [8, 9, 10, 11], .clearMargin,
    .write [12, 13, 14, 15], .write [16, 17, 18]]
    let rb := ops.foldl RingBuffer.apply (.new 4 2)
    let run := storeUncompressedMetaBlock true rb.buffer (12 + 32) rb.mask 6
    ∃ (stored : List Bool) (first : ℕ), BitOp.LegalRun run [true] true ∧ BitOp.runBits run [true] =
      [true] ++ stored ∧
      ReadsStored [true] stored [13, 14, 15, 16, 17, 18] first true :=
  @stored_meta_block_round_trip 4 2 ⟨by decide, by decide, by decide⟩ [.write [1, 2, 3],
    .write [4, 5, 6, 7], .write [8, 9, 10, 11], .clearMargin,
    .write [12, 13, 14, 15], .write [16, 17, 18]] (by simp [RingOp.Fits]) 12 6 (12 + 32) (by decide)
    (by decide) (by decide) (by decide) (by decide)
    true [true]

/-! ### The fragment that grew -/

/-- The fragment compressors' header of a verbatim copy is the same. -/
theorem storeMetaBlockHeader_eq {length : ℕ} (h1 : 1 ≤ length) (h24 : length ≤ 2 ^ 24) :
    storeMetaBlockHeader length true = storeUncompressedMetaBlockHeader length := by
  obtain ⟨nibbles, h4, h6, heq, hfits, hshort⟩ := encodeMlen_spec h1 h24
  have hnibbles : (if length ≤ 1 <<< 16 then 4 else if length ≤ 1 <<< 20 then 5 else 6) =
      nibbles := by
    have h16 : 1 <<< 16 = 2 ^ 16 := rfl
    have h20 : 1 <<< 20 = 2 ^ 20 := rfl
    rw [h16, h20]
    interval_cases nibbles
    · rw [if_pos (by omega)]
    · have := hshort (by decide)
      rw [if_neg (by omega), if_pos (by omega)]
    · have := hshort (by decide)
      rw [if_neg (by omega), if_neg (by omega)]
  unfold storeMetaBlockHeader storeUncompressedMetaBlockHeader
  rw [heq]
  dsimp only
  rw [hnibbles]
  rfl

/-- A verbatim copy of a fragment is a stored meta-block. -/
theorem emitUncompressedMetaBlock_bits {data : List UInt8} (hne : data ≠ [])
    (h24 : data.length ≤ 2 ^ 24) (isLast : Bool) (B : List Bool) :
    ∃ nibbles, 4 ≤ nibbles ∧ nibbles ≤ 6 ∧ data.length - 1 < 2 ^ (nibbles * 4) ∧
    (4 < nibbles → 2 ^ ((nibbles - 1) * 4) ≤ data.length - 1) ∧
      BitOp.runBits (emitUncompressedMetaBlock data ++ if isLast then closingBits else []) B =
      B ++ storedBits nibbles data B.length isLast := by
  have h1 := List.length_pos_of_ne_nil hne
  obtain ⟨nibbles, h4, h6, hfits, hshort, hheader⟩ := storeUncompressedMetaBlockHeader_writes h1 h24
  refine ⟨nibbles, h4, h6, hfits, hshort, ?_⟩
  have hspelled : B ++ Stream.rawBits nibbles data.length ++
    BitOp.padding (B ++ Stream.rawBits nibbles data.length) ++ bytesBits data ++ endBits isLast =
      B ++ storedBits nibbles data B.length isLast := by
    unfold storedBits
    rw [padding_eq, List.length_append]
    simp only [List.append_assoc]
  have hwhole :
      (B ++ Stream.rawBits nibbles data.length ++
        BitOp.padding (B ++ Stream.rawBits nibbles data.length) ++ bytesBits data).length % 8 =
        0 := by
    rw [List.length_append, List.length_append, padding_eq, List.length_replicate, length_bytesBits]
    unfold Reader.padding
    omega
  unfold emitUncompressedMetaBlock
  rw [storeMetaBlockHeader_eq h1 h24, BitOp.runBits_append, BitOp.runBits_append,
    hheader.bits_eq, ← hspelled]
  cases isLast with
  | false => exact (List.append_nil _).symm
  | true => exact padding_end hwhole

/-- **A fragment that grew is undone, and its bytes survive.** Whatever calls the scan made behind
the bits `B`, the encoder takes them back and the reader gets the fragment verbatim. -/
theorem grown_fragment_round_trip {calls : List BitOp} {B : List Bool}
    (hcalls : BitOp.Extends calls B true) {data : List UInt8} (hne : data ≠ [])
    (h24 : data.length ≤ 2 ^ 24) (hgrew : 31 + 8 * data.length <
      BitOp.endPosition calls B.length - B.length) (isLast : Bool) :
    ∃ (stored : List Bool) (first : ℕ), BitOp.LegalRun (settle calls data isLast B.length) B true ∧
      BitOp.runBits (settle calls data isLast B.length) B = B ++ stored ∧
      ReadsStored B stored data first isLast := by
  obtain ⟨nibbles, h4, h6, hfits, hshort, hbits⟩ := emitUncompressedMetaBlock_bits hne h24 isLast B
  obtain ⟨first, hreads⟩ := storedBits_reads hne h4 h6 hfits hshort isLast B
  refine ⟨_, first, (settle_extends isLast rfl h24 hcalls fun h => absurd h hne).legal, ?_, hreads⟩
  have hsettle : settle calls data isLast B.length =
      calls ++ .rewind B.length :: (emitUncompressedMetaBlock data ++ if isLast then closingBits
        else []) := by
    unfold settle
    dsimp only
    rw [if_pos hgrew]
    cases isLast with
    | false =>
        exact (congrArg (fun tail => calls ++ .rewind B.length :: tail) (List.append_nil _)).symm
    | true => exact List.append_assoc _ _ _
  obtain ⟨more, hmore⟩ := hcalls.kept
  rw [hsettle, BitOp.runBits_append, ← hmore]
  show BitOp.runBits _ ((B ++ more).take B.length) = _
  rw [List.take_left]
  exact hbits

/-- Forty bits for one byte, behind one bit. -/
theorem grown_fragment_round_trip_one :
    ∃ (stored : List Bool) (first : ℕ),
    BitOp.LegalRun (settle [.write 40 0] [7] true 1) [true] true ∧
    BitOp.runBits (settle [.write 40 0] [7] true 1) [true] = [true] ++ stored ∧
    ReadsStored [true] stored [7] first true :=
  @grown_fragment_round_trip [.write 40 0] [true] ⟨⟨⟨by decide, by decide, rfl⟩, trivial⟩,
    fun _ => rfl, List.prefix_append _ _⟩ [7] (by decide)
    (by decide) (by decide) true

/-! ### The padding of a flush -/

/-- An empty metadata block, and the zeros behind it. -/
theorem reads_metadata {I : List UInt8} {p : ℕ} (hspells : BitString.Spells I p (ofNat 6 6))
    (hzeros : BitString.Spells I (p + 6) (List.replicate (Reader.padding (p + 6)) false)) :
    Reads I p (p + 6 + Reader.padding (p + 6)) .metaBlock .metadata 0 fun s =>
    { s with remaining := 0, last := false, stage := .metadata } :=
  reads_header (fun _ hend => Stream.metablock_metadata_run hspells (by omega) hzeros)
    (fun _ => rfl) fun _ _ _ => rfl

/-- **A flush ends in a whole byte that says nothing.** The carried bits stand in the bytes the
padding gives out, and behind them a reader finds an empty metadata block to the last bit of the
last byte. -/
theorem flush_padding_round_trip {lastBytes lastBytesBits : ℕ} {dst : List UInt8}
    (h1 : 1 ≤ lastBytesBits) (h16 : lastBytesBits ≤ 16)
    (hcarry : lastBytes < 2 ^ lastBytesBits) (hdst : bytePaddingSlack ≤ dst.length) :
    ∃ padded dst', injectBytePadding lastBytes lastBytesBits dst = (padded, dst', 0, 0) ∧
    padded ≤ bytePaddingSlack ∧
      dst'.length = dst.length ∧ dst'.drop bytePaddingSlack = dst.drop bytePaddingSlack ∧
      ∀ (I : List UInt8) (start : ℕ), (I.drop start).take padded = dst'.take padded →
        BitString.Spells I (8 * start) (ofNat lastBytesBits lastBytes) ∧
        Reads I (8 * start + lastBytesBits) (8 * (start + padded)) .metaBlock .metadata 0
          fun s => { s with remaining := 0, last := false, stage := .metadata } := by
  have hslack : bytePaddingSlack = 3 := rfl
  rw [hslack] at hdst
  obtain ⟨sealed, hsealed⟩ : ∃ sealed, lastBytes ||| (6 <<< lastBytesBits) = sealed := ⟨_, rfl⟩
  have hlen : (leBytes 3 sealed).length = 3 := length_leBytes 3 sealed
  refine ⟨(lastBytesBits + 6 + 7) / 8, splice dst 0 (leBytes 3 sealed), ?_, by omega,
    length_splice (by omega), ?_, fun I start hsame => ?_⟩
  · unfold injectBytePadding
    rw [if_neg (by omega), hsealed, hslack]
  · unfold splice
    rw [List.take_zero, List.nil_append, Nat.zero_add, hlen, hslack,
      List.drop_append_of_le_length (by omega), List.drop_of_length_le (by omega),
      List.nil_append]
  have hlow : ∀ i < lastBytesBits, sealed.testBit i = lastBytes.testBit i := fun i hi => by
    rw [← hsealed, Nat.testBit_or, Nat.testBit_shiftLeft, decide_eq_false (Nat.not_le.2 hi),
      Bool.false_and, Bool.or_false]
  have hhigh : ∀ i, sealed.testBit (lastBytesBits + i) = (6).testBit i := fun i => by
    have hnone : lastBytes.testBit (lastBytesBits + i) = false :=
      Nat.testBit_lt_two_pow (hcarry.trans_le
        (Nat.pow_le_pow_right (by decide) (Nat.le_add_right _ _)))
    rw [← hsealed, Nat.testBit_or, Nat.testBit_shiftLeft, hnone,
      decide_eq_true (Nat.le_add_right _ _), Nat.add_sub_cancel_left, Bool.false_or,
      Bool.true_and]
  have hbits : ∀ i < 8 * ((lastBytesBits + 6 + 7) / 8), bitAt I (8 * start + i) =
      sealed.testBit i := by
    intro i hi
    have hbyte : bitAt ((I.drop start).take ((lastBytesBits + 6 + 7) / 8)) i =
        bitAt ((splice dst 0 (leBytes 3 sealed)).take ((lastBytesBits + 6 + 7) / 8)) i :=
      congrArg (bitAt · i) hsame
    rw [bitAt_take hi, bitAt_take hi, bitAt_drop, bitAt_splice (Nat.zero_le _), hlen,
      if_pos (by omega), Nat.mul_zero, Nat.sub_zero,
      bitAt_leBytes (by omega)] at hbyte
    exact hbyte
  have hpadding : Reader.padding (8 * start + lastBytesBits + 6) =
      8 * ((lastBytesBits + 6 + 7) / 8) - (lastBytesBits + 6) := by
    unfold Reader.padding
    omega
  refine ⟨fun i hi => ?_, ?_⟩
  · rw [length_ofNat] at hi
    rw [hbits i (by omega), getD_ofNat hi, hlow i hi]
  · have hreads := @reads_metadata I (8 * start + lastBytesBits) (fun i hi => ?_) fun i hi => ?_
    · rw [hpadding, show 8 * start + lastBytesBits + 6 +
        (8 * ((lastBytesBits + 6 + 7) / 8) - (lastBytesBits + 6)) =
        8 * (start + (lastBytesBits + 6 + 7) / 8) by omega] at hreads
      exact hreads
    · rw [length_ofNat] at hi
      rw [Nat.add_assoc, hbits _ (by omega), getD_ofNat hi, hhigh]
    · rw [hpadding, List.length_replicate] at hi
      have hzero : (6).testBit (6 + i) = false :=
        Nat.testBit_lt_two_pow (lt_of_lt_of_le (show 6 < 2 ^ 6 by decide)
          (Nat.pow_le_pow_right (by decide) (Nat.le_add_right _ _)))
      rw [Nat.add_assoc, Nat.add_assoc, hbits _ (by omega), hhigh, hzero,
        List.getD_eq_getElem?_getD, List.getElem?_replicate]
      split <;> rfl

/-- Five carried bits, and room for one byte more than the padding may take. -/
theorem flush_padding_round_trip_five :
    ∃ padded dst', injectBytePadding 21 5 [9, 9, 9, 9] = (padded, dst', 0, 0) ∧
    padded ≤ bytePaddingSlack ∧
    dst'.length = 4 ∧ dst'.drop bytePaddingSlack = [9] ∧
    ∀ (I : List UInt8) (start : ℕ), (I.drop start).take padded = dst'.take padded →
      BitString.Spells I (8 * start) (ofNat 5 21) ∧
      Reads I (8 * start + 5) (8 * (start + padded)) .metaBlock .metadata 0 fun s =>
      { s with remaining := 0, last := false, stage := .metadata } :=
  @flush_padding_round_trip 21 5 [9, 9, 9, 9] (by decide) (by decide) (by decide) (by decide)

end Mbrotli.Compressor.Bitstream
