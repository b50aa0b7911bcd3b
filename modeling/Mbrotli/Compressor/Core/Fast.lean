/-
# The encoder of qualities zero and one

Input is cut into fragments of at most the window size; each is encoded on its own into
whole bytes, and the bits of the last, unfinished byte are carried into the next one. A
fragment is written into retained scratch, straight into the caller's slice, or behind
the bytes of a vector.

The scans themselves are parameters: `FragmentKernels` gives the calls of the bit
writer a scan makes. What the encoder adds to them is here: the closing bits, the
rewrite of a fragment that grew, and the padding of a flush. `FastState` is the encoder
without its storage, and `encodeBlock_spec`, `encodeBlockInto_spec` and
`encodeBlockAppend_spec` say that it does not matter which storage is used.
-/
import Mbrotli.Compressor.Config
import Mbrotli.Decompressor.Core.Bits
import Mbrotli.Shared.Bits

namespace Mbrotli.Compressor
open BitString

/-- Bytes the bit writer reaches past the last one it writes. -/
def outputSlack : ℕ := 8

/-- The constant part of what a fragment may need. -/
def outputReserveConst : ℕ := 503

/-- The bits of the command code a stream starts with. -/
def defaultCommandCodeNumBits : ℕ := 448

/-- The window the fast qualities declare at least. -/
def windowBitsFast : ℕ := 18

/-! ### Calls that append -/

namespace BitOp

/-- The position after a run that began at bit `offset` of a byte. -/
def endPosition (ops : List BitOp) (offset : ℕ) : ℕ :=
  (runBits ops (List.replicate offset false)).length

/-- The calls are legal behind the bits `B`, keep them, and leave the byte they end in
clean if `c` says so. -/
structure Extends (ops : List BitOp) (B : List Bool) (c : Bool) : Prop where
  legal : LegalRun ops B true
  clean : c = true → runClean ops B true = true
  kept : B <+: runBits ops B

theorem Extends.append {xs ys : List BitOp} {B : List Bool} {c : Bool} (hx : Extends xs B true)
    (hy : Extends ys (runBits xs B) c) : Extends (xs ++ ys) B c := by
  have hclean := hx.clean rfl
  refine ⟨(legalRun_append xs ys B true).mpr ⟨hx.legal, ?_⟩, fun hc => ?_, ?_⟩
  · rw [hclean]
    exact hy.legal
  · rw [runClean_append, hclean]
    exact hy.clean hc
  · rw [runBits_append]
    exact hx.kept.trans hy.kept

theorem extends_nil (B : List Bool) (c : Bool) : Extends [] B c :=
  ⟨trivial, fun _ => rfl, List.prefix_refl B⟩

end BitOp

/-- The scans of the two qualities. `onePassImpl` and `twoPassImpl` are the calls the
scan of a fragment makes behind `offset` bits, and the statistics it leaves. -/
structure FragmentKernels where
  Arena : Type
  arena : Arena
  cmdCodeNumbits : Arena → ℕ
  TwoPass : Type
  twoPass : TwoPass
  onePassImpl : Bool → Arena → List UInt8 → Bool → ℕ → List BitOp × Arena
  twoPassImpl : Bool → TwoPass → List UInt8 → ℕ → List BitOp × TwoPass
  onePass_extends : ∀ independent arena data isLast offset, data ≠ [] →
    data.length ≤ 2 ^ 24 → offset < 8 →
    ∀ B : List Bool, B.length = offset →
    BitOp.Extends (onePassImpl independent arena data isLast offset).1 B true
  twoPass_extends : ∀ independent state data offset, data ≠ [] → data.length ≤ 2 ^ 24 → offset < 8 →
    ∀ B : List Bool, B.length = offset →
    BitOp.Extends (twoPassImpl independent state data offset).1 B true

/-! ### A fragment -/

/-- The header of a meta-block of `len` bytes that is not the last. -/
def storeMetaBlockHeader (len : ℕ) (isUncompressed : Bool) : List BitOp :=
  let nibbles := if len ≤ 1 <<< 16 then 4 else if len ≤ 1 <<< 20 then 5 else 6
  [.write 1 0, .write 2 (nibbles - 4), .write (nibbles * 4) (len - 1),
    .write 1 isUncompressed.toNat]

/-- `emit_uncompressed_meta_block` of both qualities, at the current position. -/
def emitUncompressedMetaBlock (data : List UInt8) : List BitOp :=
  storeMetaBlockHeader data.length true ++ [.align, .writeBytes data]

/-- The last, empty meta-block. -/
def closingBits : List BitOp := [.write 1 1, .write 1 1, .align]

/-- Whether a fragment needs no scan: it is empty, or too short to win over the command
code it would have to carry. -/
def storesVerbatim (cmdCodeNumbits : ℕ) (independent : Bool) (len : ℕ) (isLast : Bool) : Bool :=
  isLast && (len == 0 || (!independent && len ≤ cmdCodeNumbits / 8))

def storeFinalVerbatim (data : List UInt8) (offset : ℕ) : List BitOp :=
  (if data ≠ [] then .rewind offset :: emitUncompressedMetaBlock data else []) ++ closingBits

/-- The fragment's calls, or a verbatim copy of it if they made it larger, and the
closing bits. -/
def settle (ops : List BitOp) (data : List UInt8) (isLast : Bool) (offset : ℕ) : List BitOp :=
  let ops := if 31 + 8 * data.length < BitOp.endPosition ops offset - offset then
      ops ++ .rewind offset :: emitUncompressedMetaBlock data
    else ops
  if isLast then ops ++ closingBits else ops

variable (k : FragmentKernels)

/-- The state of either quality. Quality zero builds its arena with the first scan. -/
inductive FastCore where
  | onePass (arena : Option k.Arena)
  | twoPass (state : k.TwoPass)

variable {k}

namespace FastCore

/-- The quality it implements. -/
def quality : FastCore k → ℕ
  | .onePass _ => 0
  | .twoPass _ => 1

/-- The statistics of earlier fragments go. -/
def reset : FastCore k → FastCore k
  | .onePass arena => .onePass (arena.map fun _ => k.arena)
  | .twoPass _ => .twoPass k.twoPass

def storesVerbatim (core : FastCore k) (independent : Bool) (len : ℕ) (isLast : Bool) : Bool :=
  match core with
  | .onePass arena =>
    Compressor.storesVerbatim ((arena.map k.cmdCodeNumbits).getD defaultCommandCodeNumBits)
      independent len isLast
  | .twoPass _ => false

end FastCore

/-- `q0::compress_fragment`. -/
def compressOnePass (independent : Bool) (arena : k.Arena) (data : List UInt8) (isLast : Bool)
    (offset : ℕ) :
    List BitOp × k.Arena :=
  if data = [] then (storeFinalVerbatim data offset, arena)
  else if storesVerbatim (k.cmdCodeNumbits arena) independent data.length isLast then
    (storeFinalVerbatim data offset, arena)
  else
    let (ops, arena) := k.onePassImpl independent arena data isLast offset
    (settle ops data isLast offset, arena)

/-- `q1::compress_fragment`. Its scan goes over the blocks of the fragment, and an empty
one has none. -/
def compressTwoPass (independent : Bool) (state : k.TwoPass) (data : List UInt8) (isLast : Bool)
    (offset : ℕ) :
    List BitOp × k.TwoPass :=
  let (ops, state) := if data = [] then ([], state) else k.twoPassImpl independent state data offset
  (settle ops data isLast offset, state)

def encodeFragment (independent : Bool) (core : FastCore k) (input : List UInt8) (isLast : Bool)
    (offset : ℕ) :
    List BitOp × FastCore k :=
  if core.storesVerbatim independent input.length isLast
    then (storeFinalVerbatim input offset, core)
  else match core with
    | .onePass arena =>
      let (ops, arena) := compressOnePass independent (arena.getD k.arena) input isLast offset
      (ops, .onePass (some arena))
    | .twoPass state =>
      let (ops, state) := compressTwoPass independent state input isLast offset
      (ops, .twoPass state)

/-! ### The encoder -/

/-- Bytes the padding needs. -/
def bytePaddingSlack : ℕ := 3

/-- Pads the stream to a byte with an empty metadata block, at the start of `dst`: the
bytes written, what `dst` holds then, and the bits carried on. -/
def injectBytePadding (lastBytes lastBytesBits : ℕ) (dst : List UInt8) : ℕ × List UInt8 × ℕ × ℕ :=
  if lastBytesBits = 0 ∨ dst.length < bytePaddingSlack then (0, dst, lastBytes, lastBytesBits)
  else
    let sealed := lastBytes ||| (6 <<< lastBytesBits)
    ((lastBytesBits + 6 + 7) / 8, splice dst 0 (leBytes bytePaddingSlack sealed), 0, 0)

/-- `grow_zeroed`. -/
def growZeroed (buffer : List UInt8) (len : ℕ) : List UInt8 :=
  buffer ++ List.replicate (len - buffer.length) 0

/-- The hash table is left out: a fragment gets it cleared. -/
structure FastEncoder (k : FragmentKernels) where
  independent : Bool := false
  core : FastCore k
  blockSizeLimit : ℕ
  /-- What a stream begins with. -/
  header : ℕ × ℕ
  lastBytes : ℕ
  lastBytesBits : ℕ
  storage : List UInt8 := []
  finished : Bool := false

namespace FastEncoder

/-- The encoder of quality zero or one, which refuses a large window. -/
def new (k : FragmentKernels) (params : CompressParams) : Except CompressError (FastEncoder k) :=
  let core : Option (FastCore k) :=
    if params.quality = 0 then some (.onePass none) else if params.quality = 1
      then some (.twoPass k.twoPass) else none
  match core with
  | none => .error (.unsupportedQuality params.quality)
  | some core =>
    if params.lgwin.kind = .large then .error (.unsupportedLargeWindow params.quality)
    else
      let window := ResolvedWindow.new params
      let (lastBytes, lastBytesBits) := (window.atLeast windowBitsFast).header
      .ok { core, blockSizeLimit := 1 <<< window.encoderBits, header := (lastBytes, lastBytesBits),
            lastBytes, lastBytesBits }

/-- Whether `params` would build an encoder of this shape. -/
def matchesParams (e : FastEncoder k) (params : CompressParams) : Bool :=
  decide (params.quality = e.core.quality) && decide (params.lgwin.kind ≠ .large) &&
    decide (e.blockSizeLimit = 1 <<< (ResolvedWindow.new params).encoderBits) &&
    decide (e.header = ((ResolvedWindow.new params).atLeast windowBitsFast).header)

/-- Back to what the constructor left, but for the storage. -/
def reset (e : FastEncoder k) : FastEncoder k :=
  { e with core := e.core.reset, lastBytes := e.header.1, lastBytesBits :=
    e.header.2, finished := false }

/-- The scratch a fragment of `inputLen` bytes may need. -/
def fragmentReserve (inputLen : ℕ) : Except CompressError ℕ :=
  if u64Max < inputLen * 2 + outputReserveConst + outputSlack then .error .bufferOverflow
  else .ok (inputLen * 2 + outputReserveConst + outputSlack)

/-- Compresses a fragment into `storage`: the bytes completed, and what the storage
holds then. -/
def runFragment (e : FastEncoder k) (input : List UInt8) (isLast : Bool) (storage : List UInt8) :
    Except CompressError (ℕ × List UInt8 × FastEncoder k) :=
  let storage := splice storage 0 (leBytes 2 e.lastBytes)
  let (ops, core) := encodeFragment e.independent e.core input isLast e.lastBytesBits
  let w := BitOp.run 0 ops { storage, position := e.lastBytesBits }
  if w.overflowed then .error .bufferOverflow
  else
    let complete := w.position / 8
    .ok (complete, w.storage,
      { e with
        core
        lastBytes := (w.byte complete).toNat
        lastBytesBits := w.position % 8
        finished := isLast })

/-- Compresses a fragment into the scratch: the bytes it completed. -/
def encodeBlock (e : FastEncoder k) (input : List UInt8) (isLast : Bool) :
    Except CompressError (List UInt8 × FastEncoder k) := do
  let reserve ← fragmentReserve input.length
  let (complete, storage, e) ← e.runFragment input isLast (growZeroed e.storage reserve)
  .ok (storage.take complete, { e with storage })

def runFlush (e : FastEncoder k) (input : List UInt8) (storage : List UInt8) :
    Except CompressError (ℕ × List UInt8 × FastEncoder k) := do
  let (complete, storage, e) ← if input = [] then .ok (0, storage, e)
    else e.runFragment input false storage
  if storage.length < complete + bytePaddingSlack then .error .bufferOverflow
  else
    let (padded, tail, lastBytes, lastBytesBits) :=
      injectBytePadding e.lastBytes e.lastBytesBits (storage.drop complete)
    .ok (complete + padded, storage.take complete ++ tail, { e with lastBytes, lastBytesBits })

/-- Compresses a fragment that is not the last one, and pads to a byte. -/
def flushBlock (e : FastEncoder k) (input : List UInt8) :
    Except CompressError (List UInt8 × FastEncoder k) := do
  let reserve ← fragmentReserve input.length
  let (complete, storage, e) ← e.runFlush input (growZeroed e.storage reserve)
  .ok (storage.take complete, { e with storage })

/-- Compresses a fragment straight into `dst`: the bytes completed, and what `dst` holds
then. -/
def encodeBlockInto (e : FastEncoder k) (input : List UInt8) (isLast : Bool) (dst : List UInt8) :
    Except CompressError (ℕ × List UInt8 × FastEncoder k) := do
  let reserve ← fragmentReserve input.length
  if dst.length < reserve then .error .outputTooSmall else e.runFragment input isLast dst

/-- Compresses a fragment behind the bytes of a vector, which grows as `grown` says. -/
def encodeBlockAppend (e : FastEncoder k) (input : List UInt8) (isLast : Bool) (grown : ℕ → ℕ)
    (output : List UInt8) :
    Except CompressError (List UInt8 × FastEncoder k) :=
  let start := output.length
  if u64Max < 8 * start + e.lastBytesBits then .error .bufferOverflow
  else
    let (ops, core) := encodeFragment e.independent e.core input isLast e.lastBytesBits
    let w := BitOp.run start ops
      { storage := output ++ leBytes 2 e.lastBytes, grown := some grown,
        position := 8 * start + e.lastBytesBits }
    let complete := w.position / 8
    .ok (w.storage.take complete,
      { e with
        core
        lastBytes := (w.byte complete).toNat
        lastBytesBits := w.position % 8
        finished := isLast })

end FastEncoder

/-! ### What a fragment writes -/

section

variable {B : List Bool} {c : Bool} {data : List UInt8} {offset : ℕ}
open BitOp

theorem storeMetaBlockHeader_extends (isUncompressed : Bool) (hlen : data ≠ [])
    (hfit : data.length ≤ 2 ^ 24) :
    Extends (storeMetaBlockHeader data.length isUncompressed) B true := by
  have hpos : 0 < data.length := List.length_pos_iff.mpr hlen
  set nibbles := if data.length ≤ 1 <<< 16 then 4 else if data.length ≤ 1 <<< 20 then 5
    else 6 with hnib
  have hrange : 4 ≤ nibbles ∧ nibbles ≤ 6 ∧ data.length ≤ 2 ^ (nibbles * 4) := by
    rw [hnib]
    by_cases h16 : data.length ≤ 1 <<< 16
    · rw [if_pos h16]
      exact ⟨le_refl _, by decide, h16⟩
    rw [if_neg h16]
    by_cases h20 : data.length ≤ 1 <<< 20
    · rw [if_pos h20]
      exact ⟨by decide, by decide, h20⟩
    · rw [if_neg h20]
      exact ⟨by decide, le_refl _, hfit⟩
  obtain ⟨hlow, hhigh, hlength⟩ := hrange
  have hflag : isUncompressed.toNat < 2 ^ 1 := by cases isUncompressed <;> decide
  refine ⟨⟨⟨by decide, by decide, rfl⟩, ⟨by decide, ?_, rfl⟩, ⟨?_, ?_, rfl⟩,
    ⟨by decide, hflag, rfl⟩, trivial⟩,
    fun _ => rfl, ?_⟩
  · show nibbles - 4 < 2 ^ 2
    omega
  · show nibbles * 4 ≤ 56
    omega
  · show data.length - 1 < 2 ^ (nibbles * 4)
    omega
  · show B <+: _
    simp only [storeMetaBlockHeader, runBits, bits, List.append_assoc]
    exact List.prefix_append _ _

theorem emitUncompressedMetaBlock_extends (hlen : data ≠ []) (hfit : data.length ≤ 2 ^ 24) :
    Extends (emitUncompressedMetaBlock data) B true := by
  refine (storeMetaBlockHeader_extends true hlen hfit).append
    ⟨⟨rfl, BitWriter.length_padding _, trivial⟩, fun _ => rfl, ?_⟩
  show _ <+: (_ ++ padding _) ++ bytesBits data
  rw [List.append_assoc]
  exact List.prefix_append _ _

theorem closingBits_extends : Extends closingBits B false := by
  refine ⟨⟨⟨by decide, by decide, rfl⟩, ⟨by decide, by decide, rfl⟩, rfl, trivial⟩,
    (fun h => by cases h), ?_⟩
  show B <+: ((B ++ _) ++ _) ++ _
  rw [List.append_assoc, List.append_assoc]
  exact List.prefix_append _ _

/-- Starting over at the bits a run began behind. -/
theorem rewind_extends {ops : List BitOp} {B' : List Bool} (hB : B.length = offset)
    (hkept : B <+: B')
    (h : Extends ops B c) : LegalRun (.rewind offset :: ops) B' true ∧
      (c = true → runClean (.rewind offset :: ops) B' true = true) ∧
      B <+: runBits (.rewind offset :: ops) B' := by
  obtain ⟨rest, rfl⟩ := hkept
  have htake : (BitOp.rewind offset).bits (B ++ rest) = B := hB ▸ List.take_left
  refine ⟨⟨?_, htake.symm ▸ h.legal⟩, fun hc => ?_, ?_⟩
  · show offset ≤ (B ++ rest).length
    rw [List.length_append]
    omega
  · show runClean ops _ true = true
    rw [htake]
    exact h.clean hc
  · show B <+: runBits ops _
    rw [htake]
    exact h.kept

theorem storeFinalVerbatim_extends (hB : B.length = offset) (hfit : data.length ≤ 2 ^ 24) :
    Extends (storeFinalVerbatim data offset) B false := by
  rw [storeFinalVerbatim]
  refine Extends.append ?_ closingBits_extends
  by_cases hempty : data = []
  · rw [if_neg (not_not.mpr hempty)]
    exact extends_nil B true
  · rw [if_pos hempty]
    obtain ⟨h1, h2, h3⟩ :=
      rewind_extends hB (List.prefix_refl B) (emitUncompressedMetaBlock_extends hempty hfit)
    exact ⟨h1, h2, h3⟩

theorem settle_extends {ops : List BitOp} (isLast : Bool) (hB : B.length = offset)
    (hfit : data.length ≤ 2 ^ 24)
    (h : Extends ops B true) (hempty : data = [] → ops = []) :
    Extends (settle ops data isLast offset) B !isLast := by
  have hgrown : Extends (if 31 + 8 * data.length < endPosition ops offset - offset then
      ops ++ .rewind offset :: emitUncompressedMetaBlock data else ops) B true := by
    by_cases hlarge : 31 + 8 * data.length < endPosition ops offset - offset
    · rw [if_pos hlarge]
      have hne : data ≠ [] := by
        intro hnil
        rw [hempty hnil] at hlarge
        simp [endPosition, runBits] at hlarge
      obtain ⟨h1, h2, h3⟩ := rewind_extends hB h.kept (emitUncompressedMetaBlock_extends hne hfit)
      refine ⟨(legalRun_append _ _ _ _).mpr ⟨h.legal, (h.clean rfl).symm ▸ h1⟩, fun _ => ?_, ?_⟩
      · rw [runClean_append, h.clean rfl]
        exact h2 rfl
      · rw [runBits_append]
        exact h3
    · rw [if_neg hlarge]
      exact h
  rw [settle]
  cases isLast with
  | true => exact hgrown.append closingBits_extends
  | false => exact hgrown

theorem compressOnePass_extends (independent isLast : Bool) (arena : k.Arena)
    (hB : B.length = offset) (hoff : offset < 8)
    (hfit : data.length ≤ 2 ^ 24) (hlast : data = [] → isLast = true) :
    Extends (compressOnePass independent arena data isLast offset).1 B !isLast := by
  rw [compressOnePass]
  by_cases hempty : data = []
  · rw [if_pos hempty, hlast hempty]
    exact storeFinalVerbatim_extends hB hfit
  rw [if_neg hempty]
  by_cases hverbatim : storesVerbatim (k.cmdCodeNumbits arena) independent data.length isLast = true
  · rw [if_pos hverbatim]
    rw [storesVerbatim, Bool.and_eq_true] at hverbatim
    rw [hverbatim.1]
    exact storeFinalVerbatim_extends hB hfit
  · rw [if_neg hverbatim]
    exact settle_extends isLast hB hfit
      (k.onePass_extends independent arena data isLast offset hempty hfit hoff B hB)
      fun h => absurd h hempty

theorem compressTwoPass_extends (independent isLast : Bool) (state : k.TwoPass)
    (hB : B.length = offset) (hoff : offset < 8)
    (hfit : data.length ≤ 2 ^ 24) :
    Extends (compressTwoPass independent state data isLast offset).1 B !isLast := by
  rw [compressTwoPass]
  by_cases hempty : data = []
  · rw [if_pos hempty]
    exact settle_extends isLast hB hfit (extends_nil B true) fun _ => rfl
  · rw [if_neg hempty]
    exact settle_extends isLast hB hfit
      (k.twoPass_extends independent state data offset hempty hfit hoff B hB)
      fun h => absurd h hempty

/-- **A fragment extends the bits carried into it.** -/
theorem encodeFragment_extends (independent isLast : Bool) (core : FastCore k)
    (hB : B.length = offset) (hoff : offset < 8)
    (hfit : data.length ≤ 2 ^ 24) (hlast : data = [] → isLast = true) :
    Extends (encodeFragment independent core data isLast offset).1 B !isLast := by
  unfold encodeFragment
  by_cases hverbatim : core.storesVerbatim independent data.length isLast = true
  · rw [if_pos hverbatim]
    have hfinal : isLast = true := by
      cases core with
      | onePass arena =>
        have h : Compressor.storesVerbatim _ independent data.length isLast = true := hverbatim
        rw [Compressor.storesVerbatim, Bool.and_eq_true] at h
        exact h.1
      | twoPass state => cases hverbatim
    rw [hfinal]
    exact storeFinalVerbatim_extends hB hfit
  · rw [if_neg hverbatim]
    cases core with
    | onePass arena => exact compressOnePass_extends independent isLast _ hB hoff hfit hlast
    | twoPass state => exact compressTwoPass_extends independent isLast state hB hoff hfit

end

/-! ### The encoder without its storage -/

/-- The encoder's state between fragments: the bits not yet delivered, and the core. -/
structure FastState (k : FragmentKernels) where
  core : FastCore k
  carry : List Bool

namespace FastState

/-- A fragment's whole bytes; the rest is carried. -/
def fragment (independent : Bool) (s : FastState k) (input : List UInt8) (isLast : Bool) :
    List UInt8 × FastState k :=
  let (ops, core) := encodeFragment independent s.core input isLast s.carry.length
  let B := BitOp.runBits ops s.carry
  (packBytes (B.length / 8) B, ⟨core, B.drop (8 * (B.length / 8))⟩)

/-- The padding of a stream that ends within a byte. -/
def pad (s : FastState k) : List UInt8 × FastState k :=
  if s.carry = [] then ([], s)
  else (packBytes ((s.carry.length + 6 + 7) / 8) (s.carry ++ ofNat 6 6), ⟨s.core, []⟩)

def flush (independent : Bool) (s : FastState k) (input : List UInt8) : List UInt8 × FastState k :=
  let (bytes, s) := if input = [] then ([], s) else s.fragment independent input false
  (bytes ++ s.pad.1, s.pad.2)

end FastState

namespace FastEncoder

/-- The encoder is in the state `s`, whatever its storage holds. -/
structure Represents (e : FastEncoder k) (s : FastState k) : Prop where
  core_eq : e.core = s.core
  carry_eq : s.carry = ofNat e.lastBytesBits e.lastBytes
  narrow : e.lastBytesBits < 8
  clean : e.lastBytes < 2 ^ e.lastBytesBits

variable {e e' : FastEncoder k} {s : FastState k} {input : List UInt8} {isLast : Bool}

theorem Represents.length_carry (h : e.Represents s) : s.carry.length = e.lastBytesBits := by
  rw [h.carry_eq, length_ofNat]

/-- The carried bits stand where the writer resumes, in a clean byte. -/
theorem Represents.resumes (h : e.Represents s) {P : List Bool} {start : ℕ} (w : BitWriter)
    (hP : P.length = 8 * start)
    (hstorage : Spells w.storage 0 P) (hpos : w.position = 8 * start + e.lastBytesBits)
    (hlow : ∀ i < 16, bitAt w.storage (8 * start + i) = e.lastBytes.testBit i) :
    w.Holds (P ++ s.carry) ∧ w.Clean := by
  have hnarrow := h.narrow
  refine ⟨⟨?_, spells_append.mpr ⟨hstorage, fun i hi => ?_⟩⟩, fun i hi hbyte => ?_⟩
  · rw [List.length_append, hP, h.length_carry, hpos]
  · rw [h.length_carry] at hi
    rw [hP, Nat.zero_add, hlow i (by omega), h.carry_eq, getD_ofNat hi]
  · rw [hpos] at hi hbyte
    obtain ⟨j, rfl⟩ := Nat.exists_eq_add_of_le (Nat.le_of_add_right_le hi)
    rw [hlow j (by omega)]
    exact Nat.testBit_lt_two_pow (h.clean.trans_le (Nat.pow_le_pow_right (by decide) (by omega)))

/-- The byte a clean run ends in holds the bits carried on. -/
theorem carried {w : BitWriter} {P B : List Bool} (start : ℕ) (hP : P.length = 8 * start)
    (hw : w.Holds (P ++ B))
    (hc : w.Clean) : B.drop (8 * (B.length / 8)) = ofNat (w.position % 8)
    (w.byte (w.position / 8)).toNat ∧
      (w.byte (w.position / 8)).toNat < 2 ^ (w.position % 8) := by
  have hpos := hw.position_eq
  rw [List.length_append] at hpos
  have hplace : w.position / 8 = start + B.length / 8 := by omega
  have hrest : w.position % 8 = B.length % 8 := by omega
  have hbyte : ∀ i < 8, (w.byte (w.position / 8)).toNat.testBit i =
      bitAt w.storage (8 * (w.position / 8) + i) :=
    fun i hi => BitWriter.getD_testBit _ _ hi
  constructor
  · refine List.ext_getElem ?_ fun i h1 h2 => ?_
    · rw [List.length_drop, length_ofNat]
      omega
    · rw [length_ofNat] at h2
      have hin : 8 * (B.length / 8) + i < B.length := by omega
      have hleft : (B.drop (8 * (B.length / 8)))[i] = B.getD (8 * (B.length / 8) + i) false := by
        rw [List.getElem_drop, List.getD_eq_getElem B false hin]
      have hright : (ofNat (w.position % 8) (w.byte (w.position / 8)).toNat)[i] =
          (w.byte (w.position / 8)).toNat.testBit i := by
        rw [← getD_ofNat h2, List.getD_eq_getElem]
      rw [hleft, hright, hbyte i (by omega), ← (spells_append.mp hw.spells).2 _ hin]
      congr 1
      omega
  · refine Nat.lt_pow_two_of_testBit _ fun i hi => ?_
    by_cases hlt : i < 8
    · rw [hbyte i hlt]
      exact hc _ (by omega) (by omega)
    · exact toNat_testBit_of_le _ (not_lt.mp hlt)

/-- A fragment written into a slice. -/
theorem runFragment_spec {storage storage' : List UInt8} {complete : ℕ} (h : e.Represents s)
    (hfit : input.length ≤ 2 ^ 24)
    (hlast : input = [] → isLast = true) (hlong : 2 ≤ storage.length)
    (hrun : e.runFragment input isLast storage = .ok (complete, storage', e')) :
    storage'.take complete = (s.fragment e.independent input isLast).1 ∧
    complete ≤ storage'.length ∧
      (isLast = false → e'.Represents (s.fragment e.independent input isLast).2) ∧
      e'.independent = e.independent ∧ e'.blockSizeLimit = e.blockSizeLimit := by
  rw [runFragment] at hrun
  simp only [] at hrun
  set seeded := splice storage 0 (leBytes 2 e.lastBytes) with hseeded
  rcases hops : encodeFragment e.independent e.core input isLast e.lastBytesBits with ⟨ops, core⟩
  rw [hops] at hrun
  simp only [] at hrun
  set w := BitOp.run 0 ops { storage := seeded, position := e.lastBytesBits } with hw
  cases hok : w.overflowed with
  | true =>
    rw [hok] at hrun
    cases hrun
  | false =>
    rw [hok] at hrun
    cases hrun
    have hlow : ∀ i < 16, bitAt seeded (8 * 0 + i) = e.lastBytes.testBit i := by
      intro i hi
      rw [hseeded, bitAt_splice (Nat.zero_le _), if_pos (by rw [length_leBytes]; omega),
        Nat.mul_zero, Nat.zero_add,
        Nat.sub_zero, bitAt_leBytes (by omega)]
    obtain ⟨hholds, hclean⟩ :=
      h.resumes { storage := seeded, position := e.lastBytesBits } rfl (spells_nil _ _)
        (Nat.zero_add _).symm hlow
    have hext : BitOp.Extends ops s.carry !isLast := by
      have := encodeFragment_extends e.independent isLast e.core h.length_carry h.narrow hfit hlast
      rwa [hops] at this
    have hlen : 2 ≤ seeded.length := by
      rw [hseeded, length_splice (by rw [length_leBytes]; omega)]
      exact hlong
    have hnarrow := h.narrow
    obtain ⟨hend, hendClean, hends⟩ :=
      BitOp.run_spec (P := []) ops rfl hholds (fun _ => hclean) hext.legal hok
    have hendFits := hends (show e.lastBytesBits ≤ 8 * seeded.length by omega)
    rw [← hw] at hend hendClean hendFits
    rw [List.nil_append] at hend
    have hfragment : s.fragment e.independent input isLast =
      (packBytes ((BitOp.runBits ops s.carry).length / 8)
        (BitOp.runBits ops s.carry), ⟨core,
          (BitOp.runBits ops s.carry).drop (8 * ((BitOp.runBits ops s.carry).length / 8))⟩) := by
      rw [FastState.fragment, ← h.core_eq, h.length_carry, hops]
    have hpos : w.position = (BitOp.runBits ops s.carry).length := hend.position_eq
    have hcomplete : w.position / 8 ≤ w.storage.length := by
      rw [BitWriter.Fits] at hendFits
      omega
    rw [hfragment]
    refine ⟨?_, hcomplete, fun hopen => ?_, rfl, rfl⟩
    · have hspells : Spells w.storage (8 * 0) (BitOp.runBits ops s.carry) := hend.spells
      rw [← hspells.packBytes (by omega) (by omega), List.drop_zero, hpos]
    · have hopenClean := hendClean (hext.clean (by rw [hopen]; rfl))
      obtain ⟨h1, h2⟩ := carried 0 (P := []) rfl hend hopenClean
      exact ⟨rfl, h1, Nat.mod_lt _ (by decide), h2⟩

theorem fragmentReserve_spec {len reserve : ℕ} (h : fragmentReserve len = .ok reserve) :
    2 ≤ reserve := by
  rw [fragmentReserve] at h
  by_cases hover : u64Max < len * 2 + outputReserveConst + outputSlack
  · rw [if_pos hover] at h
    cases h
  · rw [if_neg hover] at h
    cases h
    simp only [outputReserveConst]
    omega

theorem length_growZeroed (buffer : List UInt8) (len : ℕ) :
    len ≤ (growZeroed buffer len).length := by
  rw [growZeroed, List.length_append, List.length_replicate]
  omega

/-- What a fragment delivers and leaves is not the storage's to decide. -/
theorem encodeBlock_spec {bytes : List UInt8} (h : e.Represents s) (hfit : input.length ≤ 2 ^ 24)
    (hlast : input = [] → isLast = true) (hrun : e.encodeBlock input isLast = .ok (bytes, e')) :
    bytes = (s.fragment e.independent input isLast).1 ∧
      (isLast = false → e'.Represents (s.fragment e.independent input isLast).2) ∧
      e'.independent = e.independent ∧ e'.blockSizeLimit = e.blockSizeLimit := by
  rw [encodeBlock] at hrun
  obtain ⟨reserve, hreserve, hrun⟩ := ok_of_bind hrun
  obtain ⟨⟨complete, storage, e₁⟩, hfrag, hrun⟩ := ok_of_bind hrun
  cases hrun
  obtain ⟨h1, -, h2, h3, h4⟩ := runFragment_spec h hfit hlast
    ((fragmentReserve_spec hreserve).trans (length_growZeroed _ _)) hfrag
  exact ⟨h1, fun hopen => ⟨(h2 hopen).core_eq, (h2 hopen).carry_eq, (h2 hopen).narrow,
    (h2 hopen).clean⟩, h3, h4⟩

/-- In place, the bytes are those of the scratch. -/
theorem encodeBlockInto_spec {complete : ℕ} {dst dst' : List UInt8} (h : e.Represents s)
    (hfit : input.length ≤ 2 ^ 24)
    (hlast : input = [] → isLast = true)
    (hrun : e.encodeBlockInto input isLast dst = .ok (complete, dst', e')) :
    dst'.take complete = (s.fragment e.independent input isLast).1 ∧ complete ≤ dst'.length ∧
      (isLast = false → e'.Represents (s.fragment e.independent input isLast).2) ∧
      e'.independent = e.independent ∧ e'.blockSizeLimit = e.blockSizeLimit := by
  rw [encodeBlockInto] at hrun
  obtain ⟨reserve, hreserve, hrun⟩ := ok_of_bind hrun
  by_cases hshort : dst.length < reserve
  · rw [if_pos hshort] at hrun
    cases hrun
  · rw [if_neg hshort] at hrun
    exact runFragment_spec h hfit hlast ((fragmentReserve_spec hreserve).trans (not_lt.mp hshort))
      hrun

/-- A vector's bytes stay in front, and never run short. -/
theorem encodeBlockAppend_spec {grown : ℕ → ℕ} {output output' : List UInt8} (h : e.Represents s)
    (hfit : input.length ≤ 2 ^ 24) (hlast : input = [] → isLast = true)
    (hrun : e.encodeBlockAppend input isLast grown output = .ok (output', e')) :
    output' = output ++ (s.fragment e.independent input isLast).1 ∧
      (isLast = false → e'.Represents (s.fragment e.independent input isLast).2) ∧
      e'.independent = e.independent ∧ e'.blockSizeLimit = e.blockSizeLimit := by
  rw [encodeBlockAppend] at hrun
  simp only [] at hrun
  by_cases hover : u64Max < 8 * output.length + e.lastBytesBits
  · rw [if_pos hover] at hrun
    cases hrun
  rw [if_neg hover] at hrun
  set seeded : BitWriter :=
    { storage := output ++ leBytes 2 e.lastBytes, grown := some grown,
      position := 8 * output.length + e.lastBytesBits }
    with hseeded
  rcases hops : encodeFragment e.independent e.core input isLast e.lastBytesBits with ⟨ops, core⟩
  rw [hops] at hrun
  simp only [] at hrun
  set w := BitOp.run output.length ops seeded with hw
  cases hrun
  have hP : (bytesBits output).length = 8 * output.length := length_bytesBits output
  have hnarrow := h.narrow
  have hfront : Spells seeded.storage 0 (bytesBits output) := by
    intro i hi
    rw [hP] at hi
    rw [Nat.zero_add, hseeded, bitAt_append_left hi, getD_bytesBits hi]
  have hlow : ∀ i < 16, bitAt seeded.storage (8 * output.length + i) = e.lastBytes.testBit i := by
    intro i hi
    rw [hseeded, bitAt_append_right, bitAt_leBytes (by omega)]
  obtain ⟨hholds, hclean⟩ := h.resumes seeded hP hfront rfl hlow
  have hext : BitOp.Extends ops s.carry !isLast := by
    have := encodeFragment_extends e.independent isLast e.core h.length_carry h.narrow hfit hlast
    rwa [hops] at this
  have hfits : seeded.Fits := by
    rw [BitWriter.Fits, hseeded]
    show 8 * output.length + e.lastBytesBits ≤ 8 * (output ++ leBytes 2 e.lastBytes).length
    rw [List.length_append, length_leBytes]
    omega
  have hok : w.overflowed = false := (BitOp.run_grows ops ⟨Option.some_ne_none grown, rfl⟩).2
  obtain ⟨hend, hendClean, hends⟩ := BitOp.run_spec ops hP hholds (fun _ => hclean) hext.legal hok
  have hendFits := hends hfits
  rw [← hw] at hend hendClean hendFits
  set B := BitOp.runBits ops s.carry with hB
  have hfragment : s.fragment e.independent input isLast =
      (packBytes (B.length / 8) B, ⟨core, B.drop (8 * (B.length / 8))⟩) := by
    rw [FastState.fragment, ← h.core_eq, h.length_carry, hops]
  have hpos := hend.position_eq
  rw [List.length_append, hP] at hpos
  have hcomplete : w.position / 8 = output.length + B.length / 8 := by omega
  rw [BitWriter.Fits] at hendFits
  obtain ⟨hkept, hbits⟩ := spells_append.mp hend.spells
  rw [hfragment]
  refine ⟨?_, fun hopen => ?_, rfl, rfl⟩
  · have htake : w.storage.take output.length = output := by
      refine ext_bitAt ?_ fun i hi => ?_
      · rw [List.length_take]
        omega
      · rw [List.length_take] at hi
        have hlt : i < 8 * output.length := by omega
        have hbit := hkept i (by rw [hP]; exact hlt)
        rw [Nat.zero_add] at hbit
        rw [bitAt_take hlt, hbit, getD_bytesBits hlt]
    rw [hP, Nat.zero_add] at hbits
    rw [hcomplete, List.take_add, htake, hbits.packBytes (by omega) (by omega)]
  · have hopenClean := hendClean (hext.clean (by rw [hopen]; rfl))
    obtain ⟨h1, h2⟩ := carried output.length hP hend hopenClean
    exact ⟨rfl, h1, Nat.mod_lt _ (by decide), h2⟩

/-- The padding closes the byte the stream ends in. -/
theorem injectBytePadding_spec (h : e.Represents s) {dst : List UInt8}
    (hlong : bytePaddingSlack ≤ dst.length) :
    let (padded, dst', lastBytes, lastBytesBits) :=
      injectBytePadding e.lastBytes e.lastBytesBits dst
    dst'.take padded = s.pad.1 ∧ padded ≤ dst'.length ∧
      ({ e with lastBytes, lastBytesBits } : FastEncoder k).Represents s.pad.2 := by
  have hlen := h.length_carry
  have hnarrow := h.narrow
  rw [injectBytePadding, FastState.pad]
  by_cases hzero : e.lastBytesBits = 0
  · have hnil : s.carry = [] := List.eq_nil_of_length_eq_zero (hlen.trans hzero)
    rw [if_pos (.inl hzero), if_pos hnil]
    exact ⟨rfl, Nat.zero_le _, h⟩
  have hcons : s.carry ≠ [] := fun hnil => hzero (by rw [← hlen, hnil]; rfl)
  have hdst : ¬ (e.lastBytesBits = 0 ∨ dst.length < bytePaddingSlack) := by
    rw [not_or, not_lt]
    exact ⟨hzero, hlong⟩
  rw [if_neg hdst, if_neg hcons]
  rw [bytePaddingSlack] at hlong
  set sealed := e.lastBytes ||| (6 <<< e.lastBytesBits) with hsealed
  have hlength : (splice dst 0 (leBytes bytePaddingSlack sealed)).length = dst.length :=
    length_splice (by rw [length_leBytes, bytePaddingSlack]; omega)
  refine ⟨?_, by omega, h.core_eq, rfl, Nat.zero_lt_succ _, Nat.one_pos⟩
  rw [hlen]
  refine ext_bitAt ?_ fun i hi => ?_
  · rw [List.length_take, hlength, length_packBytes]
    omega
  · rw [List.length_take, hlength] at hi
    rw [bitAt_take (by omega), bitAt_packBytes _ (by omega), bitAt_splice (Nat.zero_le _),
      length_leBytes,
      bytePaddingSlack, if_pos (by omega), Nat.mul_zero, Nat.sub_zero, bitAt_leBytes (by omega),
      hsealed, Nat.testBit_or,
      Nat.testBit_shiftLeft]
    by_cases hlow : i < e.lastBytesBits
    · rw [List.getD_append _ _ _ _ (by omega), h.carry_eq, getD_ofNat hlow]
      simp [show ¬ e.lastBytesBits ≤ i by omega]
    · have hnone : e.lastBytes.testBit i = false :=
        Nat.testBit_lt_two_pow (h.clean.trans_le
          (Nat.pow_le_pow_right (by decide) (not_lt.mp hlow)))
      have hhigh : (6).testBit (i - e.lastBytesBits) =
          (ofNat 6 6).getD (i - e.lastBytesBits) false := by
        by_cases hsix : i - e.lastBytesBits < 6
        · rw [getD_ofNat hsix]
        · rw [List.getD_eq_default _ _ (by rw [length_ofNat]; omega)]
          exact Nat.testBit_lt_two_pow (lt_of_lt_of_le (by decide : 6 < 2 ^ 6)
            (Nat.pow_le_pow_right (by decide) (by omega)))
      rw [List.getD_append_right _ _ _ _ (by omega), hlen, hnone, hhigh]
      simp [show e.lastBytesBits ≤ i by omega]

theorem runFlush_spec {storage storage' : List UInt8} {complete : ℕ} (h : e.Represents s)
    (hfit : input.length ≤ 2 ^ 24)
    (hlong : 2 ≤ storage.length) (hrun : e.runFlush input storage = .ok (complete, storage', e')) :
    storage'.take complete = (s.flush e.independent input).1 ∧
    e'.Represents (s.flush e.independent input).2 ∧
      e'.independent = e.independent ∧ e'.blockSizeLimit = e.blockSizeLimit := by
  -- The padding of the state a fragment, or none, has left.
  have hpad : ∀ {s₁ : FastState k} {e₁ : FastEncoder k} {storage₁ : List UInt8} {complete₁ : ℕ},
    e₁.Represents s₁ →
      complete₁ ≤ storage₁.length → (if storage₁.length < complete₁ + bytePaddingSlack
        then .error .bufferOverflow
        else
          let (padded, tail, lastBytes, lastBytesBits) :=
            injectBytePadding e₁.lastBytes e₁.lastBytesBits (storage₁.drop complete₁)
          (.ok (complete₁ + padded, storage₁.take complete₁ ++ tail,
            { e₁ with lastBytes, lastBytesBits }) :
            Except CompressError (ℕ × List UInt8 × FastEncoder k))) = .ok (complete, storage', e') →
      storage'.take complete = storage₁.take complete₁ ++ s₁.pad.1 ∧ e'.Represents s₁.pad.2 ∧
        e'.independent = e₁.independent ∧ e'.blockSizeLimit = e₁.blockSizeLimit := by
    intro s₁ e₁ storage₁ complete₁ h₁ hcomplete hrun
    by_cases hshort : storage₁.length < complete₁ + bytePaddingSlack
    · rw [if_pos hshort] at hrun
      cases hrun
    rw [if_neg hshort] at hrun
    have hspec := injectBytePadding_spec h₁
      (show bytePaddingSlack ≤ (storage₁.drop complete₁).length by rw [List.length_drop]; omega)
    rcases hinject : injectBytePadding e₁.lastBytes e₁.lastBytesBits (storage₁.drop complete₁) with
      ⟨padded, tail, lastBytes, lastBytesBits⟩
    rw [hinject] at hrun hspec
    simp only [] at hrun hspec
    cases hrun
    have htake : (storage₁.take complete₁).length = complete₁ := by
      rw [List.length_take, Nat.min_eq_left hcomplete]
    refine ⟨?_, hspec.2.2, rfl, rfl⟩
    rw [List.take_append, htake, Nat.add_sub_cancel_left,
      List.take_of_length_le (by omega), hspec.1]
  rw [runFlush] at hrun
  by_cases hempty : input = []
  · rw [if_pos hempty] at hrun
    obtain ⟨h1, h2⟩ := hpad h (Nat.zero_le _) hrun
    rw [FastState.flush, if_pos hempty]
    exact ⟨h1, h2⟩
  · rw [if_neg hempty] at hrun
    obtain ⟨⟨complete₁, storage₁, e₁⟩, hfrag, hrun⟩ := ok_of_bind hrun
    obtain ⟨h1, h2, h3, h4, h5⟩ :=
      runFragment_spec h hfit (fun hnil => absurd hnil hempty) hlong hfrag
    obtain ⟨h6, h7, h8, h9⟩ := hpad (h3 rfl) h2 hrun
    rw [FastState.flush, if_neg hempty]
    exact ⟨h6.trans (by rw [h1]), h7, h8.trans h4, h9.trans h5⟩

theorem flushBlock_spec {bytes : List UInt8} (h : e.Represents s) (hfit : input.length ≤ 2 ^ 24)
    (hrun : e.flushBlock input = .ok (bytes, e')) :
    bytes = (s.flush e.independent input).1 ∧ e'.Represents (s.flush e.independent input).2 ∧
      e'.independent = e.independent ∧ e'.blockSizeLimit = e.blockSizeLimit := by
  rw [flushBlock] at hrun
  obtain ⟨reserve, hreserve, hrun⟩ := ok_of_bind hrun
  obtain ⟨⟨complete, storage, e₁⟩, hflush, hrun⟩ := ok_of_bind hrun
  cases hrun
  obtain ⟨h1, h2, h3, h4⟩ :=
    runFlush_spec h hfit ((fragmentReserve_spec hreserve).trans (length_growZeroed _ _)) hflush
  exact ⟨h1, ⟨h2.core_eq, h2.carry_eq, h2.narrow, h2.clean⟩, h3, h4⟩

end FastEncoder

end Mbrotli.Compressor
