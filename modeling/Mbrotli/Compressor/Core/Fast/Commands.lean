/-
# The command symbols of the fast encoders

The fast encoders write a match as an insert command that copies two bytes, a distance
and a shortened copy. The one-pass emitters (`OnePass`) write a symbol of a private
alphabet of 128 and its extra bits at once; the two-pass ones (`TwoPass`) store it as a
word that `storeCommands` writes later.

The buckets of the emitters are those of the format: each symbol is the format's length
code at an offset of its own (`insertLen_eq`, `copyLen_eq`, `copyLenLastDistance_eq`).
The literal writers pack several codes into one call and write the same bits as one call
a code (`emitLiterals_writes`, `packLiterals_writes`).
-/
import Mbrotli.Shared.Bits
import Mbrotli.Shared.CommandCodes

namespace Mbrotli.Compressor.FastCommands
open BitString

def shortInsertLimit : ℕ := 6210
def longInsertLimit : ℕ := 22594

/-- A symbol of the fast alphabet with its extra field. From 64 on it is a distance's. -/
@[ext] structure Emitted where
  code : ℕ
  extraBits : ℕ := 0
  extra : ℕ := 0
  deriving DecidableEq, Repr

/-- The prefix code in use: a depth and bits for each symbol. -/
structure PrefixCode where
  depth : ℕ → ℕ
  bits : ℕ → ℕ

/-- The bits of every symbol fit its depth, which is at most `limit`. -/
structure PrefixCode.Within (k : PrefixCode) (limit : ℕ) : Prop where
  depth_le : ∀ c, k.depth c ≤ limit
  bits_lt : ∀ c, k.bits c < 2 ^ k.depth c

/-- The bits of a symbol with its extra field. -/
def Emitted.spelled (e : Emitted) (k : PrefixCode) : List Bool :=
  ofNat (k.depth e.code) (k.bits e.code) ++ ofNat e.extraBits e.extra

/-! ### One pass -/

namespace OnePass

/-- Masks a symbol into the alphabet. -/
def symbol (code : ℕ) : ℕ := code % 128

/-- An insert length below `shortInsertLimit`. -/
def insertLen (insertlen : ℕ) : Emitted :=
  if insertlen < 6 then { code := symbol (insertlen + 40) }
  else if insertlen < 130 then
    let tail := insertlen - 2
    let nbits := tail.log2 - 1
    let prefix_ := tail >>> nbits
    { code := symbol ((nbits <<< 1) + prefix_ + 42), extraBits := nbits,
      extra := tail - (prefix_ <<< nbits) }
  else if insertlen < 2114 then
    let tail := insertlen - 66
    let nbits := tail.log2
    { code := symbol (nbits + 50), extraBits := nbits, extra := tail - (1 <<< nbits) }
  else { code := 61, extraBits := 12, extra := insertlen - 2114 }

/-- An insert length from `shortInsertLimit` on. -/
def longInsertLen (insertlen : ℕ) : Emitted :=
  if insertlen < longInsertLimit then { code := 62, extraBits := 14, extra := insertlen - 6210 }
  else { code := 63, extraBits := 24, extra := insertlen - longInsertLimit }

/-- A copy length that follows an explicit distance. -/
def copyLen (copylen : ℕ) : Emitted :=
  if copylen < 10 then { code := symbol (copylen + 14) }
  else if copylen < 134 then
    let tail := copylen - 6
    let nbits := tail.log2 - 1
    let prefix_ := tail >>> nbits
    { code := symbol ((nbits <<< 1) + prefix_ + 20), extraBits := nbits,
      extra := tail - (prefix_ <<< nbits) }
  else if copylen < 2118 then
    let tail := copylen - 70
    let nbits := tail.log2
    { code := symbol (nbits + 28), extraBits := nbits, extra := tail - (1 <<< nbits) }
  else { code := 39, extraBits := 24, extra := copylen - 2118 }

/-- A copy length that reuses the last distance, and whether the symbol that says so
follows. -/
def copyLenLastDistance (copylen : ℕ) : Emitted × Bool :=
  if copylen < 12 then ({ code := symbol (copylen - 4) }, false)
  else if copylen < 72 then
    let tail := copylen - 8
    let nbits := tail.log2 - 1
    let prefix_ := tail >>> nbits
    ({ code := symbol ((nbits <<< 1) + prefix_ + 4), extraBits := nbits,
        extra := tail - (prefix_ <<< nbits) }, false)
  else if copylen < 136 then
    let tail := copylen - 8
    ({ code := symbol ((tail >>> 5) + 30), extraBits := 5, extra := tail % 32 }, true)
  else if copylen < 2120 then
    let tail := copylen - 72
    let nbits := tail.log2
    ({ code := symbol (nbits + 28), extraBits := nbits, extra := tail - (1 <<< nbits) }, true)
  else ({ code := 39, extraBits := 24, extra := copylen - 2120 }, true)

/-- A backward distance. -/
def distance (distance : ℕ) : Emitted :=
  let d := distance + 3
  let nbits := d.log2 - 1
  let prefix_ := (d >>> nbits) % 2
  let offset := (2 + prefix_) <<< nbits
  { code := symbol (2 * (nbits - 1) + prefix_ + 80), extraBits := nbits, extra := d - offset }

/-- Writes a code and its extra bits in one call. -/
def writeCodeAndExtra (k : PrefixCode) (e : Emitted) : BitOp :=
  let width := k.depth e.code
  .write (width + e.extraBits) (k.bits e.code ||| (e.extra <<< width))

/-- Writes a code, its extra bits and the distance-reuse symbol in one call. -/
def writeCodeExtraAndReuse (k : PrefixCode) (e : Emitted) : BitOp :=
  let width := k.depth e.code
  let withExtra := k.bits e.code ||| (e.extra <<< width)
  let width := width + e.extraBits
  .write (width + k.depth 64) (withExtra ||| (k.bits 64 <<< width))

/-- Counts a symbol in the histogram. -/
def count (histo : ℕ → ℕ) (code : ℕ) : ℕ → ℕ := fun c => if c = code then histo c + 1 else histo c

/-- An emitter's call of the writer, and the histogram after it. A symbol without extra
bits is written with none. -/
def emit (k : PrefixCode) (histo : ℕ → ℕ) (e : Emitted) : BitOp × (ℕ → ℕ) :=
  (writeCodeAndExtra k e, count histo e.code)

def emitInsertLen (insertlen : ℕ) (k : PrefixCode) (histo : ℕ → ℕ) : BitOp × (ℕ → ℕ) :=
  emit k histo (insertLen insertlen)

def emitLongInsertLen (insertlen : ℕ) (k : PrefixCode) (histo : ℕ → ℕ) : BitOp × (ℕ → ℕ) :=
  emit k histo (longInsertLen insertlen)

def emitCopyLen (copylen : ℕ) (k : PrefixCode) (histo : ℕ → ℕ) : BitOp × (ℕ → ℕ) :=
  emit k histo (copyLen copylen)

def emitCopyLenLastDistance (copylen : ℕ) (k : PrefixCode) (histo : ℕ → ℕ) : BitOp × (ℕ → ℕ) :=
  let (e, reuse) := copyLenLastDistance copylen
  if reuse then (writeCodeExtraAndReuse k e, count (count histo e.code) 64) else emit k histo e

def emitDistance (distance : ℕ) (k : PrefixCode) (histo : ℕ → ℕ) : BitOp × (ℕ → ℕ) :=
  emit k histo (OnePass.distance distance)

/-- The insert emitter a run of literals goes to. -/
def insert (insertlen : ℕ) : Emitted :=
  if insertlen < shortInsertLimit then insertLen insertlen else longInsertLen insertlen

/-! ### Literals -/

/-- The shortest run that is written four literals at a time. -/
def quadRunThreshold : ℕ := 8

def writeLiteral (k : PrefixCode) (literal : UInt8) : BitOp :=
  .write (k.depth literal.toNat) (k.bits literal.toNat)

/-- Writes the run four literals at a time, as far as that goes. -/
def writeQuads (k : PrefixCode) : List UInt8 → List BitOp × List UInt8
  | first :: second :: third :: fourth :: rest =>
    let firstWidth := k.depth first.toNat
    let secondWidth := firstWidth + k.depth second.toNat
    let thirdWidth := secondWidth + k.depth third.toNat
    let value := k.bits first.toNat ||| (k.bits second.toNat <<< firstWidth) |||
      (k.bits third.toNat <<< secondWidth) |||
      (k.bits fourth.toNat <<< thirdWidth)
    let (calls, rest) := writeQuads k rest
    (.write (thirdWidth + k.depth fourth.toNat) value :: calls, rest)
  | rest => ([], rest)

/-- Writes the run two literals at a time, and the last by itself. -/
def writePairs (k : PrefixCode) : List UInt8 → List BitOp
  | first :: second :: rest =>
    let firstWidth := k.depth first.toNat
    let value := k.bits first.toNat ||| (k.bits second.toNat <<< firstWidth)
    .write (firstWidth + k.depth second.toNat) value :: writePairs k rest
  | [literal] => [writeLiteral k literal]
  | [] => []

/-- Writes `len` literals from `start` on. -/
def emitLiterals (data : List UInt8) (start len : ℕ) (k : PrefixCode) : List BitOp :=
  if start + len ≤ data.length then
    let literals := (data.drop start).take len
    if quadRunThreshold ≤ literals.length then
      let (calls, rest) := writeQuads k literals
      calls ++ writePairs k rest
    else writePairs k literals
  else []

/-- The loop of `packLiterals`: a code that does not fit the call any more starts the next. -/
def packFrom (k : PrefixCode) : List UInt8 → ℕ → ℕ → List BitOp
  | [], value, width => [.write width value]
  | literal :: literals, value, width =>
    let codeWidth := k.depth literal.toNat
    if maxBitsPerWrite < width + codeWidth then
      .write width value :: packFrom k literals (k.bits literal.toNat) codeWidth
    else packFrom k literals (value ||| (k.bits literal.toNat <<< width)) (width + codeWidth)

def packLiterals (literals : List UInt8) (k : PrefixCode) : List BitOp := packFrom k literals 0 0

end OnePass

/-! ### Two passes -/

/-- The extra-bit counts of the compact alphabet. -/
def numExtraBits : List ℕ :=
  [0, 0, 0, 0, 0, 0, 1, 1, 2, 2, 3, 3, 4, 4, 5, 5, 6, 7, 8, 9, 10, 12, 14, 24, 0, 0, 0, 0, 0, 0, 0,
  0, 1, 1, 2, 2, 3, 3, 4, 4, 0, 0, 0, 0, 0, 0, 0, 0, 1, 1, 2, 2, 3, 3, 4, 4, 5, 5, 6, 7, 8, 9, 10,
  24, 0, 0, 0, 0, 0, 0, 0, 0, 0,
  0, 0, 0, 0, 0, 0, 0, 1, 1, 2, 2, 3, 3, 4, 4, 5, 5, 6, 6, 7, 7, 8, 8, 9, 9, 10, 10, 11, 11, 12, 12,
  13, 13, 14, 14, 15, 15, 16,
  16, 17, 17, 18, 18, 19, 19, 20, 20, 21, 21, 22, 22, 23, 23, 24, 24]

/-- The insert-length bases of the compact alphabet. -/
def insertOffset : List ℕ :=
  [0, 1, 2, 3, 4, 5, 6, 8, 10, 14, 18, 26, 34, 50, 66, 98, 130, 194, 322, 578, 1090, 2114, 6210,
  22594]

namespace TwoPass

/-- A code and its extra bits as a 32-bit word. -/
def word (code extra : ℕ) : ℕ := code % 2 ^ 32 ||| ((extra % 2 ^ 32) <<< 8) % 2 ^ 32

/-- The word of an insert length. -/
def insertLen (insertlen : ℕ) : ℕ :=
  if insertlen < 6 then insertlen % 2 ^ 32
  else if insertlen < 130 then
    let tail := insertlen - 2
    let nbits := tail.log2 - 1
    let prefix_ := tail >>> nbits
    word ((nbits <<< 1) + prefix_ + 2) (tail - (prefix_ <<< nbits))
  else if insertlen < 2114 then
    let tail := insertlen - 66
    let nbits := tail.log2
    word (nbits + 10) (tail - (1 <<< nbits))
  else if insertlen < shortInsertLimit then word 21 (insertlen - 2114)
  else if insertlen < longInsertLimit then word 22 (insertlen - shortInsertLimit)
  else word 23 (insertlen - longInsertLimit)

/-- The word of a copy length. -/
def copyLen (copylen : ℕ) : ℕ :=
  if copylen < 10 then (copylen + 38) % 2 ^ 32
  else if copylen < 134 then
    let tail := copylen - 6
    let nbits := tail.log2 - 1
    let prefix_ := tail >>> nbits
    word ((nbits <<< 1) + prefix_ + 44) (tail - (prefix_ <<< nbits))
  else if copylen < 2118 then
    let tail := copylen - 70
    let nbits := tail.log2
    word (nbits + 52) (tail - (1 <<< nbits))
  else word 63 (copylen - 2118)

/-- The words of a copy length that reuses the last distance. -/
def copyLenLastDistance (copylen : ℕ) : List ℕ :=
  if copylen < 12 then [(copylen + 20) % 2 ^ 32]
  else if copylen < 72 then
    let tail := copylen - 8
    let nbits := tail.log2 - 1
    let prefix_ := tail >>> nbits
    [word ((nbits <<< 1) + prefix_ + 28) (tail - (prefix_ <<< nbits))]
  else if copylen < 136 then
    let tail := copylen - 8
    [word ((tail >>> 5) + 54) (tail % 32), 64]
  else if copylen < 2120 then
    let tail := copylen - 72
    let nbits := tail.log2
    [word (nbits + 52) (tail - (1 <<< nbits)), 64]
  else [word 63 (copylen - 2120), 64]

/-- The word of a backward distance. -/
def distance (distance : ℕ) : ℕ :=
  let d := distance + 3
  let nbits := d.log2 - 1
  let prefix_ := (d >>> nbits) % 2
  let offset := (2 + prefix_) <<< nbits
  word (2 * (nbits - 1) + prefix_ + 80) (d - offset)

def emitInsertLen (insertlen : ℕ) (commands : List ℕ) : List ℕ := commands ++ [insertLen insertlen]
def emitCopyLen (copylen : ℕ) (commands : List ℕ) : List ℕ := commands ++ [copyLen copylen]
def emitCopyLenLastDistance (copylen : ℕ) (commands : List ℕ) : List ℕ :=
  commands ++ copyLenLastDistance copylen
def emitDistance (distance : ℕ) (commands : List ℕ) : List ℕ :=
  commands ++ [TwoPass.distance distance]

/-- The symbol and extra field a word is written as. -/
def ofWord (command : ℕ) : Emitted :=
  { code := command % 128, extraBits := numExtraBits.getD (command % 128) 0,
    extra := command >>> 8 }

/-- Replays the words: each is written, and the literals an insert stands for follow. -/
def storeCommands (k lit : PrefixCode) : List ℕ → List UInt8 → List BitOp
  | [], _ => []
  | command :: commands, literals =>
    let e := ofWord command
    OnePass.writeCodeAndExtra k e ::
      if e.code < 24 then
        let insert := insertOffset.getD e.code 0 + e.extra
        if insert ≤ literals.length then
          OnePass.packLiterals (literals.take insert) lit ++
            storeCommands k lit commands (literals.drop insert)
        else []
      else storeCommands k lit commands literals

end TwoPass

/-! ### The format's buckets -/

/-- The symbol of an insert length's code, from `base` on. -/
def insertSymbol (base n : ℕ) : Emitted :=
  { code := base + insertLengthCode n, extraBits := insExtra.getD (insertLengthCode n) 0
    extra := n - insBase.getD (insertLengthCode n) 0 }

/-- The symbol of a copy length's code, from `base` on. -/
def copySymbol (base n : ℕ) : Emitted :=
  { code := base + copyLengthCode n, extraBits := copyExtra.getD (copyLengthCode n) 0
    extra := n - copyBase.getD (copyLengthCode n) 0 }

variable {base n : ℕ}

theorem insertSymbol_small (h : n < 6) : insertSymbol base n = { code := base + n } := by
  have hcode : insertLengthCode n = n := if_pos h
  have htable : ∀ c < 6, insExtra.getD c 0 = 0 ∧ insBase.getD c 0 = c := by decide
  obtain ⟨hbits, hbase⟩ := htable n h
  rw [insertSymbol, hcode, hbits, hbase, Nat.sub_self]

theorem insertSymbol_middle (h6 : 6 ≤ n) (h : n < 130) :
    insertSymbol base n = { code := base +
      ((((n - 2).log2 - 1) <<< 1) + (n - 2) >>> ((n - 2).log2 - 1) + 2)
                            extraBits := (n - 2).log2 - 1
                            extra :=
                              n - 2 - ((n - 2) >>> ((n - 2).log2 - 1)) <<<
                              ((n - 2).log2 - 1) } := by
  have hall : ∀ n < 130, 6 ≤ n →
      (((n - 2).log2 - 1) <<< 1) + (n - 2) >>> ((n - 2).log2 - 1) + 2 = insertLengthCode n ∧
        (n - 2).log2 - 1 = insExtra.getD (insertLengthCode n) 0 ∧
        n - 2 - ((n - 2) >>> ((n - 2).log2 - 1)) <<< ((n - 2).log2 - 1) =
        n - insBase.getD (insertLengthCode n) 0 := by
    decide
  obtain ⟨hcode, hbits, hextra⟩ := hall n h h6
  rw [hcode, hextra, hbits, insertSymbol]

theorem insertSymbol_log (h130 : 130 ≤ n) (h : n < 2114) :
    insertSymbol base n =
      { code := base + ((n - 66).log2 + 10), extraBits := (n - 66).log2,
        extra := n - 66 - 1 <<< (n - 66).log2 } := by
  have hcode : insertLengthCode n = (n - 66).log2 + 10 := by
    rw [insertLengthCode, if_neg (by omega), if_neg (by omega), if_pos h]
  have hlo : 6 ≤ (n - 66).log2 := (Nat.le_log2 (by omega)).2 (by omega)
  have hhi : (n - 66).log2 < 11 := (Nat.log2_lt (by omega)).2 (by omega)
  have htable : ∀ k < 11, 6 ≤ k → insBase.getD (k + 10) 0 = 66 + 2 ^ k ∧ insExtra.getD (k + 10) 0 =
    k := by decide
  obtain ⟨hbase, hbits⟩ := htable _ hhi hlo
  rw [insertSymbol, hcode, hbits, hbase, Nat.shiftLeft_eq, Nat.one_mul, Nat.sub_sub]

theorem insertSymbol_large (h : 2114 ≤ n) :
    insertSymbol base n =
      if n < 6210 then { code := base + 21, extraBits := 12, extra := n - 2114 }
      else if n < 22594 then { code := base + 22, extraBits := 14, extra := n - 6210 }
      else { code := base + 23, extraBits := 24, extra := n - 22594 } := by
  rw [insertSymbol, insertLengthCode, if_neg (by omega), if_neg (by omega), if_neg (by omega)]
  by_cases h1 : n < 6210
  · rw [if_pos h1, if_pos h1]
    rfl
  by_cases h2 : n < 22594
  · rw [if_neg h1, if_neg h1, if_pos h2, if_pos h2]
    rfl
  · rw [if_neg h1, if_neg h1, if_neg h2, if_neg h2]
    rfl

theorem copySymbol_small (h2 : 2 ≤ n) (h : n < 10) :
    copySymbol base n = { code := base + (n - 2) } := by
  have hcode : copyLengthCode n = n - 2 := if_pos h
  have htable : ∀ m < 10, 2 ≤ m → copyExtra.getD (m - 2) 0 = 0 ∧ copyBase.getD (m - 2) 0 = m := by
    decide
  obtain ⟨hbits, hbase⟩ := htable n h h2
  rw [copySymbol, hcode, hbits, hbase, Nat.sub_self]

theorem copySymbol_middle (h10 : 10 ≤ n) (h : n < 134) :
    copySymbol base n = { code := base +
      ((((n - 6).log2 - 1) <<< 1) + (n - 6) >>> ((n - 6).log2 - 1) + 4)
                          extraBits := (n - 6).log2 - 1
                          extra := n - 6 - ((n - 6) >>> ((n - 6).log2 - 1)) <<<
                              ((n - 6).log2 - 1) } := by
  have hall : ∀ n < 134, 10 ≤ n →
      (((n - 6).log2 - 1) <<< 1) + (n - 6) >>> ((n - 6).log2 - 1) + 4 = copyLengthCode n ∧
        (n - 6).log2 - 1 = copyExtra.getD (copyLengthCode n) 0 ∧
        n - 6 - ((n - 6) >>> ((n - 6).log2 - 1)) <<< ((n - 6).log2 - 1) =
        n - copyBase.getD (copyLengthCode n) 0 := by
    decide +kernel
  obtain ⟨hcode, hbits, hextra⟩ := hall n h h10
  rw [hcode, hextra, hbits, copySymbol]

/-- A length lies in the range of one code only. -/
theorem copyLengthCode_unique {code : ℕ} (h10 : 10 ≤ n) (h : n < 2118) (hcode : code ≤ 22)
    (hlo : copyBase.getD code 0 ≤ n) (hhi : n < copyBase.getD (code + 1) 0) :
    copyLengthCode n = code := by
  have hmono : ∀ c ≤ 23, ∀ d ≤ 23, c ≤ d → copyBase.getD c 0 ≤ copyBase.getD d 0 := by decide
  obtain ⟨hle, hbelow, habove⟩ := copyLengthCodes_spec n (by omega) h
  rw [copyLengthCode, if_neg (by omega), if_pos h]
  rcases Nat.lt_trichotomy (copyLengthCodes n) code with hless | hsame | hmore
  · have := hmono (copyLengthCodes n + 1) (by omega) code (by omega) hless
    omega
  · exact hsame
  · have := hmono (code + 1) (by omega) (copyLengthCodes n) (by omega) hmore
    omega

theorem copySymbol_log (h134 : 134 ≤ n) (h : n < 2118) :
    copySymbol base n =
      { code := base + ((n - 70).log2 + 12), extraBits := (n - 70).log2,
        extra := n - 70 - 1 <<< (n - 70).log2 } := by
  have hlo : 6 ≤ (n - 70).log2 := (Nat.le_log2 (by omega)).2 (by omega)
  have hhi : (n - 70).log2 < 11 := (Nat.log2_lt (by omega)).2 (by omega)
  have htable : ∀ k < 11, 6 ≤ k → copyBase.getD (k + 12) 0 = 70 + 2 ^ k ∧
      copyBase.getD (k + 12 + 1) 0 = 70 + 2 ^ k + 2 ^ k ∧ copyExtra.getD (k + 12) 0 = k := by decide
  obtain ⟨hbase, hnext, hbits⟩ := htable _ hhi hlo
  have hle := Nat.log2_self_le (n := n - 70) (by omega)
  have hlt := Nat.lt_log2_self (n := n - 70)
  rw [pow_succ] at hlt
  have hcode : copyLengthCode n = (n - 70).log2 + 12 :=
    copyLengthCode_unique (by omega) h (by omega) (by omega) (by omega)
  rw [copySymbol, hcode, hbits, hbase, Nat.shiftLeft_eq, Nat.one_mul, Nat.sub_sub]

theorem copySymbol_large (h : 2118 ≤ n) :
    copySymbol base n = { code := base + 23, extraBits := 24, extra := n - 2118 } := by
  rw [copySymbol, copyLengthCode, if_neg (by omega), if_neg (by omega)]
  rfl

/-! ### The emitters choose those buckets -/

namespace OnePass

/-- No emitter's code needs its mask. -/
theorem masked_eq {code target extraBits extra : ℕ} (h : code = target) (hlt : target < 128) :
    ({ code := symbol code, extraBits, extra } : Emitted) =
    { code := target, extraBits, extra } := by
  rw [h, symbol, Nat.mod_eq_of_lt hlt]

/-- The insert emitter's symbols stand forty on from the length codes. -/
theorem insertLen_eq (h : n < shortInsertLimit) : insertLen n = insertSymbol 40 n := by
  have hlimit : shortInsertLimit = 6210 := rfl
  have hle := insertLengthCode_le n
  have hcode : (insertSymbol 40 n).code = 40 + insertLengthCode n := rfl
  rw [insertLen]
  by_cases h6 : n < 6
  · rw [if_pos h6, insertSymbol_small h6]
    exact masked_eq (Nat.add_comm n 40) (by omega)
  rw [if_neg h6]
  by_cases h130 : n < 130
  · rw [insertSymbol_middle (by omega) h130] at hcode ⊢
    simp only [] at hcode
    rw [if_pos h130]
    exact masked_eq (by omega) (by omega)
  rw [if_neg h130]
  by_cases h2114 : n < 2114
  · rw [insertSymbol_log (by omega) h2114] at hcode ⊢
    simp only [] at hcode
    rw [if_pos h2114]
    exact masked_eq (by omega) (by omega)
  · rw [if_neg h2114, insertSymbol_large (by omega), if_pos (by omega)]

theorem longInsertLen_eq (h : shortInsertLimit ≤ n) : longInsertLen n = insertSymbol 40 n := by
  have hlimit : shortInsertLimit = 6210 := rfl
  rw [insertSymbol_large (by omega), if_neg (by omega)]
  rfl

theorem insert_eq (n : ℕ) : insert n = insertSymbol 40 n := by
  rw [insert]
  by_cases h : n < shortInsertLimit
  · rw [if_pos h, insertLen_eq h]
  · rw [if_neg h, longInsertLen_eq (Nat.not_lt.1 h)]

/-- The copy emitter's symbols stand sixteen on from the length codes. -/
theorem copyLen_eq (h2 : 2 ≤ n) : copyLen n = copySymbol 16 n := by
  have hle := copyLengthCode_le n
  have hcode : (copySymbol 16 n).code = 16 + copyLengthCode n := rfl
  rw [copyLen]
  by_cases h10 : n < 10
  · rw [if_pos h10, copySymbol_small h2 h10]
    exact masked_eq (by omega) (by omega)
  rw [if_neg h10]
  by_cases h134 : n < 134
  · rw [copySymbol_middle (by omega) h134] at hcode ⊢
    simp only [] at hcode
    rw [if_pos h134]
    exact masked_eq (by omega) (by omega)
  rw [if_neg h134]
  by_cases h2118 : n < 2118
  · rw [copySymbol_log (by omega) h2118] at hcode ⊢
    simp only [] at hcode
    rw [if_pos h2118]
    exact masked_eq (by omega) (by omega)
  · rw [if_neg h2118, copySymbol_large (by omega)]

/-- A shortened copy takes the symbols that imply the last distance while they reach. -/
theorem copyLenLastDistance_eq (h2 : 2 ≤ n) :
    copyLenLastDistance (n + 2) = if n < 70 then (copySymbol 0 n, false)
    else (copySymbol 16 n, true) := by
  have hle := copyLengthCode_le n
  have hcode : ∀ base, (copySymbol base n).code = base + copyLengthCode n := fun _ => rfl
  have h8 : n + 2 - 8 = n - 6 := by omega
  have h72 : n + 2 - 72 = n - 70 := by omega
  rw [copyLenLastDistance, h8, h72]
  by_cases h10 : n < 10
  · rw [if_pos (by omega), if_pos (by omega), copySymbol_small h2 h10]
    exact congrArg (·, false) (masked_eq (by omega) (by omega))
  rw [if_neg (by omega)]
  by_cases h70 : n < 70
  · have hcode := hcode 0
    rw [copySymbol_middle (by omega) (by omega)] at hcode ⊢
    simp only [] at hcode
    rw [if_pos (by omega), if_pos h70]
    exact congrArg (·, false) (masked_eq (by omega) (by omega))
  rw [if_neg (by omega), if_neg h70]
  by_cases h134 : n < 134
  · have hall : ∀ n < 134, 70 ≤ n → ((n - 6) >>> 5) + 14 = copyLengthCode n ∧
        copyExtra.getD (copyLengthCode n) 0 = 5 ∧
        (n - 6) % 32 = n - copyBase.getD (copyLengthCode n) 0 := by
      decide +kernel
    obtain ⟨hwire, hbits, hextra⟩ := hall n h134 (by omega)
    rw [if_pos (by omega), copySymbol, hbits, ← hextra, ← hwire]
    exact congrArg (·, true) (masked_eq (by omega) (by omega))
  rw [if_neg (by omega)]
  by_cases h2118 : n < 2118
  · have hcode := hcode 16
    rw [copySymbol_log (by omega) h2118] at hcode ⊢
    simp only [] at hcode
    rw [if_pos (by omega)]
    exact congrArg (·, true) (masked_eq (by omega) (by omega))
  · rw [if_neg (by omega), copySymbol_large (by omega), show n + 2 - 2120 = n - 2118 by omega]

end OnePass

/-- The fields of an insert symbol are those of its code. -/
theorem insertSymbol_fields (h : n ≤ maxInsertLen) :
    (insertSymbol base n).extra < 2 ^ (insertSymbol base n).extraBits ∧
    (insertSymbol base n).extra < 2 ^ 24 ∧
      insBase.getD (insertLengthCode n) 0 + (insertSymbol base n).extra = n := by
  obtain ⟨hlo, hhi⟩ := insertLengthCode_spec h
  have hwidth : ∀ c ≤ 23, insExtra.getD c 0 ≤ 24 := by decide
  have hfits : n - insBase.getD (insertLengthCode n) 0 <
    2 ^ insExtra.getD (insertLengthCode n) 0 := by omega
  exact ⟨hfits,
    hfits.trans_le (Nat.pow_le_pow_right (by decide) (hwidth _ (insertLengthCode_le n))),
    Nat.add_sub_cancel' hlo⟩

/-- The fields of a copy symbol are those of its code. -/
theorem copySymbol_fields (h2 : 2 ≤ n) (h : n ≤ maxCopyLenCode) :
    (copySymbol base n).extra < 2 ^ (copySymbol base n).extraBits ∧
    (copySymbol base n).extra < 2 ^ 24 ∧
      copyBase.getD (copyLengthCode n) 0 + (copySymbol base n).extra = n := by
  obtain ⟨hlo, hhi⟩ := copyLengthCode_spec h2 h
  have hwidth : ∀ c ≤ 23, copyExtra.getD c 0 ≤ 24 := by decide
  have hfits : n - copyBase.getD (copyLengthCode n) 0 <
    2 ^ copyExtra.getD (copyLengthCode n) 0 := by omega
  exact ⟨hfits, hfits.trans_le (Nat.pow_le_pow_right (by decide) (hwidth _ (copyLengthCode_le n))),
    Nat.add_sub_cancel' hlo⟩

namespace TwoPass

/-- The word of a symbol with its extra field. -/
def wordOf (e : Emitted) : ℕ := word e.code e.extra

/-- A word gives its code and its extra field back. -/
theorem ofWord_wordOf {e : Emitted} (hcode : e.code < 128) (hextra : e.extra < 2 ^ 24)
    (hbits : numExtraBits.getD e.code 0 = e.extraBits) : ofWord (wordOf e) = e := by
  have hcode32 : e.code % 2 ^ 32 = e.code := Nat.mod_eq_of_lt (by omega)
  have hextra32 : e.extra % 2 ^ 32 = e.extra := Nat.mod_eq_of_lt (by omega)
  have hshift : (e.extra <<< 8) % 2 ^ 32 = e.extra <<< 8 := by
    rw [Nat.shiftLeft_eq]
    exact Nat.mod_eq_of_lt (by omega)
  have hcode8 : e.code < 2 ^ 8 := by omega
  obtain ⟨hlow, hhigh⟩ := packed_word_fields e.extra hcode8
  have hword : wordOf e = e.extra <<< 8 ||| e.code := by
    rw [wordOf, word, hcode32, hextra32, hshift, Nat.lor_comm]
  have hmask : wordOf e % 128 = e.code := by
    rw [hword]
    omega
  rw [ofWord, hmask, hbits, hword, hhigh]

theorem word_eq {code target extraBits extra : ℕ} (h : code = target) :
    word code extra = wordOf { code := target, extraBits, extra } := h ▸ rfl

/-- A code by itself is its word. -/
theorem code_eq {code target : ℕ} (h : code = target) :
    code % 2 ^ 32 = wordOf { code := target } := by
  rw [h, wordOf, word]
  simp

/-- The words of insert lengths are the length codes with their fields. -/
theorem insertLen_eq (n : ℕ) : insertLen n = wordOf (insertSymbol 0 n) := by
  have hshort : shortInsertLimit = 6210 := rfl
  have hlong : longInsertLimit = 22594 := rfl
  rw [insertLen]
  by_cases h6 : n < 6
  · rw [if_pos h6, insertSymbol_small h6]
    exact code_eq (Nat.zero_add n).symm
  rw [if_neg h6]
  by_cases h130 : n < 130
  · rw [if_pos h130, insertSymbol_middle (by omega) h130]
    exact word_eq (Nat.zero_add _).symm
  rw [if_neg h130]
  by_cases h2114 : n < 2114
  · rw [if_pos h2114, insertSymbol_log (by omega) h2114]
    exact word_eq (Nat.zero_add _).symm
  rw [if_neg h2114, insertSymbol_large (by omega), hshort, hlong]
  by_cases h1 : n < 6210
  · rw [if_pos h1, if_pos h1]
    rfl
  by_cases h2 : n < 22594
  · rw [if_neg h1, if_neg h1, if_pos h2, if_pos h2]
    rfl
  · rw [if_neg h1, if_neg h1, if_neg h2, if_neg h2]
    rfl

theorem copyLen_eq (h2 : 2 ≤ n) : copyLen n = wordOf (copySymbol 40 n) := by
  rw [copyLen]
  by_cases h10 : n < 10
  · rw [if_pos h10, copySymbol_small h2 h10]
    exact code_eq (by omega)
  rw [if_neg h10]
  by_cases h134 : n < 134
  · rw [if_pos h134, copySymbol_middle (by omega) h134]
    exact word_eq (by omega)
  rw [if_neg h134]
  by_cases h2118 : n < 2118
  · rw [if_pos h2118, copySymbol_log (by omega) h2118]
    exact word_eq (by omega)
  · rw [if_neg h2118, copySymbol_large (by omega)]
    rfl

theorem copyLenLastDistance_eq (h2 : 2 ≤ n) :
    copyLenLastDistance (n + 2) = if n < 70 then [wordOf (copySymbol 24 n)]
    else [wordOf (copySymbol 40 n), 64] := by
  have h8 : n + 2 - 8 = n - 6 := by omega
  have h72 : n + 2 - 72 = n - 70 := by omega
  rw [copyLenLastDistance, h8, h72]
  by_cases h10 : n < 10
  · rw [if_pos (by omega), if_pos (by omega), copySymbol_small h2 h10]
    exact congrArg ([·]) (code_eq (by omega))
  rw [if_neg (by omega)]
  by_cases h70 : n < 70
  · rw [if_pos (by omega), if_pos h70, copySymbol_middle (by omega) (by omega)]
    exact congrArg ([·]) (word_eq (by omega))
  rw [if_neg (by omega), if_neg h70]
  by_cases h134 : n < 134
  · have hall : ∀ n < 134, 70 ≤ n → word (((n - 6) >>> 5) + 54) ((n - 6) % 32) =
        wordOf (copySymbol 40 n) := by
      decide +kernel
    rw [if_pos (by omega)]
    exact congrArg ([·, 64]) (hall n h134 (by omega))
  rw [if_neg (by omega)]
  by_cases h2118 : n < 2118
  · rw [if_pos (by omega), copySymbol_log (by omega) h2118]
    exact congrArg ([·, 64]) (word_eq (by omega))
  · rw [if_neg (by omega), copySymbol_large (by omega), show n + 2 - 2120 = n - 2118 by omega]
    rfl

/-- The widths of the compact alphabet are the format's. -/
theorem ofWord_insertSymbol (h : n ≤ maxInsertLen) :
    ofWord (wordOf (insertSymbol 0 n)) = insertSymbol 0 n := by
  have hle := insertLengthCode_le n
  have hwidth : ∀ c ≤ 23, numExtraBits.getD (0 + c) 0 = insExtra.getD c 0 := by decide
  exact ofWord_wordOf (show 0 + insertLengthCode n < 128 by omega) (insertSymbol_fields h).2.1
    (hwidth _ hle)

theorem ofWord_copySymbol (h2 : 2 ≤ n) (h : n ≤ maxCopyLenCode) :
    ofWord (wordOf (copySymbol 40 n)) = copySymbol 40 n := by
  have hle := copyLengthCode_le n
  have hwidth : ∀ c ≤ 23, numExtraBits.getD (40 + c) 0 = copyExtra.getD c 0 := by decide
  exact ofWord_wordOf (show 40 + copyLengthCode n < 128 by omega) (copySymbol_fields h2 h).2.1
    (hwidth _ hle)

/-- Below 70 a copy's code is one of the first sixteen. -/
theorem ofWord_lastSymbol (h2 : 2 ≤ n) (h : n < 70) :
    copyLengthCode n < 16 ∧ ofWord (wordOf (copySymbol 24 n)) = copySymbol 24 n := by
  have hall : ∀ n < 70, 2 ≤ n → copyLengthCode n < 16 := by decide
  have hlt := hall n h h2
  have hwidth : ∀ c < 16, numExtraBits.getD (24 + c) 0 = copyExtra.getD c 0 := by decide
  have hmax : n ≤ maxCopyLenCode := h.le.trans (by decide)
  exact ⟨hlt, ofWord_wordOf (show 24 + copyLengthCode n < 128 by omega)
    (copySymbol_fields h2 hmax).2.1 (hwidth _ hlt)⟩

end TwoPass

/-! ### Distances -/

/-- The bucket of a distance and its field. -/
def distanceSymbol (distance : ℕ) : Emitted :=
  let d := distance + 3
  let nbits := d.log2 - 1
  { code := 2 * (nbits - 1) + (d >>> nbits) % 2 + 80, extraBits := nbits,
    extra := d - (2 + (d >>> nbits) % 2) <<< nbits }

variable {d : ℕ}

/-- The two highest bits of a distance are a one and the bucket's half. -/
theorem distanceSymbol_spec (h1 : 1 ≤ d) (h : d ≤ 2 ^ 18 - 16) :
    (1 ≤ (distanceSymbol d).extraBits ∧ (distanceSymbol d).extraBits ≤ 16) ∧
      (2 + ((d + 3) >>> (distanceSymbol d).extraBits) % 2) * 2 ^ (distanceSymbol d).extraBits +
      (distanceSymbol d).extra =
        d + 3 ∧
      (distanceSymbol d).extra < 2 ^ (distanceSymbol d).extraBits := by
  have hfour : 2 ^ (0 + 2) ≤ d + 3 := by omega
  obtain ⟨hb, hlo, hhi⟩ := two_pow_log hfour
  have hlog : (d + 3).log2 < 18 := (Nat.log2_lt (by omega)).2 (by omega)
  set nbits := (d + 3).log2 - 1 with hnbits
  have hpow := Nat.two_pow_pos nbits
  have hq1 : 2 ≤ (d + 3) / 2 ^ nbits := by
    rw [Nat.le_div_iff_mul_le hpow]
    rw [pow_succ] at hlo
    omega
  have hq2 : (d + 3) / 2 ^ nbits < 4 := by
    rw [Nat.div_lt_iff_lt_mul hpow]
    rw [pow_add] at hhi
    omega
  have hhigh : 2 + (d + 3) / 2 ^ nbits % 2 = (d + 3) / 2 ^ nbits := by omega
  have hsplit := Nat.div_add_mod (d + 3) (2 ^ nbits)
  have hmod := Nat.mod_lt (d + 3) hpow
  have hextra : (distanceSymbol d).extra = d + 3 - 2 ^ nbits * ((d + 3) / 2 ^ nbits) := by
    show d + 3 - (2 + (d + 3) >>> nbits % 2) <<< nbits = _
    rw [Nat.shiftRight_eq_div_pow, hhigh, Nat.shiftLeft_eq, Nat.mul_comm]
  refine ⟨⟨hb, show nbits ≤ 16 by omega⟩, ?_, ?_⟩
  · show (2 + (d + 3) >>> nbits % 2) * 2 ^ nbits + (distanceSymbol d).extra = d + 3
    rw [hextra, Nat.shiftRight_eq_div_pow, hhigh, Nat.mul_comm]
    omega
  · show (distanceSymbol d).extra < 2 ^ nbits
    rw [hextra]
    omega

theorem distanceSymbol_code_lt (h1 : 1 ≤ d) (h : d ≤ 2 ^ 18 - 16) :
    80 ≤ (distanceSymbol d).code ∧ (distanceSymbol d).code < 112 := by
  obtain ⟨⟨hlo, hhi⟩, -⟩ := distanceSymbol_spec h1 h
  have hcode : (distanceSymbol d).code =
      2 * ((distanceSymbol d).extraBits - 1) +
      ((d + 3) >>> (distanceSymbol d).extraBits) % 2 + 80 := rfl
  omega

theorem OnePass.distance_eq (h1 : 1 ≤ d) (h : d ≤ 2 ^ 18 - 16) :
    OnePass.distance d = distanceSymbol d :=
  OnePass.masked_eq rfl ((distanceSymbol_code_lt h1 h).2.trans (by decide))

theorem TwoPass.distance_eq (d : ℕ) : TwoPass.distance d = TwoPass.wordOf (distanceSymbol d) := rfl

theorem TwoPass.ofWord_distance (h1 : 1 ≤ d) (h : d ≤ 2 ^ 18 - 16) :
    TwoPass.ofWord (TwoPass.distance d) = distanceSymbol d := by
  obtain ⟨⟨hlo, hhi⟩, -, hextra⟩ := distanceSymbol_spec h1 h
  have hcode := (distanceSymbol_code_lt h1 h).2
  have hwidth : ∀ nbits ≤ 16, 1 ≤ nbits →
    ∀ high < 2, numExtraBits.getD (2 * (nbits - 1) + high + 80) 0 = nbits := by decide
  rw [TwoPass.distance_eq]
  refine TwoPass.ofWord_wordOf (hcode.trans (by decide)) ?_
    (hwidth _ hhi hlo _ (Nat.mod_lt _ (by decide)))
  exact hextra.trans_le (Nat.pow_le_pow_right (by decide) (by omega))

/-- **The decoder resolves the symbol to the distance**, in the layout without postfix
and direct codes. -/
theorem resolve_distanceSymbol (h1 : 1 ≤ d) (h : d ≤ 2 ^ 18 - 16) (cache : Cache) :
    let layout : DistanceLayout := {}
    let e := distanceSymbol d
    layout.extraBits (e.code - 64) = e.extraBits ∧
        layout.resolve (e.code - 64) e.extra cache = .ok d := by
  intro layout e
  obtain ⟨⟨hlo, hhi⟩, hsplit, -⟩ := distanceSymbol_spec h1 h
  obtain ⟨hbits, hlong⟩ := longDistance_long 0 e.extra false hlo
    (Nat.mod_lt ((d + 3) >>> (distanceSymbol d).extraBits) (by decide : 0 < 2))
    (by decide : 0 < 2 ^ 0)
  have hsymbol : numDistanceShortCodes + 0 +
      (2 * (e.extraBits - 1) + (d + 3) >>> e.extraBits % 2) * 2 ^ 0 + 0 = e.code - 64 := by
    have hcode : e.code = 2 * (e.extraBits - 1) + (d + 3) >>> e.extraBits % 2 + 80 := rfl
    have hshort : numDistanceShortCodes = 16 := rfl
    omega
  rw [hsymbol] at hbits hlong
  have hlong' : layout.longDistance (e.code - 64) e.extra = d := by
    have hsum : layout.longDistance (e.code - 64) e.extra + 2 ^ (0 + 2) =
        (d + 3) * 2 ^ 0 + 0 + 0 + 1 := by
      rw [← hsplit]
      exact hlong
    omega
  have h16 : shortCodes ≤ e.code - 64 := Nat.le_sub_of_add_le (distanceSymbol_code_lt h1 h).1
  have hmax : layout.longDistance (e.code - 64) e.extra ≤ u64Max := by
    rw [hlong', u64Max]
    omega
  exact ⟨hbits, (DistanceLayout.resolve_long h16 hmax cache).trans (congrArg Except.ok hlong')⟩

/-! ### What the calls write -/

/-- The calls only append, and what they append. -/
structure Writes (calls : List BitOp) (bits : List Bool) : Prop where
  legal : ∀ B, BitOp.LegalRun calls B true
  bits_eq : ∀ B, BitOp.runBits calls B = B ++ bits
  clean : ∀ B, BitOp.runClean calls B true = true

theorem Writes.nil : Writes [] [] :=
  ⟨fun _ => trivial, fun B => (List.append_nil B).symm, fun _ => rfl⟩

theorem Writes.append {xs ys : List BitOp} {a b : List Bool} (hx : Writes xs a) (hy : Writes ys b) :
    Writes (xs ++ ys) (a ++ b) where
  legal B := (BitOp.legalRun_append xs ys B true).2 ⟨hx.legal B, by rw [hx.clean]; exact hy.legal _⟩
  bits_eq B := by rw [BitOp.runBits_append, hx.bits_eq, hy.bits_eq, List.append_assoc]
  clean B := by rw [BitOp.runClean_append, hx.clean, hy.clean]

theorem Writes.write {n v : ℕ} (hn : n ≤ maxBitsPerWrite) (hv : v < 2 ^ n) :
    Writes [.write n v] (ofNat n v) :=
  ⟨fun _ => ⟨⟨hn, hv, rfl⟩, trivial⟩, fun _ => rfl, fun _ => rfl⟩

/-- A call that spells what is due, then the rest. -/
theorem Writes.cons {n v : ℕ} {calls : List BitOp} {a b : List Bool} (hn : n ≤ maxBitsPerWrite)
    (hv : v < 2 ^ n)
    (ha : ofNat n v = a) (h : Writes calls b) : Writes (.write n v :: calls) (a ++ b) :=
  ha ▸ (Writes.write hn hv).append h

namespace OnePass

variable {k lit : PrefixCode}

theorem writeCodeAndExtra_writes {e : Emitted} (hk : k.Within 15) (hbits : e.extraBits ≤ 24)
    (hextra : e.extra < 2 ^ e.extraBits) : Writes [writeCodeAndExtra k e] (e.spelled k) := by
  have hdepth := hk.depth_le e.code
  have hwide : k.depth e.code + e.extraBits ≤ maxBitsPerWrite := by
    rw [maxBitsPerWrite]
    omega
  have hcall := Writes.write hwide (or_shiftLeft_lt (hk.bits_lt e.code) hextra)
  rwa [ofNat_append _ _ (hk.bits_lt e.code)] at hcall

/-- The reused distance's symbol follows in the same call. -/
theorem writeCodeExtraAndReuse_writes {e : Emitted} (hk : k.Within 15) (hbits : e.extraBits ≤ 24)
    (hextra : e.extra < 2 ^ e.extraBits) :
    Writes [writeCodeExtraAndReuse k e] (e.spelled k ++ Emitted.spelled { code := 64 } k) := by
  have hdepth := hk.depth_le e.code
  have hreuse := hk.depth_le 64
  have hwide : k.depth e.code + e.extraBits + k.depth 64 ≤ maxBitsPerWrite := by
    rw [maxBitsPerWrite]
    omega
  have hfirst := or_shiftLeft_lt (hk.bits_lt e.code) hextra
  have hcall := Writes.write hwide (or_shiftLeft_lt hfirst (hk.bits_lt 64))
  rw [ofNat_append _ _ hfirst, ofNat_append _ _ (hk.bits_lt e.code)] at hcall
  have hsymbol : Emitted.spelled { code := 64 } k = ofNat (k.depth 64) (k.bits 64) :=
    List.append_nil _
  rwa [Emitted.spelled, hsymbol]

/-- One code at a time. -/
def spellLiterals (lit : PrefixCode) (literals : List UInt8) : List Bool :=
  literals.flatMap fun literal => ofNat (lit.depth literal.toNat) (lit.bits literal.toNat)

@[simp] theorem spellLiterals_cons (literal : UInt8) (literals : List UInt8) :
    spellLiterals lit (literal :: literals) =
      ofNat (lit.depth literal.toNat) (lit.bits literal.toNat) ++ spellLiterals lit literals :=
  List.flatMap_cons

theorem spellLiterals_append (xs ys : List UInt8) :
    spellLiterals lit (xs ++ ys) = spellLiterals lit xs ++ spellLiterals lit ys :=
  List.flatMap_append

theorem writeLiteral_writes (hlit : lit.Within 14) (literal : UInt8) :
    Writes [writeLiteral lit literal] (ofNat (lit.depth literal.toNat) (lit.bits literal.toNat)) :=
  Writes.write ((hlit.depth_le _).trans (by decide)) (hlit.bits_lt _)

theorem map_writeLiteral_writes (hlit : lit.Within 14) (literals : List UInt8) :
    Writes (literals.map (writeLiteral lit)) (spellLiterals lit literals) := by
  induction literals with
  | nil => exact Writes.nil
  | cons literal literals ih => exact spellLiterals_cons literal literals ▸
      (writeLiteral_writes hlit literal).append ih

theorem writePairs_writes (hlit : lit.Within 14) (literals : List UInt8) :
    Writes (writePairs lit literals) (spellLiterals lit literals) := by
  induction literals using writePairs.induct lit with
  | case1 first second rest ih =>
    rw [spellLiterals_cons, spellLiterals_cons, ← List.append_assoc]
    have h1 := hlit.depth_le first.toNat
    have h2 := hlit.depth_le second.toNat
    refine Writes.cons ?_ (or_shiftLeft_lt (hlit.bits_lt _) (hlit.bits_lt _))
      (ofNat_append _ _ (hlit.bits_lt _)) ih
    rw [maxBitsPerWrite]
    omega
  | case2 literal => exact spellLiterals_cons literal [] ▸
      (writeLiteral_writes hlit literal).append Writes.nil
  | case3 => exact Writes.nil

/-- Four literals fit one call, and what is left is fewer than four. -/
theorem writeQuads_writes (hlit : lit.Within 14) (literals : List UInt8) :
    ∃ done, literals = done ++ (writeQuads lit literals).2 ∧
    Writes (writeQuads lit literals).1 (spellLiterals lit done) := by
  induction literals using writeQuads.induct lit with
  | case1 first second third fourth rest calls left hleft ih =>
    obtain ⟨done, hdone, hwrites⟩ := ih
    refine ⟨first :: second :: third :: fourth :: done, ?_, ?_⟩
    · rw [writeQuads]
      exact congrArg (first :: second :: third :: fourth :: ·) hdone
    have h1 := hlit.depth_le first.toNat
    have h2 := hlit.depth_le second.toNat
    have h3 := hlit.depth_le third.toNat
    have h4 := hlit.depth_le fourth.toNat
    have hpair := or_shiftLeft_lt (hlit.bits_lt first.toNat) (hlit.bits_lt second.toNat)
    have htriple := or_shiftLeft_lt hpair (hlit.bits_lt third.toNat)
    rw [writeQuads, spellLiterals_cons, spellLiterals_cons, spellLiterals_cons, spellLiterals_cons,
      ← List.append_assoc,
      ← List.append_assoc, ← List.append_assoc]
    refine Writes.cons ?_ (or_shiftLeft_lt htriple (hlit.bits_lt _)) ?_ hwrites
    · rw [maxBitsPerWrite]
      omega
    · rw [ofNat_append _ _ htriple, ofNat_append _ _ hpair, ofNat_append _ _ (hlit.bits_lt _)]
  | case2 rest hshort =>
    refine ⟨[], ?_, ?_⟩
    · rw [writeQuads]
      · rfl
      · exact hshort
    · rw [writeQuads]
      · exact Writes.nil
      · exact hshort

/-- **The packed writer writes the run's codes**, four and two at a time. -/
theorem emitLiterals_writes (hlit : lit.Within 14) {data : List UInt8} {start len : ℕ}
    (hrange : start + len ≤ data.length) :
    Writes (emitLiterals data start len lit) (spellLiterals lit ((data.drop start).take len)) := by
  rw [emitLiterals, if_pos hrange]
  simp only []
  by_cases hlong : quadRunThreshold ≤ ((data.drop start).take len).length
  · obtain ⟨done, hdone, hwrites⟩ := writeQuads_writes hlit ((data.drop start).take len)
    rw [if_pos hlong]
    nth_rewrite 3 [hdone]
    rw [spellLiterals_append]
    exact hwrites.append (writePairs_writes hlit _)
  · rw [if_neg hlong]
    exact writePairs_writes hlit _

/-- The call in the making holds the codes since the last one. -/
theorem packFrom_writes (hlit : lit.Within 14) (literals : List UInt8) {value width : ℕ}
    (hwidth : width ≤ maxBitsPerWrite)
    (hvalue : value < 2 ^ width) :
    Writes (packFrom lit literals value width)
    (ofNat width value ++ spellLiterals lit literals) := by
  induction literals generalizing value width with
  | nil => exact Writes.cons hwidth hvalue rfl Writes.nil
  | cons literal literals ih =>
    have hdepth := hlit.depth_le literal.toNat
    rw [packFrom, spellLiterals_cons]
    by_cases hfull : maxBitsPerWrite < width + lit.depth literal.toNat
    · rw [if_pos hfull]
      exact Writes.cons hwidth hvalue rfl (ih (hdepth.trans (by decide)) (hlit.bits_lt _))
    · rw [if_neg hfull, ← List.append_assoc, ← ofNat_append _ _ hvalue]
      exact ih (Nat.not_lt.1 hfull) (or_shiftLeft_lt hvalue (hlit.bits_lt _))

theorem packLiterals_writes (hlit : lit.Within 14) (literals : List UInt8) :
    Writes (packLiterals literals lit) (spellLiterals lit literals) :=
  packFrom_writes hlit literals (Nat.zero_le _) (by decide)

end OnePass

end Mbrotli.Compressor.FastCommands
