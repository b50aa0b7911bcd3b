/-
# Commands survive their codes

A command is written as a symbol, the extra bits of its two lengths, and, unless the
symbol implies the last distance, a distance symbol with extra bits. The decoder looks
the first symbol up in its command table and resolves the second by its own distance
arithmetic. `Command.codes_roundTrip` says that both sides agree on every command an
alphabet can express.

Key lemmas: `insertLengthCode_spec`, `copyLengthCode_spec` (a length lies in the range of
its code), `commandCodes_combine` (the symbol's two codes), `distance_new`.
-/
import Mbrotli.Decompressor.Core.DistanceArithmetic
import Mbrotli.Decompressor.Core.Stream
import Mbrotli.Shared.Command

namespace Mbrotli.Compressor

/-- The largest insert length the last code reaches. -/
def maxInsertLen : ℕ := 22594 + 2 ^ 24 - 1

/-- The largest copy length the last code reaches. -/
def maxCopyLenCode : ℕ := 2118 + 2 ^ 24 - 1

/-! ### Lengths and their codes -/

/-- `length` lies in the range a code's base and extra bits span. -/
def InRange (base extra length : ℕ) : Prop := base ≤ length ∧ length < base + 2 ^ extra

instance (base extra length : ℕ) : Decidable (InRange base extra length) :=
  inferInstanceAs (Decidable (_ ∧ _))

/-- An insert length lies in the range of its code. -/
theorem insertLengthCode_spec {length : ℕ} (h : length ≤ maxInsertLen) :
    InRange (insBase.getD (insertLengthCode length) 0)
    (insExtra.getD (insertLengthCode length) 0) length := by
  unfold maxInsertLen at h
  by_cases h130 : length < 130
  · have hsmall : ∀ n < 130,
        InRange (insBase.getD (insertLengthCode n) 0) (insExtra.getD (insertLengthCode n) 0) n := by
        decide +kernel
    exact hsmall length h130
  by_cases h2114 : length < 2114
  · -- The code is ten more than the logarithm, whose range is the power of two above it.
    have hcode : insertLengthCode length = (length - 66).log2 + 10 := by
      rw [insertLengthCode, if_neg (by omega), if_neg h130, if_pos h2114]
    have hlo : 6 ≤ (length - 66).log2 := (Nat.le_log2 (by omega)).2 (by omega)
    have hhi : (length - 66).log2 < 11 := (Nat.log2_lt (by omega)).2 (by omega)
    have hbases : ∀ k < 11, 6 ≤ k → insBase.getD (k + 10) 0 = 66 + 2 ^ k ∧
      insExtra.getD (k + 10) 0 = k := by decide
    obtain ⟨hbase, hextra⟩ := hbases _ hhi hlo
    have hle := Nat.log2_self_le (n := length - 66) (by omega)
    have hlt := Nat.lt_log2_self (n := length - 66)
    rw [hcode, hbase, hextra]
    rw [pow_succ] at hlt
    exact ⟨by omega, by omega⟩
  · rw [insertLengthCode, if_neg (by omega), if_neg h130, if_neg h2114]
    split
    · exact ⟨Nat.not_lt.1 h2114, by simp [insBase, insExtra]; omega⟩
    split
    · exact ⟨by simp [insBase]; omega, by simp [insBase, insExtra]; omega⟩
    · exact ⟨by simp [insBase]; omega, by simp [insBase, insExtra]; omega⟩

/-- A copy length lies in the range of its code. -/
theorem copyLengthCode_spec {length : ℕ} (h2 : 2 ≤ length) (h : length ≤ maxCopyLenCode) :
    InRange (copyBase.getD (copyLengthCode length) 0)
    (copyExtra.getD (copyLengthCode length) 0) length := by
  unfold maxCopyLenCode at h
  by_cases h10 : length < 10
  · have hsmall : ∀ n < 10, 2 ≤ n →
        InRange (copyBase.getD (copyLengthCode n) 0) (copyExtra.getD (copyLengthCode n) 0) n := by
        decide
    exact hsmall length h10 h2
  by_cases h2118 : length < 2118
  · have hcode : copyLengthCode length = copyLengthCodes length := by
      rw [copyLengthCode, if_neg h10, if_pos h2118]
    have hspan : ∀ c ≤ 22, copyBase.getD (c + 1) 0 =
      copyBase.getD c 0 + 2 ^ copyExtra.getD c 0 := by decide
    obtain ⟨hle, hlo, hhi⟩ := copyLengthCodes_spec length h2 h2118
    rw [hspan _ hle] at hhi
    rw [hcode]
    exact ⟨hlo, hhi⟩
  · rw [copyLengthCode, if_neg h10, if_neg h2118]
    exact ⟨Nat.not_lt.1 h2118, by simp [copyBase, copyExtra]; omega⟩

/-! ### The command symbol -/

/-- **The decoder finds both codes in the symbol.** -/
theorem commandCodes_combine {inscode copycode : ℕ} (hi : inscode ≤ 23) (hc : copycode ≤ 23)
    (useLastDistance : Bool) :
    commandCodes (combineLengthCodes inscode copycode useLastDistance) = (inscode, copycode) := by
  have hall : ∀ u : Bool, ∀ i ≤ 23, ∀ c ≤ 23, commandCodes (combineLengthCodes i c u) = (i, c) := by
    decide +kernel
  exact hall useLastDistance inscode hi copycode hc

/-- The symbol is one of the command alphabet. -/
theorem combineLengthCodes_lt {inscode copycode : ℕ} (hi : inscode ≤ 23) (hc : copycode ≤ 23)
    (useLastDistance : Bool) :
    combineLengthCodes inscode copycode useLastDistance < 704 := by
  have hall : ∀ u : Bool, ∀ i ≤ 23, ∀ c ≤ 23, combineLengthCodes i c u < 704 := by decide +kernel
  exact hall useLastDistance inscode hi copycode hc

/-- A copy code below three is the length less two; every other code's lengths are
above four. -/
theorem copyBase_context {copycode length : ℕ} (hc : copycode ≤ 23)
    (h : InRange (copyBase.getD copycode 0) (copyExtra.getD copycode 0) length) :
    (if 4 < copyBase.getD copycode 0 then 3 else copyBase.getD copycode 0 - 2) =
    min (length - 2) 3 := by
  have hsmall : ∀ c ≤ 23, copyBase.getD c 0 ≤ 4 → copyExtra.getD c 0 = 0 := by decide
  obtain ⟨hlo, hhi⟩ := h
  by_cases h4 : 4 < copyBase.getD copycode 0
  · rw [if_pos h4]
    omega
  · rw [hsmall copycode hc (by omega), pow_zero] at hhi
    rw [if_neg h4]
    omega

/-- The encoder reads the distance context off the symbol as the decoder's table has it. -/
theorem distanceContext_combine {inscode copycode : ℕ} (hi : inscode ≤ 23) (hc : copycode ≤ 23)
    (useLastDistance : Bool) :
    let symbol := combineLengthCodes inscode copycode useLastDistance
    (if (symbol >>> 6 = 0 ∨ symbol >>> 6 = 2 ∨ symbol >>> 6 = 4 ∨ symbol >>> 6 = 7) ∧
      symbol % 8 ≤ 2 then symbol % 8
      else 3) = if 4 < copyBase.getD copycode 0 then 3 else copyBase.getD copycode 0 - 2 := by
  have hall : ∀ u : Bool, ∀ i ≤ 23, ∀ c ≤ 23,
      (if (combineLengthCodes i c u >>> 6 = 0 ∨ combineLengthCodes i c u >>> 6 = 2 ∨
        combineLengthCodes i c u >>> 6 = 4 ∨
          combineLengthCodes i c u >>> 6 = 7) ∧ combineLengthCodes i c u % 8 ≤
          2 then combineLengthCodes i c u % 8
        else 3) = if 4 < copyBase.getD c 0 then 3 else copyBase.getD c 0 - 2 := by decide +kernel
  exact hall useLastDistance inscode hi copycode hc

/-! ### The extra bits of the lengths -/

/-- Two extra fields are read back in the order they are packed. -/
theorem packed_word_fields {low n : ℕ} (high : ℕ) (h : low < 2 ^ n) :
    (high <<< n ||| low) % 2 ^ n = low ∧ (high <<< n ||| low) >>> n = high := by
  rw [Nat.shiftLeft_eq, mul_comm, ← Nat.two_pow_add_eq_or_of_lt h, Nat.shiftRight_eq_div_pow]
  refine ⟨?_, ?_⟩
  · rw [Nat.mul_add_mod, Nat.mod_eq_of_lt h]
  · rw [Nat.mul_add_div (Nat.two_pow_pos n), Nat.div_eq_of_lt h, Nat.add_zero]

/-- What the decoder makes of a command's symbol and extra bits: it looks the symbol up,
then reads the insert length's field and the copy length's. -/
def decodedLengths (symbol extra : ℕ) : ℕ × ℕ :=
  let command := commands symbol
  (command.insertBase + extra % 2 ^ command.insertExtra,
    command.copyBase + extra >>> command.insertExtra)

namespace Command

/-- A command whose symbol is made of the codes of its lengths gives them back. -/
theorem decodedLengths_extraBits {c : Command} (hi : c.insertLen ≤ maxInsertLen)
    (h2 : 2 ≤ c.copyLenCode)
    (hc : c.copyLenCode ≤ maxCopyLenCode) {useLastDistance : Bool}
    (hsymbol : c.cmdPrefix = lengthCode c.insertLen c.copyLenCode useLastDistance) :
    c.extraBits.1 = (commands c.cmdPrefix).insertExtra + (commands c.cmdPrefix).copyExtra ∧
      c.extraBits.2 < 2 ^ c.extraBits.1 ∧ decodedLengths c.cmdPrefix c.extraBits.2 =
      (c.insertLen, c.copyLenCode) := by
  have hcodes : commandCodes c.cmdPrefix =
      (insertLengthCode c.insertLen, copyLengthCode c.copyLenCode) := by
    rw [hsymbol]
    exact commandCodes_combine (insertLengthCode_le _) (copyLengthCode_le _) useLastDistance
  obtain ⟨hilo, hihi⟩ := insertLengthCode_spec hi
  obtain ⟨hclo, hchi⟩ := copyLengthCode_spec h2 hc
  have hins : c.insertLen - insBase.getD (insertLengthCode c.insertLen) 0 <
      2 ^ insExtra.getD (insertLengthCode c.insertLen) 0 := by omega
  have hcopy : c.copyLenCode - copyBase.getD (copyLengthCode c.copyLenCode) 0 <
      2 ^ copyExtra.getD (copyLengthCode c.copyLenCode) 0 := by omega
  obtain ⟨hlow, hhigh⟩ :=
    packed_word_fields (c.copyLenCode - copyBase.getD (copyLengthCode c.copyLenCode) 0) hins
  refine ⟨?_, ?_, ?_⟩
  · simp only [extraBits, commands, hcodes]
  · apply Nat.or_lt_two_pow
    · show _ < 2 ^ (insExtra.getD (insertLengthCode c.insertLen) 0 +
        copyExtra.getD (copyLengthCode c.copyLenCode) 0)
      rw [Nat.shiftLeft_eq, pow_add, mul_comm]
      exact Nat.mul_lt_mul_of_pos_left hcopy (Nat.two_pow_pos _)
    · exact hins.trans_le (Nat.pow_le_pow_right (by omega) (Nat.le_add_right _ _))
  · simp only [decodedLengths, extraBits, commands, hcodes, hlow, hhigh, Prod.mk.injEq]
    omega

end Command

/-! ### Distances -/

/-- The first value of a group of distance symbols, less its postfix bits. -/
def groupStart (group : ℕ) : ℕ := (2 + group % 2) * 2 ^ (1 + group / 2)

theorem groupStart_eq (group : ℕ) : groupStart group = DistanceLayout.bucketStart group + 4 :=
  (Nat.sub_add_cancel (DistanceLayout.four_le_bucket group)).symm

theorem groupStart_mono : Monotone groupStart := by
  intro group group' h
  rw [groupStart_eq, groupStart_eq]
  exact Nat.add_le_add_right (DistanceLayout.bucketStart_mono h) 4

/-- The alphabet ends with the group below the first distance it leaves out. -/
theorem symbol_lt_limit {code n p : ℕ} (group : ℕ) (hp : p ≤ 3) (hn : n ≤ 120) (h32 : code < 2 ^ 32)
    (h : 2 ^ (p + 2) + code < groupStart group * 2 ^ p + numDistanceShortCodes + n) :
    (prefixEncodeCopyDistance code n p).1 % 2 ^ 10 < numDistanceShortCodes + n + group * 2 ^ p := by
  by_cases hd : code < numDistanceShortCodes + n
  · rw [prefixEncode_direct hd hn]
    exact (Nat.mod_le _ _).trans_lt (by omega)
  obtain ⟨nbits, high, post, extra, h1, -, h3, h4, -, h6, h7⟩ :=
    prefixEncode_long (by omega) hp hn h32
  have hgroup : 2 * (nbits - 1) + high < group := by
    by_contra hge
    have hstart : groupStart (2 * (nbits - 1) + high) = (2 + high) * 2 ^ nbits := by
      unfold groupStart
      rw [show (2 * (nbits - 1) + high) % 2 = high by omega, show 1 + (2 * (nbits - 1) + high) / 2 =
        nbits by omega]
    have hle : groupStart group * 2 ^ p ≤ ((2 + high) * 2 ^ nbits + extra) * 2 ^ p := by
      apply Nat.mul_le_mul_right
      calc groupStart group ≤ groupStart (2 * (nbits - 1) + high) := groupStart_mono (not_lt.1 hge)
        _ = (2 + high) * 2 ^ nbits := hstart
        _ ≤ (2 + high) * 2 ^ nbits + extra := Nat.le_add_right _ _
    omega
  have hmul : (2 * (nbits - 1) + high + 1) * 2 ^ p ≤ group * 2 ^ p := Nat.mul_le_mul_right _ hgroup
  rw [add_mul, one_mul] at hmul
  rw [h6, mul_comm nbits, Nat.mul_add_mod]
  exact (Nat.mod_le _ _).trans_lt (by omega)

/-- The distances an alphabet expresses are those of the groups it keeps. -/
theorem forWindow_limit {large : Bool} {p n : ℕ} (h : (DistanceParams.forWindow large p n).Legal) :
    let dist := DistanceParams.forWindow large p n
    dist.maxDistance + 15 < 2 ^ 32 ∧ ∃ group, dist.alphabetSizeLimit =
      numDistanceShortCodes + n + group * 2 ^ p ∧
      2 ^ (p + 2) + (dist.maxDistance + 15) <
      groupStart group * 2 ^ p + numDistanceShortCodes + n := by
  have hp : p ≤ 3 := by
    have := h.postfixBits
    rwa [DistanceParams.forWindow_postfixBits] at this
  have hn : n ≤ 120 := by
    have := h.numDirect
    rwa [DistanceParams.forWindow_numDirect] at this
  have hall : ∀ large : Bool, ∀ p ≤ 3, ∀ n ≤ 120,
      (DistanceParams.forWindow large p n).maxDistance + 15 < 2 ^ 32 ∧
      (DistanceParams.forWindow large p n).alphabetSizeLimit = numDistanceShortCodes + n +
        ((DistanceParams.forWindow large p n).alphabetSizeLimit - 16 - n) / 2 ^ p * 2 ^ p ∧
      2 ^ (p + 2) + ((DistanceParams.forWindow large p n).maxDistance + 15) <
        groupStart (((DistanceParams.forWindow large p n).alphabetSizeLimit - 16 - n) / 2 ^ p) * 2 ^
        p +
          numDistanceShortCodes + n := by decide +kernel
  obtain ⟨h1, h2, h3⟩ := hall large p hp n hn
  exact ⟨h1, _, h2, h3⟩

/-- The decoder makes the same alphabet of the header's parameters. -/
theorem fromHeader_eq_layout {dist : DistanceParams} (h : dist.Legal) (large : Bool) :
    DistanceLayout.fromHeader (((dist.numDirect >>> dist.postfixBits) <<< 2) ||| dist.postfixBits)
    large =
      dist.layout large := by
  have hp : dist.postfixBits < 2 ^ 2 := Nat.lt_succ_of_le h.postfixBits
  obtain ⟨hlow, hhigh⟩ := packed_word_fields (dist.numDirect >>> dist.postfixBits) hp
  have hn : dist.numDirect >>> dist.postfixBits <<< dist.postfixBits = dist.numDirect := by
    have hmultiple := h.multiple
    rw [Nat.shiftLeft_eq] at hmultiple ⊢
    have hle : dist.numDirect >>> dist.postfixBits * 2 ^ dist.postfixBits ≤ dist.numDirect := by
      rw [Nat.shiftRight_eq_div_pow]
      exact Nat.div_mul_le_self _ _
    have hge :=
      Nat.mul_le_mul_right (2 ^ dist.postfixBits)
        (Nat.mod_le (dist.numDirect >>> dist.postfixBits) 16)
    omega
  have h4 : (dist.numDirect >>> dist.postfixBits <<< 2 ||| dist.postfixBits) % 4 =
    dist.postfixBits := hlow
  simp only [DistanceLayout.fromHeader, DistanceParams.layout, h4, hhigh, hn]

namespace Command

/-- Restoring a spelled-out distance code is the decoder's arithmetic. -/
theorem restoreDistanceCode_eq {c : Command} {dist : DistanceParams} {large : Bool}
    (h16 : numDistanceShortCodes ≤ c.distanceCode)
    (hbits : (dist.layout large).extraBits c.distanceCode = c.distanceExtraBits) :
    c.restoreDistanceCode dist = (dist.layout large).longDistance c.distanceCode
    c.distExtra + 15 := by
  have h15 : numDistanceShortCodes = 15 + 1 := rfl
  by_cases hd : c.distanceCode < numDistanceShortCodes + dist.numDirect
  · have hencoder : c.restoreDistanceCode dist = c.distanceCode := if_pos hd
    have hdecoder : (dist.layout large).longDistance c.distanceCode c.distExtra =
        c.distanceCode - numDistanceShortCodes + 1 := if_pos hd
    rw [hencoder, hdecoder]
    omega
  · have hdecoder : ¬ c.distanceCode < shortCodes + (dist.layout large).direct := hd
    unfold DistanceLayout.longDistance
    rw [if_neg hdecoder, hbits, restoreDistanceCode]
    have hencoder : ¬ c.distPrefix % 2 ^ 10 < numDistanceShortCodes + dist.numDirect := hd
    simp only
    rw [if_neg hencoder]
    have hsub : c.distPrefix % 2 ^ 10 - dist.numDirect - numDistanceShortCodes =
        c.distanceCode - shortCodes - (dist.layout large).direct := Nat.sub_right_comm _ _ _
    rw [hsub, h15]
    rfl

variable {dist : DistanceParams} {insertlen copylen code : ℕ} {delta : ℤ}

variable (insertlen copylen delta) in
/-- The distance symbol and extra bits of a command resolve to the distance its code
stands for, and its code can be restored from them. -/
theorem distance_new (hd : dist.Legal) (h32 : code < 2 ^ 32) (large : Bool) :
    (new dist insertlen copylen delta code).restoreDistanceCode dist = code ∧
      (numDistanceShortCodes ≤ code →
        (dist.layout large).extraBits (new dist insertlen copylen delta code).distanceCode =
            (new dist insertlen copylen delta code).distanceExtraBits ∧
          (new dist insertlen copylen delta code).distExtra <
            2 ^ (new dist insertlen copylen delta code).distanceExtraBits ∧
          ∀ cache, (dist.layout large).resolve (new dist insertlen copylen delta code).distanceCode
            (new dist insertlen copylen delta code).distExtra cache = .ok (code - 15)) := by
  by_cases hc : code < numDistanceShortCodes
  · refine ⟨?_, fun h => absurd hc (Nat.not_lt.2 h)⟩
    have hcode : (new dist insertlen copylen delta code).distPrefix % 2 ^ 10 = code :=
      (distance_new_short dist hc hd.numDirect).1
    unfold restoreDistanceCode
    simp only [hcode]
    rw [if_pos (by omega)]
  · have hc16 : numDistanceShortCodes ≤ code := Nat.not_lt.1 hc
    obtain ⟨h16, hbits, hextra, hlong⟩ :=
      longDistance_prefixEncode large hc16 hd.postfixBits hd.numDirect h32
    have hshort : numDistanceShortCodes ≤ (new dist insertlen copylen delta code).distanceCode :=
      h16
    have hbits' : (dist.layout large).extraBits
      (new dist insertlen copylen delta code).distanceCode =
        (new dist insertlen copylen delta code).distanceExtraBits := hbits
    have hlong' : (dist.layout large).longDistance
      (new dist insertlen copylen delta code).distanceCode
        (new dist insertlen copylen delta code).distExtra = code - 15 := hlong
    refine ⟨?_, fun _ => ⟨hbits', hextra, fun cache => ?_⟩⟩
    · rw [restoreDistanceCode_eq hshort hbits', hlong']
      have : numDistanceShortCodes = 16 := rfl
      omega
    · have hmax : code - 15 ≤ u64Max := (Nat.sub_le _ _).trans (h32.le.trans (by decide))
      have hshort' : shortCodes ≤ (new dist insertlen copylen delta code).distanceCode := hshort
      rw [DistanceLayout.resolve_long hshort' (hlong' ▸ hmax), hlong']

/-- The codes of a command's lengths make its symbol. -/
theorem cmdPrefix_new (hi : insertlen < 2 ^ 32) (hcopy : copylen < 2 ^ 25)
    (hdelta : -64 ≤ delta ∧ delta ≤ 31)
    (h0 : 0 ≤ copylen + delta) :
    (new dist insertlen copylen delta code).cmdPrefix =
      lengthCode (new dist insertlen copylen delta code).insertLen
      (new dist insertlen copylen delta code).copyLenCode
        ((new dist insertlen copylen delta code).distanceCode = 0) := by
  rw [copyLenCode_new dist hcopy hdelta.2 h0 (fun h => absurd hdelta.1 (not_le.2 h)),
    insertLen_new dist hi]
  rfl

/-- **Command and distance codes round-trip.** A command keeps its copy length and coded
length; its symbol and extra bits give the decoder both lengths back, with the last
distance implied only for distance code zero; its distance code can be restored and
resolves to the distance it stands for; and both sides code it in the same context. -/
theorem codes_roundTrip {large : Bool} {p n : ℕ}
    (hlegal : (DistanceParams.forWindow large p n).Legal)
    (hi : insertlen ≤ maxInsertLen) (hcopy : copylen < 2 ^ 25) (hdelta : -64 ≤ delta ∧ delta ≤ 31)
    (hlen : 2 ≤ copylen + delta ∧ copylen + delta ≤ maxCopyLenCode)
    (hcode : code ≤ (DistanceParams.forWindow large p n).maxDistance + 15) :
    let dist := DistanceParams.forWindow large p n
    let c := new dist insertlen copylen delta code
    (c.copyLen = copylen ∧ c.copyLenCode = copylen + delta) ∧
      (c.cmdPrefix < 704 ∧ c.extraBits.1 = (commands c.cmdPrefix).insertExtra +
        (commands c.cmdPrefix).copyExtra ∧
        c.extraBits.2 < 2 ^ c.extraBits.1 ∧ decodedLengths c.cmdPrefix c.extraBits.2 =
        (insertlen, c.copyLenCode)) ∧
      ((commands c.cmdPrefix).implicit → code = 0) ∧
      c.restoreDistanceCode dist = code ∧
      (c.distanceCode < dist.alphabetSizeLimit ∧ (numDistanceShortCodes ≤ code →
        (dist.layout large).extraBits c.distanceCode = c.distanceExtraBits ∧
        c.distExtra < 2 ^ c.distanceExtraBits ∧
          ∀ cache, (dist.layout large).resolve c.distanceCode c.distExtra cache =
          .ok (code - 15))) ∧
      c.distanceContext = min (c.copyLenCode - 2) 3 ∧
      (commands c.cmdPrefix).distanceContext = min (c.copyLenCode - 2) 3 := by
  intro dist c
  have h32 : insertlen < 2 ^ 32 := hi.trans_lt (by decide)
  obtain ⟨hmax, group, hlimit, hgroup⟩ := forWindow_limit hlegal
  have hlen0 : 0 ≤ copylen + delta := by omega
  have hlenCode : c.copyLenCode = (copylen + delta).toNat :=
    copyLenCode_new dist hcopy hdelta.2 hlen0 (fun h => absurd hdelta.1 (not_le.2 h))
  have hinsert : c.insertLen = insertlen := insertLen_new dist h32
  have hsymbol : c.cmdPrefix = lengthCode c.insertLen c.copyLenCode (c.distanceCode = 0) :=
    cmdPrefix_new h32 hcopy hdelta hlen0
  have h2 : 2 ≤ c.copyLenCode := by omega
  have hmaxLen : c.copyLenCode ≤ maxCopyLenCode := by omega
  obtain ⟨hwidth, hextra, hlengths⟩ :=
    decodedLengths_extraBits (hinsert.trans_le hi) h2 hmaxLen hsymbol
  obtain ⟨hrestore, hresolve⟩ :=
    distance_new insertlen copylen delta hlegal (hcode.trans_lt hmax) large
  have hii := insertLengthCode_le c.insertLen
  have hcc := copyLengthCode_le c.copyLenCode
  have hcontext := copyBase_context hcc (copyLengthCode_spec h2 hmaxLen)
  refine ⟨⟨copyLen_new dist hcopy, ?_⟩, ⟨?_, hwidth, hextra, ?_⟩, ?_, hrestore,
    ⟨?_, hresolve⟩, ?_, ?_⟩
  · rw [hlenCode, Int.toNat_of_nonneg hlen0]
  · rw [hsymbol]
    exact combineLengthCodes_lt hii hcc _
  · rw [hlengths, hinsert]
  · intro himplicit
    have hzero : c.distanceCode = 0 := distanceCode_of_implicit dist (of_decide_eq_true himplicit)
    by_contra hne
    by_cases hc : code < numDistanceShortCodes
    · exact hne ((distance_new_short dist hc hlegal.numDirect).1.symm.trans hzero)
    · have h16 : numDistanceShortCodes ≤ c.distanceCode :=
        (distance_new_long dist hlegal (Nat.not_lt.1 hc) (hcode.trans_lt hmax) large).1
      have : c.distanceCode ≠ 0 := Nat.ne_of_gt (Nat.lt_of_lt_of_le (by decide) h16)
      exact this hzero
  · have hp := hlegal.postfixBits
    have hn := hlegal.numDirect
    rw [DistanceParams.forWindow_postfixBits] at hp
    rw [DistanceParams.forWindow_numDirect] at hn
    rw [hlimit]
    have := symbol_lt_limit group hp hn (hcode.trans_lt hmax) (by omega)
    simpa only [c, distanceCode, new, dist, DistanceParams.forWindow_postfixBits,
      DistanceParams.forWindow_numDirect]
  · rw [← hcontext, ← distanceContext_combine hii hcc (c.distanceCode = 0)]
    unfold distanceContext
    rw [hsymbol]
    rfl
  · have hcodes : commandCodes c.cmdPrefix =
        (insertLengthCode c.insertLen, copyLengthCode c.copyLenCode) := by
      rw [hsymbol]
      exact commandCodes_combine hii hcc _
    rw [← hcontext]
    simp only [commands, hcodes]

/-- A shortened dictionary word at a distance of a large window. -/
theorem codes_roundTrip_word :
    let c := new (DistanceParams.forWindow true 1 6) 1000 20 (-3) (2 ^ 30)
    c.copyLenCode = 17 ∧ decodedLengths c.cmdPrefix c.extraBits.2 = (1000, 17) ∧
      c.restoreDistanceCode (DistanceParams.forWindow true 1 6) = 2 ^ 30 := by
  intro c
  obtain ⟨⟨-, hlen⟩, ⟨-, -, -, hlengths⟩, -, hrestore, -⟩ :=
    @codes_roundTrip 1000 20 (2 ^ 30) (-3) true 1 6 ⟨by decide, by decide, by decide⟩ (by decide)
      (by decide) (by decide) (by decide) (by decide +kernel)
  have h17 : c.copyLenCode = 17 := Int.ofNat_inj.1 hlen
  exact ⟨h17, hlengths.trans (congrArg _ h17), hrestore⟩

end Command

end Mbrotli.Compressor
