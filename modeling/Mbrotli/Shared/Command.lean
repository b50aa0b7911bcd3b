/-
# Insert-and-copy commands

A `Command` stores the codes it will be written with: `Command.new` packs the copy
length with the length code's delta, and a distance code with its extra bits. The
accessors read them back (`copyLen_new`, `copyLenCode_new`), and the decoder's
distance arithmetic undoes the split of a distance code (`longDistance_prefixEncode`).
-/
import Mathlib.Data.Nat.Log
import Mbrotli.Shared.Cast
import Mbrotli.Shared.Distance
import Mbrotli.Shared.Format

namespace Mbrotli.Compressor

def insertLengthCode (insertlen : ℕ) : ℕ :=
  if insertlen < 6 then insertlen
  else if insertlen < 130 then
    let nbits := (insertlen - 2).log2 - 1
    (nbits <<< 1) + ((insertlen - 2) >>> nbits) + 2
  else if insertlen < 2114 then (insertlen - 66).log2 + 10
  else if insertlen < 6210 then 21
  else if insertlen < 22594 then 22
  else 23

/-- The table `COPY_LENGTH_CODES`, as the loop that fills it runs: the code goes up
with each base it passes. -/
def copyLengthCodes : ℕ → ℕ
  | 0 => 0
  | length + 1 =>
    let code := copyLengthCodes length
    if 2 ≤ length + 1 ∧ copyBase.getD (code + 1) 0 ≤ length + 1 then code + 1 else code

def copyLengthCode (copylen : ℕ) : ℕ :=
  if copylen < 10 then copylen - 2
  else if copylen < 2118 then copyLengthCodes copylen
  else 23

def combineLengthCodes (inscode copycode : ℕ) (useLastDistance : Bool) : ℕ :=
  let bits64 := copycode % 8 ||| ((inscode % 8) <<< 3)
  if useLastDistance ∧ inscode < 8 ∧ copycode < 16 then
    if copycode < 8 then bits64 else bits64 ||| 64
  else
    let offset := 2 * ((copycode >>> 3) + 3 * (inscode >>> 3))
    let offset := (offset <<< 5) + 0x40 + ((0x520D40 >>> offset) &&& 0xC0)
    offset % 2 ^ 16 ||| bits64

/-- The command symbol of an insert and a copy length. -/
def lengthCode (insertlen copylen : ℕ) (useLastDistance : Bool) : ℕ :=
  combineLengthCodes (insertLengthCode insertlen) (copyLengthCode copylen) useLastDistance

/-- Splits a distance code into a symbol, its extra-bit count in the top six bits,
and its extra bits. -/
def prefixEncodeCopyDistance (distanceCode numDirectCodes postfixBits : ℕ) : ℕ × ℕ :=
  if distanceCode < numDistanceShortCodes + numDirectCodes then (distanceCode % 2 ^ 16, 0)
  else
    let dist := (1 <<< (postfixBits + 2)) + (distanceCode - numDistanceShortCodes - numDirectCodes)
    let bucket := dist.log2 - 1
    let postfix_ := dist % 2 ^ postfixBits
    let high := (dist >>> bucket) % 2
    let offset := (2 + high) <<< bucket
    let nbits := bucket - postfixBits
    let code := (nbits <<< 10) ||| (numDistanceShortCodes + numDirectCodes +
      ((2 * (nbits - 1) + high) <<< postfixBits) + postfix_)
    (code % 2 ^ 16, ((dist - offset) >>> postfixBits) % 2 ^ 32)

/-- The bucket of a value of at least `2 ^ (p + 2)`. -/
theorem two_pow_log {d p : ℕ} (h : 2 ^ (p + 2) ≤ d) :
    p + 1 ≤ d.log2 - 1 ∧ 2 ^ (d.log2 - 1 + 1) ≤ d ∧ d < 2 ^ (d.log2 - 1 + 2) := by
  have hd : d ≠ 0 := by have := Nat.two_pow_pos (p + 2); omega
  have h1 : p + 2 ≤ d.log2 := (Nat.le_log2 hd).2 h
  have h2 := Nat.log2_self_le hd
  have h3 := Nat.lt_log2_self (n := d)
  have e1 : d.log2 - 1 + 1 = d.log2 := by omega
  have e2 : d.log2 - 1 + 2 = d.log2 + 1 := by omega
  rw [e1, e2]
  exact ⟨by omega, h2, h3⟩

/-- The parts of a spelled-out distance code: its bucket, the bit below the bucket's
first, the postfix and the rest. -/
theorem prefixEncode_long {code n p : ℕ} (h : numDistanceShortCodes + n ≤ code) (hp : p ≤ 3)
    (hn : n ≤ 120)
    (hc : code < 2 ^ 32) :
    ∃ nbits high postfix_ extra, 1 ≤ nbits ∧ nbits ≤ 32 ∧ high < 2 ∧ postfix_ < 2 ^ p ∧
    extra < 2 ^ nbits ∧
      prefixEncodeCopyDistance code n p =
        (nbits * 2 ^ 10 + (numDistanceShortCodes + n + (2 * (nbits - 1) + high) * 2 ^ p + postfix_),
          extra) ∧
      (((2 + high) * 2 ^ nbits + extra) * 2 ^ p + postfix_ =
        2 ^ (p + 2) + (code - numDistanceShortCodes - n)) := by
  set d := 2 ^ (p + 2) + (code - numDistanceShortCodes - n) with hd
  obtain ⟨hb1, hb2, hb3⟩ := two_pow_log (d := d) (p := p) (by omega)
  set b := d.log2 - 1 with hb
  have hpp : 0 < 2 ^ p := Nat.two_pow_pos p
  have hbp : 0 < 2 ^ b := Nat.two_pow_pos b
  -- The two highest bits of the value: a one, then `high`.
  have hq1 : 2 ≤ d / 2 ^ b := by
    rw [Nat.le_div_iff_mul_le hbp]; rw [pow_succ] at hb2; omega
  have hq2 : d / 2 ^ b < 4 := by
    rw [Nat.div_lt_iff_lt_mul hbp]; rw [pow_add] at hb3; omega
  have hhigh : 2 + d / 2 ^ b % 2 = d / 2 ^ b := by omega
  have hsplit : (2 + d / 2 ^ b % 2) * 2 ^ b + d % 2 ^ b = d := by
    rw [hhigh, mul_comm]; exact Nat.div_add_mod d (2 ^ b)
  have hbn : 2 ^ b = 2 ^ (b - p) * 2 ^ p := by rw [← pow_add]; congr 1; omega
  have hpost : d % 2 ^ b % 2 ^ p = d % 2 ^ p := by
    rw [hbn]; exact Nat.mod_mul_left_mod d (2 ^ (b - p)) (2 ^ p)
  have hlow : d % 2 ^ b / 2 ^ p * 2 ^ p + d % 2 ^ p = d % 2 ^ b := by
    rw [← hpost, mul_comm]; exact Nat.div_add_mod _ _
  have hextra : d % 2 ^ b / 2 ^ p < 2 ^ (b - p) := by
    rw [Nat.div_lt_iff_lt_mul hpp, ← hbn]; exact Nat.mod_lt _ hbp
  have hdlt : d < 2 ^ 33 := by
    have : 2 ^ (p + 2) ≤ 2 ^ 5 := Nat.pow_le_pow_right (by omega) (by omega)
    omega
  have hb33 : b + 1 < 33 :=
    (Nat.pow_lt_pow_iff_right (by omega : 1 < 2)).1 (lt_of_le_of_lt hb2 hdlt)
  refine ⟨b - p, d / 2 ^ b % 2, d % 2 ^ p, d % 2 ^ b / 2 ^ p, by omega, by omega,
    Nat.mod_lt _ (by omega),
    Nat.mod_lt _ hpp, hextra, ?_, ?_⟩
  · rw [prefixEncodeCopyDistance, if_neg (by omega)]
    simp only [Nat.shiftLeft_eq, Nat.shiftRight_eq_div_pow, one_mul, ← hd, ← hb]
    have hsym : numDistanceShortCodes + n + (2 * (b - p - 1) + d / 2 ^ b % 2) * 2 ^ p + d % 2 ^
        p < 2 ^ 10 := by
      have h8 : 2 ^ p ≤ 2 ^ 3 := Nat.pow_le_pow_right (by omega) hp
      have hm : (2 * (b - p - 1) + d / 2 ^ b % 2) * 2 ^ p ≤ 63 * 8 := Nat.mul_le_mul (by omega) h8
      have := Nat.mod_lt d hpp
      simp only [numDistanceShortCodes]
      omega
    have hext : d - (2 + d / 2 ^ b % 2) * 2 ^ b = d % 2 ^ b := by omega
    have h32 : d % 2 ^ b / 2 ^ p < 2 ^ 32 :=
      hextra.trans_le (Nat.pow_le_pow_right (by omega) (by omega))
    rw [hext, Nat.mod_eq_of_lt h32, mul_comm (b - p), ← Nat.two_pow_add_eq_or_of_lt hsym,
      Nat.mod_eq_of_lt (by omega)]
  · rw [add_mul, mul_assoc, ← hbn, add_assoc, hlow, hsplit]

/-- Short and direct codes are their own symbols. -/
theorem prefixEncode_direct {code n p : ℕ} (h : code < numDistanceShortCodes + n) (hn : n ≤ 120) :
    prefixEncodeCopyDistance code n p = (code, 0) := by
  have : code < 2 ^ 16 := by simp only [numDistanceShortCodes] at h; omega
  rw [prefixEncodeCopyDistance, if_pos h, Nat.mod_eq_of_lt this]

/-- What the decoder makes of the parts of a spelled-out code. -/
theorem longDistance_long {p nbits high postfix_ : ℕ} (n extra : ℕ) (large : Bool) (hb : 1 ≤ nbits)
    (hh : high < 2)
    (hp : postfix_ < 2 ^ p) :
    let layout : DistanceLayout := { postfix_ := p, direct := n, large }
    let symbol := numDistanceShortCodes + n + (2 * (nbits - 1) + high) * 2 ^ p + postfix_
    layout.extraBits symbol = nbits ∧
      layout.longDistance symbol extra + 2 ^ (p + 2) = ((2 + high) * 2 ^ nbits + extra) * 2 ^ p +
      postfix_ + n + 1 := by
  intro layout symbol
  have hpp : 0 < 2 ^ p := Nat.two_pow_pos p
  have hge : ¬ symbol < shortCodes + n := by
    simp only [symbol, shortCodes, numDistanceShortCodes]; omega
  have hcode : symbol - shortCodes - n = postfix_ + 2 ^ p * (2 * (nbits - 1) + high) := by
    simp only [symbol, shortCodes, numDistanceShortCodes, mul_comm]; omega
  have hquot : (symbol - shortCodes - n) / 2 ^ p = 2 * (nbits - 1) + high := by
    rw [hcode, Nat.add_mul_div_left _ _ hpp, Nat.div_eq_of_lt hp, Nat.zero_add]
  have hrem : (symbol - shortCodes - n) % 2 ^ p = postfix_ := by
    rw [hcode, Nat.add_mul_mod_self_left, Nat.mod_eq_of_lt hp]
  have hbits : layout.extraBits symbol = nbits := by
    rw [DistanceLayout.extraBits, if_neg hge, Nat.shiftRight_eq_div_pow]
    show 1 + (symbol - shortCodes - n) / 2 ^ (p + 1) = nbits
    rw [pow_succ, ← Nat.div_div_eq_div_mul, hquot]
    omega
  refine ⟨hbits, ?_⟩
  rw [DistanceLayout.longDistance, if_neg hge]
  simp only [Nat.shiftRight_eq_div_pow, Nat.shiftLeft_eq]
  rw [hbits]
  show ((2 + (symbol - shortCodes - n) / 2 ^ p % 2) * 2 ^ nbits - 4 + extra) * 2 ^ p +
    (symbol - shortCodes - n) % 2 ^ p
    + n + 1 + 2 ^ (p + 2) = _
  rw [hquot, hrem]
  have hmod : (2 * (nbits - 1) + high) % 2 = high := by omega
  have h4 : 4 ≤ (2 + high) * 2 ^ nbits := by
    have : 2 ^ 1 ≤ 2 ^ nbits := Nat.pow_le_pow_right (by omega) hb
    calc 4 = 2 * 2 ^ 1 := rfl
      _ ≤ (2 + high) * 2 ^ nbits := Nat.mul_le_mul (by omega) this
  rw [hmod]
  have key : (2 + high) * 2 ^ nbits + extra = ((2 + high) * 2 ^ nbits - 4 + extra) + 4 := by omega
  rw [key, add_mul ((2 + high) * 2 ^ nbits - 4 + extra) 4, pow_add]
  omega

/-- **A distance code survives its split.** The decoder reads the symbol's extra bits,
as many as the writer gave, and gets the distance the code stands for. -/
theorem longDistance_prefixEncode {code n p : ℕ} (large : Bool)
    (h : numDistanceShortCodes ≤ code) (hp : p ≤ 3)
    (hn : n ≤ 120) (hc : code < 2 ^ 32) :
    let layout : DistanceLayout := { postfix_ := p, direct := n, large }
    let r := prefixEncodeCopyDistance code n p
    numDistanceShortCodes ≤ r.1 % 2 ^ 10 ∧ layout.extraBits (r.1 % 2 ^ 10) = r.1 >>> 10 ∧
      r.2 < 2 ^ (r.1 >>> 10) ∧
      layout.longDistance (r.1 % 2 ^ 10) r.2 = code - 15 := by
  intro layout r
  by_cases hd : code < numDistanceShortCodes + n
  · have hr : r = (code, 0) := prefixEncode_direct hd hn
    have hlt : code < 2 ^ 10 := by simp only [numDistanceShortCodes] at hd; omega
    have hs : code < shortCodes + n := hd
    rw [hr]
    simp only [Nat.mod_eq_of_lt hlt, Nat.shiftRight_eq_div_pow, Nat.div_eq_of_lt hlt]
    refine ⟨h, ?_, by omega, ?_⟩
    · rw [DistanceLayout.extraBits, if_pos hs]
    · rw [DistanceLayout.longDistance, if_pos hs]
      simp only [numDistanceShortCodes] at h
      simp only [shortCodes]
      omega
  · obtain ⟨nbits, high, post, extra, h1, h2, h3, h4, h5, h6, h7⟩ :=
      prefixEncode_long (by omega : _ ≤ code) hp hn hc
    obtain ⟨hbits, hlong⟩ := longDistance_long n extra large h1 h3 h4
    have hsym : numDistanceShortCodes + n + (2 * (nbits - 1) + high) * 2 ^ p + post < 2 ^ 10 := by
      have h8 : 2 ^ p ≤ 2 ^ 3 := Nat.pow_le_pow_right (by omega) hp
      have hm : (2 * (nbits - 1) + high) * 2 ^ p ≤ 63 * 8 := Nat.mul_le_mul (by omega) h8
      simp only [numDistanceShortCodes]
      omega
    have hr : r = _ := h6
    rw [hr]
    have e1 :
      (nbits * 2 ^ 10 + (numDistanceShortCodes + n + (2 * (nbits - 1) + high) * 2 ^ p + post)) % 2 ^
      10 =
        numDistanceShortCodes + n + (2 * (nbits - 1) + high) * 2 ^ p + post := by
      rw [mul_comm, Nat.mul_add_mod, Nat.mod_eq_of_lt hsym]
    have e2 :
        (nbits * 2 ^ 10 + (numDistanceShortCodes + n + (2 * (nbits - 1) + high) * 2 ^ p + post)) >>>
        10 = nbits := by
      rw [Nat.shiftRight_eq_div_pow, mul_comm, Nat.mul_add_div (by omega),
        Nat.div_eq_of_lt hsym, Nat.add_zero]
    simp only [e1, e2]
    refine ⟨by omega, hbits, h5, ?_⟩
    rw [h7] at hlong
    have hge : numDistanceShortCodes + n ≤ code := by omega
    have h16 : numDistanceShortCodes = 16 := rfl
    have hsub : 2 ^ (p + 2) + (code - numDistanceShortCodes - n) + n + 1 =
      code - 15 + 2 ^ (p + 2) := by omega
    exact Nat.add_right_cancel (hlong.trans hsub)

/-- One insert-and-copy command with its codes resolved: the copy length in the low
twenty-five bits of `copyLenBits` with the length code's delta above, the distance
symbol in the low ten bits of `distPrefix` with its extra-bit count above. -/
structure Command where
  insertLen : ℕ
  copyLenBits : ℕ
  distExtra : ℕ
  cmdPrefix : ℕ
  distPrefix : ℕ
  deriving DecidableEq, Repr

namespace Command

def new (dist : DistanceParams) (insertlen copylen : ℕ) (copylenCodeDelta : ℤ) (distanceCode : ℕ) :
    Command :=
  let delta := ((asI8 copylenCodeDelta) % 2 ^ 8).toNat
  -- Deltas below -64 are given as the coded length itself.
  let delta := if copylenCodeDelta < -64 then 32 + (copylen + copylenCodeDelta).toNat else delta
  let (distPrefix, distExtra) :=
    prefixEncodeCopyDistance distanceCode dist.numDirect dist.postfixBits
  { insertLen := insertlen % 2 ^ 32
    copyLenBits := copylen % 2 ^ 32 ||| (delta <<< 25) % 2 ^ 32
    distExtra
    cmdPrefix := lengthCode insertlen (copylen + copylenCodeDelta).toNat (distPrefix % 2 ^ 10 = 0)
    distPrefix }

/-- The trailing command of a meta-block, which only inserts. -/
def insertOnly (insertlen : ℕ) : Command :=
  { insertLen := insertlen % 2 ^ 32
    copyLenBits := 4 <<< 25
    distExtra := 0
    cmdPrefix := lengthCode insertlen 4 false
    distPrefix := numDistanceShortCodes }

/-- The bytes the command copies. -/
def copyLen (c : Command) : ℕ := c.copyLenBits % 2 ^ 25

/-- The copy length the decoder reads. -/
def copyLenCode (c : Command) : ℕ :=
  let modifier := c.copyLenBits >>> 25
  if 32 ≤ modifier ∧ modifier ≤ 63 then modifier - 32
  else
    let delta := asI8 (modifier ||| ((modifier &&& 0x40) <<< 1) : ℕ)
    ((c.copyLen + delta) % 2 ^ 32).toNat

/-- The distance symbol. -/
def distanceCode (c : Command) : ℕ := c.distPrefix % 2 ^ 10

def distanceExtraBits (c : Command) : ℕ := c.distPrefix >>> 10

/-- Whether a distance symbol is written for the command. -/
def hasDistance (c : Command) : Bool := c.copyLen ≠ 0 ∧ 128 ≤ c.cmdPrefix

/-- The context the distance symbol is coded in. -/
def distanceContext (c : Command) : ℕ :=
  let r := c.cmdPrefix >>> 6
  let low := c.cmdPrefix % 8
  if (r = 0 ∨ r = 2 ∨ r = 4 ∨ r = 7) ∧ low ≤ 2 then low else 3

/-- The intermediate distance code the command was made from. -/
def restoreDistanceCode (c : Command) (dist : DistanceParams) : ℕ :=
  let dcode := c.distPrefix % 2 ^ 10
  if dcode < numDistanceShortCodes + dist.numDirect then dcode
  else
    let nbits := c.distPrefix >>> 10
    let base := dcode - dist.numDirect - numDistanceShortCodes
    let hcode := base >>> dist.postfixBits
    let lcode := base % 2 ^ dist.postfixBits
    let offset := ((2 + hcode % 2) <<< nbits) - 4
    ((offset + c.distExtra) <<< dist.postfixBits) + lcode + dist.numDirect + numDistanceShortCodes

/-- The extra bits of the insert and copy lengths: how many, and their value. -/
def extraBits (c : Command) : ℕ × ℕ :=
  let inscode := insertLengthCode c.insertLen
  let copycode := copyLengthCode c.copyLenCode
  let insnumextra := insExtra.getD inscode 0
  let insextraval := c.insertLen - insBase.getD inscode 0
  let copyextraval := c.copyLenCode - copyBase.getD copycode 0
  (insnumextra + copyExtra.getD copycode 0, (copyextraval <<< insnumextra) ||| insextraval)

end Command

/-! ### Reading a command back -/

theorem copyLengthCodes_spec (length : ℕ) (h2 : 2 ≤ length) (hl : length < 2118) :
    copyLengthCodes length ≤ 22 ∧ copyBase.getD (copyLengthCodes length) 0 ≤ length ∧
      length < copyBase.getD (copyLengthCodes length + 1) 0 := by
  induction length, h2 using Nat.le_induction with
  | base => decide
  | succ length h2 ih =>
    obtain ⟨h22, hlo, hhi⟩ := ih (by omega)
    have hsteps : ∀ c ≤ 21, copyBase.getD (c + 1) 0 < copyBase.getD (c + 1 + 1) 0 := by decide
    have htop : copyBase.getD 23 0 = 2118 := rfl
    rw [copyLengthCodes]
    by_cases hc : 2 ≤ length + 1 ∧ copyBase.getD (copyLengthCodes length + 1) 0 ≤ length + 1
    · rw [if_pos hc]
      have h21 : copyLengthCodes length ≤ 21 := by
        by_contra hlt
        have he : copyLengthCodes length = 22 := by omega
        rw [he, htop] at hc
        omega
      have := hsteps _ h21
      exact ⟨by omega, hc.2, by omega⟩
    · rw [if_neg hc]
      exact ⟨h22, by omega, by omega⟩

theorem copyLengthCode_le (copylen : ℕ) : copyLengthCode copylen ≤ 23 := by
  rw [copyLengthCode]
  split
  · omega
  split
  · have := (copyLengthCodes_spec copylen (by omega) (by omega)).1
    omega
  · omega

theorem insertLengthCode_le (insertlen : ℕ) : insertLengthCode insertlen ≤ 23 := by
  rw [insertLengthCode]
  by_cases h6 : insertlen < 6
  · rw [if_pos h6]; omega
  rw [if_neg h6]
  by_cases h130 : insertlen < 130
  · rw [if_pos h130]
    have hsmall : ∀ n < 124, ((n + 4).log2 - 1) <<< 1 + (n + 4) >>> ((n + 4).log2 - 1) + 2 ≤
      23 := by decide
    have := hsmall (insertlen - 6) (by omega)
    rwa [show insertlen - 6 + 4 = insertlen - 2 by omega] at this
  rw [if_neg h130]
  by_cases h2114 : insertlen < 2114
  · rw [if_pos h2114]
    have : (insertlen - 66).log2 < 11 := (Nat.log2_lt (by omega)).2 (by omega)
    omega
  · rw [if_neg h2114]
    split
    · omega
    · split <;> omega

/-- A command symbol without the implicit last distance is at least 128. -/
theorem le_combineLengthCodes {inscode copycode : ℕ} (hi : inscode ≤ 23) (hc : copycode ≤ 23) :
    128 ≤ combineLengthCodes inscode copycode false := by
  have h : ∀ i ≤ 2, ∀ c ≤ 2, 128 ≤
      ((2 * (c + 3 * i)) <<< 5 + 0x40 + ((0x520D40 >>> (2 * (c + 3 * i))) &&& 0xC0)) % 2 ^ 16 := by
    decide
  rw [combineLengthCodes, if_neg (by simp)]
  have hi' : inscode >>> 3 ≤ 2 := by rw [Nat.shiftRight_eq_div_pow]; omega
  have hc' : copycode >>> 3 ≤ 2 := by rw [Nat.shiftRight_eq_div_pow]; omega
  exact (h _ hi' _ hc').trans Nat.left_le_or

namespace Command

variable (dist : DistanceParams) {insertlen copylen : ℕ} {delta : ℤ} {code : ℕ}

@[simp] theorem insertLen_new (h : insertlen < 2 ^ 32) :
    (new dist insertlen copylen delta code).insertLen = insertlen :=
  Nat.mod_eq_of_lt h

theorem shifted_mod (modifier : ℕ) : (modifier <<< 25) % 2 ^ 32 = 2 ^ 25 * (modifier % 2 ^ 7) := by
  rw [Nat.shiftLeft_eq, mul_comm, show 2 ^ 32 = 2 ^ 25 * 2 ^ 7 by rfl, Nat.mul_mod_mul_left]

/-- The two fields of the packed copy length. -/
theorem copyLenBits_fields {modifier : ℕ} (h : copylen < 2 ^ 25) :
    (copylen % 2 ^ 32 ||| (modifier <<< 25) % 2 ^ 32) % 2 ^ 25 = copylen ∧
      (copylen % 2 ^ 32 ||| (modifier <<< 25) % 2 ^ 32) >>> 25 = modifier % 2 ^ 7 := by
  rw [shifted_mod, Nat.mod_eq_of_lt (h.trans (by decide)), Nat.or_comm,
    ← Nat.two_pow_add_eq_or_of_lt h]
  refine ⟨?_, ?_⟩
  · rw [Nat.mul_add_mod, Nat.mod_eq_of_lt h]
  · rw [Nat.shiftRight_eq_div_pow, Nat.mul_add_div (by decide), Nat.div_eq_of_lt h, Nat.add_zero]

@[simp] theorem copyLen_new (h : copylen < 2 ^ 25) :
    (new dist insertlen copylen delta code).copyLen = copylen :=
  (copyLenBits_fields h).1

/-- The coded length survives the packing of its delta in seven bits. -/
theorem copyLenCode_new (h : copylen < 2 ^ 25) (hd : delta ≤ 31) (h0 : 0 ≤ copylen + delta)
    (hlong : delta < -64 → copylen + delta ≤ 31) :
    (new dist insertlen copylen delta code).copyLenCode = (copylen + delta).toNat := by
  have hlen : (new dist insertlen copylen delta code).copyLen = copylen := copyLen_new dist h
  rw [copyLenCode, hlen]
  show (let modifier := (new dist insertlen copylen delta code).copyLenBits >>> 25; _) = _
  by_cases hneg : delta < -64
  · have hmod : (new dist insertlen copylen delta code).copyLenBits >>> 25 =
        (32 + (copylen + delta).toNat) % 2 ^ 7 := by
      simp only [new, if_pos hneg]
      exact (copyLenBits_fields h).2
    have hle := hlong hneg
    rw [Nat.mod_eq_of_lt (by omega)] at hmod
    simp only [hmod]
    rw [if_pos (by omega)]
    omega
  · have hmod : (new dist insertlen copylen delta code).copyLenBits >>> 25 =
        (asI8 delta % 2 ^ 8).toNat % 2 ^ 7 := by
      simp only [new, if_neg hneg]
      exact (copyLenBits_fields h).2
    have hall : ∀ d : Fin 96,
        ¬ (32 ≤ (asI8 ((d : ℕ) - 64) % 2 ^ 8).toNat % 2 ^ 7 ∧
          (asI8 ((d : ℕ) - 64) % 2 ^ 8).toNat % 2 ^ 7 ≤ 63) ∧
          asI8 (((asI8 ((d : ℕ) - 64) % 2 ^ 8).toNat % 2 ^ 7 |||
            (((asI8 ((d : ℕ) - 64) % 2 ^ 8).toNat % 2 ^ 7 &&& 0x40) <<< 1) : ℕ) : ℤ) =
            (d : ℕ) - 64 := by decide +kernel
    obtain ⟨h1, h2⟩ := hall ⟨(delta + 64).toNat, by omega⟩
    rw [show (((delta + 64).toNat : ℕ) : ℤ) - 64 = delta by omega] at h1 h2
    simp only [hmod]
    rw [if_neg h1, h2, Int.emod_eq_of_lt h0 (by omega)]

/-- The distance symbol and its extra bits, for a code below sixteen. -/
theorem distance_new_short (hc : code < numDistanceShortCodes) (hn : dist.numDirect ≤ maxNdirect) :
    (new dist insertlen copylen delta code).distanceCode = code ∧
    (new dist insertlen copylen delta code).distExtra = 0 := by
  have hr : prefixEncodeCopyDistance code dist.numDirect dist.postfixBits = (code, 0) :=
    prefixEncode_direct (by omega) hn
  have hlt : code < 2 ^ 10 := hc.trans (by decide)
  simp only [new, distanceCode, hr, Nat.mod_eq_of_lt hlt, and_self]

/-- A spelled-out code is read back by the decoder's distance arithmetic. -/
theorem distance_new_long (hd : dist.Legal) (hc : numDistanceShortCodes ≤ code)
    (h32 : code < 2 ^ 32) (large : Bool) :
    numDistanceShortCodes ≤ (new dist insertlen copylen delta code).distanceCode ∧
      (dist.layout large).longDistance (new dist insertlen copylen delta code).distanceCode
        (new dist insertlen copylen delta code).distExtra = code - 15 := by
  obtain ⟨h1, -, -, h2⟩ := longDistance_prefixEncode large hc hd.postfixBits hd.numDirect h32
  exact ⟨h1, h2⟩

/-- A copy coded with its own length. -/
theorem new_plain (hins : insertlen < 2 ^ 32) (h : copylen < 2 ^ 25) :
    new dist insertlen copylen 0 code = {
      insertLen := insertlen
      copyLenBits := copylen
      distExtra := (prefixEncodeCopyDistance code dist.numDirect dist.postfixBits).2
      cmdPrefix := lengthCode insertlen copylen
        ((prefixEncodeCopyDistance code dist.numDirect dist.postfixBits).1 % 2 ^ 10 = 0)
      distPrefix := (prefixEncodeCopyDistance code dist.numDirect dist.postfixBits).1 } := by
  have h0 : (asI8 0 % 2 ^ 8).toNat = 0 := by decide
  have hsum : ((copylen : ℤ) + 0).toNat = copylen := by omega
  simp only [new, h0, hsum, Nat.mod_eq_of_lt hins]
  rw [if_neg (by decide), Nat.zero_shiftLeft, Nat.zero_mod, Nat.or_zero,
    Nat.mod_eq_of_lt (h.trans (by decide))]

/-- A longer copy is the same command with the longer length and its symbol. -/
theorem new_add {k : ℕ} (hins : insertlen < 2 ^ 32) (h : copylen + k < 2 ^ 25) :
    let c := new dist insertlen copylen 0 code
    ({ c with
        copyLenBits := c.copyLenBits + k
        cmdPrefix :=
          lengthCode c.insertLen ((c.copyLenBits + k) % 2 ^ 25 + (c.copyLenBits + k) >>> 25)
          (c.distanceCode = 0) } :
      Command) = new dist insertlen (copylen + k) 0 code := by
  intro c
  have hc : c = _ := new_plain dist hins (by omega)
  have hshift : (copylen + k) >>> 25 = 0 := by rw [Nat.shiftRight_eq_div_pow, Nat.div_eq_of_lt h]
  rw [new_plain dist hins h, hc]
  simp only [distanceCode, Nat.mod_eq_of_lt h, hshift, Nat.add_zero]
  rfl

/-- A command whose symbol implies the last distance has distance code zero. -/
theorem distanceCode_of_implicit (h : (new dist insertlen copylen delta code).cmdPrefix < 128) :
    (new dist insertlen copylen delta code).distanceCode = 0 := by
  by_contra hne
  have hsym : (new dist insertlen copylen delta code).cmdPrefix =
      lengthCode insertlen (copylen + delta).toNat false := by
    simp only [new, distanceCode] at hne ⊢
    rw [decide_eq_false hne]
  rw [hsym] at h
  have :=
    le_combineLengthCodes (insertLengthCode_le insertlen)
      (copyLengthCode_le (copylen + delta).toNat)
  exact absurd (Nat.lt_of_le_of_lt this h) (by decide)

end Command
end Mbrotli.Compressor
