/-
# The match kernels

The source compares a first word, vectors of the native width, whole words and a last
word that ends at the limit, so that it reads bytes it already found equal a second
time. The vector library is a parameter, `Simd`, with what it documents of a lanewise
comparison in `Simd.Lanewise`.

Each kernel counts the bytes `matchLenBytes` counts, `matchLenWindows_eq` and
`scanWindows_eq`, because a scan in steps of `n` bytes stops at the first difference or
at the last whole step, `scanChunks_eq`.

Key definitions: `scanChunks`, `scanWide`, `Agreeing`.
Key theorems: `wordDifference_finds`, `scanWide_eq`, `matchLengths_exact`.
-/
import Mbrotli.Decompressor.Core.Cursor
import Mbrotli.Lib.BitList
import Mbrotli.Shared.MatchLen
import Mathlib.Order.Bounds.Basic

namespace Mbrotli.Compressor

open BitString

/-- One level of the vector library: its native byte lanes, the comparison of two
vectors of `n` bytes, and what is read off the mask it gives. -/
structure Simd where
  lanes : ℕ
  Mask : Type
  simdEq : ℕ → List UInt8 → List UInt8 → Mask
  anyFalse : Mask → Bool
  toBitmask : Mask → BitVec 64

/-- The comparison is lane by lane, and lane `i` of its mask is bit `i`. -/
structure Simd.Lanewise (S : Simd) : Prop where
  anyFalse_iff : ∀ {n : ℕ} {x y : List UInt8}, n ≤ 64 → x.length = n → y.length = n →
    (S.anyFalse (S.simdEq n x y) = true ↔ ∃ i < n, x[i]? ≠ y[i]?)
  bitmask : ∀ {n i : ℕ} {x y : List UInt8}, n ≤ 64 → x.length = n → y.length = n → i < n →
    (S.toBitmask (S.simdEq n x y)).getLsbD i = decide (x[i]? = y[i]?)

/-- Bytes compared with plain words before the vectors. -/
def scalarPrefixBytes : ℕ := 16

def fromLeBytes (bytes : List UInt8) : BitVec 64 := BitVec.ofNat 64 (Bits.leWord bytes)

def trailingOnes (mask : BitVec 64) : ℕ := (~~~mask).ctz.toNat

/-- The first byte two words differ in. -/
def wordDifference (left right : List UInt8) : Option ℕ :=
  let difference := fromLeBytes left ^^^ fromLeBytes right
  if difference ≠ 0 then some (difference.ctz.toNat >>> 3) else none

/-- The first byte two vectors of `n` lanes differ in. -/
def Simd.vectorDifference (S : Simd) (n : ℕ) (left right : List UInt8) : Option ℕ :=
  let equal := S.simdEq n left right
  if S.anyFalse equal then some (trailingOnes (S.toBitmask equal)) else none

/-- The whole chunks of `n` bytes. -/
def asChunks (n : ℕ) (bytes : List UInt8) : List (List UInt8) :=
  (List.range (bytes.length / n)).map fun i => (bytes.drop (n * i)).take n

/-- Walks pairs of chunks of `n` bytes up to the first one with a difference. -/
def scanChunks (n : ℕ) (differ : List UInt8 → List UInt8 → Option ℕ) :
    List (List UInt8 × List UInt8) → ℕ → ℕ
  | [], matched => matched
  | (left, right) :: chunks, matched =>
    match differ left right with
    | some k => matched + k
    | none => scanChunks n differ chunks (matched + n)

def matchLenWords (left right : List UInt8) : ℕ :=
  scanChunks 8 wordDifference ((asChunks 8 left).zip (asChunks 8 right)) 0

namespace Simd

variable (S : Simd)

def matchLenVectors (n : ℕ) (left right : List UInt8) : ℕ :=
  scanChunks n (S.vectorDifference n) ((asChunks n left).zip (asChunks n right)) 0

def matchLenVectors16 : List UInt8 → List UInt8 → ℕ := S.matchLenVectors 16

def matchLenVectors32 : List UInt8 → List UInt8 → ℕ := S.matchLenVectors 32

def matchLenVectors64 : List UInt8 → List UInt8 → ℕ := S.matchLenVectors 64

/-- The bytes `matchLenNativeVectors` steps by. -/
def nativeVectorStride : ℕ :=
  match S.lanes with
  | 16 => 16
  | 32 => 32
  | 64 => 64
  | _ => 1

def matchLenNativeVectors (left right : List UInt8) : ℕ :=
  match S.lanes with
  | 16 => S.matchLenVectors16 left right
  | 32 => S.matchLenVectors32 left right
  | 64 => S.matchLenVectors64 left right
  | _ => matchLenBytes left right

/-- The scan both window kernels make, up to the last whole word; `finish` gets the two
windows and the bytes matched so far, fewer than eight of which are left. -/
def scanWide (finish : List UInt8 → List UInt8 → ℕ → ℕ) (left right : List UInt8) : ℕ :=
  let limit := min left.length right.length
  let left := left.take limit
  let right := right.take limit
  let first := min limit scalarPrefixBytes / 8 * 8
  let matched := matchLenWords (left.take first) (right.take first)
  if matched < first then matched
  else
    let stride := S.nativeVectorStride
    let wholeVectors := (limit - matched) - (limit - matched) % stride
    let vectored := S.matchLenNativeVectors (left.drop matched) (right.drop matched)
    let matched := matched + vectored
    if vectored < wholeVectors then matched
    else
      let wholeWords := (limit - matched) / 8 * 8
      let tail :=
        matchLenWords ((left.drop matched).take wholeWords) ((right.drop matched).take wholeWords)
      let matched := matched + tail
      if tail < wholeWords then matched else finish left right matched

end Simd

def firstChunk (bytes : List UInt8) : Option (List UInt8) :=
  if 8 ≤ bytes.length then some (bytes.take 8) else none

def lastChunk (bytes : List UInt8) : Option (List UInt8) :=
  if 8 ≤ bytes.length then some (bytes.drop (bytes.length - 8)) else none

/-- The byte loop of a window shorter than a word. -/
def windowBytes (left right : List UInt8) (limit : ℕ) : ℕ → ℕ → ℕ
  | 0, bytes => bytes
  | fuel + 1, bytes =>
    if bytes < limit ∧ left[bytes]? = right[bytes]? then windowBytes left right limit fuel
    (bytes + 1) else bytes

/-- The last word of a window, which ends at its end. -/
def lastWord (left right : List UInt8) (matched : ℕ) : ℕ :=
  let limit := left.length
  if matched = limit then matched
  else match lastChunk left, lastChunk right with
    | some leftLast, some rightLast =>
      match wordDifference leftLast rightLast with
      | none => limit
      | some k => limit - 8 + k
    | _, _ => windowBytes left right limit limit 0

/-- `data.get(ix..ix + n)`. -/
def windowAt (data : List UInt8) (ix n : ℕ) : Option (List UInt8) :=
  if ix + n ≤ data.length then some ((data.drop ix).take n) else none

/-- The bytes a search measures its candidates against, none where they do not fit. -/
def currentWindow (data : List UInt8) (curIxMasked maxLength : ℕ) : List UInt8 :=
  (windowAt data (curIxMasked % 2 ^ 32) (maxLength % 2 ^ 32)).getD []

namespace Simd

variable (S : Simd)

def matchLenWindows : List UInt8 → List UInt8 → ℕ := S.scanWide lastWord

/-- `matchLenWindows` behind a call. -/
def matchLenTail (left right : List UInt8) : ℕ := S.matchLenWindows left right

/-- The first word of two windows, and `rest` past it. -/
def firstWord (rest : List UInt8 → List UInt8 → ℕ) (left cur : List UInt8) : ℕ :=
  match firstChunk left, firstChunk cur with
  | some leftWord, some curWord =>
    match wordDifference leftWord curWord with
    | some k => k
    | none => 8 + rest (left.drop 8) (cur.drop 8)
  | _, _ => rest left cur

def matchLenAt (data : List UInt8) (prevIx : ℕ) (cur : List UInt8) : ℕ :=
  match windowAt data prevIx cur.length with
  | none => 0
  | some left => firstWord S.matchLenWindows left cur

def matchLenAtOutlined (data : List UInt8) (prevIx : ℕ) (cur : List UInt8) : ℕ :=
  match windowAt data (prevIx % 2 ^ 32) (cur.length % 2 ^ 32) with
  | none => 0
  | some left => firstWord S.matchLenTail left cur

def scanWindows : List UInt8 → List UInt8 → ℕ :=
  S.scanWide fun left right matched =>
    matched + matchLenBytes (left.drop matched) (right.drop matched)

def findMatchLength (data : List UInt8) (left right limit : ℕ) : ℕ :=
  if left ≤ data.length ∧ right ≤ data.length then
    let leftWindow := data.drop left
    let rightWindow := data.drop right
    if limit > leftWindow.length ∨ limit > rightWindow.length then 0
    else S.scanWindows (leftWindow.take limit) (rightWindow.take limit)
  else 0

def commonPrefixLenSimd (left right : List UInt8) (limit : ℕ) : ℕ :=
  let limit := min (min limit left.length) right.length
  S.scanWindows (left.take limit) (right.take limit)

end Simd

/-- The scalar kernel: whole words, then bytes. -/
def Words.commonPrefixLen (left right : List UInt8) (limit : ℕ) : ℕ :=
  let limit := min (min limit left.length) right.length
  let left := left.take limit
  let right := right.take limit
  let wholeWords := limit / 8 * 8
  let matched := matchLenWords (left.take wholeWords) (right.take wholeWords)
  if matched < wholeWords then matched
  else matched + matchLenBytes (left.drop wholeWords) (right.drop wholeWords)

variable {left right x y : List UInt8} {n k : ℕ} {S : Simd}

theorem matchLenBytes_take (n : ℕ) (left right : List UInt8) :
    matchLenBytes (left.take n) (right.take n) = min n (matchLenBytes left right) := by
  induction n generalizing left right with
  | zero => simp [matchLenBytes]
  | succ n ih =>
    cases left with
    | nil => simp [matchLenBytes]
    | cons a left =>
      cases right with
      | nil => simp [matchLenBytes]
      | cons b right =>
        rw [List.take_succ_cons, List.take_succ_cons, matchLenBytes, matchLenBytes, ih]
        by_cases hab : a = b
        · rw [if_pos hab, if_pos hab]
          omega
        · rw [if_neg hab, if_neg hab, Nat.min_zero]

theorem matchLenBytes_drop (h : n ≤ matchLenBytes left right) :
    matchLenBytes left right = n + matchLenBytes (left.drop n) (right.drop n) := by
  induction n generalizing left right with
  | zero => simp
  | succ n ih =>
    cases left with
    | nil => simp [matchLenBytes] at h
    | cons a left =>
      cases right with
      | nil => simp [matchLenBytes] at h
      | cons b right =>
        rw [matchLenBytes] at h ⊢
        by_cases hab : a = b
        · rw [if_pos hab] at h ⊢
          rw [List.drop_succ_cons, List.drop_succ_cons, ih (Nat.le_of_succ_le_succ h)]
          omega
        · rw [if_neg hab] at h
          exact absurd h (Nat.not_succ_le_zero n)

/-- The count is the first place where the runs differ or one of them ends. -/
theorem matchLenBytes_eq (hl : k ≤ left.length) (hr : k ≤ right.length)
    (heq : ∀ i < k, left[i]? = right[i]?)
    (hstop : left[k]? ≠ right[k]? ∨ k = left.length ∨ k = right.length) :
    matchLenBytes left right = k := by
  induction k generalizing left right with
  | zero =>
    cases left with
    | nil => simp [matchLenBytes]
    | cons a left =>
      cases right with
      | nil => simp [matchLenBytes]
      | cons b right =>
        have hab : a ≠ b := by simpa using hstop
        rw [matchLenBytes, if_neg hab]
  | succ k ih =>
    cases left with
    | nil => simp at hl
    | cons a left =>
      cases right with
      | nil => simp at hr
      | cons b right =>
        have hab : a = b := by simpa using heq 0 (Nat.succ_pos k)
        rw [matchLenBytes, if_pos hab]
        rw [ih (by simpa using hl) (by simpa using hr) (fun i hi => by
          simpa using heq (i + 1) (by omega)) (by simpa using hstop)]

theorem matchLenBytes_ne (hl : matchLenBytes left right < left.length)
    (hr : matchLenBytes left right < right.length) :
    left[matchLenBytes left right]? ≠ right[matchLenBytes left right]? := by
  have hsplit := matchLenBytes_drop (le_refl (matchLenBytes left right))
  set k := matchLenBytes left right with hk
  have hzero : matchLenBytes (left.drop k) (right.drop k) = 0 := by omega
  rw [List.drop_eq_getElem_cons hl, List.drop_eq_getElem_cons hr, matchLenBytes] at hzero
  rw [List.getElem?_eq_getElem hl, List.getElem?_eq_getElem hr]
  intro he
  rw [if_pos (Option.some.inj he)] at hzero
  exact Nat.succ_ne_zero _ hzero

/-- A comparison of two chunks of `n` bytes that finds their first difference. -/
def Finds (n : ℕ) (differ : List UInt8 → List UInt8 → Option ℕ) : Prop :=
  ∀ x y : List UInt8, x.length = n → y.length = n →
    differ x y = if matchLenBytes x y < n then some (matchLenBytes x y) else none

theorem asChunks_cons (hn : 0 < n) (h : n ≤ x.length) :
    asChunks n x = x.take n :: asChunks n (x.drop n) := by
  have hlen : x.length / n = (x.length - n) / n + 1 := by
    rw [Nat.div_eq_sub_div hn h]
  rw [asChunks, asChunks, hlen, List.range_succ_eq_map, List.map_cons, List.map_map,
    List.length_drop, Nat.mul_zero, List.drop_zero]
  congr 1
  apply List.map_congr_left
  intro i _
  show (x.drop (n * (i + 1))).take n = ((x.drop n).drop (n * i)).take n
  rw [List.drop_drop, Nat.mul_succ, Nat.add_comm]

theorem asChunks_nil (h : x.length < n) : asChunks n x = [] := by
  rw [asChunks, Nat.div_eq_of_lt h]
  rfl

/-- The scan stops at the first difference, or at the last whole chunk. -/
theorem scanChunks_eq {differ : List UInt8 → List UInt8 → Option ℕ} (hn : 0 < n)
    (hd : Finds n differ)
    (left right : List UInt8) (matched : ℕ) :
    scanChunks n differ ((asChunks n left).zip (asChunks n right)) matched =
      matched + min (matchLenBytes left right) (min left.length right.length / n * n) := by
  induction hlen : left.length using Nat.strongRecOn generalizing left right matched with
  | _ len ih =>
    subst hlen
    by_cases hshort : min left.length right.length < n
    · have hnil : (asChunks n left).zip (asChunks n right) = [] := by
        rcases Nat.lt_or_ge left.length n with h | h
        · rw [asChunks_nil h, List.zip_nil_left]
        · rw [asChunks_nil (x := right) (by omega), List.zip_nil_right]
      rw [hnil, scanChunks, Nat.div_eq_of_lt hshort, Nat.zero_mul, Nat.min_zero, Nat.add_zero]
    · have hl : n ≤ left.length := by omega
      have hr : n ≤ right.length := by omega
      rw [asChunks_cons hn hl, asChunks_cons hn hr, List.zip_cons_cons, scanChunks,
        hd _ _ (List.length_take_of_le hl) (List.length_take_of_le hr), matchLenBytes_take]
      have hdiv : min left.length right.length / n * n =
          n + (min left.length right.length - n) / n * n := by
        rw [Nat.div_eq_sub_div hn (by omega)]
        ring
      by_cases hm : matchLenBytes left right < n
      · rw [if_pos (by omega)]
        show matched + min n (matchLenBytes left right) = _
        omega
      · rw [if_neg (by omega)]
        show scanChunks n differ _ (matched + n) = _
        rw [ih (left.drop n).length (by rw [List.length_drop]; omega) _ _ _ rfl,
          matchLenBytes_drop (Nat.le_of_not_lt hm),
          hdiv, List.length_drop, List.length_drop, Nat.sub_min_sub_right]
        omega

theorem getLsbD_fromLeBytes (x : List UInt8) {i : ℕ} (hi : i < 64) :
    (fromLeBytes x).getLsbD i = (x.getD (i / 8) 0).toNat.testBit (i % 8) := by
  rw [fromLeBytes, BitVec.getLsbD_ofNat, decide_eq_true hi, Bool.true_and, testBit_leWord]
  rfl

theorem UInt8.ext_testBit {a b : UInt8} (h : ∀ j < 8, a.toNat.testBit j = b.toNat.testBit j) :
    a = b := by
  apply UInt8.toNat_inj.1
  apply Nat.eq_of_testBit_eq
  intro j
  rcases Nat.lt_or_ge j 8 with hj | hj
  · exact h j hj
  · rw [toNat_testBit_of_le a hj, toNat_testBit_of_le b hj]

/-- The lowest set bit of a difference lies in the first byte that differs. -/
theorem wordDifference_finds : Finds 8 wordDifference := by
  intro x y hx hy
  have hbit : ∀ i < 64, (fromLeBytes x ^^^ fromLeBytes y).getLsbD i =
      ((x.getD (i / 8) 0).toNat.testBit (i % 8) ^^ (y.getD (i / 8) 0).toNat.testBit (i % 8)) := by
    intro i hi
    rw [BitVec.getLsbD_xor, getLsbD_fromLeBytes x hi, getLsbD_fromLeBytes y hi]
  obtain ⟨hle, -, hsame⟩ := matchLenBytes_spec x y
  have hequal : ∀ i, i / 8 < matchLenBytes x y →
      (fromLeBytes x ^^^ fromLeBytes y).getLsbD i = false := by
    intro i hi
    rw [hbit i (by omega), List.getD_eq_getElem?_getD, List.getD_eq_getElem?_getD, hsame _ hi,
      Bool.xor_self]
  rw [wordDifference]
  by_cases hm : matchLenBytes x y < 8
  · rw [if_pos hm]
    have hdiffer : ∃ j < 8, (fromLeBytes x ^^^ fromLeBytes y).getLsbD (8 * matchLenBytes x y + j) =
        true := by
      by_contra hnone
      push Not at hnone
      refine matchLenBytes_ne (show matchLenBytes x y < x.length by omega) (by omega) ?_
      have hbyte : x.getD (matchLenBytes x y) 0 = y.getD (matchLenBytes x y) 0 := by
        apply UInt8.ext_testBit
        intro j hj
        have := hnone j hj
        rw [hbit _ (by omega), show (8 * matchLenBytes x y + j) / 8 = matchLenBytes x y by omega,
          show (8 * matchLenBytes x y + j) % 8 = j by omega] at this
        simpa using this
      rw [List.getD_eq_getElem?_getD, List.getD_eq_getElem?_getD,
        List.getElem?_eq_getElem (by omega), List.getElem?_eq_getElem (by omega)] at hbyte
      rw [List.getElem?_eq_getElem (by omega), List.getElem?_eq_getElem (by omega)]
      simpa using hbyte
    obtain ⟨j, hj, hset⟩ := hdiffer
    have hne : fromLeBytes x ^^^ fromLeBytes y ≠ 0 := by
      intro hzero
      rw [hzero] at hset
      simp at hset
    rw [if_pos hne]
    have hlow := BitVec.getLsbD_true_ctz_of_ne_zero hne
    have hbelow := fun i => @BitVec.getLsbD_false_of_lt_ctz 64 i (fromLeBytes x ^^^ fromLeBytes y)
    set c := (fromLeBytes x ^^^ fromLeBytes y).ctz.toNat with hc
    have h1 : matchLenBytes x y ≤ c / 8 := by
      by_contra hlt
      rw [hequal c (by omega)] at hlow
      exact Bool.false_ne_true hlow
    have h2 : c ≤ 8 * matchLenBytes x y + j := by
      by_contra hlt
      rw [hbelow _ (by omega)] at hset
      exact Bool.false_ne_true hset
    rw [Nat.shiftRight_eq_div_pow]
    congr 1
    omega
  · have hzero : fromLeBytes x ^^^ fromLeBytes y = 0 := by
      apply BitVec.eq_of_getLsbD_eq
      intro i hi
      rw [hequal i (by omega)]
      simp
    rw [if_neg hm, if_neg (not_not.2 hzero)]

/-- The trailing ones of the mask are the equal lanes before the first other one. -/
theorem vectorDifference_finds (hS : S.Lanewise) (hn : n ≤ 64) :
    Finds n (S.vectorDifference n) := by
  intro x y hx hy
  have hany := hS.anyFalse_iff hn hx hy
  obtain ⟨hle, -, hsame⟩ := matchLenBytes_spec x y
  rw [Simd.vectorDifference]
  by_cases hm : matchLenBytes x y < n
  · have hne := matchLenBytes_ne (show matchLenBytes x y < x.length by omega) (by omega)
    rw [if_pos hm, if_pos (hany.2 ⟨_, hm, hne⟩), trailingOnes]
    have hbit : ∀ i < n, (~~~S.toBitmask (S.simdEq n x y)).getLsbD i = !decide (x[i]? = y[i]?) := by
      intro i hi
      rw [BitVec.getLsbD_not, decide_eq_true (by omega), Bool.true_and, hS.bitmask hn hx hy hi]
    have hset : (~~~S.toBitmask (S.simdEq n x y)).getLsbD (matchLenBytes x y) = true := by
      rw [hbit _ hm, decide_eq_false hne]
      rfl
    have hzero : ~~~S.toBitmask (S.simdEq n x y) ≠ 0 := by
      intro h0
      rw [h0] at hset
      simp at hset
    have hlow := BitVec.getLsbD_true_ctz_of_ne_zero hzero
    have hbelow := fun i => @BitVec.getLsbD_false_of_lt_ctz 64 i (~~~S.toBitmask (S.simdEq n x y))
    set c := (~~~S.toBitmask (S.simdEq n x y)).ctz.toNat
    have h1 : c ≤ matchLenBytes x y := by
      by_contra hlt
      rw [hbelow _ (by omega)] at hset
      exact Bool.false_ne_true hset
    have h2 : matchLenBytes x y ≤ c := by
      by_contra hlt
      rw [hbit c (by omega), decide_eq_true (hsame c (by omega))] at hlow
      exact Bool.false_ne_true hlow
    rw [Nat.le_antisymm h1 h2]
  · have hall : ¬S.anyFalse (S.simdEq n x y) = true := by
      intro h
      obtain ⟨i, hi, hne⟩ := hany.1 h
      exact hne (hsame i (by omega))
    rw [if_neg hm, if_neg hall]

theorem matchLenWords_eq (left right : List UInt8) :
    matchLenWords left right = min (matchLenBytes left right)
    (min left.length right.length / 8 * 8) := by
  rw [matchLenWords, scanChunks_eq (by decide) wordDifference_finds, Nat.zero_add]

/-- The native scan takes the stride that is reported for it. -/
theorem matchLenNativeVectors_eq (hS : S.Lanewise) (left right : List UInt8) :
    S.matchLenNativeVectors left right =
      min (matchLenBytes left right)
      (min left.length right.length / S.nativeVectorStride * S.nativeVectorStride) := by
  have hvec : ∀ n, 0 < n → n ≤ 64 → S.matchLenVectors n left right =
      min (matchLenBytes left right) (min left.length right.length / n * n) := by
    intro n h0 h64
    rw [Simd.matchLenVectors, scanChunks_eq h0 (vectorDifference_finds hS h64), Nat.zero_add]
  unfold Simd.matchLenNativeVectors Simd.nativeVectorStride
  split
  · exact hvec 16 (by decide) (by decide)
  · exact hvec 32 (by decide) (by decide)
  · exact hvec 64 (by decide) (by decide)
  · obtain ⟨hl, hr, -⟩ := matchLenBytes_spec left right
    rw [Nat.div_one, Nat.mul_one]
    omega

theorem length_drop_le (hl : n ≤ matchLenBytes left right) :
    (left.drop n).length = left.length - n ∧ (right.drop n).length = right.length - n ∧
    n ≤ left.length ∧ n ≤ right.length := by
  obtain ⟨h1, h2, -⟩ := matchLenBytes_spec left right
  exact ⟨List.length_drop, List.length_drop, by omega, by omega⟩

/-- With a `finish` that ends the count of two windows of one length, of which fewer than
eight bytes are left, the wide scan counts them all. -/
theorem scanWide_eq (hS : S.Lanewise) {finish : List UInt8 → List UInt8 → ℕ → ℕ}
    (hfinish : ∀ (left right : List UInt8) (matched : ℕ), left.length = right.length →
      matched ≤ matchLenBytes left right →
      left.length < matched + 8 → finish left right matched = matchLenBytes left right)
      (left right : List UInt8) :
    S.scanWide finish left right = matchLenBytes left right := by
  rw [Simd.scanWide]
  set limit := min left.length right.length with hlimit
  have hcut : matchLenBytes (left.take limit) (right.take limit) = matchLenBytes left right := by
    obtain ⟨h1, h2, -⟩ := matchLenBytes_spec left right
    rw [matchLenBytes_take]
    omega
  rw [← hcut]
  have hl : (left.take limit).length = limit := List.length_take_of_le (by omega)
  have hr : (right.take limit).length = limit := List.length_take_of_le (by omega)
  generalize left.take limit = left at hl hr ⊢
  generalize right.take limit = right at hl hr ⊢
  clear hcut hlimit
  obtain ⟨hle, -, -⟩ := matchLenBytes_spec left right
  -- the scalar prefix
  set first := min limit scalarPrefixBytes / 8 * 8 with hfirst
  have hmatched : matchLenWords (left.take first) (right.take first) =
      min (matchLenBytes left right) first := by
    rw [matchLenWords_eq, matchLenBytes_take, List.length_take_of_le (by omega),
      List.length_take_of_le (by omega)]
    omega
  dsimp only
  rw [hmatched]
  by_cases h1 : matchLenBytes left right < first
  · rw [if_pos (by omega)]
    omega
  rw [if_neg (by omega), show min (matchLenBytes left right) first = first by omega]
  -- the vectors
  have hd1 := matchLenBytes_drop (Nat.le_of_not_lt h1)
  obtain ⟨hl1, hr1, -, -⟩ := length_drop_le (Nat.le_of_not_lt h1)
  set stride := S.nativeVectorStride with hstride
  have hround : (limit - first) - (limit - first) % stride = (limit - first) / stride * stride := by
    have := Nat.div_add_mod' (limit - first) stride
    omega
  have hvectored : S.matchLenNativeVectors (left.drop first) (right.drop first) =
      min (matchLenBytes (left.drop first) (right.drop first))
      ((limit - first) / stride * stride) := by
    rw [matchLenNativeVectors_eq hS, hl1, hr1, hl, hr, Nat.min_self]
  rw [hround, hvectored]
  set whole := (limit - first) / stride * stride with hwhole
  by_cases h2 : matchLenBytes (left.drop first) (right.drop first) < whole
  · rw [if_pos (by omega)]
    omega
  rw [if_neg (by omega), show min (matchLenBytes (left.drop first) (right.drop first)) whole =
    whole by omega]
  -- the whole words
  have hsecond : first + whole ≤ matchLenBytes left right := by omega
  have hd2 := matchLenBytes_drop hsecond
  obtain ⟨hl2, hr2, -, -⟩ := length_drop_le hsecond
  set second := first + whole
  set words := (limit - second) / 8 * 8 with hwords
  have htail : matchLenWords ((left.drop second).take words) ((right.drop second).take words) =
      min (matchLenBytes (left.drop second) (right.drop second)) words := by
    rw [matchLenWords_eq, matchLenBytes_take, List.length_take_of_le (by omega),
      List.length_take_of_le (by omega)]
    omega
  rw [htail]
  by_cases h3 : matchLenBytes (left.drop second) (right.drop second) < words
  · rw [if_pos (by omega)]
    omega
  rw [if_neg (by omega)]
  exact hfinish left right _ (by omega) (by omega) (by omega)

theorem windowBytes_eq (fuel : ℕ) {limit bytes : ℕ} (hl : left.length = limit)
    (hr : right.length = limit)
    (hb : bytes ≤ matchLenBytes left right) (hfuel : limit ≤ bytes + fuel) :
    windowBytes left right limit fuel bytes = matchLenBytes left right := by
  obtain ⟨h1, h2, hsame⟩ := matchLenBytes_spec left right
  induction fuel generalizing bytes with
  | zero =>
    rw [windowBytes]
    omega
  | succ fuel ih =>
    rw [windowBytes]
    by_cases hm : bytes < matchLenBytes left right
    · rw [if_pos ⟨by omega, hsame bytes hm⟩]
      exact ih hm (by omega)
    · have hbm : bytes = matchLenBytes left right := by omega
      rw [if_neg, hbm]
      rintro ⟨hlt, he⟩
      rw [hbm] at he hlt
      exact matchLenBytes_ne (by omega) (by omega) he

/-- The bytes the last word reads again are equal, so its first difference is that of the
windows. -/
theorem lastWord_eq {matched : ℕ} (hlen : left.length = right.length)
    (hm : matched ≤ matchLenBytes left right)
    (hend : left.length < matched + 8) :
    lastWord left right matched = matchLenBytes left right := by
  obtain ⟨h1, h2, -⟩ := matchLenBytes_spec left right
  rw [lastWord]
  by_cases hall : matched = left.length
  · rw [if_pos hall]
    omega
  rw [if_neg hall, lastChunk, lastChunk, ← hlen]
  by_cases h8 : 8 ≤ left.length
  · rw [if_pos h8, if_pos h8]
    have hsplit := matchLenBytes_drop (show left.length - 8 ≤ matchLenBytes left right by omega)
    obtain ⟨hl, hr, -, -⟩ :=
      length_drop_le (show left.length - 8 ≤ matchLenBytes left right by omega)
    have hword := wordDifference_finds _ _ (show (left.drop (left.length - 8)).length = 8 by omega)
      (show (right.drop (left.length - 8)).length = 8 by omega)
    by_cases hd : matchLenBytes (left.drop (left.length - 8)) (right.drop (left.length - 8)) < 8
    · rw [if_pos hd] at hword
      simp only [hword]
      omega
    · rw [if_neg hd] at hword
      simp only [hword]
      omega
  · rw [if_neg h8, if_neg h8]
    exact windowBytes_eq _ rfl hlen.symm (Nat.zero_le _) (by omega)

theorem matchLenWindows_eq (hS : S.Lanewise) (left right : List UInt8) :
    S.matchLenWindows left right = matchLenBytes left right :=
  scanWide_eq hS (fun _ _ _ hlen hm hend => lastWord_eq hlen hm hend) left right

theorem scanWindows_eq (hS : S.Lanewise) (left right : List UInt8) :
    S.scanWindows left right = matchLenBytes left right :=
  scanWide_eq hS (fun _ _ _ _ hm _ => (matchLenBytes_drop hm).symm) left right

theorem firstWord_eq {rest : List UInt8 → List UInt8 → ℕ}
    (hrest : ∀ left right, rest left right = matchLenBytes left right)
    (left cur : List UInt8) : Simd.firstWord rest left cur = matchLenBytes left cur := by
  rw [Simd.firstWord, firstChunk, firstChunk]
  by_cases hl : 8 ≤ left.length
  · by_cases hc : 8 ≤ cur.length
    · rw [if_pos hl, if_pos hc]
      dsimp only
      rw [wordDifference_finds _ _ (List.length_take_of_le hl) (List.length_take_of_le hc),
        matchLenBytes_take]
      by_cases hm : matchLenBytes left cur < 8
      · rw [if_pos (by omega)]
        show min 8 (matchLenBytes left cur) = _
        omega
      · rw [if_neg (by omega), hrest]
        exact (matchLenBytes_drop (Nat.le_of_not_lt hm)).symm
    · rw [if_pos hl, if_neg hc]
      exact hrest _ _
  · rw [if_neg hl]
    exact hrest _ _

theorem windowAt_eq_none {data : List UInt8} {ix : ℕ} (h : ¬ix + n ≤ data.length) :
    windowAt data ix n = none := if_neg h

theorem windowAt_eq_some {data : List UInt8} {ix : ℕ} (h : ix + n ≤ data.length) :
    windowAt data ix n = some ((data.drop ix).take n) := if_pos h

theorem matchLenAt_eq (hS : S.Lanewise) (data cur : List UInt8) (prevIx : ℕ) :
    S.matchLenAt data prevIx cur =
      if prevIx + cur.length ≤ data.length then matchLenBytes
      ((data.drop prevIx).take cur.length) cur else 0 := by
  rw [Simd.matchLenAt]
  by_cases h : prevIx + cur.length ≤ data.length
  · rw [if_pos h, windowAt_eq_some h]
    exact firstWord_eq (matchLenWindows_eq hS) _ _
  · rw [if_neg h, windowAt_eq_none h]

/-- Below `2 ^ 32` the masks change nothing. -/
theorem matchLenAtOutlined_eq {data cur : List UInt8} {prevIx : ℕ} (hp : prevIx < 2 ^ 32)
    (hc : cur.length < 2 ^ 32) :
    S.matchLenAtOutlined data prevIx cur = S.matchLenAt data prevIx cur := by
  rw [Simd.matchLenAtOutlined, Nat.mod_eq_of_lt hp, Nat.mod_eq_of_lt hc]
  rfl

theorem currentWindow_eq (data : List UInt8) {ix limit : ℕ} (hi : ix < 2 ^ 32)
    (hl : limit < 2 ^ 32) :
    currentWindow data ix limit = if ix + limit ≤ data.length
    then (data.drop ix).take limit else [] := by
  rw [currentWindow, Nat.mod_eq_of_lt hi, Nat.mod_eq_of_lt hl]
  by_cases h : ix + limit ≤ data.length
  · rw [if_pos h, windowAt_eq_some h]
    rfl
  · rw [if_neg h, windowAt_eq_none h]
    rfl

/-- The scalar kernel counts what the comparison byte by byte does. -/
theorem Words.commonPrefixLen_eq (left right : List UInt8) (limit : ℕ) :
    Words.commonPrefixLen left right limit =
    Mbrotli.Compressor.commonPrefixLen left right limit := by
  rw [Words.commonPrefixLen, Mbrotli.Compressor.commonPrefixLen, matchLenBytes_take]
  obtain ⟨h1, h2, -⟩ := matchLenBytes_spec left right
  set cut := min (min limit left.length) right.length with hcut
  have hl : (left.take cut).length = cut := List.length_take_of_le (by omega)
  have hr : (right.take cut).length = cut := List.length_take_of_le (by omega)
  have hall : min limit (matchLenBytes left right) =
      matchLenBytes (left.take cut) (right.take cut) := by
    rw [matchLenBytes_take]
    omega
  rw [hall]
  generalize left.take cut = left at hl hr ⊢
  generalize right.take cut = right at hl hr ⊢
  have hmatched : matchLenWords (left.take (cut / 8 * 8)) (right.take (cut / 8 * 8)) =
      min (matchLenBytes left right) (cut / 8 * 8) := by
    rw [matchLenWords_eq, matchLenBytes_take, List.length_take_of_le (by omega),
      List.length_take_of_le (by omega)]
    omega
  rw [hmatched]
  by_cases hm : matchLenBytes left right < cut / 8 * 8
  · rw [if_pos (by omega)]
    omega
  · rw [if_neg (by omega), matchLenBytes_drop (Nat.le_of_not_lt hm)]
    omega

theorem commonPrefixLenSimd_eq (hS : S.Lanewise) (left right : List UInt8) (limit : ℕ) :
    S.commonPrefixLenSimd left right limit = commonPrefixLen left right limit := by
  rw [Simd.commonPrefixLenSimd, scanWindows_eq hS, commonPrefixLen, matchLenBytes_take,
    matchLenBytes_take]
  obtain ⟨h1, h2, -⟩ := matchLenBytes_spec left right
  omega

theorem Simd.findMatchLength_eq (hS : S.Lanewise) (data : List UInt8) (left right limit : ℕ) :
    S.findMatchLength data left right limit =
    Mbrotli.Compressor.findMatchLength data left right limit := by
  rw [Simd.findMatchLength, Mbrotli.Compressor.findMatchLength]
  by_cases hin : left ≤ data.length ∧ right ≤ data.length
  · rw [if_pos hin]
    dsimp only
    by_cases hfit : limit ≤ (data.drop left).length ∧ limit ≤ (data.drop right).length
    · rw [if_neg (by omega), if_pos hfit, scanWindows_eq hS]
      rfl
    · rw [if_pos (by omega), if_neg hfit]
  · rw [if_neg hin]
    by_cases hfit : limit ≤ (data.drop left).length ∧ limit ≤ (data.drop right).length
    · -- a place past the end leaves room for no byte
      have hzero : limit = 0 := by
        rw [List.length_drop, List.length_drop] at hfit
        omega
      rw [if_pos hfit, hzero]
      rfl
    · rw [if_neg hfit]

/-- The counts `k`, `limit` at most, for which both windows have `k` bytes and these
agree. -/
def Agreeing (left right : List UInt8) (limit : ℕ) : Set ℕ :=
  {k | k ≤ limit ∧ k ≤ left.length ∧ k ≤ right.length ∧ left.take k = right.take k}

theorem commonPrefixLen_isGreatest (left right : List UInt8) (limit : ℕ) :
    IsGreatest (Agreeing left right limit) (commonPrefixLen left right limit) := by
  obtain ⟨h1, h2, hsame⟩ := matchLenBytes_spec left right
  rw [commonPrefixLen, matchLenBytes_take]
  constructor
  · refine ⟨Nat.min_le_left _ _, by omega, by omega, ?_⟩
    apply List.ext_getElem?
    intro i
    rw [List.getElem?_take, List.getElem?_take]
    by_cases hi : i < min limit (matchLenBytes left right)
    · rw [if_pos hi, if_pos hi, hsame i (by omega)]
    · rw [if_neg hi, if_neg hi]
  · rintro k ⟨hk, hl, hr, htake⟩
    by_contra hlt
    have hm : matchLenBytes left right < k := by omega
    have hm' : matchLenBytes (left.take k) (right.take k) = k := by
      refine matchLenBytes_eq (by rw [List.length_take]; omega) (by rw [List.length_take]; omega)
        (fun i _ => by rw [htake]) (.inr (.inl ?_))
      rw [List.length_take]
      omega
    rw [matchLenBytes_take] at hm'
    omega

theorem matchLenBytes_isGreatest (left right : List UInt8) :
    IsGreatest (Agreeing left right (min left.length right.length)) (matchLenBytes left right) := by
  have h := commonPrefixLen_isGreatest left right (min left.length right.length)
  obtain ⟨h1, h2, -⟩ := matchLenBytes_spec left right
  rwa [commonPrefixLen, matchLenBytes_take, Nat.min_eq_right (Nat.le_min.2 ⟨h1, h2⟩)] at h

theorem agreeing_take (left right : List UInt8) (limit : ℕ) :
    Agreeing (left.take limit) (right.take limit) limit = Agreeing left right limit := by
  ext k
  constructor
  · rintro ⟨hk, hl, hr, htake⟩
    rw [List.length_take] at hl hr
    rw [List.take_take, List.take_take, Nat.min_eq_left hk] at htake
    exact ⟨hk, by omega, by omega, htake⟩
  · rintro ⟨hk, hl, hr, htake⟩
    refine ⟨hk, by rw [List.length_take]; omega, by rw [List.length_take]; omega, ?_⟩
    rw [List.take_take, List.take_take, Nat.min_eq_left hk, htake]

/-- The candidate's window need not be cut for the count to be the greatest one. -/
theorem matchLenAt_isGreatest (hS : S.Lanewise) (data cur : List UInt8) {prevIx : ℕ}
    (h : prevIx + cur.length ≤ data.length) :
    IsGreatest (Agreeing (data.drop prevIx) cur cur.length) (S.matchLenAt data prevIx cur) := by
  rw [matchLenAt_eq hS, if_pos h]
  have hlen : ((data.drop prevIx).take cur.length).length = cur.length :=
    List.length_take_of_le (by rw [List.length_drop]; omega)
  have hgreat := matchLenBytes_isGreatest ((data.drop prevIx).take cur.length) cur
  rw [hlen, Nat.min_self] at hgreat
  rw [← agreeing_take, List.take_length]
  exact hgreat

/-- **Word and vector match lengths are exact.** At every level of the vector library
each kernel gives the greatest count of bytes, the limit at most, that its two windows
agree in, and the kernels that take places of a buffer give zero where a window does not
fit it. -/
theorem matchLengths_exact {S : Simd} (hS : S.Lanewise) (data : List UInt8) (prevIx curIx limit : ℕ)
    (hprev : prevIx < 2 ^ 32) (hcur : curIx < 2 ^ 32) (hlimit : limit < 2 ^ 32) :
    (prevIx + limit ≤ data.length → curIx + limit ≤ data.length →
      IsGreatest (Agreeing (data.drop prevIx) (data.drop curIx) limit)
        (S.matchLenAt data prevIx (currentWindow data curIx limit)) ∧
      IsGreatest (Agreeing (data.drop prevIx) (data.drop curIx) limit)
        (S.matchLenAtOutlined data prevIx (currentWindow data curIx limit)) ∧
      IsGreatest (Agreeing (data.drop prevIx) (data.drop curIx) limit)
      (S.findMatchLength data prevIx curIx limit)) ∧
    (¬(prevIx + limit ≤ data.length ∧ curIx + limit ≤ data.length) →
      S.matchLenAt data prevIx (currentWindow data curIx limit) = 0 ∧
      S.matchLenAtOutlined data prevIx (currentWindow data curIx limit) = 0 ∧
      S.findMatchLength data prevIx curIx limit = 0) ∧
    (∀ cur : List UInt8, cur.length < 2 ^ 32 →
      (prevIx + cur.length ≤ data.length →
        IsGreatest (Agreeing (data.drop prevIx) cur cur.length) (S.matchLenAt data prevIx cur) ∧
        IsGreatest (Agreeing (data.drop prevIx) cur cur.length)
        (S.matchLenAtOutlined data prevIx cur)) ∧
      (data.length < prevIx + cur.length → S.matchLenAt data prevIx cur = 0 ∧
        S.matchLenAtOutlined data prevIx cur = 0)) ∧
    ∀ left right : List UInt8,
      IsGreatest (Agreeing left right (min left.length right.length))
      (S.matchLenWindows left right) ∧
      IsGreatest (Agreeing left right limit) (Words.commonPrefixLen left right limit) ∧
      IsGreatest (Agreeing left right limit) (S.commonPrefixLenSimd left right limit) := by
  have hwindow := currentWindow_eq data hcur hlimit
  refine ⟨fun hp hc => ?_, fun hout => ?_, fun cur hlen => ⟨fun hfit => ?_, fun hout => ?_⟩,
    fun left right => ⟨?_, ?_, ?_⟩⟩
  · rw [if_pos hc] at hwindow
    have hlen : ((data.drop curIx).take limit).length = limit :=
      List.length_take_of_le (by rw [List.length_drop]; omega)
    rw [hwindow, matchLenAtOutlined_eq hprev (by omega)]
    have hat : IsGreatest (Agreeing (data.drop prevIx) (data.drop curIx) limit)
        (S.matchLenAt data prevIx ((data.drop curIx).take limit)) := by
      have h :=
        matchLenAt_isGreatest hS data ((data.drop curIx).take limit) (show prevIx + _ ≤ _ by omega)
      rwa [hlen, ← agreeing_take, List.take_take, Nat.min_self, agreeing_take] at h
    refine ⟨hat, hat, ?_⟩
    rw [Simd.findMatchLength_eq hS, findMatchLength, if_pos]
    · exact commonPrefixLen_isGreatest _ _ _
    · rw [List.length_drop, List.length_drop]
      omega
  · have hzero : S.matchLenAt data prevIx (currentWindow data curIx limit) = 0 := by
      rw [matchLenAt_eq hS, hwindow]
      by_cases hc : curIx + limit ≤ data.length
      · rw [if_pos hc, List.length_take_of_le (by rw [List.length_drop]; omega), if_neg (by omega)]
      · rw [if_neg hc, List.length_nil, List.take_zero, matchLenBytes, ite_self]
        rintro _ _ _ _ h
        simp at h
    have hlen : (currentWindow data curIx limit).length < 2 ^ 32 := by
      rw [hwindow]
      by_cases hc : curIx + limit ≤ data.length
      · rw [if_pos hc, List.length_take]
        omega
      · rw [if_neg hc]
        decide
    refine ⟨hzero, (matchLenAtOutlined_eq hprev hlen).trans hzero, ?_⟩
    rw [Simd.findMatchLength_eq hS, findMatchLength]
    by_cases hfit : limit ≤ (data.drop prevIx).length ∧ limit ≤ (data.drop curIx).length
    · rw [List.length_drop, List.length_drop] at hfit
      rw [show limit = 0 by omega]
      simp [commonPrefixLen, matchLenBytes]
    · rw [if_neg hfit]
  · rw [matchLenAtOutlined_eq hprev hlen]
    exact ⟨matchLenAt_isGreatest hS data cur hfit, matchLenAt_isGreatest hS data cur hfit⟩
  · rw [matchLenAtOutlined_eq hprev hlen, matchLenAt_eq hS, if_neg (by omega)]
    exact ⟨rfl, rfl⟩
  · rw [matchLenWindows_eq hS]
    exact matchLenBytes_isGreatest left right
  · rw [Words.commonPrefixLen_eq]
    exact commonPrefixLen_isGreatest left right limit
  · rw [commonPrefixLenSimd_eq hS]
    exact commonPrefixLen_isGreatest left right limit

/-- The comparison lane by lane, its mask a list of booleans. -/
def Simd.portable (lanes : ℕ) : Simd where
  lanes := lanes
  Mask := List Bool
  simdEq _ x y := List.zipWith (fun a b => decide (a = b)) x y
  anyFalse mask := mask.any not
  toBitmask mask := BitVec.ofNat 64 (toNat mask)

theorem Simd.portable_lane {x y : List UInt8} {i : ℕ} (hx : x.length = n) (hy : y.length = n)
    (hi : i < n) :
    (List.zipWith (fun a b => decide (a = b)) x y)[i]? = some (decide (x[i]? = y[i]?)) := by
  rw [List.getElem?_zipWith, List.getElem?_eq_getElem (by omega),
    List.getElem?_eq_getElem (by omega)]
  simp

theorem Simd.portable_lanewise (lanes : ℕ) : (Simd.portable lanes).Lanewise where
  anyFalse_iff := by
    intro n x y _ hx hy
    show ((List.zipWith (fun a b => decide (a = b)) x y).any not = true) ↔ _
    rw [List.any_eq_true]
    constructor
    · rintro ⟨b, hb, hfalse⟩
      obtain ⟨i, hi, hget⟩ := List.mem_iff_getElem.1 hb
      rw [List.length_zipWith] at hi
      have hlane := Simd.portable_lane (i := i) hx hy (by omega)
      rw [List.getElem?_eq_getElem (by rw [List.length_zipWith]; exact hi), hget,
        Option.some.injEq] at hlane
      refine ⟨i, by omega, ?_⟩
      intro he
      rw [hlane, decide_eq_true he] at hfalse
      exact Bool.false_ne_true hfalse
    · rintro ⟨i, hi, hne⟩
      have hlane := Simd.portable_lane (i := i) hx hy hi
      rw [decide_eq_false hne] at hlane
      exact ⟨false, List.mem_of_getElem? hlane, rfl⟩
  bitmask := by
    intro n i x y hn hx hy hi
    show (BitVec.ofNat 64 (toNat (List.zipWith (fun a b => decide (a = b)) x y))).getLsbD i = _
    rw [BitVec.getLsbD_ofNat, decide_eq_true (by omega), Bool.true_and, testBit_toNat,
      List.getD_eq_getElem?_getD,
      Simd.portable_lane hx hy hi]
    rfl

/-- A run of forty equal bytes against itself moved by one byte, which the last word of
the scan decides. -/
theorem matchLengths_exact_overlapping :
    IsGreatest (Agreeing ((List.replicate 40 7).drop 0) ((List.replicate 40 7).drop 1) 39) 39 := by
  have h :=
    ((matchLengths_exact (Simd.portable_lanewise 16) (List.replicate 40 7) 0 1 39 (by decide)
      (by decide) (by decide)).1 (by decide) (by decide)).1
  have hrun : (Simd.portable 16).matchLenAt (List.replicate 40 7) 0
      (currentWindow (List.replicate 40 7) 1 39) = 39 := by
    decide +kernel
  rwa [hrun] at h

end Mbrotli.Compressor
