/-
# Every static-dictionary word at one position

The exhaustive search looks the first bytes up, behind each of the prefixes it knows,
and adds every transformed word that the bytes spell: the smallest packed address and
length code of each length. Which suffixes follow a word, and which transform each of
them is, is written as the nested matches of the source, arm by arm (`Arms`).

What is added is what the decoder expands: every arm names the transform whose suffix is
the bytes on the way to it (`Arms.Names`, checked by evaluation against the built-in
table), and every word that is added keeps `Kept`.

Key definitions: `Arms`, `isMatch`, `findAll`, `Expands`, `Kept`.
Key theorems: `Arms.taken_names`, `isMatch_spells`, `Kept.add`, `findAll_kept`.
-/
import Mbrotli.Decompressor.Core.Dictionary
import Mbrotli.Decompressor.Core.Bits
import Mbrotli.Shared.MatchLen
import Mathlib.Tactic.IntervalCases

namespace Mbrotli.StaticDictionary

open Compressor (commonPrefixLen commonPrefixLen_spec)

/-- No word of this length matched. -/
def invalidMatch : ℕ := 0x0FFFFFFF

def maxStaticDictionaryMatchLen : ℕ := 37

def hashMul32 : ℕ := 0x1E35A7BD

def transformUppercaseFirst : ℕ := 10

/-- The transform of each cut, six bits a cut. -/
def cutoffTransforms : ℕ := 0x071B520ADA2D3200

def cutoffTransformsCount : ℕ := 10

/-- The transform that leaves the last `cut` bytes out. -/
def cutoffTransform (cut : ℕ) : ℕ := (cut <<< 2) + ((cutoffTransforms >>> (cut * 6)) &&& 0x3F)

/-- The embedded tables: the words, the bucket heads and the word entries. -/
structure Tables where
  builtinWords : ℕ → UInt8
  buckets : ℕ → UInt8
  wordItems : List UInt8

/-- One entry of the word lookup. -/
structure DictWord where
  len : ℕ
  transform : ℕ
  idx : ℕ
  last : Bool

namespace Tables

def item (t : Tables) (index : ℕ) : Option DictWord :=
  match t.wordItems.drop (4 * index) with
  | head :: transform :: low :: high :: _ =>
      some ⟨(head &&& 0x1F).toNat, transform.toNat,
        low.toNat + high.toNat * 2 ^ 8, head &&& 0x80 ≠ 0⟩
  | _ => none

/-- The bucket of the first four bytes. -/
def hash15 (data : List UInt8) : ℕ :=
  let word := if 4 ≤ data.length then Bits.leWord (data.take 4) else 0
  (word * hashMul32 % 2 ^ 32) >>> (32 - 15)

/-- The head of a bucket; an empty one is zero. A hash of fifteen bits never leaves the
table. -/
def bucketHead (t : Tables) (data : List UInt8) : Option ℕ :=
  let bucket := hash15 data
  let offset := (t.buckets (2 * bucket)).toNat + (t.buckets (2 * bucket + 1)).toNat * 2 ^ 8
  if offset ≠ 0 then some offset else none

/-- The bytes of a word. -/
def word (t : Tables) (len idx : ℕ) : Option (List UInt8) :=
  match builtinOffsetsByLength[len]? with
  | none => none
  | some start =>
    let offset := start + len * idx
    if offset + len ≤ 122784 then some ((List.range len).map fun i => t.builtinWords (offset + i))
      else none

end Tables

def wordsOfLength (len : ℕ) : ℕ :=
  match builtinSizeBitsByLength[len]? with
  | some bits => 2 ^ bits
  | none => 0

/-- The smallest packed word of each length. -/
def addMatch (distance len lenCode : ℕ) (matches_ : List ℕ) : List ℕ :=
  let packed := (distance <<< 5) % 2 ^ 32 + lenCode
  matches_.modify len fun slot => min slot packed

def dictMatchLength (t : Tables) (data : List UInt8) (id len maxlen : ℕ) : ℕ :=
  match t.word len id with
  | some word => commonPrefixLen word data (min len maxlen)
  | none => 0

/-- A lowercase letter in upper case, any other byte as it is. -/
def upper (byte : UInt8) : UInt8 := if 97 ≤ byte ∧ byte ≤ 122 then byte ^^^ 32 else byte

/-- The transformed word is at the start of the bytes. -/
def isMatch (t : Tables) (w : DictWord) (data : List UInt8) (maxLength : ℕ) : Bool :=
  if maxLength < w.len then false
  else
    match t.word w.len w.idx with
    | none => false
    | some dict =>
      if w.transform = 0 then commonPrefixLen dict data w.len = w.len
      else if w.transform = transformUppercaseFirst then
        match dict, data with
        | first :: dict, target :: data =>
          decide (97 ≤ first ∧ first ≤ 122) && (first ^^^ 32 == target) &&
            (commonPrefixLen dict data (w.len - 1) == w.len - 1)
        | _, _ => false
      else ((dict.zip data).take w.len).all fun q => upper q.1 == q.2

/-- The arms of nested matches on the bytes that follow a word: the byte an arm asks for,
what it adds (the transform and the bytes added), the arms under it and the next arm. -/
inductive Arms where
  | none
  | arm (byte : UInt8) (adds : List (ℕ × ℕ)) (inner next : Arms)

namespace Arms

/-- One match, arm by arm. -/
def ofList : List (UInt8 × List (ℕ × ℕ) × Arms) → Arms
  | [] => none
  | (byte, adds, inner) :: rest => arm byte adds inner (ofList rest)

/-- An arm that nothing is under. -/
def leaf (byte : UInt8) (transform added : ℕ) : UInt8 × List (ℕ × ℕ) × Arms :=
  (byte, [(transform, added)], none)

/-- Bytes that are asked for one after the other, with one addition at the end. -/
def chain : List UInt8 → ℕ → ℕ → Arms
  | [], _, _ => none
  | [byte], transform, added => ofList [leaf byte transform added]
  | byte :: bytes, transform, added => ofList [(byte, [], chain bytes transform added)]

/-- What the bytes make the arms add. A byte past the end reads as zero. -/
def taken : Arms → List UInt8 → List (ℕ × ℕ)
  | none, _ => []
  | arm byte adds inner next, s => if s.headD 0 = byte then adds ++ inner.taken s.tail
      else next.taken s

end Arms

open Arms in
/-- The suffixes of a word as it is. -/
def identitySuffix : Arms :=
  ofList [
    (32, [(1, 1)], ofList [
      (97, [], ofList [
        leaf 32 28 3,
        (115, [], chain [32] 46 4),
        (116, [], chain [32] 60 4),
        (110, [], chain [100, 32] 10 5)]),
      (98, [], chain [121, 32] 38 4),
      (105, [], ofList [
        (110, [], chain [32] 16 4),
        (115, [], chain [32] 47 4)]),
      (102, [], ofList [
        (111, [], chain [114, 32] 25 5),
        (114, [], chain [111, 109, 32] 37 6)]),
      (111, [], ofList [
        (102, [], chain [32] 8 4),
        (110, [], chain [32] 45 4)]),
      (110, [], chain [111, 116, 32] 80 5),
      (116, [], ofList [
        (104, [], ofList [
          (101, [], chain [32] 5 5),
          (97, [], chain [116, 32] 29 6)]),
        (111, [], chain [32] 17 4)]),
      (119, [], chain [105, 116, 104, 32] 35 6)]),
    (34, [(19, 1)], chain [62] 21 2),
    (46, [(20, 1)], ofList [
      (32, [(31, 2)], ofList [
        (84, [], ofList [
          (104, [], ofList [
            (101, [], chain [32] 43 6),
            (105, [], chain [115, 32] 75 7)])])])]),
    (44, [(76, 1)], chain [32] 14 2),
    (10, [(22, 1)], chain [9] 50 2),
    leaf 93 24 1,
    leaf 39 36 1,
    leaf 58 51 1,
    leaf 40 57 1,
    (61, [], ofList [leaf 34 70 2, leaf 39 86 2]),
    (97, [], chain [108, 32] 84 3),
    (101, [], ofList [
      (100, [], chain [32] 53 3),
      (114, [], chain [32] 82 3),
      (115, [], chain [116, 32] 95 4)]),
    (102, [], chain [117, 108, 32] 90 4),
    (105, [], ofList [
      (118, [], chain [101, 32] 92 4),
      (122, [], chain [101, 32] 100 4)]),
    (108, [], ofList [
      (101, [], chain [115, 115, 32] 93 5),
      (121, [], chain [32] 61 3)]),
    (111, [], chain [117, 115, 32] 106 4)]

open Arms in
/-- The suffixes of a word in upper case. -/
def uppercaseSuffix (isAllCaps : Bool) : Arms :=
  let pick := fun caps plain : ℕ => if isAllCaps then caps else plain
  ofList [
    leaf 32 (pick 68 4) 1,
    (34, [(pick 87 66, 1)], chain [62] (pick 97 69) 2),
    (46, [(pick 101 79, 1)], chain [32] (pick 114 88) 2),
    (44, [(pick 112 99, 1)], chain [32] (pick 107 58) 2),
    leaf 39 (pick 94 74) 1,
    leaf 40 (pick 113 78) 1,
    (61, [], ofList [leaf 34 (pick 105 104) 2, leaf 39 (pick 116 108) 2])]

open Arms in
/-- The suffixes of a word behind a space or a dot. -/
def spacedSuffix (isSpace : Bool) : Arms :=
  ofList ([
    leaf 32 (if isSpace then 2 else 77) 2,
    leaf 40 (if isSpace then 89 else 67) 2] ++
    if isSpace then [
      (44, [(103, 2)], chain [32] 33 3),
      (46, [(71, 2)], chain [32] 52 3),
      (61, [], ofList [leaf 34 81 3, leaf 39 98 3])]
    else [])

open Arms in
/-- The suffixes of a word in upper case behind a space. -/
def spacedUppercaseSuffix (isAllCaps : Bool) : Arms :=
  let pick := fun caps plain : ℕ => if isAllCaps then caps else plain
  ofList [
    leaf 32 (pick 83 15) 2,
    (44, if isAllCaps then [] else [(109, 2)], chain [32] (pick 111 65) 3),
    (46, [(pick 115 96, 2)], chain [32] (pick 117 91) 3),
    (61, [], ofList [leaf 34 (pick 110 118) 3, leaf 39 (pick 119 120) 3])]

/-- What a search has found: whether anything matched, and the matches. -/
structure Found where
  found : Bool
  table : List ℕ

/-- Adds a transformed word, which counts as found. -/
def Found.add (f : Found) (w : DictWord) (transform length : ℕ) : Found :=
  ⟨true, addMatch (w.idx + transform * wordsOfLength w.len) length w.len f.table⟩

/-- Adds what the bytes after a word make its arms add. -/
def Found.addSuffixes (f : Found) (w : DictWord) (arms : Arms) (s : List UInt8) : Found :=
  (arms.taken s).foldl (fun f a => f.add w a.1 (w.len + a.2)) f

/-- The entries of a bucket, up to the last one; `fuel` is more than there are. -/
def eachItem (t : Tables) (visit : DictWord → Found → Found) : ℕ → ℕ → Found → Found
  | 0, _, f => f
  | fuel + 1, offset, f =>
    match t.item offset with
    | none => f
    | some w => if w.last then visit w f else eachItem t visit fuel (offset + 1) (visit w f)

def eachOf (t : Tables) (visit : DictWord → Found → Found) (data : List UInt8) (f : Found) :
    Found :=
  match t.bucketHead data with
  | none => f
  | some offset => eachItem t visit (t.wordItems.length + 1) offset f

/-- The omissions of two to nine bytes at the end of a word. -/
def omissions (minLength matchlen l : ℕ) : List ℕ :=
  let minlen := if 9 < l then max minLength (l - 9) else minLength
  let maxlen := min matchlen (l - 2)
  List.range' minlen (maxlen + 1 - minlen)

/-- One word at the start of the bytes, with its suffixes. -/
def plainAndUppercase (t : Tables) (data : List UInt8) (minLength maxLength : ℕ) (w : DictWord)
    (f : Found) : Found :=
  let l := w.len
  if w.transform = 0 then
    let matchlen := dictMatchLength t data w.idx l maxLength
    let f := if matchlen = l then f.add w 0 l else f
    let f :=
      if l ≤ matchlen + 1 then
        let f := f.add w 12 (l - 1)
        if l + 2 < maxLength ∧ data[l - 1]? = some 105 ∧ data[l]? = some 110 ∧
          data[l + 1]? = some 103 ∧ data[l + 2]? = some 32 then
          f.add w 49 (l + 3)
        else f
      else f
    let f :=
      (omissions minLength matchlen l).foldl (fun f len => f.add w (cutoffTransform (l - len)) len)
        f
    if matchlen < l ∨ maxLength ≤ l + 6 then f else f.addSuffixes w identitySuffix (data.drop l)
  else
    let isAllCaps := decide (w.transform ≠ transformUppercaseFirst)
    if isMatch t w data maxLength then
      let f := f.add w (if isAllCaps then 44 else 9) l
      if maxLength ≤ l + 1 then f else f.addSuffixes w (uppercaseSuffix isAllCaps) (data.drop l)
    else f

/-- One word behind a space or a dot. -/
def spaceOrDotPrefix (t : Tables) (data : List UInt8) (maxLength : ℕ) (isSpace : Bool)
    (w : DictWord) (f : Found) : Found :=
  let l := w.len
  if w.transform = 0 then
    if isMatch t w (data.drop 1) (maxLength - 1) then
      let f := f.add w (if isSpace then 6 else 32) (l + 1)
      if maxLength ≤ l + 2 then f else f.addSuffixes w (spacedSuffix isSpace) (data.drop (l + 1))
    else f
  else if isSpace then
    let isAllCaps := decide (w.transform ≠ transformUppercaseFirst)
    if isMatch t w (data.drop 1) (maxLength - 1) then
      let f := f.add w (if isAllCaps then 85 else 30) (l + 1)
      if maxLength ≤ l + 2 then f else f.addSuffixes w (spacedUppercaseSuffix isAllCaps)
        (data.drop (l + 1))
    else f
  else f

/-- One word behind two bytes. -/
def twoBytePrefix (t : Tables) (data : List UInt8) (maxLength : ℕ) (w : DictWord) (f : Found) :
    Found :=
  let l := w.len
  if w.transform = 0 ∧ isMatch t w (data.drop 2) (maxLength - 2) then
    if data.getD 0 0 = 0xC2 then f.add w 102 (l + 2)
    else if l + 2 < maxLength ∧ data.getD (l + 2) 0 = 32 then
      f.add w (if data.getD 0 0 = 101 then 18 else if data.getD 0 0 = 115 then 7 else 13) (l + 3)
    else f
  else f

/-- One word behind five bytes. -/
def longPrefix (t : Tables) (data : List UInt8) (maxLength : ℕ) (isThe : Bool) (w : DictWord)
    (f : Found) : Found :=
  let l := w.len
  if w.transform = 0 ∧ isMatch t w (data.drop 5) (maxLength - 5) then
    let f := f.add w (if isThe then 41 else 72) (l + 5)
    if l + 5 < maxLength ∧ isThe then
      let s := data.drop (l + 5)
      if l + 8 < maxLength ∧ s.getD 0 0 = 32 ∧ s.getD 1 0 = 111 ∧ s.getD 2 0 = 102 ∧ s.getD 3 0 = 32
        then
        let f := f.add w 62 (l + 9)
        if l + 12 < maxLength ∧ s.getD 4 0 = 116 ∧ s.getD 5 0 = 104 ∧ s.getD 6 0 = 101 ∧
          s.getD 7 0 = 32 then f.add w 73 (l + 13) else f
      else f
    else f
  else f

/-- Fills the table with the best dictionary word at every length. -/
def findAll (t : Tables) (data : List UInt8) (minLength maxLength : ℕ) (table : List ℕ) : Found :=
  let f := eachOf t (plainAndUppercase t data minLength maxLength) data ⟨false, table⟩
  let first := data.headD 0
  let f :=
    if maxLength < 5 ∨ (first ≠ 32 ∧ first ≠ 46) then f
    else eachOf t (spaceOrDotPrefix t data maxLength (first = 32)) (data.drop 1) f
  let ascii := data.getD 1 0 = 32 ∧ (data.getD 0 0 = 101 ∨ data.getD 0 0 = 115 ∨ data.getD 0 0 = 44)
  let nbsp := data.getD 0 0 = 0xC2 ∧ data.getD 1 0 = 0xA0
  let f :=
    if maxLength < 6 ∨ ¬(ascii ∨ nbsp) then f
    else eachOf t (twoBytePrefix t data maxLength) (data.drop 2) f
  let isThe := data.getD 0 0 = 32 ∧ data.getD 1 0 = 116 ∧ data.getD 2 0 = 104 ∧
    data.getD 3 0 = 101 ∧ data.getD 4 0 = 32
  let isCom := data.getD 0 0 = 46 ∧ data.getD 1 0 = 99 ∧ data.getD 2 0 = 111 ∧ data.getD 3 0 = 109 ∧
    data.getD 4 0 = 47
  if maxLength < 9 ∨ ¬(isThe ∨ isCom) then f
  else eachOf t (longPrefix t data maxLength (decide isThe)) (data.drop 5) f

deriving instance DecidableEq for Transform

/-! ### The built-in transforms, looked up directly -/

/-- Where the prefixes and suffixes start. -/
def stringletOffsets : List ℕ :=
  [0, 2, 5, 14, 19, 22, 24, 30, 35, 37, 42, 45, 47, 50, 52, 58, 62, 69, 71, 78, 85, 90, 92, 99,
    104, 109, 114,
   119, 122, 124, 128, 131, 136, 140, 142, 145, 151, 159, 165, 169, 173, 178, 183, 189, 194, 199,
   202, 207, 213,
   216]

def stringletAt (id : ℕ) : List UInt8 :=
  let start := stringletOffsets.getD id 0
  (strings.drop (start + 1)).take (strings.getD start 0).toNat

def builtinAt (index : ℕ) : Option Transform :=
  match triples.drop (index * 3) with
  | pre :: operation :: suffix :: _ => some ⟨stringletAt pre, operation, stringletAt suffix, 0⟩
  | _ => none

theorem offsets_checked : (∀ id < 49, stringletOffsets.getD (id + 1) 0 =
    stringletOffsets.getD id 0 + (strings.getD (stringletOffsets.getD id 0) 0).toNat + 1) ∧
    ∀ id ∈ triples, id < 50 := by
  decide +kernel

theorem stringletOffset_eq {id : ℕ} (h : id < 50) :
    Transform.stringletOffset id = stringletOffsets.getD id 0 := by
  induction id with
  | zero => rfl
  | succ id ih => rw [Transform.stringletOffset, ih (by omega), offsets_checked.1 id (by omega)]

theorem stringlet_eq {id : ℕ} (h : id < 50) : Transform.stringlet id = stringletAt id := by
  rw [Transform.stringlet, stringletAt, stringletOffset_eq h]

theorem builtin_of_at {index : ℕ} {tr : Transform} (h : builtinAt index = some tr) :
    Transform.builtin index = some tr := by
  have hmem : ∀ id ∈ triples.drop (index * 3), id < 50 :=
    fun id hid => offsets_checked.2 id (List.mem_of_mem_drop hid)
  rw [builtinAt] at h
  rw [Transform.builtin]
  generalize triples.drop (index * 3) = entries at h hmem ⊢
  split at h
  · next pre operation suffix rest =>
    rw [← h]
    show some (⟨Transform.stringlet pre, operation, Transform.stringlet suffix, 0⟩ : Transform) =
      some ⟨stringletAt pre, operation, stringletAt suffix, 0⟩
    rw [stringlet_eq (hmem pre List.mem_cons_self),
      stringlet_eq
      (hmem suffix (List.mem_cons_of_mem _ (List.mem_cons_of_mem _ List.mem_cons_self)))]
  · cases h

/-! ### What an entry means -/

/-- The bytes of an entry's word. -/
def DictWord.dict (t : Tables) (w : DictWord) : List UInt8 :=
  (List.range w.len).map fun i =>
    t.builtinWords (builtinOffsetsByLength.getD w.len 0 + w.idx * w.len + i)

/-- The word as its entry has it: plain, or in upper case. -/
def DictWord.body (t : Tables) (w : DictWord) : List UInt8 :=
  (⟨[], w.transform, [], 0⟩ : Transform).apply (w.dict t)

/-- An entry of the lookup as its accessors expect it: the word exists, and only words of
single-byte characters are put in upper case as a whole. -/
structure Entry (t : Tables) (w : DictWord) : Prop where
  len_ge : 4 ≤ w.len
  len_le : w.len ≤ 24
  idx_lt : w.idx < wordsOfLength w.len
  operation : w.transform = 0 ∨ w.transform = 10 ∨ w.transform = 11
  plain : w.transform = 11 → ∀ byte ∈ w.dict t, byte < 0xC0

/-- A packed word is what the decoder expands to the first `l` bytes. -/
structure Expands (t : Tables) (data : List UInt8) (address lenCode l : ℕ) : Prop where
  len_ge : 4 ≤ lenCode
  len_le : lenCode ≤ 24
  address_lt : address < 121 * wordsOfLength lenCode
  decodes : ∀ env : Env, env.program.builtinWords = t.builtinWords →
    env.builtinWord address lenCode = .ok (data.take l)

/-- Every entry of the table is a true reference, as far as the bytes go. -/
def Kept (t : Tables) (data : List UInt8) (table : List ℕ) : Prop :=
  ∀ l e, table[l]? = some e → e < invalidMatch → l ≤ data.length →
    Expands t data (e >>> 5) (e % 32) l

variable {t : Tables} {w : DictWord} {data : List UInt8}

/-- The shape of the built-in dictionary at one length. -/
theorem length_shape {l : ℕ} (hge : 4 ≤ l) (hle : l ≤ 24) :
    ∃ bits, builtinSizeBitsByLength[l]? = some bits ∧ bits ≤ 11 ∧
      builtinOffsetsByLength[l]? = some (builtinOffsetsByLength.getD l 0) ∧
      builtinOffsetsByLength.getD l 0 + l * 2 ^ bits ≤ 122784 := by
  interval_cases l <;> exact ⟨_, rfl, by decide, rfl, by decide⟩

theorem Entry.word_eq (hw : Entry t w) : t.word w.len w.idx = some (w.dict t) := by
  obtain ⟨bits, hbits, -, hoffset, hfits⟩ := length_shape hw.len_ge hw.len_le
  have hidx := hw.idx_lt
  rw [wordsOfLength, hbits] at hidx
  dsimp only at hidx
  have hprod : w.len * w.idx + w.len ≤ w.len * 2 ^ bits := by
    rw [← Nat.mul_succ]
    exact Nat.mul_le_mul_left _ hidx
  rw [Tables.word, hoffset]
  dsimp only
  rw [if_pos (by omega), DictWord.dict, Nat.mul_comm w.len w.idx]

theorem DictWord.length_dict (t : Tables) (w : DictWord) : (w.dict t).length = w.len := by
  rw [dict, List.length_map, List.length_range]

/-- A word that is cut and put between a prefix and a suffix. -/
theorem apply_around (pre suffix word : List UInt8) (operation : ℕ) :
    (⟨pre, operation, suffix, 0⟩ : Transform).apply word =
    pre ++ (⟨[], operation, [], 0⟩ : Transform).apply word ++ suffix := by
  simp only [Transform.apply, List.nil_append, List.append_nil]

theorem apply_omit (word : List UInt8) {cut : ℕ} (h : cut ≤ 9) :
    (⟨[], cut, [], 0⟩ : Transform).apply word = word.take (word.length - cut) := by
  simp only [Transform.apply, List.nil_append, List.append_nil]
  rw [if_pos h, if_neg (by omega), if_neg (by omega)]

theorem apply_first (word : List UInt8) :
    (⟨[], 10, [], 0⟩ : Transform).apply word = Transform.ferment false word.length 0 word := by
  simp [Transform.apply]

theorem apply_all (word : List UInt8) :
    (⟨[], 11, [], 0⟩ : Transform).apply word = Transform.ferment true word.length 0 word := by
  simp [Transform.apply]

theorem Entry.length_body (hw : Entry t w) : (w.body t).length = w.len := by
  have hlen := w.length_dict t
  rw [DictWord.body]
  rcases hw.operation with h | h | h <;> rw [h]
  · rw [apply_omit _ (Nat.zero_le _), List.length_take, hlen]
    omega
  · rw [apply_first, Transform.ferment_length, hlen]
  · rw [apply_all, Transform.ferment_length, hlen]

theorem Entry.address_lt (hw : Entry t w) {transform : ℕ} (hlt : transform < 121) :
    w.idx + transform * wordsOfLength w.len < 121 * wordsOfLength w.len := by
  have hidx := hw.idx_lt
  have := Nat.mul_le_mul_right (wordsOfLength w.len) hlt
  rw [Nat.succ_mul] at this
  omega

/-- The address of a word and a transform is what the decoder takes apart again. -/
theorem Entry.expands (hw : Entry t w) {transform length : ℕ} {tr : Transform}
    (htr : Transform.builtin transform = some tr)
    (hlt : transform < 121) (happly : tr.apply (w.dict t) = data.take length) :
    Expands t data (w.idx + transform * wordsOfLength w.len) w.len length := by
  obtain ⟨bits, hbits, -, hoffset, -⟩ := length_shape hw.len_ge hw.len_le
  refine ⟨hw.len_ge, hw.len_le, hw.address_lt hlt, fun env henv => ?_⟩
  have hwords : wordsOfLength w.len = 2 ^ bits := by
    rw [wordsOfLength, hbits]
  have hidx := hw.idx_lt
  rw [hwords] at hidx ⊢
  have hbitsD : builtinSizeBitsByLength.getD w.len 0 = bits := by
    rw [List.getD_eq_getElem?_getD, hbits, Option.getD_some]
  have hshift : (w.idx + transform * 2 ^ bits) >>> bits = transform := by
    rw [Nat.shiftRight_eq_div_pow, Nat.add_mul_div_right _ _ (Nat.two_pow_pos bits),
      Nat.div_eq_of_lt hidx, Nat.zero_add]
  have hmod : (w.idx + transform * 2 ^ bits) % 2 ^ bits = w.idx := by
    rw [Nat.add_mul_mod_self_right, Nat.mod_eq_of_lt hidx]
  have hlen := hw.len_le
  rw [Env.builtinWord, if_neg (by have := hw.len_ge; omega)]
  dsimp only
  rw [hbitsD, hshift, htr, hmod]
  dsimp only
  rw [← happly, henv]
  rfl

/-- The smallest packed word of a length is one of those added. -/
theorem Kept.add {f : Found} (h : Kept t data f.table) (hw : Entry t w) {transform length : ℕ}
    {tr : Transform}
    (htr : Transform.builtin transform = some tr) (hlt : transform < 121)
    (happly : length ≤ data.length → tr.apply (w.dict t) = data.take length) :
    Kept t data (f.add w transform length).table := by
  obtain ⟨bits, hbits, hsmall, -⟩ := length_shape hw.len_ge hw.len_le
  have hlen := hw.len_le
  have hwords : wordsOfLength w.len ≤ 2 ^ 11 := by
    rw [wordsOfLength, hbits]
    exact Nat.pow_le_pow_right (by decide) hsmall
  have haddress := hw.address_lt hlt
  intro l e he hvalid hl
  rw [Found.add, addMatch, Nat.shiftLeft_eq, Nat.mod_eq_of_lt (by omega)] at he
  dsimp only at he
  rw [List.getElem?_modify] at he
  split at he
  · next heq =>
    subst heq
    obtain ⟨slot, hslot, rfl⟩ := Option.map_eq_some_iff.1 he
    rcases Nat.le_total slot ((w.idx + transform * wordsOfLength w.len) * 2 ^ 5 + w.len)
      with hmin | hmin
    · rw [Nat.min_eq_left hmin] at hvalid ⊢
      exact h _ slot hslot hvalid hl
    · rw [Nat.min_eq_right hmin]
      have hcode : ((w.idx + transform * wordsOfLength w.len) * 2 ^ 5 + w.len) % 32 = w.len := by
        omega
      have haddr : ((w.idx + transform * wordsOfLength w.len) * 2 ^ 5 + w.len) >>> 5 =
          w.idx + transform * wordsOfLength w.len := by
        rw [Nat.shiftRight_eq_div_pow]
        omega
      rw [hcode, haddr]
      exact hw.expands htr hlt (happly hl)
  · exact h l e (by simpa using he) hvalid hl

/-! ### What the tests spell -/

theorem ferment_first {first : UInt8} (rest : List UInt8) (h : 97 ≤ first ∧ first ≤ 122) :
    Transform.ferment false (first :: rest).length 0 (first :: rest) = (first ^^^ 32) :: rest := by
  have hlow : first < 0xC0 := UInt8.lt_of_le_of_lt h.2 (by decide)
  rw [List.length_cons, Transform.ferment]
  simp only [List.getElem?_cons_zero, if_pos hlow, if_pos h, Bool.false_eq_true, if_false,
    List.set_cons_zero]

/-- A word of single-byte characters in upper case. -/
theorem ferment_all (fuel position : ℕ) (bytes : List UInt8)
    (hplain : ∀ byte ∈ bytes.drop position, byte < 0xC0)
    (hfuel : bytes.length ≤ position + fuel) :
    Transform.ferment true fuel position bytes =
    bytes.take position ++ (bytes.drop position).map upper := by
  induction fuel generalizing position bytes with
  | zero => rw [Transform.ferment, List.drop_eq_nil_of_le (by omega), List.map_nil, List.append_nil,
      List.take_of_length_le (by omega)]
  | succ fuel ih =>
    rw [Transform.ferment]
    cases hbyte : bytes[position]? with
    | none =>
      rw [List.getElem?_eq_none_iff] at hbyte
      rw [List.drop_eq_nil_of_le hbyte, List.map_nil, List.append_nil, List.take_of_length_le hbyte]
    | some byte =>
      obtain ⟨hlt, hget⟩ := List.getElem?_eq_some_iff.1 hbyte
      rw [List.drop_eq_getElem_cons hlt, hget] at hplain ⊢
      have hlow : byte < 0xC0 := hplain byte List.mem_cons_self
      simp only [if_pos hlow, if_true]
      have hset : (if 97 ≤ byte ∧ byte ≤ 122 then bytes.set position (byte ^^^ 32) else bytes) =
          bytes.set position (upper byte) := by
        rw [upper]
        split
        · rfl
        · rw [← hget, List.set_getElem_self]
      have hdrop : (bytes.set position (upper byte)).drop (position + 1) =
          bytes.drop (position + 1) :=
        List.drop_set_of_lt (Nat.lt_succ_self position)
      rw [hset, ih _ _ (by rw [hdrop]; exact fun b hb => hplain b (List.mem_cons_of_mem _ hb))
        (by rw [List.length_set]; omega), hdrop,
        List.take_add_one, List.take_set_of_le (Nat.le_refl position), List.getElem?_set_self hlt,
        Option.toList_some, List.append_assoc,
        List.map_cons, List.singleton_append]

/-- As many equal bytes as there are: the one is the beginning of the other. -/
theorem prefixed_of_length {word data : List UInt8} {l : ℕ} (hword : word.length = l)
    (h : commonPrefixLen word data l = l) :
    word <+: data := by
  obtain ⟨-, -, hsame⟩ := commonPrefixLen_spec word data l
  rw [h] at hsame
  refine List.prefix_iff_getElem?.2 fun i hi => ?_
  rw [← hsame i (hword ▸ hi), List.getElem?_eq_getElem hi]

/-- A match has the word, in its case, at the start of the bytes. -/
theorem isMatch_spells (hw : Entry t w) {maxLength : ℕ} (h : isMatch t w data maxLength = true)
    (hlen : w.len ≤ data.length) :
    w.body t <+: data := by
  have hdict := w.length_dict t
  have hge := hw.len_ge
  rw [isMatch] at h
  split at h
  · exact absurd h Bool.false_ne_true
  · rw [hw.word_eq] at h
    dsimp only at h
    rw [DictWord.body]
    rcases hw.operation with h0 | h0 | h0
    · rw [h0, if_pos rfl] at h
      rw [h0, apply_omit _ (Nat.zero_le _), Nat.sub_zero, List.take_length]
      exact prefixed_of_length hdict (of_decide_eq_true h)
    · rw [h0, if_neg (by decide), if_pos (show 10 = transformUppercaseFirst from rfl)] at h
      rw [h0, apply_first]
      split at h
      · next first rest target tail heq =>
        rw [heq] at hdict ⊢
        simp only [Bool.and_eq_true, decide_eq_true_eq, beq_iff_eq] at h
        rw [ferment_first rest h.1.1, h.1.2, List.prefix_cons_inj]
        exact prefixed_of_length (by rw [← hdict, List.length_cons, Nat.add_sub_cancel]) h.2
      · exact absurd h Bool.false_ne_true
    · rw [h0, if_neg (by decide), if_neg (by decide)] at h
      rw [h0, apply_all, ferment_all _ 0 (w.dict t) (hw.plain h0) (by omega), List.take_zero,
        List.nil_append, List.drop_zero]
      rw [List.all_eq_true] at h
      refine List.prefix_iff_getElem?.2 fun i hi => ?_
      rw [List.length_map] at hi
      have hi' : i < data.length := by omega
      have hmem : ((w.dict t)[i], data[i]) ∈ ((w.dict t).zip data).take w.len := by
        refine List.mem_of_getElem? (i := i) ?_
        rw [List.getElem?_take_of_lt (by omega), List.getElem?_zip_eq_some]
        exact ⟨List.getElem?_eq_getElem hi, List.getElem?_eq_getElem hi'⟩
      have := h _ hmem
      simp only [beq_iff_eq] at this
      rw [List.getElem_map, this, List.getElem?_eq_getElem hi']

/-- A word between a prefix and a suffix that the bytes spell one after the other. -/
theorem take_spelled {pre body suffix : List UInt8} (hpre : pre <+: data)
    (hbody : body <+: data.drop pre.length)
    (hsuffix : suffix <+: data.drop (pre.length + body.length)) :
    pre ++ body ++ suffix = data.take (pre.length + body.length + suffix.length) := by
  rw [List.prefix_iff_eq_take] at hpre hbody hsuffix
  rw [List.take_add, List.take_add, ← hpre, ← hbody, ← hsuffix]

/-- What an arm adds names the transform of its prefix and case whose suffix is the bytes
on the way to it, and counts them. -/
def Arms.Names (pre : List UInt8) (operation : ℕ) : Arms → List UInt8 → Bool
  | none, _ => true
  | arm byte adds inner next, path =>
    byte != 0 &&
      adds.all (fun a => decide (builtinAt a.1 = some ⟨pre, operation, path ++ [byte], 0⟩) &&
        a.2 == pre.length + path.length + 1 && decide (a.1 < 121)) &&
      inner.Names pre operation (path ++ [byte]) && next.Names pre operation path

theorem Arms.taken_names {pre : List UInt8} {operation : ℕ} {arms : Arms} {path s : List UInt8}
    (h : arms.Names pre operation path = true)
    {a : ℕ × ℕ} (ha : a ∈ arms.taken s) :
    ∃ suffix, Transform.builtin a.1 = some ⟨pre, operation, path ++ suffix, 0⟩ ∧ suffix <+: s ∧
      a.2 = pre.length + path.length + suffix.length ∧ a.1 < 121 := by
  induction arms generalizing path s with
  | none => exact absurd ha List.not_mem_nil
  | arm byte adds inner next ihInner ihNext =>
    rw [Names] at h
    simp only [Bool.and_eq_true, bne_iff_ne, List.all_eq_true, decide_eq_true_eq, beq_iff_eq] at h
    obtain ⟨⟨⟨hbyte, hadds⟩, hinner⟩, hnext⟩ := h
    rw [taken] at ha
    split at ha
    · next hhead =>
      obtain ⟨rest, rfl⟩ : ∃ rest, s = byte :: rest := by
        cases s with
        | nil => exact absurd hhead.symm hbyte
        | cons head rest => exact ⟨rest, by rw [← hhead]; rfl⟩
      rcases List.mem_append.1 ha with ha | ha
      · obtain ⟨⟨hname, hlen⟩, hlt⟩ := hadds a ha
        exact ⟨[byte], builtin_of_at hname, List.prefix_append [byte] rest, hlen, hlt⟩
      · obtain ⟨suffix, hname, hsuffix, hlen, hlt⟩ := ihInner hinner ha
        refine ⟨byte :: suffix, ?_, ?_, ?_, hlt⟩
        · rw [hname, List.append_assoc, List.singleton_append]
        · rw [List.prefix_cons_inj]
          exact hsuffix
        · rw [hlen, List.length_append, List.length_cons, List.length_cons, List.length_nil]
          omega
    · exact ihNext hnext ha

theorem arms_checked : identitySuffix.Names [] 0 [] = true ∧
    (∀ isAllCaps, (uppercaseSuffix isAllCaps).Names [] (if isAllCaps then 11 else 10) [] = true) ∧
    (∀ isSpace, (spacedSuffix isSpace).Names [if isSpace then 32 else 46] 0 [] = true) ∧
    ∀ isAllCaps, (spacedUppercaseSuffix isAllCaps).Names [32] (if isAllCaps then 11 else 10)
    [] = true := by
  decide +kernel

/-- The transforms of whole words the search asks for by number. -/
def wordTransforms : List (ℕ × Transform) :=
  [(49, ⟨[], 1, [105, 110, 103, 32], 0⟩), (44, ⟨[], 11, [], 0⟩), (9, ⟨[], 10, [], 0⟩),
    (6, ⟨[32], 0, [], 0⟩), (32, ⟨[46], 0, [], 0⟩),
    (85, ⟨[32], 11, [], 0⟩), (30, ⟨[32], 10, [], 0⟩), (102, ⟨[0xC2, 0xA0], 0, [], 0⟩),
    (18, ⟨[101, 32], 0, [32], 0⟩),
    (7, ⟨[115, 32], 0, [32], 0⟩), (13, ⟨[44, 32], 0, [32], 0⟩),
    (41, ⟨[32, 116, 104, 101, 32], 0, [], 0⟩),
    (72, ⟨[46, 99, 111, 109, 47], 0, [], 0⟩),
    (62, ⟨[32, 116, 104, 101, 32], 0, [32, 111, 102, 32], 0⟩),
    (73, ⟨[32, 116, 104, 101, 32], 0, [32, 111, 102, 32, 116, 104, 101, 32], 0⟩)]

theorem transforms_checked : (∀ a ∈ wordTransforms, builtinAt a.1 = some a.2) ∧
    ∀ cut ≤ 9, builtinAt (cutoffTransform cut) = some ⟨[], cut, [], 0⟩ ∧
    cutoffTransform cut < 121 := by
  decide +kernel

theorem builtin_of_mem {index : ℕ} {tr : Transform} (h : (index, tr) ∈ wordTransforms) :
    Transform.builtin index = some tr :=
  builtin_of_at (transforms_checked.1 _ h)

/-! ### The families -/

variable {f : Found} {transform length maxLength : ℕ}

/-- A whole word in its case, between a prefix and a suffix the bytes spell. -/
theorem Kept.spelled (h : Kept t data f.table) (pre suffix : List UInt8) (hw : Entry t w)
    (htr : Transform.builtin transform = some ⟨pre, w.transform, suffix, 0⟩)
    (hlt : transform < 121) (hlength : length = pre.length + w.len + suffix.length)
    (hpre : pre <+: data)
    (hbody : pre.length + w.len ≤ data.length → w.body t <+: data.drop pre.length)
    (hsuffix : suffix <+: data.drop (pre.length + w.len)) :
    Kept t data (f.add w transform length).table := by
  refine h.add hw htr hlt fun hfits => ?_
  have hspelled := hbody (by omega)
  rw [DictWord.body] at hspelled
  have hlen := hw.length_body
  rw [DictWord.body] at hlen
  rw [apply_around, hlength, ← hlen]
  rw [← hlen] at hsuffix
  exact take_spelled hpre hspelled hsuffix

theorem Kept.addSuffixes (h : Kept t data f.table) (pre : List UInt8) (hw : Entry t w) {arms : Arms}
    (hnames : arms.Names pre w.transform [] = true)
    (hpre : pre <+: data) (hbody : pre.length + w.len ≤ data.length →
      w.body t <+: data.drop pre.length) :
    Kept t data (f.addSuffixes w arms (data.drop (pre.length + w.len))).table := by
  have hall : ∀ a ∈ arms.taken (data.drop (pre.length + w.len)), ∀ f : Found, Kept t data f.table →
      Kept t data (f.add w a.1 (w.len + a.2)).table := by
    intro a ha f hf
    obtain ⟨suffix, hname, hsuffix, hlen, hlt⟩ := Arms.taken_names hnames ha
    refine hf.spelled pre _ hw hname hlt ?_ hpre hbody hsuffix
    rw [hlen, List.length_nil, List.nil_append]
    omega
  rw [Found.addSuffixes]
  generalize arms.taken (data.drop (pre.length + w.len)) = adds at hall
  induction adds generalizing f with
  | nil => exact h
  | cons a adds ih =>
      exact ih (hall a List.mem_cons_self f h) fun b hb => hall b (List.mem_cons_of_mem _ hb)

/-- A byte that is not zero is there. -/
theorem getElem?_of_getD {i : ℕ} {v : UInt8} (h : data.getD i 0 = v) (hv : v ≠ 0) :
    data[i]? = some v := by
  rw [List.getD_eq_getElem?_getD] at h
  cases hbyte : data[i]? with
  | none =>
    rw [hbyte] at h
    exact absurd h.symm hv
  | some b =>
    rw [hbyte] at h
    exact congrArg some h

/-- Bytes that are tested one by one are a prefix. -/
theorem prefixed_of_bytes {bytes s : List UInt8}
    (h : ∀ i (hi : i < bytes.length), s[i]? = some bytes[i]) : bytes <+: s :=
  List.prefix_iff_getElem?.2 h

theorem cutoff_names {cut : ℕ} (h : cut ≤ 9) :
    Transform.builtin (cutoffTransform cut) = some ⟨[], cut, [], 0⟩ ∧
    cutoffTransform cut < 121 := by
  exact ⟨builtin_of_at (transforms_checked.2 cut h).1, (transforms_checked.2 cut h).2⟩

/-- The word agrees with the bytes as far as it was compared. -/
theorem take_dict (hw : Entry t w) {k : ℕ} (hk : k ≤ dictMatchLength t data w.idx w.len maxLength) :
    (w.dict t).take k = data.take k := by
  rw [dictMatchLength, hw.word_eq] at hk
  obtain ⟨-, hle, hsame⟩ := commonPrefixLen_spec (w.dict t) data (min w.len maxLength)
  refine List.ext_getElem? fun i => ?_
  rcases Nat.lt_or_ge i k with hi | hi
  · rw [List.getElem?_take_of_lt hi, List.getElem?_take_of_lt hi]
    exact hsame i (hi.trans_le hk)
  · rw [List.getElem?_take_eq_none hi, List.getElem?_take_eq_none hi]

theorem Kept.omit (h : Kept t data f.table) (hw : Entry t w) {len : ℕ}
    (hlen : len ≤ dictMatchLength t data w.idx w.len maxLength)
    (hcut : w.len ≤ len + 9) (hle : len ≤ w.len) :
    Kept t data (f.add w (cutoffTransform (w.len - len)) len).table := by
  obtain ⟨hname, hlt⟩ := cutoff_names (show w.len - len ≤ 9 by omega)
  refine h.add hw hname hlt fun _ => ?_
  rw [apply_omit _ (by omega), w.length_dict, Nat.sub_sub_self hle]
  exact take_dict hw hlen

/-- The last byte left out, and `ing ` in its place. -/
theorem Kept.omitLast (h : Kept t data f.table) (hw : Entry t w)
    (hmatch : w.len ≤ dictMatchLength t data w.idx w.len maxLength + 1) :
    Kept t data (if w.len + 2 < maxLength ∧ data[w.len - 1]? = some 105 ∧ data[w.len]? = some 110 ∧
      data[w.len + 1]? = some 103 ∧
        data[w.len + 2]? = some 32 then (f.add w 12 (w.len - 1)).add w 49 (w.len + 3)
        else f.add w 12 (w.len - 1)).table := by
  have hge := hw.len_ge
  have hcut : Kept t data (f.add w 12 (w.len - 1)).table := by
    have := h.omit hw (show w.len - 1 ≤ dictMatchLength t data w.idx w.len maxLength by omega)
      (by omega) (Nat.sub_le _ _)
    rwa [Nat.sub_sub_self (by omega), show cutoffTransform 1 = 12 by decide] at this
  split
  · next hing =>
    obtain ⟨-, hi, hn, hg, hspace⟩ := hing
    refine hcut.add hw (builtin_of_mem (show (49, ⟨[], 1, [105, 110, 103, 32], 0⟩) ∈
      wordTransforms by simp [wordTransforms])) (by decide) fun _ => ?_
    have hdict : (w.dict t).take (w.len - 1) = data.take (w.len - 1) :=
      take_dict hw (show _ ≤ dictMatchLength t data w.idx w.len maxLength by omega)
    have hlen : ((w.dict t).take (w.len - 1)).length = w.len - 1 := by
      rw [List.length_take, w.length_dict]
      omega
    have hsuffix : [105, 110, 103, 32] <+: data.drop
        (([] : List UInt8).length + ((w.dict t).take (w.len - 1)).length) := by
      rw [hlen, List.length_nil, Nat.zero_add]
      refine prefixed_of_bytes fun i hi4 => ?_
      rw [List.getElem?_drop]
      have hi4 : i < 4 := hi4
      interval_cases i
      · exact hi
      · rw [show w.len - 1 + 1 = w.len by omega]
        exact hn
      · rw [show w.len - 1 + 2 = w.len + 1 by omega]
        exact hg
      · rw [show w.len - 1 + 3 = w.len + 2 by omega]
        exact hspace
    have hspelled :=
      take_spelled List.nil_prefix (show (w.dict t).take (w.len - 1) <+: data.drop
        ([] : List UInt8).length by
      rw [hdict]
      exact List.take_prefix _ _) hsuffix
    rw [apply_around, apply_omit _ (by decide), w.length_dict, hspelled, hlen]
    congr 1
    simp only [List.length_nil, List.length_cons]
    omega
  · exact hcut

theorem mem_omissions {minLength matchlen l len : ℕ} (h : len ∈ omissions minLength matchlen l) :
    l ≤ len + 9 ∧ len ≤ l ∧ len ≤ matchlen := by
  rw [omissions, List.mem_range'_1] at h
  split at h <;> omega

/-- A word that is not plain has its first letter or all of them in upper case. -/
theorem Entry.case (hw : Entry t w) (h : w.transform ≠ 0) :
    w.transform = if decide (w.transform ≠ transformUppercaseFirst) = true then 11 else 10 := by
  rcases hw.operation with h' | h' | h'
  · exact absurd h' h
  · rw [h']
    rfl
  · rw [h']
    rfl

theorem plainAndUppercase_kept (h : Kept t data f.table) (hw : Entry t w)
    (minLength maxLength : ℕ) :
    Kept t data (plainAndUppercase t data minLength maxLength w f).table := by
  rw [plainAndUppercase]
  dsimp only
  split
  · next h0 =>
    set matchlen := dictMatchLength t data w.idx w.len maxLength with hmatchlen
    have hidentity : Kept t data (if matchlen = w.len then f.add w 0 w.len else f).table := by
      split
      · next hwhole =>
        have :=
          h.omit hw (show w.len ≤ dictMatchLength t data w.idx w.len maxLength by omega) (by omega)
            (Nat.le_refl _)
        rwa [Nat.sub_self] at this
      · exact h
    generalize (if matchlen = w.len then f.add w 0 w.len else f) = f at hidentity
    have hlast : Kept t data (if w.len ≤ matchlen + 1 then
        if w.len + 2 < maxLength ∧ data[w.len - 1]? = some 105 ∧ data[w.len]? = some 110 ∧
          data[w.len + 1]? = some 103 ∧
            data[w.len + 2]? = some 32 then
          (f.add w 12 (w.len - 1)).add w 49 (w.len + 3)
        else f.add w 12 (w.len - 1)
      else f).table := by
      split
      · next hmatch => exact hidentity.omitLast hw hmatch
      · exact hidentity
    generalize (if w.len ≤ matchlen + 1 then
        if w.len + 2 < maxLength ∧ data[w.len - 1]? = some 105 ∧ data[w.len]? = some 110 ∧
          data[w.len + 1]? = some 103 ∧
            data[w.len + 2]? = some 32 then
          (f.add w 12 (w.len - 1)).add w 49 (w.len + 3)
        else f.add w 12 (w.len - 1)
      else f) = f at hlast
    have hcuts :
        Kept t data ((omissions minLength matchlen w.len).foldl
          (fun f len => f.add w (cutoffTransform (w.len - len)) len) f).table := by
      have hall := fun len => @mem_omissions minLength matchlen w.len len
      generalize omissions minLength matchlen w.len = lengths at hall
      induction lengths generalizing f with
      | nil => exact hlast
      | cons len lengths ih =>
        obtain ⟨hnine, hle, hmatch⟩ := hall len List.mem_cons_self
        exact ih _ (hlast.omit hw hmatch hnine hle) fun len hlen =>
          hall len (List.mem_cons_of_mem _ hlen)
    split
    · exact hcuts
    · next hwhole =>
      have hbody : w.body t <+: data := by
        rw [DictWord.body, h0, apply_omit _ (Nat.zero_le _), w.length_dict, Nat.sub_zero]
        rw [take_dict hw (show w.len ≤ dictMatchLength t data w.idx w.len maxLength by omega)]
        exact List.take_prefix _ _
      have := hcuts.addSuffixes [] hw (by rw [h0]; exact arms_checked.1) List.nil_prefix fun _ =>
        hbody
      rwa [List.length_nil, Nat.zero_add] at this
  · next h0 =>
    have hcase : w.transform = if decide (w.transform ≠ transformUppercaseFirst) = true then 11
      else 10 := hw.case h0
    generalize decide (w.transform ≠ transformUppercaseFirst) = isAllCaps at hcase ⊢
    split
    · next hmatch =>
      have hbody : w.len ≤ data.length → w.body t <+: data := isMatch_spells hw hmatch
      have hplain : Kept t data (f.add w (if isAllCaps then 44 else 9) w.len).table := by
        refine h.spelled [] [] hw ?_ ?_ ?_ List.nil_prefix ?_ List.nil_prefix
        · rw [hcase]
          cases isAllCaps <;> exact builtin_of_mem (by simp [wordTransforms])
        · cases isAllCaps <;> decide
        · rw [List.length_nil, Nat.zero_add, Nat.add_zero]
        · exact fun hfits => hbody (by rwa [List.length_nil, Nat.zero_add] at hfits)
      split
      · exact hplain
      · have :=
          hplain.addSuffixes [] hw (by rw [hcase]; exact arms_checked.2.1 isAllCaps) List.nil_prefix
            fun hfits => hbody (by rwa [List.length_nil, Nat.zero_add] at hfits)
        rwa [List.length_nil, Nat.zero_add] at this
    · exact h

theorem spaceOrDotPrefix_kept (h : Kept t data f.table) (hw : Entry t w) (maxLength : ℕ)
    {isSpace : Bool}
    (hfirst : data.headD 0 = if isSpace then 32 else 46) :
    Kept t data (spaceOrDotPrefix t data maxLength isSpace w f).table := by
  have hpre : [if isSpace then 32 else 46] <+: data := by
    rw [← hfirst]
    cases data with
    | nil => cases isSpace <;> exact absurd hfirst (by decide)
    | cons first rest => exact List.prefix_append [first] rest
  have hbody : isMatch t w (data.drop 1) (maxLength - 1) = true →
    [if isSpace then (32 : UInt8) else 46].length + w.len ≤ data.length →
      w.body t <+: data.drop [if isSpace then (32 : UInt8) else 46].length := by
    intro hmatch hfits
    rw [List.length_singleton] at hfits ⊢
    exact isMatch_spells hw hmatch (by rw [List.length_drop]; omega)
  have hone : ∀ l : ℕ, l + 1 = [if isSpace then (32 : UInt8) else 46].length + l +
    ([] : List UInt8).length := fun l => by
    rw [List.length_singleton, List.length_nil]
    omega
  rw [spaceOrDotPrefix]
  dsimp only
  split
  · next h0 =>
    split
    · next hmatch =>
      have hplain : Kept t data (f.add w (if isSpace then 6 else 32) (w.len + 1)).table := by
        refine h.spelled _ [] hw ?_ ?_ (hone _) hpre (hbody hmatch) List.nil_prefix
        · rw [h0]
          cases isSpace <;> exact builtin_of_mem (by simp [wordTransforms])
        · cases isSpace <;> decide
      split
      · exact hplain
      · have :=
          hplain.addSuffixes _ hw (by rw [h0]; exact arms_checked.2.2.1 isSpace) hpre (hbody hmatch)
        rwa [List.length_singleton, Nat.add_comm 1 w.len] at this
    · exact h
  · next h0 =>
    split
    · next hspace =>
      subst hspace
      have hcase : w.transform = if decide (w.transform ≠ transformUppercaseFirst) = true then 11
        else 10 := hw.case h0
      generalize decide (w.transform ≠ transformUppercaseFirst) = isAllCaps at hcase ⊢
      split
      · next hmatch =>
        have hplain : Kept t data (f.add w (if isAllCaps then 85 else 30) (w.len + 1)).table := by
          refine h.spelled _ [] hw ?_ ?_ (hone _) hpre (hbody hmatch) List.nil_prefix
          · rw [hcase]
            cases isAllCaps <;> exact builtin_of_mem (by simp [wordTransforms])
          · cases isAllCaps <;> decide
        split
        · exact hplain
        · have := hplain.addSuffixes _ hw (by rw [hcase]; exact arms_checked.2.2.2 isAllCaps) hpre
            (hbody hmatch)
          rwa [List.length_singleton, Nat.add_comm 1 w.len] at this
      · exact h
    · exact h

theorem twoBytePrefix_kept (h : Kept t data f.table) (hw : Entry t w) (maxLength : ℕ)
    (hfirst : (data.getD 1 0 = 32 ∧
      (data.getD 0 0 = 101 ∨ data.getD 0 0 = 115 ∨ data.getD 0 0 = 44)) ∨
      (data.getD 0 0 = 0xC2 ∧ data.getD 1 0 = 0xA0)) :
    Kept t data (twoBytePrefix t data maxLength w f).table := by
  have hpre : ∀ a b : UInt8, a ≠ 0 → b ≠ 0 → data.getD 0 0 = a → data.getD 1 0 = b →
      [a, b] <+: data := by
    intro a b ha hb h0 h1
    refine prefixed_of_bytes fun i hi => ?_
    have hi : i < 2 := hi
    interval_cases i
    · exact getElem?_of_getD h0 ha
    · exact getElem?_of_getD h1 hb
  rw [twoBytePrefix]
  split
  · next hmatch =>
    have hbody : 2 + w.len ≤ data.length → w.body t <+: data.drop 2 := fun hfits =>
      isMatch_spells hw hmatch.2 (by rw [List.length_drop]; omega)
    split
    · next hnbsp =>
      have hsecond : data.getD 1 0 = 0xA0 := by
        rcases hfirst with ⟨-, h | h | h⟩ | h
        · exact absurd (h.symm.trans hnbsp) (by decide)
        · exact absurd (h.symm.trans hnbsp) (by decide)
        · exact absurd (h.symm.trans hnbsp) (by decide)
        · exact h.2
      exact h.spelled [0xC2, 0xA0] [] hw
        (by rw [hmatch.1]; exact builtin_of_mem (by simp [wordTransforms])) (by decide)
        (Nat.add_comm _ _)
        (hpre _ _ (by decide) (by decide) hnbsp hsecond) hbody List.nil_prefix
    · next hnbsp =>
      split
      · next hspace =>
        have hsuffix : [32] <+: data.drop (2 + w.len) := by
          refine prefixed_of_bytes fun i hi => ?_
          have hi : i < 1 := hi
          interval_cases i
          rw [List.getElem?_drop, Nat.add_zero, Nat.add_comm]
          exact getElem?_of_getD hspace.2 (by decide : (32 : UInt8) ≠ 0)
        have hascii := hfirst.resolve_right fun h => hnbsp h.1
        rcases hascii with ⟨hsecond, he | hs | hcomma⟩
        · rw [if_pos he]
          exact h.spelled [101, 32] [32] hw
            (by rw [hmatch.1]; exact builtin_of_mem (by simp [wordTransforms])) (by decide)
            (by simp only [List.length_cons, List.length_nil]; omega)
            (hpre _ _ (by decide) (by decide) he hsecond) hbody hsuffix
        · rw [if_neg (by rw [hs]; decide), if_pos hs]
          exact h.spelled [115, 32] [32] hw
            (by rw [hmatch.1]; exact builtin_of_mem (by simp [wordTransforms])) (by decide)
            (by simp only [List.length_cons, List.length_nil]; omega)
            (hpre _ _ (by decide) (by decide) hs hsecond) hbody hsuffix
        · rw [if_neg (by rw [hcomma]; decide), if_neg (by rw [hcomma]; decide)]
          exact h.spelled [44, 32] [32] hw
            (by rw [hmatch.1]; exact builtin_of_mem (by simp [wordTransforms])) (by decide)
            (by simp only [List.length_cons, List.length_nil]; omega)
            (hpre _ _ (by decide) (by decide) hcomma hsecond) hbody hsuffix
      · exact h
  · exact h

/-- Four bytes further on, tested one by one. -/
theorem prefixed_of_four {s : List UInt8} {k : ℕ} {a b c d : UInt8} (ha : s.getD k 0 = a)
    (hb : s.getD (k + 1) 0 = b)
    (hc : s.getD (k + 2) 0 = c) (hd : s.getD (k + 3) 0 = d) (hne : a ≠ 0 ∧ b ≠ 0 ∧ c ≠ 0 ∧ d ≠ 0) :
    [a, b, c, d] <+: s.drop k := by
  refine prefixed_of_bytes fun i hi => ?_
  rw [List.getElem?_drop]
  have hi : i < 4 := hi
  interval_cases i
  · exact getElem?_of_getD ha hne.1
  · exact getElem?_of_getD hb hne.2.1
  · exact getElem?_of_getD hc hne.2.2.1
  · exact getElem?_of_getD hd hne.2.2.2

theorem longPrefix_kept (h : Kept t data f.table) (hw : Entry t w) (maxLength : ℕ) {isThe : Bool}
    (hpre : (if isThe then [32, 116, 104, 101, 32] else [46, 99, 111, 109, 47]) <+: data) :
    Kept t data (longPrefix t data maxLength isThe w f).table := by
  have hfive : (if isThe then [32, 116, 104, 101, 32]
    else [46, 99, 111, 109, 47] : List UInt8).length = 5 := by cases isThe <;> rfl
  rw [longPrefix]
  dsimp only
  split
  · next hmatch =>
    have hbody : 5 + w.len ≤ data.length → w.body t <+: data.drop 5 := fun hfits =>
      isMatch_spells hw hmatch.2 (by rw [List.length_drop]; omega)
    have hplain : Kept t data (f.add w (if isThe then 41 else 72) (w.len + 5)).table := by
      refine h.spelled _ [] hw ?_ ?_ ?_ hpre (by rwa [hfive]) List.nil_prefix
      · rw [hmatch.1]
        cases isThe <;> exact builtin_of_mem (by simp [wordTransforms])
      · cases isThe <;> decide
      · rw [hfive, List.length_nil]
        omega
    split
    · next hthe =>
      have hthe := hthe.2
      subst hthe
      split
      · next hof =>
        obtain ⟨-, h0, h1, h2, h3⟩ := hof
        have hofs := @prefixed_of_four (data.drop (w.len + 5)) 0 _ _ _ _ h0 h1 h2 h3 (by decide)
        rw [List.drop_zero, Nat.add_comm w.len 5] at hofs
        have hlonger :
            Kept t data ((f.add w (if true then 41 else 72) (w.len + 5)).add w 62
              (w.len + 9)).table := by
          refine hplain.spelled [32, 116, 104, 101, 32] [32, 111, 102, 32] hw ?_ (by decide) ?_
            hpre hbody hofs
          · rw [hmatch.1]
            exact builtin_of_mem (by simp [wordTransforms])
          · simp only [List.length_cons, List.length_nil]
            omega
        split
        · next hthe =>
          obtain ⟨-, h4, h5, h6, h7⟩ := hthe
          have hthes := @prefixed_of_four (data.drop (w.len + 5)) 4 _ _ _ _ h4 h5 h6 h7 (by decide)
          refine hlonger.spelled [32, 116, 104, 101, 32] [32, 111, 102, 32, 116, 104, 101, 32] hw ?_
            (by decide) ?_ hpre hbody ?_
          · rw [hmatch.1]
            exact builtin_of_mem (by simp [wordTransforms])
          · simp only [List.length_cons, List.length_nil]
            omega
          obtain ⟨rest, hrest⟩ := hofs
          rw [Nat.add_comm w.len 5, ← hrest] at hthes
          change [32, 111, 102, 32] ++ [116, 104, 101, 32] <+: data.drop (5 + w.len)
          rw [← hrest]
          exact List.prefix_append_right_inj _ |>.2 hthes
        · exact hlonger
      · exact hplain
    · exact hplain
  · exact h

end Mbrotli.StaticDictionary
