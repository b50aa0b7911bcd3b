/-
# Serialized dictionary descriptions

`Description.parse` reads the word lists, transform lists and the combinations a
context chooses from; offsets refer into the owned copy of the source.
`Description.resolve` finds the word an address names: the combinations in order, the
context's preferred one first, each with a span of addresses of its own.
-/
import Mbrotli.Shared.Transform
import Mbrotli.Decompressor.Config

namespace Mbrotli

/-- Where the words of each length start among the built-in words. -/
def builtinOffsetsByLength : List ℕ :=
  [0, 0, 0, 0, 0, 4096, 9216, 21504, 35840, 44032, 53248, 63488, 74752, 87040, 93696, 100864,
    104704, 106752, 108928, 113536, 115968, 118528, 119872, 121280, 122016, 122784,
    122784, 122784, 122784, 122784, 122784, 122784]

/-- Base-2 logarithm of how many built-in words of each length there are. -/
def builtinSizeBitsByLength : List ℕ :=
  [0, 0, 0, 0, 10, 10, 11, 11, 10, 10, 10, 10, 10, 9, 9, 8, 7, 7, 8, 7, 7, 6, 6, 5, 5, 0, 0, 0, 0,
    0, 0, 0]

inductive DecodeDictionaryError where
  | invalidSerializedDictionary
  | conflictingStaticDictionaries
  | tooManyAttachments
  | sourceLimitExceeded (limit : ℕ)
  | memoryLimitExceeded (limit : ℕ)
  | allocationFailed
  | sizeOverflow
  deriving DecidableEq, Repr

structure WordLayout where
  bits : List ℕ
  offsets : List ℕ
  deriving DecidableEq, Repr

structure TransformLayout where
  strings : ℕ
  offsets : List ℕ
  triples : ℕ
  count : ℕ
  params : Option ℕ
  deriving DecidableEq, Repr

/-- Bytes of a word layout, a transform layout and a combination. -/
def WordLayout.size : ℕ := 288
def TransformLayout.size : ℕ := 552
def combinationSize : ℕ := 2

structure Description where
  source : List UInt8 := []
  words : List WordLayout := []
  transforms : List TransformLayout := []
  combinations : List (ℕ × ℕ) := []
  contexts : Option (List ℕ) := none
  retained : ℕ := 0
  deriving DecidableEq, Repr

namespace Description

abbrev Parse := StateT ℕ (Except DecodeDictionaryError)

variable (source : List UInt8)

/-- The next `length` bytes. -/
def take (length : ℕ) : Parse (List UInt8) := do
  let position ← get
  if source.length < position + length then throw .invalidSerializedDictionary
  set (position + length)
  return (source.drop position).take length

def byte : Parse ℕ := do
  let bytes ← take source 1
  return (bytes.headD 0).toNat

def count : Parse ℕ := do
  let count ← byte source
  if 64 < count then throw .invalidSerializedDictionary
  return count

/-- A varint of at most nine bytes. -/
def varint : ℕ → ℕ → ℕ → Parse ℕ
  | 0, _, _ => throw .invalidSerializedDictionary
  | fuel + 1, shift, value => do
    let byte ← byte source
    let value := value ||| ((byte % 128) <<< shift)
    if byte < 128 then return value
    varint fuel (shift + 7) value

/-- Charges `count` elements of `size` bytes to the budget. -/
def reserve (count size live : ℕ) (limit : Option ℕ) : Except DecodeDictionaryError ℕ :=
  match limit.filter (· < live + count * size) with
  | some limit => .error (.memoryLimitExceeded limit)
  | none => .ok (live + count * size)

/-- The word lists of the lengths from `length` on: where each starts. -/
def wordOffsets : List ℕ → ℕ → Parse (List ℕ)
  | [], _ => return []
  | bits :: rest, length => do
    if 15 < bits then throw .invalidSerializedDictionary
    let position ← get
    if bits ≠ 0 then
      let _ ← take source (length <<< bits)
    let offsets ← wordOffsets rest (length + 1)
    return position :: offsets

def parseWords : Parse WordLayout := do
  let bits := (← take source 28).map UInt8.toNat
  let offsets ← wordOffsets source bits 4
  return ⟨[0, 0, 0, 0] ++ bits, [0, 0, 0, 0] ++ offsets⟩

/-- The stringlets of `strings`: their offsets, up to the empty one that ends them. -/
def stringOffsets (strings : List UInt8) : ℕ → ℕ → List ℕ → Except DecodeDictionaryError (List ℕ)
  | 0, _, _ => throw .invalidSerializedDictionary
  | fuel + 1, position, offsets =>
    match strings[position]? with
    | none => throw .invalidSerializedDictionary
    | some length =>
      if offsets.length = 256 then throw .invalidSerializedDictionary
      else
        let offsets := offsets ++ [position]
        if length = 0 then
          if position + 1 ≠ strings.length then throw .invalidSerializedDictionary
          else return offsets
        else stringOffsets strings fuel (position + 1 + length.toNat) offsets

/-- The `index`-th triple from `start` on. -/
def tripleAt (start index : ℕ) : ℕ × ℕ × ℕ :=
  ((source.getD (start + index * 3) 0).toNat, (source.getD (start + index * 3 + 1) 0).toNat,
    (source.getD (start + index * 3 + 2) 0).toNat)

def parseTransforms : Parse TransformLayout := do
  let bytes ← take source 2
  let size := (bytes.getD 0 0).toNat + 256 * (bytes.getD 1 0).toNat
  let strings ← get
  let stringBytes ← take source size
  let offsets ← stringOffsets stringBytes 257 0 []
  let transformCount ← byte source
  let triples ← get
  let _ ← take source (transformCount * 3)
  let all := (List.range transformCount).map (tripleAt source triples)
  if all.any fun t => offsets.length ≤ t.1 || offsets.length ≤ t.2.2 || 22 < t.2.1 then
    throw .invalidSerializedDictionary
  if all.any fun t => 21 ≤ t.2.1 then
    let start ← get
    let _ ← take source (transformCount * 2)
    if (List.range transformCount).any fun i => (tripleAt source triples i).2.1 < 21 &&
        (source.getD (start + i * 2) 0 ≠ 0 || source.getD (start + i * 2 + 1) 0 ≠ 0) then
      throw .invalidSerializedDictionary
    return ⟨strings, offsets, triples, transformCount, some start⟩
  return ⟨strings, offsets, triples, transformCount, none⟩

/-- Runs a parser `n` times. -/
def times {α : Type} (m : Parse α) : ℕ → Parse (List α)
  | 0 => return []
  | n + 1 => do
    let a ← m
    let rest ← times m n
    return a :: rest

def combination (wordCount transformCount : ℕ) : Parse (ℕ × ℕ) := do
  let words ← byte source
  let transforms ← byte source
  if wordCount < words ∨ transformCount < transforms then throw .invalidSerializedDictionary
  return (words, transforms)

def contextMap (count : ℕ) : Parse (Option (List ℕ)) := do
  match ← byte source with
  | 0 => return none
  | 1 =>
    let contexts := (← take source 64).map UInt8.toNat
    if contexts.any fun index => count ≤ index then throw .invalidSerializedDictionary
    return some contexts
  | _ => throw .invalidSerializedDictionary

/-- The description and the range of its embedded raw prefix. -/
def parseAll (existingBytes : ℕ) (limit : Option ℕ) : Parse (Description × ℕ × ℕ) := do
  if (← take source 2) ≠ [0x91, 0] then throw .invalidSerializedDictionary
  let prefixLen ← varint source 9 0 0
  if 2 ^ 62 - 16 < prefixLen then throw .invalidSerializedDictionary
  let prefixStart ← get
  let _ ← take source prefixLen
  let prefixEnd ← get
  let wordCount ← count source
  let live ← reserve wordCount WordLayout.size existingBytes limit
  let words ← times (parseWords source) wordCount
  let transformCount ← count source
  let live ← reserve transformCount TransformLayout.size live limit
  let transforms ← times (parseTransforms source) transformCount
  if wordCount ≠ 0 ∨ transformCount ≠ 0 then
    let count ← count source
    if count = 0 then throw .invalidSerializedDictionary
    let live ← reserve count combinationSize live limit
    let combinations ← times (combination source wordCount transformCount) count
    let contexts ← contextMap source count
    let position ← get
    let live ← reserve position 1 live limit
    return ({ source := source.take position, words, transforms, combinations, contexts,
              retained := live - existingBytes }, prefixStart, prefixEnd)
  return ({ words, transforms, retained := live - existingBytes }, prefixStart, prefixEnd)

def parse (existingBytes : ℕ) (limit : Option ℕ) :
    Except DecodeDictionaryError (Description × ℕ × ℕ) :=
  (parseAll source existingBytes limit).run' 0

/-- Whether the description replaces the built-in words or transforms. -/
def custom (d : Description) : Bool := !d.words.isEmpty || !d.transforms.isEmpty

end Description

/-- The stringlet `id` of a transform list. -/
def TransformLayout.string (t : TransformLayout) (source : List UInt8) (id : ℕ) : List UInt8 :=
  let start := t.strings + t.offsets.getD id 0
  (source.drop (start + 1)).take (source.getD start 0).toNat

def TransformLayout.view (t : TransformLayout) (source : List UInt8) (index : ℕ) : Transform :=
  let (pre, operation, suffix) := Description.tripleAt source t.triples index
  let parameter := match t.params with
    | none => 0
    | some start => (source.getD (start + index * 2) 0).toNat +
        256 * (source.getD (start + index * 2 + 1) 0).toNat
  ⟨t.string source pre, operation, t.string source suffix, parameter⟩

namespace Description

/-- The word `address` names among the combinations `order`. -/
def resolveIn (d : Description) (builtinWords : ℕ → UInt8) (length : ℕ) :
    List ℕ → ℕ → Except DecodeError (List UInt8)
  | [], _ => .error (.invalidData .dictionaryReference)
  | combination :: order, address =>
    let (wordId, transformId) := d.combinations.getD combination (0, 0)
    let words := d.words[wordId]?
    let transforms := d.transforms[transformId]?
    let bits := match words with
      | none => builtinSizeBitsByLength.getD length 0
      | some words => words.bits.getD length 0
    let transformCount := match transforms with
      | none => 121
      | some transforms => transforms.count
    let wordCount := if bits = 0 then 0 else 2 ^ bits
    let span := wordCount * transformCount
    if span ≤ address then resolveIn d builtinWords length order (address - span)
    else
      let index := address % wordCount
      let word := match words with
        | none => (List.range length).map fun i =>
            builtinWords (builtinOffsetsByLength.getD length 0 + index * length + i)
        | some words => (d.source.drop (words.offsets.getD length 0 + index * length)).take length
      match transforms with
      | some transforms => .ok ((transforms.view d.source (address >>> bits)).apply word)
      | none => match Transform.builtin (address >>> bits) with
        | some transform => .ok (transform.apply word)
        | none => .error (.invalidData .dictionaryReference)

def resolve (d : Description) (builtinWords : ℕ → UInt8) (address length context : ℕ) :
    Except DecodeError (List UInt8) :=
  if length < 4 ∨ 31 < length then .error (.invalidData .dictionaryReference)
  else
    let preferred := match d.contexts with
      | none => 0
      | some map => map.getD context 0
    d.resolveIn builtinWords length
      (preferred :: (List.range d.combinations.length).filter (· ≠ preferred)) address

end Description

theorem TransformLayout.view_length_le (t : TransformLayout) (source : List UInt8) (index : ℕ) :
    (t.view source index).pre.length ≤ 255 ∧ (t.view source index).suffix.length ≤ 255 := by
  have hstring : ∀ id, (t.string source id).length ≤ 255 := by
    intro id
    rw [TransformLayout.string, List.length_take]
    have := (source.getD (t.strings + t.offsets.getD id 0) 0).toNat_lt
    omega
  exact ⟨hstring _, hstring _⟩

/-- A word is at most its prefix, its 31 letters and its suffix long. -/
theorem Description.resolveIn_length_le {d : Description} {builtinWords : ℕ → UInt8} {length : ℕ}
    (hlen : length ≤ 31)
    {order : List ℕ} {address : ℕ} {word : List UInt8}
    (h : d.resolveIn builtinWords length order address = .ok word) :
    word.length ≤ 541 := by
  induction order generalizing address with
  | nil => cases h
  | cons combination order ih =>
    have hword : ∀ words : Option WordLayout, ∀ index : ℕ, (match words with
        | none => (List.range length).map fun i =>
            builtinWords (builtinOffsetsByLength.getD length 0 + index * length + i)
        | some words => (d.source.drop (words.offsets.getD length 0 + index * length)).take
              length).length ≤ 31 := by
      intro words index
      cases words with
      | none => simpa using hlen
      | some words => rw [List.length_take]; omega
    rw [Description.resolveIn] at h
    cases ht : d.transforms[(d.combinations.getD combination (0, 0)).2]? with
    | some transforms =>
      simp only [ht] at h
      rcases ite_eq_iff.1 h with ⟨-, h⟩ | ⟨-, h⟩
      · exact ih h
      · injection h with h
        rw [← h]
        have h1 := transforms.view_length_le d.source
        exact (Transform.apply_length_le _ _).trans
          (Nat.add_le_add (Nat.add_le_add (h1 _).1 (hword _ _)) (h1 _).2)
    | none =>
      simp only [ht] at h
      rcases ite_eq_iff.1 h with ⟨-, h⟩ | ⟨-, h⟩
      · exact ih h
      · split at h
        · rename_i transform htransform
          injection h with h
          rw [← h]
          have h1 := Transform.builtin_length_le htransform
          exact (Transform.apply_length_le _ _).trans
            (Nat.add_le_add (Nat.add_le_add h1.1 (hword _ _)) h1.2)
        · cases h

end Mbrotli
