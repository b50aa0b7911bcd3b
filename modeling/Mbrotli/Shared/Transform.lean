/-
# Word transformations

A `Transform` puts a prefix and a suffix around a word of the static dictionary and
cuts, ferments (changes case) or shifts it. The built-in ones are read from two
tables, `triples` (prefix, operation, suffix) and the length-prefixed `strings`.

The source works in a scratch buffer that still holds earlier words: fermenting an
incomplete character at the end of the body touches bytes behind it, which the
suffix overwrites or the result does not reach. Here the body is a list, and bytes
past its end are not there to be touched.
-/
import Mathlib.Data.Nat.Notation

namespace Mbrotli

/-- Prefix, operation and suffix of the built-in transforms. -/
def triples : List ℕ :=
  [49, 0, 49, 49, 0, 0, 0, 0, 0, 49, 12, 49, 49, 10, 0, 49, 0, 47, 0, 0, 49, 4, 0, 0, 49, 0, 3,
   49, 10, 49, 49, 0, 6, 49, 13, 49, 49, 1, 49, 1, 0, 0, 49, 0, 1, 0, 10, 0, 49, 0, 7, 49, 0, 9,
   48, 0, 0, 49, 0, 8, 49, 0, 5, 49, 0, 10, 49, 0, 11, 49, 3, 49, 49, 0, 13, 49, 0, 14, 49, 14,
   49, 49, 2, 49, 49, 0, 15, 49, 0, 16, 0, 10, 49, 49, 0, 12, 5, 0, 49, 0, 0, 1, 49, 15, 49, 49,
   0, 18, 49, 0, 17, 49, 0, 19, 49, 0, 20, 49, 16, 49, 49, 17, 49, 47, 0, 49, 49, 4, 49, 49, 0,
   22, 49, 11, 49, 49, 0, 23, 49, 0, 24, 49, 0, 25, 49, 7, 49, 49, 1, 26, 49, 0, 27, 49, 0, 28, 0,
   0, 12, 49, 0, 29, 49, 20, 49, 49, 18, 49, 49, 6, 49, 49, 0, 21, 49, 10, 1, 49, 8, 49, 49, 0,
   31, 49, 0, 32, 47, 0, 3, 49, 5, 49, 49, 9, 49, 0, 10, 1, 49, 10, 8, 5, 0, 21, 49, 11, 0, 49,
   10, 10, 49, 0, 30, 0, 0, 5, 35, 0, 49, 47, 0, 2, 49, 10, 17, 49, 0, 36, 49, 0, 33, 5, 0, 0, 49,
   10, 21, 49, 10, 5, 49, 0, 37, 0, 0, 30, 49, 0, 38, 0, 11, 0, 49, 0, 39, 0, 11, 49, 49, 0, 34,
   49, 11, 8, 49, 10, 12, 0, 0, 21, 49, 0, 40, 0, 10, 12, 49, 0, 41, 49, 0, 42, 49, 11, 17, 49, 0,
   43, 0, 10, 5, 49, 11, 10, 0, 0, 34, 49, 10, 33, 49, 0, 44, 49, 11, 5, 45, 0, 49, 0, 0, 33, 49,
   10, 30, 49, 11, 30, 49, 0, 46, 49, 11, 1, 49, 10, 34, 0, 10, 33, 0, 11, 30, 0, 11, 1, 49, 11,
   33, 49, 11, 21, 49, 11, 12, 0, 11, 5, 49, 11, 34, 0, 11, 12, 0, 10, 30, 0, 11, 34, 0, 10, 34]

/-- Length-prefixed prefixes and suffixes. -/
def strings : List UInt8 :=
  [1, 32, 2, 44, 32, 8, 32, 111, 102, 32, 116, 104, 101, 32, 4, 32, 111, 102, 32, 2, 115, 32, 1,
   46, 5, 32, 97, 110, 100, 32, 4, 32, 105, 110, 32, 1, 34, 4, 32, 116, 111, 32, 2, 34, 62, 1, 10,
   2, 46, 32, 1, 93, 5, 32, 102, 111, 114, 32, 3, 32, 97, 32, 6, 32, 116, 104, 97, 116, 32, 1, 39,
   6, 32, 119, 105, 116, 104, 32, 6, 32, 102, 114, 111, 109, 32, 4, 32, 98, 121, 32, 1, 40, 6, 46,
   32, 84, 104, 101, 32, 4, 32, 111, 110, 32, 4, 32, 97, 115, 32, 4, 32, 105, 115, 32, 4, 105,
   110, 103, 32, 2, 10, 9, 1, 58, 3, 101, 100, 32, 2, 61, 34, 4, 32, 97, 116, 32, 3, 108, 121, 32,
   1, 44, 2, 61, 39, 5, 46, 99, 111, 109, 47, 7, 46, 32, 84, 104, 105, 115, 32, 5, 32, 110, 111,
   116, 32, 3, 101, 114, 32, 3, 97, 108, 32, 4, 102, 117, 108, 32, 4, 105, 118, 101, 32, 5, 108,
   101, 115, 115, 32, 4, 101, 115, 116, 32, 4, 105, 122, 101, 32, 2, 194, 160, 4, 111, 117, 115,
   32, 5, 32, 116, 104, 101, 32, 2, 101, 32, 0]

structure Transform where
  pre : List UInt8
  operation : ℕ
  suffix : List UInt8
  parameter : ℕ

namespace Transform

/-- Byte offset of the `id`-th stringlet of `strings`. -/
def stringletOffset : ℕ → ℕ
  | 0 => 0
  | id + 1 => stringletOffset id + (strings.getD (stringletOffset id) 0).toNat + 1

def stringlet (id : ℕ) : List UInt8 :=
  let start := stringletOffset id
  (strings.drop (start + 1)).take (strings.getD start 0).toNat

def builtin (index : ℕ) : Option Transform :=
  match triples.drop (index * 3) with
  | pre :: operation :: suffix :: _ => some ⟨stringlet pre, operation, stringlet suffix, 0⟩
  | _ => none

/-- Changes case from `position` on, one character or all of them. -/
def ferment (all : Bool) : ℕ → ℕ → List UInt8 → List UInt8
  | 0, _, bytes => bytes
  | fuel + 1, position, bytes =>
    match bytes[position]? with
    | none => bytes
    | some byte =>
      let (bytes, step) :=
        if byte < 0xc0 then
          (if 97 ≤ byte ∧ byte ≤ 122 then bytes.set position (byte ^^^ 32) else bytes, 1)
        else if byte < 0xe0 then (bytes.modify (position + 1) (· ^^^ 32), 2)
        else (bytes.modify (position + 2) (· ^^^ 5), 3)
      if all then ferment all fuel (position + step) bytes else bytes

/-- Length and payload mask of the character a byte starts; `none` for bytes that
start none. -/
def scalarShape (first : UInt8) : Option (ℕ × UInt8) :=
  if first ≤ 0x7f then some (1, 0x7f)
  else if 0xc0 ≤ first ∧ first ≤ 0xdf then some (2, 0x1f)
  else if 0xe0 ≤ first ∧ first ≤ 0xef then some (3, 0x0f)
  else if 0xf0 ≤ first ∧ first ≤ 0xf7 then some (4, 7)
  else none

/-- Writes `scalar`, six bits a byte, into continuation bytes, the last first: the
bytes and what is left of the scalar. -/
def putScalar : List UInt8 → ℕ → List UInt8 × ℕ
  | [], scalar => ([], scalar)
  | byte :: rest, scalar =>
    let (rest, scalar) := putScalar rest scalar
    (((byte &&& 0xc0) ||| (UInt8.ofNat scalar &&& 63)) :: rest, scalar >>> 6)

/-- Adds the parameter to the scalar values of the first character or of all. -/
def shift (addend : ℕ) (all : Bool) : ℕ → List UInt8 → List UInt8
  | 0, bytes => bytes
  | _ + 1, [] => []
  | fuel + 1, first :: rest =>
    match scalarShape first with
    | none => if all then first :: shift addend all fuel rest else first :: rest
    | some (length, mask) =>
      if rest.length + 1 < length then first :: rest
      else
        let tail := rest.take (length - 1)
        let scalar :=
          tail.foldl (fun s byte => (s <<< 6) ||| (byte &&& 63).toNat) (first &&& mask).toNat
        let (tail, scalar) := putScalar tail (scalar + addend)
        let first := (first &&& ~~~mask) ||| (UInt8.ofNat scalar &&& mask)
        first :: (tail ++ if all then shift addend all fuel (rest.drop (length - 1))
          else rest.drop (length - 1))

def apply (t : Transform) (word : List UInt8) : List UInt8 :=
  let body :=
    if t.operation ≤ 9 then word.take (word.length - t.operation)
    else if 12 ≤ t.operation ∧ t.operation ≤ 20 then word.drop (t.operation - 11)
    else word
  let body :=
    if t.operation = 10 ∨ t.operation = 11 then ferment (t.operation = 11) body.length 0 body
    else if t.operation = 21 ∨ t.operation = 22 then
      shift (t.parameter + if 0x8000 ≤ t.parameter then 0xff0000 else 0) (t.operation = 22)
        body.length body
    else body
  t.pre ++ body ++ t.suffix

theorem ferment_length (all : Bool) (fuel position : ℕ) (bytes : List UInt8) :
    (ferment all fuel position bytes).length = bytes.length := by
  induction fuel generalizing position bytes with
  | zero => rfl
  | succ fuel ih =>
    rw [ferment]
    cases bytes[position]? with
    | none => rfl
    | some byte =>
      simp only []
      have hset : (if byte < 0xc0 then
          (if 97 ≤ byte ∧ byte ≤ 122 then bytes.set position (byte ^^^ 32) else bytes, 1)
        else if byte < 0xe0 then (bytes.modify (position + 1) (· ^^^ 32), 2)
        else (bytes.modify (position + 2) (· ^^^ 5), 3) : List UInt8 × ℕ).1.length =
            bytes.length := by
        split
        · split <;> simp
        · split <;> simp
      split
      · rw [ih, hset]
      · exact hset

theorem putScalar_length (bytes : List UInt8) (scalar : ℕ) :
    (putScalar bytes scalar).1.length = bytes.length := by
  induction bytes with
  | nil => rfl
  | cons byte rest ih => simp [putScalar, ih]

theorem shift_length (addend : ℕ) (all : Bool) (fuel : ℕ) (bytes : List UInt8) :
    (shift addend all fuel bytes).length = bytes.length := by
  induction fuel generalizing bytes with
  | zero => rw [shift]
  | succ fuel ih =>
    cases bytes with
    | nil => rfl
    | cons first rest =>
      rw [shift]
      cases scalarShape first with
      | none =>
        simp only []
        split
        · rw [List.length_cons, ih, List.length_cons]
        · rfl
      | some shape =>
        simp only []
        split
        · rfl
        · rename_i hlen
          rw [List.length_cons, List.length_append, putScalar_length, List.length_take]
          split
          · rw [ih, List.length_drop, List.length_cons]
            omega
          · rw [List.length_drop, List.length_cons]
            omega

/-- A transform adds no more than its prefix and its suffix. -/
theorem apply_length_le (t : Transform) (word : List UInt8) :
    (t.apply word).length ≤ t.pre.length + word.length + t.suffix.length := by
  have hcut : (if t.operation ≤ 9 then word.take (word.length - t.operation)
      else if 12 ≤ t.operation ∧ t.operation ≤ 20 then word.drop (t.operation - 11)
      else word).length ≤ word.length := by
    split
    · rw [List.length_take]; omega
    · split
      · rw [List.length_drop]; omega
      · exact Nat.le_refl _
  unfold apply
  simp only [List.length_append]
  generalize (if t.operation ≤ 9 then word.take (word.length - t.operation)
      else if 12 ≤ t.operation ∧ t.operation ≤ 20 then word.drop (t.operation - 11) else word) =
      body at hcut ⊢
  split
  · rw [ferment_length]
    omega
  · split
    · rw [shift_length]
      omega
    · omega

theorem stringlet_length_le (id : ℕ) : (stringlet id).length ≤ 255 := by
  rw [stringlet, List.length_take]
  have := (strings.getD (stringletOffset id) 0).toNat_lt
  omega

theorem builtin_length_le {index : ℕ} {t : Transform} (h : builtin index = some t) :
    t.pre.length ≤ 255 ∧ t.suffix.length ≤ 255 := by
  rw [builtin] at h
  split at h
  · cases h
    exact ⟨stringlet_length_le _, stringlet_length_le _⟩
  · cases h

end Transform
end Mbrotli
