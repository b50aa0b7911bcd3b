/-
# Lists of bits, and the bytes that hold them

A list of bits stands for a stretch of a bit string. `ofNat n v` are the `n` low bits of
`v`, lowest first, and `bytesBits` those of a byte list; `Spells I p B` says that the
byte list `I` holds the bits `B` from bit `p` on, and `packBytes n B` are `n` bytes that
do. Bytes put in place of others (`splice`) change only the bits they cover.

Key theorems: `bitAt_splice`, `Spells.packBytes`, `spells_append`.
-/
import Mbrotli.Lib.BitString

namespace Mbrotli
namespace BitString

/-- The `n` low bits of a number, lowest first. -/
def ofNat (n v : ℕ) : List Bool := (List.range n).map v.testBit

/-- The bits of a byte list. -/
def bytesBits (data : List UInt8) : List Bool := (List.range (8 * data.length)).map (bitAt data)

/-- The number a list of bits spells, the first bit lowest. -/
def toNat : List Bool → ℕ
  | [] => 0
  | b :: B => b.toNat + 2 * toNat B

/-- The first `n` bytes of a bit string, zero past its end. -/
def packBytes (n : ℕ) (B : List Bool) : List UInt8 :=
  (List.range n).map fun k => UInt8.ofNat (toNat ((B.drop (8 * k)).take 8))

/-- The bits `B` stand in the byte list from bit `p` on. -/
def Spells (I : List UInt8) (p : ℕ) (B : List Bool) : Prop :=
  ∀ i < B.length, bitAt I (p + i) = B.getD i false

/-- The `n` low bytes of a number, lowest first. -/
def leBytes (n v : ℕ) : List UInt8 := (List.range n).map fun k => UInt8.ofNat (v >>> (8 * k))

/-- The bytes `new` in place of those from `start` on. -/
def splice (bytes : List UInt8) (start : ℕ) (new : List UInt8) : List UInt8 :=
  bytes.take start ++ new ++ bytes.drop (start + new.length)

@[simp] theorem length_ofNat (n v : ℕ) : (ofNat n v).length = n := by simp [ofNat]

@[simp] theorem length_bytesBits (data : List UInt8) :
    (bytesBits data).length = 8 * data.length := by simp [bytesBits]

@[simp] theorem length_packBytes (n : ℕ) (B : List Bool) : (packBytes n B).length = n := by
  simp [packBytes]

@[simp] theorem length_leBytes (n v : ℕ) : (leBytes n v).length = n := by simp [leBytes]

theorem getD_ofNat {n v i : ℕ} (h : i < n) : (ofNat n v).getD i false = v.testBit i := by
  simp [ofNat, List.getD_eq_getElem?_getD, h]

/-- A number above another's bits spells them one after the other. -/
theorem ofNat_append {a x : ℕ} (b y : ℕ) (h : x < 2 ^ a) :
    ofNat (a + b) (x ||| (y <<< a)) = ofNat a x ++ ofNat b y := by
  rw [ofNat, List.range_add, List.map_append, List.map_map]
  congr 1
  · refine List.map_congr_left fun i hi => ?_
    rw [Nat.testBit_or, Nat.testBit_shiftLeft]
    simp [show ¬ a ≤ i from Nat.not_le.2 (List.mem_range.1 hi)]
  · refine List.map_congr_left fun i _ => ?_
    have hzero : x.testBit (a + i) = false :=
      Nat.testBit_lt_two_pow (h.trans_le (Nat.pow_le_pow_right (by decide) (Nat.le_add_right _ _)))
    rw [Function.comp_apply, Nat.testBit_or, Nat.testBit_shiftLeft, hzero]
    simp

theorem or_shiftLeft_lt {a b x y : ℕ} (hx : x < 2 ^ a) (hy : y < 2 ^ b) :
    x ||| (y <<< a) < 2 ^ (a + b) := by
  refine Nat.or_lt_two_pow (hx.trans_le (Nat.pow_le_pow_right (by decide) (Nat.le_add_right _ _)))
    ?_
  rw [Nat.shiftLeft_eq, pow_add, mul_comm]
  exact Nat.mul_lt_mul_of_pos_left hy (Nat.two_pow_pos _)

theorem getD_bytesBits {data : List UInt8} {i : ℕ} (h : i < 8 * data.length) :
    (bytesBits data).getD i false = bitAt data i := by
  simp [bytesBits, List.getD_eq_getElem?_getD, h]

theorem testBit_toNat (B : List Bool) (i : ℕ) : (toNat B).testBit i = B.getD i false := by
  induction B generalizing i with
  | nil => simp [toNat]
  | cons b B ih =>
    rw [toNat]
    cases i with
    | zero => cases b <;> simp [Nat.testBit_zero]
    | succ i =>
      have hhalf : (b.toNat + 2 * toNat B) / 2 = toNat B := by
        cases b <;> simp
        omega
      rw [Nat.testBit_succ, hhalf, ih, List.getD_cons_succ]

/-! ### The bits of a byte list -/

theorem bitAt_append_left {I J : List UInt8} {i : ℕ} (h : i < 8 * I.length) :
    bitAt (I ++ J) i = bitAt I i := by
  have hk : i / 8 < I.length := by omega
  rw [bitAt, bitAt, List.getD_eq_getElem?_getD, List.getD_eq_getElem?_getD,
    List.getElem?_append_left hk]

theorem bitAt_append_right (I J : List UInt8) (i : ℕ) :
    bitAt (I ++ J) (8 * I.length + i) = bitAt J i := by
  have hk : (8 * I.length + i) / 8 = I.length + i / 8 := by omega
  have hr : (8 * I.length + i) % 8 = i % 8 := by omega
  rw [bitAt, bitAt, hk, hr, List.getD_eq_getElem?_getD, List.getD_eq_getElem?_getD,
    List.getElem?_append_right (Nat.le_add_right _ _), Nat.add_sub_cancel_left]

theorem bitAt_drop (I : List UInt8) (k i : ℕ) : bitAt (I.drop k) i = bitAt I (8 * k + i) := by
  have hk : (8 * k + i) / 8 = k + i / 8 := by omega
  have hr : (8 * k + i) % 8 = i % 8 := by omega
  rw [bitAt, bitAt, hk, hr, List.getD_eq_getElem?_getD, List.getD_eq_getElem?_getD,
    List.getElem?_drop]

theorem bitAt_take {I : List UInt8} {k i : ℕ} (h : i < 8 * k) : bitAt (I.take k) i = bitAt I i := by
  have hk : i / 8 < k := by omega
  rw [bitAt, bitAt, List.getD_eq_getElem?_getD, List.getD_eq_getElem?_getD,
    List.getElem?_take_of_lt hk]

/-- Zero bytes past the end change no bit. -/
theorem bitAt_append_zeros (I : List UInt8) (n i : ℕ) :
    bitAt (I ++ List.replicate n 0) i = bitAt I i := by
  by_cases h : i < 8 * I.length
  · exact bitAt_append_left h
  · obtain ⟨j, rfl⟩ := Nat.exists_eq_add_of_le (not_lt.mp h)
    rw [bitAt_append_right, bitAt_of_length_le (Nat.le_add_right _ _), bitAt,
      List.getD_eq_getElem?_getD,
      List.getElem?_replicate]
    split <;> simp

theorem length_splice {bytes new : List UInt8} {start : ℕ} (h : start + new.length ≤ bytes.length) :
    (splice bytes start new).length = bytes.length := by
  simp only [splice, List.length_append, List.length_take, List.length_drop]
  omega

theorem le_length_splice {bytes new : List UInt8} {start : ℕ} (h : start ≤ bytes.length) :
    bytes.length ≤ (splice bytes start new).length ∧
    start + new.length ≤ (splice bytes start new).length := by
  simp only [splice, List.length_append, List.length_take, List.length_drop]
  omega

/-- A splice changes the bits it covers, and no others. -/
theorem bitAt_splice {bytes new : List UInt8} {start : ℕ} (h : start ≤ bytes.length) (i : ℕ) :
    bitAt (splice bytes start new) i =
      if 8 * start ≤ i ∧ i < 8 * (start + new.length) then bitAt new (i - 8 * start)
      else bitAt bytes i := by
  have htake : (bytes.take start).length = start := by simp [h]
  by_cases hlow : i < 8 * start
  · rw [if_neg (by omega), splice, List.append_assoc, bitAt_append_left (by omega), bitAt_take hlow]
  obtain ⟨j, rfl⟩ := Nat.exists_eq_add_of_le (not_lt.mp hlow)
  have hright : bitAt (splice bytes start new) (8 * start + j) =
      bitAt (new ++ bytes.drop (start + new.length)) j := by
    have hpast := bitAt_append_right (bytes.take start) (new ++ bytes.drop (start + new.length)) j
    rwa [htake, ← List.append_assoc] at hpast
  rw [hright, Nat.add_sub_cancel_left]
  by_cases hcover : j < 8 * new.length
  · rw [if_pos (by omega), bitAt_append_left hcover]
  · obtain ⟨k, rfl⟩ := Nat.exists_eq_add_of_le (not_lt.mp hcover)
    rw [if_neg (by omega), bitAt_append_right, bitAt_drop]
    congr 1
    ring

theorem bitAt_leBytes {n v i : ℕ} (h : i < 8 * n) : bitAt (leBytes n v) i = v.testBit i := by
  have hk : i / 8 < n := by omega
  have hi : i % 8 < 8 := Nat.mod_lt _ (by decide)
  have hmod : (UInt8.ofNat (v >>> (8 * (i / 8)))).toNat = v >>> (8 * (i / 8)) % 2 ^ 8 := rfl
  rw [bitAt, leBytes, List.getD_eq_getElem?_getD, List.getElem?_map, List.getElem?_range hk,
    Option.map_some,
    Option.getD_some, hmod, Nat.testBit_mod_two_pow, Nat.testBit_shiftRight, Nat.div_add_mod]
  simp [hi]

/-- Byte lists of one length with the same bits are equal. -/
theorem ext_bitAt {I J : List UInt8} (hlen : I.length = J.length)
    (h : ∀ i < 8 * I.length, bitAt I i = bitAt J i) :
    I = J := by
  refine List.ext_getElem hlen fun k h1 h2 => ?_
  refine UInt8.toNat_inj.mp (Nat.eq_of_testBit_eq fun i => ?_)
  by_cases hi : i < 8
  · rw [← bitAt_byte (List.getElem?_eq_getElem h1) hi,
      ← bitAt_byte (List.getElem?_eq_getElem h2) hi]
    exact h _ (by omega)
  · rw [toNat_testBit_of_le _ (not_lt.mp hi), toNat_testBit_of_le _ (not_lt.mp hi)]

/-! ### Spelling -/

theorem Spells.congr {I J : List UInt8} {p : ℕ} {B : List Bool} (h : Spells I p B)
    (hsame : ∀ i, p ≤ i → i < p + B.length → bitAt J i = bitAt I i) : Spells J p B := fun i hi =>
  (hsame _ (Nat.le_add_right _ _) (by omega)).trans (h i hi)

theorem spells_nil (I : List UInt8) (p : ℕ) : Spells I p [] :=
  fun i hi => absurd hi (Nat.not_lt_zero i)

theorem spells_append {I : List UInt8} {p : ℕ} {B C : List Bool} :
    Spells I p (B ++ C) ↔ Spells I p B ∧ Spells I (p + B.length) C := by
  constructor
  · intro h
    refine ⟨fun i hi => ?_, fun i hi => ?_⟩
    · rw [h i (by simp; omega), List.getD_append _ _ _ _ hi]
    · rw [Nat.add_assoc, h (B.length + i) (by simp; omega),
        List.getD_append_right _ _ _ _ (Nat.le_add_right _ _),
        Nat.add_sub_cancel_left]
  · rintro ⟨hB, hC⟩ i hi
    rw [List.length_append] at hi
    by_cases hlt : i < B.length
    · rw [List.getD_append _ _ _ _ hlt]
      exact hB i hlt
    · obtain ⟨j, rfl⟩ := Nat.exists_eq_add_of_le (not_lt.mp hlt)
      rw [List.getD_append_right _ _ _ _ (Nat.le_add_right _ _), Nat.add_sub_cancel_left,
        ← Nat.add_assoc]
      exact hC j (by omega)

theorem bitAt_packBytes {n i : ℕ} (B : List Bool) (h : i < 8 * n) :
    bitAt (packBytes n B) i = B.getD i false := by
  have hk : i / 8 < n := by omega
  have hi : i % 8 < 8 := Nat.mod_lt _ (by decide)
  set word := (B.drop (8 * (i / 8))).take 8 with hword
  have hmod : (UInt8.ofNat (toNat word)).toNat = toNat word % 2 ^ 8 := rfl
  rw [bitAt, packBytes, List.getD_eq_getElem?_getD, List.getElem?_map, List.getElem?_range hk,
    Option.map_some,
    Option.getD_some, hmod, Nat.testBit_mod_two_pow, testBit_toNat, hword,
    List.getD_eq_getElem?_getD,
    List.getElem?_take_of_lt hi, List.getElem?_drop, Nat.div_add_mod, ← List.getD_eq_getElem?_getD]
  simp [hi]

/-- Whole bytes of a spelled string are its packed bytes. -/
theorem Spells.packBytes {I : List UInt8} {start n : ℕ} {B : List Bool} (h : Spells I (8 * start) B)
    (hn : 8 * n ≤ B.length) (hI : start + n ≤ I.length) :
    (I.drop start).take n = packBytes n B := by
  have hlen : ((I.drop start).take n).length = n := by
    rw [List.length_take, List.length_drop]
    omega
  refine ext_bitAt (by rw [hlen, length_packBytes]) fun i hi => ?_
  rw [hlen] at hi
  rw [bitAt_take hi, bitAt_drop, bitAt_packBytes B hi]
  exact h i (by omega)

end BitString
end Mbrotli
