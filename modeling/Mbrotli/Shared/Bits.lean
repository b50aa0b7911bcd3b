/-
# The bit writer

Bits go into increasing byte addresses, lowest bit first, into a slice of fixed length
or a vector that grows. A write stores a whole word: it keeps the byte it starts in and
clears the seven that follow.

A `BitOp` is one call of the writer. `BitOp.bits` is what it does to the bit string
written so far, and `apply_spec` that the storage holds that string whatever stale
bytes it was given, as long as the writer did not overflow.
-/
import Mbrotli.Lib.BitList

namespace Mbrotli.Compressor
open BitString

/-- The widest write. -/
def maxBitsPerWrite : ℕ := 56

/-- The bytes a write touches. -/
def writeSlack : ℕ := 8

/-- A cursor into a byte buffer. `grown` is none for a slice; for a vector it is the
length the allocator makes of one that is needed. -/
structure BitWriter where
  storage : List UInt8
  grown : Option (ℕ → ℕ) := none
  position : ℕ
  overflowed : Bool := false

namespace BitWriter

/-- The storage with the bytes up to `stop` in it, unless a slice ends before. -/
def window (w : BitWriter) (stop : ℕ) : Option (List UInt8) :=
  match w.grown with
  | none => if stop ≤ w.storage.length then some w.storage else none
  | some grown =>
    if w.storage.length < stop then
      some (w.storage ++ List.replicate (max stop (grown stop) - w.storage.length) 0)
    else some w.storage

/-- The byte at `index`, or zero past the buffer. -/
def byte (w : BitWriter) (index : ℕ) : UInt8 := w.storage.getD index 0

/-- Overwrites the byte at `index`. The `checked_add` of the source refuses one index,
`usize::MAX`, which no byte of a buffer has. -/
def setByte (w : BitWriter) (index : ℕ) (value : UInt8) : BitWriter :=
  match w.window (index + 1) with
  | none => { w with overflowed := true }
  | some storage => { w with storage := splice storage index [value] }

/-- Appends the `nBits` low bits of `bits`. -/
def write (w : BitWriter) (nBits bits : ℕ) : BitWriter :=
  let start := w.position / 8
  match w.window (start + writeSlack) with
  | none => { w with overflowed := true, position := w.position + nBits }
  | some storage =>
    let value := (storage.getD start 0).toNat ||| ((bits <<< (w.position % 8)) % 2 ^ 64)
    { w with storage := splice storage start (leBytes 8 value), position := w.position + nBits }

/-- The byte that takes `changed` bits from `unchanged` on. -/
def updatedByte (byte : UInt8) (bits unchanged changed : ℕ) : UInt8 :=
  let mask := (2 ^ 32 - 1 - (2 ^ (unchanged + changed) - 1)) ||| (2 ^ unchanged - 1)
  let kept := byte.toNat &&& mask
  let fresh := bits &&& (2 ^ changed - 1)
  UInt8.ofNat ((fresh <<< unchanged) ||| kept)

/-- The rounds of `update`, a byte each. -/
def updateFrom : ℕ → ℕ → ℕ → ℕ → BitWriter → BitWriter
  | 0, _, _, _, w => w
  | fuel + 1, nBits, bits, position, w =>
    if 0 < nBits then
      let unchanged := position % 8
      let changed := min nBits (8 - unchanged)
      match w.window (position / 8 + 1) with
      | none => { w with overflowed := true }
      | some storage =>
        let byte := updatedByte (storage.getD (position / 8) 0) bits unchanged changed
        updateFrom fuel (nBits - changed) (bits >>> changed) (position + changed)
          { w with storage := splice storage (position / 8) [byte] }
    else w

/-- Overwrites `nBits` bits that were written at `position`. -/
def update (w : BitWriter) (nBits bits position : ℕ) : BitWriter :=
  updateFrom nBits nBits bits position w

/-- Drops everything after bit `position` and resumes there. -/
def rewind (w : BitWriter) (position : ℕ) : BitWriter :=
  match w.window (position / 8 + 1) with
  | none => { w with overflowed := true, position }
  | some storage =>
    let byte := (storage.getD (position / 8) 0).toNat &&& (2 ^ (position % 8) - 1)
    { w with storage := splice storage (position / 8) [UInt8.ofNat byte], position }

/-- Advances to the next byte boundary. -/
def align (w : BitWriter) : BitWriter := { w with position := (w.position + 7) / 8 * 8 }

/-- Clears the byte at the position. -/
def prepareStorage (w : BitWriter) : BitWriter := w.setByte (w.position / 8) 0

/-- Advances to the next byte boundary and clears the byte there. -/
def jumpToByteBoundary (w : BitWriter) : BitWriter := w.align.prepareStorage

/-- `copy_bytes`: the storage with `data` from `start` on, unless a slice is too short. -/
def copyBytes (w : BitWriter) (start : ℕ) (data : List UInt8) : Option (List UInt8) :=
  match w.grown with
  | none => if start + data.length ≤ w.storage.length
      then some (splice w.storage start data) else none
  | some _ => some (splice (w.storage ++ List.replicate (start - w.storage.length) 0) start data)

/-- Copies whole bytes to the position, which is a byte's. -/
def writeBytes (w : BitWriter) (data : List UInt8) : BitWriter :=
  match w.copyBytes (w.position / 8) data with
  | none => { w with overflowed := true, position := w.position + 8 * data.length }
  | some storage => { w with storage, position := w.position + 8 * data.length }.prepareStorage

end BitWriter

/-- A call of the writer. Positions and indexes count from the byte the run began in. -/
inductive BitOp where
  | write (nBits bits : ℕ)
  | update (nBits bits position : ℕ)
  | rewind (position : ℕ)
  | align
  | jumpToByteBoundary
  | prepareStorage
  | writeBytes (data : List UInt8)
  | setByte (index : ℕ) (value : UInt8)

namespace BitOp

/-- The call, in a run that began in byte `start`. -/
def apply (start : ℕ) : BitOp → BitWriter → BitWriter
  | write nBits bits, w => w.write nBits bits
  | update nBits bits position, w => w.update nBits bits (8 * start + position)
  | rewind position, w => w.rewind (8 * start + position)
  | align, w => w.align
  | jumpToByteBoundary, w => w.jumpToByteBoundary
  | prepareStorage, w => w.prepareStorage
  | writeBytes data, w => w.writeBytes data
  | setByte index value, w => w.setByte (start + index) value

/-- Zeros up to the next byte boundary. -/
def padding (B : List Bool) : List Bool := List.replicate ((B.length + 7) / 8 * 8 - B.length) false

/-- The bits with those of byte `index` set to the byte's. -/
def restored (index : ℕ) (value : UInt8) (B : List Bool) : List Bool :=
  B.mapIdx fun i b => if i / 8 = index then value.toNat.testBit (i % 8) else b

/-- What the call makes of the bits written so far. -/
def bits : BitOp → List Bool → List Bool
  | write nBits bits, B => B ++ ofNat nBits bits
  | update nBits bits position, B =>
      B.take position ++ ofNat nBits bits ++ B.drop (position + nBits)
  | rewind position, B => B.take position
  | align, B => B ++ padding B
  | jumpToByteBoundary, B => B ++ padding B
  | prepareStorage, B => B
  | writeBytes data, B => B ++ bytesBits data
  | setByte index value, B => restored index value B

/-- What the writer's callers keep to. `clean` says that the bits above the position
are zero in its byte; a byte set at the position is zero above it. -/
def Legal : BitOp → List Bool → Bool → Prop
  | write nBits bits, _, clean => nBits ≤ maxBitsPerWrite ∧ bits < 2 ^ nBits ∧ clean = true
  | update nBits _ position, B, _ => position + nBits ≤ B.length
  | rewind position, B, _ => position ≤ B.length
  | align, _, clean => clean = true
  | jumpToByteBoundary, _, clean => clean = true
  | prepareStorage, B, _ => B.length % 8 = 0
  | writeBytes _, B, _ => B.length % 8 = 0
  | setByte index value, B, _ => index = B.length / 8 → value.toNat < 2 ^ (B.length % 8)

/-- Whether the bits above the position are zero in its byte afterwards. -/
def clean : BitOp → List Bool → Bool → Bool
  | write _ _, _, _ => true
  | update _ _ _, _, clean => clean
  | rewind _, _, _ => true
  | align, B, clean => clean && B.length % 8 == 0
  | jumpToByteBoundary, _, _ => true
  | prepareStorage, _, _ => true
  | writeBytes _, _, _ => true
  | setByte _ _, _, clean => clean

/-! ### Runs -/

/-- A run of calls. -/
def run (start : ℕ) : List BitOp → BitWriter → BitWriter
  | [], w => w
  | op :: ops, w => run start ops (op.apply start w)

/-- What a run makes of the bits written so far. -/
def runBits : List BitOp → List Bool → List Bool
  | [], B => B
  | op :: ops, B => runBits ops (op.bits B)

def runClean : List BitOp → List Bool → Bool → Bool
  | [], _, c => c
  | op :: ops, B, c => runClean ops (op.bits B) (op.clean B c)

/-- Every call of the run is legal where it is made. -/
def LegalRun : List BitOp → List Bool → Bool → Prop
  | [], _, _ => True
  | op :: ops, B, c => op.Legal B c ∧ LegalRun ops (op.bits B) (op.clean B c)

@[simp] theorem length_restored (index : ℕ) (value : UInt8) (B : List Bool) :
    (restored index value B).length = B.length := List.length_mapIdx

theorem getD_restored {index : ℕ} {value : UInt8} {B : List Bool} {i : ℕ} (h : i < B.length) :
    (restored index value B).getD i false =
      if i / 8 = index then value.toNat.testBit (i % 8) else B.getD i false := by
  simp [restored, List.getD_eq_getElem?_getD, h]

/-- Whole bytes in front only shift the byte that is set. -/
theorem restored_append {P B : List Bool} {start : ℕ} (hP : P.length = 8 * start) (index : ℕ)
    (value : UInt8) :
    restored (start + index) value (P ++ B) = P ++ restored index value B := by
  rw [restored, List.mapIdx_append]
  congr 1
  · refine List.ext_getElem? fun i => ?_
    rw [List.getElem?_mapIdx]
    cases hi : P[i]? with
    | none => rfl
    | some b =>
      obtain ⟨hlt, -⟩ := List.getElem?_eq_some_iff.mp hi
      rw [Option.map_some, if_neg (by omega)]
  · refine congrArg (fun f => B.mapIdx f) (funext fun i => funext fun b => ?_)
    have hbyte : (i + P.length) / 8 = start + index ↔ i / 8 = index := by omega
    have hplace : (i + P.length) % 8 = i % 8 := by omega
    simp only [hbyte, hplace]

end BitOp

/-! ### The writer holds the string -/

namespace BitWriter

/-- The storage holds the bits `B`, and the position is their end. -/
structure Holds (w : BitWriter) (B : List Bool) : Prop where
  position_eq : w.position = B.length
  spells : Spells w.storage 0 B

/-- The bits above the position are zero in its byte. -/
def Clean (w : BitWriter) : Prop := ∀ i, w.position ≤ i → i / 8 = w.position / 8 →
    bitAt w.storage i = false

variable {w : BitWriter} {B : List Bool} {stop n v p : ℕ} {storage : List UInt8}

/-- A window is the storage, with zeros behind it. -/
theorem window_spec (h : w.window stop = some storage) :
    (∀ i, bitAt storage i = bitAt w.storage i) ∧ stop ≤ storage.length := by
  rw [window] at h
  cases hg : w.grown with
  | none =>
    rw [hg] at h
    by_cases hfit : stop ≤ w.storage.length
    · simp only [if_pos hfit, Option.some.injEq] at h
      exact h ▸ ⟨fun _ => rfl, hfit⟩
    · simp only [if_neg hfit, reduceCtorEq] at h
  | some grown =>
    rw [hg] at h
    by_cases hshort : w.storage.length < stop
    · simp only [if_pos hshort, Option.some.injEq] at h
      subst h
      refine ⟨fun i => bitAt_append_zeros _ _ i, ?_⟩
      rw [List.length_append, List.length_replicate]
      omega
    · simp only [if_neg hshort, Option.some.injEq] at h
      exact h ▸ ⟨fun _ => rfl, not_lt.mp hshort⟩

theorem length_le_window (h : w.window stop = some storage) :
    w.storage.length ≤ storage.length := by
  rw [window] at h
  cases hg : w.grown with
  | none =>
    rw [hg] at h
    simp only [Option.ite_none_right_eq_some, Option.some.injEq] at h
    exact h.2 ▸ le_refl _
  | some grown =>
    rw [hg] at h
    by_cases hshort : w.storage.length < stop
    · simp only [if_pos hshort, Option.some.injEq] at h
      rw [← h, List.length_append]
      exact Nat.le_add_right _ _
    · simp only [if_neg hshort, Option.some.injEq] at h
      exact h ▸ le_refl _

theorem getD_testBit (bytes : List UInt8) (k : ℕ) {i : ℕ} (hi : i < 8) :
    (bytes.getD k 0).toNat.testBit i = bitAt bytes (8 * k + i) := by
  have h1 : (8 * k + i) / 8 = k := by omega
  have h2 : (8 * k + i) % 8 = i := by omega
  rw [bitAt, h1, h2]

/-- A write appends its bits and clears what follows them. -/
theorem write_spec (hw : w.Holds B) (hc : w.Clean) (hn : n ≤ maxBitsPerWrite) (hv : v < 2 ^ n)
    (hok : (w.write n v).overflowed = false) :
    (w.write n v).Holds (B ++ ofNat n v) ∧ (w.write n v).Clean := by
  rw [write] at hok ⊢
  rw [maxBitsPerWrite] at hn
  cases hwin : w.window (w.position / 8 + writeSlack) with
  | none =>
    rw [hwin] at hok
    cases hok
  | some storage =>
    obtain ⟨hsame, hlen⟩ := window_spec hwin
    have hpos := hw.position_eq
    rw [writeSlack] at hlen
    set start := w.position / 8 with hstart
    have hshift : (v <<< (w.position % 8)) % 2 ^ 64 = v <<< (w.position % 8) := by
      refine Nat.mod_eq_of_lt ?_
      rw [Nat.shiftLeft_eq]
      calc v * 2 ^ (w.position % 8) < 2 ^ n * 2 ^ 8 :=
            Nat.mul_lt_mul_of_lt_of_le hv (Nat.pow_le_pow_right (by decide) (by omega))
              (by positivity)
        _ = 2 ^ (n + 8) := (pow_add 2 n 8).symm
        _ ≤ 2 ^ 64 := Nat.pow_le_pow_right (by decide) (by omega)
    -- A bit of the stored word: the old byte below the position, the new bits above it.
    have hword : ∀ j < 64, bitAt (splice storage start (leBytes 8 ((storage.getD start 0).toNat |||
        v <<< (w.position % 8)))) (8 * start + j) =
          if j < w.position % 8 then bitAt w.storage (8 * start + j)
          else v.testBit (j - w.position % 8) := by
      intro j hj
      rw [bitAt_splice (by omega), if_pos ⟨Nat.le_add_right _ _, by rw [length_leBytes]; omega⟩,
        Nat.add_sub_cancel_left, bitAt_leBytes (by omega), Nat.testBit_or, Nat.testBit_shiftLeft]
      by_cases hlow : j < w.position % 8
      · rw [if_pos hlow, getD_testBit _ _ (by omega), hsame]
        simp [show ¬ w.position % 8 ≤ j by omega]
      · rw [if_neg hlow]
        have hzero : (storage.getD start 0).toNat.testBit j = false := by
          by_cases hbyte : j < 8
          · rw [getD_testBit _ _ hbyte, hsame]
            exact hc _ (by omega) (by omega)
          · exact toNat_testBit_of_le _ (not_lt.mp hbyte)
        rw [hzero]
        simp [show w.position % 8 ≤ j by omega]
    have hbelow : ∀ i < 8 * start,
      bitAt (splice storage start (leBytes 8 ((storage.getD start 0).toNat |||
        v <<< (w.position % 8)))) i = bitAt w.storage i := by
      intro i hi
      rw [bitAt_splice (by omega), if_neg (by omega), hsame]
    simp only [hshift]
    refine ⟨⟨?_, ?_⟩, ?_⟩
    · rw [List.length_append, length_ofNat, ← hpos]
    · refine spells_append.mpr ⟨hw.spells.congr fun i _ hi => ?_, fun i hi => ?_⟩
      · by_cases hlow : i < 8 * start
        · exact hbelow i hlow
        · obtain ⟨j, rfl⟩ := Nat.exists_eq_add_of_le (not_lt.mp hlow)
          show bitAt _ _ = _
          rw [hword j (by omega), if_pos (by omega)]
      · rw [length_ofNat] at hi
        have hplace : 0 + B.length + i = 8 * start + (w.position % 8 + i) := by omega
        rw [hplace, getD_ofNat hi]
        show bitAt _ _ = _
        rw [hword _ (by omega), if_neg (by omega), Nat.add_sub_cancel_left]
    · intro i hlow hbyte
      have hlow' : w.position + n ≤ i := hlow
      have hbyte' : i / 8 = (w.position + n) / 8 := hbyte
      rw [show i = 8 * start + (i - 8 * start) by omega]
      show bitAt _ _ = _
      rw [hword _ (by omega), if_neg (by omega)]
      exact Nat.testBit_lt_two_pow (hv.trans_le (Nat.pow_le_pow_right (by decide) (by omega)))

theorem bitAt_singleton (b : UInt8) {i : ℕ} (hi : i < 8) : bitAt [b] i = b.toNat.testBit i := by
  rw [bitAt, Nat.div_eq_of_lt hi, Nat.mod_eq_of_lt hi]
  rfl

/-- Setting a byte changes its bits only. -/
theorem bitAt_spliceByte {k : ℕ} (hk : k < storage.length) (b : UInt8) (i : ℕ) :
    bitAt (splice storage k [b]) i = if i / 8 = k then b.toNat.testBit (i % 8)
    else bitAt storage i := by
  rw [bitAt_splice hk.le]
  by_cases hi : i / 8 = k
  · rw [if_pos hi, if_pos (by simp; omega), bitAt_singleton _ (by omega),
      show i - 8 * k = i % 8 by omega]
  · rw [if_neg hi, if_neg (by simp; omega)]

theorem setByte_spec {k : ℕ} {b : UInt8} (hok : (w.setByte k b).overflowed = false) :
    (w.setByte k b).position = w.position ∧
      ∀ i, bitAt (w.setByte k b).storage i = if i / 8 = k then b.toNat.testBit (i % 8)
      else bitAt w.storage i := by
  rw [setByte] at hok ⊢
  cases hwin : w.window (k + 1) with
  | none =>
    rw [hwin] at hok
    cases hok
  | some storage =>
    obtain ⟨hsame, hlen⟩ := window_spec hwin
    refine ⟨rfl, fun i => ?_⟩
    rw [bitAt_spliceByte hlen, hsame]

/-- Setting a byte changes the bits of the string that it holds. -/
theorem setByte_restores {k : ℕ} {b : UInt8} (hw : w.Holds B)
    (hzero : k = B.length / 8 → b.toNat < 2 ^ (B.length % 8))
    (hok : (w.setByte k b).overflowed = false) :
    (w.setByte k b).Holds (BitOp.restored k b B) ∧ (w.Clean → (w.setByte k b).Clean) := by
  obtain ⟨hpos, hbits⟩ := setByte_spec hok
  have hlen := hw.position_eq
  refine ⟨⟨?_, fun i hi => ?_⟩, fun hc i hlow hi => ?_⟩
  · rw [BitOp.length_restored]
    exact hpos.trans hlen
  · rw [BitOp.length_restored] at hi
    rw [hbits, BitOp.getD_restored hi, Nat.zero_add, ← hw.spells i hi, Nat.zero_add]
  · rw [hpos] at hlow hi
    rw [hbits]
    by_cases hk : i / 8 = k
    · rw [if_pos hk]
      have hbound := hzero (by omega)
      exact Nat.testBit_lt_two_pow (hbound.trans_le (Nat.pow_le_pow_right (by decide) (by omega)))
    · rw [if_neg hk]
      exact hc i hlow hi

theorem prepareStorage_spec (hw : w.Holds B) (halign : B.length % 8 = 0)
    (hok : w.prepareStorage.overflowed = false) :
    w.prepareStorage.Holds B ∧ w.prepareStorage.Clean := by
  obtain ⟨hpos, hbits⟩ := setByte_spec hok
  have hlen := hw.position_eq
  refine ⟨⟨hpos.trans hlen, fun i hi => ?_⟩, fun i hlow hi => ?_⟩
  · show bitAt (w.setByte _ _).storage _ = _
    rw [hbits, if_neg (by omega)]
    exact hw.spells i hi
  · have hi' : i / 8 = w.position / 8 := hi.trans (congrArg (· / 8) hpos)
    show bitAt (w.setByte _ _).storage _ = _
    rw [hbits, if_pos hi']
    exact Nat.zero_testBit _

/-- The bits skipped by an alignment are zero. -/
theorem align_spec (hw : w.Holds B) (hc : w.Clean) : w.align.Holds (B ++ BitOp.padding B) := by
  have hlen := hw.position_eq
  refine ⟨?_, spells_append.mpr ⟨hw.spells, fun i hi => ?_⟩⟩
  · show (w.position + 7) / 8 * 8 = _
    rw [List.length_append, BitOp.padding, List.length_replicate]
    omega
  · rw [BitOp.padding, List.length_replicate] at hi
    show bitAt w.storage _ = _
    rw [hc _ (by omega) (by omega), BitOp.padding, List.getD_eq_getElem?_getD,
      List.getElem?_replicate]
    simp [hi]

theorem length_padding (B : List Bool) : (B ++ BitOp.padding B).length % 8 = 0 := by
  rw [List.length_append, BitOp.padding, List.length_replicate]
  omega

theorem jumpToByteBoundary_spec (hw : w.Holds B) (hc : w.Clean)
    (hok : w.jumpToByteBoundary.overflowed = false) :
    w.jumpToByteBoundary.Holds (B ++ BitOp.padding B) ∧ w.jumpToByteBoundary.Clean :=
  prepareStorage_spec (align_spec hw hc) (length_padding B) hok

theorem rewind_spec (hw : w.Holds B) (hp : p ≤ B.length) (hok : (w.rewind p).overflowed = false) :
    (w.rewind p).Holds (B.take p) ∧ (w.rewind p).Clean := by
  rw [rewind] at hok ⊢
  cases hwin : w.window (p / 8 + 1) with
  | none =>
    rw [hwin] at hok
    cases hok
  | some storage =>
    obtain ⟨hsame, hlen⟩ := window_spec hwin
    have hbyte : ∀ i, i / 8 = p / 8 →
        (UInt8.ofNat ((storage.getD (p / 8) 0).toNat &&& (2 ^ (p % 8) - 1))).toNat.testBit (i % 8) =
          (decide (i < p) && bitAt w.storage i) := by
      intro i hi
      have hmod : ∀ n, (UInt8.ofNat n).toNat = n % 2 ^ 8 := fun _ => rfl
      have hplace : 8 * (p / 8) + i % 8 = i := by omega
      rw [hmod, Nat.testBit_mod_two_pow, Nat.testBit_and,
        getD_testBit _ _ (Nat.mod_lt _ (by decide)),
        Nat.testBit_two_pow_sub_one, hsame, hplace]
      have hlt : i % 8 < p % 8 ↔ i < p := by omega
      simp [hlt, Nat.mod_lt, Bool.and_comm]
    refine ⟨⟨?_, fun i hi => ?_⟩, fun i hlow hi => ?_⟩
    · rw [List.length_take, Nat.min_eq_left hp]
    · rw [List.length_take] at hi
      show bitAt (splice _ _ _) _ = _
      have hold : bitAt w.storage (0 + i) = (B.take p).getD i false := by
        rw [hw.spells i (by omega), List.getD_eq_getElem?_getD, List.getD_eq_getElem?_getD,
          List.getElem?_take_of_lt (by omega)]
      rw [bitAt_spliceByte hlen]
      by_cases hk : (0 + i) / 8 = p / 8
      · rw [if_pos hk, hbyte _ hk, hold]
        simp [show i < p by omega]
      · rw [if_neg hk, hsame, hold]
    · have hlow' : p ≤ i := hlow
      have hi' : i / 8 = p / 8 := hi
      show bitAt (splice _ _ _) _ = _
      rw [bitAt_spliceByte hlen, if_pos hi', hbyte _ hi']
      simp [show ¬ i < p by omega]

/-- What lies beyond a copy does not count, so that a vector need not be as long. -/
theorem copyBytes_spec {k : ℕ} {data : List UInt8} (h : w.copyBytes k data = some storage) (i : ℕ)
    (hi : i < 8 * (k + data.length)) :
    bitAt storage i = if 8 * k ≤ i then bitAt data (i - 8 * k) else bitAt w.storage i := by
  rw [copyBytes] at h
  cases hg : w.grown with
  | none =>
    rw [hg] at h
    by_cases hfit : k + data.length ≤ w.storage.length
    · simp only [if_pos hfit, Option.some.injEq] at h
      rw [← h, bitAt_splice (by omega)]
      simp [hi]
    · simp only [if_neg hfit, reduceCtorEq] at h
  | some grown =>
    rw [hg] at h
    simp only [Option.some.injEq] at h
    rw [← h, bitAt_splice (by rw [List.length_append, List.length_replicate]; omega),
      bitAt_append_zeros]
    simp [hi]

theorem writeBytes_spec {data : List UInt8} (hw : w.Holds B) (halign : B.length % 8 = 0)
    (hok : (w.writeBytes data).overflowed = false) :
    (w.writeBytes data).Holds (B ++ bytesBits data) ∧ (w.writeBytes data).Clean := by
  rw [writeBytes] at hok ⊢
  cases hcopy : w.copyBytes (w.position / 8) data with
  | none =>
    rw [hcopy] at hok
    cases hok
  | some storage =>
    rw [hcopy] at hok
    have hlen := hw.position_eq
    have hbits := copyBytes_spec hcopy
    refine prepareStorage_spec ⟨?_, spells_append.mpr ⟨fun i hi => ?_, fun i hi => ?_⟩⟩ ?_ hok
    · show w.position + 8 * data.length = _
      rw [List.length_append, length_bytesBits, hlen]
    · show bitAt storage _ = _
      rw [hbits _ (by omega), if_neg (by omega)]
      exact hw.spells i hi
    · rw [length_bytesBits] at hi
      show bitAt storage _ = _
      rw [hbits _ (by omega), if_pos (by omega), getD_bytesBits hi]
      congr 1
      omega
    · rw [List.length_append, length_bytesBits]
      omega

/-- An updated byte takes the fresh bits in its range and keeps the others. -/
theorem testBit_updatedByte (b : UInt8) (v : ℕ) {u c j : ℕ} (hfit : u + c ≤ 8) (hj : j < 8) :
    (updatedByte b v u c).toNat.testBit j = if u ≤ j ∧ j < u + c then v.testBit (j - u)
    else b.toNat.testBit j := by
  have hmod : ∀ n, (UInt8.ofNat n).toNat = n % 2 ^ 8 := fun _ => rfl
  have hpow : 2 ^ (u + c) - 1 < 2 ^ 32 := by
    have : 2 ^ (u + c) ≤ 2 ^ 8 := Nat.pow_le_pow_right (by decide) hfit
    omega
  have hmask : (2 ^ 32 - 1 - (2 ^ (u + c) - 1)).testBit j = !decide (j < u + c) := by
    rw [Nat.sub_sub, Nat.add_comm 1, Nat.testBit_two_pow_sub_succ hpow, Nat.testBit_two_pow_sub_one]
    simp [show j < 32 by omega]
  rw [updatedByte, hmod, Nat.testBit_mod_two_pow, Nat.testBit_or, Nat.testBit_shiftLeft,
    Nat.testBit_and,
    Nat.testBit_and, Nat.testBit_or, hmask, Nat.testBit_two_pow_sub_one,
    Nat.testBit_two_pow_sub_one]
  by_cases hlow : u ≤ j
  · by_cases hhigh : j < u + c
    · simp [hlow, hhigh, hj, show j - u < c by omega, show ¬ j < u by omega]
    · simp [hlow, hhigh, hj, show ¬ j - u < c by omega]
  · simp [hlow, hj, show j < u by omega]

theorem updateFrom_spec (fuel : ℕ) (hfuel : n ≤ fuel)
    (hok : (updateFrom fuel n v p w).overflowed = false) :
    (updateFrom fuel n v p w).position = w.position ∧
      ∀ i, bitAt (updateFrom fuel n v p w).storage i =
        if p ≤ i ∧ i < p + n then v.testBit (i - p) else bitAt w.storage i := by
  induction fuel generalizing n v p w with
  | zero =>
    obtain rfl : n = 0 := Nat.le_zero.mp hfuel
    exact ⟨rfl, fun i => (if_neg (by omega)).symm⟩
  | succ fuel ih =>
    rw [updateFrom] at hok ⊢
    by_cases hmore : 0 < n
    swap
    · rw [if_neg hmore]
      exact ⟨rfl, fun i => (if_neg (by omega)).symm⟩
    rw [if_pos hmore] at hok ⊢
    simp only [] at hok ⊢
    cases hwin : w.window (p / 8 + 1) with
    | none =>
      rw [hwin] at hok
      cases hok
    | some storage =>
      rw [hwin] at hok
      obtain ⟨hsame, hlen⟩ := window_spec hwin
      set c := min n (8 - p % 8) with hcdef
      obtain ⟨hpos, hbits⟩ := ih (by omega) hok
      refine ⟨hpos, fun i => ?_⟩
      rw [hbits]
      by_cases hlater : p + c ≤ i ∧ i < p + c + (n - c)
      · rw [if_pos hlater, if_pos (by omega), Nat.testBit_shiftRight, show c + (i - (p + c)) =
          i - p by omega]
      · rw [if_neg hlater]
        show bitAt (splice _ _ _) _ = _
        rw [bitAt_spliceByte hlen]
        by_cases hbyte : i / 8 = p / 8
        · have hplace : 8 * (p / 8) + i % 8 = i := by omega
          rw [if_pos hbyte, testBit_updatedByte _ _ (by omega) (Nat.mod_lt _ (by decide)),
            getD_testBit _ _ (Nat.mod_lt _ (by decide)), hsame, hplace]
          by_cases hin : p ≤ i ∧ i < p + n
          · rw [if_pos hin, if_pos (by omega), show i % 8 - p % 8 = i - p by omega]
          · rw [if_neg hin, if_neg (by omega)]
        · rw [if_neg hbyte, if_neg (by omega), hsame]

theorem update_spec (hw : w.Holds B) (hp : p + n ≤ B.length)
    (hok : (w.update n v p).overflowed = false) :
    (w.update n v p).Holds (B.take p ++ ofNat n v ++ B.drop (p + n)) ∧
    (w.Clean → (w.update n v p).Clean) := by
  obtain ⟨hpos, hbits⟩ := updateFrom_spec n (le_refl n) hok
  have hlen := hw.position_eq
  refine ⟨⟨?_, fun i hi => ?_⟩, fun hc i hlow hi => ?_⟩
  · rw [List.length_append, List.length_append, List.length_take, List.length_drop, length_ofNat]
    exact hpos.trans (by omega)
  · rw [List.length_append, List.length_append, List.length_take, List.length_drop,
      length_ofNat] at hi
    have hold := hw.spells i (by omega)
    show bitAt (updateFrom n n v p w).storage _ = _
    rw [hbits, List.append_assoc]
    by_cases hbelow : i < p
    · rw [if_neg (by omega), hold, List.getD_append _ _ _ _ (by rw [List.length_take]; omega),
        List.getD_eq_getElem?_getD, List.getD_eq_getElem?_getD, List.getElem?_take_of_lt hbelow]
    · rw [List.getD_append_right _ _ _ _ (by rw [List.length_take]; omega), List.length_take,
        Nat.min_eq_left (by omega)]
      by_cases hin : i < p + n
      · rw [if_pos (by omega), List.getD_append _ _ _ _ (by rw [length_ofNat]; omega),
          getD_ofNat (by omega), Nat.zero_add]
      · rw [if_neg (by omega), hold, List.getD_append_right _ _ _ _ (by rw [length_ofNat]; omega),
          length_ofNat,
          List.getD_eq_getElem?_getD, List.getD_eq_getElem?_getD, List.getElem?_drop]
        congr 2
        omega
  · have hpos' : (w.update n v p).position = w.position := hpos
    rw [hpos'] at hlow hi
    show bitAt (updateFrom n n v p w).storage _ = _
    rw [hbits, if_neg (by omega)]
    exact hc i hlow hi

/-! ### Overflow stays -/

theorem setByte_overflowed {k : ℕ} {b : UInt8} (h : w.overflowed = true) :
    (w.setByte k b).overflowed = true := by
  rw [setByte]
  cases w.window (k + 1) with
  | none => rfl
  | some storage => exact h

theorem write_overflowed (h : w.overflowed = true) : (w.write n v).overflowed = true := by
  rw [write]
  cases w.window (w.position / 8 + writeSlack) with
  | none => rfl
  | some storage => exact h

theorem updateFrom_overflowed (fuel : ℕ) (h : w.overflowed = true) :
    (updateFrom fuel n v p w).overflowed = true := by
  induction fuel generalizing n v p w with
  | zero => exact h
  | succ fuel ih =>
    rw [updateFrom]
    by_cases hmore : 0 < n
    · rw [if_pos hmore]
      simp only []
      cases w.window (p / 8 + 1) with
      | none => rfl
      | some storage => exact ih h
    · rwa [if_neg hmore]

theorem rewind_overflowed (h : w.overflowed = true) : (w.rewind p).overflowed = true := by
  rw [rewind]
  cases w.window (p / 8 + 1) with
  | none => rfl
  | some storage => exact h

theorem writeBytes_overflowed {data : List UInt8} (h : w.overflowed = true) :
    (w.writeBytes data).overflowed = true := by
  rw [writeBytes]
  cases w.copyBytes (w.position / 8) data with
  | none => rfl
  | some storage => exact setByte_overflowed h

/-! ### The position stays in the storage -/

/-- The position is not past the storage's end. -/
def Fits (w : BitWriter) : Prop := w.position ≤ 8 * w.storage.length

theorem setByte_fits {k : ℕ} {b : UInt8} (h : w.Fits) : (w.setByte k b).Fits := by
  rw [Fits] at h
  rw [setByte]
  cases hwin : w.window (k + 1) with
  | none => exact h
  | some storage =>
    have hlong := length_le_window hwin
    have hsplice : storage.length ≤ (splice storage k [b]).length :=
      (le_length_splice (Nat.le_of_succ_le (window_spec hwin).2)).1
    show w.position ≤ 8 * (splice storage k [b]).length
    omega

theorem write_fits (hn : n ≤ maxBitsPerWrite) (hok : (w.write n v).overflowed = false) :
    (w.write n v).Fits := by
  rw [write] at hok ⊢
  rw [maxBitsPerWrite] at hn
  cases hwin : w.window (w.position / 8 + writeSlack) with
  | none =>
    rw [hwin] at hok
    cases hok
  | some storage =>
    have hlen := (window_spec hwin).2
    rw [writeSlack] at hlen
    simp only []
    rw [Fits, length_splice (by rw [length_leBytes]; exact hlen)]
    show w.position + n ≤ 8 * storage.length
    omega

theorem updateFrom_fits (fuel : ℕ) (h : w.Fits) : (updateFrom fuel n v p w).Fits := by
  induction fuel generalizing n v p w with
  | zero => exact h
  | succ fuel ih =>
    rw [updateFrom]
    by_cases hmore : 0 < n
    swap
    · rwa [if_neg hmore]
    rw [if_pos hmore]
    simp only []
    cases hwin : w.window (p / 8 + 1) with
    | none => exact h
    | some storage =>
      refine ih ?_
      rw [Fits] at h
      have hlong := length_le_window hwin
      rw [Fits, length_splice (window_spec hwin).2]
      show w.position ≤ 8 * storage.length
      omega

theorem rewind_fits (hok : (w.rewind p).overflowed = false) : (w.rewind p).Fits := by
  rw [rewind] at hok ⊢
  cases hwin : w.window (p / 8 + 1) with
  | none =>
    rw [hwin] at hok
    cases hok
  | some storage =>
    have hlen := (window_spec hwin).2
    simp only []
    rw [Fits, length_splice hlen]
    show p ≤ 8 * storage.length
    omega

theorem align_fits (h : w.Fits) : w.align.Fits := by
  rw [Fits] at h
  show (w.position + 7) / 8 * 8 ≤ 8 * w.storage.length
  omega

theorem writeBytes_fits {data : List UInt8} (halign : w.position % 8 = 0)
    (hok : (w.writeBytes data).overflowed = false) : (w.writeBytes data).Fits := by
  rw [writeBytes] at hok ⊢
  cases hcopy : w.copyBytes (w.position / 8) data with
  | none =>
    rw [hcopy] at hok
    cases hok
  | some storage =>
    refine setByte_fits ?_
    show w.position + 8 * data.length ≤ 8 * storage.length
    have hlen : w.position / 8 + data.length ≤ storage.length := by
      rw [copyBytes] at hcopy
      cases hg : w.grown with
      | none =>
        rw [hg] at hcopy
        simp only [Option.ite_none_right_eq_some, Option.some.injEq] at hcopy
        rw [← hcopy.2]
        exact (le_length_splice (Nat.le_of_add_right_le hcopy.1)).2
      | some grown =>
        rw [hg] at hcopy
        simp only [Option.some.injEq] at hcopy
        rw [← hcopy]
        refine (le_length_splice ?_).2
        rw [List.length_append, List.length_replicate]
        omega
    omega

/-! ### A vector never overflows -/

theorem window_of_grown (h : w.grown ≠ none) (stop : ℕ) :
    ∃ storage, w.window stop = some storage := by
  obtain ⟨grown, hg⟩ := Option.ne_none_iff_exists'.mp h
  rw [window, hg]
  by_cases hshort : w.storage.length < stop
  · exact ⟨_, if_pos hshort⟩
  · exact ⟨_, if_neg hshort⟩

/-- The writer goes on over a vector, and has not overflowed. -/
def Grows (w : BitWriter) : Prop := w.grown ≠ none ∧ w.overflowed = false

theorem setByte_grows {k : ℕ} {b : UInt8} (h : w.Grows) : (w.setByte k b).Grows := by
  obtain ⟨storage, hwin⟩ := window_of_grown h.1 (k + 1)
  rw [setByte, hwin]
  exact h

theorem updateFrom_grows (fuel : ℕ) (h : w.Grows) : (updateFrom fuel n v p w).Grows := by
  induction fuel generalizing n v p w with
  | zero => exact h
  | succ fuel ih =>
    rw [updateFrom]
    by_cases hmore : 0 < n
    · obtain ⟨storage, hwin⟩ := window_of_grown h.1 (p / 8 + 1)
      rw [if_pos hmore]
      simp only []
      rw [hwin]
      exact ih h
    · rwa [if_neg hmore]

theorem writeBytes_grows {data : List UInt8} (h : w.Grows) : (w.writeBytes data).Grows := by
  obtain ⟨grown, hg⟩ := Option.ne_none_iff_exists'.mp h.1
  rw [writeBytes, copyBytes, hg]
  exact setByte_grows ⟨Option.some_ne_none grown, h.2⟩

end BitWriter

namespace BitOp
open BitWriter

variable {start : ℕ} {w : BitWriter}

theorem apply_grows (op : BitOp) (h : w.Grows) : (op.apply start w).Grows := by
  cases op with
  | write nBits bits =>
    obtain ⟨storage, hwin⟩ := window_of_grown h.1 (w.position / 8 + writeSlack)
    show (w.write nBits bits).Grows
    rw [BitWriter.write, hwin]
    exact h
  | update nBits bits position => exact updateFrom_grows _ h
  | rewind position =>
    obtain ⟨storage, hwin⟩ := window_of_grown h.1 ((8 * start + position) / 8 + 1)
    show (w.rewind (8 * start + position)).Grows
    rw [BitWriter.rewind, hwin]
    exact h
  | align => exact h
  | jumpToByteBoundary => exact setByte_grows h
  | prepareStorage => exact setByte_grows h
  | writeBytes data => exact writeBytes_grows h
  | setByte index value => exact setByte_grows h

theorem run_grows (ops : List BitOp) (h : w.Grows) : (run start ops w).Grows := by
  induction ops generalizing w with
  | nil => exact h
  | cons op ops ih => exact ih (apply_grows op h)

theorem apply_overflowed (op : BitOp) (h : w.overflowed = true) :
    (op.apply start w).overflowed = true := by
  cases op with
  | write nBits bits => exact write_overflowed h
  | update nBits bits position => exact updateFrom_overflowed _ h
  | rewind position => exact rewind_overflowed h
  | align => exact h
  | jumpToByteBoundary => exact setByte_overflowed h
  | prepareStorage => exact setByte_overflowed h
  | writeBytes data => exact writeBytes_overflowed h
  | setByte index value => exact setByte_overflowed h

theorem run_overflowed (ops : List BitOp) (h : w.overflowed = true) :
    (run start ops w).overflowed = true := by
  induction ops generalizing w with
  | nil => exact h
  | cons op ops ih => exact ih (apply_overflowed op h)

/-- A run that ends well was well all along. -/
theorem ok_of_run {ops : List BitOp} (h : (run start ops w).overflowed = false) :
    w.overflowed = false := by
  by_contra hover
  rw [run_overflowed ops (Bool.eq_true_of_not_eq_false hover)] at h
  cases h

/-- Padding only looks at the place within a byte. -/
theorem padding_append {P B : List Bool} (hP : P.length = 8 * start) :
    padding (P ++ B) = padding B := by
  rw [padding, padding, List.length_append]
  congr 1
  omega

/-- **A legal call extends the string the storage holds**, behind any whole bytes. -/
theorem apply_spec {P B : List Bool} {c : Bool} (op : BitOp) (hP : P.length = 8 * start)
    (hw : w.Holds (P ++ B))
    (hc : c = true → w.Clean) (hlegal : op.Legal B c)
    (hok : (op.apply start w).overflowed = false) :
    (op.apply start w).Holds (P ++ op.bits B) ∧
    (op.clean B c = true → (op.apply start w).Clean) := by
  have hlen : (P ++ B).length % 8 = B.length % 8 := by
    rw [List.length_append]
    omega
  cases op with
  | write nBits bits =>
    obtain ⟨hn, hv, hclean⟩ := hlegal
    obtain ⟨h1, h2⟩ := write_spec hw (hc hclean) hn hv hok
    exact ⟨List.append_assoc P B _ ▸ h1, fun _ => h2⟩
  | update nBits bits position =>
    have hp : position + nBits ≤ B.length := hlegal
    obtain ⟨h1, h2⟩ := update_spec hw (by rw [List.length_append]; omega) hok
    refine ⟨?_, fun hclean => h2 (hc hclean)⟩
    have htake : (P ++ B).take (8 * start + position) = P ++ B.take position :=
      hP ▸ List.take_length_add_append position
    have hdrop : (P ++ B).drop (8 * start + position + nBits) = B.drop (position + nBits) := by
      rw [Nat.add_assoc, ← hP]
      exact List.drop_length_add_append _
    rw [htake, hdrop, List.append_assoc, List.append_assoc,
      ← List.append_assoc (B.take position)] at h1
    exact h1
  | rewind position =>
    have hp : position ≤ B.length := hlegal
    obtain ⟨h1, h2⟩ := rewind_spec hw (by rw [List.length_append]; omega) hok
    have htake : (P ++ B).take (8 * start + position) = P ++ B.take position :=
      hP ▸ List.take_length_add_append position
    exact ⟨htake ▸ h1, fun _ => h2⟩
  | align =>
    have h1 := align_spec hw (hc hlegal)
    rw [padding_append hP, List.append_assoc] at h1
    refine ⟨h1, fun hclean => ?_⟩
    have hwhole : B.length % 8 = 0 := by
      simp only [clean, Bool.and_eq_true, beq_iff_eq] at hclean
      exact hclean.2
    have hsame : w.align = w := by
      have hpos := hw.position_eq
      rw [BitWriter.align]
      congr 1
      omega
    show w.align.Clean
    rw [hsame]
    exact hc hlegal
  | jumpToByteBoundary =>
    obtain ⟨h1, h2⟩ := jumpToByteBoundary_spec hw (hc hlegal) hok
    rw [padding_append hP, List.append_assoc] at h1
    exact ⟨h1, fun _ => h2⟩
  | prepareStorage =>
    obtain ⟨h1, h2⟩ := prepareStorage_spec hw (hlen.trans hlegal) hok
    exact ⟨h1, fun _ => h2⟩
  | writeBytes data =>
    obtain ⟨h1, h2⟩ := writeBytes_spec hw (hlen.trans hlegal) hok
    exact ⟨List.append_assoc P B _ ▸ h1, fun _ => h2⟩
  | setByte index value =>
    have hzero : index = B.length / 8 → value.toNat < 2 ^ (B.length % 8) := hlegal
    obtain ⟨h1, h2⟩ := setByte_restores (k := start + index) (b := value) hw (fun hindex => by
      rw [hlen]
      refine hzero ?_
      rw [List.length_append] at hindex
      omega) hok
    exact ⟨restored_append hP index value ▸ h1, fun hclean => h2 (hc hclean)⟩

theorem apply_fits {P B : List Bool} {c : Bool} (op : BitOp) (hP : P.length = 8 * start)
    (hw : w.Holds (P ++ B))
    (hlegal : op.Legal B c) (hfits : w.Fits) (hok : (op.apply start w).overflowed = false) :
    (op.apply start w).Fits := by
  cases op with
  | write nBits bits => exact write_fits hlegal.1 hok
  | update nBits bits position => exact updateFrom_fits _ hfits
  | rewind position => exact rewind_fits hok
  | align => exact align_fits hfits
  | jumpToByteBoundary => exact setByte_fits (align_fits hfits)
  | prepareStorage => exact setByte_fits hfits
  | writeBytes data =>
    have halign : B.length % 8 = 0 := hlegal
    have hpos := hw.position_eq
    rw [List.length_append] at hpos
    exact writeBytes_fits (by omega) hok
  | setByte index value => exact setByte_fits hfits

/-- **A legal run leaves its bits in the storage**, behind any whole bytes and over
any stale ones. -/
theorem run_spec {P B : List Bool} {c : Bool} (ops : List BitOp) (hP : P.length = 8 * start)
    (hw : w.Holds (P ++ B))
    (hc : c = true → w.Clean) (hlegal : LegalRun ops B c)
    (hok : (run start ops w).overflowed = false) :
    (run start ops w).Holds (P ++ runBits ops B) ∧
    (runClean ops B c = true → (run start ops w).Clean) ∧
      (w.Fits → (run start ops w).Fits) := by
  induction ops generalizing w B c with
  | nil => exact ⟨hw, hc, id⟩
  | cons op ops ih =>
    obtain ⟨h1, h2⟩ := apply_spec op hP hw hc hlegal.1 (ok_of_run hok)
    obtain ⟨hend, hclean, hfits⟩ := ih h1 h2 hlegal.2 hok
    exact ⟨hend, hclean, fun h => hfits (apply_fits op hP hw hlegal.1 h (ok_of_run hok))⟩

/-! ### The bits of a run -/

variable {B : List Bool} {c : Bool}

theorem runBits_append (xs ys : List BitOp) (B : List Bool) :
    runBits (xs ++ ys) B = runBits ys (runBits xs B) := by
  induction xs generalizing B with
  | nil => rfl
  | cons op xs ih => exact ih _

theorem runClean_append (xs ys : List BitOp) (B : List Bool) (c : Bool) :
    runClean (xs ++ ys) B c = runClean ys (runBits xs B) (runClean xs B c) := by
  induction xs generalizing B c with
  | nil => rfl
  | cons op xs ih => exact ih _ _

theorem legalRun_append (xs ys : List BitOp) (B : List Bool) (c : Bool) :
    LegalRun (xs ++ ys) B c ↔ LegalRun xs B c ∧ LegalRun ys (runBits xs B) (runClean xs B c) := by
  induction xs generalizing B c with
  | nil => exact (true_and _).symm ▸ Iff.rfl
  | cons op xs ih =>
    show _ ∧ LegalRun (xs ++ ys) _ _ ↔ (_ ∧ LegalRun xs _ _) ∧ _
    rw [ih, and_assoc]
    rfl

end BitOp

end Mbrotli.Compressor
