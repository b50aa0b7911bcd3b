/-
# The lazily allocated ring buffer

`RingBuffer` is the encoder's window: a ring of `size` bytes, a tail that mirrors the
first `tailSize` of them so that a read may run past the wrap, two bytes before the
origin and seven of margin. Until the ring nears its first wrap only the written prefix
is stored (`appendPrefix`); then the whole layout is made (`materialize`), with the tail
copies it owes. Positions keep thirty-one bits and a sticky bit for the laps.

`RingBuffer.Holds` relates the ring to the flat history of what was written since the
last reset; every operation keeps it (`Holds.apply`), so the ring reads like the history
(`Holds.read`, `Holds.run`). `mirrored` is the same window with all its storage from the
start; `flat_history` has both.
-/
import Mathlib.Data.Nat.Bitwise
import Mathlib.Data.Nat.ModEq
import Mbrotli.Decompressor.Core.Memory

namespace Mbrotli

namespace Buffer

variable {α : Type}

/-- Copies a slice over the elements from `start` on, if they are all there. -/
def copyFrom [Inhabited α] (b : Buffer α) (start : ℕ) (l : List α) : Buffer α :=
  { b with get := fun i =>
      if start + l.length ≤ b.len ∧ start ≤ i ∧ i < start + l.length then l.getD (i - start) default
        else b.get i }

/-- Copies the elements from `start` to `stop` to `dest`. -/
def copyWithin (b : Buffer α) (start stop dest : ℕ) : Buffer α :=
  { b with get := fun i => if dest ≤ i ∧ i < dest + (stop - start) then b.get (start + (i - dest))
    else b.get i }

/-- Writes the elements that are there of the `n` from `start` on. -/
def fill (b : Buffer α) (start n : ℕ) (a : α) : Buffer α :=
  { b with get := fun i => if start ≤ i ∧ i < start + n ∧ i < b.len then a else b.get i }

/-- `Vec::truncate`. -/
def truncate (b : Buffer α) (n : ℕ) : Buffer α := { b with len := min b.len n }

def reserve (b : Buffer α) (n : ℕ) : Buffer α := { b with cap := max b.cap (b.len + n) }

def extendFromSlice [Inhabited α] (b : Buffer α) (l : List α) : Buffer α :=
  b.extend l.length fun i => l.getD i default

end Buffer

namespace Compressor

def slackForEightByteHashing : ℕ := 7
def headRoom : ℕ := 2
def tailSentinel : UInt8 := 241

structure RingBuffer where
  size : ℕ
  mask : ℕ
  tailSize : ℕ
  totalSize : ℕ
  curSize : ℕ := 0
  /-- The tail mirrors nothing below this index of a short first write. -/
  tailStart : ℕ := 0
  pos : ℕ := 0
  expectedInput : ℕ := 0
  data : Buffer UInt8 := .new 0

namespace RingBuffer

def new (rbBits lgblock : ℕ) : RingBuffer :=
  let size := 1 <<< rbBits
  let tailSize := 1 <<< lgblock
  { size, mask := size - 1, tailSize, totalSize := size + tailSize }

def expectInput (rb : RingBuffer) (bytes : ℕ) : RingBuffer := { rb with expectedInput := bytes }

/-- The window's bytes, indexed by masked position: the ring, its tail and the margin. -/
def buffer (rb : RingBuffer) : List UInt8 := rb.data.toList.drop headRoom

/-- Restores the state the constructor left. The bytes are left where they are. -/
def reset (rb : RingBuffer) : RingBuffer := { rb with curSize := 0, tailStart := 0, pos := 0 }

/-- Grows the storage to `buflen` bytes. -/
def initBuffer (rb : RingBuffer) (buflen : ℕ) : RingBuffer :=
  let data := rb.data.resize (headRoom + buflen + slackForEightByteHashing) 0
  let data := data.fill (headRoom + buflen) slackForEightByteHashing 0
  { rb with data := data.fill 0 headRoom 0, curSize := buflen }

/-- Appends `bytes` to a window that only holds the written prefix, which then ends at
`stop`. -/
def appendPrefix (rb : RingBuffer) (bytes : List UInt8) (stop : ℕ) : RingBuffer :=
  let start := headRoom + rb.pos
  let data := rb.data.truncate start
  let expected := if rb.size - 8 ≤ rb.expectedInput then rb.totalSize else max rb.expectedInput stop
  let data := data.reserve (headRoom + expected + slackForEightByteHashing - data.len)
  let data := (data.resize start 0).extendFromSlice bytes
  let data := data.extendFromSlice (List.replicate slackForEightByteHashing 0)
  { rb with data := data.fill 0 headRoom 0, curSize := stop }

/-- Writes the `index`-th byte of the window, if it is there. -/
def set (rb : RingBuffer) (index : ℕ) (value : UInt8) : RingBuffer :=
  { rb with data := rb.data.fill (headRoom + index) 1 value }

/-- Copies the head of `bytes` into the tail. -/
def writeTail (rb : RingBuffer) (bytes : List UInt8) : RingBuffer :=
  let maskedPos := rb.pos &&& rb.mask
  if rb.tailSize ≤ maskedPos then rb
  else
    let count := min bytes.length (rb.tailSize - maskedPos)
    { rb with data := rb.data.copyFrom (headRoom + rb.size + maskedPos) (bytes.take count) }

/-- The first write past the prefix makes the whole layout, and the tail copies that
were put off. -/
def materialize (rb : RingBuffer) : RingBuffer :=
  let mirroredEnd := min rb.pos rb.tailSize
  let rb := rb.initBuffer rb.totalSize
  let rb := ((rb.set (rb.size - 2) 0).set (rb.size - 1) 0).set rb.size tailSentinel
  if rb.tailStart < mirroredEnd then
    { rb with data := rb.data.copyWithin (headRoom + rb.tailStart) (headRoom + mirroredEnd)
                        (headRoom + rb.size + rb.tailStart) }
  else rb

/-- A write to the whole layout. -/
def writeFull (rb : RingBuffer) (bytes : List UInt8) : RingBuffer :=
  let maskedPos := rb.pos &&& rb.mask
  let rb := rb.writeTail bytes
  let data :=
    if maskedPos + bytes.length ≤ rb.size then rb.data.copyFrom (headRoom + maskedPos) bytes
    else
      let head := min (rb.totalSize - maskedPos) bytes.length
      let wrapped := rb.size - maskedPos
      (rb.data.copyFrom (headRoom + maskedPos) (bytes.take head)).copyFrom headRoom
        (bytes.drop wrapped)
  let data :=
    (data.fill 0 1 (data.get (headRoom + (rb.size - 2)))).fill 1 1
      (data.get (headRoom + (rb.size - 1)))
  let next := rb.pos % 2 ^ 31 + bytes.length % 2 ^ 32 % 2 ^ 31
  { rb with data, pos := if rb.pos.testBit 31 then next ||| 2 ^ 31 else next }

/-- Appends `bytes` to the window. -/
def write (rb : RingBuffer) (bytes : List UInt8) : RingBuffer :=
  let stop := rb.pos + bytes.length
  if rb.curSize < rb.totalSize ∧ stop < rb.size - 8 then
    let tailStart := if rb.pos = 0 then (if bytes.length < rb.tailSize then bytes.length else 0)
      else rb.tailStart
    { ({ rb with tailStart }).appendPrefix bytes stop with pos := stop % 2 ^ 32 }
  else if rb.curSize < rb.totalSize then rb.materialize.writeFull bytes
  else rb.writeFull bytes

/-- Clears the seven bytes that follow the written data on the first lap. -/
def clearMargin (rb : RingBuffer) : RingBuffer :=
  if rb.mask < rb.pos then rb
  else { rb with data := rb.data.fill (headRoom + rb.pos) slackForEightByteHashing 0 }

end RingBuffer

/-- What is done with a window. -/
inductive RingOp where
  | write (bytes : List UInt8)
  | clearMargin
  | expectInput (bytes : ℕ)
  | reset

namespace RingBuffer

def apply (rb : RingBuffer) : RingOp → RingBuffer
  | .write bytes => rb.write bytes
  | .clearMargin => rb.clearMargin
  | .expectInput bytes => rb.expectInput bytes
  | .reset => rb.reset

end RingBuffer

namespace RingOp

/-- Writes are no longer than the tail. -/
def Fits (tailSize : ℕ) : RingOp → Prop
  | .write bytes => bytes.length ≤ tailSize
  | _ => True

/-- What was written since the last reset. -/
def extend (history : List UInt8) : RingOp → List UInt8
  | .write bytes => history ++ bytes
  | .reset => []
  | _ => history

end RingOp

/-! ### The shape of a window -/

namespace RingBuffer

/-- What the constructor fixes: a power of two, with a tail of at most half of it. -/
structure Shape (rbBits lgblock : ℕ) (rb : RingBuffer) : Prop where
  size : rb.size = 2 ^ rbBits
  mask : rb.mask = 2 ^ rbBits - 1
  tailSize : rb.tailSize = 2 ^ lgblock
  totalSize : rb.totalSize = 2 ^ rbBits + 2 ^ lgblock

/-- The windows the encoders make: the ring is at least twice its tail. -/
structure Sizes (rbBits lgblock : ℕ) : Prop where
  lt : lgblock < rbBits
  four_le : 4 ≤ rbBits
  le : rbBits ≤ 31

variable {rbBits lgblock : ℕ}

/-- The bits of the encoders' windows. -/
theorem sizes_rbBits {lgwin lgblock : ℕ} (h10 : 10 ≤ lgwin) (h30 : lgwin ≤ 30) (hb : lgblock ≤ 30) :
    Sizes (1 + max lgwin lgblock) lgblock := ⟨by omega, by omega, by omega⟩

theorem Sizes.bounds (h : Sizes rbBits lgblock) :
    16 ≤ 2 ^ rbBits ∧ 2 ^ rbBits ≤ 2 ^ 31 ∧ 2 * 2 ^ lgblock ≤ 2 ^ rbBits ∧
    0 < 2 ^ lgblock := by
  refine ⟨?_, Nat.pow_le_pow_right (by omega) h.le, ?_, Nat.two_pow_pos _⟩
  · calc 16 = 2 ^ 4 := rfl
      _ ≤ 2 ^ rbBits := Nat.pow_le_pow_right (by omega) h.four_le
  · calc 2 * 2 ^ lgblock = 2 ^ (lgblock + 1) := by rw [pow_succ, mul_comm]
      _ ≤ 2 ^ rbBits := Nat.pow_le_pow_right (by omega) h.lt

theorem new_shape (rbBits lgblock : ℕ) : Shape rbBits lgblock (new rbBits lgblock) := by
  refine ⟨?_, ?_, ?_, ?_⟩ <;> simp [new, Nat.shiftLeft_eq]

theorem Shape.masked {rb : RingBuffer} (h : Shape rbBits lgblock rb) (position : ℕ) :
    position &&& rb.mask = position % 2 ^ rbBits := by
  rw [h.mask, Nat.and_two_pow_sub_one_eq_mod]

/-- How far after `m` an index comes, around the ring. -/
def offset (size m j : ℕ) : ℕ := if m ≤ j then j - m else j + size - m

theorem copyFrom_get {b : Buffer UInt8} {start : ℕ} {l : List UInt8}
    (h : start + l.length ≤ b.len) (i : ℕ) :
    (b.copyFrom start l).get i = if start ≤ i ∧ i < start + l.length then l.getD (i - start) 0
    else b.get i := by
  unfold Buffer.copyFrom
  simp only [h, true_and]
  rfl

theorem getD_take {l : List UInt8} {n i : ℕ} (h : i < n) : (l.take n).getD i 0 = l.getD i 0 := by
  rw [List.getD_eq_getElem?_getD, List.getElem?_take_of_lt h, List.getD_eq_getElem?_getD]

theorem getD_drop (l : List UInt8) (n i : ℕ) : (l.drop n).getD i 0 = l.getD (n + i) 0 := by
  rw [List.getD_eq_getElem?_getD, List.getElem?_drop, List.getD_eq_getElem?_getD]

/-! ### A write to the whole layout -/

section WriteFull

variable {rb : RingBuffer} {bytes : List UInt8}

/-- Reads the written bytes within the ring and the tail, before the head bytes are
updated. -/
theorem writeFull_get (hs : Sizes rbBits lgblock) (h : Shape rbBits lgblock rb)
    (hlen : rb.data.len = headRoom + rb.totalSize + slackForEightByteHashing)
    (hn : bytes.length ≤ rb.tailSize) {i j : ℕ}
    (hi : i = headRoom + j ∧ j < rb.size ∨ i = headRoom + rb.size + j ∧ j < rb.tailSize) :
    (rb.writeFull bytes).data.get i =
      if offset rb.size (rb.pos % rb.size) j < bytes.length then bytes.getD
      (offset rb.size (rb.pos % rb.size) j) 0
      else rb.data.get i := by
  obtain ⟨h16, h31, h2, h0⟩ := hs.bounds
  have hm := h.masked rb.pos
  rw [← h.size] at hm h16 h2
  rw [← h.tailSize] at h2 h0
  have htotal : rb.totalSize = rb.size + rb.tailSize := by rw [h.totalSize, h.size, h.tailSize]
  have hmlt : rb.pos % rb.size < rb.size := Nat.mod_lt _ (by omega)
  unfold writeFull
  generalize hwt : rb.writeTail bytes = wt
  -- what the tail mirror takes
  have htail : wt.size = rb.size ∧ wt.totalSize = rb.totalSize ∧ wt.data.len = rb.data.len ∧
    ∀ i, wt.data.get i =
      if headRoom + rb.size + rb.pos % rb.size ≤ i ∧
      i < headRoom + rb.size + min (rb.pos % rb.size + bytes.length) rb.tailSize
      then bytes.getD (i - (headRoom + rb.size + rb.pos % rb.size)) 0 else rb.data.get i := by
    rw [← hwt]
    unfold writeTail
    simp only [hm]
    split
    · refine ⟨rfl, rfl, rfl, fun i => ?_⟩
      rw [if_neg (by omega)]
    · refine ⟨rfl, rfl, rfl, fun i => ?_⟩
      have hl : (bytes.take (min bytes.length (rb.tailSize - rb.pos % rb.size))).length =
          min bytes.length (rb.tailSize - rb.pos % rb.size) := by rw [List.length_take]; omega
      rw [copyFrom_get (by rw [hl, hlen, htotal]; omega), hl]
      by_cases hc : headRoom + rb.size + rb.pos % rb.size ≤ i ∧
          i < headRoom + rb.size + rb.pos % rb.size +
          min bytes.length (rb.tailSize - rb.pos % rb.size)
      · rw [if_pos hc, if_pos (by omega), getD_take (by omega)]
      · rw [if_neg hc, if_neg (by omega)]
  obtain ⟨hsize, htot, hwlen, hget⟩ := htail
  simp only [hm, hsize, htot]
  rw [Buffer.fill, Buffer.fill]
  simp only
  have h1 : ∀ k, ¬ (1 ≤ i ∧ i < 1 + 1 ∧ i < k) := fun k => by simp only [headRoom] at hi; omega
  have h0' : ∀ k, ¬ (0 ≤ i ∧ i < 0 + 1 ∧ i < k) := fun k => by simp only [headRoom] at hi; omega
  rw [if_neg (h1 _), if_neg (h0' _)]
  unfold offset
  by_cases hstraight : rb.pos % rb.size + bytes.length ≤ rb.size
  · rw [if_pos hstraight, copyFrom_get (by rw [hwlen, hlen, htotal]; omega), hget]
    rcases hi with ⟨rfl, hj⟩ | ⟨rfl, hj⟩
    · by_cases hmj : rb.pos % rb.size ≤ j
      · rw [if_pos hmj]
        by_cases hin : j - rb.pos % rb.size < bytes.length
        · rw [if_pos hin, if_pos (by omega)]
          congr 1
          omega
        · rw [if_neg hin, if_neg (by omega), if_neg (by omega)]
      · rw [if_neg hmj, if_neg (by omega), if_neg (by omega), if_neg (by omega)]
    · rw [if_neg (by omega)]
      by_cases hmj : rb.pos % rb.size ≤ j
      · rw [if_pos hmj]
        by_cases hin : j - rb.pos % rb.size < bytes.length
        · rw [if_pos hin, if_pos (by omega)]
          congr 1
          omega
        · rw [if_neg hin, if_neg (by omega)]
      · rw [if_neg hmj, if_neg (by omega), if_neg (by omega)]
  · -- the write passes the end of the ring: its second part goes to the tail and to the start
    have hhead : min (rb.totalSize - rb.pos % rb.size) bytes.length = bytes.length := by omega
    have hdrop : (bytes.drop (rb.size - rb.pos % rb.size)).length =
        rb.pos % rb.size + bytes.length - rb.size := by
      rw [List.length_drop]
      omega
    have hw1 : headRoom + rb.pos % rb.size + (bytes.take bytes.length).length ≤ wt.data.len := by
      rw [List.take_length, hwlen, hlen, htotal]
      omega
    rw [if_neg hstraight, hhead, copyFrom_get (by
      show _ ≤ wt.data.len
      rw [hdrop, hwlen, hlen, htotal]
      omega), copyFrom_get hw1, hdrop, List.take_length, hget]
    rcases hi with ⟨rfl, hj⟩ | ⟨rfl, hj⟩
    · by_cases hmj : rb.pos % rb.size ≤ j
      · rw [if_pos hmj, if_neg (by omega), if_pos (by omega), if_pos (by omega)]
        congr 1
        omega
      · rw [if_neg hmj]
        by_cases hin : j + rb.size - rb.pos % rb.size < bytes.length
        · rw [if_pos hin, if_pos (by omega), getD_drop]
          congr 1
          omega
        · rw [if_neg hin, if_neg (by omega), if_neg (by omega), if_neg (by omega)]
    · have hmj : ¬ rb.pos % rb.size ≤ j := by omega
      rw [if_neg (by omega), if_neg hmj]
      by_cases hin : j + rb.size - rb.pos % rb.size < bytes.length
      · rw [if_pos hin, if_pos (by omega)]
        congr 1
        omega
      · rw [if_neg hin, if_neg (by omega), if_neg (by omega)]

end WriteFull

/-! ### The ring holds the history -/

/-- The ring and its tail hold the bytes of the history that are still in reach, and the
position counts its length. -/
structure Holds (rbBits lgblock : ℕ) (rb : RingBuffer) (history : List UInt8) : Prop where
  shape : Shape rbBits lgblock rb
  low : rb.pos % 2 ^ 31 = history.length % 2 ^ 31
  lap : 2 ^ 31 ≤ rb.pos ↔ 2 ^ 31 ≤ history.length
  lt : rb.pos < 2 ^ 32
  /-- Before the whole layout is made, the prefix is stored. -/
  short : rb.curSize < rb.totalSize → history.length < rb.size - 8 ∧
    (history ≠ [] → rb.data.len = headRoom + history.length + slackForEightByteHashing) ∧
    ∀ q, q < history.length → rb.data.get (headRoom + q) = history.getD q 0
  full : rb.totalSize ≤ rb.curSize →
    rb.data.len = headRoom + rb.totalSize + slackForEightByteHashing ∧
    ∀ q, q < history.length → history.length ≤ q + rb.size →
      rb.data.get (headRoom + q % rb.size) = history.getD q 0 ∧
      (rb.size ≤ q → q % rb.size < rb.tailSize → rb.data.get (headRoom + rb.size + q % rb.size) =
        history.getD q 0)

variable {rb : RingBuffer} {history : List UInt8}

theorem new_holds (hs : Sizes rbBits lgblock) : Holds rbBits lgblock (new rbBits lgblock) [] := by
  obtain ⟨h16, -, -, h0⟩ := hs.bounds
  have hshape := new_shape rbBits lgblock
  refine ⟨hshape, rfl, by simp [new], by simp [new],
    fun _ => ⟨?_, fun h => absurd rfl h, fun q hq => absurd hq (Nat.not_lt_zero q)⟩,
    fun h => ?_⟩
  · rw [hshape.size, List.length_nil]
    omega
  · rw [hshape.totalSize] at h
    simp only [new] at h
    omega

/-- The position and the length of the history agree within the ring. -/
theorem Holds.pos_mod (hs : Sizes rbBits lgblock) (h : Holds rbBits lgblock rb history) :
    rb.pos % rb.size = history.length % rb.size := by
  have hdvd : rb.size ∣ 2 ^ 31 := by
    rw [h.shape.size]
    exact pow_dvd_pow 2 hs.le
  rw [← Nat.mod_mod_of_dvd rb.pos hdvd, h.low, Nat.mod_mod_of_dvd _ hdvd]

theorem Holds.pos_eq (h : Holds rbBits lgblock rb history) (hlt : history.length < 2 ^ 31) :
    rb.pos = history.length := by
  have hpos : ¬ 2 ^ 31 ≤ rb.pos := fun hle => absurd (h.lap.1 hle) (Nat.not_le.2 hlt)
  have hlow := h.low
  rwa [Nat.mod_eq_of_lt (Nat.not_le.1 hpos), Nat.mod_eq_of_lt hlt] at hlow

/-- Two positions less than a lap apart have different indices. -/
theorem mod_ne_of_lt {size a b : ℕ} (h1 : a < b) (h2 : b < a + size) : a % size ≠ b % size := by
  intro h
  have hdvd := (Nat.modEq_iff_dvd' h1.le).1 h
  have := Nat.le_of_dvd (by omega) hdvd
  omega

/-- How far a position's index comes after another's. -/
theorem offset_mod {size a k : ℕ} (hk : k < size) :
    offset size (a % size) ((a + k) % size) = k := by
  have hpos : 0 < size := by omega
  have ha := Nat.mod_lt a hpos
  unfold offset
  rw [Nat.add_mod, Nat.mod_eq_of_lt hk]
  by_cases h : a % size + k < size
  · rw [Nat.mod_eq_of_lt h, if_pos (by omega)]
    omega
  · have hsum : (a % size + k) % size = a % size + k - size := by
      rw [Nat.mod_eq_sub_mod (Nat.not_lt.1 h), Nat.mod_eq_of_lt (by omega)]
    rw [hsum, if_neg (by omega)]
    omega

theorem add_offset_mod {size a j : ℕ} (hj : j < size) :
    (a + offset size (a % size) j) % size = j := by
  have ha := Nat.mod_lt a (show 0 < size by omega)
  unfold offset
  rw [Nat.add_mod]
  split
  · rw [Nat.mod_eq_of_lt (show j - a % size < size by omega),
      show a % size + (j - a % size) = j by omega,
      Nat.mod_eq_of_lt hj]
  · rw [Nat.mod_eq_of_lt (show j + size - a % size < size by omega),
      show a % size + (j + size - a % size) = j + size by omega,
      Nat.add_mod_right, Nat.mod_eq_of_lt hj]

/-- A write to the whole layout changes only the bytes and the position. -/
theorem writeFull_fields (rb : RingBuffer) (bytes : List UInt8) :
    (rb.writeFull bytes).size = rb.size ∧
    (rb.writeFull bytes).mask = rb.mask ∧ (rb.writeFull bytes).tailSize = rb.tailSize ∧
    (rb.writeFull bytes).totalSize = rb.totalSize ∧ (rb.writeFull bytes).curSize = rb.curSize ∧
    (rb.writeFull bytes).data.len = rb.data.len := by
  unfold writeFull writeTail
  dsimp only
  split <;> split <;> exact ⟨rfl, rfl, rfl, rfl, rfl, rfl⟩

theorem writeFull_pos (rb : RingBuffer) (bytes : List UInt8) : (rb.writeFull bytes).pos =
    if rb.pos.testBit 31 then (rb.pos % 2 ^ 31 + bytes.length % 2 ^ 32 % 2 ^ 31) ||| 2 ^ 31
    else rb.pos % 2 ^ 31 + bytes.length % 2 ^ 32 % 2 ^ 31 := by
  unfold writeFull writeTail
  dsimp only
  split <;> rfl

theorem pos_writeFull (rb : RingBuffer) (bytes : List UInt8) (hn : bytes.length < 2 ^ 31)
    (hlt : rb.pos < 2 ^ 32) :
    (rb.writeFull bytes).pos = rb.pos % 2 ^ 31 + bytes.length ∧ rb.pos < 2 ^ 31 ∨
      (rb.writeFull bytes).pos % 2 ^ 31 = (rb.pos % 2 ^ 31 + bytes.length) % 2 ^ 31 ∧
      2 ^ 31 ≤ rb.pos ∧
        2 ^ 31 ≤ (rb.writeFull bytes).pos ∧ (rb.writeFull bytes).pos < 2 ^ 32 := by
  have hnext : bytes.length % 2 ^ 32 % 2 ^ 31 = bytes.length := by
    rw [Nat.mod_eq_of_lt (show bytes.length < 2 ^ 32 by omega), Nat.mod_eq_of_lt hn]
  have hbit : rb.pos.testBit 31 = decide (2 ^ 31 ≤ rb.pos) := by
    rw [Nat.testBit_eq_decide_div_mod_eq]
    congr 1
    rw [eq_iff_iff]
    omega
  have hpos : (rb.writeFull bytes).pos = if 2 ^ 31 ≤ rb.pos
    then (rb.pos % 2 ^ 31 + bytes.length) ||| 2 ^ 31
      else rb.pos % 2 ^ 31 + bytes.length := by
    rw [writeFull_pos, hbit, hnext]
    simp only [decide_eq_true_eq]
  by_cases hlap : 2 ^ 31 ≤ rb.pos
  · rw [if_pos hlap] at hpos
    refine Or.inr ⟨?_, hlap, ?_, ?_⟩
    · rw [hpos, Nat.or_mod_two_pow, Nat.mod_self, Nat.or_zero]
    · rw [hpos]
      exact Nat.right_le_or
    · rw [hpos]
      exact Nat.or_lt_two_pow (by omega) (by omega)
  · rw [if_neg hlap] at hpos
    exact Or.inl ⟨hpos, Nat.not_le.1 hlap⟩

/-- What a write to the whole layout leaves. -/
theorem Holds.writeFull (hs : Sizes rbBits lgblock) (h : Holds rbBits lgblock rb history)
    (hcur : rb.totalSize ≤ rb.curSize)
    {bytes : List UInt8} (hn : bytes.length ≤ rb.tailSize) :
    Holds rbBits lgblock (rb.writeFull bytes) (history ++ bytes) ∧ (rb.writeFull bytes).totalSize ≤
    (rb.writeFull bytes).curSize := by
  obtain ⟨h16, h31, h2, h0⟩ := hs.bounds
  rw [← h.shape.size] at h16 h31 h2
  rw [← h.shape.tailSize] at h2 h0
  obtain ⟨hlen, hheld⟩ := h.full hcur
  have hpos := h.pos_mod hs
  obtain ⟨e1, e2, e3, e4, e5, e6⟩ := writeFull_fields rb bytes
  have hget : ∀ {i j}, i = headRoom + j ∧ j < rb.size ∨ i = headRoom + rb.size + j ∧
    j < rb.tailSize →
      (rb.writeFull bytes).data.get i =
      if offset rb.size (history.length % rb.size) j < bytes.length then
        bytes.getD (offset rb.size (history.length % rb.size) j) 0 else rb.data.get i :=
          fun hi => by
    rw [writeFull_get hs h.shape hlen hn hi, hpos]
  refine ⟨⟨⟨?_, ?_, ?_, ?_⟩, ?_, ?_, ?_, ?_, fun _ => ⟨?_, fun q hq hreach => ?_⟩⟩, ?_⟩
  · rw [e1, h.shape.size]
  · rw [e2, h.shape.mask]
  · rw [e3, h.shape.tailSize]
  · rw [e4, h.shape.totalSize]
  · have hlow := h.low
    rw [List.length_append]
    rcases pos_writeFull rb bytes (by omega) h.lt with ⟨hp, -⟩ | ⟨hp, -⟩
    · rw [hp, hlow, Nat.mod_add_mod]
    · rw [hp, hlow, Nat.mod_add_mod]
  · have hlow := h.low
    have hlap := h.lap
    rw [List.length_append]
    rcases pos_writeFull rb bytes (by omega) h.lt with ⟨hp, hlt⟩ | ⟨-, hle, hp, -⟩
    · have := h.pos_eq (by omega)
      rw [hp, Nat.mod_eq_of_lt hlt, this]
    · omega
  · rcases pos_writeFull rb bytes (by omega) h.lt with ⟨hp, hlt⟩ | ⟨-, -, -, hp⟩
    · omega
    · exact hp
  · rw [e4, e5]
    intro hlt
    omega
  · rw [e6, e4]
    exact hlen
  · rw [e1, e3]
    rw [List.length_append] at hq hreach
    rw [e1] at hreach
    have hlt : q % rb.size < rb.size := Nat.mod_lt _ (by omega)
    by_cases hnew : history.length ≤ q
    · -- one of the bytes written
      obtain ⟨k, rfl⟩ : ∃ k, q = history.length + k := ⟨q - history.length, by omega⟩
      have hk : offset rb.size (history.length % rb.size) ((history.length + k) % rb.size) = k :=
        offset_mod (by omega)
      have hbyte : (history ++ bytes).getD (history.length + k) 0 = bytes.getD k 0 := by
        rw [List.getD_append_right _ _ _ _ (Nat.le_add_right _ _), Nat.add_sub_cancel_left]
      refine ⟨?_, fun _ htail => ?_⟩
      · rw [hget (Or.inl ⟨rfl, hlt⟩), hk, if_pos (by omega), hbyte]
      · rw [hget (Or.inr ⟨rfl, htail⟩), hk, if_pos (by omega), hbyte]
    · -- a byte written before, whose index the write does not reach
      have hout : ¬ offset rb.size (history.length % rb.size) (q % rb.size) < bytes.length :=
        fun hin => by
        have hsame := add_offset_mod (a := history.length) hlt
        exact mod_ne_of_lt (show q < history.length + offset rb.size (history.length % rb.size)
          (q % rb.size) by omega)
          (by omega) hsame.symm
      have hbyte : (history ++ bytes).getD q 0 = history.getD q 0 :=
        List.getD_append _ _ _ _ (Nat.not_le.1 hnew)
      obtain ⟨hring, htail⟩ := hheld q (Nat.not_le.1 hnew) (by omega)
      refine ⟨?_, fun hlap htailSize => ?_⟩
      · rw [hget (Or.inl ⟨rfl, hlt⟩), if_neg hout, hring, hbyte]
      · rw [hget (Or.inr ⟨rfl, htailSize⟩), if_neg hout, htail hlap htailSize, hbyte]
  · rw [e4, e5]
    exact hcur

theorem fill_get_of_not {b : Buffer UInt8} {start n i : ℕ} {a : UInt8}
    (h : i < start ∨ start + n ≤ i) :
    (b.fill start n a).get i = b.get i := by
  unfold Buffer.fill
  simp only
  rw [if_neg (by omega)]

theorem initBuffer_get {rb : RingBuffer} {buflen i : ℕ} (h2 : headRoom ≤ i)
    (hi : i < headRoom + buflen) (hlt : i < rb.data.len) :
    (rb.initBuffer buflen).data.get i = rb.data.get i := by
  unfold initBuffer
  simp only
  rw [fill_get_of_not (Or.inr (by omega)), fill_get_of_not (Or.inl hi),
    Buffer.resize_get_of_lt _ _ hlt]

/-- The whole layout before the tail copies that were put off. -/
def laid (rb : RingBuffer) (i : ℕ) : UInt8 :=
  if i = headRoom + rb.size then tailSentinel
  else if i = headRoom + (rb.size - 1) ∨ i = headRoom + (rb.size - 2) then 0
  else (rb.initBuffer rb.totalSize).data.get i

theorem materialize_get (rb : RingBuffer) (htotal : rb.size ≤ rb.totalSize) (i : ℕ) :
    rb.materialize.data.get i =
      if headRoom + rb.size + rb.tailStart ≤ i ∧ i < headRoom + rb.size + min rb.pos rb.tailSize
      then rb.laid (i - rb.size) else rb.laid i := by
  have hlen : (rb.initBuffer rb.totalSize).data.len =
      headRoom + rb.totalSize + slackForEightByteHashing :=
    rb.data.resize_len _ 0
  have hset : ∀ i,
    (((rb.initBuffer rb.totalSize).set (rb.size - 2) 0).set (rb.size - 1) 0 |>.set rb.size
      tailSentinel).data.get i =
      rb.laid i := fun i => by
    unfold laid set Buffer.fill
    simp only [hlen]
    by_cases h1 : i = headRoom + rb.size
    · rw [if_pos (by simp only [slackForEightByteHashing]; omega), if_pos h1]
    · rw [if_neg (by omega), if_neg h1]
      by_cases h2 : i = headRoom + (rb.size - 1)
      · rw [if_pos (by simp only [slackForEightByteHashing]; omega), if_pos (Or.inl h2)]
      · rw [if_neg (by omega)]
        by_cases h3 : i = headRoom + (rb.size - 2)
        · rw [if_pos (by simp only [slackForEightByteHashing]; omega), if_pos (Or.inr h3)]
        · rw [if_neg (by omega), if_neg (not_or.2 ⟨h2, h3⟩)]
  unfold materialize
  dsimp only
  by_cases hm : rb.tailStart < min rb.pos rb.tailSize
  · have hm' :
      (((rb.initBuffer rb.totalSize).set (rb.size - 2) 0).set (rb.size - 1) 0 |>.set rb.size
        tailSentinel).tailStart <
      min rb.pos rb.tailSize := hm
    refine (congrFun (congrArg (fun r : RingBuffer => r.data.get) (if_pos hm')) i).trans ?_
    show (if headRoom + rb.size + rb.tailStart ≤ i ∧
      i < headRoom + rb.size + rb.tailStart +
      (headRoom + min rb.pos rb.tailSize - (headRoom + rb.tailStart)) then
        (((rb.initBuffer rb.totalSize).set (rb.size - 2) 0).set (rb.size - 1) 0 |>.set rb.size
          tailSentinel).data.get
          (headRoom + rb.tailStart + (i - (headRoom + rb.size + rb.tailStart)))
      else (((rb.initBuffer rb.totalSize).set (rb.size - 2) 0).set (rb.size - 1) 0 |>.set rb.size
        tailSentinel).data.get i) = _
    rw [hset, hset]
    by_cases hc : headRoom + rb.size + rb.tailStart ≤ i ∧
      i < headRoom + rb.size + min rb.pos rb.tailSize
    · rw [if_pos (by omega), if_pos hc]
      congr 1
      omega
    · rw [if_neg (by omega), if_neg hc]
  · have hm' : ¬ (((rb.initBuffer rb.totalSize).set (rb.size - 2) 0).set (rb.size - 1) 0 |>.set
      rb.size tailSentinel).tailStart <
      min rb.pos rb.tailSize := hm
    refine (congrFun (congrArg (fun r : RingBuffer => r.data.get) (if_neg hm')) i).trans ?_
    rw [if_neg (by omega)]
    exact hset i

/-- Making the whole layout keeps the prefix. -/
theorem Holds.materialize (hs : Sizes rbBits lgblock) (h : Holds rbBits lgblock rb history)
    (hcur : rb.curSize < rb.totalSize) :
    Holds rbBits lgblock rb.materialize history ∧ rb.materialize.totalSize ≤
    rb.materialize.curSize := by
  obtain ⟨h16, h31, h2, h0⟩ := hs.bounds
  rw [← h.shape.size] at h16 h31 h2
  rw [← h.shape.tailSize] at h2 h0
  obtain ⟨hT, hlen, hheld⟩ := h.short hcur
  have htotal : rb.totalSize = rb.size + rb.tailSize := by
    rw [h.shape.totalSize, h.shape.size, h.shape.tailSize]
  obtain ⟨e1, e2, e3, e4, e5, e6, e7⟩ : rb.materialize.size = rb.size ∧
    rb.materialize.mask = rb.mask ∧
      rb.materialize.tailSize = rb.tailSize ∧ rb.materialize.totalSize = rb.totalSize ∧
      rb.materialize.curSize = rb.totalSize ∧ rb.materialize.pos = rb.pos ∧
      rb.materialize.data.len = headRoom + rb.totalSize + slackForEightByteHashing := by
    have hres := rb.data.resize_len (headRoom + rb.totalSize + slackForEightByteHashing) 0
    unfold RingBuffer.materialize
    dsimp only
    split <;> exact ⟨rfl, rfl, rfl, rfl, rfl, rfl, hres⟩
  have hget : ∀ q, q < history.length → rb.materialize.data.get (headRoom + q) = history.getD q 0 :=
    fun q hq => by
    have hne : history ≠ [] := List.ne_nil_of_length_pos (by omega)
    have hlaid : rb.laid (headRoom + q) = (rb.initBuffer rb.totalSize).data.get (headRoom + q) := by
      unfold laid
      rw [if_neg (by omega), if_neg (by omega)]
    rw [materialize_get rb (by omega), if_neg (by omega), hlaid,
      initBuffer_get (Nat.le_add_right _ _) (by omega)
      (by rw [hlen hne]; omega), hheld q hq]
  refine ⟨⟨⟨?_, ?_, ?_, ?_⟩, ?_, ?_, ?_, ?_, fun _ => ⟨?_, fun q hq _ => ?_⟩⟩, ?_⟩
  · rw [e1, h.shape.size]
  · rw [e2, h.shape.mask]
  · rw [e3, h.shape.tailSize]
  · rw [e4, h.shape.totalSize]
  · rw [e6, h.low]
  · rw [e6, h.lap]
  · rw [e6]
    exact h.lt
  · rw [e4, e5]
    intro hlt
    omega
  · rw [e7, e4]
  · rw [e1, Nat.mod_eq_of_lt (by omega)]
    exact ⟨hget q hq, fun hle => by omega⟩
  · rw [e4, e5]

/-- What storing a longer prefix leaves: its bytes, then a margin of zeros. -/
theorem appendPrefix_data (rb : RingBuffer) (bytes : List UInt8) (stop : ℕ)
    (hlen : rb.pos ≠ 0 → headRoom + rb.pos ≤ rb.data.len) :
    (rb.appendPrefix bytes stop).data.len = headRoom + rb.pos + bytes.length +
    slackForEightByteHashing ∧
      ∀ i, headRoom ≤ i → (rb.appendPrefix bytes stop).data.get i =
        if i < headRoom + rb.pos then rb.data.get i
        else if i < headRoom + rb.pos + bytes.length then bytes.getD (i - (headRoom + rb.pos)) 0
        else if i < headRoom + rb.pos + bytes.length + slackForEightByteHashing then 0
        else (rb.appendPrefix bytes stop).data.get i := by
  have hres : ∀ d : Buffer UInt8, (d.resize (headRoom + rb.pos) 0).len = headRoom + rb.pos :=
    fun d => d.resize_len _ 0
  refine ⟨?_, fun i hi => ?_⟩
  · unfold appendPrefix Buffer.fill Buffer.extendFromSlice
    simp only [Buffer.extend_len, hres, List.length_replicate]
  · by_cases hout : headRoom + rb.pos + bytes.length + slackForEightByteHashing ≤ i
    · rw [if_neg (by omega), if_neg (by omega), if_neg (by omega)]
    · unfold appendPrefix
      rw [fill_get_of_not (Or.inr (by omega))]
      unfold Buffer.extendFromSlice Buffer.extend
      simp only [hres, List.length_replicate]
      by_cases h1 : i < headRoom + rb.pos
      · rw [if_pos h1, if_neg (by omega), if_neg (by omega)]
        by_cases h0 : rb.pos = 0
        · omega
        · have := hlen h0
          rw [Buffer.resize_get_of_lt]
          · rfl
          · show i < min rb.data.len (headRoom + rb.pos)
            omega
      · rw [if_neg h1]
        by_cases h2 : i < headRoom + rb.pos + bytes.length
        · rw [if_pos h2, if_neg (by omega), if_pos (by omega)]
          rfl
        · rw [if_neg h2, if_pos (by omega), if_pos (by omega), List.getD_replicate _ (by omega)]

/-- What a write to a stored prefix leaves. -/
theorem Holds.writePrefix (hs : Sizes rbBits lgblock) (h : Holds rbBits lgblock rb history)
    (hcur : rb.curSize < rb.totalSize)
    {bytes : List UInt8} (hstop : rb.pos + bytes.length < rb.size - 8) (tailStart : ℕ) :
    Holds rbBits lgblock { ({ rb with tailStart }).appendPrefix bytes (rb.pos + bytes.length) with
      pos := (rb.pos + bytes.length) % 2 ^ 32 } (history ++ bytes) := by
  obtain ⟨h16, h31, h2, h0⟩ := hs.bounds
  rw [← h.shape.size] at h16 h31 h2
  obtain ⟨hT, hlen, hheld⟩ := h.short hcur
  have hpos : rb.pos = history.length := h.pos_eq (by omega)
  have hmod : (rb.pos + bytes.length) % 2 ^ 32 = history.length + bytes.length := by
    rw [hpos, Nat.mod_eq_of_lt (by omega)]
  have hdata := appendPrefix_data { rb with tailStart } bytes (rb.pos + bytes.length) fun hne => by
    have hnil : history ≠ [] := fun hnil =>
      hne (by rw [show ({ rb with tailStart } : RingBuffer).pos = rb.pos from rfl, hpos, hnil]; rfl)
    show headRoom + rb.pos ≤ rb.data.len
    rw [hlen hnil, hpos]
    omega
  obtain ⟨hdlen, hdget⟩ := hdata
  refine ⟨⟨h.shape.size, h.shape.mask, h.shape.tailSize, h.shape.totalSize⟩, ?_, ?_, ?_,
    fun _ => ⟨?_, fun _ => ?_, fun q hq => ?_⟩,
    fun hfull => ?_⟩
  · show (rb.pos + bytes.length) % 2 ^ 32 % 2 ^ 31 = _
    rw [hmod, List.length_append]
  · show 2 ^ 31 ≤ (rb.pos + bytes.length) % 2 ^ 32 ↔ _
    rw [hmod, List.length_append]
  · exact Nat.mod_lt _ (by decide)
  · show _ < rb.size - 8
    rw [List.length_append, ← hpos]
    exact hstop
  · rw [List.length_append, ← Nat.add_assoc, ← hpos]
    exact hdlen
  · rw [List.length_append] at hq
    have hget := hdget (headRoom + q) (Nat.le_add_right _ _)
    refine hget.trans ?_
    show (if headRoom + q < headRoom + rb.pos then rb.data.get (headRoom + q)
      else if headRoom + q < headRoom + rb.pos + bytes.length
      then bytes.getD (headRoom + q - (headRoom + rb.pos)) 0 else _) = _
    by_cases hold : q < history.length
    · rw [if_pos (by omega), hheld q hold, List.getD_append _ _ _ _ hold]
    · rw [if_neg (by omega), if_pos (by omega),
        List.getD_append_right _ _ _ _ (Nat.not_lt.1 hold), hpos]
      congr 1
      omega
  · -- the stored prefix is shorter than the whole layout
    have : rb.totalSize ≤ rb.pos + bytes.length := hfull
    have htotal : rb.totalSize = rb.size + 2 ^ lgblock := by rw [h.shape.totalSize, h.shape.size]
    omega

theorem Holds.write (hs : Sizes rbBits lgblock) (h : Holds rbBits lgblock rb history)
    {bytes : List UInt8}
    (hn : bytes.length ≤ 2 ^ lgblock) :
    Holds rbBits lgblock (rb.write bytes) (history ++ bytes) := by
  unfold RingBuffer.write
  dsimp only
  split
  · rename_i hshort
    exact h.writePrefix hs hshort.1 hshort.2 _
  · split
    · rename_i hcur
      obtain ⟨hm, hmcur⟩ := h.materialize hs hcur
      exact (hm.writeFull hs hmcur (by rw [hm.shape.tailSize]; exact hn)).1
    · rename_i hcur
      exact (h.writeFull hs (Nat.not_lt.1 hcur) (by rw [h.shape.tailSize]; exact hn)).1

theorem Holds.clearMargin (hs : Sizes rbBits lgblock) (h : Holds rbBits lgblock rb history) :
    Holds rbBits lgblock rb.clearMargin history := by
  obtain ⟨h16, h31, -, h0⟩ := hs.bounds
  unfold RingBuffer.clearMargin
  split
  · exact h
  · rename_i hmask
    rw [h.shape.mask] at hmask
    have hlt : history.length < 2 ^ 31 := by
      by_contra hge
      have := h.lap.2 (Nat.not_lt.1 hge)
      omega
    have hpos := h.pos_eq hlt
    have hget : ∀ q, q < history.length →
        (rb.data.fill (headRoom + rb.pos) slackForEightByteHashing 0).get (headRoom + q) =
        rb.data.get (headRoom + q) :=
      fun q hq => fill_get_of_not (Or.inl (by omega))
    refine ⟨⟨h.shape.size, h.shape.mask, h.shape.tailSize, h.shape.totalSize⟩, h.low, h.lap, h.lt,
      fun hcur => ?_, fun hcur => ?_⟩
    · obtain ⟨hT, hlen, hheld⟩ := h.short hcur
      exact ⟨hT, hlen, fun q hq => (hget q hq).trans (hheld q hq)⟩
    · obtain ⟨hlen, hheld⟩ := h.full hcur
      refine ⟨hlen, fun q hq hreach => ?_⟩
      have hsize : (rb.size : ℕ) = 2 ^ rbBits := h.shape.size
      have hq' : q < rb.size := by omega
      obtain ⟨hring, -⟩ := hheld q hq hreach
      show (rb.data.fill (headRoom + rb.pos) slackForEightByteHashing 0).get
        (headRoom + q % rb.size) = _ ∧ _
      rw [Nat.mod_eq_of_lt hq'] at hring ⊢
      exact ⟨(hget q hq).trans hring, fun hle => absurd hq' (Nat.not_lt.2 hle)⟩

/-- **Every operation keeps the ring true to the history.** -/
theorem Holds.apply (hs : Sizes rbBits lgblock) (h : Holds rbBits lgblock rb history) {op : RingOp}
    (hfits : op.Fits (2 ^ lgblock)) :
    Holds rbBits lgblock (rb.apply op) (op.extend history) := by
  cases op with
  | write bytes => exact h.write hs hfits
  | clearMargin => exact h.clearMargin hs
  | expectInput bytes => exact ⟨⟨h.shape.size, h.shape.mask, h.shape.tailSize, h.shape.totalSize⟩,
      h.low, h.lap, h.lt, h.short, h.full⟩
  | reset =>
    obtain ⟨h16, -, -, h0⟩ := hs.bounds
    have hsize := h.shape.size
    have htotal := h.shape.totalSize
    refine ⟨⟨h.shape.size, h.shape.mask, h.shape.tailSize, h.shape.totalSize⟩, rfl,
      by simp [RingBuffer.apply, reset, RingOp.extend], by simp [RingBuffer.apply, reset], fun _ =>
      ⟨?_, fun hne => absurd rfl hne, fun q hq => absurd hq (Nat.not_lt_zero q)⟩, fun hcur => ?_⟩
    · show 0 < rb.size - 8
      omega
    · have : rb.totalSize ≤ 0 := hcur
      omega

theorem Holds.run (hs : Sizes rbBits lgblock) :
    ∀ (ops : List RingOp) {rb : RingBuffer} {history : List UInt8},
    Holds rbBits lgblock rb history → (∀ op ∈ ops, op.Fits (2 ^ lgblock)) →
      Holds rbBits lgblock (ops.foldl RingBuffer.apply rb) (ops.foldl RingOp.extend history)
  | [], _, _, h, _ => h
  | op :: ops, _, _, h, hfits =>
    Holds.run hs ops (h.apply hs (hfits op List.mem_cons_self)) fun o ho =>
    hfits o (List.mem_cons_of_mem _ ho)

/-! ### A window with all its storage from the start -/

/-- The window whose whole layout is made before anything is written. -/
def mirrored (rbBits lgblock : ℕ) : RingBuffer := (new rbBits lgblock).materialize

/-- Mirrors every write into the tail, except a first one shorter than the tail. -/
def writeMirrored (rb : RingBuffer) (bytes : List UInt8) : RingBuffer :=
  if rb.pos = 0 ∧ bytes.length < rb.tailSize then
    { rb with data := rb.data.copyFrom headRoom bytes, pos := bytes.length }
  else rb.writeFull bytes

def applyMirrored (rb : RingBuffer) : RingOp → RingBuffer
  | .write bytes => rb.writeMirrored bytes
  | op => rb.apply op

/-- The whole layout while less than a ring was written: the history, its mirror from
`tailStart` on, and the sentinel where the mirror does not reach it. -/
def flat (size tailSize tailStart : ℕ) (history : List UInt8) (i : ℕ) : UInt8 :=
  if i < headRoom then 0
  else if i < headRoom + history.length then history.getD (i - headRoom) 0
  else if headRoom + size + tailStart ≤ i ∧ i < headRoom + size + min history.length tailSize then
    history.getD (i - headRoom - size) 0
  else if i = headRoom + size then tailSentinel
  else 0

theorem flat_nil (size tailSize tailStart i : ℕ) : flat size tailSize tailStart [] i =
    if i = headRoom + size then tailSentinel else 0 := by
  unfold flat
  rw [List.length_nil]
  by_cases h1 : i < headRoom
  · rw [if_pos h1, if_neg (by omega)]
  · have h2 : ¬ (headRoom + size + tailStart ≤ i ∧ i < headRoom + size + min 0 tailSize) := by omega
    rw [if_neg h1, if_neg (show ¬ i < headRoom + 0 by omega), if_neg h2]

/-- The lazily made layout is the flat one. -/
theorem materialize_flat (hs : Sizes rbBits lgblock) (h : Holds rbBits lgblock rb history)
    (hcur : rb.curSize < rb.totalSize)
    (hlen : rb.data.len ≤ headRoom + history.length + slackForEightByteHashing)
    (hmargin : ∀ i, headRoom + history.length ≤ i → i < rb.data.len → rb.data.get i = 0) {i : ℕ}
    (hi : i < headRoom + rb.totalSize + slackForEightByteHashing) :
    rb.materialize.data.get i = flat rb.size rb.tailSize rb.tailStart history i := by
  obtain ⟨h16, h31, h2, h0⟩ := hs.bounds
  rw [← h.shape.size] at h16 h31 h2
  rw [← h.shape.tailSize] at h2 h0
  have htotal : rb.totalSize = rb.size + rb.tailSize := by
    rw [h.shape.totalSize, h.shape.size, h.shape.tailSize]
  obtain ⟨hT, hstored, hheld⟩ := h.short hcur
  have hpos : rb.pos = history.length := h.pos_eq (by omega)
  have hinit : ∀ i, i < headRoom + rb.totalSize + slackForEightByteHashing →
    (rb.initBuffer rb.totalSize).data.get i =
      if i < headRoom then 0 else if i < headRoom + history.length
      then history.getD (i - headRoom) 0 else 0 := by
    intro i hi
    have hres := rb.data.resize_len (headRoom + rb.totalSize + slackForEightByteHashing) 0
    unfold initBuffer Buffer.fill
    simp only [hres]
    by_cases h1 : i < headRoom
    · rw [if_pos (by omega), if_pos h1]
    · rw [if_neg (by omega), if_neg h1]
      by_cases hm : headRoom + rb.totalSize ≤ i
      · rw [if_pos ⟨hm, hi, hi⟩, if_neg (by omega)]
      · rw [if_neg (by omega)]
        by_cases hin : i < headRoom + history.length
        · have hne : history ≠ [] := List.ne_nil_of_length_pos (by omega)
          rw [if_pos hin, Buffer.resize_get_of_lt _ _ (by rw [hstored hne]; omega)]
          have := hheld (i - headRoom) (by omega)
          rwa [show headRoom + (i - headRoom) = i by omega] at this
        · rw [if_neg hin]
          by_cases hold : i < rb.data.len
          · rw [Buffer.resize_get_of_lt _ _ hold]
            exact hmargin i (by omega) hold
          · unfold Buffer.resize
            rw [if_pos (by simp only [slackForEightByteHashing] at *; omega)]
            exact if_pos ⟨by omega, by omega⟩
  have hlaid : ∀ i, i < headRoom + rb.totalSize + slackForEightByteHashing → rb.laid i =
      if i = headRoom + rb.size then tailSentinel
      else if i < headRoom then 0 else if i < headRoom + history.length
          then history.getD (i - headRoom) 0 else 0 := by
    intro i hi
    unfold laid
    by_cases h1 : i = headRoom + rb.size
    · rw [if_pos h1, if_pos h1]
    · rw [if_neg h1, if_neg h1]
      by_cases h2 : i = headRoom + (rb.size - 1) ∨ i = headRoom + (rb.size - 2)
      · rw [if_pos h2, if_neg (by omega), if_neg (by omega)]
      · rw [if_neg h2, hinit i hi]
  rw [materialize_get rb (by omega), hlaid i hi, hlaid (i - rb.size) (by omega), hpos]
  unfold flat
  by_cases hc : headRoom + rb.size + rb.tailStart ≤ i ∧
    i < headRoom + rb.size + min history.length rb.tailSize
  · rw [if_pos hc, if_neg (by omega), if_neg (by omega), if_pos (by omega), if_neg (by omega),
      if_neg (by omega), if_pos hc]
    congr 1
    omega
  · rw [if_neg hc, if_neg hc]
    by_cases h1 : i = headRoom + rb.size
    · rw [if_pos h1, if_neg (by omega), if_neg (by omega), if_pos h1]
    · rw [if_neg h1, if_neg h1]

/-- The head bytes are those at the end of the ring. -/
theorem writeFull_head (rb : RingBuffer) (bytes : List UInt8) (hlen : 2 < rb.data.len) :
    (rb.writeFull bytes).data.get 0 = (rb.writeFull bytes).data.get (headRoom + (rb.size - 2)) ∧
      (rb.writeFull bytes).data.get 1 = (rb.writeFull bytes).data.get
      (headRoom + (rb.size - 1)) := by
  have hwt : (rb.writeTail bytes).size = rb.size ∧ (rb.writeTail bytes).data.len = rb.data.len := by
    unfold writeTail
    dsimp only
    split <;> exact ⟨rfl, rfl⟩
  have key : ∀ d : Buffer UInt8, d.len = rb.data.len →
      ((d.fill 0 1 (d.get (headRoom + (rb.size - 2)))).fill 1 1
        (d.get (headRoom + (rb.size - 1)))).get 0 =
          ((d.fill 0 1 (d.get (headRoom + (rb.size - 2)))).fill 1 1
            (d.get (headRoom + (rb.size - 1)))).get (headRoom + (rb.size - 2)) ∧
        ((d.fill 0 1 (d.get (headRoom + (rb.size - 2)))).fill 1 1
          (d.get (headRoom + (rb.size - 1)))).get 1 =
          ((d.fill 0 1 (d.get (headRoom + (rb.size - 2)))).fill 1 1
            (d.get (headRoom + (rb.size - 1)))).get (headRoom + (rb.size - 1)) := by
    intro d hd
    unfold Buffer.fill
    simp only [headRoom, hd]
    constructor
    · rw [if_neg (by omega), if_pos (by omega), if_neg (by omega), if_neg (by omega)]
    · rw [if_pos (by omega), if_neg (by omega), if_neg (by omega)]
  unfold writeFull
  simp only [hwt.1]
  refine key _ ?_
  split
  · exact hwt.2
  · exact hwt.2

/-- A write to the whole layout leaves the margin alone. -/
theorem writeFull_margin (hs : Sizes rbBits lgblock) (h : Shape rbBits lgblock rb)
    (hlen : rb.data.len = headRoom + rb.totalSize + slackForEightByteHashing) {bytes : List UInt8}
    (hn : bytes.length ≤ rb.tailSize) {i : ℕ} (hi : headRoom + rb.totalSize ≤ i) :
    (rb.writeFull bytes).data.get i = rb.data.get i := by
  obtain ⟨h16, h31, h2, h0⟩ := hs.bounds
  have hm := h.masked rb.pos
  rw [← h.size] at hm h16 h2
  rw [← h.tailSize] at h2 h0
  have htotal : rb.totalSize = rb.size + rb.tailSize := by rw [h.totalSize, h.size, h.tailSize]
  have hmlt : rb.pos % rb.size < rb.size := Nat.mod_lt _ (by omega)
  have hwt : (rb.writeTail bytes).size = rb.size ∧ (rb.writeTail bytes).totalSize = rb.totalSize ∧
      (rb.writeTail bytes).data.len = rb.data.len ∧ (rb.writeTail bytes).data.get i =
      rb.data.get i := by
    unfold writeTail
    simp only [hm]
    split
    · exact ⟨rfl, rfl, rfl, rfl⟩
    · refine ⟨rfl, rfl, rfl, ?_⟩
      have hl : (bytes.take (min bytes.length (rb.tailSize - rb.pos % rb.size))).length =
          min bytes.length (rb.tailSize - rb.pos % rb.size) := by rw [List.length_take]; omega
      rw [copyFrom_get (by rw [hl, hlen, htotal]; omega), hl, if_neg (by omega)]
  obtain ⟨e1, e2, e3, e4⟩ := hwt
  unfold writeFull
  simp only [hm, e1, e2]
  rw [fill_get_of_not (Or.inr (by simp only [headRoom] at hi; omega)),
    fill_get_of_not (Or.inr (by simp only [headRoom] at hi; omega))]
  split
  · rw [copyFrom_get (by rw [e3, hlen, htotal]; omega), if_neg (by omega), e4]
  · have hhead : min (rb.totalSize - rb.pos % rb.size) bytes.length = bytes.length := by omega
    have hdrop : (bytes.drop (rb.size - rb.pos % rb.size)).length =
        rb.pos % rb.size + bytes.length - rb.size := by
      rw [List.length_drop]
      omega
    have hw1 : headRoom + rb.pos % rb.size + (bytes.take bytes.length).length ≤
        (rb.writeTail bytes).data.len := by
      rw [List.take_length, e3, hlen, htotal]
      omega
    rw [hhead, copyFrom_get (by
      show _ ≤ (rb.writeTail bytes).data.len
      rw [hdrop, e3, hlen, htotal]
      omega), copyFrom_get hw1, hdrop, List.take_length, if_neg (by omega), if_neg (by omega), e4]

/-- A fresh window and one with all its storage from the start, after the same writes. -/
structure Fresh (rbBits lgblock : ℕ) (rb ref : RingBuffer) (history : List UInt8) : Prop where
  holds : Holds rbBits lgblock rb history
  shape : Shape rbBits lgblock ref
  pos : ref.pos = rb.pos
  len : ref.data.len = headRoom + ref.totalSize + slackForEightByteHashing
  short : rb.curSize < rb.totalSize → rb.tailStart ≤ history.length ∧
    rb.data.len ≤ headRoom + history.length + slackForEightByteHashing ∧
    (∀ i, headRoom + history.length ≤ i → i < rb.data.len → rb.data.get i = 0) ∧
    ∀ i, i < ref.data.len → ref.data.get i = flat rb.size rb.tailSize rb.tailStart history i
  full : rb.totalSize ≤ rb.curSize → history ≠ [] ∧ ∀ i, i < ref.data.len →
    rb.data.get i = ref.data.get i

variable {ref : RingBuffer}

theorem mirrored_fresh (hs : Sizes rbBits lgblock) :
    Fresh rbBits lgblock (new rbBits lgblock) (mirrored rbBits lgblock) [] := by
  have hnew := new_holds hs
  have hcur : (new rbBits lgblock).curSize < (new rbBits lgblock).totalSize := by
    obtain ⟨h16, -, -, h0⟩ := hs.bounds
    rw [hnew.shape.totalSize]
    show 0 < _
    omega
  obtain ⟨hm, hmcur⟩ := hnew.materialize hs hcur
  have hlen := (hm.full hmcur).1
  have htotal : (mirrored rbBits lgblock).totalSize = (new rbBits lgblock).totalSize := by
    show (new rbBits lgblock).materialize.totalSize = _
    rw [hm.shape.totalSize, hnew.shape.totalSize]
  refine ⟨hnew, hm.shape, ?_, hlen,
    fun _ => ⟨Nat.zero_le _, Nat.zero_le _, fun i _ hi => absurd hi (Nat.not_lt_zero i),
      fun i hi => ?_⟩,
    fun hfull => absurd hcur (Nat.not_lt.2 hfull)⟩
  · exact (hm.pos_eq (by decide)).trans (hnew.pos_eq (by decide)).symm
  · rw [show (mirrored rbBits lgblock).data.len = _ from hlen,
      show (new rbBits lgblock).materialize.totalSize = _ from htotal] at hi
    exact materialize_flat hs hnew hcur (Nat.zero_le _)
      (fun i _ hi => absurd hi (Nat.not_lt_zero i)) hi

/-- Writes to equal layouts leave equal layouts. -/
theorem writeFull_congr (hs : Sizes rbBits lgblock) {a b : RingBuffer} (ha : Shape rbBits lgblock a)
    (hb : Shape rbBits lgblock b)
    (hpos : b.pos = a.pos) (hla : a.data.len = headRoom + a.totalSize + slackForEightByteHashing)
    (hlb : b.data.len = headRoom + b.totalSize + slackForEightByteHashing) {bytes : List UInt8}
    (hn : bytes.length ≤ 2 ^ lgblock)
    (hsame : ∀ i, i < b.data.len → a.data.get i = b.data.get i) {i : ℕ} (hi : i < b.data.len) :
    (a.writeFull bytes).data.get i = (b.writeFull bytes).data.get i := by
  obtain ⟨h16, -, -, -⟩ := hs.bounds
  have htotal : b.totalSize = b.size + b.tailSize := by rw [hb.totalSize, hb.size, hb.tailSize]
  have hsize : a.size = b.size := ha.size.trans hb.size.symm
  have htail : a.tailSize = b.tailSize := ha.tailSize.trans hb.tailSize.symm
  have hna : bytes.length ≤ a.tailSize := by rw [ha.tailSize]; exact hn
  have hnb : bytes.length ≤ b.tailSize := by rw [hb.tailSize]; exact hn
  -- everywhere past the head bytes
  have hpast : ∀ i, headRoom ≤ i → i < b.data.len →
      (a.writeFull bytes).data.get i = (b.writeFull bytes).data.get i := by
    intro i h2 hi
    by_cases hring : i < headRoom + b.size
    · rw [writeFull_get hs hb hlb hnb (j := i - headRoom) (Or.inl (by omega)),
        writeFull_get hs ha hla hna (j := i - headRoom) (Or.inl (by omega)), hsize,
        hpos, hsame i hi]
    · by_cases htail' : i < headRoom + b.totalSize
      · rw [writeFull_get hs hb hlb hnb (j := i - headRoom - b.size) (Or.inr (by omega)),
          writeFull_get hs ha hla hna (j := i - headRoom - b.size) (Or.inr (by omega)), hsize,
          hpos, hsame i hi]
      · have hta : a.totalSize = b.totalSize := ha.totalSize.trans hb.totalSize.symm
        rw [writeFull_margin hs hb hlb hnb (by omega),
          writeFull_margin hs ha hla hna (by omega), hsame i hi]
  by_cases h2 : headRoom ≤ i
  · exact hpast i h2 hi
  · have hsz : 16 ≤ b.size := by rw [hb.size]; exact h16
    obtain ⟨a0, a1⟩ :=
      writeFull_head a bytes (by rw [hla, ha.totalSize]; simp only [headRoom]; omega)
    obtain ⟨b0, b1⟩ :=
      writeFull_head b bytes (by rw [hlb, hb.totalSize]; simp only [headRoom]; omega)
    have hcases : i = 0 ∨ i = 1 := by simp only [headRoom] at h2; omega
    rcases hcases with rfl | rfl
    · rw [a0, b0, hsize]
      exact hpast _ (by omega) (by omega)
    · rw [a1, b1, hsize]
      exact hpast _ (by omega) (by omega)

/-- Without a wrap, what a write adds to the flat layout. -/
theorem writeFull_flat (hs : Sizes rbBits lgblock) {b : RingBuffer} (hb : Shape rbBits lgblock b)
    (hlen : b.data.len = headRoom + b.totalSize + slackForEightByteHashing) {bytes : List UInt8}
    (hn : bytes.length ≤ b.tailSize)
    (hpos : b.pos = history.length) (hstop : history.length + bytes.length < b.size - 8)
    {tailStart : ℕ}
    (hts : tailStart ≤ history.length)
    (hflat : ∀ i, i < b.data.len → b.data.get i = flat b.size b.tailSize tailStart history i)
    {i : ℕ} (hi : i < b.data.len) :
    (b.writeFull bytes).data.get i = flat b.size b.tailSize tailStart (history ++ bytes) i := by
  obtain ⟨h16, h31, h2, h0⟩ := hs.bounds
  rw [← hb.size] at h16 h31 h2
  rw [← hb.tailSize] at h2 h0
  have htotal : b.totalSize = b.size + b.tailSize := by rw [hb.totalSize, hb.size, hb.tailSize]
  have hm : b.pos % b.size = history.length := by rw [hpos, Nat.mod_eq_of_lt (by omega)]
  have hoff : ∀ j, j < b.size → (offset b.size (b.pos % b.size) j < bytes.length ↔
      history.length ≤ j ∧ j < history.length + bytes.length) := fun j hj => by
    rw [hm]
    unfold offset
    split <;> omega
  have hval : ∀ j, history.length ≤ j → offset b.size (b.pos % b.size) j = j - history.length :=
    fun j hj => by
    rw [hm]
    unfold offset
    rw [if_pos hj]
  have hpast : ∀ i, headRoom ≤ i → i < b.data.len → (b.writeFull bytes).data.get i =
      flat b.size b.tailSize tailStart (history ++ bytes) i := by
    intro i h2' hi
    unfold flat
    rw [if_neg (by omega), List.length_append]
    by_cases hring : i < headRoom + b.size
    · rw [writeFull_get hs hb hlen hn (j := i - headRoom) (Or.inl (by omega))]
      by_cases hin : history.length ≤ i - headRoom ∧ i - headRoom < history.length + bytes.length
      · rw [if_pos ((hoff _ (by omega)).2 hin), hval _ hin.1, if_pos (by omega),
          List.getD_append_right _ _ _ _ hin.1]
      · rw [if_neg fun h => hin ((hoff _ (by omega)).1 h), hflat i hi]
        unfold flat
        rw [if_neg (by omega)]
        by_cases hold : i < headRoom + history.length
        · rw [if_pos hold, if_pos (by omega), List.getD_append _ _ _ _ (by omega)]
        · rw [if_neg hold, if_neg (by omega), if_neg (by omega), if_neg (by omega),
            if_neg (by omega)]
    · rw [if_neg (show ¬ i < headRoom + (history.length + bytes.length) by omega)]
      by_cases htail : i < headRoom + b.totalSize
      · rw [writeFull_get hs hb hlen hn (j := i - headRoom - b.size) (Or.inr (by omega))]
        by_cases hin : history.length ≤ i - headRoom - b.size ∧
          i - headRoom - b.size < history.length + bytes.length
        · rw [if_pos ((hoff _ (by omega)).2 hin), hval _ hin.1, if_pos (by omega),
            List.getD_append_right _ _ _ _ hin.1]
        · rw [if_neg fun h => hin ((hoff _ (by omega)).1 h), hflat i hi]
          unfold flat
          rw [if_neg (by omega), if_neg (by omega)]
          by_cases hold : headRoom + b.size + tailStart ≤ i ∧
            i < headRoom + b.size + min history.length b.tailSize
          · rw [if_pos hold, if_pos (by omega), List.getD_append _ _ _ _ (by omega)]
          · have hnew : ¬ (headRoom + b.size + tailStart ≤ i ∧
                i < headRoom + b.size + min (history.length + bytes.length) b.tailSize) := by omega
            rw [if_neg hold, if_neg hnew]
      · rw [writeFull_margin hs hb hlen hn (by omega), hflat i hi]
        unfold flat
        have hnew : ¬ (headRoom + b.size + tailStart ≤ i ∧
            i < headRoom + b.size + min (history.length + bytes.length) b.tailSize) := by omega
        rw [if_neg (by omega), if_neg (by omega), if_neg (by omega), if_neg hnew]
  by_cases h2' : headRoom ≤ i
  · exact hpast i h2' hi
  · obtain ⟨b0, b1⟩ := writeFull_head b bytes (by rw [hlen, htotal]; simp only [headRoom]; omega)
    have hend : ∀ k, history.length + bytes.length ≤ k → k < b.size →
        flat b.size b.tailSize tailStart (history ++ bytes) (headRoom + k) = 0 := fun k h1 h3 => by
      unfold flat
      rw [List.length_append, if_neg (by omega), if_neg (by omega), if_neg (by omega),
        if_neg (by omega)]
    have hhead : flat b.size b.tailSize tailStart (history ++ bytes) i = 0 :=
      if_pos (Nat.not_le.1 h2')
    have hcases : i = 0 ∨ i = 1 := by simp only [headRoom] at h2'; omega
    rw [hhead]
    rcases hcases with rfl | rfl
    · rw [b0, hpast _ (by omega) (by omega), hend _ (by omega) (by omega)]
    · rw [b1, hpast _ (by omega) (by omega), hend _ (by omega) (by omega)]

/-- A write to both whole layouts keeps them equal. -/
theorem Fresh.writeFull (hs : Sizes rbBits lgblock) {a : RingBuffer}
    (ha : Holds rbBits lgblock a history)
    (hacur : a.totalSize ≤ a.curSize) (hshape : Shape rbBits lgblock ref) (hpos : ref.pos = a.pos)
    (hlen : ref.data.len = headRoom + ref.totalSize + slackForEightByteHashing)
    (hsame : ∀ i, i < ref.data.len → a.data.get i = ref.data.get i) {bytes : List UInt8}
    (hn : bytes.length ≤ 2 ^ lgblock)
    (hne : history ++ bytes ≠ []) :
    Fresh rbBits lgblock (a.writeFull bytes) (ref.writeFull bytes) (history ++ bytes) := by
  obtain ⟨hholds, hcur⟩ := ha.writeFull hs hacur (by rw [ha.shape.tailSize]; exact hn)
  obtain ⟨e1, e2, e3, e4, -, e6⟩ := writeFull_fields ref bytes
  refine ⟨hholds, ⟨?_, ?_, ?_, ?_⟩, ?_, ?_, fun hlt => absurd hcur (Nat.not_le.2 hlt),
    fun _ => ⟨hne, fun i hi => ?_⟩⟩
  · rw [e1, hshape.size]
  · rw [e2, hshape.mask]
  · rw [e3, hshape.tailSize]
  · rw [e4, hshape.totalSize]
  · rw [writeFull_pos, writeFull_pos, hpos]
  · rw [e6, e4, hlen]
  · rw [e6] at hi
    exact writeFull_congr hs ha.shape hshape hpos (ha.full hacur).1 hlen hn hsame hi

/-- The first write makes the flat layout of its bytes, if the tail is longer. -/
theorem copyFrom_flat {data : Buffer UInt8} {size tailSize tailStart i : ℕ} {bytes : List UInt8}
    (hfit : headRoom + bytes.length ≤ data.len) (hshort : bytes.length < tailSize)
    (hsize : tailSize ≤ size) (h : data.get i = flat size tailSize tailStart [] i) :
    (data.copyFrom headRoom bytes).get i = flat size tailSize bytes.length bytes i := by
  rw [copyFrom_get hfit, h]
  unfold flat
  rw [List.length_nil]
  by_cases hin : headRoom ≤ i ∧ i < headRoom + bytes.length
  · rw [if_pos hin, if_neg (by omega), if_pos hin.2]
  · rw [if_neg hin]
    by_cases hi2 : i < headRoom
    · rw [if_pos hi2, if_pos hi2]
    · have hold : ¬ (headRoom + size + tailStart ≤ i ∧ i < headRoom + size + min 0 tailSize) := by
        omega
      have hnew : ¬ (headRoom + size + bytes.length ≤ i ∧
          i < headRoom + size + min bytes.length tailSize) := by
        omega
      rw [if_neg hi2, if_neg hi2, if_neg (show ¬ i < headRoom + 0 by omega),
        if_neg (show ¬ i < headRoom + bytes.length by omega), if_neg hold, if_neg hnew]

/-- Behind the bytes of a grown prefix there are only zeros. -/
theorem appendPrefix_zero (rb : RingBuffer) (bytes : List UInt8) (stop : ℕ)
    (hlen : rb.pos ≠ 0 → headRoom + rb.pos ≤ rb.data.len) :
    (rb.appendPrefix bytes stop).data.len =
        headRoom + rb.pos + bytes.length + slackForEightByteHashing ∧
      ∀ i, headRoom + rb.pos + bytes.length ≤ i → i < (rb.appendPrefix bytes stop).data.len →
        (rb.appendPrefix bytes stop).data.get i = 0 := by
  obtain ⟨hdlen, hdget⟩ := appendPrefix_data rb bytes stop hlen
  refine ⟨hdlen, fun i hi1 hi2 => ?_⟩
  rw [hdlen] at hi2
  rw [hdget i (by omega), if_neg (by omega), if_neg (by omega), if_pos hi2]

/-- Before the wrap: the prefix grows on one side, the flat layout on the other. -/
theorem Fresh.writePrefix (hs : Sizes rbBits lgblock) (h : Fresh rbBits lgblock rb ref history)
    {bytes : List UInt8} (hn : bytes.length ≤ 2 ^ lgblock) (hcur : rb.curSize < rb.totalSize)
    (hstop : rb.pos + bytes.length < rb.size - 8) :
    Fresh rbBits lgblock (rb.write bytes) (ref.writeMirrored bytes) (history ++ bytes) := by
  obtain ⟨h16, h31, h2, h0⟩ := hs.bounds
  have hholds := h.holds.write hs hn
  have hsize := h.holds.shape.size
  have htail := h.holds.shape.tailSize
  have hrsize := h.shape.size
  have hrtail := h.shape.tailSize
  have hrtotal := h.shape.totalSize
  have hlenr := h.len
  obtain ⟨hts, -, -, hflat⟩ := h.short hcur
  obtain ⟨hT, -, -⟩ := h.holds.short hcur
  have hpos : rb.pos = history.length := h.holds.pos_eq (by omega)
  have hrpos : ref.pos = history.length := h.pos.trans hpos
  have hwrite : rb.write bytes =
      { ({ rb with tailStart := if rb.pos = 0
        then (if bytes.length < rb.tailSize then bytes.length else 0)
            else rb.tailStart } : RingBuffer).appendPrefix bytes (rb.pos + bytes.length) with
        pos := (rb.pos + bytes.length) % 2 ^ 32 } := if_pos ⟨hcur, hstop⟩
  rw [hwrite] at hholds ⊢
  generalize hts' : (if rb.pos = 0 then (if bytes.length < rb.tailSize then bytes.length else 0)
    else rb.tailStart) = ts'
    at hholds ⊢
  have hmod : (rb.pos + bytes.length) % 2 ^ 32 = rb.pos + bytes.length :=
    Nat.mod_eq_of_lt (by omega)
  have hts'' : ts' ≤ (history ++ bytes).length := by
    rw [List.length_append, ← hts']
    split
    · split <;> omega
    · omega
  have hroom : rb.pos ≠ 0 → headRoom + rb.pos ≤ rb.data.len := fun hne => by
    have hnil : history ≠ [] := fun hnil => hne (by rw [hpos, hnil]; rfl)
    rw [((h.holds.short hcur).2.1 hnil), hpos]
    omega
  obtain ⟨hdlen, hdzero⟩ := appendPrefix_zero ({ rb with tailStart := ts' } : RingBuffer) bytes
    (rb.pos + bytes.length) hroom
  have hzero : ∀ i, headRoom + (history ++ bytes).length ≤ i →
      i < (({ rb with tailStart := ts' } : RingBuffer).appendPrefix bytes
        (rb.pos + bytes.length)).data.len →
      (({ rb with tailStart := ts' } : RingBuffer).appendPrefix bytes
        (rb.pos + bytes.length)).data.get i = 0 := fun i hi1 hi2 => by
    rw [List.length_append, ← hpos, ← Nat.add_assoc] at hi1
    exact hdzero i hi1 hi2
  have hdlen' : (({ rb with tailStart := ts' } : RingBuffer).appendPrefix bytes
      (rb.pos + bytes.length)).data.len ≤
      headRoom + (history ++ bytes).length + slackForEightByteHashing := by
    rw [hdlen, List.length_append, ← hpos, ← Nat.add_assoc]
  have hfull : ∀ P : Prop, rb.totalSize ≤ rb.pos + bytes.length → P := fun P hle => by
    have := h.holds.shape.totalSize
    omega
  by_cases hfirst : ref.pos = 0 ∧ bytes.length < ref.tailSize
  · have hmirror : ref.writeMirrored bytes =
        { ref with data := ref.data.copyFrom headRoom bytes, pos := bytes.length } :=
      if_pos hfirst
    have hnil : history = [] := List.eq_nil_of_length_eq_zero (hrpos.symm.trans hfirst.1)
    rw [hmirror]
    refine ⟨hholds, ⟨hrsize, h.shape.mask, hrtail, hrtotal⟩, ?_, h.len,
      fun _ => ⟨hts'', ?_, hzero, fun i hi => ?_⟩,
      fun hle => hfull _ hle⟩
    · show bytes.length = (rb.pos + bytes.length) % 2 ^ 32
      rw [hmod, hpos, hnil, List.length_nil, Nat.zero_add]
    · exact hdlen'
    · have hts0 : ts' = bytes.length := by
        rw [← hts', if_pos (h.pos.symm.trans hfirst.1),
          if_pos (by rw [htail, ← hrtail]; exact hfirst.2)]
      have hi' : i < ref.data.len := hi
      show (ref.data.copyFrom headRoom bytes).get i =
        flat rb.size rb.tailSize ts' (history ++ bytes) i
      rw [hnil, hts0, List.nil_append]
      exact copyFrom_flat (by rw [hlenr]; omega) (by rw [htail, ← hrtail]; exact hfirst.2)
        (by omega) (hnil ▸ hflat i hi')
  · have hmirror : ref.writeMirrored bytes = ref.writeFull bytes := if_neg hfirst
    obtain ⟨e1, e2, e3, e4, -, e6⟩ := writeFull_fields ref bytes
    have hbase : ∀ i, i < ref.data.len →
        ref.data.get i = flat ref.size ref.tailSize ts' history i := by
      intro i hi
      rw [hflat i hi, hsize, ← hrsize, htail, ← hrtail]
      by_cases hp0 : rb.pos = 0
      · -- nothing is mirrored yet
        have hnil : history = [] := List.eq_nil_of_length_eq_zero (hpos.symm.trans hp0)
        rw [hnil, flat_nil, flat_nil]
      · rw [← hts', if_neg hp0]
    rw [hmirror]
    refine ⟨hholds,
      ⟨by rw [e1, hrsize], by rw [e2, h.shape.mask], by rw [e3, hrtail], by rw [e4, hrtotal]⟩,
      ?_,
      by rw [e6, e4, h.len], fun _ => ⟨hts'', ?_, hzero, fun i hi => ?_⟩,
      fun hle => hfull _ hle⟩
    · show _ = (rb.pos + bytes.length) % 2 ^ 32
      rcases pos_writeFull ref bytes (by omega) (by omega) with ⟨hp, -⟩ | ⟨-, hle, -⟩
      · rw [hp, Nat.mod_eq_of_lt (by omega), hmod, hrpos, hpos]
      · omega
    · exact hdlen'
    · rw [e6] at hi
      have hts3 : ts' ≤ history.length := by
        rw [← hts']
        split
        · rename_i hp0
          have : ¬ bytes.length < rb.tailSize :=
            fun hlt => hfirst ⟨h.pos.trans hp0, by rw [hrtail, ← htail]; exact hlt⟩
          rw [if_neg this]
          omega
        · exact hts
      rw [writeFull_flat hs h.shape h.len (by rw [hrtail]; exact hn) hrpos (by omega)
        hts3 hbase hi]
      show _ = flat rb.size rb.tailSize ts' (history ++ bytes) i
      rw [hsize, hrsize, htail, hrtail]

theorem Fresh.write (hs : Sizes rbBits lgblock) (h : Fresh rbBits lgblock rb ref history)
    {bytes : List UInt8}
    (hn : bytes.length ≤ 2 ^ lgblock) :
    Fresh rbBits lgblock (rb.write bytes) (ref.writeMirrored bytes) (history ++ bytes) := by
  obtain ⟨h16, h31, h2, h0⟩ := hs.bounds
  have hsize := h.holds.shape.size
  have hrtail := h.shape.tailSize
  have hrtotal := h.shape.totalSize
  have hlenr := h.len
  by_cases hcur : rb.curSize < rb.totalSize
  · obtain ⟨hts, hlen, hmargin, hflat⟩ := h.short hcur
    obtain ⟨hT, -, -⟩ := h.holds.short hcur
    have hpos : rb.pos = history.length := h.holds.pos_eq (by omega)
    have hrpos : ref.pos = history.length := h.pos.trans hpos
    by_cases hstop : rb.pos + bytes.length < rb.size - 8
    · exact h.writePrefix hs hn hcur hstop
    · -- the whole layout is made, and then both are written to
      have hwrite : rb.write bytes = rb.materialize.writeFull bytes := by
        unfold RingBuffer.write
        dsimp only
        rw [if_neg (fun hc => hstop hc.2), if_pos hcur]
      have hmirror : ref.writeMirrored bytes = ref.writeFull bytes := if_neg fun hc => by omega
      obtain ⟨hm, hmcur⟩ := h.holds.materialize hs hcur
      have hmpos : rb.materialize.pos = history.length := hm.pos_eq (by omega)
      rw [hwrite, hmirror]
      refine Fresh.writeFull hs hm hmcur h.shape (hrpos.trans hmpos.symm) h.len
        (fun i hi => ?_) hn ?_
      · rw [hflat i hi]
        rw [hlenr, hrtotal, ← h.holds.shape.totalSize] at hi
        exact materialize_flat hs h.holds hcur hlen hmargin hi
      · apply List.ne_nil_of_length_pos
        rw [List.length_append]
        omega
  · obtain ⟨hne, hsame⟩ := h.full (Nat.not_lt.1 hcur)
    have hwrite : rb.write bytes = rb.writeFull bytes := by
      unfold RingBuffer.write
      dsimp only
      rw [if_neg (fun hc => hcur hc.1), if_neg hcur]
    have hpos0 : ref.pos ≠ 0 := fun h0' => by
      have hlen0 : 0 < history.length := List.length_pos_iff.2 hne
      have hlow := h.holds.low
      have hlap := h.holds.lap
      rw [← h.pos, h0'] at hlow hlap
      omega
    have hmirror : ref.writeMirrored bytes = ref.writeFull bytes := if_neg fun hc => hpos0 hc.1
    rw [hwrite, hmirror]
    exact Fresh.writeFull hs h.holds (Nat.not_lt.1 hcur) h.shape h.pos h.len hsame hn
      (by simp [hne])

theorem Fresh.clearMargin (hs : Sizes rbBits lgblock) (h : Fresh rbBits lgblock rb ref history) :
    Fresh rbBits lgblock rb.clearMargin ref.clearMargin history := by
  obtain ⟨h16, h31, h2, h0⟩ := hs.bounds
  have hholds := h.holds.clearMargin hs
  have hmask : ref.mask = rb.mask := h.shape.mask.trans h.holds.shape.mask.symm
  have hsize := h.holds.shape.size
  by_cases hm : rb.mask < rb.pos
  · have e1 : rb.clearMargin = rb := if_pos hm
    have e2 : ref.clearMargin = ref := if_pos (by rw [hmask, h.pos]; exact hm)
    rw [e1, e2]
    exact h
  · have e1 : rb.clearMargin =
      { rb with data := rb.data.fill (headRoom + rb.pos) slackForEightByteHashing 0 } := if_neg hm
    have e2 : ref.clearMargin =
        { ref with data := ref.data.fill (headRoom + rb.pos) slackForEightByteHashing 0 } := by
      rw [← h.pos]
      exact if_neg (by rw [hmask, h.pos]; exact hm)
    rw [e1] at hholds ⊢
    rw [e2]
    refine ⟨hholds, ⟨h.shape.size, h.shape.mask, h.shape.tailSize, h.shape.totalSize⟩, h.pos, h.len,
      fun hcur => ?_, fun hcur => ?_⟩
    · obtain ⟨hts, hlen, hmargin, hflat⟩ := h.short hcur
      obtain ⟨hT, -, -⟩ := h.holds.short hcur
      have hpos : rb.pos = history.length := h.holds.pos_eq (by omega)
      refine ⟨hts, hlen, fun i hi hlt => ?_, fun i hi => ?_⟩
      · show (if _ then (0 : UInt8) else rb.data.get i) = 0
        rw [hmargin i hi hlt]
        exact ite_self _
      · show (if headRoom + rb.pos ≤ i ∧ i < headRoom + rb.pos + slackForEightByteHashing ∧
          i < ref.data.len then (0 : UInt8)
          else ref.data.get i) = flat rb.size rb.tailSize rb.tailStart history i
        rw [hflat i hi]
        by_cases hin : headRoom + rb.pos ≤ i ∧ i < headRoom + rb.pos + slackForEightByteHashing ∧
          i < ref.data.len
        · have h7 : slackForEightByteHashing = 7 := rfl
          rw [if_pos hin]
          unfold flat
          rw [if_neg (by omega), if_neg (by omega), if_neg (by omega), if_neg (by omega)]
        · rw [if_neg hin]
    · obtain ⟨hne, hsame⟩ := h.full hcur
      refine ⟨hne, fun i hi => ?_⟩
      have hl : rb.data.len = ref.data.len := by
        have hcur' : rb.totalSize ≤ rb.curSize := hcur
        rw [(h.holds.full hcur').1, h.len, h.holds.shape.totalSize, h.shape.totalSize]
      show (if headRoom + rb.pos ≤ i ∧ i < headRoom + rb.pos + slackForEightByteHashing ∧
        i < rb.data.len then (0 : UInt8)
          else rb.data.get i) =
        if headRoom + rb.pos ≤ i ∧ i < headRoom + rb.pos + slackForEightByteHashing ∧
        i < ref.data.len then (0 : UInt8)
          else ref.data.get i
      rw [hsame i hi, hl]

/-- **A step on a fresh window and the same step with all the storage.** -/
theorem Fresh.apply (hs : Sizes rbBits lgblock)
    (h : Fresh rbBits lgblock rb ref history) {op : RingOp}
    (hfits : op.Fits (2 ^ lgblock)) (hreset : op ≠ .reset) :
    Fresh rbBits lgblock (rb.apply op) (ref.applyMirrored op) (op.extend history) := by
  cases op with
  | write bytes => exact h.write hs hfits
  | clearMargin => exact h.clearMargin hs
  | expectInput bytes =>
    exact ⟨h.holds.apply hs trivial,
      ⟨h.shape.size, h.shape.mask, h.shape.tailSize, h.shape.totalSize⟩, h.pos, h.len,
      h.short, h.full⟩
  | reset => exact absurd rfl hreset

theorem Fresh.run (hs : Sizes rbBits lgblock) :
    ∀ (ops : List RingOp) {rb ref : RingBuffer} {history : List UInt8},
    Fresh rbBits lgblock rb ref history → (∀ op ∈ ops, op.Fits (2 ^ lgblock)) → RingOp.reset ∉ ops →
      Fresh rbBits lgblock (ops.foldl RingBuffer.apply rb) (ops.foldl applyMirrored ref)
      (ops.foldl RingOp.extend history)
  | [], _, _, _, h, _, _ => h
  | op :: ops, _, _, _, h, hfits, hreset =>
    Fresh.run hs ops (h.apply hs (hfits op List.mem_cons_self) fun he =>
    hreset (he ▸ List.mem_cons_self))
      (fun o ho => hfits o (List.mem_cons_of_mem _ ho)) fun hmem =>
      hreset (List.mem_cons_of_mem _ hmem)

/-! ### Reading the window -/

theorem buffer_getElem? (rb : RingBuffer) (i : ℕ) :
    rb.buffer[i]? =
      if headRoom + i < rb.data.len then some (rb.data.get (headRoom + i)) else none := by
  unfold buffer Buffer.toList
  rw [List.getElem?_drop, List.getElem?_map]
  by_cases h : headRoom + i < rb.data.len
  · rw [List.getElem?_range h, if_pos h]
    rfl
  · rw [if_neg h, List.getElem?_eq_none (by rw [List.length_range]; omega)]
    rfl

/-- What the ring holds for a position in reach, and past the wrap. -/
theorem Holds.read (hs : Sizes rbBits lgblock) (h : Holds rbBits lgblock rb history) {p i : ℕ}
    (hp : p < history.length)
    (hreach : history.length ≤ p + 2 ^ rbBits) (hi : i = 0 ∨ i < 2 ^ lgblock)
    (hpi : p + i < history.length) :
    rb.buffer[(p &&& rb.mask) + i]? = history[p + i]? := by
  obtain ⟨h16, h31, h2, h0⟩ := hs.bounds
  have hsize := h.shape.size
  have htail := h.shape.tailSize
  have htotal := h.shape.totalSize
  rw [h.shape.masked p, buffer_getElem?, List.getElem?_eq_getElem hpi]
  have hget : history.getD (p + i) 0 = history[p + i] := List.getD_eq_getElem _ _ hpi
  have hmlt : p % 2 ^ rbBits < 2 ^ rbBits := Nat.mod_lt _ (by omega)
  by_cases hcur : rb.curSize < rb.totalSize
  · obtain ⟨hT, hlen, hheld⟩ := h.short hcur
    have hne : history ≠ [] := List.ne_nil_of_length_pos (by omega)
    rw [Nat.mod_eq_of_lt (show p < 2 ^ rbBits by omega), if_pos (by rw [hlen hne]; omega),
      hheld _ hpi, hget]
  · obtain ⟨hlen, hheld⟩ := h.full (Nat.not_lt.1 hcur)
    obtain ⟨hring, hmirror⟩ := hheld (p + i) hpi (by omega)
    rw [if_pos (by rw [hlen]; omega), ← hget]
    congr 1
    by_cases hwrap : p % 2 ^ rbBits + i < 2 ^ rbBits
    · have hmod : (p + i) % rb.size = p % 2 ^ rbBits + i := by
        rw [hsize, ← Nat.mod_add_mod, Nat.mod_eq_of_lt hwrap]
      rw [← hring, hmod]
    · -- the read runs into the tail
      have hmod : (p + i) % rb.size = p % 2 ^ rbBits + i - 2 ^ rbBits := by
        rw [hsize, ← Nat.mod_add_mod, Nat.mod_eq_sub_mod (Nat.not_lt.1 hwrap),
          Nat.mod_eq_of_lt (by omega)]
      have hle : rb.size ≤ p + i := by
        have := Nat.mod_le p (2 ^ rbBits)
        omega
      rw [← hmirror hle (by omega), hmod]
      congr 1
      omega

/-- **The lazily allocated ring buffer equals a flat history.** After any operations,
with the history of what was written since the last reset: a position in reach reads its
byte; so does a run of up to the tail's length from it, through the mirror too; without a
reset the whole layout, once made, is that of a window with all its storage from the
start; and clearing the margin on the first lap leaves zeros after the written bytes. -/
theorem flat_history (hs : Sizes rbBits lgblock) {ops : List RingOp}
    (hfits : ∀ op ∈ ops, op.Fits (2 ^ lgblock)) :
    let rb := ops.foldl RingBuffer.apply (new rbBits lgblock)
    let history := ops.foldl RingOp.extend []
    (∀ p, p < history.length → history.length ≤ p + 2 ^ rbBits →
      rb.buffer[p &&& rb.mask]? = history[p]?) ∧
      (∀ p n, p < history.length → history.length ≤ p + 2 ^ rbBits → n ≤ 2 ^ lgblock →
        p + n ≤ history.length →
        ∀ i, i < n → rb.buffer[(p &&& rb.mask) + i]? = history[p + i]?) ∧
      (RingOp.reset ∉ ops → rb.totalSize ≤ rb.curSize →
        rb.data.toList = (ops.foldl applyMirrored (mirrored rbBits lgblock)).data.toList) ∧
      (history.length < 2 ^ rbBits → ∀ i, i < 7 →
        rb.clearMargin.buffer.getD (history.length + i) 0 = 0 ∧
        (history ≠ [] → history.length + i < rb.clearMargin.buffer.length)) := by
  intro rb history
  have h : Holds rbBits lgblock rb history := Holds.run hs ops (new_holds hs) hfits
  refine ⟨fun p hp hreach => ?_, fun p n hp hreach hn hpn i hi => ?_, fun hreset hcur => ?_,
    fun hlap i hi => ?_⟩
  · have := h.read hs hp hreach (Or.inl rfl) hp
    exact this
  · exact h.read hs hp hreach (Or.inr (by omega)) (by omega)
  · have hfresh : Fresh rbBits lgblock rb _ history :=
      Fresh.run hs ops (mirrored_fresh hs) hfits hreset
    obtain ⟨-, hsame⟩ := hfresh.full hcur
    have hl : rb.data.len = (ops.foldl applyMirrored (mirrored rbBits lgblock)).data.len := by
      rw [(h.full hcur).1, hfresh.len, h.shape.totalSize, hfresh.shape.totalSize]
    unfold Buffer.toList
    rw [hl]
    apply List.map_congr_left
    intro i hi
    exact hsame i (List.mem_range.1 hi)
  · obtain ⟨h16, h31, h2, h0⟩ := hs.bounds
    have hsize := h.shape.size
    have htotal := h.shape.totalSize
    have hpos : rb.pos = history.length := h.pos_eq (by omega)
    have hclear : rb.clearMargin =
        { rb with data := rb.data.fill (headRoom + rb.pos) slackForEightByteHashing 0 } :=
      if_neg (by rw [h.shape.mask]; omega)
    have hread := buffer_getElem? rb.clearMargin (history.length + i)
    have hlen : rb.clearMargin.data.len = rb.data.len := by rw [hclear]; rfl
    have hbuflen : rb.clearMargin.buffer.length = rb.data.len - headRoom := by
      unfold buffer
      rw [List.length_drop, Buffer.toList_length, hlen]
    refine ⟨?_, fun hne => ?_⟩
    · rw [List.getD_eq_getElem?_getD, hread, hlen]
      split
      · rename_i hlt
        rw [hclear]
        show (if headRoom + rb.pos ≤ headRoom + (history.length + i) ∧
          headRoom + (history.length + i) < headRoom + rb.pos + slackForEightByteHashing ∧
            headRoom + (history.length + i) < rb.data.len then (0 : UInt8) else _) = 0
        exact if_pos ⟨by omega, by simp only [slackForEightByteHashing]; omega, hlt⟩
      · rfl
    · rw [hbuflen]
      by_cases hcur : rb.curSize < rb.totalSize
      · rw [(h.short hcur).2.1 hne]
        simp only [slackForEightByteHashing]
        omega
      · rw [(h.full (Nat.not_lt.1 hcur)).1]
        simp only [slackForEightByteHashing]
        omega

/-- A run through the mirror on the second lap. -/
theorem flat_history_lap :
    let ops : List RingOp :=
      [.write [1, 2, 3], .write [4, 5, 6, 7], .write [8, 9, 10, 11], .clearMargin,
      .write [12, 13, 14, 15], .write [16, 17, 18]]
    let rb := ops.foldl RingBuffer.apply (new 4 2)
    rb.buffer[(14 &&& rb.mask) + 3]? = some 18 := by
  intro ops rb
  obtain ⟨-, hrun, -, -⟩ :=
    @flat_history 4 2 ⟨by decide, by decide, by decide⟩ ops (by simp [ops, RingOp.Fits])
  exact hrun 14 4 (by decide) (by decide) (by decide) (by decide) 3 (by decide)

end RingBuffer

end Compressor
end Mbrotli
