/-
# Copies are those of LZ77

`appendCopy` is what a copy means: one byte at a time, each the one `distance` back in
the history so far. The kernels write whole pieces instead: overlapping stretches by
fills and doublings, snapshots that may write up to sixteen slots past the copy, runs
that wrap at the ring's end, growth that fills the ring with a repeated byte.

`Mirrors` says what a ring still holds: every byte that is not delivered yet and
every byte that a distance can reach. One piece keeps it (`Mirrors.piece`), whatever
kernel wrote it (`Writes`), so a copy through the command loop (`copy_mirrors`) and
one through the stages (`copyBytes_mirrors`) append and deliver what `appendCopy` says
(`copies_lz77`).
-/
import Mbrotli.Decompressor.Core.Sound
import Mbrotli.Decompressor.Core.Stages

namespace Mbrotli

/-! ### What a copy means -/

/-- Appends `n` bytes, each the one `distance` back. -/
def appendCopy (distance : ℕ) (history : List UInt8) : ℕ → List UInt8
  | 0 => history
  | n + 1 =>
    let history := appendCopy distance history n
    history ++ [history.getD (history.length - distance) 0]

@[simp] theorem length_appendCopy (distance : ℕ) (history : List UInt8) (n : ℕ) :
    (appendCopy distance history n).length = history.length + n := by
  induction n with
  | zero => rfl
  | succ n ih => simp [appendCopy, ih]; omega

/-- A copy can stop anywhere and go on. -/
theorem appendCopy_add (distance : ℕ) (history : List UInt8) (m n : ℕ) :
    appendCopy distance history (m + n) = appendCopy distance
    (appendCopy distance history m) n := by
  induction n with
  | zero => rfl
  | succ n ih =>
    show appendCopy distance history (m + n + 1) = _
    rw [appendCopy, appendCopy, ih]

/-- The bytes of a copy: the last `distance` bytes, over and over. -/
def copied (distance : ℕ) (history : List UInt8) (n : ℕ) : List UInt8 :=
  (List.range n).map fun i => history.getD (history.length - distance + i % distance) 0

@[simp] theorem length_copied (distance : ℕ) (history : List UInt8) (n : ℕ) :
    (copied distance history n).length = n := by simp [copied]

theorem getD_copied (distance : ℕ) (history : List UInt8) {n i : ℕ} (h : i < n) :
    (copied distance history n).getD i 0 =
    history.getD (history.length - distance + i % distance) 0 := by
  simp [copied, List.getD_eq_getElem?_getD, h]

theorem getD_append_left {l l' : List UInt8} {i : ℕ} (h : i < l.length) :
    (l ++ l').getD i 0 = l.getD i 0 := by
  rw [List.getD_eq_getElem?_getD, List.getD_eq_getElem?_getD, List.getElem?_append_left h]

theorem getD_append_add (l l' : List UInt8) (i : ℕ) :
    (l ++ l').getD (l.length + i) 0 = l'.getD i 0 := by
  rw [List.getD_eq_getElem?_getD, List.getD_eq_getElem?_getD, List.getElem?_append_right (by omega),
    Nat.add_sub_cancel_left]

theorem appendCopy_eq {distance : ℕ} {history : List UInt8} (h0 : 0 < distance)
    (hd : distance ≤ history.length) (n : ℕ) :
    appendCopy distance history n = history ++ copied distance history n := by
  induction n with
  | zero => simp [appendCopy, copied]
  | succ n ih =>
    have hsucc : copied distance history (n + 1) =
        copied distance history n ++
        [history.getD (history.length - distance + n % distance) 0] := by
      simp [copied, List.range_succ]
    rw [hsucc, ← List.append_assoc, appendCopy, ih]
    congr 2
    rw [List.length_append, length_copied]
    by_cases hn : n < distance
    · rw [getD_append_left (by omega), Nat.mod_eq_of_lt hn]
      congr 1
      omega
    · have hindex : history.length + n - distance = history.length + (n - distance) := by omega
      rw [hindex, getD_append_add, getD_copied _ _ (by omega), ← Nat.mod_eq_sub_mod (by omega)]

/-! ### Delivery -/

namespace Output

/-- The output with `bytes` delivered. -/
def deliver (o : Output) (bytes : List UInt8) : Output :=
  { o with
    bytes := if o.delivers then o.bytes.copy o.produced bytes.length fun i =>
      bytes.getD i 0 else o.bytes
    produced := o.produced + bytes.length }

@[simp] theorem deliver_nil (o : Output) : o.deliver [] = o := by
  have hcopy : (o.bytes.copy o.produced 0 fun i => ([] : List UInt8).getD i 0) = o.bytes := by
    simp only [Slice.copy]
    congr 1
    funext i
    rw [if_neg (by omega)]
  simp only [deliver, List.length_nil, hcopy, ite_self, Nat.add_zero]

theorem deliver_append (o : Output) (a b : List UInt8) :
    (o.deliver a).deliver b = o.deliver (a ++ b) := by
  have hsame : (o.deliver a).delivers = o.delivers := rfl
  have hcopy :
    ((o.bytes.copy o.produced a.length fun i => a.getD i 0).copy (o.produced + a.length) b.length
      fun i => b.getD i 0) = o.bytes.copy o.produced (a ++ b).length fun i =>
      (a ++ b).getD i 0 := by
    simp only [Slice.copy, List.length_append]
    congr 1
    funext i
    by_cases hb : o.produced + a.length ≤ i ∧ i < o.produced + a.length + b.length
    · have hi : i - o.produced = a.length + (i - (o.produced + a.length)) := by omega
      rw [if_pos hb, if_pos (by omega), hi, getD_append_add]
    · rw [if_neg hb]
      by_cases ha : o.produced ≤ i ∧ i < o.produced + a.length
      · rw [if_pos ha, if_pos (by omega), getD_append_left (by omega)]
      · rw [if_neg ha, if_neg (by omega)]
  unfold deliver at *
  simp only [hsame]
  split
  · simp only [hcopy, List.length_append, Nat.add_assoc]
  · simp only [List.length_append, Nat.add_assoc]

end Output

/-- Delivering what lies between two marks, and then up to a third. -/
theorem span_append {l l' : List UInt8} {a b c : ℕ} (hab : a ≤ b) (hbc : b ≤ c)
    (hb : b ≤ l.length) :
    (l.take b).drop a ++ ((l ++ l').take c).drop b = ((l ++ l').take c).drop a := by
  have hsplit : (l ++ l').take c = l.take b ++ ((l ++ l').take c).drop b := by
    conv_lhs => rw [← List.take_append_drop b ((l ++ l').take c)]
    rw [List.take_take, min_eq_left hbc, List.take_append_of_le_length hb]
  conv_rhs => rw [hsplit]
  rw [List.drop_append_of_le_length (by rw [List.length_take]; omega)]

/-! ### What a ring holds -/

/-- The ring holds what is not delivered yet and what a distance can reach. -/
structure Mirrors (window : ℕ) (ring : ℕ → UInt8) (size flushed : ℕ) (history : List UInt8) :
    Prop where
  power : PowerOfTwo size
  /-- The ring is as long as the window, or has not wrapped. -/
  reach : window ≤ size ∨ history.length ≤ size
  flushed_le : flushed ≤ history.length
  /-- What is pending does not wrap. -/
  lap : history.length / size = flushed / size
  recent : ∀ p < history.length, flushed ≤ p ∨ history.length ≤ p + (window - 16) →
    ring (p % size) = history.getD p 0

/-- What has become of a ring that mirrors `history` now and of an output that has been
given its pending bytes. -/
structure Appended (window : ℕ) (ring : ℕ → UInt8) (size position flushed flushed' : ℕ)
    (history : List UInt8)
    (o o' : Output) : Prop where
  position : position = history.length
  mirrors : Mirrors window ring size flushed' history
  flushed_le : flushed ≤ flushed'
  output : o' = o.deliver ((history.take flushed').drop flushed)

/-- Writes `bytes` at `dst`, and at most sixteen slots after them. -/
def Writes (ring ring' : ℕ → UInt8) (size dst : ℕ) (bytes : List UInt8) : Prop :=
  ∃ written, bytes.length ≤ written ∧ written ≤ bytes.length + 16 ∧ dst + written ≤ size ∧
    (∀ i < bytes.length, ring' (dst + i) = bytes.getD i 0) ∧
    ∀ j, j < dst ∨ dst + written ≤ j → ring' j = ring j

section Piece

variable {window size flushed : ℕ} {ring ring' : ℕ → UInt8} {history bytes : List UInt8}

/-- Positions of one lap are laid out in order. -/
theorem mod_add_of_lt {size a k : ℕ} (h : a % size + k < size) : (a + k) % size = a % size + k := by
  rw [Nat.add_mod, Nat.mod_eq_of_lt (b := size) (a := k) (by omega), Nat.mod_eq_of_lt h]

theorem div_add_of_lt {size a k : ℕ} (h : a % size + k < size) : (a + k) / size = a / size := by
  have h0 : 0 < size := by omega
  have hd := Nat.div_add_mod (a + k) size
  have ha := Nat.div_add_mod a size
  rw [mod_add_of_lt h] at hd
  exact Nat.eq_of_mul_eq_mul_left h0 (by omega)

/-- A position of an earlier lap, at or after the slot of a later one, is a lap behind. -/
theorem le_of_mod_le {size p a k : ℕ} (hp : p < a) (h : p % size = a % size + k) :
    p + size ≤ a + k := by
  have hd := Nat.div_add_mod p size
  have ha := Nat.div_add_mod a size
  have hlt : p / size < a / size := by
    by_contra hge
    have := Nat.mul_le_mul_left size (Nat.le_of_not_lt hge)
    omega
  have := Nat.mul_le_mul_left size (Nat.succ_le_of_lt hlt)
  rw [Nat.mul_succ] at this
  omega

/-- Bytes written after the history are read back, and none that matters is lost. -/
theorem Mirrors.written (h : Mirrors window ring size flushed history)
    (hfit : window ≤ size ∨ history.length + bytes.length ≤ size ∧ bytes ≠ [])
    (hw : Writes ring ring' size (history.length % size) bytes) :
    ∀ p < (history ++ bytes).length, flushed ≤ p ∨ (history ++ bytes).length ≤ p + (window - 16) →
      ring' (p % size) = (history ++ bytes).getD p 0 := by
  obtain ⟨written, hle, hpast, hend, hnew, hold⟩ := hw
  have hsize := h.power.pos
  have hmod := Nat.mod_lt history.length hsize
  intro p hp hreach
  rw [List.length_append] at hp hreach
  by_cases hlt : p < history.length
  · rw [getD_append_left hlt, hold, h.recent p hlt (by omega)]
    by_contra hin
    obtain ⟨k, hk⟩ : ∃ k, p % size = history.length % size + k :=
      ⟨p % size - history.length % size, by omega⟩
    have hbehind := le_of_mod_le hlt hk
    rcases hreach with hf | hf
    · -- What is pending lies in the same lap, before the slots written.
      have hd := Nat.div_add_mod history.length size
      have hd' := Nat.div_add_mod flushed size
      rw [h.lap] at hd
      have := Nat.mod_lt p hsize
      omega
    · rcases hfit with hwin | ⟨hfit, hne⟩
      · omega
      · have hpos : 0 < bytes.length := List.length_pos_iff.mpr hne
        rw [Nat.mod_eq_of_lt (by omega), Nat.mod_eq_of_lt (by omega)] at hk
        omega
  · obtain ⟨i, rfl⟩ : ∃ i, p = history.length + i := ⟨p - history.length, by omega⟩
    rw [mod_add_of_lt (by omega), getD_append_add, hnew i (by omega)]

/-- A flush delivers the pending bytes. -/
theorem flushRing_deliver {position : ℕ} (history : List UInt8) (hs : PowerOfTwo size)
    (hlen : position = history.length) (hf : flushed ≤ position)
    (hend : flushed % size + (position - flushed) ≤ size)
    (hring : ∀ p < history.length, flushed ≤ p → ring (p % size) = history.getD p 0) (o : Output) :
    flushRing ring size position flushed o =
    (position, o.deliver ((history.take position).drop flushed)) := by
  subst hlen
  unfold flushRing
  dsimp only
  by_cases hpend : history.length - flushed = 0
  · rw [if_neg (by omega), List.drop_eq_nil_of_le (by simp; omega), Output.deliver_nil]
    exact Prod.ext (by dsimp only; omega) rfl
  · have hlength : (history.drop flushed).length = history.length - flushed := by simp
    have hcopy : (o.bytes.copy o.produced (history.length - flushed) fun i =>
      ring (historyIndex size flushed + i)) =
        o.bytes.copy o.produced (history.length - flushed) fun i =>
        (history.drop flushed).getD i 0 := by
      simp only [Slice.copy]
      congr 1
      funext i
      by_cases hi : o.produced ≤ i ∧ i < o.produced + (history.length - flushed)
      · rw [if_pos hi, if_pos hi, hs.historyIndex, ← mod_add_of_lt (by omega),
          hring _ (by omega) (by omega),
          List.getD_eq_getElem?_getD, List.getD_eq_getElem?_getD, List.getElem?_drop]
      · rw [if_neg hi, if_neg hi]
    rw [if_pos hpend, List.take_length, Output.deliver, hlength]
    simp only [hcopy]

/-- **One piece.** Whatever kernel wrote it, the ring mirrors the history with the
piece appended, and what was pending is delivered when the ring's end is reached. -/
theorem Mirrors.piece (h : Mirrors window ring size flushed history)
    (hfit : window ≤ size ∨ history.length + bytes.length ≤ size ∧ bytes ≠ [])
    (hw : Writes ring ring' size (history.length % size) bytes) (o : Output) :
    let r := if history.length % size + bytes.length = size then
        flushRing ring' size (history.length + bytes.length) flushed o else (flushed, o)
    Appended window ring' size (history.length + bytes.length) flushed r.1
        (history ++ bytes) o r.2 := by
  have hrecent := h.written hfit hw
  have hflushed := h.flushed_le
  have hreach : window ≤ size ∨ (history ++ bytes).length ≤ size := by
    rw [List.length_append]
    omega
  obtain ⟨written, hle, -, hend, -, -⟩ := hw
  have hsize := h.power.pos
  have hd := Nat.div_add_mod history.length size
  have hd' := Nat.div_add_mod flushed size
  rw [h.lap] at hd
  dsimp only
  by_cases hfull : history.length % size + bytes.length = size
  · rw [if_pos hfull, flushRing_deliver (history ++ bytes) h.power List.length_append.symm
      (by omega) (by omega)
      fun p hp hf => hrecent p hp (.inl hf)]
    refine ⟨List.length_append.symm,
      ⟨h.power, hreach, by rw [List.length_append], by rw [List.length_append],
      fun p hp hf => ?_⟩, by dsimp only; omega, rfl⟩
    refine hrecent p hp (.inr ?_)
    rcases hf with hf | hf
    · rw [List.length_append] at hp
      dsimp only at hf
      omega
    · exact hf
  · rw [if_neg hfull]
    have hlap : (history ++ bytes).length / size = flushed / size := by
      rw [List.length_append, div_add_of_lt (by omega), h.lap]
    refine ⟨List.length_append.symm,
      ⟨h.power, hreach, by rw [List.length_append]; dsimp only; omega, hlap, hrecent⟩,
      le_rfl, ?_⟩
    rw [List.drop_eq_nil_of_le (by simp), Output.deliver_nil]

end Piece

/-! ### The kernels -/

section Kernels

variable {ring : ℕ → UInt8} {size src dst distance len : ℕ} {history bytes : List UInt8}

/-- The `distance` bytes from `src` on, repeated over `n` slots from `dst` on. -/
def spread (ring : ℕ → UInt8) (src dst distance n : ℕ) : ℕ → UInt8 :=
  fun j => if dst ≤ j ∧ j < dst + n then ring (src + (j - dst) % distance) else ring j

theorem copyBytes_spread (ring : ℕ → UInt8) (h0 : 0 < distance) (src n : ℕ) :
    copyBytes ring src (src + distance) n = spread ring src (src + distance) distance n := by
  induction n with
  | zero =>
    funext j
    simp only [copyBytes, spread]
    rw [if_neg (by omega)]
  | succ n ih =>
    funext j
    simp only [copyBytes, ih, putByte, spread]
    by_cases hj : j = src + distance + n
    · subst hj
      have hin : src + distance ≤ src + distance + n ∧
        src + distance + n < src + distance + (n + 1) := by omega
      rw [if_pos rfl, if_pos hin, Nat.add_sub_cancel_left]
      by_cases hn : n < distance
      · rw [if_neg (by omega), Nat.mod_eq_of_lt hn]
      · have hindex : src + n - (src + distance) = n - distance := by omega
        rw [if_pos (by omega), hindex, ← Nat.mod_eq_sub_mod (by omega)]
    · rw [if_neg hj]
      by_cases hin : src + distance ≤ j ∧ j < src + distance + n
      · rw [if_pos hin, if_pos (by omega)]
      · rw [if_neg hin, if_neg (by omega)]

theorem fill_spread (ring : ℕ → UInt8) (src len : ℕ) :
    fill ring (src + 1) len (ring src) = spread ring src (src + 1) 1 len := by
  funext j
  simp only [fill, spread, Nat.mod_one, Nat.add_zero]

/-- A stretch that is a whole number of distances long doubles. -/
theorem copyWithin_spread {done n : ℕ} (hdvd : distance ∣ done) (hn : n ≤ done + distance) :
    copyWithin (spread ring src (src + distance) distance done) src (src + distance + done) n =
      spread ring src (src + distance) distance (done + n) := by
  funext j
  simp only [copyWithin]
  by_cases hj : src + distance + done ≤ j ∧ j < src + distance + done + n
  · obtain ⟨i, rfl⟩ : ∃ i, j = src + distance + done + i := ⟨j - (src + distance + done), by omega⟩
    obtain ⟨k, rfl⟩ := hdvd
    have hmod : (distance * k + i) % distance = i % distance := by rw [Nat.mul_add_mod]
    have hsub : src + distance + distance * k + i - (src + distance) = distance * k + i := by omega
    rw [if_pos hj, Nat.add_sub_cancel_left]
    simp only [spread]
    rw [if_pos (by omega : src + distance ≤ src + distance + distance * k + i ∧ _), hsub, hmod]
    by_cases hi : i < distance
    · rw [if_neg (by omega), Nat.mod_eq_of_lt hi]
    · have hindex : src + i - (src + distance) = i - distance := by omega
      rw [if_pos (by omega), hindex, ← Nat.mod_eq_sub_mod (by omega)]
  · rw [if_neg hj]
    simp only [spread]
    by_cases hin : src + distance ≤ j ∧ j < src + distance + done
    · rw [if_pos hin, if_pos (by omega)]
    · rw [if_neg hin, if_neg (by omega)]

theorem copyDoubling_spread (ring : ℕ → UInt8) (src : ℕ) (h0 : 0 < distance) :
    ∀ (fuel done chunk : ℕ), len ≤ done + fuel →
    (done = len ∨ done < len ∧ distance ∣ done ∧ chunk = done + distance) →
    copyDoubling src (src + distance) len fuel done chunk
    (spread ring src (src + distance) distance done) =
      spread ring src (src + distance) distance len := by
  intro fuel
  induction fuel with
  | zero =>
    intro done chunk hfuel hinv
    have : done = len := by omega
    rw [copyDoubling, this]
  | succ fuel ih =>
    intro done chunk hfuel hinv
    rw [copyDoubling]
    rcases hinv with rfl | ⟨hlt, hdvd, rfl⟩
    · rw [if_neg (by omega)]
    · rw [if_pos hlt]
      dsimp only
      rw [copyWithin_spread hdvd (by omega)]
      refine ih _ _ (by omega) ?_
      by_cases hmore : done + (done + distance) < len
      · have hmin : min (done + distance) (len - done) = done + distance := by omega
        rw [hmin]
        exact .inr ⟨hmore, Nat.dvd_add hdvd (Nat.dvd_add hdvd (Nat.dvd_refl _)), by omega⟩
      · exact .inl (by omega)

theorem copyOverlapping_spread (h0 : 0 < distance) :
    copyOverlapping ring (src + distance) src len distance = spread ring src
    (src + distance) distance len := by
  unfold copyOverlapping
  split
  · rename_i h1
    subst h1
    exact fill_spread ring src len
  · split
    · exact copyBytes_spread ring h0 src len
    · have hstart : spread ring src (src + distance) distance 0 = ring := by
        funext j
        simp only [spread]
        rw [if_neg (by omega)]
      have hlen : 0 < len := by omega
      have := copyDoubling_spread ring src h0 len 0 distance (by omega)
        (.inr ⟨hlen, dvd_zero _, by omega⟩)
      rwa [hstart] at this

/-- The source of a copy: the slots of the last `distance` bytes, as far as they do not wrap. -/
def Sources (ring : ℕ → UInt8) (size src distance : ℕ) (history : List UInt8) : Prop :=
  ∀ i < distance, src + i < size → ring (src + i) = history.getD (history.length - distance + i) 0

theorem Sources.copyWithin (h : Sources ring size src distance history) {n written : ℕ}
    (hd : n ≤ distance)
    (hle : n ≤ written) (hpast : written ≤ n + 16) (hdst : dst + written ≤ size)
    (hsrc : src + n ≤ size) :
    Writes ring (copyWithin ring src dst written) size dst (copied distance history n) := by
  refine ⟨written, by simpa using hle, by simpa using hpast, hdst, fun i hi => ?_, fun j hj => ?_⟩
  · rw [length_copied] at hi
    simp only [Mbrotli.copyWithin]
    rw [if_pos (by omega), Nat.add_sub_cancel_left, h i (by omega) (by omega), getD_copied _ _ hi,
      Nat.mod_eq_of_lt (by omega)]
  · simp only [Mbrotli.copyWithin]
    rw [if_neg (by omega)]

theorem Sources.snapshot (h : Sources ring size src distance history) {n lanes : ℕ}
    (hd : n ≤ distance)
    (hle : n ≤ lanes) (hpast : lanes ≤ n + 16) {ring' : ℕ → UInt8}
    (hc : copySnapshot lanes ring size src dst = some ring') :
    Writes ring ring' size dst (copied distance history n) := by
  unfold copySnapshot at hc
  split at hc
  · cases hc
    exact h.copyWithin hd hle hpast (by omega) (by omega)
  · cases hc

theorem Sources.overlapping (h : Sources ring size src distance history) {n : ℕ} (h0 : 0 < distance)
    (hsrc : src + distance = dst) (hdst : dst + n ≤ size) :
    Writes ring (copyOverlapping ring dst src n distance) size dst (copied distance history n) := by
  subst hsrc
  rw [copyOverlapping_spread h0]
  refine ⟨n, by simp, by simp, hdst, fun i hi => ?_, fun j hj => ?_⟩
  · rw [length_copied] at hi
    have hlt := Nat.mod_lt i h0
    simp only [spread]
    rw [if_pos (by omega), Nat.add_sub_cancel_left, h _ hlt (by omega), getD_copied _ _ hi]
  · simp only [spread]
    rw [if_neg (by omega)]

end Kernels

/-! ### Runs that wrap -/

section Ring

variable {window size flushed distance : ℕ} {ring : ℕ → UInt8} {history : List UInt8}

/-- The source lies `distance` before the destination, or a lap after that. -/
theorem source_slot (hd : distance ≤ history.length) (hlt : distance < size) :
    (history.length - distance) % size + distance = history.length % size ∨
      (history.length - distance) % size + distance = history.length % size + size := by
  have hmod := Nat.mod_lt (history.length - distance) (show 0 < size by omega)
  have hsum : history.length % size = ((history.length - distance) % size + distance) % size := by
    rw [Nat.mod_add_mod, Nat.sub_add_cancel hd]
  by_cases hwrap : (history.length - distance) % size + distance < size
  · exact .inl (by rw [hsum, Nat.mod_eq_of_lt hwrap])
  · have hrest : (history.length - distance) % size + distance - size < size := by omega
    rw [Nat.mod_eq_sub_mod (Nat.le_of_not_lt hwrap), Nat.mod_eq_of_lt hrest] at hsum
    omega

theorem Mirrors.sources (h : Mirrors window ring size flushed history)
    (hd : distance ≤ min history.length (window - 16)) :
    Sources ring size ((history.length - distance) % size) distance history := by
  intro i hi hlt
  rw [← mod_add_of_lt hlt]
  exact h.recent _ (by omega) (.inr (by omega))

/-- A distance never spans the ring. -/
theorem distance_lt_size {n : ℕ} (h0 : 0 < distance)
    (hd : distance ≤ min history.length (window - 16))
    (hfit : window ≤ size ∨ history.length + n ≤ size ∧ 0 < n) : distance < size := by
  omega

/-- The piece `copyRing` writes, by whichever kernel. -/
def pieceKernel (ring : ℕ → UInt8) (size src dst piece distance : ℕ) : ℕ → UInt8 :=
  if src < dst ∧ distance < piece then copyOverlapping ring dst src piece distance
  else match if piece ≤ 16 then copySnapshot 16 ring size src dst else none with
    | some ring => ring
    | none => copyWithin ring src dst piece

theorem pieceKernel_writes {src dst n : ℕ} (h : Sources ring size src distance history)
    (h0 : 0 < distance)
    (hslot : src + distance = dst ∨ src + distance = dst + size) (hdst : dst + n ≤ size)
    (hsrc : src + n ≤ size) :
    Writes ring (pieceKernel ring size src dst n distance) size dst
    (copied distance history n) := by
  unfold pieceKernel
  by_cases hover : src < dst ∧ distance < n
  · rw [if_pos hover]
    exact h.overlapping h0 (by omega) hdst
  · rw [if_neg hover]
    have hd : n ≤ distance := by omega
    cases hc : (if n ≤ 16 then copySnapshot 16 ring size src dst else none) with
    | none => exact h.copyWithin hd le_rfl (by omega) hdst hsrc
    | some ring' =>
      split at hc
      · exact h.snapshot hd ‹_› (by omega) hc
      · cases hc

theorem copyRing_succ (size distance fuel length : ℕ) (ring : ℕ → UInt8)
    (position flushed : ℕ) (o : Output)
    (h : length ≠ 0) : copyRing size distance (fuel + 1) length ring position flushed o =
      let dst := historyIndex size position
      let src := historyIndex size (position - distance)
      let piece := min (min length (size - dst)) (size - src)
      let ring := pieceKernel ring size src dst piece distance
      let r := if dst + piece = size then flushRing ring size (position + piece) flushed o
        else (flushed, o)
      copyRing size distance fuel (length - piece) ring (position + piece) r.1 r.2 := by
  rw [copyRing, if_neg h]
  rfl

/-- A run in pieces appends and delivers what a byte-by-byte copy does. -/
theorem copyRing_mirrors (h0 : 0 < distance) : ∀ (fuel length : ℕ) (ring : ℕ → UInt8) (flushed : ℕ)
    (history : List UInt8) (o : Output), length ≤ fuel → Mirrors window ring size flushed history →
    distance ≤ min history.length (window - 16) → window ≤ size ∨ history.length + length ≤ size →
    let r := copyRing size distance fuel length ring history.length flushed o
    Appended window r.1 size r.2.1 flushed r.2.2.1 (appendCopy distance history length)
        o r.2.2.2 := by
  intro fuel
  induction fuel with
  | zero =>
    intro length ring flushed history o hlen h hd hfit
    obtain rfl : length = 0 := by omega
    refine ⟨rfl, h, le_rfl, ?_⟩
    rw [List.drop_eq_nil_of_le (by simp [copyRing]), Output.deliver_nil]
    rfl
  | succ fuel ih =>
    intro length ring flushed history o hlen h hd hfit
    by_cases hz : length = 0
    · subst hz
      rw [copyRing, if_pos rfl]
      refine ⟨rfl, h, le_rfl, ?_⟩
      rw [List.drop_eq_nil_of_le (by simp), Output.deliver_nil]
    · rw [copyRing_succ _ _ _ _ _ _ _ _ hz]
      have hsize := h.power.pos
      have hdstlt := Nat.mod_lt history.length hsize
      have hsrclt := Nat.mod_lt (history.length - distance) hsize
      have hfit' : window ≤ size ∨ history.length + length ≤ size ∧ 0 < length := by omega
      have hslot :=
        source_slot (show distance ≤ history.length by omega) (distance_lt_size h0 hd hfit')
      simp only [h.power.historyIndex]
      generalize hp : min (min length (size - history.length % size))
        (size - (history.length - distance) % size) = piece
      have hwrites := pieceKernel_writes (n := piece) (h.sources hd) h0 hslot (by omega) (by omega)
      have hlength : (copied distance history piece).length = piece := length_copied _ _ _
      have hpiece := h.piece (by rw [← List.length_pos_iff, hlength]; omega) hwrites o
      have hlengths : (history ++ copied distance history piece).length =
        history.length + piece := by simp
      rw [← appendCopy_eq h0 (by omega), hlength] at hpiece
      dsimp only at hpiece ⊢
      generalize (if history.length % size + piece = size then
        flushRing _ size (history.length + piece) flushed o else (flushed, o)) = r at hpiece ⊢
      obtain ⟨-, hm, hle, ho⟩ := hpiece
      have hsum : (appendCopy distance history piece).length = history.length + piece :=
        length_appendCopy _ _ _
      have hih :=
        ih (length - piece) _ r.1 _ r.2 (by omega) hm (by rw [hsum]; omega) (by rw [hsum]; omega)
      have hadd : appendCopy distance (appendCopy distance history piece) (length - piece) =
          appendCopy distance history length := by
        rw [← appendCopy_add]
        congr 1
        omega
      rw [hadd, hsum] at hih
      generalize copyRing size distance fuel (length - piece) _ (history.length + piece) r.1 r.2 =
        q at hih ⊢
      obtain ⟨i1, i2, i3, i4⟩ := hih
      refine ⟨i1, i2, by omega, ?_⟩
      rw [i4, ho, Output.deliver_append]
      congr 1
      have hext : appendCopy distance history length = appendCopy distance history piece ++
          copied distance (appendCopy distance history piece) (length - piece) := by
        rw [← hadd]
        exact appendCopy_eq h0 (by rw [hsum]; omega) _
      rw [hext]
      exact span_append hle i3 hm.flushed_le

end Ring

/-! ### The command loop -/

section Loop

variable {c : FastEnv} {l l' : Fast} {history : List UInt8}

/-- The loop's history. -/
def Fast.Mirrors (l : Fast) (window : ℕ) (history : List UInt8) : Prop :=
  l.position = history.length ∧ Mbrotli.Mirrors window l.ring.get l.ring.len l.flushed history

/-- The loop's history after a copy. -/
def Fast.Appended (l l' : Fast) (window : ℕ) (history : List UInt8) : Prop :=
  Mbrotli.Appended window l'.ring.get l'.ring.len l'.position l.flushed l'.flushed history
    l.output l'.output

/-- The slots a copy that does not wrap writes, by whichever kernel. -/
theorem unwrapped_writes {window n : ℕ} (h : l.Mirrors window history) (h0 : 0 < l.distance)
    (hd : l.distance ≤ min history.length (window - 16)) (hn : l.copy = n)
    (hfit : window ≤ l.ring.len ∨ history.length + n ≤ l.ring.len ∧ 0 < n) {src dst : ℕ}
    (hsrc : src = (history.length - l.distance) % l.ring.len)
    (hdst : dst = history.length % l.ring.len)
    (hshort : (FastEnv.snapshot l src dst).isSome ∨ max dst src + n ≤ l.ring.len) :
    Writes l.ring.get (match FastEnv.snapshot l src dst with
      | some get => get
      | none => if n ≤ l.distance then copyWithin l.ring.get src dst n
        else copyOverlapping l.ring.get dst src n l.distance) l.ring.len dst
        (copied l.distance history n) := by
  subst hn
  have hsources := h.2.sources hd
  have hslot :=
    source_slot (show l.distance ≤ history.length by omega) (distance_lt_size h0 hd hfit)
  rw [← hsrc, ← hdst] at hslot
  rw [← hsrc] at hsources
  cases hs : FastEnv.snapshot l src dst with
  | some get =>
    unfold FastEnv.snapshot at hs
    split at hs
    · split at hs
      · exact hsources.snapshot ‹_› ‹_› (by omega) hs
      · split at hs
        · exact hsources.snapshot ‹_› ‹_› (by omega) hs
        · cases hs
    · cases hs
  | none =>
    have hmax : max dst src + l.copy ≤ l.ring.len := by simpa [hs] using hshort
    dsimp only
    by_cases hle : l.copy ≤ l.distance
    · rw [if_pos hle]
      exact hsources.copyWithin hle le_rfl (by omega) (by omega) (by omega)
    · rw [if_neg hle]
      -- What overlaps itself starts before the destination, not a lap after it.
      exact hsources.overlapping h0 (by omega) (by omega)

theorem copyHistory_mirrors (hlin : c.linear = false) (h : l.Mirrors c.windowSize history)
    (h0 : 0 < l.distance)
    (hd : l.distance ≤ min history.length (c.windowSize - 16)) (hpos : 0 < l.copy)
    (hfit : c.windowSize ≤ l.ring.len ∨ history.length + l.copy ≤ l.ring.len)
    (hok : c.copyHistory l = .ok l') :
    l.Appended l' c.windowSize (appendCopy l.distance history l.copy) := by
  have hfit' : c.windowSize ≤ l.ring.len ∨ history.length + l.copy ≤ l.ring.len ∧ 0 < l.copy := by
    omega
  have hpower := h.2.power
  unfold FastEnv.copyHistory FastEnv.index at hok
  simp only [hlin, Bool.false_eq_true, if_false, hpower.historyIndex, h.1] at hok
  by_cases hshort : (FastEnv.snapshot l ((history.length - l.distance) % l.ring.len)
      (history.length % l.ring.len)).isSome ∨
      max (history.length % l.ring.len) ((history.length - l.distance) % l.ring.len) +
      l.copy ≤ l.ring.len
  · rw [if_pos hshort] at hok
    have hwrites := unwrapped_writes h h0 hd rfl hfit' rfl rfl hshort
    have hlength : (copied l.distance history l.copy).length = l.copy := length_copied _ _ _
    have hpiece := h.2.piece (by rw [← List.length_pos_iff, hlength]; exact hfit') hwrites l.output
    rw [← appendCopy_eq h0 (by omega), hlength] at hpiece
    unfold FastEnv.flushAt at hok
    cases hok
    by_cases hfull : history.length % l.ring.len + l.copy = l.ring.len
    · simp only [hfull, if_true] at hpiece
      simp only [hlin, hfull, Bool.not_false, Bool.true_and, decide_true, if_true]
      exact hpiece
    · simp only [hfull, if_false] at hpiece
      simp only [hlin, hfull, Bool.not_false, Bool.true_and, decide_false,
        Bool.false_eq_true, if_false]
      exact hpiece
  · rw [if_neg hshort] at hok
    cases hok
    exact copyRing_mirrors h0 _ _ _ _ _ _ le_rfl h.2 hd hfit

end Loop

/-! ### Growth -/

section Growth

variable {window flushed : ℕ} {memory memory' : Memory} {ring ring' : Buffer UInt8}
    {history : List UInt8}

/-- A longer ring with the same bytes mirrors the same history, which has not wrapped. -/
theorem Mirrors.grow (h : Mirrors window ring.get ring.len flushed history)
    (hsmall : ring.len < window)
    (hpower : PowerOfTwo ring'.len) (hle : ring.len ≤ ring'.len)
    (hget : ∀ i < history.length, i < ring.len → ring'.get i = ring.get i) :
    Mirrors window ring'.get ring'.len flushed history := by
  have hfit : history.length ≤ ring.len := by have := h.reach; omega
  have hflushed := h.flushed_le
  refine ⟨hpower, .inr (by omega), hflushed, ?_, fun p hp hf => ?_⟩
  · rcases Nat.eq_or_lt_of_le hle with heq | hlt
    · rw [← heq]
      exact h.lap
    · rw [Nat.div_eq_of_lt (by omega), Nat.div_eq_of_lt (by omega)]
  · have hrecent := h.recent p hp hf
    rw [Nat.mod_eq_of_lt (by omega)] at hrecent ⊢
    rw [hget p hp (by omega), hrecent]

theorem growRing_mirrors (h : Mirrors window ring.get ring.len flushed history)
    (hw : WindowSize window) {stop : ℕ}
    (hg : growRing memory ring window stop = .ok (memory', ring')) :
    Mirrors window ring'.get ring'.len flushed history ∧ min stop window ≤ ring'.len := by
  obtain ⟨-, hlength, hmin, hle⟩ := growRing_sound (.inr h.power) hw hg
  refine ⟨?_, hmin⟩
  unfold growRing at hg
  split at hg
  · cases hg
    exact h
  · obtain ⟨c, hc, rfl⟩ := Memory.resize_ok hg
    obtain ⟨-, hget, hlen, -⟩ := Memory.reserve_ok hc
    have hpos := h.power.pos
    refine h.grow (by omega) (hlength.resolve_left (by omega)) hle fun i _ hi => ?_
    rw [Buffer.resize_get_of_lt _ _ (by rw [hlen]; exact hi), hget]

/-- Growth for a unit distance is the copy itself. -/
theorem repeatGrow_mirrors (h : Mirrors window ring.get ring.len flushed history)
    (hw : WindowSize window) {n : ℕ} {byte : UInt8}
    (hlt : ring.len < history.length + n) (hstop : history.length + n ≤ window)
    (h1 : 0 < history.length)
    (hbyte : byte = history.getD (history.length - 1) 0)
    (hg : repeatGrow memory ring window history.length byte (history.length + n) =
      .ok (memory', ring')) (o : Output) :
    let r := if history.length + n = ring'.len then
        flushRing ring'.get ring'.len (history.length + n) flushed o else (flushed, o)
    Appended window ring'.get ring'.len (history.length + n) flushed r.1
        (appendCopy 1 history n) o r.2 := by
  have hfit : history.length ≤ ring.len := by have := h.reach; omega
  obtain ⟨-, hlength, hmin⟩ := repeatGrow_sound (.inr h.power) hw hg
  rw [min_eq_left hstop] at hmin
  have hpower := hlength.resolve_left (by omega)
  unfold repeatGrow at hg
  generalize hdes : ringSize ring.len window (history.length + n) = desired at hg
  cases hm : memory.reserve 1 ring desired with
  | error e => simp [hm] at hg
  | ok r =>
    obtain ⟨m1, c⟩ := r
    obtain ⟨-, hget, hlen, -⟩ := Memory.reserve_ok hm
    simp only [hm, Except.ok.injEq, Prod.mk.injEq] at hg
    obtain ⟨-, rfl⟩ := hg
    rw [Buffer.resize_len] at hmin
    -- Everything from the position on is the repeated byte.
    have hold : ∀ i < history.length, (({ c with
        get := Mbrotli.fill c.get history.length (c.len - history.length) byte } : Buffer
          UInt8).resize desired byte).get i =
        ring.get i := fun i hi => by
      rw [Buffer.resize_get_of_lt _ _ (by dsimp only; omega)]
      simp only [Mbrotli.fill]
      rw [if_neg (by omega), hget]
    have hnew : ∀ i < n, (({ c with
        get := Mbrotli.fill c.get history.length (c.len - history.length) byte } : Buffer
          UInt8).resize desired byte).get
        (history.length + i) = byte := fun i hi => by
      unfold Buffer.resize
      rw [if_pos (by dsimp only; omega)]
      simp only [Buffer.extend, Mbrotli.fill]
      split
      · rfl
      · rw [if_pos (by omega)]
    have hgrown := h.grow (by omega) hpower (by rw [Buffer.resize_len]; omega) fun i hi _ =>
      hold i hi
    rw [Buffer.resize_len] at hgrown hpower ⊢
    have hmod : history.length % desired = history.length := Nat.mod_eq_of_lt (by omega)
    have hcopied : (copied 1 history n).length = n := length_copied _ _ _
    have hpiece := hgrown.piece (.inr ⟨by rw [hcopied]; omega, by
      rw [← List.length_pos_iff, hcopied]; omega⟩)
        ⟨n, by rw [hcopied], by rw [hcopied]; omega, by rw [hmod]; omega,
        fun i hi => by
          rw [hcopied] at hi
          rw [hmod, hnew i hi, hbyte, getD_copied _ _ hi, Nat.mod_one, Nat.add_zero],
            fun _ _ => rfl⟩ o
    rwa [hmod, hcopied, ← appendCopy_eq Nat.one_pos (by omega)] at hpiece

end Growth

/-! ### Whole copies -/

/-- What a copy works on. -/
structure Past where
  ring : Buffer UInt8
  position : ℕ
  /-- End of the delivered history. -/
  flushed : ℕ
  output : Output

def Fast.past (l : Fast) : Past := ⟨l.ring, l.position, l.flushed, l.output⟩

/-- The stages deliver what they write. -/
def Machine.past (m : Machine) : Past :=
  ⟨m.stream.ring, m.stream.position, m.stream.position, m.output⟩

namespace Past

variable {window : ℕ} {history : List UInt8}

/-- The ring holds what a distance or a delivery can still ask of `history`. -/
def Mirrors (p : Past) (window : ℕ) (history : List UInt8) : Prop :=
  p.position = history.length ∧ Mbrotli.Mirrors window p.ring.get p.ring.len p.flushed history

/-- What is delivered between two marks of a history. -/
def Delivers (p p' : Past) (history : List UInt8) : Prop :=
  p.flushed ≤ p'.flushed ∧ p'.output = p.output.deliver ((history.take p'.flushed).drop p.flushed)

/-- Delivers what is pending. -/
def flush (p : Past) : Past :=
  let (flushed, output) := flushRing p.ring.get p.ring.len p.position p.flushed p.output
  { p with flushed, output }

theorem Delivers.refl (p : Past) {history : List UInt8} : p.Delivers p history := by
  refine ⟨le_rfl, ?_⟩
  rw [List.drop_eq_nil_of_le (by simp), Output.deliver_nil]

theorem Delivers.trans {p p' p'' : Past} {bytes : List UInt8} (h : p.Delivers p' history)
    (hm : p'.Mirrors window history) (h' : p'.Delivers p'' (history ++ bytes)) :
    p.Delivers p'' (history ++ bytes) := by
  refine ⟨h.1.trans h'.1, ?_⟩
  rw [h'.2, h.2, Output.deliver_append, span_append h.1 h'.1 hm.2.flushed_le]

theorem Mirrors.flush {p : Past} (h : p.Mirrors window history) :
    p.flush.Mirrors window history ∧ p.Delivers p.flush history ∧
    p.flush.flushed = p.flush.position := by
  have hm := h.2
  have hsize := hm.power.pos
  have hflushed := hm.flushed_le
  have hlap : p.flushed % p.ring.len + (p.position - p.flushed) ≤ p.ring.len := by
    have hd := Nat.div_add_mod history.length p.ring.len
    have hd' := Nat.div_add_mod p.flushed p.ring.len
    have hlt := Nat.mod_lt history.length hsize
    rw [hm.lap] at hd
    rw [h.1]
    omega
  have hf := flushRing_deliver history hm.power h.1 (by rw [h.1]; exact hflushed) hlap
    (fun q hq hle => hm.recent q hq (.inl hle)) p.output
  unfold Past.flush
  rw [hf]
  refine ⟨⟨h.1, hm.power, hm.reach, h.1.le, by rw [h.1], fun q hq hle => hm.recent q hq ?_⟩,
    ⟨?_, rfl⟩, rfl⟩
  · have := h.1
    dsimp only at hle
    omega
  · dsimp only
    rw [h.1]
    exact hflushed

end Past

/-- Whatever the kernels leave pending is flushed at the end. -/
theorem Appended.flush {window position flushed : ℕ} (ring : Buffer UInt8) {history : List UInt8}
    {o : Output} {p : Past}
    {start : ℕ} {o' : Output}
    (ha : Appended window ring.get ring.len position start flushed history o' o)
    (hs : p.flushed = start) (ho : p.output = o') :
    Past.Mirrors ⟨ring, position, position, (flushRing ring.get ring.len position flushed o).2⟩
    window history ∧
      p.Delivers ⟨ring, position, position, (flushRing ring.get ring.len position flushed o).2⟩
      history := by
  have hp : Past.Mirrors ⟨ring, position, flushed, o⟩ window history := ⟨ha.position, ha.mirrors⟩
  obtain ⟨f1, f2, f3⟩ := hp.flush
  have hto : p.Delivers ⟨ring, position, flushed, o⟩ history := by
    subst hs ho
    exact ⟨ha.flushed_le, ha.output⟩
  have hsame :
    (⟨ring, position, position, (flushRing ring.get ring.len position flushed o).2⟩ : Past) =
      Past.flush ⟨ring, position, flushed, o⟩ := by
    have h3 : (flushRing ring.get ring.len position flushed o).1 = position := f3
    simp only [Past.flush, h3]
  rw [hsame]
  refine ⟨f1, ?_⟩
  have hto' : p.Delivers (Past.flush ⟨ring, position, flushed, o⟩) (history ++ []) :=
    hto.trans hp (by rw [List.append_nil]; exact f2)
  rwa [List.append_nil] at hto'

section Copy

variable {c : FastEnv} {l l' : Fast} {history : List UInt8}

/-- A reached copy fits the ring, or wraps a full one. -/
theorem FastEnv.reach_mirrors (hlin : c.linear = false) (hw : WindowSize c.windowSize)
    (h : l.Mirrors c.windowSize history)
    (hroom : l.copy ≤ min l.remaining l.space) (hr : c.reach l (l.position + l.copy) = .ok l') :
    l'.Mirrors c.windowSize history ∧
    (c.windowSize ≤ l'.ring.len ∨ history.length + l.copy ≤ l'.ring.len) ∧
      l'.distance = l.distance ∧ l'.copy = l.copy ∧ l'.flushed = l.flushed ∧
      l'.output = l.output := by
  have hposition := h.1
  have hlt := hw.lt
  unfold FastEnv.reach at hr
  split at hr
  · cases hg : growRing l.memory l.ring c.windowSize
      (min (l.position + min l.remaining l.space) u64Max) with
    | error e => simp [hg, Fast.fail] at hr
    | ok r =>
      obtain ⟨memory', ring'⟩ := r
      simp only [hg, Except.ok.injEq] at hr
      obtain ⟨hm, hmin⟩ := growRing_mirrors h.2 hw hg
      subst hr
      exact ⟨⟨hposition, hm⟩, by dsimp only; omega, rfl, rfl, rfl, rfl⟩
  · rename_i hgrow
    cases hr
    simp only [FastEnv.grows, hlin, Bool.not_false, Bool.true_and, decide_eq_true_eq] at hgrow
    exact ⟨h, by omega, rfl, rfl, rfl, rfl⟩

/-- A copy of the command loop. -/
theorem FastEnv.copy_mirrors (hlin : c.linear = false) (hw : WindowSize c.windowSize)
    (h : l.past.Mirrors c.windowSize history)
    (h0 : 0 < l.distance) (hd : l.distance ≤ min l.position (c.windowSize - 16)) (hpos : 0 < l.copy)
    (hok : c.copy l = .ok l') :
    l'.past.Mirrors c.windowSize (appendCopy l.distance history l.copy) ∧
      l.past.Delivers l'.past (appendCopy l.distance history l.copy) := by
  change l.Mirrors c.windowSize history at h
  have hposition := h.1
  have hlt := hw.lt
  rw [hposition] at hd
  suffices hc : l.Appended l' c.windowSize (appendCopy l.distance history l.copy) from
    ⟨⟨hc.position, hc.mirrors⟩, hc.flushed_le, hc.output⟩
  unfold FastEnv.copy at hok
  split at hok
  · split at hok <;> cases hok
  · rename_i hroom
    dsimp only at hok
    split at hok
    · rename_i hgrows
      obtain ⟨hone, hgrow, hstop⟩ := hgrows
      have hgrow' : l.ring.len < l.position + l.copy := by
        simp only [FastEnv.grows, hlin, Bool.not_false, Bool.true_and, decide_eq_true_eq] at hgrow
        exact hgrow.2
      have hfit : history.length ≤ l.ring.len := by have := h.2.reach; have := h.2.power; omega
      cases hr : repeatGrow l.memory l.ring c.windowSize l.position
          (l.ring.get (c.index { l with cache := l.cache.push l.distance } (l.position - 1)))
          (l.position + l.copy) with
      | error e => simp [hr, Fast.fail] at hok
      | ok r =>
        obtain ⟨memory', ring'⟩ := r
        simp only [hr, Except.ok.injEq] at hok
        have hbyte :
          l.ring.get (c.index { l with cache := l.cache.push l.distance } (l.position - 1)) =
            history.getD (history.length - 1) 0 := by
          have hindex : c.index { l with cache := l.cache.push l.distance } (l.position - 1) =
              (history.length - 1) % l.ring.len := by
            rw [← hposition]
            unfold FastEnv.index
            rw [hlin]
            exact h.2.power.historyIndex _
          rw [hindex]
          exact h.2.recent _ (by omega) (.inr (by omega))
        rw [hposition] at hr hgrow' hstop
        have hgrown :=
          repeatGrow_mirrors h.2 hw hgrow' hstop (by omega) hbyte
            (by rw [hposition]; exact hr) l.output
        rw [hone]
        subst hok
        by_cases hfull : history.length + l.copy = ring'.len
        · simp only [hfull, if_true] at hgrown
          simp only [hposition, hfull, if_true]
          exact hgrown
        · simp only [hfull, if_false] at hgrown
          simp only [hposition, hfull, if_false]
          exact hgrown
    · cases hr : c.reach { l with cache := l.cache.push l.distance } (l.position + l.copy) with
      | error e => simp [hr, bind, Except.bind] at hok
      | ok l2 =>
        simp only [hr, bind, Except.bind] at hok
        obtain ⟨hm, hfit, hdist, hcopy, hflushed, hout⟩ :=
          reach_mirrors (l := { l with cache := l.cache.push l.distance })
            hlin hw h (by dsimp only; omega) hr
        have happended :=
          copyHistory_mirrors hlin hm (by rw [hdist]; exact h0) (by rw [hdist]; exact hd)
            (by rw [hcopy]; exact hpos) (by rw [hcopy]; exact hfit) hok
        unfold Fast.Appended at happended ⊢
        rwa [hdist, hcopy, hflushed, hout] at happended

/-- A copy of the stages, which deliver all of it. -/
theorem Machine.copyBytes_mirrors {outEnd n : ℕ} {m m' : Machine} (hlin : m.output.linear = false)
    (hw : WindowSize m.stream.windowSize) (h : m.past.Mirrors m.stream.windowSize history)
    (h0 : 0 < m.stream.distance)
    (hd : m.stream.distance ≤ min m.stream.position (m.stream.windowSize - 16))
    (hok : m.copyBytes outEnd n = .ok m') :
    m'.past.Mirrors m.stream.windowSize (appendCopy m.stream.distance history n) ∧
      m.past.Delivers m'.past (appendCopy m.stream.distance history n) := by
  have hposition : m.stream.position = history.length := h.1
  have hm : Mirrors m.stream.windowSize m.stream.ring.get m.stream.ring.len m.stream.position
    history := h.2
  rw [hposition] at hd
  have hflush : ∀ {ring : Buffer UInt8} {position flushed : ℕ} {o : Output},
      Appended m.stream.windowSize ring.get ring.len position m.stream.position flushed
        (appendCopy m.stream.distance history n) m.output o →
      Past.Mirrors ⟨ring, position, position, (flushRing ring.get ring.len position flushed o).2⟩
      m.stream.windowSize
          (appendCopy m.stream.distance history n) ∧
        m.past.Delivers ⟨ring, position, position,
          (flushRing ring.get ring.len position flushed o).2⟩
          (appendCopy m.stream.distance history n) :=
            fun {ring} _ _ _ ha => Appended.flush (p := m.past) ring ha rfl rfl
  unfold Machine.copyBytes at hok
  simp only [hlin, Bool.false_eq_true, if_false] at hok
  cases hr : m.stream.repeatGrowing (m.stream.position + n) with
  | error e => simp [hr] at hok
  | ok grown =>
    cases grown with
    | some s =>
      simp only [hr, Except.ok.injEq] at hok
      unfold Stream.repeatGrowing at hr
      split at hr
      · cases hr
      · rename_i hgrows
        obtain ⟨hone, hlt, hstop⟩ : m.stream.distance = 1 ∧
          m.stream.ring.len < m.stream.position + n ∧
          m.stream.position + n ≤ m.stream.windowSize := by omega
        have hfit : history.length ≤ m.stream.ring.len := by have := hm.reach; omega
        cases hg : repeatGrow m.stream.memory m.stream.ring m.stream.windowSize m.stream.position
            (m.stream.ring.get (m.stream.position - 1)) (m.stream.position + n) with
        | error e => simp [hg] at hr
        | ok r =>
          obtain ⟨memory', ring'⟩ := r
          simp only [hg, Except.ok.injEq, Option.some.injEq] at hr
          have hbyte : m.stream.ring.get (m.stream.position - 1) =
              history.getD (history.length - 1) 0 := by
            have := hm.recent (history.length - 1) (by omega) (.inr (by omega))
            rw [Nat.mod_eq_of_lt (by omega)] at this
            rw [hposition, this]
          have hgrown := repeatGrow_mirrors hm hw (n := n) (by omega) (by omega) (by omega) hbyte
            (by rw [← hposition]; exact hg) m.output
          rw [← hone, ← hposition] at hgrown
          subst hr hok
          by_cases hfull : m.stream.position + n = ring'.len
          · have hend :=
              (flushRing_spec ring'.get ring'.len (m.stream.position + n) m.stream.position
                m.output (by omega)).1
            rw [if_pos hfull] at hgrown
            dsimp only at hgrown
            rw [hend] at hgrown
            exact ⟨⟨hgrown.position, hgrown.mirrors⟩, hgrown.flushed_le, hgrown.output⟩
          · rw [if_neg hfull] at hgrown
            exact hflush hgrown
    | none =>
      simp only [hr] at hok
      cases he : m.stream.ensureRing (m.stream.position + n) with
      | error e => simp [he] at hok
      | ok s =>
        simp only [he, Except.ok.injEq] at hok
        unfold Stream.ensureRing at he
        cases hg : growRing m.stream.memory m.stream.ring m.stream.windowSize
          (m.stream.position + n) with
        | error e => simp [hg] at he
        | ok r =>
          obtain ⟨memory', ring'⟩ := r
          simp only [hg, Except.ok.injEq] at he
          obtain ⟨hm', hmin⟩ := growRing_mirrors hm hw hg
          subst he hok
          have hrun :=
            copyRing_mirrors h0 n n ring'.get m.stream.position history m.output le_rfl
              hm' hd (by omega)
          rw [← hposition] at hrun
          exact hflush hrun

end Copy

/-! ### Any mix of copies -/

/-- One copy of `n` bytes from `distance` back: in the command loop, or in the stages,
which may stop it at any byte and go on. A copy's length is never zero. -/
inductive CopyStep (window : ℕ) : Past → ℕ → ℕ → Past → Prop
  | fast {c : FastEnv} {l l' : Fast} (hlin : c.linear = false) (hwin : c.windowSize = window)
      (hpos : 0 < l.copy)
      (hok : c.copy l = .ok l') : CopyStep window l.past l.distance l.copy l'.past
  | stage {outEnd n : ℕ} {m m' : Machine} (hlin : m.output.linear = false)
      (hwin : m.stream.windowSize = window)
      (hok : m.copyBytes outEnd n = .ok m') : CopyStep window m.past m.stream.distance n m'.past

/-- A run of copies, each from within the window, with deliveries between them. -/
inductive CopyRun (window : ℕ) : Past → List (ℕ × ℕ) → Past → Prop
  | refl (p : Past) : CopyRun window p [] p
  | copy {p p' p'' : Past} {distance n : ℕ} {copies : List (ℕ × ℕ)} (h0 : 1 ≤ distance)
      (hd : distance ≤ min p.position (window - 16)) (hstep : CopyStep window p distance n p')
      (hrun : CopyRun window p' copies p'') : CopyRun window p ((distance, n) :: copies) p''
  | flush {p p' : Past} {copies : List (ℕ × ℕ)} (hrun : CopyRun window p.flush copies p') :
      CopyRun window p copies p'

/-- The copies one after the other, byte by byte. -/
def appendCopies (history : List UInt8) (copies : List (ℕ × ℕ)) : List UInt8 :=
  copies.foldl (fun history copy => appendCopy copy.1 history copy.2) history

theorem CopyStep.mirrors {window distance n : ℕ} {p p' : Past} {history : List UInt8}
    (h : CopyStep window p distance n p')
    (hw : WindowSize window) (hm : p.Mirrors window history) (h0 : 1 ≤ distance)
    (hd : distance ≤ min p.position (window - 16)) :
    p'.Mirrors window (appendCopy distance history n) ∧
    p.Delivers p' (appendCopy distance history n) := by
  cases h with
  | fast hlin hwin hpos hok =>
    subst hwin
    exact FastEnv.copy_mirrors hlin hw hm h0 hd hpos hok
  | stage hlin hwin hok =>
    subst hwin
    exact Machine.copyBytes_mirrors hlin hw hm h0 hd hok

/-- What is appended to a history stays a prefix of what follows. -/
theorem appendCopies_extends {window : ℕ} {p p' : Past} {copies : List (ℕ × ℕ)}
    (h : CopyRun window p copies p')
    (hw : WindowSize window) : ∀ {history : List UInt8}, p.Mirrors window history →
      ∃ bytes, appendCopies history copies = history ++ bytes := by
  induction h with
  | refl p => exact fun _ => ⟨[], (List.append_nil _).symm⟩
  | @copy p p' p'' distance n copies h0 hd hstep hrun ih =>
    intro history hm
    obtain ⟨h1, -⟩ := hstep.mirrors hw hm h0 hd
    obtain ⟨bytes, hbytes⟩ := ih h1
    refine ⟨copied distance history n ++ bytes, ?_⟩
    show appendCopies (appendCopy distance history n) copies = _
    have hle : distance ≤ history.length := by have := hm.1; omega
    rw [hbytes, appendCopy_eq h0 hle, List.append_assoc]
  | flush hrun ih => exact fun hm => ih hm.flush.1

/-- **Copies are those of LZ77.** Over any mix of the loop's and the stages' copies, what
is delivered and what the ring still holds are those of the history that the copies
append byte by byte. -/
theorem copies_lz77 {window : ℕ} {p p' : Past} {copies : List (ℕ × ℕ)} {history : List UInt8}
    (hw : WindowSize window) (hm : p.Mirrors window history) (hrun : CopyRun window p copies p') :
    p'.Mirrors window (appendCopies history copies) ∧
    p.Delivers p' (appendCopies history copies) := by
  induction hrun generalizing history with
  | refl p => exact ⟨hm, .refl p⟩
  | @copy p p' p'' distance n copies h0 hd hstep hrun ih =>
    obtain ⟨h1, h2⟩ := hstep.mirrors hw hm h0 hd
    obtain ⟨i1, i2⟩ := ih h1
    refine ⟨i1, ?_⟩
    obtain ⟨bytes, hbytes⟩ := appendCopies_extends hrun hw h1
    show p.Delivers p'' (appendCopies (appendCopy distance history n) copies)
    rw [hbytes] at i2 ⊢
    exact h2.trans h1 i2
  | @flush p p' copies hrun ih =>
    obtain ⟨f1, f2, -⟩ := hm.flush
    obtain ⟨i1, i2⟩ := ih f1
    refine ⟨i1, ?_⟩
    obtain ⟨bytes, hbytes⟩ := appendCopies_extends hrun hw f1
    rw [hbytes] at i2 ⊢
    exact f2.trans f1 i2

/-- A full ring of 64 slots whose last two are still free. -/
def nearlyFull : Machine where
  stream :=
    { ring := ⟨fun i => UInt8.ofNat i, 64, 64⟩, position := 62, windowSize := 64, distance := 3 }
  input := .new [] 0 none
  output :=
    { bytes := ⟨fun _ => 0, 100⟩, collect := none, linear := false,
      produced := 62, totalBefore := 0, limit := none
      exact := .unknown }

theorem nearlyFull_mirrors : nearlyFull.past.Mirrors 64 ((List.range 62).map UInt8.ofNat) where
  left := rfl
  right :=
    { power := ⟨6, rfl⟩, reach := .inl le_rfl, flushed_le := le_rfl, lap := rfl
      recent := by
        have h : ∀ p < 62, UInt8.ofNat (p % 64) = ((List.range 62).map UInt8.ofNat).getD p 0 := by
          decide
        exact fun p hp _ => h p hp }

/-- What the stages of `nearlyFull` copy: ten bytes that overlap themselves and wrap. -/
def wrapped : Machine := (nearlyFull.copyBytes 100 10).toOption.getD nearlyFull

/-- The command loop's locals behind them, at a copy of twenty bytes from far back. -/
def farBack : Fast :=
  { wrapped.stream.enterFast {} wrapped.input wrapped.output 100 with
    distance := 40, copy := 20, remaining := 20 }

/-- A copy of the stages that overlaps itself and wraps, and one of the command loop that
the next lap reads. -/
theorem copies_lz77_wraps : ∃ p', CopyRun 64 nearlyFull.past [(3, 10), (40, 20)] p' ∧
    p'.Mirrors 64
      ((List.range 62).map UInt8.ofNat ++ [59, 60, 61, 59, 60, 61, 59, 60, 61, 59] ++
        (List.range 20).map fun i => UInt8.ofNat (32 + i)) := by
  have hstage : nearlyFull.copyBytes 100 10 = .ok wrapped := rfl
  obtain ⟨l', hloop⟩ : ∃ l', FastEnv.copy ⟨⟨⟨fun _ => 0, 0⟩, {}, none⟩, false, 64, 48, {}⟩
      farBack = .ok l' := ⟨_, rfl⟩
  have hrun : CopyRun 64 nearlyFull.past [(3, 10), (40, 20)] l'.past :=
    .copy (by decide) (by decide) (.stage rfl rfl hstage)
      (.copy (by decide) (by decide)
        (@CopyStep.fast 64 _ farBack l' rfl rfl (by decide) hloop) (.refl _))
  have hmirrors := (copies_lz77 ⟨6, by decide, rfl⟩ nearlyFull_mirrors hrun).1
  have hbytes : appendCopies ((List.range 62).map UInt8.ofNat) [(3, 10), (40, 20)] =
      (List.range 62).map UInt8.ofNat ++ [59, 60, 61, 59, 60, 61, 59, 60, 61, 59] ++
        (List.range 20).map fun i => UInt8.ofNat (32 + i) := by decide +kernel
  exact ⟨l'.past, hrun, hbytes ▸ hmirrors⟩

end Mbrotli
