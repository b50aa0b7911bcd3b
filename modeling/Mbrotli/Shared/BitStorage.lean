/-
# Fixed and growing storage

A writer over a slice and one over a vector make the same calls of the same bits. The
vector grows when a call needs bytes past its end; the slice does not, and the writer
over it overflows. `BitOp.needed` are the bytes a call needs, from the position only,
and `Overruns` says that some call of a run needs one the slice does not have.

Whatever bytes lie beyond the bits a writer starts with, `run_storage` says when it
overflows, and that both storages otherwise hold the abstract string.

Key definitions: `BitOp.needed`, `BitOp.Overruns`, `Seeds`.
Key theorems: `apply_slice`, `run_slice`, `run_storage`.
-/
import Mbrotli.Shared.Bits

namespace Mbrotli.Compressor
open BitString

namespace BitWriter

/-- A writer over a slice, from bit `position` on. -/
def new (storage : List UInt8) (position : ℕ) : BitWriter := { storage, position }

/-- A writer over a vector, from bit `position` on. -/
def append (grown : ℕ → ℕ) (storage : List UInt8) (position : ℕ) : BitWriter :=
  { storage, grown := some grown, position }

/-- The storage a writer starts from: the bits written so far, zeros above them in
their last byte, and any bytes or none behind. -/
structure Seeds (storage : List UInt8) (B : List Bool) : Prop where
  spells : Spells storage 0 B
  zeros : ∀ i, B.length ≤ i → i / 8 = B.length / 8 → bitAt storage i = false

end BitWriter

namespace BitOp
open BitWriter

/-- The bytes the call needs when it is made at `position`. -/
def needed : BitOp → ℕ → List ℕ
  | write _ _, position => List.range' (position / 8) writeSlack
  | update nBits _ first, _ => if 0 < nBits then List.range' (first / 8)
      ((first % 8 + nBits + 7) / 8) else []
  | rewind first, _ => [first / 8]
  | align, _ => []
  | jumpToByteBoundary, position => [(position + 7) / 8]
  | prepareStorage, position => [position / 8]
  | writeBytes data, position => List.range' (position / 8) (data.length + 1)
  | setByte index _, _ => [index]

/-- Some call of the run needs a byte that a slice of `length` bytes does not have. -/
def Overruns (length : ℕ) : List BitOp → List Bool → Prop
  | [], _ => False
  | op :: ops, B => (∃ k ∈ op.needed B.length, length ≤ k) ∨ Overruns length ops (op.bits B)

instance decidableOverruns (length : ℕ) :
    ∀ (ops : List BitOp) (B : List Bool), Decidable (Overruns length ops B)
  | [], _ => inferInstanceAs (Decidable False)
  | op :: ops, B =>
    have := decidableOverruns length ops (op.bits B)
    inferInstanceAs (Decidable ((∃ k ∈ op.needed B.length, length ≤ k) ∨
      Overruns length ops (op.bits B)))

end BitOp

/-! ### When a slice overflows -/

namespace BitWriter

variable {w : BitWriter} {n v p stop : ℕ} {storage : List UInt8}

/-- A call leaves a slice a slice, of the same length. -/
structure Within (w w' : BitWriter) : Prop where
  fixed : w'.grown = none
  length_eq : w'.storage.length = w.storage.length

theorem window_slice (h : w.grown = none) (stop : ℕ) :
    w.window stop = if stop ≤ w.storage.length then some w.storage else none := by
  rw [window, h]

theorem setByte_slice {k : ℕ} {b : UInt8} (h : w.grown = none) :
    Within w (w.setByte k b) ∧ (w.setByte k b).position = w.position ∧
      ((w.setByte k b).overflowed = true ↔ w.overflowed = true ∨ w.storage.length ≤ k) := by
  rw [setByte, window_slice h]
  by_cases hfit : k + 1 ≤ w.storage.length
  · rw [if_pos hfit]
    refine ⟨⟨h, length_splice hfit⟩, rfl, ?_⟩
    show w.overflowed = true ↔ _
    simp [show ¬ w.storage.length ≤ k by omega]
  · rw [if_neg hfit]
    refine ⟨⟨h, rfl⟩, rfl, ?_⟩
    simp [show w.storage.length ≤ k by omega]

theorem write_slice (h : w.grown = none) :
    Within w (w.write n v) ∧ (w.write n v).position = w.position + n ∧
      ((w.write n v).overflowed = true ↔
        w.overflowed = true ∨ w.storage.length < w.position / 8 + writeSlack) := by
  rw [write, window_slice h]
  by_cases hfit : w.position / 8 + writeSlack ≤ w.storage.length
  · rw [if_pos hfit]
    refine ⟨⟨h, length_splice (by rw [length_leBytes]; exact hfit)⟩, rfl, ?_⟩
    show w.overflowed = true ↔ _
    simp [show ¬ w.storage.length < w.position / 8 + writeSlack by omega]
  · rw [if_neg hfit]
    refine ⟨⟨h, rfl⟩, rfl, ?_⟩
    simp [show w.storage.length < w.position / 8 + writeSlack by omega]

/-- An update goes byte by byte, and stops at the first one the slice does not have. -/
theorem updateFrom_slice (fuel : ℕ) (hfuel : n ≤ fuel) (h : w.grown = none) :
    Within w (updateFrom fuel n v p w) ∧ (updateFrom fuel n v p w).position = w.position ∧
      ((updateFrom fuel n v p w).overflowed = true ↔
        w.overflowed = true ∨ (0 < n ∧ 8 * w.storage.length < p + n)) := by
  induction fuel generalizing n v p w with
  | zero =>
    obtain rfl : n = 0 := Nat.le_zero.mp hfuel
    exact ⟨⟨h, rfl⟩, rfl, by simp [updateFrom]⟩
  | succ fuel ih =>
    rw [updateFrom]
    by_cases hmore : 0 < n
    swap
    · rw [if_neg hmore]
      exact ⟨⟨h, rfl⟩, rfl, by simp [hmore]⟩
    rw [if_pos hmore]
    simp only []
    rw [window_slice h]
    by_cases hfit : p / 8 + 1 ≤ w.storage.length
    · rw [if_pos hfit]
      set c := min n (8 - p % 8) with hc
      obtain ⟨hwithin, hpos, hover⟩ := ih (n := n - c) (v := v >>> c) (p := p + c)
        (w := { w with storage := splice w.storage (p / 8) [updatedByte (w.storage.getD (p / 8) 0)
          v (p % 8) c] })
        (by omega) h
      have hlen :
        (splice w.storage (p / 8) [updatedByte (w.storage.getD (p / 8) 0) v (p % 8) c]).length =
          w.storage.length := length_splice hfit
      refine ⟨⟨hwithin.fixed, hwithin.length_eq.trans hlen⟩, hpos, hover.trans ?_⟩
      show w.overflowed = true ∨ (0 < n - c ∧ 8 * (splice _ _ _).length < p + c + (n - c)) ↔ _
      rw [hlen]
      refine or_congr_right ?_
      omega
    · rw [if_neg hfit]
      refine ⟨⟨h, rfl⟩, rfl, ?_⟩
      have hshort : 0 < n ∧ 8 * w.storage.length < p + n := by omega
      simp [hshort]

theorem rewind_slice (h : w.grown = none) :
    Within w (w.rewind p) ∧ (w.rewind p).position = p ∧
      ((w.rewind p).overflowed = true ↔ w.overflowed = true ∨ w.storage.length ≤ p / 8) := by
  rw [rewind, window_slice h]
  by_cases hfit : p / 8 + 1 ≤ w.storage.length
  · rw [if_pos hfit]
    refine ⟨⟨h, length_splice hfit⟩, rfl, ?_⟩
    show w.overflowed = true ↔ _
    simp [show ¬ w.storage.length ≤ p / 8 by omega]
  · rw [if_neg hfit]
    refine ⟨⟨h, rfl⟩, rfl, ?_⟩
    simp [show w.storage.length ≤ p / 8 by omega]

theorem copyBytes_slice (h : w.grown = none) (k : ℕ) (data : List UInt8) :
    w.copyBytes k data = if k + data.length ≤ w.storage.length then some (splice w.storage k data)
    else none := by
  rw [copyBytes, h]

/-- The copy needs its bytes, and the byte it ends before. -/
theorem writeBytes_slice (data : List UInt8) (h : w.grown = none) (halign : w.position % 8 = 0) :
    Within w (w.writeBytes data) ∧ (w.writeBytes data).position = w.position + 8 * data.length ∧
      ((w.writeBytes data).overflowed = true ↔
        w.overflowed = true ∨ w.storage.length ≤ w.position / 8 + data.length) := by
  rw [writeBytes, copyBytes_slice h]
  by_cases hfit : w.position / 8 + data.length ≤ w.storage.length
  · rw [if_pos hfit]
    obtain ⟨hwithin, hpos, hover⟩ := setByte_slice
      (w := { w with storage := splice w.storage (w.position / 8) data, position := w.position +
        8 * data.length })
      (k := (w.position + 8 * data.length) / 8) (b := 0) h
    have hlen : (splice w.storage (w.position / 8) data).length = w.storage.length :=
      length_splice hfit
    refine ⟨⟨hwithin.fixed, hwithin.length_eq.trans hlen⟩, hpos, hover.trans ?_⟩
    show w.overflowed = true ∨ (splice w.storage _ data).length ≤ _ ↔ _
    rw [hlen, show (w.position + 8 * data.length) / 8 = w.position / 8 + data.length by omega]
  · rw [if_neg hfit]
    refine ⟨⟨h, rfl⟩, rfl, ?_⟩
    simp [show w.storage.length ≤ w.position / 8 + data.length by omega]

end BitWriter

namespace BitOp
open BitWriter

variable {w : BitWriter} {B : List Bool}

/-- **A call over a slice** overflows when it needs a byte past the end, and is at the
end of the string either way. -/
theorem apply_slice {c : Bool} (op : BitOp) (h : w.grown = none) (hpos : w.position = B.length)
    (hlegal : op.Legal B c) :
    Within w (op.apply 0 w) ∧ (op.apply 0 w).position = (op.bits B).length ∧
      ((op.apply 0 w).overflowed = true ↔
        w.overflowed = true ∨ ∃ k ∈ op.needed B.length, w.storage.length ≤ k) := by
  cases op with
  | write nBits bits =>
    obtain ⟨hwithin, hend, hover⟩ := write_slice (n := nBits) (v := bits) h
    refine ⟨hwithin, ?_, hover.trans (or_congr_right ?_)⟩
    · show (w.write nBits bits).position = (B ++ ofNat nBits bits).length
      rw [hend, List.length_append, length_ofNat, hpos]
    · simp only [needed, List.mem_range'_1, ← hpos, writeSlack]
      constructor
      · intro hshort
        exact ⟨w.position / 8 + 7, by omega, by omega⟩
      · rintro ⟨k, hk, hlong⟩
        omega
  | update nBits bits first =>
    have hin : first + nBits ≤ B.length := hlegal
    obtain ⟨hwithin, hend, hover⟩ :=
      updateFrom_slice (v := bits) (p := 8 * 0 + first) nBits (le_refl nBits) h
    refine ⟨hwithin, ?_, hover.trans (or_congr_right ?_)⟩
    · show (updateFrom nBits nBits bits (8 * 0 + first) w).position =
        (B.take first ++ ofNat nBits bits ++ B.drop (first + nBits)).length
      rw [hend, List.length_append, List.length_append, List.length_take,
        List.length_drop, length_ofNat]
      omega
    · simp only [needed]
      by_cases hmore : 0 < nBits
      · simp only [if_pos hmore, List.mem_range'_1]
        constructor
        · intro hshort
          exact ⟨(first + nBits - 1) / 8, by omega, by omega⟩
        · rintro ⟨k, hk, hlong⟩
          omega
      · simp [hmore]
  | rewind first =>
    have hin : first ≤ B.length := hlegal
    obtain ⟨hwithin, hend, hover⟩ := rewind_slice (p := 8 * 0 + first) h
    refine ⟨hwithin, ?_, hover.trans (or_congr_right ?_)⟩
    · show (w.rewind (8 * 0 + first)).position = (B.take first).length
      rw [hend, List.length_take]
      omega
    · simp [needed]
  | align =>
    refine ⟨⟨h, rfl⟩, ?_, by simp [needed, apply, BitWriter.align]⟩
    show (w.position + 7) / 8 * 8 = (B ++ padding B).length
    rw [hpos, List.length_append, padding, List.length_replicate]
    omega
  | jumpToByteBoundary =>
    obtain ⟨hwithin, hend, hover⟩ :=
      setByte_slice (w := w.align) (k := w.align.position / 8) (b := 0) h
    refine ⟨⟨hwithin.fixed, hwithin.length_eq⟩, ?_, hover.trans (or_congr_right ?_)⟩
    · show (w.align.setByte (w.align.position / 8) 0).position = (B ++ padding B).length
      rw [hend, List.length_append, padding, List.length_replicate]
      show (w.position + 7) / 8 * 8 = _
      omega
    · show w.storage.length ≤ (w.position + 7) / 8 * 8 / 8 ↔ _
      simp [needed, hpos]
  | prepareStorage =>
    obtain ⟨hwithin, hend, hover⟩ := setByte_slice (k := w.position / 8) (b := 0) h
    exact ⟨hwithin, hend.trans hpos, hover.trans (or_congr_right (by simp [needed, hpos]))⟩
  | writeBytes data =>
    have halign : B.length % 8 = 0 := hlegal
    obtain ⟨hwithin, hend, hover⟩ := writeBytes_slice data h (by omega)
    refine ⟨hwithin, ?_, hover.trans (or_congr_right ?_)⟩
    · show (w.writeBytes data).position = (B ++ bytesBits data).length
      rw [hend, List.length_append, length_bytesBits, hpos]
    · simp only [needed, List.mem_range'_1, ← hpos]
      constructor
      · intro hshort
        exact ⟨w.position / 8 + data.length, by omega, hshort⟩
      · rintro ⟨k, hk, hlong⟩
        omega
  | setByte index value =>
    obtain ⟨hwithin, hend, hover⟩ := setByte_slice (k := 0 + index) (b := value) h
    refine ⟨hwithin, ?_, hover.trans (or_congr_right (by simp [needed]))⟩
    show (w.setByte (0 + index) value).position = (restored index value B).length
    rw [hend, length_restored, hpos]

/-- A run over a slice overflows when a call of it needs a byte past the end. -/
theorem run_slice {c : Bool} (ops : List BitOp) (h : w.grown = none) (hpos : w.position = B.length)
    (hlegal : LegalRun ops B c) :
    (run 0 ops w).position = (runBits ops B).length ∧
      ((run 0 ops w).overflowed = true ↔ w.overflowed = true ∨
        Overruns w.storage.length ops B) := by
  induction ops generalizing w B c with
  | nil => exact ⟨hpos, by simp [run, Overruns]⟩
  | cons op ops ih =>
    obtain ⟨hwithin, hend, hover⟩ := apply_slice op h hpos hlegal.1
    obtain ⟨hlast, hrun⟩ := ih hwithin.fixed hend hlegal.2
    rw [hwithin.length_eq, hover] at hrun
    exact ⟨hlast, hrun.trans or_assoc⟩

/-! ### What the storage holds -/

/-- Every call but a bare `align` leaves the byte at the position clean. -/
theorem clean_of_ne_align {op : BitOp} (h : op ≠ align) (B : List Bool) :
    op.clean B true = true := by
  cases op with
  | align => exact absurd rfl h
  | write | update | rewind | jumpToByteBoundary | prepareStorage | writeBytes | setByte => rfl

theorem runClean_of_not_align {ops : List BitOp} (h : align ∉ ops) (B : List Bool) :
    runClean ops B true = true := by
  induction ops generalizing B with
  | nil => rfl
  | cons op ops ih =>
    obtain ⟨hop, hops⟩ := not_or.mp (mt List.mem_cons.mpr h)
    rw [runClean, clean_of_ne_align (Ne.symm hop)]
    exact ih hops _

/-- What a run that does not overflow leaves of storage that is seeded. -/
theorem run_seeded {ops : List BitOp} (hseeds : Seeds w.storage B) (hpos : w.position = B.length)
    (hlegal : LegalRun ops B true) (halign : align ∉ ops) (hok : (run 0 ops w).overflowed = false) :
    (run 0 ops w).Holds (runBits ops B) ∧ (run 0 ops w).Clean := by
  have hclean : w.Clean := fun i hlow hbyte => hseeds.zeros i (hpos ▸ hlow) (hpos ▸ hbyte)
  obtain ⟨h1, h2, -⟩ :=
    run_spec (P := []) ops rfl ⟨hpos, hseeds.spells⟩ (fun _ => hclean) hlegal hok
  exact ⟨h1, h2 (runClean_of_not_align halign B)⟩

/-- **Both storages implement the bit string.** Over a vector no run overflows; over a
slice it does exactly when a call needs a byte past the end. A run that does not leaves
the abstract string below the position and zeros above it in its byte, so that every
further write finds them, and both storages agree on the string. -/
theorem run_storage (grown : ℕ → ℕ) {ops : List BitOp} {slice vector : List UInt8}
    (hslice : Seeds slice B)
    (hvector : Seeds vector B) (hlegal : LegalRun ops B true) (halign : align ∉ ops) :
    let fixed := run 0 ops (BitWriter.new slice B.length)
    let growing := run 0 ops (BitWriter.append grown vector B.length)
    growing.overflowed = false ∧ growing.Holds (runBits ops B) ∧ growing.Clean ∧
      (fixed.overflowed = true ↔ Overruns slice.length ops B) ∧ fixed.position = growing.position ∧
      (fixed.overflowed = false → fixed.Holds (runBits ops B) ∧ fixed.Clean ∧
        ∀ i < fixed.position, bitAt fixed.storage i = bitAt growing.storage i) := by
  intro fixed growing
  have hgrows : growing.overflowed = false := (run_grows ops ⟨Option.some_ne_none grown, rfl⟩).2
  obtain ⟨hholds, hclean⟩ :=
    run_seeded (w := BitWriter.append grown vector B.length) hvector rfl hlegal halign hgrows
  obtain ⟨hend, hover⟩ := run_slice (w := BitWriter.new slice B.length) ops rfl rfl hlegal
  refine ⟨hgrows, hholds, hclean, hover.trans (by simp [BitWriter.new]),
    hend.trans hholds.position_eq.symm, fun hok => ?_⟩
  obtain ⟨hfixed, hzeros⟩ :=
    run_seeded (w := BitWriter.new slice B.length) hslice rfl hlegal halign hok
  refine ⟨hfixed, hzeros, fun i hi => ?_⟩
  have hin : i < (runBits ops B).length := hfixed.position_eq ▸ hi
  have hagree := (hfixed.spells i hin).trans (hholds.spells i hin).symm
  rwa [Nat.zero_add] at hagree

/-- A run in the middle of a byte, over eight stale bytes and over a vector of one. -/
theorem run_storage_stale :
    let ops :=
      [write 7 9, update 2 2 1, rewind 9, write 1 0, jumpToByteBoundary,
    writeBytes [37, 37], setByte 0 6]
    (run 0 ops (BitWriter.new (5 :: List.replicate 8 255) 3)).overflowed = false ∧
      (run 0 ops (BitWriter.new (5 :: List.replicate 7 255) 3)).overflowed = true := by
  intro ops
  have hseeds : ∀ n, Seeds (5 :: List.replicate n 255) [true, false, true] := by
    refine fun n => ⟨fun i hi => ?_, fun i hlow hbyte => ?_⟩
    · have hsmall : ∀ i < 3, (5 : UInt8).toNat.testBit (i % 8) =
        [true, false, true].getD i false := by decide
      have hfirst : (0 + i) / 8 = 0 :=
        Nat.div_eq_of_lt (by rw [List.length_cons] at hi; simp at hi; omega)
      rw [bitAt, hfirst, Nat.zero_add]
      exact hsmall i hi
    · have hsmall : ∀ i < 8, 3 ≤ i → (5 : UInt8).toNat.testBit (i % 8) = false := by decide
      have hfirst : i / 8 = 0 := hbyte
      rw [bitAt, hfirst]
      exact hsmall i (by omega) hlow
  have hlegal : LegalRun ops [true, false, true] true := by
    refine ⟨⟨by decide, by decide, rfl⟩, ?_, ?_, ⟨by decide, by decide, rfl⟩, rfl, ?_, ?_, trivial⟩
    all_goals simp [Legal, bits, padding]
  have halign : align ∉ ops := by simp [ops]
  have hfits := run_storage (B := [true, false, true]) id (hseeds 8) (hseeds 0) hlegal halign
  have hshort := run_storage (B := [true, false, true]) id (hseeds 7) (hseeds 0) hlegal halign
  refine ⟨Bool.eq_false_of_not_eq_true fun hover => ?_, hshort.2.2.2.1.mpr (by decide)⟩
  exact absurd (hfits.2.2.2.1.mp hover) (by decide)

end BitOp

end Mbrotli.Compressor
