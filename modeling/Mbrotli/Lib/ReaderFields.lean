/-
# Fields read where they stand

What stands in a string as the bits of a number is read as that number: `bitsAt_of_spells`,
and `Reader.run_read` for a reader that reads it first.
-/
import Mbrotli.Lib.BitList
import Mbrotli.Lib.Reader

namespace Mbrotli

open BitString

variable {I : List UInt8} {B p n v : ℕ}

namespace BitString

/-- A field that stands in the string. -/
theorem bitsAt_of_spells (hv : v < 2 ^ n) (h : Spells I p (ofNat n v)) : bitsAt I p n = v :=
  (eq_bitsAt hv fun i hi => by rw [h i (by rw [length_ofNat]; exact hi), getD_ofNat hi]).symm

/-- Two fields, the first lowest. -/
theorem bitsAt_add (I : List UInt8) (p n m : ℕ) :
    bitsAt I p (n + m) = bitsAt I p n + 2 ^ n * bitsAt I (p + n) m := by
  have hlow := bitsAt_mod I p (n + m) n (Nat.le_add_right n m)
  have hhigh := bitsAt_div I p (n + m) n
  rw [Nat.add_sub_cancel_left] at hhigh
  have hsplit := Nat.mod_add_div (bitsAt I p (n + m)) (2 ^ n)
  rw [hlow, hhigh] at hsplit
  exact hsplit.symm

end BitString

namespace Reader

variable {ε α β : Type}

theorem run_read (k : ℕ → Reader ε α) (hv : v < 2 ^ n) (hspells : Spells I p (ofNat n v))
    (hend : p + n ≤ 8 * B) :
    ((read n).bind k).run I B p = (k v).run I B (p + n) := by
  show (if p + n ≤ 8 * B then _ else _) = _
  rw [if_pos hend, bitsAt_of_spells hv hspells]
  rfl

theorem run_look (k : ℕ → Reader ε α) (hend : p + n ≤ 8 * B) :
    ((look n).bind k).run I B p = (k (bitsAt I p n)).run I B p :=
  if_pos hend

theorem run_skip (k : Unit → Reader ε α) : ((skip n).bind k).run I B p = (k ()).run I B (p + n) :=
  rfl

/-- A field and what follows from it at once. -/
theorem read_atomic (hn : n ≤ fieldMax) {k : ℕ → Reader ε α} (hsettled : ∀ v, (k v).Settled)
    (hatomic : ∀ v, (k v).Atomic 0) :
    ((read n).bind k).Atomic 0 :=
  (atomic_read hn).bind hsettled hatomic

end Reader
end Mbrotli
