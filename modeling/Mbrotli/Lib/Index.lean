/-
# Indices that are numerals

A numeral of `Fin n` asks that `n` is not zero. The lengths of the fixed arrays that the
program indexes by constants have an instance of their own for it, with a name.
-/
import Mathlib.Algebra.GroupWithZero.Nat

namespace Mbrotli

instance (priority := 2000) two_neZero : NeZero 2 := ⟨by decide⟩

instance (priority := 2000) three_neZero : NeZero 3 := ⟨by decide⟩

instance (priority := 2000) four_neZero : NeZero 4 := ⟨by decide⟩

instance (priority := 2000) twelve_neZero : NeZero 12 := ⟨by decide⟩

instance (priority := 2000) sixteen_neZero : NeZero 16 := ⟨by decide⟩

end Mbrotli
