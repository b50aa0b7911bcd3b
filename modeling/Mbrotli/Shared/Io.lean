/-
# I/O errors

What a caller of a reader, a writer or a file sees of a failure.
-/
import Mathlib.Data.Nat.Notation

namespace Mbrotli

inductive IoError where
  | interrupted
  | wouldBlock
  | writeZero
  | unexpectedEof
  | invalidInput
  | invalidData
  | outOfMemory
  | other (code : ℕ)
  deriving DecidableEq, Repr

end Mbrotli
