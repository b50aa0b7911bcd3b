/-
# The distance alphabet of the encoder

`DistanceParams` is what the encoder resolves of the distance alphabet: its postfix
bits and direct codes, and the bounds they put on symbols and distances. `layout` is
the alphabet the decoder reads the same parameters as.
-/
import Mbrotli.Decompressor.Core.Distance

namespace Mbrotli

def maxNpostfix : ℕ := 3
def maxNdirect : ℕ := 120
def numDistanceShortCodes : ℕ := 16
def maxDistanceBits : ℕ := 24
def largeMaxDistanceBits : ℕ := 62
def maxAllowedDistance : ℕ := 0x7FFFFFFC

structure DistanceParams where
  postfixBits : ℕ
  numDirect : ℕ
  alphabetSizeMax : ℕ
  alphabetSizeLimit : ℕ
  maxDistance : ℕ
  deriving DecidableEq, Repr

/-- The largest alphabet whose distances all stay within `maxDistance`: its size and
its largest distance. -/
def distanceCodeLimit (maxDistance postfixBits numDirect : ℕ) : ℕ × ℕ :=
  if maxDistance ≤ numDirect then (maxDistance + numDistanceShortCodes, maxDistance)
  else
    let forbidden := maxDistance + 1
    let postfix_ := (1 <<< postfixBits) - 1
    let offset := ((forbidden - numDirect - 1) >>> postfixBits) + 4
    let distanceBits := Nat.log2 (offset / 2)
    let half := (offset >>> distanceBits) % 2
    let group := ((distanceBits - 1) <<< 1) ||| half
    if group = 0 then (numDirect + numDistanceShortCodes, numDirect)
    else
      let group := group - 1
      let distanceBits := (group >>> 1) + 1
      let extra := (1 <<< distanceBits) - 1
      let start := (1 <<< (distanceBits + 1)) - 4 + ((group % 2) <<< distanceBits)
      (((group <<< postfixBits) ||| postfix_) + numDirect + numDistanceShortCodes + 1,
        ((start + extra) <<< postfixBits) + postfix_ + numDirect + 1)

namespace DistanceParams

/-- The alphabet of an ordinary window. -/
def new (postfixBits numDirect : ℕ) : DistanceParams :=
  let alphabetSizeMax := numDistanceShortCodes + numDirect + (maxDistanceBits <<< (postfixBits + 1))
  { postfixBits, numDirect, alphabetSizeMax
    alphabetSizeLimit := alphabetSizeMax
    maxDistance :=
      numDirect + (1 <<< (maxDistanceBits + postfixBits + 2)) - (1 <<< (postfixBits + 2)) }

/-- The alphabet of a large window, cut at `maxAllowedDistance`. -/
def newLarge (postfixBits numDirect : ℕ) : DistanceParams :=
  let limit := distanceCodeLimit maxAllowedDistance postfixBits numDirect
  { postfixBits, numDirect
    alphabetSizeMax :=
    numDistanceShortCodes + numDirect + (largeMaxDistanceBits <<< (postfixBits + 1))
    alphabetSizeLimit := limit.1
    maxDistance := limit.2 }

def forWindow (largeWindow : Bool) (postfixBits numDirect : ℕ) : DistanceParams :=
  if largeWindow then newLarge postfixBits numDirect else new postfixBits numDirect

/-- The decoder's alphabet with the same parameters. -/
def layout (d : DistanceParams) (large : Bool) : DistanceLayout :=
  { postfix_ := d.postfixBits, direct := d.numDirect, large }

/-- The parameters a header can carry. -/
structure Legal (d : DistanceParams) : Prop where
  postfixBits : d.postfixBits ≤ maxNpostfix
  numDirect : d.numDirect ≤ maxNdirect
  multiple : ((d.numDirect >>> d.postfixBits) % 16) <<< d.postfixBits = d.numDirect

theorem forWindow_postfixBits (large : Bool) (p n : ℕ) : (forWindow large p n).postfixBits = p := by
  cases large <;> rfl

theorem forWindow_numDirect (large : Bool) (p n : ℕ) : (forWindow large p n).numDirect = n := by
  cases large <;> rfl

end DistanceParams
end Mbrotli
