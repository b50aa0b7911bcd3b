/-
# Stored members

`storedPayload` borrows the payload of a complete stored member when no history will
ever be referenced; any other shape is left to the stage machine.
-/
import Mbrotli.Decompressor.Core.Block
import Mbrotli.Decompressor.Core.Header

namespace Mbrotli

/-- The three bytes of a stored member's usual header, as one number. -/
def storedHeader : List UInt8 → Option ℕ
  | a :: b :: c :: _ => some (a.toNat + 256 * b.toNat + 65536 * c.toNat)
  | _ => none

/-- The payload after any other header: an empty member, or one raw block. -/
def storedTail (src : List UInt8) (limit : WindowLimit) : Option (List UInt8) :=
  match exec (Header.window limit) {} (.new src 0 none) with
  | (.done _, bits, input) =>
    match exec Header.metablock bits input with
    | (.done .endOfStream, bits, input) => closed bits input []
    | (.done (.uncompressed length), bits, input) =>
      -- Header parsing is demand-driven: no payload byte was accepted into the bits.
      let stop := input.consumed + length
      if src.length < stop then none
      else match exec Header.metablock bits { input with consumed := stop } with
        | (.done .endOfStream, bits, input') =>
            closed bits input' ((src.drop input.consumed).take length)
        | _ => none
    | _ => none
  | _ => none
where
  closed (bits : Bits) (input : Input) (payload : List UInt8) : Option (List UInt8) :=
    match bits.align with
    | .error _ => none
    | .ok _ => if input.consumed = src.length then some payload else none

def storedPayload (src : List UInt8) (limit : WindowLimit) : Option (List UInt8) :=
  match storedHeader src with
  | none => storedTail src limit
  | some header =>
    if header &&& 0x800071 = 0x800001 ∧ header &&& 0x0e ≠ 0 then
      let window := 17 + (header >>> 1) % 8
      let length := (header >>> 7) % 65536 + 1
      if window ≤ limit.bits ∧ src.length = length + 4 ∧ src.getLast? = some 3 then
        some ((src.drop 3).take length)
      else none
    else storedTail src limit

end Mbrotli
