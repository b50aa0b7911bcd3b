/-
# Prefix codes as two-level lookup tables, and the code description reader

`Builder.step` is one round of the source's resumable `Builder::read`: it reads
the next complete field of a description and stores what it says, and says
whether the description is complete. The symbols of each length are kept in
linked lists as they are read. `Builder.fill` turns them into a table: a
256-entry root and, for longer codes, second-level tables appended to the
group's storage. `Table.lookup` is what both decoders of the source look up: the
symbol the bits ahead start with and its width.

A `Code` is packed into one word in the source; here it keeps its two fields.
-/
import Mbrotli.Decompressor.Core.Memory
import Mbrotli.Lib.PrefixCode

namespace Mbrotli

open Canonical (rev)

def maxAlphabet : ℕ := 1128
def maxLength : ℕ := 15
def rootBits : ℕ := 8
def rootSize : ℕ := 256

/-- Linked-list terminator. -/
def noSymbol : ℕ := 65535

def order : List ℕ := [1, 2, 3, 4, 0, 5, 17, 6, 16, 7, 8, 9, 10, 11, 12, 13, 14, 15]

/-- One table entry: the code width (or, for a root entry pointing at a
second-level table, the combined width) and the symbol (or the table's offset). -/
structure Code where
  bits : ℕ := 0
  value : ℕ := 0
  deriving DecidableEq, Repr

/-- Lookup tables of one complete code: its root, and the group's storage. -/
structure Table where
  root : ℕ → Code
  second : ℕ → Code

/-- The symbol the bits ahead start with, and its width. `decode_fast` drops the
root's eight bits before the rest; `try_decode` waits for them, which the whole
width then exceeds. -/
def Table.lookup (t : Table) (peek : ℕ) : ℕ × ℕ :=
  let entry := t.root (peek % rootSize)
  if rootBits < entry.bits then
    let second := t.second (entry.value + (peek >>> rootBits) % 2 ^ (entry.bits - rootBits))
    (second.value, rootBits + second.bits)
  else (entry.value, entry.bits)

/-- Every prefix code of one kind for a meta-block in one vector: the roots
first, then the second-level tables appended as codes are built up to `used`. -/
structure Group where
  codes : Buffer Code := .new {}
  count : ℕ := 0
  used : ℕ := 0

/-- Bytes of a packed `Code`. -/
def Code.size : ℕ := 4

namespace Group

/-- Reserves `count` roots for `alphabet`, discarding earlier tables. -/
def prepare (g : Group) (count alphabet : ℕ) (memory : Memory) :
    Except DecodeError (Memory × Group) :=
  if alphabet = 0 ∨ maxAlphabet < alphabet then .error (.invalidData .huffman)
  else
    let roots := count * rootSize
    if g.codes.len < roots then
      match memory.resize Code.size g.codes roots {} with
      | .error e => .error e
      | .ok (memory, codes) => .ok (memory, { codes, count, used := roots })
    else .ok (memory, { g with count, used := roots })

/-- Makes room for `bound` codes; the storage never shrinks. -/
def reach (g : Group) (bound : ℕ) (memory : Memory) : Except DecodeError (Memory × Group) :=
  if g.codes.len < bound then
    match memory.resize Code.size g.codes bound {} with
    | .error e => .error e
    | .ok (memory, codes) => .ok (memory, { g with codes })
  else .ok (memory, g)

/-- The tables of code `tree`; a tree the group does not have is a panic. -/
def table (g : Group) (tree : ℕ) : Option Table :=
  if tree < g.count then
    some { root := fun i => g.codes.get (tree * rootSize + i), second := g.codes.get }
  else none

/-- A group with a single slot, used as one owned prefix code. -/
def single (g : Group) : Option Table := g.table 0

end Group

/-- Writes `code` at `start`, `start + step`, .. of the `len` entries from `base` on. -/
def replicate (codes : ℕ → Code) (base len : ℕ) (code : Code) (step : ℕ) : ℕ → ℕ → ℕ → Code
  | 0, _ => codes
  | fuel + 1, index =>
    if index < len then
      replicate (fun i => if i = base + index then code else codes i) base len code step fuel
        (index + step)
    else codes

/-- The table key of canonical `code` of `length` bits: the code with its bits
reversed, since the stream delivers the first code bit lowest. The source
reverses both bytes by a table and shifts the rest out. -/
def keyOf (code length : ℕ) : ℕ :=
  ((rev 8 (code % 256) <<< 8) ||| rev 8 ((code >>> 8) % 256)) >>> (16 - length)

/-- The code-length code of a complex description: eighteen symbols of at most
five bits in one 32-entry table. -/
def lengthBits : ℕ := 5
def lengthSize : ℕ := 32

structure LengthCode where
  table : ℕ → Code := fun _ => {}

namespace LengthCode

/-- Places the symbols of one length in order. -/
def place (length : ℕ) : List ℕ → ℕ → (ℕ → Code) → ℕ × (ℕ → Code)
  | [], code, table => (code, table)
  | symbol :: rest, code, table =>
    place length rest (code + 1)
      (replicate table 0 lengthSize ⟨length, symbol⟩ (2 ^ length) lengthSize (keyOf code length))

/-- The symbols whose length is `length`, in increasing order. -/
def symbolsOf (lengths : ℕ → ℕ) (length : ℕ) : List ℕ :=
  (List.range 18).filter fun symbol => lengths symbol = length

def fill (lengths : ℕ → ℕ) : List ℕ → ℕ → (ℕ → Code) → ℕ → Code
  | [], _, table => table
  | length :: rest, code, table =>
    let (code, table) := place length (symbolsOf lengths length) code table
    fill lengths rest (code * 2) table

/-- Builds the table from lengths checked to form a complete code, or to hold
exactly one symbol, which decodes with zero bits. -/
def build (lengths : ℕ → ℕ) (count : ℕ) : LengthCode :=
  if count = 1 then
    let symbol := ((List.range 18).find? fun s => lengths s ≠ 0).getD 0
    ⟨fun _ => ⟨0, symbol⟩⟩
  else ⟨fill lengths [1, 2, 3, 4, 5] 0 fun _ => {}⟩

def lookup (c : LengthCode) (peek : ℕ) : ℕ × ℕ :=
  let entry := c.table (peek % lengthSize)
  (entry.value, entry.bits)

end LengthCode

/-- Width of the second-level table starting at `length`, given the counts still
unplaced at each width. -/
def nextTableBits (remaining : ℕ → ℕ) : ℕ → ℕ → ℤ → ℕ
  | 0, length, _ => length - rootBits
  | fuel + 1, length, left =>
    if length < maxLength then
      let left := left - remaining length
      if left ≤ 0 then length - rootBits
      else nextTableBits remaining fuel (length + 1) (left * 2)
    else length - rootBits

def tableBits (remaining : ℕ → ℕ) (length : ℕ) : ℕ :=
  nextTableBits remaining maxLength length (2 ^ (length - rootBits))

/-- Where the walk over the second-level codes stands: the next code, the
entries appended, the low key bits of the current table and where it starts. -/
structure Walk where
  code : ℕ
  appended : ℕ := 0
  low : Option ℕ := none
  tableStart : ℕ := 0
  remaining : ℕ → ℕ

/-- The walk's step over the `placed`-th code of `length`: where the low eight
key bits change, a table is appended. Whether one was, and the walk after it. -/
def Walk.advance (counts : ℕ → ℕ) (length placed : ℕ) (w : Walk) : Bool × Walk :=
  let key := keyOf w.code length
  if w.low ≠ some (key % rootSize) then
    let remaining := Function.update w.remaining length (counts length - placed)
    (true, { w with
      remaining
      appended := w.appended + 2 ^ tableBits remaining length
      low := some (key % rootSize)
      tableStart := w.appended })
  else (false, w)

/-- `second_size`'s loop over the codes of one length. -/
def Walk.size (counts : ℕ → ℕ) (length : ℕ) : ℕ → ℕ → Walk → Walk
  | 0, _, w => w
  | n + 1, placed, w =>
    let (_, w) := w.advance counts length placed
    size counts length n (placed + 1) { w with code := w.code + 1 }

/-- `code` after the root lengths. -/
def rootEnd (counts : ℕ → ℕ) : ℕ → ℕ
  | 0 => 0
  | n + 1 => (rootEnd counts n + counts (n + 1)) * 2

def secondLoop (counts : ℕ → ℕ) : List ℕ → Walk → Walk
  | [], w => w
  | length :: rest, w =>
    let w := w.size counts length (counts length) 0
    secondLoop counts rest { w with code := w.code * 2 }

/-- Lengths of the codes that go through a second-level table. -/
def secondLengths : List ℕ := [9, 10, 11, 12, 13, 14, 15]

/-- The longest code with a count. -/
def longest (counts : ℕ → ℕ) : ℕ :=
  (List.range (maxLength + 1)).foldl (fun m length => if counts length ≠ 0 then length else m) 0

/-- Exact number of second-level entries a complete code with these length
counts appends. -/
def secondSize (counts : ℕ → ℕ) : ℕ :=
  if longest counts ≤ rootBits then 0
  else (secondLoop counts secondLengths
    { code := rootEnd counts rootBits, remaining := counts }).appended

inductive BuilderStage where
  | start
  | simpleCount
  | simpleSymbols
  | simpleShape
  | codeLengths
  | symbols
  | repeat (symbol : ℕ)
  deriving DecidableEq, Repr

/-- Resumable reader of one prefix-code description. -/
structure Builder where
  stage : BuilderStage := .start
  /-- Next symbol with the same code length, in increasing symbol order. -/
  next : ℕ → ℕ := fun _ => noSymbol
  head : ℕ → ℕ := fun _ => noSymbol
  tail : ℕ → ℕ := fun _ => noSymbol
  counts : ℕ → ℕ := fun _ => 0
  total : ℕ := 0
  last : ℕ := 0
  small : ℕ → ℕ := fun _ => 0
  code : LengthCode := {}
  symbols : ℕ → ℕ := fun _ => 0
  count : ℕ := 0
  index : ℕ := 0
  space : ℤ := 0
  previous : ℕ := 8
  repeatLength : ℕ := 0
  repeated : ℕ := 0

namespace Builder

/-- Abandons a partial description. The next start clears its lists. -/
def reset (b : Builder) : Builder := { b with stage := .start }

def clear (b : Builder) : Builder :=
  { b with head := fun _ => noSymbol, tail := fun _ => noSymbol, counts := fun _ =>
        0, total := 0, last := 0 }

/-- Appends `symbol` to the list of `length`. -/
def push (b : Builder) (symbol length : ℕ) : Builder :=
  let previous := b.tail length
  let b := if previous = noSymbol then { b with head := Function.update b.head length symbol }
    else { b with next := Function.update b.next previous symbol }
  -- Terminate here: the slot may still hold a link from an earlier code.
  { b with
    next := Function.update b.next symbol noSymbol
    tail := Function.update b.tail length symbol
    counts := Function.update b.counts length (b.counts length + 1)
    total := b.total + 1
    last := symbol }

/-- Appends the consecutive symbols `start..stop` to the list of `length`. -/
def pushRun (b : Builder) (start stop length : ℕ) : Builder :=
  let next := fun i => if start ≤ i ∧ i < stop - 1 then i + 1 else if i = stop - 1
    then noSymbol else b.next i
  let previous := b.tail length
  let b := if previous = noSymbol then { b with next, head := Function.update b.head length start }
    else { b with next := Function.update next previous start }
  { b with
    tail := Function.update b.tail length (stop - 1)
    counts := Function.update b.counts length (b.counts length + (stop - start))
    total := b.total + (stop - start)
    last := stop - 1 }

/-- The symbols linked from `symbol` on. -/
def follow (next : ℕ → ℕ) : ℕ → ℕ → List ℕ
  | 0, _ => []
  | fuel + 1, symbol => if symbol = noSymbol then [] else symbol :: follow next fuel (next symbol)

/-- The symbols of `length`, in increasing order. -/
def chain (b : Builder) (length : ℕ) : List ℕ := follow b.next (maxAlphabet + 1) (b.head length)

/-- The code space left after each length, and the longest length used. -/
def space_ (counts : ℕ → ℕ) : List ℕ → ℤ → ℕ → Except DecodeError (ℤ × ℕ)
  | [], space, longest => .ok (space, longest)
  | length :: rest, space, longest =>
    let space := space * 2 - counts length
    if space < 0 then .error (.invalidData .huffman)
    else space_ counts rest space (if counts length ≠ 0 then length else longest)

def lengths : List ℕ := [1, 2, 3, 4, 5, 6, 7, 8, 9, 10, 11, 12, 13, 14, 15]

/-- Places the codes of one root length. -/
def placeRoot (start current length : ℕ) : List ℕ → ℕ → (ℕ → Code) → ℕ × (ℕ → Code)
  | [], code, codes => (code, codes)
  | symbol :: rest, code, codes =>
    placeRoot start current length rest (code + 1)
      (replicate codes start current ⟨length, symbol⟩ (2 ^ length) current (keyOf code length))

def rootLoop (b : Builder) (start current : ℕ) : List ℕ → ℕ → (ℕ → Code) → ℕ × (ℕ → Code)
  | [], code, codes => (code, codes)
  | length :: rest, code, codes =>
    let (code, codes) := placeRoot start current length (b.chain length) code codes
    rootLoop b start current rest (code * 2) codes

/-- Doubles the root until it has 256 entries. -/
def doubleRoot (start : ℕ) : ℕ → ℕ → (ℕ → Code) → ℕ → Code
  | 0, _, codes => codes
  | fuel + 1, current, codes =>
    if current ≠ rootSize then
      doubleRoot start fuel (current * 2) fun i =>
        if start + current ≤ i ∧ i < start + 2 * current then codes (i - current) else codes i
    else codes

/-- Places the codes of one second-level length. -/
def placeSecond (counts : ℕ → ℕ) (start base len length : ℕ) :
    List ℕ → ℕ → Walk → (ℕ → Code) → Except DecodeError (Walk × (ℕ → Code))
  | [], _, w, codes => .ok (w, codes)
  | symbol :: rest, placed, w, codes =>
    let key := keyOf w.code length
    let (fresh, w) := w.advance counts length placed
    if fresh ∧ len < base + w.appended then .error .internalInvariant
    else
      let codes := if fresh then
          fun i => if i = start + key % rootSize then
            ⟨Nat.log2 (w.appended - w.tableStart) + rootBits, base + w.tableStart⟩ else codes i
        else codes
      let codes := replicate codes (base + w.tableStart) (w.appended - w.tableStart)
        ⟨length - rootBits, symbol⟩ (2 ^ (length - rootBits)) (w.appended - w.tableStart)
        (key >>> rootBits)
      placeSecond counts start base len length rest (placed + 1) { w with code := w.code + 1 } codes

def fillSecond (b : Builder) (start base len : ℕ) :
    List ℕ → Walk → (ℕ → Code) → Except DecodeError (Walk × (ℕ → Code))
  | [], w, codes => .ok (w, codes)
  | length :: rest, w, codes => do
    let (w, codes) ← placeSecond b.counts start base len length (b.chain length) 0 w codes
    fillSecond b start base len rest { w with code := w.code * 2 } codes

/-- Fills the root at `start` of the group's storage from the lists, appending
second-level tables at `used`. The largest symbol, and the storage and budget, which a
failure leaves as grown so far. -/
def fill (b : Builder) (g : Group) (start : ℕ) (memory : Memory) :
    Except (DecodeError × Memory × Group) (ℕ × Memory × Group) :=
  if b.total = 0 then .error (.invalidData .huffman, memory, g)
  else if g.used < start + rootSize then .error (.internalInvariant, memory, g)
  else if b.total = 1 then
    match g.reach g.used memory with
    | .error e => .error (e, memory, g)
    | .ok (memory, g) =>
      let get := fun i => if start ≤ i ∧ i < start + rootSize then ⟨0, b.last⟩ else g.codes.get i
      .ok (b.last, memory, { g with codes := { g.codes with get } })
  else match space_ b.counts lengths 1 0 with
  | .error e => .error (e, memory, g)
  | .ok (space, longest) =>
    if space ≠ 0 then .error (.invalidData .huffman, memory, g)
    else match g.reach (g.used + secondSize b.counts) memory with
    | .error e => .error (e, memory, g)
    | .ok (memory, g) =>
      let tableBits := min longest rootBits
      let (code, get) := rootLoop b start (2 ^ tableBits) (lengths.take tableBits) 0 g.codes.get
      let get := doubleRoot start rootBits (2 ^ tableBits) get
      match fillSecond b start g.used g.codes.len secondLengths { code, remaining := b.counts } get
        with
      | .error e => .error (e, memory, g)
      | .ok (w, get) =>
        .ok (b.last, memory, { g with codes := { g.codes with get }, used := g.used + w.appended })

/-- Builds the completed description into one of a group's slots. -/
def buildSlot (b : Builder) (alphabet : ℕ) (g : Group) (tree : ℕ) (memory : Memory) :
    Except (DecodeError × Memory × Group) (ℕ × Memory × Group) :=
  if alphabet ≤ b.last ∨ g.count ≤ tree then .error (.internalInvariant, memory, g)
  else b.fill g (tree * rootSize) memory

/-- Builds the completed description into an owned single-slot table. -/
def build (b : Builder) (alphabet : ℕ) (memory : Memory) (target : Group) :
    Except (DecodeError × Memory × Group) (ℕ × Memory × Group) :=
  match target.prepare 1 alphabet memory with
  | .error e => .error (e, memory, target)
  | .ok (memory, target) => b.buildSlot alphabet target 0 memory

/-- Bits that number the symbols of an alphabet. -/
def symbolWidth (alphabet : ℕ) : ℕ := if alphabet ≤ 1 then 0 else Nat.log2 (alphabet - 1) + 1

/-- Sorts at most four (length, symbol) pairs; a fixed insertion sort in the source. -/
def insertPair (p : ℕ × ℕ) : List (ℕ × ℕ) → List (ℕ × ℕ)
  | [] => [p]
  | q :: rest => if p.1 < q.1 ∨ p.1 = q.1 ∧ p.2 < q.2 then p :: q :: rest
      else q :: insertPair p rest

def shapeLengths (count shape : ℕ) : List ℕ :=
  if count = 1 then [1, 0, 0, 0]
  else if count = 2 then [1, 1, 0, 0]
  else if count = 3 then [1, 2, 2, 0]
  else if shape = 0 then [2, 2, 2, 2]
  else [1, 2, 3, 3]

/-- The pairs of a simple code, sorted by length, then symbol. -/
def shapePairs (symbols : ℕ → ℕ) (count shape : ℕ) : List (ℕ × ℕ) :=
  (((List.range count).map fun i => ((shapeLengths count shape).getD i 0, symbols i)).foldl
    (fun acc p => insertPair p acc) [])

/-- The lists of a simple code. -/
def pushPairs (b : Builder) (pairs : List (ℕ × ℕ)) : Builder :=
  pairs.foldl (fun b p => b.push p.2 p.1) b

/-- One round of `Builder::read`: the next complete field of the description,
and whether that completes it. -/
def step (alphabet : ℕ) (b : Builder) : Reader Fault (Builder × Bool) :=
  if alphabet = 0 ∨ maxAlphabet < alphabet then .throw InvalidDataKind.huffman.fault
  else match b.stage with
  | .start => do
    let skip ← .read 2
    let b := { b with index := skip, space := 32, count := 0 }
    return (if skip = 1 then { b with stage := .simpleCount }
      else { b with small := fun _ => 0, stage := .codeLengths }, false)
  | .simpleCount => do
    let count ← .read 2
    return ({ b with count := count + 1, index := 0, stage := .simpleSymbols }, false)
  | .simpleSymbols =>
    if b.index < b.count then do
      let symbol ← .read (symbolWidth alphabet)
      if alphabet ≤ symbol ∨ (List.range b.index).any (fun i => b.symbols i = symbol) then
        .throw InvalidDataKind.huffman.fault
      else
        return ({ b with symbols := Function.update b.symbols b.index symbol, index :=
        b.index + 1 }, false)
    else return ({ b with stage := .simpleShape }, false)
  | .simpleShape => do
    let shape ← if b.count = 4 then .read 1 else pure 0
    let pairs := shapePairs b.symbols b.count shape
    let b := pushPairs b.clear pairs
    return ({ b with last := (pairs.map Prod.snd).foldl max 0, stage := .start }, true)
  | .codeLengths =>
    if b.index < 18 ∧ 0 < b.space then do
      let first ← .look 2
      let (width, value) ← if first = 0 then pure (2, 0)
        else if first = 1 then pure (2, 4)
        else if first = 2 then pure (2, 3)
        else do
          let next ← .look 3
          if next = 3 then pure (3, 2)
          else do
            let last ← .look 4
            pure (4, if last = 7 then 1 else 5)
      .skip width
      let b :=
        { b with small := Function.update b.small (order.getD b.index 0) value, index := b.index +
          1 }
      return (if value ≠
        0 then { b with count := b.count + 1, space := b.space - (32 >>> value : ℕ) }
        else b, false)
    else if b.space < 0 ∨ (b.count ≠ 1 ∧ b.space ≠ 0) then .throw InvalidDataKind.huffman.fault
    else
      let b := { b with code := LengthCode.build b.small b.count }.clear
      return ({ b with index := 0, space := 32768, previous := 8, repeated := 0, repeatLength := 0,
                       stage := .symbols }, false)
  | .symbols =>
    if b.space = 0 then return ({ b with stage := .start }, true)
    else if b.space < 0 ∨ b.index = alphabet then .throw InvalidDataKind.huffman.fault
    else do
      let symbol ← .symbol (some lengthBits) b.code.lookup
      if symbol < 16 then
        let b := if symbol ≠ 0 then
            { b.push b.index symbol with previous := symbol, space :=
              b.space - (32768 >>> symbol : ℕ) }
          else b
        return ({ b with index := b.index + 1, repeated := 0 }, false)
      -- The symbol is consumed; only its extra field may still wait.
      else return ({ b with stage := .repeat symbol }, false)
  | .repeat symbol => do
    let extra ← .read (symbol - 14)
    let length := if symbol = 16 then b.previous else 0
    let before := if b.repeatLength ≠ length then 0 else b.repeated
    let repeated := (if before = 0 then 0 else (before - 2) <<< (symbol - 14)) + extra + 3
    let delta := repeated - before
    let stop := b.index + delta
    if alphabet < stop then .throw InvalidDataKind.huffman.fault
    else
      let b := { b with repeatLength := length, repeated, stage := .symbols }
      let b := if length ≠ 0 then
          { b.pushRun b.index stop length with space := b.space - (delta <<< (15 - length) : ℕ) }
        else b
      return ({ b with index := stop }, false)

end Builder
end Mbrotli
