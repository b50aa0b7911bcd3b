/-
# The shortest path of qualities ten and eleven

`updateNodes` prices the commands that can start at a position, against the distances
remembered at each of the queued starts and from the matches found there.
`computeShortestPathFromNodes` traces the cheapest way back, and `createCommands` walks
it forward. The matches and the costs are parameters.
-/
import Mathlib.Data.Fin.VecNotation
import Mbrotli.Compressor.Config
import Mbrotli.Compressor.Core.Greedy.BackwardReferences
import Mbrotli.Compressor.Core.Hq.Nodes
import Mbrotli.Shared.MatchLen

namespace Mbrotli.Compressor

/-- A match: distance, and length above the five bits of its length code. -/
structure BackwardMatch where
  distance : ℕ
  lengthAndCode : ℕ
  deriving DecidableEq, Repr

namespace BackwardMatch

def new (distance length : ℕ) : BackwardMatch := ⟨distance % 2 ^ 32, (length <<< 5) % 2 ^ 32⟩

/-- A dictionary word, whose length code may differ. -/
def dictionary (distance length lengthCode : ℕ) : BackwardMatch :=
  ⟨distance % 2 ^ 32, (length <<< 5) % 2 ^ 32 ||| (if length = lengthCode then 0 else lengthCode)⟩

def length (m : BackwardMatch) : ℕ := m.lengthAndCode >>> 5

def lengthCode (m : BackwardMatch) : ℕ :=
  let code := m.lengthAndCode % 32
  if code ≠ 0 then code else m.length

end BackwardMatch

/-- Copy length past which the search strides. -/
def longCopyQuickStep : ℕ := 16384

/-- How the short distance codes read the remembered distances: the slot, and what is
added to it. -/
def cacheProbes : List (Fin 4 × ℤ) :=
  [(0, 0), (1, 0), (2, 0), (3, 0), (0, -1), (0, 1), (0, -2), (0, 2), (0, -3), (0, 3), (1, -1),
    (1, 1), (1, -2), (1, 2),
    (1, -3), (1, 3)]

def probeDistance (probe : Fin 4 × ℤ) (cache : Fin 4 → ℤ) : ℕ :=
  asUsize ((cache probe.1 + probe.2).bmod (2 ^ 32))

/-- What a pass consumes and updates. -/
structure ZopfliState where
  distCache : Fin 4 → ℤ := ![4, 11, 15, 16]
  lastInsertLen : ℕ := 0
  numLiterals : ℕ := 0

/-! ### The remembered distances along a path -/

/-- The position whose command supplies the next remembered distance: a command that
is not remembered points past itself. -/
def computeDistanceShortcut (blockStart pos maxBackwardLimit gap : ℕ) (nodes : Nodes) : ℕ :=
  let node := nodes pos
  let cLen := node.copyLength
  let iLen := node.insertLength
  let dist := node.copyDistance
  if pos = 0 then 0
  else if dist + cLen ≤ blockStart + pos + gap ∧ dist ≤ maxBackwardLimit + gap ∧
    0 < node.distanceCode then pos
  else (nodes (pos - cLen - iLen)).shortcut

/-- Fills `n` slots along the shortcuts from `p` on, and the rest from the start of
the block's own. -/
def fillDistances (starting : Fin 4 → ℤ) (nodes : Nodes) : ℕ → ℕ → List ℤ
  | 0, _ => []
  | n + 1, p =>
    if 0 < p then
      let node := nodes p
      asI32 node.copyDistance ::
        fillDistances starting nodes n (nodes (p - node.copyLength - node.insertLength)).shortcut
    else (List.ofFn starting).take (n + 1)

/-- The four distances remembered at `pos`. -/
def computeDistanceCache (pos : ℕ) (starting : Fin 4 → ℤ) (nodes : Nodes) : Fin 4 → ℤ :=
  fun i => (fillDistances starting nodes 4 (nodes pos).shortcut).getD i 0

/-- Sets `pos`'s shortcut and queues it if it is cheaper than literals only. -/
def evaluateNode (blockStart pos maxBackwardLimit gap : ℕ) (starting : Fin 4 → ℤ)
    (model : CostModel)
    (queue : StartPosQueue) (nodes : Nodes) : StartPosQueue × Nodes :=
  let nodeCost := (nodes pos).cost
  let shortcut := computeDistanceShortcut blockStart pos maxBackwardLimit gap nodes
  let nodes := Function.update nodes pos ((nodes pos).setShortcut shortcut)
  if model.le nodeCost (model.literalCosts 0 pos) then
    (queue.push model {
      pos
      distanceCache := computeDistanceCache pos starting nodes
      costdiff := model.sub nodeCost (model.literalCosts 0 pos)
      cost := nodeCost }, nodes)
  else (queue, nodes)

/-! ### Pricing -/

/-- The shortest copy that could improve a later position, from `len` on; `fuel` is at
least what is left of the block. -/
def minimumCopyLength (model : CostModel) (nodes : Nodes) (numBytes pos : ℕ) :
    ℕ → Cost → ℕ → ℕ → ℕ → ℕ
  | 0, _, len, _, _ => len
  | fuel + 1, minCost, len, nextLenBucket, nextLenOffset =>
    if pos + len ≤ numBytes ∧ model.le (nodes (pos + len)).cost minCost then
      let len := len + 1
      if len = nextLenOffset then
        minimumCopyLength model nodes numBytes pos fuel (model.add minCost (model.ofNat 1)) len
          (nextLenBucket * 2)
          (nextLenOffset + nextLenBucket)
      else minimumCopyLength model nodes numBytes pos fuel minCost len nextLenBucket nextLenOffset
    else len

def computeMinimumCopyLength (model : CostModel) (startCost : Cost) (nodes : Nodes)
    (numBytes pos : ℕ) : ℕ :=
  minimumCopyLength model nodes numBytes pos numBytes startCost 2 4 10

/-- What does not change between positions. -/
structure UpdateContext where
  numBytes : ℕ
  blockStart : ℕ
  ringbuffer : List UInt8
  ringbufferMask : ℕ
  params : HqParams
  maxBackwardLimit : ℕ
  startingDistCache : Fin 4 → ℤ
  gap : ℕ
  attached : Option SharedContext

/-- The segment a logical address of the prefix lies in, and the offset inside it. -/
def locate : List (List UInt8) → ℕ → Option (List UInt8 × ℕ)
  | [], _ => none
  | segment :: rest, logical =>
    if logical < segment.length then some (segment, logical) else locate rest
    (logical - segment.length)

/-- Measures a remembered distance that reaches past the window: only a copy from the
attached prefix is, up to the end of the attachment it starts in. -/
def prefixCopyLength (ctx : UpdateContext) (backward dictionaryStart bestLen : ℕ)
    (continuation : UInt8)
    (curIxMasked maxLen : ℕ) : Option ℕ :=
  if dictionaryStart + ctx.gap < backward ∨ backward ≤ dictionaryStart then none
  else match ctx.attached with
  | none => none
  | some context => match locate context.segments (dictionaryStart + ctx.gap - backward) with
    | none => none
    | some (segment, offset) =>
      let candidate := segment.drop offset
      let limit := min candidate.length maxLen
      if limit ≤ bestLen ∨ candidate[bestLen]? ≠ some continuation then none
      else some (commonPrefixLen candidate (ctx.ringbuffer.drop curIxMasked) limit)

/-- The nodes reached so far from one position, and the longest copy among them. -/
structure Reach where
  nodes : Nodes
  result : ℕ := 0

/-- Records the copies of `n` lengths from `l` on that beat what is known. -/
def recordLengths (model : CostModel) (pos start dist shortCode : ℕ) (lenCode : ℕ → ℕ)
    (cost : ℕ → Cost) :
    ℕ → ℕ → Reach → Reach
  | 0, _, r => r
  | n + 1, l, r =>
    recordLengths model pos start dist shortCode lenCode cost n (l + 1)
      (if model.lt (cost l) (r.nodes (pos + l)).cost then
        { nodes := Function.update r.nodes (pos + l)
            (ZopfliNode.record pos start l (lenCode l) dist shortCode (cost l))
          result := max r.result l }
      else r)

/-- The lengths `first` to `last`, none of them if the block ends before. -/
def recordRange (ctx : UpdateContext) (model : CostModel) (pos start dist shortCode : ℕ)
    (lenCode : ℕ → ℕ)
    (cost : ℕ → Cost) (first last : ℕ) (r : Reach) : Reach :=
  if pos + last ≤ ctx.numBytes then
    recordLengths model pos start dist shortCode lenCode cost (last + 1 - first) first r
  else r

/-- A command start, as pricing uses it. -/
structure Start where
  pos : ℕ
  cache : Fin 4 → ℤ
  inscode : ℕ
  baseCost : Cost

/-- How far the copy from `backward` reaches, measured only if it can beat `bestLen`. -/
def probeLength (ctx : UpdateContext) (enablePrefix : Bool) (pos backward bestLen : ℕ)
    (continuation : UInt8) :
    Option ℕ :=
  let curIx := ctx.blockStart + pos
  let curIxMasked := curIx &&& ctx.ringbufferMask
  let maxDistance := min curIx ctx.maxBackwardLimit
  let dictionaryStart := min (ctx.params.logicalPosition curIx) ctx.maxBackwardLimit
  let maxLen := ctx.numBytes - pos
  let window := ctx.ringbuffer.take (ctx.ringbufferMask + 1)
  -- A distance of zero wraps above every other.
  if wrappingSub backward 1 < maxDistance then
    let prevIx := (curIx - backward) &&& ctx.ringbufferMask
    if window[prevIx + bestLen]? = some continuation then
      some (findMatchLength ctx.ringbuffer prevIx curIxMasked maxLen)
    else none
  else if enablePrefix then
    prefixCopyLength ctx backward dictionaryStart bestLen continuation curIxMasked maxLen
  else none

/-- The price of a copy of `l` bytes with a short distance code. -/
def cachedCost (model : CostModel) (start : Start) (code l : ℕ) : Cost :=
  let copycode := copyLengthCode l
  let distCost := model.add start.baseCost (model.distanceCost code)
  model.add
    (model.add (if code = 0 ∧ start.inscode < 8 ∧ copycode < 16 then start.baseCost else distCost)
      (model.ofNat (copyExtra.getD copycode 0)))
    (model.commandCosts start.inscode (decide (code = 0)) copycode)

/-- Tries one short code beyond the best length so far; `none` ends the search. -/
def cachedCopy (ctx : UpdateContext) (enablePrefix independent : Bool) (model : CostModel) (pos : ℕ)
    (start : Start)
    (probe : Fin 4 × ℤ) (code bestLen : ℕ) (r : Reach) : Option (ℕ × Reach) :=
  if independent ∨ ctx.numBytes - pos ≤ bestLen then none
  else
    match (ctx.ringbuffer.take (ctx.ringbufferMask + 1))[((ctx.blockStart + pos) &&&
      ctx.ringbufferMask) + bestLen]? with
  | none => none
  | some continuation =>
    let backward := probeDistance probe start.cache
    match probeLength ctx enablePrefix pos backward bestLen continuation with
    | none => some (bestLen, r)
    | some len =>
      if len ≤ bestLen then some (bestLen, r)
      else some (max bestLen len,
        recordRange ctx model pos start.pos backward (code + 1) id (cachedCost model start code)
        (bestLen + 1) len r)

/-- The copies through the remembered distances of one start, from code `code` on. -/
def cachedCopies (ctx : UpdateContext) (enablePrefix independent : Bool) (model : CostModel)
    (pos : ℕ) (start : Start) :
    List (Fin 4 × ℤ) → ℕ → ℕ → Reach → Reach
  | [], _, _, r => r
  | probe :: probes, code, bestLen, r =>
    match cachedCopy ctx enablePrefix independent model pos start probe code bestLen r with
    | none => r
    | some (bestLen, r) => cachedCopies ctx enablePrefix independent model pos start probes
        (code + 1) bestLen r

/-- The price of a match coded with length code `lenCode`, and its distance in full. -/
def matchCost (params : HqParams) (model : CostModel) (start : Start) (dist lenCode : ℕ) : Cost :=
  let distCode := dist + numDistanceShortCodes - 1
  let distSymbol :=
    (prefixEncodeCopyDistance distCode params.dist.numDirect params.dist.postfixBits).1
  let distCost := model.add (model.add start.baseCost (model.ofNat (distSymbol >>> 10)))
    (model.distanceCost (distSymbol &&& 0x3FF))
  let copycode := copyLengthCode lenCode
  model.add (model.add distCost (model.ofNat (copyExtra.getD copycode 0)))
    (model.commandCosts start.inscode false copycode)

/-- The copies of the matches, from length `len` on. A word has one length, and of a
very long copy only the whole is tried. -/
def matchCopies (ctx : UpdateContext) (model : CostModel) (pos gap : ℕ) (start : Start) :
    List BackwardMatch → ℕ → Reach → Reach
  | [], _, r => r
  | m :: ms, len, r =>
    let dictionaryStart :=
      min (ctx.params.logicalPosition (ctx.blockStart + pos)) ctx.maxBackwardLimit
    let isDictionaryMatch := decide (dictionaryStart + gap < m.distance)
    let len := if len < m.length ∧ (isDictionaryMatch ∨ ctx.params.maxZopfliLen < m.length)
      then m.length else len
    if len ≤ m.length then
      let lenCode := fun l => if isDictionaryMatch then m.lengthCode else l
      matchCopies ctx model pos gap start ms (m.length + 1)
        (recordRange ctx model pos start.pos m.distance 0 lenCode
          (fun l => matchCost ctx.params model start m.distance (lenCode l)) len m.length r)
    else matchCopies ctx model pos gap start ms len r

/-- The queued starts from the `k`th on: the matches are tried from the first two. -/
def updateFrom (ctx : UpdateContext) (enablePrefix independent : Bool)
    (model : CostModel) (pos gap : ℕ)
    (matches_ : List BackwardMatch) (minLen : ℕ) (queue : StartPosQueue) : ℕ → ℕ → Reach → Reach
  | 0, _, r => r
  | n + 1, k, r =>
    let posdata := queue.get k
    let inscode := insertLengthCode (pos - posdata.pos)
    let start : Start := {
      pos := posdata.pos
      cache := posdata.distanceCache
      inscode
      baseCost :=
        model.add (model.add posdata.costdiff (model.ofNat (insExtra.getD inscode 0)))
        (model.literalCosts 0 pos) }
    let r := cachedCopies ctx enablePrefix independent model pos start cacheProbes 0 (minLen - 1) r
    updateFrom ctx enablePrefix independent model pos gap matches_ minLen queue n (k + 1)
      (if 2 ≤ k then r else matchCopies ctx model pos gap start matches_ minLen r)

/-- Prices every command that could start at `pos`, and gives the longest copy. -/
def updateNodes (ctx : UpdateContext) (enablePrefix independent : Bool) (pos : ℕ)
    (matches_ : List BackwardMatch)
    (model : CostModel) (queue : StartPosQueue) (nodes : Nodes) : ℕ × StartPosQueue × Nodes :=
  let gap := if enablePrefix then ctx.gap else 0
  let (queue, nodes) :=
    evaluateNode (ctx.params.logicalPosition ctx.blockStart) pos ctx.maxBackwardLimit gap
      ctx.startingDistCache model queue nodes
  let posdata := queue.get 0
  let minCost :=
    model.add (model.add posdata.cost model.minCostCmd) (model.literalCosts posdata.pos pos)
  let minLen := computeMinimumCopyLength model minCost nodes ctx.numBytes pos
  let r := updateFrom ctx enablePrefix independent model pos gap matches_ minLen queue
    (min ctx.params.maxZopfliCandidates queue.len) 0 { nodes }
  (r.result, queue, r.nodes)

/-! ### The path -/

/-- Backs up over trailing literals. The first node has length zero, which ends it. -/
def lastArrival (nodes : Nodes) : ℕ → ℕ
  | 0 => 0
  | index + 1 =>
    if (nodes (index + 1)).insertLength = 0 ∧ (nodes (index + 1)).length = 1
    then lastArrival nodes index else index + 1

def u32Max : ℕ := 2 ^ 32 - 1

/-- Writes into each node on the way back the length of the command that follows. -/
def traceBack : ℕ → ℕ → ℕ × Nodes → Option (ℕ × Nodes)
  | 0, _, _ => none
  | fuel + 1, index, (numCommands, nodes) =>
    if index ≠ 0 then
      let len := (nodes index).commandLength
      let index := index - len
      traceBack fuel index (numCommands + 1,
        Function.update nodes index ((nodes index).setNext len))
    else some (numCommands, nodes)

def computeShortestPathFromNodes (numBytes : ℕ) (nodes : Nodes) : Option (ℕ × Nodes) :=
  let index := lastArrival nodes numBytes
  traceBack (numBytes + 1) index (0, Function.update nodes index ((nodes index).setNext u32Max))

/-- The commands from `pos` on, `fuel` at most. -/
def commandsFrom (numBytes blockStart : ℕ) (nodes : Nodes) (params : HqParams) (gap : ℕ) :
    ℕ → ℕ → ℕ → Bool → ZopfliState → List Command → Option (ZopfliState × List Command)
  | 0, _, _, _, _, _ => none
  | fuel + 1, pos, offset, first, state, commands =>
    if offset ≠ u32Max then
      let next := nodes (pos + offset)
      let copyLength := next.copyLength
      let insertLength := if first then next.insertLength + state.lastInsertLen
        else next.insertLength
      let lastInsertLen := if first then 0 else state.lastInsertLen
      let pos := pos + next.insertLength
      let distance := next.copyDistance
      let dictionaryStart := min (params.logicalPosition (blockStart + pos)) params.maxBackwardLimit
      let distCode := next.distanceCode
      let command :=
        Command.new params.dist insertLength copyLength (next.lengthCode - copyLength) distCode
      let distCache := if ¬ dictionaryStart + gap < distance ∧ 0 < distCode then
          ![asI32 distance, state.distCache 0, state.distCache 1, state.distCache 2]
        else state.distCache
      commandsFrom numBytes blockStart nodes params gap fuel (pos + copyLength) next.next false
        { distCache, lastInsertLen, numLiterals := state.numLiterals + insertLength }
        (commands ++ [command])
    else some ({ state with lastInsertLen := state.lastInsertLen + (numBytes - pos) }, commands)

/-- Walks the path forward, emitting commands. -/
def createCommands (numBytes blockStart : ℕ) (nodes : Nodes) (params : HqParams) (gap : ℕ)
    (state : ZopfliState)
    (commands : List Command) : Option (ZopfliState × List Command) :=
  commandsFrom numBytes blockStart nodes params gap (numBytes + 1) 0 (nodes 0).next true
    state commands

/-! ### The passes -/

/-- Evaluates the next positions, `skip` at most, which a long copy has settled; also
counts the matches passed over. -/
def skipNodes (ctx : UpdateContext) (gap : ℕ) (model : CostModel) (numMatches : ℕ → ℕ) :
    ℕ → ℕ → ℕ → StartPosQueue × Nodes → ℕ × ℕ × StartPosQueue × Nodes
  | 0, i, cur, (queue, nodes) => (i, cur, queue, nodes)
  | skip + 1, i, cur, (queue, nodes) =>
    let i := i + 1
    if ctx.numBytes ≤ i + 3 then (i, cur, queue, nodes)
    else skipNodes ctx gap model numMatches skip i (cur + numMatches i)
      (evaluateNode (ctx.params.logicalPosition ctx.blockStart) i ctx.maxBackwardLimit gap
        ctx.startingDistCache model
        queue nodes)

/-- How far a pass strides behind a position: over a copy of quick-step length, or over
the only match if it is too long to price in parts. -/
def stride (maxZopfliLen skip : ℕ) (matches_ : List BackwardMatch) : ℕ :=
  let skip := if skip < longCopyQuickStep then 0 else skip
  match matches_ with
  | [only] => if maxZopfliLen < only.length then max skip only.length else skip
  | _ => skip

/-- The nodes a pass starts from. -/
def stubNodes : Nodes := Function.update (fun _ => {}) 0 (({ length := 0 } : ZopfliNode).setCost 0)

/-- The loop of `zopfliIterate` from position `i` on, whose matches start at `cur`. -/
def iterateFrom (ctx : UpdateContext) (enablePrefix independent : Bool) (model : CostModel)
    (numMatches : ℕ → ℕ)
    (arena : List BackwardMatch) : ℕ → ℕ → ℕ → StartPosQueue × Nodes →
    Option (StartPosQueue × Nodes)
  | 0, _, _, _ => none
  | fuel + 1, i, cur, (queue, nodes) =>
    if i + 3 < ctx.numBytes then
      let count := numMatches i
      let matches_ := (arena.drop cur).take count
      let (skip, queue, nodes) :=
        updateNodes ctx enablePrefix independent i matches_ model queue nodes
      let (i, cur, queue, nodes) := skipNodes ctx ctx.gap model numMatches
        (stride ctx.params.maxZopfliLen skip matches_ - 1) i (cur + count) (queue, nodes)
      iterateFrom ctx enablePrefix independent model numMatches arena fuel (i + 1) cur
        (queue, nodes)
    else some (queue, nodes)

/-- A pass over matches found beforehand: `numMatches i` of the arena for position `i`. -/
def zopfliIterate (ctx : UpdateContext) (enablePrefix independent : Bool) (model : CostModel)
    (numMatches : ℕ → ℕ)
    (arena : List BackwardMatch) : Option (ℕ × Nodes) :=
  match iterateFrom ctx enablePrefix independent model numMatches arena (ctx.numBytes + 1) 0 0 ({},
    stubNodes) with
  | none => none
  | some (_, nodes) => computeShortestPathFromNodes ctx.numBytes nodes

/-- A copy longer than the cap makes every shorter candidate irrelevant. -/
def longestOnly (maxZopfliLen : ℕ) (found : List BackwardMatch) : List BackwardMatch :=
  match found.getLast? with
  | some longest => if maxZopfliLen < longest.length then [longest] else found
  | none => found

/-- The loop of `zopfliComputeShortestPath` from position `i` on. -/
def computeFrom (ctx : UpdateContext) (enablePrefix independent : Bool) (model : CostModel)
    (found : ℕ → List BackwardMatch) :
    ℕ → ℕ → StartPosQueue × Nodes → Option (StartPosQueue × Nodes)
  | 0, _, _ => none
  | fuel + 1, i, (queue, nodes) =>
    if i + 3 < ctx.numBytes then
      let matches_ := longestOnly ctx.params.maxZopfliLen (found i)
      let (skip, queue, nodes) :=
        updateNodes ctx enablePrefix independent i matches_ model queue nodes
      let (i, _, queue, nodes) := skipNodes ctx ctx.gap model (fun _ => 0)
        (stride ctx.params.maxZopfliLen skip matches_ - 1) i 0 (queue, nodes)
      computeFrom ctx enablePrefix independent model found fuel (i + 1) (queue, nodes)
    else some (queue, nodes)

/-- A pass that finds its matches as it goes: `found i` at position `i`. -/
def zopfliComputeShortestPath (ctx : UpdateContext) (enablePrefix independent : Bool)
    (model : CostModel)
    (found : ℕ → List BackwardMatch) : Option (ℕ × Nodes) :=
  match computeFrom ctx enablePrefix independent model found (ctx.numBytes + 1) 0 ({}, stubNodes)
    with
  | none => none
  | some (_, nodes) => computeShortestPathFromNodes ctx.numBytes nodes

/-- Finds the matches of a block once, from position `i` on: one long enough settles
the positions it covers, which get none. -/
def gather (numBytes maxZopfliLen : ℕ) (found : ℕ → List BackwardMatch) :
    ℕ → ℕ → List BackwardMatch × (ℕ → ℕ) → Option (List BackwardMatch × (ℕ → ℕ))
  | 0, _, _ => none
  | fuel + 1, i, (arena, numMatches) =>
    if i + 3 < numBytes then
      let matches_ := longestOnly maxZopfliLen (found i)
      let skip := match matches_ with
        | [only] => if maxZopfliLen < only.length then only.length - 1 else 0
        | _ => 0
      gather numBytes maxZopfliLen found fuel (i + skip + 1)
        (arena ++ matches_, Function.update numMatches i matches_.length)
    else some (arena, numMatches)

/-- The cost models of a block: estimated from its literals, and from the commands of
a first pass. -/
structure CostModels where
  fromLiterals : CostModel
  fromCommands : List Command → CostModel

/-- The context of a block; without the prefix search there is no attachment. -/
def updateContext (enablePrefix : Bool) (span : BlockSpan) (window : Window) (params : HqParams)
    (attached : Option SharedContext) (state : ZopfliState) : UpdateContext where
  numBytes := span.bytes
  blockStart := span.position
  ringbuffer := window.data
  ringbufferMask := window.mask
  params := params
  maxBackwardLimit := params.maxBackwardLimit
  startingDistCache := state.distCache
  gap := if enablePrefix then (attached.map SharedContext.totalSize).getD 0 else 0
  attached := if enablePrefix then attached else none

section

variable (enablePrefix independent : Bool) (span : BlockSpan) (window : Window) (params : HqParams)
variable (attached : Option SharedContext) (found : ℕ → List BackwardMatch) (models : CostModels)

/-- Quality ten: one cost model, one pass. -/
def createZopfliBackwardReferences (state : ZopfliState) (commands : List Command) :
    Option (ZopfliState × List Command) :=
  let ctx := updateContext enablePrefix span window params attached state
  match zopfliComputeShortestPath ctx enablePrefix independent models.fromLiterals found with
  | none => none
  | some (_, nodes) => createCommands span.bytes span.position nodes params ctx.gap state commands

/-- Quality eleven: the matches are found once, and priced twice. The second pass starts
from where the first did. -/
def createHqZopfliBackwardReferences (state : ZopfliState) (commands : List Command) :
    Option (ZopfliState × List Command) :=
  let ctx := updateContext enablePrefix span window params attached state
  match gather span.bytes params.maxZopfliLen found (span.bytes + 1) 0 ([], fun _ => 0) with
  | none => none
  | some (arena, numMatches) =>
    let pass :=
      fun model => match zopfliIterate ctx enablePrefix independent model numMatches arena with
      | none => none
      | some (_, nodes) => createCommands span.bytes span.position nodes params ctx.gap
          state commands
    match pass models.fromLiterals with
    | none => none
    | some (_, first) => pass (models.fromCommands (first.drop commands.length))

/-- The search the kernels run: with the prefix search exactly if something is
attached. -/
def hq (state : ZopfliState) (commands : List Command) : Option (ZopfliState × List Command) :=
  match params.quality with
  | .q10 => createZopfliBackwardReferences attached.isSome independent span window params attached
      found models state commands
  | .q11 => createHqZopfliBackwardReferences attached.isSome independent span window params attached
      found models state
      commands

end

end Mbrotli.Compressor
