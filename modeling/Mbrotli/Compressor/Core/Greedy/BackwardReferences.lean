/-
# The greedy reference search

`createBackwardReferences` turns a block of input into commands. At each position it
asks the match finder, delays a match by a byte while a later start scores better, and
strides over input that has not matched for long. The finder is a parameter: a
`Matcher` lends its tables as a run, whose searches and stores the loop calls.

A finder that reports empty matches can keep the loop at one position, so the loops
are bounded by fuel, and `none` says that it ran out.
-/
import Mathlib.Data.Fin.VecNotation
import Mbrotli.Compressor.Config
import Mbrotli.Shared.Command
import Mbrotli.Shared.Ringbuffer
import Mbrotli.Decompressor.Core.Bits

namespace Mbrotli.Compressor

/-- The score of a match that is none. -/
def minScore : ℕ := 1920 + 100

/-- A candidate a match finder reports. -/
structure SearchResult where
  len : ℕ := 0
  distance : ℕ := 0
  score : ℕ := minScore
  lenCodeDelta : ℤ := 0
  deriving DecidableEq, Repr

def SearchResult.isMatch (r : SearchResult) : Bool := minScore < r.score

/-- Whether probing the static dictionary pays off. -/
structure DictionaryStats where
  lookups : ℕ := 0
  found : ℕ := 0
  deriving DecidableEq, Repr

/-! ### The distance cache -/

/-- The distances a search may probe: four remembered ones, and near misses derived
from the two freshest. -/
abbrev DistanceCache := Fin 16 → ℤ

def initialDistanceCache : DistanceCache := ![4, 11, 15, 16, 0, 0, 0, 0, 0, 0, 0, 0, 0, 0, 0, 0]

/-- Fills the derived entries a finder with `numDistances` probes looks at. -/
def prepareDistanceCache (cache : DistanceCache) (numDistances : ℕ) : DistanceCache :=
  if numDistances ≤ 4 then cache
  else
    let next := if 10 < numDistances then
        ![cache 1 - 1, cache 1 + 1, cache 1 - 2, cache 1 + 2, cache 1 - 3, cache 1 + 3]
      else ![cache 10, cache 11, cache 12, cache 13, cache 14, cache 15]
    ![cache 0, cache 1, cache 2, cache 3, cache 0 - 1, cache 0 + 1, cache 0 - 2, cache 0 +
      2, cache 0 - 3,
      cache 0 + 3, next 0, next 1, next 2, next 3, next 4, next 5]

/-- Takes a distance in before the three freshest. -/
def pushDistance (cache : DistanceCache) (distance : ℤ) : DistanceCache := fun i =>
  if i = 3 then cache 2 else if i = 2 then cache 1 else if i = 1 then cache 0
  else if i = 0 then distance else cache i

def computeDistanceCode (distance maxDistance : ℕ) (cache : DistanceCache) : ℕ :=
  let long := distance + numDistanceShortCodes - 1
  if distance ≤ maxDistance then
    let offset0 := wrappingSub (distance + 3) (asUsize (cache 0))
    let offset1 := wrappingSub (distance + 3) (asUsize (cache 1))
    if distance = asUsize (cache 0) then 0
    else if distance = asUsize (cache 1) then 1
    else if offset0 < 7 then (0x9750468 >>> (4 * offset0)) &&& 0xF
    else if offset1 < 7 then (0xFDB1ACE >>> (4 * offset1)) &&& 0xF
    else if distance = asUsize (cache 2) then 2
    else if distance = asUsize (cache 3) then 3
    else long
  else long

/-! ### Match finders -/

/-- What a match finder needs of its caller. `custom` is the context that chooses
among the words of a dictionary of its own. -/
structure MatchQuery where
  custom : Option ℕ
  data : List UInt8
  window : List UInt8
  mask : ℕ
  cache : DistanceCache
  curIx : ℕ
  maxLength : ℕ
  maxBackward : ℕ
  positionOffset : ℕ
  dictionaryLimit : ℕ
  gap : ℕ
  maxDistance : ℕ

/-- The distance to the start of the stream, capped to the window. -/
def MatchQuery.dictionaryStart (q : MatchQuery) : ℕ :=
  min (q.curIx + q.positionOffset) q.dictionaryLimit

/-- A finder's tables borrowed for a block of searches and stores. -/
structure MatchRun (R : Type) where
  hashTypeLength : ℕ
  storeLookahead : ℕ
  store : List UInt8 → ℕ → ℕ → R → R
  storeRange : List UInt8 → ℕ → ℕ → ℕ → R → R
  findLongestMatch : R → DictionaryStats → MatchQuery → SearchResult →
    R × DictionaryStats × SearchResult

/-- A finder: how it lends its tables and takes them back, how many cached distances
it probes, and how it may reorganize between runs, with the positions the search may
advance before it calls back. -/
structure Matcher (M R : Type) where
  run : MatchRun R
  lend : M → R
  settle : M → R → M
  lastDistancesToCheck : M → ℕ
  checkpoint : ℕ → ℕ → M → ℕ × M

/-- An attached dictionary: its raw prefixes, whether it has words of its own, and
the search over its prepared index. -/
structure SharedContext where
  segments : List (List UInt8)
  customWords : Bool
  findMatch : List UInt8 → ℕ → DistanceCache → ℕ → ℕ → ℕ → ℕ → SearchResult → SearchResult

/-- The bytes of the attached prefixes. -/
def SharedContext.totalSize (c : SharedContext) : ℕ := (c.segments.map List.length).sum

/-! ### The search -/

/-- What the search carries between blocks. -/
structure ReferenceState where
  distCache : DistanceCache := initialDistanceCache
  lastInsertLen : ℕ := 0
  numLiterals : ℕ := 0
  dictionary : DictionaryStats := {}

/-- What a search over a block does not change. -/
structure Block where
  params : GreedyParams
  ringbuffer : List UInt8
  window : List UInt8
  mask : ℕ
  attached : Option SharedContext
  posEnd : ℕ
  storeEnd : ℕ
  maxBackwardLimit : ℕ
  positionOffset : ℕ
  gap : ℕ
  maxDistanceCode : ℕ
  heuristicsWindow : ℕ
  extensive : Bool
  lastDistances : ℕ

/-- The byte `back` before `position`, zero past the end of the buffer. -/
def previousByte (data : List UInt8) (position mask back : ℕ) : UInt8 :=
  data.getD (wrappingSub position back &&& mask) 0

namespace Block

def query (b : Block) (enablePrefix : Bool) (cache : DistanceCache) (position maxLength : ℕ) :
    MatchQuery where
  custom := if enablePrefix ∧ (b.attached.map SharedContext.customWords).getD false then
      some (contextLut 2 (previousByte b.ringbuffer position b.mask 1).toNat |||
        contextLut 2 (256 + (previousByte b.ringbuffer position b.mask 2).toNat))
    else none
  data := b.ringbuffer
  window := b.window
  mask := b.mask
  cache := cache
  curIx := position
  maxLength := maxLength
  maxBackward := min position b.maxBackwardLimit
  positionOffset := b.positionOffset
  dictionaryLimit := b.maxBackwardLimit
  gap := b.gap
  maxDistance := b.maxDistanceCode

/-- The finder's search, and the attached prefixes'. -/
def search {R : Type} (b : Block) (enablePrefix : Bool) (run : MatchRun R) (r : R)
    (state : ReferenceState)
    (position maxLength : ℕ) (out : SearchResult) : R × ReferenceState × SearchResult :=
  let query := b.query enablePrefix state.distCache position maxLength
  let (r, dictionary, out) := run.findLongestMatch r state.dictionary query out
  let out := match enablePrefix, b.attached with
    | true, some context => context.findMatch b.ringbuffer b.mask state.distCache position maxLength
        query.dictionaryStart b.maxDistanceCode out
    | _, _ => out
  (r, { state with dictionary }, out)

end Block

/-- The loop-carried state of a search. -/
structure Cursor where
  position : ℕ
  insertLength : ℕ
  applyRandomHeuristics : ℕ

/-- What a search loop works on: the finder's run, the state between blocks and the
commands so far. -/
structure Scan (R : Type) where
  run : R
  state : ReferenceState
  commands : List Command
  cursor : Cursor

namespace Block

variable {R : Type} (b : Block) (enablePrefix independent : Bool) (run : MatchRun R)

/-- Score a delayed match has to beat the current one by. -/
def costDiffLazy : ℕ := 175

/-- How many times in a row a match may be delayed. -/
def maxDelayedInARow : ℕ := 4

/-- Delays the match `sr`, `delays` times at most, while the search one byte later
scores better. -/
def delay : ℕ → Scan R → SearchResult → ℕ → Scan R × SearchResult
  | 0, s, sr, _ => (s, sr)
  | delays + 1, s, sr, maxLength =>
    let sr2 : SearchResult := { len := if b.extensive then 0 else min (sr.len - 1) maxLength }
    let (r, state, sr2) :=
      b.search enablePrefix run s.run s.state (s.cursor.position + 1) maxLength sr2
    let s := { s with run := r, state }
    if sr.score + costDiffLazy ≤ sr2.score then
      let s := { s with cursor := { s.cursor with
        position := s.cursor.position + 1, insertLength := s.cursor.insertLength + 1 } }
      if s.cursor.position + run.hashTypeLength < b.posEnd then delay delays s sr2 (maxLength - 1)
      else (s, sr2)
    else (s, sr)

/-- Emits the command of the match `sr` and stores the positions it covers. -/
def emitCommand (s : Scan R) (sr : SearchResult) : Scan R :=
  let position := s.cursor.position
  let dictionaryStart := min (position + b.positionOffset) b.maxBackwardLimit
  let distanceCode :=
    if independent then sr.distance + numDistanceShortCodes - 1
    else computeDistanceCode sr.distance (dictionaryStart + b.gap) s.state.distCache
  let distCache :=
    if sr.distance ≤ dictionaryStart + b.gap ∧ 0 < distanceCode then
      prepareDistanceCache (pushDistance s.state.distCache (asI32 sr.distance)) b.lastDistances
    else s.state.distCache
  let command := Command.new b.params.dist s.cursor.insertLength sr.len sr.lenCodeDelta distanceCode
  let rangeStart := position + 2
  let rangeEnd := min (position + sr.len) b.storeEnd
  let rangeStart :=
    if sr.distance < sr.len >>> 2 then
      min rangeEnd (max rangeStart (position + sr.len - sr.distance <<< 2))
    else rangeStart
  { run := run.storeRange b.ringbuffer b.mask rangeStart rangeEnd s.run
    state := { s.state with distCache, numLiterals := s.state.numLiterals + s.cursor.insertLength }
    commands := s.commands ++ [command]
    cursor := {
      position := position + sr.len
      insertLength := 0
      applyRandomHeuristics := position + 2 * sr.len + b.heuristicsWindow } }

def commitMatch (s : Scan R) (sr : SearchResult) (maxLength : ℕ) : Scan R :=
  let (s, sr) := b.delay enablePrefix run maxDelayedInARow s sr (maxLength - 1)
  b.emitCommand independent run s sr

/-- Strides to `posJump`, storing only where it steps. -/
def skip (stride posJump : ℕ) : ℕ → Scan R → Scan R
  | 0, s => s
  | steps + 1, s =>
    if s.cursor.position < posJump then
      skip stride posJump steps { s with
        run := run.store b.ringbuffer b.mask s.cursor.position s.run
        cursor := { s.cursor with
          insertLength := s.cursor.insertLength + stride, position := s.cursor.position + stride } }
    else s

/-- Passes over a position that did not match. -/
def advance (s : Scan R) : Scan R :=
  let s := { s with cursor := { s.cursor with
    insertLength := s.cursor.insertLength + 1, position := s.cursor.position + 1 } }
  if s.cursor.position ≤ s.cursor.applyRandomHeuristics then s
  else
    let (stride, marginFloor) :=
      if s.cursor.applyRandomHeuristics + 4 * b.heuristicsWindow < s.cursor.position
        then (4, 4) else (2, 2)
    let margin := max (run.storeLookahead - 1) marginFloor
    let posJump := min (s.cursor.position + 4 * stride) (b.posEnd - margin)
    -- A jump of four strides takes at most four steps.
    b.skip run stride posJump 4 s

def searchPositions (loopEnd : ℕ) : ℕ → Scan R → Option (Scan R)
  | 0, _ => none
  | fuel + 1, s =>
    if s.cursor.position < loopEnd then
      let maxLength := b.posEnd - s.cursor.position
      let (r, state, sr) := b.search enablePrefix run s.run s.state s.cursor.position maxLength {}
      let s := { s with run := r, state }
      searchPositions loopEnd fuel
        (if sr.isMatch then b.commitMatch enablePrefix independent run s sr maxLength
          else b.advance run s)
    else some s

end Block

/-- `SearchLoop::visit`: the loop up to the checkpoint at `yieldAt`. The block's
`storeEnd` still holds its first position. -/
def visit {R : Type} (b : Block) (enablePrefix independent : Bool) (run : MatchRun R)
    (fuel yieldAt : ℕ)
    (s : Scan R) : Option (Scan R) :=
  let storeEnd :=
    if run.storeLookahead ≤ b.posEnd - b.storeEnd then b.posEnd - run.storeLookahead + 1
      else b.storeEnd
  let loopEnd := min (b.posEnd - run.hashTypeLength) yieldAt
  { b with storeEnd }.searchPositions enablePrefix independent run loopEnd fuel s

namespace Matcher

variable {M R : Type} (matcher : Matcher M R) (b : Block) (enablePrefix independent : Bool)

/-- The runs of a block: each up to the position the finder asked to be called back
at. -/
def runs (loopFuel : ℕ) : ℕ → ℕ → M → ReferenceState × List Command × Cursor →
    Option (M × ReferenceState × List Command × Cursor)
  | 0, _, _, _ => none
  | fuel + 1, advance, m, (state, commands, cursor) =>
    let yieldAt := min (cursor.position + max advance 1) u64Max
    match visit b enablePrefix independent matcher.run loopFuel yieldAt ⟨matcher.lend m, state,
      commands, cursor⟩ with
    | none => none
    | some s =>
      let m := matcher.settle m s.run
      if b.posEnd ≤ s.cursor.position + matcher.run.hashTypeLength then
        some (m, s.state, s.commands, s.cursor)
      else
        let (advance, m) := matcher.checkpoint s.cursor.position (b.posEnd - s.cursor.position) m
        runs loopFuel fuel advance m (s.state, s.commands, s.cursor)

/-- The block a call searches. -/
def block (m : M) (params : GreedyParams) (window : Window) (span : BlockSpan)
    (attached : Option SharedContext)
    (enablePrefix : Bool) : Block where
  params := params
  ringbuffer := window.data
  window := window.data.take (window.mask + 1)
  mask := window.mask
  attached := attached
  posEnd := span.position + span.bytes
  storeEnd := span.position
  maxBackwardLimit := params.maxBackwardLimit
  positionOffset := params.streamOffset
  gap := if enablePrefix then (attached.map SharedContext.totalSize).getD 0 else 0
  maxDistanceCode := params.dist.maxDistance
  heuristicsWindow := params.randomHeuristicsWindowSize
  extensive := params.quality.extensiveReferenceSearch
  lastDistances := matcher.lastDistancesToCheck m

/-- Turns `span.bytes` of input into commands, appended to `commands`. -/
def createBackwardReferences (fuel : ℕ) (m : M) (params : GreedyParams) (window : Window)
    (span : BlockSpan)
    (attached : Option SharedContext) (state : ReferenceState) (commands : List Command) :
    Option (M × ReferenceState × List Command) :=
  let b := matcher.block m params window span attached enablePrefix
  let cursor : Cursor := {
    position := span.position
    insertLength := state.lastInsertLen
    applyRandomHeuristics := span.position + b.heuristicsWindow }
  let state := { state with distCache := prepareDistanceCache state.distCache b.lastDistances }
  let (advance, m) := matcher.checkpoint span.position span.bytes m
  match matcher.runs b enablePrefix independent fuel fuel advance m (state, commands, cursor) with
  | none => none
  | some (m, state, commands, cursor) =>
    some (m, { state with lastInsertLen := cursor.insertLength + (b.posEnd - cursor.position) },
      commands)

/-- The search the kernels run: with the prefix search exactly if something is
attached. -/
def greedy (fuel : ℕ) (m : M) (params : GreedyParams) (window : Window) (span : BlockSpan)
    (attached : Option SharedContext) (state : ReferenceState) (commands : List Command) :
    Option (M × ReferenceState × List Command) :=
  matcher.createBackwardReferences attached.isSome independent fuel m params window span attached
    state commands

end Matcher

/-! ### A stream of calls -/

/-- A call of the search: the finder as it is prepared for the block, the window that
holds it, its bytes, and whether the meta-block ends behind it. -/
structure SearchCall (M : Type) where
  prepare : M → M
  window : Window
  bytes : ℕ
  closes : Bool

/-- What a stream's search has come to. -/
structure Searched (M : Type) where
  matcher : M
  state : ReferenceState := {}
  commands : List Command := []
  lastProcessedPos : ℕ := 0

/-- Literals no command has claimed when a meta-block ends become one of their own. -/
def Searched.close {M : Type} (s : Searched M) : Searched M :=
  { s with
    state := { s.state with lastInsertLen := 0, numLiterals := 0 }
    commands := if 0 < s.state.lastInsertLen
      then s.commands ++ [Command.insertOnly s.state.lastInsertLen]
      else s.commands }

def Matcher.call {M R : Type} (matcher : Matcher M R) (independent : Bool) (fuel : ℕ)
    (params : GreedyParams)
    (attached : Option SharedContext) (s : Searched M) (call : SearchCall M) :
    Option (Searched M) :=
  match matcher.greedy independent fuel (call.prepare s.matcher) params call.window
      ⟨wrapPosition s.lastProcessedPos, call.bytes⟩ attached s.state s.commands with
  | none => none
  | some (m, state, commands) =>
    let s :=
      { s with matcher := m, state, commands, lastProcessedPos := s.lastProcessedPos + call.bytes }
    some (if call.closes then s.close else s)
end Mbrotli.Compressor
