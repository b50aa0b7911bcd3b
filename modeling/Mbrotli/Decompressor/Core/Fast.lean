/-
# The command loop

`Stream.fast` decodes whole commands while whole-word refills and output space allow,
then leaves the stage the byte-exact path continues from. `Fast` holds its locals: a
copy of the stream's fields, the unread acceptable input `rest`, the output space
still free, and the history (the ring, or the linear slice up to its end). What the
source caches per block type it looks up here where it is used: codes, modes and maps
do not change inside the loop.

The loop ends by pausing at a stage, or with a fault; `leave` writes the locals back.
A command can make no progress, so the loop is bounded by fuel, and `none` says that
it ran out.
-/
import Mbrotli.Decompressor.Core.Stream

namespace Mbrotli

/-- The loop's locals. -/
structure Fast where
  bits : Bits
  /-- Unread acceptable input. -/
  rest : List UInt8
  position : ℕ
  remaining : ℕ
  /-- End of the delivered history. -/
  flushed : ℕ
  cache : Cache
  literals : ℕ := 0
  copy : ℕ := 0
  implicit : Bool := false
  distance : ℕ := 0
  distanceCode : ℕ := 0
  /-- Output space still free, pending bytes counted as used. -/
  space : ℕ
  memory : Memory
  ring : Buffer UInt8
  output : Output
  blocks : Fin 3 → Block
  scratch : List UInt8
  scratchPos : ℕ

/-- What the loop only reads. -/
structure FastEnv where
  env : Env
  linear : Bool
  windowSize : ℕ
  maxBackward : ℕ
  tables : Tables

/-- Why the loop ends. -/
inductive FastExit where
  | pause (stage : Stage)
  | fault (f : Fault)

/-- A part of a command, or where the loop ends in it. -/
abbrev Phase := Except (FastExit × Fast)

/-- Why the literal loop stopped. -/
inductive Pause where
  | done | input | output
  deriving DecidableEq, Repr

namespace Fast

def refill (l : Fast) : Bool × Fast :=
  let (ok, bits, rest) := l.bits.refillRest l.rest
  (ok, { l with bits, rest })

/-- Refills unless `n` bits are buffered. -/
def refillBelow (l : Fast) (n : ℕ) : Bool × Fast := if l.bits.count < n then l.refill else (true, l)

/-- Goes on if the refill succeeded, pauses at `stage` otherwise. -/
def orPause (r : Bool × Fast) (stage : Stage) : Phase Fast :=
  if r.1 then .ok (r.2) else .error (.pause stage, r.2)

def take (l : Fast) (n : ℕ) : ℕ × Fast :=
  let (v, bits) := l.bits.take n
  (v, { l with bits })

/-- A symbol of a group's code; a missing code is a panic. -/
def symbol (l : Fast) (g : Group) (tree : ℕ) : Phase (ℕ × Fast) :=
  match g.table tree with
  | none => .error (.fault .panic, l)
  | some table =>
    let (s, bits) := l.bits.decodeFast table.lookup
    .ok (s, { l with bits })

def setBlock (l : Fast) (i : Fin 3) (b : Block) : Fast :=
  { l with blocks := Function.update l.blocks i b }

/-- Takes `n` symbols off a block. -/
def useBlock (l : Fast) (i : Fin 3) (n : ℕ) : Fast := l.setBlock i ((l.blocks i).use n)

def switchBlock (l : Fast) (i : Fin 3) : Phase Fast :=
  match (l.blocks i).switchFast l.bits with
  | none => .error (.fault .panic, l)
  | some (b, bits) => .ok ({ l with bits }.setBlock i b)

/-- Switches block `i` if it is used up, and refills for what follows. -/
def switchPending (l : Fast) (i : Fin 3) (stage : Stage) : Phase Fast :=
  if (l.blocks i).remaining = 0 then
    if !(l.blocks i).switchReady then .error (.pause stage, l)
    else do
      let l ← l.switchBlock i
      orPause l.refill stage
  else .ok l

/-- Fails with a decode error. -/
def fail {α : Type} (l : Fast) (e : DecodeError) : Phase α := .error (.fault (.error e), l)

/-- Delivers pending history. -/
def flush (l : Fast) : Fast :=
  let (flushed, output) := flushRing l.ring.get l.ring.len l.position l.flushed l.output
  { l with flushed, output }

end Fast

namespace FastEnv

open Fast

/-- Index of a position in the loop's history. -/
def index (c : FastEnv) (l : Fast) (position : ℕ) : ℕ :=
  if c.linear then position else historyIndex l.ring.len position

/-- Whether writing up to `stop` needs growth. -/
def grows (c : FastEnv) (l : Fast) (stop : ℕ) : Bool :=
  !c.linear && decide (l.ring.len < c.windowSize ∧ l.ring.len < stop)

/-- Delivers what is pending once a write has reached the ring's end. -/
def flushAt (c : FastEnv) (l : Fast) (stop : ℕ) : Fast :=
  if !c.linear && stop = l.ring.len then l.flush else l

/-- Grows the ring for every byte this call could still produce. -/
def reach (c : FastEnv) (l : Fast) (stop : ℕ) : Phase Fast :=
  if c.grows l stop then
    match growRing l.memory l.ring c.windowSize (min (l.position + min l.remaining l.space) u64Max)
      with
    | .error e => l.fail e
    | .ok (memory, ring) => .ok ({ l with memory, ring })
  else .ok l

/-- Bits a distance needs before its symbol. -/
def distanceNeed (c : FastEnv) : ℕ := if c.tables.distances.large then 47 else 40

/-! ### The command -/

/-- The next command's insert length and distance context. -/
def command (c : FastEnv) (l : Fast) : Phase ((ℕ × ℕ) × Fast) :=
  if l.remaining = 0 then .error (.pause .command, l)
  else do
    let l ← orPause l.refill .command
    let l ← l.switchPending 1 .command
    let (symbol, l) ← l.symbol (c.tables.trees 1) (l.blocks 1).current
    let l := l.useBlock 1 1
    let command := commands symbol
    let (extra, l) := l.take command.insertExtra
    let insert := command.insertBase + extra
    if l.remaining < insert then l.fail (.invalidData .metaBlock)
    else do
      let l := { l with implicit := command.implicit, literals := insert }
      let l ← orPause (l.refillBelow 24) (.copyExtra command.copyCode)
      let (extra, l) := l.take command.copyExtra
      .ok ((insert, command.distanceContext), { l with copy := command.copyBase + extra })

/-! ### Literals -/

/-- Writes one literal of `table` into slot `index`. -/
def literal (table : Table) (index : ℕ) (l : Fast) : Fast :=
  let (s, bits) := l.bits.decodeFast table.lookup
  { l with bits, ring := l.ring.set index (UInt8.ofNat s) }

/-- Literals of one table three at a time: three symbols need at most 45 bits. The
number of slots written. -/
def tripleLoop (table : Table) : ℕ → ℕ → Fast → ℕ × Fast
  | 0, _, l => (0, l)
  | k + 1, index, l =>
    let (ok, l) := l.refillBelow 45
    if !ok then (0, l)
    else
      let l := literal table index l
      let l := literal table (index + 1) l
      let l := literal table (index + 2) l
      let (done, l) := tripleLoop table k (index + 3) l
      (done + 3, l)

/-- Literals of one table one at a time. -/
def scalarLoop (table : Table) : ℕ → ℕ → Fast → ℕ × Fast
  | 0, _, l => (0, l)
  | n + 1, index, l =>
    let (ok, l) := l.refillBelow 15
    if !ok then (0, l)
    else
      let (done, l) := scalarLoop table n (index + 1) (literal table index l)
      (done + 1, l)

/-- Literals whose table depends on the two bytes before; `none` is a panic. -/
def contextLoop (trees : Group) (lut contexts : ℕ → ℕ) :
    ℕ → ℕ → UInt8 → UInt8 → Fast → Option (ℕ × Fast)
  | 0, _, _, _, l => some (0, l)
  | n + 1, index, p1, p2, l =>
    let (ok, l) := l.refillBelow 15
    if !ok then some (0, l)
    else
      let context := lut p1.toNat ||| lut (256 + p2.toNat)
      match trees.table (contexts (context % 64)) with
      | none => none
      | some table =>
        let l := literal table index l
        match contextLoop trees lut contexts n (index + 1) (l.ring.get index) p1 l with
        | none => none
        | some (done, l) => some (done + 1, l)

/-- The entries of a context map for one block type. -/
def contexts (values : Buffer ℕ) (width block : ℕ) (i : ℕ) : ℕ :=
  if block * width + width ≤ values.len then values.get (block * width + i) else 0

/-- A run of literals of the current block from slot `index` on. -/
def literalRun (c : FastEnv) (l : Fast) (index run : ℕ) : Option (ℕ × Fast) :=
  let block := (l.blocks 0).current
  let contexts := contexts (c.tables.maps 0).values 64 block
  if (c.tables.maps 0).trivialBlocks block then
    match (c.tables.trees 0).table (contexts 0) with
    | none => none
    | some table =>
      let (triples, l) := tripleLoop table (run / 3) index l
      let (done, l) := scalarLoop table (run - triples) (index + triples) l
      some (triples + done, l)
  else
    let (p1, p2) := previousBytes l.ring.get l.ring.len l.position
    contextLoop (c.tables.trees 0) (contextLut (c.tables.modes block)) contexts run index p1 p2 l

/-- The insert run: block switches and runs bounded by every limit, so that a run
itself checks only the reservoir. A round switches or writes a literal. -/
def literalLoop (c : FastEnv) : ℕ → Fast → Option (Pause × Fast)
  | 0, l => some (.input, l)
  | fuel + 1, l =>
    if l.literals = 0 then some (.done, l)
    else if (l.blocks 0).remaining = 0 then
      if !(l.blocks 0).switchReady then some (.input, l)
      else
        let (ok, l) := l.refillBelow 54
        if !ok then some (.input, l)
        else match l.switchBlock 0 with
        | .error _ => none
        | .ok l => literalLoop c fuel l
    else
      let index := c.index l l.position
      let run := min (min (min l.literals (l.blocks 0).remaining) l.space) (l.ring.len - index)
      if run = 0 then some (.output, l)
      else match c.literalRun l index run with
      | none => none
      | some (done, l) =>
        let l := { l with
          position := l.position + done, literals := l.literals - done
          remaining := l.remaining - done, space := l.space - done }.useBlock 0 done
        let l := c.flushAt l (index + done)
        if done < run then some (.input, l) else literalLoop c fuel l

/-- The whole insert run of a command. -/
def insert (c : FastEnv) (l : Fast) (insert : ℕ) : Phase Fast :=
  if insert = 0 then .ok l
  else do
    let l ← c.reach l (l.position + insert)
    match c.literalLoop (2 * l.literals + 1) l with
    | none => .error (.fault .panic, l)
    | some (.done, l) => .ok l
    | some (_, l) => .error (.pause .literals, l)

/-! ### The distance -/

/-- The distance a symbol from 16 on stands for, once its extra bits are read. -/
def longDistance (c : FastEnv) (l : Fast) (symbol : ℕ) : Phase (ℕ × Fast) :=
  let entry := c.tables.distances.table c.tables.distanceTable symbol
  if 32 < entry.width then
    if l.rest.length < 16 then .error (.pause (.distanceExtra symbol), l)
    else do
      let l ← orPause l.refill (.distanceExtra symbol)
      let (low, l) := l.take 32
      let (ok, l) := l.refill
      if !ok then l.fail .internalInvariant
      else
        let (high, l) := l.take (entry.width - 32)
        .ok (entry.base + ((low ||| (high <<< 32)) <<< c.tables.distances.postfix_), l)
  else
    let (extra, l) := l.take entry.width
    .ok (entry.base + (extra <<< c.tables.distances.postfix_), l)

/-- The command's distance. The most recent one is taken out of the cache, to be
pushed back by the copy. -/
def distance (c : FastEnv) (l : Fast) (distanceContext : ℕ) : Phase Fast :=
  if l.remaining = 0 then .error (.pause .command, l)
  else if l.implicit then
    let (distance, cache) := l.cache.pop
    .ok { l with distance, cache, distanceCode := 0 }
  else do
    let l ← orPause (l.refillBelow c.distanceNeed) .distance
    let l ← l.switchPending 2 .distance
    let tree := contexts (c.tables.maps 1).values 4 (l.blocks 2).current (distanceContext % 4)
    let (symbol, l) ← l.symbol (c.tables.trees 2) tree
    let l := { l.useBlock 2 1 with distanceCode := symbol }
    if symbol = 0 then
      let (distance, cache) := l.cache.pop
      .ok ({ l with distance, cache })
    else if symbol < 16 then
      match DistanceLayout.short symbol l.cache with
      | .error e => l.fail e
      | .ok distance => .ok ({ l with distance })
    else do
      let (distance, l) ← c.longDistance l symbol
      .ok ({ l with distance })

/-! ### The reference -/

/-- A dictionary reference; a prefix reference is left to the stages. -/
def word (c : FastEnv) (l : Fast) (available : ℕ) : Phase Fast :=
  let l := if l.distanceCode = 0 then { l with cache := l.cache.push l.distance } else l
  let prefixLen := c.env.prefixLen
  if l.distance - available ≤ prefixLen then .error (.pause .resolve, l)
  else
    let mode := c.tables.modes (l.blocks 0).current
    let (p1, p2) := previousBytes l.ring.get l.ring.len l.position
    let context := contextLut mode p1.toNat ||| contextLut mode (256 + p2.toNat)
    match c.env.resolveWord (l.distance - available - prefixLen - 1) l.copy context with
    | .error e => l.fail e
    | .ok word =>
      if l.remaining < word.length then l.fail (.invalidData .metaBlock)
      else if word.length = 0 ∧ l.distance ≤ 120 then l.fail (.invalidData .dictionaryReference)
      else
        let l := { l with scratch := word, scratchPos := 0 }
        if l.space < word.length then .error (.pause .dictionary, l)
        else do
          let l ← c.reach l (l.position + word.length)
          let (get, position, flushed, output) :=
            writeRing l.ring.len word.length word l.ring.get l.position l.flushed l.output
          .ok ({ l with
            ring := { l.ring with get }, position, flushed, output
            remaining := l.remaining - word.length, space := l.space - word.length })

/-- The snapshot of a short copy that does not overlap itself, where the history has
room for one. -/
def snapshot (l : Fast) (src dst : ℕ) : Option (ℕ → UInt8) :=
  if l.copy ≤ l.distance then
    if l.copy ≤ 16 then copySnapshot 16 l.ring.get l.ring.len src dst
    else if l.copy ≤ 32 then copySnapshot 32 l.ring.get l.ring.len src dst
    else none
  else none

/-- The bytes of a copy that fits the output. -/
def copyHistory (c : FastEnv) (l : Fast) : Phase Fast :=
  let len := l.copy
  let dst := c.index l l.position
  let src := c.index l (l.position - l.distance)
  -- The window checks of a short copy imply that neither side wraps.
  let short := snapshot l src dst
  let l' := { l with remaining := l.remaining - len, space := l.space - len }
  if short.isSome ∨ max dst src + len ≤ l.ring.len then
    let get := match short with
      | some get => get
      | none =>
        if len ≤ l.distance then copyWithin l.ring.get src dst len
        else copyOverlapping l.ring.get dst src len l.distance
    let l' := { l' with ring := { l.ring with get }, position := l.position + len }
    .ok (c.flushAt l' (dst + len))
  else if c.linear then l.fail .internalInvariant
  else
    let (get, position, flushed, output) :=
      copyRing l.ring.len l.distance len len l.ring.get l.position l.flushed l.output
    .ok ({ l' with ring := { l.ring with get }, position, flushed, output })

/-- A copy from the window. -/
def copy (c : FastEnv) (l : Fast) : Phase Fast :=
  if min l.remaining l.space < l.copy then
    if l.remaining < l.copy then l.fail (.invalidData .metaBlock)
    else .error (.pause .copy, { l with cache := l.cache.push l.distance })
  else
    let l := { l with cache := l.cache.push l.distance }
    let stop := l.position + l.copy
    if l.distance = 1 ∧ c.grows l stop ∧ stop ≤ c.windowSize then
      let byte := l.ring.get (c.index l (l.position - 1))
      match repeatGrow l.memory l.ring c.windowSize l.position byte stop with
      | .error e => l.fail e
      | .ok (memory, ring) =>
        let l := { l with
          memory, ring, position := stop, remaining := l.remaining - l.copy
          space := l.space - l.copy }
        .ok (if l.position = l.ring.len then l.flush else l)
    else do
      let l ← c.reach l stop
      c.copyHistory l

/-! ### The loop -/

/-- One command; `resume` continues the insert run of the one the stages saved. -/
def round (c : FastEnv) (resume : Bool) (l : Fast) : Phase Fast := do
  let ((insert, distanceContext), l) ←
    (if resume then .ok ((l.literals, min (l.copy - 2) 3), l) else c.command l)
  let l ← c.insert l insert
  let l ← c.distance l distanceContext
  let available := min l.position c.maxBackward
  if available < l.distance then c.word l available else c.copy l

def loop (c : FastEnv) : ℕ → Bool → Fast → Option (FastExit × Fast)
  | 0, _, _ => none
  | fuel + 1, resume, l =>
    match c.round resume l with
    | .error r => some r
    | .ok l => loop c fuel false l

end FastEnv

namespace Stream

/-- The loop's locals on entry. Only a resumed insert run has command fields. -/
def enterFast (s : Stream) (t : Tables) (input : Input) (output : Output) (outEnd : ℕ) : Fast :=
  let resume := decide (s.stage = .literals)
  { bits := s.bits
    rest := (input.bytes.take input.fastEnd).drop input.consumed
    position := s.position, remaining := s.remaining, flushed := s.position, cache := s.cache
    literals := if resume then s.literals else 0
    copy := if resume then s.copy else 0
    implicit := resume && s.implicit
    space := outEnd - output.produced
    memory := s.memory
    ring := if output.linear then
        ⟨output.bytes.get, Output.historyEnd s.position s.remaining outEnd, 0⟩ else s.ring
    output, blocks := t.blocks, scratch := t.scratch, scratchPos := t.scratchPos }

/-- Delivers what is pending and writes the locals back. -/
def leaveFast (s : Stream) (t : Tables) (input : Input) (l : Fast) : Stream × Input × Output :=
  let rest := (input.bytes.take input.fastEnd).drop input.consumed
  let l := l.flush
  let s := { s with
    bits := l.bits, position := l.position, remaining := l.remaining, cache := l.cache
    literals := l.literals, copy := l.copy, implicit := l.implicit, distance := l.distance
    distanceCode := l.distanceCode, memory := l.memory
    tables := some { t with blocks := l.blocks, scratch := l.scratch, scratchPos := l.scratchPos } }
  let input := { input with consumed := input.consumed + (rest.length - l.rest.length) }
  if l.output.linear then
    (s, input, { l.output with bytes := { l.output.bytes with get := l.ring.get } })
  else ({ s with ring := l.ring }, input, l.output)

def fast (env : Env) (fuel outEnd : ℕ) (s : Stream) (input : Input) (output : Output) :
    Option (Except Fault Unit × Stream × Input × Output) :=
  match s.tables with
  | none => some (.error (.error .internalInvariant), s, input, output)
  | some t =>
    let c : FastEnv := ⟨env, output.linear, s.windowSize, s.maxBackward, t⟩
    match c.loop fuel (s.stage = .literals) (s.enterFast t input output outEnd) with
    | none => none
    | some (exit, l) =>
      let (s, input, output) := s.leaveFast t input l
      match exit with
      | .pause stage => some (.ok (), { s with stage }, input, output)
      | .fault f => some (.error f, s, input, output)

end Stream
end Mbrotli
