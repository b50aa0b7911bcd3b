/-
# The stage machine

`Machine.round` is one turn of the loop of `Stream::run_stages`: the stages that read
(`Stream.readStage`), those that write output byte by byte or in bulk, and the command
and literal stages, which enter the command loop first. `Machine.run` is a call's run,
which hands read-ahead back at output pauses and member ends.

Zero-output commands can repeat without end, so the loops are bounded by fuel, and
`none` says that it ran out.
-/
import Mbrotli.Decompressor.Core.Fast

namespace Mbrotli

/-- What one call works on. -/
structure Machine where
  stream : Stream
  input : Input
  output : Output

/-- What a turn of the stage machine leads to. -/
inductive Flow where
  | next
  | stop (reason : Stop)
  | fault (f : Fault)
  deriving DecidableEq, Repr

namespace Stream

/-- Grows the ring so positions below `stop` are addressable. -/
def ensureRing (s : Stream) (stop : ℕ) : Except DecodeError Stream :=
  match growRing s.memory s.ring s.windowSize stop with
  | .error e => .error e
  | .ok (memory, ring) => .ok { s with memory, ring }

/-- Appends raw bytes to the history, growing it with them where it can. -/
def writeRaw (s : Stream) (bytes : List UInt8) : Except DecodeError Stream :=
  let stop := s.position + bytes.length
  if s.ring.len < stop ∧ stop ≤ s.windowSize then
    let desired := ringSize s.ring.len s.windowSize stop
    match s.memory.reserve 1 s.ring desired with
    | .error e => .error e
    | .ok (memory, ring) =>
      let existing := s.ring.len - s.position
      let ring := { ring with get := fun i =>
        if s.position ≤ i ∧ i < ring.len then bytes.getD (i - s.position) 0 else ring.get i }
      let ring := ring.extend (bytes.length - existing) fun i => bytes.getD (existing + i) 0
      .ok { s with memory, ring := ring.resize desired 0, position := stop }
  else match s.ensureRing stop with
  | .error e => .error e
  | .ok s =>
    let (get, position) := writeRingSilent s.ring.len bytes.length bytes s.ring.get s.position
    .ok { s with ring := { s.ring with get }, position }

/-- Grows the ring for a unit-distance copy, filling it with the repeated byte;
`none` when ordinary copying is needed. -/
def repeatGrowing (s : Stream) (stop : ℕ) : Except DecodeError (Option Stream) :=
  if s.distance ≠ 1 ∨ stop ≤ s.ring.len ∨ s.windowSize < stop then .ok none
  else match repeatGrow s.memory s.ring s.windowSize s.position (s.ring.get (s.position - 1)) stop
    with
  | .error e => .error e
  | .ok (memory, ring) => .ok (some { s with memory, ring, position := stop })

/-- The history positions index this call. -/
def history (s : Stream) (o : Output) : (ℕ → UInt8) × ℕ :=
  if o.linear then (o.bytes.get, o.bytes.len) else (s.ring.get, s.ring.len)

/-- The two bytes before the next one. -/
def previous (s : Stream) (o : Output) : UInt8 × UInt8 :=
  previousBytes (s.history o).1 (s.history o).2 s.position

/-- Delivers one decoded byte; on failure nothing but the ring's growth has changed. -/
def emit (s : Stream) (o : Output) (byte : UInt8) : Except DecodeError (Stream × Output) :=
  if u64Max < s.position + 1 then .error .sizeOverflow
  else
    let stored : Except DecodeError Stream := if o.linear then .ok s else
      match s.ensureRing (s.position + 1) with
      | .error e => .error e
      | .ok s => .ok { s with ring := s.ring.set (s.position % s.ring.len) byte }
    match stored with
    | .error e => .error e
    | .ok s =>
      let bytes := if o.collect.isNone then o.bytes.put o.produced byte else o.bytes
      .ok ({ s with position := s.position + 1, remaining := s.remaining - 1 },
        { o with bytes, produced := o.produced + 1 })

end Stream

namespace Machine

def next (m : Machine) : Flow × Machine := (.next, m)
def stop (m : Machine) (reason : Stop) : Flow × Machine := (.stop reason, m)
def fail (m : Machine) (e : DecodeError) : Flow × Machine := (.fault (.error e), m)
def goto (m : Machine) (stage : Stage) : Flow × Machine :=
  (.next, { m with stream := { m.stream with stage } })

/-- Runs a reader on the reservoir: what it returns, or how the turn ends. -/
def read {α : Type} (m : Machine) (r : Reader Fault α) (k : α → Machine → Flow × Machine) :
    Flow × Machine :=
  match exec r m.stream.bits m.input with
  | (.done a, bits, input) => k a { m with stream := { m.stream with bits }, input }
  | (.empty, bits, input) => { m with stream := { m.stream with bits }, input }.stop .input
  | (.fault f, bits, input) => (.fault f, { m with stream := { m.stream with bits }, input })

/-- A turn of a stage that only reads. -/
def readStage (env : Env) (m : Machine) : Flow × Machine :=
  m.read (m.stream.readStage env) fun update m =>
    match update with
    | .ok s => { m with stream := { s with bits := m.stream.bits } }.next
    | .error (e, s) => { m with stream := { s with bits := m.stream.bits } }.fail e

/-- Waits for room for a byte of output. -/
def whenReady (m : Machine) (k : Machine → Flow × Machine) : Flow × Machine :=
  match m.output.ready with
  | .error e => m.fail e
  | .ok false => m.stop .output
  | .ok true => k m

def emit (m : Machine) (byte : UInt8) (k : Machine → Flow × Machine) : Flow × Machine :=
  match m.stream.emit m.output byte with
  | .error e => m.fail e
  | .ok (stream, output) => k { m with stream, output }

/-- Switches block `i` if it is used up. -/
def prepare (m : Machine) (t : Tables) (i : Fin 3) (k : Tables → Machine → Flow × Machine) :
    Flow × Machine :=
  match (t.blocks i).prepare m.stream.bits m.input with
  | (r, b, bits, input) =>
    let t := t.setBlock i b
    let m := { m with stream := { m.stream with bits, tables := some t }, input }
    match r with
    | .done () => k t m
    | .empty => m.stop .input
    | .fault f => (.fault f, m)

/-! ### Stages that write -/

def metadata (m : Machine) : Flow × Machine :=
  if m.stream.remaining = 0 then m.goto .endBlock
  else if 8 ≤ m.stream.bits.count then
    { m with stream := { m.stream with bits := m.stream.bits.drop 8, remaining :=
      m.stream.remaining - 1 } }.next
  else
    let skip := min m.stream.remaining (m.input.fastEnd - m.input.consumed)
    if skip = 0 then
      m.read (.read 8) fun _ m =>
        { m with stream := { m.stream with remaining := m.stream.remaining - 1 } }.next
    else
      -- The bytes bypass the reservoir, so it must stop holding them as bits a
      -- whole-word refill read ahead.
      { m with
        stream :=
          { m.stream with bits := m.stream.bits.settle, remaining := m.stream.remaining - skip }
        input := { m.input with consumed := m.input.consumed + skip } }.next

def raw (outEnd : ℕ) (m : Machine) : Flow × Machine :=
  if m.stream.remaining = 0 then m.goto .endBlock
  else m.whenReady fun m =>
    if 8 ≤ m.stream.bits.count then
      let (byte, bits) := m.stream.bits.take 8
      { m with stream := { m.stream with bits } }.emit (UInt8.ofNat byte) next
    else
      let count := min (min m.stream.remaining (m.input.fastEnd - m.input.consumed))
        (outEnd - m.output.produced)
      if count = 0 then m.read (.read 8) fun byte m => m.emit (UInt8.ofNat byte) next
      else
        let m := { m with stream := { m.stream with bits := m.stream.bits.settle } }
        let bytes := (m.input.bytes.drop m.input.consumed).take count
        match if m.output.linear then .ok { m.stream with position := m.stream.position + count }
            else m.stream.writeRaw bytes with
        | .error e => m.fail e
        | .ok s =>
          let dst := if m.output.collect.isNone then
              m.output.bytes.copy m.output.produced count fun i => bytes.getD i 0
            else m.output.bytes
          next {
            stream := { s with remaining := s.remaining - count }
            input := { m.input with consumed := m.input.consumed + count }
            output := { m.output with bytes := dst, produced := m.output.produced + count } }

/-- Enters the command loop, and goes on unless it left the stage. -/
def enterFast (env : Env) (fuel outEnd : ℕ) (m : Machine) (k : Machine → Flow × Machine) :
    Option (Flow × Machine) :=
  match m.stream.fast env fuel outEnd m.input m.output with
  | none => none
  | some (.error f, stream, input, output) => some (.fault f, { stream, input, output })
  | some (.ok (), stream, input, output) =>
    let m' : Machine := { stream, input, output }
    some (if stream.stage = m.stream.stage then k m' else m'.next)

/-- The next command, byte by byte. -/
def slowCommand (m : Machine) : Flow × Machine :=
  match m.stream.tables with
  | none => m.fail .internalInvariant
  | some t => m.prepare t 1 fun t m =>
    m.read ((t.trees 1).decode (t.blocks 1).current) fun symbol m =>
      let t := t.setBlock 1 ((t.blocks 1).use 1)
      let (insert, copy) := commandCodes symbol
      { m with stream := { m.stream with
          tables := some t, implicit := symbol < 128, stage := .insertExtra insert copy } }.next

def command (env : Env) (fuel outEnd : ℕ) (m : Machine) : Option (Flow × Machine) :=
  if m.stream.remaining = 0 then some (m.goto .endBlock)
  else m.enterFast env fuel outEnd fun m =>
    if m.stream.remaining = 0 then m.goto .endBlock else m.slowCommand

/-- The input tail: literals of one block byte by byte. How many are written, and
whether they all are. -/
def tailLoop (t : Tables) (lut map : ℕ → ℕ) : ℕ → Machine → ℕ × Except Fault Bool × Machine
  | 0, m => (0, .ok true, m)
  | n + 1, m =>
    let (p1, p2) := m.stream.previous m.output
    let context := lut p1.toNat ||| lut (256 + p2.toNat)
    match exec ((t.trees 0).decode (map context)) m.stream.bits m.input with
    | (.empty, bits, input) => (0, .ok false, { m with stream := { m.stream with bits }, input })
    | (.fault f, bits, input) => (0, .error f, { m with stream := { m.stream with bits }, input })
    | (.done symbol, bits, input) =>
      let m := { m with stream := { m.stream with bits }, input }
      let remaining := m.stream.remaining
      match m.stream.emit m.output (UInt8.ofNat symbol) with
      | .error e => (0, .error (.error e), m)
      | .ok (s, output) =>
        -- The meta-block's count is taken down once the run is over.
        let (done, r, m) := tailLoop t lut map n { m with stream := { s with remaining }, output }
        (done + 1, r, m)

/-- Literals of the current block with their room settled once. -/
def literalTail (outEnd : ℕ) (t : Tables) (m : Machine) : Flow × Machine :=
  let block := t.blocks 0
  let room := outEnd - m.output.produced
  let run := min (min m.stream.literals block.remaining) (max room 1)
  let row := block.current * 64
  if (t.maps 0).values.len < row + 64 then m.fail .internalInvariant
  else
    let (done, r, m) := tailLoop t (contextLut (t.modes block.current))
      (fun i => (t.maps 0).values.get (row + i)) run m
    let m := { m with stream := { m.stream with
      tables := some (t.setBlock 0 (block.use done))
      remaining := m.stream.remaining - done, literals := m.stream.literals - done } }
    match r with
    | .error f => (.fault f, m)
    | .ok true => m.next
    | .ok false => m.stop .input

/-- The next literals of the insert run, byte by byte. -/
def slowLiterals (outEnd : ℕ) (m : Machine) : Flow × Machine :=
  m.whenReady fun m => match m.stream.tables with
  | none => m.fail .internalInvariant
  | some t => m.prepare t 0 fun t m =>
    if m.input.consumed + 8 ≤ m.input.fastEnd then
      -- The bulk loop stopped at a boundary it does not cross; one byte here lets
      -- it resume after it.
      let context := t.context (m.stream.previous m.output)
      let tree := (t.maps 0).values.get ((t.blocks 0).current * 64 + context)
      m.read ((t.trees 0).decode tree) fun byte m =>
        let m :=
          { m with stream := { m.stream with tables := some (t.setBlock 0 ((t.blocks 0).use 1)) } }
        m.emit (UInt8.ofNat byte) fun m =>
          { m with stream := { m.stream with literals := m.stream.literals - 1 } }.next
    else m.literalTail outEnd t

def literals (env : Env) (fuel outEnd : ℕ) (m : Machine) : Option (Flow × Machine) :=
  if m.stream.literals = 0 then
    some (m.goto (if m.stream.remaining = 0 then .endBlock else .distance))
  else match m.output.ready with
  | .error e => some (m.fail e)
  | .ok false => some (m.stop .output)
  | .ok true =>
    -- Entering the bulk loop is worth it only if it can refill at all.
    if m.input.consumed + 8 ≤ m.input.fastEnd then
      m.enterFast env fuel outEnd fun m =>
        if m.stream.literals = 0 then m.next else m.slowLiterals outEnd
    else some (m.slowLiterals outEnd)

def distance (m : Machine) : Flow × Machine :=
  if m.stream.implicit then
    { m with stream := { m.stream with
        distanceCode := 0, distance := m.stream.cache.recent 0, stage := .resolve } }.next
  else match m.stream.tables with
  | none => m.fail .internalInvariant
  | some t => m.prepare t 2 fun t m =>
    let context := min (m.stream.copy - 2) 3
    let tree := (t.maps 1).values.get ((t.blocks 2).current * 4 + context)
    m.read ((t.trees 2).decode tree) fun symbol m =>
      let t := t.setBlock 2 ((t.blocks 2).use 1)
      { m with stream := { m.stream with
          tables := some t, distanceCode := symbol, stage := .distanceExtra symbol } }.next

/-- Pushes the distance unless it is the most recent one already. -/
def pushDistance (s : Stream) : Stream :=
  if s.distanceCode ≠ 0 then { s with cache := s.cache.push s.distance } else s

/-- Saves the history a prefix reference reads after it would be overwritten. -/
def savePrefixHistory (m : Machine) (available length : ℕ) : Except (DecodeError × Stream) Stream :=
  let s := { m.stream with prefixHistory := m.stream.prefixHistory.clear }
  match s.memory.reserve 1 s.prefixHistory length with
  | .error e => .error (e, s)
  | .ok (memory, saved) =>
    let (get, len) := s.history m.output
    let start := s.position - available
    .ok { s with memory, prefixHistory :=
      saved.extend length fun i => get (historyIndex len (start + i)) }

def resolve (env : Env) (m : Machine) : Flow × Machine :=
  let s := m.stream
  let available := min s.position s.maxBackward
  let prefixLen := env.prefixLen
  if available < s.distance ∧ s.distance - available ≤ prefixLen then
    let offset := prefixLen - (s.distance - available)
    if s.remaining < s.copy then m.fail (.invalidData .dictionaryReference)
    else
      let length := min (s.copy - (prefixLen - offset)) available
      match if s.maxBackward < s.distance then m.savePrefixHistory available length else .ok s with
      | .error (e, s) => { m with stream := s }.fail e
      | .ok s => { m with stream := { pushDistance s with stage := .prefixRun offset offset } }.next
  else if available < s.distance then
    match s.tables with
    | none => m.fail .internalInvariant
    | some t =>
      match env.resolveWord (s.distance - available - prefixLen - 1) s.copy
        (t.context (s.previous m.output)) with
      | .error e => m.fail e
      | .ok word =>
        if s.remaining < word.length then m.fail (.invalidData .metaBlock)
        -- Zero-output references can otherwise repeat using zero-bit trees alone.
        else if word.length = 0 ∧ s.distance ≤ 120 then m.fail (.invalidData .dictionaryReference)
        else { m with stream := { s with
            tables := some { t with scratch := word, scratchPos := 0 },
              stage := .dictionary } }.next
  else if s.remaining < s.copy then m.fail (.invalidData .metaBlock)
  else { m with stream := { pushDistance s with stage := .copy } }.next

/-- Copies `n` bytes of history and delivers them. -/
def copyBytes (outEnd n : ℕ) (m : Machine) : Except DecodeError Machine :=
  let s := m.stream
  let stop := s.position + n
  if m.output.linear then
    let historyEnd := Output.historyEnd s.position s.remaining outEnd
    let (get, position, flushed, output) :=
      copyRing historyEnd s.distance n n m.output.bytes.get s.position s.position m.output
    let (_, output) := flushRing s.ring.get s.ring.len position flushed output
    .ok { m with
      stream := { s with position }
      output := { output with bytes := { m.output.bytes with get } } }
  else match s.repeatGrowing stop with
  | .error e => .error e
  | .ok (some s') =>
    let (_, output) := flushRing s'.ring.get s'.ring.len s'.position s.position m.output
    .ok { m with stream := s', output }
  | .ok none => match s.ensureRing stop with
    | .error e => .error e
    | .ok s =>
      let (get, position, flushed, output) :=
        copyRing s.ring.len s.distance n n s.ring.get s.position s.position m.output
      let (_, output) := flushRing get s.ring.len position flushed output
      .ok { m with stream := { s with ring := { s.ring with get }, position }, output }

def copy (outEnd : ℕ) (m : Machine) : Flow × Machine :=
  if m.stream.copy = 0 then m.goto .command
  else m.whenReady fun m =>
    let n := min m.stream.copy (outEnd - m.output.produced)
    if u64Max < m.stream.position + n then m.fail .sizeOverflow
    else match m.copyBytes outEnd n with
    | .error e => m.fail e
    | .ok m =>
      let m := { m with stream := { m.stream with
        copy := m.stream.copy - n, remaining := m.stream.remaining - n } }
      if m.stream.copy ≠ 0 then
        match m.output.ready with
        | .error e => m.fail e
        | .ok _ => m.stop .output
      else m.goto .command

/-- Writes `bytes` to the history and delivers them. -/
def writeBytes (bytes : List UInt8) (m : Machine) : Except DecodeError Machine :=
  let s := m.stream
  let stop := s.position + bytes.length
  if m.output.linear then
    let dst := m.output.bytes.copy m.output.produced bytes.length fun i => bytes.getD i 0
    let (_, output) :=
      flushRing s.ring.get s.ring.len stop s.position { m.output with bytes := dst }
    .ok { m with stream := { s with position := stop }, output }
  else match s.ensureRing stop with
  | .error e => .error e
  | .ok s =>
    let (get, position, flushed, output) :=
      writeRing s.ring.len bytes.length bytes s.ring.get s.position s.position m.output
    let (_, output) := flushRing get s.ring.len position flushed output
    .ok { m with stream := { s with ring := { s.ring with get }, position }, output }

def prefixRun (env : Env) (outEnd offset start : ℕ) (m : Machine) : Flow × Machine :=
  if m.stream.copy = 0 then m.goto .command
  else if offset = env.prefixLen then
    m.goto (if m.stream.distance ≤ m.stream.maxBackward then .copy else .prefixHistory 0 start)
  else m.whenReady fun m =>
    let run := env.prefixRun offset
    if run.isEmpty then m.fail (.invalidData .dictionaryReference)
    else
      let n := min (min run.length m.stream.copy) (outEnd - m.output.produced)
      if u64Max < m.stream.position + n then m.fail .sizeOverflow
      else match m.writeBytes (run.take n) with
      | .error e => m.fail e
      | .ok m => { m with stream := { m.stream with
          copy := m.stream.copy - n, remaining := m.stream.remaining - n
          stage := .prefixRun (offset + n) start } }.next

def prefixHistory (offset start : ℕ) (m : Machine) : Flow × Machine :=
  if m.stream.copy = 0 then m.goto .command
  else if offset = m.stream.prefixHistory.len then m.goto (.prefixRun start start)
  else m.whenReady fun m =>
    m.emit (m.stream.prefixHistory.get offset) fun m =>
      { m with stream := { m.stream with
          copy := m.stream.copy - 1, stage := .prefixHistory (offset + 1) start } }.next

def dictionary (m : Machine) : Flow × Machine :=
  match m.stream.tables with
  | none => m.fail .internalInvariant
  | some t =>
    if t.scratchPos = t.scratch.length then m.goto .command
    else m.whenReady fun m =>
      let byte := t.scratch.getD t.scratchPos 0
      let t := { t with scratchPos := t.scratchPos + 1 }
      { m with stream := { m.stream with tables := some t } }.emit byte next

/-! ### The machine -/

/-- One turn of the loop; `fuel` bounds the command loop inside it. -/
def round (env : Env) (fuel outEnd : ℕ) (m : Machine) : Option (Flow × Machine) :=
  match m.stream.stage with
  | .metadata => some m.metadata
  | .raw => some (m.raw outEnd)
  | .command => m.command env fuel outEnd
  | .literals => m.literals env fuel outEnd
  | .distance => some m.distance
  | .resolve => some (m.resolve env)
  | .copy => some (m.copy outEnd)
  | .dictionary => some m.dictionary
  | .prefixRun offset start => some (m.prefixRun env outEnd offset start)
  | .prefixHistory offset start => some (m.prefixHistory offset start)
  | .endBlock => some (m.goto (if m.stream.last then .endOfMember else .metaBlock))
  | .endOfMember => some (match m.readStage env with
    | (.next, m) => m.stop .member
    | r => r)
  | _ => some (m.readStage env)

/-- Turns of the machine until it stops. -/
def runStages (env : Env) (outEnd : ℕ) : ℕ → Machine → Option (Except Fault Stop × Machine)
  | 0, _ => none
  | fuel + 1, m =>
    match m.round env fuel outEnd with
    | none => none
    | some (.next, m) => runStages env outEnd fuel m
    | some (.stop reason, m) => some (.ok reason, m)
    | some (.fault f, m) => some (.error f, m)

/-- One call's run of the current member. -/
def run (env : Env) (fuel : ℕ) (m : Machine) : Option (Except Fault Stop × Machine) :=
  match m.runStages env m.output.fastEnd fuel with
  | none => none
  | some (r, m) =>
    if r = .ok .member ∨ r = .ok .output then
      let (bits, input) := m.stream.bits.unread m.input
      some (r, { m with stream := { m.stream with bits }, input })
    else some (r, { m with stream := { m.stream with bits := m.stream.bits.settle } })

end Machine
end Mbrotli
