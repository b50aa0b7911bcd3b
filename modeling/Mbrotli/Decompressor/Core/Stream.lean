/-
# The decoder's state and its reading stages

`Stream` is the resumable state of one operation on a workspace that outlives it.
`Stream.readStage` is what the stages that only read do: a field or a round of a
nested reader, and the update it leads to. The nested loops of the source (block
headers, context maps, code descriptions) come back to the stage they left with
nothing done before, so here a round of theirs is a round of the stage machine.

An update can be refused by the workspace limit; it then leaves what it had already
grown, so `readStage` returns the state of a failure too.
-/
import Mbrotli.Decompressor.Core.ContextMap
import Mbrotli.Decompressor.Core.Dictionary
import Mbrotli.Decompressor.Core.Distance
import Mbrotli.Decompressor.Core.Header
import Mbrotli.Decompressor.Core.Ring

namespace Mbrotli

def cells : List ℕ := [0, 1, 0, 1, 8, 9, 2, 16, 10, 17, 18]

inductive Stage where
  | window
  | metaBlock
  | metadata
  | raw
  | blocks (i : Fin 3)
  | distanceParams
  | modes (i : ℕ)
  | maps (i : Fin 2)
  | trees (group : Fin 3) (index : ℕ)
  | command
  | insertExtra (insert copy : ℕ)
  | copyExtra (copy : ℕ)
  | literals
  | distance
  | distanceExtra (symbol : ℕ)
  | distanceExtraHigh (symbol low : ℕ)
  | resolve
  | copy
  | dictionary
  | prefixRun (offset start : ℕ)
  | prefixHistory (offset start : ℕ)
  | endBlock
  | endOfMember
  deriving DecidableEq, Repr

inductive Stop where
  | input | output | member
  deriving DecidableEq, Repr

/-- One entry of the command table: both length bases, both extra-bit widths, the
implicit distance flag and the distance context. -/
structure Command where
  insertExtra : ℕ
  copyExtra : ℕ
  copyCode : ℕ
  distanceContext : ℕ
  implicit : Bool
  insertBase : ℕ
  copyBase : ℕ

/-- The insert and the copy length code of a command symbol. -/
def commandCodes (symbol : ℕ) : ℕ × ℕ :=
  let cell := cells.getD (symbol >>> 6) 0
  ((cell / 8 % 4) * 8 + (symbol >>> 3) % 8, (cell % 4) * 8 + symbol % 8)

def commands (symbol : ℕ) : Command :=
  let (insert, copy) := commandCodes symbol
  let base := copyBase.getD copy 0
  { insertExtra := insExtra.getD insert 0, copyExtra := copyExtra.getD copy 0, copyCode := copy
    distanceContext := if 4 < base then 3 else base - 2
    implicit := symbol < 128, insertBase := insBase.getD insert 0, copyBase := base }

/-- What only a compressed meta-block needs. -/
structure Tables where
  builder : Builder := {}
  blocks : Fin 3 → Block := fun _ => {}
  modes : ℕ → ℕ := fun _ => 0
  maps : Fin 2 → ContextMap := fun _ => {}
  trees : Fin 3 → Group := fun _ => {}
  distances : DistanceLayout := {}
  distanceTable : Buffer Partial := .new {}
  /-- The layout the table was filled for. -/
  distanceTableLayout : Option DistanceLayout := none
  scratch : List UInt8 := []
  scratchPos : ℕ := 0

namespace Tables

def setBlock (t : Tables) (i : Fin 3) (b : Block) : Tables :=
  { t with blocks := Function.update t.blocks i b }

def setMap (t : Tables) (i : Fin 2) (m : ContextMap) : Tables :=
  { t with maps := Function.update t.maps i m }

def setTree (t : Tables) (i : Fin 3) (g : Group) : Tables :=
  { t with trees := Function.update t.trees i g }

/-- The context map of the next literal's or distance's block: its entries. -/
def mapSize (t : Tables) (i : Fin 2) : ℕ :=
  if i = 0 then (t.blocks 0).count <<< 6 else (t.blocks 2).count <<< 2

/-- The alphabet of a group's codes. -/
def alphabet (t : Tables) (group : Fin 3) : ℕ :=
  if group = 0 then 256 else if group = 1 then 704 else t.distances.alphabet

/-- The codes of a group, as the headers count them. -/
def treeCount (t : Tables) (group : Fin 3) : ℕ :=
  if group = 0 then (t.maps 0).trees else if group = 1 then (t.blocks 1).count else (t.maps 1).trees

/-- Literal context of the next byte: the block's context mode applied to the two
most recent output bytes. -/
def context (t : Tables) (p : UInt8 × UInt8) : ℕ :=
  let mode := t.modes (t.blocks 0).current
  contextLut mode p.1.toNat ||| contextLut mode (256 + p.2.toNat)

end Tables

structure Stream where
  bits : Bits := {}
  stage : Stage := .window
  memory : Memory := {}
  /-- Power-of-two history ring; its length never shrinks between operations. -/
  ring : Buffer UInt8 := .new 0
  /-- History bytes a prefix-crossing reference would overwrite before reading. -/
  prefixHistory : Buffer UInt8 := .new 0
  position : ℕ := 0
  windowSize : ℕ := 0
  maxBackward : ℕ := 0
  window : Option Window := none
  large : Bool := false
  last : Bool := false
  remaining : ℕ := 0
  /-- Created by the first compressed meta-block. -/
  tables : Option Tables := none
  literals : ℕ := 0
  copy : ℕ := 0
  implicit : Bool := false
  distance : ℕ := 0
  distanceCode : ℕ := 0
  cache : Cache := {}

namespace Stream

def retainedBytes (s : Stream) : ℕ := s.memory.live

/-- Transfers a completely collected member. -/
def takeCollected (s : Stream) : List UInt8 × Stream :=
  ((List.range (min s.position s.ring.len)).map s.ring.get,
    { s with ring := .new 0, memory := { s.memory with live := s.memory.live - s.ring.cap } })

/-- The collected prefix. -/
def collected (s : Stream) : List UInt8 := (List.range s.position).map s.ring.get

/-- Bytes the current meta-block still declares; zero outside a data meta-block. -/
def declaredRemaining (s : Stream) : ℕ :=
  match s.stage with
  | .window | .metaBlock | .metadata | .endBlock | .endOfMember => 0
  | _ => s.remaining

def reset (s : Stream) (config : DecoderConfig) : Stream :=
  { s with
    bits := {}, stage := .window
    tables := s.tables.map fun t => { t with builder := t.builder.reset }
    prefixHistory := s.prefixHistory.clear
    position := 0, window := none, cache := {}
    memory := { s.memory with limit := config.limits.workspace } }

/-- The compressed meta-block workspace, created on first use. -/
def ensureTables (program : Program) (s : Stream) : Except DecodeError (Tables × Stream) :=
  match s.tables with
  | some t => .ok (t, s)
  | none => match s.memory.reserve program.tablesSize (Buffer.new ()) 1 with
    | .error e => .error e
    | .ok (memory, _) => .ok ({}, { s with memory, tables := some {} })

/-- The state of a failure, or the state to go on with. -/
abbrev Update := Except (DecodeError × Stream) Stream

/-- The update a meta-block header leads to. -/
def enterMetaBlock (program : Program) (s : Stream) (header : MetaBlock) : Update :=
  match header with
  | .endOfStream => .ok { s with stage := .endOfMember }
  | .uncompressed length =>
    if u64Max < s.position + length then .error (.sizeOverflow, s)
    else .ok { s with remaining := length, last := false, stage := .raw }
  | .metadata length last => .ok { s with remaining := length, last, stage := .metadata }
  | .compressed length last =>
    if u64Max < s.position + length then .error (.sizeOverflow, s)
    else
      let s := { s with remaining := length, last }
      match s.ensureTables program with
      | .error e => .error (e, s)
      | .ok (t, s) =>
        let t := { t with blocks := fun i => (t.blocks i).reset, maps := fun i => (t.maps i).reset }
        .ok { s with tables := some t, stage := .blocks 0 }

/-- Takes over the distance parameters, refilling the table for a new layout. -/
def setDistances (s : Stream) (t : Tables) (params : ℕ) : Update :=
  let t := { t with distances := .fromHeader params s.large }
  if t.distanceTableLayout ≠ some t.distances ∧ !t.distances.isStandard then
    let t := { t with distanceTableLayout := none }
    match t.distances.fillTable t.distanceTable s.memory with
    | .error (e, distanceTable) => .error (e, { s with tables := some { t with distanceTable } })
    | .ok (memory, distanceTable) =>
      .ok { s with
        memory, stage := .modes 0
        tables := some { t with distanceTable, distanceTableLayout := some t.distances } }
  else .ok { s with tables := some t, stage := .modes 0 }

/-- Reserves the roots of the three groups, in order. -/
def prepareTrees (s : Stream) (t : Tables) : List (Fin 3) → Update
  | [] => .ok { s with tables := some t, stage := .trees 0 0 }
  | group :: rest =>
    match (t.trees group).prepare (t.treeCount group) (t.alphabet group) s.memory with
    | .error e => .error (e, { s with tables := some t })
    | .ok (memory, g) => prepareTrees { s with memory } (t.setTree group g) rest

/-- Builds code `index` of a group from the description just read. -/
def buildTree (s : Stream) (t : Tables) (group : Fin 3) (index : ℕ) : Update :=
  match t.builder.buildSlot (t.alphabet group) (t.trees group) index s.memory with
  | .error (e, memory, g) => .error (e, { s with memory, tables := some (t.setTree group g) })
  | .ok (maxSymbol, memory, g) =>
    let s := { s with memory, tables := some (t.setTree group g) }
    match if group = 2 then t.distances.validateSymbol maxSymbol else .ok () with
    | .error e => .error (e, s)
    | .ok () =>
      .ok { s with
        stage := if index + 1 < g.count then .trees group (index + 1)
          else if group < 2 then .trees (group + 1) 0 else .command }

/-- One round of a stage that only reads. -/
def readStage (env : Env) (s : Stream) : Reader Fault Update :=
  match s.stage, s.tables with
  | .window, _ => do
    let window ← Header.window env.config.window
    let windowSize := 2 ^ window.bits
    return .ok { s with
      large := window.encoding = .large, windowSize, maxBackward := windowSize - 16
      window := some window, stage := .metaBlock }
  | .metaBlock, _ => do
    let header ← Header.metablock
    return s.enterMetaBlock env.program header
  | .endOfMember, _ => do
    .toByte InvalidDataKind.padding.fault
    return .ok s
  | .blocks i, some t => do
    let r ← (t.blocks i).headerStep t.builder s.memory
    return match r with
    | .error (e, b, builder, memory) =>
      .error (e, { s with memory, tables := some ({ t with builder }.setBlock i b) })
    | .ok (done, b, builder, memory) =>
      .ok { s with
        memory, tables := some ({ t with builder }.setBlock i b)
        stage := if !done then .blocks i else if i = 2 then .distanceParams else .blocks (i + 1) }
  | .distanceParams, some t => do
    let params ← .read 6
    return s.setDistances t params
  | .modes i, some t => do
    let value ← .read 2
    return .ok { s with
      tables := some { t with modes := Function.update t.modes i value }
      stage := if i + 1 = (t.blocks 0).count then .maps 0 else .modes (i + 1) }
  | .maps i, some t => do
    let r ← (t.maps i).step (t.mapSize i) t.builder s.memory
    return match r with
    | .error (e, m, builder, memory) =>
      .error (e, { s with memory, tables := some ({ t with builder }.setMap i m) })
    | .ok (done, m, builder, memory) =>
      let s := { s with memory }
      let t := { t with builder }
      if !done then .ok { s with tables := some (t.setMap i m) }
      else if i = 0
        then .ok { s with tables := some (t.setMap 0 m.detectTrivial), stage := .maps 1 }
      else s.prepareTrees (t.setMap 1 m) [0, 1, 2]
  | .trees group index, some t => do
    let (builder, done) ← t.builder.step (t.alphabet group)
    let t := { t with builder }
    return if done then s.buildTree t group index else .ok { s with tables := some t }
  | .insertExtra insert copy, _ => do
    let extra ← .read (insExtra.getD insert 0)
    let literals := insBase.getD insert 0 + extra
    if s.remaining < literals then .throw InvalidDataKind.metaBlock.fault
    else return .ok { s with literals, stage := .copyExtra copy }
  | .copyExtra copy, _ => do
    let extra ← .read (copyExtra.getD copy 0)
    return .ok { s with copy := copyBase.getD copy 0 + extra, stage := .literals }
  | .distanceExtra symbol, some t =>
    let width := t.distances.extraBits symbol
    if 32 < width then do
      let low ← .read 32
      return .ok { s with stage := .distanceExtraHigh symbol low }
    else do
      let extra ← .read width
      match t.distances.resolve symbol extra s.cache with
      | .error e => .throw (.error e)
      | .ok distance => return .ok { s with distance, stage := .resolve }
  | .distanceExtraHigh symbol low, some t => do
    let high ← .read (t.distances.extraBits symbol - 32)
    match t.distances.resolve symbol (low ||| (high <<< 32)) s.cache with
    | .error e => .throw (.error e)
    | .ok distance => return .ok { s with distance, stage := .resolve }
  | _, _ => .throw (.error .internalInvariant)

end Stream
end Mbrotli
