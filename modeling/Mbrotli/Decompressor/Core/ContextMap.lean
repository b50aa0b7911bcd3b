/-
# Context maps

`ContextMap.step` is a round of the resumable reader of one context map: the number
of trees, the zero-run prefix, the code, the entries with their zero runs, and the
move-to-front transform. Rounds commit complete fields only.
-/
import Mbrotli.Decompressor.Core.Block

namespace Mbrotli

inductive MapStage where
  | treeCount
  | runPrefix
  | tree
  | entries
  | repeat (width : ℕ)
  | transform
  | complete
  deriving DecidableEq, Repr

structure ContextMap where
  values : Buffer ℕ := .new 0
  trees : ℕ := 0
  stage : MapStage := .treeCount
  run : ℕ := 0
  index : ℕ := 0
  tree : Group := {}
  /-- Literal block types whose 64 contexts share a tree. -/
  trivialBlocks : ℕ → Bool := fun _ => false

namespace ContextMap

def reset (m : ContextMap) : ContextMap :=
  { m with stage := .treeCount, values := m.values.clear, trivialBlocks := fun _ => false }

/-- Marks each literal block type whose 64 contexts select one tree. -/
def detectTrivial (m : ContextMap) : ContextMap :=
  { m with trivialBlocks := fun block =>
      decide (block < m.values.len / 64 ∧ block < 256) &&
        (List.range 64).all fun i => m.values.get (block * 64 + i) = m.values.get (block * 64) }

/-- Moves the symbol at `index` to the front. -/
def moveToFront (symbols : ℕ → ℕ) (index : ℕ) : ℕ → ℕ :=
  fun i => if i = 0 then symbols index else if i ≤ index then symbols (i - 1) else symbols i

/-- The move-to-front transform of the values. -/
def inverseMoveToFront : List ℕ → (ℕ → ℕ) → List ℕ
  | [], _ => []
  | value :: rest, symbols => symbols value :: inverseMoveToFront rest (moveToFront symbols value)

/-- The values with `l` in their place. -/
def withValues (m : ContextMap) (l : List ℕ) : ContextMap :=
  { m with values := { m.values with get := fun i => l.getD i (m.values.get i) } }

/-- One round of `ContextMap::read`, and whether it completes the map. -/
def step (m : ContextMap) (size : ℕ) (builder : Builder) (memory : Memory) :
    Reader Fault
      (Except (DecodeError × ContextMap × Builder × Memory)
        (Bool × ContextMap × Builder × Memory)) :=
  match m.stage with
  | .treeCount => do
    let n ← Bits.uint8
    let m := { m with trees := n + 1, index := 0, values := m.values.clear }
    return if n = 0 then
      -- One tree: every context maps to it.
      match memory.resize 1 m.values size 0 with
      | .error e => .error (e, m, builder, memory)
      | .ok (memory, values) => .ok (true, { m with values, stage := .complete }, builder, memory)
    else
      match memory.reserve 1 m.values size with
      | .error e => .error (e, m, builder, memory)
      | .ok (memory, values) => .ok (false, { m with values, stage := .runPrefix }, builder, memory)
  | .runPrefix => do
    let flag ← .look 1
    if flag = 0 then do
      .skip 1
      return .ok (false, { m with run := 0, stage := .tree }, builder, memory)
    else do
      let n ← .look 5
      .skip 5
      return .ok (false, { m with run := (n >>> 1) + 1, stage := .tree }, builder, memory)
  | .tree => do
    let (builder, done) ← builder.step (m.trees + m.run)
    return if done then
      match builder.build (m.trees + m.run) memory m.tree with
      | .error (e, memory, tree) => .error (e, { m with tree }, builder, memory)
      | .ok (_, memory, tree) => .ok (false, { m with tree, stage := .entries }, builder, memory)
    else .ok (false, m, builder, memory)
  | .entries =>
    if m.index = size then return .ok (false, { m with stage := .transform }, builder, memory)
    else do
      let symbol ← m.tree.decodeRefilling
      if symbol ≠ 0 ∧ symbol ≤ m.run then
        return .ok (false, { m with stage := .repeat symbol }, builder, memory)
      else
        let value := if symbol = 0 then 0 else symbol - m.run
        if m.trees ≤ value then .throw InvalidDataKind.contextMap.fault
        else return .ok (false, { m with values := m.values.push value, index := m.index + 1 },
          builder, memory)
  | .repeat width => do
    let extra ← .read width
    let stop := m.index + 2 ^ width + extra
    if size < stop then .throw InvalidDataKind.contextMap.fault
    else return .ok (false,
      { m with values := m.values.resize stop 0, index := stop, stage := .entries },
      builder, memory)
  | .transform => do
    let mtf ← .read 1
    let m := if mtf ≠ 0 then m.withValues (inverseMoveToFront m.values.toList id) else m
    return .ok (true, { m with stage := .complete }, builder, memory)
  | .complete => return .ok (true, m, builder, memory)

end ContextMap
end Mbrotli
