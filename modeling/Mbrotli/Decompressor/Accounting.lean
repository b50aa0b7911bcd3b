/-
# Workspace accounting

Over any history of one decoder, `Memory.live` is the bytes of all the buffers the
decoder owns, and no more than the configured budget while an operation is under way.
`GrowthRefused` is what a growth that the budget refuses leaves, for every place that
grows a buffer.
-/
import Mbrotli.Decompressor.Core.Sound.Refusal
import Mbrotli.Decompressor.History

namespace Mbrotli

/-- A refused growth leaves the capacity of the buffer, the history, the position and what
is live. Buffers that are to be filled anew (the saved history, the distance table, the
values of a context map) were cleared before. Where one reading turn grows twice, a root
and then further tables, the first growth may have been granted. -/
structure GrowthRefused : Prop where
  /-- The history, for one byte. -/
  emit : ∀ (m : Machine) (byte : UInt8) (k : Machine → Flow × Machine) (e : DecodeError),
    m.stream.emit m.output byte = .error e → m.emit byte k = (.fault (.error e), m)
  /-- The history, at the stages that write in bulk. -/
  write : ∀ (env : Env) (fuel outEnd : ℕ) (m m' : Machine) (limit : ℕ),
    Machine.Writing m.stream.stage →
    m.round env fuel outEnd = some (.fault (.error (.memoryLimitExceeded limit)), m') →
    m.stream.Unchanged m'.stream
  /-- The history, in the command loop. -/
  insert : ∀ (c : FastEnv) (l : Fast) (n : ℕ), Phase.Refuses l (c.insert l n)
  word : ∀ (c : FastEnv) (l : Fast) (available : ℕ), Phase.Refuses l (c.word l available)
  copy : ∀ (c : FastEnv) (l : Fast), Phase.Refuses l (c.copy l)
  /-- The saved history of a prefix reference. -/
  saved : ∀ (m : Machine) (available length : ℕ) (e : DecodeError) (s : Stream),
    m.savePrefixHistory available length = .error (e, s) →
      m.stream.Unchanged s ∧ s.prefixHistory.cap = m.stream.prefixHistory.cap
  /-- The tables of a meta-block, and in them the distance table. -/
  tables : ∀ (program : Program) (s s' : Stream) (header : MetaBlock) (limit : ℕ),
    s.enterMetaBlock program header = .error (.memoryLimitExceeded limit, s') → s.Unchanged s' ∧
    s'.tables = s.tables
  distances : ∀ (s s' : Stream) (t : Tables) (params limit : ℕ),
    s.setDistances t params = .error (.memoryLimitExceeded limit, s') → s.Unchanged s' ∧
      s'.tables = some { t with
        distances := .fromHeader params s.large, distanceTableLayout := none, distanceTable :=
          t.distanceTable.clear }
  /-- The values and the code of a context map. -/
  map : ∀ (m : ContextMap) (size : ℕ) (builder : Builder) (memory : Memory),
    (m.step size builder memory).Returns fun r => ∀ limit m' builder' memory',
      r = .error (.memoryLimitExceeded limit, m', builder', memory') →
        (memory' = memory ∧ m'.tree = m.tree ∧
          (m'.values = m.values ∨ m'.values = m.values.clear)) ∨
        (m.tree.prepare 1 (m.trees + m.run) memory = .ok (memory', m'.tree) ∧ m'.values = m.values)
  /-- The two codes of a block header. -/
  block : ∀ (b : Block) (builder : Builder) (memory : Memory),
    (b.headerStep builder memory).Returns fun r => ∀ limit b' builder' memory',
      r = .error (.memoryLimitExceeded limit, b', builder', memory') →
        (memory' = memory ∧ b'.types = b.types ∧ b'.lengths = b.lengths) ∨
        (b.types.prepare 1 (b.count + 2) memory = .ok (memory', b'.types) ∧
          b'.lengths = b.lengths) ∨
        (b.lengths.prepare 1 numBlockLenSymbols memory = .ok (memory', b'.lengths) ∧
          b'.types = b.types)
  /-- The roots of the three groups, one group after the other. -/
  roots : ∀ (s s' : Stream) (groups : List (Fin 3)) (t : Tables) (e : DecodeError),
    s.prepareTrees t groups = .error (e, s') → ∃ before group after memory t',
    groups = before ++ group :: after ∧
      s.prepareTrees t before = .ok { s with memory, tables := some t', stage := .trees 0 0 } ∧
      (t'.trees group).prepare (t'.treeCount group) (t'.alphabet group) memory = .error e ∧
      s' = { s with memory, tables := some t' }
  /-- A code of a group. -/
  tree : ∀ (s s' : Stream) (t : Tables) (group : Fin 3) (index limit : ℕ),
    s.buildTree t group index = .error (.memoryLimitExceeded limit, s') → s.Unchanged s' ∧
    s'.tables = some t
  /-- The further tables of a code. -/
  codes : ∀ (b : Builder) (g g' : Group) (start limit : ℕ) (m m' : Memory),
    b.fill g start m = .error (.memoryLimitExceeded limit, m', g') → m' = m ∧ g' = g
  /-- Whatever a stage that only reads may grow, it leaves the history alone. -/
  reading : ∀ (env : Env) (s : Stream), (s.readStage env).Returns fun u =>
    s.SameHistory (Stream.Update.state u)

theorem growthRefused : GrowthRefused where
  emit _ _ _ _ h := Machine.emit_refused h
  write _ _ _ _ _ _ hs he := Machine.write_refused hs he
  insert _ _ n := FastEnv.insert_refused n
  word _ _ available := FastEnv.word_refused available
  copy _ _ := FastEnv.copy_refused
  saved _ _ _ _ _ h := Machine.savePrefixHistory_refused h
  tables _ _ _ _ _ h := Stream.enterMetaBlock_refused h
  distances _ _ _ _ _ h := Stream.setDistances_refused h
  map m size builder memory := m.step_refused size builder memory
  block b builder memory := b.headerStep_refused builder memory
  roots _ _ _ _ _ h := Stream.prepareTrees_refused h
  tree _ _ _ _ _ _ h := Stream.buildTree_refused h
  codes b g _ start _ m _ h := b.fill_refused g start m h
  reading env _ := Stream.readStage_history env

/-- A decoder about to read a context map of 128 values where it has 64, with no budget
for more. -/
def mapBefore : Machine where
  stream :=
    { stage := .maps 0, memory := { live := 64, limit := some 64 }
      tables :=
      some { blocks := fun _ => { count := 2 }, maps := fun _ =>
      { values := ⟨fun _ => 1, 64, 64⟩ } } }
  input := .new [0] 0 none
  output :=
    { bytes := ⟨fun _ => 0, 0⟩, collect := none, linear := false,
      produced := 0, totalBefore := 0, limit := none
      exact := .unknown }

/-- The values of the first context map: how many there are, and room. -/
def Machine.mapValues (m : Machine) : Option (ℕ × ℕ) :=
  m.stream.tables.map fun t => ((t.maps 0).values.len, (t.maps 0).values.cap)

/-- The growth is refused, and the 64 values are gone. -/
theorem map_cleared : mapBefore.mapValues = some (64, 64) ∧
    (mapBefore.readStage ⟨⟨fun _ => 0, 0⟩, {}, none⟩).1 =
    .fault (.error (.memoryLimitExceeded 64)) ∧
    (mapBefore.readStage ⟨⟨fun _ => 0, 0⟩, {}, none⟩).2.mapValues = some (0, 64) := ⟨rfl, rfl, rfl⟩

namespace History

/-- The budget's count is exact after every operation and every call, within the limit
during an operation, and unchanged by what the limit refuses. -/
theorem accounted {program : Program} {op : Option OperationState} {d : Decompressor}
    (h : History program op d) :
    d.workspace.memory.live = d.workspace.owned program ∧
      (op ≠ none → ∀ limit, d.config.limits.workspace = some limit →
        d.workspace.memory.live ≤ limit) ∧
      GrowthRefused := by
  refine ⟨h.idle.live, fun hop limit hlimit => ?_, growthRefused⟩
  cases op with
  | none => exact absurd rfl hop
  | some op => exact h.operating.stream.within limit (h.operating.budget.trans hlimit)

/-- A decoder with a budget of a hundred bytes. -/
def budgeted : Decompressor := { config := { limits := { workspace := some 100 } } }

/-- One call that decodes five stored bytes under a budget. -/
theorem accounted_stored : ∃ op d, History ⟨fun _ => 0, 0⟩ (some op) d ∧
    d.workspace.memory.live = 64 ∧
    d.workspace.memory.live = d.workspace.owned ⟨fun _ => 0, 0⟩ ∧
    ∀ limit, d.config.limits.workspace = some limit → d.workspace.memory.live ≤ limit := by
  have hstart : OperationState.start budgeted .unknown =
      .ok ({ exact := .unknown },
        { budgeted with workspace := ({} : Stream).reset budgeted.config, active := true }) := rfl
  have he : (({ exact := .unknown } : OperationState).process ⟨fun _ => 0, 0⟩ 40
      { budgeted with workspace := ({} : Stream).reset budgeted.config, active := true } none
      [0x0b, 0x02, 0x80, 104, 101, 108, 108, 111, 0x03] ⟨fun _ => 0, 16⟩ .finish .slice).map
      (fun r => (r.1, r.2.2.1.workspace.memory.live)) = some (.ok ⟨9, 5, .finished⟩, 64) := by
        decide +kernel
  obtain ⟨⟨r, op, d, written⟩, hp, hr⟩ := Option.map_eq_some_iff.mp he
  simp only [Prod.mk.injEq] at hr
  have h := History.call (.start (.new _ _) hstart) hp
  obtain ⟨h1, h2, -⟩ := accounted h
  exact ⟨op, d, h, hr.2, h1, h2 (by simp)⟩

end History
end Mbrotli
