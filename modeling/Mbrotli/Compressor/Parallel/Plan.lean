/-
# Plans of parallel batches

A plan cuts the input into segments of one size and deals them to tasks, consecutive
segments to each. `ParallelCompressor.plan` computes it with checked 64-bit arithmetic, and
`prepareTasks` the tasks' shares.
-/
import Mbrotli.Compressor.Core.Session
import Mbrotli.Shared.Io

namespace Mbrotli.Parallel

/-- Failure of planning, of a task or of assembly. -/
inductive ParallelEncodeError where
  | batchFailed (failure : ParallelEncodeError)
  | config
  | sizeOverflow
  | allocation
  | memoryStagingLimit
  | workerMemoryLimit
  | sourceMetadata (source : IoError)
  | sourceChanged
  | sourceRead (task segment : ℕ) (source : IoError)
  | encode (task segment : ℕ) (source : Compressor.EncodeError)
  | staging (task : ℕ) (source : IoError)
  | taskAbandoned (task : ℕ)
  | taskPanicked (task : ℕ)
  | cancelled
  | tasksAlreadyTaken
  | notReady
  | fragmentInvariant (message : String)
  | assemblyIo (bytesWritten : ℕ) (source : IoError)
  deriving DecidableEq, Repr

/-- `checked_add` and `checked_mul` on 64-bit words. -/
def checked (n : ℕ) : Except ParallelEncodeError ℕ :=
  if n ≤ u64Max then .ok n else .error .sizeOverflow

theorem checked_ok {n m : ℕ} (h : checked n = .ok m) : m = n ∧ n ≤ u64Max := by
  rw [checked] at h
  by_cases hn : n ≤ u64Max
  · rw [if_pos hn] at h
    cases h
    exact ⟨rfl, hn⟩
  · rw [if_neg hn] at h
    cases h

/-! ### Configuration -/

/-- 64 KiB to 16 MiB. -/
structure SegmentSize where
  get : ℕ
  lower : 64 <<< 10 ≤ get
  upper : get ≤ 16 <<< 20

def SegmentSize.tryFrom (bytes : ℕ) : Option SegmentSize :=
  if h : 64 <<< 10 ≤ bytes ∧ bytes ≤ 16 <<< 20 then some ⟨bytes, h.1, h.2⟩ else none

theorem SegmentSize.tryFrom_eq_some {bytes : ℕ} {size : SegmentSize} :
    tryFrom bytes = some size ↔ size.get = bytes := by
  obtain ⟨get, lower, upper⟩ := size
  rw [tryFrom]
  split
  · rw [Option.some_inj, SegmentSize.mk.injEq, eq_comm]
  · rename_i hout
    exact iff_of_false (fun h => by cases h) fun h => hout (h ▸ ⟨lower, upper⟩)

structure TaskCount where
  get : ℕ
  pos : 0 < get

inductive SourceConsistency where
  | assumeImmutable
  | verifyLength
  | verifyLengthAndIdentity
  deriving DecidableEq, Repr

structure ParallelConfig where
  segmentSize : SegmentSize := ⟨4 <<< 20, by decide, by decide⟩
  minimumParallelSize : ℕ := 8 <<< 20
  aggregateMemoryLimit : Option ℕ := none
  maxRetainedWorkers : ℕ := 0
  sourceConsistency : SourceConsistency := .verifyLengthAndIdentity

inductive Staging where
  | memory (maxTotalBytes : ℕ)
  | directory
  deriving DecidableEq, Repr

structure BatchConfig where
  taskCount : TaskCount
  staging : Staging

/-! ### Planning -/

structure Plan where
  tasks : ℕ
  serial : Bool
  segmentSize : ℕ
  inputBytes : ℕ
  segmentCount : ℕ
  maximumStagedBytes : ℕ
  deriving DecidableEq, Repr

/-- `size_of::<Descriptor>()`. -/
def descriptorSize : ℕ := 40

def stagingMemoryBound (payload segments : ℕ) : Except ParallelEncodeError ℕ := do
  let descriptors ← checked (segments * descriptorSize)
  checked (payload + descriptors)

/-- Twice the raw bytes and 1 KiB for each part. -/
def stagedBound (len parts : ℕ) : Except ParallelEncodeError ℕ := do
  let doubled ← checked (len * 2)
  let headers ← checked (parts * 1024)
  checked (doubled + headers)

/-- What a worker takes, by the quality. -/
def workspaceScale (quality : ℕ) : ℕ × ℕ :=
  if quality ≤ 1 then (4 <<< 20, 16) else if quality ≤ 4 then (64 <<< 20, 128)
    else (256 <<< 20, 256)

/-- The memory the running tasks are estimated to take. -/
def activeWorkspace (quality segment tasks segments : ℕ) : Except ParallelEncodeError ℕ := do
  let (base, scale) := workspaceScale quality
  let perWorker ← checked (segment * scale) >>= fun n => checked (n + base)
  let metadata ← checked (segments * descriptorSize)
  checked (perWorker * tasks) >>= fun n => checked (n + metadata) >>= fun n =>
    checked (tasks * 4096) >>= fun t => checked (n + t) >>= fun n => checked (n + (128 <<< 10))

/-- The payload that is staged in memory. -/
def stagingMemory (staging : Staging) (staged segments : ℕ) : Except ParallelEncodeError ℕ :=
  match staging with
  | .memory maxTotalBytes => do
    let required ← stagingMemoryBound staged segments
    if maxTotalBytes < required then .error .memoryStagingLimit else .ok staged
  | .directory => .ok 0

/-- A parallel compressor: its settings and its idle workers. -/
structure ParallelCompressor (W : Type) where
  encoder : Compressor.EncoderConfig
  parallel : ParallelConfig
  workers : List W := []

variable {W : Type}

/-- The number of segments of an input. -/
def segments (len z : ℕ) : ℕ := len / z + if len % z = 0 then 0 else 1

def ParallelCompressor.plan (c : ParallelCompressor W) (retainedBytes : List W → ℕ) (len : ℕ)
    (config : BatchConfig) :
    Except ParallelEncodeError Plan := do
  let z := c.parallel.segmentSize.get
  let count := segments len z
  let tasks := min count config.taskCount.get
  let staged ← stagedBound len (max count 1)
  let active ← activeWorkspace c.encoder.quality z tasks count
  let staging ← stagingMemory config.staging staged count
  let aggregate ← checked (active + staging) >>= fun n => checked (n + retainedBytes c.workers)
  if c.parallel.aggregateMemoryLimit.any (· < aggregate) then .error .workerMemoryLimit
  else
    let _maximumFinal ← checked (staged + 1)
    .ok
      { tasks
        serial := (len < c.parallel.minimumParallelSize ∧ len ≤ z) ∨ len = 0
        segmentSize := z
        inputBytes := len
        segmentCount := count
        maximumStagedBytes := staged }

namespace Plan

/-- The bytes of a segment. -/
def sourceRange (plan : Plan) (segment : ℕ) : Except ParallelEncodeError (ℕ × ℕ) := do
  let start ← checked (segment * plan.segmentSize)
  let stop := min (min (start + plan.segmentSize) u64Max) plan.inputBytes
  if stop ≤ start then .error (.fragmentInvariant "invalid source range") else .ok (start, stop)

/-- How many segments task `id` gets. -/
def share (plan : Plan) (id : ℕ) : ℕ :=
  plan.segmentCount / plan.tasks + if id < plan.segmentCount % plan.tasks then 1 else 0

end Plan

/-- A task's segments, and the most bytes it may stage. -/
structure Share where
  start : ℕ
  stop : ℕ
  bound : ℕ
  deriving DecidableEq, Repr

/-- The bound on what the segments from `start` to `stop` are staged as. -/
def shareBound (plan : Plan) (start stop : ℕ) : Except ParallelEncodeError ℕ := do
  let (startByte, _) ← plan.sourceRange start
  let (_, endByte) ← plan.sourceRange (stop - 1)
  stagedBound (endByte - startByte) (stop - start)

/-- The shares of the next `n` tasks, whose segments start at `segment`. Staging is created
for each in turn, which may fail. -/
def prepareTasks (plan : Plan) (createStaging : ℕ → Except IoError Unit) : (n id segment : ℕ) →
    Except ParallelEncodeError (List Share)
  | 0, _, _ => .ok []
  | n + 1, id, segment => do
    let stop ← checked (segment + plan.share id)
    let bound ← shareBound plan segment stop
    match createStaging id with
    | .error source => .error (.staging id source)
    | .ok () =>
      let rest ← prepareTasks plan createStaging n (id + 1) stop
      .ok (⟨segment, stop, bound⟩ :: rest)

end Mbrotli.Parallel
