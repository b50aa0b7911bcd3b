/-
# Parallel batches

The parties of a batch are its tasks and its coordinator, which share a completion slot
for each task, a channel of task ids and a cancellation flag. `Step` is one step of
one of them, with what the environment does in it: the source, the codec and the staging
answer or fail, a task may panic anywhere in its work, and calls come in any order.
-/
import Mbrotli.Compressor.Parallel.Plan
import Mathlib.Logic.Function.Basic

namespace Mbrotli.Parallel

variable {W : Type}

/-! ### Artifacts -/

structure Descriptor where
  segment : ℕ
  source : ℕ × ℕ
  offset : ℕ
  len : ℕ
  deriving DecidableEq, Repr

/-- What a task staged. Memory and files both return the bytes that were stored. -/
structure Artifact where
  storage : List UInt8 := []
  descriptors : List Descriptor := []
  len : ℕ := 0
  bound : ℕ
  deriving DecidableEq, Repr

/-- What the codec makes of a segment, which is never nothing: a fragment holds the
segment's first bytes verbatim, a stream its last meta-block. -/
structure Encoded where
  bytes : List UInt8
  nonempty : bytes ≠ []
  deriving DecidableEq, Repr

namespace Artifact

/-- Stages bytes, or fails as the storage does. -/
def append (a : Artifact) (bytes : List UInt8) (stored : Except IoError Unit) :
    Except IoError Artifact :=
  if u64Max < a.len + bytes.length ∨ a.bound < a.len + bytes.length then .error (.other 0)
  else match stored with
    | .error e => .error e
    | .ok () => .ok { a with storage := a.storage ++ bytes, len := a.len + bytes.length }

/-- Stages a segment and describes it. -/
def stage (a : Artifact) (segment : ℕ) (source : ℕ × ℕ) (bytes : List UInt8)
    (stored : Except IoError Unit) :
    Except IoError Artifact :=
  (a.append bytes stored).map fun b =>
    { b with descriptors := a.descriptors ++ [⟨segment, source, a.len, b.len - a.len⟩] }

end Artifact

/-! ### Tasks -/

/-- What a task answers. -/
abbrev Answer := Except ParallelEncodeError Artifact

structure Completion (W : Type) where
  result : Answer
  worker : Option W

/-- Where a task is. -/
inductive Phase where
  /-- Neither run nor dropped. -/
  | held
  /-- At the head of the loop over its segments, or behind the last. -/
  | segment (n : ℕ)
  | read (n : ℕ)
  /-- The source is read. -/
  | loaded (n : ℕ)
  | encode (n : ℕ)
  /-- The work returned, or its panic was caught. -/
  | caught (result : Except ParallelEncodeError Unit)
  | publish (answer : Answer) (abandoned : Bool)
  | send (answer : Answer) (abandoned : Bool)
  /-- A dropped task sets the flag last. -/
  | cancel (answer : Answer)
  | ended (answer : Answer)
  deriving DecidableEq

namespace Phase

/-- The task holds its end of the channel. -/
def holdsSender : Phase → Bool
  | cancel _ | ended _ => false
  | _ => true

/-- What the task answers, once that is settled. -/
def answer? : Phase → Option Answer
  | publish r _ | send r _ | cancel r | ended r => some r
  | _ => none

/-- The completion was put into the slot. -/
def isPublished : Phase → Bool
  | send _ _ | cancel _ | ended _ => true
  | _ => false

end Phase

structure Task (W : Type) where
  range : ℕ × ℕ
  worker : Option W
  artifact : Option Artifact
  phase : Phase

/-- What the environment does in a step of a task's work. -/
inductive Choice (W : Type) where
  /-- Nothing. -/
  | go
  /-- The segment is read, into the worker's memory if it is a source's. -/
  | read (worker : W)
  /-- Memory for the segment was refused. -/
  | refused
  | readFails (source : IoError)
  /-- The codec answers, and the storage takes its bytes or fails. -/
  | encoded (worker : W) (result : Except Compressor.EncodeError Encoded)
      (stored : Except IoError Unit)
  | panic

namespace Task

/-- The caller runs the task. -/
def run (t : Task W) : Task W :=
  { t with
    phase :=
      if t.worker.isNone then .caught (.error (.fragmentInvariant "missing worker"))
      else if t.artifact.isNone then .caught (.error (.fragmentInvariant "missing artifact"))
      else .segment t.range.1 }

/-- What the codec's answer for segment `n` makes of the task. -/
def afterEncode (t : Task W) (id n : ℕ) (a : Artifact) (source : ℕ × ℕ) (worker : W)
    (result : Except Compressor.EncodeError Encoded) (stored : Except IoError Unit) : Task W :=
  match result with
  | .error e => { t with worker := some worker, phase := .caught (.error (.encode id n e)) }
  | .ok encoded =>
    match a.stage n source encoded.bytes stored with
    | .error e => { t with worker := some worker, phase := .caught (.error (.staging id e)) }
    | .ok a => { t with worker := some worker, artifact := some a, phase := .segment (n + 1) }

/-- One step of the work of task `id`, with the flag as it is. -/
def work (t : Task W) (plan : Plan) (cancelled : Bool) (id : ℕ) (choice : Choice W) :
    Option (Task W) :=
  match t.phase, choice with
  | .segment n, .go =>
    some { t with
      phase :=
        if cancelled then .caught (.error .cancelled) else if t.range.2 ≤ n then .caught (.ok ())
          else .read n }
  | .read n, choice =>
    match plan.sourceRange n, choice with
    | .error e, .go => some { t with phase := .caught (.error e) }
    | .ok _, .read worker => some { t with worker := some worker, phase := .loaded n }
    | .ok _, .refused => some { t with phase := .caught (.error .allocation) }
    | .ok _, .readFails source =>
        some { t with phase := .caught (.error (.sourceRead id n source)) }
    | .ok _, .panic => some { t with worker := none, phase := .caught (.error (.taskPanicked id)) }
    | _, _ => none
  | .loaded n, .go =>
      some { t with phase := if cancelled then .caught (.error .cancelled) else .encode n }
  | .encode n, .encoded worker result stored =>
    match t.artifact, plan.sourceRange n with
    | some a, .ok source => some (t.afterEncode id n a source worker result stored)
    | _, _ => none
  | .encode _, .panic =>
      some { t with worker := none, phase := .caught (.error (.taskPanicked id)) }
  | _, _ => none

/-- What the task answers when its work came out as `result`. -/
def answer (t : Task W) (result : Except ParallelEncodeError Unit) : Answer :=
  match result, t.artifact with
  | .error e, _ => .error e
  | .ok (), some a => .ok a
  | .ok (), none => .error (.fragmentInvariant "missing task artifact")

end Task

/-! ### The coordinator -/

inductive BatchPoll where
  | pending (completed total : ℕ)
  | ready
  deriving DecidableEq, Repr

inductive WaitStatus where
  | ready
  | timedOut
  deriving DecidableEq, Repr

/-- The input: a slice, or a source that always reports the length and identity it was
planned for. -/
inductive Input where
  | slice (len : ℕ)
  | source (len : ℕ) (identity : Option ℕ)
  deriving DecidableEq, Repr

namespace Input

def len : Input → ℕ
  | slice n => n
  | source n _ => n

def identity : Input → Option ℕ
  | slice _ => none
  | source _ identity => identity

end Input

structure Batch (W : Type) where
  parent : ParallelCompressor W
  plan : Plan
  input : Input
  identity : Option ℕ
  /-- The caller took the tasks. -/
  taken : Bool := false
  received : ℕ → Bool := fun _ => false
  artifacts : ℕ → Option Artifact := fun _ => none
  failures : List (ℕ × ParallelEncodeError) := []
  failure : Option ParallelEncodeError := none
  completed : ℕ := 0
  /-- What an empty input is encoded as. -/
  empty : List UInt8 := []

namespace Batch

/-- The order of failures: cancellations last, then by task. -/
def rank (x y : ℕ × ParallelEncodeError) : Bool :=
  if x.2 = .cancelled then y.2 = .cancelled ∧ x.1 ≤ y.1 else y.2 = .cancelled ∨ x.1 ≤ y.1

/-- Settles the failure that is reported. -/
def settle (b : Batch W) : Batch W :=
  if b.failure.isNone then
    match b.failures.mergeSort rank with
    | [] => b
    | (_, failure) :: failures => { b with failures, failure := some failure }
  else b

def ready (b : Batch W) (cancelled : Bool) : Except ParallelEncodeError BatchPoll × Batch W :=
  if b.completed < b.plan.tasks then (.ok (.pending b.completed b.plan.tasks), b)
  else
    let b := b.settle
    match b.failure with
    | some failure => (.error (.batchFailed failure), b)
    | none => if cancelled then (.error .cancelled, b) else (.ok .ready, b)

/-- The source is as it was. -/
def checkSource (b : Batch W) : Except ParallelEncodeError Unit :=
  match b.input with
  | .slice _ => .ok ()
  | .source len identity =>
    if b.parent.parallel.sourceConsistency = .assumeImmutable then .ok ()
    else if len ≠ b.plan.inputBytes ∨
        (b.parent.parallel.sourceConsistency = .verifyLengthAndIdentity ∧
          identity ≠ b.identity) then
      .error .sourceChanged
    else .ok ()

/-- The descriptors of an artifact, against the plan: the next segment and the bytes. -/
def checkDescriptors (plan : Plan) : List Descriptor → ℕ → ℕ → Except ParallelEncodeError (ℕ × ℕ)
  | [], segment, offset => .ok (segment, offset)
  | d :: ds, segment, offset => do
    if d.segment ≠ segment then .error (.fragmentInvariant "descriptor differs from plan")
    else
      let source ← plan.sourceRange segment
      if d.source ≠ source ∨ d.offset ≠ offset ∨ d.len = 0 then
        .error (.fragmentInvariant "descriptor differs from plan")
      else
        let offset ← checked (offset + d.len)
        checkDescriptors plan ds (segment + 1) offset

/-- The artifacts of the given tasks: the next segment and the bytes of all. -/
def checkArtifacts (b : Batch W) : List ℕ → ℕ → ℕ → Except ParallelEncodeError (ℕ × ℕ)
  | [], segment, total => .ok (segment, total)
  | id :: ids, segment, total =>
    match b.artifacts id with
    | none => .error (.fragmentInvariant "missing success artifact")
    | some artifact =>
      if artifact.len ≠ artifact.storage.length then .error
      (.fragmentInvariant "artifact length changed")
      else do
        let (segment, offset) ← checkDescriptors b.plan artifact.descriptors segment 0
        if offset ≠ artifact.len then .error (.fragmentInvariant "descriptor bounds")
        else
          let total ← checked (total + artifact.len)
          b.checkArtifacts ids segment total

/-- What follows the wait: the length of the output. -/
def validate (b : Batch W) : Except ParallelEncodeError ℕ := do
  b.checkSource
  if b.plan.tasks = 0 then .ok b.empty.length
  else
    let (segment, total) ← b.checkArtifacts (List.range b.plan.tasks) 0 0
    if segment ≠ b.plan.segmentCount then .error (.fragmentInvariant "segment count")
    else checked (total + if b.plan.serial then 0 else 1)

/-- Writes to a vector, which takes everything. -/
def writeCounted (dst bytes : List UInt8) (written : ℕ) : Except (ℕ × IoError) (List UInt8 × ℕ) :=
  if u64Max < written + bytes.length then .error (written, .other 1)
    else .ok (dst ++ bytes, written + bytes.length)

def assembleArtifacts (b : Batch W) :
    List ℕ → List UInt8 → ℕ → Except (ℕ × IoError) (List UInt8 × ℕ)
  | [], dst, written => .ok (dst, written)
  | id :: ids, dst, written =>
    match b.artifacts id with
    | none => .error (written, .other 2)
    | some artifact =>
      match writeCounted dst artifact.storage written with
      | .error e => .error e
      | .ok (dst, written) => b.assembleArtifacts ids dst written

def assemble (b : Batch W) (dst : List UInt8) : Except (ℕ × IoError) (List UInt8 × ℕ) :=
  if b.plan.tasks = 0 then writeCounted dst b.empty 0
  else do
    let (dst, written) ← b.assembleArtifacts (List.range b.plan.tasks) dst 0
    if b.plan.serial then .ok (dst, written) else writeCounted dst [3] written

/-- `trim` by the current plan: only so many idle workers are kept. -/
def trim (b : Batch W) : Batch W :=
  { b
    with parent :=
    { b.parent with workers := b.parent.workers.take b.parent.parallel.maxRetainedWorkers } }

/-- What follows the wait of `finish_into`: the range of the output, and the destination.
`reserved` says whether the destination's memory could grow. -/
def finishInto (b : Batch W) (dst : List UInt8) (reserved : Bool) :
    Except ParallelEncodeError (ℕ × ℕ) × List UInt8 × Batch W :=
  match b.validate with
  | .error e => (.error e, dst, b)
  | .ok len =>
    if u64Max < dst.length + len then (.error .sizeOverflow, dst, b)
    else if !reserved then (.error .allocation, dst, b)
    else match b.assemble dst with
      | .error (written, source) => (.error (.assemblyIo written source), dst, b)
      | .ok (out, written) =>
        if written ≠ len then (.error (.fragmentInvariant "assembled length"),
          out.take dst.length, b)
        else (.ok (dst.length, dst.length + len), out, b.trim)

end Batch

/-- A call of the caller on the batch. -/
inductive Call where
  | poll
  | wait (timed : Bool)
  | finish (dst : List UInt8)
  /-- The batch is dropped. -/
  | drop
  deriving DecidableEq, Repr

/-- What a call returns. -/
inductive Return where
  | poll (result : Except ParallelEncodeError BatchPoll)
  | wait (result : Except ParallelEncodeError WaitStatus)
  | finish (dst : List UInt8) (result : Except ParallelEncodeError (ℕ × ℕ)) (out : List UInt8)
  | dropped

/-- Where the coordinator is. -/
inductive Control where
  /-- Between calls. -/
  | idle
  /-- At the head of the loop of `poll`. -/
  | polling (call : Call)
  /-- An id was received. -/
  | receiving (call : Call) (id : ℕ)
  | ready (call : Call)
  /-- `wait` is about to receive. -/
  | waiting (call : Call)
  /-- A drop is about to drop the tasks that were not taken, then to drain. -/
  | dropping
  | gone
  deriving DecidableEq, Repr

structure State (W : Type) where
  tasks : ℕ → Option (Task W)
  slots : ℕ → Option (Completion W) := fun _ => none
  channel : List ℕ := []
  cancelled : Bool := false
  batch : Batch W
  control : Control := .idle

/-- What a step lets see. -/
inductive Event where
  | silent
  /-- A task's completion is in its slot. -/
  | published (id : ℕ)
  /-- The coordinator accepted a completion. -/
  | accepted (id : ℕ)
  | returned (result : Return)

namespace Event

def isPublished (id : ℕ) : Event → Bool
  | published j => j = id
  | _ => false

def isAccepted (id : ℕ) : Event → Bool
  | accepted j => j = id
  | _ => false

end Event

namespace State

def put (s : State W) (id : ℕ) (t : Task W) : State W :=
  { s with tasks := Function.update s.tasks id (some t) }

/-- Some task holds its end of the channel. -/
def Connected (s : State W) : Prop := ∃ id t, s.tasks id = some t ∧ t.phase.holdsSender

/-- `receive`: takes the completion out of its slot, and accepts it. -/
def receive (s : State W) (id : ℕ) : Except ParallelEncodeError (State W) :=
  let b := s.batch
  if b.plan.tasks ≤ id then .error (.fragmentInvariant "unknown completion")
  else if b.received id then .error (.fragmentInvariant "duplicate completion")
  else match s.slots id with
    | none => .error (.fragmentInvariant "missing completion slot")
    | some completion =>
      let b := { b with
        received := Function.update b.received id true
        completed := b.completed + 1
        parent := { b.parent with workers := b.parent.workers ++ completion.worker.toList } }
      let slots := Function.update s.slots id none
      match completion.result with
      | .ok artifact =>
        .ok
          { s
            with slots, batch :=
            { b with artifacts := Function.update b.artifacts id (some artifact) } }
      | .error e =>
          .ok { s with slots, cancelled := true, batch :=
          { b with failures := b.failures ++ [(id, e)] } }

end State

/-- What the call returns on an error. -/
def Call.fails (c : Call) (e : ParallelEncodeError) : Return :=
  match c with
  | .poll => .poll (.error e)
  | .wait _ => .wait (.error e)
  | .finish dst => .finish dst (.error e) dst
  | .drop => .dropped

/-- A call that waits for the completions. -/
inductive Call.Waits : Call → Prop where
  | wait (timed : Bool) : Waits (.wait timed)
  | finish (dst : List UInt8) : Waits (.finish dst)

open State in
/-- One step of one party. -/
inductive Step : State W → Event → State W → Prop where
  -- the tasks
  | run {s : State W} {id : ℕ} {t : Task W} : s.tasks id = some t → t.phase = .held →
      s.batch.taken = true →
      Step s .silent (s.put id t.run)
  | dropTask {s : State W} {id : ℕ} {t : Task W} : s.tasks id = some t → t.phase = .held →
      s.batch.taken = true ∨ s.control = .dropping →
      Step s .silent (s.put id { t with phase := .publish (.error (.taskAbandoned id)) true })
  | work {s : State W} {id : ℕ} {t t' : Task W} {choice : Choice W} : s.tasks id = some t →
      t.work s.batch.plan s.cancelled id choice = some t' → Step s .silent (s.put id t')
  | caught {s : State W} {id : ℕ} {t : Task W} {r : Except ParallelEncodeError Unit} :
      s.tasks id = some t →
      t.phase = .caught r →
      Step s .silent
        { s.put id { t with artifact := none, phase := .publish (t.answer r) false } with
          cancelled := s.cancelled || !r.isOk }
  | publish {s : State W} {id : ℕ} {t : Task W} {r : Answer} {abandoned : Bool} :
      s.tasks id = some t →
      t.phase = .publish r abandoned →
      Step s (.published id)
        { s.put id { t with worker := none, phase := .send r abandoned } with
          slots := Function.update s.slots id (some ⟨r, t.worker⟩) }
  -- a full channel blocks the sender
  | send {s : State W} {id : ℕ} {t : Task W} {r : Answer} {abandoned : Bool} : s.tasks id = some t →
      t.phase = .send r abandoned → s.control ≠ .gone →
      s.channel.length < max s.batch.plan.tasks 1 →
      Step s .silent
        { s.put id { t with phase := if abandoned then .cancel r else .ended r }
          with channel := s.channel ++ [id] }
  | sendGone {s : State W} {id : ℕ} {t : Task W} {r : Answer} {abandoned : Bool} :
      s.tasks id = some t →
      t.phase = .send r abandoned → s.control = .gone →
      Step s .silent (s.put id { t with phase := if abandoned then .cancel r else .ended r })
  | cancelTask {s : State W} {id : ℕ} {t : Task W} {r : Answer} : s.tasks id = some t →
      t.phase = .cancel r →
      Step s .silent { s.put id { t with phase := .ended r } with cancelled := true }
  -- the caller
  | takeTasks {s : State W} : s.control = .idle →
      Step s .silent { s with batch := { s.batch with taken := true } }
  | cancel {s : State W} : s.control = .idle → Step s .silent { s with cancelled := true }
  | callPoll {s : State W} : s.control = .idle → Step s .silent { s with control := .polling .poll }
  | notReady {s : State W} {c : Call} : s.control = .idle → c.Waits → s.batch.taken = false →
      0 < s.batch.plan.tasks →
      Step s (.returned (c.fails .notReady)) s
  | callWait {s : State W} {c : Call} : s.control = .idle → c.Waits → s.batch.taken = true ∨
      s.batch.plan.tasks = 0 →
      Step s .silent { s with control := .polling c }
  | callDrop {s : State W} : s.control = .idle →
      Step s .silent { s with cancelled := true, control := .dropping }
  -- the coordinator
  | polled {s : State W} {c : Call} {id : ℕ} {ids : List ℕ} : s.control = .polling c →
      s.channel = id :: ids →
      Step s .silent { s with channel := ids, control := .receiving c id }
  | accept {s s' : State W} {c : Call} {id : ℕ} : s.control = .receiving c id →
      s.receive id = .ok s' →
      Step s (.accepted id) { s' with control := .polling c }
  | reject {s : State W} {c : Call} {id : ℕ} {e : ParallelEncodeError} :
      s.control = .receiving c id → c ≠ .drop →
      s.receive id = .error e → Step s (.returned (c.fails e)) { s with control := .idle }
  | ignore {s : State W} {id : ℕ} {e : ParallelEncodeError} : s.control = .receiving .drop id →
      s.receive id = .error e → Step s .silent { s with control := .polling .drop }
  | drained {s : State W} {c : Call} : s.control = .polling c → c ≠ .drop → s.channel = [] →
      s.Connected ∨ s.batch.completed = s.batch.plan.tasks →
      Step s .silent { s with control := .ready c }
  | closed {s : State W} {c : Call} : s.control = .polling c → c ≠ .drop → s.channel = [] →
      ¬ s.Connected →
      s.batch.completed ≠ s.batch.plan.tasks →
      Step s (.returned (c.fails (.fragmentInvariant "completion channel closed early")))
      { s with control := .idle }
  | poll {s : State W} {r : Except ParallelEncodeError BatchPoll} {b : Batch W} :
      s.control = .ready .poll →
      s.batch.ready s.cancelled = (r, b) →
      Step s (.returned (.poll r)) { s with batch := b, control := .idle }
  | pending {s : State W} {c : Call} {completed total : ℕ} {b : Batch W} :
      s.control = .ready c → c.Waits →
      s.batch.ready s.cancelled = (.ok (.pending completed total), b) →
      Step s .silent { s with batch := b, control := .waiting c }
  | failed {s : State W} {c : Call} {e : ParallelEncodeError} {b : Batch W} :
      s.control = .ready c → c.Waits →
      s.batch.ready s.cancelled = (.error e, b) →
      Step s (.returned (c.fails e)) { s with batch := b, control := .idle }
  | wait {s : State W} {timed : Bool} {b : Batch W} : s.control = .ready (.wait timed) →
      s.batch.ready s.cancelled = (.ok .ready, b) →
      Step s (.returned (.wait (.ok .ready))) { s with batch := b, control := .idle }
  | finish {s : State W} {dst out : List UInt8} {b b' : Batch W} {reserved : Bool}
      {r : Except ParallelEncodeError (ℕ × ℕ)} : s.control = .ready (.finish dst) →
      s.batch.ready s.cancelled = (.ok .ready, b) → b.finishInto dst reserved = (r, out, b') →
      Step s (.returned (.finish dst r out)) { s with batch := b', control := .idle }
  | received {s : State W} {c : Call} {id : ℕ} {ids : List ℕ} : s.control = .waiting c →
      s.channel = id :: ids →
      Step s .silent { s with channel := ids, control := .receiving c id }
  | timedOut {s : State W} : s.control = .waiting (.wait true) →
      Step s (.returned (.wait (.ok .timedOut))) { s with control := .idle }
  | hungUp {s : State W} {c : Call} : s.control = .waiting c → s.channel = [] → ¬ s.Connected →
      Step s (.returned (c.fails (.fragmentInvariant "completion channel closed early")))
      { s with control := .idle }
  -- a drop drops the tasks it still has, then drains
  | drain {s : State W} : s.control = .dropping →
      (s.batch.taken = false → ∀ id t, s.tasks id = some t → ∃ r, t.phase = .ended r) →
      Step s .silent { s with control := .polling .drop }
  | drop {s : State W} : s.control = .polling .drop → s.channel = [] →
      Step s (.returned .dropped) { s with batch := s.batch.trim, control := .gone }

/-! ### Preparation -/

/-- What preparing a batch meets outside it. -/
structure Environment (W : Type) where
  createStaging : ℕ → Except IoError Unit
  newWorker : Except ParallelEncodeError W
  retainedBytes : List W → ℕ

/-- The last idle worker, or a new one. -/
def nextWorker (newWorker : Except ParallelEncodeError W) (workers : List W) :
    Except ParallelEncodeError W :=
  match workers.getLast? with
  | some worker => .ok worker
  | none => newWorker

/-- What the serial compressor makes of an input without segments. -/
def emptyOutput (parent : ParallelCompressor W) (input : Input) : List UInt8 :=
  if input.len = 0 then Compressor.emptyStream (parent.encoder.lower (some 0)) else []

/-- Gives each share a worker, idle ones first. -/
def assignWorkers (newWorker : Except ParallelEncodeError W) : List Share → List W →
    Except ParallelEncodeError (List (Task W) × List W)
  | [], workers => .ok ([], workers)
  | share :: shares, workers => do
    let worker ← nextWorker newWorker workers
    let (tasks, workers) ← assignWorkers newWorker shares workers.dropLast
    .ok (⟨(share.start, share.stop), some worker, some { bound := share.bound }, .held⟩ :: tasks,
      workers)

def prepare (env : Environment W) (parent : ParallelCompressor W) (input : Input)
    (config : BatchConfig) :
    Except ParallelEncodeError (State W) := do
  let plan ← parent.plan env.retainedBytes input.len config
  let shares ← prepareTasks plan env.createStaging plan.tasks 0 0
  let (tasks, workers) ← assignWorkers env.newWorker shares parent.workers
  .ok
    { tasks := fun id => tasks[id]?
      batch := {
        parent := { parent with workers }
        plan
        input
        identity := input.identity
        empty := emptyOutput parent input } }

end Mbrotli.Parallel
