/-
# The batch protocol

Every task that is run or dropped puts one completion into its slot before its id can be
seen, and the coordinator accepts each id once. `Sound` says, of every reachable state,
where each completion is; from it follow what the calls return (`finish_into`,
`Returned`).
-/
import Mbrotli.Compressor.Parallel.Batch
import Mbrotli.Lib.Run
import Mathlib.Data.Finset.Card
import Mathlib.Data.List.Nodup
import Mathlib.Data.List.Sort

namespace Mbrotli.Parallel

variable {W : Type}

/-! ### Descriptors -/

/-- The descriptors describe the segments from one to another, and their bytes. -/
def Tiles (plan : Plan) : List Descriptor → (segment offset stop len : ℕ) → Prop
  | [], segment, offset, stop, len => stop = segment ∧ len = offset
  | d :: ds, segment, offset, stop, len =>
    d.segment = segment ∧ plan.sourceRange segment = .ok d.source ∧ d.offset = offset ∧ d.len ≠ 0 ∧
      Tiles plan ds (segment + 1) (offset + d.len) stop len

section Tiles

variable {plan : Plan} {ds : List Descriptor} {segment offset stop len : ℕ}

theorem Tiles.le (h : Tiles plan ds segment offset stop len) : offset ≤ len := by
  induction ds generalizing segment offset with
  | nil => exact h.2.ge
  | cons d ds ih => exact (Nat.le_add_right _ _).trans (ih h.2.2.2.2)

/-- One more segment. -/
theorem Tiles.push {source : ℕ × ℕ} {n : ℕ} (h : Tiles plan ds segment offset stop len)
    (hsource : plan.sourceRange stop = .ok source) (hn : n ≠ 0) :
    Tiles plan (ds ++ [⟨stop, source, len, n⟩]) segment offset (stop + 1) (len + n) := by
  induction ds generalizing segment offset with
  | nil =>
    obtain ⟨rfl, rfl⟩ := h
    exact ⟨rfl, hsource, rfl, hn, rfl, rfl⟩
  | cons d ds ih => exact ⟨h.1, h.2.1, h.2.2.1, h.2.2.2.1, ih h.2.2.2.2⟩

/-- The check accepts what tiles. -/
theorem Tiles.check (h : Tiles plan ds segment offset stop len) (hlen : len ≤ u64Max) :
    Batch.checkDescriptors plan ds segment offset = .ok (stop, len) := by
  induction ds generalizing segment offset with
  | nil =>
    obtain ⟨rfl, rfl⟩ := h
    rfl
  | cons d ds ih =>
    obtain ⟨h1, h2, h3, h4, h5⟩ := h
    have hsum : offset + d.len ≤ u64Max := h5.le.trans hlen
    rw [Batch.checkDescriptors, if_neg (not_not.mpr h1), h2]
    show (if d.source ≠ d.source ∨ d.offset ≠ offset ∨ d.len = 0 then _ else _) = _
    rw [if_neg (by simp [h3, h4]), checked, if_pos hsum]
    exact ih h5

end Tiles

/-- A segment's bytes are the next ones of the input, up to its end. -/
theorem sourceRange_ok {plan : Plan} {segment : ℕ} {range : ℕ × ℕ}
    (h : plan.sourceRange segment = .ok range) :
    range.1 = segment * plan.segmentSize ∧ range.1 < range.2 ∧
      range.2 ≤ (segment + 1) * plan.segmentSize ∧ range.2 ≤ plan.inputBytes := by
  rw [Plan.sourceRange] at h
  obtain ⟨start, hstart, h⟩ := Compressor.ok_of_bind h
  obtain ⟨rfl, -⟩ := checked_ok hstart
  dsimp only at h
  split at h
  · cases h
  · rename_i hlt
    cases h
    refine ⟨rfl, not_le.mp hlt, ?_, min_le_right _ _⟩
    rw [Nat.succ_mul]
    exact (min_le_left _ _).trans (min_le_left _ _)

/-- The artifacts describe the segments from `segment` on, each its own, without a gap. -/
def Covers (plan : Plan) : List Artifact → (segment : ℕ) → Prop
  | [], segment => segment = plan.segmentCount
  | a :: as, segment => ∃ stop, Tiles plan a.descriptors segment 0 stop a.storage.length ∧
      Covers plan as stop

/-! ### Shares -/

/-- The shares cut the segments from one to another, with nothing between them. -/
def Consecutive : List Share → (segment stop : ℕ) → Prop
  | [], segment, stop => stop = segment
  | share :: shares, segment, stop => share.start = segment ∧ share.start ≤ share.stop ∧
      Consecutive shares share.stop stop

/-- The shares of a plan. -/
structure Dealt (plan : Plan) (shares : List Share) : Prop where
  length : shares.length = plan.tasks
  consecutive : plan.tasks ≠ 0 → Consecutive shares 0 plan.segmentCount
  bound : (shares.map Share.bound).sum < u64Max

theorem stagedBound_ok {len parts n : ℕ} (h : stagedBound len parts = .ok n) :
    n = len * 2 + parts * 1024 := by
  obtain ⟨doubled, h1, h⟩ := Compressor.ok_of_bind h
  obtain ⟨headers, h2, h⟩ := Compressor.ok_of_bind h
  obtain ⟨rfl, -⟩ := checked_ok h1
  obtain ⟨rfl, -⟩ := checked_ok h2
  exact (checked_ok h).1

/-- A share is staged in twice its bytes and 1 KiB for each segment. -/
theorem shareBound_ok {plan : Plan} {start stop n : ℕ} (h : shareBound plan start stop = .ok n)
    (hlt : start < stop) :
    n + (start * plan.segmentSize * 2 + start * 1024) ≤ stop * plan.segmentSize * 2 + stop * 1024 ∧
      n + (start * plan.segmentSize * 2 + start * 1024) ≤ plan.inputBytes * 2 + stop * 1024 := by
  obtain ⟨⟨a, b⟩, h1, h⟩ := Compressor.ok_of_bind h
  obtain ⟨⟨c, d⟩, h2, h⟩ := Compressor.ok_of_bind h
  obtain ⟨ha, hab, -, -⟩ := sourceRange_ok h1
  obtain ⟨hc, hcd, hd, hlen⟩ := sourceRange_ok h2
  rw [Nat.sub_add_cancel (Nat.one_le_of_lt hlt)] at hd
  have hle : start * plan.segmentSize ≤ (stop - 1) * plan.segmentSize :=
    Nat.mul_le_mul_right _ (Nat.le_sub_one_of_lt hlt)
  have hn := stagedBound_ok h
  dsimp only at ha hab hc hcd hd hlen hn
  omega

theorem prepareTasks_ok {plan : Plan} {createStaging : ℕ → Except IoError Unit} {n id segment : ℕ}
    {shares : List Share}
    (h : prepareTasks plan createStaging n id segment = .ok shares)
    (hshare : ∀ i, 0 < plan.share i) :
    shares.length = n ∧
      Consecutive shares segment (segment + ((List.range' id n).map plan.share).sum) ∧
      (n ≠ 0 → (shares.map Share.bound).sum + (segment * plan.segmentSize * 2 + segment * 1024) ≤
        plan.inputBytes * 2 + (segment + ((List.range' id n).map plan.share).sum) * 1024) := by
  induction n generalizing id segment shares with
  | zero =>
    cases h
    exact ⟨rfl, rfl, fun h => absurd rfl h⟩
  | succ n ih =>
    obtain ⟨stop, hstop, h⟩ := Compressor.ok_of_bind h
    obtain ⟨rfl, -⟩ := checked_ok hstop
    obtain ⟨bound, hbound, h⟩ := Compressor.ok_of_bind h
    cases hstaging : createStaging id with
    | error e =>
      rw [hstaging] at h
      cases h
    | ok u =>
      rw [hstaging] at h
      obtain ⟨rest, hrest, h⟩ := Compressor.ok_of_bind h
      cases h
      obtain ⟨h1, h2, h3⟩ := ih hrest
      obtain ⟨hb, hb'⟩ := shareBound_ok hbound (Nat.lt_add_of_pos_right (hshare id))
      rw [List.range'_succ, List.map_cons, List.sum_cons, ← Nat.add_assoc]
      refine ⟨by rw [List.length_cons, h1], ⟨rfl, Nat.le_add_right _ _, h2⟩, fun _ => ?_⟩
      rw [List.map_cons, List.sum_cons]
      rcases Nat.eq_zero_or_pos n with rfl | hn
      · cases hrest
        simpa using hb'
      · have := h3 hn.ne'
        dsimp only at this ⊢
        omega

/-- The first `n` shares hold each the quotient, and one more where the rest reaches. -/
theorem sum_share (plan : Plan) (n : ℕ) :
    ((List.range' 0 n).map plan.share).sum =
      n * (plan.segmentCount / plan.tasks) + min n (plan.segmentCount % plan.tasks) := by
  induction n with
  | zero => simp
  | succ n ih =>
    rw [List.range'_concat, List.map_append, List.sum_append, ih, List.map_singleton,
      List.sum_singleton, Plan.share,
      Nat.succ_mul n, Nat.one_mul, Nat.zero_add]
    split <;> omega

/-- What is dealt out is every segment of the plan. -/
theorem dealt {parent : ParallelCompressor W} {retainedBytes : List W → ℕ} {len : ℕ}
    {config : BatchConfig} {plan : Plan}
    {createStaging : ℕ → Except IoError Unit} {shares : List Share}
    (hplan : parent.plan retainedBytes len config = .ok plan)
    (h : prepareTasks plan createStaging plan.tasks 0 0 = .ok shares) : Dealt plan shares := by
  obtain ⟨staged, hstaged, hplan⟩ := Compressor.ok_of_bind hplan
  obtain ⟨active, -, hplan⟩ := Compressor.ok_of_bind hplan
  obtain ⟨staging, -, hplan⟩ := Compressor.ok_of_bind hplan
  obtain ⟨aggregate, -, hplan⟩ := Compressor.ok_of_bind hplan
  split at hplan
  · cases hplan
  obtain ⟨final, hfinal, hplan⟩ := Compressor.ok_of_bind hplan
  cases hplan
  have hstaged := stagedBound_ok hstaged
  obtain ⟨rfl, hfinal⟩ := checked_ok hfinal
  dsimp only at h ⊢
  rcases Nat.eq_zero_or_pos (min (segments len parent.parallel.segmentSize.get)
    config.taskCount.get) with hzero | hpos
  · rw [hzero] at h ⊢
    cases h
    exact ⟨rfl, fun hne => absurd rfl hne, by decide⟩
  · have hq : 0 < segments len parent.parallel.segmentSize.get /
        min (segments len parent.parallel.segmentSize.get) config.taskCount.get :=
      Nat.div_pos (min_le_left _ _) hpos
    obtain ⟨h1, h2, h3⟩ := prepareTasks_ok h fun i => Nat.add_pos_left hq _
    have hsum := sum_share
      { tasks := min (segments len parent.parallel.segmentSize.get) config.taskCount.get
        serial :=
        (len < parent.parallel.minimumParallelSize ∧ len ≤ parent.parallel.segmentSize.get) ∨
        len = 0
        segmentSize := parent.parallel.segmentSize.get
        inputBytes := len
        segmentCount := segments len parent.parallel.segmentSize.get
        maximumStagedBytes := staged }
      (min (segments len parent.parallel.segmentSize.get) config.taskCount.get)
    dsimp only at hsum
    rw [min_eq_right (Nat.mod_lt _ hpos).le, Nat.mul_comm, Nat.div_add_mod'] at hsum
    rw [hsum] at h2 h3
    refine ⟨h1, fun _ => by simpa using h2, ?_⟩
    have := h3 hpos.ne'
    have hmax : max (segments len parent.parallel.segmentSize.get) 1 =
        segments len parent.parallel.segmentSize.get :=
      max_eq_left (hpos.trans_le (min_le_left _ _))
    rw [hmax] at hstaged
    dsimp only at this
    omega

/-! ### What a task staged -/

/-- The artifact of a share, up to the segment `n`. -/
structure Staged (plan : Plan) (share : Share) (a : Artifact) (n : ℕ) : Prop where
  tiles : Tiles plan a.descriptors share.start 0 n a.len
  stored : a.storage.length = a.len
  fits : a.len ≤ share.bound
  bound : a.bound = share.bound

/-- A task at work has staged the segments it is through with. -/
def Phase.Ok (plan : Plan) (share : Share) (artifact : Option Artifact) : Phase → Prop
  | held => artifact = some { bound := share.bound }
  | segment n => n ≤ share.stop ∧ ∃ a, artifact = some a ∧ Staged plan share a n
  | read n | loaded n | encode n => n < share.stop ∧ ∃ a, artifact = some a ∧ Staged plan share a n
  | caught r => r = .ok () → ∃ a, artifact = some a ∧ Staged plan share a share.stop
  | publish r _ | send r _ | cancel r | ended r => ∀ a, r = .ok a → Staged plan share a share.stop

structure Task.Ok (plan : Plan) (share : Share) (t : Task W) : Prop where
  range : t.range = (share.start, share.stop)
  phase : t.phase.Ok plan share t.artifact

section Task

variable {plan : Plan} {share : Share} {t t' : Task W} {id n : ℕ} {a : Artifact}

theorem Staged.new : Staged plan share { bound := share.bound } share.start :=
  ⟨⟨rfl, rfl⟩, rfl, Nat.zero_le _, rfl⟩

/-- Staging a segment. -/
theorem Staged.stage {source : ℕ × ℕ} {encoded : Encoded} {stored : Except IoError Unit}
    {b : Artifact}
    (h : Staged plan share a n) (hsource : plan.sourceRange n = .ok source)
    (hstage : a.stage n source encoded.bytes stored = .ok b) : Staged plan share b (n + 1) := by
  have hlen : 0 < encoded.bytes.length := List.length_pos_of_ne_nil encoded.nonempty
  unfold Artifact.stage Artifact.append at hstage
  split at hstage
  · cases hstage
  rename_i hfit
  rw [not_or, not_lt, not_lt] at hfit
  cases stored with
  | error e => cases hstage
  | ok u =>
    cases hstage
    refine ⟨?_, ?_, hfit.2.trans h.bound.le, h.bound⟩
    · dsimp only
      rw [Nat.add_sub_cancel_left]
      exact h.tiles.push hsource hlen.ne'
    · rw [List.length_append, h.stored]

theorem Task.run_ok (h : t.Ok plan share) (hphase : t.phase = .held)
    (hle : share.start ≤ share.stop) :
    t.run.Ok plan share := by
  have ha := h.phase
  rw [hphase] at ha
  rw [Task.run]
  split
  · exact ⟨h.range, fun h => by cases h⟩
  split
  · exact ⟨h.range, fun h => by cases h⟩
  · refine ⟨h.range, ?_⟩
    rw [h.range]
    exact ⟨hle, _, ha, .new⟩

/-- A step of the work stages what the codec answered, or fails. -/
theorem Task.work_ok {cancelled : Bool} {choice : Choice W} (h : t.Ok plan share)
    (hwork : t.work plan cancelled id choice = some t') : t'.Ok plan share := by
  have ha := h.phase
  have hr := h.range
  have hfail : ∀ {t' : Task W} {e : ParallelEncodeError}, t'.range = t.range →
    t'.phase = .caught (.error e) →
      t'.Ok plan share := by
    intro t' e hrange hphase
    refine ⟨hrange.trans hr, ?_⟩
    rw [hphase]
    exact fun h => by cases h
  unfold Task.work at hwork
  split at hwork
  · rename_i n hphase
    rw [hphase] at ha
    cases hwork
    cases cancelled with
    | true => exact hfail rfl rfl
    | false =>
      obtain ⟨hn, a, ha, hstaged⟩ := ha
      by_cases hend : t.range.2 ≤ n
      · have hstop : n = share.stop := le_antisymm hn (by rw [hr] at hend; exact hend)
        subst hstop
        simp only [if_pos hend]
        exact ⟨hr, fun _ => ⟨a, ha, hstaged⟩⟩
      · simp only [if_neg hend]
        exact ⟨hr, by rw [hr] at hend; exact not_le.mp hend, a, ha, hstaged⟩
  · rename_i n _ hphase
    rw [hphase] at ha
    split at hwork
    · cases hwork
      exact hfail rfl rfl
    · cases hwork
      exact ⟨hr, ha⟩
    · cases hwork
      exact hfail rfl rfl
    · cases hwork
      exact hfail rfl rfl
    · cases hwork
      exact hfail rfl rfl
    · cases hwork
  · rename_i n hphase
    rw [hphase] at ha
    cases hwork
    cases cancelled with
    | true => exact hfail rfl rfl
    | false => exact ⟨hr, ha⟩
  · rename_i n worker result stored hphase
    rw [hphase] at ha
    obtain ⟨hn, a, ha, hstaged⟩ := ha
    rw [ha] at hwork
    cases hsource : plan.sourceRange n with
    | error e =>
      rw [hsource] at hwork
      cases hwork
    | ok source =>
      rw [hsource] at hwork
      cases hwork
      unfold Task.afterEncode
      cases result with
      | error e => exact hfail rfl rfl
      | ok encoded =>
        dsimp only
        cases hstage : a.stage n source encoded.bytes stored with
        | error e => exact hfail rfl rfl
        | ok b => exact ⟨hr, hn, b, rfl, hstaged.stage hsource hstage⟩
  · cases hwork
    exact hfail rfl rfl
  · cases hwork

theorem Task.answer_ok {r : Except ParallelEncodeError Unit} (h : t.Ok plan share)
    (hphase : t.phase = .caught r) :
    ∀ a, t.answer r = .ok a → Staged plan share a share.stop := by
  have ha := h.phase
  rw [hphase] at ha
  intro a hr
  cases r with
  | error e => cases hr
  | ok u =>
    obtain ⟨b, hb, hstaged⟩ := ha rfl
    unfold Task.answer at hr
    rw [hb] at hr
    cases hr
    exact hstaged

/-- A task that works is not through. -/
theorem Task.not_published_of_work {cancelled : Bool} {choice : Choice W}
    (hwork : t.work plan cancelled id choice = some t') : t.phase.isPublished = false := by
  unfold Task.work at hwork
  split at hwork
  iterate 5
    rename_i hphase
    rw [hphase]
    rfl
  · cases hwork

theorem Task.work_not_published {cancelled : Bool} {choice : Choice W}
    (hwork : t.work plan cancelled id choice = some t') : t'.phase.isPublished = false := by
  unfold Task.work at hwork
  split at hwork
  · cases hwork
    dsimp only
    split <;> [rfl; split <;> rfl]
  · split at hwork <;> cases hwork <;> rfl
  · cases hwork
    dsimp only
    split <;> rfl
  · split at hwork
    · cases hwork
      unfold Task.afterEncode
      split <;> [rfl; split <;> rfl]
    · cases hwork
  · cases hwork
    rfl
  · cases hwork

theorem Task.run_not_published (t : Task W) : t.run.phase.isPublished = false := by
  unfold Task.run
  dsimp only
  split <;> [rfl; split <;> rfl]

end Task

/-! ### Where completions are -/

/-- What a task answered. -/
def State.answer (s : State W) (id : ℕ) : Option Answer :=
  (s.tasks id).bind fun t => t.phase.answer?

/-- A task's answer is that it succeeded, or that it failed. -/
def State.Succeeded (s : State W) (id : ℕ) : Prop := ∃ a, s.answer id = some (.ok a)

def State.FailedWith (s : State W) (id : ℕ) (e : ParallelEncodeError) : Prop :=
  s.answer id = some (.error e)

/-- The failure a batch reports: of the failures that are not cancellations, or of the
cancellations if there is nothing else, that of the first task. -/
def State.Reports (s : State W) (e : ParallelEncodeError) : Prop :=
  ∃ id, s.FailedWith id e ∧ ∀ id' e', s.FailedWith id' e' →
    (e' ≠ .cancelled → e ≠ .cancelled) ∧ ((e ≠ .cancelled → e' ≠ .cancelled) → id ≤ id')

/-- The id the coordinator received and did not accept yet. -/
def Control.received? : Control → Option ℕ
  | .receiving _ id => some id
  | _ => none

/-- What the shared state and the coordinator say of one task. -/
structure View (W : Type) where
  /-- The id is in the channel. -/
  waiting : Prop
  /-- The id is being received. -/
  receiving : Prop
  /-- The coordinator is gone. -/
  gone : Prop
  received : Bool
  slot : Option (Completion W)
  artifact : Option Artifact
  /-- A failure with this error is noted, or a failure is settled. -/
  noted : ParallelEncodeError → Prop

def State.view (s : State W) (id : ℕ) : View W where
  waiting := id ∈ s.channel
  receiving := s.control.received? = some id
  gone := s.control = .gone
  received := s.batch.received id
  slot := s.slots id
  artifact := s.batch.artifacts id
  noted := fun e => s.batch.failure = none → (id, e) ∈ s.batch.failures

namespace View

/-- Nobody can know of the task's end. -/
structure Unsent (v : View W) : Prop where
  waiting : ¬ v.waiting
  receiving : ¬ v.receiving
  received : v.received = false

/-- The completion is in the slot, and its id in the channel or just received. -/
structure Transit (v : View W) (r : Answer) : Prop where
  received : v.received = false
  place : v.gone ∨ ((∃ worker, v.slot = some ⟨r, worker⟩) ∧
    (v.waiting ∧ ¬ v.receiving ∨ ¬ v.waiting ∧ v.receiving))

/-- The completion was accepted. -/
structure Arrived (v : View W) (r : Answer) : Prop where
  received : v.received = true
  slot : v.slot = none
  waiting : ¬ v.waiting
  receiving : ¬ v.receiving
  artifact : ∀ a, r = .ok a → v.artifact = some a
  noted : ∀ e, r = .error e → v.noted e

/-- Where the completion of a task in phase `p` is. -/
def Place (v : View W) : Option Phase → Prop
  | some (.send r _) => v.Unsent ∧ ∃ worker, v.slot = some ⟨r, worker⟩
  | some (.cancel r) | some (.ended r) => v.Transit r ∨ v.Arrived r
  | _ => v.Unsent ∧ v.slot = none

theorem place_of_not_published {v : View W} {p : Phase} (h : p.isPublished = false) :
    v.Place (some p) ↔ v.Unsent ∧ v.slot = none := by
  cases p with
  | send r b => cases h
  | cancel r => cases h
  | ended r => cases h
  | _ => exact Iff.rfl

/-- Once sent, the task is through. -/
theorem Place.of_received {v : View W} {p : Option Phase} (h : v.Place p) (hr : v.received = true) :
    ∃ r, (p = some (.cancel r) ∨ p = some (.ended r)) ∧ v.Arrived r := by
  have hunsent : ¬ v.Unsent := fun h => by rw [h.received] at hr; cases hr
  cases p with
  | none => exact absurd h.1 hunsent
  | some p =>
    cases p with
    | cancel r => exact ⟨r, .inl rfl, h.resolve_left fun h => by rw [h.received] at hr; cases hr⟩
    | ended r => exact ⟨r, .inr rfl, h.resolve_left fun h => by rw [h.received] at hr; cases hr⟩
    | _ => exact absurd h.1 hunsent

/-- A task that is seen is through. -/
theorem Place.of_seen {v : View W} {p : Option Phase} (h : v.Place p)
    (hr : v.waiting ∨ v.receiving) :
    ∃ r, (p = some (.cancel r) ∨ p = some (.ended r)) ∧ v.Transit r := by
  have hunsent : ¬ v.Unsent := fun h => hr.elim h.waiting h.receiving
  have harrived : ∀ {r}, ¬ v.Arrived r := fun h => hr.elim h.waiting h.receiving
  cases p with
  | none => exact absurd h.1 hunsent
  | some p =>
    cases p with
    | cancel r => exact ⟨r, .inl rfl, h.resolve_right harrived⟩
    | ended r => exact ⟨r, .inr rfl, h.resolve_right harrived⟩
    | _ => exact absurd h.1 hunsent

/-- What a place depends on. -/
theorem Place.mono {v v' : View W} {p : Option Phase} (h : v.Place p)
    (hwaiting : v'.waiting ↔ v.waiting)
    (hreceiving : v'.receiving ↔ v.receiving) (hgone : v.gone → v'.gone)
    (hreceived : v'.received = v.received)
    (hslot : v'.slot = v.slot) (hartifact : v'.artifact = v.artifact)
    (hnoted : ∀ e, v.noted e → v'.noted e) :
    v'.Place p := by
  have hunsent : v.Unsent → v'.Unsent := fun h =>
    ⟨fun h' => h.waiting (hwaiting.mp h'), fun h' => h.receiving (hreceiving.mp h'),
      hreceived.trans h.received⟩
  have hthrough : ∀ {r}, v.Transit r ∨ v.Arrived r → v'.Transit r ∨ v'.Arrived r := by
    rintro r (h | h)
    · refine .inl ⟨hreceived.trans h.received, ?_⟩
      rw [hwaiting, hreceiving, hslot]
      exact h.place.imp hgone id
    · exact .inr ⟨hreceived.trans h.received, hslot.trans h.slot,
        fun h' => h.waiting (hwaiting.mp h'),
        fun h' => h.receiving (hreceiving.mp h'), fun a ha => hartifact.trans (h.artifact a ha),
        fun e he => hnoted e (h.noted e he)⟩
  cases p with
  | none => exact ⟨hunsent h.1, hslot.trans h.2⟩
  | some p =>
    cases p with
    | send r b => exact ⟨hunsent h.1, hslot ▸ h.2⟩
    | cancel r => exact hthrough h
    | ended r => exact hthrough h
    | _ => exact ⟨hunsent h.1, hslot.trans h.2⟩

end View

/-- A drop is under way. -/
def Control.Dropped : Control → Prop
  | .dropping | .gone | .polling .drop | .receiving .drop _ => True
  | _ => False

/-- Every reachable state. -/
structure Sound (shares : List Share) (s : State W) : Prop where
  dealt : Dealt s.batch.plan shares
  tasks : ∀ id, s.tasks id = none ↔ s.batch.plan.tasks ≤ id
  ok : ∀ id t, s.tasks id = some t → ∃ share, shares[id]? = some share ∧ t.Ok s.batch.plan share
  held : s.batch.taken = false → ¬ s.control.Dropped → ∀ id t, s.tasks id = some t → t.phase = .held
  nodup : s.channel.Nodup
  place : ∀ id, (s.view id).Place ((s.tasks id).map Task.phase)
  completed : s.batch.completed =
    ((Finset.range s.batch.plan.tasks).filter fun id => s.batch.received id = true).card
  failures : ∀ x ∈ s.batch.failures, s.batch.received x.1 = true ∧ s.FailedWith x.1 x.2
  failure : ∀ e, s.batch.failure = some e → s.batch.completed = s.batch.plan.tasks ∧ s.Reports e
  /-- The coordinator waits for a completion that is missing. -/
  waiting : ∀ c, s.control = .waiting c → s.batch.completed < s.batch.plan.tasks

section Sound

variable {shares : List Share} {s s' : State W} {id : ℕ} {t t' : Task W} {e : ParallelEncodeError}

theorem State.answer_of_tasks (h : s.tasks id = some t) : s.answer id = t.phase.answer? := by
  rw [State.answer, h]
  rfl

theorem Sound.lt (h : Sound shares s) (ht : s.tasks id = some t) : id < s.batch.plan.tasks := by
  by_contra hge
  rw [(h.tasks id).mpr (not_lt.mp hge)] at ht
  cases ht

theorem Sound.all_received (h : Sound shares s) (hall : s.batch.completed = s.batch.plan.tasks)
    (hid : id < s.batch.plan.tasks) : s.batch.received id = true := by
  rw [h.completed] at hall
  nth_rewrite 2 [← Finset.card_range s.batch.plan.tasks] at hall
  exact Finset.filter_card_eq hall id (Finset.mem_range.mpr hid)

/-- A step of task `id`, which keeps its answer, or whose completion was not accepted yet. -/
theorem Sound.update (h : Sound shares s) (ht : s.tasks id = some t)
    (htasks : s'.tasks = Function.update s.tasks id (some t')) (hbatch : s'.batch = s.batch)
    (hcontrol : s'.control = s.control) (hheld : s.batch.taken = true ∨ s.control.Dropped)
    (hok : ∀ share ∈ shares, t.Ok s.batch.plan share → t'.Ok s.batch.plan share)
    (hnodup : s'.channel.Nodup)
    (hview : ∀ j, j ≠ id → s'.view j = s.view j) (hplace : (s'.view id).Place (some t'.phase))
    (hanswer : s.batch.received id = false ∨ t'.phase.answer? = t.phase.answer?) :
    Sound shares s' := by
  have hkeep : ∀ j, s.batch.received j = true → s'.answer j = s.answer j := by
    intro j hj
    by_cases hji : j = id
    · subst hji
      rcases hanswer with hr | hr
      · rw [hr] at hj
        cases hj
      · rw [State.answer, State.answer, htasks, Function.update_self, ht]
        exact hr
    · rw [State.answer, State.answer, htasks, Function.update_of_ne hji]
  refine ⟨by rw [hbatch]; exact h.dealt, ?_, ?_, ?_, hnodup,
    ?_, by rw [hbatch]; exact h.completed, ?_, ?_,
    by rw [hbatch, hcontrol]; exact h.waiting⟩
  · intro j
    rw [htasks, hbatch]
    by_cases hji : j = id
    · subst hji
      rw [Function.update_self]
      exact ⟨fun h => (by cases h), fun hge => absurd (h.lt ht) (not_lt.mpr hge)⟩
    · rw [Function.update_of_ne hji]
      exact h.tasks j
  · intro j u hu
    rw [htasks] at hu
    rw [hbatch]
    by_cases hji : j = id
    · subst hji
      rw [Function.update_self] at hu
      cases hu
      obtain ⟨share, hshare, hold⟩ := h.ok j t ht
      exact ⟨share, hshare, hok share (List.mem_of_getElem? hshare) hold⟩
    · rw [Function.update_of_ne hji] at hu
      exact h.ok j u hu
  · intro htaken hdropped
    rw [hbatch] at htaken
    rw [hcontrol] at hdropped
    rcases hheld with hheld | hheld
    · rw [htaken] at hheld
      cases hheld
    · exact absurd hheld hdropped
  · intro j
    rw [htasks]
    by_cases hji : j = id
    · subst hji
      rw [Function.update_self]
      exact hplace
    · rw [Function.update_of_ne hji, hview j hji]
      exact h.place j
  · intro x hx
    rw [hbatch] at hx ⊢
    obtain ⟨h1, h2⟩ := h.failures x hx
    exact ⟨h1, by rw [State.FailedWith, hkeep _ h1]; exact h2⟩
  · intro e he
    rw [hbatch] at he ⊢
    obtain ⟨hall, j, h1, h2⟩ := h.failure e he
    have hsame : s'.answer = s.answer := by
      funext k
      by_cases hk : k < s.batch.plan.tasks
      · exact hkeep k (h.all_received hall hk)
      · have hki : k ≠ id := fun hki => hk (hki ▸ h.lt ht)
        rw [State.answer, State.answer, htasks, Function.update_of_ne hki]
    refine ⟨hall, j, ?_, ?_⟩
    · rw [State.FailedWith, hsame]
      exact h1
    · intro k e' hfailed
      rw [State.FailedWith, hsame] at hfailed
      exact h2 k e' hfailed

/-- A step of the coordinator or the caller. -/
theorem Sound.coordinate (h : Sound shares s) (htasks : s'.tasks = s.tasks)
    (hplan : s'.batch.plan = s.batch.plan)
    (hheld : s'.batch.taken = false → ¬ s'.control.Dropped → s.batch.taken = false ∧
      ¬ s.control.Dropped)
    (hnodup : s'.channel.Nodup) (hplace : ∀ j p, (s.view j).Place p → (s'.view j).Place p)
    (hcompleted : s'.batch.completed =
      ((Finset.range s.batch.plan.tasks).filter fun id => s'.batch.received id = true).card)
    (hfailures : ∀ x ∈ s'.batch.failures, s'.batch.received x.1 = true ∧ s.FailedWith x.1 x.2)
    (hfailure : ∀ e, s'.batch.failure = some e →
      s'.batch.completed = s.batch.plan.tasks ∧ s.Reports e)
    (hwaiting : ∀ c, s'.control = .waiting c → s'.batch.completed < s.batch.plan.tasks) :
    Sound shares s' := by
  have hanswer : s'.answer = s.answer := by
    funext j
    rw [State.answer, State.answer, htasks]
  refine ⟨by rw [hplan]; exact h.dealt, ?_, ?_, ?_, hnodup,
    ?_, by rw [hplan]; exact hcompleted, ?_, ?_,
    by rw [hplan]; exact hwaiting⟩
  · rw [htasks, hplan]
    exact h.tasks
  · rw [htasks, hplan]
    exact h.ok
  · intro htaken hdropped
    rw [htasks]
    obtain ⟨h1, h2⟩ := hheld htaken hdropped
    exact h.held h1 h2
  · intro j
    rw [htasks]
    exact hplace j _ (h.place j)
  · intro x hx
    obtain ⟨h1, h2⟩ := hfailures x hx
    exact ⟨h1, by rw [State.FailedWith, hanswer]; exact h2⟩
  · intro e he
    obtain ⟨h1, j, h2, h3⟩ := hfailure e he
    rw [hplan]
    refine ⟨h1, j, ?_, ?_⟩
    · rw [State.FailedWith, hanswer]
      exact h2
    · intro k e' hfailed
      rw [State.FailedWith, hanswer] at hfailed
      exact h3 k e' hfailed

/-- A step that only moves the coordinator on. -/
theorem Sound.move {c c' : Control} (h : Sound shares s) (hcontrol : s.control = c)
    (hreceived : c'.received? = c.received?)
    (hdropped : c.Dropped → c'.Dropped) (hgone : c ≠ .gone)
    (hwaiting : ∀ d, c' = .waiting d → s.batch.completed < s.batch.plan.tasks) :
    Sound shares { s with control := c' } := by
  subst hcontrol
  refine h.coordinate rfl rfl (fun h1 h2 => ⟨h1, fun h3 => h2 (hdropped h3)⟩) h.nodup ?_ h.completed
    h.failures h.failure
    hwaiting
  intro j p hp
  refine hp.mono Iff.rfl ?_ (fun h => absurd h hgone) rfl rfl rfl fun _ h => h
  show c'.received? = some j ↔ s.control.received? = some j
  rw [hreceived]

/-- An id is taken out of the channel. -/
theorem Sound.dequeue {c : Call} {ids : List ℕ} (h : Sound shares s)
    (hcontrol : s.control = .polling c ∨ s.control = .waiting c)
    (hchannel : s.channel = id :: ids) :
    Sound shares { s with channel := ids, control := .receiving c id } := by
  have hnot : s.control.received? = none := by
    rcases hcontrol with hcontrol | hcontrol <;> rw [hcontrol] <;> rfl
  have hgone : s.control ≠ .gone := by
    rcases hcontrol with hcontrol | hcontrol <;> rw [hcontrol] <;> exact fun h => (by cases h)
  have hdropped : s.control.Dropped → (Control.receiving c id).Dropped := by
    rcases hcontrol with hcontrol | hcontrol <;> rw [hcontrol]
    · cases c <;> exact fun h => h
    · exact False.elim
  have hnodup := h.nodup
  rw [hchannel, List.nodup_cons] at hnodup
  refine h.coordinate rfl rfl (fun h1 h2 => ⟨h1, fun h3 => h2 (hdropped h3)⟩) hnodup.2 ?_
    h.completed h.failures h.failure
    fun d hd => by cases hd
  intro j p hp
  by_cases hj : j = id
  · subst hj
    have hseen : (s.view j).waiting := by
      show j ∈ s.channel
      rw [hchannel]
      exact List.mem_cons_self
    obtain ⟨r, hphase, htransit⟩ := hp.of_seen (.inl hseen)
    obtain ⟨hslot, -⟩ := htransit.place.resolve_left hgone
    have hthrough : View.Transit (State.view { s with channel := ids, control := .receiving c j } j)
        r :=
      ⟨htransit.received, .inr ⟨hslot, .inr ⟨hnodup.1, rfl⟩⟩⟩
    rcases hphase with rfl | rfl <;> exact .inl hthrough
  · refine hp.mono ?_ ?_ (fun h => absurd h hgone) rfl rfl rfl fun _ h => h
    · show j ∈ ids ↔ j ∈ s.channel
      rw [hchannel, List.mem_cons, or_iff_right hj]
    · show some id = some j ↔ s.control.received? = some j
      rw [hnot]
      exact ⟨fun h => absurd (Option.some_inj.mp h).symm hj, fun h => by cases h⟩

/-- What is being received is in its slot, so it is accepted. -/
theorem Sound.receive {c : Call} (h : Sound shares s) (hcontrol : s.control = .receiving c id) :
    ∃ r worker, s.answer id = some r ∧ id < s.batch.plan.tasks ∧ s.batch.received id = false ∧
      s.slots id = some ⟨r, worker⟩ ∧ id ∉ s.channel := by
  have hplace := h.place id
  have hseen : (s.view id).receiving := by
    show s.control.received? = some id
    rw [hcontrol]
    rfl
  obtain ⟨r, hphase, htransit⟩ := hplace.of_seen (.inr hseen)
  have hgone : s.control ≠ .gone := by
    rw [hcontrol]
    exact fun h => by cases h
  obtain ⟨⟨worker, hslot⟩, hwhere⟩ := htransit.place.resolve_left hgone
  have hwaiting : id ∉ s.channel := by
    rcases hwhere with ⟨-, hno⟩ | ⟨hno, -⟩
    · exact absurd hseen hno
    · exact hno
  cases ht : s.tasks id with
  | none =>
    rw [ht] at hphase
    rcases hphase with hphase | hphase <;> cases hphase
  | some t =>
    rw [ht, Option.map_some, Option.some_inj, Option.some_inj] at hphase
    refine ⟨r, worker, ?_, h.lt ht, htransit.received, hslot, hwaiting⟩
    rw [State.answer_of_tasks ht]
    rcases hphase with hphase | hphase <;> rw [hphase] <;> rfl

theorem Sound.receive_ne_error {c : Call} (h : Sound shares s)
    (hcontrol : s.control = .receiving c id) :
    s.receive id ≠ .error e := by
  obtain ⟨r, worker, -, hlt, hreceived, hslot, -⟩ := h.receive hcontrol
  rw [State.receive]
  dsimp only
  rw [if_neg (not_le.mpr hlt), if_neg (by rw [hreceived]; exact Bool.false_ne_true), hslot]
  cases r <;> exact fun h => (by cases h)

/-- What accepting a completion changes. -/
theorem State.receive_ok (h : s.receive id = .ok s') : ∃ r worker, s.slots id = some ⟨r, worker⟩ ∧
    s.batch.received id = false ∧ s'.tasks = s.tasks ∧ s'.channel = s.channel ∧
      s'.slots = Function.update s.slots id none ∧ s'.batch.plan = s.batch.plan ∧
      s'.batch.input = s.batch.input ∧
      s'.batch.identity = s.batch.identity ∧ s'.batch.taken = s.batch.taken ∧
      s'.batch.received = Function.update s.batch.received id true ∧
      s'.batch.completed = s.batch.completed + 1 ∧
      s'.batch.failure = s.batch.failure ∧
      ((∃ a, r = .ok a ∧ s'.batch.artifacts = Function.update s.batch.artifacts id (some a) ∧
          s'.batch.failures = s.batch.failures) ∨
        ∃ e, r = .error e ∧ s'.batch.artifacts = s.batch.artifacts ∧
          s'.batch.failures = s.batch.failures ++ [(id, e)]) := by
  rw [State.receive] at h
  dsimp only at h
  split at h
  · cases h
  split at h
  · cases h
  rename_i hreceived
  cases hslot : s.slots id with
  | none =>
    rw [hslot] at h
    cases h
  | some completion =>
    obtain ⟨r, worker⟩ := completion
    rw [hslot] at h
    refine ⟨r, worker, rfl, Bool.eq_false_of_not_eq_true hreceived, ?_⟩
    cases r with
    | ok a =>
      cases h
      exact ⟨rfl, rfl, rfl, rfl, rfl, rfl, rfl, rfl, rfl, rfl, .inl ⟨a, rfl, rfl, rfl⟩⟩
    | error e =>
      cases h
      exact ⟨rfl, rfl, rfl, rfl, rfl, rfl, rfl, rfl, rfl, rfl, .inr ⟨e, rfl, rfl, rfl⟩⟩

/-- The coordinator accepts a completion. -/
theorem Sound.accept {c : Call} (h : Sound shares s) (hcontrol : s.control = .receiving c id)
    (hreceive : s.receive id = .ok s') : Sound shares { s' with control := .polling c } := by
  obtain ⟨r, worker, hanswer, hlt, hreceived, hslot, hwaiting⟩ := h.receive hcontrol
  obtain ⟨_, _, hslot', -, h1, h2, h3, h4, -, -, h5, h6, h7, h8, h9⟩ := State.receive_ok hreceive
  rw [hslot, Option.some_inj, Completion.mk.injEq] at hslot'
  obtain ⟨rfl, rfl⟩ := hslot'
  have hnot : s.control ≠ .gone := by
    rw [hcontrol]
    exact fun h => by cases h
  have hself : (Function.update s.batch.received id true) id = true := Function.update_self ..
  have hother : ∀ {j}, s.batch.received j = true →
      Function.update s.batch.received id true j = true := by
    intro j hj
    by_cases hji : j = id
    · rw [hji]
      exact hself
    · rw [Function.update_of_ne hji]
      exact hj
  refine h.coordinate h1 h4 ?_ (by rw [h2]; exact h.nodup) ?_ ?_ ?_ ?_ fun d hd => by cases hd
  · intro htaken hdropped
    rw [h5] at htaken
    refine ⟨htaken, fun hd => hdropped ?_⟩
    rw [hcontrol] at hd
    cases c <;> exact hd
  · intro j p hp
    by_cases hji : j = id
    · subst hji
      have hseen : (s.view j).receiving := by
        show s.control.received? = some j
        rw [hcontrol]
        rfl
      obtain ⟨r', hphase, htransit⟩ := hp.of_seen (.inr hseen)
      obtain ⟨⟨worker', hslot'⟩, -⟩ := htransit.place.resolve_left hnot
      have heq : s.slots j = some ⟨r', worker'⟩ := hslot'
      rw [hslot, Option.some_inj, Completion.mk.injEq] at heq
      obtain ⟨rfl, -⟩ := heq
      have harrived : View.Arrived (State.view { s' with control := .polling c } j) r := by
        refine ⟨?_, ?_, ?_, ?_, ?_, ?_⟩
        · show s'.batch.received j = true
          rw [h6]
          exact hself
        · show s'.slots j = none
          rw [h3]
          exact Function.update_self ..
        · show ¬ j ∈ s'.channel
          rw [h2]
          exact hwaiting
        · exact fun h => by cases h
        · rintro a rfl
          obtain ⟨a', ha, hart, -⟩ | ⟨e, he, -⟩ := h9
          · cases ha
            show s'.batch.artifacts j = some a
            rw [hart]
            exact Function.update_self ..
          · cases he
        · rintro e rfl -
          obtain ⟨a', ha, -⟩ | ⟨e', he, -, hfail⟩ := h9
          · cases ha
          · cases he
            show (j, e) ∈ s'.batch.failures
            rw [hfail]
            exact List.mem_append_right _ (List.mem_singleton_self _)
      rcases hphase with rfl | rfl <;> exact .inr harrived
    · refine hp.mono (by show j ∈ s'.channel ↔ _; rw [h2]; exact Iff.rfl) ?_
        (fun hg => absurd hg hnot) ?_ ?_ ?_ ?_
      · show none = some j ↔ s.control.received? = some j
        rw [hcontrol]
        exact ⟨fun h => (by cases h), fun h => absurd (Option.some_inj.mp h).symm hji⟩
      · show s'.batch.received j = s.batch.received j
        rw [h6, Function.update_of_ne hji]
      · show s'.slots j = s.slots j
        rw [h3, Function.update_of_ne hji]
      · show s'.batch.artifacts j = s.batch.artifacts j
        obtain ⟨a, -, hart, -⟩ | ⟨e, -, hart, -⟩ := h9
        · rw [hart, Function.update_of_ne hji]
        · rw [hart]
      · intro e hnoted hnone
        have hmem := hnoted (h8 ▸ hnone)
        show (j, e) ∈ s'.batch.failures
        obtain ⟨a, -, -, hfail⟩ | ⟨e', -, -, hfail⟩ := h9
        · rw [hfail]
          exact hmem
        · rw [hfail]
          exact List.mem_append_left _ hmem
  · show s'.batch.completed = _
    have hinsert : ((Finset.range s.batch.plan.tasks).filter fun j => s'.batch.received j = true) =
        insert id ((Finset.range s.batch.plan.tasks).filter fun j =>
        s.batch.received j = true) := by
      ext j
      rw [h6, Finset.mem_insert, Finset.mem_filter, Finset.mem_filter, Finset.mem_range]
      by_cases hji : j = id
      · rw [hji]
        exact ⟨fun _ => .inl rfl, fun _ => ⟨hlt, hself⟩⟩
      · rw [Function.update_of_ne hji, or_iff_right hji]
    rw [hinsert, Finset.card_insert_of_notMem, h7, h.completed]
    rw [Finset.mem_filter, hreceived]
    exact fun h => by cases h.2
  · intro x hx
    have hx' : x ∈ s'.batch.failures := hx
    show s'.batch.received x.1 = true ∧ _
    rw [h6]
    obtain ⟨a, -, -, hfail⟩ | ⟨e, rfl, -, hfail⟩ := h9
    · rw [hfail] at hx'
      exact (h.failures x hx').imp_left hother
    · rw [hfail, List.mem_append, List.mem_singleton] at hx'
      rcases hx' with hx' | rfl
      · exact (h.failures x hx').imp_left hother
      · exact ⟨hself, hanswer⟩
  · intro e he
    have hold : s.batch.failure = some e := h8 ▸ he
    obtain ⟨hall, -⟩ := h.failure e hold
    have := h.all_received hall hlt
    rw [hreceived] at this
    cases this

/-! ### What the coordinator reports -/

theorem Batch.rank_iff {x y : ℕ × ParallelEncodeError} : Batch.rank x y = true ↔
    (y.2 ≠ .cancelled → x.2 ≠ .cancelled) ∧
    ((x.2 ≠ .cancelled → y.2 ≠ .cancelled) → x.1 ≤ y.1) := by
  rw [Batch.rank]
  by_cases hx : x.2 = .cancelled <;> by_cases hy : y.2 = .cancelled <;> simp [hx, hy]

/-- Settling picks the first failure by rank. -/
theorem Batch.settle_spec (b : Batch W) (hnone : b.failure = none) :
    (b.failures = [] ∧ b.settle = b) ∨ ∃ x failures,
    b.settle = { b with failures, failure := some x.2 } ∧
      x ∈ b.failures ∧ (∀ y ∈ failures, y ∈ b.failures) ∧ ∀ y ∈ b.failures,
      Batch.rank x y = true := by
  have hsorted : (b.failures.mergeSort Batch.rank).Pairwise fun x y => Batch.rank x y = true := by
    apply List.pairwise_mergeSort
    · intro x y z
      rw [Batch.rank_iff, Batch.rank_iff, Batch.rank_iff]
      intro h1 h2
      exact ⟨fun h => h1.1 (h2.1 h),
        fun h => (h1.2 fun h' => h2.1 (h h')).trans (h2.2 fun h' => h (h1.1 h'))⟩
    · intro x y
      rw [Bool.or_eq_true, Batch.rank_iff, Batch.rank_iff]
      rcases le_total x.1 y.1 with h | h <;> by_cases hx : x.2 = .cancelled <;> by_cases hy :
        y.2 = .cancelled <;>
        simp [hx, hy, h]
  have hmem : ∀ {x}, x ∈ b.failures.mergeSort Batch.rank ↔ x ∈ b.failures := List.mem_mergeSort
  rw [Batch.settle, if_pos (by rw [hnone]; rfl)]
  cases hsort : b.failures.mergeSort Batch.rank with
  | nil =>
    rw [hsort] at hmem
    exact .inl ⟨List.eq_nil_iff_forall_not_mem.mpr fun x hx => (by cases hmem.mpr hx), rfl⟩
  | cons x failures =>
    rw [hsort] at hmem hsorted
    rw [List.pairwise_cons] at hsorted
    refine .inr ⟨x, failures, rfl, hmem.mp List.mem_cons_self,
      fun y hy => hmem.mp (List.mem_cons_of_mem _ hy), ?_⟩
    intro y hy
    rcases List.mem_cons.mp (hmem.mpr hy) with rfl | hy
    · exact Batch.rank_iff.mpr ⟨id, fun _ => le_rfl⟩
    · exact hsorted.1 y hy

/-- Once every completion is in, each task's answer is known, and its artifact or failure noted. -/
theorem Sound.recorded (h : Sound shares s) (hall : s.batch.completed = s.batch.plan.tasks)
    (hid : id < s.batch.plan.tasks) :
    ∃ r, s.answer id = some r ∧ (∀ a, r = .ok a → s.batch.artifacts id = some a) ∧
      ∀ e, r = .error e → s.batch.failure = none → (id, e) ∈ s.batch.failures := by
  obtain ⟨r, hphase, harrived⟩ := (h.place id).of_received (h.all_received hall hid)
  refine ⟨r, ?_, harrived.artifact, harrived.noted⟩
  cases ht : s.tasks id with
  | none =>
    rw [ht] at hphase
    rcases hphase with hphase | hphase <;> cases hphase
  | some t =>
    rw [ht, Option.map_some, Option.some_inj, Option.some_inj] at hphase
    rw [State.answer_of_tasks ht]
    rcases hphase with hphase | hphase <;> rw [hphase] <;> rfl

theorem Sound.of_answer {r : Answer} (h : Sound shares s) (hanswer : s.answer id = some r) :
    id < s.batch.plan.tasks := by
  cases ht : s.tasks id with
  | none =>
    rw [State.answer, ht] at hanswer
    cases hanswer
  | some t => exact h.lt ht

/-- What `ready` says: completions are missing, or a failure is reported, or the batch was
cancelled, or all succeeded. -/
theorem Sound.ready {r : Except ParallelEncodeError BatchPoll} {b : Batch W} (h : Sound shares s)
    (hready : s.batch.ready s.cancelled = (r, b)) :
    Sound shares { s with batch := b } ∧
      ((∃ completed total, r = .ok (.pending completed total) ∧ b = s.batch ∧
        s.batch.completed < s.batch.plan.tasks) ∨
        s.batch.completed = s.batch.plan.tasks ∧
          ((∃ e, r = .error (.batchFailed e) ∧ s.Reports e) ∨
            (∀ id < s.batch.plan.tasks, ∃ a, s.answer id = some (.ok a) ∧
              s.batch.artifacts id = some a) ∧ b = s.batch ∧
              r = if s.cancelled then .error .cancelled else .ok .ready)) := by
  rw [Batch.ready] at hready
  by_cases hlt : s.batch.completed < s.batch.plan.tasks
  · rw [if_pos hlt] at hready
    cases hready
    exact ⟨h, .inl ⟨_, _, rfl, rfl, hlt⟩⟩
  rw [if_neg hlt] at hready
  have hall : s.batch.completed = s.batch.plan.tasks := by
    refine le_antisymm ?_ (not_lt.mp hlt)
    rw [h.completed]
    exact (Finset.card_filter_le _ _).trans (Finset.card_range _).le
  dsimp only at hready
  cases hfailure : s.batch.failure with
  | some e =>
    have hsettle : s.batch.settle = s.batch := by rw [Batch.settle, hfailure]; rfl
    rw [hsettle, hfailure] at hready
    cases hready
    exact ⟨h, .inr ⟨hall, .inl ⟨e, rfl, (h.failure e hfailure).2⟩⟩⟩
  | none =>
    have hfailed : ∀ {id e}, s.FailedWith id e → (id, e) ∈ s.batch.failures := by
      intro id e hid
      obtain ⟨r, hr, -, hnoted⟩ := h.recorded hall (h.of_answer hid)
      rw [State.FailedWith, hr] at hid
      cases hid
      exact hnoted e rfl hfailure
    obtain ⟨hnil, hsettle⟩ | ⟨x, failures, hsettle, hx, hsub, hrank⟩ := s.batch.settle_spec hfailure
    · rw [hsettle, hfailure] at hready
      have hok : ∀ id < s.batch.plan.tasks, ∃ a, s.answer id = some (.ok a) ∧
          s.batch.artifacts id = some a := by
        intro id hid
        obtain ⟨r, hr, hart, -⟩ := h.recorded hall hid
        cases r with
        | ok a => exact ⟨a, hr, hart a rfl⟩
        | error e =>
          have := hfailed hr
          rw [hnil] at this
          cases this
      dsimp only at hready
      by_cases hc : s.cancelled = true
      · rw [if_pos hc] at hready
        cases hready
        exact ⟨h, .inr ⟨hall, .inr ⟨hok, rfl, (if_pos hc).symm⟩⟩⟩
      · rw [if_neg hc] at hready
        cases hready
        exact ⟨h, .inr ⟨hall, .inr ⟨hok, rfl, (if_neg hc).symm⟩⟩⟩
    · rw [hsettle] at hready
      cases hready
      have hreports : s.Reports x.2 :=
        ⟨x.1, (h.failures x hx).2, fun id e he => Batch.rank_iff.mp (hrank (id, e) (hfailed he))⟩
      refine ⟨?_, .inr ⟨hall, .inl ⟨x.2, rfl, hreports⟩⟩⟩
      refine h.coordinate rfl rfl (fun h1 h2 => ⟨h1, h2⟩) h.nodup ?_ h.completed ?_ ?_ h.waiting
      · intro j p hp
        exact hp.mono Iff.rfl Iff.rfl id rfl rfl rfl fun e _ hnone => by cases hnone
      · exact fun y hy => h.failures y (hsub y hy)
      · rintro e he
        cases he
        exact ⟨hall, hreports⟩

theorem Consecutive.start_le {shares : List Share} {segment stop : ℕ}
    (h : Consecutive shares segment stop) {share : Share}
    (hmem : share ∈ shares) : share.start ≤ share.stop := by
  induction shares generalizing segment with
  | nil => cases hmem
  | cons a shares ih =>
    rcases List.mem_cons.mp hmem with rfl | hmem
    · exact h.2.1
    · exact ih h.2.2 hmem

/-- A task that was run or dropped was taken, or the batch is being dropped. -/
theorem Sound.taken (h : Sound shares s) (ht : s.tasks id = some t) (hphase : t.phase ≠ .held) :
    s.batch.taken = true ∨ s.control.Dropped := by
  by_contra hno
  rw [not_or, Bool.not_eq_true] at hno
  exact hphase (h.held hno.1 hno.2 id t ht)

theorem Sound.start_le (h : Sound shares s) (ht : s.tasks id = some t) {share : Share}
    (hmem : share ∈ shares) :
    share.start ≤ share.stop :=
  (h.dealt.consecutive (Nat.ne_of_gt (Nat.zero_lt_of_lt (h.lt ht)))).start_le hmem

/-- A sender always finds room: each id is sent once. -/
theorem Sound.send_room {r : Answer} {abandoned : Bool} (h : Sound shares s)
    (ht : s.tasks id = some t)
    (hphase : t.phase = .send r abandoned) : s.channel.length < s.batch.plan.tasks := by
  have hplace := h.place id
  rw [ht, Option.map_some, hphase] at hplace
  have hnot : id ∉ s.channel := hplace.1.waiting
  have hlt : ∀ j ∈ id :: s.channel, j ∈ List.range s.batch.plan.tasks := by
    intro j hj
    rw [List.mem_range]
    rcases List.mem_cons.mp hj with rfl | hj
    · exact h.lt ht
    · obtain ⟨r, hj', -⟩ := (h.place j).of_seen (.inl hj)
      by_contra hge
      rw [(h.tasks j).mpr (not_lt.mp hge)] at hj'
      rcases hj' with hj' | hj' <;> cases hj'
  have hsub := (List.nodup_cons.mpr ⟨hnot, h.nodup⟩).subperm hlt
  have := hsub.length_le
  rw [List.length_cons, List.length_range] at this
  exact this

/-- Not connected and with nothing to receive, the coordinator has every completion. -/
theorem Sound.all_completed (h : Sound shares s) (hchannel : s.channel = [])
    (hconnected : ¬ s.Connected)
    (hreceived : s.control.received? = none) (hgone : s.control ≠ .gone) :
    s.batch.completed = s.batch.plan.tasks := by
  rw [h.completed, Finset.filter_true_of_mem, Finset.card_range]
  intro j hj
  rw [Finset.mem_range] at hj
  cases ht : s.tasks j with
  | none => exact absurd hj (not_lt.mpr ((h.tasks j).mp ht))
  | some t =>
    have hsender : t.phase.holdsSender = false := by
      by_contra hholds
      exact hconnected ⟨j, t, ht, Bool.eq_true_of_not_eq_false hholds⟩
    have hthrough : ∀ {r}, (s.view j).Transit r ∨ (s.view j).Arrived r →
        s.batch.received j = true := by
      rintro r (htransit | harrived)
      · rcases htransit.place with hg | ⟨-, ⟨hw, -⟩ | ⟨-, hc⟩⟩
        · exact absurd hg hgone
        · have : j ∈ s.channel := hw
          rw [hchannel] at this
          cases this
        · have : s.control.received? = some j := hc
          rw [hreceived] at this
          cases this
      · exact harrived.received
    have hplace := h.place j
    rw [ht, Option.map_some] at hplace
    cases hphase : t.phase with
    | cancel r =>
      rw [hphase] at hplace
      exact hthrough hplace
    | ended r =>
      rw [hphase] at hplace
      exact hthrough hplace
    | _ =>
      rw [hphase] at hsender
      cases hsender

theorem Sound.trim (h : Sound shares s) : Sound shares { s with batch := s.batch.trim } :=
  h.coordinate rfl rfl (fun h1 h2 => ⟨h1, h2⟩) h.nodup (fun _ _ hp => hp) h.completed
    h.failures h.failure
      h.waiting

theorem Batch.finishInto_batch {b b' : Batch W} {dst out : List UInt8} {reserved : Bool}
    {r : Except ParallelEncodeError (ℕ × ℕ)} (h : b.finishInto dst reserved = (r, out, b')) :
    b' = b ∨ b' = b.trim := by
  unfold Batch.finishInto at h
  split at h
  · cases h
    exact .inl rfl
  split at h
  · cases h
    exact .inl rfl
  split at h
  · cases h
    exact .inl rfl
  split at h
  · cases h
    exact .inl rfl
  split at h
  · cases h
    exact .inl rfl
  · cases h
    exact .inr rfl

/-- Every step keeps the state sound. -/
theorem Sound.step {event : Event} (h : Sound shares s) (hs : Step s event s') :
    Sound shares s' := by
  -- a task that is not published: nobody knows of its end, and its slot is empty
  have hquiet : ∀ {id t}, s.tasks id = some t → t.phase.isPublished = false →
      (s.view id).Unsent ∧ (s.view id).slot = none := by
    intro id t ht hpub
    have hplace := h.place id
    rw [ht, Option.map_some] at hplace
    exact (View.place_of_not_published hpub).mp hplace
  cases hs with
  | @run id t ht hphase htaken =>
    have hq := hquiet ht (by rw [hphase]; rfl)
    exact h.update ht rfl rfl rfl (.inl htaken)
      (fun share hmem hok => Task.run_ok hok hphase (h.start_le ht hmem)) h.nodup
      (fun _ _ => rfl) ((View.place_of_not_published t.run_not_published).mpr hq)
        (.inl hq.1.received)
  | @dropTask id t ht hphase hallowed =>
    have hq := hquiet ht (by rw [hphase]; rfl)
    refine h.update ht rfl rfl rfl (hallowed.imp_right fun hc => ?_) ?_ h.nodup (fun _ _ => rfl)
      ((View.place_of_not_published rfl).mpr hq) (.inl hq.1.received)
    · rw [hc]
      trivial
    · exact fun share _ hok => ⟨hok.range, fun a ha => by cases ha⟩
  | @work id t t' choice ht hwork =>
    have hq := hquiet ht (Task.not_published_of_work hwork)
    refine h.update ht rfl rfl rfl (h.taken ht fun hheld => ?_)
      (fun share _ hok => Task.work_ok hok hwork) h.nodup
      (fun _ _ => rfl) ((View.place_of_not_published (Task.work_not_published hwork)).mpr hq)
        (.inl hq.1.received)
    unfold Task.work at hwork
    rw [hheld] at hwork
    cases hwork
  | @caught id t r ht hphase =>
    have hq := hquiet ht (by rw [hphase]; rfl)
    refine h.update ht rfl rfl rfl (h.taken ht (by rw [hphase]; exact fun h => by cases h)) ?_
      h.nodup (fun _ _ => rfl)
      ((View.place_of_not_published rfl).mpr hq) (.inl hq.1.received)
    exact fun share _ hok => ⟨hok.range, Task.answer_ok hok hphase⟩
  | @publish id t r abandoned ht hphase =>
    have hq := hquiet ht (by rw [hphase]; rfl)
    refine h.update ht rfl rfl rfl (h.taken ht (by rw [hphase]; exact fun h => by cases h))
      ?_ h.nodup ?_ ?_
      (.inl hq.1.received)
    · intro share _ hok
      have hphase' := hok.phase
      rw [hphase] at hphase'
      exact ⟨hok.range, hphase'⟩
    · intro j hj
      simp only [State.view, State.put, Function.update_of_ne hj]
    · exact ⟨⟨hq.1.waiting, hq.1.receiving, hq.1.received⟩, t.worker, Function.update_self ..⟩
  | @send id t r abandoned ht hphase hgone hroom =>
    have hplace := h.place id
    rw [ht, Option.map_some, hphase] at hplace
    obtain ⟨hunsent, hslot⟩ := hplace
    have hnodup : (s.channel ++ [id]).Nodup := by
      rw [List.nodup_append_comm, List.singleton_append, List.nodup_cons]
      exact ⟨hunsent.waiting, h.nodup⟩
    refine h.update ht rfl rfl rfl (h.taken ht (by rw [hphase]; exact fun h => by cases h))
      ?_ hnodup ?_ ?_
      (.inl hunsent.received)
    · intro share _ hok
      have hphase' := hok.phase
      rw [hphase] at hphase'
      cases abandoned <;> exact ⟨hok.range, hphase'⟩
    · intro j hj
      simp only [State.view, State.put, List.mem_append, List.mem_singleton, hj, or_false]
    · have htransit : View.Transit (State.view { s.put id { t with
          phase := if abandoned then .cancel r else .ended r } with channel := s.channel ++
              [id] } id) r :=
        ⟨hunsent.received, .inr ⟨hslot,
          .inl ⟨List.mem_append_right _ (List.mem_singleton_self _), hunsent.receiving⟩⟩⟩
      cases abandoned <;> exact .inl htransit
  | @sendGone id t r abandoned ht hphase hgone =>
    have hplace := h.place id
    rw [ht, Option.map_some, hphase] at hplace
    obtain ⟨hunsent, hslot⟩ := hplace
    refine h.update ht rfl rfl rfl (h.taken ht (by rw [hphase]; exact fun h => by cases h)) ?_
      h.nodup
      (fun _ _ => rfl) ?_ (.inl hunsent.received)
    · intro share _ hok
      have hphase' := hok.phase
      rw [hphase] at hphase'
      cases abandoned <;> exact ⟨hok.range, hphase'⟩
    · have htransit : (s.view id).Transit r := ⟨hunsent.received, .inl hgone⟩
      cases abandoned <;> exact .inl htransit
  | @cancelTask id t r ht hphase =>
    have hplace := h.place id
    rw [ht, Option.map_some, hphase] at hplace
    refine h.update ht rfl rfl rfl (h.taken ht (by rw [hphase]; exact fun h => by cases h)) ?_
      h.nodup
      (fun _ _ => rfl) hplace (.inr (by rw [hphase]; rfl))
    intro share _ hok
    have hphase' := hok.phase
    rw [hphase] at hphase'
    exact ⟨hok.range, hphase'⟩
  | takeTasks hidle =>
    exact h.coordinate rfl rfl (fun h1 _ => by
      cases h1) h.nodup (fun _ _ hp => hp) h.completed h.failures h.failure
      h.waiting
  | cancel hidle =>
    exact h.coordinate rfl rfl (fun h1 h2 => ⟨h1, h2⟩) h.nodup (fun _ _ hp => hp) h.completed
      h.failures h.failure
      h.waiting
  | callPoll hidle =>
      exact h.move hidle rfl False.elim (fun h => by cases h) fun d hd => by cases hd
  | notReady => exact h
  | @callWait c hidle hc =>
      exact h.move hidle rfl False.elim (fun h => by cases h) fun d hd => by cases hd
  | callDrop hidle =>
    have h' : Sound shares { s with cancelled := true } :=
      h.coordinate rfl rfl (fun h1 h2 => ⟨h1, h2⟩) h.nodup (fun _ _ hp => hp) h.completed
        h.failures h.failure
      h.waiting
    exact h'.move hidle rfl False.elim (fun h => by cases h) fun d hd => by cases hd
  | polled hcontrol hchannel => exact h.dequeue (.inl hcontrol) hchannel
  | accept hcontrol hreceive => exact h.accept hcontrol hreceive
  | reject hcontrol _ hreceive => exact absurd hreceive (h.receive_ne_error hcontrol)
  | ignore hcontrol hreceive => exact absurd hreceive (h.receive_ne_error hcontrol)
  | @drained c hcontrol hc =>
      exact h.move hcontrol rfl (by cases c <;> [exact id; exact id; exact id; exact absurd rfl hc])
        (fun h => by cases h) fun d hd => by cases hd
  | @closed c hcontrol hc hchannel hconnected hcompleted =>
    exact absurd (h.all_completed hchannel hconnected (by rw [hcontrol]; rfl)
      (by rw [hcontrol]; exact fun h => by cases h))
      hcompleted
  | @poll r b hcontrol hready =>
      exact (h.ready hready).1.move hcontrol rfl False.elim (fun h => by cases h) fun d hd => by
        cases hd
  | @pending c completed total b hcontrol hc hready =>
    obtain ⟨h', ⟨_, _, -, rfl, hlt⟩ | ⟨-, ⟨e, hr, -⟩ | ⟨-, -, hr⟩⟩⟩ := h.ready hready
    · exact h'.move hcontrol rfl False.elim (fun h => by cases h) fun _ _ => hlt
    · cases hr
    · split at hr <;> cases hr
  | @failed c e b hcontrol hc hready =>
      exact (h.ready hready).1.move hcontrol rfl False.elim (fun h => by cases h) fun d hd => by
        cases hd
  | @wait timed b hcontrol hready =>
      exact (h.ready hready).1.move hcontrol rfl False.elim (fun h => by cases h) fun d hd => by
        cases hd
  | @finish dst out b b' reserved r hcontrol hready hfinish =>
    have h' := (h.ready hready).1
    rcases Batch.finishInto_batch hfinish with rfl | rfl
    · exact h'.move hcontrol rfl False.elim (fun h => by cases h) fun d hd => by cases hd
    · exact h'.trim.move hcontrol rfl False.elim (fun h => by cases h) fun d hd => by cases hd
  | received hcontrol hchannel => exact h.dequeue (.inr hcontrol) hchannel
  | timedOut hcontrol =>
      exact h.move hcontrol rfl False.elim (fun h => by cases h) fun d hd => by cases hd
  | @hungUp c hcontrol hchannel hconnected =>
      exact h.move hcontrol rfl False.elim (fun h => by cases h) fun d hd => by cases hd
  | drain hcontrol =>
      exact h.move hcontrol rfl (fun _ => trivial) (fun h => by cases h) fun d hd => by cases hd
  | drop hcontrol hchannel =>
      exact h.trim.move hcontrol rfl (fun _ => trivial) (fun h => by cases h) fun d hd => by
        cases hd

/-! ### The output -/

/-- The artifacts of the tasks that succeeded, by task. -/
def State.artifacts (s : State W) : List Artifact :=
  (List.range s.batch.plan.tasks).filterMap fun id => s.answer id >>= fun r => r.toOption

/-- What a successful batch is assembled to: the artifacts in order, and the end of the
stream. An input without segments has the serial encoder's stream. -/
def State.stream (s : State W) : List UInt8 :=
  if s.batch.plan.tasks = 0 then s.batch.empty
  else (s.artifacts.map Artifact.storage).flatten ++ if s.batch.plan.serial then [] else [3]

section Output

variable {plan : Plan} {as : List Artifact} {ids : List ℕ} {segment stop total : ℕ} {b : Batch W}

theorem sum_storage (h : List.Forall₂ (fun a share => Staged plan share a share.stop) as shares) :
    (as.map fun a => a.storage.length).sum ≤ (shares.map Share.bound).sum := by
  induction h with
  | nil => exact le_rfl
  | cons hstaged _ ih =>
    rw [List.map_cons, List.map_cons, List.sum_cons, List.sum_cons]
    exact Nat.add_le_add (hstaged.stored.trans_le hstaged.fits) ih

/-- Artifacts of consecutive shares cover the plan. -/
theorem covers (h : List.Forall₂ (fun a share => Staged plan share a share.stop) as shares)
    (hc : Consecutive shares segment plan.segmentCount) : Covers plan as segment := by
  induction h generalizing segment with
  | nil => exact hc.symm
  | cons hstaged _ ih =>
    obtain ⟨rfl, -, hc⟩ := hc
    exact ⟨_, hstaged.stored ▸ hstaged.tiles, ih hc⟩

theorem Batch.checkArtifacts_ok (hids : List.Forall₂ (fun id a => b.artifacts id = some a) ids as)
    (h : List.Forall₂ (fun a share => Staged b.plan share a share.stop) as shares)
    (hc : Consecutive shares segment stop)
    (hsum : total + (as.map fun a => a.storage.length).sum ≤ u64Max) :
    b.checkArtifacts ids segment total =
    .ok (stop, total + (as.map fun a => a.storage.length).sum) := by
  induction hids generalizing segment total shares with
  | nil =>
    cases h
    obtain rfl := hc
    rfl
  | @cons id a ids as ha _ ih =>
    cases h with
    | cons hstaged h =>
      obtain ⟨rfl, -, hc⟩ := hc
      rw [List.map_cons, List.sum_cons] at hsum ⊢
      have hlen : a.len ≤ u64Max := by
        rw [← hstaged.stored]
        omega
      have htotal : total + a.len ≤ u64Max := by
        rw [← hstaged.stored]
        omega
      rw [Batch.checkArtifacts, ha]
      dsimp only
      rw [if_neg (not_not.mpr hstaged.stored.symm), hstaged.tiles.check hlen]
      show (if a.len ≠ a.len then _ else checked (total + a.len) >>= _) = _
      rw [if_neg (not_not.mpr rfl), checked, if_pos htotal, ← hstaged.stored, ← Nat.add_assoc]
      exact ih h hc (by omega)

theorem Batch.assembleArtifacts_ok {dst : List UInt8} {written : ℕ}
    (hids : List.Forall₂ (fun id a => b.artifacts id = some a) ids as)
    (hsum : written + (as.map fun a => a.storage.length).sum ≤ u64Max) :
    b.assembleArtifacts ids dst written =
      .ok (dst ++ (as.map Artifact.storage).flatten,
        written + (as.map fun a => a.storage.length).sum) := by
  induction hids generalizing dst written with
  | nil => rw [Batch.assembleArtifacts, List.map_nil, List.flatten_nil, List.append_nil]; rfl
  | @cons id a ids as ha _ ih =>
    rw [List.map_cons, List.sum_cons] at hsum
    have hnot : ¬ u64Max < written + a.storage.length := by omega
    rw [Batch.assembleArtifacts, ha]
    dsimp only
    rw [Batch.writeCounted, if_neg hnot]
    dsimp only
    rw [ih (by omega), List.map_cons, List.map_cons, List.sum_cons, List.flatten_cons,
      List.append_assoc, Nat.add_assoc]

end Output

/-- A task that succeeded staged its whole share. -/
theorem Sound.staged {a : Artifact} (h : Sound shares s) (hanswer : s.answer id = some (.ok a)) :
    ∃ share, shares[id]? = some share ∧ Staged s.batch.plan share a share.stop := by
  cases ht : s.tasks id with
  | none =>
    rw [State.answer, ht] at hanswer
    cases hanswer
  | some t =>
    obtain ⟨share, hshare, hok⟩ := h.ok id t ht
    refine ⟨share, hshare, ?_⟩
    have hphase := hok.phase
    rw [State.answer_of_tasks ht] at hanswer
    cases hp : t.phase with
    | publish r b | send r b | cancel r | ended r =>
      rw [hp] at hanswer hphase
      cases hanswer
      exact hphase a rfl
    | _ =>
      rw [hp] at hanswer
      cases hanswer

/-- Every task succeeded, and the coordinator has its artifact. -/
def State.Complete (s : State W) : Prop :=
  ∀ id < s.batch.plan.tasks, ∃ a, s.answer id = some (.ok a) ∧ s.batch.artifacts id = some a

theorem State.Complete.artifacts (hok : s.Complete) :
    List.Forall₂ (fun id a => s.answer id = some (.ok a) ∧ s.batch.artifacts id = some a)
      (List.range s.batch.plan.tasks) s.artifacts := by
  have hall : ∀ id ∈ List.range s.batch.plan.tasks, ∃ a, s.answer id = some (.ok a) ∧
      s.batch.artifacts id = some a :=
    fun id hid => hok id (List.mem_range.mp hid)
  rw [State.artifacts]
  generalize List.range s.batch.plan.tasks = ids at hall
  induction ids with
  | nil => exact .nil
  | cons id ids ih =>
    obtain ⟨a, ha, hart⟩ := hall id List.mem_cons_self
    rw [List.filterMap_cons, ha]
    exact .cons ⟨ha, hart⟩ (ih fun id hid => hall id (List.mem_cons_of_mem _ hid))

theorem Sound.staged_all (h : Sound shares s) (hok : s.Complete) :
    List.Forall₂ (fun a share => Staged s.batch.plan share a share.stop) s.artifacts shares := by
  have hids := hok.artifacts
  have hlen := hids.length_eq
  rw [List.length_range] at hlen
  rw [List.forall₂_iff_get]
  refine ⟨hlen.symm.trans h.dealt.length.symm, fun i hi hi' => ?_⟩
  have hat := (List.forall₂_iff_get.mp hids).2 i (by rw [List.length_range, hlen]; exact hi) hi
  rw [List.get_eq_getElem, List.getElem_range] at hat
  obtain ⟨share, hshare, hstaged⟩ := h.staged hat.1
  rw [List.getElem?_eq_getElem hi', Option.some_inj] at hshare
  subst hshare
  exact hstaged

/-- The source is what the batch was planned for. -/
structure Batch.SourceKept (b : Batch W) : Prop where
  len : b.input.len = b.plan.inputBytes
  identity : b.identity = b.input.identity

theorem Batch.SourceKept.checkSource {b : Batch W} (h : b.SourceKept) : b.checkSource = .ok () := by
  have hlen := h.len
  have hidentity := h.identity
  rw [Batch.checkSource]
  cases hinput : b.input with
  | slice n => rfl
  | source n identity =>
    rw [hinput] at hlen hidentity
    dsimp only
    split
    · rfl
    · rw [if_neg]
      rintro (hne | ⟨-, hne⟩)
      · exact hne hlen
      · exact hne hidentity.symm

/-- Assembling a complete batch appends its stream, unless the destination cannot grow. -/
theorem Sound.finishInto {dst out : List UInt8} {reserved : Bool}
    {r : Except ParallelEncodeError (ℕ × ℕ)} {b' : Batch W}
    (h : Sound shares s) (hsource : s.batch.SourceKept) (hok : s.Complete)
    (hfinish : s.batch.finishInto dst reserved = (r, out, b')) :
    (r = .ok (dst.length, dst.length + s.stream.length) ∧ out = dst ++ s.stream) ∨
      (r = .error .sizeOverflow ∨ r = .error .allocation) ∧ out = dst := by
  have hids : List.Forall₂ (fun id a => s.batch.artifacts id = some a)
      (List.range s.batch.plan.tasks) s.artifacts :=
    hok.artifacts.imp fun _ _ h => h.2
  have hstaged := h.staged_all hok
  have hsum := (sum_storage hstaged).trans_lt h.dealt.bound
  have hlen : (s.artifacts.map Artifact.storage).flatten.length =
      (s.artifacts.map fun a => a.storage.length).sum := by
    rw [List.length_flatten, List.map_map]
    rfl
  have hvalidate : s.batch.validate = .ok s.stream.length := by
    rw [Batch.validate, hsource.checkSource, State.stream]
    show (if s.batch.plan.tasks = 0 then _ else _) = _
    by_cases hzero : s.batch.plan.tasks = 0
    · rw [if_pos hzero, if_pos hzero]
    · rw [if_neg hzero, if_neg hzero,
        Batch.checkArtifacts_ok hids hstaged (h.dealt.consecutive hzero)
        (by rw [Nat.zero_add]; exact hsum.le)]
      show (if s.batch.plan.segmentCount ≠ s.batch.plan.segmentCount then _ else checked _) = _
      rw [if_neg (not_not.mpr rfl), List.length_append, hlen, Nat.zero_add]
      cases s.batch.plan.serial
      · exact if_pos hsum
      · exact if_pos hsum.le
  unfold Batch.finishInto at hfinish
  rw [hvalidate] at hfinish
  dsimp only at hfinish
  split at hfinish
  · cases hfinish
    exact .inr ⟨.inl rfl, rfl⟩
  rename_i hroom
  split at hfinish
  · cases hfinish
    exact .inr ⟨.inr rfl, rfl⟩
  have hassemble : s.batch.assemble dst = .ok (dst ++ s.stream, s.stream.length) := by
    have hfit : ¬ u64Max < 0 + s.stream.length := by omega
    rw [Batch.assemble]
    by_cases hzero : s.batch.plan.tasks = 0
    · rw [State.stream, if_pos hzero] at hfit ⊢
      rw [if_pos hzero, Batch.writeCounted, if_neg hfit, Nat.zero_add]
    · rw [if_neg hzero, Batch.assembleArtifacts_ok hids (by rw [Nat.zero_add]; exact hsum.le)]
      rw [State.stream, if_neg hzero] at hfit ⊢
      show (if s.batch.plan.serial = true then _ else Batch.writeCounted _ _ _) = _
      cases hserial : s.batch.plan.serial with
      | true => rw [if_pos rfl, if_pos rfl, List.append_nil, hlen, Nat.zero_add]
      | false =>
        rw [hserial, List.length_append, hlen] at hfit
        rw [if_neg Bool.false_ne_true, if_neg Bool.false_ne_true, Batch.writeCounted, Nat.zero_add,
          if_neg (by simpa using hfit),
          List.length_append, hlen, List.append_assoc]
  rw [hassemble] at hfinish
  dsimp only at hfinish
  rw [if_neg (not_not.mpr rfl)] at hfinish
  cases hfinish
  exact .inl ⟨rfl, rfl⟩

end Sound

/-! ### Runs -/

section Prepared

variable {env : Environment W} {parent : ParallelCompressor W} {input : Input}
    {config : BatchConfig} {s s' : State W}

theorem assignWorkers_ok {newWorker : Except ParallelEncodeError W} {shares : List Share}
    {pool workers : List W}
    {tasks : List (Task W)} (plan : Plan)
    (h : assignWorkers newWorker shares pool = .ok (tasks, workers)) :
    List.Forall₂ (fun t share => t.Ok plan share ∧ t.phase = .held) tasks shares := by
  induction shares generalizing pool tasks workers with
  | nil =>
    cases h
    exact .nil
  | cons share shares ih =>
    obtain ⟨worker, -, h⟩ := Compressor.ok_of_bind h
    obtain ⟨⟨rest, left⟩, hrest, h⟩ := Compressor.ok_of_bind h
    cases h
    exact .cons ⟨⟨rfl, rfl⟩, rfl⟩ (ih hrest)

theorem plan_inputBytes {retainedBytes : List W → ℕ} {len : ℕ} {plan : Plan}
    (hplan : parent.plan retainedBytes len config = .ok plan) : plan.inputBytes = len := by
  obtain ⟨staged, -, hplan⟩ := Compressor.ok_of_bind hplan
  obtain ⟨active, -, hplan⟩ := Compressor.ok_of_bind hplan
  obtain ⟨staging, -, hplan⟩ := Compressor.ok_of_bind hplan
  obtain ⟨aggregate, -, hplan⟩ := Compressor.ok_of_bind hplan
  split at hplan
  · cases hplan
  obtain ⟨final, -, hplan⟩ := Compressor.ok_of_bind hplan
  cases hplan
  rfl

/-- A prepared batch has its tasks held, nothing sent and nothing received. -/
structure Prepared (s : State W) : Prop where
  sound : ∃ shares, Sound shares s
  source : s.batch.SourceKept
  held : ∀ id t, s.tasks id = some t → t.phase = .held
  received : ∀ id, s.batch.received id = false

theorem prepare_ok (h : prepare env parent input config = .ok s) : Prepared s := by
  obtain ⟨plan, hplan, h⟩ := Compressor.ok_of_bind h
  obtain ⟨shares, hshares, h⟩ := Compressor.ok_of_bind h
  obtain ⟨⟨tasks, workers⟩, htasks, h⟩ := Compressor.ok_of_bind h
  cases h
  have hdealt := dealt hplan hshares
  have hforall := assignWorkers_ok plan htasks
  have hlength : tasks.length = plan.tasks := hforall.length_eq.trans hdealt.length
  have hat : ∀ (id : ℕ) (t : Task W), tasks[id]? = some t →
      ∃ share, shares[id]? = some share ∧ t.Ok plan share ∧ t.phase = .held := by
    intro id t ht
    obtain ⟨hlt, rfl⟩ := List.getElem?_eq_some_iff.mp ht
    have hlt' : id < shares.length := hforall.length_eq ▸ hlt
    exact ⟨_, List.getElem?_eq_getElem hlt', (List.forall₂_iff_get.mp hforall).2 id hlt hlt'⟩
  refine ⟨⟨shares, hdealt, ?_, ?_, ?_, List.nodup_nil, ?_, ?_, ?_, ?_, fun c hc => (by cases hc)⟩,
    ⟨?_, rfl⟩, ?_,
    fun _ => rfl⟩
  · intro id
    show tasks[id]? = none ↔ plan.tasks ≤ id
    rw [List.getElem?_eq_none_iff, hlength]
  · intro id t ht
    obtain ⟨share, hshare, hok, -⟩ := hat id t ht
    exact ⟨share, hshare, hok⟩
  · intro _ _ id t ht
    obtain ⟨_, _, _, hheld⟩ := hat id t ht
    exact hheld
  · intro id
    have hunsent : View.Unsent (State.view (W := W) { tasks := fun id => tasks[id]?, batch := {
        parent := { parent with workers }, plan, input, identity := input.identity, empty :=
        emptyOutput parent input } } id) :=
      ⟨List.not_mem_nil, fun h => (by cases h), rfl⟩
    show View.Place _ (Option.map Task.phase tasks[id]?)
    cases ht : tasks[id]? with
    | none => exact ⟨hunsent, rfl⟩
    | some t =>
      obtain ⟨_, _, _, hheld⟩ := hat id t ht
      rw [Option.map_some, hheld]
      exact ⟨hunsent, rfl⟩
  · show 0 = _
    rw [eq_comm, Finset.card_eq_zero, Finset.filter_eq_empty_iff]
    exact fun id _ => Bool.false_ne_true
  · exact fun x hx => by cases hx
  · exact fun e he => by cases he
  · exact (plan_inputBytes hplan).symm
  · intro id t ht
    obtain ⟨_, _, _, hheld⟩ := hat id t ht
    exact hheld

/-- What every step leaves as it was planned. -/
theorem Step.sourceKept {event : Event} (hs : Step s event s') (h : s.batch.SourceKept) :
    s'.batch.SourceKept := by
  have hsettle : s.batch.settle.SourceKept := by
    rw [Batch.settle]
    split
    · split <;> exact ⟨h.len, h.identity⟩
    · exact h
  have hready : ∀ {r : Except ParallelEncodeError BatchPoll} {b : Batch W},
      s.batch.ready s.cancelled = (r, b) → b.SourceKept := by
    intro r b hr
    rw [Batch.ready] at hr
    split at hr
    · cases hr
      exact h
    dsimp only at hr
    split at hr
    · cases hr
      exact hsettle
    · split at hr <;> cases hr <;> exact hsettle
  cases hs with
  | accept _ hr =>
    obtain ⟨_, _, -, -, -, -, -, hplan, hinput, hidentity, -⟩ := State.receive_ok hr
    exact ⟨hplan ▸ hinput ▸ h.len, hidentity ▸ hinput ▸ h.identity⟩
  | poll _ hr => exact hready hr
  | pending _ _ hr => exact hready hr
  | failed _ _ hr => exact hready hr
  | wait _ hr => exact hready hr
  | finish _ hr hfinish =>
    have hb := hready hr
    rcases Batch.finishInto_batch hfinish with rfl | rfl
    · exact hb
    · exact ⟨hb.len, hb.identity⟩
  | takeTasks => exact ⟨h.len, h.identity⟩
  | drop => exact ⟨h.len, h.identity⟩
  | _ => exact h

/-- The completion of task `id` was put into its slot. -/
def State.isPublished (s : State W) (id : ℕ) : Bool := (s.tasks id).any fun t => t.phase.isPublished

theorem State.isPublished_update {id j : ℕ} {t : Task W}
    (h : s'.tasks = Function.update s.tasks id (some t)) :
    s'.isPublished j = if id = j then t.phase.isPublished else s.isPublished j := by
  rw [State.isPublished, h]
  by_cases hj : id = j
  · subst hj
    rw [Function.update_self, if_pos rfl]
    rfl
  · rw [Function.update_of_ne (Ne.symm hj), if_neg hj]
    rfl

/-- A step puts a completion into a slot where no one was put before, and shows it. -/
theorem Step.isPublished {event : Event} (hs : Step s event s') (id : ℕ) :
    (if s'.isPublished id then 1 else 0) = (if s.isPublished id then 1 else 0) +
    if event.isPublished id then 1 else 0 := by
  have hkeep : ∀ {j : ℕ} {t t' : Task W} {event : Event} {s' : State W}, s.tasks j = some t →
      s'.tasks = Function.update s.tasks j (some t') → t'.phase.isPublished = t.phase.isPublished →
      event.isPublished id = false → (if s'.isPublished id then 1 else 0) =
        (if s.isPublished id then 1 else 0) + if event.isPublished id then 1 else 0 := by
    intro j t t' event s' ht htasks hsame hevent
    rw [State.isPublished_update htasks, hsame, hevent]
    by_cases hj : j = id
    · subst hj
      rw [if_pos rfl, State.isPublished, ht]
      rfl
    · rw [if_neg hj]
      rfl
  have hsame : ∀ {event : Event} {s' : State W}, s'.tasks = s.tasks → event.isPublished id = false →
      (if s'.isPublished id then 1 else 0) =
        (if s.isPublished id then 1 else 0) + if event.isPublished id then 1 else 0 := by
    intro event s' htasks hevent
    rw [State.isPublished, htasks, hevent]
    rfl
  cases hs with
  | @run j t ht hphase => exact hkeep ht rfl (by rw [t.run_not_published, hphase]; rfl) rfl
  | dropTask ht hphase => exact hkeep ht rfl (by rw [hphase]; rfl) rfl
  | work ht hwork =>
      exact hkeep ht rfl (by rw [Task.work_not_published hwork, Task.not_published_of_work hwork])
        rfl
  | caught ht hphase => exact hkeep ht rfl (by rw [hphase]; rfl) rfl
  | @publish j t r abandoned ht hphase =>
    rw [State.isPublished_update rfl]
    by_cases hj : j = id
    · subst hj
      have hbefore : s.isPublished j = false := by
        rw [State.isPublished, ht]
        show t.phase.isPublished = false
        rw [hphase]
        rfl
      rw [if_pos rfl, hbefore, Event.isPublished, decide_eq_true rfl]
      rfl
    · rw [if_neg hj, Event.isPublished, decide_eq_false hj]
      rfl
  | @send j t r abandoned ht hphase =>
      exact hkeep ht rfl (by rw [hphase]; cases abandoned <;> rfl) rfl
  | @sendGone j t r abandoned ht hphase =>
      exact hkeep ht rfl (by rw [hphase]; cases abandoned <;> rfl) rfl
  | cancelTask ht hphase => exact hkeep ht rfl (by rw [hphase]; rfl) rfl
  | accept _ hr =>
    obtain ⟨_, _, -, -, htasks, -⟩ := State.receive_ok hr
    exact hsame htasks rfl
  | _ => exact hsame rfl rfl

/-- A step accepts what was not accepted before, and shows it. -/
theorem Step.isAccepted {event : Event} (hs : Step s event s') (id : ℕ) :
    (if s'.batch.received id then 1 else 0) =
      (if s.batch.received id then 1 else 0) + if event.isAccepted id then 1 else 0 := by
  have hsame : ∀ {event : Event} {s' : State W}, s'.batch.received = s.batch.received →
    event.isAccepted id = false →
      (if s'.batch.received id then 1 else 0) =
        (if s.batch.received id then 1 else 0) + if event.isAccepted id then 1 else 0 := by
    intro event s' hreceived hevent
    rw [hreceived, hevent]
    rfl
  have hready : ∀ {r : Except ParallelEncodeError BatchPoll} {b : Batch W},
      s.batch.ready s.cancelled = (r, b) → b.received = s.batch.received := by
    intro r b hr
    have hsettle : s.batch.settle.received = s.batch.received := by
      rw [Batch.settle]
      split
      · split <;> rfl
      · rfl
    rw [Batch.ready] at hr
    split at hr
    · cases hr
      rfl
    dsimp only at hr
    split at hr
    · cases hr
      exact hsettle
    · split at hr <;> cases hr <;> exact hsettle
  cases hs with
  | @accept s' c j _ hr =>
    obtain ⟨_, _, -, hbefore, -, -, -, -, -, -, -, hreceived, -⟩ := State.receive_ok hr
    dsimp only
    rw [hreceived]
    by_cases hj : j = id
    · subst hj
      rw [Function.update_self, hbefore, Event.isAccepted, decide_eq_true rfl]
      rfl
    · rw [Function.update_of_ne (Ne.symm hj), Event.isAccepted, decide_eq_false hj]
      rfl
  | poll _ hr => exact hsame (hready hr) rfl
  | pending _ _ hr => exact hsame (hready hr) rfl
  | failed _ _ hr => exact hsame (hready hr) rfl
  | wait _ hr => exact hsame (hready hr) rfl
  | finish _ hr hfinish =>
    have hreceived := hready hr
    refine hsame ?_ rfl
    rcases Batch.finishInto_batch hfinish with rfl | rfl <;> exact hreceived
  | _ => exact hsame rfl rfl

/-! ### What the calls return -/

/-- Every task succeeded. -/
def State.AllSucceeded (s : State W) : Prop := ∀ id < s.batch.plan.tasks, s.Succeeded id

/-- What a call that waited for every completion reports. -/
inductive Verdict (s : State W) : Except ParallelEncodeError Unit → Prop where
  | succeeded : s.AllSucceeded → s.cancelled = false → Verdict s (.ok ())
  | failed {e : ParallelEncodeError} : s.Reports e → Verdict s (.error (.batchFailed e))
  | cancelled : s.AllSucceeded → s.cancelled = true → Verdict s (.error .cancelled)
  | notReady : s.batch.taken = false → 0 < s.batch.plan.tasks → Verdict s (.error .notReady)

/-- What a call may return in a state. -/
def Return.Correct (s : State W) : Return → Prop
  | poll r => (∃ completed total, r = .ok (.pending completed total)) ∨
      Verdict s (r.map fun _ => ())
  | wait r => r = .ok .timedOut ∨ Verdict s (r.map fun _ => ())
  | finish dst r out =>
    (((∃ range, r = .ok range) ∨ r = .error .sizeOverflow ∨ r = .error .allocation) ↔
      s.AllSucceeded ∧ s.cancelled = false) ∧
    (∀ range, r = .ok range → range = (dst.length, dst.length + s.stream.length) ∧
      out = dst ++ s.stream ∧
      (s.batch.plan.tasks ≠ 0 → Covers s.batch.plan s.artifacts 0)) ∧
    ∀ e, r = .error e → out = dst ∧ (e = .sizeOverflow ∨ e = .allocation ∨ Verdict s (.error e))
  | dropped => True

variable {shares : List Share}

theorem Sound.verdict_ne_ok {e : ParallelEncodeError} (h : Sound shares s)
    (hidle : s.batch.taken = false → ¬ s.control.Dropped)
    (hverdict : Verdict s (.error e)) : ¬ (s.AllSucceeded ∧ s.cancelled = false) := by
  rintro ⟨hall, hclear⟩
  cases hverdict with
  | failed hreports =>
    obtain ⟨id, hfailed, -⟩ := hreports
    obtain ⟨a, ha⟩ := hall id (h.of_answer hfailed)
    rw [State.FailedWith, ha] at hfailed
    cases hfailed
  | cancelled _ hset =>
    rw [hclear] at hset
    cases hset
  | notReady htaken hpos =>
    obtain ⟨a, ha⟩ := hall 0 hpos
    cases ht : s.tasks 0 with
    | none =>
      rw [State.answer, ht] at ha
      cases ha
    | some t =>
      rw [State.answer_of_tasks ht, h.held htaken (hidle htaken) 0 t ht] at ha
      cases ha

/-- A call that fails returns what its verdict says. -/
theorem Sound.fails_correct {c : Call} {e : ParallelEncodeError} (h : Sound shares s)
    (hidle : s.batch.taken = false → ¬ s.control.Dropped) (hverdict : Verdict s (.error e)) :
    (c.fails e).Correct s := by
  cases c with
  | poll => exact .inr hverdict
  | wait timed => exact .inr hverdict
  | drop => trivial
  | finish dst =>
    refine ⟨⟨?_, fun hok => absurd hok (h.verdict_ne_ok hidle hverdict)⟩, ?_, ?_⟩
    · rintro (⟨range, hr⟩ | hr | hr)
      · cases hr
      · cases hr
        cases hverdict
      · cases hr
        cases hverdict
    · exact fun range hr => by cases hr
    · intro e' he
      cases he
      exact ⟨rfl, .inr (.inr hverdict)⟩

theorem State.Complete.allSucceeded (h : s.Complete) : s.AllSucceeded := fun id hid =>
  let ⟨a, ha, _⟩ := h id hid
  ⟨a, ha⟩

/-- What a step returns is correct. -/
theorem Sound.returned {event : Event} {r : Return} (h : Sound shares s)
    (hsource : s.batch.SourceKept)
    (hs : Step s event s') (hr : event = .returned r) : r.Correct s := by
  cases hs with
  | @notReady c hidle hc htaken hpos =>
    cases hr
    exact h.fails_correct (fun _ => by rw [hidle]; exact id) (.notReady htaken hpos)
  | reject hcontrol _ hreceive => exact absurd hreceive (h.receive_ne_error hcontrol)
  | @closed c hcontrol hc hchannel hconnected hcompleted =>
    exact absurd (h.all_completed hchannel hconnected (by rw [hcontrol]; rfl)
      (by rw [hcontrol]; exact fun h => by cases h))
      hcompleted
  | @poll r b hcontrol hready =>
    cases hr
    obtain ⟨-, ⟨completed, total, rfl, -, -⟩ | ⟨hall, ⟨e, rfl, hreports⟩ | ⟨hok, -, rfl⟩⟩⟩ :=
      h.ready hready
    · exact .inl ⟨completed, total, rfl⟩
    · exact .inr (.failed hreports)
    · right
      by_cases hc : s.cancelled = true
      · rw [if_pos hc]
        exact .cancelled (State.Complete.allSucceeded hok) hc
      · rw [if_neg hc]
        exact .succeeded (State.Complete.allSucceeded hok) (Bool.eq_false_of_not_eq_true hc)
  | @failed c e b hcontrol hc hready =>
    cases hr
    refine h.fails_correct (fun _ => by rw [hcontrol]; exact id) ?_
    obtain ⟨-, ⟨completed, total, hr, -, -⟩ | ⟨hall, ⟨e', hr, hreports⟩ | ⟨hok, -, hr⟩⟩⟩ :=
      h.ready hready
    · cases hr
    · cases hr
      exact .failed hreports
    · by_cases hc : s.cancelled = true
      · rw [if_pos hc] at hr
        cases hr
        exact .cancelled (State.Complete.allSucceeded hok) hc
      · rw [if_neg hc] at hr
        cases hr
  | @wait timed b hcontrol hready =>
    cases hr
    obtain ⟨-, ⟨completed, total, hr, -, -⟩ | ⟨hall, ⟨e', hr, hreports⟩ | ⟨hok, -, hr⟩⟩⟩ :=
      h.ready hready
    · cases hr
    · cases hr
    · refine .inr (.succeeded (State.Complete.allSucceeded hok) ?_)
      by_contra hc
      rw [Bool.not_eq_false] at hc
      rw [if_pos hc] at hr
      cases hr
  | @finish dst out b b' reserved r hcontrol hready hfinish =>
    cases hr
    obtain ⟨-, ⟨completed, total, hr, -, -⟩ | ⟨hall, ⟨e', hr, hreports⟩ | ⟨hok, rfl, hr⟩⟩⟩ :=
      h.ready hready
    · cases hr
    · cases hr
    have hclear : s.cancelled = false := by
      by_contra hc
      rw [Bool.not_eq_false] at hc
      rw [if_pos hc] at hr
      cases hr
    have hsuccess : s.AllSucceeded ∧ s.cancelled = false :=
      ⟨State.Complete.allSucceeded hok, hclear⟩
    obtain ⟨rfl, rfl⟩ | ⟨hroom, rfl⟩ := h.finishInto hsource hok hfinish
    · refine ⟨⟨fun _ => hsuccess, fun _ => .inl ⟨_, rfl⟩⟩, ?_, fun e he => by cases he⟩
      rintro range hrange
      cases hrange
      exact ⟨rfl, rfl, fun htasks => covers (h.staged_all hok) (h.dealt.consecutive htasks)⟩
    · refine ⟨⟨fun _ => hsuccess, fun _ => .inr hroom⟩, ?_, ?_⟩
      · rintro range rfl
        rcases hroom with hroom | hroom <;> cases hroom
      · rintro e rfl
        refine ⟨rfl, ?_⟩
        rcases hroom with hroom | hroom <;> cases hroom
        · exact .inl rfl
        · exact .inr (.inl rfl)
  | timedOut =>
    cases hr
    exact .inl rfl
  | @hungUp c hcontrol hchannel hconnected =>
    have hall :=
      h.all_completed hchannel hconnected (by rw [hcontrol]; rfl)
        (by rw [hcontrol]; exact fun h => by cases h)
    exact absurd hall (h.waiting c hcontrol).ne
  | drop =>
    cases hr
    trivial
  | _ => cases hr

/-- **The batch protocol.** In every run from a prepared batch, each task that ended put one
completion into its slot, and before its id was in the channel; each id is accepted at most
once; and every call returns what is correct: `finish_into` succeeds exactly if every task
succeeded and the flag was clear, unless the destination cannot grow, and then appends the
artifacts, which cover the plan; a failure is that of the first task that did not just see
the cancellation. -/
theorem batch_protocol {s₀ : State W} {events : List Event}
    (hprep : prepare env parent input config = .ok s₀)
    (hrun : Run Step s₀ events s) :
    (∀ id, events.countP (Event.isPublished id) = if s.isPublished id then 1 else 0) ∧
    (∀ id, id ∈ s.channel ∨ s.control.received? = some id → s.isPublished id = true ∧
      (s.control ≠ .gone → ∃ completion, s.slots id = some completion ∧
        s.answer id = some completion.result)) ∧
    (∀ id, events.countP (Event.isAccepted id) ≤ 1) ∧
    ∀ event s' r, Step s event s' → event = .returned r → r.Correct s := by
  have hprepared := prepare_ok hprep
  obtain ⟨shares, hsound₀⟩ := hprepared.sound
  obtain ⟨hsound, hsource⟩ : Sound shares s ∧ s.batch.SourceKept :=
    hrun.invariant (P := fun s => Sound shares s ∧ s.batch.SourceKept)
      (fun _ _ _ h hs => ⟨h.1.step hs, hs.sourceKept h.2⟩) ⟨hsound₀, hprepared.source⟩
  refine ⟨fun id => ?_, fun id hseen => ?_, fun id => ?_,
    fun event s' r hs hr => hsound.returned hsource hs hr⟩
  · have hcount := hrun.countP (f := fun s => if s.isPublished id then 1 else 0) fun s _ s' hs =>
      Step.isPublished hs id
    have hzero : s₀.isPublished id = false := by
      rw [State.isPublished]
      cases ht : s₀.tasks id with
      | none => rfl
      | some t =>
        show t.phase.isPublished = false
        rw [hprepared.held id t ht]
        rfl
    rw [hzero, if_neg Bool.false_ne_true, Nat.zero_add] at hcount
    exact hcount.symm
  · obtain ⟨r, hphase, htransit⟩ := (hsound.place id).of_seen hseen
    cases ht : s.tasks id with
    | none =>
      rw [ht] at hphase
      rcases hphase with hphase | hphase <;> cases hphase
    | some t =>
      rw [ht, Option.map_some, Option.some_inj, Option.some_inj] at hphase
      constructor
      · rw [State.isPublished, ht]
        show t.phase.isPublished = true
        rcases hphase with hphase | hphase <;> rw [hphase] <;> rfl
      · intro hgone
        obtain ⟨⟨worker, hslot⟩, -⟩ := htransit.place.resolve_left hgone
        refine ⟨_, hslot, ?_⟩
        rw [State.answer_of_tasks ht]
        rcases hphase with hphase | hphase <;> rw [hphase] <;> rfl
  · have hcount := hrun.countP (f := fun s => if s.batch.received id then 1 else 0) fun s _ s' hs =>
      Step.isAccepted hs id
    rw [hprepared.received id, if_neg Bool.false_ne_true, Nat.zero_add] at hcount
    rw [← hcount]
    split <;> omega

end Prepared

/-! ### Batches of one task and of none -/

/-- A compressor that cuts every input into fragments. -/
def smallParent : ParallelCompressor Unit where
  encoder := { quality := 11, window := ⟨.standard, 22, by decide, by decide⟩ }
  parallel := { minimumParallelSize := 0 }

def calm : Environment Unit where
  createStaging := fun _ => .ok ()
  newWorker := .ok ()
  retainedBytes := fun _ => 0

def inMemory : BatchConfig := ⟨⟨1, by decide⟩, .memory 4096⟩

/-- An input of one byte. -/
def oneTask : State Unit where
  tasks := fun id => [(⟨(0, 1), some (), some { bound := 1026 }, .held⟩ : Task Unit)][id]?
  batch :=
    { parent := smallParent, plan := ⟨1, false, 4194304, 1, 1, 1026⟩,
      input := .slice 1, identity := none }

theorem prepare_of {W : Type} {env : Environment W} {parent : ParallelCompressor W} {input : Input}
    {config : BatchConfig} (plan : Plan) (shares : List Share)
    (hplan : parent.plan env.retainedBytes input.len config = .ok plan)
    (hshares : prepareTasks plan env.createStaging plan.tasks 0 0 = .ok shares) :
    prepare env parent input config = (assignWorkers env.newWorker shares parent.workers).map
    fun (tasks, workers) =>
      { tasks := fun id => tasks[id]?
        batch := {
          parent := { parent with workers }
          plan
          input
          identity := input.identity
          empty := emptyOutput parent input } } := by
  rw [prepare, hplan]
  show (prepareTasks plan env.createStaging plan.tasks 0 0 >>= _) = _
  rw [hshares]
  rfl

/-- A batch with every completion and no failure. -/
theorem Batch.ready_ok {W : Type} {b : Batch W} (hall : b.completed = b.plan.tasks)
    (hfailures : b.failures = [])
    (hfailure : b.failure = none) : b.ready false = (.ok .ready, b) := by
  have hsettle : b.settle = b := by
    rw [Batch.settle, hfailures, List.mergeSort_nil]
    split <;> rfl
  rw [Batch.ready, if_neg hall.not_lt]
  dsimp only
  rw [hsettle, hfailure]
  rfl

theorem prepare_oneTask : prepare calm smallParent (.slice 1) inMemory = .ok oneTask := by
  rw [prepare_of ⟨1, false, 4194304, 1, 1, 1026⟩ [⟨0, 1, 1026⟩] (by decide +kernel)
    (by decide +kernel)]
  rfl

/-- `finish_into` with room for the output. -/
theorem Step.finished {W : Type} {s : State W} {dst : List UInt8}
    (hcontrol : s.control = .ready (.finish dst))
    (hready : s.batch.ready s.cancelled = (.ok .ready, s.batch)) :
    Step s
    (.returned (.finish dst (s.batch.finishInto dst true).1 (s.batch.finishInto dst true).2.1))
      { s with batch := (s.batch.finishInto dst true).2.2, control := .idle } :=
  .finish hcontrol hready rfl

theorem batch_protocol_oneTask :
    ∃ (events : List Event) (s s' : State Unit), Run Step oneTask events s ∧
    events.countP (Event.isPublished 0) = 1 ∧
    Step s (.returned (.finish [9] (.ok (1, 6)) [9, 11, 0, 128, 104, 3])) s' ∧
    Return.Correct s (.finish [9] (.ok (1, 6)) [9, 11, 0, 128, 104, 3]) := by
  have hrun : ∃ (events : List Event) (s s' : State Unit) (r : Except ParallelEncodeError (ℕ × ℕ))
    (out : List UInt8),
      Run Step oneTask events s ∧ s.isPublished 0 = true ∧
      Step s (.returned (.finish [9] r out)) s' ∧
      r = .ok (1, 6) ∧ out = [9, 11, 0, 128, 104, 3] := by
    exact ⟨_, _, _, _, _, .cons (@Step.takeTasks Unit oneTask rfl) <|
      .cons (@Step.run Unit _ 0 _ rfl rfl rfl) <|
      .cons (@Step.work Unit _ 0 _ _ .go rfl rfl) <|
        .cons (@Step.work Unit _ 0 _ _ (.read ()) rfl rfl) <|
      .cons (@Step.work Unit _ 0 _ _ .go rfl rfl) <|
      .cons (@Step.work Unit _ 0 _ _ (.encoded () (.ok ⟨[11, 0, 128, 104], by decide⟩) (.ok ())) rfl
        rfl) <|
      .cons (@Step.work Unit _ 0 _ _ .go rfl rfl) <|
        .cons (@Step.caught Unit _ 0 _ (.ok ()) rfl rfl) <|
      .cons (@Step.publish Unit _ 0 _ _ _ rfl rfl) <|
        .cons (@Step.send Unit _ 0 _ _ _ rfl rfl (fun h => by cases h) (by decide)) <|
      .cons (@Step.callWait Unit _ (.finish [9]) rfl (.finish [9]) (.inl rfl)) <|
      .cons (@Step.polled Unit _ _ _ _ rfl rfl) <| .cons (@Step.accept Unit _ _ _ _ rfl rfl) <|
      .single (@Step.drained Unit _ _ rfl (fun h => by cases h) rfl (.inr rfl)), rfl,
      Step.finished rfl (Batch.ready_ok rfl rfl rfl), by decide +kernel, by decide +kernel⟩
  obtain ⟨events, s, s', _, _, hrun, hpublished, hfinish, rfl, rfl⟩ := hrun
  obtain ⟨hcount, -, -, hcorrect⟩ := batch_protocol prepare_oneTask hrun
  refine ⟨events, s, s', hrun, ?_, hfinish, hcorrect _ _ _ hfinish rfl⟩
  rw [hcount 0, hpublished]
  rfl

/-- An input without segments. -/
def noTask : State Unit where
  tasks := fun id => ([] : List (Task Unit))[id]?
  batch := {
    parent := smallParent
    plan := ⟨0, true, 4194304, 0, 0, 1024⟩
    input := .slice 0
    identity := none
    empty := [59] }

theorem prepare_noTask : prepare calm smallParent (.slice 0) inMemory = .ok noTask := by
  rw [prepare_of ⟨0, true, 4194304, 0, 0, 1024⟩ [] (by decide +kernel) (by decide +kernel)]
  have : emptyOutput smallParent (.slice 0) = [59] := by decide +kernel
  rw [this]
  rfl

/-- It has no artifacts, and its output is not empty. And with every task successful and
the flag clear, the output fails where the destination cannot grow. -/
theorem finish_noTask : ∃ s s' :
    State Unit, prepare calm smallParent (.slice 0) inMemory = .ok noTask ∧
    Run Step noTask [.silent, .silent] s ∧
    (Step s (.returned (.finish [] (.ok (0, 1)) [59])) s' ∧
      [59] ≠ [] ++ (s.artifacts.map Artifact.storage).flatten ++
      (if s.batch.plan.serial then [] else [3])) ∧
    (s.AllSucceeded ∧ s.cancelled = false) ∧
    Step s (.returned (.finish [] (.error .allocation) [])) s' := by
  have h1 : Step noTask .silent { noTask with control := .polling (.finish []) } :=
    .callWait rfl (.finish []) (.inr rfl)
  have h2 : Step { noTask with control := .polling (.finish []) } .silent
      { noTask with control := .ready (.finish []) } :=
    .drained rfl (fun h => by cases h) rfl (.inr rfl)
  have h3 : Step { noTask with control := .ready (.finish []) }
    (.returned (.finish [] (.ok (0, 1)) [59]))
      { noTask with control := .idle } :=
    @Step.finish Unit _ _ _ noTask.batch noTask.batch true _ rfl (Batch.ready_ok rfl rfl rfl) rfl
  have h4 : Step { noTask with control := .ready (.finish []) }
    (.returned (.finish [] (.error .allocation) []))
      { noTask with control := .idle } :=
    @Step.finish Unit _ _ _ noTask.batch noTask.batch false _ rfl (Batch.ready_ok rfl rfl rfl) rfl
  exact ⟨_, _, prepare_noTask, .cons h1 (.single h2), ⟨h3, by decide⟩,
    ⟨fun id hid => absurd hid (Nat.not_lt_zero _), rfl⟩,
    h4⟩

end Mbrotli.Parallel
