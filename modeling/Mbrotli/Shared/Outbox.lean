/-
# Sinks, sources and staged output

A `Sink` and a `Source` are a writer and a reader that keep to their contract and are free
otherwise: short counts, interruptions and errors at any call, by a state of any kind. An
`Outbox` holds what was produced and not yet taken by its sink; `Ledger` says that what the
sink took, and then what is staged, is the output of the steps taken so far.
-/
import Mbrotli.Lib.Run
import Mbrotli.Shared.Io

namespace Mbrotli

/-- A writer: what each call answers, and its state then. It takes no more than it is given. -/
structure Sink (σ : Type) where
  write : σ → List UInt8 → Except IoError ℕ × σ
  flush : σ → Except IoError Unit × σ
  write_le : ∀ s bytes n s', write s bytes = (.ok n, s') → n ≤ bytes.length

/-- A reader: the bytes each call puts into a buffer of some length, and its state then. -/
structure Source (τ : Type) where
  read : τ → ℕ → Except IoError (List UInt8) × τ
  read_le : ∀ s room bytes s', read s room = (.ok bytes, s') → bytes.length ≤ room

section andThen

variable {S α β : Type} {x : Option (Except IoError α × S)} {f : α → S →
    Option (Except IoError β × S)}
  {r : Except IoError β} {s' : S}

/-- Runs `f` behind `x`; an error is handed on. `none` is a call that has not returned. -/
def andThen (x : Option (Except IoError α × S)) (f : α → S → Option (Except IoError β × S)) :
    Option (Except IoError β × S) :=
  match x with
  | none => none
  | some (.error e, s) => some (.error e, s)
  | some (.ok a, s) => f a s

end andThen

/-- A vector's bytes after `resize(n, 0)`. -/
def resized (bytes : List UInt8) (n : ℕ) : List UInt8 :=
  bytes.take n ++ List.replicate (n - bytes.length) 0

/-- A sink behind a buffer: `buffer[head..tail]` was produced and not yet taken. -/
structure Outbox (σ : Type) where
  sink : σ
  buffer : List UInt8 := []
  head : ℕ := 0
  tail : ℕ := 0
  /-- What the sink has taken so far; no code reads it. -/
  received : List UInt8 := []

namespace Outbox

variable {σ : Type} {sink : Sink σ} {cast : ℕ → ℕ} {o o' : Outbox σ}

/-- The bytes still to be delivered. -/
def undelivered (o : Outbox σ) : List UInt8 := (o.buffer.take o.tail).drop o.head

/-- Hands the sink every byte it will take, keeping the rest; `cast` is the cursor's width. -/
def drain (sink : Sink σ) (cast : ℕ → ℕ) : ℕ → Outbox σ → Option (Except IoError Unit × Outbox σ)
  | 0, _ => none
  | fuel + 1, o =>
    if o.head < o.tail then
      match sink.write o.sink o.undelivered with
      | (.ok 0, s) => some (.error .writeZero, { o with sink := s })
      | (.ok count, s) =>
        drain sink cast fuel
          { o with sink := s, head := o.head + cast count, received := o.received ++
            o.undelivered.take count }
      | (.error .interrupted, s) => drain sink cast fuel { o with sink := s }
      | (.error e, s) => some (.error e, { o with sink := s })
    else some (.ok (), { o with head := 0, tail := 0 })

structure InBounds (o : Outbox σ) : Prop where
  head_le : o.head ≤ o.tail
  tail_le : o.tail ≤ o.buffer.length

theorem length_undelivered (h : o.InBounds) : o.undelivered.length = o.tail - o.head := by
  rw [undelivered, List.length_drop, List.length_take, Nat.min_eq_left h.tail_le]

/-- What a drain keeps, however it ends. -/
structure Drained (o o' : Outbox σ) (r : Except IoError Unit) : Prop where
  bounds : o'.InBounds
  buffer : o'.buffer = o.buffer
  kept : o'.received ++ o'.undelivered = o.received ++ o.undelivered
  emptied : r = .ok () → o'.head = 0 ∧ o'.tail = 0
  /-- The sink is only given bytes. -/
  taken : o.received <+: o'.received

theorem undelivered_nil (h : o.tail = 0) : o.undelivered = [] := by
  rw [undelivered, h, List.take_zero, List.drop_nil]

end Outbox

/-! ### The ledger -/

/-- From one moment to a later one: the steps added took in `bytes`, and the sink was only
given bytes. -/
structure Took {C σ : Type} (taken : C → List UInt8) (consumed : C → ℕ) (calls calls' : List C)
    (o o' : Outbox σ)
    (bytes : List UInt8) : Prop where
  calls : ∃ more, calls' = calls ++ more ∧ (more.map taken).flatten = bytes ∧
    (more.map consumed).sum = bytes.length
  received : o.received <+: o'.received

namespace Took

variable {C σ : Type} {taken : C → List UInt8} {consumed : C → ℕ} {calls calls' calls'' : List C}
    {o o' o'' : Outbox σ}
  {bytes bytes' : List UInt8} {c : C}

theorem none (h : o.received <+: o'.received) : Took taken consumed calls calls o o' [] :=
  ⟨⟨[], (List.append_nil _).symm, rfl, rfl⟩, h⟩

theorem one (h : o.received <+: o'.received) (hn : (taken c).length = consumed c) :
    Took taken consumed calls (calls ++ [c]) o o' (taken c) :=
  ⟨⟨[c], rfl, by simp, by simp [hn]⟩, h⟩

theorem trans (h : Took taken consumed calls calls' o o' bytes)
    (h' : Took taken consumed calls' calls'' o' o'' bytes') :
    Took taken consumed calls calls'' o o'' (bytes ++ bytes') := by
  obtain ⟨more, h1, h2, h3⟩ := h.calls
  obtain ⟨more', h4, h5, h6⟩ := h'.calls
  refine ⟨⟨more ++ more', ?_, ?_, ?_⟩, h.received.trans h'.received⟩
  · rw [h4, h1, List.append_assoc]
  · rw [List.map_append, List.flatten_append, h2, h5]
  · rw [List.map_append, List.sum_append, h3, h6, List.length_append]

end Took

/-- The steps `calls` led from `s₀` to `s`; their output is what the sink has taken, and then
what is staged. -/
structure Ledger {S C σ : Type} (step : S → C → S → Prop) (output : C → List UInt8) (s₀ s : S)
    (calls : List C)
    (o : Outbox σ) : Prop where
  run : Run step s₀ calls s
  bounds : o.InBounds
  staged : o.received ++ o.undelivered = (calls.map output).flatten

namespace Ledger

variable {S C σ : Type} {step : S → C → S → Prop} {output : C →
    List UInt8} {s₀ s s' : S} {calls : List C} {c : C}
  {o o' : Outbox σ}

theorem new (s : S) (sink : σ) (buffer : List UInt8) :
    Ledger step output s s [] ({ sink, buffer } : Outbox σ) := by
  refine ⟨.nil s, ⟨Nat.le_refl _, Nat.zero_le _⟩, ?_⟩
  rw [Outbox.undelivered_nil rfl]
  rfl

theorem drained {r : Except IoError Unit} (h : Ledger step output s₀ s calls o)
    (hd : Outbox.Drained o o' r) :
    Ledger step output s₀ s calls o' :=
  ⟨h.run, hd.bounds, hd.kept.trans h.staged⟩

/-- An empty outbox is filled with one step's output. -/
theorem filled (h : Ledger step output s₀ s calls o) (hhead : o.head = 0) (htail : o.tail = 0)
    (hs : step s c s')
    {buffer : List UInt8} {n : ℕ} (hn : n ≤ buffer.length) (hout : buffer.take n = output c) :
    Ledger step output s₀ s' (calls ++ [c]) { o with buffer, tail := n } := by
  have hstaged := h.staged
  rw [Outbox.undelivered_nil htail, List.append_nil] at hstaged
  refine ⟨h.run.append (.single hs), ⟨by dsimp only; omega, hn⟩, ?_⟩
  rw [Outbox.undelivered]
  dsimp only
  rw [hhead, List.drop_zero, hout, hstaged, List.map_append, List.flatten_append,
    List.map_singleton,
    List.flatten_singleton]

end Ledger
end Mbrotli
