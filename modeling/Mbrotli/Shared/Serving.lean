/-
# Sinks and sources that get on

A sink that `Accepts` takes something of what it is given, and a source that `Serves` yields
its bytes and then its end; either may fail at any call and be interrupted before each, but
not for ever. `Settles` says of a loop that it ends: with enough fuel its result is the same.
-/
import Mbrotli.Shared.Outbox

namespace Mbrotli

/-- The sink takes something of what it is given, but for `tries s` more errors; before each
answer it is interrupted `interrupts s` times at most. -/
structure Sink.Accepts {σ : Type} (sink : Sink σ) (tries interrupts : σ → ℕ) : Prop where
  write : ∀ s bytes n s', bytes ≠ [] → sink.write s bytes = (.ok n, s') → 0 < n ∧ tries s' ≤ tries s
  interrupted : ∀ s bytes s', sink.write s bytes = (.error .interrupted, s') →
    tries s' ≤ tries s ∧ interrupts s' < interrupts s
  write_error : ∀ s bytes e s', e ≠ .interrupted → sink.write s bytes = (.error e, s') →
    tries s' < tries s
  flush : ∀ s s', sink.flush s = (.ok (), s') → tries s' ≤ tries s
  flush_error : ∀ s e s', sink.flush s = (.error e, s') → tries s' < tries s

/-- From some fuel on, the result is `y`. -/
def Settles {X : Type} (x : ℕ → ℕ → Option X) (y : X) : Prop :=
  ∃ n, ∀ turns ≥ n, ∀ fuel ≥ n, x turns fuel = some y

namespace Settles

variable {S X Y α β : Type}

theorem const (y : X) : Settles (fun _ _ => some y) y := ⟨0, fun _ _ _ _ => rfl⟩

theorem congr {x x' : ℕ → ℕ → Option X} {y : X} (h : Settles x y)
    (heq : ∀ turns fuel, x' turns fuel = x turns fuel) :
    Settles x' y := by
  obtain ⟨n, hn⟩ := h
  exact ⟨n, fun turns hturns fuel hfuel => (heq turns fuel).trans (hn turns hturns fuel hfuel)⟩

/-- One turn of a loop. -/
theorem succ {x b : ℕ → ℕ → Option X} {y : X} (h : Settles b y)
    (heq : ∀ turns fuel, x turns (fuel + 1) = b turns fuel) :
    Settles x y := by
  obtain ⟨n, hn⟩ := h
  refine ⟨n + 1, fun turns hturns fuel hfuel => ?_⟩
  obtain ⟨fuel', rfl⟩ : ∃ fuel', fuel = fuel' + 1 := ⟨fuel - 1, by omega⟩
  exact (heq turns fuel').trans (hn turns (by omega) fuel' (by omega))

theorem map {x : ℕ → ℕ → Option X} {y : X} (h : Settles x y) (f : X → Y) :
    Settles (fun turns fuel => (x turns fuel).map f) (f y) := by
  obtain ⟨n, hn⟩ := h
  refine ⟨n, fun turns hturns fuel hfuel => ?_⟩
  dsimp only
  rw [hn turns hturns fuel hfuel, Option.map_some]

theorem returns {x : ℕ → ℕ → Option X} {y : X} (h : Settles x y) :
    ∃ fuel, x fuel fuel = some y := by
  obtain ⟨n, hn⟩ := h
  exact ⟨n, hn n (Nat.le_refl n) n (Nat.le_refl n)⟩

variable {x : ℕ → ℕ → Option (Except IoError α × S)} {f : ℕ → ℕ → α → S →
    Option (Except IoError β × S)} {s : S}

theorem bind {a : α} {y : Except IoError β × S} (h : Settles x (.ok a, s))
    (h' : Settles (fun turns fuel => f turns fuel a s) y) :
    Settles (fun turns fuel => andThen (x turns fuel) (f turns fuel)) y := by
  obtain ⟨n, hn⟩ := h
  obtain ⟨n', hn'⟩ := h'
  refine ⟨max n n', fun turns hturns fuel hfuel => ?_⟩
  dsimp only
  rw [hn turns (by omega) fuel (by omega), andThen]
  exact hn' turns (by omega) fuel (by omega)

end Settles

/-! ### Delivery -/

namespace Outbox

variable {σ : Type} {sink : Sink σ} {cast : ℕ → ℕ} {tries interrupts : σ → ℕ}

/-- Nothing is left behind an accepting sink, unless it failed. -/
structure Delivered (tries : σ → ℕ) (o o' : Outbox σ) (r : Except IoError Unit) : Prop where
  le : tries o'.sink ≤ tries o.sink
  lt : ∀ e, r = .error e → tries o'.sink < tries o.sink

/-- **A drain into an accepting sink ends.** -/
theorem drain_settles (hsink : sink.Accepts tries interrupts) {o : Outbox σ}
    (hcast : ∀ n ≤ o.buffer.length, cast n = n)
    (h : o.InBounds) : ∃ r o', Settles (fun turns _ => o.drain sink cast turns) (r, o') ∧
    Delivered tries o o' r := by
  induction hm : (o.undelivered.length, interrupts o.sink) using
    (Prod.lex Nat.lt_wfRel Nat.lt_wfRel).wf.induction generalizing o with
  | _ m ih =>
    subst hm
    have hlen := length_undelivered h
    have hhead := h.head_le
    have htail := h.tail_le
    -- one round, as every fuel past it runs it
    have hround : ∀ {b : ℕ → ℕ → Option (Except IoError Unit × Outbox σ)}
      {y : Except IoError Unit × Outbox σ}, Settles b y →
        (∀ turns fuel, o.drain sink cast (turns + 1) = b turns fuel) →
        Settles (fun turns _ => o.drain sink cast turns) y := by
      rintro b y ⟨n, hn⟩ heq
      refine ⟨n + 1, fun turns hturns fuel hfuel => ?_⟩
      obtain ⟨turns', rfl⟩ : ∃ turns', turns = turns' + 1 := ⟨turns - 1, by omega⟩
      exact (heq turns' fuel).trans (hn turns' (by omega) fuel (by omega))
    by_cases hmore : o.head < o.tail
    · have hne : o.undelivered ≠ [] := by
        intro hnil
        rw [hnil, List.length_nil] at hlen
        omega
      rcases hw : sink.write o.sink o.undelivered with ⟨e | count, s⟩
      · by_cases hint : e = .interrupted
        · subst hint
          obtain ⟨hle, hfewer⟩ := hsink.interrupted _ _ _ hw
          obtain ⟨r, o', h1, h2⟩ :=
            ih _ (Prod.Lex.right _ hfewer) (o := { o with sink := s }) hcast ⟨hhead, htail⟩ rfl
          refine ⟨r, o', hround h1 fun turns fuel => ?_, Nat.le_trans h2.le hle,
            fun e he => Nat.lt_of_lt_of_le (h2.lt e he) hle⟩
          rw [drain, if_pos hmore, hw]
        · have hless := hsink.write_error _ _ _ _ hint hw
          refine ⟨.error e, { o with sink := s }, hround (.const _) fun turns fuel => ?_,
            Nat.le_of_lt hless, fun _ _ => hless⟩
          rw [drain, if_pos hmore, hw]
          cases e with
          | interrupted => exact absurd rfl hint
          | _ => rfl
      · obtain ⟨hpos, hle⟩ := hsink.write _ _ _ _ hne hw
        have hcount := sink.write_le _ _ _ _ hw
        obtain ⟨count, rfl⟩ : ∃ k, count = k + 1 := ⟨count - 1, by omega⟩
        have heq : cast (count + 1) = count + 1 := hcast _ (by omega)
        have hbounds : ({ o with
            sink := s, head := o.head + (count + 1), received :=
              o.received ++ o.undelivered.take (count + 1) } :
            Outbox σ).InBounds := ⟨by dsimp only; omega, htail⟩
        have hless : ({ o with
            sink := s, head := o.head + (count + 1), received :=
              o.received ++ o.undelivered.take (count + 1) } :
            Outbox σ).undelivered.length < o.undelivered.length := by
          rw [length_undelivered hbounds, hlen]
          dsimp only
          omega
        obtain ⟨r, o', h1, h2⟩ := ih _ (Prod.Lex.left _ _ hless) (o := { o with
            sink := s, head := o.head + (count + 1), received :=
              o.received ++ o.undelivered.take (count + 1) })
            hcast hbounds rfl
        refine ⟨r, o', hround h1 fun turns fuel => ?_, Nat.le_trans h2.le hle,
          fun e he => Nat.lt_of_lt_of_le (h2.lt e he) hle⟩
        rw [drain, if_pos hmore, hw]
        show drain sink cast turns { o with
          sink := s, head := o.head + cast (count + 1), received :=
            o.received ++ o.undelivered.take (count + 1) } = _
        rw [heq]
    · refine ⟨.ok (), { o with head := 0, tail := 0 }, hround (.const _) fun turns fuel => ?_,
        Nat.le_refl _, (fun e he => by cases he)⟩
      rw [drain, if_neg hmore]

end Outbox
end Mbrotli
