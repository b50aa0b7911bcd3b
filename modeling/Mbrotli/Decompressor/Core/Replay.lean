/-
# Commands over a flat history

What the stages do with a command, over the whole output as one list instead of a
ring: `Env.target` says what a distance refers to, and `Env.expand` which bytes that
is. `Machine.resolve_target` ties the classification, and which distances are
remembered, to the resolve stage.
-/
import Mbrotli.Decompressor.Core.Stages

namespace Mbrotli

/-- What a distance refers to. -/
inductive Target where
  | window
  | attached (offset : ℕ)
  | word (address : ℕ)
  deriving DecidableEq, Repr

/-- The first `n` bytes of `source` over and over. -/
def repeatBytes (source : List UInt8) (n : ℕ) : List UInt8 :=
  (List.range n).map fun i => source.getD (i % source.length) 0

namespace Env

/-- The attached prefix as one run of bytes. -/
def prefixBytes (env : Env) : List UInt8 := match env.dictionary with
  | none => []
  | some d => d.bytes

theorem prefixBytes_length (env : Env) : env.prefixBytes.length = env.prefixLen := by
  rw [prefixBytes, prefixLen]
  cases env.dictionary with
  | none => rfl
  | some d => exact d.bytes_length

/-- What a distance refers to at `position`, where the window reaches `limit` back. -/
def target (env : Env) (limit position distance : ℕ) : Target :=
  let available := min position limit
  if available < distance ∧ distance - available ≤ env.prefixLen then
    .attached (env.prefixLen - (distance - available))
  else if available < distance then .word (distance - available - env.prefixLen - 1)
  else .window

variable (env : Env) (limit context : ℕ) (history : List UInt8)

/-- The bytes of a reference. One that runs out of what it refers to goes on through
the bytes it has written itself, a prefix reference through the window first. -/
def expand (copy distance : ℕ) : Except DecodeError (List UInt8) :=
  match env.target limit history.length distance with
  | .window => .ok (repeatBytes (history.drop (history.length - distance)) copy)
  | .attached offset => .ok (repeatBytes
      (env.prefixBytes.drop offset ++ history.drop (history.length - min history.length limit))
        copy)
  | .word address => match env.resolveWord address copy context with
    | .error e => .error e
    | .ok word =>
      if word.length = 0 ∧ distance ≤ 120
        then .error (.invalidData .dictionaryReference) else .ok word

end Env

/-- Whether a reference's distance is remembered: all but the most recent one, and
words. -/
def Target.remembered (target : Target) (distanceCode : ℕ) : Bool :=
  match target with
  | .word _ => false
  | _ => distanceCode ≠ 0

/-- The part of a command after its literals, as it is coded. -/
structure Coded where
  implicit : Bool
  copy : ℕ
  symbol : ℕ
  extra : ℕ
  deriving DecidableEq, Repr

/-- What a decoder is at between commands. -/
structure Replay where
  history : List UInt8 := []
  cache : Cache := {}

namespace Replay

variable (env : Env) (limit : ℕ) (layout : DistanceLayout)

def reference (context : ℕ) (s : Replay) (code copy distance : ℕ) : Except DecodeError Replay :=
  match env.expand limit context s.history copy distance with
  | .error e => .error e
  | .ok bytes => .ok {
      history := s.history ++ bytes
      cache := if (env.target limit s.history.length distance).remembered code
        then s.cache.push distance
        else s.cache }

def copy (context : ℕ) (s : Replay) (c : Coded) : Except DecodeError Replay :=
  if c.implicit then reference env limit context s 0 c.copy (s.cache.recent 0)
  else match layout.resolve c.symbol c.extra s.cache with
    | .error e => .error e
    | .ok distance => reference env limit context s c.symbol c.copy distance

/-- A command: its literals, then its copy unless the meta-block ends with the
literals. `context` is the literal context after so many bytes. -/
def command (context : ℕ → ℕ) (s : Replay) (literals : List UInt8) (c : Option Coded) :
    Except DecodeError Replay :=
  let s := { s with history := s.history ++ literals }
  match c with
  | none => .ok s
  | some c => copy env limit layout (context s.history.length) s c

end Replay

/-! ### The resolve stage -/

/-- **The resolve stage classifies by `Env.target`.** It goes on to the stage that
copies from there, and remembers the distance exactly when `Replay` does. -/
theorem Machine.resolve_target {env : Env} {m m' : Machine} (h : m.resolve env = (.next, m')) :
    let target := env.target m.stream.maxBackward m.stream.position m.stream.distance
    m'.stream.cache = (if target.remembered m.stream.distanceCode
      then m.stream.cache.push m.stream.distance
      else m.stream.cache) ∧
    match target with
    | .window => m'.stream.stage = .copy
    | .attached offset => m'.stream.stage = .prefixRun offset offset
    | .word address => m'.stream.stage = .dictionary ∧ ∃ t t', m.stream.tables = some t ∧
        m'.stream.tables = some t' ∧
        env.resolveWord address m.stream.copy (t.context (m.stream.previous m.output)) =
        .ok t'.scratch ∧
        ¬ (t'.scratch.length = 0 ∧ m.stream.distance ≤ 120) := by
  intro target
  have hcache : ∀ s : Stream, (pushDistance s).cache =
      if s.distanceCode ≠ 0 then s.cache.push s.distance else s.cache := by
    intro s
    unfold pushDistance
    split <;> rfl
  unfold resolve at h
  simp only [] at h
  by_cases hp : min m.stream.position m.stream.maxBackward < m.stream.distance ∧
      m.stream.distance - min m.stream.position m.stream.maxBackward ≤ env.prefixLen
  · rw [if_pos hp] at h
    have ht : target = .attached _ := if_pos hp
    rw [ht]
    by_cases hr : m.stream.remaining < m.stream.copy
    · rw [if_pos hr] at h
      cases h
    rw [if_neg hr] at h
    by_cases hf : m.stream.maxBackward < m.stream.distance
    · rw [if_pos hf] at h
      cases hs : m.savePrefixHistory (min m.stream.position m.stream.maxBackward)
          (min (m.stream.copy - (env.prefixLen - (env.prefixLen -
            (m.stream.distance - min m.stream.position m.stream.maxBackward))))
            (min m.stream.position m.stream.maxBackward)) with
      | error e => rw [hs] at h; cases h
      | ok s =>
        rw [hs] at h
        cases h
        obtain ⟨h1, h2, h3⟩ : s.cache = m.stream.cache ∧ s.distance = m.stream.distance ∧
            s.distanceCode = m.stream.distanceCode := by
          unfold savePrefixHistory at hs
          simp only [] at hs
          split at hs
          · cases hs
          · cases hs
            exact ⟨rfl, rfl, rfl⟩
        refine ⟨?_, rfl⟩
        rw [hcache s, h1, h2, h3]
        simp [Target.remembered]
    · rw [if_neg hf] at h
      cases h
      refine ⟨?_, rfl⟩
      rw [hcache m.stream]
      simp [Target.remembered]
  rw [if_neg hp] at h
  by_cases hw : min m.stream.position m.stream.maxBackward < m.stream.distance
  · rw [if_pos hw] at h
    have ht : target = .word _ := (if_neg hp).trans (if_pos hw)
    rw [ht]
    cases htab : m.stream.tables with
    | none => rw [htab] at h; cases h
    | some t =>
      simp only [htab] at h
      cases hword :
        env.resolveWord (m.stream.distance - min m.stream.position
          m.stream.maxBackward - env.prefixLen - 1)
          m.stream.copy (t.context (m.stream.previous m.output)) with
      | error e => rw [hword] at h; cases h
      | ok word =>
        simp only [hword] at h
        by_cases h1 : m.stream.remaining < word.length
        · rw [if_pos h1] at h
          cases h
        rw [if_neg h1] at h
        by_cases h2 : word.length = 0 ∧ m.stream.distance ≤ 120
        · rw [if_pos h2] at h
          cases h
        rw [if_neg h2] at h
        cases h
        exact ⟨rfl, rfl, t, _, rfl, rfl, hword, h2⟩
  · rw [if_neg hw] at h
    have ht : target = .window := (if_neg hp).trans (if_neg hw)
    rw [ht]
    by_cases hr : m.stream.remaining < m.stream.copy
    · rw [if_pos hr] at h
      cases h
    rw [if_neg hr] at h
    cases h
    refine ⟨?_, rfl⟩
    rw [hcache m.stream]
    simp [Target.remembered]
end Mbrotli
