/-
# Histories of one decoder

`History program op d` says that some history of operations on one decoder leads to
`d`, with the operation `op` under way if there is one: one-shot decodes, sessions
that finish, fail, are dropped or are forgotten part-way, collected results, trims,
recoveries and new policies, in any order. Every state of one is in order
(`History.idle`, `History.operating`).
-/
import Mbrotli.Decompressor.Core.Sound.Session
import Mbrotli.Decompressor.Decoder

namespace Mbrotli

inductive History (program : Program) : Option OperationState → Decompressor → Prop where
  | new (config : DecoderConfig) (retention : RetentionPolicy) :
      History program none { config, retention }
  | recover {d} : History program none d → History program none d.recover
  | trim {d} (policy : RetentionPolicy) : History program none d →
      History program none (d.trim policy)
  | reconfigure {d} (config : DecoderConfig) : History program none d →
      History program none (d.reconfigure config)
  | start {d op d'} {exact : OutputSize} : History program none d →
      OperationState.start d exact = .ok (op, d') →
      History program (some op) d'
  | call {op d r op' d' written} {fuel : ℕ} {dictionary : Option DictionaryRef} {input : List UInt8}
      {output : Slice}
      {operation : DecodeOperation} {delivery : Delivery} : History program (some op) d →
      op.process program fuel d dictionary input output operation delivery =
      some (r, op', d', written) →
      History program (some op') d'
  | collected {op d} : History program (some op) d → op.finished = true →
      History program (some op) { d with workspace := d.workspace.takeCollected.2 }
  | release {op d} : History program (some op) d → History program none (OperationState.release d)
  | forget {op d} : History program (some op) d → History program none d
  | decompress {d r d'} {fuel : ℕ} {src : List UInt8} : History program none d →
      d.decompress program fuel src = some (r, d') → History program none d'
  | decodeInto {d r d' dst'} {fuel : ℕ} {dictionary : Option DictionaryRef} {src dst : List UInt8}
      {capacity : ℕ} :
      History program none d → d.decodeInto program fuel dictionary src dst capacity =
      some (r, d', dst') →
      History program none d'
  | decodeOnce {d r d' dst'} {fuel : ℕ} {dictionary : Option DictionaryRef}
      {src : List UInt8} {dst : Slice}
      {delivery : Delivery} : History program none d →
      d.decodeOnce program fuel dictionary src dst delivery = some (r, d', dst') →
      History program none d'
  | decompressToUninit {d r d' dst'} {fuel : ℕ} {src : List UInt8} {dst : Slice} :
      History program none d →
      d.decompressToUninit program fuel src dst = some (r, d', dst') → History program none d'

/-- What every decoder satisfies between its operations. -/
abbrev Decompressor.Idle (program : Program) (d : Decompressor) : Prop := d.workspace.Idle program

namespace Decompressor

variable {program : Program} {d d' : Decompressor}

theorem Idle.recover (d : Decompressor) : d.recover.Idle program := .new program

theorem Idle.trim (h : d.Idle program) (policy : RetentionPolicy) :
    (d.trim policy).Idle program := by
  unfold Decompressor.trim
  split
  · exact .new program
  · split
    · exact .new program
    · exact h
  · exact h

theorem Idle.reconfigure (h : d.Idle program) (config : DecoderConfig) :
    (d.reconfigure config).Idle program := by
  unfold Decompressor.reconfigure
  refine Stream.Idle.reset ?_ config
  split
  · exact .new program
  · exact h

theorem Idle.release (h : d.Idle program) : (OperationState.release d).Idle program :=
  Idle.trim (d := { d with active := false, workspace := d.workspace.reset d.config })
    (Stream.Idle.reset h d.config) _

end Decompressor

open OperationState

namespace Decompressor

variable {program : Program} {d d' : Decompressor}

theorem decodeLoop_idle {dictionary : Option DictionaryRef} {src : List UInt8} :
    ∀ (fuel : ℕ) (op : OperationState)
    (d : Decompressor) (consumed : ℕ) (written : List UInt8) (chunk : ℕ), op.Operating program d →
    ∀ {r d'}, decodeLoop program dictionary src fuel op d consumed written chunk = some (r, d') →
    d'.Idle program := by
  intro fuel
  induction fuel with
  | zero => intro op d consumed written chunk _ r d' he; cases he
  | succ fuel ih =>
    intro op d consumed written chunk h r d' he
    unfold decodeLoop at he
    split at he
    · cases he
    · rename_i failure op1 d1 out hp
      cases he
      exact (process_called h hp).operating.stream.idle
    · rename_i progress op1 d1 out hp
      have hc := (process_called h hp).operating
      dsimp only at he
      split at he
      · cases he
        exact hc.stream.idle
      · exact ih _ _ _ _ _ hc he

theorem decodeSession_idle {fuel : ℕ} {dictionary : Option DictionaryRef} {src : List UInt8}
    {collect : Bool}
    {op : OperationState} (h : op.Operating program d) {r : Except DecodeError (List UInt8)}
    (he : decodeSession program fuel dictionary src collect op d = some (r, d')) :
    d'.Idle program := by
  unfold decodeSession at he
  split at he
  · cases he
  · rename_i failure op1 d1 out hp
    cases he
    exact (process_called h hp).operating.stream.idle
  rename_i probe op1 d1 out hp
  have h1 := (process_called h hp).operating
  dsimp only at he
  split at he
  · cases he
    exact h1.stream.idle
  split at he
  · split at he
    · cases he
    · rename_i failure op2 d2 out2 hp2
      cases he
      exact (process_called h1 hp2).operating.stream.idle
    · rename_i progress op2 d2 out2 hp2
      have h2 := (process_called h1 hp2).operating
      split at he
      · split at he
        · cases he
          exact h2.stream.idle
        · cases he
          exact h2.stream.takeCollected.idle
      · exact decodeLoop_idle _ _ _ _ _ _ h2 he
  · exact decodeLoop_idle _ _ _ _ _ _ h1 he

theorem decodeInto_idle (h : d.Idle program) {fuel : ℕ} {dictionary : Option DictionaryRef}
    {src dst dst' : List UInt8}
    {capacity : ℕ} {r : Except DecodeError (ℕ × ℕ)}
    (he : d.decodeInto program fuel dictionary src dst capacity = some (r, d', dst')) :
    d'.Idle program := by
  unfold decodeInto at he
  dsimp only at he
  split at he
  · cases he
    exact h
  rename_i op d1 hs
  have h1 := (start_operating h hs).1
  split at he
  · cases he
  · rename_i e d2 hd
    cases he
    exact (decodeSession_idle h1 hd).release
  · rename_i appended d2 hd
    cases he
    exact (decodeSession_idle h1 hd).release

theorem decodeOnce_idle (h : d.Idle program) {fuel : ℕ} {dictionary : Option DictionaryRef}
    {src : List UInt8}
    {dst dst' : Slice} {delivery : Delivery} {r : Except DecodeError ℕ}
    (he : d.decodeOnce program fuel dictionary src dst delivery = some (r, d', dst')) :
    d'.Idle program := by
  unfold decodeOnce at he
  split at he
  · cases he
    exact h
  rename_i op d1 hs
  have h1 := (start_operating h hs).1
  split at he
  · cases he
  · rename_i failure op2 d2 out hp
    cases he
    have h2 : d2.Idle program := (process_called h1 hp).operating.stream.idle
    exact h2.release
  · rename_i progress op2 d2 out hp
    cases he
    have h2 : d2.Idle program := (process_called h1 hp).operating.stream.idle
    exact h2.release

theorem decompress_idle (h : d.Idle program) {fuel : ℕ} {src : List UInt8}
    {r : Except DecodeError (List UInt8)}
    (he : d.decompress program fuel src = some (r, d')) : d'.Idle program := by
  unfold decompress at he
  split at he
  · cases he
    exact h.trim _
  split at he
  · cases he
  · rename_i hd
    cases he
    exact decodeInto_idle h hd
  · rename_i hd
    cases he
    exact decodeInto_idle h hd

theorem decompressToUninit_idle (h : d.Idle program) {fuel : ℕ} {src : List UInt8}
    {dst dst' : Slice}
    {r : Except DecodeError ℕ} (he : d.decompressToUninit program fuel src dst =
      some (r, d', dst')) :
    d'.Idle program := by
  unfold decompressToUninit at he
  split at he
  · cases he
    exact h.trim _
  · exact decodeOnce_idle h he

end Decompressor

/-- What a history keeps: the idle decoder, and the operation under way. -/
def History.Kept (program : Program) (op : Option OperationState) (d : Decompressor) : Prop :=
  match op with
  | none => d.Idle program
  | some op => op.Operating program d

theorem History.kept {program : Program} {op : Option OperationState} {d : Decompressor}
    (h : History program op d) :
    Kept program op d := by
  induction h with
  | new config retention => exact Stream.Idle.new program
  | recover _ _ => exact Decompressor.Idle.recover _
  | trim policy _ ih => exact Decompressor.Idle.trim ih policy
  | reconfigure config _ ih => exact Decompressor.Idle.reconfigure ih config
  | start _ he ih => exact (start_operating ih he).1
  | call _ he ih => exact (process_called ih he).operating
  | collected _ _ ih =>
    exact ⟨ih.stream.takeCollected, ih.budget, ih.atEnd, ih.input, ih.output, ih.exact,
      ih.finished, ih.apart⟩
  | release _ ih => exact Decompressor.Idle.release ih.stream.idle
  | forget _ ih => exact ih.stream.idle
  | decompress _ he ih => exact Decompressor.decompress_idle ih he
  | decodeInto _ he ih => exact Decompressor.decodeInto_idle ih he
  | decodeOnce _ he ih => exact Decompressor.decodeOnce_idle ih he
  | decompressToUninit _ he ih => exact Decompressor.decompressToUninit_idle ih he

theorem History.operating {program : Program} {op : OperationState} {d : Decompressor}
    (h : History program (some op) d) : op.Operating program d := h.kept

theorem History.idle {program : Program} {op : Option OperationState} {d : Decompressor}
    (h : History program op d) :
    d.Idle program := by
  cases op with
  | none => exact h.kept
  | some op => exact h.operating.stream.idle

end Mbrotli
