/-
# The greedy encoder gathers blocks

`GatheringEncoder.encodeBlock` takes a block in: its bytes go into the ring, the last command
is extended over what continues it, the rest is searched, and the meta-block is closed or
left open for the next block. `GatheringEncoder.Good` holds after any blocks
(`GatheringEncoder.Good.encodeBlocks`), so whatever comes next, the command extended is one that a
search left (`extension_sound`).
-/
import Mbrotli.Compressor.Core.BlockEncoder
import Mbrotli.Compressor.Core.Extension
import Mbrotli.Compressor.Core.Greedy.Reconstructs
import Mbrotli.Shared.Ring

namespace Mbrotli.Compressor

namespace GreedyParams

/-- The ring holds the window and a block. -/
def rbBits (p : GreedyParams) : ℕ := 1 + if p.lgblock < p.lgwin then p.lgwin else p.lgblock

def maxMetablockSize (p : GreedyParams) : ℕ := 1 <<< if p.rbBits < 24 then p.rbBits else 24

end GreedyParams

/-- What the encoder keeps of the blocks it gathers between calls: all but its output. -/
structure GatheringEncoder (M : Type) where
  ringbuffer : RingBuffer
  matcher : M
  inputPos : ℕ := 0
  lastProcessedPos : ℕ := 0
  lastFlushPos : ℕ := 0
  commands : List Command := []
  references : ReferenceState := {}
  savedDistCache : Fin 4 → ℤ := ![4, 11, 15, 16]
  isLastBlockEmitted : Bool := false

/-- A block given to the encoder, how the finder is prepared for it, and whether a
meta-block that ends with it is stored uncompressed. -/
structure EncodeCall (M : Type) where
  input : List UInt8
  isLast : Bool
  forceFlush : Bool
  prepare : M → M
  uncompressed : Bool

/-- Only the four remembered distances are saved; the derived ones are filled in before
they are read. -/
def restoreDistances (cache : DistanceCache) (saved : Fin 4 → ℤ) : DistanceCache := fun i =>
  if h : i.val < 4 then saved ⟨i, h⟩ else cache i

namespace GatheringEncoder

variable {M R : Type}

def new (params : GreedyParams) (m : M) : GatheringEncoder M :=
  { ringbuffer := .new params.rbBits params.lgblock, matcher := m }

def copyInputToRingBuffer (e : GatheringEncoder M) (input : List UInt8) : GatheringEncoder M :=
  if input.isEmpty then e
  else { e with ringbuffer := (e.ringbuffer.write input).clearMargin, inputPos := e.inputPos +
    input.length }

def window (e : GatheringEncoder M) : Window := ⟨e.ringbuffer.buffer, e.ringbuffer.mask⟩

/-- The input not yet searched. -/
def span (e : GatheringEncoder M) : BlockSpan :=
  ⟨wrapPosition e.lastProcessedPos, e.inputPos - e.lastProcessedPos⟩

def extension (e : GatheringEncoder M) (params : GreedyParams) (attached : Option SharedContext)
    (command : Command) :
    CommandExtension where
  command := command
  lgwin := params.lgwin
  dist := params.dist
  lastDistance := e.references.distCache 0
  window := e.window
  lastProcessedPos := e.lastProcessedPos
  attached := attached
  span := e.span

/-- Extends the last command, unless literals lie behind it: the encoder and what is left
of the span. -/
def extendLast (e : GatheringEncoder M) (params : GreedyParams) (attached : Option SharedContext) :
    GatheringEncoder M × BlockSpan :=
  match e.commands.getLast? with
  | none => (e, e.span)
  | some command =>
    if e.references.lastInsertLen = 0 then
      let (command, span) := extendLastCommand (e.extension params attached command)
      ({ e with commands := e.commands.dropLast ++ [command] }, span)
    else (e, e.span)

/-- Whether the meta-block is left open for the next block. -/
def merges (e : GatheringEncoder M) (params : GreedyParams) (call : EncodeCall M) : Bool :=
  let maxLength := params.maxMetablockSize
  let maxLiterals := maxLength / 8
  let maxCommands := maxLength / 8
  let processedBytes := e.inputPos - e.lastFlushPos
  let nextInputFitsMetablock := decide (processedBytes + params.inputBlockSize ≤ maxLength)
  let shouldFlush := !params.quality.splitsBlocks &&
    decide (maxNumDelayedSymbols ≤ e.references.numLiterals + e.commands.length)
  !call.isLast && !call.forceFlush && !shouldFlush && nextInputFitsMetablock &&
    decide (e.references.numLiterals < maxLiterals) && decide (e.commands.length < maxCommands)

/-- Literals no command has claimed become one of their own. -/
def insertRest (e : GatheringEncoder M) : GatheringEncoder M :=
  if 0 < e.references.lastInsertLen then
    { e with
      commands := e.commands ++ [Command.insertOnly e.references.lastInsertLen]
      references := { e.references with
        numLiterals := e.references.numLiterals + e.references.lastInsertLen
        lastInsertLen := 0 } }
  else e

/-- Writes the meta-block. The distances of commands that are not written are forgotten. -/
def close (e : GatheringEncoder M) (call : EncodeCall M) : GatheringEncoder M :=
  let e := e.insertRest
  if !call.isLast ∧ e.inputPos = e.lastFlushPos then e
  else
    let distCache :=
      if call.uncompressed ∧ e.lastFlushPos < e.inputPos
        then restoreDistances e.references.distCache e.savedDistCache
      else e.references.distCache
    { e with
      lastFlushPos := e.inputPos
      lastProcessedPos := e.inputPos
      commands := []
      references := { e.references with distCache, numLiterals := 0 }
      savedDistCache := remembered distCache }

/-- `none` is a block behind the last one, or a search out of fuel. -/
def encodeData (matcher : Matcher M R) (independent : Bool) (fuel : ℕ) (params : GreedyParams)
    (attached : Option SharedContext)
    (call : EncodeCall M) (e : GatheringEncoder M) : Option (GatheringEncoder M) :=
  if e.inputPos - e.lastProcessedPos = 0 ∧
    (e.ringbuffer.curSize = 0 ∨ (!call.isLast ∧ !call.forceFlush)) then some e
  else if e.isLastBlockEmitted then none
  else
    let e := { e with isLastBlockEmitted := call.isLast, matcher := call.prepare e.matcher }
    let (e, span) := e.extendLast params attached
    match matcher.greedy independent fuel e.matcher params e.window span attached e.references
      e.commands with
    | none => none
    | some (m, references, commands) =>
      let e := { e with matcher := m, references, commands }
      some (if e.merges params call then { e with lastProcessedPos := e.inputPos }
        else e.close call)

def encodeBlock (matcher : Matcher M R) (independent : Bool) (fuel : ℕ) (params : GreedyParams)
    (attached : Option SharedContext)
    (e : GatheringEncoder M) (call : EncodeCall M) : Option (GatheringEncoder M) :=
  (e.copyInputToRingBuffer call.input).encodeData matcher independent fuel params attached call

end GatheringEncoder

/-- A block is as long as the encoder asks for, unless it is the last or a flush. -/
def EncodeCall.Fits {M : Type} (params : GreedyParams) (call : EncodeCall M) : Prop :=
  call.input.length ≤ params.inputBlockSize ∧
    (call.isLast = false → call.forceFlush = false → call.input.length = params.inputBlockSize)

/-! ### What the parameters resolve to -/

/-- The sizes an encoder works with. -/
structure GreedyParams.Resolved (p : GreedyParams) : Prop where
  le_lgwin : 10 ≤ p.lgwin
  lgwin_le : p.lgwin ≤ 30
  le_lgblock : 14 ≤ p.lgblock
  lgblock_le : p.lgblock ≤ 24
  legal : p.dist.Legal

namespace GreedyParams

theorem le_computeLgblock (quality : GreedyQuality) (requested : Option ℕ) (lgwin : ℕ) :
    14 ≤ computeLgblock quality requested lgwin := by
  unfold computeLgblock
  split
  · omega
  · split <;> split <;> first | omega | (split <;> omega)

theorem new_resolved {config : CompressParams} {quality : GreedyQuality} {p : GreedyParams}
    (h : new config quality = .ok p) :
    p.Resolved := by
  obtain ⟨-, hlgwin, hlgblock, hlegal⟩ := new_spec h
  have hle : 14 ≤ p.lgblock := by
    rw [new] at h
    by_cases hc : quality.usesStaticEntropyCodes ∧ config.lgwin.kind = .large
    · rw [if_pos hc] at h
      cases h
    · rw [if_neg hc] at h
      cases h
      exact le_computeLgblock _ _ _
  refine ⟨?_, hlgwin ▸ ResolvedWindow.encoderBits_le _, hle, hlgblock, hlegal⟩
  have hmin := config.lgwin.min_le
  rw [hlgwin, ResolvedWindow.encoderBits, maxEncoderWindowBits]
  split
  · omega
  · exact hmin

variable {p : GreedyParams}

theorem Resolved.rbBits_eq (_ : p.Resolved) : p.rbBits = 1 + max p.lgwin p.lgblock := by
  rw [rbBits]
  split <;> omega

theorem Resolved.sizes (h : p.Resolved) : RingBuffer.Sizes p.rbBits p.lgblock := by
  rw [h.rbBits_eq]
  exact RingBuffer.sizes_rbBits h.le_lgwin h.lgwin_le (h.lgblock_le.trans (by decide))

theorem Resolved.inputBlockSize_eq (_ : p.Resolved) : p.inputBlockSize = 2 ^ p.lgblock := by
  rw [inputBlockSize, Nat.shiftLeft_eq, Nat.one_mul]

/-- A block is at least `2 ^ 14` bytes long. -/
theorem Resolved.le_inputBlockSize (h : p.Resolved) : 2 ^ 14 ≤ p.inputBlockSize := by
  rw [h.inputBlockSize_eq]
  exact Nat.pow_le_pow_right (by decide) h.le_lgblock

/-- A meta-block has room for a block, and its length fits 24 bits. -/
theorem Resolved.metablock (h : p.Resolved) :
    p.inputBlockSize ≤ p.maxMetablockSize ∧ p.maxMetablockSize ≤ 2 ^ 24 := by
  have hbits := h.rbBits_eq
  rw [h.inputBlockSize_eq, maxMetablockSize, Nat.shiftLeft_eq, Nat.one_mul]
  have := h.lgblock_le
  split
  · exact ⟨Nat.pow_le_pow_right (by decide) (by omega), Nat.pow_le_pow_right (by decide) (by omega)⟩
  · exact ⟨Nat.pow_le_pow_right (by decide) (by omega), le_refl _⟩

theorem maxBackwardLimit_eq (p : GreedyParams) : p.maxBackwardLimit = 2 ^ p.lgwin - 16 := by
  rw [maxBackwardLimit, Nat.shiftLeft_eq, Nat.one_mul]
  rfl

/-- The window and a block fit the ring. -/
theorem Resolved.reach (h : p.Resolved) : p.maxBackwardLimit + p.inputBlockSize ≤ 2 ^ p.rbBits ∧
    p.maxBackwardLimit ≤ 2 ^ 30 ∧ 4 ≤ p.maxBackwardLimit := by
  have hwin := p.maxBackwardLimit_eq
  have h1 : 2 ^ p.lgwin ≤ 2 ^ max p.lgwin p.lgblock := Nat.pow_le_pow_right (by decide) (by omega)
  have h2 : 2 ^ p.lgblock ≤ 2 ^ max p.lgwin p.lgblock := Nat.pow_le_pow_right (by decide) (by omega)
  have h3 : 2 ^ p.rbBits = 2 * 2 ^ max p.lgwin p.lgblock := by rw [h.rbBits_eq, pow_add, pow_one]
  have h4 : 2 ^ 10 ≤ 2 ^ p.lgwin := Nat.pow_le_pow_right (by decide) h.le_lgwin
  have h5 : 2 ^ p.lgwin ≤ 2 ^ 30 := Nat.pow_le_pow_right (by decide) h.lgwin_le
  rw [hwin, h.inputBlockSize_eq]
  omega

end GreedyParams

/-! ### Every block -/

section

variable {M R : Type} (matcher : Matcher M R) (params : GreedyParams)
    (attached : Option SharedContext)
variable (env : Env) (context : ℕ → ℕ) (input : List UInt8) (large : Bool)

/-- The finder reports only true matches of what its window holds. -/
def Matcher.Finds : Prop :=
  ∀ m (window : Window) start base bytes,
    window.Holds params.maxBackwardLimit input start base bytes →
    base + bytes ≤ input.length →
    (start = base ∨ (params.maxBackwardLimit ≤ start ∧ params.maxBackwardLimit ≤ base)) →
    (matcher.block m params window ⟨start, bytes⟩ attached attached.isSome).Truthful env
    params.maxBackwardLimit context input
      attached.isSome matcher.run start base

/-- What holds between blocks: the ring has the input so far, which the written meta-blocks,
the open one's commands and the pending literals tile. Commands are left open only behind
a whole block. -/
structure GatheringEncoder.Good (e : GatheringEncoder M) : Prop where
  holds : RingBuffer.Holds params.rbBits params.lgblock e.ringbuffer (input.take e.inputPos)
  fits : e.inputPos ≤ input.length
  processed : e.lastProcessedPos = e.inputPos
  flushed : e.lastFlushPos ≤ e.inputPos
  pending : e.references.lastInsertLen ≤ e.inputPos - e.lastFlushPos
  room : e.inputPos - e.lastFlushPos + params.inputBlockSize ≤ params.maxMetablockSize
  whole : e.commands ≠ [] → 2 ^ 14 ≤ e.inputPos
  opened : ∃ initial, Agrees initial e.savedDistCache ∧
    Recent env params.maxBackwardLimit e.savedDistCache e.lastFlushPos ∧
    Open env params.maxBackwardLimit context input params.dist large e.lastFlushPos
    initial e.commands
      (remembered e.references.distCache) (e.inputPos - e.references.lastInsertLen)

variable {matcher params attached env context input large}
variable {e : GatheringEncoder M} {origin : ℕ} {initial : Cache}

/-- The ring is a window on the input. -/
theorem GreedyParams.Resolved.window_holds (hr : params.Resolved) {rb : RingBuffer}
    (base : ℕ) {stop : ℕ}
    (h : RingBuffer.Holds params.rbBits params.lgblock rb (input.take stop))
    (hstop : stop ≤ input.length)
    (hblock : stop - base ≤ params.inputBlockSize) :
    Window.Holds ⟨rb.buffer, rb.mask⟩ params.maxBackwardLimit input (wrapPosition base) base
    (stop - base) := by
  intro q i hlow hhigh hi
  have hwrap := wrapPosition_le base
  obtain ⟨hreach, -, -⟩ := hr.reach
  have hlen : (input.take stop).length = stop := by
    rw [List.length_take]; omega
  set p := q + (base - wrapPosition base) with hp
  have hmask : q &&& rb.mask = p &&& rb.mask := by
    rw [h.shape.masked, h.shape.masked, hp]
    have hmod := wrapPosition_mod base hr.sizes.le
    obtain ⟨d, hd⟩ :=
      Nat.ModEq.dvd (show wrapPosition base ≡ base [MOD 2 ^ params.rbBits] from hmod)
    have hzero : (base - wrapPosition base) % 2 ^ params.rbBits = 0 :=
      (Nat.modEq_iff_dvd' hwrap).1 hmod |> Nat.mod_eq_zero_of_dvd
    rw [Nat.add_mod, hzero, Nat.add_zero, Nat.mod_mod]
  have hread := h.read hr.sizes (p := p) (i := i) (by rw [hlen]; omega) (by rw [hlen]; omega)
    (by rw [hr.inputBlockSize_eq] at hblock; omega) (by rw [hlen]; omega)
  show rb.buffer[(q &&& rb.mask) + i]? = _
  rw [hmask, hread, List.getElem?_take_of_lt (by omega)]
  congr 1
  omega

/-- Input copied into the ring is all that changes. -/
theorem GatheringEncoder.Good.copied (hr : params.Resolved)
    (h : e.Good params env context input large) {bytes : List UInt8}
    (hbytes : bytes.length ≤ params.inputBlockSize)
    (hnext : input.take e.inputPos ++ bytes <+: input) :
    ∃ rb, e.copyInputToRingBuffer bytes =
    { e with ringbuffer := rb, inputPos := e.inputPos + bytes.length } ∧
      e.inputPos + bytes.length ≤ input.length ∧
      RingBuffer.Holds params.rbBits params.lgblock rb
      (input.take (e.inputPos + bytes.length)) := by
  have hfits := h.fits
  have hlen : (input.take e.inputPos ++ bytes).length = e.inputPos + bytes.length := by
    rw [List.length_append, List.length_take, Nat.min_eq_left hfits]
  have htake : input.take (e.inputPos + bytes.length) = input.take e.inputPos ++ bytes := by
    rw [← hlen]
    exact (List.prefix_iff_eq_take.1 hnext).symm
  have hle : e.inputPos + bytes.length ≤ input.length := hlen ▸ hnext.length_le
  unfold GatheringEncoder.copyInputToRingBuffer
  by_cases hempty : bytes.isEmpty = true
  · have hnil : bytes = [] := List.isEmpty_iff.1 hempty
    subst hnil
    exact ⟨e.ringbuffer, rfl, hle, h.holds⟩
  · rw [if_neg hempty]
    refine ⟨_, rfl, hle, ?_⟩
    rw [htake]
    exact (h.holds.write hr.sizes (hr.inputBlockSize_eq ▸ hbytes)).clearMargin hr.sizes

/-- A copy of the last command lies in the open meta-block. -/
theorem Reconstructs.copyLen_le {limit : ℕ} {layout : DistanceLayout} {earlier : List Command}
    {command : Command}
    {cache : Fin 4 → ℤ} {position : ℕ}
    (h : Reconstructs env limit layout context input origin initial (earlier ++ [command])
      cache position) :
    origin + command.copyLen ≤ position := by
  have hcov := h.covers
  rw [List.map_append, List.sum_append, List.map_singleton, List.sum_singleton,
    Command.size] at hcov
  omega

/-- The last command takes the first bytes of the span, or nothing happens. -/
theorem GatheringEncoder.extendLast_open (hr : params.Resolved) (hb : env.Built)
    (hattached : (attached.map fun c => c.segments.flatten).getD [] = env.prefixBytes)
    (hshape : RingBuffer.Shape params.rbBits params.lgblock e.ringbuffer)
    (hwin : e.window.Holds params.maxBackwardLimit input e.span.position
      e.lastProcessedPos e.span.bytes)
    (hfits : e.inputPos ≤ input.length) (hle : e.lastProcessedPos ≤ e.inputPos)
    (hsize : e.inputPos - origin ≤ 2 ^ 24) (hwhole : e.commands ≠ [] → 2 ^ 14 ≤ e.lastProcessedPos)
    (hopen : Open env params.maxBackwardLimit context input params.dist large origin
      initial e.commands
      (remembered e.references.distCache) (e.lastProcessedPos - e.references.lastInsertLen)) :
    ∃ cs, ∃ k ≤ e.span.bytes, e.extendLast params attached =
        ({ e with commands := cs }, ⟨e.span.position + k, e.span.bytes - k⟩) ∧
      (0 < k → e.references.lastInsertLen = 0) ∧
      Open env params.maxBackwardLimit context input params.dist large origin initial cs
        (remembered e.references.distCache)
        (e.lastProcessedPos + k - e.references.lastInsertLen) := by
  have hsame : ∃ cs, ∃ k ≤ e.span.bytes, (e, e.span) =
        (({ e with commands := cs } : GatheringEncoder M),
          (⟨e.span.position + k, e.span.bytes - k⟩ : BlockSpan)) ∧
      (0 < k → e.references.lastInsertLen = 0) ∧
      Open env params.maxBackwardLimit context input params.dist large origin initial cs
        (remembered e.references.distCache) (e.lastProcessedPos + k - e.references.lastInsertLen) :=
    ⟨e.commands, 0, Nat.zero_le _, rfl, fun h => absurd h (lt_irrefl 0), hopen⟩
  unfold GatheringEncoder.extendLast
  cases hlast : e.commands.getLast? with
  | none => exact hsame
  | some command =>
    simp only []
    by_cases hpend : e.references.lastInsertLen = 0
    swap
    · rw [if_neg hpend]
      exact hsame
    rw [if_pos hpend]
    obtain ⟨earlier, hcommands⟩ : ∃ earlier, e.commands = earlier ++ [command] := by
      obtain ⟨ys, hys⟩ := List.getLast?_eq_some_iff.1 hlast
      exact ⟨ys, hys⟩
    have hdrop : e.commands.dropLast = earlier := by rw [hcommands, List.dropLast_concat]
    rw [hpend, Nat.sub_zero, hcommands] at hopen
    obtain ⟨-, hreach, h4⟩ := hr.reach
    have hwrap : e.span.position = e.lastProcessedPos ∨ params.maxBackwardLimit ≤ e.span.position :=
      (wrapPosition_reach hreach e.lastProcessedPos).imp_right And.left
    have hbytes : e.lastProcessedPos + e.span.bytes = e.inputPos := Nat.add_sub_of_le hle
    have hcopy := hopen.reconstructs.copyLen_le
    have hlimit := params.maxBackwardLimit_eq
    have hext :=
      hopen.extend e.span hb hr.legal hlimit h4 hshape.mask hwin hwrap (by omega)
        (by omega) hattached
        (hwhole
        (by rw [hcommands]; exact List.append_ne_nil_of_right_ne_nil _ (List.cons_ne_nil _ _)))
    obtain ⟨-, hword, hcopied⟩ := hext
    have hinput : e.extension params attached command = ⟨command, params.lgwin, params.dist,
      remembered e.references.distCache 0, e.window, e.lastProcessedPos, attached, e.span⟩ := rfl
    rw [hinput, hdrop, hpend]
    by_cases hd : command.realDistance params.dist (remembered e.references.distCache 0) ≤
        min (e.lastProcessedPos - command.copyLen) params.maxBackwardLimit + env.prefixLen
    · obtain ⟨-, k, hk, heq, -, -, -, hopen'⟩ := hcopied hd
      refine ⟨earlier ++ [command.lengthened k], k, hk, ?_, fun _ => rfl, ?_⟩
      · rw [heq]
      · rw [heq] at hopen'
        exact hopen'
    · refine ⟨earlier ++ [command], 0, Nat.zero_le _, ?_, fun _ => rfl, hopen⟩
      rw [hword (Nat.not_le.1 hd)]
      rfl

/-- Behind a meta-block the next one starts over, with the distances of the commands that
were written. -/
theorem GatheringEncoder.close_good (e : GatheringEncoder M) (hr : params.Resolved)
    (call : EncodeCall M)
    (hholds : RingBuffer.Holds params.rbBits params.lgblock e.ringbuffer (input.take e.inputPos))
    (hfits : e.inputPos ≤ input.length)
    (hflushed : e.lastFlushPos ≤ e.lastProcessedPos) (hle : e.lastProcessedPos ≤ e.inputPos)
    (hpend : e.references.lastInsertLen ≤ e.inputPos - e.lastFlushPos)
    (hsaved : Agrees initial e.savedDistCache)
    (hrecent : Recent env params.maxBackwardLimit e.savedDistCache e.lastFlushPos)
    (hopen : Open env params.maxBackwardLimit context input params.dist large e.lastFlushPos
      initial e.commands
      (remembered e.references.distCache) (e.inputPos - e.references.lastInsertLen)) :
    (e.close call).Good params env context input large ∧ (e.close call).inputPos = e.inputPos ∧
      (e.close call).isLastBlockEmitted = e.isLastBlockEmitted := by
  have hroom := hr.metablock.1
  have hrest : e.insertRest.references.lastInsertLen = 0 := by
    unfold GatheringEncoder.insertRest
    by_cases h0 : 0 < e.references.lastInsertLen
    · rw [if_pos h0]
    · rw [if_neg h0]
      omega
  have hsame : ∃ cs literals pending, e.insertRest = { e with
      commands := cs
      references := { e.references with numLiterals := literals, lastInsertLen := pending } } := by
    unfold GatheringEncoder.insertRest
    by_cases h0 : 0 < e.references.lastInsertLen
    · rw [if_pos h0]
      exact ⟨_, _, _, rfl⟩
    · rw [if_neg h0]
      exact ⟨_, _, _, rfl⟩
  unfold GatheringEncoder.close
  by_cases hstay : (!call.isLast) ∧ e.inputPos = e.lastFlushPos
  · -- Nothing has come in since the last meta-block.
    have hnone : ¬ 0 < e.references.lastInsertLen := by omega
    have heq : e.insertRest = e := if_neg hnone
    simp only [heq]
    rw [if_pos hstay]
    have hnil : e.commands = [] := by
      rcases hopen.last with hnil | ⟨earlier, before, start, insert, len, lenCode, distance, code,
        hp, -, -, hpos⟩
      · exact hnil
      · have h1 := hp.reconstructs.covers
        have h2 := hp.trueMatch.pos
        omega
    refine ⟨⟨hholds, hfits, by omega, by omega, by omega, by omega, fun h => absurd hnil h, initial,
      hsaved, hrecent, hopen⟩,
      rfl, rfl⟩
  · obtain ⟨cs, literals, pending, heq⟩ := hsame
    rw [heq] at hrest ⊢
    have hzero : pending = 0 := hrest
    subst hzero
    simp only []
    rw [if_neg hstay]
    refine ⟨⟨hholds, hfits, rfl, le_refl _,
      Nat.zero_le _, by show e.inputPos - e.inputPos + _ ≤ _; omega,
      fun h => absurd rfl h, ?_⟩, rfl, rfl⟩
    by_cases hraw : call.uncompressed ∧ e.lastFlushPos < e.inputPos
    · have hcache : remembered (restoreDistances e.references.distCache e.savedDistCache) =
          e.savedDistCache := by
        funext i
        exact dif_pos i.isLt
      have hrecent' : Recent env params.maxBackwardLimit e.savedDistCache e.inputPos := by
        have := hrecent.mono (n := e.inputPos - e.lastFlushPos)
        rwa [Nat.add_sub_of_le (hflushed.trans hle)] at this
      refine ⟨initial, ?_⟩
      simp only [if_pos hraw, hcache]
      exact ⟨hsaved, hrecent', Open.of_agrees hsaved hrecent'⟩
    · obtain ⟨c, -, hag⟩ := hopen.reconstructs.replays
      have hrecent' : Recent env params.maxBackwardLimit (remembered e.references.distCache)
          e.inputPos := by
        have := hopen.recent.mono (n := e.references.lastInsertLen)
        rwa [Nat.sub_add_cancel (by omega)] at this
      refine ⟨c, ?_⟩
      simp only [if_neg hraw]
      exact ⟨hag, hrecent', Open.of_agrees hag hrecent'⟩

/-- **Every block keeps the encoder good.** -/
theorem GatheringEncoder.Good.encodeBlock (independent : Bool) {fuel : ℕ} (hr : params.Resolved)
    (hoff : params.streamOffset = 0)
    (hb : env.Built) (hattached : (attached.map fun c => c.segments.flatten).getD [] =
      env.prefixBytes)
    (hfinds : matcher.Finds params attached env context input)
    (hfuel : params.inputBlockSize < fuel)
    (h : e.Good params env context input large) {call : EncodeCall M} (hfits : call.Fits params)
    (hnext : input.take e.inputPos ++ call.input <+: input)
    (hgoing : e.isLastBlockEmitted = false) :
    ∃ e', e.encodeBlock matcher independent fuel params attached call = some e' ∧
      e'.Good params env context input large ∧ e'.inputPos = e.inputPos + call.input.length ∧
      (call.isLast = false → e'.isLastBlockEmitted = false) := by
  obtain ⟨rb, hcopy, hle, hholds⟩ := h.copied hr hfits.1 hnext
  obtain ⟨initial, hsaved, hrecent, hopen⟩ := h.opened
  obtain ⟨hprocessed, hflushed, hpend, hroom⟩ :=
    And.intro h.processed (And.intro h.flushed (And.intro h.pending h.room))
  obtain ⟨hsmall, hwhole⟩ := hfits
  have h24 := hr.metablock.2
  unfold GatheringEncoder.encodeBlock GatheringEncoder.encodeData
  rw [hcopy]
  simp only []
  by_cases hidle : e.inputPos + call.input.length - e.lastProcessedPos = 0 ∧
      (rb.curSize = 0 ∨ ((!call.isLast) = true ∧ (!call.forceFlush) = true))
  · rw [if_pos hidle]
    have hzero : call.input.length = 0 := by have := hidle.1; omega
    refine ⟨_, rfl, ⟨hholds, hle, ?_, ?_, ?_, ?_, ?_, initial, hsaved, hrecent, ?_⟩, rfl,
      fun _ => hgoing⟩
    · show e.lastProcessedPos = e.inputPos + call.input.length
      omega
    · show e.lastFlushPos ≤ e.inputPos + call.input.length
      omega
    · show e.references.lastInsertLen ≤ e.inputPos + call.input.length - e.lastFlushPos
      omega
    · show e.inputPos + call.input.length - e.lastFlushPos + params.inputBlockSize ≤
        params.maxMetablockSize
      rw [hzero]
      exact hroom
    · intro hne
      exact (h.whole hne).trans (Nat.le_add_right _ _)
    · show Open _ _ _ _ _ _ _ _ e.commands (remembered e.references.distCache)
        (e.inputPos + call.input.length - e.references.lastInsertLen)
      rw [hzero]
      exact hopen
  rw [if_neg hidle, hgoing]
  simp only [Bool.false_eq_true, if_false]
  -- The extension, then the search of what is left.
  set e1 : GatheringEncoder M := { e with
    ringbuffer := rb
    inputPos := e.inputPos + call.input.length
    isLastBlockEmitted := call.isLast
    matcher := call.prepare e.matcher } with he1
  have hbytes : e1.span.bytes = call.input.length := by
    show e.inputPos + call.input.length - e.lastProcessedPos = _
    omega
  have hwin : e1.window.Holds params.maxBackwardLimit input e1.span.position e1.lastProcessedPos
      e1.span.bytes :=
    hr.window_holds e.lastProcessedPos hholds hle
      (by show e.inputPos + call.input.length - e.lastProcessedPos ≤ _; omega)
  have hwhole1 : e1.commands ≠ [] → 2 ^ 14 ≤ e1.lastProcessedPos :=
    fun hne => hprocessed ▸ h.whole hne
  have hopen0 : Open env params.maxBackwardLimit context input params.dist large e.lastFlushPos
    initial e1.commands
      (remembered e1.references.distCache) (e1.lastProcessedPos - e1.references.lastInsertLen) := by
    show Open _ _ _ _ _ _ _ _ e.commands (remembered e.references.distCache)
      (e.lastProcessedPos - e.references.lastInsertLen)
    rw [hprocessed]
    exact hopen
  obtain ⟨cs, k, hk, hext, hzero, hopen1⟩ :=
    GatheringEncoder.extendLast_open hr hb hattached hholds.shape hwin hle
      (by show e.lastProcessedPos ≤ e.inputPos + _; omega)
      (by show e.inputPos + call.input.length - e.lastFlushPos ≤ _; omega)
    hwhole1 hopen0
  rw [hext]
  simp only []
  have hpos1 : e1.lastProcessedPos = e.inputPos := hprocessed
  have hspan : e1.span.position = wrapPosition e.inputPos := by rw [← hpos1]; rfl
  rw [hbytes] at hk hwin ⊢
  rw [hpos1] at hopen1 hwin
  have hwrap := wrapPosition_reach hr.reach.2.1 e.inputPos
  have hlt := wrapPosition_lt e.inputPos
  have hwin' : e1.window.Holds params.maxBackwardLimit input (e1.span.position + k) (e.inputPos + k)
      (call.input.length - k) := by
    intro q i h1 h2 h3
    have := hwin q i (by omega) (by omega) (by omega)
    rwa [show e.inputPos + k + q + i - (e1.span.position + k) =
      e.inputPos + q + i - e1.span.position by omega]
  have htruth := hfinds (call.prepare e.matcher) e1.window (e1.span.position + k) (e.inputPos + k)
    (call.input.length - k) hwin'
    (by omega) (by omega)
  have hcovers : (matcher.block (call.prepare e.matcher) params e1.window ⟨e1.span.position + k,
    call.input.length - k⟩ attached
      attached.isSome).Covers env params.maxBackwardLimit input (e1.span.position + k)
      (e.inputPos + k) := by
    have hback : e1.span.position + k + (call.input.length - k) - (e1.span.position + k) =
        call.input.length - k :=
      Nat.add_sub_cancel_left _ _
    refine ⟨Nat.le_add_right _ _, ?_, ?_, ?_, by omega, rfl, hoff, ?_, hr.legal⟩
    · show e.inputPos + k + (e1.span.position + k +
        (call.input.length - k) - (e1.span.position + k)) ≤ _
      omega
    · show e1.span.position + k + (call.input.length - k) - (e1.span.position + k) < 2 ^ 25
      omega
    · show e1.span.position + k + (call.input.length - k) < u64Max
      simp only [u64Max]
      omega
    · show (if attached.isSome then (attached.map SharedContext.totalSize).getD 0 else 0) =
        env.prefixLen
      rw [← env.prefixBytes_length, ← hattached]
      cases attached with
      | none => rfl
      | some c => exact (List.length_flatten).symm
  have hins0 : e.references.lastInsertLen + (call.input.length - k) < 2 ^ 32 := by omega
  have hfuel' : call.input.length - k < fuel := by omega
  obtain ⟨m', references, commands, hsearch, hins1, hins2, hopen2⟩ :=
    createBackwardReferences_good independent
      (Open.kept hb hr.legal) hcovers htruth hins0 (by omega : e.references.lastInsertLen ≤
      e.inputPos + k) hfuel' hopen1
  have hsearch' : matcher.greedy independent fuel (call.prepare e.matcher) params e1.window
      ⟨e1.span.position + k, call.input.length - k⟩ attached e.references cs =
      some (m', references, commands) := hsearch
  rw [show ({ e1 with commands := cs } : GatheringEncoder M).matcher =
    call.prepare e.matcher from rfl,
    show ({ e1 with commands := cs } : GatheringEncoder M).window = e1.window from rfl,
    show ({ e1 with commands := cs } : GatheringEncoder M).references =
    e.references from rfl, hsearch']
  simp only []
  have hstop : e.inputPos + k + (call.input.length - k) = e.inputPos + call.input.length := by omega
  have hopen3 : Open env params.maxBackwardLimit context input params.dist large e.lastFlushPos
    initial commands
      (remembered references.distCache)
      (e.inputPos + call.input.length - references.lastInsertLen) := hstop ▸ hopen2
  have hins : references.lastInsertLen ≤ e.inputPos + call.input.length - e.lastFlushPos := by
    have : references.lastInsertLen ≤ e.references.lastInsertLen + (call.input.length - k) := hins1
    omega
  set e2 : GatheringEncoder M :=
    { e1 with matcher := m', references := references, commands := commands } with he2
  by_cases hmerge : e2.merges params call = true
  · rw [if_pos hmerge]
    unfold GatheringEncoder.merges at hmerge
    simp only [Bool.and_eq_true, Bool.not_eq_true', decide_eq_true_eq] at hmerge
    obtain ⟨⟨⟨⟨⟨hlast, hflush⟩, -⟩, hroom'⟩, -⟩, -⟩ := hmerge
    have hblock := hwhole hlast hflush
    have h14 := hr.le_inputBlockSize
    refine ⟨_, rfl, ⟨hholds, hle, rfl, by show e.lastFlushPos ≤ e.inputPos + _; omega, hins,
      hroom', fun _ => ?_,
      initial, hsaved, hrecent, hopen3⟩, rfl, fun hl => hl⟩
    show 2 ^ 14 ≤ e.inputPos + call.input.length
    omega
  · rw [if_neg hmerge]
    obtain ⟨hgood, hpos, hlast⟩ := e2.close_good hr call hholds hle
      (by show e.lastFlushPos ≤ e.lastProcessedPos; omega)
      (by show e.lastProcessedPos ≤ e.inputPos + _; omega) hins hsaved hrecent hopen3
    exact ⟨_, rfl, hgood, hpos, fun hl => hlast.trans hl⟩

/-- Every run of blocks keeps the encoder good. -/
theorem GatheringEncoder.Good.encodeBlocks (independent : Bool) {fuel : ℕ} (hr : params.Resolved)
    (hoff : params.streamOffset = 0)
    (hb : env.Built) (hattached : (attached.map fun c => c.segments.flatten).getD [] =
      env.prefixBytes)
    (hfinds : matcher.Finds params attached env context input)
    (hfuel : params.inputBlockSize < fuel)
    (h : e.Good params env context input large) {calls : List (EncodeCall M)}
    (hcalls : ∀ call ∈ calls, call.Fits params ∧ call.isLast = false)
    (hnext : input.take e.inputPos ++ (calls.map EncodeCall.input).flatten <+: input)
    (hgoing : e.isLastBlockEmitted = false) :
    ∃ e', calls.foldlM (GatheringEncoder.encodeBlock matcher independent fuel params attached) e =
    some e' ∧
      e'.Good params env context input large ∧
      e'.inputPos = e.inputPos + (calls.map EncodeCall.input).flatten.length := by
  induction calls generalizing e with
  | nil => exact ⟨e, rfl, h, rfl⟩
  | cons call calls ih =>
    obtain ⟨hfits, hlast⟩ := hcalls call List.mem_cons_self
    rw [List.map_cons, List.flatten_cons, ← List.append_assoc] at hnext
    have hfirst : input.take e.inputPos ++ call.input <+: input :=
      (List.prefix_append _ _).trans hnext
    obtain ⟨e1, h1, hgood, hpos, hgo⟩ :=
      h.encodeBlock independent hr hoff hb hattached hfinds hfuel hfits hfirst hgoing
    have htake : input.take e1.inputPos = input.take e.inputPos ++ call.input := by
      have := List.prefix_iff_eq_take.1 hfirst
      rw [List.length_append, List.length_take, Nat.min_eq_left h.fits, ← hpos] at this
      exact this.symm
    obtain ⟨e2, h2, hgood2, hpos2⟩ :=
      ih hgood (fun c hc => hcalls c (List.mem_cons_of_mem _ hc)) (htake ▸ hnext) (hgo hlast)
    refine ⟨e2, ?_, hgood2, ?_⟩
    · rw [List.foldlM_cons, h1]
      exact h2
    · rw [hpos2, hpos, List.map_cons, List.flatten_cons, List.length_append, Nat.add_assoc]

theorem GatheringEncoder.new_good (hr : params.Resolved) (m : M) :
    (GatheringEncoder.new params m).Good params env context input large := by
  have hroom := hr.metablock.1
  have hrecent : Recent env params.maxBackwardLimit ![4, 11, 15, 16] 0 := .inl rfl
  refine ⟨RingBuffer.new_holds hr.sizes, Nat.zero_le _, rfl, le_refl _, le_refl _, ?_,
    fun h => absurd rfl h, {}, agrees_initial, hrecent,
    ?_⟩
  · show 0 - 0 + params.inputBlockSize ≤ params.maxMetablockSize
    omega
  · show Open env params.maxBackwardLimit context input params.dist large 0 {} []
      (remembered initialDistanceCache) 0
    rw [← remembered_initial]
    exact Open.of_agrees agrees_initial hrecent

end

/-- **Extending the last command is sound.** After any blocks of a stream at offset zero,
with any finder that reports only true matches, and whatever comes next: the last command
of the open meta-block is a true match at its real distance. A dictionary word and the span
are left alone; any other copy takes the first bytes of the span, is coded with its own
length and the same distance, and the commands still reconstruct the input. -/
theorem extension_sound {M R : Type} (matcher : Matcher M R) (independent large : Bool) (m : M)
    (fuel : ℕ) (config : CompressParams)
    (quality : GreedyQuality) (params : GreedyParams) (attached : Option SharedContext) (env : Env)
    (context : ℕ → ℕ)
    (input next : List UInt8) (calls : List (EncodeCall M))
    (hparams : GreedyParams.new config quality = .ok params)
    (hoff : config.streamOffset = 0) (hwindow : config.lgwin.bits ≤ 30) (hbuilt : env.Built)
    (hattached : (attached.map fun c => c.segments.flatten).getD [] = env.prefixBytes)
    (hcalls : ∀ call ∈ calls, call.Fits params ∧ call.isLast = false)
    (hnext : next.length ≤ params.inputBlockSize)
    (hinput : (calls.map EncodeCall.input).flatten ++ next <+: input)
    (hfinds : matcher.Finds params attached env context input)
    (hfuel : params.inputBlockSize < fuel) :
    ∃ e, calls.foldlM (GatheringEncoder.encodeBlock matcher independent fuel params attached)
    (.new params m) = some e ∧
      ∀ earlier command, e.commands = earlier ++ [command] → e.references.lastInsertLen = 0 →
        let limit := 2 ^ config.lgwin.bits - 16
        let start := e.inputPos - command.copyLen
        let reach := min start limit + env.prefixLen
        let distance := command.realDistance params.dist (e.references.distCache 0)
        let ahead := e.copyInputToRingBuffer next
        let r := extendLastCommand (ahead.extension params attached command)
        TrueMatch env limit context input start command.copyLen command.copyLenCode distance ∧
          (reach < distance → r = (command, ahead.span)) ∧
          (distance ≤ reach → (distance : ℤ) = e.references.distCache 0 ∧
            ∃ k ≤ next.length, r = (command.lengthened k,
              ⟨ahead.span.position + k, next.length - k⟩) ∧
              r.1.copyLen = command.copyLen + k ∧ r.1.copyLenCode = command.copyLen + k ∧
              TrueMatch env limit context input start (command.copyLen + k)
              (command.copyLen + k) distance ∧
              ∃ initial, Agrees initial e.savedDistCache ∧
                Reconstructs env limit (params.dist.layout large) context input e.lastFlushPos
                initial (earlier ++ [r.1])
                  (remembered e.references.distCache) (e.inputPos + k)) := by
  have hr := GreedyParams.new_resolved hparams
  have hlimit := GreedyParams.new_maxBackwardLimit hparams hwindow
  obtain ⟨hstream, -, -, -⟩ := GreedyParams.new_spec hparams
  have hnew : (GatheringEncoder.new params m).Good params env context input large :=
    GatheringEncoder.new_good hr m
  obtain ⟨e, hrun, hgood, hpos⟩ :=
    hnew.encodeBlocks independent hr (hstream.trans hoff) hbuilt hattached hfinds hfuel hcalls
      ((List.prefix_append _ _).trans hinput) rfl
  refine ⟨e, hrun, fun earlier command hcommands hpend => ?_⟩
  have hzero : (GatheringEncoder.new params m).inputPos = 0 := rfl
  have htake : input.take e.inputPos = (calls.map EncodeCall.input).flatten := by
    rw [hpos, hzero, Nat.zero_add]
    exact (List.prefix_iff_eq_take.1 ((List.prefix_append _ _).trans hinput)).symm
  obtain ⟨rb, hcopy, hle, hholds⟩ := hgood.copied hr hnext (htake ▸ hinput)
  obtain ⟨initial, hsaved, -, hopen⟩ := hgood.opened
  rw [hpend, Nat.sub_zero, hcommands] at hopen
  have hflushed := hgood.flushed
  have hroom := hgood.room
  have h24 := hr.metablock.2
  have hcopied := hopen.reconstructs.copyLen_le
  have hwrap := wrapPosition_reach hr.reach.2.1 e.inputPos
  have hbytes : e.inputPos + next.length - e.inputPos = next.length := Nat.add_sub_cancel_left _ _
  have hwin := hr.window_holds e.inputPos hholds hle (by rw [hbytes]; exact hnext)
  rw [hbytes] at hwin
  have hback := params.maxBackwardLimit_eq
  have hext :=
    hopen.extend ⟨wrapPosition e.inputPos, next.length⟩ hbuilt hr.legal hback hr.reach.2.2
      hholds.shape.mask hwin
      (hwrap.imp_right And.left) hle (by show _ + next.length < _; omega) hattached
      (hgood.whole
      (by rw [hcommands]; exact List.append_ne_nil_of_right_ne_nil _ (List.cons_ne_nil _ _)))
  have hspan : (e.copyInputToRingBuffer next).span = ⟨wrapPosition e.inputPos, next.length⟩ := by
    rw [hcopy]
    show (⟨wrapPosition e.lastProcessedPos, e.inputPos + next.length - e.lastProcessedPos⟩ :
      BlockSpan) = _
    rw [hgood.processed, hbytes]
  have hinputs : (e.copyInputToRingBuffer next).extension params attached command =
    ⟨command, params.lgwin, params.dist,
      remembered e.references.distCache 0, ⟨rb.buffer, rb.mask⟩, e.inputPos, attached,
      ⟨wrapPosition e.inputPos, next.length⟩⟩ := by
    unfold GatheringEncoder.extension
    rw [hspan, hcopy, ← hgood.processed]
    rfl
  rw [← hlimit]
  intro limit start reach distance ahead r
  have hr' : r = extendLastCommand _ := congrArg extendLastCommand hinputs
  obtain ⟨h1, h2, h3⟩ := hext
  refine ⟨h1, fun hbeyond => ?_, fun hd => ?_⟩
  · rw [hr']
    exact (h2 hbeyond).trans (by rw [← hspan])
  · obtain ⟨h4, k, hk, h5, h6, h7, h8, h9⟩ := h3 hd
    refine ⟨h4, k, hk, ?_, ?_, ?_, h8, initial, hsaved, ?_⟩
    · rw [hr']
      show _ = (_, (⟨(e.copyInputToRingBuffer next).span.position + k, _⟩ : BlockSpan))
      rw [hspan]
      exact h5
    · rw [hr']
      exact h6
    · rw [hr']
      exact h7
    · rw [hr']
      exact h9.reconstructs

/-- A finder for a stream that starts with a run of one byte, whose rest it reports. -/
def longRunFinder : Matcher Unit Unit where
  run := {
    hashTypeLength := 4
    storeLookahead := 4
    store := fun _ _ _ r => r
    storeRange := fun _ _ _ _ r => r
    findLongestMatch := fun r dictionary q out =>
      (r, dictionary, if 1 ≤ q.curIx ∧ q.curIx < 16386 ∧ 0 < q.maxLength then
        { len := min q.maxLength (16386 - q.curIx), distance := 1, score := minScore + 1 } else out)
          }
  lend := id
  settle := fun m _ => m
  lastDistancesToCheck := fun _ => 4
  checkpoint := fun _ _ m => (3, m)

/-- The run continues for two bytes behind the first block. -/
theorem extension_sound_longRun :
    let config : CompressParams := { quality := 3, lgwin := ⟨.standard, 16, by decide, by decide⟩ }
    let params : GreedyParams := ⟨0, .q3, ⟨16, false⟩, 16, 14, .forWindow false 0 0⟩
    let calls : List (EncodeCall Unit) := [⟨List.replicate 16384 97, false, false, id, false⟩]
    let command : Command :=
      { insertLen := 1, copyLenBits := 16383, distExtra := 0, cmdPrefix := 399, distPrefix := 8 }
    GreedyParams.new config .q3 = .ok params ∧
      ∃ e, calls.foldlM (GatheringEncoder.encodeBlock longRunFinder false 16385 params none)
      (.new params ()) = some e ∧
        e.commands = [command] ∧
        extendLastCommand ((e.copyInputToRingBuffer [97, 97, 98]).extension params none command) =
          (command.lengthened 2, ⟨16386, 1⟩) ∧
        ∃ k, TrueMatch ⟨⟨fun _ => 0, 0⟩, {}, none⟩ (2 ^ 16 - 16) (fun _ => 0)
        (List.replicate 16386 97 ++ [98]) 1
          (16383 + k) (16383 + k) 1 := by
  intro config params calls command
  refine ⟨rfl, ?_⟩
  have hinput : (List.replicate 16384 97 ++ [97, 97, 98] : List UInt8) =
      List.replicate 16386 97 ++ [98] := by
    rw [show (16386 : ℕ) = 16384 + 2 from rfl, List.replicate_add, List.append_assoc]
    exact congrArg (List.replicate 16384 97 ++ ·) rfl
  have hfinds : longRunFinder.Finds params none ⟨⟨fun _ => 0, 0⟩, {},
      none⟩ (fun _ => 0) (List.replicate 16386 97 ++ [98]) := by
    intro m window start base bytes _ hfits hstart r state position maxLength out hlow hhigh
    have hlimit : params.maxBackwardLimit = 65520 := rfl
    have hlen : (List.replicate 16386 (97 : UInt8) ++ [98]).length = 16387 := by
      rw [List.length_append, List.length_replicate]
      rfl
    have hhigh' : position + maxLength ≤ start + bytes := hhigh
    rw [hlen] at hfits
    have hbase : start = base := by omega
    subst hbase
    show (if 1 ≤ position ∧ position < 16386 ∧ 0 < maxLength then
      ({ len := min maxLength (16386 - position), distance := 1, score := minScore + 1 } :
        SearchResult) else out) = out ∨
        Reported _ _ _ _ _ _ (if 1 ≤ position ∧ position < 16386 ∧ 0 < maxLength then
          ({ len := min maxLength (16386 - position), distance := 1, score := minScore + 1 } :
            SearchResult) else out)
    by_cases hrun : 1 ≤ position ∧ position < 16386 ∧ 0 < maxLength
    swap
    · rw [if_neg hrun]
      exact .inl rfl
    rw [if_pos hrun, show start + (position - start) = position by omega]
    set len := min maxLength (16386 - position) with hmin
    have hget : ∀ j < 16386, (List.replicate 16386 (97 : UInt8) ++ [98])[j]? = some 97 := by
      intro j hj
      rw [List.getElem?_append_left (by rw [List.length_replicate]; exact hj),
        List.getElem?_replicate, if_pos hj]
    refine .inr ⟨by show len ≤ maxLength; omega, by show (0 : ℤ) ≤ len + 0; omega, ?_⟩
    refine ⟨by show 0 <
          len; omega, by rw [hlen]; show position + len ≤ 16387; omega, by show 1 < 2 ^ 31; decide,
          .inl ⟨le_refl _, ?_, ?_, ?_⟩⟩
    · show 1 ≤ min position _
      rw [hlimit]
      omega
    · show ((len : ℤ) + 0).toNat = len
      omega
    · intro i hi
      have hi' : i < len := hi
      show (List.replicate 16386 (97 : UInt8) ++ [98])[position + i]? =
        (List.replicate 16386 (97 : UInt8) ++ [98])[position + i - 1]?
      rw [hget _ (by omega), hget _ (by omega)]
  have hcall : ∀ call ∈ calls, call.Fits params ∧ call.isLast = false := by
    intro call hc
    rw [List.mem_singleton.1 hc]
    have hsize : (List.replicate 16384 (97 : UInt8)).length = params.inputBlockSize :=
      List.length_replicate
    exact ⟨⟨hsize.le, fun _ _ => hsize⟩, rfl⟩
  have hprefix : (calls.map EncodeCall.input).flatten ++ [97, 97, 98] <+: List.replicate 16386
      97 ++ [98] := by
    have hflat : (calls.map EncodeCall.input).flatten = List.replicate 16384 97 := by
      simp only [calls, List.map_cons, List.map_nil, List.flatten_cons, List.flatten_nil,
        List.append_nil]
    exact ⟨[], by rw [List.append_nil, hflat]; exact hinput⟩
  obtain ⟨e, h1, h2⟩ :=
    extension_sound longRunFinder false false () 16385 config .q3 params none
    ⟨⟨fun _ => 0, 0⟩, {}, none⟩
    (fun _ => 0) (List.replicate 16386 97 ++ [98]) [97, 97, 98] calls rfl rfl (by decide) (.inl rfl)
      rfl hcall (by decide) hprefix hfinds
    (by decide)
  have hrun : (calls.foldlM (GatheringEncoder.encodeBlock longRunFinder false 16385 params none)
    (.new params ())).map
      (fun e => (e.commands, e.references.lastInsertLen, e.references.distCache 0, e.inputPos)) =
      some ([command], 0, 1, 16384) := by
    decide +kernel
  have hext : (calls.foldlM (GatheringEncoder.encodeBlock longRunFinder false 16385 params none)
    (.new params ())).map
      (fun e => extendLastCommand ((e.copyInputToRingBuffer [97, 97, 98]).extension params
        none command)) =
        some (command.lengthened 2, ⟨16386, 1⟩) := by
    decide +kernel
  rw [h1, Option.map_some, Option.some_inj] at hrun hext
  simp only [Prod.mk.injEq] at hrun
  obtain ⟨hcommands, hpend, hcache, hpos⟩ := hrun
  refine ⟨e, h1, hcommands, hext, ?_⟩
  obtain ⟨-, -, h3⟩ := h2 [] command hcommands hpend
  rw [hcache, hpos] at h3
  have hcopy : command.copyLen = 16383 := by decide
  have hdistance : command.realDistance params.dist 1 = 1 := by decide
  rw [hcopy, hdistance] at h3
  obtain ⟨-, k, -, -, -, -, hmatch, -⟩ := h3 (by decide)
  exact ⟨k, hmatch⟩

end Mbrotli.Compressor
