/-
# Encoder configuration

`CompressParams` is what the encoders are built from. `GreedyParams` and `HqParams`
are what qualities two to nine, and ten and eleven, resolve it to: the history they
keep, the block they take at once and the distance alphabet.
-/
import Mbrotli.Shared.Distance

namespace Mbrotli.Compressor

/-- Why an encoder refuses its parameters, or a stream. -/
inductive CompressError where
  | unsupportedQuality (quality : ℕ)
  | outputTooSmall
  | bufferOverflow
  | boundOverflow
  | unsupportedLargeWindow (quality : ℕ)
  deriving DecidableEq, Repr

/-- A sequence of steps that succeeds succeeds in each. -/
theorem ok_of_bind {ε α β : Type} {x : Except ε α} {f : α → Except ε β} {b : β}
    (h : (x >>= f) = .ok b) :
    ∃ a, x = .ok a ∧ f a = .ok b := by
  cases x with
  | error e => cases h
  | ok a => exact ⟨a, rfl, h⟩

/-- The window's two headers. -/
inductive WindowKind where
  | standard
  | large
  deriving DecidableEq, Repr

/-- The largest window each header can declare. -/
def WindowKind.maxBits : WindowKind → ℕ
  | .standard => 24
  | .large => 62

/-- A window its header can express. -/
structure WindowBits where
  kind : WindowKind
  bits : ℕ
  min_le : 10 ≤ bits
  le_max : bits ≤ kind.maxBits

inductive CompressMode where
  | generic
  | text
  | font
  deriving DecidableEq, Repr

/-- Postfix bits and direct codes a caller asks for. -/
structure DistanceCodes where
  postfixBits : ℕ := 0
  directCodes : ℕ := 0
  deriving DecidableEq, Repr

structure CompressParams where
  quality : Fin 12
  lgwin : WindowBits
  lgblock : Option ℕ := none
  mode : CompressMode := .generic
  sizeHint : Option ℕ := none
  distanceCodes : DistanceCodes := {}
  literalContextModeling : Bool := true
  streamOffset : ℕ := 0

/-- Bytes of the window kept as a margin. -/
def windowGap : ℕ := 16

/-- The most history an encoder keeps. -/
def maxEncoderWindowBits : ℕ := 30

structure ResolvedWindow where
  declaredBits : ℕ
  large : Bool
  deriving DecidableEq, Repr

namespace ResolvedWindow

def new (params : CompressParams) : ResolvedWindow :=
  { declaredBits := params.lgwin.bits, large := params.lgwin.kind = .large }

/-- The same window with at least `bits` declared. -/
def atLeast (w : ResolvedWindow) (bits : ℕ) : ResolvedWindow :=
  if bits ≤ w.declaredBits then w else { w with declaredBits := bits }

/-- The history the encoder keeps, in bits. -/
def encoderBits (w : ResolvedWindow) : ℕ :=
  if maxEncoderWindowBits < w.declaredBits then maxEncoderWindowBits else w.declaredBits

/-- The stream header and its width in bits. -/
def header (w : ResolvedWindow) : ℕ × ℕ :=
  if w.large then (((w.declaredBits &&& 0x3F) <<< 8) ||| 0x11, 14)
  else if w.declaredBits = 16 then (0, 1)
  else if w.declaredBits = 17 then (1, 7)
  else if 17 < w.declaredBits then (((w.declaredBits - 17) <<< 1) ||| 1, 4)
  else (((w.declaredBits - 8) <<< 4) ||| 1, 7)

theorem encoderBits_le (w : ResolvedWindow) : w.encoderBits ≤ 30 := by
  rw [encoderBits, maxEncoderWindowBits]
  split <;> omega

theorem encoderBits_eq {w : ResolvedWindow} (h : w.declaredBits ≤ 30) :
    w.encoderBits = w.declaredBits := by
  rw [encoderBits, maxEncoderWindowBits, if_neg (by omega)]

end ResolvedWindow

/-- What the caller asked for, or font mode's own codes; a pair the format cannot
express counts as none. -/
def requestedDistanceParams (large : Bool) (mode : CompressMode) (codes : DistanceCodes) :
    DistanceParams :=
  let (p, n) := if mode = .font then (1, 12) else (codes.postfixBits, codes.directCodes)
  if maxNpostfix < p ∨ maxNdirect < n ∨ ((n >>> p) % 16) <<< p ≠ n then .forWindow large 0 0
  else .forWindow large p n

theorem requestedDistanceParams_legal (large : Bool) (mode : CompressMode) (codes : DistanceCodes) :
    (requestedDistanceParams large mode codes).Legal := by
  rw [requestedDistanceParams]
  generalize (if mode = .font then (1, 12) else (codes.postfixBits, codes.directCodes)) = c
  obtain ⟨p, n⟩ := c
  by_cases h : maxNpostfix < p ∨ maxNdirect < n ∨ ((n >>> p) % 16) <<< p ≠ n
  · simp only [if_pos h]
    constructor <;> simp [DistanceParams.forWindow_postfixBits, DistanceParams.forWindow_numDirect]
  · simp only [if_neg h]
    simp only [not_or, not_lt, not_not] at h
    constructor <;> simp only [DistanceParams.forWindow_postfixBits,
      DistanceParams.forWindow_numDirect]
    · exact h.1
    · exact h.2.1
    · exact h.2.2

/-! ### Qualities two to nine -/

inductive GreedyQuality where
  | q2 | q3 | q4 | q5 | q6 | q7 | q8 | q9
  deriving DecidableEq, Repr

namespace GreedyQuality

def number : GreedyQuality → ℕ
  | .q2 => 2
  | .q3 => 3
  | .q4 => 4
  | .q5 => 5
  | .q6 => 6
  | .q7 => 7
  | .q8 => 8
  | .q9 => 9

def extensiveReferenceSearch (q : GreedyQuality) : Bool := 5 ≤ q.number

def splitsBlocks (q : GreedyQuality) : Bool := 4 ≤ q.number

def usesStaticEntropyCodes (q : GreedyQuality) : Bool := q.number ≤ 2

end GreedyQuality

structure GreedyParams where
  streamOffset : ℕ
  quality : GreedyQuality
  window : ResolvedWindow
  lgwin : ℕ
  lgblock : ℕ
  dist : DistanceParams

namespace GreedyParams

/-- `compute_lgblock` of the greedy qualities. -/
def computeLgblock (quality : GreedyQuality) (requested : Option ℕ) (lgwin : ℕ) : ℕ :=
  if quality.number < 4 then 14
  else match requested with
    | none => if 9 ≤ quality.number ∧ 16 < lgwin then (if lgwin < 18 then lgwin else 18) else 16
    | some lgblock => if lgblock < 16 then 16 else if 24 < lgblock then 24 else lgblock

/-- `choose_distance_params` of the greedy qualities. -/
def chooseDistanceParams (quality : GreedyQuality) (large : Bool) (mode : CompressMode)
    (codes : DistanceCodes) :
    DistanceParams :=
  if 4 ≤ quality.number then requestedDistanceParams large mode codes else .forWindow large 0 0

/-- `quality` is what `params.quality` routes to. The codes quality two may fall back
to cannot carry a large window's distances. -/
def new (params : CompressParams) (quality : GreedyQuality) : Except CompressError GreedyParams :=
  if quality.usesStaticEntropyCodes ∧ params.lgwin.kind = .large then
    .error (.unsupportedLargeWindow quality.number)
  else
    let window := ResolvedWindow.new params
    .ok {
      streamOffset := params.streamOffset
      quality, window
      lgwin := window.encoderBits
      lgblock := computeLgblock quality params.lgblock window.encoderBits
      dist := chooseDistanceParams quality window.large params.mode params.distanceCodes }

def inputBlockSize (p : GreedyParams) : ℕ := 1 <<< p.lgblock

/-- The largest backward distance. -/
def maxBackwardLimit (p : GreedyParams) : ℕ := (1 <<< p.lgwin) - windowGap

/-- The literal spree that starts the sparse search. -/
def randomHeuristicsWindowSize (p : GreedyParams) : ℕ := if p.quality.number < 9 then 64 else 512

theorem computeLgblock_le (quality : GreedyQuality) (requested : Option ℕ) (lgwin : ℕ) :
    computeLgblock quality requested lgwin ≤ 24 := by
  unfold computeLgblock
  split
  · omega
  · split <;> split <;> first | omega | (split <;> omega)

theorem chooseDistanceParams_legal (quality : GreedyQuality) (large : Bool) (mode : CompressMode)
    (codes : DistanceCodes) :
    (chooseDistanceParams quality large mode codes).Legal := by
  rw [chooseDistanceParams]
  split
  · exact requestedDistanceParams_legal _ _ _
  · exact requestedDistanceParams_legal _ .generic {}

/-- What accepted parameters resolve to. -/
theorem new_spec {params : CompressParams} {quality : GreedyQuality} {p : GreedyParams}
    (h : new params quality = .ok p) :
    p.streamOffset = params.streamOffset ∧ p.lgwin = (ResolvedWindow.new params).encoderBits ∧
    p.lgblock ≤ 24 ∧
      p.dist.Legal := by
  rw [new] at h
  by_cases hc : quality.usesStaticEntropyCodes ∧ params.lgwin.kind = .large
  · rw [if_pos hc] at h
    cases h
  · rw [if_neg hc] at h
    cases h
    exact ⟨rfl, rfl, computeLgblock_le _ _ _, chooseDistanceParams_legal _ _ _ _⟩

/-- The declared window's reach. -/
theorem new_maxBackwardLimit {params : CompressParams} {quality : GreedyQuality} {p : GreedyParams}
    (h : new params quality = .ok p) (hw : params.lgwin.bits ≤ 30) :
    p.maxBackwardLimit = 2 ^ params.lgwin.bits - 16 := by
  have hbits : (ResolvedWindow.new params).encoderBits = params.lgwin.bits :=
    ResolvedWindow.encoderBits_eq hw
  rw [maxBackwardLimit, (new_spec h).2.1, hbits, Nat.shiftLeft_eq, Nat.one_mul]
  rfl

end GreedyParams

/-! ### Qualities ten and eleven -/

inductive HqQuality where
  | q10 | q11
  deriving DecidableEq, Repr

structure HqParams where
  streamOffset : ℕ
  quality : HqQuality
  window : ResolvedWindow
  lgwin : ℕ
  lgblock : ℕ
  dist : DistanceParams

namespace HqParams

/-- `compute_lgblock` of the high qualities. -/
def computeLgblock (requested : Option ℕ) (lgwin : ℕ) : ℕ :=
  match requested with
  | none => if 16 < lgwin then (if lgwin < 18 then lgwin else 18) else 16
  | some lgblock => if lgblock < 16 then 16 else if 24 < lgblock then 24 else lgblock

def new (params : CompressParams) (quality : HqQuality) : HqParams :=
  let window := ResolvedWindow.new params
  { streamOffset := params.streamOffset
    quality, window
    lgwin := window.encoderBits
    lgblock := computeLgblock params.lgblock window.encoderBits
    dist := requestedDistanceParams window.large params.mode params.distanceCodes }

def logicalPosition (p : HqParams) (position : ℕ) : ℕ := position + p.streamOffset

/-- Copies longer than this are only priced whole. -/
def maxZopfliLen (p : HqParams) : ℕ := if p.quality = .q10 then 150 else 325

/-- Start positions tried at each position. -/
def maxZopfliCandidates (p : HqParams) : ℕ := if p.quality = .q10 then 1 else 5

def inputBlockSize (p : HqParams) : ℕ := 1 <<< p.lgblock

def maxBackwardLimit (p : HqParams) : ℕ := (1 <<< p.lgwin) - windowGap

theorem new_dist_legal (params : CompressParams) (quality : HqQuality) :
    (new params quality).dist.Legal :=
  requestedDistanceParams_legal _ _ _

/-- The declared window's reach. -/
theorem new_maxBackwardLimit (params : CompressParams) (quality : HqQuality)
    (hw : params.lgwin.bits ≤ 30) :
    (new params quality).maxBackwardLimit = 2 ^ params.lgwin.bits - 16 := by
  have hbits : (new params quality).lgwin = params.lgwin.bits := ResolvedWindow.encoderBits_eq hw
  rw [maxBackwardLimit, hbits, Nat.shiftLeft_eq, Nat.one_mul]
  rfl

end HqParams
end Mbrotli.Compressor
