/-
# Growing the last command

When a block starts where a copy ended, `extendLastCommand` lets the copy take the
bytes that continue it: out of the window, or out of the attached prefix across the
seams of its segments. What is taken is removed from the front of the span to search.
`Pushed` is the last command as a search leaves it. Extended, it is again one with a
longer copy, or it and the span are as they were (`Pushed.extend`).
-/
import Mbrotli.Compressor.Core.Greedy.BackwardReferences
import Mbrotli.Compressor.Core.Reference
import Mbrotli.Shared.CommandCodes
import Mbrotli.Shared.DecodeDictionary
import Mbrotli.Shared.MatchLen

namespace Mbrotli.Compressor

/-- What the extension of a command is given: the command, the latest distance the search
remembers, and the stretch about to be searched. -/
structure CommandExtension where
  command : Command
  lgwin : ℕ
  dist : DistanceParams
  lastDistance : ℤ
  window : Window
  lastProcessedPos : ℕ
  attached : Option SharedContext
  span : BlockSpan

/-- The command copies `k` bytes more, and the span begins behind them. -/
def absorb (s : Command × BlockSpan) (k : ℕ) : Command × BlockSpan :=
  ({ s.1 with copyLenBits := s.1.copyLenBits + k }, ⟨s.2.position + k, s.2.bytes - k⟩)

/-- Takes what repeats the window `distance` back, in pieces that end where either side
wraps. A piece is a byte at least. -/
def extendIntoWindow (window : Window) (distance : ℕ) :
    ℕ → Command × BlockSpan → Command × BlockSpan
  | 0, s => s
  | fuel + 1, s =>
    if s.2.bytes = 0 then s
    else
      let here := s.2.position &&& window.mask
      let there := wrappingSub s.2.position distance &&& window.mask
      let count := min (min s.2.bytes (window.mask - here + 1)) (window.mask - there + 1)
      let matched := findMatchLength window.data here there count
      if matched ≠ count then absorb s matched
      else extendIntoWindow window distance fuel (absorb s matched)

/-- Takes what agrees with `run`, and whether that was all of it. -/
def extendIntoRun (window : Window) : List UInt8 → Command × BlockSpan → Bool × Command × BlockSpan
  | [], s => (true, s)
  | byte :: run, s =>
    if s.2.bytes = 0 then (false, s)
    else match window.data[s.2.position &&& window.mask]? with
      | none => (false, s)
      | some current => if current ≠ byte then (false, s) else extendIntoRun window run (absorb s 1)

/-- Takes what agrees with the segments from `address` on. A run that is used up takes a
byte at least. -/
def extendIntoRuns (window : Window) (segments : List (List UInt8)) :
    ℕ → ℕ → Command × BlockSpan → Command × BlockSpan
  | 0, _, s => s
  | fuel + 1, address, s =>
    let run := DictionaryRef.runFrom segments address
    if run.isEmpty then s
    else match extendIntoRun window run s with
      | (false, s) => s
      | (true, s) => extendIntoRuns window segments fuel (address + run.length) s

/-- Runs a copy that addresses the attached prefix on past its command, unless it had
reached the window. -/
def extendIntoPrefix (attached : Option SharedContext) (cmdDist maxDistance lastCopyLen : ℕ)
    (window : Window)
    (s : Command × BlockSpan) : Command × BlockSpan :=
  match attached with
  | none => s
  | some context =>
    let compound := context.totalSize
    let reach := cmdDist - maxDistance
    if compound < reach ∨ reach ≤ lastCopyLen then s
    else extendIntoRuns window context.segments (s.2.bytes + 1) (compound - reach + lastCopyLen) s

def extendLastCommand (x : CommandExtension) : Command × BlockSpan :=
  let maxBackwardDistance := (1 <<< x.lgwin) - 16
  let lastCopyLen := x.command.copyLen
  let lastProcessedPos := x.lastProcessedPos - lastCopyLen
  let maxDistance := min lastProcessedPos maxBackwardDistance
  let cmdDist := (x.lastDistance % 2 ^ 32).toNat
  let distanceCode := x.command.restoreDistanceCode x.dist
  if distanceCode < numDistanceShortCodes ∨ distanceCode - (numDistanceShortCodes - 1) = cmdDist
    then
    let (command, span) :=
      if cmdDist ≤ maxDistance then extendIntoWindow x.window cmdDist x.span.bytes
        (x.command, x.span)
      else extendIntoPrefix x.attached cmdDist maxDistance lastCopyLen x.window (x.command, x.span)
    -- The delta of the length code is read without its sign.
    let copylen := command.copyLenBits % 2 ^ 25 + command.copyLenBits >>> 25
    ({ command with cmdPrefix := lengthCode command.insertLen copylen (command.distanceCode = 0) },
      span)
  else (x.command, x.span)

/-! ### What is taken -/

@[simp] theorem absorb_zero (s : Command × BlockSpan) : absorb s 0 = s := rfl

theorem absorb_absorb (s : Command × BlockSpan) (j k : ℕ) :
    absorb (absorb s j) k = absorb s (j + k) := by
  simp [absorb, Nat.add_assoc, Nat.sub_sub]

/-- Within a piece, neither side wraps. -/
theorem and_mask_add {n q i : ℕ} (h : i < 2 ^ n - 1 - (q &&& (2 ^ n - 1)) + 1) :
    (q &&& (2 ^ n - 1)) + i = (q + i) &&& (2 ^ n - 1) := by
  have hn : 0 < 2 ^ n := Nat.two_pow_pos n
  rw [Nat.and_two_pow_sub_one_eq_mod] at h ⊢
  rw [Nat.and_two_pow_sub_one_eq_mod]
  have hlt : q % 2 ^ n < 2 ^ n := Nat.mod_lt _ hn
  rw [Nat.add_mod q i, Nat.mod_eq_of_lt (show i < 2 ^ n by omega),
    Nat.mod_eq_of_lt (show q % 2 ^ n + i < 2 ^ n by omega)]

/-- The window gives what repeats it. -/
theorem extendIntoWindow_spec {window : Window} {n distance : ℕ}
    (hmask : window.mask = 2 ^ n - 1) (fuel : ℕ)
    (s : Command × BlockSpan) (hd : distance ≤ s.2.position) :
    ∃ k ≤ s.2.bytes, extendIntoWindow window distance fuel s = absorb s k ∧
      ∀ i < k, window.data[(s.2.position + i) &&& window.mask]? =
      window.data[(s.2.position + i - distance) &&& window.mask]? := by
  induction fuel generalizing s with
  | zero => exact ⟨0, Nat.zero_le _, rfl, fun i hi => absurd hi (Nat.not_lt_zero i)⟩
  | succ fuel ih =>
    rw [extendIntoWindow]
    by_cases h0 : s.2.bytes = 0
    · rw [if_pos h0]
      exact ⟨0, Nat.zero_le _, rfl, fun i hi => absurd hi (Nat.not_lt_zero i)⟩
    rw [if_neg h0, wrappingSub_of_le hd]
    simp only []
    set here := s.2.position &&& window.mask with hhere
    set there := (s.2.position - distance) &&& window.mask with hthere
    set count := min (min s.2.bytes (window.mask - here + 1)) (window.mask - there + 1) with hcount
    obtain ⟨hle, hsame⟩ := findMatchLength_spec window.data here there count
    set matched := findMatchLength window.data here there count with hmatched
    have hpiece : ∀ i < matched,
        window.data[(s.2.position + i) &&& window.mask]? =
        window.data[(s.2.position + i - distance) &&& window.mask]? := by
      intro i hi
      have h1 : here + i = (s.2.position + i) &&& window.mask := by
        rw [hhere, hmask]
        exact and_mask_add (by rw [← hmask]; omega)
      have h2 : there + i = (s.2.position + i - distance) &&& window.mask := by
        rw [hthere, hmask, show s.2.position + i - distance = s.2.position - distance + i by omega]
        exact and_mask_add (by rw [← hmask]; omega)
      rw [← h1, ← h2]
      exact hsame i hi
    by_cases hall : matched ≠ count
    · rw [if_pos hall]
      exact ⟨matched, by omega, rfl, hpiece⟩
    · rw [if_neg hall]
      obtain ⟨k, hk, heq, hrest⟩ :=
        ih (absorb s matched) (by show distance ≤ s.2.position + matched; omega)
      have hk' : k ≤ s.2.bytes - matched := hk
      refine ⟨matched + k, by omega, by rw [heq, absorb_absorb], fun i hi => ?_⟩
      by_cases hfirst : i < matched
      · exact hpiece i hfirst
      · have := hrest (i - matched) (by omega)
        rwa [show (absorb s matched).2.position + (i - matched) =
          s.2.position + i by show s.2.position + matched + _ = _; omega]
          at this

/-- A run gives what agrees with its start. -/
theorem extendIntoRun_spec (window : Window) (run : List UInt8) (s : Command × BlockSpan) :
    ∃ k ≤ s.2.bytes, (extendIntoRun window run s).2 = absorb s k ∧ k ≤ run.length ∧
      ((extendIntoRun window run s).1 = true → k = run.length) ∧
      ∀ i < k, window.data[(s.2.position + i) &&& window.mask]? = run[i]? := by
  induction run generalizing s with
  | nil => exact ⟨0, Nat.zero_le _, rfl, le_refl _, fun _ => rfl,
      fun i hi => absurd hi (Nat.not_lt_zero i)⟩
  | cons byte run ih =>
    have hstop : ∃ k ≤ s.2.bytes, s = absorb s k ∧ k ≤ (byte :: run).length ∧
        (false = true → k = (byte :: run).length) ∧
        ∀ i < k, window.data[(s.2.position + i) &&& window.mask]? = (byte :: run)[i]? :=
      ⟨0, Nat.zero_le _, rfl, Nat.zero_le _, ⟨nofun, fun i hi => absurd hi (Nat.not_lt_zero i)⟩⟩
    rw [extendIntoRun]
    by_cases h0 : s.2.bytes = 0
    · rw [if_pos h0]
      exact hstop
    rw [if_neg h0]
    cases hbyte : window.data[s.2.position &&& window.mask]? with
    | none => exact hstop
    | some current =>
      simp only []
      by_cases hne : current ≠ byte
      · rw [if_pos hne]
        exact hstop
      rw [if_neg hne]
      have hcurrent : current = byte := not_not.mp hne
      obtain ⟨k, hk, heq, hle, hend, hsame⟩ := ih (absorb s 1)
      have hk' : k ≤ s.2.bytes - 1 := hk
      refine ⟨1 + k, by omega, by rw [heq, absorb_absorb], by rw [List.length_cons]; omega,
        fun h => ?_, fun i hi => ?_⟩
      · rw [List.length_cons, ← hend h, Nat.add_comm]
      · cases i with
        | zero => rw [Nat.add_zero, hbyte, hcurrent]; rfl
        | succ i =>
          have hi' := hsame i (by omega)
          rwa [show (absorb s 1).2.position + i =
            s.2.position + (i + 1) by show s.2.position + 1 + i = _; omega] at hi'

/-- The segments give what agrees with their concatenation. -/
theorem extendIntoRuns_spec (window : Window) (segments : List (List UInt8)) (fuel address : ℕ)
    (s : Command × BlockSpan) :
    ∃ k ≤ s.2.bytes, extendIntoRuns window segments fuel address s = absorb s k ∧
      (0 < k → address + k ≤ segments.flatten.length) ∧
      ∀ i < k, window.data[(s.2.position + i) &&& window.mask]? =
      segments.flatten[address + i]? := by
  induction fuel generalizing address s with
  | zero => exact ⟨0, Nat.zero_le _, rfl, fun h => absurd h (lt_irrefl 0),
      fun i hi => absurd hi (Nat.not_lt_zero i)⟩
  | succ fuel ih =>
    rw [extendIntoRuns]
    obtain ⟨rest, hrest⟩ := DictionaryRef.runFrom_eq segments address
    set run := DictionaryRef.runFrom segments address with hrun
    by_cases hempty : run.isEmpty = true
    · rw [if_pos hempty]
      exact ⟨0, Nat.zero_le _, rfl, fun h => absurd h (lt_irrefl 0),
        fun i hi => absurd hi (Nat.not_lt_zero i)⟩
    rw [if_neg hempty]
    have hpos : 0 < run.length := by
      rcases hr : run with _ | ⟨byte, run'⟩
      · rw [hr] at hempty
        exact absurd rfl hempty
      · exact Nat.succ_pos _
    have hlen : address + run.length ≤ segments.flatten.length := by
      have := congrArg List.length hrest
      rw [List.length_append, List.length_drop] at this
      omega
    have hget : ∀ i < run.length, run[i]? = segments.flatten[address + i]? := by
      intro i hi
      rw [← List.getElem?_drop, ← hrest, List.getElem?_append_left hi]
    obtain ⟨k, hk, heq, hle, hend, hsame⟩ := extendIntoRun_spec window run s
    rcases hcall : extendIntoRun window run s with ⟨done, s'⟩
    rw [hcall] at heq hend
    simp only [] at heq hend
    cases done with
    | false =>
      refine ⟨k, hk, heq, fun _ => by omega, fun i hi => ?_⟩
      rw [hsame i hi, hget i (by omega)]
    | true =>
      have hk' : k = run.length := hend rfl
      obtain ⟨j, hj, hjeq, hjlen, hjsame⟩ := ih (address + run.length) s'
      rw [heq] at hj hjeq hjsame
      have hj' : j ≤ s.2.bytes - k := hj
      refine ⟨k + j, by omega, by rw [← absorb_absorb, ← hjeq, heq], fun _ => ?_, fun i hi => ?_⟩
      · by_cases h0 : 0 < j
        · have := hjlen h0
          omega
        · omega
      · by_cases hfirst : i < k
        · rw [hsame i hfirst, hget i (by omega)]
        · have := hjsame (i - k) (by omega)
          rwa [show (absorb s k).2.position + (i - k) =
            s.2.position + i by show s.2.position + k + _ = _; omega,
            show address + run.length + (i - k) = address + i by omega] at this

/-! ### The last command -/

section

variable {env : Env} {limit : ℕ} {context : ℕ →
    ℕ} {input : List UInt8} {position len lenCode distance : ℕ}

/-- Only words are coded with a length that is not theirs. -/
theorem TrueMatch.lenCode_eq_len
    (h : TrueMatch env limit context input position len lenCode distance)
    (hd : distance ≤ min position limit + env.prefixLen) : lenCode = len := by
  have hfits := h.fits
  rcases h.bytes with ⟨-, -, heq, -⟩ | ⟨hbeyond, he⟩
  · exact heq
  · have hlength : (input.take position).length = position := by
      rw [List.length_take]; omega
    have htarget : env.target limit (input.take position).length distance =
        .attached (env.prefixLen - (distance - min position limit)) := by
      rw [Env.target, hlength]
      exact if_pos ⟨hbeyond, by omega⟩
    rw [Env.expand, htarget] at he
    injection he with he
    have := congrArg List.length he
    rw [repeatBytes_length, List.length_take, List.length_drop] at this
    omega

/-- A match within the prefix has the prefix's bytes. -/
theorem TrueMatch.attached_bytes
    (h : TrueMatch env limit context input position len lenCode distance)
    (hbeyond : min position limit < distance) (hd : distance ≤ min position limit + env.prefixLen)
    (hlen : len ≤ distance - min position limit) {i : ℕ} (hi : i < len) :
    env.prefixBytes[env.prefixLen - (distance - min position limit) + i]? =
    input[position + i]? := by
  have hfits := h.fits
  have hcode := h.lenCode_eq_len hd
  have he := h.expand
  have hlength : (input.take position).length = position := by
    rw [List.length_take]; omega
  have htarget : env.target limit (input.take position).length distance =
      .attached (env.prefixLen - (distance - min position limit)) := by
    rw [Env.target, hlength]
    exact if_pos ⟨hbeyond, by omega⟩
  rw [Env.expand, htarget, hcode] at he
  injection he with he
  rw [repeatBytes_append (by rw [List.length_drop, env.prefixBytes_length]; omega)] at he
  have := congrArg (fun l => l[i]?) he
  rwa [List.getElem?_take_of_lt hi, List.getElem?_take_of_lt hi, List.getElem?_drop,
    List.getElem?_drop] at this

end

section

variable (env : Env) (limit : ℕ) (context : ℕ → ℕ) (input : List UInt8) (dist : DistanceParams)
    (large : Bool)
variable (origin : ℕ) (initial : Cache)

/-- The distance remembered last was in reach, or is the one a stream starts with. -/
def Recent (cache : Fin 4 → ℤ) (position : ℕ) : Prop :=
  cache 0 = 4 ∨ cache 0 ≤ min position limit + env.prefixLen

/-- The command of a true match, pushed behind `earlier`. -/
structure Pushed (earlier : List Command) (cache : Fin 4 → ℤ)
    (start insert len lenCode distance code : ℕ) : Prop where
  reconstructs : Reconstructs env limit (dist.layout large) context input origin initial
    earlier cache start
  trueMatch : TrueMatch env limit context input (start + insert) len lenCode distance
  spells : Spells cache distance code
  spelled : min (start + insert) limit + env.prefixLen < distance → numDistanceShortCodes ≤ code
  insert_lt : insert < 2 ^ 32
  len_lt : len < 2 ^ 25
  recent : Recent env limit cache start

/-- The distances remembered behind a reference at `position`. -/
def behind (cache : Fin 4 → ℤ) (position distance code : ℕ) : Fin 4 → ℤ :=
  if distance ≤ min position limit + env.prefixLen ∧ code ≠ 0
    then remember cache distance else cache

variable {env limit context input dist large origin initial}
variable {earlier : List Command} {cache : Fin 4 → ℤ} {start insert len lenCode distance code : ℕ}

theorem Recent.mono {position : ℕ} (h : Recent env limit cache position) {n : ℕ} :
    Recent env limit cache (position + n) := by
  rcases h with h | h
  · exact .inl h
  · refine .inr (h.trans ?_)
    have : min position limit ≤ min (position + n) limit := by omega
    omega

theorem Pushed.behind_recent
    (h : Pushed env limit context input dist large origin initial earlier cache start insert len
      lenCode distance code) :
    Recent env limit (behind env limit cache (start + insert) distance code)
    (start + insert + len) := by
  unfold behind
  by_cases hrem : distance ≤ min (start + insert) limit + env.prefixLen ∧ code ≠ 0
  · rw [if_pos hrem]
    refine .inr ?_
    show (distance : ℤ) ≤ _
    have := hrem.1
    omega
  · rw [if_neg hrem, Nat.add_assoc]
    exact h.recent.mono

/-- In reach, the distance of the last command is the one remembered last. -/
theorem Pushed.behind_zero
    (h : Pushed env limit context input dist large origin initial earlier cache start insert len
      lenCode distance code)
    (hd : distance ≤ min (start + insert) limit + env.prefixLen) :
    behind env limit cache (start + insert) distance code 0 = distance := by
  unfold behind
  by_cases h0 : code = 0
  · rw [if_neg (by simp [h0])]
    rcases h.spells with ⟨-, h16⟩ | ⟨-, he⟩
    · rw [h0] at h16
      exact absurd h16 (by decide)
    · rw [h0] at he
      have he' : (distance : ℤ) = cache 0 + 0 := he
      omega
  · rw [if_pos ⟨hd, h0⟩]
    rfl

theorem Spells.code_lt (h : Spells cache distance code) (hd : distance < 2 ^ 31) :
    code < 2 ^ 32 := by
  rcases h with ⟨h1, -⟩ | ⟨h1, -⟩
  · omega
  · exact h1.trans (by decide)

/-- Whatever `k` bytes more the copy takes, its symbol is made for the longer copy. -/
theorem absorb_new (dist : DistanceParams) {insert len code : ℕ} (span : BlockSpan) {k : ℕ}
    (hins : insert < 2 ^ 32) (hlen : len + k < 2 ^ 25) :
    let (command, span') := absorb (Command.new dist insert len 0 code, span) k
    let copylen := command.copyLenBits % 2 ^ 25 + command.copyLenBits >>> 25
    (({ command with cmdPrefix := lengthCode command.insertLen copylen (command.distanceCode = 0)
      } : Command), span') =
      (Command.new dist insert (len + k) 0 code, ⟨span.position + k, span.bytes - k⟩) :=
  Prod.ext (Command.new_add dist hins hlen) rfl

/-- A copy from the window is longer by the bytes that repeat at its distance. -/
theorem Pushed.longer_window
    (h : Pushed env limit context input dist large origin initial earlier cache start insert len
      lenCode distance code)
    (hwin : distance ≤ min (start + insert) limit) {k : ℕ}
    (hfits : start + insert + len + k ≤ input.length)
    (hsame : ∀ i < k,
      input[start + insert + len + i]? = input[start + insert + len + i - distance]?) :
    TrueMatch env limit context input (start + insert) (len + k) (len + k) distance := by
  have hpos := h.trueMatch.pos
  refine ⟨by omega, by omega, h.trueMatch.narrow,
    .inl ⟨h.trueMatch.distance_pos, hwin, rfl, fun i hi => ?_⟩⟩
  by_cases hold : i < len
  · rcases h.trueMatch.bytes with ⟨-, -, -, hb⟩ | ⟨hb, -⟩
    · exact hb i hold
    · exact absurd hwin (Nat.not_le.2 hb)
  · have hnew := hsame (i - len) (by omega)
    rwa [show start + insert + len + (i - len) = start + insert + i by omega] at hnew

/-- One from the prefix, by those that follow it there. -/
theorem Pushed.longer_prefix
    (h : Pushed env limit context input dist large origin initial earlier cache start insert len
      lenCode distance code)
    (hbeyond : min (start + insert) limit < distance)
    (hd : distance ≤ min (start + insert) limit + env.prefixLen)
    (hreach : len < distance - min (start + insert) limit) {k : ℕ}
    (hfits : start + insert + len + k ≤ input.length)
    (hend : 0 < k →
      env.prefixLen - (distance - min (start + insert) limit) + len + k ≤ env.prefixLen)
    (hsame : ∀ i < k, input[start + insert + len + i]? =
      env.prefixBytes[env.prefixLen - (distance - min (start + insert) limit) + len + i]?) :
    TrueMatch env limit context input (start + insert) (len + k) (len + k) distance := by
  have hpos := h.trueMatch.pos
  refine TrueMatch.attached (by omega) (by omega) h.trueMatch.narrow hbeyond hd ?_ fun i hi => ?_
  · by_cases h0 : 0 < k
    · have := hend h0
      omega
    · omega
  · by_cases hold : i < len
    · exact h.trueMatch.attached_bytes hbeyond hd (by omega) hold
    · have hnew := hsame (i - len) (by omega)
      rwa [show start + insert + len + (i - len) = start + insert + i by omega,
        show env.prefixLen - (distance - min (start + insert) limit) + len + (i - len) =
          env.prefixLen - (distance - min (start + insert) limit) + i by omega, eq_comm] at hnew

/-- **The last command is extended soundly.** It and the span are left alone, or the
copy takes the first `k` bytes of the span at the command's own distance, which is then
the one remembered last; a dictionary word never takes any. -/
theorem Pushed.extend {lgwin n : ℕ} {window : Window} {attached : Option SharedContext}
    {span : BlockSpan}
    (hdist : dist.Legal)
    (h : Pushed env limit context input dist large origin initial earlier cache start insert len
      lenCode distance code)
    (hlimit : limit = 2 ^ lgwin - 16) (hmask : window.mask = 2 ^ n - 1)
    (hholds : window.Holds limit input span.position (start + insert + len) span.bytes)
    (hwrap : span.position = start + insert + len ∨ limit ≤ span.position)
    (hfits : start + insert + len + span.bytes ≤ input.length) (hlen : len + span.bytes < 2 ^ 25)
    (hattached : (attached.map fun c => c.segments.flatten).getD [] = env.prefixBytes)
    (hword : min (start + insert) limit + env.prefixLen < distance →
      4 ≤ min (start + insert) limit) :
    let command := Command.new dist insert len (lenCode - len : ℤ) code
    let remembered := behind env limit cache (start + insert) distance code
    let r := extendLastCommand ⟨command, lgwin, dist, remembered 0, window, start + insert + len,
      attached, span⟩
    r = (command, span) ∧ min (start + insert) limit + env.prefixLen < distance ∨
      distance ≤ min (start + insert) limit + env.prefixLen ∧
      command = Command.new dist insert len 0 code ∧
      ∃ k ≤ span.bytes, r = (Command.new dist insert (len + k) 0 code,
        ⟨span.position + k, span.bytes - k⟩) ∧
        Pushed env limit context input dist large origin initial earlier cache start insert
        (len + k) (len + k) distance code := by
  intro command remembered r
  have h31 := h.trueMatch.narrow
  have hcode := h.spells.code_lt h31
  have hcopy : command.copyLen = len := Command.copyLen_new dist h.len_lt
  have hrestore : command.restoreDistanceCode dist = code :=
    (Command.distance_new insert len _ hdist hcode large).1
  have hplace : start + insert + len - len = start + insert := by omega
  have hr : r = extendLastCommand ⟨command, lgwin, dist, remembered 0, window, start + insert + len,
    attached, span⟩ := rfl
  unfold extendLastCommand at hr
  simp only [hcopy, hrestore, hplace, Nat.shiftLeft_eq, Nat.one_mul, ← hlimit] at hr
  by_cases hd : distance ≤ min (start + insert) limit + env.prefixLen
  swap
  · -- A word: its code is spelled out, and it was never remembered.
    have hbeyond := Nat.not_le.1 hd
    refine .inl ⟨?_, hbeyond⟩
    have hrem : remembered = cache := if_neg (fun hc => hd hc.1)
    have h16 := h.spelled hbeyond
    obtain ⟨hcd, -⟩ : code = distance + 15 ∧ _ :=
      h.spells.resolve_right fun hs => absurd hs.1 (Nat.not_lt.2 h16)
    obtain ⟨c, -, hag⟩ := h.reconstructs.replays
    have hcell := hag 0
    have hne : (remembered 0 % 2 ^ 32).toNat ≠ distance := by
      rw [hrem]
      have hfar := hword hbeyond
      have hmono : min start limit ≤ min (start + insert) limit := by omega
      have hmod : cache 0 % 2 ^ 32 = cache 0 := Int.emod_eq_of_lt (by omega) (by omega)
      rw [hmod]
      rcases h.recent with h4 | hle <;> omega
    rw [if_neg] at hr
    · exact hr
    · simp only [numDistanceShortCodes] at h16 ⊢
      omega
  refine .inr ⟨hd, ?_⟩
  have hlc : lenCode = len := h.trueMatch.lenCode_eq_len hd
  have hcommand : command = Command.new dist insert len 0 code := by
    have : (lenCode - len : ℤ) = 0 := by omega
    show Command.new dist insert len (lenCode - len : ℤ) code = _
    rw [this]
  refine ⟨hcommand, ?_⟩
  have hzero : remembered 0 = distance := h.behind_zero hd
  have hcmd : (remembered 0 % 2 ^ 32).toNat = distance := by
    rw [hzero]
    have : (distance : ℤ) % 2 ^ 32 = distance := Int.emod_eq_of_lt (by omega) (by omega)
    omega
  have htaken : code < numDistanceShortCodes ∨ code - (numDistanceShortCodes - 1) = distance := by
    rcases h.spells with ⟨h1, h2⟩ | ⟨h1, -⟩
    · simp only [numDistanceShortCodes] at h2 ⊢
      omega
    · exact .inl h1
  rw [hcmd, if_pos htaken] at hr
  -- It remains to find what was taken, and that the match is longer by that.
  have hsuffices : ∀ k ≤ span.bytes,
      (if distance ≤ min (start + insert) limit
        then extendIntoWindow window distance span.bytes (command, span)
        else extendIntoPrefix attached distance (min (start + insert) limit) len window (command,
          span)) = absorb (command, span) k →
      TrueMatch env limit context input (start + insert) (len + k) (len + k) distance →
      ∃ k ≤ span.bytes, r = (Command.new dist insert (len + k) 0 code,
        ⟨span.position + k, span.bytes - k⟩) ∧
        Pushed env limit context input dist large origin initial earlier cache start insert
        (len + k) (len + k) distance code := by
    intro k hk heq hm
    refine ⟨k, hk, ?_, h.reconstructs, hm, h.spells, h.spelled, h.insert_lt, by omega, h.recent⟩
    rw [hr, heq, hcommand]
    exact absorb_new dist span h.insert_lt (by omega)
  have hread : ∀ q, 0 < span.bytes → span.position ≤ q + limit → q < span.position + span.bytes →
      window.data[q &&& window.mask]? = input[start + insert + len + q - span.position]? := by
    intro q h0 h1 h2
    have := hholds q 0 h1 (by omega) h0
    simpa using this
  by_cases hwin : distance ≤ min (start + insert) limit
  · rw [if_pos hwin] at hsuffices
    have hback : distance ≤ span.position := by omega
    obtain ⟨k, hk, heq, hsame⟩ := extendIntoWindow_spec hmask span.bytes (command, span) hback
    have hk' : k ≤ span.bytes := hk
    refine hsuffices k hk heq (h.longer_window hwin (by omega) fun i hi => ?_)
    have hsame' := hsame i hi
    have h1 := hread (span.position + i) (by omega) (by omega) (by omega)
    have h2 := hread (span.position + i - distance) (by omega) (by omega) (by omega)
    simp only [] at hsame'
    rw [h1, h2] at hsame'
    rwa [show start + insert + len + (span.position + i) - span.position =
        start + insert + len + i by omega,
      show start + insert + len + (span.position + i - distance) - span.position =
        start + insert + len + i - distance by omega] at hsame'
  · rw [if_neg hwin] at hsuffices
    have hbeyond := Nat.not_le.1 hwin
    set reach := distance - min (start + insert) limit with hreach
    have hplain : TrueMatch env limit context input (start + insert) (len + 0) (len + 0)
        distance := by
      have := h.trueMatch
      rwa [hlc] at this
    cases attached with
    | none =>
      have hnone : env.prefixLen = 0 := by
        rw [← env.prefixBytes_length, ← hattached]
        rfl
      omega
    | some shared =>
      have hbytes : shared.segments.flatten = env.prefixBytes := hattached
      have htotal : shared.totalSize = env.prefixLen := by
        rw [← env.prefixBytes_length, ← hbytes, List.length_flatten]
        rfl
      unfold extendIntoPrefix at hsuffices
      simp only [htotal, ← hreach] at hsuffices
      by_cases hstop : env.prefixLen < reach ∨ reach ≤ len
      · rw [if_pos hstop] at hsuffices
        exact hsuffices 0 (Nat.zero_le _) rfl hplain
      rw [if_neg hstop] at hsuffices
      obtain ⟨k, hk, heq, hend, hsame⟩ :=
        extendIntoRuns_spec window shared.segments (span.bytes + 1) (env.prefixLen - reach + len)
          (command, span)
      have hk' : k ≤ span.bytes := hk
      rw [hbytes, env.prefixBytes_length] at hend
      refine hsuffices k hk heq (h.longer_prefix hbeyond hd (by omega) (by omega) hend
        fun i hi => ?_)
      have hsame' := hsame i hi
      have h1 := hread (span.position + i) (by omega) (by omega) (by omega)
      simp only [] at hsame'
      rw [h1, hbytes] at hsame'
      rwa [show start + insert + len + (span.position + i) - span.position =
        start + insert + len + i by omega] at hsame'

/-! ### An open meta-block -/

variable (env limit context input dist large origin initial)

/-- The commands of a meta-block that is still open reconstruct the input from `origin`
on, and the last of them is as it was pushed. -/
structure Open (commands : List Command) (cache : Fin 4 → ℤ) (position : ℕ) : Prop where
  reconstructs : Reconstructs env limit (dist.layout large) context input origin initial commands
    cache position
  recent : Recent env limit cache position
  last : commands = [] ∨ ∃ earlier before start insert len lenCode distance code,
    Pushed env limit context input dist large origin initial earlier before start insert len lenCode
    distance code ∧
      commands = earlier ++ [Command.new dist insert len (lenCode - len : ℤ) code] ∧
      cache = behind env limit before (start + insert) distance code ∧
      position = start + insert + len

variable {env limit context input dist large origin initial}

theorem Open.of_agrees {cache : Fin 4 → ℤ} (h : Agrees initial cache)
    (hr : Recent env limit cache origin) :
    Open env limit context input dist large origin initial [] cache origin :=
  ⟨Reconstructs.start h, hr, .inl rfl⟩

theorem Pushed.open (hb : env.Built) (hdist : dist.Legal)
    (h : Pushed env limit context input dist large origin initial earlier cache start insert len
      lenCode distance code) :
    Open env limit context input dist large origin initial
    (earlier ++ [Command.new dist insert len (lenCode - len : ℤ) code])
      (behind env limit cache (start + insert) distance code) (start + insert + len) :=
  ⟨h.reconstructs.push hb hdist h.trueMatch h.spells h.insert_lt h.len_lt, h.behind_recent,
    .inr ⟨earlier, cache, start, insert, len, lenCode, distance, code, h, rfl, rfl, rfl⟩⟩

theorem Open.kept (hb : env.Built) (hdist : dist.Legal) :
    Kept env limit context input dist (Open env limit context input dist large origin initial) where
  agrees h := by
    obtain ⟨c, -, hag⟩ := h.reconstructs.replays
    exact ⟨c, hag⟩
  push h hm hcode hspelled hins hlen :=
    Pushed.open hb hdist ⟨h.reconstructs, hm, hcode, hspelled, hins, hlen, h.recent⟩

/-- The distance a command was made for: its code's, or the one remembered last. -/
def Command.realDistance (c : Command) (dist : DistanceParams) (lastDistance : ℤ) : ℕ :=
  if c.restoreDistanceCode dist < numDistanceShortCodes then lastDistance.toNat
  else c.restoreDistanceCode dist - (numDistanceShortCodes - 1)

/-- The command with a copy `k` bytes longer, coded with its own length. -/
def Command.lengthened (c : Command) (k : ℕ) : Command :=
  { c with
    copyLenBits := c.copyLenBits + k
    cmdPrefix := lengthCode c.insertLen (c.copyLen + k) (c.distanceCode = 0) }

theorem Command.lengthened_new (dist : DistanceParams) {k : ℕ} (hins : insert < 2 ^ 32)
    (hlen : len + k < 2 ^ 25) :
    (Command.new dist insert len 0 code).lengthened k = Command.new dist insert
    (len + k) 0 code := by
  have hcopy : (Command.new dist insert len 0 code).copyLen = len :=
    Command.copyLen_new dist (by omega)
  unfold Command.lengthened
  rw [hcopy, Command.new_plain dist hins hlen,
    Command.new_plain dist hins (by omega : len < 2 ^ 25)]
  rfl

/-- **The last command of an open meta-block is extended soundly.** -/
theorem Open.extend {lgwin n position : ℕ} {window : Window} {attached : Option SharedContext}
    {command : Command}
    (h : Open env limit context input dist large origin initial (earlier ++ [command]) cache
      position) (span : BlockSpan)
    (hb : env.Built) (hdist : dist.Legal)
    (hlimit : limit = 2 ^ lgwin - 16) (h4 : 4 ≤ limit) (hmask : window.mask = 2 ^ n - 1)
    (hholds : window.Holds limit input span.position position span.bytes)
    (hwrap : span.position = position ∨ limit ≤ span.position)
    (hfits : position + span.bytes ≤ input.length) (hlen : command.copyLen + span.bytes < 2 ^ 25)
    (hattached : (attached.map fun c => c.segments.flatten).getD [] = env.prefixBytes)
    (hlong : 2 ^ 14 ≤ position) :
    let start := position - command.copyLen
    let distance := command.realDistance dist (cache 0)
    let r := extendLastCommand ⟨command, lgwin, dist, cache 0, window, position, attached, span⟩
    TrueMatch env limit context input start command.copyLen command.copyLenCode distance ∧
      (min start limit + env.prefixLen < distance → r = (command, span)) ∧
      (distance ≤ min start limit + env.prefixLen → (distance : ℤ) = cache 0 ∧
        ∃ k ≤ span.bytes, r = (command.lengthened k, ⟨span.position + k, span.bytes - k⟩) ∧
          r.1.copyLen = command.copyLen + k ∧ r.1.copyLenCode = command.copyLen + k ∧
          TrueMatch env limit context input start (command.copyLen + k)
          (command.copyLen + k) distance ∧
          Open env limit context input dist large origin initial (earlier ++ [r.1]) cache
          (position + k)) := by
  intro start distance r
  obtain ⟨earlier', before, place, insert, len, lenCode, dis, code, hp, heq, hcache, hpos⟩ :=
    h.last.resolve_left (List.append_ne_nil_of_right_ne_nil _ (List.cons_ne_nil _ _))
  obtain ⟨rfl, hlast⟩ := List.append_inj' heq rfl
  have hcommand : command = Command.new dist insert len (lenCode - len : ℤ) code :=
    List.singleton_inj.1 hlast
  subst hcommand hcache hpos
  have h31 := hp.trueMatch.narrow
  have h32 := hp.spells.code_lt h31
  have hcopy : (Command.new dist insert len (lenCode - len : ℤ) code).copyLen = len :=
    Command.copyLen_new dist hp.len_lt
  have hcoded : (Command.new dist insert len (lenCode - len : ℤ) code).copyLenCode = lenCode := by
    have hor := hp.trueMatch.lenCode_eq hb
    have hpos := hp.trueMatch.pos
    rw [Command.copyLenCode_new dist hp.len_lt (by omega) (by omega) (by omega)]
    omega
  have hrestore : (Command.new dist insert len (lenCode - len : ℤ) code).restoreDistanceCode dist =
      code :=
    (Command.distance_new insert len _ hdist h32 large).1
  have hstart : start = place + insert := by
    show place + insert + len - Command.copyLen _ = _
    rw [hcopy]
    omega
  -- Whatever form the code has, it names the distance of the match.
  have hreal : distance = dis := by
    show Command.realDistance _ _ _ = _
    rw [Command.realDistance, hrestore]
    rcases hp.spells with ⟨h1, h2⟩ | ⟨h1, h2⟩
    · rw [if_neg (Nat.not_lt.2 h2), h1]
      simp only [numDistanceShortCodes]
      omega
    · rw [if_pos h1, hp.behind_zero]
      · exact Int.toNat_natCast dis
      · by_contra hbeyond
        exact absurd (hp.spelled (Nat.not_le.1 hbeyond)) (Nat.not_le.2 h1)
  rw [hcopy] at hlen
  have hword : min (place + insert) limit + env.prefixLen < dis →
      4 ≤ min (place + insert) limit := by
    intro hbeyond
    have := hp.trueMatch.length_le hb hbeyond
    omega
  have hr := hp.extend hdist hlimit hmask hholds hwrap hfits hlen hattached hword
  rw [hstart, hreal, hcopy, hcoded]
  refine ⟨hp.trueMatch, fun hbeyond => ?_, fun hd => ?_⟩
  · rcases hr with ⟨hr, -⟩ | ⟨hd, -⟩
    · exact hr
    · exact absurd hbeyond (Nat.not_lt.2 hd)
  · rcases hr with ⟨-, hbeyond⟩ | ⟨-, hplain, k, hk, hr, hp'⟩
    · exact absurd hd (Nat.not_le.2 hbeyond)
    have hlong := hp'.len_lt
    have hr' : r = (Command.new dist insert (len + k) 0 code,
      ⟨span.position + k, span.bytes - k⟩) := hr
    have hopen := hp'.open hb hdist
    have hzero : (((len + k : ℕ) : ℤ) - ((len + k : ℕ) : ℤ)) = 0 := by omega
    rw [hzero, show place + insert + (len + k) = place + insert + len + k by omega] at hopen
    have hlen0 : ((len + k : ℕ) : ℤ) + 0 = ((len + k : ℕ) : ℤ) := by omega
    refine ⟨(hp.behind_zero hd).symm, k, hk, ?_, ?_, ?_, hp'.trueMatch, ?_⟩
    · rw [hr', hplain, Command.lengthened_new dist hp.insert_lt hlong]
    · rw [hr', Command.copyLen_new dist hlong]
    · rw [hr', Command.copyLenCode_new dist hlong (by decide) (by omega)
        (fun h => absurd h (by decide)), hlen0, Int.toNat_natCast]
    · rw [hr']
      exact hopen

end
end Mbrotli.Compressor
