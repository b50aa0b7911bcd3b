/-
# References and what commands reconstruct

A `TrueMatch` is a reference whose bytes are the input's. `Reconstructs` says of the
commands of a search that they tile the input between two positions, that the decoder's
rules give back exactly that much input, and that its distance cache is the encoder's.
`Reconstructs.push` adds a command whose reference is a true match and whose code
spells its distance (`Spells`).
-/
import Mbrotli.Compressor.Config
import Mbrotli.Decompressor.Core.Replay
import Mbrotli.Shared.Command

namespace Mbrotli

/-- A dictionary the decoder accepts is one it has built. -/
def Env.Built (env : Env) : Prop :=
  env.dictionary = none ∨ ∃ p : Prefixes, env.dictionary = some (p.ref env.program.builtinWords)

namespace Compressor

/-! ### Periodic copies -/

/-- Bytes that agree with those a distance back repeat what came before them. -/
theorem repeatBytes_eq {input : List UInt8} {position len distance : ℕ} (h1 : 1 ≤ distance)
    (hd : distance ≤ position) (hl : position + len ≤ input.length)
    (heq : ∀ i < len, input[position + i]? = input[position + i - distance]?) :
    repeatBytes ((input.take position).drop (position - distance)) len =
    (input.drop position).take len := by
  set source := (input.take position).drop (position - distance) with hs
  have hlen : source.length = distance := by
    rw [hs, List.length_drop, List.length_take]; omega
  have hat : ∀ i < distance, source[i]? = input[position - distance + i]? := by
    intro i hi
    rw [hs, List.getElem?_drop, List.getElem?_take_of_lt (by omega)]
  have hper : ∀ i < len, source[i % distance]? = input[position + i]? := by
    intro i
    induction i using Nat.strong_induction_on with
    | _ i ih =>
      intro hi
      rw [heq i hi]
      by_cases hlt : i < distance
      · rw [Nat.mod_eq_of_lt hlt, hat i hlt]
        congr 1
        omega
      · rw [show position + i - distance = position + (i - distance) by omega,
          ← ih (i - distance) (by omega) (by omega),
          Nat.mod_eq_sub_mod (by omega)]
  apply List.ext_getElem?
  intro i
  rw [repeatBytes, List.getElem?_map]
  by_cases hi : i < len
  · rw [List.getElem?_range hi, List.getElem?_take_of_lt hi, List.getElem?_drop, ← hper i hi, hlen]
    have : i % distance < source.length := by rw [hlen]; exact Nat.mod_lt _ (by omega)
    simp [List.getD_eq_getElem?_getD, List.getElem?_eq_getElem this]
  · rw [List.getElem?_eq_none (by simpa using hi), List.getElem?_eq_none (by simp; omega)]
    rfl

theorem repeatBytes_length (source : List UInt8) (n : ℕ) : (repeatBytes source n).length = n := by
  simp [repeatBytes]

/-! ### True matches -/

/-- A reference of `len` bytes at `position`, coded with copy length `lenCode`, whose
bytes are the input's: a window copy, or what lies beyond the window. -/
structure TrueMatch (env : Env) (limit : ℕ) (context : ℕ → ℕ) (input : List UInt8)
    (position len lenCode distance : ℕ) : Prop where
  pos : 0 < len
  fits : position + len ≤ input.length
  narrow : distance < 2 ^ 31
  bytes : (1 ≤ distance ∧ distance ≤ min position limit ∧ lenCode = len ∧
      ∀ i < len, input[position + i]? = input[position + i - distance]?) ∨
    (min position limit < distance ∧
      env.expand limit (context position) (input.take position) lenCode distance =
      .ok ((input.drop position).take len))

section

variable {env : Env} {limit : ℕ} {context : ℕ →
    ℕ} {input : List UInt8} {position len lenCode distance : ℕ}

theorem TrueMatch.distance_pos
    (h : TrueMatch env limit context input position len lenCode distance) : 1 ≤ distance := by
  rcases h.bytes with h | h
  · exact h.1
  · omega

/-- The decoder's rules give the bytes of a true match. -/
theorem TrueMatch.expand (h : TrueMatch env limit context input position len lenCode distance) :
    env.expand limit (context position) (input.take position) lenCode distance =
      .ok ((input.drop position).take len) := by
  rcases h.bytes with ⟨h1, hd, rfl, heq⟩ | ⟨-, he⟩
  · have hlen : (input.take position).length = position := by
      rw [List.length_take]; have := h.fits; omega
    have htarget : env.target limit (input.take position).length distance = .window := by
      rw [Env.target, hlen]
      simp only [not_lt.mpr hd, false_and, if_false]
    rw [Env.expand, htarget, hlen]
    exact congrArg Except.ok (repeatBytes_eq h1 (by omega) h.fits heq)
  · exact he

theorem repeatBytes_take (source : List UInt8) {m n : ℕ} (h : m ≤ n) :
    (repeatBytes source n).take m = repeatBytes source m := by
  rw [repeatBytes, repeatBytes, ← List.map_take, List.take_range, Nat.min_eq_left h]

/-- As far as it goes, a source is not repeated. -/
theorem repeatBytes_append {source rest : List UInt8} {n : ℕ} (h : n ≤ source.length) :
    repeatBytes (source ++ rest) n = source.take n := by
  apply List.ext_getElem?
  intro i
  rw [repeatBytes, List.getElem?_map]
  by_cases hi : i < n
  · rw [List.getElem?_range hi, List.getElem?_take_of_lt hi]
    have hlt : i < (source ++ rest).length := by rw [List.length_append]; omega
    have hget : (source ++ rest)[i]? = source[i]? := List.getElem?_append_left (by omega)
    rw [Option.map_some, Nat.mod_eq_of_lt hlt, List.getD_eq_getElem?_getD, hget,
      List.getElem?_eq_getElem (by omega), Option.getD_some]
  · rw [List.getElem?_eq_none (by simpa using hi), List.getElem?_eq_none (by simp; omega)]
    rfl

/-- What starts at a place of the prefix that has the input's bytes is a true match. -/
theorem TrueMatch.attached (h : 0 < len) (hfits : position + len ≤ input.length)
    (hnarrow : distance < 2 ^ 31)
    (hbeyond : min position limit < distance)
    (hwithin : distance ≤ min position limit + env.prefixLen)
    (hlen : env.prefixLen - (distance - min position limit) + len ≤ env.prefixLen)
    (heq : ∀ i < len, env.prefixBytes[env.prefixLen - (distance - min position limit) + i]? =
      input[position + i]?) :
    TrueMatch env limit context input position len len distance := by
  refine ⟨h, hfits, hnarrow, .inr ⟨hbeyond, ?_⟩⟩
  have hlength : (input.take position).length = position := by
    rw [List.length_take]; omega
  have htarget : env.target limit (input.take position).length distance =
      .attached (env.prefixLen - (distance - min position limit)) := by
    rw [Env.target, hlength]
    exact if_pos ⟨hbeyond, by omega⟩
  rw [Env.expand, htarget]
  refine congrArg Except.ok ?_
  rw [repeatBytes_append (by rw [List.length_drop, env.prefixBytes_length]; omega)]
  apply List.ext_getElem?
  intro i
  by_cases hi : i < len
  · rw [List.getElem?_take_of_lt hi, List.getElem?_take_of_lt hi, List.getElem?_drop,
      List.getElem?_drop]
    exact heq i hi
  · rw [List.getElem?_eq_none (by simp; omega), List.getElem?_eq_none (by simp; omega)]

/-- The start of a copy is a copy; of a word it need not be one. -/
theorem TrueMatch.shorten (h : TrueMatch env limit context input position len lenCode distance)
    (hd : distance ≤ min position limit + env.prefixLen) {n : ℕ} (h0 : 0 < n) (hn : n ≤ len) :
    TrueMatch env limit context input position n n distance := by
  have hfits := h.fits
  refine ⟨h0, by omega, h.narrow, ?_⟩
  rcases h.bytes with ⟨h1, h2, -, heq⟩ | ⟨hbeyond, he⟩
  · exact .inl ⟨h1, h2, rfl, fun i hi => heq i (by omega)⟩
  · refine .inr ⟨hbeyond, ?_⟩
    have hlength : (input.take position).length = position := by
      rw [List.length_take]; omega
    have htarget : env.target limit (input.take position).length distance =
        .attached (env.prefixLen - (distance - min position limit)) := by
      rw [Env.target, hlength]
      exact if_pos ⟨hbeyond, by omega⟩
    rw [Env.expand, htarget] at he ⊢
    injection he with he
    have hcode : lenCode = len := by
      have := congrArg List.length he
      rw [repeatBytes_length, List.length_take, List.length_drop] at this
      omega
    subst hcode
    refine congrArg Except.ok ?_
    rw [← repeatBytes_take _ hn, he, List.take_take, Nat.min_eq_left hn]

/-- A word's coded length is at most 31. -/
theorem resolveWord_le {address copy ctx : ℕ} {word : List UInt8} (hb : env.Built)
    (h : env.resolveWord address copy ctx = .ok word) : copy ≤ 31 := by
  have hbuiltin : env.builtinWord address copy = .ok word → copy ≤ 31 := by
    intro h
    rw [Env.builtinWord] at h
    split at h
    · cases h
    · omega
  rw [Env.resolveWord] at h
  rcases hb with hb | ⟨p, hb⟩
  · rw [hb] at h
    exact hbuiltin h
  · rw [hb] at h
    simp only [Option.bind_some, Prefixes.ref] at h
    cases hd : p.description with
    | none =>
      rw [hd] at h
      exact hbuiltin h
    | some d =>
      rw [hd] at h
      simp only [Option.map_some] at h
      rw [Description.resolve] at h
      split at h
      · cases h
      · omega

/-- Only a word's coded length can differ from the bytes it stands for. -/
theorem TrueMatch.lenCode_eq (hb : env.Built)
    (h : TrueMatch env limit context input position len lenCode distance) :
    lenCode = len ∨ lenCode ≤ 31 := by
  have he := h.expand
  have hlen : ((input.drop position).take len).length = len := by
    rw [List.length_take, List.length_drop]; have := h.fits; omega
  rw [Env.expand] at he
  split at he
  · injection he with he
    rw [← he, repeatBytes_length] at hlen
    exact .inl hlen
  · injection he with he
    rw [← he, repeatBytes_length] at hlen
    exact .inl hlen
  · split at he
    · cases he
    · rename_i word hw
      exact .inr (resolveWord_le hb hw)

/-- The words of the dictionary are short. -/
theorem resolveWord_length_le {address copy ctx : ℕ} {word : List UInt8} (hb : env.Built)
    (h : env.resolveWord address copy ctx = .ok word) : word.length ≤ 541 := by
  have hbuiltin : env.builtinWord address copy = .ok word → word.length ≤ 541 := by
    intro h
    rw [Env.builtinWord] at h
    split at h
    · cases h
    rename_i hlen
    simp only [] at h
    split at h
    · cases h
    · rename_i transform htransform
      injection h with h
      rw [← h]
      have h1 := Transform.builtin_length_le htransform
      refine (Transform.apply_length_le _ _).trans ?_
      rw [List.length_map, List.length_range]
      omega
  rw [Env.resolveWord] at h
  rcases hb with hb | ⟨p, hb⟩
  · rw [hb] at h
    exact hbuiltin h
  · rw [hb] at h
    simp only [Option.bind_some, Prefixes.ref] at h
    cases hd : p.description with
    | none =>
      rw [hd] at h
      exact hbuiltin h
    | some d =>
      rw [hd] at h
      simp only [Option.map_some] at h
      rw [Description.resolve] at h
      split at h
      · cases h
      · rename_i hlen
        exact Description.resolveIn_length_le (by omega) h

/-- A match out of reach is a word. -/
theorem TrueMatch.length_le (hb : env.Built)
    (h : TrueMatch env limit context input position len lenCode distance)
    (hbeyond : min position limit + env.prefixLen < distance) : len ≤ 541 := by
  have hfits := h.fits
  have he := h.expand
  have hlength : (input.take position).length = position := by
    rw [List.length_take]; omega
  have hlen : ((input.drop position).take len).length = len := by
    rw [List.length_take, List.length_drop]; omega
  have htarget : env.target limit (input.take position).length distance =
      .word (distance - min position limit - env.prefixLen - 1) := by
    rw [Env.target, hlength]
    rw [if_neg (by omega), if_pos (by omega)]
  rw [Env.expand, htarget] at he
  simp only [] at he
  split at he
  · cases he
  · rename_i word hword
    split at he
    · cases he
    · injection he with he
      rw [← hlen, ← he]
      exact resolveWord_length_le hb hword

end

/-! ### Distance codes -/

/-- The remembered distances are the decoder's, and fit in 31 bits. -/
def Agrees (cache : Cache) (remembered : Fin 4 → ℤ) : Prop :=
  ∀ i, (cache.recent i : ℤ) = remembered i ∧ remembered i < 2 ^ 31

/-- The four distances after `distance` has been taken in. -/
def remember (cache : Fin 4 → ℤ) (distance : ℤ) : Fin 4 → ℤ
  | 0 => distance
  | 1 => cache 0
  | 2 => cache 1
  | 3 => cache 2

theorem recent_push (c : Cache) (distance : ℕ) (i : Fin 4) :
    (c.push distance).recent i = if i = 0 then distance else c.recent (i - 1) := by
  have h0 : ∀ j : Fin 4, j + 1 - 1 - 0 = j := by decide
  have h1 : ∀ i j : Fin 4, i ≠ 0 → j + 1 - 1 - i = j - 1 - (i - 1) ∧ j + 1 - 1 - i ≠ j := by decide
  by_cases hi : i = 0
  · subst hi
    simp only [Cache.recent, Cache.push, h0, Function.update_self, if_pos]
  · obtain ⟨h2, h3⟩ := h1 i c.index hi
    simp only [Cache.recent, Cache.push, if_neg hi]
    rw [Function.update_of_ne h3, h2]

theorem Agrees.push {c : Cache} {cache : Fin 4 → ℤ} (h : Agrees c cache) {distance : ℕ}
    (hd : distance < 2 ^ 31) :
    Agrees (c.push distance) (remember cache distance) := by
  intro i
  rw [recent_push]
  match i with
  | 0 => exact ⟨rfl, by simp only [remember]; omega⟩
  | 1 => exact h 0
  | 2 => exact h 1
  | 3 => exact h 2

/-- A distance code stands for the distance: spelled out, or short against the
remembered ones. -/
def Spells (cache : Fin 4 → ℤ) (distance code : ℕ) : Prop :=
  (code = distance + 15 ∧ numDistanceShortCodes ≤ code) ∨
    (code < numDistanceShortCodes ∧
      (distance : ℤ) = cache (DistanceLayout.shortIndex.getD code 0) +
      DistanceLayout.shortOffset.getD code 0)

theorem short_of_spells {c : Cache} {cache : Fin 4 → ℤ} (h : Agrees c cache) {distance code : ℕ}
    (hc : code < numDistanceShortCodes)
    (he : (distance : ℤ) = cache (DistanceLayout.shortIndex.getD code 0) +
      DistanceLayout.shortOffset.getD code 0)
    (h1 : 1 ≤ distance) (h31 : distance < 2 ^ 31) : DistanceLayout.short code c = .ok distance := by
  have hmod : code % 16 = code := Nat.mod_eq_of_lt hc
  rw [DistanceLayout.short, hmod]
  rw [(h _).1, ← he, if_pos ⟨by omega, by simp only [maxDistance]; omega⟩]
  rfl

/-! ### Reconstruction -/

namespace Command

/-- What the decoder reads of a command after its literals. -/
def coded (c : Command) : Option Coded :=
  if c.copyLen = 0 then none
  else some { implicit := !c.hasDistance, copy := c.copyLenCode, symbol :=
    c.distanceCode, extra := c.distExtra }

/-- The input a command covers. -/
def size (c : Command) : ℕ := c.insertLen + c.copyLen

end Command

section

variable (env : Env) (limit : ℕ) (layout : DistanceLayout) (context : ℕ → ℕ) (input : List UInt8)

/-- The decoder's rules over commands whose literals are the input's from `position`
on. -/
def replayFrom : ℕ → Replay → List Command → Except DecodeError Replay
  | _, s, [] => .ok s
  | position, s, c :: cs =>
    match s.command env limit layout context ((input.drop position).take c.insertLen) c.coded with
    | .error e => .error e
    | .ok s => replayFrom (position + c.size) s cs

/-- The commands cover the input from `origin` up to `position`, the decoder gets just
that out of them, and remembers the distances the encoder does. -/
structure Reconstructs (origin : ℕ) (initial : Cache) (commands : List Command) (cache : Fin 4 → ℤ)
    (position : ℕ) : Prop where
  covers : origin + (commands.map Command.size).sum = position
  replays : ∃ c, replayFrom env limit layout context input origin ⟨input.take origin,
    initial⟩ commands =
    .ok ⟨input.take position, c⟩ ∧ Agrees c cache

variable {env limit layout context input}
variable {origin : ℕ} {initial : Cache}

theorem replayFrom_append {position : ℕ} {s s' : Replay} {cs cs' : List Command}
    (h : replayFrom env limit layout context input position s cs = .ok s') :
    replayFrom env limit layout context input position s (cs ++ cs') =
      replayFrom env limit layout context input (position + (cs.map Command.size).sum) s' cs' := by
  induction cs generalizing position s with
  | nil =>
    cases h
    rfl
  | cons c cs ih =>
    rw [replayFrom] at h
    rw [List.cons_append, replayFrom]
    cases hs : s.command env limit layout context ((input.drop position).take c.insertLen) c.coded
      with
    | error e => rw [hs] at h; cases h
    | ok s1 =>
      rw [hs] at h
      simp only []
      rw [ih h, List.map_cons, List.sum_cons, Nat.add_assoc]

theorem Reconstructs.start {cache : Fin 4 → ℤ} (h : Agrees initial cache) :
    Reconstructs env limit layout context input origin initial [] cache origin :=
  ⟨rfl, initial, rfl, h⟩

/-- The cache a stream starts with. -/
theorem agrees_initial : Agrees {} ![4, 11, 15, 16] := by
  intro i
  match i with
  | 0 => exact ⟨rfl, by decide⟩
  | 1 => exact ⟨rfl, by decide⟩
  | 2 => exact ⟨rfl, by decide⟩
  | 3 => exact ⟨rfl, by decide⟩

/-- The trailing literals of a meta-block, as a command of their own. -/
theorem Reconstructs.insertOnly {commands : List Command} {cache : Fin 4 → ℤ} {start insert : ℕ}
    (h : Reconstructs env limit layout context input origin initial commands cache start)
    (hins : insert < 2 ^ 32) :
    Reconstructs env limit layout context input origin initial
    (commands ++ [Command.insertOnly insert]) cache (start + insert) := by
  obtain ⟨hcov, c, hrep, hag⟩ := h
  have hinsert : (Command.insertOnly insert).insertLen = insert := Nat.mod_eq_of_lt hins
  have hcopy : (Command.insertOnly insert).copyLen = 0 := by
    simp [Command.copyLen, Command.insertOnly]
  refine ⟨?_, c, ?_, hag⟩
  · rw [List.map_append, List.sum_append, ← Nat.add_assoc, hcov, List.map_singleton,
      List.sum_singleton, Command.size,
      hinsert, hcopy, Nat.add_zero]
  · rw [replayFrom_append hrep, hcov, replayFrom, hinsert, Command.coded, if_pos hcopy]
    simp only [Replay.command, replayFrom, ← List.take_add]

theorem remembered_target (env : Env) (limit position distance code : ℕ) :
    (env.target limit position distance).remembered code =
      decide (distance ≤ min position limit + env.prefixLen ∧ code ≠ 0) := by
  rw [Env.target]
  split
  · rename_i h
    have : distance ≤ min position limit + env.prefixLen := by omega
    simp [Target.remembered, this]
  split
  · rename_i h1 h2
    have : ¬ distance ≤ min position limit + env.prefixLen := by omega
    simp only [Target.remembered, this, false_and, decide_false]
  · rename_i h1 h2
    have : distance ≤ min position limit + env.prefixLen := by omega
    simp only [Target.remembered, this, true_and, ne_eq, decide_not]

/-- **A command whose reference is a true match reconstructs its bytes.** -/
theorem Reconstructs.push {commands : List Command} {cache : Fin 4 → ℤ}
    {start insert len lenCode distance code : ℕ}
    {dist : DistanceParams} {large : Bool} (hb : env.Built) (hdist : dist.Legal)
    (h : Reconstructs env limit (dist.layout large) context input origin initial
      commands cache start)
    (hm : TrueMatch env limit context input (start + insert) len lenCode distance)
    (hcode : Spells cache distance code) (hins : insert < 2 ^ 32) (hlen : len < 2 ^ 25) :
    Reconstructs env limit (dist.layout large) context input origin initial
      (commands ++ [Command.new dist insert len (lenCode - len : ℤ) code])
      (if distance ≤ min (start + insert) limit + env.prefixLen ∧
        code ≠ 0 then remember cache distance else cache)
      (start + insert + len) := by
  obtain ⟨hcov, c, hrep, hag⟩ := h
  set command := Command.new dist insert len (lenCode - len : ℤ) code with hcmd
  have hinsert : command.insertLen = insert := Command.insertLen_new dist hins
  have hcopy : command.copyLen = len := Command.copyLen_new dist hlen
  have hpos := hm.pos
  have hfits := hm.fits
  have hd1 := hm.distance_pos
  have hd31 := hm.narrow
  have hc32 : code < 2 ^ 32 := by
    rcases hcode with ⟨h1, -⟩ | ⟨h1, -⟩
    · omega
    · exact h1.trans (by decide)
  have hlc : command.copyLenCode = lenCode := by
    have hor := hm.lenCode_eq hb
    rw [hcmd, Command.copyLenCode_new dist hlen (by omega) (by omega) (by omega)]
    omega
  have hlits : input.take start ++ (input.drop start).take insert =
      input.take (start + insert) := by
    rw [List.take_add]
  have hhist : (input.take (start + insert)).length = start + insert := by
    rw [List.length_take]; omega
  have hnew : ∀ symbol, (symbol = 0 ↔ code = 0) →
    Replay.reference env limit (context (start + insert))
      ⟨input.take (start + insert), c⟩ symbol lenCode distance =
      .ok ⟨input.take (start + insert + len),
        if distance ≤ min (start + insert) limit + env.prefixLen ∧ code ≠ 0
        then c.push distance else c⟩ := by
    intro symbol hs
    rw [Replay.reference, hm.expand, hhist, remembered_target]
    have : (distance ≤ min (start + insert) limit + env.prefixLen ∧ symbol ≠ 0) ↔
        (distance ≤ min (start + insert) limit + env.prefixLen ∧ code ≠ 0) := by rw [ne_eq, hs]
    simp only [decide_eq_true_eq, this, ← List.take_add]
  have hstep : Replay.command env limit (dist.layout large) context ⟨input.take start, c⟩
      ((input.drop start).take command.insertLen) command.coded =
      .ok ⟨input.take (start + insert + len),
        if distance ≤ min (start + insert) limit + env.prefixLen ∧ code ≠ 0
        then c.push distance else c⟩ := by
    unfold Replay.command
    rw [hinsert, Command.coded, hcopy, if_neg (by omega), hlc]
    simp only [hlits, hhist]
    rw [Replay.copy]
    by_cases himp : command.hasDistance = false
    · -- The symbol implies the last distance, so the code is zero.
      have h128 : command.cmdPrefix < 128 := by
        rw [Command.hasDistance, hcopy, decide_eq_false_iff_not] at himp
        omega
      have hsym : command.distanceCode = 0 := Command.distanceCode_of_implicit dist h128
      have hzero : code = 0 := by
        by_contra hne
        rcases hcode with ⟨-, h16⟩ | ⟨h16, -⟩
        · have : numDistanceShortCodes ≤ command.distanceCode ∧ _ :=
            Command.distance_new_long dist hdist h16 hc32 large
          rw [hsym] at this
          exact absurd this.1 (by decide)
        · have : command.distanceCode = code ∧ _ :=
            Command.distance_new_short dist h16 hdist.numDirect
          rw [hsym] at this
          exact hne this.1.symm
      subst hzero
      have hrec : c.recent 0 = distance := by
        rcases hcode with ⟨-, h16⟩ | ⟨-, he⟩
        · exact absurd h16 (by decide)
        · have := (hag 0).1
          have he' : (distance : ℤ) = cache 0 + 0 := he
          omega
      simp only [himp, Bool.not_false, if_true, hrec]
      exact hnew 0 Iff.rfl
    · have himp' : command.hasDistance = true := by simpa using himp
      simp only [himp', Bool.not_true, Bool.false_eq_true, if_false]
      rcases hcode with ⟨hlong, h16⟩ | ⟨h16, he⟩
      · obtain ⟨h1, h2⟩ : numDistanceShortCodes ≤ command.distanceCode ∧
            (dist.layout large).longDistance command.distanceCode command.distExtra = code - 15 :=
          Command.distance_new_long dist hdist h16 hc32 large
        have h16' : shortCodes ≤ command.distanceCode := h1
        rw [DistanceLayout.resolve_long h16' (by rw [h2]; simp only [u64Max]; omega), h2]
        simp only []
        rw [show code - 15 = distance by omega]
        refine hnew _ ⟨fun h0 => ?_, fun h0 => ?_⟩
        · rw [h0] at h1
          exact absurd h1 (by decide)
        · rw [h0] at h16
          exact absurd h16 (by decide)
      · have h1 : command.distanceCode = code :=
          (Command.distance_new_short dist h16 hdist.numDirect).1
        rw [DistanceLayout.resolve, h1,
          if_neg (by simp only [shortCodes]; simp only [numDistanceShortCodes] at h16; omega),
          short_of_spells hag h16 he hd1 hd31]
        exact hnew _ Iff.rfl
  refine ⟨?_, if distance ≤ min (start + insert) limit + env.prefixLen ∧ code ≠ 0
    then c.push distance else c, ?_, ?_⟩
  · rw [List.map_append, List.sum_append, ← Nat.add_assoc, hcov, List.map_singleton,
      List.sum_singleton, Command.size,
      hinsert, hcopy, Nat.add_assoc]
  · rw [replayFrom_append hrep, hcov, replayFrom, hstep]
    rfl
  · by_cases hrem : distance ≤ min (start + insert) limit + env.prefixLen ∧ code ≠ 0
    · rw [if_pos hrem, if_pos hrem]
      exact hag.push hd31
    · rw [if_neg hrem, if_neg hrem]
      exact hag

/-- What holds of commands, the distances remembered behind them and where they end,
and still does with the command of a true match added. A distance out of reach is
spelled out. -/
structure Kept (env : Env) (limit : ℕ) (context : ℕ → ℕ) (input : List UInt8)
    (dist : DistanceParams)
    (P : List Command → (Fin 4 → ℤ) → ℕ → Prop) : Prop where
  agrees : ∀ {commands cache position}, P commands cache position → ∃ c, Agrees c cache
  push : ∀ {commands cache start insert len lenCode distance code}, P commands cache start →
    TrueMatch env limit context input (start + insert) len lenCode distance →
    Spells cache distance code →
    (min (start + insert) limit + env.prefixLen < distance → numDistanceShortCodes ≤ code) →
    insert < 2 ^ 32 → len < 2 ^ 25 →
    P (commands ++ [Command.new dist insert len (lenCode - len : ℤ) code])
      (if distance ≤ min (start + insert) limit + env.prefixLen ∧
        code ≠ 0 then remember cache distance else cache)
      (start + insert + len)

theorem Reconstructs.kept {dist : DistanceParams} {large : Bool} (hb : env.Built)
    (hdist : dist.Legal) :
    Kept env limit context input dist
    (Reconstructs env limit (dist.layout large) context input origin initial) where
  agrees h := by
    obtain ⟨c, -, hag⟩ := h.replays
    exact ⟨c, hag⟩
  push h hm hcode _ hins hlen := h.push hb hdist hm hcode hins hlen

end
end Compressor
end Mbrotli
