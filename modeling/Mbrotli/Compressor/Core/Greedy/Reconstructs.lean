/-
# The greedy search's commands reconstruct the input

For a finder that reports only true matches (`Block.Truthful`), every step of the
search keeps `Scan.Good`: the commands and the pending literals tile the input up to
the cursor, the decoder's rules give the tiled part back, and the four remembered
distances are the decoder's. `createBackwardReferences_good` is a call; `Matcher.calls_good`
is a stream of calls, with meta-blocks closed in between.
-/
import Mbrotli.Compressor.Core.Greedy.BackwardReferences
import Mbrotli.Compressor.Core.Reference

namespace Mbrotli.Compressor

/-! ### The remembered distances -/

/-- The four distances that have short codes. -/
def remembered (cache : DistanceCache) : Fin 4 → ℤ := fun i => cache (i.castLE (by decide))

theorem remembered_prepare (cache : DistanceCache) (n : ℕ) :
    remembered (prepareDistanceCache cache n) = remembered cache := by
  rw [prepareDistanceCache]
  by_cases hn : n ≤ 4
  · rw [if_pos hn]
  rw [if_neg hn]
  funext i
  match i with
  | 0 => rfl
  | 1 => rfl
  | 2 => rfl
  | 3 => rfl

theorem remembered_initial : ![4, 11, 15, 16] = remembered initialDistanceCache := by
  funext i
  match i with
  | 0 => rfl
  | 1 => rfl
  | 2 => rfl
  | 3 => rfl

theorem remembered_push (cache : DistanceCache) (distance : ℤ) :
    remembered (pushDistance cache distance) = remember (remembered cache) distance := by
  funext i
  match i with
  | 0 => rfl
  | 1 => rfl
  | 2 => rfl
  | 3 => rfl

/-- The wrapped difference the short codes are picked by is small only for distances
around the remembered one. -/
theorem wrappingSub_lt_seven {distance c : ℕ} (hd : distance < 2 ^ 31) (hc : c < 2 ^ 31)
    (h : wrappingSub (distance + 3) c < 7) :
    c ≤ distance + 3 ∧ wrappingSub (distance + 3) c = distance + 3 - c := by
  by_cases hle : c ≤ distance + 3
  · exact ⟨hle, wrappingSub_of_le hle⟩
  · rw [wrappingSub_of_lt (not_le.mp hle)] at h
    omega

/-- Each near miss of a remembered distance has its own code. -/
theorem spells_nearMiss {cache : Fin 4 → ℤ} {distance c table : ℕ} (slot : Fin 4)
    (hc : (c : ℤ) = cache slot)
    (hlt : c < 2 ^ 31) (h31 : distance < 2 ^ 31) (hne : distance ≠ c)
    (ho : wrappingSub (distance + 3) c < 7)
    (htable : ∀ o < 7, o ≠ 3 → (table >>> (4 * o)) &&& 0xF < numDistanceShortCodes ∧
      DistanceLayout.shortIndex.getD ((table >>> (4 * o)) &&& 0xF) 0 = slot ∧
      DistanceLayout.shortOffset.getD ((table >>> (4 * o)) &&& 0xF) 0 = (o : ℤ) - 3) :
    Spells cache distance ((table >>> (4 * wrappingSub (distance + 3) c)) &&& 0xF) := by
  obtain ⟨hle, heq⟩ := wrappingSub_lt_seven h31 hlt ho
  obtain ⟨t1, t2, t3⟩ := htable _ ho (by omega)
  refine .inr ⟨t1, ?_⟩
  rw [t2, t3, ← hc]
  omega

/-- A remembered distance itself. -/
theorem spells_remembered {cache : Fin 4 → ℤ} {distance c code : ℕ}
    (hc : (c : ℤ) = cache (DistanceLayout.shortIndex.getD code 0))
    (hcode : code < numDistanceShortCodes) (hoff : DistanceLayout.shortOffset.getD code 0 = 0)
    (h : distance = c) :
    Spells cache distance code := by
  refine .inr ⟨hcode, ?_⟩
  rw [hoff, ← hc]
  omega

/-- **The code the encoder picks spells the distance** by the decoder's rules. -/
theorem computeDistanceCode_spells {c : Cache} {cache : DistanceCache}
    (h : Agrees c (remembered cache))
    {distance maxDistance : ℕ} (h1 : 1 ≤ distance) (h31 : distance < 2 ^ 31) :
    Spells (remembered cache) distance (computeDistanceCode distance maxDistance cache) := by
  have hlong : Spells (remembered cache) distance (distance + numDistanceShortCodes - 1) :=
    .inl ⟨rfl, by simp only [numDistanceShortCodes]; omega⟩
  have hcell : ∀ i : Fin 4, (asUsize (remembered cache i) : ℤ) = remembered cache i ∧
      asUsize (remembered cache i) < 2 ^ 31 := by
    intro i
    have h0 : (0 : ℤ) ≤ remembered cache i := by rw [← (h i).1]; exact Int.natCast_nonneg _
    have := asUsize_eq h0 (h i).2
    have := (h i).2
    exact ⟨by omega, by omega⟩
  rw [computeDistanceCode]
  by_cases hmax : distance ≤ maxDistance
  swap
  · rw [if_neg hmax]
    exact hlong
  rw [if_pos hmax]
  by_cases hd0 : distance = asUsize (cache 0)
  · rw [if_pos hd0]
    exact spells_remembered (hcell 0).1 (by decide) rfl hd0
  rw [if_neg hd0]
  by_cases hd1 : distance = asUsize (cache 1)
  · rw [if_pos hd1]
    exact spells_remembered (hcell 1).1 (by decide) rfl hd1
  rw [if_neg hd1]
  by_cases ho0 : wrappingSub (distance + 3) (asUsize (cache 0)) < 7
  · rw [if_pos ho0]
    exact spells_nearMiss 0 (hcell 0).1 (hcell 0).2 h31 hd0 ho0 (by decide)
  rw [if_neg ho0]
  by_cases ho1 : wrappingSub (distance + 3) (asUsize (cache 1)) < 7
  · rw [if_pos ho1]
    exact spells_nearMiss 1 (hcell 1).1 (hcell 1).2 h31 hd1 ho1 (by decide)
  rw [if_neg ho1]
  by_cases hd2 : distance = asUsize (cache 2)
  · rw [if_pos hd2]
    exact spells_remembered (hcell 2).1 (by decide) rfl hd2
  rw [if_neg hd2]
  by_cases hd3 : distance = asUsize (cache 3)
  · rw [if_pos hd3]
    exact spells_remembered (hcell 3).1 (by decide) rfl hd3
  · rw [if_neg hd3]
    exact hlong

/-- A distance out of reach is spelled out. -/
theorem le_computeDistanceCode {distance maxDistance : ℕ} {cache : DistanceCache}
    (h : maxDistance < distance) (h1 : 1 ≤ distance) :
    numDistanceShortCodes ≤ computeDistanceCode distance maxDistance cache := by
  rw [computeDistanceCode, if_neg (Nat.not_le.2 h)]
  omega

/-! ### One block -/

section

variable {R : Type} (env : Env) (limit : ℕ) (context : ℕ → ℕ) (input : List UInt8)

/-- A result is a true match at `position` within `maxLength` bytes. -/
structure Reported (position maxLength : ℕ) (r : SearchResult) : Prop where
  len_le : r.len ≤ maxLength
  coded : 0 ≤ r.len + r.lenCodeDelta
  trueMatch : TrueMatch env limit context input position r.len
    (r.len + r.lenCodeDelta).toNat r.distance

/-- Block `b` searches the input from `base` on, which the search calls `start`. -/
structure Block.Covers (b : Block) (start base : ℕ) : Prop where
  start_le : start ≤ b.posEnd
  fits : base + (b.posEnd - start) ≤ input.length
  narrow : b.posEnd - start < 2 ^ 25
  wide : b.posEnd < u64Max
  wrapped : start = base ∨ (limit ≤ start ∧ limit ≤ base)
  limit_eq : b.maxBackwardLimit = limit
  offset_eq : b.positionOffset = 0
  gap_eq : b.gap = env.prefixLen
  legal : b.params.dist.Legal

/-- Every search of the block leaves its candidate alone or reports a true match. -/
def Block.Truthful (b : Block) (enablePrefix : Bool) (run : MatchRun R) (start base : ℕ) : Prop :=
  ∀ r state position maxLength out, start ≤ position → position + maxLength ≤ b.posEnd →
    (b.search enablePrefix run r state position maxLength out).2.2 = out ∨
      Reported env limit context input (base + (position - start)) maxLength
        (b.search enablePrefix run r state position maxLength out).2.2

/-- What every step of a search keeps. -/
structure Scan.Good (P : List Command → (Fin 4 → ℤ) → ℕ → Prop) (b : Block) (start base pending : ℕ)
    (s : Scan R) : Prop where
  low : start ≤ s.cursor.position
  high : s.cursor.position ≤ b.posEnd
  inserted : s.cursor.insertLength ≤ base + (s.cursor.position - start)
  bounded : s.cursor.insertLength ≤ pending + (s.cursor.position - start)
  kept : P s.commands (remembered s.state.distCache)
    (base + (s.cursor.position - start) - s.cursor.insertLength)

variable {env limit context input}
variable {P : List Command → (Fin 4 → ℤ) → ℕ → Prop} {b : Block} {enablePrefix : Bool}
    {run : MatchRun R}
variable {start base pending : ℕ} {s : Scan R}

theorem Block.search_distCache (b : Block) (enablePrefix : Bool) (run : MatchRun R) (r : R)
    (state : ReferenceState) (position maxLength : ℕ) (out : SearchResult) :
    (b.search enablePrefix run r state position maxLength out).2.1.distCache = state.distCache :=
  rfl

/-- A search leaves the commands and the distances alone. -/
theorem Scan.Good.searched (h : s.Good P b start base pending) (r : R) {state : ReferenceState}
    (hc : state.distCache = s.state.distCache) :
    ({ s with run := r, state := state } : Scan R).Good P b start base pending :=
  ⟨h.low, h.high, h.inserted, h.bounded, by
    show P s.commands (remembered state.distCache) _
    rw [hc]
    exact h.kept⟩

/-- Passing over `n` bytes leaves them pending. -/
theorem Scan.Good.passed (h : s.Good P b start base pending) {n : ℕ} (cursor : Cursor)
    (hp : cursor.position = s.cursor.position + n)
    (hi : cursor.insertLength = s.cursor.insertLength + n)
    (hend : cursor.position ≤ b.posEnd) (r : R) :
    ({ s with run := r, cursor := cursor } : Scan R).Good P b start base pending := by
  have hlow := h.low
  have hins := h.inserted
  have hbound := h.bounded
  refine ⟨?_, hend, ?_, ?_, ?_⟩
  · show start ≤ cursor.position
    omega
  · show cursor.insertLength ≤ base + (cursor.position - start)
    omega
  · show cursor.insertLength ≤ pending + (cursor.position - start)
    omega
  · show P s.commands _ (base + (cursor.position - start) - cursor.insertLength)
    rw [show base + (cursor.position - start) - cursor.insertLength =
      base + (s.cursor.position - start) - s.cursor.insertLength by omega]
    exact h.kept

/-- Delaying a match keeps the scan good and the match true. -/
theorem Block.delay_good (ht : b.Truthful env limit context input enablePrefix run start base)
    (delays : ℕ) {s : Scan R}
    {sr : SearchResult} (maxLength : ℕ) (h : s.Good P b start base pending)
    (hr : Reported env limit context input (base + (s.cursor.position - start))
      (b.posEnd - s.cursor.position) sr)
    (hscore : minScore < sr.score) (hlen : s.cursor.position + 1 + maxLength ≤ b.posEnd) :
    let r := b.delay enablePrefix run delays s sr maxLength
    r.1.Good P b start base pending ∧ s.cursor.position ≤ r.1.cursor.position ∧
      Reported env limit context input (base + (r.1.cursor.position - start))
      (b.posEnd - r.1.cursor.position) r.2 := by
  induction delays generalizing s sr maxLength with
  | zero => exact ⟨h, le_refl _, hr⟩
  | succ delays ih =>
    unfold delay
    simp only []
    have hlow := h.low
    set out : SearchResult :=
      { len := if b.extensive then 0 else min (sr.len - 1) maxLength } with hout
    have hfound := ht s.run s.state (s.cursor.position + 1) maxLength out (by omega) (by omega)
    have hcache := search_distCache b enablePrefix run s.run s.state
      (s.cursor.position + 1) maxLength out
    rcases hsearch : b.search enablePrefix run s.run s.state (s.cursor.position + 1) maxLength out
      with ⟨r, state, sr2⟩
    rw [hsearch] at hfound hcache
    simp only [] at hfound hcache ⊢
    have h' := h.searched r hcache
    by_cases hbetter : sr.score + costDiffLazy ≤ sr2.score
    swap
    · rw [if_neg hbetter]
      exact ⟨h', le_refl _, hr⟩
    rw [if_pos hbetter]
    -- The candidate the search started from does not score.
    have hr2 : Reported env limit context input (base + (s.cursor.position + 1 - start))
        maxLength sr2 := by
      refine hfound.resolve_left fun he => ?_
      have hs2 : sr2.score = minScore := by rw [he]
      omega
    have h1 := hr2.len_le
    have h2 := hr2.trueMatch.pos
    have hgood := h'.passed (n := 1)
      { s.cursor with position := s.cursor.position + 1, insertLength := s.cursor.insertLength + 1 }
      rfl rfl (by show s.cursor.position + 1 ≤ b.posEnd; omega) r
    have hr2' : Reported env limit context input (base + (s.cursor.position + 1 - start))
        (b.posEnd - (s.cursor.position + 1)) sr2 := ⟨by omega, hr2.coded, hr2.trueMatch⟩
    by_cases hmore : s.cursor.position + 1 + run.hashTypeLength < b.posEnd
    · rw [if_pos hmore]
      obtain ⟨g1, g2, g3⟩ := ih (maxLength - 1) hgood hr2' (by omega)
        (by show s.cursor.position + 1 + 1 + (maxLength - 1) ≤ b.posEnd; omega)
      exact ⟨g1, (Nat.le_succ _).trans g2, g3⟩
    · rw [if_neg hmore]
      exact ⟨hgood, by show s.cursor.position ≤ s.cursor.position + 1; omega, hr2'⟩

/-- What a search calls the window's reach is the decoder's, though its positions are
wrapped. -/
theorem Block.Covers.available (hb : b.Covers env limit input start base) {position : ℕ}
    (hlow : start ≤ position) :
    min (position + b.positionOffset) b.maxBackwardLimit + b.gap =
      min (base + (position - start)) limit + env.prefixLen := by
  rw [hb.limit_eq, hb.offset_eq, hb.gap_eq]
  have := hb.wrapped
  omega

/-- **The command of a true match reconstructs it.** -/
theorem Block.emitCommand_good (independent : Bool) (run : MatchRun R)
    (hP : Kept env limit context input b.params.dist P) (hb : b.Covers env limit input start base)
    (hpend : pending + (b.posEnd - start) < 2 ^ 32)
    (h : s.Good P b start base pending) {sr : SearchResult}
    (hr : Reported env limit context input (base + (s.cursor.position - start))
      (b.posEnd - s.cursor.position) sr) :
    let s' := b.emitCommand independent run s sr
    s'.Good P b start base pending ∧ s.cursor.position < s'.cursor.position := by
  intro s'
  have hlow := h.low
  have hhigh := h.high
  have hins := h.inserted
  have hbound := h.bounded
  have hlen := hr.len_le
  have hpos := hr.trueMatch.pos
  have hnarrow := hb.narrow
  have hposition : s'.cursor.position = s.cursor.position + sr.len := rfl
  have havail := hb.available hlow
  obtain ⟨c, hag⟩ := hP.agrees h.kept
  set code := if independent then sr.distance + numDistanceShortCodes - 1
    else computeDistanceCode sr.distance
    (min (s.cursor.position + b.positionOffset) b.maxBackwardLimit + b.gap)
      s.state.distCache with hcode
  have hspells : Spells (remembered s.state.distCache) sr.distance code := by
    rw [hcode]
    cases independent with
    | true =>
        exact .inl ⟨rfl, by have := hr.trueMatch.distance_pos; simp only [if_true,
          numDistanceShortCodes]; omega⟩
    | false => exact computeDistanceCode_spells hag hr.trueMatch.distance_pos hr.trueMatch.narrow
  -- The copy starts behind the literals that are pending.
  set place := base + (s.cursor.position - start) - s.cursor.insertLength with hplace
  have hstart : place + s.cursor.insertLength = base + (s.cursor.position - start) := by omega
  have hcodeEq : ((sr.len + sr.lenCodeDelta).toNat - sr.len : ℤ) = sr.lenCodeDelta := by
    have := hr.coded
    omega
  have hlong : min (place + s.cursor.insertLength) limit + env.prefixLen < sr.distance →
      numDistanceShortCodes ≤ code := by
    intro hbeyond
    have hd1 := hr.trueMatch.distance_pos
    rw [hcode]
    cases independent with
    | true => simp only [if_true, numDistanceShortCodes]; omega
    | false => exact le_computeDistanceCode (by rw [havail, ← hstart]; exact hbeyond) hd1
  have hpush := hP.push h.kept (hstart ▸ hr.trueMatch) hspells hlong (by omega) (by omega)
  rw [hcodeEq] at hpush
  refine ⟨⟨?_, ?_, Nat.zero_le _, Nat.zero_le _, ?_⟩, by omega⟩
  · rw [hposition]; omega
  · rw [hposition]; omega
  have hcache : remembered s'.state.distCache =
      if sr.distance ≤ min (place + s.cursor.insertLength) limit + env.prefixLen ∧ code ≠ 0 then
        remember (remembered s.state.distCache) sr.distance else remembered s.state.distCache := by
    show remembered (if sr.distance ≤
      min (s.cursor.position + b.positionOffset) b.maxBackwardLimit + b.gap ∧ 0 < code then _
      else _) = _
    rw [havail, hstart]
    by_cases hrem : sr.distance ≤ min (base + (s.cursor.position - start)) limit + env.prefixLen ∧
      0 < code
    · rw [if_pos hrem, if_pos ⟨hrem.1, by omega⟩, remembered_prepare, remembered_push,
        asI32_eq hr.trueMatch.narrow]
    · rw [if_neg hrem, if_neg (by omega)]
  show P (s.commands ++ [_]) (remembered s'.state.distCache)
    (base + (s'.cursor.position - start) - 0)
  rw [hcache, show base + (s'.cursor.position - start) - 0 =
    place + s.cursor.insertLength + sr.len by
    rw [hposition]; omega]
  exact hpush

theorem Block.commitMatch_good (independent : Bool)
    (hP : Kept env limit context input b.params.dist P) (hb : b.Covers env limit input start base)
    (hpend : pending + (b.posEnd - start) < 2 ^ 32)
    (ht : b.Truthful env limit context input enablePrefix run start base)
    (h : s.Good P b start base pending) {sr : SearchResult}
    (hr : Reported env limit context input (base + (s.cursor.position - start))
      (b.posEnd - s.cursor.position) sr)
    (hscore : minScore < sr.score) :
    let s' := b.commitMatch enablePrefix independent run s sr (b.posEnd - s.cursor.position)
    s'.Good P b start base pending ∧ s.cursor.position < s'.cursor.position := by
  have h1 := hr.len_le
  have h2 := hr.trueMatch.pos
  obtain ⟨g1, g2, g3⟩ :=
    b.delay_good ht maxDelayedInARow (b.posEnd - s.cursor.position - 1) h hr hscore (by omega)
  obtain ⟨g4, g5⟩ := emitCommand_good independent run hP hb hpend g1 g3
  exact ⟨g4, g2.trans_lt g5⟩

/-- Striding stays in the block. -/
theorem Block.skip_good (run : MatchRun R) {stride posJump : ℕ}
    (hjump : ∀ p < posJump, p + stride ≤ b.posEnd) (steps : ℕ) {s : Scan R}
    (h : s.Good P b start base pending) :
    (b.skip run stride posJump steps s).Good P b start base pending ∧
      s.cursor.position ≤ (b.skip run stride posJump steps s).cursor.position := by
  induction steps generalizing s with
  | zero => exact ⟨h, le_refl _⟩
  | succ steps ih =>
    rw [skip]
    by_cases hlt : s.cursor.position < posJump
    · rw [if_pos hlt]
      have hgood := h.passed (n := stride)
        { s.cursor with insertLength := s.cursor.insertLength + stride, position :=
        s.cursor.position + stride } rfl rfl
        (hjump _ hlt) (run.store b.ringbuffer b.mask s.cursor.position s.run)
      obtain ⟨g1, g2⟩ := ih hgood
      exact ⟨g1, (Nat.le_add_right _ _).trans g2⟩
    · rw [if_neg hlt]
      exact ⟨h, le_refl _⟩

theorem Block.advance_good (run : MatchRun R) (h : s.Good P b start base pending)
    (hlt : s.cursor.position < b.posEnd) :
    (b.advance run s).Good P b start base pending ∧
      s.cursor.position < (b.advance run s).cursor.position := by
  have hgood := h.passed (n := 1)
    { s.cursor with insertLength := s.cursor.insertLength + 1, position := s.cursor.position + 1 }
    rfl rfl hlt s.run
  unfold advance
  simp only []
  by_cases hspree : s.cursor.position + 1 ≤ s.cursor.applyRandomHeuristics
  · rw [if_pos hspree]
    exact ⟨hgood, Nat.lt_succ_self _⟩
  rw [if_neg hspree]
  -- A stride never passes the margin it keeps from the end of the block.
  have hstride : ∀ stride floor : ℕ, 1 ≤ stride → stride ≤ floor →
      (b.skip run stride (min (s.cursor.position + 1 + 4 * stride)
        (b.posEnd - max (run.storeLookahead - 1) floor)) 4
        { s with cursor := { s.cursor with
          insertLength := s.cursor.insertLength + 1, position := s.cursor.position + 1 } }).Good P b
            start base pending ∧ s.cursor.position <
      (b.skip run stride (min (s.cursor.position + 1 + 4 * stride)
        (b.posEnd - max (run.storeLookahead - 1) floor)) 4
        { s with cursor := { s.cursor with
          insertLength := s.cursor.insertLength + 1, position := s.cursor.position + 1 }
              }).cursor.position := by
    intro stride floor h1 h2
    exact b.skip_good run (by omega) 4 hgood
  by_cases hfar : s.cursor.applyRandomHeuristics + 4 * b.heuristicsWindow < s.cursor.position + 1
  · simp only [if_pos hfar]
    exact hstride 4 4 (by omega) (by omega)
  · simp only [if_neg hfar]
    exact hstride 2 2 (by omega) (by omega)

/-- The search loop ends past its bound with the scan still good. -/
theorem Block.searchPositions_good (independent : Bool)
    (hP : Kept env limit context input b.params.dist P) (hb : b.Covers env limit input start base)
    (hpend : pending + (b.posEnd - start) < 2 ^ 32)
    (ht : b.Truthful env limit context input enablePrefix run start base) {loopEnd : ℕ}
    (hend : loopEnd ≤ b.posEnd)
    (fuel : ℕ) {s : Scan R} (h : s.Good P b start base pending)
    (hfuel : loopEnd - s.cursor.position < fuel) :
    ∃ s', b.searchPositions enablePrefix independent run loopEnd fuel s = some s' ∧
      s'.Good P b start base pending ∧ s.cursor.position ≤ s'.cursor.position ∧
      loopEnd ≤ s'.cursor.position := by
  induction fuel generalizing s with
  | zero => omega
  | succ fuel ih =>
    rw [searchPositions]
    by_cases hlt : s.cursor.position < loopEnd
    swap
    · rw [if_neg hlt]
      exact ⟨s, rfl, h, le_refl _, by omega⟩
    rw [if_pos hlt]
    simp only []
    have hlow := h.low
    have hfound :=
      ht s.run s.state s.cursor.position (b.posEnd - s.cursor.position) {} hlow (by omega)
    have hcache := search_distCache b enablePrefix run s.run s.state
      s.cursor.position (b.posEnd - s.cursor.position) {}
    rcases hsearch : b.search enablePrefix run s.run s.state s.cursor.position
      (b.posEnd - s.cursor.position) {} with
      ⟨r, state, sr⟩
    rw [hsearch] at hfound hcache
    simp only [] at hfound hcache ⊢
    have h' := h.searched r hcache
    -- Either way the position moves on.
    have hnext : ∀ s1 : Scan R, s1.Good P b start base pending →
        s.cursor.position < s1.cursor.position →
        ∃ s', b.searchPositions enablePrefix independent run loopEnd fuel s1 = some s' ∧
          s'.Good P b start base pending ∧ s.cursor.position ≤ s'.cursor.position ∧
          loopEnd ≤ s'.cursor.position := by
      intro s1 hs1 hmore
      obtain ⟨s', h1, h2, h3, h4⟩ := ih hs1 (by omega)
      exact ⟨s', h1, h2, by omega, h4⟩
    by_cases hmatch : sr.isMatch
    · rw [if_pos hmatch]
      have hscore : minScore < sr.score := by simpa [SearchResult.isMatch] using hmatch
      have hr : Reported env limit context input (base + (s.cursor.position - start))
          (b.posEnd - s.cursor.position) sr := by
        refine hfound.resolve_left fun he => ?_
        rw [he] at hscore
        exact absurd hscore (lt_irrefl _)
      obtain ⟨g1, g2⟩ := b.commitMatch_good independent hP hb hpend ht h' hr hscore
      exact hnext _ g1 g2
    · rw [if_neg hmatch]
      obtain ⟨g1, g2⟩ := b.advance_good run h' (by show s.cursor.position < b.posEnd; omega)
      exact hnext _ g1 g2

/-- Where a block bounds its stores is nothing to what it finds. -/
theorem visit_good (independent : Bool) (hP : Kept env limit context input b.params.dist P)
    (hb : b.Covers env limit input start base)
    (hpend : pending + (b.posEnd - start) < 2 ^ 32)
    (ht : b.Truthful env limit context input enablePrefix run start base) (yieldAt : ℕ)
    {fuel : ℕ} (h : s.Good P b start base pending) (hfuel : b.posEnd - s.cursor.position < fuel) :
    ∃ s', visit b enablePrefix independent run fuel yieldAt s = some s' ∧
      s'.Good P b start base pending ∧ s.cursor.position ≤ s'.cursor.position ∧
      min (b.posEnd - run.hashTypeLength) yieldAt ≤ s'.cursor.position := by
  unfold visit
  simp only []
  generalize (if run.storeLookahead ≤ b.posEnd - b.storeEnd then b.posEnd - run.storeLookahead + 1
    else b.storeEnd) = e
  have hb' : ({ b with storeEnd := e } : Block).Covers env limit input start base :=
    ⟨hb.start_le, hb.fits, hb.narrow, hb.wide, hb.wrapped, hb.limit_eq, hb.offset_eq,
      hb.gap_eq, hb.legal⟩
  have hP' : Kept env limit context input ({ b with storeEnd := e } : Block).params.dist P := hP
  have ht' : ({ b with storeEnd := e } : Block).Truthful env limit context input enablePrefix run
    start base := ht
  have h' : s.Good P { b with storeEnd := e } start base pending :=
    ⟨h.low, h.high, h.inserted, h.bounded, h.kept⟩
  have hend : min (b.posEnd - run.hashTypeLength) yieldAt ≤ b.posEnd := by omega
  obtain ⟨s', h1, h2, h3, h4⟩ :=
    Block.searchPositions_good independent hP' hb' hpend ht' hend fuel h' (by omega)
  exact ⟨s', h1, ⟨h2.low, h2.high, h2.inserted, h2.bounded, h2.kept⟩, h3, h4⟩

/-- The runs of a block end with the scan good and the searchable input used up. -/
theorem Matcher.runs_good {M : Type} (matcher : Matcher M R) (independent : Bool)
    (hP : Kept env limit context input b.params.dist P)
    (hb : b.Covers env limit input start base) (hpend : pending + (b.posEnd - start) < 2 ^ 32)
    (ht : b.Truthful env limit context input enablePrefix matcher.run start base) {loopFuel : ℕ}
    (hloop : b.posEnd - start < loopFuel) (fuel advance : ℕ) (m : M) (state : ReferenceState)
    (commands : List Command)
    (cursor : Cursor) (r : R) (h : Scan.Good P b start base pending ⟨r, state, commands, cursor⟩)
    (hfuel : b.posEnd - cursor.position < fuel) :
    ∃ m' state' commands' cursor', matcher.runs b enablePrefix independent loopFuel fuel advance m
    (state, commands, cursor) =
        some (m', state', commands', cursor') ∧
      Scan.Good P b start base pending ⟨r, state', commands', cursor'⟩ := by
  induction fuel generalizing advance m state commands cursor r with
  | zero => omega
  | succ fuel ih =>
    rw [runs]
    have hlow : start ≤ cursor.position := h.low
    have hlent : Scan.Good P b start base pending ⟨matcher.lend m, state, commands, cursor⟩ :=
      h.searched (matcher.lend m) rfl
    obtain ⟨s', h1, h2, h3, h4⟩ := visit_good independent hP hb hpend ht
      (min (cursor.position + max advance 1) u64Max) hlent
      (by show b.posEnd - cursor.position < loopFuel; omega)
    rw [h1]
    simp only []
    have hgood : Scan.Good P b start base pending ⟨r, s'.state, s'.commands, s'.cursor⟩ :=
      h2.searched r rfl
    by_cases hdone : b.posEnd ≤ s'.cursor.position + matcher.run.hashTypeLength
    · rw [if_pos hdone]
      exact ⟨_, _, _, _, rfl, hgood⟩
    · rw [if_neg hdone]
      -- The run was bounded by its checkpoint, which lies ahead.
      have hmore : cursor.position < s'.cursor.position := by
        have hwide := hb.wide
        have h3' : cursor.position ≤ s'.cursor.position := h3
        have h2' := h2.high
        omega
      exact ih _ _ _ _ _ r hgood (by omega)

end

/-! ### A call -/

section

variable {M R : Type} {matcher : Matcher M R} {env : Env} {limit : ℕ} {context : ℕ →
    ℕ} {input : List UInt8}

/-- A call keeps what the commands of true matches keep. -/
theorem createBackwardReferences_good (independent : Bool)
    {P : List Command → (Fin 4 → ℤ) → ℕ → Prop} {enablePrefix : Bool} {params : GreedyParams}
    {window : Window}
    {span : BlockSpan} {attached : Option SharedContext} {m : M} {state : ReferenceState}
    {commands : List Command}
    {base fuel : ℕ} (hP : Kept env limit context input params.dist P)
    (hb : (matcher.block m params window span attached enablePrefix).Covers env limit input
      span.position base)
    (ht : (matcher.block m params window span attached enablePrefix).Truthful env limit context
      input enablePrefix
      matcher.run span.position base)
    (hpend : state.lastInsertLen + span.bytes < 2 ^ 32) (hins : state.lastInsertLen ≤ base)
    (hfuel : span.bytes < fuel)
    (h : P commands (remembered state.distCache) (base - state.lastInsertLen)) :
    ∃ m' state' commands', matcher.createBackwardReferences enablePrefix independent fuel m params
    window span attached
        state commands = some (m', state', commands') ∧
      state'.lastInsertLen ≤ state.lastInsertLen + span.bytes ∧
      state'.lastInsertLen ≤ base + span.bytes ∧
      P commands' (remembered state'.distCache) (base + span.bytes - state'.lastInsertLen) := by
  have hend : (matcher.block m params window span attached enablePrefix).posEnd =
    span.position + span.bytes := rfl
  have hparams : (matcher.block m params window span attached enablePrefix).params = params := rfl
  unfold Matcher.createBackwardReferences
  simp only []
  generalize matcher.block m params window span attached enablePrefix = b at hb ht hend hparams ⊢
  subst hparams
  have hgood : Scan.Good P b span.position base state.lastInsertLen
      (⟨matcher.lend m,
        { state with distCache := prepareDistanceCache state.distCache b.lastDistances }, commands,
        ⟨span.position, state.lastInsertLen, span.position + b.heuristicsWindow⟩⟩ : Scan R) := by
    refine ⟨le_refl _, ?_, ?_, Nat.le_add_right _ _, ?_⟩
    · show span.position ≤ b.posEnd
      omega
    · show state.lastInsertLen ≤ base + (span.position - span.position)
      omega
    · show P commands (remembered (prepareDistanceCache state.distCache _))
        (base + (span.position - span.position) - state.lastInsertLen)
      rw [remembered_prepare, Nat.sub_self, Nat.add_zero]
      exact h
  obtain ⟨m', state', commands', cursor', h1, h2⟩ :=
    matcher.runs_good independent hP hb (by omega) ht
      (by omega : b.posEnd - span.position < fuel) fuel _ _ _ commands _ (matcher.lend m) hgood
      (by show b.posEnd - span.position < fuel; omega)
  rw [h1]
  have hlow : span.position ≤ cursor'.position := h2.low
  have hhigh : cursor'.position ≤ b.posEnd := h2.high
  have hi : cursor'.insertLength ≤ base + (cursor'.position - span.position) := h2.inserted
  have hbd : cursor'.insertLength ≤ state.lastInsertLen + (cursor'.position - span.position) :=
    h2.bounded
  refine ⟨m', _, commands', rfl, ?_, ?_, ?_⟩
  · show cursor'.insertLength + (b.posEnd - cursor'.position) ≤ _
    omega
  · show cursor'.insertLength + (b.posEnd - cursor'.position) ≤ _
    omega
  · show P commands' (remembered state'.distCache)
      (base + span.bytes - (cursor'.insertLength + (b.posEnd - cursor'.position)))
    rw [show base + span.bytes - (cursor'.insertLength + (b.posEnd - cursor'.position)) =
      base + (cursor'.position - span.position) - cursor'.insertLength by omega]
    exact h2.kept

/-! ### A stream -/

section

variable {M R : Type} (matcher : Matcher M R) (params : GreedyParams)
    (attached : Option SharedContext)
variable (env : Env) (limit : ℕ) (context : ℕ → ℕ) (input : List UInt8)

/-- The calls take the input in from `position` on, where `opened` bytes of it are in
the open meta-block, and in each of them the finder reports only true matches. The
bounds are the widths of a command's two lengths. -/
def Feeds : ℕ → ℕ → List (SearchCall M) → Prop
  | _, _, [] => True
  | position, opened, call :: calls =>
    position + call.bytes ≤ input.length ∧ call.bytes < 2 ^ 25 ∧ opened + call.bytes < 2 ^ 32 ∧
    (∀ m,
      (matcher.block m params call.window ⟨wrapPosition position, call.bytes⟩ attached
        attached.isSome).Truthful
      env limit context input attached.isSome matcher.run (wrapPosition position) position) ∧
    Feeds (position + call.bytes) (if call.closes then 0 else opened + call.bytes) calls

/-- What holds between calls: commands and pending literals tile the input so far. -/
structure Searched.Good (large : Bool) (opened : ℕ) (s : Searched M) : Prop where
  inserted : s.state.lastInsertLen ≤ s.lastProcessedPos
  pending : s.state.lastInsertLen ≤ opened
  reconstructs : Reconstructs env limit (params.dist.layout large) context input 0 {} s.commands
    (remembered s.state.distCache) (s.lastProcessedPos - s.state.lastInsertLen)

variable {matcher params attached env limit context input}

theorem Searched.close_good {large : Bool} {opened : ℕ} {s : Searched M}
    (h : s.Good params env limit context input large opened) (hopen : opened < 2 ^ 32) :
    s.close.Good params env limit context input large 0 := by
  refine ⟨Nat.zero_le _, le_refl _, ?_⟩
  have hins := h.inserted
  have hpend := h.pending
  show Reconstructs env limit _ context input 0 {} (if 0 < s.state.lastInsertLen then _ else _)
    (remembered s.state.distCache) (s.lastProcessedPos - 0)
  by_cases hpos : 0 < s.state.lastInsertLen
  · rw [if_pos hpos, show s.lastProcessedPos - 0 =
      s.lastProcessedPos - s.state.lastInsertLen + s.state.lastInsertLen by omega]
    exact h.reconstructs.insertOnly (by omega)
  · rw [if_neg hpos, show s.lastProcessedPos - 0 =
      s.lastProcessedPos - s.state.lastInsertLen by omega]
    exact h.reconstructs

/-- **One call keeps the stream good.** -/
theorem Matcher.call_good (independent : Bool) {large : Bool} {fuel opened : ℕ} {s : Searched M}
    {call : SearchCall M} (he : env.Built)
    (hoff : params.streamOffset = 0) (hlimit : params.maxBackwardLimit = limit)
    (hreach : limit ≤ 2 ^ 30)
    (hlegal : params.dist.Legal) (hgap : (attached.map SharedContext.totalSize).getD 0 =
      env.prefixLen)
    (hfeeds : Feeds matcher params attached env limit context input s.lastProcessedPos
      opened [call])
    (hfuel : call.bytes < fuel) (h : s.Good params env limit context input large opened) :
    ∃ s', matcher.call independent fuel params attached s call = some s' ∧
      s'.lastProcessedPos = s.lastProcessedPos + call.bytes ∧
      s'.Good params env limit context input large
      (if call.closes then 0 else opened + call.bytes) := by
  obtain ⟨hfits, hnarrow, hopen, htruth, -⟩ := hfeeds
  have hlt := wrapPosition_lt s.lastProcessedPos
  have hins := h.inserted
  have hpend := h.pending
  have hb :
    (matcher.block (call.prepare s.matcher) params call.window ⟨wrapPosition s.lastProcessedPos,
      call.bytes⟩
      attached attached.isSome).Covers env limit input (wrapPosition s.lastProcessedPos)
          s.lastProcessedPos := by
    have hbytes : wrapPosition s.lastProcessedPos + call.bytes - wrapPosition s.lastProcessedPos =
        call.bytes :=
      Nat.add_sub_cancel_left _ _
    refine ⟨Nat.le_add_right _ _, ?_, ?_, ?_, wrapPosition_reach hreach _, hlimit, hoff, ?_, hlegal⟩
    · show s.lastProcessedPos + (wrapPosition s.lastProcessedPos +
        call.bytes - wrapPosition s.lastProcessedPos) ≤ _
      rwa [hbytes]
    · show wrapPosition s.lastProcessedPos + call.bytes - wrapPosition s.lastProcessedPos < 2 ^ 25
      rwa [hbytes]
    · show wrapPosition s.lastProcessedPos + call.bytes < u64Max
      simp only [u64Max]
      omega
    · show (if attached.isSome then (attached.map SharedContext.totalSize).getD 0 else 0) =
        env.prefixLen
      cases attached with
      | none => exact hgap
      | some c => exact hgap
  obtain ⟨m', state', commands', h1, h2, h3, h4⟩ := createBackwardReferences_good independent
    (Reconstructs.kept he hlegal) hb (htruth _)
    (by show s.state.lastInsertLen + call.bytes < 2 ^ 32; omega) hins hfuel h.reconstructs
  have hgood : Searched.Good params env limit context input large (opened + call.bytes)
      (⟨m', state', commands', s.lastProcessedPos + call.bytes⟩ : Searched M) := by
    refine ⟨h3, ?_, h4⟩
    show state'.lastInsertLen ≤ opened + call.bytes
    exact h2.trans (Nat.add_le_add_right hpend _)
  unfold Matcher.call Matcher.greedy
  rw [h1]
  cases hclose : call.closes with
  | true =>
    simp only [if_true]
    exact ⟨_, rfl, rfl, Searched.close_good hgood hopen⟩
  | false =>
    simp only [Bool.false_eq_true, if_false]
    exact ⟨_, rfl, rfl, hgood⟩

/-- Every run of calls keeps the stream good. -/
theorem Matcher.calls_good (independent : Bool) {large : Bool} {fuel opened : ℕ} {s : Searched M}
    {calls : List (SearchCall M)} (he : env.Built)
    (hoff : params.streamOffset = 0) (hlimit : params.maxBackwardLimit = limit)
    (hreach : limit ≤ 2 ^ 30)
    (hlegal : params.dist.Legal) (hgap : (attached.map SharedContext.totalSize).getD 0 =
      env.prefixLen)
    (hfeeds : Feeds matcher params attached env limit context input s.lastProcessedPos opened calls)
    (hfuel : ∀ call ∈ calls, call.bytes < fuel)
    (h : s.Good params env limit context input large opened) :
    ∃ s' opened', calls.foldlM (matcher.call independent fuel params attached) s = some s' ∧
      s'.lastProcessedPos = s.lastProcessedPos + (calls.map SearchCall.bytes).sum ∧
      s'.Good params env limit context input large opened' := by
  induction calls generalizing s opened with
  | nil => exact ⟨s, opened, rfl, rfl, h⟩
  | cons call calls ih =>
    obtain ⟨h1, h2, h3, h4, h5⟩ := hfeeds
    obtain ⟨s1, hs1, hp1, hg1⟩ := matcher.call_good independent he hoff hlimit hreach hlegal hgap
      ⟨h1, h2, h3, h4, trivial⟩ (hfuel call List.mem_cons_self) h
    rw [← hp1] at h5
    obtain ⟨s2, opened2, hs2, hp2, hg2⟩ :=
      ih h5 (fun c hc => hfuel c (List.mem_cons_of_mem _ hc)) hg1
    refine ⟨s2, opened2, ?_, ?_, hg2⟩
    · rw [List.foldlM_cons, hs1]
      exact hs2
    · rw [hp2, hp1, List.map_cons, List.sum_cons, Nat.add_assoc]

end

/-- **The greedy search's commands reconstruct the input.** After any calls of a
stream at offset zero, with any finder that reports only true matches: the commands
and the pending literals tile the input so far, the decoder's rules give the tiled part
back, and its distance cache is the search's. -/
theorem greedy_reconstructs {M R : Type} (matcher : Matcher M R) (independent large : Bool)
    (m : M) (fuel : ℕ)
    (config : CompressParams) (quality : GreedyQuality) (params : GreedyParams)
    (attached : Option SharedContext) (env : Env)
    (context : ℕ → ℕ) (input : List UInt8) (calls : List (SearchCall M))
    (hparams : GreedyParams.new config quality = .ok params) (hoff : config.streamOffset = 0)
    (hwindow : config.lgwin.bits ≤ 30) (hbuilt : env.Built)
    (hattached : (attached.map SharedContext.totalSize).getD 0 = env.prefixLen)
    (hfeeds : Feeds matcher params attached env (2 ^ config.lgwin.bits - 16) context
      input 0 0 calls)
    (hfuel : ∀ call ∈ calls, call.bytes < fuel) :
    ∃ s, calls.foldlM (matcher.call independent fuel params attached) { matcher := m } = some s ∧
      s.lastProcessedPos = (calls.map SearchCall.bytes).sum ∧
      (s.commands.map Command.size).sum + s.state.lastInsertLen = s.lastProcessedPos ∧
      ∃ cache, replayFrom env (2 ^ config.lgwin.bits - 16) (params.dist.layout large) context input
      0 {} s.commands =
          .ok ⟨input.take (s.lastProcessedPos - s.state.lastInsertLen), cache⟩ ∧
        ∀ i, (cache.recent i : ℤ) = remembered s.state.distCache i := by
  obtain ⟨hs, -, -, hlegal⟩ := GreedyParams.new_spec hparams
  have hlimit := GreedyParams.new_maxBackwardLimit hparams hwindow
  have hreach : 2 ^ config.lgwin.bits - 16 ≤ 2 ^ 30 :=
    (Nat.sub_le _ _).trans (Nat.pow_le_pow_right (by decide) hwindow)
  have hstart : Searched.Good params env (2 ^ config.lgwin.bits - 16) context input large 0
      ({ matcher := m } : Searched M) :=
    ⟨le_refl _, le_refl _, Reconstructs.start (remembered_initial ▸ agrees_initial)⟩
  obtain ⟨s, opened, h1, h2, h3⟩ :=
    matcher.calls_good independent hbuilt (hs.trans hoff) hlimit hreach
      hlegal hattached hfeeds hfuel hstart
  obtain ⟨cache, h4, h5⟩ := h3.reconstructs.replays
  refine ⟨s, h1, ?_, ?_, cache, h4, fun i => (h5 i).1⟩
  · rw [h2]
    exact Nat.zero_add _
  · rw [← Nat.zero_add (List.sum _), h3.reconstructs.covers]
    exact Nat.sub_add_cancel h3.inserted

/-- A finder that only sees runs of one byte. -/
def runFinder : Matcher Unit Unit where
  run := {
    hashTypeLength := 4
    storeLookahead := 4
    store := fun _ _ _ r => r
    storeRange := fun _ _ _ _ r => r
    findLongestMatch := fun r dictionary q out =>
      (r, dictionary, if 1 ≤ q.curIx ∧ 4 ≤ q.maxLength ∧
          ∀ i < q.maxLength, q.data[q.curIx + i]? = q.data[q.curIx + i - 1]? then
        { len := q.maxLength, distance := 1, score := minScore + 1 } else out) }
  lend := id
  settle := fun m _ => m
  lastDistancesToCheck := fun _ => 4
  checkpoint := fun _ _ m => (3, m)

/-- The search over a run of ten bytes, taken in as six and four. -/
theorem greedy_reconstructs_run : ∃ s : Searched Unit, s.lastProcessedPos = 10 ∧
    s.commands.length = 2 ∧
    (s.commands.map Command.size).sum + s.state.lastInsertLen = 10 ∧
    ∃ cache, replayFrom ⟨⟨fun _ => 0, 0⟩, {}, none⟩ (2 ^ 16 - 16)
    { postfix_ := 0, direct := 0, large := false } (fun _ => 0)
        (List.replicate 10 97) 0 {} s.commands =
        .ok ⟨(List.replicate 10 97).take (s.lastProcessedPos - s.state.lastInsertLen), cache⟩ ∧
      ∀ i, (cache.recent i : ℤ) = remembered s.state.distCache i := by
  set config : CompressParams :=
    { quality := 5, lgwin := ⟨.standard, 16, by decide, by decide⟩ } with hconfig
  set params : GreedyParams := ⟨0, .q5, ⟨16, false⟩, 16, 16, .forWindow false 0 0⟩ with hp
  have hparams : GreedyParams.new config .q5 = .ok params := rfl
  set calls : List (SearchCall Unit) := [⟨id, ⟨List.replicate 10 97, 2 ^ 17 - 1⟩, 6, false⟩,
    ⟨id, ⟨List.replicate 10 97, 2 ^ 17 - 1⟩, 4, true⟩] with hcalls
  have htruth : ∀ (m : Unit) (position bytes : ℕ), position + bytes ≤ 10 →
      (runFinder.block m params ⟨List.replicate 10 97, 2 ^ 17 - 1⟩ ⟨wrapPosition position,
        bytes⟩ none false).Truthful
        ⟨⟨fun _ => 0, 0⟩, {}, none⟩ (2 ^ 16 - 16) (fun _ => 0) (List.replicate 10 97)
          false runFinder.run
        (wrapPosition position) position := by
    intro m position bytes hb r state p maxLength out hlow hhigh
    rw [wrapPosition_eq (by omega)] at hlow hhigh ⊢
    have hhigh' : p + maxLength ≤ position + bytes := hhigh
    show (if 1 ≤ p ∧ 4 ≤ maxLength ∧ ∀ i < maxLength,
        (List.replicate 10 (97 : UInt8))[p + i]? = (List.replicate 10 97)[p + i - 1]? then
      ({ len := maxLength, distance := 1, score := minScore + 1 } : SearchResult) else out) = out ∨
        Reported _ _ _ _ _ _
        (if 1 ≤ p ∧ 4 ≤ maxLength ∧ ∀ i < maxLength,
          (List.replicate 10 (97 : UInt8))[p + i]? = (List.replicate 10 97)[p + i - 1]? then
        ({ len := maxLength, distance := 1, score := minScore + 1 } : SearchResult) else out)
    by_cases hrun : 1 ≤ p ∧ 4 ≤ maxLength ∧ ∀ i < maxLength,
        (List.replicate 10 (97 : UInt8))[p + i]? = (List.replicate 10 97)[p + i - 1]?
    · rw [if_pos hrun]
      refine .inr ⟨le_refl _, ?_, ?_⟩
      · show (0 : ℤ) ≤ maxLength + 0
        omega
      · rw [show position + (p - position) = p by omega]
        refine ⟨by show 0 < maxLength; omega, ?_, by show 1 < 2 ^ 31; decide,
          .inl ⟨le_refl _, ?_, ?_, hrun.2.2⟩⟩
        · rw [List.length_replicate]
          show p + maxLength ≤ 10
          omega
        · show 1 ≤ min p (2 ^ 16 - 16)
          omega
        · show ((maxLength : ℤ) + 0).toNat = maxLength
          omega
    · rw [if_neg hrun]
      exact .inl rfl
  have hrun : (calls.foldlM (runFinder.call false 11 params none) { matcher := () }).map
      (·.commands.length) = some 2 := by
    decide +kernel
  obtain ⟨s, h1, h2, h3, h4⟩ :=
    greedy_reconstructs runFinder false false () 11 config .q5 params none
      ⟨⟨fun _ => 0, 0⟩, {}, none⟩ (fun _ => 0) (List.replicate 10 97) calls hparams rfl (by decide)
      (.inl rfl) rfl
    ⟨by decide, by decide, by decide,
      fun m => htruth m 0 6 (by decide), by decide, by decide, by decide,
      fun m => htruth m 6 4 (by decide), trivial⟩ (by decide)
  rw [h1] at hrun
  exact ⟨s, h2, by simpa using hrun, h3.trans h2, h4⟩

end
end Mbrotli.Compressor
