/-
# The shortest path's commands reconstruct the input

`Forward` survives the pricing of a position (`updateNodes_good`), so the nodes a pass
ends with trace back to a path (`Route`), and walking it forward adds its commands to
what is reconstructed already. `hq_reconstructs` puts the passes of both qualities
together.
-/
import Mbrotli.Compressor.Core.Hq.Path

namespace Mbrotli.Compressor

/-! ### One position -/

section

variable (env : Env) (limit : ℕ) (context : ℕ → ℕ) (input : List UInt8) (base : ℕ)

/-- The context is that of a block of the input from `base` on, with what the decoder
has attached. An attachment is held in memory, so its length is below `2 ^ 62`. -/
structure UpdateContext.Covers (ctx : UpdateContext) (enablePrefix : Bool) : Prop where
  narrow : ctx.numBytes < 2 ^ 25
  fits : base + ctx.numBytes ≤ input.length
  low : ctx.blockStart ≤ base
  wrapped : ctx.blockStart = base ∨ (limit ≤ ctx.blockStart ∧ limit ≤ base)
  reach : limit ≤ 2 ^ 30
  holds : Window.Holds ⟨ctx.ringbuffer, ctx.ringbufferMask⟩ limit input ctx.blockStart
    base ctx.numBytes
  limit_eq : ctx.maxBackwardLimit = limit
  params_limit : ctx.params.maxBackwardLimit = limit
  offset_eq : ctx.params.streamOffset = 0
  gap_eq : ctx.gap = env.prefixLen
  disabled : enablePrefix = false → env.prefixLen = 0
  attached_eq : ∀ c, ctx.attached = some c → c.segments.flatten = env.prefixBytes
  prefix_lt : env.prefixLen < 2 ^ 62
  starting : ∀ i, 0 ≤ ctx.startingDistCache i ∧ ctx.startingDistCache i < 2 ^ 31
  legal : ctx.params.dist.Legal

/-- The match is a true one at position `i` of the block. -/
def BackwardMatch.True (m : BackwardMatch) (numBytes i : ℕ) : Prop :=
  m.length ≤ numBytes - i ∧ TrueMatch env limit context input (base + i) m.length
    m.lengthCode m.distance

variable {env limit context input base}
variable {ctx : UpdateContext} {enablePrefix : Bool} {model : CostModel} {queue : StartPosQueue}
    {nodes : Nodes}
variable {pos s : ℕ} {cache : Fin 4 → ℤ} {r : Reach}

/-- The reach of a position of the block. -/
theorem UpdateContext.Covers.dictionaryStart
    (hc : ctx.Covers env limit input base enablePrefix) (pos : ℕ) :
    min (ctx.params.logicalPosition (ctx.blockStart + pos)) ctx.maxBackwardLimit =
    min (base + pos) limit := by
  rw [HqParams.logicalPosition, hc.offset_eq, hc.limit_eq]
  have := hc.wrapped
  omega

/-- A command recorded at `pos` arrives there as it was recorded. -/
theorem arrives_record {len lenCode dist shortCode : ℕ} (cost : Cost) (hb : env.Built)
    (hs : s ≤ pos)
    (hn : pos < 2 ^ 25) (hlen : len < 2 ^ 25) (hcode : shortCode ≤ 16)
    (hm : TrueMatch env limit context input (base + pos) len lenCode dist)
    (hspells : Spells cache dist (if shortCode = 0 then dist + numDistanceShortCodes - 1
      else shortCode - 1)) :
    Arrives env limit context input base (ZopfliNode.record pos s len lenCode dist shortCode cost) s
    (pos + len) cache := by
  have hins : pos - s < 2 ^ 27 := by omega
  have hd : dist < 2 ^ 32 := hm.narrow.trans (by decide)
  set node := ZopfliNode.record pos s len lenCode dist shortCode cost with hnode
  have h1 : node.copyLength = len := ZopfliNode.copyLength_record cost hlen
  have h2 : node.lengthCode = lenCode := ZopfliNode.lengthCode_record cost hlen (hm.lenCode_eq hb)
  have h3 : node.copyDistance = dist := ZopfliNode.copyDistance_record cost hd
  have h4 : node.distanceCode = if shortCode = 0 then dist + numDistanceShortCodes - 1
      else shortCode - 1 :=
    ZopfliNode.distanceCode_record cost hins hd hcode
  have h5 : node.insertLength = pos - s := ZopfliNode.insertLength_record cost hins
  have hplace : s + (pos - s) = pos := by omega
  refine ⟨?_, ?_, ?_⟩
  · rw [h1, h5, hplace]
  · rw [h1, h2, h3, h5, hplace]
    exact hm
  · rw [h3, h4]
    exact hspells

/-- What pricing keeps while it works on one position: the pass is sound, and the start
it works from still ends a path. -/
def Pricing (env : Env) (limit : ℕ) (context : ℕ → ℕ) (input : List UInt8) (base : ℕ)
    (starting : Fin 4 → ℤ)
    (pos : ℕ) (queue : StartPosQueue) (s : ℕ) (cache : Fin 4 → ℤ) (nodes : Nodes) : Prop :=
  Forward env limit context input base starting (pos + 1) queue nodes ∧
    Path env limit context input base nodes starting s cache

theorem recordLengths_good {starting : Fin 4 → ℤ} {dist shortCode : ℕ} {lenCode : ℕ → ℕ}
    {cost : ℕ → Cost} (hs : s ≤ pos)
    (n l : ℕ) (hl : 0 < l) (r : Reach)
    (harr : ∀ l', l ≤ l' → l' < l + n → ∀ c, Arrives env limit context input base
      (ZopfliNode.record pos s l' (lenCode l') dist shortCode c) s (pos + l') cache)
    (h : Pricing env limit context input base starting pos queue s cache r.nodes) :
    Pricing env limit context input base starting pos queue s cache
      (recordLengths model pos s dist shortCode lenCode cost n l r).nodes := by
  induction n generalizing l r with
  | zero => exact h
  | succ n ih =>
    rw [recordLengths]
    refine ih (l + 1) (Nat.succ_pos l) _ (fun l' h1 h2 => harr l' (by omega) (by omega)) ?_
    by_cases hless : model.lt (cost l) (r.nodes (pos + l)).cost
    · rw [if_pos hless]
      exact ⟨h.1.record (Nat.lt_succ_of_le hs) (by omega) h.2 (harr l (le_refl l) (by omega) _),
        h.2.update (by omega) _⟩
    · rw [if_neg hless]
      exact h

theorem recordRange_good {starting : Fin 4 → ℤ} {dist shortCode : ℕ} {lenCode : ℕ → ℕ}
    {cost : ℕ → Cost} (hs : s ≤ pos)
    {first last : ℕ} (hl : 0 < first) (r : Reach)
    (harr : ∀ l, first ≤ l → l ≤ last → pos + l ≤ ctx.numBytes →
      ∀ c, Arrives env limit context input base
      (ZopfliNode.record pos s l (lenCode l) dist shortCode c) s (pos + l) cache)
    (h : Pricing env limit context input base starting pos queue s cache r.nodes) :
    Pricing env limit context input base starting pos queue s cache
      (recordRange ctx model pos s dist shortCode lenCode cost first last r).nodes := by
  rw [recordRange]
  by_cases hfit : pos + last ≤ ctx.numBytes
  · rw [if_pos hfit]
    exact recordLengths_good hs _ _ hl r (fun l h1 h2 => harr l h1 (by omega) (by omega)) h
  · rw [if_neg hfit]
    exact h

/-! ### Remembered distances -/

/-- A probe that is not out of range reads its slot and adds its offset. -/
theorem probeDistance_eq {probe : Fin 4 × ℤ} (hb : ∀ i, 0 ≤ cache i ∧ cache i < 2 ^ 31)
    (hp : -3 ≤ probe.2 ∧ probe.2 ≤ 3) (hr : probeDistance probe cache < 2 ^ 63) :
    (probeDistance probe cache : ℤ) = cache probe.1 + probe.2 ∧
    probeDistance probe cache < 2 ^ 31 := by
  obtain ⟨h0, h1⟩ := hb probe.1
  rw [probeDistance, asUsize] at hr ⊢
  have hbmod := Int.bmod_def (cache probe.1 + probe.2) (2 ^ 32)
  norm_num at *
  omega

/-- The probes are the format's short codes. -/
theorem cacheProbes_spec : ∀ code < 16, ∃ probe, cacheProbes[code]? = some probe ∧
    -3 ≤ probe.2 ∧ probe.2 ≤ 3 ∧
    probe.1 = DistanceLayout.shortIndex.getD code 0 ∧
    probe.2 = DistanceLayout.shortOffset.getD code 0 := by
  decide

/-- A copy measured in the window is a true match. -/
theorem windowCopy_true (hc : ctx.Covers env limit input base enablePrefix) {backward len : ℕ}
    (hin : wrappingSub backward 1 < min (ctx.blockStart + pos) ctx.maxBackwardLimit)
    (hlen : len ≤ findMatchLength ctx.ringbuffer
      ((ctx.blockStart + pos - backward) &&& ctx.ringbufferMask)
      ((ctx.blockStart + pos) &&& ctx.ringbufferMask) (ctx.numBytes - pos)) (h0 : 0 < len)
      (hpos : pos ≤ ctx.numBytes) :
    TrueMatch env limit context input (base + pos) len len backward := by
  have hfits := hc.fits
  have hreach := hc.reach
  have hlimit := hc.limit_eq
  have hwrap := hc.wrapped
  have hlow := hc.low
  obtain ⟨hle, heq⟩ :=
    findMatchLength_spec ctx.ringbuffer ((ctx.blockStart + pos - backward) &&& ctx.ringbufferMask)
      ((ctx.blockStart + pos) &&& ctx.ringbufferMask) (ctx.numBytes - pos)
  have hrange : 1 ≤ backward ∧ backward ≤ min (ctx.blockStart + pos) limit := by
    rw [hlimit] at hin
    by_cases hzero : 1 ≤ backward
    · rw [wrappingSub_of_le hzero] at hin
      omega
    · rw [wrappingSub_of_lt (not_le.mp hzero)] at hin
      omega
  refine ⟨h0, by omega, by omega, .inl ⟨hrange.1, by omega, rfl, fun i hi => ?_⟩⟩
  have hsame := heq i (by omega)
  have hhere := hc.holds (ctx.blockStart + pos) i (by omega) (by omega) (by omega)
  have hthere := hc.holds (ctx.blockStart + pos - backward) i (by omega) (by omega) (by omega)
  simp only [] at hhere hthere
  rw [show base + (ctx.blockStart + pos) + i - ctx.blockStart = base + pos + i by omega] at hhere
  rw [show base + (ctx.blockStart + pos - backward) + i - ctx.blockStart =
    base + pos + i - backward by omega] at hthere
  rw [← hhere, ← hthere]
  exact hsame.symm

/-- A located address leads to the prefix's bytes from there on. -/
theorem locate_spec {segments : List (List UInt8)} {logical offset : ℕ} {segment : List UInt8}
    (h : locate segments logical = some (segment, offset)) :
    segment.drop offset <+: segments.flatten.drop logical ∧ logical < segments.flatten.length := by
  induction segments generalizing logical with
  | nil => cases h
  | cons head rest ih =>
    rw [locate] at h
    rw [List.flatten_cons, List.length_append, List.drop_append]
    by_cases hlt : logical < head.length
    · rw [if_pos hlt] at h
      cases h
      exact ⟨List.prefix_append _ _, by omega⟩
    · rw [if_neg hlt] at h
      obtain ⟨h1, h2⟩ := ih h
      have hnil : head.drop logical = [] := List.drop_eq_nil_of_le (by omega)
      rw [hnil, List.nil_append]
      exact ⟨h1, by omega⟩

/-- A copy measured in the attached prefix is a true match. -/
theorem prefixCopy_true (hc : ctx.Covers env limit input base enablePrefix)
    {backward bestLen found len : ℕ}
    {continuation : UInt8}
    (h : prefixCopyLength ctx backward (min (base + pos) limit) bestLen continuation
      ((ctx.blockStart + pos) &&& ctx.ringbufferMask) (ctx.numBytes - pos) = some found)
    (hlen : len ≤ found) (h0 : 0 < len) (hback : backward < 2 ^ 31) (hpos : pos ≤ ctx.numBytes) :
    TrueMatch env limit context input (base + pos) len len backward := by
  have hfits := hc.fits
  have hlow := hc.low
  have hgap := hc.gap_eq
  unfold prefixCopyLength at h
  by_cases hrange : min (base + pos) limit + ctx.gap < backward ∨ backward ≤ min (base + pos) limit
  · rw [if_pos hrange] at h
    cases h
  rw [if_neg hrange] at h
  cases hatt : ctx.attached with
  | none => rw [hatt] at h; cases h
  | some c =>
    rw [hatt] at h
    simp only [] at h
    have hbytes := hc.attached_eq c hatt
    cases hloc : locate c.segments (min (base + pos) limit + ctx.gap - backward) with
    | none => rw [hloc] at h; cases h
    | some place =>
      obtain ⟨segment, offset⟩ := place
      rw [hloc] at h
      simp only [] at h
      obtain ⟨hpre, hlt⟩ := locate_spec hloc
      by_cases hfilter : min (segment.drop offset).length (ctx.numBytes - pos) ≤ bestLen ∨
          (segment.drop offset)[bestLen]? ≠ some continuation
      · rw [if_pos hfilter] at h
        cases h
      rw [if_neg hfilter] at h
      cases h
      obtain ⟨h1, h2, h3⟩ := commonPrefixLen_spec (segment.drop offset)
        (ctx.ringbuffer.drop ((ctx.blockStart + pos) &&& ctx.ringbufferMask))
        (min (segment.drop offset).length (ctx.numBytes - pos))
      rw [hbytes] at hpre hlt
      have hplace : env.prefixLen - (backward - min (base + pos) limit) =
          min (base + pos) limit + ctx.gap - backward := by
        omega
      have hrun := hpre.length_le
      have hrest : (env.prefixBytes.drop (min (base + pos) limit + ctx.gap - backward)).length =
          env.prefixLen - (min (base + pos) limit + ctx.gap - backward) := by
        rw [List.length_drop, env.prefixBytes_length]
      rw [hrest] at hrun
      rw [env.prefixBytes_length] at hlt
      refine TrueMatch.attached h0 (by omega) hback (by omega) (by omega) (by omega) fun i hi => ?_
      have hhere := hc.holds (ctx.blockStart + pos) i (by omega) (by omega) (by omega)
      have hsame := (h3 i (by omega)).trans (List.getElem?_drop.trans hhere)
      rw [show base + (ctx.blockStart + pos) + i - ctx.blockStart = base + pos + i by omega]
        at hsame
      rw [← hsame, hplace, ← List.getElem?_drop]
      obtain ⟨rest, hrest⟩ := hpre
      rw [← hrest, List.getElem?_append_left (by omega)]

/-- A probe's code spells the distance it reads. -/
theorem spells_probe {probe : Fin 4 × ℤ} {code : ℕ} (hprobe : cacheProbes[code]? = some probe)
    (hb : ∀ i, 0 ≤ cache i ∧ cache i < 2 ^ 31) (hr : probeDistance probe cache < 2 ^ 63) :
    Spells cache (probeDistance probe cache) code ∧ probeDistance probe cache < 2 ^ 31 := by
  have hcode : code < 16 := (List.getElem?_eq_some_iff.mp hprobe).1
  obtain ⟨probe', hget, hlo, hhi, hslot, hoff⟩ := cacheProbes_spec code hcode
  obtain rfl : probe = probe' := Option.some.inj (hprobe.symm.trans hget)
  obtain ⟨h1, h2⟩ := probeDistance_eq hb ⟨hlo, hhi⟩ hr
  exact ⟨.inr ⟨hcode, by rw [h1, hslot, hoff]⟩, h2⟩

/-- Only distances within the attached prefix are measured there. -/
theorem prefixCopyLength_within {backward dictionaryStart bestLen curIxMasked maxLen found : ℕ}
    {continuation : UInt8}
    (h : prefixCopyLength ctx backward dictionaryStart bestLen continuation curIxMasked maxLen =
      some found) :
    backward ≤ dictionaryStart + ctx.gap := by
  by_contra hge
  unfold prefixCopyLength at h
  rw [if_pos (.inl (not_le.mp hge))] at h
  cases h

/-- What a probe finds is a true match in all its lengths, and its code spells the
distance. -/
theorem probeLength_true (hc : ctx.Covers env limit input base enablePrefix) {probe : Fin 4 × ℤ}
    {code bestLen found : ℕ}
    {continuation : UInt8} (hprobe : cacheProbes[code]? = some probe)
    (hbounded : ∀ i, 0 ≤ cache i ∧ cache i < 2 ^ 31) (hpos : pos ≤ ctx.numBytes)
    (h : probeLength ctx enablePrefix pos (probeDistance probe cache) bestLen continuation =
      some found) {l : ℕ}
    (hl : l ≤ found) (h0 : 0 < l) :
    TrueMatch env limit context input (base + pos) l l (probeDistance probe cache) ∧
      Spells cache (probeDistance probe cache) code := by
  unfold probeLength at h
  by_cases hin : wrappingSub (probeDistance probe cache) 1 <
    min (ctx.blockStart + pos) ctx.maxBackwardLimit
  · rw [if_pos hin] at h
    simp only [Option.ite_none_right_eq_some, Option.some.injEq] at h
    have hm : TrueMatch env limit context input (base + pos) l l (probeDistance probe cache) :=
      windowCopy_true hc hin (hl.trans_eq h.2.symm) h0 hpos
    have hlt : probeDistance probe cache < 2 ^ 63 :=
      hm.narrow.trans_le (Nat.pow_le_pow_right (by decide) (by decide))
    exact ⟨hm, (spells_probe hprobe hbounded hlt).1⟩
  rw [if_neg hin] at h
  cases enablePrefix with
  | false => cases h
  | true =>
    rw [if_pos rfl, hc.dictionaryStart] at h
    have hwithin : probeDistance probe cache < 2 ^ 63 := by
      have := prefixCopyLength_within h
      have hreach := hc.reach
      have hplen := hc.prefix_lt
      have hgap := hc.gap_eq
      omega
    obtain ⟨hspells, hnarrow⟩ := spells_probe hprobe hbounded hwithin
    exact ⟨prefixCopy_true hc h hl h0 hnarrow hpos, hspells⟩

theorem cachedCopy_good (hb : env.Built) (hc : ctx.Covers env limit input base enablePrefix)
    {independent : Bool}
    {start : Start} (hs : start.pos ≤ pos) (hpos : pos ≤ ctx.numBytes) {probe : Fin 4 × ℤ}
    {code bestLen bestLen' : ℕ}
    (hprobe : cacheProbes[code]? = some probe) {r r' : Reach}
    (h : Pricing env limit context input base ctx.startingDistCache pos queue start.pos
      start.cache r.nodes)
    (he : cachedCopy ctx enablePrefix independent model pos start probe code bestLen r =
      some (bestLen', r')) :
    Pricing env limit context input base ctx.startingDistCache pos queue start.pos start.cache
    r'.nodes := by
  unfold cachedCopy at he
  by_cases hstop : independent ∨ ctx.numBytes - pos ≤ bestLen
  · rw [if_pos hstop] at he
    cases he
  rw [if_neg hstop] at he
  cases hwin :
    (ctx.ringbuffer.take (ctx.ringbufferMask + 1))[((ctx.blockStart + pos) &&& ctx.ringbufferMask) +
      bestLen]? with
  | none => rw [hwin] at he; cases he
  | some continuation =>
    rw [hwin] at he
    simp only [] at he
    cases hfound : probeLength ctx enablePrefix pos (probeDistance probe start.cache) bestLen
      continuation with
    | none =>
      rw [hfound] at he
      cases he
      exact h
    | some len =>
      rw [hfound] at he
      simp only [] at he
      by_cases hshort : len ≤ bestLen
      · rw [if_pos hshort] at he
        cases he
        exact h
      rw [if_neg hshort] at he
      cases he
      have hcode : code < 16 := (List.getElem?_eq_some_iff.mp hprobe).1
      refine recordRange_good hs (Nat.succ_pos _) r (fun l h1 h2 h3 c => ?_) h
      have hnarrow := hc.narrow
      obtain ⟨hm, hspells⟩ :=
        probeLength_true hc hprobe (h.2.bounded hc.starting) hpos hfound h2 (by omega)
      exact arrives_record c hb hs (by omega) (by omega) (by omega) hm hspells

/-- **Copies through remembered distances are true.** -/
theorem cachedCopies_good (hb : env.Built) (hc : ctx.Covers env limit input base enablePrefix)
    (model : CostModel)
    (independent : Bool)
    (start : Start) (hs : start.pos ≤ pos) (hpos : pos ≤ ctx.numBytes) (probes : List (Fin 4 × ℤ))
    (code bestLen : ℕ)
    (hprobes : probes = cacheProbes.drop code) (r : Reach)
    (h : Pricing env limit context input base ctx.startingDistCache pos queue start.pos
      start.cache r.nodes) :
    Pricing env limit context input base ctx.startingDistCache pos queue start.pos start.cache
      (cachedCopies ctx enablePrefix independent model pos start probes code bestLen r).nodes := by
  induction probes generalizing code bestLen r with
  | nil => exact h
  | cons probe probes ih =>
    have hget : cacheProbes[code]? = some probe := by
      rw [← Nat.add_zero code, ← List.getElem?_drop, ← hprobes]
      rfl
    have hrest : probes = cacheProbes.drop (code + 1) := by
      rw [← List.tail_drop, ← hprobes, List.tail_cons]
    rw [cachedCopies]
    cases he : cachedCopy ctx enablePrefix independent model pos start probe code bestLen r with
    | none => exact h
    | some next => exact ih (code + 1) next.1 hrest next.2 (cachedCopy_good hb hc hs hpos hget h he)

/-! ### Matches -/

theorem matchCopies_good (hb : env.Built) (hc : ctx.Covers env limit input base enablePrefix)
    (start : Start)
    (hs : start.pos ≤ pos) (hpos : pos ≤ ctx.numBytes) (ms : List BackwardMatch)
    (hms : ∀ m ∈ ms, m.True env limit context input base ctx.numBytes pos) (len : ℕ)
    (hlen : 0 < len) (r : Reach)
    (h : Pricing env limit context input base ctx.startingDistCache pos queue start.pos
      start.cache r.nodes) :
    Pricing env limit context input base ctx.startingDistCache pos queue start.pos start.cache
      (matchCopies ctx model pos ctx.gap start ms len r).nodes := by
  induction ms generalizing len r with
  | nil => exact h
  | cons m ms ih =>
    have hrest : ∀ m' ∈ ms, m'.True env limit context input base ctx.numBytes pos :=
      fun m' hm' => hms m' (List.mem_cons_of_mem _ hm')
    obtain ⟨hfits, htrue⟩ := hms m List.mem_cons_self
    rw [matchCopies]
    simp only []
    rw [hc.dictionaryStart, hc.gap_eq]
    set word := decide (min (base + pos) limit + env.prefixLen < m.distance) with hword
    set first := if len < m.length ∧ (word = true ∨ ctx.params.maxZopfliLen < m.length)
      then m.length else len with hfirst
    have hfirst0 : 0 < first := by
      rw [hfirst]
      split <;> omega
    by_cases hle : first ≤ m.length
    swap
    · rw [if_neg hle]
      rw [← hc.gap_eq]
      exact ih hrest first hfirst0 r h
    rw [if_pos hle, ← hc.gap_eq]
    refine ih hrest _ (Nat.succ_pos _) _ (recordRange_good hs hfirst0 r (fun l h1 h2 h3 c => ?_) h)
    have hnarrow := hc.narrow
    have hspells : Spells start.cache m.distance (if 0 =
        0 then m.distance + numDistanceShortCodes - 1 else 0 - 1) := by
      have := htrue.distance_pos
      rw [if_pos rfl]
      exact .inl ⟨rfl, by simp only [numDistanceShortCodes]; omega⟩
    have hm : TrueMatch env limit context input (base + pos) l (if word = true then m.lengthCode
        else l) m.distance := by
      by_cases hw : word = true
      · -- A word is only tried whole.
        have hl : l = m.length := by
          by_cases hlt : len < m.length
          · rw [hfirst, if_pos ⟨hlt, .inl hw⟩] at h1
            omega
          · rw [hfirst, if_neg (fun hand => hlt hand.1)] at h1
            omega
        rw [if_pos hw, hl]
        exact htrue
      · rw [if_neg hw]
        have hin : ¬ min (base + pos) limit + env.prefixLen < m.distance := by
          rw [hword] at hw
          simpa using hw
        exact htrue.shorten (not_lt.mp hin) (by omega) h2
    exact arrives_record c hb hs (by omega) (by omega) (by omega) hm hspells

theorem two_le_minimumCopyLength (model : CostModel) (nodes : Nodes) (numBytes pos fuel : ℕ)
    (minCost : Cost)
    (len bucket offset : ℕ) (h : 2 ≤ len) :
    2 ≤ minimumCopyLength model nodes numBytes pos fuel minCost len bucket offset := by
  induction fuel generalizing minCost len bucket offset with
  | zero => exact h
  | succ fuel ih =>
    rw [minimumCopyLength]
    split
    · simp only []
      split
      · exact ih _ _ _ _ (by omega)
      · exact ih _ _ _ _ (by omega)
    · exact h

theorem updateFrom_good (hb : env.Built) (hc : ctx.Covers env limit input base enablePrefix)
    (independent : Bool)
    (hpos : pos ≤ ctx.numBytes) {ms : List BackwardMatch}
    (hms : ∀ m ∈ ms, m.True env limit context input base ctx.numBytes pos)
    {minLen : ℕ} (hmin : 2 ≤ minLen) (n k : ℕ) (hk : k + n ≤ queue.len) (r : Reach)
    (h : Forward env limit context input base ctx.startingDistCache (pos + 1) queue r.nodes) :
    Forward env limit context input base ctx.startingDistCache (pos + 1) queue
      (updateFrom ctx enablePrefix independent model pos ctx.gap ms minLen queue n k r).nodes := by
  induction n generalizing k r with
  | zero => exact h
  | succ n ih =>
    obtain ⟨hlt, hpath⟩ := h.queued k (by omega)
    rw [updateFrom]
    refine ih (k + 1) (by omega) _ ?_
    have hcached := cachedCopies_good hb hc model independent
      ⟨(queue.get k).pos, (queue.get k).distanceCache, insertLengthCode (pos - (queue.get k).pos),
        model.add (model.add (queue.get k).costdiff
          (model.ofNat (insExtra.getD (insertLengthCode (pos - (queue.get k).pos)) 0)))
          (model.literalCosts 0 pos)⟩ (Nat.le_of_lt_succ hlt) hpos cacheProbes 0 (minLen - 1)
            rfl r ⟨h, hpath⟩
    by_cases h2 : 2 ≤ k
    · rw [if_pos h2]
      exact hcached.1
    · rw [if_neg h2]
      exact (matchCopies_good hb hc _ (Nat.le_of_lt_succ hlt) hpos ms hms minLen
        (by omega) _ hcached).1

/-- **Pricing a position keeps the pass sound.** -/
theorem updateNodes_good (hb : env.Built) (hc : ctx.Covers env limit input base enablePrefix)
    (independent : Bool)
    (hpos : pos ≤ ctx.numBytes) {ms : List BackwardMatch}
    (hms : ∀ m ∈ ms, m.True env limit context input base ctx.numBytes pos)
    (hmodel : ∀ i, model.le infinity (model.literalCosts 0 i) = false)
    (h : Forward env limit context input base ctx.startingDistCache pos queue nodes) :
    let r := updateNodes ctx enablePrefix independent pos ms model queue nodes
    Forward env limit context input base ctx.startingDistCache (pos + 1) r.2.1 r.2.2 := by
  have hgap : (if enablePrefix then ctx.gap else 0) = ctx.gap := by
    cases hpre : enablePrefix with
    | true => rfl
    | false => rw [hc.gap_eq, hc.disabled hpre]; rfl
  have hstart : ctx.params.logicalPosition ctx.blockStart = ctx.blockStart := by
    rw [HqParams.logicalPosition, hc.offset_eq, Nat.add_zero]
  have heval := h.evaluate model hc.gap_eq hc.wrapped (hmodel pos)
  unfold updateNodes
  simp only []
  rw [hgap, hstart, hc.limit_eq]
  rcases hr : evaluateNode ctx.blockStart pos limit ctx.gap ctx.startingDistCache model queue nodes
    with ⟨queue', nodes'⟩
  rw [hr] at heval
  simp only [] at heval ⊢
  refine updateFrom_good hb hc independent hpos hms
    (two_le_minimumCopyLength _ _ _ _ _ _ _ _ _ (le_refl 2)) _ 0 ?_ _ heval
  rw [Nat.zero_add]
  exact Nat.min_le_right _ _

/-! ### A pass -/

/-- The matches up to position `i`. -/
def matchesBefore (numMatches : ℕ → ℕ) (i : ℕ) : ℕ := ((List.range i).map numMatches).sum

theorem matchesBefore_succ (numMatches : ℕ → ℕ) (i : ℕ) :
    matchesBefore numMatches (i + 1) = matchesBefore numMatches i + numMatches i := by
  rw [matchesBefore, matchesBefore, List.range_succ, List.map_append, List.sum_append,
    List.map_singleton,
    List.sum_singleton]

/-- The pass is sound, and the positions before `i` are evaluated unless it is done. -/
def Ready (env : Env) (limit : ℕ) (context : ℕ → ℕ) (input : List UInt8) (base : ℕ)
    (ctx : UpdateContext) (i : ℕ)
    (p : StartPosQueue × Nodes) : Prop :=
  ∃ j, Forward env limit context input base ctx.startingDistCache j p.1 p.2 ∧
    (i + 3 < ctx.numBytes → j = i)

theorem longestOnly_subset (maxZopfliLen : ℕ) (found : List BackwardMatch) {m : BackwardMatch}
    (h : m ∈ longestOnly maxZopfliLen found) : m ∈ found := by
  unfold longestOnly at h
  cases hlast : found.getLast? with
  | none => rwa [hlast] at h
  | some longest =>
    rw [hlast] at h
    simp only [] at h
    by_cases hlong : maxZopfliLen < longest.length
    · rw [if_pos hlong, List.mem_singleton] at h
      rw [h]
      exact List.mem_of_getLast? hlast
    · rwa [if_neg hlong] at h

/-- Passing over positions keeps the pass sound, and the count of matches. -/
theorem skipNodes_good (hc : ctx.Covers env limit input base enablePrefix)
    (hmodel : ∀ i, model.le infinity (model.literalCosts 0 i) = false) (numMatches : ℕ → ℕ)
    (skip i cur : ℕ)
    (p : StartPosQueue × Nodes)
    (h : Forward env limit context input base ctx.startingDistCache (i + 1) p.1 p.2)
    (hcur : cur = matchesBefore numMatches (i + 1)) :
    ∃ i' cur' p', skipNodes ctx ctx.gap model numMatches skip i cur p = (i', cur', p') ∧ i ≤ i' ∧
      (i' + 1 + 3 < ctx.numBytes → cur' = matchesBefore numMatches (i' + 1)) ∧
      Ready env limit context input base ctx (i' + 1) p' := by
  have hstart : ctx.params.logicalPosition ctx.blockStart = ctx.blockStart := by
    rw [HqParams.logicalPosition, hc.offset_eq, Nat.add_zero]
  obtain ⟨queue, nodes⟩ := p
  induction skip generalizing i cur queue nodes with
  | zero => exact ⟨i, cur, (queue, nodes), rfl, le_refl i, fun _ => hcur, i + 1, h, fun _ => rfl⟩
  | succ skip ih =>
    rw [skipNodes]
    by_cases hend : ctx.numBytes ≤ i + 1 + 3
    · rw [if_pos hend]
      exact ⟨i + 1, cur, (queue, nodes), rfl, Nat.le_succ i, fun hlt => by
        omega, i + 1, h, fun hlt => by omega⟩
    · rw [if_neg hend]
      have heval := h.evaluate model hc.gap_eq hc.wrapped (hmodel (i + 1))
      rw [hstart, hc.limit_eq]
      obtain ⟨i', cur', p', h1, h2, h3⟩ := ih (i + 1) (cur + numMatches (i + 1))
        (by rw [hcur, ← matchesBefore_succ]) _ _ heval
      exact ⟨i', cur', p', h1, by omega, h3⟩

/-- The matches of every position in the arena are true. -/
def ArenaTrue (env : Env) (limit : ℕ) (context : ℕ → ℕ) (input : List UInt8) (base numBytes : ℕ)
    (numMatches : ℕ → ℕ)
    (arena : List BackwardMatch) : Prop :=
  ∀ i, i + 3 < numBytes → ∀ m ∈ (arena.drop (matchesBefore numMatches i)).take (numMatches i),
    m.True env limit context input base numBytes i

theorem iterateFrom_good (hb : env.Built) (hc : ctx.Covers env limit input base enablePrefix)
    (independent : Bool)
    (hmodel : ∀ i, model.le infinity (model.literalCosts 0 i) = false) {numMatches : ℕ → ℕ}
    {arena : List BackwardMatch}
    (harena : ArenaTrue env limit context input base ctx.numBytes numMatches arena) (fuel i cur : ℕ)
    (hfuel : ctx.numBytes < fuel + i)
    (hcur : i + 3 < ctx.numBytes → cur = matchesBefore numMatches i)
    (p : StartPosQueue × Nodes) (h : Ready env limit context input base ctx i p) (hpos : 0 < fuel) :
    ∃ p' j, iterateFrom ctx enablePrefix independent model numMatches arena fuel i cur p = some p' ∧
      Forward env limit context input base ctx.startingDistCache j p'.1 p'.2 := by
  obtain ⟨queue, nodes⟩ := p
  induction fuel generalizing i cur queue nodes with
  | zero => omega
  | succ fuel ih =>
    obtain ⟨j, hj, hji⟩ := h
    rw [iterateFrom]
    by_cases hlt : i + 3 < ctx.numBytes
    swap
    · rw [if_neg hlt]
      exact ⟨(queue, nodes), j, rfl, hj⟩
    rw [if_pos hlt]
    simp only []
    rw [hji hlt] at hj
    have hms := harena i hlt
    rw [← hcur hlt] at hms
    generalize (arena.drop cur).take (numMatches i) = ms at hms
    have hup := updateNodes_good hb hc independent (by omega) hms hmodel hj
    rcases hr : updateNodes ctx enablePrefix independent i ms model queue nodes
      with ⟨skip, queue1, nodes1⟩
    rw [hr] at hup
    simp only [] at hup ⊢
    generalize stride ctx.params.maxZopfliLen skip ms = n
    obtain ⟨i', cur', p', h1, h2, h3, h4⟩ :=
      skipNodes_good hc hmodel numMatches (n - 1) i (cur + numMatches i)
        (queue1, nodes1) hup (by rw [hcur hlt, ← matchesBefore_succ])
    rw [h1]
    exact ih (i' + 1) cur' (by omega) h3 (by omega) p'.1 p'.2 h4

theorem computeFrom_good (hb : env.Built) (hc : ctx.Covers env limit input base enablePrefix)
    (independent : Bool)
    (hmodel : ∀ i, model.le infinity (model.literalCosts 0 i) = false)
    {found : ℕ → List BackwardMatch}
    (hfound : ∀ i, i + 3 < ctx.numBytes → ∀ m ∈ found i,
      m.True env limit context input base ctx.numBytes i) (fuel i : ℕ)
    (hfuel : ctx.numBytes < fuel + i) (p : StartPosQueue × Nodes)
    (h : Ready env limit context input base ctx i p)
    (hpos : 0 < fuel) :
    ∃ p' j, computeFrom ctx enablePrefix independent model found fuel i p = some p' ∧
      Forward env limit context input base ctx.startingDistCache j p'.1 p'.2 := by
  obtain ⟨queue, nodes⟩ := p
  induction fuel generalizing i queue nodes with
  | zero => omega
  | succ fuel ih =>
    obtain ⟨j, hj, hji⟩ := h
    rw [computeFrom]
    by_cases hlt : i + 3 < ctx.numBytes
    swap
    · rw [if_neg hlt]
      exact ⟨(queue, nodes), j, rfl, hj⟩
    rw [if_pos hlt]
    simp only []
    rw [hji hlt] at hj
    have hms : ∀ m ∈ longestOnly ctx.params.maxZopfliLen (found i),
        m.True env limit context input base ctx.numBytes i :=
      fun m hm => hfound i hlt m (longestOnly_subset _ _ hm)
    generalize longestOnly ctx.params.maxZopfliLen (found i) = ms at hms
    have hup := updateNodes_good hb hc independent (by omega) hms hmodel hj
    rcases hr : updateNodes ctx enablePrefix independent i ms model queue nodes
      with ⟨skip, queue1, nodes1⟩
    rw [hr] at hup
    simp only [] at hup ⊢
    generalize stride ctx.params.maxZopfliLen skip ms = n
    have hzero : (0 : ℕ) = matchesBefore (fun _ => 0) (i + 1) := by
      rw [matchesBefore]
      simp
    obtain ⟨i', cur', p', h1, h2, -, h4⟩ :=
      skipNodes_good hc hmodel (fun _ => 0) (n - 1) i 0 (queue1, nodes1) hup hzero
    rw [h1]
    exact ih (i' + 1) (by omega) (by omega) p'.1 p'.2 h4

/-! ### The arena -/

theorem matchesBefore_congr {f g : ℕ → ℕ} {i : ℕ} (h : ∀ j < i, f j = g j) :
    matchesBefore f i = matchesBefore g i := by
  rw [matchesBefore, matchesBefore]
  congr 1
  exact List.map_congr_left fun j hj => h j (List.mem_range.mp hj)

theorem matchesBefore_mono (f : ℕ → ℕ) {i j : ℕ} (h : i ≤ j) :
    matchesBefore f i ≤ matchesBefore f j := by
  induction j, h using Nat.le_induction with
  | base => exact le_refl _
  | succ j _ ih =>
    rw [matchesBefore_succ]
    omega

/-- Positions without matches add nothing. -/
theorem matchesBefore_zeros {f : ℕ → ℕ} {i j : ℕ} (h : i ≤ j) (hz : ∀ k, i ≤ k → k < j → f k = 0) :
    matchesBefore f j = matchesBefore f i := by
  induction j, h using Nat.le_induction with
  | base => rfl
  | succ j hij ih =>
    rw [matchesBefore_succ, hz j hij (Nat.lt_succ_self j), Nat.add_zero]
    exact ih fun k h1 h2 => hz k h1 (by omega)

/-- What the search for matches keeps, up to position `i`. -/
structure Gathered (env : Env) (limit : ℕ) (context : ℕ → ℕ) (input : List UInt8)
    (base numBytes i : ℕ)
    (arena : List BackwardMatch) (numMatches : ℕ → ℕ) : Prop where
  length : arena.length = matchesBefore numMatches i
  rest : ∀ j, i ≤ j → numMatches j = 0
  good : ∀ j < i, ∀ m ∈ (arena.drop (matchesBefore numMatches j)).take (numMatches j),
    m.True env limit context input base numBytes j

/-- Position `i`'s matches go to the end of the arena, and the positions up to `k` get
none. -/
theorem Gathered.add {numBytes i k : ℕ} {arena ms : List BackwardMatch} {numMatches : ℕ → ℕ}
    (h : Gathered env limit context input base numBytes i arena numMatches)
    (hms : ∀ m ∈ ms, m.True env limit context input base numBytes i) (hk : i + 1 ≤ k) :
    Gathered env limit context input base numBytes k (arena ++ ms)
    (Function.update numMatches i ms.length) := by
  have hbefore : ∀ j ≤ i, matchesBefore (Function.update numMatches i ms.length) j =
      matchesBefore numMatches j :=
    fun j hj => matchesBefore_congr fun k hk => Function.update_of_ne (by omega) _ _
  have hself : Function.update numMatches i ms.length i = ms.length := Function.update_self _ _ _
  have hafter : ∀ j, i < j → Function.update numMatches i ms.length j = 0 := fun j hj => by
    rw [Function.update_of_ne (by omega)]
    exact h.rest j (by omega)
  refine ⟨?_, fun j hj => hafter j (by omega), ?_⟩
  · rw [matchesBefore_zeros hk fun j h1 _ => hafter j (by omega), matchesBefore_succ, hself,
      hbefore i (le_refl i),
      List.length_append, h.length]
  · intro j hj m hm
    rcases Nat.lt_trichotomy j i with hlt | rfl | hgt
    · rw [hbefore j hlt.le, Function.update_of_ne (by omega)] at hm
      have hroom : matchesBefore numMatches j + numMatches j ≤ arena.length := by
        rw [h.length, ← matchesBefore_succ]
        exact matchesBefore_mono _ hlt
      rw [List.drop_append_of_le_length (by omega),
        List.take_append_of_le_length (by rw [List.length_drop]; omega)] at hm
      exact h.good j hlt m hm
    · rw [hbefore j (le_refl j), hself, ← h.length, List.drop_left, List.take_length] at hm
      exact hms m hm
    · rw [hafter j hgt, List.take_zero] at hm
      cases hm

theorem gather_good {found : ℕ → List BackwardMatch} {numBytes : ℕ} (maxZopfliLen : ℕ)
    (hfound : ∀ i, i + 3 < numBytes → ∀ m ∈ found i, m.True env limit context input base numBytes i)
    (fuel i : ℕ)
    (hfuel : numBytes < fuel + i) (hpos : 0 < fuel) (p : List BackwardMatch × (ℕ → ℕ))
    (h : Gathered env limit context input base numBytes i p.1 p.2) :
    ∃ arena numMatches, gather numBytes maxZopfliLen found fuel i p = some (arena, numMatches) ∧
      ArenaTrue env limit context input base numBytes numMatches arena := by
  obtain ⟨arena, numMatches⟩ := p
  induction fuel generalizing i arena numMatches with
  | zero => omega
  | succ fuel ih =>
    rw [gather]
    by_cases hlt : i + 3 < numBytes
    swap
    · rw [if_neg hlt]
      exact ⟨arena, numMatches, rfl, fun j hj => h.good j (by omega)⟩
    rw [if_pos hlt]
    have hms : ∀ m ∈ longestOnly maxZopfliLen (found i),
        m.True env limit context input base numBytes i :=
      fun m hm => hfound i hlt m (longestOnly_subset _ _ hm)
    exact ih _ (by omega) (by omega) _ _ (h.add hms (by omega))

/-! ### The way back and forth -/

/-- The way from `s` on visits the nodes `qs`, each of which arrives from the one before. -/
inductive Route (env : Env) (limit : ℕ) (context : ℕ → ℕ) (input : List UInt8) (base : ℕ)
    (nodes : Nodes) :
    ℕ → (Fin 4 → ℤ) → List ℕ → ℕ → (Fin 4 → ℤ) → Prop where
  | done {s : ℕ} {cache : Fin 4 → ℤ} : Route env limit context input base nodes s cache [] s cache
  | visit {s q e : ℕ} {cache cache' : Fin 4 → ℤ} {qs : List ℕ}
      (arrives : Arrives env limit context input base (nodes q) s q cache)
      (rest : Route env limit context input base nodes q (after env limit base cache s (nodes q))
        qs e cache') :
      Route env limit context input base nodes s cache (q :: qs) e cache'

/-- The pointers from `s` on lead through the nodes `qs`. -/
inductive Chain (nodes : Nodes) : ℕ → List ℕ → Prop where
  | stop {s : ℕ} (last : (nodes s).next = u32Max) : Chain nodes s []
  | next {s q : ℕ} {qs : List ℕ} (hlt : s < q) (pointer : (nodes s).next = q - s)
      (small : q - s < u32Max)
      (rest : Chain nodes q qs) : Chain nodes s (q :: qs)

theorem Route.snoc {s e q : ℕ} {cache cache' : Fin 4 → ℤ} {qs : List ℕ}
    (h : Route env limit context input base nodes s cache qs e cache')
    (ha : Arrives env limit context input base (nodes q) e q cache') :
    Route env limit context input base nodes s cache (qs ++ [q]) q
    (after env limit base cache' e (nodes q)) := by
  induction h with
  | done => exact .visit ha .done
  | visit arrives _ ih => exact .visit arrives (ih ha)

theorem Route.le {s e : ℕ} {cache cache' : Fin 4 → ℤ} {qs : List ℕ}
    (h : Route env limit context input base nodes s cache qs e cache') : s ≤ e := by
  induction h with
  | done => exact le_refl _
  | visit arrives _ ih => exact arrives.lt.le.trans ih

theorem Route.congr {nodes' : Nodes} {s e : ℕ} {cache cache' : Fin 4 → ℤ} {qs : List ℕ}
    (h : Route env limit context input base nodes s cache qs e cache')
    (hn : ∀ j, (nodes j).SameCommand (nodes' j)) :
    Route env limit context input base nodes' s cache qs e cache' := by
  induction h with
  | done => exact .done
  | @visit s q e cache cache' qs arrives _ ih =>
    refine .visit (arrives.congr (hn q)) ?_
    rw [← after_congr cache s (hn q)]
    exact ih

/-- Pointers before `s` are nothing to a chain from there on. -/
theorem Chain.update {qs : List ℕ} {p : ℕ} {node : ZopfliNode} (h : Chain nodes s qs) (hp : p < s) :
    Chain (Function.update nodes p node) s qs := by
  induction h with
  | stop last => exact .stop (by rw [Function.update_of_ne (by omega)]; exact last)
  | next hlt pointer small _ ih =>
    exact .next hlt (by rw [Function.update_of_ne (by omega)]; exact pointer) small (ih (by omega))

/-- **Tracing back writes the path's pointers.** -/
theorem traceBack_chain {starting : Fin 4 → ℤ} {q : ℕ}
    (h : Path env limit context input base nodes starting q cache)
    (hq : q < 2 ^ 25) : ∃ qs, Route env limit context input base nodes 0 starting qs q cache ∧
    ∀ (fuel : ℕ) (nodes' : Nodes) (rest : List ℕ) (count : ℕ), q < fuel →
    (∀ j, (nodes j).SameCommand (nodes' j)) →
      Chain nodes' q rest → ∃ count' nodes'', traceBack fuel q (count, nodes') =
      some (count', nodes'') ∧
        (∀ j, (nodes j).SameCommand (nodes'' j)) ∧ Chain nodes'' 0 (qs ++ rest) := by
  induction h with
  | start =>
    refine ⟨[], .done, fun fuel nodes' rest count hf hs hc => ?_⟩
    obtain ⟨fuel, rfl⟩ : ∃ n, fuel = n + 1 := ⟨fuel - 1, by omega⟩
    exact ⟨count, nodes', rfl, hs, hc⟩
  | @step s q cache path arrives ih =>
    have hlt := arrives.lt
    obtain ⟨qs, hroute, htrace⟩ := ih (by omega)
    refine ⟨qs ++ [q], hroute.snoc arrives, fun fuel nodes' rest count hf hs hc => ?_⟩
    obtain ⟨fuel, rfl⟩ : ∃ n, fuel = n + 1 := ⟨fuel - 1, by omega⟩
    have hlen : q - (nodes' q).commandLength = s ∧ (nodes' q).commandLength = q - s := by
      obtain ⟨h1, -, -, -, h5⟩ := (hs q).accessors
      have := arrives.tiles
      rw [ZopfliNode.commandLength, ← h1, ← h5]
      omega
    rw [traceBack, if_pos (by omega)]
    simp only []
    rw [hlen.1, hlen.2]
    have hsame : ∀ j, (nodes j).SameCommand
        (Function.update nodes' s ((nodes' s).setNext (q - s)) j) := by
      intro j
      by_cases hj : j = s
      · subst hj
        rw [Function.update_self]
        exact hs j
      · rw [Function.update_of_ne hj]
        exact hs j
    have hchain : Chain (Function.update nodes' s ((nodes' s).setNext (q - s))) s (q :: rest) := by
      refine .next hlt ?_ ?_ (hc.update hlt)
      · rw [Function.update_self]
        rfl
      · simp only [u32Max]
        omega
    obtain ⟨count', nodes'', h1, h2, h3⟩ :=
      htrace fuel _ (q :: rest) (count + 1) (by omega) hsame hchain
    exact ⟨count', nodes'', h1, h2, by rwa [List.append_assoc]⟩

/-- The last arrival is no stub. -/
theorem lastArrival_spec (nodes : Nodes) (numBytes : ℕ) :
    lastArrival nodes numBytes ≤ numBytes ∧ (lastArrival nodes numBytes = 0 ∨
      ¬ (nodes (lastArrival nodes numBytes)).SameCommand {}) := by
  induction numBytes with
  | zero => exact ⟨le_refl 0, .inl rfl⟩
  | succ n ih =>
    rw [lastArrival]
    by_cases hstub : (nodes (n + 1)).insertLength = 0 ∧ (nodes (n + 1)).length = 1
    · rw [if_pos hstub]
      exact ⟨ih.1.trans (Nat.le_succ n), ih.2⟩
    · rw [if_neg hstub]
      refine ⟨le_refl _, .inr fun hsame => hstub ⟨?_, hsame.1⟩⟩
      rw [hsame.accessors.2.2.2.2]
      rfl

/-- **The shortest path is a route through true commands**, and the pointers follow it. -/
theorem computeShortestPath_good {starting : Fin 4 → ℤ} {j numBytes : ℕ} (hn : numBytes < 2 ^ 25)
    (h : Forward env limit context input base starting j queue nodes) :
    ∃ count nodes' qs e cache, computeShortestPathFromNodes numBytes nodes = some (count, nodes') ∧
    e ≤ numBytes ∧
      Route env limit context input base nodes' 0 starting qs e cache ∧ Chain nodes' 0 qs := by
  obtain ⟨hle, hor⟩ := lastArrival_spec nodes numBytes
  unfold computeShortestPathFromNodes
  simp only []
  set e := lastArrival nodes numBytes with he
  have hpath : ∃ cache, Path env limit context input base nodes starting e cache := by
    rcases Nat.eq_zero_or_pos e with h0 | hpos
    · rw [h0]
      exact ⟨starting, .start⟩
    · rcases h.later e hpos with ⟨hstub, -⟩ | ⟨s, cache, -, hp, ha⟩
      · exact absurd hstub (hor.resolve_left (by omega))
      · exact ⟨_, .step hp ha⟩
  obtain ⟨cache, hpath⟩ := hpath
  obtain ⟨qs, hroute, htrace⟩ := traceBack_chain hpath (by omega)
  have hsame : ∀ j, (nodes j).SameCommand
      (Function.update nodes e ((nodes e).setNext u32Max) j) := by
    intro j
    by_cases hj : j = e
    · rw [hj, Function.update_self]
      exact ⟨rfl, rfl, rfl⟩
    · rw [Function.update_of_ne hj]
      exact .refl _
  obtain ⟨count, nodes', h1, h2, h3⟩ :=
    htrace (numBytes + 1) _ [] 0 (by omega) hsame (.stop (by rw [Function.update_self]; rfl))
  rw [List.append_nil] at h3
  exact ⟨count, nodes', qs, e, cache, h1, hle, hroute.congr h2, h3⟩

/-! ### The commands -/

section

variable {params : HqParams} {gap : ℕ} {large : Bool} {origin : ℕ} {initial : Cache}

/-- **Walking a route emits commands that reconstruct it.** -/
theorem commandsFrom_good (hb : env.Built) (hlegal : params.dist.Legal)
    (hoff : params.streamOffset = 0)
    (hlimit : params.maxBackwardLimit = limit) {numBytes blockStart : ℕ}
    (hgap : gap = env.prefixLen)
    (hwrap : blockStart = base ∨ (limit ≤ blockStart ∧ limit ≤ base)) (hn : numBytes < 2 ^ 25)
    {qs : List ℕ} {e : ℕ}
    {cache' : Fin 4 → ℤ} (hr : Route env limit context input base nodes s cache qs e cache')
    (hc : Chain nodes s qs)
    (he : e ≤ numBytes) (fuel : ℕ) (hfuel : e < fuel + s) (first : Bool) (state : ZopfliState)
    (commands : List Command)
    (hfirst : first = false → state.lastInsertLen = 0) (hcache : state.distCache = cache)
    (hins : state.lastInsertLen ≤ base) (hwide : state.lastInsertLen + numBytes < 2 ^ 32)
    (h : Reconstructs env limit (params.dist.layout large) context input origin initial
      commands cache
      (base + s - state.lastInsertLen)) :
    ∃ state' commands', commandsFrom numBytes blockStart nodes params gap fuel s
    (nodes s).next first state commands =
        some (state', commands') ∧ state'.lastInsertLen ≤ state.lastInsertLen + numBytes ∧
      state'.lastInsertLen ≤ base + numBytes ∧ state'.distCache = cache' ∧
      Reconstructs env limit (params.dist.layout large) context input origin initial
      commands' cache'
        (base + numBytes - state'.lastInsertLen) := by
  induction hr generalizing fuel first state commands with
  | @done s cache =>
    obtain ⟨fuel, rfl⟩ : ∃ n, fuel = n + 1 := ⟨fuel - 1, by omega⟩
    have hlast : (nodes s).next = u32Max := by
      cases hc with
      | stop last => exact last
    rw [commandsFrom, hlast, if_neg (not_not.mpr rfl)]
    refine ⟨_, _, rfl, ?_, ?_, hcache, ?_⟩
    · show state.lastInsertLen + (numBytes - s) ≤ _
      omega
    · show state.lastInsertLen + (numBytes - s) ≤ _
      omega
    · show Reconstructs _ _ _ _ _ _ _ commands cache
        (base + numBytes - (state.lastInsertLen + (numBytes - s)))
      rw [show base + numBytes - (state.lastInsertLen + (numBytes - s)) =
        base + s - state.lastInsertLen by omega]
      exact h
  | @visit s q e cache cache' qs arrives rest ih =>
    obtain ⟨fuel, rfl⟩ : ∃ n, fuel = n + 1 :=
      ⟨fuel - 1, by have := rest.le; have := arrives.lt; omega⟩
    cases hc with
    | next hlt pointer small hchain =>
    have hqe := rest.le
    have htiles := arrives.tiles
    have hpos := arrives.trueMatch.pos
    have hplace : s + (q - s) = q := by omega
    set insert := (nodes q).insertLength + state.lastInsertLen with hinsert
    have hinsertLength : (if first = true then (nodes q).insertLength + state.lastInsertLen
        else (nodes q).insertLength) = insert := by
      cases first with
      | true => rfl
      | false => rw [hinsert, hfirst rfl]; rfl
    have hlastInsert : (if first = true then 0 else state.lastInsertLen) = 0 := by
      cases first with
      | true => rfl
      | false => exact hfirst rfl
    -- The copy starts behind the literals that were pending and its own.
    have hstart : base + s - state.lastInsertLen + insert =
      base + (s + (nodes q).insertLength) := by omega
    have hpush := h.push hb hlegal (hstart ▸ arrives.trueMatch) arrives.spells (by omega) (by omega)
    rw [hstart] at hpush
    have hdist :
      (if ¬ min (params.logicalPosition (blockStart + (s + (nodes q).insertLength)))
        params.maxBackwardLimit + gap <
        (nodes q).copyDistance ∧ 0 < (nodes q).distanceCode then
          ![asI32 (nodes q).copyDistance, state.distCache 0, state.distCache 1, state.distCache 2]
        else state.distCache) = after env limit base cache s (nodes q) := by
      have hiff :
        (¬ min (params.logicalPosition (blockStart + (s + (nodes q).insertLength)))
          params.maxBackwardLimit + gap <
          (nodes q).copyDistance ∧ 0 < (nodes q).distanceCode) ↔
          ((nodes q).copyDistance ≤ min (base + (s + (nodes q).insertLength)) limit +
            env.prefixLen ∧
            (nodes q).distanceCode ≠ 0) := by
        rw [HqParams.logicalPosition, hoff, hlimit, hgap]
        omega
      rw [after, hcache]
      by_cases hrem : (nodes q).copyDistance ≤ min (base + (s + (nodes q).insertLength)) limit +
        env.prefixLen ∧
          (nodes q).distanceCode ≠ 0
      · rw [if_pos hrem, if_pos (hiff.2 hrem), asI32_eq arrives.trueMatch.narrow]
        exact funext
          (Fin.cases rfl (Fin.cases rfl (Fin.cases rfl (Fin.cases rfl fun i => i.elim0))))
      · rw [if_neg hrem, if_neg (mt hiff.1 hrem)]
    rw [commandsFrom, pointer, if_pos (by omega)]
    simp only []
    rw [hplace, hinsertLength, hlastInsert, hdist,
      show s + (nodes q).insertLength + (nodes q).copyLength = q by omega]
    obtain ⟨state', commands', h1, h2, h3, h4, h5⟩ := ih hchain (by omega) fuel (by omega) false
      { distCache := after env limit base cache s (nodes q),
        lastInsertLen := 0, numLiterals := state.numLiterals + insert }
      (commands ++ [Command.new params.dist insert (nodes q).copyLength
        ((nodes q).lengthCode - (nodes q).copyLength)
        (nodes q).distanceCode]) (fun _ => rfl) rfl (Nat.zero_le _)
          (by show 0 + numBytes < 2 ^ 32; omega) (by
        show Reconstructs _ _ _ _ _ _ _ _ (after env limit base cache s (nodes q)) (base + q - 0)
        rw [show base + q - 0 = base + (s + (nodes q).insertLength) + (nodes q).copyLength by omega]
        exact hpush)
    have h2' : state'.lastInsertLen ≤ 0 + numBytes := h2
    exact ⟨state', commands', h1, by omega, h3, h4, h5⟩

/-- Commands are only added. -/
theorem commandsFrom_append {numBytes blockStart fuel pos offset : ℕ} (first : Bool)
    (state : ZopfliState)
    (earlier commands : List Command) :
    commandsFrom numBytes blockStart nodes params gap fuel pos offset first state
    (earlier ++ commands) =
      (commandsFrom numBytes blockStart nodes params gap fuel pos offset first state commands).map
        fun r => (r.1, earlier ++ r.2) := by
  induction fuel generalizing pos offset first state commands with
  | zero => rfl
  | succ fuel ih =>
    rw [commandsFrom, commandsFrom]
    by_cases hmore : offset ≠ u32Max
    · rw [if_pos hmore, if_pos hmore]
      simp only [List.append_assoc]
      exact ih _ _ _
    · rw [if_neg hmore, if_neg hmore]
      rfl

end

end

/-! ### A block -/

section

variable {env : Env} {limit : ℕ} {context : ℕ → ℕ} {input : List UInt8} {base : ℕ} {large : Bool}

/-- What a block's commands come to: they follow those before, they tile the block with
the literals pending before and after, and from the decoder's state at their start its
rules give the block back and leave it with the encoder's distances. -/
def BlockReconstructs (env : Env) (limit : ℕ) (layout : DistanceLayout) (context : ℕ → ℕ)
    (input : List UInt8)
    (base bytes : ℕ) (initial : Cache) (state : ZopfliState) (commands : List Command)
    (result : Option (ZopfliState × List Command)) : Prop :=
  ∃ state' new, result = some (state', commands ++ new) ∧
    (new.map Command.size).sum + state'.lastInsertLen = state.lastInsertLen + bytes ∧
    state'.lastInsertLen ≤ base + bytes ∧
    ∃ cache, replayFrom env limit layout context input (base - state.lastInsertLen)
        ⟨input.take (base - state.lastInsertLen), initial⟩ new =
        .ok ⟨input.take (base + bytes - state'.lastInsertLen), cache⟩ ∧
      ∀ i, (cache.recent i : ℤ) = state'.distCache i

theorem createCommands_good (large : Bool) (hb : env.Built) {ctx : UpdateContext}
    {enablePrefix : Bool}
    (hc : ctx.Covers env limit input base enablePrefix) {queue : StartPosQueue}
    {nodes : Nodes} {j : ℕ}
    (h : Forward env limit context input base ctx.startingDistCache j queue nodes) {initial : Cache}
    {state : ZopfliState}
    (hstate : ctx.startingDistCache = state.distCache) (hagree : Agrees initial state.distCache)
    (hins : state.lastInsertLen ≤ base) (hwide : state.lastInsertLen + ctx.numBytes < 2 ^ 32)
    (commands : List Command) :
    ∃ count nodes', computeShortestPathFromNodes ctx.numBytes nodes = some (count, nodes') ∧
      BlockReconstructs env limit (ctx.params.dist.layout large) context input base ctx.numBytes
      initial state commands
        (createCommands ctx.numBytes ctx.blockStart nodes' ctx.params ctx.gap state commands) := by
  obtain ⟨count, nodes', qs, e, cache, h1, h2, h3, h4⟩ := computeShortestPath_good hc.narrow h
  refine ⟨count, nodes', h1, ?_⟩
  rw [hstate] at h3
  have hstart : Reconstructs env limit (ctx.params.dist.layout large) context input
    (base - state.lastInsertLen) initial []
      state.distCache (base + 0 - state.lastInsertLen) := Reconstructs.start hagree
  obtain ⟨state', new, h5, -, h6, h7, h8⟩ :=
    commandsFrom_good hb hc.legal hc.offset_eq hc.params_limit hc.gap_eq hc.wrapped
      hc.narrow h3 h4 h2 (ctx.numBytes + 1) (by omega) true state [] (fun hf => by
      cases hf) rfl hins hwide hstart
  obtain ⟨hcovers, c, hreplays, hagrees⟩ := h8
  refine ⟨state', new, ?_, by omega, h6, c, hreplays, fun i => ?_⟩
  · have hbegun : createCommands ctx.numBytes ctx.blockStart nodes' ctx.params ctx.gap state [] =
      some (state', new) := h5
    rw [← List.append_nil commands, createCommands, commandsFrom_append, List.append_nil]
    exact congrArg (Option.map fun r => (r.1, commands ++ r.2)) hbegun
  · rw [h7]
    exact (hagrees i).1

/-- Costs under which a stub costs more than any literals. -/
def CostModel.Finite (model : CostModel) : Prop :=
  ∀ i, model.le infinity (model.literalCosts 0 i) = false

/-- The context of a block of an ordinary stream. -/
theorem updateContext_covers {config : CompressParams} (quality : HqQuality) {span : BlockSpan}
    {window : Window}
    {attached : Option SharedContext} {state : ZopfliState} (hoff : config.streamOffset = 0)
    (hwindow : config.lgwin.bits ≤ 30)
    (hattached : ((attached.map SharedContext.segments).getD []).flatten = env.prefixBytes)
    (hshort : env.prefixLen < 2 ^ 62) (hspan : span.position = wrapPosition base)
    (hbytes : span.bytes < 2 ^ 25)
    (hfits : base + span.bytes ≤ input.length)
    (hholds : window.Holds (2 ^ config.lgwin.bits - 16) input (wrapPosition base) base span.bytes)
    {initial : Cache} (hagree : Agrees initial state.distCache) :
    (updateContext attached.isSome span window (HqParams.new config quality) attached state).Covers
    env
      (2 ^ config.lgwin.bits - 16) input base attached.isSome := by
  have hreach : 2 ^ config.lgwin.bits - 16 ≤ 2 ^ 30 :=
    (Nat.sub_le _ _).trans (Nat.pow_le_pow_right (by decide) hwindow)
  have hlimit := HqParams.new_maxBackwardLimit config quality hwindow
  have hgap : ((attached.map SharedContext.totalSize).getD 0) = env.prefixLen := by
    rw [← env.prefixBytes_length, ← hattached]
    cases attached with
    | none => rfl
    | some c => exact List.length_flatten.symm
  refine ⟨hbytes, hfits, ?_, ?_, hreach, ?_, hlimit, hlimit, hoff, ?_, ?_, ?_, hshort, ?_,
    HqParams.new_dist_legal _ _⟩
  · show span.position ≤ base
    rw [hspan]
    exact wrapPosition_le base
  · show span.position = base ∨ (2 ^ config.lgwin.bits - 16 ≤ span.position ∧
      2 ^ config.lgwin.bits - 16 ≤ base)
    rw [hspan]
    exact wrapPosition_reach hreach base
  · show Window.Holds ⟨window.data, window.mask⟩ _ _ span.position _ _
    rw [hspan]
    exact hholds
  · show (if attached.isSome then _ else 0) = env.prefixLen
    cases attached with
    | none => exact hgap
    | some c => exact hgap
  · intro hnone
    cases attached with
    | none => exact hgap.symm
    | some c => cases hnone
  · intro c hc
    cases attached with
    | none => cases hc
    | some c' =>
      obtain rfl : c' = c := Option.some.inj hc
      exact hattached
  · intro i
    obtain ⟨h1, h2⟩ := hagree i
    exact ⟨by show 0 ≤ state.distCache i; omega, h2⟩

/-- **The shortest path's commands reconstruct the input**, for a block of a stream at
offset zero: with any true matches, any costs under which a stub costs more than
literals, and any remembered distances to start from. -/
theorem hq_reconstructs (config : CompressParams) (quality : HqQuality)
    (attached : Option SharedContext) (env : Env)
    (context : ℕ → ℕ) (input : List UInt8) (base : ℕ) (span : BlockSpan) (window : Window)
    (independent large : Bool)
    (found : ℕ → List BackwardMatch) (models : CostModels) (initial : Cache) (state : ZopfliState)
    (commands : List Command)
    (hoff : config.streamOffset = 0) (hwindow : config.lgwin.bits ≤ 30) (hbuilt : env.Built)
    (hattached : ((attached.map SharedContext.segments).getD []).flatten = env.prefixBytes)
    (hshort : env.prefixLen < 2 ^ 62) (hspan : span.position = wrapPosition base)
    (hbytes : span.bytes < 2 ^ 25)
    (hfits : base + span.bytes ≤ input.length)
    (hholds : window.Holds (2 ^ config.lgwin.bits - 16) input (wrapPosition base) base span.bytes)
    (hfound : ∀ i, i + 3 < span.bytes → ∀ m ∈ found i,
      m.True env (2 ^ config.lgwin.bits - 16) context input base span.bytes i)
    (hmodels : models.fromLiterals.Finite ∧ ∀ commands, (models.fromCommands commands).Finite)
    (hagree : Agrees initial state.distCache) (hins : state.lastInsertLen ≤ base)
    (hwide : state.lastInsertLen + span.bytes < 2 ^ 32) :
    BlockReconstructs env (2 ^ config.lgwin.bits - 16)
    ((HqParams.new config quality).dist.layout large) context input base
      span.bytes initial state commands
      (hq independent span window (HqParams.new config quality) attached found models state
        commands) := by
  have hc :=
    updateContext_covers quality hoff hwindow hattached hshort hspan hbytes hfits hholds hagree
  set params := HqParams.new config quality with hparams
  set ctx := updateContext attached.isSome span window params attached state with hctx
  have hready : Ready env (2 ^ config.lgwin.bits - 16) context input base ctx 0 ({}, stubNodes) :=
    ⟨0, forward_start _, fun _ => rfl⟩
  cases hq : params.quality with
  | q10 =>
    obtain ⟨p, j, h1, h2⟩ :=
      computeFrom_good hbuilt hc independent hmodels.1 hfound (ctx.numBytes + 1) 0
        (by omega) ({}, stubNodes) hready (by omega)
    obtain ⟨count, nodes, h3, h4⟩ :=
      createCommands_good large hbuilt hc h2 rfl hagree hins hwide commands
    unfold Compressor.hq createZopfliBackwardReferences zopfliComputeShortestPath
    rw [hq]
    simp only []
    rw [← hctx, h1]
    simp only []
    rw [h3]
    exact h4
  | q11 =>
    obtain ⟨arena, numMatches, ha, harena⟩ :=
      gather_good params.maxZopfliLen hfound (span.bytes + 1) 0
        (by omega) (by omega) ([], fun _ => 0) ⟨rfl, fun _ _ => rfl,
        fun j hj => absurd hj (Nat.not_lt_zero j)⟩
    have hpass : ∀ model : CostModel, model.Finite → ∃ count nodes,
        zopfliIterate ctx attached.isSome independent model numMatches arena = some (count, nodes) ∧
        BlockReconstructs env (2 ^ config.lgwin.bits - 16) (params.dist.layout large) context input
        base span.bytes initial
          state commands (createCommands span.bytes span.position nodes params ctx.gap state
            commands) := by
      intro model hmodel
      obtain ⟨p, j, h1, h2⟩ :=
        iterateFrom_good hbuilt hc independent hmodel harena (ctx.numBytes + 1) 0 0 (by omega)
          (fun _ => rfl) ({}, stubNodes) hready (by omega)
      obtain ⟨count, nodes, h3, h4⟩ :=
        createCommands_good large hbuilt hc h2 rfl hagree hins hwide commands
      refine ⟨count, nodes, ?_, h4⟩
      unfold zopfliIterate
      rw [h1]
      exact h3
    obtain ⟨count, nodes, h1, state', new, h2, -⟩ := hpass models.fromLiterals hmodels.1
    obtain ⟨count', nodes', h3, h4⟩ :=
      hpass (models.fromCommands ((commands ++ new).drop commands.length)) (hmodels.2 _)
    unfold Compressor.hq createHqZopfliBackwardReferences
    rw [hq]
    simp only []
    rw [ha, ← hctx]
    simp only []
    rw [h1]
    simp only []
    rw [h2]
    simp only []
    rw [h3]
    exact h4

/-- The value of a bit pattern that stands for an integer. -/
def f32Value (p : Cost) : ℤ :=
  let magnitude (p : ℕ) : ℕ :=
    if p = 0 then 0 else (2 ^ 23 + p % 2 ^ 23) * 2 ^ (p >>> 23) / 2 ^ 150
  if p < 2 ^ 31 then magnitude p else -magnitude (p - 2 ^ 31)

/-- The bit pattern of an integer; the bits that do not fit are dropped. -/
def f32OfInt (z : ℤ) : Cost :=
  let pattern (n : ℕ) : ℕ :=
    if n = 0 then 0 else (127 + n.log2) * 2 ^ 23 + (n * 2 ^ 23 / 2 ^ n.log2 - 2 ^ 23)
  if z < 0 then 2 ^ 31 + pattern z.natAbs else pattern z.toNat

/-- Single-precision costs where all that occurs is an integer, or the infinity that swallows
integers. -/
def integerCosts (literalCosts : ℕ → ℕ → Cost) (commandCosts : ℕ → Cost) : CostModel where
  lt a b := f32Value a < f32Value b
  le a b := f32Value a ≤ f32Value b
  add a b := f32OfInt (f32Value a + f32Value b)
  sub a b := f32OfInt (f32Value a - f32Value b)
  ofNat n := f32OfInt n
  literalCosts := literalCosts
  minCostCmd := f32OfInt 1
  distanceCost _ := f32OfInt 1
  commandCosts inscode _ _ := commandCosts inscode

/-- Every stretch of literals costs five, and every command one. -/
def flatCosts : CostModel :=
  integerCosts (fun i j => if i = j then 0 else f32OfInt 5) fun _ => f32OfInt 1

/-- The first literal costs infinity, and to insert two is worse than to insert one. -/
def stubCosts : CostModel :=
  integerCosts
    (fun i j => if i = 0 ∧ j = 0 then f32OfInt 5 else if i = 0 ∧ j = 1 then infinity else 0)
    fun inscode => if inscode = 2 then f32OfInt 100 else f32OfInt 1

/-- A block of one byte repeated, and the match that says so. -/
def repeatedBlock : List UInt8 := [97, 97, 97, 97, 97]

def repeatedMatches (i : ℕ) : List BackwardMatch := if i = 1 then [.new 1 4] else []

theorem repeatedMatches_true (env : Env) (i : ℕ) (m : BackwardMatch) (hm : m ∈ repeatedMatches i) :
    m.True env (2 ^ 16 - 16) (fun _ => 0) repeatedBlock 0 5 i := by
  rw [repeatedMatches] at hm
  by_cases h1 : i = 1
  · subst h1
    rw [if_pos rfl, List.mem_singleton] at hm
    subst hm
    exact ⟨by decide, by decide, by decide, by decide,
      .inl ⟨by decide, by decide, by decide, by decide⟩⟩
  · rw [if_neg h1] at hm
    cases hm

theorem repeatedBlock_holds : Window.Holds ⟨repeatedBlock, 2 ^ 17 - 1⟩ (2 ^ 16 - 16) repeatedBlock
    (wrapPosition 0) 0 5 := by
  intro q i _ hq _
  have hzero : wrapPosition 0 = 0 := rfl
  rw [hzero] at hq ⊢
  rw [Nat.and_two_pow_sub_one_eq_mod, Nat.mod_eq_of_lt (by omega), Nat.zero_add, Nat.sub_zero]

theorem flatCosts_finite (i : ℕ) : flatCosts.le infinity (flatCosts.literalCosts 0 i) = false := by
  show decide (f32Value infinity ≤ f32Value (if 0 = i then 0 else f32OfInt 5)) = false
  split <;> decide +kernel

/-- Quality eleven over a repeated block: one command. -/
theorem hq_reconstructs_repeated :
    let config : CompressParams := { quality := 11, lgwin := ⟨.standard, 16, by decide, by decide⟩ }
    let result :=
      hq false ⟨0, 5⟩ ⟨repeatedBlock, 2 ^ 17 - 1⟩ (HqParams.new config .q11) none repeatedMatches
        ⟨flatCosts, fun _ => flatCosts⟩ {} []
    result.map (·.2.length) = some 1 ∧
      BlockReconstructs ⟨⟨fun _ => 0, 0⟩, {},
        none⟩ (2 ^ 16 - 16) ((HqParams.new config .q11).dist.layout false)
        (fun _ => 0) repeatedBlock 0 5 {} {} [] result := by
  intro config result
  refine ⟨by decide +kernel, ?_⟩
  exact hq_reconstructs config .q11 none ⟨⟨fun _ => 0, 0⟩, {},
    none⟩ (fun _ => 0) repeatedBlock 0 ⟨0, 5⟩
    ⟨repeatedBlock, 2 ^ 17 - 1⟩ false false repeatedMatches ⟨flatCosts, fun _ => flatCosts⟩ {}
      {} [] rfl (by decide)
    (.inl rfl) rfl (by decide) rfl (by decide) (by decide) repeatedBlock_holds
    (fun i _ m hm => repeatedMatches_true _ i m hm)
    ⟨flatCosts_finite, fun _ => flatCosts_finite⟩
    agrees_initial (by decide) (by decide)

/-- A block of six bytes, and the match from its third on. -/
def pairedBlock : List UInt8 := [97, 98, 97, 98, 97, 98]

def pairedMatches (i : ℕ) : List BackwardMatch := if i = 2 then [.new 2 4] else []

theorem pairedMatches_true (env : Env) (i : ℕ) (m : BackwardMatch) (hm : m ∈ pairedMatches i) :
    m.True env (2 ^ 16 - 16) (fun _ => 0) pairedBlock 0 6 i := by
  rw [pairedMatches] at hm
  by_cases h2 : i = 2
  · subst h2
    rw [if_pos rfl, List.mem_singleton] at hm
    subst hm
    exact ⟨by decide, by decide, by decide, by decide,
      .inl ⟨by decide, by decide, by decide, by decide⟩⟩
  · rw [if_neg h2] at hm
    cases hm

theorem pairedBlock_holds : Window.Holds ⟨pairedBlock, 2 ^ 17 - 1⟩ (2 ^ 16 - 16) pairedBlock
    (wrapPosition 0) 0 6 := by
  intro q i _ hq _
  have hzero : wrapPosition 0 = 0 := rfl
  rw [hzero] at hq ⊢
  rw [Nat.and_two_pow_sub_one_eq_mod, Nat.mod_eq_of_lt (by omega), Nat.zero_add, Nat.sub_zero]

/-- A literal that costs as much as a stub lets the stub be queued, and the path runs
through it. -/
theorem hq_stubs_queued :
    let config : CompressParams := { quality := 11, lgwin := ⟨.standard, 16, by decide, by decide⟩ }
    let env : Env := ⟨⟨fun _ => 0, 0⟩, {}, none⟩
    (∀ i, i + 3 < 6 → ∀ m ∈ pairedMatches i,
      m.True env (2 ^ 16 - 16) (fun _ => 0) pairedBlock 0 6 i) ∧
    Window.Holds ⟨pairedBlock, 2 ^ 17 - 1⟩ (2 ^ 16 - 16) pairedBlock (wrapPosition 0) 0 6 ∧
    ¬ BlockReconstructs env (2 ^ 16 - 16) ((HqParams.new config .q11).dist.layout false)
      (fun _ => 0) pairedBlock 0 6 {} {} []
      (hq false ⟨0, 6⟩ ⟨pairedBlock, 2 ^ 17 - 1⟩ (HqParams.new config .q11) none pairedMatches
        ⟨stubCosts, fun _ => stubCosts⟩ {} []) := by
  intro config env
  refine ⟨fun i _ m hm => pairedMatches_true _ i m hm, pairedBlock_holds, ?_⟩
  have hrun :
    ((hq false ⟨0, 6⟩ ⟨pairedBlock, 2 ^ 17 - 1⟩ (HqParams.new config .q11) none pairedMatches
      ⟨stubCosts, fun _ => stubCosts⟩ {} []).map fun r =>
        match replayFrom ⟨⟨fun _ => 0, 0⟩, {}, none⟩ (2 ^ 16 - 16)
          ((HqParams.new config .q11).dist.layout false)
          (fun _ => 0) pairedBlock 0 ⟨[], {}⟩ r.2 with
        | .ok s => s.history.length
        | .error _ => 0) = some 15 := by
    decide +kernel
  rintro ⟨state, new, hresult, -, -, cache, hreplay, -⟩
  have hreplay' : replayFrom ⟨⟨fun _ => 0, 0⟩, {}, none⟩ (2 ^ 16 - 16)
      ((HqParams.new config .q11).dist.layout false) (fun _ => 0) pairedBlock 0 ⟨[], {}⟩ new =
      .ok ⟨pairedBlock.take (0 + 6 - state.lastInsertLen), cache⟩ := hreplay
  -- The stub at the first byte comes out as a word of ten bytes.
  rw [hresult, Option.map_some, List.nil_append, hreplay', Option.some.injEq] at hrun
  have hlength : (pairedBlock.take (0 + 6 - state.lastInsertLen)).length ≤ 6 := by
    rw [List.length_take]
    exact Nat.min_le_right _ _
  have hrun' : (pairedBlock.take (0 + 6 - state.lastInsertLen)).length = 15 := hrun
  omega

end

end Mbrotli.Compressor
