/-
# Matching an attached prefix dictionary

`findMatch` improves a match finder's result with the attachments, one after the other,
and `findAllMatches` collects every match longer than the ones before. A candidate is
measured inside its attachment only. The kernel that measures it is the exact
`commonPrefixLen`.

Every candidate of an index lies in the source it was built from, so what is reported
addresses the bytes that were compared (`Found`).

Key definitions: `SharedContextInner`, `findMatch`, `findAllMatches`, `Found`.
Key theorems: `found_of_offset`, `findInAttachment_reports`, `collectFrom_collected`,
`preparedPrefix_exact`.
-/
import Mbrotli.Compressor.Core.Greedy.BackwardReferences
import Mbrotli.Compressor.Core.Rfc9841.PrefixSources
import Mbrotli.Compressor.Core.Rfc9841.Prepared
import Mbrotli.Shared.MatchLen

namespace Mbrotli.Compressor.Rfc9841

def scoreBase : ℕ := 1920

/-- The score of copying `copyLength` bytes from `offset` back. -/
def backwardReferenceScore (copyLength offset : ℕ) : ℕ :=
  scoreBase + 135 * copyLength - 30 * Nat.log2 offset

/-- The score of a copy that reuses a cached distance. -/
def backwardReferenceScoreUsingLastDistance (copyLength : ℕ) : ℕ :=
  135 * copyLength + scoreBase + 15

/-- The penalty for a cache slot other than the first. -/
def backwardReferencePenaltyUsingLastDistance (index : ℕ) : ℕ :=
  39 + ((0x1CA10 >>> (index &&& 0xE)) &&& 0xE)

/-- The shortest match the chain walk accepts. -/
def minChainMatch : ℕ := 4

/-- The shortest match the cached-distance probe accepts. -/
def minCachedMatch : ℕ := 2

/-- The length the chain walk pre-filters four bytes ending at, at minimum. -/
def minPrefilterLen : ℕ := 3

/-- How many cached distances the probe tries. -/
def cachedDistances : ℕ := 4

/-- The attached dictionaries with one index each. -/
structure SharedContextInner where
  sources : PrefixSources
  prefixes : List PreparedPrefix

/-- Prepares one index for each attachment. -/
def prepareAll : List (List UInt8) → Option (List PreparedPrefix)
  | [] => some []
  | segment :: segments => do
    let index ← PreparedPrefix.new segment
    let rest ← prepareAll segments
    return index :: rest

def SharedContextInner.new (attachments : List (List UInt8)) : Option SharedContextInner :=
  (prepareAll attachments).map fun prefixes => ⟨.new attachments, prefixes⟩

/-- Where a search looks: the bytes at the position, and its bounds. -/
structure Aim where
  target : List UInt8
  curIxMasked : ℕ
  ringBufferMask : ℕ
  maxLength : ℕ
  maxDistance : ℕ

/-- The best match so far. -/
structure Best where
  score : ℕ
  len : ℕ
  out : SearchResult

/-- Measures a cached distance that reaches into the attachment. -/
def probeCached (aim : Aim) (source : List UInt8) (distanceOffset rank : ℕ) (cached : ℤ)
    (best : Best) : Best :=
  let distance := asUsize cached
  if distance ≤ distanceOffset - source.length ∨ distanceOffset < distance then best
  else if source.length < distanceOffset - distance then best
  else
    let candidate := source.drop (distanceOffset - distance)
    let length := commonPrefixLen candidate aim.target (min candidate.length aim.maxLength)
    if length < minCachedMatch then best
    else
      let score := backwardReferenceScoreUsingLastDistance length
      if score ≤ best.score then best
      else
        let score :=
          if rank ≠ 0 then score - backwardReferencePenaltyUsingLastDistance rank else score
        if best.score < score then ⟨score, max best.len length,
          { len := length, distance := distance, score := score }⟩ else best

def probeCache (aim : Aim) (source : List UInt8) (distanceOffset : ℕ) : ℕ → List ℤ → Best → Best
  | _, [], best => best
  | rank, cached :: rest, best =>
    probeCache aim source distanceOffset (rank + 1) rest
    (probeCached aim source distanceOffset rank cached best)

/-- Four bytes from place `i` on, if there are four. -/
def fourAt (l : List UInt8) (i : ℕ) : Option (List UInt8) :=
  if i + 4 ≤ l.length then some ((l.drop i).take 4) else none

/-- Measures a candidate that agrees with the four bytes ending at the best length. -/
def probeItem (aim : Aim) (source : List UInt8) (distanceOffset : ℕ) (best : Best) (offset : ℕ) :
    Best :=
  let distance := distanceOffset - offset
  if aim.maxDistance < distance then best
  else if source.length < offset then best
  else
    let candidate := source.drop offset
    let limit := min candidate.length aim.maxLength
    if aim.ringBufferMask < aim.curIxMasked + best.len ∨ limit ≤ best.len then best
    else
      match fourAt candidate (best.len - minPrefilterLen),
        fourAt aim.target (best.len - minPrefilterLen) with
      | some left, some right =>
        if left ≠ right then best
        else
          let length := commonPrefixLen candidate aim.target limit
          if length < minChainMatch then best
          else
            let score := backwardReferenceScore length distance
            if best.score < score then ⟨score, length,
              { len := length, distance := distance, score := score }⟩ else best
      | _, _ => best

/-- Searches one attachment. -/
def findInAttachment (index : PreparedPrefix) (source data : List UInt8) (ringBufferMask : ℕ)
    (distanceCache : List ℤ)
    (curIx maxLength distanceOffset maxDistance : ℕ) (out : SearchResult) : SearchResult :=
  let curIxMasked := curIx &&& ringBufferMask
  let aim : Aim := ⟨data.drop curIxMasked, curIxMasked, ringBufferMask, maxLength, maxDistance⟩
  if data.length < curIxMasked + 8 then out
  else
    let best :=
      probeCache aim source distanceOffset 0 (distanceCache.take cachedDistances)
        ⟨out.score, out.len, out⟩
    let best := { best with len := max best.len minPrefilterLen }
    ((index.candidates (Bits.leWord (aim.target.take 8))).foldl
      (probeItem aim source distanceOffset) best).out

/-- Improves `out` with the best attached-dictionary match at `curIx`. -/
def SharedContextInner.findMatch (c : SharedContextInner) (data : List UInt8) (ringBufferMask : ℕ)
    (distanceCache : List ℤ)
    (curIx maxLength maxRingBufferDistance maxDistance : ℕ) (out : SearchResult) : SearchResult :=
  let baseOffset := maxRingBufferDistance + c.sources.totalLen
  (List.range c.sources.segmentCount).foldl (fun out attachment =>
    match c.prefixes[attachment]? with
    | none => out
    | some index => findInAttachment index (c.sources.segment attachment) data ringBufferMask
        distanceCache curIx maxLength
        (baseOffset - c.sources.segmentStart attachment) maxDistance out) out

/-- Collects the improving candidates, `matchLimit` of them at most; the count is how
many were collected. -/
def collectFrom (aim : Aim) (source : List UInt8) (distanceOffset matchLimit : ℕ) :
    List ℕ → ℕ → ℕ → List (ℕ × ℕ) → ℕ × List (ℕ × ℕ)
  | [], _, count, found => (count, found)
  | offset :: items, bestLen, count, found =>
    let distance := distanceOffset - offset
    let candidate := source.drop offset
    let limit := min candidate.length aim.maxLength
    if aim.maxDistance < distance ∨ source.length < offset ∨
      aim.ringBufferMask < aim.curIxMasked + bestLen ∨ limit ≤ bestLen ∨
        candidate[bestLen]? ≠ aim.target[bestLen]? then
      collectFrom aim source distanceOffset matchLimit items bestLen count found
    else
      let length := commonPrefixLen candidate aim.target limit
      if bestLen < length then
        if count + 1 = matchLimit then (count + 1, found ++ [(distance, length)])
        else collectFrom aim source distanceOffset matchLimit items length (count + 1)
          (found ++ [(distance, length)])
      else collectFrom aim source distanceOffset matchLimit items bestLen count found

/-- Collects every improving match in one attachment. -/
def findAllInAttachment (index : PreparedPrefix) (source data : List UInt8)
    (ringBufferMask curIx minLength maxLength distanceOffset
    maxDistance matchLimit : ℕ) (found : List (ℕ × ℕ)) : ℕ × List (ℕ × ℕ) :=
  let curIxMasked := curIx &&& ringBufferMask
  let aim : Aim := ⟨data.drop curIxMasked, curIxMasked, ringBufferMask, maxLength, maxDistance⟩
  if matchLimit = 0 then (0, found)
  else if data.length < curIxMasked + 8 then (0, found)
  else collectFrom aim source distanceOffset matchLimit
    (index.candidates (Bits.leWord (aim.target.take 8))) minLength 0 found

/-- The attachments from one on, `k` of them. -/
def SharedContextInner.findAllFrom (c : SharedContextInner) (data : List UInt8)
    (ringBufferMask curIx maxLength maxRingBufferDistance maxDistance matchLimit : ℕ) :
    ℕ → ℕ → ℕ → ℕ → List (ℕ × ℕ) → ℕ × List (ℕ × ℕ)
  | 0, _, _, total, found => (total, found)
  | k + 1, attachment, minLength, total, found =>
    if total = matchLimit then (total, found)
    else
      match c.prefixes[attachment]? with
      | none => c.findAllFrom data ringBufferMask curIx maxLength maxRingBufferDistance maxDistance
          matchLimit k (attachment + 1) minLength total found
      | some index =>
        let (n, found) :=
          findAllInAttachment index (c.sources.segment
    attachment) data ringBufferMask curIx minLength maxLength
          (maxRingBufferDistance + c.sources.totalLen - c.sources.segmentStart attachment)
          maxDistance (matchLimit - total) found
        if total + n = matchLimit then (total + n, found)
        else
          let minLength := match found.getLast? with
            | some last => last.2
            | none => minLength
          c.findAllFrom data ringBufferMask curIx maxLength maxRingBufferDistance maxDistance
            matchLimit k (attachment + 1) minLength (total + n) found

/-- Collects every attached-dictionary match longer than `minLength`, as distance and
length, behind what was found. -/
def SharedContextInner.findAllMatches (c : SharedContextInner) (data : List UInt8)
    (ringBufferMask curIx minLength maxLength maxRingBufferDistance maxDistance matchLimit : ℕ)
    (found : List (ℕ × ℕ)) : ℕ × List (ℕ × ℕ) :=
  c.findAllFrom data ringBufferMask curIx maxLength maxRingBufferDistance maxDistance matchLimit
    c.sources.segmentCount 0 minLength 0 found

/-! ### What is reported -/

/-- A reported match: its distance reaches into the prefix and resolves to the byte of an
attachment it was found at, whose bytes are those at the position. -/
structure Found (p : PrefixSources) (target : List UInt8)
    (maxLength maxRingBufferDistance distance length : ℕ)
    (attachment offset : ℕ) : Prop where
  located : p.locate (p.segmentStart attachment + offset) = some (attachment, offset)
  range : maxRingBufferDistance < distance ∧ distance ≤ maxRingBufferDistance + p.totalLen
  address : p.addressOf distance maxRingBufferDistance = some (p.segmentStart attachment + offset)
  length_pos : 0 < length
  length_le : length ≤ maxLength
  inside : offset + length ≤ (p.segment attachment).length
  equal : ((p.segment attachment).drop offset).take length = target.take length
  target : length ≤ target.length

variable {p : PrefixSources} {aim : Aim} {attachment offset maxRing : ℕ}

/-- Measuring a candidate of an attachment gives a match. -/
theorem found_of_offset (aim : Aim) (maxRing : ℕ) (hattach : attachment < p.segments.length)
    (hoffset : offset < (p.segment attachment).length)
    (hpos : 0 < commonPrefixLen ((p.segment attachment).drop offset) aim.target
      (min ((p.segment attachment).drop offset).length aim.maxLength)) :
    Found p aim.target aim.maxLength maxRing
    (maxRing + p.totalLen - p.segmentStart attachment - offset)
      (commonPrefixLen ((p.segment attachment).drop offset) aim.target
        (min ((p.segment attachment).drop offset).length aim.maxLength))
      attachment offset := by
  have hinside := PrefixSources.segmentStart_add_le hattach
  have haddr : p.segmentStart attachment + offset < p.totalLen := by omega
  have hdist : maxRing + p.totalLen - p.segmentStart attachment - offset =
    maxRing + p.totalLen - (p.segmentStart attachment + offset) := by omega
  obtain ⟨hle, hleft, hsame⟩ := commonPrefixLen_spec ((p.segment attachment).drop offset) aim.target
    (min ((p.segment attachment).drop offset).length aim.maxLength)
  set length :=
    commonPrefixLen ((p.segment attachment).drop offset) aim.target
    (min ((p.segment attachment).drop offset).length aim.maxLength)
  rw [List.length_drop] at hleft
  have htarget : length ≤ aim.target.length := by
    by_contra hlt
    have hlast := hsame (length - 1) (by omega)
    rw [List.getElem?_eq_none (show aim.target.length ≤ length - 1 by omega),
      List.getElem?_eq_none_iff, List.length_drop] at hlast
    omega
  refine ⟨PrefixSources.locate_start_add hattach hoffset, ⟨by omega, by omega⟩, ?_, hpos,
    hle.trans (Nat.min_le_right _ _), by omega, ?_, htarget⟩
  · rw [hdist]
    exact PrefixSources.addressOf_distance maxRing haddr
  · apply List.ext_getElem?
    intro i
    by_cases hi : i < length
    · rw [List.getElem?_take_of_lt hi, List.getElem?_take_of_lt hi, hsame i hi]
    · rw [List.getElem?_eq_none (by rw [List.length_take]; omega),
        List.getElem?_eq_none (by rw [List.length_take]; omega)]

/-- The result is the one before, or a match that was reported. -/
def Reports (p : PrefixSources) (target : List UInt8) (maxLength maxRingBufferDistance : ℕ)
    (before out : SearchResult) : Prop :=
  out = before ∨ ∃ attachment offset,
    Found p target maxLength maxRingBufferDistance out.distance out.len attachment offset

theorem Reports.trans {target : List UInt8} {maxLength : ℕ} {out₀ out₁ out₂ : SearchResult}
    (h : Reports p target maxLength maxRing out₀ out₁)
    (h' : Reports p target maxLength maxRing out₁ out₂) :
    Reports p target maxLength maxRing out₀ out₂ := by
  rcases h' with rfl | h'
  · exact h
  · exact .inr h'

variable {out : SearchResult}

theorem probeCached_reports (hattach : attachment < p.segments.length) (rank : ℕ)
    (cached : ℤ) (best : Best)
    (h : Reports p aim.target aim.maxLength maxRing out best.out) :
    Reports p aim.target aim.maxLength maxRing out
      (probeCached aim (p.segment attachment) (maxRing + p.totalLen - p.segmentStart attachment)
        rank cached best).out := by
  have hinside := PrefixSources.segmentStart_add_le hattach
  rw [probeCached]
  dsimp only
  split
  · exact h
  · next hrange =>
    rw [not_or] at hrange
    set distance := asUsize cached
    set distanceOffset := maxRing + p.totalLen - p.segmentStart attachment with hoff
    split
    · exact h
    · split
      · exact h
      · next hlen =>
        have hoffset : distanceOffset - distance < (p.segment attachment).length := by omega
        have hdist : distanceOffset - (distanceOffset - distance) = distance := by omega
        have hfound :=
          found_of_offset aim maxRing hattach hoffset (by rw [minCachedMatch] at hlen; omega)
        rw [← hoff, hdist] at hfound
        split
        · exact h
        · -- the score depends on the rank, the match does not
          split
          · split
            · exact .inr ⟨attachment, _, hfound⟩
            · exact h
          · split
            · exact .inr ⟨attachment, _, hfound⟩
            · exact h

theorem probeCache_reports (hattach : attachment < p.segments.length) (rank : ℕ)
    (cache : List ℤ) (best : Best)
    (h : Reports p aim.target aim.maxLength maxRing out best.out) :
    Reports p aim.target aim.maxLength maxRing out
      (probeCache aim (p.segment attachment) (maxRing + p.totalLen - p.segmentStart attachment) rank
        cache best).out := by
  induction cache generalizing rank best with
  | nil => exact h
  | cons cached cache ih => exact ih _ _ (probeCached_reports hattach rank cached best h)

theorem probeItem_reports (hattach : attachment < p.segments.length)
    (hoffset : offset < (p.segment attachment).length) (best : Best)
    (h : Reports p aim.target aim.maxLength maxRing out best.out) :
    Reports p aim.target aim.maxLength maxRing out
      (probeItem aim (p.segment attachment) (maxRing + p.totalLen - p.segmentStart attachment) best
        offset).out := by
  rw [probeItem]
  dsimp only
  split
  · exact h
  · split
    · exact h
    · split
      · exact h
      · split
        · split
          · exact h
          · split
            · exact h
            · next hlen =>
              have hfound :=
                found_of_offset aim maxRing hattach hoffset (by rw [minChainMatch] at hlen; omega)
              split
              · exact .inr ⟨attachment, _, hfound⟩
              · exact h
        · exact h

theorem probeItems_reports (hattach : attachment < p.segments.length) {items : List ℕ}
    (hitems : ∀ o ∈ items, o < (p.segment attachment).length)
    (best : Best) (h : Reports p aim.target aim.maxLength maxRing out best.out) :
    Reports p aim.target aim.maxLength maxRing out
      (items.foldl (probeItem aim (p.segment attachment)
        (maxRing + p.totalLen - p.segmentStart attachment)) best).out := by
  induction items generalizing best with
  | nil => exact h
  | cons o items ih =>
    exact ih (fun x hx => hitems x (List.mem_cons_of_mem _ hx)) _
      (probeItem_reports hattach (hitems o List.mem_cons_self) best h)

/-- The candidates of an index lie in its source. -/
def Inside (source : List UInt8) (index : PreparedPrefix) : Prop :=
  ∀ head, ∀ o ∈ index.candidates head, o < source.length

variable {index : PreparedPrefix} {data : List UInt8} {mask curIx maxLength maxDistance : ℕ}

theorem findInAttachment_reports (hattach : attachment < p.segments.length)
    (hindex : Inside (p.segment attachment) index)
    (cache : List ℤ) (out : SearchResult) :
    Reports p (data.drop (curIx &&& mask)) maxLength maxRing out
      (findInAttachment index (p.segment attachment) data mask cache curIx maxLength
        (maxRing + p.totalLen - p.segmentStart attachment)
        maxDistance out) := by
  rw [findInAttachment]
  dsimp only
  split
  · exact .inl rfl
  · set aim : Aim := ⟨data.drop (curIx &&& mask), curIx &&& mask, mask, maxLength, maxDistance⟩
    show Reports p aim.target aim.maxLength maxRing out _
    refine probeItems_reports hattach (fun o ho => hindex _ o ho) _ ?_
    exact probeCache_reports hattach 0 _ ⟨out.score, out.len, out⟩ (.inl rfl)

/-- The context has one index for each attachment, each of candidates inside it. -/
structure SharedContextInner.Prepared (c : SharedContextInner) : Prop where
  inside : ∀ attachment index, c.prefixes[attachment]? = some index →
    attachment < c.sources.segments.length → Inside (c.sources.segment attachment) index

variable {c : SharedContextInner}

theorem findMatch_reports (h : c.Prepared) (cache : List ℤ) (out : SearchResult) :
    Reports c.sources (data.drop (curIx &&& mask)) maxLength maxRing out
    (c.findMatch data mask cache curIx maxLength maxRing maxDistance out) := by
  have hstep : ∀ attachments : List ℕ, (∀ a ∈ attachments, a < c.sources.segments.length) → ∀ out₁,
      Reports c.sources (data.drop (curIx &&& mask)) maxLength maxRing out out₁ →
      Reports c.sources (data.drop (curIx &&& mask)) maxLength maxRing out
        (attachments.foldl (fun out attachment =>
          match c.prefixes[attachment]? with
          | none => out
          | some index => findInAttachment index (c.sources.segment attachment) data mask cache
              curIx maxLength
              (maxRing + c.sources.totalLen - c.sources.segmentStart attachment) maxDistance out)
                  out₁) := by
    intro attachments
    induction attachments with
    | nil => exact fun _ _ hout => hout
    | cons a attachments ih =>
      intro hmem out₁ hout
      rw [List.foldl_cons]
      refine ih (fun x hx => hmem x (List.mem_cons_of_mem _ hx)) _ ?_
      have ha := hmem a List.mem_cons_self
      split
      · exact hout
      · next index hindex =>
          exact hout.trans (findInAttachment_reports ha (h.inside a index hindex ha) cache out₁)
  exact hstep _ (fun a ha => List.mem_range.1 ha) out (.inl rfl)

/-! ### What is collected -/

/-- Collected matches: each is true, and longer than the ones before. -/
structure Collected (p : PrefixSources) (target : List UInt8) (maxLength maxRingBufferDistance : ℕ)
    (new : List (ℕ × ℕ)) : Prop where
  found : ∀ m ∈ new, ∃ attachment offset,
    Found p target maxLength maxRingBufferDistance m.1 m.2 attachment offset
  longer : new.Pairwise fun m m' => m.2 < m'.2

theorem Collected.nil (p : PrefixSources) (target : List UInt8) (maxLength maxRing : ℕ) :
    Collected p target maxLength maxRing [] :=
  ⟨fun _ h => (nomatch h), .nil⟩

theorem Collected.append {target : List UInt8} {new more : List (ℕ × ℕ)}
    (h : Collected p target maxLength maxRing new)
    (h' : Collected p target maxLength maxRing more)
    (hlonger : ∀ m ∈ new, ∀ m' ∈ more, m.2 < m'.2) :
    Collected p target maxLength maxRing (new ++ more) := by
  refine ⟨fun m hm => ?_, List.pairwise_append.2 ⟨h.longer, h'.longer, hlonger⟩⟩
  exact (List.mem_append.1 hm).elim (h.found m) (h'.found m)

/-- The last match collected is the longest. -/
theorem Collected.le_last {target : List UInt8} {all : List (ℕ × ℕ)}
    (h : Collected p target maxLength maxRing all) {m : ℕ × ℕ} (hm : m ∈ all)
    (found₀ : List (ℕ × ℕ)) : ∃ last, (found₀ ++ all).getLast? = some last ∧ m.2 ≤ last.2 := by
  rcases List.eq_nil_or_concat all with rfl | ⟨init, last, rfl⟩
  · exact nomatch hm
  · rw [List.concat_eq_append] at hm h ⊢
    refine ⟨last, by rw [← List.append_assoc, List.getLast?_concat], ?_⟩
    rcases List.mem_append.1 hm with hm | hm
    · exact ((List.pairwise_append.1 h.longer).2.2 m hm last (List.mem_singleton_self last)).le
    · rw [List.mem_singleton.1 hm]

theorem collectFrom_collected (aim : Aim) (maxRing : ℕ) (hattach : attachment < p.segments.length)
    {items : List ℕ} (hitems : ∀ o ∈ items, o < (p.segment attachment).length)
    {matchLimit : ℕ} (bestLen count : ℕ) (found : List (ℕ × ℕ)) (hcount : count < matchLimit) :
    ∃ new, collectFrom aim (p.segment attachment)
    (maxRing + p.totalLen - p.segmentStart attachment) matchLimit items bestLen count found =
        (count + new.length, found ++ new) ∧
      count + new.length ≤ matchLimit ∧ Collected p aim.target aim.maxLength maxRing new ∧
      ∀ m ∈ new, bestLen < m.2 := by
  induction items generalizing bestLen count found with
  | nil => exact ⟨[], by rw [collectFrom, List.append_nil]; rfl, hcount.le, .nil _ _ _ _,
      fun _ h => (nomatch h)⟩
  | cons o items ih =>
    have hrest := fun x hx => hitems x (List.mem_cons_of_mem o hx)
    rw [collectFrom]
    dsimp only
    split
    · exact ih hrest bestLen count found hcount
    · split
      · next hlonger =>
        have hfound := found_of_offset aim maxRing hattach (hitems o List.mem_cons_self) (by omega)
        set m : ℕ × ℕ := (maxRing + p.totalLen - p.segmentStart attachment - o,
          commonPrefixLen ((p.segment attachment).drop o) aim.target
          (min ((p.segment attachment).drop o).length aim.maxLength)) with hm
        have hone : Collected p aim.target aim.maxLength maxRing [m] := by
          refine ⟨fun x hx => ?_, List.pairwise_singleton _ _⟩
          rw [List.mem_singleton.1 hx]
          exact ⟨attachment, o, hfound⟩
        split
        · exact ⟨[m], rfl, hcount, hone, fun x hx => by rw [List.mem_singleton.1 hx]; exact hlonger⟩
        · next hlimit =>
          obtain ⟨new, hrun, hle, hnew, hmore⟩ := ih hrest m.2 (count + 1) (found ++ [m]) (by omega)
          refine ⟨m :: new, ?_, ?_, hone.append hnew (fun x hx y hy => ?_), fun x hx => ?_⟩
          · rw [hrun, List.append_assoc, List.length_cons]
            congr 1
            omega
          · rw [List.length_cons]
            omega
          · rw [List.mem_singleton.1 hx]
            exact hmore y hy
          · rcases List.mem_cons.1 hx with rfl | hx
            · exact hlonger
            · exact hlonger.trans (hmore x hx)
      · exact ih hrest bestLen count found hcount

theorem findAllInAttachment_collected (hattach : attachment < p.segments.length)
    (hindex : Inside (p.segment attachment) index)
    {matchLimit : ℕ} (minLength : ℕ) (found : List (ℕ × ℕ)) :
    ∃ new, findAllInAttachment index (p.segment attachment) data mask curIx minLength maxLength
        (maxRing + p.totalLen - p.segmentStart attachment) maxDistance matchLimit found =
        (new.length, found ++ new) ∧
      new.length ≤ matchLimit ∧ Collected p (data.drop (curIx &&& mask)) maxLength maxRing new ∧
      ∀ m ∈ new, minLength < m.2 := by
  rw [findAllInAttachment]
  dsimp only
  have hnone : ((0, found) : ℕ × List (ℕ × ℕ)) = (([] : List (ℕ × ℕ)).length, found ++ []) := by
    rw [List.append_nil]; rfl
  split
  · exact ⟨[], hnone, Nat.zero_le _, .nil _ _ _ _, fun _ h => (nomatch h)⟩
  · split
    · exact ⟨[], hnone, Nat.zero_le _, .nil _ _ _ _, fun _ h => (nomatch h)⟩
    · next hlimit _ =>
      set aim : Aim := ⟨data.drop (curIx &&& mask), curIx &&& mask, mask, maxLength, maxDistance⟩
      obtain ⟨new, hrun, hle, hnew, hmore⟩ :=
        collectFrom_collected aim maxRing hattach (fun o ho => hindex _ o ho) minLength 0 found
          (Nat.pos_of_ne_zero hlimit)
      rw [Nat.zero_add] at hrun hle
      exact ⟨new, hrun, hle, hnew, hmore⟩

/-- The attachments from one on go on with longer matches. -/
theorem findAllFrom_collected (h : c.Prepared) {matchLimit : ℕ} {found₀ : List (ℕ × ℕ)}
    (k attachment minLength total : ℕ) (new : List (ℕ × ℕ))
    (hk : attachment + k ≤ c.sources.segments.length) (hle : total ≤ matchLimit)
    (htotal : total = new.length)
    (hnew : Collected c.sources (data.drop (curIx &&& mask)) maxLength maxRing new)
    (hmin : ∀ m ∈ new, m.2 ≤ minLength) :
    ∃ all, c.findAllFrom data mask curIx maxLength maxRing maxDistance matchLimit k attachment
    minLength total (found₀ ++ new) =
        (all.length, found₀ ++ all) ∧
      all.length ≤ matchLimit ∧ Collected c.sources
      (data.drop (curIx &&& mask)) maxLength maxRing all := by
  induction k generalizing attachment minLength total new with
  | zero => exact ⟨new, by rw [SharedContextInner.findAllFrom, htotal], htotal ▸ hle, hnew⟩
  | succ k ih =>
    rw [SharedContextInner.findAllFrom]
    split
    · exact ⟨new, by rw [htotal], htotal ▸ hle, hnew⟩
    · split
      · exact ih (attachment + 1) minLength total new (by omega) hle htotal hnew hmin
      · next index hindex =>
        have hattach : attachment < c.sources.segments.length := by omega
        obtain ⟨more, hrun, hmore, hcollected, hlonger⟩ : ∃ more,
          findAllInAttachment index (c.sources.segment attachment) data mask curIx minLength
              maxLength (maxRing + c.sources.totalLen - c.sources.segmentStart attachment)
              maxDistance (matchLimit - total) (found₀ ++ new) =
              (more.length, found₀ ++ new ++ more) ∧ more.length ≤ matchLimit - total ∧
            Collected c.sources (data.drop (curIx &&& mask)) maxLength maxRing more ∧ ∀ m ∈ more,
            minLength < m.2 :=
          findAllInAttachment_collected hattach
            (h.inside attachment index hindex hattach) minLength _
        have hall : Collected c.sources (data.drop (curIx &&& mask)) maxLength maxRing
            (new ++ more) :=
          hnew.append hcollected fun m hm m' hm' => (hmin m hm).trans_lt (hlonger m' hm')
        have hsum : total + more.length = (new ++ more).length := by rw [List.length_append, htotal]
        rw [hrun]
        dsimp only
        rw [List.append_assoc]
        split
        · exact ⟨new ++ more, by rw [hsum], by omega, hall⟩
        · refine ih (attachment + 1) _ (total + more.length) (new ++ more) (by omega)
            (by omega) hsum hall ?_
          intro m hm
          obtain ⟨last, hlast, hmlast⟩ := hall.le_last hm found₀
          rw [hlast]
          exact hmlast

/-! ### The prepared context -/

theorem shapeFrom_range (size steps bucketBits slotBits volume : ℕ) :
    bucketBits ≤ (shapeFrom size steps bucketBits slotBits volume).1 ∧
      (shapeFrom size steps bucketBits slotBits volume).1 ≤ bucketBits + steps ∧
      (shapeFrom size steps bucketBits slotBits volume).2 ≤ slotBits + steps := by
  induction steps generalizing bucketBits slotBits volume with
  | zero => exact ⟨Nat.le_refl _, Nat.le_refl _, Nat.le_refl _⟩
  | succ steps ih =>
    rw [shapeFrom]
    split
    · obtain ⟨h1, h2, h3⟩ := ih (bucketBits + 1) (slotBits + 1) (volume * 2)
      omega
    · exact ⟨Nat.le_refl _, Nat.le_add_right _ _, Nat.le_add_right _ _⟩

theorem Exact.inside {source : List UInt8} {bucketBits slotBits : ℕ} {cap : ℕ → ℕ}
    (h : Exact source bucketBits slotBits index cap)
    (hsource : hashInputBytes ≤ source.length) : Inside source index := by
  intro head o ho
  rw [h.candidates] at ho
  have hlt := (mem_occurrences.1 (List.mem_of_mem_take ho)).1
  rw [windows] at hlt
  rw [hashInputBytes] at hsource hlt
  omega

theorem new_inside {source : List UInt8} (hsource : source.length < 2 ^ 31) :
    ∃ index, PreparedPrefix.new source = some index ∧ Inside source index := by
  rw [PreparedPrefix.new]
  split
  · exact ⟨_, rfl, fun head o ho => (nomatch ho)⟩
  · next hshort =>
    obtain ⟨hpos, hbucket, hslot⟩ := shapeFrom_range source.length (22 - 17) 17 7 (16 * 2 ^ 17)
    obtain ⟨index, cap, hrun, hexact⟩ :=
      withShape_exact hsource (show 0 < (shapeFor source.length).1 by rw [shapeFor]; omega)
        (by rw [shapeFor]; omega) (show (shapeFor source.length).2 < 64 by rw [shapeFor]; omega)
    exact ⟨index, hrun, hexact.inside (Nat.le_of_not_lt hshort)⟩

theorem prepareAll_inside {segments : List (List UInt8)}
    (h : ∀ segment ∈ segments, segment.length < 2 ^ 31) :
    ∃ prefixes, prepareAll segments = some prefixes ∧ List.Forall₂ Inside segments prefixes := by
  induction segments with
  | nil => exact ⟨[], rfl, .nil⟩
  | cons segment segments ih =>
    obtain ⟨index, hnew, hinside⟩ := new_inside (h segment List.mem_cons_self)
    obtain ⟨rest, hrest, hall⟩ := ih fun s hs => h s (List.mem_cons_of_mem _ hs)
    refine ⟨index :: rest, ?_, .cons hinside hall⟩
    rw [prepareAll, hnew, Option.bind_eq_bind, Option.bind_some, hrest]
    rfl

/-- Preparing attachments ends, with indexes of them. -/
theorem new_prepared {segments : List (List UInt8)}
    (h : ∀ segment ∈ segments, segment.length < 2 ^ 31) :
    ∃ c, SharedContextInner.new segments = some c ∧ c.sources = .new segments ∧ c.Prepared := by
  obtain ⟨prefixes, hrun, hall⟩ := prepareAll_inside h
  refine ⟨⟨.new segments, prefixes⟩, by rw [SharedContextInner.new, hrun]; rfl, rfl,
    ⟨fun attachment index hindex hattach => ?_⟩⟩
  obtain ⟨hlength, hget⟩ := List.forall₂_iff_get.1 hall
  obtain ⟨hlt, rfl⟩ := List.getElem?_eq_some_iff.1 hindex
  have hinside := hget attachment hattach hlt
  have hsegment : (PrefixSources.new segments).segment attachment =
      segments.get ⟨attachment, hattach⟩ := by
    rw [PrefixSources.segment, List.getD_eq_getElem?_getD, List.getElem?_eq_getElem hattach,
      Option.getD_some]
    rfl
  rw [hsegment]
  exact hinside

/-- The index of a source is exact in every shape. What the searches report over prepared
attachments resolves to the bytes it was found at, and what is collected grows in length. -/
theorem preparedPrefix_exact {source : List UInt8} {bucketBits slotBits matchLimit minLength : ℕ}
    {segments : List (List UInt8)} {cache : List ℤ}
    {found : List (ℕ × ℕ)} (hsource : source.length < 2 ^ 31) (hpos : 0 < bucketBits)
    (hbits : bucketBits < 64) (hslots : slotBits < 64)
    (hsegments : ∀ segment ∈ segments, segment.length < 2 ^ 31) :
    (∃ p cap, withShape source bucketBits slotBits = some p ∧
      Exact source bucketBits slotBits p cap) ∧
      ∃ c, SharedContextInner.new segments = some c ∧ c.sources = .new segments ∧
        Reports c.sources (data.drop (curIx &&& mask)) maxLength maxRing out
        (c.findMatch data mask cache curIx maxLength maxRing maxDistance out) ∧
        ∃ new, c.findAllMatches data mask curIx minLength maxLength maxRing maxDistance matchLimit
        found = (new.length, found ++ new) ∧
          new.length ≤ matchLimit ∧ Collected c.sources
          (data.drop (curIx &&& mask)) maxLength maxRing new := by
  refine ⟨withShape_exact hsource hpos hbits hslots, ?_⟩
  obtain ⟨c, hrun, hsources, hprepared⟩ := new_prepared hsegments
  refine ⟨c, hrun, hsources, findMatch_reports hprepared cache out, ?_⟩
  rw [SharedContextInner.findAllMatches]
  conv in (c.findAllFrom _ _ _ _ _ _ _ _ _ _ _ found) => rw [← List.append_nil found]
  exact findAllFrom_collected hprepared c.sources.segments.length 0 minLength 0 [] (by omega)
    (Nat.zero_le matchLimit) rfl
    (.nil _ _ _ _) (fun _ h => (nomatch h))

theorem preparedPrefix_exact_run :
    let data : List UInt8 := [1, 2, 3, 4, 5, 6, 7, 8, 9, 0]
    let segments := [[], data ++ data]
    (∃ p cap, withShape (List.replicate 10 7) 3 1 = some p ∧
      Exact (List.replicate 10 7) 3 1 p cap) ∧
      ∃ c, SharedContextInner.new segments = some c ∧ c.sources = .new segments ∧
        Reports c.sources (data.drop (0 &&& 15)) 10 100 {}
        (c.findMatch data 15 [120] 0 10 100 1000 {}) ∧
        ∃ new, c.findAllMatches data 15 0 3 10 100 1000 4 [] = (new.length, [] ++ new) ∧
          new.length ≤ 4 ∧ Collected c.sources (data.drop (0 &&& 15)) 10 100 new := by
  intro data segments
  refine preparedPrefix_exact (by decide) (by decide) (by decide) (by decide) ?_
  decide

/-- Of ten equal bytes, the three windows are found newest first. -/
example : (withShape (List.replicate 10 7) 3 1).map
    (fun p => p.candidates (Bits.leWord (List.replicate 8 7))) = some [2, 1, 0] := by
  decide +kernel

end Mbrotli.Compressor.Rfc9841
