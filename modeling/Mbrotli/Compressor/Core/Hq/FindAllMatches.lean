/-
# Every match worth considering

A search scans the recent positions, walks the tree and asks the static dictionary for
longer words; a store only walks. Over any run of these calls, at positions that grow
and lie below the empty marker, every search leaves true matches of growing length
(`findAllMatches_run`), whatever earlier streams left in the table. From the marker on
an empty link leads to a position, and a false match is recorded
(`emptyMarker_found`).

Key definitions: `findAllMatches`, `Call.step`, `runCalls`, `Searched`.
Key theorems: `wordsFrom_growing`, `findAllMatches_sound`, `Call.step_sound`,
`findAllMatches_run`.
-/
import Mbrotli.Compressor.Core.Hq.BinaryTree

namespace Mbrotli.Compressor.BinaryTree

variable (m : BinaryTreeMatcher)

def invalidMatch : ℕ := 0x0FFFFFFF

def maxStaticDictionaryMatchLen : ℕ := 37

/-- The dictionary matches of `k` lengths, as distance, length and length code. -/
def wordsFrom (table : List ℕ) (dictionaryDistance maxDistance : ℕ) : ℕ → ℕ → List (ℕ × ℕ × ℕ)
  | 0, _ => []
  | k + 1, length =>
    match table[length]? with
    | none => wordsFrom table dictionaryDistance maxDistance k (length + 1)
    | some packed =>
      let distance := dictionaryDistance + (packed >>> 5) + 1
      if invalidMatch ≤ packed ∨ maxDistance < distance
        then wordsFrom table dictionaryDistance maxDistance k (length + 1)
      else (distance, length, packed &&& 31) :: wordsFrom table dictionaryDistance maxDistance
        k (length + 1)

/-- What a search is given beside its place. `words` looks the bytes up in the static
dictionary: the smallest packed word of each length, if there is any. -/
structure Query where
  maxBackward : ℕ
  dictionaryDistance : ℕ
  maxDistance : ℕ
  shortScan : ℕ

/-- Collects every match worth considering. -/
def findAllMatches (words : List UInt8 → ℕ → ℕ → Option (List ℕ)) (p : Place) (q : Query)
    (found : List BackwardMatch) :
    BinaryTreeMatcher × List BackwardMatch :=
  let s := scanRecentPositions p q.maxBackward q.shortScan found
  let (m, s) := if s.bestLen < p.maxLength
    then storeAndFindMatches m p q.maxBackward true s else (m, s)
  if q.maxDistance < q.dictionaryDistance then (m, s.found)
  else
    let minLen := max (s.bestLen + 1) 4
    match words (p.data.drop p.curIxMasked) minLen p.maxLength with
    | none => (m, s.found)
    | some table =>
      let maxLen := min p.maxLength maxStaticDictionaryMatchLen
      (m,
        s.found ++ (wordsFrom table q.dictionaryDistance q.maxDistance (maxLen + 1 - minLen)
          minLen).map fun w => .dictionary w.1 w.2.1 w.2.2)

/-- The visit of `store`. -/
def storeVisit (data : List UInt8) (mask ix : ℕ) : Visit :=
  ⟨⟨data, mask, ix, maxTreeCompLength⟩, m.windowMask - windowGap + 1⟩

/-- Every eighth position from one on, `fuel` of them at most. -/
def strideFrom (stop : ℕ) : ℕ → ℕ → List ℕ
  | 0, _ => []
  | fuel + 1, ix => if ix < stop then ix :: strideFrom stop fuel (ix + 8) else []

/-- The positions `store_range` stores: sparse ones at first, the last sixty-three
densely. -/
def rangePositions (start stop : ℕ) : List ℕ :=
  let denseFrom := if start + 63 ≤ stop then stop - 63 else start
  (if start + 512 ≤ denseFrom then strideFrom denseFrom (denseFrom - start) start else []) ++
    List.range' denseFrom (stop - denseFrom)

/-- The visits of `stitch_to_previous_block`. -/
def stitchVisits (numBytes position : ℕ) (data : List UInt8) (mask : ℕ) : List Visit :=
  if numBytes < 3 ∨ position < maxTreeCompLength then []
  else
    let start := position - maxTreeCompLength + 1
    (List.range' start (min position (start + numBytes) - start)).map fun ix =>
      ⟨⟨data, mask, ix, maxTreeCompLength⟩, m.windowMask - max (windowGap - 1) (position - ix)⟩

/-- A call of the finder. -/
inductive Call where
  | findAll (p : Place) (q : Query) (found : List BackwardMatch)
  | store (data : List UInt8) (mask ix : ℕ)
  | storeRange (data : List UInt8) (mask start stop : ℕ)
  | stitch (numBytes position : ℕ) (data : List UInt8) (mask : ℕ)

/-- The positions a call stores or searches, in order. -/
def Call.visits (m : BinaryTreeMatcher) : Call → List Visit
  | findAll p q _ => [⟨p, q.maxBackward⟩]
  | store data mask ix => [storeVisit m data mask ix]
  | storeRange data mask start stop => (rangePositions start stop).map (storeVisit m data mask)
  | stitch numBytes position data mask => stitchVisits m numBytes position data mask

/-- One call: the matcher it leaves, and the matches a search leaves. -/
def Call.step (words : List UInt8 → ℕ → ℕ → Option (List ℕ)) (m : BinaryTreeMatcher) :
    Call → BinaryTreeMatcher × Option (List BackwardMatch)
  | findAll p q found => let (m, found) := findAllMatches m words p q found; (m, some found)
  | store data mask ix => ((storeVisit m data mask ix).store m, none)
  | storeRange data mask start stop =>
      ((rangePositions start stop).foldl (fun m ix => (storeVisit m data mask ix).store m) m, none)
  | stitch numBytes position data mask =>
      ((stitchVisits m numBytes position data mask).foldl (fun m v => v.store m) m, none)

/-- The calls in turn, with what each of them left. -/
def runCalls (words : List UInt8 → ℕ → ℕ → Option (List ℕ)) (m : BinaryTreeMatcher) :
    List Call → BinaryTreeMatcher × List (Call × Option (List BackwardMatch))
  | [] => (m, [])
  | call :: calls =>
    let (m, left) := call.step words m
    let (m, rest) := runCalls words m calls
    (m, (call, left) :: rest)

variable {m} {m' : BinaryTreeMatcher} {bytes : ℕ → UInt8} {lg n : ℕ} {p : Place} {maxBackward : ℕ}

/-! ### A search -/

/-- The words follow in increasing length. -/
theorem wordsFrom_growing (table : List ℕ) (dictionaryDistance maxDistance k length : ℕ) :
    (wordsFrom table dictionaryDistance maxDistance k length).Pairwise
    (fun w w' => w.2.1 < w'.2.1) ∧
      ∀ w ∈ wordsFrom table dictionaryDistance maxDistance k length, length ≤ w.2.1 ∧
      w.2.1 < length + k ∧ w.2.2 < 32 := by
  induction k generalizing length with
  | zero => exact ⟨.nil, fun _ h => (nomatch h)⟩
  | succ k ih =>
    obtain ⟨hgrow, hall⟩ := ih (length + 1)
    have hskip : ∀ w ∈ wordsFrom table dictionaryDistance maxDistance k (length + 1),
        length ≤ w.2.1 ∧ w.2.1 < length + (k + 1) ∧ w.2.2 < 32 := fun w hw => by
      obtain ⟨h1, h2, h3⟩ := hall w hw
      exact ⟨by omega, by omega, h3⟩
    rw [wordsFrom]
    split
    · exact ⟨hgrow, hskip⟩
    · dsimp only
      split
      · exact ⟨hgrow, hskip⟩
      · refine ⟨List.pairwise_cons.2 ⟨fun w hw => (hall w hw).1, hgrow⟩, fun w hw => ?_⟩
        rcases List.mem_cons.1 hw with rfl | hw
        · exact ⟨Nat.le_refl _, Nat.lt_add_of_pos_right (Nat.succ_pos k),
            Nat.and_le_right.trans_lt (by decide : 31 < 32)⟩
        · exact hskip w hw

/-- The length of a match is read back. -/
theorem length_new {distance length : ℕ} (h : length < 2 ^ 27) :
    (BackwardMatch.new distance length).length = length := by
  rw [BackwardMatch.length, BackwardMatch.new, Nat.shiftLeft_eq, Nat.shiftRight_eq_div_pow]
  dsimp only
  rw [Nat.mod_eq_of_lt (by omega)]
  omega

theorem length_dictionary {distance length lengthCode : ℕ} (h : length < 2 ^ 27)
    (hcode : lengthCode < 32) :
    (BackwardMatch.dictionary distance length lengthCode).length = length := by
  rw [BackwardMatch.length, BackwardMatch.dictionary]
  dsimp only
  have hlow : (if length = lengthCode then 0 else lengthCode) < 2 ^ 5 := by
    split <;> omega
  rw [Nat.shiftLeft_eq, Nat.mod_eq_of_lt (by omega), ← Nat.shiftLeft_eq, Nat.shiftRight_or_distrib,
    Nat.shiftLeft_shiftRight,
    Nat.shiftRight_eq_div_pow, Nat.div_eq_of_lt hlow, Nat.or_zero]

/-- What a search leaves: the matches of the byte walk first, all window matches true,
dictionary words after them, and every match longer than the last. -/
structure Searched (bytes : ℕ → UInt8) (p : Place) (q : Query) (found found' : List BackwardMatch) :
    Prop where
  recent : scanRecentPositions p q.maxBackward q.shortScan found =
    walkFrom p (spanOf p.curIx q.maxBackward q.shortScan) 1 ⟨1, found⟩
  added : ∃ window words : List BackwardMatch, found' = found ++ window ++ words ∧
    (walkFrom p (spanOf p.curIx q.maxBackward q.shortScan) 1 ⟨1, found⟩).found <+: found ++ window ∧
    (∀ b ∈ window, TrueCopy bytes p q.maxBackward b.distance b.length) ∧
    (∀ b ∈ words, ∃ distance length lengthCode, b = .dictionary distance length lengthCode) ∧
    (window ++ words).Pairwise fun b b' => b.length < b'.length

theorem scanRecentPositions_matched {k : ℕ} (hmask : p.mask = 2 ^ k - 1)
    (hsees : Sees bytes p maxBackward) (shortScan : ℕ)
    (found : List BackwardMatch) :
    Matched bytes p maxBackward ⟨1, found⟩ (scanRecentPositions p maxBackward shortScan found) := by
  rw [scanRecentPositions_eq hmask]
  obtain ⟨l, hfound, hgrow, hl⟩ :=
    walkFrom_scanned (p := p) (spanOf p.curIx maxBackward shortScan) 1 ⟨1, found⟩
  refine ⟨l, hfound, hgrow, fun x hx => ?_⟩
  obtain ⟨hpos, hspan, hlen⟩ := hl x hx
  rw [spanOf] at hspan
  have hbehind : x.1 ≤ p.curIx := by omega
  obtain ⟨hle, hsame⟩ := findMatchLength_spec p.data (p.prevIxMasked x.1) p.curIxMasked p.maxLength
  rw [← hlen] at hle hsame
  refine ⟨hpos, by omega, hbehind, hle, fun i hi => ?_⟩
  have hbyte := hsame i hi
  rw [Place.prevIxMasked, wrappingSub_of_le hbehind,
    hsees _ (Nat.sub_le _ _) (by omega) i (hi.trans_le hle), Place.curIxMasked,
    hsees _ (Nat.le_refl _) (by omega) i (hi.trans_le hle)] at hbyte
  exact Option.some.inj hbyte

/-- What a scan found is recorded as it was found, and longer words may follow. -/
theorem Searched.of_matched {q : Query} {found : List BackwardMatch} {s : Scan}
    {ws : List (ℕ × ℕ × ℕ)} {k : ℕ} (hmask : p.mask = 2 ^ k - 1)
    (hback : q.maxBackward < 2 ^ 32) (hshort : p.maxLength < 2 ^ 27)
    (hm : Matched bytes p q.maxBackward ⟨1, found⟩ s)
    (hscan : (scanRecentPositions p q.maxBackward q.shortScan found).found <+: s.found)
    (hgrow : ws.Pairwise fun w w' => w.2.1 < w'.2.1)
    (hws : ∀ w ∈ ws, s.bestLen < w.2.1 ∧ w.2.1 < 2 ^ 27 ∧ w.2.2 < 32) :
    Searched bytes p q found (s.found ++ ws.map fun w => .dictionary w.1 w.2.1 w.2.2) := by
  obtain ⟨l, hfound, hgrows, htrue⟩ := hm
  have hlength : ∀ x ∈ l, (BackwardMatch.new x.1 x.2).length = x.2 :=
    fun x hx => length_new ((htrue x hx).length_le.trans_lt hshort)
  have hword : ∀ w ∈ ws, (BackwardMatch.dictionary w.1 w.2.1 w.2.2).length = w.2.1 :=
    fun w hw => length_dictionary (hws w hw).2.1 (hws w hw).2.2
  refine ⟨scanRecentPositions_eq hmask _ _ _, matchesOf l, _, congrArg (· ++ _) hfound, ?_,
    fun b hb => ?_, fun b hb => ?_, ?_⟩
  · rw [← scanRecentPositions_eq hmask, ← hfound]
    exact hscan
  · obtain ⟨x, hx, rfl⟩ := List.mem_map.1 hb
    have hdistance : (BackwardMatch.new x.1 x.2).distance = x.1 :=
      Nat.mod_eq_of_lt ((htrue x hx).distance_le.trans_lt hback)
    rw [hdistance, hlength x hx]
    exact htrue x hx
  · obtain ⟨w, -, rfl⟩ := List.mem_map.1 hb
    exact ⟨_, _, _, rfl⟩
  · rw [matchesOf, List.pairwise_append, List.pairwise_map, List.pairwise_map]
    refine ⟨hgrows.longer.imp_of_mem fun hx hx' h => ?_, hgrow.imp_of_mem fun hw hw' h => ?_,
      fun b hb b' hb' => ?_⟩
    · rw [hlength _ hx, hlength _ hx']
      exact h
    · rw [hword _ hw, hword _ hw']
      exact h
    · obtain ⟨x, hx, rfl⟩ := List.mem_map.1 hb
      obtain ⟨w, hw, rfl⟩ := List.mem_map.1 hb'
      rw [hlength x hx, hword w hw]
      exact (hgrows.below x hx).trans_lt (hws w hw).1

/-- A search leaves the table in order and true matches of growing length. -/
theorem findAllMatches_sound (h : Sound bytes lg m n) (hlg : 1 ≤ lg) (hlg' : lg ≤ 30)
    (hn : n ≤ p.curIx) {q : Query}
    (hg : Guaranteed bytes lg ⟨p, q.maxBackward⟩) (words : List UInt8 → ℕ → ℕ → Option (List ℕ))
    (found : List BackwardMatch) :
    Sound bytes lg (findAllMatches m words p q found).1 (p.curIx + 1) ∧
    Searched bytes p q found (findAllMatches m words p q found).2 := by
  obtain ⟨k, hmask⟩ : ∃ k, p.mask = 2 ^ k - 1 := hg.ring
  have hback : q.maxBackward < 2 ^ 32 :=
    hg.back.trans_le (Nat.pow_le_pow_right (by decide) (hlg'.trans (by decide)))
  have hshort : p.maxLength < 2 ^ 27 := hg.short
  rw [findAllMatches]
  dsimp only
  set s := scanRecentPositions p q.maxBackward q.shortScan found with hs
  have hscan : Matched bytes p q.maxBackward ⟨1, found⟩ s :=
    scanRecentPositions_matched hmask hg.sees _ _
  -- the tree is asked unless the scan already found all there is
  have hasked : Sound bytes lg (if s.bestLen <
    p.maxLength then storeAndFindMatches m p q.maxBackward true s else (m, s)).1 (p.curIx + 1) ∧
      Matched bytes p q.maxBackward s (if s.bestLen <
        p.maxLength then storeAndFindMatches m p q.maxBackward true s else (m, s)).2 := by
    split
    · exact storeAndFindMatches_sound h hlg hlg' hn hg true s
    · exact ⟨h.mono (hn.trans (Nat.le_succ _)), .refl s⟩
  generalize (if s.bestLen < p.maxLength then storeAndFindMatches m p q.maxBackward true s
    else (m, s)) = r at hasked ⊢
  obtain ⟨m', s'⟩ := r
  obtain ⟨hsound, htree⟩ := hasked
  dsimp only at hsound htree ⊢
  have hall := hscan.trans htree
  have hprefixed : s.found <+: s'.found := by
    obtain ⟨l, hfound, -⟩ := htree
    exact ⟨_, hfound.symm⟩
  have hnone : Searched bytes p q found s'.found := by
    have := @Searched.of_matched bytes p q found s' [] k hmask hback hshort hall hprefixed .nil
      fun _ h => (nomatch h)
    rwa [List.map_nil, List.append_nil] at this
  split
  · exact ⟨hsound, hnone⟩
  · split
    · exact ⟨hsound, hnone⟩
    · next table _ =>
      refine ⟨hsound, .of_matched hmask hback hshort hall hprefixed (wordsFrom_growing _ _ _ _ _).1
        fun w hw => ?_⟩
      obtain ⟨hlow, hhigh, hcode⟩ :=
        (wordsFrom_growing table q.dictionaryDistance q.maxDistance _ _).2 w hw
      exact ⟨by omega, by omega, hcode⟩

/-! ### Runs -/

theorem store_windowMask (v : Visit) (m : BinaryTreeMatcher) :
    (v.store m).windowMask = m.windowMask := rfl

theorem Call.visits_congr (h : m'.windowMask = m.windowMask) (call : Call) :
    call.visits m' = call.visits m := by
  cases call with
  | findAll p q found => rfl
  | store data mask ix => rw [visits, visits, storeVisit, storeVisit, h]
  | storeRange data mask start stop =>
    rw [visits, visits]
    exact List.map_congr_left fun ix _ => by rw [storeVisit, storeVisit, h]
  | stitch numBytes position data mask => rw [visits, visits, stitchVisits, stitchVisits, h]

/-- The visits of a range are the ones of its positions. -/
theorem foldl_storeVisit {data : List UInt8} {mask : ℕ} (h : m'.windowMask = m.windowMask)
    (positions : List ℕ) :
    positions.foldl (fun m ix => (storeVisit m data mask ix).store m) m' =
      (positions.map (storeVisit m data mask)).foldl (fun m v => v.store m) m' := by
  induction positions generalizing m' with
  | nil => rfl
  | cons ix positions ih =>
    rw [List.foldl_cons, List.map_cons, List.foldl_cons, ih (store_windowMask _ m' |>.trans h),
      storeVisit, storeVisit, h]

/-- Positions that are stored one after the other: the table is in order before any
later one. -/
theorem storeAll_sound (hlg : 1 ≤ lg) (hlg' : lg ≤ 30) {visits : List Visit}
    (h : Sound bytes lg m n)
    (hgrow : visits.Pairwise fun v v' => v.place.curIx < v'.place.curIx)
    (hall : ∀ v ∈ visits, n ≤ v.place.curIx ∧ Guaranteed bytes lg v) :
    ∃ n', Sound bytes lg (visits.foldl (fun m v => v.store m) m) n' ∧ ∀ x, n ≤ x →
    (∀ v ∈ visits, v.place.curIx < x) → n' ≤ x := by
  induction visits generalizing m n with
  | nil => exact ⟨n, h, fun x hx _ => hx⟩
  | cons v visits ih =>
    obtain ⟨hlater, hgrow⟩ := List.pairwise_cons.1 hgrow
    obtain ⟨hn, hg⟩ := hall v List.mem_cons_self
    obtain ⟨n', hsound, hmin⟩ :=
      ih (storeAndFindMatches_sound h hlg hlg' hn hg false ⟨0, []⟩).1 hgrow fun w hw =>
      ⟨hlater w hw, (hall w (List.mem_cons_of_mem _ hw)).2⟩
    exact ⟨n', hsound, fun x _ hx => hmin x (hx v List.mem_cons_self) fun w hw =>
      hx w (List.mem_cons_of_mem _ hw)⟩

/-- One call leaves the table in order before any later position. -/
theorem Call.step_sound (hlg : 1 ≤ lg) (hlg' : lg ≤ 30)
    (words : List UInt8 → ℕ → ℕ → Option (List ℕ)) {call : Call}
    (h : Sound bytes lg m n) (hgrow : (call.visits m).Pairwise fun v v' => v.place.curIx <
      v'.place.curIx)
    (hall : ∀ v ∈ call.visits m, n ≤ v.place.curIx ∧ Guaranteed bytes lg v) :
    ∃ n', Sound bytes lg (call.step words m).1 n' ∧ ∀ x, n ≤ x →
    (∀ v ∈ call.visits m, v.place.curIx < x) → n' ≤ x := by
  cases call with
  | findAll p q found =>
    obtain ⟨hn, hg⟩ := hall ⟨p, q.maxBackward⟩ List.mem_cons_self
    exact ⟨_, (findAllMatches_sound h hlg hlg' hn hg words found).1,
      fun x _ hx => hx ⟨p, q.maxBackward⟩ List.mem_cons_self⟩
  | store data mask ix => exact storeAll_sound hlg hlg' h hgrow hall
  | storeRange data mask start stop =>
    rw [step, foldl_storeVisit rfl]
    exact storeAll_sound hlg hlg' h hgrow hall
  | stitch numBytes position data mask => exact storeAll_sound hlg hlg' h hgrow hall

theorem runCalls_sound (hlg : 1 ≤ lg) (hlg' : lg ≤ 30)
    (words : List UInt8 → ℕ → ℕ → Option (List ℕ)) {calls : List Call}
    (h : Sound bytes lg m n) (hgrow : (calls.flatMap (Call.visits m)).Pairwise fun v v' =>
    v.place.curIx < v'.place.curIx)
    (hall : ∀ v ∈ calls.flatMap (Call.visits m), n ≤ v.place.curIx ∧ Guaranteed bytes lg v)
    {q : Query} {found found' : List BackwardMatch}
    (hsearch : (Call.findAll p q found, some found') ∈ (runCalls words m calls).2) :
    Searched bytes p q found found' := by
  induction calls generalizing m n with
  | nil => exact absurd hsearch List.not_mem_nil
  | cons call calls ih =>
    rw [List.flatMap_cons, List.pairwise_append] at hgrow
    rw [List.flatMap_cons] at hall
    obtain ⟨hfirst, hrest, hcross⟩ := hgrow
    have hcall := fun v hv => hall v (List.mem_append_left _ hv)
    obtain ⟨n', hsound, hmin⟩ := call.step_sound hlg hlg' words h hfirst hcall
    have hsame : Call.visits (call.step words m).1 = Call.visits m :=
      funext fun c => c.visits_congr (hsound.mask.trans h.mask.symm)
    rcases List.mem_cons.1 hsearch with heq | hlater
    · obtain ⟨rfl, hfound⟩ := Prod.mk.inj heq
      obtain ⟨hn, hg⟩ := hcall ⟨p, q.maxBackward⟩ List.mem_cons_self
      rw [Option.some.inj hfound]
      exact (findAllMatches_sound h hlg hlg' hn hg words found).2
    · refine ih hsound (by rw [hsame]; exact hrest) (fun v hv => ?_) hlater
      rw [hsame] at hv
      obtain ⟨hn, hg⟩ := hall v (List.mem_append_right _ hv)
      exact ⟨hmin _ hn fun w hw => hcross w hw v hv, hg⟩

/-- On a table that holds whatever earlier streams left, every search of a run leaves the
matches of the byte walk, true window matches and dictionary words, each longer than the
last, as long as the positions grow and stay below the empty marker. -/
theorem findAllMatches_run {lgwin : ℕ} (hmin : 10 ≤ lgwin) (hmax : lgwin ≤ 30)
    (words : List UInt8 → ℕ → ℕ → Option (List ℕ))
    (hmask : m.windowMask = (BinaryTreeMatcher.new lgwin).windowMask)
    (hinvalid : m.invalidPos = (BinaryTreeMatcher.new lgwin).invalidPos)
    (oneShot : Bool) (inputSize : ℕ) {calls : List Call}
    (hgrow : (calls.flatMap (Call.visits m)).Pairwise fun v v' => v.place.curIx < v'.place.curIx)
    (hall : ∀ v ∈ calls.flatMap (Call.visits m), Guaranteed bytes lgwin v) {q : Query}
    {found found' : List BackwardMatch}
    (hsearch : (Call.findAll p q found, some found') ∈
      (runCalls words (m.prepare oneShot inputSize) calls).2) :
    Searched bytes p q found found' := by
  have hwindow : 2 ^ 10 ≤ 2 ^ lgwin := Nat.pow_le_pow_right (by decide) hmin
  rw [BinaryTreeMatcher.new] at hmask hinvalid
  dsimp only at hmask hinvalid
  rw [Nat.mod_eq_of_lt (by omega)] at hinvalid
  have hsame : Call.visits (m.prepare oneShot inputSize) = Call.visits m :=
    funext fun c => c.visits_congr rfl
  refine runCalls_sound (by omega) hmax words (prepare_sound hmask hinvalid oneShot inputSize 0)
    (by rwa [hsame]) (fun v hv => ?_) hsearch
  rw [hsame] at hv
  exact ⟨Nat.zero_le _, hall v hv⟩

/-! ### From the empty marker on -/

/-- Three positions share five bytes, the last sorting between the others; the one before
them shares only what comes later. -/
def markerRing : List UInt8 :=
  [9, 1, 0, 0, 0, 0, 2, 8, 9, 9, 0, 0, 0, 0, 0, 1, 9, 9, 9, 0, 0, 0, 0, 0, 3, 9, 9, 9, 0, 0, 0, 0,
    0, 2, 7] ++ List.replicate 989 9

def markerData : List UInt8 := markerRing ++ markerRing.take 128

def markerBytes (x : ℕ) : UInt8 := markerRing.getD (x % 1024) 9

def markerPlace (start : ℕ) : Place := ⟨markerData, 1023, start + 27, 128⟩

def markerQuery : Query := ⟨1008, 1008, 0, 16⟩

/-- Two positions are stored and a third is searched. -/
def markerCalls (start : ℕ) : List Call :=
  [.store markerData 1023 (start + 9), .store markerData 1023 (start + 18),
    .findAll (markerPlace start) markerQuery []]

theorem markerCalls_visits (start : ℕ) : (markerCalls start).flatMap (Call.visits (.new 10)) =
    [⟨⟨markerData, 1023, start + 9, 128⟩, 1008⟩, ⟨⟨markerData, 1023, start + 18, 128⟩, 1008⟩,
      ⟨markerPlace start, 1008⟩] := rfl

theorem markerData_sees (curIx maxBackward : ℕ) :
    Sees markerBytes ⟨markerData, 1023, curIx, 128⟩ maxBackward := by
  intro q _ _ i hi
  have hlength : markerRing.length = 1024 := by
    rw [markerRing, List.length_append, List.length_replicate]
    rfl
  have hbyte : ∀ x < 1024, markerRing[x]? = some (markerRing.getD x 9) := fun x hx => by
    rw [List.getD_eq_getElem?_getD, List.getElem?_eq_getElem (by omega), Option.getD_some]
  dsimp only at hi ⊢
  rw [show q &&& 1023 = q % 1024 from Nat.and_two_pow_sub_one_eq_mod q 10, markerBytes, markerData]
  rcases Nat.lt_or_ge (q % 1024 + i) 1024 with hinside | hpast
  · rw [List.getElem?_append_left (by omega), hbyte _ hinside, show (q + i) % 1024 =
      q % 1024 + i by omega]
  · rw [List.getElem?_append_right (by omega), hlength, List.getElem?_take_of_lt (by omega),
      hbyte _ (by omega),
      show (q + i) % 1024 = q % 1024 + i - 1024 by omega]

/-- The visits keep every promise but the one about the marker. -/
theorem markerCalls_promised (start : ℕ) :
    ((markerCalls start).flatMap (Call.visits (.new 10))).Pairwise
    (fun v v' => v.place.curIx < v'.place.curIx) ∧
      ∀ v ∈ (markerCalls start).flatMap (Call.visits (.new 10)), v.place.mask = 2 ^ 10 - 1 ∧
      v.maxBackward < 2 ^ 10 ∧
        v.place.maxLength < 2 ^ 27 ∧ v.place.curIx ≤ start + 27 ∧
        Sees markerBytes v.place v.maxBackward := by
  rw [markerCalls_visits]
  constructor
  · simp [markerPlace]
  · intro v hv
    simp only [List.mem_cons, List.not_mem_nil, or_false] at hv
    rcases hv with rfl | rfl | rfl <;>
      exact ⟨rfl, (by decide : 1008 < 2 ^ 10), (by decide : 128 < 2 ^ 27), by simp [markerPlace],
        markerData_sees _ _⟩

/-- What the search leaves. -/
def markerFound (start : ℕ) : Option (List BackwardMatch) :=
  (runCalls (fun _ _ _ => none) ((BinaryTreeMatcher.new 10).prepare false 0)
    (markerCalls start)).2.getLast?.bind (·.2)

theorem markerFound_mem {start : ℕ} {found : List BackwardMatch}
    (h : markerFound start = some found) :
    (Call.findAll (markerPlace start) markerQuery [], some found) ∈
      (runCalls (fun _ _ _ => none) ((BinaryTreeMatcher.new 10).prepare false 0)
        (markerCalls start)).2 := by
  rw [markerFound] at h
  simp only [markerCalls, runCalls, List.getLast?_cons_cons, List.getLast?_singleton,
    Option.bind_some] at h
  simp only [markerCalls, runCalls, List.mem_cons]
  exact .inr (.inr (.inl (Prod.ext rfl h.symm)))

theorem findAllMatches_run_near :
    Searched markerBytes (markerPlace 1) markerQuery [] [.new 6 2, .new 7 3, .new 9 5] := by
  obtain ⟨hgrow, hall⟩ := markerCalls_promised 1
  refine findAllMatches_run (by decide : 10 ≤ 10) (by decide) (fun _ _ _ => none) rfl rfl false 0
    hgrow (fun v hv => ?_)
    (markerFound_mem (by decide +kernel))
  obtain ⟨hmask, hback, hshort, hpos, hsees⟩ := hall v hv
  exact ⟨⟨10, hmask⟩, hback, hpos.trans_lt (by decide), hshort, hsees⟩

/-- Past the marker an empty link leads to a position that was never stored, and a match
is recorded whose first byte is wrong. -/
theorem emptyMarker_found :
    ((markerCalls (2 ^ 32 - 1023)).flatMap (Call.visits (.new 10))).Pairwise
    (fun v v' => v.place.curIx < v'.place.curIx) ∧
      (∀ v ∈ (markerCalls (2 ^ 32 - 1023)).flatMap (Call.visits (.new 10)),
        v.place.mask = 2 ^ 10 - 1 ∧ v.maxBackward < 2 ^ 10 ∧
        v.place.maxLength < 2 ^ 27 ∧ Sees markerBytes v.place v.maxBackward) ∧
      (Call.findAll (markerPlace (2 ^ 32 - 1023)) markerQuery [],
        some [.new 6 2, .new 7 3, .new 9 5, .new 27 6]) ∈
        (runCalls (fun _ _ _ => none) ((BinaryTreeMatcher.new 10).prepare false 0)
          (markerCalls (2 ^ 32 - 1023))).2 ∧
      (markerPlace (2 ^ 32 - 1023)).curIx < 2 ^ 32 ∧
      markerBytes ((markerPlace (2 ^ 32 - 1023)).curIx - 27) ≠
      markerBytes (markerPlace (2 ^ 32 - 1023)).curIx := by
  obtain ⟨hgrow, hall⟩ := markerCalls_promised (2 ^ 32 - 1023)
  refine ⟨hgrow, fun v hv => ?_,
    markerFound_mem (by decide +kernel), by decide +kernel, by decide +kernel⟩
  obtain ⟨hmask, hback, hshort, -, hsees⟩ := hall v hv
  exact ⟨hmask, hback, hshort, hsees⟩

end Mbrotli.Compressor.BinaryTree
