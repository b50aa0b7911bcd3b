/-
# The scan of the most recent positions

Before the tree is asked, the nearest positions are examined directly. The vector loop
compares the two leading bytes of thirty-two positions at once and measures the lanes
that agree, nearest first; the rest is walked byte by byte. Both record what the walk
alone records (`scanRecentPositions_eq`).

Key definitions: `scanRecentPositions`, `walkFrom`, `visitLanes`.
Key theorems: `visitLanes_eq`, `scanRecentPositions_eq`, `walkFrom_scanned`.
-/
import Mbrotli.Compressor.Core.Hq.Zopfli
import Mbrotli.Shared.MatchLen
import Mbrotli.Shared.Cast

namespace Mbrotli.Compressor.BinaryTree

/-- The candidate positions filtered per vector compare. -/
def shortScanLanes : ℕ := 32

/-- The longest length found, or one, and the matches recorded. -/
structure Scan where
  bestLen : ℕ
  found : List BackwardMatch

/-- Where a scan looks. -/
structure Place where
  data : List UInt8
  mask : ℕ
  curIx : ℕ
  maxLength : ℕ

def Place.curIxMasked (p : Place) : ℕ := p.curIx &&& p.mask

/-- Measures a position and records it if it extends further than the last. -/
def Scan.measure (s : Scan) (p : Place) (prevIx distance : ℕ) : Scan :=
  let len := findMatchLength p.data prevIx p.curIxMasked p.maxLength
  if s.bestLen < len then ⟨len, s.found ++ [.new distance len]⟩ else s

/-- Where the position at a distance lies in the ring. -/
def Place.prevIxMasked (p : Place) (distance : ℕ) : ℕ := wrappingSub p.curIx distance &&& p.mask

/-- The two leading bytes at a distance agree. -/
def Place.agrees (p : Place) (distance : ℕ) : Prop :=
  p.data[p.curIxMasked]? = p.data[p.prevIxMasked distance]? ∧ p.data[p.curIxMasked + 1]? =
    p.data[p.prevIxMasked distance + 1]?

instance (p : Place) (distance : ℕ) : Decidable (p.agrees distance) :=
  inferInstanceAs (Decidable (_ ∧ _))

/-- The walk over `k` distances, byte by byte. -/
def walkFrom (p : Place) : ℕ → ℕ → Scan → Scan
  | 0, _, s => s
  | k + 1, backward, s =>
    if 2 < s.bestLen then s
    else walkFrom p k (backward + 1)
    (if p.agrees backward then s.measure p (p.prevIxMasked backward) backward else s)

/-- The mask of the lanes, `n` of them, that a condition holds of. -/
def toBitmask (lane : ℕ → Bool) : ℕ → ℕ
  | 0 => 0
  | n + 1 => (if lane n then 2 ^ n else 0) + toBitmask lane n

/-- The lanes of the block at `base` whose two bytes agree with `first` and `second`. -/
def agreeing (data : List UInt8) (base : ℕ) (first second : UInt8) : ℕ :=
  toBitmask (fun lane => decide (data[base + lane]? = some first ∧
    data[base + 1 + lane]? = some second)) shortScanLanes

/-- The lanes within the span, the distances past it being in the low lanes. -/
def inSpan (remaining lanes : ℕ) : ℕ :=
  if remaining < shortScanLanes then lanes &&&
    (((2 ^ 32 - 1) <<< (shortScanLanes - remaining)) % 2 ^ 32) else lanes

/-- Visits the set lanes of a block at `base`, the highest first; `fuel` is more than the
lanes there are. -/
def visitLanes (p : Place) (base backward : ℕ) : ℕ → ℕ → Scan → Scan
  | 0, _, s => s
  | fuel + 1, lanes, s =>
    if lanes = 0 ∨ 2 < s.bestLen then s
    else
      let lane := Nat.log2 lanes
      visitLanes p base backward fuel (lanes ^^^ 2 ^ lane)
        (s.measure p (base + lane) (backward + (shortScanLanes - 1) - lane))

/-- The vector loop, for at most `k` blocks: the distance it stops before, and the scan. -/
def vectorFrom (p : Place) (first second : UInt8) (span : ℕ) : ℕ → ℕ → Scan → ℕ × Scan
  | 0, backward, s => (backward, s)
  | k + 1, backward, s =>
    if span < backward ∨ 2 < s.bestLen then (backward, s)
    else if p.curIxMasked < backward + shortScanLanes - 1 then (backward, s)
    else
      let base := p.curIxMasked - (backward + shortScanLanes - 1)
      if p.data.length < base + 1 + shortScanLanes then (backward, s)
      else
        let lanes := inSpan (span - backward + 1) (agreeing p.data base first second)
        vectorFrom p first second span k (backward + shortScanLanes)
          (visitLanes p base backward (shortScanLanes + 1) lanes s)

/-- The distances the scan may look back. -/
def spanOf (curIx maxBackward shortScan : ℕ) : ℕ :=
  min (min (shortScan - 1) (curIx - 1)) maxBackward

/-- Examines the positions just before the current one, nearest first. -/
def scanRecentPositions (p : Place) (maxBackward shortScan : ℕ) (found : List BackwardMatch) :
    Scan :=
  let span := spanOf p.curIx maxBackward shortScan
  let (backward, s) := match p.data[p.curIxMasked]?, p.data[p.curIxMasked + 1]? with
    | some first, some second => vectorFrom p first second span span 1 ⟨1, found⟩
    | _, _ => (1, ⟨1, found⟩)
  walkFrom p (span + 1 - backward) backward s

variable {p : Place} {s : Scan} {k j n base backward span lanes fuel : ℕ}

theorem walkFrom_done (h : 2 < s.bestLen) : walkFrom p k backward s = s := by
  cases k with
  | zero => rfl
  | succ k => rw [walkFrom, if_pos h]

theorem walkFrom_add : walkFrom p (j + k) backward s = walkFrom p k (backward + j)
    (walkFrom p j backward s) := by
  induction j generalizing backward s with
  | zero => rw [Nat.zero_add, Nat.add_zero, walkFrom]
  | succ j ih =>
    by_cases h : 2 < s.bestLen
    · rw [walkFrom_done h, walkFrom_done h, walkFrom_done h]
    · rw [show j + 1 + k = j + k + 1 by omega, walkFrom, if_neg h, ih, walkFrom, if_neg h,
        show backward + 1 + j = backward + (j + 1) by omega]

theorem toBitmask_lt (lane : ℕ → Bool) (n : ℕ) : toBitmask lane n < 2 ^ n := by
  induction n with
  | zero => exact Nat.one_pos
  | succ n ih =>
    rw [toBitmask, Nat.pow_succ]
    split <;> omega

theorem testBit_toBitmask (lane : ℕ → Bool) (i : ℕ) (hi : i < n) :
    (toBitmask lane n).testBit i = lane i := by
  induction n with
  | zero => exact absurd hi (Nat.not_lt_zero _)
  | succ n ih =>
    have hlt := toBitmask_lt lane n
    rw [toBitmask]
    rcases Nat.lt_succ_iff_lt_or_eq.1 hi with hlow | rfl
    · rw [← ih hlow]
      split
      · rw [Nat.testBit_two_pow_add_gt hlow]
      · rw [Nat.zero_add]
    · cases hl : lane i with
      | true => rw [if_pos rfl, Nat.testBit_two_pow_add_eq, Nat.testBit_lt_two_pow hlt]; rfl
      | false => rw [if_neg Bool.false_ne_true, Nat.zero_add, Nat.testBit_lt_two_pow hlt]

theorem inSpan_lt (remaining : ℕ) (h : lanes < 2 ^ 32) : inSpan remaining lanes < 2 ^ 32 := by
  rw [inSpan]
  split
  · exact Nat.and_le_left.trans_lt h
  · exact h

theorem testBit_inSpan {remaining i : ℕ} (hi : i < 32) :
    (inSpan remaining lanes).testBit i = (lanes.testBit i && decide (32 - remaining ≤ i)) := by
  rw [inSpan, shortScanLanes]
  split
  · rw [Nat.testBit_and, Nat.testBit_mod_two_pow, Nat.testBit_shiftLeft,
      Nat.testBit_two_pow_sub_one]
    congr 1
    simp [hi]
    omega
  · next h => rw [decide_eq_true (show 32 - remaining ≤ i by omega), Bool.and_true]

/-- Visiting the lanes below `n` is walking the distances they stand for. -/
theorem visitLanes_eq {low : ℕ} (hlanes : lanes < 2 ^ n) (hn : n ≤ 32) (hfuel : n < fuel)
    (hbit : ∀ l < n, lanes.testBit l = (decide (p.agrees (backward + 31 - l)) && decide (low ≤ l)))
    (hbase : ∀ l < n, low ≤ l → p.prevIxMasked (backward + 31 - l) = base + l) :
    visitLanes p base backward fuel lanes s = walkFrom p (n - low) (backward + 32 - n) s := by
  induction n generalizing lanes s fuel with
  | zero =>
    obtain ⟨fuel, rfl⟩ := Nat.exists_eq_succ_of_ne_zero (Nat.pos_iff_ne_zero.1 hfuel)
    rw [visitLanes, if_pos (.inl (Nat.lt_one_iff.1 hlanes)), Nat.zero_sub, walkFrom]
  | succ n ih =>
    obtain ⟨fuel, rfl⟩ :=
      Nat.exists_eq_succ_of_ne_zero (Nat.pos_iff_ne_zero.1 (Nat.zero_lt_of_lt hfuel))
    have hdist : backward + 32 - (n + 1) = backward + 31 - n := by omega
    by_cases hdone : 2 < s.bestLen
    · rw [visitLanes, if_pos (.inr hdone), walkFrom_done hdone]
    cases hset : lanes.testBit n with
    | true =>
      -- the highest lane is the nearest position
      have hpair := hbit n (Nat.lt_succ_self n)
      rw [hset, eq_comm, Bool.and_eq_true, decide_eq_true_iff, decide_eq_true_iff] at hpair
      have hge : 2 ^ n ≤ lanes := Nat.ge_two_pow_of_testBit hset
      have hne : lanes ≠ 0 := by
        have := Nat.two_pow_pos n
        omega
      have hlog : Nat.log2 lanes = n := (Nat.log2_eq_iff hne).2 ⟨hge, hlanes⟩
      have hrest : lanes ^^^ 2 ^ n < 2 ^ n := by
        refine Nat.lt_pow_two_of_testBit _ fun i hi => ?_
        rw [Nat.testBit_xor]
        rcases Nat.lt_or_eq_of_le hi with hlt | rfl
        · rw [Nat.testBit_lt_two_pow (hlanes.trans_le (Nat.pow_le_pow_right (by decide) hlt)),
            Nat.testBit_two_pow_of_ne (Nat.ne_of_lt hlt)]
          rfl
        · rw [hset, Nat.testBit_two_pow_self]
          rfl
      rw [visitLanes, if_neg (not_or.2 ⟨hne, hdone⟩)]
      dsimp only
      rw [hlog, ih hrest (Nat.le_of_succ_le hn) (by omega) (fun l hl => ?_)
        (fun l hl => hbase l (Nat.lt_succ_of_lt hl)),
        show n + 1 - low = n - low + 1 by omega, walkFrom, if_neg hdone, hdist, if_pos hpair.1,
        hbase n (Nat.lt_succ_self n) hpair.2,
        show backward + 31 - n + 1 = backward + 32 - n by omega]
      · rfl
      · rw [Nat.testBit_xor, Nat.testBit_two_pow_of_ne (Nat.ne_of_gt hl), Bool.xor_false]
        exact hbit l (Nat.lt_succ_of_lt hl)
    | false =>
      have hlow : lanes < 2 ^ n := by
        refine Nat.lt_pow_two_of_testBit _ fun i hi => ?_
        rcases Nat.lt_or_eq_of_le hi with hlt | rfl
        · exact Nat.testBit_lt_two_pow (hlanes.trans_le (Nat.pow_le_pow_right (by decide) hlt))
        · exact hset
      have hpair := hbit n (Nat.lt_succ_self n)
      rw [hset] at hpair
      rw [ih hlow (Nat.le_of_succ_le hn) (Nat.lt_of_succ_lt hfuel)
        (fun l hl => hbit l (Nat.lt_succ_of_lt hl))
        (fun l hl => hbase l (Nat.lt_succ_of_lt hl))]
      by_cases hin : low ≤ n
      · have hno : ¬p.agrees (backward + 31 - n) := by
          intro hyes
          rw [decide_eq_true hyes, decide_eq_true hin] at hpair
          exact nomatch hpair
        rw [show n + 1 - low = n - low + 1 by omega, walkFrom, if_neg hdone, hdist, if_neg hno,
          show backward + 31 - n + 1 = backward + 32 - n by omega]
      · rw [show n - low = 0 by omega, show n + 1 - low = 0 by omega, walkFrom, walkFrom]

/-- Behind the start of the ring there is nothing to wrap. -/
theorem prevIxMasked_eq {m distance : ℕ} (hmask : p.mask = 2 ^ m - 1)
    (h : distance ≤ p.curIxMasked) :
    p.prevIxMasked distance = p.curIxMasked - distance := by
  rw [Place.prevIxMasked, Place.curIxMasked, hmask, Nat.and_two_pow_sub_one_eq_mod,
    Nat.and_two_pow_sub_one_eq_mod] at *
  have hle : distance ≤ p.curIx := h.trans (Nat.mod_le _ _)
  rw [wrappingSub_of_le hle]
  have hsplit : p.curIx - distance = (p.curIx % 2 ^ m - distance) + 2 ^ m * (p.curIx / 2 ^ m) := by
    have := Nat.mod_add_div p.curIx (2 ^ m)
    omega
  rw [hsplit, Nat.add_mul_mod_self_left,
    Nat.mod_eq_of_lt ((Nat.sub_le _ _).trans_lt (Nat.mod_lt _ (Nat.two_pow_pos m)))]

/-- The vector loop leaves to the walk what the walk would have done. -/
theorem vectorFrom_eq {m : ℕ} {first second : UInt8} (hmask : p.mask = 2 ^ m - 1)
    (hfirst : p.data[p.curIxMasked]? = some first)
    (hsecond : p.data[p.curIxMasked + 1]? = some second) (k backward : ℕ) (s : Scan) :
    walkFrom p (span + 1 - (vectorFrom p first second span k backward s).1)
    (vectorFrom p first second span k backward s).1
        (vectorFrom p first second span k backward s).2 =
      walkFrom p (span + 1 - backward) backward s := by
  induction k generalizing backward s with
  | zero => rfl
  | succ k ih =>
    rw [vectorFrom]
    dsimp only
    split
    · rfl
    · next hrun =>
      rw [not_or] at hrun
      split
      · rfl
      · next hbase =>
        split
        · rfl
        · rw [shortScanLanes] at hbase ⊢
          have hspan : backward ≤ span := Nat.le_of_not_lt hrun.1
          set base := p.curIxMasked - (backward + 32 - 1) with hbasedef
          set remaining := span - backward + 1 with hremaining
          have hprev : ∀ l < 32, p.prevIxMasked (backward + 31 - l) = base + l := by
            intro l hl
            rw [prevIxMasked_eq hmask (by omega)]
            omega
          have hbits : ∀ l < 32, (inSpan remaining (agreeing p.data base first second)).testBit l =
              (decide (p.agrees (backward + 31 - l)) && decide (32 - remaining ≤ l)) := by
            intro l hl
            rw [testBit_inSpan hl, agreeing,
              testBit_toBitmask _ l (show l < shortScanLanes from hl)]
            congr 1
            rw [decide_eq_decide, Place.agrees, hprev l hl, hfirst, hsecond,
              show base + 1 + l = base + l + 1 by omega,
              eq_comm (a := some first), eq_comm (a := some second)]
          have hvisit : visitLanes p base backward (32 + 1)
            (inSpan remaining (agreeing p.data base first second)) s =
              walkFrom p (32 - (32 - remaining)) (backward + 32 - 32) s :=
            visitLanes_eq (inSpan_lt _ (toBitmask_lt _ _)) (Nat.le_refl 32) (Nat.lt_succ_self 32)
              hbits fun l hl _ => hprev l hl
          rw [ih, hvisit, Nat.add_sub_cancel]
          rcases Nat.le_total 32 remaining with hfull | hpart
          · rw [show 32 - (32 - remaining) = 32 by omega, ← walkFrom_add,
              show 32 + (span + 1 - (backward + 32)) = span + 1 - backward by omega]
          · rw [show 32 - (32 - remaining) = span + 1 - backward by omega,
              show span + 1 - (backward + 32) = 0 by omega, walkFrom]

/-- The scan records what the byte-by-byte walk records, in its order. -/
theorem scanRecentPositions_eq {m : ℕ} (hmask : p.mask = 2 ^ m - 1) (maxBackward shortScan : ℕ)
    (found : List BackwardMatch) :
    scanRecentPositions p maxBackward shortScan found =
    walkFrom p (spanOf p.curIx maxBackward shortScan) 1 ⟨1, found⟩ := by
  rw [scanRecentPositions]
  dsimp only
  split
  · next first second hfirst hsecond =>
    rw [vectorFrom_eq hmask hfirst hsecond, Nat.add_sub_cancel]
  · rw [Nat.add_sub_cancel]

/-! ### What a search records -/

/-- Distances and lengths, each longer than `best` and the ones before; `best'` is the
longest. -/
structure Growing (best : ℕ) (l : List (ℕ × ℕ)) (best' : ℕ) : Prop where
  longer : l.Pairwise fun q q' => q.2 < q'.2
  above : ∀ q ∈ l, best < q.2
  below : ∀ q ∈ l, q.2 ≤ best'
  le : best ≤ best'

theorem Growing.nil (best : ℕ) : Growing best [] best :=
  ⟨.nil, fun _ h => (nomatch h), fun _ h => (nomatch h), Nat.le_refl _⟩

theorem Growing.one {best distance len : ℕ} (h : best < len) :
    Growing best [(distance, len)] len := by
  refine ⟨List.pairwise_singleton _ _, fun q hq => ?_, fun q hq => ?_, h.le⟩ <;>
    rw [List.mem_singleton.1 hq]
  exact h

theorem Growing.append {a b c : ℕ} {l l' : List (ℕ × ℕ)} (h : Growing a l b) (h' : Growing b l' c) :
    Growing a (l ++ l') c := by
  refine ⟨List.pairwise_append.2 ⟨h.longer, h'.longer,
    fun q hq q' hq' => (h.below q hq).trans_lt (h'.above q' hq')⟩,
    fun q hq => ?_, fun q hq => ?_, h.le.trans h'.le⟩
  · exact (List.mem_append.1 hq).elim (h.above q) fun hq => h.le.trans_lt (h'.above q hq)
  · exact (List.mem_append.1 hq).elim (fun hq => (h.below q hq).trans h'.le) (h'.below q)

/-- The matches of distances and lengths. -/
def matchesOf (l : List (ℕ × ℕ)) : List BackwardMatch := l.map fun q => .new q.1 q.2

theorem walkFrom_scanned (k backward : ℕ) (s : Scan) :
    ∃ l, (walkFrom p k backward s).found = s.found ++ matchesOf l ∧
    Growing s.bestLen l (walkFrom p k backward s).bestLen ∧
      ∀ q ∈ l, backward ≤ q.1 ∧ q.1 < backward + k ∧
      q.2 = findMatchLength p.data (p.prevIxMasked q.1) p.curIxMasked p.maxLength := by
  have hnone : ∀ (k backward : ℕ) (s : Scan), ∃ l, s.found = s.found ++ matchesOf l ∧
    Growing s.bestLen l s.bestLen ∧
      ∀ q ∈ l, backward ≤ q.1 ∧ q.1 < backward + k ∧
      q.2 = findMatchLength p.data (p.prevIxMasked q.1) p.curIxMasked p.maxLength :=
    fun k backward s => ⟨[], (List.append_nil _).symm, .nil _, fun _ h => (nomatch h)⟩
  induction k generalizing backward s with
  | zero => exact hnone 0 backward s
  | succ k ih =>
    rw [walkFrom]
    split
    · exact hnone (k + 1) backward s
    · split
      · rw [Scan.measure]
        split
        · next hlonger =>
          obtain ⟨l, hfound, hgrow, hl⟩ :=
            ih (backward + 1) ⟨findMatchLength p.data (p.prevIxMasked backward)
              p.curIxMasked p.maxLength,
            s.found ++
            [.new backward (findMatchLength p.data (p.prevIxMasked backward) p.curIxMasked
              p.maxLength)]⟩
          refine ⟨(backward, _) :: l, ?_, (Growing.one hlonger).append hgrow, fun q hq => ?_⟩
          · rw [hfound, List.append_assoc]
            rfl
          · rcases List.mem_cons.1 hq with rfl | hq
            · exact ⟨Nat.le_refl _, by omega, rfl⟩
            · obtain ⟨h1, h2, h3⟩ := hl q hq
              exact ⟨by omega, by omega, h3⟩
        · obtain ⟨l, hfound, hgrow, hl⟩ := ih (backward + 1) s
          exact ⟨l, hfound, hgrow, fun q hq =>
            ⟨by have := (hl q hq).1; omega, by have := (hl q hq).2.1; omega, (hl q hq).2.2⟩⟩
      · obtain ⟨l, hfound, hgrow, hl⟩ := ih (backward + 1) s
        exact ⟨l, hfound, hgrow, fun q hq =>
          ⟨by have := (hl q hq).1; omega, by have := (hl q hq).2.1; omega, (hl q hq).2.2⟩⟩

end Mbrotli.Compressor.BinaryTree
