/-
# The binary-tree match finder

Every bucket holds a tree of the positions whose first four bytes share a hash, ordered
by the bytes at each position, the newer positions above the older ones. One walk from
the root collects matches and makes the new position the root. The links lie in a ring
of two for each window position, so a link to a position that has left the window is
dead, and whatever a table held before is never reached.

The order is stated on the stream, not on the ring: `Ordered` says that a link leads to
a tree between two positions. A walk keeps it for the two halves it splits the tree into
(`walkTree_sound`), and from it the bytes a comparison skips are equal (`squeeze`).

Key definitions: `BinaryTreeMatcher`, `walkTree`, `Ordered`, `Sound`.
Key theorems: `squeeze`, `walkTree_sound`, `storeAndFindMatches_sound`.
-/
import Mbrotli.Compressor.Core.Hq.ShortScan
import Mbrotli.Decompressor.Core.Bits
import Mbrotli.Shared.MatchKernels

namespace Mbrotli.Compressor.BinaryTree

def bucketBits : ℕ := 17

def hashMul32 : ℕ := 0x1E35A7BD

/-- How many bytes two sequences are compared over. -/
def maxTreeCompLength : ℕ := 128

/-- How deep one walk descends. -/
def maxTreeSearchDepth : ℕ := 64

def windowGap : ℕ := 16

/-- The match finder: the root of each bucket, and two links for each window position. -/
structure BinaryTreeMatcher where
  windowMask : ℕ
  invalidPos : ℕ
  buckets : List ℕ
  forest : List ℕ

namespace BinaryTreeMatcher

/-- A matcher over a window of `2 ^ lgwin` bytes. -/
def new (lgwin : ℕ) : BinaryTreeMatcher :=
  ⟨2 ^ lgwin - 1, (2 ^ 32 - (2 ^ lgwin - 1)) % 2 ^ 32, [], []⟩

/-- Empties every tree and makes sure the forest can hold the stream. -/
def prepare (m : BinaryTreeMatcher) (oneShot : Bool) (inputSize : ℕ) : BinaryTreeMatcher :=
  let numNodes := if oneShot then min inputSize (m.windowMask + 1) else m.windowMask + 1
  { m with
    buckets :=
      List.replicate (if m.buckets.isEmpty then 2 ^ bucketBits else m.buckets.length) m.invalidPos
    forest := if m.forest.length < 2 * numNodes then List.replicate (2 * numNodes) 0 else m.forest }

def left (m : BinaryTreeMatcher) (pos : ℕ) : ℕ := 2 * (pos &&& m.windowMask)

def right (m : BinaryTreeMatcher) (pos : ℕ) : ℕ := 2 * (pos &&& m.windowMask) + 1

end BinaryTreeMatcher

/-- The bucket of the four bytes at `offset`. -/
def hash (data : List UInt8) (offset : ℕ) : ℕ :=
  let word := if offset + 4 ≤ data.length then Bits.leWord ((data.drop offset).take 4) else 0
  (word * hashMul32 % 2 ^ 32) >>> (32 - bucketBits)

/-- The bytes a candidate shares, the first `curLen` of which need no comparison. -/
def Place.lengthFrom (p : Place) (prevIx curLen : ℕ) : ℕ :=
  curLen + findMatchLength p.data ((prevIx &&& p.mask) + curLen) (p.curIxMasked + curLen)
    (p.maxLength - curLen)

/-- Records a match that extends further than the last, if matches are collected. -/
def Scan.collect (s : Scan) (collects : Bool) (distance len : ℕ) : Scan :=
  if collects ∧ s.bestLen < len then ⟨len, s.found ++ [.new distance len]⟩ else s

/-- Where a walk goes on: the candidate, the two places that wait for a link, and how
many bytes both sides share with the position. -/
structure Descent where
  prevIx : ℕ
  nodeLeft : ℕ
  nodeRight : ℕ
  bestLenLeft : ℕ
  bestLenRight : ℕ

variable (m : BinaryTreeMatcher)

/-- Reads a link, an index out of range being empty. -/
def linkOf (forest : List ℕ) (index : ℕ) : ℕ := forest.getD index m.invalidPos

/-- The walk, `depth` nodes deep at most. A tree is only changed if it reroots. -/
def walkTree (p : Place) (maxBackward : ℕ) (reroots collects : Bool) :
    ℕ → List ℕ → Descent → Scan → List ℕ × Scan
  | depth, forest, d, s =>
    let backward := wrappingSub p.curIx d.prevIx
    if backward = 0 ∨ maxBackward < backward ∨ depth = 0 then
      (if reroots then (forest.set d.nodeLeft m.invalidPos).set d.nodeRight m.invalidPos
        else forest, s)
    else
      let len := p.lengthFrom d.prevIx (min d.bestLenLeft d.bestLenRight)
      let s := s.collect collects backward len
      if min p.maxLength maxTreeCompLength ≤ len then
        (if reroots then
          (forest.set d.nodeLeft (linkOf m forest (m.left d.prevIx))).set d.nodeRight
            (linkOf m forest (m.right d.prevIx))
        else forest, s)
      else if p.data.getD ((d.prevIx &&& p.mask) + len) 0 < p.data.getD (p.curIxMasked + len) 0 then
        let forest := if reroots then forest.set d.nodeLeft d.prevIx else forest
        match depth with
        | 0 => (forest, s)
        | depth + 1 => walkTree p maxBackward reroots collects depth forest
            ⟨linkOf m forest (m.right d.prevIx), m.right d.prevIx, d.nodeRight, len,
              d.bestLenRight⟩ s
      else
        let forest := if reroots then forest.set d.nodeRight d.prevIx else forest
        match depth with
        | 0 => (forest, s)
        | depth + 1 => walkTree p maxBackward reroots collects depth forest
            ⟨linkOf m forest (m.left d.prevIx), d.nodeLeft, m.left d.prevIx, d.bestLenLeft, len⟩ s

/-- Walks the tree of the position, collecting matches and re-rooting it. -/
def storeAndFindMatches (p : Place) (maxBackward : ℕ) (collects : Bool) (s : Scan) :
    BinaryTreeMatcher × Scan :=
  let reroots := decide (maxTreeCompLength ≤ p.maxLength)
  let key := hash p.data p.curIxMasked
  let (forest, s) := walkTree m p maxBackward reroots collects maxTreeSearchDepth m.forest
    ⟨m.buckets.getD key m.invalidPos, m.left p.curIx, m.right p.curIx, 0, 0⟩ s
  ({ m with buckets := if reroots then m.buckets.set key (p.curIx % 2 ^ 32)
    else m.buckets, forest := forest }, s)

/-- A position that is stored, and how far back its walk may look. -/
structure Visit where
  place : Place
  maxBackward : ℕ

def Visit.store (v : Visit) (m : BinaryTreeMatcher) : BinaryTreeMatcher :=
  (storeAndFindMatches m v.place v.maxBackward false ⟨0, []⟩).1

/-! ### The order of the stream -/

/-- The bytes at `x` sort before the ones at `y`, as far as the tree compares them. -/
def Precedes (bytes : ℕ → UInt8) (x y : ℕ) : Prop :=
  ∃ i < maxTreeCompLength, (∀ j < i, bytes (x + j) = bytes (y + j)) ∧ bytes (x + i) < bytes (y + i)

variable {bytes : ℕ → UInt8} {x y z : ℕ}

theorem Precedes.trans (h : Precedes bytes x y) (h' : Precedes bytes y z) : Precedes bytes x z := by
  obtain ⟨i, hi, hsame, hlt⟩ := h
  obtain ⟨i', hi', hsame', hlt'⟩ := h'
  rcases Nat.lt_trichotomy i i' with hii | rfl | hii
  · exact ⟨i, hi, fun j hj => (hsame j hj).trans (hsame' j (hj.trans hii)), hsame' i hii ▸ hlt⟩
  · exact ⟨i, hi, fun j hj => (hsame j hj).trans (hsame' j hj), UInt8.lt_trans hlt hlt'⟩
  · exact ⟨i', hi', fun j hj => (hsame j (hj.trans hii)).trans (hsame' j hj),
      (hsame i' hii).symm ▸ hlt'⟩

theorem Precedes.irrefl (x : ℕ) : ¬Precedes bytes x x := fun ⟨_, _, _, hlt⟩ => UInt8.lt_irrefl _ hlt

/-- The positions agree on `n` bytes. -/
def Agree (bytes : ℕ → UInt8) (n x y : ℕ) : Prop := ∀ i < n, bytes (x + i) = bytes (y + i)

theorem Agree.mono {n k : ℕ} (h : Agree bytes n x y) (hk : k ≤ n) : Agree bytes k x y :=
  fun i hi => h i (hi.trans_le hk)

theorem Precedes.congr_right (h : Precedes bytes x y) (he : Agree bytes maxTreeCompLength y z) :
    Precedes bytes x z := by
  obtain ⟨i, hi, hsame, hlt⟩ := h
  exact ⟨i, hi, fun j hj => (hsame j hj).trans (he j (hj.trans hi)), he i hi ▸ hlt⟩

theorem Precedes.congr_left (h : Precedes bytes x y) (he : Agree bytes maxTreeCompLength x z) :
    Precedes bytes z y := by
  obtain ⟨i, hi, hsame, hlt⟩ := h
  exact ⟨i, hi, fun j hj => (he j (hj.trans hi)).symm.trans (hsame j hj), he i hi ▸ hlt⟩

/-- What lies between two positions that agree agrees with them. -/
theorem squeeze {n c : ℕ} (hx : Precedes bytes x y) (hz : Precedes bytes y z)
    (hxc : Agree bytes n x c) (hzc : Agree bytes n z c) :
    Agree bytes n y c := by
  obtain ⟨i, -, hsame, hlt⟩ := hx
  obtain ⟨i', -, hsame', hlt'⟩ := hz
  -- the first byte in which the middle differs from either side is past the agreement
  have hmin : n ≤ i ∨ n ≤ i' := by
    by_contra hboth
    rw [not_or, Nat.not_le, Nat.not_le] at hboth
    rcases Nat.lt_trichotomy i i' with hii | rfl | hii
    · rw [hsame' i hii, hxc i hboth.1, ← hzc i hboth.1] at hlt
      exact UInt8.lt_irrefl _ hlt
    · have := UInt8.lt_trans hlt hlt'
      rw [hxc i hboth.1, hzc i hboth.1] at this
      exact UInt8.lt_irrefl _ this
    · rw [← hsame i' hii, hxc i' hboth.2, hzc i' hboth.2] at hlt'
      exact UInt8.lt_irrefl _ hlt'
  intro j hj
  rcases hmin with h | h
  · exact (hsame j (hj.trans_le h)).symm.trans (hxc j hj)
  · exact (hsame' j (hj.trans_le h)).trans (hzc j hj)

/-- A position is past the lower end, which may be missing. -/
def Above (bytes : ℕ → UInt8) (lo : Option ℕ) (q : ℕ) : Prop :=
  ∀ l, lo = some l → Precedes bytes l q

def Under (bytes : ℕ → UInt8) (hi : Option ℕ) (q : ℕ) : Prop :=
  ∀ h, hi = some h → Precedes bytes q h

theorem Above.trans {lo : Option ℕ} (h : Above bytes lo x) (h' : Precedes bytes x y) :
    Above bytes lo y := fun l hl => (h l hl).trans h'

theorem Under.trans {hi : Option ℕ} (h : Under bytes hi y) (h' : Precedes bytes x y) :
    Under bytes hi x := fun l hl => h'.trans (h l hl)

theorem above_some (h : Precedes bytes x y) : Above bytes (some x) y :=
  fun _ hl => Option.some.inj hl ▸ h

theorem under_some (h : Precedes bytes x y) : Under bytes (some y) x :=
  fun _ hl => Option.some.inj hl ▸ h

/-- A link is dead, or leads to a tree of positions below `bound` between two ends. -/
inductive Ordered (bytes : ℕ → UInt8) (member : ℕ → Prop) (m : BinaryTreeMatcher)
    (forest : List ℕ) (low : ℕ) :
    Option ℕ → Option ℕ → ℕ → ℕ → Prop
  | dead {lo hi bound link} (h : link < low ∨ link = m.invalidPos) :
      Ordered bytes member m forest low lo hi bound link
  | alive {lo hi bound q} (hlow : low ≤ q) (hbound : q < bound) (hmember : member q)
      (habove : Above bytes lo q) (hunder : Under bytes hi q)
      (hleft : Ordered bytes member m forest low lo (some q) q (linkOf m forest (m.left q)))
      (hright : Ordered bytes member m forest low (some q) hi q (linkOf m forest (m.right q))) :
      Ordered bytes member m forest low lo hi bound q

variable {m} {member : ℕ → Prop} {forest forest' : List ℕ} {low low' bound bound' link : ℕ}
    {lo hi : Option ℕ}

theorem Ordered.weaken (h : Ordered bytes member m forest low lo hi bound link)
    (hb : bound ≤ bound') :
    Ordered bytes member m forest low lo hi bound' link := by
  cases h with
  | dead h => exact .dead h
  | alive hlow hbound hmember habove hunder hleft hright =>
      exact .alive hlow (hbound.trans_le hb) hmember habove hunder hleft hright

/-- Positions leave the window. -/
theorem Ordered.prune (h : Ordered bytes member m forest low lo hi bound link)
    (hlow' : low ≤ low') :
    Ordered bytes member m forest low' lo hi bound link := by
  induction h with
  | dead h => exact .dead (h.imp (fun h => h.trans_le hlow') id)
  | @alive lo hi bound q hlow hbound hmember habove hunder hleft hright ihl ihr =>
    rcases Nat.lt_or_ge q low' with hlt | hge
    · exact .dead (.inl hlt)
    · exact .alive hge hbound hmember habove hunder ihl ihr

/-- The ends may be moved apart. -/
theorem Ordered.ends {lo' hi' : Option ℕ} (h : Ordered bytes member m forest low lo hi bound link)
    (hlo : ∀ q, Above bytes lo q → Above bytes lo' q)
    (hhi : ∀ q, Under bytes hi q → Under bytes hi' q) :
    Ordered bytes member m forest low lo' hi' bound link := by
  induction h generalizing lo' hi' with
  | dead h => exact .dead h
  | alive hlow hbound hmember habove hunder hleft hright ihl ihr =>
    exact .alive hlow hbound hmember (hlo _ habove) (hhi _ hunder) (ihl hlo fun _ h => h)
      (ihr (fun _ h => h) hhi)

/-- Only the links of the positions a tree may hold matter to it. -/
theorem Ordered.frame (h : Ordered bytes member m forest low lo hi bound link)
    (hsame : ∀ q, low ≤ q → q < bound → member q → Above bytes lo q → Under bytes hi q →
      linkOf m forest' (m.left q) = linkOf m forest (m.left q) ∧ linkOf m forest' (m.right q) =
      linkOf m forest (m.right q)) :
    Ordered bytes member m forest' low lo hi bound link := by
  induction h with
  | dead h => exact .dead h
  | @alive lo hi bound q hlow hbound hmember habove hunder hleft hright ihl ihr =>
    obtain ⟨hl, hr⟩ := hsame q hlow hbound hmember habove hunder
    refine .alive hlow hbound hmember habove hunder ?_ ?_
    · rw [hl]
      exact ihl fun q' hlow' hb' hm' ha' hu' =>
        hsame q' hlow' (hb'.trans hbound) hm' ha' (hunder.trans (hu' q rfl))
    · rw [hr]
      exact ihr fun q' hlow' hb' hm' ha' hu' =>
        hsame q' hlow' (hb'.trans hbound) hm' (habove.trans (ha' q rfl)) hu'

/-! ### Links -/

theorem linkOf_set_ne {i j v : ℕ} (h : i ≠ j) :
    linkOf m (forest.set i v) j = linkOf m forest j := by
  rw [linkOf, linkOf, List.getD_eq_getElem?_getD, List.getD_eq_getElem?_getD,
    List.getElem?_set_ne h]

/-- A link that is written is read back, or its place does not exist. -/
theorem linkOf_set_self (forest : List ℕ) (i v : ℕ) :
    linkOf m (forest.set i v) i = v ∨ linkOf m (forest.set i v) i = m.invalidPos := by
  rw [linkOf, List.getD_eq_getElem?_getD, List.getElem?_set]
  rw [if_pos rfl]
  split
  · exact .inl rfl
  · exact .inr rfl

/-- A dead or written link stays in order. -/
theorem Ordered.of_set {i v : ℕ} (h : Ordered bytes member m forest' low lo hi bound v)
    (hread : linkOf m forest' i = linkOf m (forest.set i v) i) :
    Ordered bytes member m forest' low lo hi bound (linkOf m forest' i) := by
  rw [hread]
  rcases linkOf_set_self forest i v with he | he
  · rw [he]
    exact h
  · rw [he]
    exact .dead (.inr rfl)

/-- The root of a bucket that was written. -/
theorem Ordered.of_bucket {buckets : List ℕ} {i v : ℕ}
    (h : Ordered bytes member m forest low lo hi bound v) :
    Ordered bytes member m forest low lo hi bound ((buckets.set i v).getD i m.invalidPos) := by
  rcases @linkOf_set_self m buckets i v with he | he
  · rw [linkOf] at he
    rw [he]
    exact h
  · rw [linkOf] at he
    rw [he]
    exact .dead (.inr rfl)

/-- Two positions of one window have links of their own. -/
theorem slots_ne {lg q q' : ℕ} (hmask : m.windowMask = 2 ^ lg - 1) (hlow : low ≤ q)
    (hlow' : low ≤ q') (hw : q < low + 2 ^ lg)
    (hw' : q' < low + 2 ^ lg) (hne : q ≠ q') :
    m.left q ≠ m.left q' ∧ m.left q ≠ m.right q' ∧ m.right q ≠ m.left q' ∧
    m.right q ≠ m.right q' := by
  have hmod : q % 2 ^ lg ≠ q' % 2 ^ lg := by
    intro he
    rcases Nat.lt_or_gt_of_ne hne with hlt | hgt
    · have :=
        Nat.le_of_dvd (by omega) (Nat.dvd_of_mod_eq_zero (Nat.sub_mod_eq_zero_of_mod_eq he.symm))
      omega
    · have := Nat.le_of_dvd (by omega) (Nat.dvd_of_mod_eq_zero (Nat.sub_mod_eq_zero_of_mod_eq he))
      omega
  rw [BinaryTreeMatcher.left, BinaryTreeMatcher.left, BinaryTreeMatcher.right,
    BinaryTreeMatcher.right, hmask,
    Nat.and_two_pow_sub_one_eq_mod, Nat.and_two_pow_sub_one_eq_mod]
  omega

theorem left_ne_right (q : ℕ) : m.left q ≠ m.right q := by
  rw [BinaryTreeMatcher.left, BinaryTreeMatcher.right]
  omega

/-! ### Comparisons -/

/-- The ring shows the stream at every position the walk may look at. -/
def Sees (bytes : ℕ → UInt8) (p : Place) (maxBackward : ℕ) : Prop :=
  ∀ q ≤ p.curIx, p.curIx ≤ q + maxBackward → ∀ i < p.maxLength, p.data[(q &&& p.mask) + i]? =
    some (bytes (q + i))

/-- A match that is true: so far back, so long, and the bytes are equal. -/
structure TrueCopy (bytes : ℕ → UInt8) (p : Place) (maxBackward distance length : ℕ) : Prop where
  distance_pos : 1 ≤ distance
  distance_le : distance ≤ maxBackward
  behind : distance ≤ p.curIx
  length_le : length ≤ p.maxLength
  equal : ∀ i < length, bytes (p.curIx - distance + i) = bytes (p.curIx + i)

variable {p : Place} {maxBackward : ℕ}

theorem findMatchLength_ne {data : List UInt8} {left right limit : ℕ}
    (hl : left + limit ≤ data.length) (hr : right + limit ≤ data.length)
    (h : findMatchLength data left right limit < limit) :
    data[left + findMatchLength data left right limit]? ≠
    data[right + findMatchLength data left right limit]? := by
  have hfit : limit ≤ (data.drop left).length ∧ limit ≤ (data.drop right).length := by
    rw [List.length_drop, List.length_drop]
    omega
  rw [findMatchLength, if_pos hfit] at h ⊢
  rw [commonPrefixLen] at h ⊢
  have hne := @matchLenBytes_ne ((data.drop left).take limit) ((data.drop right).take limit)
    (by rw [List.length_take]; omega) (by rw [List.length_take]; omega)
  rwa [List.getElem?_take_of_lt h, List.getElem?_take_of_lt h, List.getElem?_drop,
    List.getElem?_drop] at hne

/-- A candidate that agrees on the skipped bytes is measured exactly. -/
theorem lengthFrom_spec {q curLen : ℕ} (hsees : Sees bytes p maxBackward) (hq : q ≤ p.curIx)
    (hback : p.curIx ≤ q + maxBackward)
    (hcur : curLen ≤ p.maxLength) (hagree : Agree bytes curLen q p.curIx) :
    p.lengthFrom q curLen ≤ p.maxLength ∧ Agree bytes (p.lengthFrom q curLen) q p.curIx ∧
      (p.lengthFrom q curLen < p.maxLength →
        p.data.getD ((q &&& p.mask) + p.lengthFrom q curLen) 0 = bytes (q + p.lengthFrom q curLen) ∧
        p.data.getD (p.curIxMasked + p.lengthFrom q curLen) 0 =
        bytes (p.curIx + p.lengthFrom q curLen) ∧
        bytes (q + p.lengthFrom q curLen) ≠ bytes (p.curIx + p.lengthFrom q curLen)) := by
  have hprev := hsees q hq hback
  have hself : ∀ i < p.maxLength, p.data[p.curIxMasked + i]? = some (bytes (p.curIx + i)) :=
    hsees p.curIx (Nat.le_refl _) (by omega)
  obtain ⟨hle, hsame⟩ :=
    findMatchLength_spec p.data ((q &&& p.mask) + curLen) (p.curIxMasked + curLen)
      (p.maxLength - curLen)
  set found :=
    findMatchLength p.data ((q &&& p.mask) + curLen) (p.curIxMasked + curLen) (p.maxLength - curLen)
    with hfound
  have hlen : p.lengthFrom q curLen = curLen + found := rfl
  rw [hlen]
  refine ⟨by omega, fun i hi => ?_, fun hlt => ?_⟩
  · rcases Nat.lt_or_ge i curLen with hskip | hmeasured
    · exact hagree i hskip
    · have hbyte := hsame (i - curLen) (by omega)
      rw [show (q &&& p.mask) + curLen + (i - curLen) = (q &&& p.mask) + i by omega,
        show p.curIxMasked + curLen + (i - curLen) = p.curIxMasked + i by omega, hprev i (by omega),
        hself i (by omega)] at hbyte
      exact Option.some.inj hbyte
  · have hfits : ∀ base : ℕ, (∀ i < p.maxLength, (p.data[base + i]?).isSome) →
        base + p.maxLength ≤ p.data.length := by
      intro base hall
      obtain ⟨v, hv⟩ := Option.isSome_iff_exists.1 (hall (p.maxLength - 1) (by omega))
      have := (List.getElem?_eq_some_iff.1 hv).1
      omega
    have hq := hfits (q &&& p.mask) fun i hi => by rw [hprev i hi]; rfl
    have hc := hfits p.curIxMasked fun i hi => by rw [hself i hi]; rfl
    have hne :=
      @findMatchLength_ne p.data ((q &&& p.mask) + curLen) (p.curIxMasked + curLen)
        (p.maxLength - curLen)
        (by omega) (by omega) (by rw [← hfound]; omega)
    rw [← hfound, Nat.add_assoc, Nat.add_assoc, hprev _ hlt, hself _ hlt] at hne
    refine ⟨?_, ?_, fun he => hne (by rw [he])⟩
    · rw [List.getD_eq_getElem?_getD, hprev _ hlt, Option.getD_some]
    · rw [List.getD_eq_getElem?_getD, hself _ hlt, Option.getD_some]

/-- The matches one scan adds to another. -/
def Matched (bytes : ℕ → UInt8) (p : Place) (maxBackward : ℕ) (s s' : Scan) : Prop :=
  ∃ l, s'.found = s.found ++ matchesOf l ∧ Growing s.bestLen l s'.bestLen ∧ ∀ q ∈ l,
    TrueCopy bytes p maxBackward q.1 q.2

theorem Matched.refl (s : Scan) : Matched bytes p maxBackward s s :=
  ⟨[], (List.append_nil _).symm, .nil _, fun _ h => (nomatch h)⟩

theorem Matched.trans {s s' s'' : Scan} (h : Matched bytes p maxBackward s s')
    (h' : Matched bytes p maxBackward s' s'') :
    Matched bytes p maxBackward s s'' := by
  obtain ⟨l, hfound, hgrow, htrue⟩ := h
  obtain ⟨l', hfound', hgrow', htrue'⟩ := h'
  refine ⟨l ++ l', ?_, hgrow.append hgrow',
    fun q hq => (List.mem_append.1 hq).elim (htrue q) (htrue' q)⟩
  rw [hfound', hfound, matchesOf, matchesOf, matchesOf, List.map_append, List.append_assoc]

theorem Scan.collect_matched (s : Scan) (collects : Bool) {distance len : ℕ}
    (h : TrueCopy bytes p maxBackward distance len) :
    Matched bytes p maxBackward s (s.collect collects distance len) := by
  rw [Scan.collect]
  split
  · next hlonger =>
    refine ⟨[(distance, len)], rfl, .one hlonger.2, fun q hq => ?_⟩
    rw [List.mem_singleton.1 hq]
    exact h
  · exact .refl s

/-! ### The walk -/

/-- What a walk rests on: the shape of the window, and what the ring shows. -/
structure Grounds (bytes : ℕ → UInt8) (m : BinaryTreeMatcher) (p : Place) (maxBackward lg low : ℕ) :
    Prop where
  mask : m.windowMask = 2 ^ lg - 1
  low_eq : low = p.curIx + 1 - 2 ^ lg
  back : maxBackward < 2 ^ lg
  window : lg ≤ 32
  valid : p.curIx < m.invalidPos
  small : m.invalidPos < 2 ^ 32
  sees : Sees bytes p maxBackward

/-- The ends a walk is between, and how far they agree with the position. -/
structure Between (bytes : ℕ → UInt8) (c limit : ℕ) (lo hi : Option ℕ)
    (bestLenLeft bestLenRight : ℕ) : Prop where
  above : Above bytes lo c
  under : Under bytes hi c
  left_le : bestLenLeft ≤ limit
  left_agree : ∀ l, lo = some l → Agree bytes bestLenLeft l c
  left_none : lo = none → bestLenLeft = 0
  right_agree : ∀ h, hi = some h → Agree bytes bestLenRight h c
  right_none : hi = none → bestLenRight = 0

/-- What lies between the ends agrees as far as both of them do. -/
theorem Between.agree {c limit bestLenLeft bestLenRight q : ℕ}
    (h : Between bytes c limit lo hi bestLenLeft bestLenRight)
    (habove : Above bytes lo q) (hunder : Under bytes hi q) :
    Agree bytes (min bestLenLeft bestLenRight) q c := by
  cases lo with
  | none =>
    rw [h.left_none rfl, Nat.zero_min]
    exact fun i hi => absurd hi (Nat.not_lt_zero i)
  | some l =>
    cases hi with
    | none =>
      rw [h.right_none rfl, Nat.min_zero]
      exact fun i hi => absurd hi (Nat.not_lt_zero i)
    | some u =>
      exact squeeze (habove l rfl) (hunder u rfl) ((h.left_agree l rfl).mono (Nat.min_le_left _ _))
        ((h.right_agree u rfl).mono (Nat.min_le_right _ _))

/-- A walk on its way: between two ends, at a tree of older positions, with two places
free for links. -/
structure Descends (bytes : ℕ → UInt8) (member : ℕ → Prop) (m : BinaryTreeMatcher) (p : Place)
    (low : ℕ) (forest : List ℕ) (d : Descent)
    (lo hi : Option ℕ) (bound : ℕ) : Prop where
  between : Between bytes p.curIx p.maxLength lo hi d.bestLenLeft d.bestLenRight
  tree : Ordered bytes member m forest low lo hi bound d.prevIx
  bound_le : bound ≤ p.curIx
  holes_ne : d.nodeLeft ≠ d.nodeRight
  left_free : ∀ q, low ≤ q → q < bound → d.nodeLeft ≠ m.left q ∧ d.nodeLeft ≠ m.right q
  right_free : ∀ q, low ≤ q → q < bound → d.nodeRight ≠ m.left q ∧ d.nodeRight ≠ m.right q

/-- The position a walk examines. -/
structure Examined (bytes : ℕ → UInt8) (member : ℕ → Prop) (m : BinaryTreeMatcher) (p : Place)
    (maxBackward low : ℕ) (forest : List ℕ)
    (lo hi : Option ℕ) (bound q : ℕ) : Prop where
  low_le : low ≤ q
  lt_bound : q < bound
  is_member : member q
  above : Above bytes lo q
  under : Under bytes hi q
  left : Ordered bytes member m forest low lo (some q) q (linkOf m forest (m.left q))
  right : Ordered bytes member m forest low (some q) hi q (linkOf m forest (m.right q))
  behind : q < p.curIx
  near : p.curIx ≤ q + maxBackward

variable {lg : ℕ} {d : Descent}

/-- A link that is followed is alive. -/
theorem Grounds.examined (g : Grounds bytes m p maxBackward lg low)
    (h : Ordered bytes member m forest low lo hi bound link)
    (hbound : bound ≤ p.curIx) (hback : wrappingSub p.curIx link ≤ maxBackward) :
    Examined bytes member m p maxBackward low forest lo hi bound link := by
  have hvalid := g.valid
  have hsmall := g.small
  have hwindow : 2 ^ lg ≤ 2 ^ 32 := Nat.pow_le_pow_right (by decide) g.window
  have hlow := g.low_eq
  have hmax := g.back
  cases h with
  | dead hdead =>
    exfalso
    rcases hdead with hold | hempty
    · rw [wrappingSub_of_le (show link ≤ p.curIx by omega)] at hback
      omega
    · rw [hempty, wrappingSub, if_neg (Nat.not_le.2 hvalid)] at hback
      omega
  | alive hlow hlt hmember habove hunder hleft hright =>
    have hbehind := hlt.trans_le hbound
    rw [wrappingSub_of_le hbehind.le] at hback
    exact ⟨hlow, hlt, hmember, habove, hunder, hleft, hright, hbehind, by omega⟩

theorem Grounds.slots_ne (g : Grounds bytes m p maxBackward lg low) {q q' : ℕ} (hlow : low ≤ q)
    (hlow' : low ≤ q') (hq : q ≤ p.curIx)
    (hq' : q' ≤ p.curIx) (hne : q ≠ q') :
    m.left q ≠ m.left q' ∧ m.left q ≠ m.right q' ∧ m.right q ≠ m.left q' ∧
    m.right q ≠ m.right q' := by
  have := g.low_eq
  exact BinaryTree.slots_ne g.mask hlow hlow' (by omega) (by omega) hne

theorem linkOf_if_ne {reroots : Bool} {i j v : ℕ} (h : i ≠ j) :
    linkOf m (if reroots then forest.set i v else forest) j = linkOf m forest j := by
  split
  · exact linkOf_set_ne h
  · rfl

/-- The candidate sorts before the position: the walk goes on in its right half. -/
theorem Descends.stepLeft (g : Grounds bytes m p maxBackward lg low)
    (h : Descends bytes member m p low forest d lo hi bound)
    (e : Examined bytes member m p maxBackward low forest lo hi bound d.prevIx) {len : ℕ}
    (hlen : len ≤ p.maxLength)
    (hagree : Agree bytes len d.prevIx p.curIx) (hsort : Precedes bytes d.prevIx p.curIx)
    (reroots : Bool) :
    Descends bytes member m p low (if reroots then forest.set d.nodeLeft d.prevIx else forest)
      ⟨linkOf m (if reroots then forest.set d.nodeLeft d.prevIx else forest) (m.right d.prevIx),
        m.right d.prevIx, d.nodeRight, len,
        d.bestLenRight⟩ (some d.prevIx) hi d.prevIx where
  between := { h.between with
    above := above_some hsort
    left_le := hlen
    left_agree := fun l hl => Option.some.inj hl ▸ hagree
    left_none := fun hn => (nomatch hn) }
  tree := by
    have hfree := fun q hlow hq => h.left_free q hlow (Nat.lt_trans hq e.lt_bound)
    rw [linkOf_if_ne (h.left_free _ e.low_le e.lt_bound).2]
    exact e.right.frame fun q hlow hq _ _ _ =>
      ⟨linkOf_if_ne (hfree q hlow hq).1, linkOf_if_ne (hfree q hlow hq).2⟩
  bound_le := e.behind.le
  holes_ne := fun he => (h.right_free _ e.low_le e.lt_bound).2 he.symm
  left_free := fun q hlow hq => by
    have := g.slots_ne e.low_le hlow e.behind.le (hq.trans e.behind).le hq.ne'
    exact ⟨this.2.2.1, this.2.2.2⟩
  right_free := fun q hlow hq => h.right_free q hlow (hq.trans e.lt_bound)

/-- The candidate sorts after the position: the walk goes on in its left half. -/
theorem Descends.stepRight (g : Grounds bytes m p maxBackward lg low)
    (h : Descends bytes member m p low forest d lo hi bound)
    (e : Examined bytes member m p maxBackward low forest lo hi bound d.prevIx) {len : ℕ}
    (hagree : Agree bytes len d.prevIx p.curIx) (hsort : Precedes bytes p.curIx d.prevIx)
    (reroots : Bool) :
    Descends bytes member m p low (if reroots then forest.set d.nodeRight d.prevIx else forest)
      ⟨linkOf m (if reroots then forest.set d.nodeRight d.prevIx else forest) (m.left d.prevIx),
        d.nodeLeft, m.left d.prevIx, d.bestLenLeft,
        len⟩ lo (some d.prevIx) d.prevIx where
  between := { h.between with
    under := under_some hsort
    right_agree := fun l hl => Option.some.inj hl ▸ hagree
    right_none := fun hn => (nomatch hn) }
  tree := by
    have hfree := fun q hlow hq => h.right_free q hlow (Nat.lt_trans hq e.lt_bound)
    rw [linkOf_if_ne (h.right_free _ e.low_le e.lt_bound).1]
    exact e.left.frame fun q hlow hq _ _ _ =>
      ⟨linkOf_if_ne (hfree q hlow hq).1, linkOf_if_ne (hfree q hlow hq).2⟩
  bound_le := e.behind.le
  holes_ne := (h.left_free _ e.low_le e.lt_bound).1
  left_free := fun q hlow hq => h.left_free q hlow (hq.trans e.lt_bound)
  right_free := fun q hlow hq => by
    have := g.slots_ne e.low_le hlow e.behind.le (hq.trans e.behind).le hq.ne'
    exact ⟨this.1, this.2.1⟩

/-- What a walk from `d` leaves: true matches, every link untouched that is not its own,
and the two halves of the tree in the places that waited for them. -/
structure Walked (bytes : ℕ → UInt8) (member : ℕ → Prop) (m : BinaryTreeMatcher) (p : Place)
    (maxBackward low : ℕ) (reroots : Bool)
    (forest : List ℕ) (d : Descent) (s : Scan) (lo hi : Option ℕ) (bound : ℕ) (r : List ℕ × Scan) :
    Prop where
  matched : Matched bytes p maxBackward s r.2
  kept : reroots = false → r.1 = forest
  frame : ∀ i, i ≠ d.nodeLeft → i ≠ d.nodeRight →
    (∀ q, low ≤ q → q < bound → member q → Above bytes lo q → Under bytes hi q → i ≠ m.left q ∧
      i ≠ m.right q) →
    linkOf m r.1 i = linkOf m forest i
  left : reroots = true → Ordered bytes member m r.1 low lo (some p.curIx) bound
    (linkOf m r.1 d.nodeLeft)
  right : reroots = true → Ordered bytes member m r.1 low (some p.curIx) hi bound
    (linkOf m r.1 d.nodeRight)

variable {reroots : Bool} {s s' : Scan} {r : List ℕ × Scan} {v w : ℕ}

/-- A walk that ends here writes both places. -/
theorem Descends.stop (h : Descends bytes member m p low forest d lo hi bound)
    (hm : Matched bytes p maxBackward s s')
    (hv : reroots = true → Ordered bytes member m forest low lo (some p.curIx) bound v)
    (hw : reroots = true → Ordered bytes member m forest low (some p.curIx) hi bound w) :
    Walked bytes member m p maxBackward low reroots forest d s lo hi bound
      (if reroots then (forest.set d.nodeLeft v).set d.nodeRight w else forest, s') where
  matched := hm
  kept := fun hr => if_neg (by rw [hr]; exact Bool.false_ne_true)
  frame := fun i hl hr _ => by
    dsimp only
    split
    · rw [linkOf_set_ne (Ne.symm hr), linkOf_set_ne (Ne.symm hl)]
    · rfl
  left := fun hr => by
    dsimp only
    rw [if_pos hr]
    refine Ordered.of_set ((hv hr).frame fun q hlow hq _ _ _ => ?_) (linkOf_set_ne h.holes_ne.symm)
    obtain ⟨hl, hr⟩ := h.left_free q hlow hq
    obtain ⟨hl', hr'⟩ := h.right_free q hlow hq
    exact ⟨by rw [linkOf_set_ne hl', linkOf_set_ne hl], by rw [linkOf_set_ne hr', linkOf_set_ne hr]⟩
  right := fun hr => by
    dsimp only
    rw [if_pos hr]
    refine Ordered.of_set ((hw hr).frame fun q hlow hq _ _ _ => ?_) rfl
    obtain ⟨hl, hr⟩ := h.left_free q hlow hq
    obtain ⟨hl', hr'⟩ := h.right_free q hlow hq
    exact ⟨by rw [linkOf_set_ne hl', linkOf_set_ne hl], by rw [linkOf_set_ne hr', linkOf_set_ne hr]⟩

/-- Both sequences agree as far as the tree compares them: the candidate's halves become
the position's. -/
theorem Descends.stopWhole (h : Descends bytes member m p low forest d lo hi bound)
    (e : Examined bytes member m p maxBackward low forest lo hi bound d.prevIx)
    (hm : Matched bytes p maxBackward s s')
    (hagree : reroots = true → Agree bytes maxTreeCompLength d.prevIx p.curIx) :
    Walked bytes member m p maxBackward low reroots forest d s lo hi bound
      (if reroots then (forest.set d.nodeLeft (linkOf m forest (m.left d.prevIx))).set d.nodeRight
        (linkOf m forest (m.right d.prevIx))
        else forest, s') := by
  refine h.stop hm (fun hr => ?_) (fun hr => ?_)
  · exact (e.left.ends (fun _ h => h) fun q hq =>
      under_some ((hq _ rfl).congr_right (hagree hr))).weaken e.lt_bound.le
  · exact (e.right.ends (fun q hq => above_some ((hq _ rfl).congr_left (hagree hr))) fun _ h =>
      h).weaken e.lt_bound.le

/-- The walk through the right half of a candidate that sorts before the position. -/
theorem Walked.ofLeft (g : Grounds bytes m p maxBackward lg low)
    (h : Descends bytes member m p low forest d lo hi bound)
    (e : Examined bytes member m p maxBackward low forest lo hi bound d.prevIx) {len : ℕ}
    (hm : Matched bytes p maxBackward s s')
    (hsort : Precedes bytes d.prevIx p.curIx)
    (hr : Walked bytes member m p maxBackward low reroots
      (if reroots then forest.set d.nodeLeft d.prevIx else forest)
      ⟨linkOf m (if reroots then forest.set d.nodeLeft d.prevIx else forest) (m.right d.prevIx),
        m.right d.prevIx, d.nodeRight, len,
        d.bestLenRight⟩ s' (some d.prevIx) hi d.prevIx r) :
    Walked bytes member m p maxBackward low reroots forest d s lo hi bound r where
  matched := hm.trans hr.matched
  kept := fun hno => by
    have := hr.kept hno
    rwa [hno, if_neg Bool.false_ne_true] at this
  frame := fun i hl hright hfree => by
    rw [hr.frame i (hfree _ e.low_le e.lt_bound e.is_member e.above e.under).2 hright
      fun q hlow hq hmem ha hu =>
      hfree q hlow (hq.trans e.lt_bound) hmem (e.above.trans (ha _ rfl)) hu]
    exact linkOf_if_ne (Ne.symm hl)
  left := fun hyes => by
    have hfree := h.left_free _ e.low_le e.lt_bound
    have hroot := hr.frame d.nodeLeft hfree.2 h.holes_ne fun q hlow hq _ _ _ =>
      h.left_free q hlow (hq.trans e.lt_bound)
    rw [if_pos hyes] at hroot
    refine Ordered.of_set ?_ hroot
    -- the candidate's other half shares no link with the walk
    have hown : linkOf m r.1 (m.left d.prevIx) = linkOf m forest (m.left d.prevIx) :=
      (hr.frame _ (left_ne_right _) (h.right_free _ e.low_le e.lt_bound).1.symm
        fun q hlow hq _ _ _ => by
        have := g.slots_ne e.low_le hlow e.behind.le (hq.trans e.behind).le hq.ne'
        exact ⟨this.1, this.2.1⟩).trans (linkOf_if_ne hfree.1)
    have hother : ∀ q, low ≤ q → q < d.prevIx → Precedes bytes q d.prevIx →
        linkOf m r.1 (m.left q) = linkOf m forest (m.left q) ∧ linkOf m r.1 (m.right q) =
        linkOf m forest (m.right q) := by
      intro q hlow hq hbefore
      have hcand := g.slots_ne hlow e.low_le (hq.trans e.behind).le e.behind.le hq.ne
      have hnode := h.right_free q hlow (hq.trans e.lt_bound)
      have hroot := h.left_free q hlow (hq.trans e.lt_bound)
      have hwalk : ∀ q', low ≤ q' → q' < d.prevIx → Above bytes (some d.prevIx) q' →
          m.left q ≠ m.left q' ∧ m.left q ≠ m.right q' ∧ m.right q ≠ m.left q' ∧
          m.right q ≠ m.right q' := by
        intro q' hlow' hq' habove
        refine g.slots_ne hlow hlow' (hq.trans e.behind).le (hq'.trans e.behind).le ?_
        rintro rfl
        exact Precedes.irrefl q (hbefore.trans (habove _ rfl))
      constructor
      · rw [hr.frame _ hcand.2.1 hnode.1.symm fun q' hlow' hq' _ ha _ => ⟨(hwalk q' hlow' hq' ha).1,
          (hwalk q' hlow' hq' ha).2.1⟩]
        exact linkOf_if_ne hroot.1
      · rw [hr.frame _ hcand.2.2.2 hnode.2.symm fun q' hlow' hq' _ ha _ =>
          (hwalk q' hlow' hq' ha).2.2]
        exact linkOf_if_ne hroot.2
    refine .alive e.low_le e.lt_bound e.is_member e.above (under_some hsort) ?_ (hr.left hyes)
    rw [hown]
    exact e.left.frame fun q hlow hq _ _ hunder => hother q hlow hq (hunder _ rfl)
  right := fun hyes => (hr.right hyes).weaken e.lt_bound.le

/-- The walk through the left half of a candidate that sorts after the position. -/
theorem Walked.ofRight (g : Grounds bytes m p maxBackward lg low)
    (h : Descends bytes member m p low forest d lo hi bound)
    (e : Examined bytes member m p maxBackward low forest lo hi bound d.prevIx) {len : ℕ}
    (hm : Matched bytes p maxBackward s s')
    (hsort : Precedes bytes p.curIx d.prevIx)
    (hr : Walked bytes member m p maxBackward low reroots
      (if reroots then forest.set d.nodeRight d.prevIx else forest)
      ⟨linkOf m (if reroots then forest.set d.nodeRight d.prevIx else forest) (m.left d.prevIx),
        d.nodeLeft, m.left d.prevIx, d.bestLenLeft,
        len⟩ s' lo (some d.prevIx) d.prevIx r) :
    Walked bytes member m p maxBackward low reroots forest d s lo hi bound r where
  matched := hm.trans hr.matched
  kept := fun hno => by
    have := hr.kept hno
    rwa [hno, if_neg Bool.false_ne_true] at this
  frame := fun i hl hright hfree => by
    rw [hr.frame i hl (hfree _ e.low_le e.lt_bound e.is_member e.above e.under).1
      fun q hlow hq hmem ha hu =>
      hfree q hlow (hq.trans e.lt_bound) hmem ha (e.under.trans (hu _ rfl))]
    exact linkOf_if_ne (Ne.symm hright)
  left := fun hyes => (hr.left hyes).weaken e.lt_bound.le
  right := fun hyes => by
    have hfree := h.right_free _ e.low_le e.lt_bound
    have hroot := hr.frame d.nodeRight h.holes_ne.symm hfree.1 fun q hlow hq _ _ _ =>
      h.right_free q hlow (hq.trans e.lt_bound)
    rw [if_pos hyes] at hroot
    refine Ordered.of_set ?_ hroot
    -- the candidate's other half shares no link with the walk
    have hown : linkOf m r.1 (m.right d.prevIx) = linkOf m forest (m.right d.prevIx) :=
      (hr.frame _ (h.left_free _ e.low_le e.lt_bound).2.symm (left_ne_right _).symm
        fun q hlow hq _ _ _ => by
        have := g.slots_ne e.low_le hlow e.behind.le (hq.trans e.behind).le hq.ne'
        exact this.2.2).trans (linkOf_if_ne hfree.2)
    have hother : ∀ q, low ≤ q → q < d.prevIx → Precedes bytes d.prevIx q →
        linkOf m r.1 (m.left q) = linkOf m forest (m.left q) ∧ linkOf m r.1 (m.right q) =
        linkOf m forest (m.right q) := by
      intro q hlow hq hafter
      have hcand := g.slots_ne hlow e.low_le (hq.trans e.behind).le e.behind.le hq.ne
      have hnode := h.left_free q hlow (hq.trans e.lt_bound)
      have hroot := h.right_free q hlow (hq.trans e.lt_bound)
      have hwalk : ∀ q', low ≤ q' → q' < d.prevIx → Under bytes (some d.prevIx) q' →
          m.left q ≠ m.left q' ∧ m.left q ≠ m.right q' ∧ m.right q ≠ m.left q' ∧
          m.right q ≠ m.right q' := by
        intro q' hlow' hq' hunder
        refine g.slots_ne hlow hlow' (hq.trans e.behind).le (hq'.trans e.behind).le ?_
        rintro rfl
        exact Precedes.irrefl q ((hunder _ rfl).trans hafter)
      constructor
      · rw [hr.frame _ hnode.1.symm hcand.1 fun q' hlow' hq' _ _ hu => ⟨(hwalk q' hlow' hq' hu).1,
          (hwalk q' hlow' hq' hu).2.1⟩]
        exact linkOf_if_ne hroot.1
      · rw [hr.frame _ hnode.2.symm hcand.2.2.1 fun q' hlow' hq' _ _ hu =>
          (hwalk q' hlow' hq' hu).2.2]
        exact linkOf_if_ne hroot.2
    refine .alive e.low_le e.lt_bound e.is_member (above_some hsort) e.under (hr.right hyes) ?_
    rw [hown]
    exact e.right.frame fun q hlow hq _ habove _ => hother q hlow hq (habove _ rfl)

/-- The match of an examined candidate is true. -/
theorem Examined.trueCopy (e : Examined bytes member m p maxBackward low forest lo hi bound link)
    {len : ℕ} (hlen : len ≤ p.maxLength)
    (hagree : Agree bytes len link p.curIx) :
    TrueCopy bytes p maxBackward (wrappingSub p.curIx link) len := by
  have hbehind := e.behind
  have hnear := e.near
  rw [wrappingSub_of_le hbehind.le]
  refine ⟨by omega, by omega, by omega, hlen, fun i hi => ?_⟩
  rw [Nat.sub_sub_self hbehind.le]
  exact hagree i hi

/-- A walk that is cut off empties both places. -/
theorem Descends.cut (h : Descends bytes member m p low forest d lo hi bound) (s : Scan) :
    Walked bytes member m p maxBackward low reroots forest d s lo hi bound
      (if reroots then (forest.set d.nodeLeft m.invalidPos).set d.nodeRight m.invalidPos
        else forest, s) :=
  h.stop (.refl s) (fun _ => .dead (.inr rfl)) fun _ => .dead (.inr rfl)

/-- A walk records true matches of growing length only, and splits the tree it descends. -/
theorem walkTree_sound (g : Grounds bytes m p maxBackward lg low) {collects : Bool}
    (hfull : reroots = true → maxTreeCompLength ≤ p.maxLength)
    (depth : ℕ) (h : Descends bytes member m p low forest d lo hi bound) :
    Walked bytes member m p maxBackward low reroots forest d s lo hi bound
    (walkTree m p maxBackward reroots collects depth forest d s) := by
  induction depth generalizing forest d s lo hi bound with
  | zero =>
    rw [walkTree, if_pos (.inr (.inr rfl))]
    exact h.cut s
  | succ depth ih =>
    rw [walkTree]
    dsimp only
    split
    · exact h.cut s
    · next hcut =>
      rw [not_or, not_or] at hcut
      have e := g.examined h.tree h.bound_le (Nat.not_lt.1 hcut.2.1)
      have hskip := h.between.agree e.above e.under
      obtain ⟨hlen, hagree, hbyte⟩ :=
        lengthFrom_spec g.sees e.behind.le e.near
          ((Nat.min_le_left _ _).trans h.between.left_le) hskip
      have hm := s.collect_matched collects (e.trueCopy hlen hagree)
      split
      · next hwhole => exact h.stopWhole e hm fun hr =>
            hagree.mono ((Nat.le_min.2 ⟨hfull hr, Nat.le_refl _⟩).trans hwhole)
      · next hwhole =>
        rw [Nat.not_le, Nat.lt_min] at hwhole
        obtain ⟨hprev, hcur, hne⟩ := hbyte hwhole.1
        rw [hprev, hcur]
        split
        · next hless =>
          have hsort : Precedes bytes d.prevIx p.curIx := ⟨_, hwhole.2, hagree, hless⟩
          exact .ofLeft g h e hm hsort (ih (h.stepLeft g e hlen hagree hsort reroots))
        · next hless =>
          have hsort : Precedes bytes p.curIx d.prevIx :=
            ⟨_, hwhole.2, fun j hj => (hagree j hj).symm,
              (UInt8.lt_or_lt_of_ne hne).resolve_left hless⟩
          exact .ofRight g h e hm hsort (ih (h.stepRight g e hagree hsort reroots))

/-! ### The table -/

/-- The bucket of a stream position. -/
def hashAt (bytes : ℕ → UInt8) (q : ℕ) : ℕ :=
  hash [bytes q, bytes (q + 1), bytes (q + 2), bytes (q + 3)] 0

theorem hash_eq {data : List UInt8} {offset q : ℕ}
    (h : ∀ i < 4, data[offset + i]? = some (bytes (q + i))) :
    hash data offset = hashAt bytes q := by
  have hfits := (List.getElem?_eq_some_iff.1 (h 3 (by decide))).1
  have htake : (data.drop offset).take 4 =
      [bytes q, bytes (q + 1), bytes (q + 2), bytes (q + 3)] := by
    refine List.ext_getElem? fun i => ?_
    rw [List.getElem?_take, List.getElem?_drop]
    match i with
    | 0 => exact h 0 (by decide)
    | 1 => exact h 1 (by decide)
    | 2 => exact h 2 (by decide)
    | 3 => exact h 3 (by decide)
    | i + 4 => rw [if_neg (by omega), List.getElem?_eq_none (by simp)]
  rw [hashAt, hash, hash, if_pos (by omega), htake]
  rfl

/-- The table before position `n`: a bucket holds a tree of positions of the window that
hash to it. -/
structure Sound (bytes : ℕ → UInt8) (lg : ℕ) (m : BinaryTreeMatcher) (n : ℕ) : Prop where
  mask : m.windowMask = 2 ^ lg - 1
  invalid : m.invalidPos = 2 ^ 32 - (2 ^ lg - 1)
  trees : ∀ key, Ordered bytes (fun q => hashAt bytes q = key) m m.forest (n - 2 ^ lg) none none n
    (m.buckets.getD key m.invalidPos)

variable {n n' : ℕ} {m' : BinaryTreeMatcher}

/-- Only the shape of the window matters to the trees of a forest. -/
theorem Ordered.transfer (h : Ordered bytes member m forest low lo hi bound link)
    (hmask : m'.windowMask = m.windowMask)
    (hinvalid : m'.invalidPos = m.invalidPos) :
    Ordered bytes member m' forest low lo hi bound link := by
  have hlink : ∀ i, linkOf m' forest i = linkOf m forest i :=
    fun i => by rw [linkOf, linkOf, hinvalid]
  have hleft : ∀ q, m'.left q = m.left q :=
    fun q => by rw [BinaryTreeMatcher.left, BinaryTreeMatcher.left, hmask]
  have hright : ∀ q, m'.right q = m.right q :=
    fun q => by rw [BinaryTreeMatcher.right, BinaryTreeMatcher.right, hmask]
  induction h with
  | dead h => exact .dead (by rwa [hinvalid])
  | @alive lo hi bound q hlow hbound hmember habove hunder _ _ ihl ihr =>
    refine .alive hlow hbound hmember habove hunder ?_ ?_
    · rw [hlink, hleft]
      exact ihl
    · rw [hlink, hright]
      exact ihr

theorem Sound.mono (h : Sound bytes lg m n) (hn : n ≤ n') : Sound bytes lg m n' :=
  ⟨h.mask, h.invalid, fun key => ((h.trees key).prune (by omega)).weaken hn⟩

/-- Whatever a table held before, it is empty when a stream begins. -/
theorem prepare_sound (hmask : m.windowMask = 2 ^ lg - 1)
    (hinvalid : m.invalidPos = 2 ^ 32 - (2 ^ lg - 1)) (oneShot : Bool)
    (inputSize n : ℕ) : Sound bytes lg (m.prepare oneShot inputSize) n := by
  have hempty : ∀ k key : ℕ, (List.replicate k m.invalidPos).getD key m.invalidPos =
      m.invalidPos := by
    intro k key
    rw [List.getD_eq_getElem?_getD, List.getElem?_replicate]
    split <;> rfl
  exact ⟨hmask, hinvalid, fun key => .dead (.inr (hempty _ key))⟩

/-- What the callers promise of a position: a power of two for a ring, a backward limit
within the window, a position below the empty marker, and the bytes to look at. -/
structure Guaranteed (bytes : ℕ → UInt8) (lg : ℕ) (v : Visit) : Prop where
  ring : ∃ k, v.place.mask = 2 ^ k - 1
  back : v.maxBackward < 2 ^ lg
  valid : v.place.curIx < 2 ^ 32 - (2 ^ lg - 1)
  short : v.place.maxLength < 2 ^ 27
  sees : Sees bytes v.place v.maxBackward

theorem storeAndFindMatches_eq (m : BinaryTreeMatcher) (p : Place) (maxBackward : ℕ)
    (collects : Bool) (s : Scan) :
    storeAndFindMatches m p maxBackward collects s =
      let r :=
        walkTree m p maxBackward (decide (maxTreeCompLength ≤
    p.maxLength)) collects maxTreeSearchDepth m.forest
        ⟨m.buckets.getD (hash p.data p.curIxMasked) m.invalidPos, m.left p.curIx,
          m.right p.curIx, 0, 0⟩ s
      ({ m with
        buckets := if maxTreeCompLength ≤ p.maxLength
          then m.buckets.set (hash p.data p.curIxMasked) (p.curIx % 2 ^ 32) else m.buckets
        forest := r.1 }, r.2) := by
  rw [storeAndFindMatches]
  dsimp only
  simp only [decide_eq_true_eq]

/-- A position that is stored leaves the table in order, and only true matches are
recorded on the way. -/
theorem storeAndFindMatches_sound (h : Sound bytes lg m n) (hlg : 1 ≤ lg) (hlg' : lg ≤ 30)
    (hn : n ≤ p.curIx)
    (hg : Guaranteed bytes lg ⟨p, maxBackward⟩) (collects : Bool) (s : Scan) :
    Sound bytes lg (storeAndFindMatches m p maxBackward collects s).1 (p.curIx + 1) ∧
      Matched bytes p maxBackward s (storeAndFindMatches m p maxBackward collects s).2 := by
  have hwindow : 2 ^ lg ≤ 2 ^ 30 := Nat.pow_le_pow_right (by decide) hlg'
  have hwindow' : 2 ^ 1 ≤ 2 ^ lg := Nat.pow_le_pow_right (by decide) hlg
  have hinvalid := h.invalid
  have hvalid : p.curIx < 2 ^ 32 - (2 ^ lg - 1) := hg.valid
  have g : Grounds bytes m p maxBackward lg (p.curIx + 1 - 2 ^ lg) :=
    ⟨h.mask, rfl, hg.back, by omega, by omega, by omega, hg.sees⟩
  have htrees :=
    fun key => ((h.trees key).prune (show n - 2 ^ lg ≤ p.curIx + 1 - 2 ^ lg by omega)).weaken hn
  have hfree : ∀ q, p.curIx + 1 - 2 ^ lg ≤ q → q < p.curIx →
      m.left p.curIx ≠ m.left q ∧ m.left p.curIx ≠ m.right q ∧ m.right p.curIx ≠ m.left q ∧
      m.right p.curIx ≠ m.right q :=
    fun q hlow hq => g.slots_ne (by omega) hlow (Nat.le_refl _) hq.le hq.ne'
  rw [storeAndFindMatches_eq]
  dsimp only
  set key := hash p.data p.curIxMasked with hkey
  have hstart : Descends bytes (fun q => hashAt bytes q = key) m p (p.curIx + 1 - 2 ^ lg) m.forest
      ⟨m.buckets.getD key m.invalidPos, m.left p.curIx, m.right p.curIx, 0, 0⟩ none none p.curIx :=
      {
    between := ⟨fun _ h => (nomatch h), fun _ h => (nomatch h), Nat.zero_le _,
      fun _ h => (nomatch h), fun _ => rfl, fun _ h => (nomatch h),
      fun _ => rfl⟩
    tree := htrees key
    bound_le := Nat.le_refl _
    holes_ne := left_ne_right _
    left_free := fun q hlow hq => ⟨(hfree q hlow hq).1, (hfree q hlow hq).2.1⟩
    right_free := fun q hlow hq => (hfree q hlow hq).2.2 }
  have hwalk :=
    @walkTree_sound m bytes _ _ _ _ none none p maxBackward lg _
      (decide (maxTreeCompLength ≤ p.maxLength)) s g collects
      of_decide_eq_true maxTreeSearchDepth hstart
  set r :=
    walkTree m p maxBackward (decide (maxTreeCompLength ≤ p.maxLength)) collects
    maxTreeSearchDepth m.forest
    ⟨m.buckets.getD key m.invalidPos, m.left p.curIx, m.right p.curIx, 0, 0⟩ s with hr
  refine ⟨⟨h.mask, h.invalid, fun k => Ordered.transfer (m := m) ?_ rfl rfl⟩, hwalk.matched⟩
  dsimp only
  split
  · next hfull =>
    have hyes : decide (maxTreeCompLength ≤ p.maxLength) = true := decide_eq_true hfull
    rcases eq_or_ne key k with rfl | hne
    · -- the position is the root of its own bucket
      have hhash : hashAt bytes p.curIx = key :=
        (hash_eq fun i hi => g.sees p.curIx (Nat.le_refl _) (by omega) i
          (hi.trans_le ((by decide : 4 ≤ maxTreeCompLength).trans hfull))).symm
      rw [Nat.mod_eq_of_lt (by omega)]
      refine Ordered.of_bucket (.alive (by omega) (Nat.lt_succ_self _) hhash
        (fun _ h => (nomatch h)) (fun _ h => (nomatch h)) ?_ ?_)
      · exact hwalk.left hyes
      · exact hwalk.right hyes
    · rw [List.getD_eq_getElem?_getD, List.getElem?_set_ne hne, ← List.getD_eq_getElem?_getD]
      refine ((htrees k).frame fun q hlow hq hmem _ _ => ?_).weaken (Nat.le_succ _)
      have hown := hfree q hlow hq
      have hother : ∀ q', p.curIx + 1 - 2 ^ lg ≤ q' → q' < p.curIx → hashAt bytes q' = key →
          m.left q ≠ m.left q' ∧ m.left q ≠ m.right q' ∧ m.right q ≠ m.left q' ∧
          m.right q ≠ m.right q' := by
        intro q' hlow' hq' hmem'
        refine g.slots_ne hlow hlow' hq.le hq'.le ?_
        rintro rfl
        exact hne (hmem'.symm.trans hmem)
      exact ⟨hwalk.frame _ hown.1.symm hown.2.2.1.symm fun q' hlow' hq' hmem' _ _ =>
        ⟨(hother q' hlow' hq' hmem').1, (hother q' hlow' hq' hmem').2.1⟩,
        hwalk.frame _ hown.2.1.symm hown.2.2.2.symm fun q' hlow' hq' hmem' _ _ =>
        (hother q' hlow' hq' hmem').2.2⟩
  · next hfull =>
    rw [hwalk.kept (decide_eq_false hfull)]
    exact (htrees k).weaken (Nat.le_succ _)

end Mbrotli.Compressor.BinaryTree
