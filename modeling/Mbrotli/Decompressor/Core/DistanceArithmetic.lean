/-
# The distance arithmetic agrees and does not overflow

Every long code has a distance over the integers (`wireDistance`). The header's check
looks at the largest symbol of a code only. The buckets of a layout follow one another
without a gap and the symbols of a postfix group share a bucket, so a larger symbol has
the larger maximum and the check covers every smaller symbol (`wireDistance_le_of_le`).
Below the bound the 128-bit path, the 64-bit path and the wrapping table entry are all
that distance.

The recent distances are used through a `Resolver`, which resolves, takes out and pushes;
it only pushes what it resolved, so the cache stays in range over any run.

Key definitions: `wireDistance`, `intermediates`, `Resolver.Step`.
Key theorems: `validated_arithmetic`, `Resolver.run_inRange`, `distances_agree`.
-/
import Mathlib.Order.Monotone.Basic
import Mathlib.Tactic.Ring
import Mbrotli.Decompressor.Core.Distance

namespace Mbrotli
namespace DistanceLayout

/-- Where a bucket starts, before the postfix and the direct codes. -/
def bucketStart (bucket : ℕ) : ℕ := (2 + bucket % 2) * 2 ^ (1 + bucket / 2) - 4

/-- The distance of a long code over the integers. -/
def wireDistance (d : DistanceLayout) (symbol extra : ℕ) : ℕ :=
  if symbol < 16 + d.direct then symbol - 15
  else
    let code := symbol - 16 - d.direct
    (bucketStart (code / 2 ^ d.postfix_) + extra) * 2 ^ d.postfix_ + code % 2 ^
      d.postfix_ + d.direct + 1

/-- The values the 64-bit computations of a long code go through: those of
`short_window_distance`, of `entry`, and the shifted extra field. -/
def intermediates (d : DistanceLayout) (symbol extra : ℕ) : List ℕ :=
  if symbol < shortCodes + d.direct then [symbol - shortCodes + 1]
  else
    let code := symbol - shortCodes - d.direct
    let high := code >>> d.postfix_
    let low := code % 2 ^ d.postfix_
    let shifted := (2 + high % 2) <<< d.extraBits symbol
    [shifted, shifted - 4 + extra, (shifted - 4 + extra) <<< d.postfix_, low + d.direct + 1,
      ((shifted - 4 + extra) <<< d.postfix_) + (low + d.direct + 1), (shifted - 4) <<< d.postfix_,
      ((shifted - 4) <<< d.postfix_) + (low + d.direct + 1), extra <<< d.postfix_]

/-- The table the command loop reads is the constant one, or was filled for the layout. -/
def Filled (d : DistanceLayout) (filled : Buffer Partial) : Prop :=
  d.isStandard = true ∨ ∃ table memory memory', d.fillTable table memory = .ok (memory', filled)

variable {d : DistanceLayout} {symbol other extra : ℕ}

/-! ### Buckets follow one another -/

theorem four_le_bucket (bucket : ℕ) : 4 ≤ (2 + bucket % 2) * 2 ^ (1 + bucket / 2) := by
  have hpow : 2 ^ 1 ≤ 2 ^ (1 + bucket / 2) :=
    Nat.pow_le_pow_right (by decide) (Nat.le_add_right _ _)
  calc 4 = 2 * 2 ^ 1 := rfl
    _ ≤ (2 + bucket % 2) * 2 ^ (1 + bucket / 2) := Nat.mul_le_mul (Nat.le_add_right _ _) hpow

theorem bucketStart_succ (bucket : ℕ) :
    bucketStart (bucket + 1) = bucketStart bucket + 2 ^ (1 + bucket / 2) := by
  have hfour := four_le_bucket bucket
  have hnext : (2 + (bucket + 1) % 2) * 2 ^ (1 + (bucket + 1) / 2) =
      (2 + bucket % 2) * 2 ^ (1 + bucket / 2) + 2 ^ (1 + bucket / 2) := by
    rcases Nat.mod_two_eq_zero_or_one bucket with heven | hodd
    · rw [show (bucket + 1) % 2 = 1 by omega, show (bucket + 1) / 2 = bucket / 2 by omega, heven]
      ring
    · rw [show (bucket + 1) % 2 = 0 by omega, show 1 + (bucket + 1) / 2 =
        1 + bucket / 2 + 1 by omega, hodd, pow_succ]
      ring
  rw [bucketStart, bucketStart, hnext]
  exact Nat.sub_add_comm hfour

theorem bucketStart_mono : Monotone bucketStart :=
  monotone_nat_of_le_succ fun bucket => bucketStart_succ bucket ▸ Nat.le_add_right _ _

theorem extraBits_long (h : shortCodes + d.direct ≤ symbol) :
    d.extraBits symbol = 1 + (symbol - shortCodes - d.direct) / 2 ^ d.postfix_ / 2 := by
  rw [extraBits, if_neg (Nat.not_lt.2 h), Nat.shiftRight_eq_div_pow, pow_succ,
    Nat.div_div_eq_div_mul]

theorem wireDistance_direct (h : symbol < shortCodes + d.direct) :
    d.wireDistance symbol extra = symbol - 15 :=
  if_pos h

theorem wireDistance_long (h : shortCodes + d.direct ≤ symbol) :
    d.wireDistance symbol extra =
      (bucketStart ((symbol - shortCodes - d.direct) / 2 ^ d.postfix_) + extra) * 2 ^ d.postfix_ +
        (symbol - shortCodes - d.direct) % 2 ^ d.postfix_ + d.direct + 1 := if_neg (Nat.not_lt.2 h)

/-- Both sides of a split use the same extra bits and the same bucket. -/
theorem shifted_eq (h : shortCodes + d.direct ≤ symbol) :
    (2 + (symbol - shortCodes - d.direct) >>> d.postfix_ % 2) <<< d.extraBits symbol =
      bucketStart ((symbol - shortCodes - d.direct) / 2 ^ d.postfix_) + 4 := by
  rw [extraBits_long h, Nat.shiftLeft_eq, Nat.shiftRight_eq_div_pow, bucketStart]
  have hfour := four_le_bucket ((symbol - shortCodes - d.direct) / 2 ^ d.postfix_)
  omega

/-- The 128-bit path computes the distance. -/
theorem longDistance_eq_wire (h16 : shortCodes ≤ symbol) :
    d.longDistance symbol extra = d.wireDistance symbol extra := by
  have h : shortCodes = 16 := rfl
  rw [longDistance]
  by_cases hdirect : symbol < shortCodes + d.direct
  · rw [if_pos hdirect, wireDistance_direct hdirect]
    omega
  · rw [if_neg hdirect, wireDistance_long (Nat.not_lt.1 hdirect)]
    simp only []
    rw [shifted_eq (Nat.not_lt.1 hdirect), Nat.add_sub_cancel, Nat.shiftLeft_eq]

theorem wireDistance_pos (h16 : shortCodes ≤ symbol) : 1 ≤ d.wireDistance symbol extra := by
  by_cases hdirect : symbol < shortCodes + d.direct
  · rw [wireDistance_direct hdirect]
    exact Nat.le_sub_of_add_le h16
  · rw [wireDistance_long (Nat.not_lt.1 hdirect)]
    exact Nat.le_add_left _ _

/-- **A larger symbol has the larger maximum.** Within a bucket the postfix decides;
a smaller bucket ends before a larger one starts. -/
theorem wireDistance_le_of_le (hle : symbol ≤ other) (hextra : extra < 2 ^ d.extraBits symbol) :
    d.wireDistance symbol extra ≤ d.wireDistance other (2 ^ d.extraBits other - 1) := by
  have h : shortCodes = 16 := rfl
  by_cases hother : other < shortCodes + d.direct
  · rw [wireDistance_direct hother, wireDistance_direct (hle.trans_lt hother)]
    exact Nat.sub_le_sub_right hle 15
  rw [wireDistance_long (Nat.not_lt.1 hother)]
  by_cases hdirect : symbol < shortCodes + d.direct
  · rw [wireDistance_direct hdirect]
    omega
  rw [wireDistance_long (Nat.not_lt.1 hdirect)]
  have hwidth := extraBits_long (d := d) (Nat.not_lt.1 hdirect)
  set code := symbol - shortCodes - d.direct with hcode
  set last := other - shortCodes - d.direct with hlast
  have hcodes : code ≤ last := by omega
  have hpow : 0 < 2 ^ d.postfix_ := Nat.two_pow_pos _
  have hbuckets : code / 2 ^ d.postfix_ ≤ last / 2 ^ d.postfix_ := Nat.div_le_div_right hcodes
  rcases hbuckets.eq_or_lt with hsame | hless
  · have hlow : code % 2 ^ d.postfix_ ≤ last % 2 ^ d.postfix_ := by
      have h1 := Nat.div_add_mod code (2 ^ d.postfix_)
      have h2 := Nat.div_add_mod last (2 ^ d.postfix_)
      rw [hsame] at h1
      omega
    have hfield : extra ≤ 2 ^ d.extraBits other - 1 := by
      rw [extraBits_long (Nat.not_lt.1 hother), ← hlast, ← hsame, ← hwidth]
      exact Nat.le_sub_one_of_lt hextra
    rw [hsame]
    have hmul := Nat.mul_le_mul_right (2 ^ d.postfix_)
      (Nat.add_le_add_left hfield (bucketStart (last / 2 ^ d.postfix_)))
    omega
  · have hend : bucketStart (code / 2 ^ d.postfix_) + extra + 1 ≤
        bucketStart (last / 2 ^ d.postfix_) := by
      rw [hwidth] at hextra
      calc bucketStart (code / 2 ^ d.postfix_) + extra + 1
          ≤ bucketStart (code / 2 ^ d.postfix_ + 1) := by
            rw [bucketStart_succ]
            omega
        _ ≤ bucketStart (last / 2 ^ d.postfix_) := bucketStart_mono hless
    have hlow : code % 2 ^ d.postfix_ < 2 ^ d.postfix_ := Nat.mod_lt _ hpow
    have hmul := Nat.mul_le_mul_right (2 ^ d.postfix_) hend
    rw [Nat.succ_mul] at hmul
    have hfield := Nat.mul_le_mul_right (2 ^ d.postfix_)
      (Nat.le_add_right (bucketStart (last / 2 ^ d.postfix_)) (2 ^ d.extraBits other - 1))
    omega

/-! ### What the header's check gives -/

theorem validateSymbol_ok (h : d.validateSymbol other = .ok ()) :
    other < d.alphabet ∧ (shortCodes ≤ other → d.longDistance other (2 ^ d.extraBits other - 1) ≤
      maxDistance) := by
  rw [validateSymbol] at h
  by_cases halphabet : d.alphabet ≤ other
  · rw [if_pos halphabet] at h
    cases h
  rw [if_neg halphabet] at h
  by_cases hfar : shortCodes ≤ other ∧
    maxDistance < d.longDistance other (2 ^ d.extraBits other - 1)
  · rw [if_pos hfar] at h
    cases h
  · exact ⟨Nat.not_le.1 halphabet, fun h16 => Nat.not_lt.1 fun hmax => hfar ⟨h16, hmax⟩⟩

/-- **One check covers every smaller symbol.** -/
theorem wireDistance_le_max (h : d.validateSymbol other = .ok ()) (h16 : shortCodes ≤ symbol)
    (hle : symbol ≤ other)
    (hextra : extra < 2 ^ d.extraBits symbol) : d.wireDistance symbol extra ≤ maxDistance := by
  have hmax := (validateSymbol_ok h).2 (h16.trans hle)
  rw [longDistance_eq_wire (h16.trans hle)] at hmax
  exact (wireDistance_le_of_le hle hextra).trans hmax

/-- The lookup reads the entry of the symbol. -/
theorem table_eq_entry {filled : Buffer Partial} (h : d.Filled filled)
    (hsymbol : symbol < d.alphabet) :
    d.table filled symbol = d.entry symbol := by
  rw [table]
  rcases h with hstandard | ⟨table, memory, memory', hfill⟩
  · rw [if_pos hstandard]
  by_cases hstandard : d.isStandard
  · rw [if_pos hstandard]
  rw [if_neg hstandard]
  rw [fillTable] at hfill
  cases hreserve : memory.reserve Partial.size table.clear d.alphabet with
  | error e =>
    rw [hreserve] at hfill
    cases hfill
  | ok reserved =>
    obtain ⟨granted, room⟩ := reserved
    rw [hreserve] at hfill
    obtain ⟨-, -, hlen, -⟩ := Memory.reserve_ok hreserve
    rw [Buffer.clear_len] at hlen
    simp only [Except.ok.injEq, Prod.mk.injEq] at hfill
    rw [← hfill.2, Buffer.extend]
    simp only [hlen]
    rw [if_pos ⟨Nat.zero_le _, by omega⟩, Nat.sub_zero]

/-- An accepted code takes every step of the 64-bit arithmetic below `2 ^ 64`. -/
theorem intermediates_lt (h : d.wireDistance symbol extra ≤ maxDistance) :
    ∀ v ∈ d.intermediates symbol extra, v < 2 ^ 64 := by
  have hmax : maxDistance < 2 ^ 63 := by decide
  have h16 : shortCodes = 16 := rfl
  rw [intermediates]
  by_cases hdirect : symbol < shortCodes + d.direct
  · rw [if_pos hdirect]
    rw [wireDistance_direct hdirect] at h
    intro v hv
    rw [List.mem_singleton] at hv
    omega
  · rw [if_neg hdirect]
    rw [wireDistance_long (Nat.not_lt.1 hdirect)] at h
    simp only []
    rw [shifted_eq (Nat.not_lt.1 hdirect), Nat.add_sub_cancel]
    simp only [Nat.shiftLeft_eq]
    set start := bucketStart ((symbol - shortCodes - d.direct) / 2 ^ d.postfix_)
    have hpow : 0 < 2 ^ d.postfix_ := Nat.two_pow_pos _
    have hsplit : (start + extra) * 2 ^ d.postfix_ = start * 2 ^ d.postfix_ + extra * 2 ^
      d.postfix_ := Nat.add_mul _ _ _
    have hgrow : start + extra ≤ (start + extra) * 2 ^ d.postfix_ := Nat.le_mul_of_pos_right _ hpow
    intro v hv
    simp only [List.mem_cons, List.not_mem_nil, or_false] at hv
    omega

/-- The entry of an accepted symbol holds its width and its distance without the extra
field, none of which wrapped. -/
theorem entry_spec (h16 : shortCodes ≤ symbol) (h : d.wireDistance symbol extra ≤ maxDistance)
    (hextra : extra < 2 ^ d.extraBits symbol) :
    (d.entry symbol).width = d.extraBits symbol ∧
      (d.entry symbol).base + (extra <<< d.postfix_) = d.wireDistance symbol extra := by
  have hmax : maxDistance < 2 ^ 63 := by decide
  have h15 : shortCodes = 16 := rfl
  rw [entry, if_neg (Nat.not_lt.2 h16)]
  by_cases hdirect : symbol < shortCodes + d.direct
  · have hwidth : d.extraBits symbol = 0 := if_pos hdirect
    rw [hwidth, Nat.pow_zero, Nat.lt_one_iff] at hextra
    rw [if_pos hdirect, hwidth, wireDistance_direct hdirect, hextra, Nat.zero_shiftLeft]
    refine ⟨rfl, ?_⟩
    show symbol - shortCodes + 1 + 0 = symbol - 15
    omega
  · have hwidth : d.extraBits symbol =
      1 + ((symbol - shortCodes - d.direct) >>> (d.postfix_ + 1)) := if_neg hdirect
    have hshift := shifted_eq (d := d) (Nat.not_lt.1 hdirect)
    rw [if_neg hdirect]
    simp only [← hwidth, hshift, Nat.shiftLeft_eq]
    rw [wireDistance_long (Nat.not_lt.1 hdirect)] at h ⊢
    set start := bucketStart ((symbol - shortCodes - d.direct) / 2 ^ d.postfix_)
    have hpow : 0 < 2 ^ d.postfix_ := Nat.two_pow_pos _
    have hsplit : (start + extra) * 2 ^ d.postfix_ = start * 2 ^ d.postfix_ + extra * 2 ^
      d.postfix_ := Nat.add_mul _ _ _
    have hgrow : start ≤ start * 2 ^ d.postfix_ := Nat.le_mul_of_pos_right _ hpow
    have hoffset : ((start + 4) % 2 ^ 64 + 2 ^ 64 - 4) % 2 ^ 64 = start := by omega
    refine ⟨trivial, ?_⟩
    rw [hoffset, Nat.mod_eq_of_lt (by omega : start * 2 ^ d.postfix_ < 2 ^ 64),
      Nat.mod_eq_of_lt (by omega)]
    omega

/-- **One validated symbol makes the arithmetic of all smaller ones agree.** -/
theorem validated_arithmetic {filled : Buffer Partial} (h : d.validateSymbol other = .ok ())
    (hfilled : d.Filled filled)
    (h16 : shortCodes ≤ symbol) (hle : symbol ≤ other) (hextra : extra < 2 ^ d.extraBits symbol)
    (cache : Cache) :
    (d.table filled symbol).width = d.extraBits symbol ∧
      (d.table filled symbol).base + (extra <<< d.postfix_) = d.wireDistance symbol extra ∧
      d.resolve symbol extra cache = .ok (d.wireDistance symbol extra) ∧
      (1 ≤ d.wireDistance symbol extra ∧ d.wireDistance symbol extra ≤ maxDistance) ∧
      ∀ v ∈ d.intermediates symbol extra, v < 2 ^ 64 := by
  have hmax := wireDistance_le_max h h16 hle hextra
  have h64 : maxDistance ≤ u64Max := by decide
  obtain ⟨hwidth, hbase⟩ := entry_spec h16 hmax hextra
  rw [table_eq_entry hfilled (hle.trans_lt (validateSymbol_ok h).1)]
  refine ⟨hwidth, hbase, ?_, ⟨wireDistance_pos h16, hmax⟩, intermediates_lt hmax⟩
  rw [resolve_long h16 ((longDistance_eq_wire h16).le.trans (hmax.trans h64)),
    longDistance_eq_wire h16]

end DistanceLayout

/-! ### The recent distances -/

/-- What the decoder keeps of distances: the recent ones, and the one it works on. -/
structure Resolver where
  cache : Cache := {}
  distance : Option ℕ := none

namespace Resolver

/-- One use of the recent distances. -/
inductive Step where
  /-- A symbol is resolved, a short code against the recent distances. -/
  | resolve (layout : DistanceLayout) (symbol extra : ℕ)
  /-- A command without a symbol takes the most recent distance. -/
  | recent
  /-- The command loop takes the most recent distance out. -/
  | pop
  /-- The distance is pushed. -/
  | push

namespace Step

/-- The step; a code that does not resolve is an error of the stream. -/
def apply : Step → Resolver → Except DecodeError Resolver
  | resolve layout symbol extra, r => do
    let distance ← layout.resolve symbol extra r.cache
    return { r with distance := some distance }
  | recent, r => .ok { r with distance := some (r.cache.recent 0) }
  | pop, r => .ok { cache := r.cache.pop.2, distance := some r.cache.pop.1 }
  | push, r =>
    match r.distance with
    | none => .ok r
    | some distance => .ok { r with cache := r.cache.push distance }

/-- A long code is one of a tree whose largest symbol the header accepted. -/
def Accepted : Step → Prop
  | resolve layout symbol extra => shortCodes ≤ symbol →
      extra < 2 ^ layout.extraBits symbol ∧ ∃ last, layout.validateSymbol last =
      .ok () ∧ symbol ≤ last
  | recent | pop | push => True

end Step

/-- A run of steps, up to the first error. -/
def run : List Step → Resolver → Except DecodeError Resolver
  | [], r => .ok r
  | step :: steps, r => do
    let r ← step.apply r
    run steps r

/-- Every distance kept is one a stream can have. -/
structure InRange (r : Resolver) : Prop where
  slots : ∀ i, 1 ≤ r.cache.slots i ∧ r.cache.slots i ≤ maxDistance
  distance : ∀ n ∈ r.distance, 1 ≤ n ∧ n ≤ maxDistance

variable {r r' : Resolver} {steps : List Step}

theorem inRange_default : InRange {} :=
  ⟨by decide, fun _ h => absurd h (Option.not_mem_none _)⟩

/-- A short code that resolves is in range whatever the recent distances are. -/
theorem short_inRange {symbol n : ℕ} {cache : Cache}
    (h : DistanceLayout.short symbol cache = .ok n) :
    1 ≤ n ∧ n ≤ maxDistance := by
  rw [DistanceLayout.short] at h
  split at h
  · rename_i hrange
    simp only [Except.ok.injEq] at h
    omega
  · cases h

theorem resolve_inRange {layout : DistanceLayout} {symbol extra n : ℕ} {cache : Cache}
    (haccepted : (Step.resolve layout symbol extra).Accepted)
    (h : layout.resolve symbol extra cache = .ok n) :
    1 ≤ n ∧ n ≤ maxDistance := by
  by_cases h16 : shortCodes ≤ symbol
  · obtain ⟨hextra, last, hlast, hle⟩ := haccepted h16
    have hmax := DistanceLayout.wireDistance_le_max hlast h16 hle hextra
    have h64 : maxDistance ≤ u64Max := by decide
    have hlong : layout.longDistance symbol extra = layout.wireDistance symbol extra :=
      DistanceLayout.longDistance_eq_wire h16
    rw [DistanceLayout.resolve_long h16 (hlong.le.trans (hmax.trans h64)), hlong] at h
    cases h
    exact ⟨DistanceLayout.wireDistance_pos h16, hmax⟩
  · rw [DistanceLayout.resolve, if_neg h16] at h
    exact short_inRange h

theorem apply_inRange {step : Step} (h : r.InRange) (haccepted : step.Accepted)
    (hstep : step.apply r = .ok r') :
    r'.InRange := by
  cases step with
  | resolve layout symbol extra =>
    rw [Step.apply] at hstep
    cases hresolve : layout.resolve symbol extra r.cache with
    | error e =>
      rw [hresolve] at hstep
      cases hstep
    | ok n =>
      rw [hresolve] at hstep
      cases hstep
      exact ⟨h.slots, fun m hm => Option.some.inj hm ▸ resolve_inRange haccepted hresolve⟩
  | recent =>
    cases hstep
    exact ⟨h.slots, fun m hm => Option.some.inj hm ▸ h.slots _⟩
  | pop =>
    cases hstep
    exact ⟨h.slots, fun m hm => Option.some.inj hm ▸ h.slots _⟩
  | push =>
    rw [Step.apply] at hstep
    cases hdistance : r.distance with
    | none =>
      rw [hdistance] at hstep
      cases hstep
      exact h
    | some n =>
      rw [hdistance] at hstep
      cases hstep
      refine ⟨fun i => ?_, fun m hm => h.distance m (hdistance.symm ▸ hm)⟩
      show 1 ≤ Function.update r.cache.slots r.cache.index n i ∧
        Function.update r.cache.slots r.cache.index n i ≤ _
      by_cases hi : i = r.cache.index
      · rw [hi, Function.update_self]
        exact h.distance n hdistance
      · rw [Function.update_of_ne hi]
        exact h.slots i

/-- **The recent distances stay in range** over any run, whatever layouts its codes are of. -/
theorem run_inRange (h : r.InRange) (haccepted : ∀ step ∈ steps, step.Accepted)
    (hrun : run steps r = .ok r') :
    r'.InRange := by
  induction steps generalizing r with
  | nil =>
    cases hrun
    exact h
  | cons step steps ih =>
    rw [run] at hrun
    cases hstep : step.apply r with
    | error e =>
      rw [hstep] at hrun
      cases hrun
    | ok next =>
      rw [hstep] at hrun
      have hnext := apply_inRange h (haccepted step List.mem_cons_self) hstep
      exact ih hnext (fun s hs => haccepted s (List.mem_cons_of_mem _ hs)) hrun

end Resolver

namespace DistanceLayout

/-- **Distance arithmetic agrees and never overflows.** When the header accepts the
largest symbol of a code, every long code up to it has one distance, in range: the
table entry with the extra field, either window's arithmetic and the integers give it,
and no step passes 64 bits. A short code's entry is empty, and it resolves through the
recent distances to one in range or is refused. Those stay in range over any run. -/
theorem distances_agree (header : UInt8) (large : Bool) {last : ℕ} {filled : Buffer Partial}
    (haccepted : (fromHeader header.toNat large).validateSymbol last = .ok ())
    (hfilled : (fromHeader header.toNat large).Filled filled) :
    let d := fromHeader header.toNat large
    (∀ symbol ≤ last, ∀ extra < 2 ^ d.extraBits symbol, ∀ cache,
      (d.table filled symbol).width = d.extraBits symbol ∧
        (shortCodes ≤ symbol →
          (d.table filled symbol).base + (extra <<< d.postfix_) = d.wireDistance symbol extra ∧
            d.resolve symbol extra cache = .ok (d.wireDistance symbol extra) ∧
            (1 ≤ d.wireDistance symbol extra ∧ d.wireDistance symbol extra ≤ maxDistance) ∧
            ∀ v ∈ d.intermediates symbol extra, v < 2 ^ 64) ∧
        (symbol < shortCodes → d.table filled symbol = ⟨0, 0⟩ ∧ d.resolve symbol extra cache =
          short symbol cache)) ∧
      ∀ steps r, (∀ step ∈ steps, Resolver.Step.Accepted step) → Resolver.run steps {} = .ok r →
        ∀ i, 1 ≤ r.cache.slots i ∧ r.cache.slots i ≤ maxDistance := by
  intro d
  refine ⟨fun symbol hle extra hextra cache => ?_, fun steps r hsteps hrun =>
    (Resolver.run_inRange Resolver.inRange_default hsteps hrun).slots⟩
  by_cases h16 : shortCodes ≤ symbol
  · obtain ⟨hwidth, hagree⟩ := validated_arithmetic haccepted hfilled h16 hle hextra cache
    exact ⟨hwidth, fun _ => hagree, fun hshort => absurd h16 (Nat.not_le.2 hshort)⟩
  · have hshort := Nat.not_le.1 h16
    have hentry : d.table filled symbol = ⟨0, 0⟩ := by
      rw [table_eq_entry hfilled (hle.trans_lt (validateSymbol_ok haccepted).1), entry,
        if_pos hshort]
    have hwidth : d.extraBits symbol = 0 := if_pos (hshort.trans_le (Nat.le_add_right _ _))
    refine ⟨by rw [hentry, hwidth], fun h => absurd h h16, fun _ => ⟨hentry, ?_⟩⟩
    rw [resolve, if_neg h16]

/-- The layout with postfixes of three bits and 504 direct codes, in a large window. -/
theorem distances_agree_last :
    let d := fromHeader 255 true
    d.resolve 1023 (2 ^ 32 - 1) {} = .ok (d.wireDistance 1023 (2 ^ 32 - 1)) ∧
      d.wireDistance 1023 (2 ^ 32 - 1) ≤ maxDistance := by
  intro d
  obtain ⟨memory, filled, hfill⟩ : ∃ memory filled, d.fillTable (.new {}) {} =
      .ok (memory, filled) := by
    obtain ⟨memory, room, hreserve⟩ :=
      Memory.reserve_of_unlimited (m := {}) rfl Partial.size d.alphabet
        (Buffer.new ({} : Partial)).clear
    exact ⟨memory, room.extend d.alphabet d.entry, by rw [fillTable, hreserve]⟩
  have hagree := (@distances_agree 255 true 1023 filled (by decide) (.inr ⟨_, _, _, hfill⟩)).1
  obtain ⟨-, hlong, -⟩ := hagree 1023 (le_refl _) (2 ^ 32 - 1) (by decide) {}
  obtain ⟨-, hresolve, hrange, -⟩ := hlong (by decide)
  exact ⟨hresolve, hrange.2⟩

/-- A short code's entry is empty: the last distance is 4 where a stream begins. -/
theorem short_disagrees :
    (fromHeader 0 false).validateSymbol 16 = .ok () ∧ 0 ≤ 16 ∧
    0 < 2 ^ (fromHeader 0 false).extraBits 0 ∧
      .ok (((fromHeader 0 false).entry 0).base + (0 <<< (fromHeader 0 false).postfix_)) ≠
        (fromHeader 0 false).resolve 0 0 {} := by decide

end DistanceLayout
end Mbrotli
