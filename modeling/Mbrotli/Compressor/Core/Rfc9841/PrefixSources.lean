/-
# The attached prefix, and how a backward distance addresses it

The attachments are one byte sequence in front of the stream: cumulative starts turn a
logical address into an attachment and an offset inside it. An empty attachment has an
empty span, so no address is located in it.

Key definitions: `PrefixSources`, `locate`, `addressOf`.
Key theorems: `locate_start_add`, `addressOf_distance`.
-/
import Mathlib.Data.List.Basic
import Mathlib.Algebra.BigOperators.Group.List.Basic
import Mathlib.Algebra.GroupWithZero.Nat

namespace Mbrotli.Compressor.Rfc9841

/-- The logical ends of the segments behind `total` bytes. -/
def endsFrom : ℕ → List (List UInt8) → List ℕ
  | _, [] => []
  | total, segment :: segments =>
      (total + segment.length) :: endsFrom (total + segment.length) segments

/-- The attached dictionaries, in attachment order, and the logical start of each, with
the total length appended. -/
structure PrefixSources where
  segments : List (List UInt8)
  starts : List ℕ
  starts_eq : starts = 0 :: endsFrom 0 segments

namespace PrefixSources

/-- Lays the cumulative offsets out. -/
def new (segments : List (List UInt8)) : PrefixSources := ⟨segments, 0 :: endsFrom 0 segments, rfl⟩

/-- How many dictionaries are attached, empty ones included. -/
def segmentCount (p : PrefixSources) : ℕ := p.segments.length

def totalLen (p : PrefixSources) : ℕ :=
  match p.starts.getLast? with
  | some total => total
  | none => 0

/-- The bytes of one attachment. -/
def segment (p : PrefixSources) (index : ℕ) : List UInt8 := p.segments.getD index []

/-- The logical address an attachment starts at. -/
def segmentStart (p : PrefixSources) (index : ℕ) : ℕ :=
  match p.starts[index]? with
  | some start => start
  | none => p.totalLen

/-- Looks for the segment of an address among `k` of them. -/
def locateFrom (p : PrefixSources) (logical : ℕ) : ℕ → ℕ → Option (ℕ × ℕ)
  | 0, _ => none
  | k + 1, index =>
    if logical < p.starts.getD (index + 1) 0 then some (index, logical - p.starts.getD index 0)
    else p.locateFrom logical k (index + 1)

/-- The segment of a logical address and the offset inside it. -/
def locate (p : PrefixSources) (logical : ℕ) : Option (ℕ × ℕ) :=
  if p.totalLen ≤ logical then none else p.locateFrom logical p.segments.length 0

/-- The logical address a backward distance refers to, if it reaches into the prefix. -/
def addressOf (p : PrefixSources) (distance maxBackward : ℕ) : Option ℕ :=
  if distance < maxBackward then none
  else if distance - maxBackward = 0 then none
  else if p.totalLen < distance - maxBackward then none
  else some (p.totalLen - (distance - maxBackward))

variable {p : PrefixSources} {index k : ℕ} {segments : List (List UInt8)}

theorem getD_endsFrom (total : ℕ) (h : index < segments.length) :
    (endsFrom total segments).getD index 0 =
    total + ((segments.take (index + 1)).map List.length).sum := by
  induction segments generalizing total index with
  | nil => exact absurd h (Nat.not_lt_zero _)
  | cons segment segments ih =>
    cases index with
    | zero =>
      rw [endsFrom, List.getD_cons_zero, List.take_succ_cons, List.take_zero, List.map_singleton,
        List.sum_singleton]
    | succ index =>
      rw [List.length_cons] at h
      rw [endsFrom, List.getD_cons_succ, ih _ (by omega), List.take_succ_cons, List.map_cons,
        List.sum_cons, Nat.add_assoc]

theorem length_endsFrom (total : ℕ) (segments : List (List UInt8)) :
    (endsFrom total segments).length = segments.length := by
  induction segments generalizing total with
  | nil => rfl
  | cons segment segments ih => rw [endsFrom, List.length_cons, List.length_cons, ih]

theorem length_starts (p : PrefixSources) : p.starts.length = p.segments.length + 1 := by
  rw [p.starts_eq, List.length_cons, length_endsFrom]

theorem getD_starts (h : index ≤ p.segments.length) :
    p.starts.getD index 0 = ((p.segments.take index).map List.length).sum := by
  rw [p.starts_eq]
  cases index with
  | zero => rfl
  | succ index => rw [List.getD_cons_succ, getD_endsFrom 0 h, Nat.zero_add]

theorem totalLen_eq (p : PrefixSources) : p.totalLen = (p.segments.map List.length).sum := by
  have hlast : p.starts.getLast? = some (p.starts.getD p.segments.length 0) := by
    have hlt : p.segments.length < p.starts.length := by
      rw [length_starts]; exact Nat.lt_succ_self _
    rw [List.getLast?_eq_getElem?, length_starts, Nat.add_sub_cancel, List.getD_eq_getElem?_getD,
      List.getElem?_eq_getElem hlt, Option.getD_some]
  rw [totalLen, hlast, getD_starts (Nat.le_refl _), List.take_length]

theorem segmentStart_eq (h : index ≤ p.segments.length) :
    p.segmentStart index = ((p.segments.take index).map List.length).sum := by
  have hlt : index < p.starts.length := by rw [length_starts]; exact Nat.lt_succ_of_le h
  rw [← getD_starts h, segmentStart, List.getElem?_eq_getElem hlt, List.getD_eq_getElem?_getD,
    List.getElem?_eq_getElem hlt, Option.getD_some]

/-- The next attachment starts where this one ends. -/
theorem sum_take_succ_lengths (h : index < p.segments.length) :
    ((p.segments.take (index + 1)).map List.length).sum =
    ((p.segments.take index).map List.length).sum + (p.segment index).length := by
  rw [List.take_add_one, List.map_append, List.sum_append, segment, List.getD_eq_getElem?_getD,
    List.getElem?_eq_getElem h]
  simp

theorem sum_take_lengths_mono {i j : ℕ} (h : i ≤ j) :
    ((p.segments.take i).map List.length).sum ≤ ((p.segments.take j).map List.length).sum := by
  obtain ⟨d, rfl⟩ := Nat.exists_eq_add_of_le h
  rw [List.take_add, List.map_append, List.sum_append]
  exact Nat.le_add_right _ _

/-- An attachment lies inside the prefix. -/
theorem segmentStart_add_le (h : index < p.segments.length) :
    p.segmentStart index + (p.segment index).length ≤ p.totalLen := by
  rw [segmentStart_eq (Nat.le_of_lt h), ← sum_take_succ_lengths h, totalLen_eq]
  conv_rhs => rw [← List.take_length (l := p.segments)]
  exact sum_take_lengths_mono h

theorem locateFrom_spec {logical : ℕ} (h : index < p.segments.length)
    (hlow : p.segmentStart index ≤ logical)
    (hhigh : logical < p.segmentStart index + (p.segment index).length) {i : ℕ} (hi : i ≤ index)
    (hk : index < i + k)
    (hki : i + k ≤ p.segments.length) :
    p.locateFrom logical k i = some (index, logical - p.segmentStart index) := by
  rw [segmentStart_eq (Nat.le_of_lt h)] at hlow hhigh ⊢
  induction k generalizing i with
  | zero => omega
  | succ k ih =>
    rw [locateFrom, getD_starts (show i + 1 ≤ p.segments.length by omega),
      getD_starts (show i ≤ p.segments.length by omega)]
    rcases Nat.lt_or_eq_of_le hi with hlt | rfl
    · have hmono : ((p.segments.take (i + 1)).map List.length).sum ≤
        ((p.segments.take index).map List.length).sum := sum_take_lengths_mono hlt
      rw [if_neg (by omega)]
      exact ih hlt (by omega) (by omega)
    · rw [if_pos (by rw [sum_take_succ_lengths h]; exact hhigh)]

/-- A byte of an attachment is located in it. -/
theorem locate_start_add {offset : ℕ} (h : index < p.segments.length)
    (hoffset : offset < (p.segment index).length) :
    p.locate (p.segmentStart index + offset) = some (index, offset) := by
  have htotal := segmentStart_add_le h
  rw [locate, if_neg (by omega),
    locateFrom_spec h (Nat.le_add_right _ _) (Nat.add_lt_add_left hoffset _) (Nat.zero_le _)
    (by omega) (by omega),
    Nat.add_sub_cancel_left]

/-- The distance to a logical address leads back to it. -/
theorem addressOf_distance {logical : ℕ} (maxBackward : ℕ) (h : logical < p.totalLen) :
    p.addressOf (maxBackward + p.totalLen - logical) maxBackward = some logical := by
  rw [addressOf, if_neg (by omega), if_neg (by omega), if_neg (by omega)]
  congr 1
  omega

end PrefixSources

end Mbrotli.Compressor.Rfc9841
