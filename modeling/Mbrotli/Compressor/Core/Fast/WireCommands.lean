/-
# The fast command symbols in the command alphabet

The fast encoders keep 64 command symbols in an order of their own and scatter their
depths into the alphabet of 704 when a prefix code is stored. `Stands` says that a slot
holds the depth of a symbol, whatever the depths are. Insert length zero and the explicit
copy of two share a slot; which of them it holds depends on the order.

`fast_codes` puts the emitters, the orders and the decoder's tables together: both
passes choose one wire command with one extra field for a length, and the decoder makes
the lengths of it that the encoder meant.

Key definitions: `onePassSlots`, `twoPassSlots`, `Stands`, `Decodes`, `Agree`.
Key theorems: `onePass_stands`, `twoPass_stands`, `decodes_insert`, `decodes_copy`,
`storeCommands_writes`, `fast_codes`, `place_order`.
-/
import Mbrotli.Compressor.Core.Fast.Commands

namespace Mbrotli.Compressor.FastCommands
open BitString

/-! ### Orders -/

/-- A `copy_from_slice`: the entries of `n` symbols from `source` on go to the slots from
`slot` on. -/
structure SliceCopy where
  slot : ℕ
  source : ℕ
  n : ℕ := 1

variable {α β : Type}

def SliceCopy.apply (c : SliceCopy) (table slots : ℕ → α) : ℕ → α := fun s =>
  if c.slot ≤ s ∧ s < c.slot + c.n then table (c.source + (s - c.slot)) else slots s

/-- The copies in order, over slots that are all `zero`. -/
def scatter (copies : List SliceCopy) (table : ℕ → α) (zero : α) : ℕ → α :=
  copies.foldl (fun slots c => c.apply table slots) fun _ => zero

/-- How one pass fills `tmp_depth`. -/
def onePassSlots : List SliceCopy :=
  [⟨0, 0, 8⟩, ⟨64, 8, 8⟩, ⟨128, 16, 8⟩, ⟨192, 24, 8⟩, ⟨384, 32, 8⟩] ++
    (List.range 8).flatMap fun i =>
    [{ slot := 128 + 8 * i, source := 40 + i }, { slot := 256 + 8 * i, source := 48 + i },
      { slot := 448 + 8 * i, source := 56 + i }]

/-- How two passes fill `tmp_depth`. Independent fragments leave out the alias of insert
length zero, which would overwrite the copy of two. -/
def twoPassSlots (independent : Bool) : List SliceCopy :=
  [⟨0, 24, 8⟩, ⟨64, 32, 8⟩, ⟨128, 40, 8⟩, ⟨192, 48, 8⟩, ⟨384, 56, 8⟩] ++
    (List.range 8).flatMap fun i =>
      (if !independent || i ≠ 0 then [{ slot := 128 + 8 * i, source := i : SliceCopy }] else []) ++
        [{ slot := 256 + 8 * i, source := 8 + i }, { slot := 448 + 8 * i, source := 16 + i }]

/-- The distance symbols are stored as they are. -/
def distanceSlots : List SliceCopy := [⟨0, 64, 64⟩]

/-- The symbol whose entry a slot holds. -/
def holder (copies : List SliceCopy) : ℕ → Option ℕ := scatter copies some none

/-- Where a symbol is copied to, or the end of the alphabet. -/
def place (copies : List SliceCopy) (code : ℕ) : ℕ :=
  match copies.find? fun c => c.source ≤ code ∧ code < c.source + c.n with
  | some c => c.slot + (code - c.source)
  | none => 704

/-- The slot `w` of the command alphabet is the one that holds the depth of symbol `c`. -/
structure Stands (copies : List SliceCopy) (c w : ℕ) : Prop where
  lt : w < 704
  held : ∀ depth : ℕ → ℕ, scatter copies depth 0 w = depth c
  only : ∀ other < 704, holder copies other = some c → other = w

/-- Copying does not look at the entries. -/
theorem scatter_map (f : α → β) (copies : List SliceCopy) (table : ℕ → α) (zero : α) (s : ℕ) :
    scatter copies (fun c => f (table c)) (f zero) s = f (scatter copies table zero s) := by
  have hfold : ∀ slots : ℕ → α,
      copies.foldl (fun slots c => c.apply (fun c => f (table c)) slots) (fun s => f (slots s)) s =
        f (copies.foldl (fun slots c => c.apply table slots) slots s) := by
    induction copies with
    | nil => exact fun _ => rfl
    | cons c copies ih =>
      intro slots
      have hone : c.apply (fun c => f (table c)) (fun s => f (slots s)) = fun s =>
          f (c.apply table slots s) := by
        funext s
        rw [SliceCopy.apply, SliceCopy.apply, apply_ite f]
      rw [List.foldl_cons, List.foldl_cons, hone]
      exact ih _
  exact hfold _

theorem scatter_of_holder {copies : List SliceCopy} {c w : ℕ} (h : holder copies w = some c)
    (depth : ℕ → ℕ) :
    scatter copies depth 0 w = depth c := by
  have hmap := scatter_map (fun o : Option ℕ => o.elim 0 depth) copies some none w
  exact hmap.trans (congrArg (fun o : Option ℕ => o.elim 0 depth) h)

/-- A slot that is the only one with an entry of the symbol. -/
theorem Stands.of_holder {copies : List SliceCopy} {c w : ℕ} (hw : w < 704)
    (h : holder copies w = some c)
    (honly : ∀ other < 704, ∀ held ∈ holder copies other, place copies held = other) :
    Stands copies c w where
  lt := hw
  held := scatter_of_holder h
  only other hother hheld := (honly other hother c hheld).symm.trans (honly w hw c h)

theorem onePass_place : ∀ w < 704, ∀ c ∈ holder onePassSlots w, place onePassSlots c = w := by
  decide +kernel

theorem twoPass_place : ∀ independent : Bool, ∀ w < 704, ∀ c ∈ holder (twoPassSlots independent) w,
    place (twoPassSlots independent) c = w := by decide +kernel

variable {code : ℕ}

/-- Where one pass stores the symbols of the length codes. Copy code zero alone has none. -/
theorem onePass_stands (h : code ≤ 23) :
    Stands onePassSlots (40 + code) (combineLengthCodes code 0 false) ∧
      (1 ≤ code → Stands onePassSlots (16 + code) (combineLengthCodes 0 code false)) ∧
      (code < 16 → Stands onePassSlots (0 + code) (combineLengthCodes 0 code true)) := by
  have hall : ∀ code ≤ 23, holder onePassSlots (combineLengthCodes code 0 false) =
    some (40 + code) ∧
      (1 ≤ code → holder onePassSlots (combineLengthCodes 0 code false) = some (16 + code)) ∧
      (code < 16 → holder onePassSlots (combineLengthCodes 0 code true) = some (0 + code)) := by
      decide
  obtain ⟨hinsert, hcopy, hlast⟩ := hall code h
  refine ⟨?_, fun h1 => ?_, fun h16 => ?_⟩
  · exact .of_holder (combineLengthCodes_lt h (by decide) false) hinsert onePass_place
  · exact .of_holder (combineLengthCodes_lt (by decide) h false) (hcopy h1) onePass_place
  · exact .of_holder (combineLengthCodes_lt (by decide) h true) (hlast h16) onePass_place

/-- Where two passes store them. Insert code zero has a slot in the serial order only. -/
theorem twoPass_stands (independent : Bool) (h : code ≤ 23) :
    ((independent = true → 1 ≤ code) →
      Stands (twoPassSlots independent) (0 + code) (combineLengthCodes code 0 false)) ∧
      (1 ≤ code → Stands (twoPassSlots independent) (40 + code) (combineLengthCodes 0 code false)) ∧
      (code < 16 → Stands (twoPassSlots independent) (24 + code)
        (combineLengthCodes 0 code true)) := by
  have hall : ∀ independent : Bool, ∀ code ≤ 23,
      ((independent = true → 1 ≤ code) →
        holder (twoPassSlots independent) (combineLengthCodes code 0 false) = some (0 + code)) ∧
      (1 ≤ code → holder (twoPassSlots independent) (combineLengthCodes 0 code false) =
        some (40 + code)) ∧
      (code < 16 → holder (twoPassSlots independent) (combineLengthCodes 0 code true) =
        some (24 + code)) := by
    decide
  obtain ⟨hinsert, hcopy, hlast⟩ := hall independent code h
  refine ⟨fun h1 => ?_, fun h1 => ?_, fun h16 => ?_⟩
  · exact .of_holder (combineLengthCodes_lt h (by decide) false) (hinsert h1)
      (twoPass_place independent)
  · exact .of_holder (combineLengthCodes_lt (by decide) h false) (hcopy h1)
      (twoPass_place independent)
  · exact .of_holder (combineLengthCodes_lt (by decide) h true) (hlast h16)
      (twoPass_place independent)

/-- A distance symbol stands at its own place. -/
theorem distance_stands {c : ℕ} (h64 : 64 ≤ c) (h : c < 128) (depth : ℕ → ℕ) :
    scatter distanceSlots depth 0 (c - 64) = depth c := by
  refine scatter_of_holder ?_ depth
  have hall : ∀ c < 128, 64 ≤ c → holder distanceSlots (c - 64) = some c := by decide
  exact hall c h h64

/-! ### The bits of the symbols -/

/-- How one pass orders the depths for the assignment of the bits. -/
def onePassOrder : List SliceCopy :=
  [⟨0, 0, 24⟩, ⟨24, 40, 8⟩, ⟨32, 24, 8⟩, ⟨40, 48, 8⟩, ⟨48, 32, 8⟩, ⟨56, 56, 8⟩]

/-- How one pass puts the bits back. -/
def onePassBits : List SliceCopy :=
  [⟨0, 0, 24⟩, ⟨24, 32, 8⟩, ⟨32, 48, 8⟩, ⟨40, 24, 8⟩, ⟨48, 40, 8⟩, ⟨56, 56, 8⟩]

/-- How two passes order the depths. -/
def twoPassOrder : List SliceCopy :=
  [⟨0, 24, 24⟩, ⟨24, 0, 8⟩, ⟨32, 48, 8⟩, ⟨40, 8, 8⟩, ⟨48, 56, 8⟩, ⟨56, 16, 8⟩]

/-- How two passes put the bits back. -/
def twoPassBits : List SliceCopy :=
  [⟨0, 24, 8⟩, ⟨8, 40, 8⟩, ⟨16, 56, 8⟩, ⟨24, 0, 24⟩, ⟨48, 32, 8⟩, ⟨56, 48, 8⟩]

/-- Each symbol gets the bits of its own position. -/
theorem bits_order {c : ℕ} (h : c < 64) (table : ℕ → ℕ) :
    scatter onePassBits (scatter onePassOrder table 0) 0 c = table c ∧
      scatter twoPassBits (scatter twoPassOrder table 0) 0 c = table c := by
  have hall : ∀ c < 64, scatter onePassBits (holder onePassOrder) none c = some c ∧
      scatter twoPassBits (holder twoPassOrder) none c = some c := by decide
  have hread : ∀ copies order : List SliceCopy, scatter copies (holder order) none c = some c →
      scatter copies (scatter order table 0) 0 c = table c := by
    intro copies order hc
    have hinner : scatter order table 0 = fun p => (holder order p).elim 0 table := by
      funext p
      exact (scatter_map (fun o : Option ℕ => o.elim 0 table) order some none p)
    rw [hinner]
    exact (scatter_map (fun o : Option ℕ => o.elim 0 table) copies (holder order) none c).trans
      (congrArg (fun o : Option ℕ => o.elim 0 table) hc)
  exact ⟨hread _ _ (hall c h).1, hread _ _ (hall c h).2⟩

/-- The bits are assigned in the order of the slots, but for insert length zero, whose
slot comes before those of the copies from three on. -/
theorem place_order :
    (((List.range 64).filterMap (holder onePassOrder)).filter (· ≠ 40)).Pairwise
        (fun c c' => place onePassSlots c < place onePassSlots c') ∧
      ∀ independent, (((List.range 64).filterMap (holder twoPassOrder)).filter (· ≠ 0)).Pairwise
        fun c c' => place (twoPassSlots independent) c < place (twoPassSlots independent) c' := by
  decide

/-! ### What the decoder makes of them -/

/-- The decoder reads an insert and a copy length off the wire command `w` and the extra
field, and takes the last distance without a symbol exactly when `implicit`. -/
structure Decodes (w : ℕ) (e : Emitted) (insert copy : ℕ) (implicit : Bool) : Prop where
  width : e.extraBits = (commands w).insertExtra + (commands w).copyExtra
  extra_lt : e.extra < 2 ^ e.extraBits
  lengths : decodedLengths w e.extra = (insert, copy)
  implicit_eq : (commands w).implicit = implicit

/-- The command's fields are those of its two codes. -/
theorem commands_combine {inscode copycode : ℕ} (hi : inscode ≤ 23) (hc : copycode ≤ 23)
    (useLastDistance : Bool) :
    let command := commands (combineLengthCodes inscode copycode useLastDistance)
    command.insertExtra = insExtra.getD inscode 0 ∧ command.copyExtra = copyExtra.getD copycode 0 ∧
      command.insertBase = insBase.getD inscode 0 ∧
      command.copyBase = copyBase.getD copycode 0 := by
  rw [commands, commandCodes_combine hi hc]
  exact ⟨rfl, rfl, rfl, rfl⟩

/-- The first two cells of the command table imply the last distance, and only they do. -/
theorem implicit_combine :
    (∀ i ≤ 23, ∀ c ≤ 23, (commands (combineLengthCodes i c false)).implicit = false) ∧
      ∀ c < 16, (commands (combineLengthCodes 0 c true)).implicit = true := by decide

variable {base n : ℕ}

/-- An insert copies two bytes from an explicit distance. -/
theorem decodes_insert (h : n ≤ maxInsertLen) :
    Decodes (combineLengthCodes (insertLengthCode n) 0 false) (insertSymbol base n) n 2 false := by
  have hle := insertLengthCode_le n
  obtain ⟨hextra, -, hsum⟩ := @insertSymbol_fields base n h
  obtain ⟨hie, hce, hib, hcb⟩ := commands_combine hle (by decide : 0 ≤ 23) false
  refine ⟨?_, hextra, ?_, implicit_combine.1 _ hle 0 (by decide)⟩
  · rw [hie, hce]
    rfl
  · have hmod : (insertSymbol base n).extra % 2 ^ insExtra.getD (insertLengthCode n) 0 =
        (insertSymbol base n).extra :=
      Nat.mod_eq_of_lt hextra
    have hshift : (insertSymbol base n).extra >>> insExtra.getD (insertLengthCode n) 0 = 0 := by
      rw [Nat.shiftRight_eq_div_pow]
      exact Nat.div_eq_of_lt hextra
    rw [decodedLengths]
    simp only [hie, hib, hcb, hmod, hshift, hsum]
    rfl

/-- A copy inserts nothing. -/
theorem decodes_copy (h2 : 2 ≤ n) (h : n ≤ maxCopyLenCode) {useLastDistance : Bool}
    (hlast : useLastDistance = true → copyLengthCode n < 16) :
    Decodes (combineLengthCodes 0 (copyLengthCode n) useLastDistance)
    (copySymbol base n) 0 n useLastDistance := by
  have hle := copyLengthCode_le n
  obtain ⟨hextra, -, hsum⟩ := @copySymbol_fields base n h2 h
  obtain ⟨hie, hce, hib, hcb⟩ := commands_combine (by decide : 0 ≤ 23) hle useLastDistance
  refine ⟨?_, hextra, ?_, ?_⟩
  · rw [hie, hce]
    exact (Nat.zero_add _).symm
  · have hnone : insExtra.getD 0 0 = 0 := rfl
    rw [decodedLengths]
    simp only [hie, hib, hcb, hnone, pow_zero, Nat.mod_one, Nat.shiftRight_zero, hsum]
    rfl
  · cases useLastDistance with
    | true => exact implicit_combine.2 _ (hlast rfl)
    | false => exact implicit_combine.1 0 (by decide) _ hle

theorem decodes_explicit (h2 : 2 ≤ n) (h : n ≤ maxCopyLenCode) :
    Decodes (combineLengthCodes 0 (copyLengthCode n) false) (copySymbol base n) 0 n false :=
  decodes_copy h2 h fun hlast => absurd hlast Bool.false_ne_true

/-! ### Both passes -/

/-- Both passes choose the wire command `w` for the lengths, with one extra field. -/
structure Agree (independent : Bool) (w : ℕ) (e f : Emitted) (insert copy : ℕ) (implicit : Bool) :
    Prop where
  one : Stands onePassSlots e.code w
  two : Stands (twoPassSlots independent) f.code w
  decodes : Decodes w e insert copy implicit
  extraBits_eq : f.extraBits = e.extraBits
  extra_eq : f.extra = e.extra

variable {independent : Bool} {m d : ℕ}

theorem insert_agree (h : n < 2 ^ 24) (h1 : independent = true → 1 ≤ n) :
    ∃ w, Agree independent w (OnePass.insert n)
    (TwoPass.ofWord (TwoPass.insertLen n)) n 2 false := by
  have hmax : n ≤ maxInsertLen := by
    rw [maxInsertLen]
    omega
  have hle := insertLengthCode_le n
  have hcode : 1 ≤ n → 1 ≤ insertLengthCode n := by
    intro hn
    by_contra hzero
    have hsmall := (insertLengthCode_spec hmax).2
    rw [Nat.eq_zero_of_not_pos hzero] at hsmall
    exact absurd hsmall (Nat.not_lt.2 hn)
  refine ⟨combineLengthCodes (insertLengthCode n) 0 false, ?_⟩
  rw [OnePass.insert_eq, TwoPass.insertLen_eq, TwoPass.ofWord_insertSymbol hmax]
  exact ⟨(onePass_stands hle).1, (twoPass_stands independent hle).1 fun hind => hcode (h1 hind),
    decodes_insert hmax, rfl, rfl⟩

/-- From three on a copy's code is not the one whose slot insert length zero shares. -/
theorem one_le_copyLengthCode (h3 : 3 ≤ n) (h : n ≤ maxCopyLenCode) : 1 ≤ copyLengthCode n := by
  by_contra hzero
  have hsmall := (copyLengthCode_spec (by omega) h).2
  rw [Nat.eq_zero_of_not_pos hzero] at hsmall
  exact absurd hsmall (Nat.not_lt.2 h3)

theorem copy_agree (h4 : 4 ≤ m) (h : m - 2 < 2 ^ 24) :
    ∃ w, Agree independent w (OnePass.copyLen m)
    (TwoPass.ofWord (TwoPass.copyLen m)) 0 m false := by
  have hmax : m ≤ maxCopyLenCode := by
    rw [maxCopyLenCode]
    omega
  have hle := copyLengthCode_le m
  have hcode := one_le_copyLengthCode (show 3 ≤ m by omega) hmax
  refine ⟨combineLengthCodes 0 (copyLengthCode m) false, ?_⟩
  rw [OnePass.copyLen_eq (by omega), TwoPass.copyLen_eq (by omega),
    TwoPass.ofWord_copySymbol (by omega) hmax]
  exact ⟨(onePass_stands hle).2.1 hcode, (twoPass_stands independent hle).2.1 hcode,
    decodes_explicit (by omega) hmax, rfl, rfl⟩

/-- A shortened copy implies the last distance where its code can; else the symbol that
reuses it follows. -/
theorem lastDistance_agree (h4 : 4 ≤ m) (h : m - 2 < 2 ^ 24) :
    ∃ w word implicit, (OnePass.copyLenLastDistance m).2 = !implicit ∧
      TwoPass.copyLenLastDistance m = (if implicit then [word] else [word, 64]) ∧
      Agree independent w (OnePass.copyLenLastDistance m).1 (TwoPass.ofWord word) 0
      (m - 2) implicit := by
  obtain ⟨n, rfl⟩ : ∃ n, m = n + 2 := ⟨m - 2, by omega⟩
  rw [Nat.add_sub_cancel] at h ⊢
  have h2 : 2 ≤ n := by omega
  have hmax : n ≤ maxCopyLenCode := by
    rw [maxCopyLenCode]
    omega
  have hle := copyLengthCode_le n
  rw [OnePass.copyLenLastDistance_eq h2, TwoPass.copyLenLastDistance_eq h2]
  by_cases h70 : n < 70
  · obtain ⟨h16, hword⟩ := TwoPass.ofWord_lastSymbol h2 h70
    refine ⟨combineLengthCodes 0 (copyLengthCode n) true, TwoPass.wordOf (copySymbol 24 n),
      true, ?_, ?_, ?_⟩
    · rw [if_pos h70]
      rfl
    · rw [if_pos h70, if_pos rfl]
    · rw [if_pos h70, hword]
      exact ⟨(onePass_stands hle).2.2 h16, (twoPass_stands independent hle).2.2 h16,
        decodes_copy h2 hmax fun _ => h16, rfl, rfl⟩
  · have hcode := one_le_copyLengthCode (show 3 ≤ n by omega) hmax
    refine ⟨combineLengthCodes 0 (copyLengthCode n) false, TwoPass.wordOf (copySymbol 40 n),
      false, ?_, ?_, ?_⟩
    · rw [if_neg h70]
      rfl
    · rw [if_neg h70, if_neg Bool.false_ne_true]
    · rw [if_neg h70, TwoPass.ofWord_copySymbol h2 hmax]
      exact ⟨(onePass_stands hle).2.1 hcode, (twoPass_stands independent hle).2.1 hcode,
        decodes_explicit h2 hmax, rfl, rfl⟩

/-- The distance symbol `e` stands for: that of its slot, with the extra bits the decoder
reads for it. -/
structure Resolves (e : Emitted) (cache : Cache) (distance : ℕ) : Prop where
  range : 64 ≤ e.code ∧ e.code < 128
  held : ∀ depth : ℕ → ℕ, scatter distanceSlots depth 0 (e.code - 64) = depth e.code
  width : e.extraBits = ({} : DistanceLayout).extraBits (e.code - 64)
  extra_lt : e.extra < 2 ^ e.extraBits
  distance_eq : ({} : DistanceLayout).resolve (e.code - 64) e.extra cache = .ok distance

theorem distance_resolves (h1 : 1 ≤ d) (h : d ≤ 2 ^ 18 - 16) (cache : Cache) :
    Resolves (OnePass.distance d) cache d := by
  obtain ⟨hlo, hhi⟩ := distanceSymbol_code_lt h1 h
  obtain ⟨hwidth, hdistance⟩ := resolve_distanceSymbol h1 h cache
  have hlt : (distanceSymbol d).code < 128 := hhi.trans (by decide)
  have h64 : 64 ≤ (distanceSymbol d).code := le_trans (by decide) hlo
  rw [OnePass.distance_eq h1 h]
  exact ⟨⟨h64, hlt⟩, distance_stands h64 hlt, hwidth.symm,
    (distanceSymbol_spec h1 h).2.2, hdistance⟩

/-- The reused distance's symbol is the short code of the last distance. -/
theorem reuse_resolves {cache : Cache} (h1 : 1 ≤ cache.recent 0)
    (hmax : cache.recent 0 ≤ maxDistance) :
    Resolves { code := 64 } cache (cache.recent 0) where
  range := by decide
  held := distance_stands (by decide) (by decide)
  width := by decide
  extra_lt := by decide
  distance_eq := by
    have hrange : (0 : ℤ) < (cache.recent 0 : ℤ) + 0 ∧ (cache.recent 0 : ℤ) + 0 ≤
      (maxDistance : ℤ) := by omega
    show DistanceLayout.short 0 cache = .ok (cache.recent 0)
    rw [DistanceLayout.short]
    simp only [Nat.zero_mod]
    exact (if_pos hrange).trans (congrArg (fun v : ℤ => Except.ok v.toNat) (add_zero _))

/-! ### The replay of two passes -/

/-- The bits of the words: each word's symbol with its field, then one code at a time the
literals an insert stands for. -/
def spellWords (k lit : PrefixCode) : List ℕ → List UInt8 → List Bool
  | [], _ => []
  | command :: commands, literals =>
    let e := TwoPass.ofWord command
    e.spelled k ++
      if e.code < 24 then
        let insert := insertOffset.getD e.code 0 + e.extra
        if insert ≤ literals.length then
          OnePass.spellLiterals lit (literals.take insert) ++
            spellWords k lit commands (literals.drop insert)
        else []
      else spellWords k lit commands literals

variable {k lit : PrefixCode} {commands : List ℕ} {literals : List UInt8}

/-- **The replay writes the words and their literals** when every extra field fits. -/
theorem storeCommands_writes (hk : k.Within 15) (hlit : lit.Within 14)
    (hfits : ∀ command ∈ commands, (TwoPass.ofWord command).extra <
      2 ^ (TwoPass.ofWord command).extraBits) :
    Writes (TwoPass.storeCommands k lit commands literals)
    (spellWords k lit commands literals) := by
  have hwidths : ∀ code < 128, numExtraBits.getD code 0 ≤ 24 := by decide
  induction commands generalizing literals with
  | nil => exact Writes.nil
  | cons command commands ih =>
    have hrest := fun c hc => hfits c (List.mem_cons_of_mem command hc)
    have hwidth : (TwoPass.ofWord command).extraBits ≤ 24 :=
      hwidths _ (Nat.mod_lt command (by decide))
    have hone := OnePass.writeCodeAndExtra_writes hk hwidth (hfits command List.mem_cons_self)
    rw [TwoPass.storeCommands, spellWords]
    simp only []
    by_cases hinsert : (TwoPass.ofWord command).code < 24
    · rw [if_pos hinsert, if_pos hinsert]
      by_cases hleft : insertOffset.getD (TwoPass.ofWord command).code 0 +
        (TwoPass.ofWord command).extra ≤ literals.length
      · rw [if_pos hleft, if_pos hleft]
        exact hone.append ((OnePass.packLiterals_writes hlit _).append (ih hrest))
      · rw [if_neg hleft, if_neg hleft]
        exact hone.append Writes.nil
    · rw [if_neg hinsert, if_neg hinsert]
      exact hone.append (ih hrest)

/-- An insert's word stands for as many literals as the length it was made of. -/
theorem insertOffset_insertLen (h : n ≤ maxInsertLen) :
    (TwoPass.ofWord (TwoPass.insertLen n)).code < 24 ∧
      insertOffset.getD (TwoPass.ofWord (TwoPass.insertLen n)).code 0 +
      (TwoPass.ofWord (TwoPass.insertLen n)).extra = n := by
  have hle := insertLengthCode_le n
  have hbases : ∀ code ≤ 23, insertOffset.getD code 0 = insBase.getD code 0 := by decide
  have hcode : (insertSymbol 0 n).code = insertLengthCode n := Nat.zero_add _
  rw [TwoPass.insertLen_eq, TwoPass.ofWord_insertSymbol h, hcode, hbases _ hle]
  exact ⟨Nat.lt_succ_of_le hle, (insertSymbol_fields h).2.2⟩

/-! ### The calls of one pass -/

theorem insertSymbol_writes (hk : k.Within 15) (h : n ≤ maxInsertLen) :
    Writes [OnePass.writeCodeAndExtra k (insertSymbol base n)]
    ((insertSymbol base n).spelled k) := by
  have hwidths : ∀ code ≤ 23, insExtra.getD code 0 ≤ 24 := by decide
  exact OnePass.writeCodeAndExtra_writes hk (hwidths _ (insertLengthCode_le n))
    (insertSymbol_fields h).1

theorem copyExtra_le (n : ℕ) : copyExtra.getD (copyLengthCode n) 0 ≤ 24 := by
  have hwidths : ∀ code ≤ 23, copyExtra.getD code 0 ≤ 24 := by decide
  exact hwidths _ (copyLengthCode_le n)

theorem copySymbol_writes (hk : k.Within 15) (h2 : 2 ≤ n) (h : n ≤ maxCopyLenCode) :
    Writes [OnePass.writeCodeAndExtra k (copySymbol base n)] ((copySymbol base n).spelled k) :=
  OnePass.writeCodeAndExtra_writes hk (copyExtra_le n) (copySymbol_fields h2 h).1

/-- The run's length decides which emitter writes it. -/
theorem emitInsert_writes (hk : k.Within 15) (h : n ≤ maxInsertLen) (histo : ℕ → ℕ) :
    Writes
    [(if n < shortInsertLimit then OnePass.emitInsertLen n k histo
      else OnePass.emitLongInsertLen n k histo).1]
      ((OnePass.insert n).spelled k) := by
  have hcall : (if n < shortInsertLimit then OnePass.emitInsertLen n k histo
    else OnePass.emitLongInsertLen n k histo).1 =
      OnePass.writeCodeAndExtra k (OnePass.insert n) := by
    rw [OnePass.insert]
    by_cases hshort : n < shortInsertLimit
    · rw [if_pos hshort, if_pos hshort]
      rfl
    · rw [if_neg hshort, if_neg hshort]
      rfl
  rw [hcall, OnePass.insert_eq]
  exact insertSymbol_writes hk h

theorem emitCopyLen_writes (hk : k.Within 15) (h2 : 2 ≤ n) (h : n ≤ maxCopyLenCode)
    (histo : ℕ → ℕ) :
    Writes [(OnePass.emitCopyLen n k histo).1] ((OnePass.copyLen n).spelled k) := by
  rw [OnePass.emitCopyLen, OnePass.emit, OnePass.copyLen_eq h2]
  exact copySymbol_writes hk h2 h

/-- The symbol that reuses the distance is written where it is due. -/
theorem emitLastDistance_writes (hk : k.Within 15) (h2 : 2 ≤ n) (h : n ≤ maxCopyLenCode)
    (histo : ℕ → ℕ) :
    Writes [(OnePass.emitCopyLenLastDistance (n + 2) k histo).1]
    ((OnePass.copyLenLastDistance (n + 2)).1.spelled k ++
      if (OnePass.copyLenLastDistance (n + 2)).2 then (TwoPass.ofWord 64).spelled k else []) := by
  rw [OnePass.emitCopyLenLastDistance, OnePass.copyLenLastDistance_eq h2]
  by_cases h70 : n < 70
  · rw [if_pos h70]
    simp only []
    rw [if_neg Bool.false_ne_true, if_neg Bool.false_ne_true, List.append_nil]
    exact copySymbol_writes hk h2 h
  · rw [if_neg h70]
    simp only []
    rw [if_pos trivial, if_pos trivial]
    exact OnePass.writeCodeExtraAndReuse_writes hk (copyExtra_le n) (copySymbol_fields h2 h).1

theorem emitDistance_writes (hk : k.Within 15) (h1 : 1 ≤ d) (h : d ≤ 2 ^ 18 - 16) (histo : ℕ → ℕ) :
    Writes [(OnePass.emitDistance d k histo).1] ((OnePass.distance d).spelled k) := by
  obtain ⟨⟨-, hwidth⟩, -, hextra⟩ := distanceSymbol_spec h1 h
  rw [OnePass.emitDistance, OnePass.emit, OnePass.distance_eq h1 h]
  exact OnePass.writeCodeAndExtra_writes hk (hwidth.trans (by decide)) hextra

/-- **The fast encoders' commands mean what they intend.** -/
theorem fast_codes (independent : Bool) {k lit : PrefixCode} (hk : k.Within 15)
    (hlit : lit.Within 14) :
    (∀ n < 2 ^ 24, (independent = true → 1 ≤ n) →
      (∃ w, Agree independent w (OnePass.insert n)
        (TwoPass.ofWord (TwoPass.insertLen n)) n 2 false) ∧
        ∀ histo,
        Writes
        [(if n < shortInsertLimit then OnePass.emitInsertLen n k histo
          else OnePass.emitLongInsertLen n k histo).1]
          ((OnePass.insert n).spelled k)) ∧
    (∀ m, 4 ≤ m → m - 2 < 2 ^ 24 →
      (∃ w word implicit, (OnePass.copyLenLastDistance m).2 = !implicit ∧
        TwoPass.copyLenLastDistance m = (if implicit then [word] else [word, 64]) ∧
        Agree independent w (OnePass.copyLenLastDistance m).1 (TwoPass.ofWord word) 0
        (m - 2) implicit) ∧
      (∃ w, Agree independent w (OnePass.copyLen m)
        (TwoPass.ofWord (TwoPass.copyLen m)) 0 m false) ∧
      ∀ histo,
        Writes [(OnePass.emitCopyLenLastDistance m k histo).1]
        ((OnePass.copyLenLastDistance m).1.spelled k ++
          if (OnePass.copyLenLastDistance m).2 then (TwoPass.ofWord 64).spelled k else []) ∧
        Writes [(OnePass.emitCopyLen m k histo).1] ((OnePass.copyLen m).spelled k)) ∧
    (∀ cache : Cache, 1 ≤ cache.recent 0 → cache.recent 0 ≤ maxDistance →
      Resolves (TwoPass.ofWord 64) cache (cache.recent 0)) ∧
    (∀ d, 1 ≤ d → d ≤ 2 ^ 18 - 16 →
      (∀ cache, Resolves (OnePass.distance d) cache d) ∧ TwoPass.ofWord (TwoPass.distance d) =
      OnePass.distance d ∧
        ∀ histo, Writes [(OnePass.emitDistance d k histo).1] ((OnePass.distance d).spelled k)) ∧
    (∀ commands literals,
      (∀ command ∈ commands, (TwoPass.ofWord command).extra <
        2 ^ (TwoPass.ofWord command).extraBits) →
      Writes (TwoPass.storeCommands k lit commands literals) (spellWords k lit commands literals)) ∧
    (∀ data start len, start + len ≤ data.length →
      Writes (OnePass.emitLiterals data start len lit)
      (OnePass.spellLiterals lit ((data.drop start).take len))) ∧
    ∀ literals, Writes (OnePass.packLiterals literals lit) (OnePass.spellLiterals lit literals) ∧
      Writes (literals.map (OnePass.writeLiteral lit)) (OnePass.spellLiterals lit literals) := by
  refine ⟨fun n hn h1 => ⟨insert_agree hn h1, fun histo => ?_⟩,
    fun m h4 hm => ⟨lastDistance_agree h4 hm, copy_agree h4 hm, ?_⟩,
    fun cache h1 hmax => reuse_resolves h1 hmax, fun d h1 hd =>
    ⟨distance_resolves h1 hd, ?_, emitDistance_writes hk h1 hd⟩,
    fun commands literals hfits => storeCommands_writes hk hlit hfits,
    fun data start len hrange => OnePass.emitLiterals_writes hlit hrange,
    fun literals => ⟨OnePass.packLiterals_writes hlit literals,
      OnePass.map_writeLiteral_writes hlit literals⟩⟩
  · have hmax : n ≤ maxInsertLen := by
      rw [maxInsertLen]
      omega
    exact emitInsert_writes hk hmax histo
  · obtain ⟨n, rfl⟩ : ∃ n, m = n + 2 := ⟨m - 2, by omega⟩
    have hmax : n + 2 ≤ maxCopyLenCode := by
      rw [maxCopyLenCode]
      omega
    intro histo
    constructor
    · exact emitLastDistance_writes hk (by omega) (by omega) histo
    · exact emitCopyLen_writes hk (by omega) hmax histo
  · rw [TwoPass.ofWord_distance h1 hd, OnePass.distance_eq h1 hd]

/-- A code of depth seven for every command symbol, one of depth eight for every literal. -/
theorem fast_codes_fixed :
    let k : PrefixCode := ⟨fun _ => 7, fun c => c % 2 ^ 7⟩
    (∃ w, Agree true w (OnePass.insert 22594) (TwoPass.ofWord (TwoPass.insertLen 22594))
      22594 2 false) ∧
      (∀ cache, Resolves (OnePass.distance (2 ^ 18 - 16)) cache (2 ^ 18 - 16)) ∧
      ∀ histo, Writes [(OnePass.emitCopyLen 4 k histo).1] ((OnePass.copyLen 4).spelled k) := by
  intro k
  have hk : k.Within 15 := ⟨fun _ => (by decide : 7 ≤ 15), fun c => Nat.mod_lt c (by decide)⟩
  have hlit : (⟨fun _ => 8, fun c => c % 2 ^ 8⟩ : PrefixCode).Within 14 :=
    ⟨fun _ => (by decide : 8 ≤ 14), fun c => Nat.mod_lt c (by decide)⟩
  obtain ⟨hinsert, hcopy, -, hdistance, -⟩ := fast_codes true hk hlit
  exact ⟨(hinsert 22594 (by decide) fun _ => by decide).1,
    (hdistance (2 ^ 18 - 16) (by decide) (by decide)).1,
    fun histo => ((hcopy 4 (by decide) (by decide)).2.2 histo).2⟩

/-- Independent fragments never insert nothing: symbol zero has no slot in their order,
the explicit copy of two is stored in its place. -/
theorem independent_insert_zero :
    (¬ ∃ w, Agree true w (OnePass.insert 0) (TwoPass.ofWord (TwoPass.insertLen 0)) 0 2 false) ∧
      Stands (twoPassSlots true) 40 (combineLengthCodes 0 0 false) := by
  constructor
  · rintro ⟨w, hagree⟩
    have hcode : (TwoPass.ofWord (TwoPass.insertLen 0)).code = 0 := by decide
    have hnone : ∀ w < 704, scatter (twoPassSlots true) (fun c => if c = 0 then 1 else 0) 0 w =
      0 := by decide +kernel
    have hheld := hagree.two.held fun c => if c = 0 then 1 else 0
    rw [hcode, hnone w hagree.two.lt] at hheld
    exact absurd hheld (by decide)
  · exact .of_holder (by decide) (by decide) (twoPass_place true)

end Mbrotli.Compressor.FastCommands
