/-
# Reading a context map

A context map stands in a stream as the number of its trees, the widest zero run, a code,
and entries of that code (`mapBits`). An entry is a value or a run of zeros; `expand` says
which values it stands for. `ContextMap.reads_map` follows the resumable reader over such a
stream: it ends at its last bit with the values that the entries stand for, taken back from
their move-to-front form, unless the memory limit refuses it room.

Key definitions: `ContextMap.rounds`, `ContextMap.expand`, `ContextMap.mapBits`.
Key theorems: `Bits.uint8_reads`, `ContextMap.entries_ends`, `ContextMap.reads_map`.
-/
import Mbrotli.Lib.ReaderFields
import Mbrotli.Decompressor.Core.ContextMap
import Mbrotli.Decompressor.Core.OwnedCode

namespace Mbrotli

open BitString Resumable

variable {I : List UInt8} {B p q : ℕ}

/-! ### A number of 0 to 255 -/

/-- The bits of a number of 0 to 255. -/
def uint8Bits (n : ℕ) : List Bool :=
  if n = 0 then ofNat 1 0 else ofNat 1 1 ++ ofNat 3 (Nat.log2 n) ++
    ofNat (Nat.log2 n) (n - 2 ^ Nat.log2 n)

theorem length_uint8Bits (n : ℕ) : (uint8Bits n).length = if n = 0 then 1 else 4 + Nat.log2 n := by
  unfold uint8Bits
  split
  · rfl
  · simp only [List.length_append, length_ofNat]

/-- The number is read to its last bit. -/
theorem Bits.uint8_reads {n : ℕ} (hn : n < 256) (hspells : Spells I p (uint8Bits n))
    (hend : p + (uint8Bits n).length ≤ 8 * B) :
    Bits.uint8.run I B p = .done n (p + (uint8Bits n).length) := by
  rw [length_uint8Bits] at hend ⊢
  unfold uint8Bits at hspells
  by_cases h0 : n = 0
  · rw [if_pos h0] at hspells hend ⊢
    have hfirst := bitsAt_of_spells (by decide) hspells
    show (if p + 1 ≤ 8 * B then Reader.run I B (if bitsAt I p 1 = 0 then _ else _) p else _) = _
    rw [if_pos hend, if_pos hfirst, h0]
    rfl
  · rw [if_neg h0] at hspells hend ⊢
    obtain ⟨hhead, htail⟩ := spells_append.1 hspells
    obtain ⟨hone, hwidth⟩ := spells_append.1 hhead
    rw [length_ofNat] at hwidth
    rw [List.length_append, length_ofNat, length_ofNat] at htail
    obtain ⟨k, hk⟩ : ∃ k, Nat.log2 n = k := ⟨_, rfl⟩
    have hlow : 2 ^ k ≤ n := hk ▸ Nat.log2_self_le h0
    have hhigh : n < 2 ^ (k + 1) := hk ▸ Nat.lt_log2_self
    rw [hk] at hwidth htail hend ⊢
    have hk8 : k < 8 := (Nat.pow_lt_pow_iff_right (by decide : 1 < 2)).1 (hlow.trans_lt hn)
    have h1 : bitsAt I p 1 = 1 := bitsAt_of_spells (by decide) hone
    have h3 : bitsAt I (p + 1) 3 = k := bitsAt_of_spells (by omega) hwidth
    have hx : bitsAt I (p + 4) k = n - 2 ^ k :=
      bitsAt_of_spells (by rw [Nat.pow_succ] at hhigh; omega) htail
    have h4 : bitsAt I p 4 >>> 1 = k := by
      have := bitsAt_add I p 1 3
      rw [h1, h3] at this
      rw [this, Nat.shiftRight_eq_div_pow]
      omega
    have hall : bitsAt I p (4 + k) >>> 4 = n - 2 ^ k := by
      rw [Nat.shiftRight_eq_div_pow, bitsAt_div, Nat.add_sub_cancel_left, hx]
    show (if p + 1 ≤ 8 * B then Reader.run I B (if bitsAt I p 1 = 0 then _ else _) p else _) = _
    rw [if_pos (by omega), if_neg (by rw [h1]; decide)]
    show (if p + 4 ≤ 8 * B then Reader.run I B (if bitsAt I p 4 >>> 1 = 0 then _ else _) p else _) =
      _
    rw [if_pos (by omega), h4]
    by_cases hk0 : k = 0
    · rw [if_pos hk0]
      have hn1 : n = 1 := by
        rw [hk0] at hlow hhigh
        omega
      rw [hn1, hk0]
      rfl
    · rw [if_neg hk0]
      show (if p + (4 + k) ≤ 8 * B then Reader.Result.done (2 ^ k + bitsAt I p (4 + k) >>> 4)
        (p + (4 + k)) else _) = _
      rw [if_pos hend, hall, Nat.add_sub_cancel' hlow]

/-! ### The values of a buffer -/

namespace Buffer

variable {α : Type}

@[simp] theorem toList_clear (b : Buffer α) : b.clear.toList = [] := rfl

theorem toList_extend (b : Buffer α) (n : ℕ) (a : α) :
    (b.extend n fun _ => a).toList = b.toList ++ List.replicate n a := by
  unfold toList
  rw [extend_len, List.range_add, List.map_append, List.map_map]
  congr 1
  · refine List.map_congr_left fun i hi => ?_
    have hlt := List.mem_range.1 hi
    simp only [extend]
    rw [if_neg (by omega)]
  · refine List.ext_getElem (by simp) fun i h1 h2 => ?_
    have hi : i < n := by simpa using h1
    simp only [List.getElem_map, List.getElem_range, List.getElem_replicate,
      Function.comp_apply, extend]
    rw [if_pos (by omega)]

theorem toList_push (b : Buffer α) (a : α) : (b.push a).toList = b.toList ++ [a] :=
  toList_extend b 1 a

theorem toList_resize (b : Buffer α) {n : ℕ} (a : α) (h : b.len ≤ n) :
    (b.resize n a).toList = b.toList ++ List.replicate (n - b.len) a := by
  unfold resize
  split
  · exact toList_extend b (n - b.len) a
  · have hn : n = b.len := by omega
    rw [hn, Nat.sub_self, List.replicate_zero, List.append_nil]

theorem toList_congr {b b' : Buffer α} (hget : b'.get = b.get) (hlen : b'.len = b.len) :
    b'.toList = b.toList := by
  unfold toList
  rw [hget, hlen]

end Buffer

namespace ContextMap

/-- The resumable reader of one map. -/
def rounds (size : ℕ) : Step (ContextMap × Builder × Memory) := fun s => s.1.step size s.2.1 s.2.2

/-- The values an entry stands for: one value, or a run of zeros. -/
def expand (run : ℕ) (entry : ℕ × ℕ) : List ℕ :=
  if entry.1 ≠ 0 ∧ entry.1 ≤ run then List.replicate (2 ^ entry.1 + entry.2) 0
    else [if entry.1 = 0 then 0 else entry.1 - run]

/-- The bits of an entry. -/
def entryBits (run : ℕ) (depths bits : List ℕ) (entry : ℕ × ℕ) : List Bool :=
  ofNat (depths.getD entry.1 0) (bits.getD entry.1 0) ++ if entry.1 ≠ 0 ∧ entry.1 ≤ run
    then ofNat entry.1 entry.2 else []

/-- The bits before the code: the trees, and the widest run. -/
def headBits (trees run : ℕ) : List Bool :=
  uint8Bits (trees - 1) ++ if run = 0 then ofNat 1 0 else ofNat 1 1 ++ ofNat 4 (run - 1)

theorem toList_withValues (m : ContextMap) {l : List ℕ} (h : l.length = m.values.len) :
    (m.withValues l).values.toList = l := by
  have hget : (m.withValues l).values.toList = (List.range l.length).map fun i =>
      l.getD i (m.values.get i) := by
    rw [h]
    rfl
  rw [hget]
  refine List.ext_getElem (by rw [List.length_map, List.length_range]) fun i h1 h2 => ?_
  rw [List.getElem_map, List.getElem_range, List.getD_eq_getElem _ _ h2]

theorem length_inverseMoveToFront (l : List ℕ) (symbols : ℕ → ℕ) :
    (inverseMoveToFront l symbols).length = l.length := by
  induction l generalizing symbols with
  | nil => rfl
  | cons value l ih => simp only [inverseMoveToFront, List.length_cons, ih]

/-- The code and the sizes that the entries are read with. -/
structure Reads (m : ContextMap) (trees run : ℕ) (used depths bits done : List ℕ) : Prop where
  stage : m.stage = .entries
  trees : m.trees = trees
  run : m.run = run
  index : m.index = done.length
  values : m.values.toList = done
  finds : m.tree.Finds used depths bits

/-- An entry that the reader of these sizes takes. -/
structure Fits (trees run : ℕ) (used depths bits : List ℕ) (entry : ℕ × ℕ) : Prop where
  used : entry.1 ∈ used
  fits : bits.getD entry.1 0 < 2 ^ depths.getD entry.1 0
  extra : entry.1 ≠ 0 → entry.1 ≤ run → entry.2 < 2 ^ entry.1
  value : ∀ v ∈ expand run entry, v < trees

variable {m : ContextMap} {trees run size : ℕ} {used depths bits done : List ℕ}

theorem length_expand_pos (run : ℕ) (entry : ℕ × ℕ) : 0 < (expand run entry).length := by
  unfold expand
  split
  · rw [List.length_replicate]
    exact Nat.add_pos_left (Nat.two_pow_pos _) _
  · exact Nat.succ_pos _

theorem length_entryBits (run : ℕ) (depths bits : List ℕ) (entry : ℕ × ℕ) :
    (entryBits run depths bits entry).length =
      depths.getD entry.1 0 + if entry.1 ≠ 0 ∧ entry.1 ≤ run then entry.1 else 0 := by
  unfold entryBits
  split <;> simp only [List.length_append, length_ofNat, List.length_nil]

/-- One value more. -/
theorem Reads.push (h : m.Reads trees run used depths bits done) (v : ℕ) :
    Reads { m with values := m.values.push v, index := m.index + 1 }
      trees run used depths bits (done ++ [v]) := by
  refine ⟨h.stage, h.trees, h.run, ?_, ?_, h.finds⟩
  · show m.index + 1 = _
    rw [List.length_append, h.index]
    rfl
  · show (m.values.push _).toList = _
    rw [Buffer.toList_push, h.values]

/-- A run of zeros more. -/
theorem Reads.resize (h : m.Reads trees run used depths bits done) (wide extra : ℕ) :
    Reads { m with
        values := m.values.resize (m.index + wide + extra) 0, index := m.index + wide + extra
        stage := .entries }
      trees run used depths bits (done ++ List.replicate (wide + extra) 0) := by
  have hlen : m.values.len = done.length := by rw [← Buffer.toList_length, h.values]
  refine ⟨rfl, h.trees, h.run, ?_, ?_, h.finds⟩
  · show m.index + wide + extra = _
    rw [List.length_append, List.length_replicate, h.index, Nat.add_assoc]
  · show (m.values.resize _ 0).toList = _
    rw [Buffer.toList_resize _ _ (by rw [hlen, h.index]; omega), h.values, hlen, h.index]
    congr 2
    omega

/-- Behind the last entry, the transform. -/
theorem reads_transform (h : m.Reads trees run used depths bits done) (hlen : done.length = size)
    (b : Builder) (memory : Memory) {p : ℕ} (hspells : Spells I p (ofNat 1 1))
    (hend : p + 1 ≤ 8 * B) :
    ∃ m', Ends (rounds size) I B (m, b, memory) p (.ok (m', b, memory)) (p + 1) ∧
      m'.stage = .complete ∧ m'.trees = trees ∧
      m'.values.toList = inverseMoveToFront done id := by
  have hstep : rounds size (m, b, memory) =
      .pure (.ok (false, { m with stage := .transform }, b, memory)) := by
    show m.step size b memory = _
    unfold step
    rw [h.stage]
    dsimp only
    rw [if_pos (h.index.trans hlen)]
    rfl
  have hlast : (rounds size (m, b, memory)).Atomic 0 ∧ (rounds size (m, b, memory)).run I B p =
      .done (.ok (false, { m with stage := .transform }, b, memory)) p := by
    rw [hstep]
    exact ⟨rfl, rfl⟩
  refine ⟨{ { m with stage := .transform }.withValues (inverseMoveToFront done id)
    with stage := .complete }, .next hlast.1 hlast.2 (.last ?_ ?_), rfl, h.trees, ?_⟩
  · exact Reader.read_atomic (by decide) (fun _ => trivial) fun _ => rfl
  · refine (Reader.run_read _ (show 1 < 2 ^ 1 by decide) hspells hend).trans ?_
    dsimp only
    rw [if_pos (by decide), h.values]
    rfl
  · refine toList_withValues { m with stage := .transform } ?_
    rw [length_inverseMoveToFront, ← h.values, Buffer.toList_length]

/-- The next symbol: one value, or the width of a run of zeros. -/
theorem reads_symbol (h : m.Reads trees run used depths bits done) (hindex : m.index ≠ size)
    (b : Builder) (memory : Memory) {e : ℕ × ℕ} (he : Fits trees run used depths bits e) {p : ℕ}
    (hsymbol : Spells I p (ofNat (depths.getD e.1 0) (bits.getD e.1 0)))
    (hend : p + depths.getD e.1 0 ≤ 8 * B) :
    (rounds size (m, b, memory)).Atomic 0 ∧ (rounds size (m, b, memory)).run I B p =
      .done (if e.1 ≠ 0 ∧ e.1 ≤ run then .ok (false, { m with stage := .repeat e.1 }, b, memory)
        else .ok (false, { m with
          values := m.values.push (if e.1 = 0 then 0 else e.1 - run)
          index := m.index + 1 }, b, memory)) (p + depths.getD e.1 0) := by
  obtain ⟨hatomic, hread⟩ := h.finds.run he.used hsymbol he.fits hend
  have hstep : rounds size (m, b, memory) = (m.tree.decodeRefilling).bind (fun symbol =>
      if symbol ≠ 0 ∧ symbol ≤ m.run
        then .pure (.ok (false, { m with stage := .repeat symbol }, b, memory))
      else if m.trees ≤ (if symbol = 0 then 0 else symbol - m.run)
        then .fail InvalidDataKind.contextMap.fault
      else .pure (.ok (false, { m with
        values := m.values.push (if symbol = 0 then 0 else symbol - m.run)
        index := m.index + 1 }, b, memory))) := by
    show m.step size b memory = _
    unfold step
    rw [h.stage]
    dsimp only
    rw [if_neg hindex]
    rfl
  rw [hstep]
  refine ⟨hatomic.bind (fun symbol => ?_) fun symbol => ?_, ?_⟩
  · show Reader.Settled (ite _ _ _)
    split
    · trivial
    by_cases hv : m.trees ≤ if symbol = 0 then 0 else symbol - m.run
    · rw [if_pos hv]
      trivial
    · rw [if_neg hv]
      trivial
  · show Reader.Atomic 0 (ite _ _ _)
    split
    · rfl
    by_cases hv : m.trees ≤ if symbol = 0 then 0 else symbol - m.run
    · rw [if_pos hv]
      trivial
    · rw [if_neg hv]
      rfl
  · rw [Reader.run_bind, hread, h.run, h.trees]
    dsimp only
    by_cases hr : e.1 ≠ 0 ∧ e.1 ≤ run
    · rw [if_pos hr, if_pos hr]
      rfl
    · have hv := he.value (if e.1 = 0 then 0 else e.1 - run)
        (by unfold expand; rw [if_neg hr]; exact List.mem_singleton.2 rfl)
      rw [if_neg hr, if_neg hr, if_neg (by omega)]
      rfl

/-- How many zeros a run has behind its width. -/
theorem reads_repeat (b : Builder) (memory : Memory) {wide extra : ℕ} (hwide : wide ≤ 16)
    (hextra : extra < 2 ^ wide)
    (hstop : m.index + 2 ^ wide + extra ≤ size) {p : ℕ} (hspells : Spells I p (ofNat wide extra))
    (hend : p + wide ≤ 8 * B) :
    (rounds size ({ m with stage := .repeat wide }, b, memory)).Atomic 0 ∧
      (rounds size ({ m with stage := .repeat wide }, b, memory)).run I B p =
        .done (.ok (false, { m with
          values := m.values.resize (m.index + 2 ^ wide + extra) 0
          index := m.index + 2 ^ wide + extra, stage := .entries }, b, memory)) (p + wide) := by
  constructor
  · refine Reader.read_atomic (by rw [Reader.fieldMax]; omega) (fun v => ?_) fun v => ?_
    · show Reader.Settled (ite _ _ _)
      split <;> trivial
    · show Reader.Atomic 0 (ite _ _ _)
      split
      · trivial
      · rfl
  · refine (Reader.run_read _ hextra hspells hend).trans ?_
    dsimp only
    rw [if_neg (by omega)]
    rfl

/-- The entries to the end, and the transform. -/
theorem entries_ends (hrun : run ≤ 16) (entries : List (ℕ × ℕ))
    (b : Builder) (memory : Memory) :
    ∀ {m : ContextMap} {done : List ℕ} {p : ℕ}, m.Reads trees run used depths bits done →
    (∀ e ∈ entries, Fits trees run used depths bits e) →
    (done ++ entries.flatMap (expand run)).length = size →
    Spells I p (entries.flatMap (entryBits run depths bits) ++ ofNat 1 1) →
    p + ((entries.flatMap (entryBits run depths bits)).length + 1) ≤ 8 * B →
    ∃ m', Ends (rounds size) I B (m, b, memory) p (.ok (m', b, memory))
    (p + ((entries.flatMap (entryBits run depths bits)).length + 1)) ∧
      m'.stage = .complete ∧ m'.trees = trees ∧
      m'.values.toList = inverseMoveToFront (done ++ entries.flatMap (expand run)) id := by
  induction entries with
  | nil =>
    intro m done p h _ hlen hspells hend
    rw [List.flatMap_nil, List.append_nil] at hlen
    rw [List.flatMap_nil, List.flatMap_nil, List.append_nil]
    exact reads_transform h hlen b memory hspells hend
  | cons e entries ih =>
    intro m done p h hfits hlen hspells hend
    have he := hfits e List.mem_cons_self
    have hlater : ∀ e' ∈ entries, Fits trees run used depths bits e' :=
      fun e' he' => hfits e' (List.mem_cons_of_mem _ he')
    rw [List.flatMap_cons, List.append_assoc] at hspells
    rw [List.flatMap_cons, List.length_append] at hend
    rw [List.flatMap_cons, ← List.append_assoc] at hlen
    obtain ⟨hentry, hrest⟩ := spells_append.1 hspells
    obtain ⟨hsymbol, hmore⟩ := spells_append.1 (show Spells I p (ofNat _ _ ++ _) from hentry)
    rw [length_ofNat] at hmore
    have hlenEntry := length_entryBits run depths bits e
    have hne : m.index ≠ size := by
      have hpos := length_expand_pos run e
      rw [h.index, ← hlen, List.length_append, List.length_append]
      omega
    obtain ⟨hatomic, hround⟩ := reads_symbol (B := B) h hne b memory he hsymbol (by omega)
    have hq : p + ((entryBits run depths bits e).length +
          (entries.flatMap (entryBits run depths bits)).length + 1) =
        p + (entryBits run depths bits e).length +
          ((entries.flatMap (entryBits run depths bits)).length + 1) := by omega
    rw [List.flatMap_cons, List.flatMap_cons, List.length_append, hq, ← List.append_assoc]
    by_cases hr : e.1 ≠ 0 ∧ e.1 ≤ run
    · -- a run of zeros: its width, and how many more
      rw [if_pos hr] at hmore hround hlenEntry
      have hexpand : expand run e = List.replicate (2 ^ e.1 + e.2) 0 := if_pos hr
      rw [hexpand] at hlen ⊢
      have hstop : m.index + 2 ^ e.1 + e.2 ≤ size := by
        rw [h.index, ← hlen, List.length_append, List.length_append, List.length_replicate]
        omega
      obtain ⟨hatomic', hround'⟩ := reads_repeat (B := B) (m := m) b memory
        (hr.2.trans hrun) (he.extra hr.1 hr.2) hstop hmore (by omega)
      rw [Nat.add_assoc p, ← hlenEntry] at hround'
      obtain ⟨m', hends, hrest⟩ := ih (h.resize (2 ^ e.1) e.2) hlater hlen hrest (by omega)
      exact ⟨m', .next hatomic hround (.next hatomic' hround' hends), hrest⟩
    · -- one value
      rw [if_neg hr, Nat.add_zero] at hlenEntry
      rw [if_neg hr, ← hlenEntry] at hround
      have hexpand : expand run e = [if e.1 = 0 then 0 else e.1 - run] := if_neg hr
      rw [hexpand] at hlen ⊢
      obtain ⟨m', hends, hrest⟩ := ih (h.push _) hlater hlen hrest (by omega)
      exact ⟨m', .next hatomic hround hends, hrest⟩

/-- The bits of a map whose code has the given description. -/
def mapBits (trees run : ℕ) (d : CodeDescription) (depths bits : List ℕ) (entries : List (ℕ × ℕ)) :
    List Bool :=
  headBits trees run ++ fieldBits (d.fields (trees + run)) ++
    entries.flatMap (entryBits run depths bits) ++ ofNat 1 1

/-- What a map's reader says once it is over: its values, or the memory limit. -/
def Ended (memory : Memory) (trees : ℕ) (values : List ℕ) :
    Except (DecodeError × ContextMap × Builder × Memory) (ContextMap × Builder × Memory) → Prop
  | .error (e, _, _, _) => ∃ l, memory.limit = some l ∧ e = .memoryLimitExceeded l
  | .ok (m, b, memory') => m.stage = .complete ∧ m.trees = trees ∧ m.values.toList = values ∧
      b.stage = .start ∧ memory'.limit = memory.limit

/-- The widest zero run, from its bits. -/
theorem runPrefix_reads (size : ℕ) (hrun : run ≤ 16) (m : ContextMap)
    (hstage : m.stage = .runPrefix) (b : Builder) (memory : Memory)
    (hspells : Spells I p (if run = 0 then ofNat 1 0 else ofNat 1 1 ++ ofNat 4 (run - 1)))
    (hend : p + (if run = 0 then ofNat 1 0 else ofNat 1 1 ++ ofNat 4 (run - 1)).length ≤ 8 * B) :
    (rounds size (m, b, memory)).Atomic 0 ∧ (rounds size (m, b, memory)).run I B p =
      .done (.ok (false, { m with run := run, stage := .tree }, b, memory))
        (p + (if run = 0 then ofNat 1 0 else ofNat 1 1 ++ ofNat 4 (run - 1)).length) := by
  have hstep : rounds size (m, b, memory) = (Reader.look 1).bind fun flag =>
      if flag = 0 then (Reader.skip 1).bind fun _ =>
        .pure (.ok (false, { m with run := 0, stage := .tree }, b, memory))
      else (Reader.look 5).bind fun n => (Reader.skip 5).bind fun _ =>
        .pure (.ok (false, { m with run := (n >>> 1) + 1, stage := .tree }, b, memory)) := by
    show m.step size b memory = _
    unfold step
    rw [hstage]
    rfl
  rw [hstep]
  refine ⟨⟨by decide, fun flag _ => ?_⟩, ?_⟩
  · show Reader.Atomic 1 (ite _ _ _)
    split
    · exact ⟨rfl, trivial⟩
    · exact ⟨by decide, fun _ _ => ⟨rfl, trivial⟩⟩
  · by_cases h0 : run = 0
    · rw [if_pos h0] at hspells hend ⊢
      have hflag := bitsAt_of_spells (by decide) hspells
      rw [length_ofNat] at hend
      show (if p + 1 ≤ 8 * B then Reader.run I B (if bitsAt I p 1 = 0 then _ else _) p else _) = _
      rw [if_pos hend, if_pos hflag, h0]
      rfl
    · rw [if_neg h0] at hspells hend ⊢
      obtain ⟨hone, hwidth⟩ := spells_append.1 hspells
      rw [length_ofNat] at hwidth
      rw [List.length_append, length_ofNat, length_ofNat] at hend
      have hflag := bitsAt_of_spells (by decide) hone
      have hrest := bitsAt_of_spells (show run - 1 < 2 ^ 4 by omega) hwidth
      have hfive : bitsAt I p 5 >>> 1 + 1 = run := by
        have := bitsAt_add I p 1 4
        rw [hflag, hrest] at this
        rw [this, Nat.shiftRight_eq_div_pow]
        omega
      show (if p + 1 ≤ 8 * B then Reader.run I B (if bitsAt I p 1 = 0 then _ else _) p else _) = _
      rw [if_pos (by omega), if_neg (by rw [hflag]; decide)]
      show (if p + 5 ≤ 8 * B then Reader.Result.done
        (Except.ok (false, { m with run := bitsAt I p 5 >>> 1 + 1, stage := .tree }, b, memory))
        (p + 5) else _) = _
      rw [if_pos (by omega), hfive, List.length_append, length_ofNat, length_ofNat]

/-- What the number of trees leads to. -/
def counted (size : ℕ) (m : ContextMap) (b : Builder) (memory : Memory) (n : ℕ) :
    Except (DecodeError × ContextMap × Builder × Memory) (Bool × ContextMap × Builder × Memory) :=
  if n = 0 then
    match memory.resize 1 m.values.clear size 0 with
    | .error e => .error (e, { m with trees := n + 1, index := 0, values := m.values.clear }, b,
        memory)
    | .ok (memory, values) =>
        .ok (true, { m with trees := n + 1, index := 0, values, stage := .complete }, b, memory)
  else
    match memory.reserve 1 m.values.clear size with
    | .error e => .error (e, { m with trees := n + 1, index := 0, values := m.values.clear }, b,
        memory)
    | .ok (memory, values) =>
        .ok (false, { m with trees := n + 1, index := 0, values, stage := .runPrefix }, b, memory)

/-- The number of trees. -/
theorem treeCount_run (size : ℕ) {m : ContextMap} (b : Builder) (memory : Memory)
    (hm : m.stage = .treeCount) {n : ℕ} (hn : n < 256)
    (hspells : Spells I p (uint8Bits n)) (hend : p + (uint8Bits n).length ≤ 8 * B) :
    (rounds size (m, b, memory)).Atomic 0 ∧
      (rounds size (m, b, memory)).run I B p = .done (counted size m b memory n)
      (p + (uint8Bits n).length) := by
  have hstep : rounds size (m, b, memory) = Bits.uint8.bind fun n =>
      .pure (counted size m b memory n) := by
    show m.step size b memory = _
    unfold step counted
    rw [hm]
    rfl
  rw [hstep]
  refine ⟨Bits.uint8_atomic.bind (fun _ => trivial) fun _ => rfl, ?_⟩
  rw [Reader.run_bind, Bits.uint8_reads hn hspells hend]
  rfl

/-- The reader goes on once the description of the code is read. -/
def treeRead (m : ContextMap) (memory : Memory) (b : Builder) :
    Except (DecodeError × ContextMap × Builder × Memory) (Bool × ContextMap × Builder × Memory) :=
  match b.build (m.trees + m.run) memory m.tree with
  | .error (e, memory, tree) => .error (e, { m with tree }, b, memory)
  | .ok (_, memory, tree) => .ok (false, { m with tree, stage := .entries }, b, memory)

/-- **A map that stands in the stream is read to its last bit.** -/
theorem reads_map (hrun : run ≤ 16) (htwo : 2 ≤ trees) (h256 : trees ≤ 256)
    {d : CodeDescription}
    (hd : d.Valid (trees + run)) (hfit : ∀ f ∈ d.fields (trees + run), f.2 < 2 ^ f.1)
    (hwords : ∀ s ∈ used, s < (d.lengths (trees + run)).length ∧
      (d.lengths (trees + run)).getD s 0 ≠ 0 ∧
      wordField (d.lengths (trees + run)) s = (depths.getD s 0, bits.getD s 0))
    {entries : List (ℕ × ℕ)} (hfits : ∀ e ∈ entries, Fits trees run used depths bits e)
    (hlen : (entries.flatMap (expand run)).length = size) {m : ContextMap} {b : Builder}
    (memory : Memory) (hm : m.stage = .treeCount)
    (hb : b.stage = .start) (hspells : Spells I p (mapBits trees run d depths bits entries))
    (hend : p + (mapBits trees run d depths bits entries).length ≤ 8 * B) :
    ∃ r q, Ends (rounds size) I B (m, b, memory) p r q ∧
      Ended memory trees (inverseMoveToFront (entries.flatMap (expand run)) id) r ∧
      ((∃ s, r = .ok s) → q = p + (mapBits trees run d depths bits entries).length) := by
  obtain ⟨hhead, htail⟩ :=
    spells_append.1 (show Spells I p (headBits trees run ++ fieldBits (d.fields (trees + run)) ++
      (entries.flatMap (entryBits run depths bits) ++
      ofNat 1 1)) by rw [← List.append_assoc]; exact hspells)
  obtain ⟨hhead, hdescription⟩ := spells_append.1 hhead
  obtain ⟨hcount, hprefix⟩ :=
    spells_append.1 (show Spells I p (uint8Bits (trees - 1) ++ _) from hhead)
  have hlength : (mapBits trees run d depths bits entries).length =
    (headBits trees run).length + (fieldBits (d.fields (trees + run))).length +
      ((entries.flatMap (entryBits run depths bits)).length + 1) := by
    unfold mapBits
    simp only [List.length_append, length_ofNat]
    omega
  have hheadLength : (headBits trees run).length = (uint8Bits (trees - 1)).length +
      (if run = 0 then ofNat 1 0 else ofNat 1 1 ++ ofNat 4 (run - 1)).length := List.length_append
  -- the number of trees, and room for the values
  obtain ⟨hfirstAtomic, hfirst⟩ :=
    treeCount_run size b memory hm (show trees - 1 < 256 by omega) hcount (show p + _ ≤
      8 * B by omega)
  have htreesEq : trees - 1 + 1 = trees := by omega
  rw [counted, if_neg (show trees - 1 ≠ 0 by omega), htreesEq] at hfirst
  cases hreserve : memory.reserve 1 m.values.clear size with
  | error e =>
    rw [hreserve] at hfirst
    obtain ⟨l, hl, rfl⟩ := Memory.reserve_error hreserve
    exact ⟨_, _, .error hfirstAtomic hfirst, ⟨l, hl, rfl⟩, by rintro ⟨s, ⟨⟩⟩⟩
  | ok x =>
    obtain ⟨memory₁, values⟩ := x
    rw [hreserve] at hfirst
    obtain ⟨hlimit, hget, hvaluesLen, -⟩ := Memory.reserve_ok hreserve
    have hvalues : values.toList = [] :=
      (Buffer.toList_congr hget hvaluesLen).trans (Buffer.toList_clear m.values)
    obtain ⟨hsecondAtomic, hsecond⟩ :=
      runPrefix_reads size hrun { m with trees := trees, index := 0, values, stage := .runPrefix }
        rfl
        b memory₁ hprefix (show p + (uint8Bits (trees - 1)).length + _ ≤ 8 * B by omega)
    rw [show p + (uint8Bits (trees - 1)).length +
      (if run = 0 then ofNat 1 0 else ofNat 1 1 ++ ofNat 4 (run - 1)).length =
      p + (headBits trees run).length by omega] at hsecond
    -- the code
    obtain ⟨b', hrounds, hstart, hbuild⟩ := description_rounds (show 1 ≤ trees + run by omega)
      (show trees + run ≤ maxAlphabet by rw [maxAlphabet]; omega) hd hfit hwords hb hdescription
      (show p + (headBits trees run).length + _ ≤ 8 * B by omega)
    obtain ⟨herror, hgo, -⟩ := Ends.description (rounds size)
      (fun b => ({ m with trees := trees, index := 0, values, run := run, stage := .tree }, b,
        memory₁))
      (treeRead { m with trees := trees, index := 0, values, run := run, stage := .tree } memory₁)
      (fun b => by
        show ContextMap.step _ _ _ _ = _
        unfold step
        rfl) hrounds
    rcases hbuild m.tree memory₁ with ⟨l, memory₂, g, hl, hfailed⟩ | ⟨largest, memory₂, g, hbuilt,
      hlimit₂, hfinds⟩
    · rw [treeRead, hfailed] at herror
      exact ⟨_, _, .next hfirstAtomic hfirst (.next hsecondAtomic hsecond (herror _ rfl)),
        ⟨l, hlimit ▸ hl, rfl⟩, by rintro ⟨s, ⟨⟩⟩⟩
    · rw [treeRead, hbuilt] at hgo
      have hreads :
          Reads { m with trees := trees, index := 0, values, run := run, tree := g, stage :=
        .entries } trees run used depths bits [] :=
        ⟨rfl, rfl, rfl, rfl, hvalues, hfinds⟩
      obtain ⟨m', hends, hstage, htrees', hvalues'⟩ :=
        entries_ends hrun entries b' memory₂ hreads hfits
          (show ([] ++ entries.flatMap (expand run)).length = size by
            rw [List.nil_append]; exact hlen)
          (show Spells I (p + (headBits trees run).length +
          (fieldBits (d.fields (trees + run))).length) _ by
          rw [List.length_append, ← Nat.add_assoc] at htail
          exact htail)
        (show _ ≤ 8 * B by omega)
      refine ⟨.ok (m', b', memory₂), _, .next hfirstAtomic hfirst (.next hsecondAtomic hsecond
        (hgo _ _ _ rfl hends)), ?_, fun _ => by omega⟩
      exact ⟨hstage, htrees', hvalues', hstart, hlimit₂.trans hlimit⟩

/-- A map of one tree is all zeros. -/
theorem reads_one (size : ℕ) (m : ContextMap) (b : Builder) (memory : Memory)
    (hm : m.stage = .treeCount) (hb : b.stage = .start)
    (hspells : Spells I p (uint8Bits 0)) (hend : p + 1 ≤ 8 * B) :
    ∃ r, Ends (rounds size) I B (m, b, memory) p r (p + 1) ∧
    Ended memory 1 (List.replicate size 0) r := by
  obtain ⟨hatomic, hrun⟩ := treeCount_run size b memory hm (show 0 < 256 by decide) hspells hend
  rw [counted, if_pos rfl] at hrun
  cases hresize : memory.resize 1 m.values.clear size 0 with
  | error e =>
    rw [hresize] at hrun
    obtain ⟨l, hl, rfl⟩ := Memory.reserve_error (Memory.resize_error hresize)
    exact ⟨_, .error hatomic hrun, l, hl, rfl⟩
  | ok x =>
    obtain ⟨memory₁, values⟩ := x
    rw [hresize] at hrun
    obtain ⟨c, hreserve, rfl⟩ := Memory.resize_ok hresize
    obtain ⟨hlimit, hget, hlen, -⟩ := Memory.reserve_ok hreserve
    refine ⟨_, .last hatomic hrun, rfl, rfl, ?_, hb, hlimit⟩
    show (c.resize size 0).toList = _
    rw [Buffer.toList_resize c 0 (by rw [hlen]; exact Nat.zero_le _), Buffer.toList_congr hget hlen,
      Buffer.toList_clear, hlen]
    rfl

end ContextMap
end Mbrotli
