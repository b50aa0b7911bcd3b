/-
# Reading a group of codes

A compressed meta-block's header ends with three groups of prefix codes, which the stream
reads one description after the other into the slots of a group. A slot, once built, finds
its symbols whatever the later slots append (`Group.Shows.keeps`); so a group whose
descriptions stand in the stream is read to its last bit, and each of its slots finds its
symbols (`Stream.reads_trees`), unless the memory limit refuses a table.

Key definitions: `Stream.rounds`, `Group.Shows`, `Stream.After`.
Key theorems: `Group.Shows.keeps`, `Stream.reads_trees`.
-/
import Mbrotli.Decompressor.Core.OwnedCode

namespace Mbrotli

open BitString Canonical Resumable

variable {B p q tree slot : ℕ} {I : List UInt8} {used depth bits : List ℕ} {g g' : Group}

/-! ### Slots -/

/-- A slot that finds the used symbols, whatever is appended to the group. -/
def Group.Shows (g : Group) (tree : ℕ) (used depth bits : List ℕ) : Prop :=
  ∃ lo hi c, g.count * rootSize ≤ lo ∧ hi ≤ g.used ∧ Holds g.codes.get (tree * rootSize) lo hi c ∧
    ∀ t : Table, t.lookup = c.lookup → t.Finds used depth bits

theorem Group.Shows.finds (h : g.Shows tree used depth bits) (htree : tree < g.count) :
    ∃ t, g.table tree = some t ∧ t.Finds used depth bits := by
  obtain ⟨lo, hi, c, -, -, hholds, hfinds⟩ := h
  exact ⟨_, if_pos htree, hfinds _ (funext fun v => hholds _ (fun _ _ => rfl) v)⟩

/-- Building another slot leaves it. -/
theorem Group.Shows.keeps (h : g.Shows tree used depth bits) (hg : g.Ready) (htree : tree < g.count)
    (hslot : slot < g.count)
    (hother : tree ≠ slot) (hcount : g'.count = g.count) (hused : g.used ≤ g'.used)
    (hframe : ∀ i, i < g.used → ¬ (slot * rootSize ≤ i ∧ i < slot * rootSize + rootSize) →
      g'.codes.get i = g.codes.get i) :
    g'.Shows tree used depth bits := by
  obtain ⟨lo, hi, c, hlo, hhi, hholds, hfinds⟩ := h
  have hroots := hg.roots
  have hbelow : ∀ {n : ℕ}, n < g.count → n * rootSize + rootSize ≤ g.count * rootSize :=
    fun {n} hn => by
    rw [← Nat.succ_mul]
    exact Nat.mul_le_mul_right _ hn
  have htreeRoots := hbelow htree
  have hslotRoots := hbelow hslot
  refine ⟨lo, hi, c, by rw [hcount]; exact hlo, hhi.trans hused, fun codes' hsame v => ?_, hfinds⟩
  refine hholds codes' (fun i hi' => ?_) v
  rw [hsame i hi']
  refine hframe i ?_ ?_
  · rcases hi' with ⟨-, h⟩ | ⟨-, h⟩ <;> omega
  · rintro ⟨h1, h2⟩
    rcases hi' with ⟨h3, h4⟩ | ⟨h3, h4⟩
    · rcases Nat.lt_or_gt_of_ne hother with hlt | hgt
      · have : tree * rootSize + rootSize ≤ slot * rootSize := by
          rw [← Nat.succ_mul]
          exact Nat.mul_le_mul_right _ hlt
        omega
      · have : slot * rootSize + rootSize ≤ tree * rootSize := by
          rw [← Nat.succ_mul]
          exact Nat.mul_le_mul_right _ hgt
        omega
    · omega

/-! ### The stream's rounds -/

namespace Stream

variable {env : Env} {stop : Stage → Bool} {group : Fin 3} {index : ℕ} {memory memory' : Memory}
    {s : Stream} {t : Tables}

/-- The rounds of the stages that only read, up to a stage that `stop` names. -/
def rounds (env : Env) (stop : Stage → Bool) : Step Stream := fun s =>
  (s.readStage env).bind fun r => .pure (r.map fun s => (stop s.stage, s))

/-- What is left to do at the state `s`: nothing where the rounds stop, or they go on. -/
def After (env : Env) (stop : Stage → Bool) (I : List UInt8) (B : ℕ) (s : Stream) (p : ℕ)
    (r : Except (DecodeError × Stream) Stream) (q : ℕ) : Prop :=
  (stop s.stage = true ∧ r = .ok s ∧ q = p) ∨
    (stop s.stage = false ∧ Ends (rounds env stop) I B s p r q)

/-- A stream that reads a group's codes. -/
def inTrees (s : Stream) (t : Tables) (group : Fin 3) (stage : Stage) (memory : Memory)
    (builder : Builder) (g : Group) : Stream :=
  { s with memory, stage, tables := some ({ t with builder }.setTree group g) }

theorem trees_inTrees (t : Tables) (group : Fin 3) (builder : Builder) (g : Group) :
    ({ t with builder }.setTree group g).trees group = g := Function.update_self ..

/-- The stage after the slot `index` of the group. -/
def nextTree (group : Fin 3) (count index : ℕ) : Stage :=
  if index + 1 < count then .trees group (index + 1) else if group < 2
    then .trees (group + 1) 0 else .command

theorem buildTree_error {builder : Builder} {e : DecodeError}
    (hslot : builder.buildSlot (t.alphabet group) g index memory = .error (e, memory', g'))
    (stage : Stage) : ∃ s', (s.inTrees t group stage memory builder g).buildTree
    ({ t with builder }.setTree group g) group index = .error (e, s') := by
  have hbuild : ({ t with builder }.setTree group g).builder.buildSlot
    (({ t with builder }.setTree group g).alphabet group)
      (({ t with builder }.setTree group g).trees group) index memory =
      .error (e, memory', g') := by
    rw [trees_inTrees]
    exact hslot
  have hmemory : (s.inTrees t group stage memory builder g).memory = memory := rfl
  unfold buildTree
  rw [hmemory, hbuild]
  exact ⟨_, rfl⟩

theorem buildTree_ok {builder : Builder} {largest : ℕ}
    (hslot : builder.buildSlot (t.alphabet group) g index memory = .ok (largest, memory', g'))
    (hvalid : group = 2 → t.distances.validateSymbol largest = .ok ()) (stage : Stage) :
    (s.inTrees t group stage memory builder g).buildTree
    ({ t with builder }.setTree group g) group index =
      .ok (s.inTrees t group (nextTree group g'.count index) memory' builder g') := by
  have hset : ({ t with builder }.setTree group g).setTree group g' =
      { t with builder }.setTree group g' := by
    unfold Tables.setTree
    simp only [Function.update_idem]
  have hbuild : ({ t with builder }.setTree group g).builder.buildSlot
    (({ t with builder }.setTree group g).alphabet group)
      (({ t with builder }.setTree group g).trees group) index memory =
      .ok (largest, memory', g') := by
    rw [trees_inTrees]
    exact hslot
  have hmemory : (s.inTrees t group stage memory builder g).memory = memory := rfl
  have hdistances : ({ t with builder }.setTree group g).distances = t.distances := rfl
  unfold buildTree
  rw [hmemory, hbuild]
  dsimp only
  rw [hset, hdistances]
  by_cases h2 : group = 2
  · rw [if_pos h2, hvalid h2]
    rfl
  · rw [if_neg h2]
    rfl

/-- A round of a group's stage is one of the description's. -/
theorem rounds_inTrees (hstop : stop (.trees group index) = false) (b : Builder) :
    rounds env stop (s.inTrees t group (.trees group index) memory b g) =
    (b.step (t.alphabet group)).bind fun x => .pure
      (if x.2 then
        ((s.inTrees t group (.trees group index) memory x.1 g).buildTree
          ({ t with builder := x.1 }.setTree group g) group index).map
          fun s => (stop s.stage, s)
      else .ok (false, s.inTrees t group (.trees group index) memory x.1 g)) := by
  have hread : (s.inTrees t group (.trees group index) memory b g).readStage env =
    (b.step (t.alphabet group)).bind fun x => .pure
      (if x.2 then (s.inTrees t group (.trees group index) memory x.1 g).buildTree
        ({ t with builder := x.1 }.setTree group g) group index
      else .ok (s.inTrees t group (.trees group index) memory x.1 g)) := by
    unfold readStage
    rfl
  unfold rounds
  rw [hread, Reader.bind_assoc]
  congr 1
  funext x
  show Reader.pure (Except.map _ (if x.2 then _ else _)) = _
  congr 1
  split
  · rfl
  · show Except.ok (stop (.trees group index), _) = _
    rw [hstop]

/-! ### The whole group -/

/-- The descriptions of `n` slots from `index` on, as they stand in a stream. -/
def treesBits (alphabet : ℕ) (describe : ℕ → CodeDescription) (index n : ℕ) : List Bool :=
  (List.range' index n).flatMap fun h => fieldBits ((describe h).fields alphabet)

theorem treesBits_succ (alphabet : ℕ) (describe : ℕ → CodeDescription) (index n : ℕ) :
    treesBits alphabet describe index (n + 1) = fieldBits ((describe index).fields alphabet) ++
    treesBits alphabet describe (index + 1) n := by
  unfold treesBits
  rw [List.range'_succ, List.flatMap_cons]

/-- The stage after a group. -/
def afterTrees (group : Fin 3) : Stage := if group < 2 then .trees (group + 1) 0 else .command

/-- Descriptions of the codes that find the used symbols. -/
def Described (alphabet count : ℕ) (describe : ℕ → CodeDescription) (used depth bits : ℕ → List ℕ) :
    Prop :=
  ∀ h < count, (describe h).Valid alphabet ∧ (∀ f ∈ (describe h).fields alphabet, f.2 < 2 ^ f.1) ∧
    ∀ s ∈ used h, s < ((describe h).lengths alphabet).length ∧
    ((describe h).lengths alphabet).getD s 0 ≠ 0 ∧
      wordField ((describe h).lengths alphabet) s = ((depth h).getD s 0, (bits h).getD s 0)

/-- One slot: the memory limit refuses its tables, or it is built beside the others. -/
theorem reads_slot {alphabet count : ℕ} {describe : ℕ → CodeDescription}
    {used depth bits : ℕ → List ℕ} (h1 : 1 ≤ alphabet)
    (hmax : alphabet ≤ maxAlphabet) (hdescribed : Described alphabet count describe used depth bits)
    (halphabet : t.alphabet group = alphabet)
    (hvalid : group = 2 → ∀ s < alphabet, t.distances.validateSymbol s = .ok ())
    (hstop : ∀ i, stop (.trees group i) = false) (s : Stream)
    {b : Builder} (hindex : index < count) (hb : b.stage = .start) (hcount : g.count = count)
    (hready : g.Ready)
    (hshows : ∀ h < index, g.Shows h (used h) (depth h) (bits h))
    (hspells : Spells I p (fieldBits ((describe index).fields alphabet)))
    (hend : p + (fieldBits ((describe index).fields alphabet)).length ≤ 8 * B) :
    (∃ l s' q, memory.limit = some l ∧
      Ends (rounds env stop) I B (s.inTrees t group (.trees group index) memory b g) p
      (.error (.memoryLimitExceeded l, s')) q) ∨
    ∃ memory' b' g', memory'.limit = memory.limit ∧ b'.stage = .start ∧
    g'.count = count ∧ g'.Ready ∧
      (∀ h < index + 1, g'.Shows h (used h) (depth h) (bits h)) ∧ ∀ r q,
        After env stop I B (s.inTrees t group (nextTree group count index) memory' b' g')
          (p + (fieldBits ((describe index).fields alphabet)).length) r q →
        Ends (rounds env stop) I B (s.inTrees t group (.trees group index) memory b g) p r q := by
  obtain ⟨hd, hfit, hwords⟩ := hdescribed index hindex
  obtain ⟨h15, -, hcode⟩ := hd.code
  obtain ⟨b', hrounds, hstart, hassigned⟩ := description_assigned h1 hmax hd hfit hb hspells hend
  obtain ⟨herror, hgo, hlast⟩ :=
    Ends.description (rounds env stop) (fun b => s.inTrees t group (.trees group index) memory b g)
      (fun b => ((s.inTrees t group (.trees group index) memory b g).buildTree
      ({ t with builder := b }.setTree group g) group index).map
      fun s => (stop s.stage, s))
    (fun b => halphabet ▸ rounds_inTrees (hstop index) b) hrounds
  have hslot := Assigned.slot hassigned hmax h15 hcode (show index < g.count by omega) hready memory
  rcases hbuilt : b'.buildSlot alphabet g index memory with ⟨e, memory',
    g'⟩ | ⟨largest, memory', g'⟩
  · rw [hbuilt] at hslot
    obtain ⟨l, hl, rfl⟩ := hslot
    obtain ⟨s', hs'⟩ := buildTree_error (s := s) (halphabet ▸ hbuilt) (.trees group index)
    rw [hs'] at herror
    exact Or.inl ⟨l, s', _, hl, herror _ rfl⟩
  · rw [hbuilt] at hslot
    obtain ⟨hlargest, hlimit, hcount', hready', hused, hframe, c, hc, hholds⟩ := hslot
    have hok := buildTree_ok (s := s) (halphabet ▸ hbuilt) (fun h2 => hvalid h2 largest hlargest)
      (.trees group index)
    rw [hok, hcount', hcount] at hgo hlast
    refine Or.inr ⟨memory', b', g', hlimit, hstart, hcount'.trans hcount, hready', fun h hh => ?_,
      fun r q hafter => ?_⟩
    · rcases Nat.lt_or_eq_of_le (Nat.le_of_lt_succ hh) with hlt | rfl
      · exact (hshows h hlt).keeps hready (show h < g.count by omega) (show index <
          g.count by omega) (Nat.ne_of_lt hlt) hcount' hused hframe
      · exact ⟨_, _, c, by rw [hcount']; exact hready.roots, Nat.le_refl _, hholds,
          fun t' => finds_of_lookup h15 hcode hc hwords⟩
    · rcases hafter with ⟨hyes, rfl, rfl⟩ | ⟨hno, hends⟩
      · exact hlast _ (by show Except.ok (stop _, _) = _; rw [hyes])
      · exact hgo _ _ _ (by show Except.ok (stop _, _) = _; rw [hno]) hends

/-- **A group whose descriptions stand in the stream is read to its last bit**, and each slot
finds its symbols; or the memory limit refuses a table. -/
theorem reads_trees (env : Env) {alphabet count : ℕ} {describe : ℕ → CodeDescription}
    {used depth bits : ℕ → List ℕ} (h1 : 1 ≤ alphabet)
    (hmax : alphabet ≤ maxAlphabet) (hdescribed : Described alphabet count describe used depth bits)
    (halphabet : t.alphabet group = alphabet)
    (hvalid : group = 2 → ∀ s < alphabet, t.distances.validateSymbol s = .ok ())
    (hstop : ∀ i, stop (.trees group i) = false) (s : Stream)
    (n : ℕ) : ∀ {index : ℕ} (memory : Memory) {b : Builder} {g : Group} {p : ℕ},
    index + (n + 1) = count → b.stage = .start →
    g.count = count → g.Ready → (∀ h < index, g.Shows h (used h) (depth h) (bits h)) →
    Spells I p (treesBits alphabet describe index (n + 1)) →
    p + (treesBits alphabet describe index (n + 1)).length ≤ 8 * B →
    (∃ l s' q, memory.limit = some l ∧
      Ends (rounds env stop) I B (s.inTrees t group (.trees group index) memory b g) p
      (.error (.memoryLimitExceeded l, s')) q) ∨
    ∃ memory' b' g', memory'.limit = memory.limit ∧ b'.stage = .start ∧
    g'.count = count ∧ g'.Ready ∧
      (∀ h < count, g'.Shows h (used h) (depth h) (bits h)) ∧ ∀ r q,
        After env stop I B (s.inTrees t group (afterTrees group) memory' b' g')
        (p + (treesBits alphabet describe index (n + 1)).length) r q →
        Ends (rounds env stop) I B (s.inTrees t group (.trees group index) memory b g) p r q := by
  induction n with
  | zero =>
    intro index memory b g p hindex hb hcount hready hshows hspells hend
    have hbits : treesBits alphabet describe index 1 =
        fieldBits ((describe index).fields alphabet) := by
      rw [treesBits_succ]
      exact List.append_nil _
    have hnext : nextTree group count index = afterTrees group := if_neg (by omega)
    rw [Nat.zero_add, hbits] at hspells hend ⊢
    rcases reads_slot h1 hmax hdescribed halphabet hvalid hstop s (show index < count by omega) hb
      hcount hready hshows hspells hend with
      hlimit | ⟨memory', b', g', hmemory, hb', hcount', hready', hshows', hgo⟩
    · exact Or.inl hlimit
    · rw [hnext] at hgo
      exact Or.inr ⟨memory', b', g', hmemory, hb', hcount', hready',
        fun h hh => hshows' h (by omega), hgo⟩
  | succ n ih =>
    intro index memory b g p hindex hb hcount hready hshows hspells hend
    rw [treesBits_succ] at hspells hend ⊢
    rw [List.length_append] at hend ⊢
    obtain ⟨hhead, htail⟩ := spells_append.1 hspells
    have hnext : nextTree group count index = .trees group (index + 1) := if_pos (by omega)
    rcases reads_slot h1 hmax hdescribed halphabet hvalid hstop s (show index < count by omega) hb
      hcount hready hshows hhead
      (show _ ≤ 8 * B by omega) with ⟨l, s', q, hl, hends⟩ | ⟨memory', b', g', hmemory, hb',
        hcount', hready', hshows', hgo⟩
    · exact Or.inl ⟨l, s', q, hl, hends⟩
    · rw [hnext] at hgo
      have hgo' : ∀ {r q}, Ends (rounds env stop) I B
          (s.inTrees t group (.trees group (index + 1)) memory' b' g') _ r q → _ :=
        fun {r q} hends => hgo r q (Or.inr ⟨hstop (index + 1), hends⟩)
      rcases ih memory' (show index + 1 + (n + 1) = count by omega) hb' hcount' hready' hshows'
        htail (by omega) with
        ⟨l, s', q, hl, hends⟩ | ⟨memory'', b'', g'', hmemory', hb'', hcount'', hready'',
          hshows'', hrest⟩
      · exact Or.inl ⟨l, s', q, hmemory ▸ hl, hgo' hends⟩
      · refine Or.inr ⟨memory'', b'', g'', hmemory'.trans hmemory, hb'', hcount'', hready'',
          hshows'', fun r q hafter => hgo' (hrest r q ?_)⟩
        rw [Nat.add_assoc]
        exact hafter

end Stream

end Mbrotli
