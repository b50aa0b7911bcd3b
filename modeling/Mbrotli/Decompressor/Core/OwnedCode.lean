/-
# An owned code, from its description

Block headers and context maps each read a description and build it into a code of their
own. `Builder.Rounds` are the rounds the description takes; a resumable reader that holds
the builder takes the same (`Ends.description`). A description that stands in the stream is
read to its last bit (`description_rounds`), and the code built from it finds each of its
symbols (`Group.Finds`), unless the memory limit refuses its table.

Key definitions: `Builder.Rounds`, `Table.Finds`, `Group.Finds`.
Key theorems: `Ends.description`, `Table.Finds.run`, `Assigned.slot`, `description_assigned`.
-/
import Mbrotli.Decompressor.Core.HuffmanUnique
import Mbrotli.Decompressor.Core.Resumable
import Mbrotli.Decompressor.Core.Block
import Mbrotli.Decompressor.Core.Sound

namespace Mbrotli

open BitString Canonical Resumable

variable {alphabet B p q : ℕ} {I : List UInt8} {used depth bits : List ℕ}

/-- The rounds of a description. -/
inductive Builder.Rounds (I : List UInt8) (B alphabet : ℕ) : Builder → ℕ → Builder → ℕ → Prop
  | last {b b' : Builder} {p q : ℕ} (h : b.Reading alphabet)
      (hrun : (b.step alphabet).run I B p = .done (b', true) q) :
      Rounds I B alphabet b p b' q
  | next {b b₁ b' : Builder} {p p₁ q : ℕ} (h : b.Reading alphabet)
      (hrun : (b.step alphabet).run I B p = .done (b₁, false) p₁)
      (hrest : Rounds I B alphabet b₁ p₁ b' q) : Rounds I B alphabet b p b' q

theorem Builder.rounds_of_accepts (n : ℕ) :
    ∀ {b b' : Builder} {p : ℕ}, Builder.rounds alphabet b < n → b.Reading alphabet →
    Accepts I B alphabet b p b' q → Rounds I B alphabet b p b' q := by
  induction n with
  | zero => exact fun hn => absurd hn (Nat.not_lt_zero _)
  | succ n ih =>
    intro b b' p hn h hacc
    obtain ⟨p', hparse⟩ := hacc
    have hparse' := hparse
    rw [parse_eq h] at hparse
    rcases hr : (b.step alphabet).run I B p with ⟨⟨b₁, _ | _⟩, p₁⟩ | ⟨f, p₁⟩ | _
    · rw [hr] at hparse
      have hnearer := run_rounds h hr
      exact .next h hr (ih (by omega) (run_reading h hr).1 ⟨p', hparse⟩)
    · rw [hr] at hparse
      cases hparse
      exact .last h hr
    · rw [hr] at hparse
      cases hparse
    · rw [hr] at hparse
      cases hparse

/-- A resumable reader that steps its builder, and goes on with `done` after the last step. -/
theorem Ends.description {σ : Type} (step : Step σ) (embed : Builder → σ)
    (done : Builder → Except (DecodeError × σ) (Bool × σ))
    (hstep : ∀ b, step (embed b) = (b.step alphabet).bind fun x =>
    .pure (if x.2 then done x.1 else .ok (false, embed x.1)))
    {b b' : Builder} (hrounds : Builder.Rounds I B alphabet b p b' q) :
    (∀ e, done b' = .error e → Ends step I B (embed b) p (.error e) q) ∧
      (∀ s₁ r q', done b' = .ok (false, s₁) → Ends step I B s₁ q r q' →
        Ends step I B (embed b) p r q') ∧
      ∀ s₁, done b' = .ok (true, s₁) → Ends step I B (embed b) p (.ok s₁) q := by
  have hatomic : ∀ {b : Builder}, b.Reading alphabet → (step (embed b)).Atomic 0 := by
    intro b h
    rw [hstep]
    exact (Builder.step_atomic h).bind (fun _ => trivial) fun _ => rfl
  induction hrounds with
  | @last b b' p q h hrun =>
    have hlast : (step (embed b)).run I B p = .done (done b') q := by
      rw [hstep, Reader.run_bind, hrun]
      rfl
    refine ⟨fun e he => ?_, fun s₁ r q' hs hrest => ?_, fun s₁ hs => ?_⟩
    · exact .error (hatomic h) (he ▸ hlast)
    · exact .next (hatomic h) (hs ▸ hlast) hrest
    · exact .last (hatomic h) (hs ▸ hlast)
  | @next b b₁ b' p p₁ q h hrun hrest ih =>
    have hnext : (step (embed b)).run I B p = .done (.ok (false, embed b₁)) p₁ := by
      rw [hstep, Reader.run_bind, hrun]
      rfl
    exact ⟨fun e he => .next (hatomic h) hnext (ih.1 e he),
      fun s₁ r q' hs hrest' => .next (hatomic h) hnext (ih.2.1 s₁ r q' hs hrest'),
      fun s₁ hs => .next (hatomic h) hnext (ih.2.2 s₁ hs)⟩

/-! ### The code built from it -/

/-- A table that finds each used symbol at its pattern. -/
structure Table.Finds (t : Table) (used depth bits : List ℕ) : Prop where
  law : Reader.PrefixLaw t.lookup
  find : ∀ s ∈ used, ∀ v, v % 2 ^ depth.getD s 0 = bits.getD s 0 → t.lookup v = (s, depth.getD s 0)

/-- The symbol whose pattern stands in the stream is read. -/
theorem Table.Finds.run {t : Table} (h : t.Finds used depth bits) {s : ℕ} (hs : s ∈ used)
    (hspells : BitString.Spells I p (ofNat (depth.getD s 0) (bits.getD s 0)))
    (hfits : bits.getD s 0 < 2 ^ depth.getD s 0)
    (hend : p + depth.getD s 0 ≤ 8 * B) {need : Option ℕ} (hneed : ∀ w ∈ need, w = maxLength) :
    (Reader.symbol need t.lookup : Reader Fault ℕ).Atomic 0 ∧
      (Reader.symbol need t.lookup : Reader Fault ℕ).run I B p = .done s (p + depth.getD s 0) := by
  have hwidth : depth.getD s 0 ≤ 15 := by
    have hself := h.find s hs (bits.getD s 0) (Nat.mod_eq_of_lt hfits)
    have := (h.law (bits.getD s 0)).1
    rwa [hself] at this
  have hbits : bits.getD s 0 = bitsAt I p (depth.getD s 0) := eq_bitsAt hfits fun i hi => by
    rw [hspells i (by rw [length_ofNat]; exact hi), getD_ofNat hi]
  have hlookup := h.find s hs (bitsAt I p 15) (by rw [bitsAt_mod I p 15 _ hwidth, ← hbits])
  refine ⟨Reader.atomic_symbol h.law fun w hw v => ?_, ?_⟩
  · rw [hneed w hw]
    exact (h.law v).1
  · show (if p + (t.lookup (bitsAt I p 15)).2 ≤ 8 * B then _ else _) = _
    rw [hlookup, if_pos hend]
    rfl

/-- A code of its own whose table finds each used symbol. -/
def Group.Finds (g : Group) (used depth bits : List ℕ) : Prop :=
  ∃ t, g.single = some t ∧ t.Finds used depth bits

theorem Group.Finds.run {g : Group} (h : g.Finds used depth bits) {s : ℕ} (hs : s ∈ used)
    (hspells : BitString.Spells I p (ofNat (depth.getD s 0) (bits.getD s 0)))
    (hfits : bits.getD s 0 < 2 ^ depth.getD s 0)
    (hend : p + depth.getD s 0 ≤ 8 * B) :
    g.decodeRefilling.Atomic 0 ∧ g.decodeRefilling.run I B p = .done s (p + depth.getD s 0) := by
  obtain ⟨t, ht, hfinds⟩ := h
  unfold Group.decodeRefilling
  rw [ht]
  exact hfinds.run hs hspells hfits hend fun w hw => (Option.mem_some.1 hw).symm

/-- A slot of the group shows the code of the lengths, whatever else the storage holds; or
the memory limit refuses its tables. -/
theorem Assigned.slot {lengths : List ℕ} {b : Builder} (h : b.Assigned lengths alphabet)
    (hmax : alphabet ≤ maxAlphabet)
    (h15 : ∀ ℓ ∈ lengths, ℓ ≤ 15) (hcode : kraft lengths = 2 ^ 15 ∨ usedSymbols lengths = 1)
    {g : Group} {tree : ℕ} (htree : tree < g.count) (hg : g.Ready) (memory : Memory) :
    match b.buildSlot alphabet g tree memory with
    | .error (e, _, _) => ∃ l, memory.limit = some l ∧ e = .memoryLimitExceeded l
    | .ok (largest, memory', g') => largest < alphabet ∧ memory'.limit = memory.limit ∧
        g'.count = g.count ∧ g'.Ready ∧ g.used ≤ g'.used ∧
        (∀ i, i < g.used → ¬ (tree * rootSize ≤ i ∧ i < tree * rootSize + rootSize) →
          g'.codes.get i = g.codes.get i) ∧
        ∃ c, PrefixCode.ofLists (ofLengths lengths) = some c ∧
        Holds g'.codes.get (tree * rootSize) g.used g'.used c := by
  obtain ⟨c, hc⟩ := exists_ofLists h15 hcode
  have hne : Canonical.symbols (ofLengths lengths) ≠ [] := fun hnil => by
    unfold PrefixCode.ofLists at hc
    rw [hnil] at hc
    cases hc
  have hlast : b.last < alphabet := by
    obtain ⟨ℓ, -, -, hmem⟩ := mem_symbols.1 (h.last hne).1
    exact h.chained.lt ℓ _ hmem
  have hlisted := h.chained.listed hmax h.last
  have hstart : tree * rootSize + rootSize ≤ g.used := by
    rw [← Nat.succ_mul]
    exact (Nat.mul_le_mul_right _ htree).trans hg.roots
  have hspec := Builder.fill_spec hlisted hstart hg.used_le memory
  have hgrew := b.buildSlot_accounts g memory alphabet tree
  have hslot : b.buildSlot alphabet g tree memory = b.fill g (tree * rootSize) memory := by
    unfold Builder.buildSlot
    rw [if_neg (by omega)]
  rw [hslot] at hgrew ⊢
  generalize b.fill g (tree * rootSize) memory = r at hspec hgrew
  rcases r with ⟨e, memory', g'⟩ | ⟨largest, memory', g'⟩
  · rcases hspec with ⟨-, hnone⟩ | hlimit
    · rw [hnone] at hc
      cases hc
    · exact hlimit
  · obtain ⟨hlargest, hcount, hused, hlen, hframe, hholds⟩ := hspec
    refine ⟨?_, hgrew.limit, hcount, ⟨?_, hlen⟩, ?_, hframe, hholds⟩
    · rw [hlargest, ← hlisted.last hne]
      exact hlast
    · rw [hcount, hused]
      exact hg.roots.trans (Nat.le_add_right _ _)
    · rw [hused]
      exact Nat.le_add_right _ _

/-- The words of the lengths are found by a table that shows their code. -/
theorem finds_of_lookup {t : Table} {lengths : List ℕ} (h15 : ∀ ℓ ∈ lengths, ℓ ≤ 15)
    (hcode : kraft lengths = 2 ^ 15 ∨ usedSymbols lengths = 1) {c : PrefixCode}
    (hc : PrefixCode.ofLists (ofLengths lengths) = some c)
    (hwords : ∀ s ∈ used, s < lengths.length ∧ lengths.getD s 0 ≠ 0 ∧
      wordField lengths s = (depth.getD s 0, bits.getD s 0))
    (hlookup : t.lookup = c.lookup) : t.Finds used depth bits := by
  refine ⟨?_, fun s hs v hv => ?_⟩
  · rw [hlookup]
    exact c.lookup_prefixLaw
  · obtain ⟨hlt, h0, hword⟩ := hwords s hs
    rw [hlookup]
    exact lookup_of_spells h15 hc ((spells_iff_wordField h15 hcode).2 ⟨hlt,
      h0, by rw [hword], by rw [hword]; exact hv⟩)

/-- Only the memory limit refuses a group its roots. -/
theorem Group.prepare_error {g : Group} {count : ℕ} {memory : Memory} {e : DecodeError}
    (h : g.prepare count alphabet memory = .error e)
    (h1 : 1 ≤ alphabet) (hmax : alphabet ≤ maxAlphabet) :
    ∃ l, memory.limit = some l ∧ e = .memoryLimitExceeded l := by
  rw [Group.prepare, if_neg (by omega)] at h
  dsimp only at h
  split at h
  · cases hr : memory.resize Code.size g.codes (count * rootSize) {} with
    | error e' =>
      rw [hr] at h
      cases h
      exact Memory.reserve_error (Memory.resize_error hr)
    | ok x =>
      rw [hr] at h
      cases h
  · cases h

/-- The table of a code is built, or the memory limit refuses it. -/
theorem Assigned.build {lengths : List ℕ} {b : Builder} (h : b.Assigned lengths alphabet)
    (h1 : 1 ≤ alphabet) (hmax : alphabet ≤ maxAlphabet)
    (h15 : ∀ ℓ ∈ lengths, ℓ ≤ 15) (hcode : kraft lengths = 2 ^ 15 ∨ usedSymbols lengths = 1)
    (hwords : ∀ s ∈ used, s < lengths.length ∧ lengths.getD s 0 ≠ 0 ∧
      wordField lengths s = (depth.getD s 0, bits.getD s 0))
    (g : Group) (memory : Memory) :
    (∃ l memory' g', memory.limit = some l ∧ b.build alphabet memory g =
      .error (.memoryLimitExceeded l, memory', g')) ∨
      ∃ largest memory' g', b.build alphabet memory g = .ok (largest, memory', g') ∧
      memory'.limit = memory.limit ∧
        g'.Finds used depth bits := by
  unfold Builder.build
  cases hp : g.prepare 1 alphabet memory with
  | error e =>
    obtain ⟨l, hl, rfl⟩ := Group.prepare_error hp h1 hmax
    exact Or.inl ⟨l, _, _, hl, rfl⟩
  | ok x =>
    obtain ⟨memory₁, g₁⟩ := x
    obtain ⟨hcount, hready⟩ := Group.prepare_ready hp
    have hlimit : memory₁.limit = memory.limit := (Group.prepare_grew hp).limit
    have hslot := Assigned.slot h hmax h15 hcode (show 0 < g₁.count by omega) hready memory₁
    dsimp only
    generalize b.buildSlot alphabet g₁ 0 memory₁ = r at hslot
    rcases r with ⟨e, memory', g'⟩ | ⟨largest, memory', g'⟩
    · obtain ⟨l, hl, rfl⟩ := hslot
      exact Or.inl ⟨l, _, _, hlimit ▸ hl, rfl⟩
    · obtain ⟨-, hlimit', hcount', -, -, -, c, hc, hholds⟩ := hslot
      refine Or.inr ⟨_, _, _, rfl, hlimit'.trans hlimit, _, if_pos (by omega), ?_⟩
      exact finds_of_lookup h15 hcode hc hwords (funext fun v => hholds _ (fun _ _ => rfl) v)

/-- **A description that stands in the stream is read to its last bit.** -/
theorem description_assigned {d : CodeDescription} (h1 : 1 ≤ alphabet)
    (hmax : alphabet ≤ maxAlphabet) (hd : d.Valid alphabet)
    (hfit : ∀ f ∈ d.fields alphabet, f.2 < 2 ^ f.1)
    {b : Builder} (hstage : b.stage = .start)
    (hspells : BitString.Spells I p (fieldBits (d.fields alphabet)))
    (hend : p + (fieldBits (d.fields alphabet)).length ≤ 8 * B) :
    ∃ b', Builder.Rounds I B alphabet b p b' (p + (fieldBits (d.fields alphabet)).length) ∧
    b'.stage = .start ∧
      b'.Assigned (d.lengths alphabet) alphabet := by
  have halpha : ¬ (alphabet = 0 ∨ maxAlphabet < alphabet) := by omega
  have hspelled := spelled_of_spells hfit hspells
  obtain ⟨b', hacc⟩ := Builder.accepts_complete halpha hstage hd hspelled hend
  obtain ⟨d', hd', hspelled', -, hstart, hassigned⟩ := Builder.accepts_sound halpha hstage hacc
  obtain ⟨rfl, -⟩ := CodeDescription.unique hd hd' hspelled hspelled'
  exact ⟨b', Builder.rounds_of_accepts _ (Nat.lt_succ_self _) (Builder.reading_start hstage) hacc,
    hstart, hassigned⟩

/-- The same with its code built. -/
theorem description_rounds {d : CodeDescription} (h1 : 1 ≤ alphabet) (hmax : alphabet ≤ maxAlphabet)
    (hd : d.Valid alphabet)
    (hfit : ∀ f ∈ d.fields alphabet, f.2 < 2 ^ f.1)
    (hwords : ∀ s ∈ used, s < (d.lengths alphabet).length ∧ (d.lengths alphabet).getD s 0 ≠ 0 ∧
      wordField (d.lengths alphabet) s = (depth.getD s 0, bits.getD s 0))
    {b : Builder} (hstage : b.stage = .start)
    (hspells : BitString.Spells I p (fieldBits (d.fields alphabet)))
    (hend : p + (fieldBits (d.fields alphabet)).length ≤ 8 * B) :
    ∃ b', Builder.Rounds I B alphabet b p b' (p + (fieldBits (d.fields alphabet)).length) ∧
    b'.stage = .start ∧
      ∀ (g : Group) (memory : Memory),
        (∃ l memory' g', memory.limit = some l ∧ b'.build alphabet memory g =
          .error (.memoryLimitExceeded l, memory', g')) ∨
        ∃ largest memory' g', b'.build alphabet memory g = .ok (largest, memory', g') ∧
        memory'.limit = memory.limit ∧
          g'.Finds used depth bits := by
  obtain ⟨b', hrounds, hstart, hassigned⟩ :=
    description_assigned h1 hmax hd hfit hstage hspells hend
  obtain ⟨h15, -, hcode⟩ := hd.code
  exact ⟨b', hrounds, hstart, fun g memory => Assigned.build hassigned h1 hmax h15 hcode
    hwords g memory⟩

end Mbrotli
