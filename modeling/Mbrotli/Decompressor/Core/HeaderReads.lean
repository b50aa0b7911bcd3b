/-
# Reading a compressed meta-block's header

The stages between a meta-block's first bit and its first command read one part of the header
each: the meta-block's length, three block headers, the distance parameters, the context
modes, two context maps and three groups of codes. `Stream.Passes` says that a stream gets
over the next `n` bits to a state of a given kind, or reports the memory limit; passages
follow each other (`Passes.trans`), and one that reaches a command is a run of the header.

Every stage has one lemma: the readers nested in a stage are carried into the stream
(`Resumable.Ends.carried`), the others are a single field (`passes_field`).

Key definitions: `Stream.Passes`, `Stream.Heading`.
Key theorems: `Stream.Passes.trans`, `Stream.passes_block`, `Stream.passes_literalMap`,
`Stream.passes_trees`.
-/
import Mbrotli.Decompressor.Core.BlockReads
import Mbrotli.Decompressor.Core.GroupReads

namespace Mbrotli

open BitString Resumable

/-! ### Nested readers -/

namespace Resumable

variable {σ τ : Type}

/-- What a nested reader's round is to the reader around it: `done` takes over after the last. -/
def carry (embed : σ → τ) (done : σ → Except (DecodeError × τ) (Bool × τ)) :
    Except (DecodeError × σ) (Bool × σ) → Except (DecodeError × τ) (Bool × τ)
  | .error (e, y) => .error (e, embed y)
  | .ok (true, y) => done y
  | .ok (false, y) => .ok (false, embed y)

/-- How the outer reader ends where the nested one ends with `r`. -/
def Carried (outer : Step τ) (I : List UInt8) (B : ℕ) (embed : σ → τ)
    (done : σ → Except (DecodeError × τ) (Bool × τ)) (x : σ) (p q : ℕ) :
    Except (DecodeError × σ) σ → Prop
  | .error (e, y) => Ends outer I B (embed x) p (.error (e, embed y)) q
  | .ok y => (∀ e, done y = .error e → Ends outer I B (embed x) p (.error e) q) ∧
      (∀ z, done y = .ok (false, z) → ∀ r' q', Ends outer I B z q r' q' →
        Ends outer I B (embed x) p r' q') ∧
      ∀ z, done y = .ok (true, z) → Ends outer I B (embed x) p (.ok z) q

/-- A reader whose rounds are those of a nested one comes to where that ends. -/
theorem Ends.carried {step : Step σ} {I : List UInt8} {B p q : ℕ} {x : σ}
    {r : Except (DecodeError × σ) σ} (outer : Step τ)
    (embed : σ → τ) (done : σ → Except (DecodeError × τ) (Bool × τ))
    (hstep : ∀ x, outer (embed x) = (step x).bind fun r => .pure (carry embed done r))
    (h : Ends step I B x p r q) : Carried outer I B embed done x p q r := by
  have hatomic : ∀ {x : σ}, (step x).Atomic 0 → (outer (embed x)).Atomic 0 := by
    intro x hx
    rw [hstep]
    exact hx.bind (fun _ => trivial) fun _ => rfl
  have hround : ∀ {x : σ} {p q : ℕ} {a : Except (DecodeError × σ) (Bool × σ)},
    (step x).run I B p = .done a q →
      (outer (embed x)).run I B p = .done (carry embed done a) q := by
    intro x p q a hx
    rw [hstep, Reader.run_bind, hx]
    rfl
  induction h with
  | last hx hrun =>
    have hlast := hround hrun
    rw [carry] at hlast
    exact ⟨fun e he => .error (hatomic hx) (he ▸ hlast),
      fun z hz r' q' hrest => .next (hatomic hx) (hz ▸ hlast) hrest,
      fun z hz => .last (hatomic hx) (hz ▸ hlast)⟩
  | error hx hrun => exact .error (hatomic hx) (hround hrun)
  | @next x x₁ p p₁ q r hx hrun hrest ih =>
    rcases r with ⟨e, y⟩ | y
    · exact .next (hatomic hx) (hround hrun) ih
    · obtain ⟨herror, hgo, hlast⟩ := ih
      exact ⟨fun e he => .next (hatomic hx) (hround hrun) (herror e he),
        fun z hz r' q' hrest' => .next (hatomic hx) (hround hrun) (hgo z hz r' q' hrest'),
        fun z hz => .next (hatomic hx) (hround hrun) (hlast z hz)⟩

end Resumable

namespace Stream

variable {env : Env} {stop : Stage → Bool} {I : List UInt8} {B p n m : ℕ} {s s' : Stream}
    {t : Tables} {P Q : Stream → Prop}

/-! ### Passages -/

/-- The stream gets over `n` bits to a state with `P`, or reports the memory limit. -/
def Passes (env : Env) (stop : Stage → Bool) (I : List UInt8) (B : ℕ) (s : Stream) (p n : ℕ)
    (P : Stream → Prop) : Prop :=
  (∃ l s' q, s.memory.limit = some l ∧
    Ends (rounds env stop) I B s p (.error (.memoryLimitExceeded l, s')) q) ∨
    ∃ s', s'.memory.limit = s.memory.limit ∧ P s' ∧ ∀ r q, After env stop I B s' (p + n) r q →
    Ends (rounds env stop) I B s p r q

/-- Passages follow each other. -/
theorem Passes.trans (h : Passes env stop I B s p n P) (hstop : ∀ s', P s' → stop s'.stage = false)
    (hnext : ∀ s', P s' → Passes env stop I B s' (p + n) m Q) :
    Passes env stop I B s p (n + m) Q := by
  rcases h with hlimit | ⟨s₁, hsame, hs₁, hgo⟩
  · exact Or.inl hlimit
  have hon : ∀ {r q}, Ends (rounds env stop) I B s₁ (p + n) r q →
      Ends (rounds env stop) I B s p r q :=
    fun h => hgo _ _ (Or.inr ⟨hstop s₁ hs₁, h⟩)
  rcases hnext s₁ hs₁ with ⟨l, s', q, hl, hends⟩ | ⟨s₂, hsame₂, hs₂, hgo₂⟩
  · exact Or.inl ⟨l, s', q, hsame ▸ hl, hon hends⟩
  · refine Or.inr ⟨s₂, hsame₂.trans hsame, hs₂, fun r q hafter => hon (hgo₂ r q ?_)⟩
    rw [Nat.add_assoc]
    exact hafter

theorem Passes.mono (h : Passes env stop I B s p n P) (hPQ : ∀ s', P s' → Q s') :
    Passes env stop I B s p n Q := by
  rcases h with hlimit | ⟨s', hsame, hs', hgo⟩
  · exact Or.inl hlimit
  · exact Or.inr ⟨s', hsame, hPQ s' hs', hgo⟩

/-- The stream gets over the bits `stored` wherever they stand. -/
def Crosses (env : Env) (stop : Stage → Bool) (I : List UInt8) (B : ℕ) (s : Stream) (p : ℕ)
    (stored : List Bool) (P : Stream → Prop) : Prop :=
  Spells I p stored → p + stored.length ≤ 8 * B → Passes env stop I B s p stored.length P

theorem Crosses.append {a b : List Bool} (h : Crosses env stop I B s p a P)
    (hstop : ∀ s', P s' → stop s'.stage = false)
    (hnext : ∀ s', P s' → Crosses env stop I B s' (p + a.length) b Q) :
    Crosses env stop I B s p (a ++ b) Q := by
  intro hspells hend
  obtain ⟨ha, hb⟩ := spells_append.1 hspells
  rw [List.length_append] at hend ⊢
  exact (h ha (by omega)).trans hstop fun s' hs' => hnext s' hs' hb (by omega)

/-- How an update may end: in a state with `P`, or at the memory limit. -/
def Led (s : Stream) (P : Stream → Prop) : Update → Prop
  | .error (e, _) => ∃ l, s.memory.limit = some l ∧ e = .memoryLimitExceeded l
  | .ok s' => s'.memory.limit = s.memory.limit ∧ P s'

/-- A stage that reads one thing and updates the state by it. -/
theorem passes_once {α : Type} {reader : Reader Fault α} {f : α → Update} {v : α}
    (hread : s.readStage env = reader.bind fun v => .pure (f v))
    (hatomic : reader.Atomic 0) (hrun : reader.run I B p = .done v (p + n)) (hf : Led s P (f v)) :
    Passes env stop I B s p n P := by
  have hstep : rounds env stop s = reader.bind fun v =>
      .pure ((f v).map fun s => (stop s.stage, s)) := by
    rw [rounds, hread, Reader.bind_assoc]
    rfl
  have hround : (rounds env stop s).Atomic 0 ∧ (rounds env stop s).run I B p =
      .done ((f v).map fun s => (stop s.stage, s)) (p + n) := by
    rw [hstep]
    refine ⟨hatomic.bind (fun _ => trivial) fun _ => rfl, ?_⟩
    rw [Reader.run_bind, hrun]
    rfl
  rcases hv : f v with ⟨e, s'⟩ | s'
  · rw [hv] at hf hround
    obtain ⟨l, hl, rfl⟩ := hf
    exact Or.inl ⟨l, s', _, hl, .error hround.1 hround.2⟩
  · rw [hv] at hf hround
    refine Or.inr ⟨s', hf.1, hf.2, fun r q hafter => ?_⟩
    rcases hafter with ⟨hyes, rfl, rfl⟩ | ⟨hno, hends⟩
    · exact .last hround.1 (by rw [hround.2, ← hyes]; rfl)
    · exact .next hround.1 (by rw [hround.2, ← hno]; rfl) hends

/-- A stage that reads one field. -/
theorem passes_field {width v : ℕ} {f : ℕ → Update}
    (hread : s.readStage env = (Reader.read width).bind fun v => .pure (f v))
    (hwidth : width ≤ Reader.fieldMax) (hv : v < 2 ^ width) (hspells : Spells I p (ofNat width v))
    (hend : p + width ≤ 8 * B)
    (hf : Led s P (f v)) : Passes env stop I B s p width P :=
  passes_once hread (Reader.atomic_read hwidth) (Reader.run_read .pure hv hspells hend) hf

/-- What a nested reader's round does to the stream around it. -/
def relay {σ : Type} (embed : σ → Stream) (done : σ → Update) :
    Except (DecodeError × σ) (Bool × σ) → Update
  | .error (e, y) => .error (e, embed y)
  | .ok (true, y) => done y
  | .ok (false, y) => .ok (embed y)

/-- A stage around a nested reader. -/
theorem passes_nested {σ : Type} {step : Step σ} {embed : σ → Stream} {done : σ → Update} {x : σ}
    {r : Except (DecodeError × σ) σ} {q : ℕ}
    (hstop : ∀ x, stop (embed x).stage = false)
    (hread : ∀ x, (embed x).readStage env = (step x).bind fun r => .pure (relay embed done r))
    (hends : Ends step I B x p r q)
    (herror : ∀ e y, r = .error (e, y) → ∃ l, (embed x).memory.limit = some l ∧
      e = .memoryLimitExceeded l)
    (hok : ∀ y, r = .ok y → q = p + n ∧ Led (embed x) P (done y)) :
    Passes env stop I B (embed x) p n P := by
  have hstep : ∀ x, rounds env stop (embed x) =
      (step x).bind fun r =>
      .pure (carry embed (fun y => (done y).map fun s => (stop s.stage, s)) r) := by
    intro x
    rw [rounds, hread, Reader.bind_assoc]
    congr 1
    funext r
    rcases r with ⟨e, y⟩ | ⟨_ | _, y⟩
    · rfl
    · show Reader.pure (Except.ok (stop (embed y).stage, embed y)) = _
      rw [hstop]
      rfl
    · rfl
  have hcarried := hends.carried _ embed _ hstep
  rcases r with ⟨e, y⟩ | y
  · obtain ⟨l, hl, rfl⟩ := herror e y rfl
    exact Or.inl ⟨l, _, _, hl, hcarried⟩
  · obtain ⟨rfl, hled⟩ := hok y rfl
    obtain ⟨hfails, hgo, hlast⟩ := hcarried
    dsimp only at hfails hgo hlast
    rcases hy : done y with ⟨e, s'⟩ | s'
    · rw [hy] at hled hfails
      obtain ⟨l, hl, rfl⟩ := hled
      exact Or.inl ⟨l, s', _, hl, hfails _ rfl⟩
    · rw [hy] at hled hgo hlast
      refine Or.inr ⟨s', hled.1, hled.2, fun r' q' hafter => ?_⟩
      rcases hafter with ⟨hyes, rfl, rfl⟩ | ⟨hno, hrest⟩
      · exact hlast _ (by rw [← hyes]; rfl)
      · exact hgo _ (by rw [← hno]; rfl) r' q' hrest

/-! ### The stages -/

/-- A stream in the middle of a header: its stage and tables, with no description begun. -/
structure Heading (s : Stream) (length : ℕ) (last : Bool) (stage : Stage) (t : Tables) : Prop where
  stage : s.stage = stage
  tables : s.tables = some t
  start : t.builder.stage = .start
  started : s.large = false ∧ s.remaining = length ∧ s.last = last

variable {length : ℕ} {last : Bool}

/-- The stage after a block header. -/
def afterBlock (i : Fin 3) : Stage := if i = 2 then .distanceParams else .blocks (i + 1)

/-- A stream that reads a block header. -/
def inBlock (s : Stream) (t : Tables) (i : Fin 3) (stage : Stage) (x : Block × Builder × Memory) :
    Stream :=
  { s with memory := x.2.2, stage, tables := some ({ t with builder := x.2.1 }.setBlock i x.1) }

theorem readStage_inBlock (s : Stream) (t : Tables) (i : Fin 3) (x : Block × Builder × Memory) :
    (s.inBlock t i (.blocks i) x).readStage env = (Block.rounds x).bind fun r => .pure
      (relay (s.inBlock t i (.blocks i)) (fun y => .ok (s.inBlock t i (afterBlock i) y)) r) := by
  obtain ⟨b, builder, memory⟩ := x
  have hset : ∀ b' builder',
    { ({ t with builder := builder }.setBlock i b) with builder := builder' }.setBlock i b' =
      { t with builder := builder' }.setBlock i b' := fun b' builder' => by
    unfold Tables.setBlock
    simp only [Function.update_idem]
  have hget : ({ t with builder := builder }.setBlock i b).blocks i = b := Function.update_self ..
  unfold inBlock readStage
  dsimp only
  rw [hget]
  show (b.headerStep builder memory).bind _ = (b.headerStep builder memory).bind _
  congr 1
  funext r
  rcases r with ⟨e, b', builder', memory'⟩ | ⟨_ | _, b', builder', memory'⟩
  · show Reader.pure (Except.error (e, _)) = Reader.pure (Except.error (e, _))
    dsimp only
    rw [hset]
  · show Reader.pure (Except.ok _) = Reader.pure (Except.ok _)
    dsimp only
    rw [hset]
    rfl
  · show Reader.pure (Except.ok _) = Reader.pure (Except.ok _)
    dsimp only
    rw [hset]
    rfl

/-- A block header. -/
theorem passes_block {i : Fin 3} (hs : s.Heading length last (.blocks i) t)
    (hstop : stop (.blocks i) = false)
    {r : Except (DecodeError × Block × Builder × Memory) (Block × Builder × Memory)}
    {q count remaining : ℕ}
    {usedTypes typeDepths typeBits usedLengths lengthDepths lengthBits : List ℕ}
    (hends : Ends Block.rounds I B (t.blocks i, t.builder, s.memory) p r q)
    (hopened : Block.Opened s.memory count remaining usedTypes typeDepths typeBits usedLengths
      lengthDepths lengthBits r)
    (hq : (∃ x, r = .ok x) → q = p + n) :
    Passes env stop I B s p n fun s' => ∃ b builder memory, s'.Heading length last (afterBlock i)
    ({ t with builder }.setBlock i b) ∧
      Block.Opened s.memory count remaining usedTypes typeDepths typeBits usedLengths lengthDepths
      lengthBits (.ok (b, builder, memory)) := by
  have hstart : s = s.inBlock t i (.blocks i) (t.blocks i, t.builder, s.memory) := by
    unfold inBlock Tables.setBlock
    dsimp only
    rw [Function.update_eq_self, ← hs.stage, ← hs.tables]
  rw [hstart]
  refine passes_nested (fun _ => hstop) (readStage_inBlock s t i) hends ?_ ?_
  · rintro e ⟨b, builder, memory⟩ rfl
    exact hopened
  · rintro ⟨b, builder, memory⟩ rfl
    have hfacts := hopened
    obtain ⟨-, -, -, -, -, -, hbuilder, hmemory⟩ := hopened
    exact ⟨hq ⟨_, rfl⟩, hmemory, b, builder, memory, ⟨rfl, rfl, hbuilder, hs.started⟩, hfacts⟩

/-- The distance parameters. -/
theorem passes_distanceParams (hs : s.Heading length last .distanceParams t) {params : ℕ}
    (hparams : params < 2 ^ 6) (hspells : Spells I p (ofNat 6 params))
    (hend : p + 6 ≤ 8 * B) :
    Passes env stop I B s p 6 fun s' => ∃ t', s'.Heading length last (.modes 0) t' ∧
    t'.distances = .fromHeader params false ∧ t'.blocks = t.blocks ∧
      t'.maps = t.maps := by
  have hread : s.readStage env = (Reader.read 6).bind fun v => .pure (s.setDistances t v) := by
    unfold readStage
    rw [hs.stage, hs.tables]
    rfl
  refine passes_field hread (by decide) hparams hspells hend ?_
  unfold setDistances
  rw [hs.started.1]
  dsimp only
  split
  · cases hfill : (DistanceLayout.fromHeader params false).fillTable t.distanceTable s.memory with
    | error e =>
      unfold DistanceLayout.fillTable at hfill
      split at hfill
      · rename_i e' hreserve
        cases hfill
        exact Memory.reserve_error hreserve
      · cases hfill
    | ok x =>
      unfold DistanceLayout.fillTable at hfill
      split at hfill
      · cases hfill
      · rename_i memory' table hreserve
        cases hfill
        exact ⟨(Memory.reserve_ok hreserve).1, _, ⟨rfl, rfl, hs.start, rfl, hs.started.2⟩,
          rfl, rfl, rfl⟩
  · exact ⟨rfl, _, ⟨rfl, rfl, hs.start, rfl, hs.started.2⟩, rfl, rfl, rfl⟩

/-- The context modes of the literal types from number `i` on. -/
theorem passes_modes (hstop : ∀ i, stop (.modes i) = false) {mode count : ℕ}
    (hmode : mode < 2 ^ 2) (k : ℕ) :
    ∀ {i : ℕ} {s : Stream} {t : Tables} {p : ℕ}, s.Heading length last (.modes i) t →
    (t.blocks 0).count = count → i + (k + 1) = count →
    (∀ j < i, t.modes j = mode) → Spells I p ((List.replicate (k + 1) (ofNat 2 mode)).flatten) →
    p + 2 * (k + 1) ≤ 8 * B →
    Passes env stop I B s p (2 * (k + 1)) fun s' =>
    ∃ modes, s'.Heading length last (.maps 0) { t with modes } ∧ ∀ j < count, modes j = mode := by
  have hround : ∀ {i : ℕ} {s : Stream} {t : Tables} {p : ℕ}, s.Heading length last (.modes i) t →
    (t.blocks 0).count = count →
      (∀ j < i, t.modes j = mode) → Spells I p (ofNat 2 mode) → p + 2 ≤ 8 * B →
      Passes env stop I B s p 2 fun s' => ∃ modes,
        s'.Heading length last (if i + 1 = count then .maps 0 else .modes (i + 1))
        { t with modes } ∧ ∀ j < i + 1, modes j = mode := by
    intro i s t p hs hcount hmodes hspells hend
    have hread : s.readStage env = (Reader.read 2).bind fun v => .pure (.ok { s with
        tables := some { t with modes := Function.update t.modes i v }
        stage := if i + 1 = (t.blocks 0).count then .maps 0 else .modes (i + 1) }) := by
      unfold readStage
      rw [hs.stage, hs.tables]
      rfl
    refine passes_field hread (by decide) hmode hspells hend ⟨rfl, _,
      ⟨?_, rfl, hs.start, hs.started⟩, fun j hj => ?_⟩
    · rw [hcount]
    · rcases Nat.lt_or_eq_of_le (Nat.le_of_lt_succ hj) with hlt | rfl
      · rw [Function.update_of_ne (Nat.ne_of_lt hlt)]
        exact hmodes j hlt
      · exact Function.update_self ..
  induction k with
  | zero =>
    intro i s t p hs hcount hi hmodes hspells hend
    rw [List.replicate_one, List.flatten_singleton] at hspells
    obtain rfl : i + 1 = count := hi
    have hfirst := hround hs hcount hmodes hspells (by omega)
    rw [if_pos rfl] at hfirst
    exact hfirst
  | succ k ih =>
    intro i s t p hs hcount hi hmodes hspells hend
    rw [List.replicate_succ, List.flatten_cons] at hspells
    obtain ⟨hhead, htail⟩ := spells_append.1 hspells
    rw [length_ofNat] at htail
    have hfirst := hround hs hcount hmodes hhead (by omega)
    rw [if_neg (show i + 1 ≠ count by omega)] at hfirst
    have hsize : 2 * (k + 1 + 1) = 2 + 2 * (k + 1) := by omega
    rw [hsize]
    refine hfirst.trans (fun s' hs' => ?_) fun s' hs' => ?_
    · obtain ⟨modes, hs', -⟩ := hs'
      rw [hs'.stage]
      exact hstop (i + 1)
    · obtain ⟨modes, hs', hmodes'⟩ := hs'
      exact @ih (i + 1) s' { t with modes } (p + 2) hs' hcount (show i + 1 + (k + 1) =
        count by omega) hmodes' htail (by omega)

/-! ### The length of a meta-block -/

/-- The bits of a compressed meta-block's length in `nibbles` nibbles. -/
def lengthBits (nibbles length : ℕ) (last : Bool) : List Bool :=
  (if last then ofNat 1 1 ++ ofNat 1 0 else ofNat 1 0) ++ ofNat 2 (nibbles - 4) ++
    ofNat (nibbles * 4) (length - 1) ++ if last then [] else ofNat 1 0

/-- The fields of a length, however many bits stand before them: what is left is the flag behind
them. -/
theorem sized_fields {width nibbles : ℕ} (h4 : 4 ≤ nibbles) (h6 : nibbles ≤ 6) (h1 : 1 ≤ length)
    (hfits : length - 1 < 2 ^ (nibbles * 4))
    (hshort : 4 < nibbles → 2 ^ ((nibbles - 1) * 4) ≤ length - 1)
    (hspells : Spells I (p + width) (ofNat 2 (nibbles - 4) ++ ofNat (nibbles * 4) (length - 1)))
    (hend : p + (width + 2 + nibbles * 4 + (!last).toNat) ≤ 8 * B) :
    (Header.sized width last).run I B p =
      (if !last && bitsAt I p (width + 2 + nibbles * 4 + (!last).toNat) >>>
        (width + 2 + nibbles * 4) ≠ 0 then
        (Reader.toByte InvalidDataKind.padding.fault).bind fun _ => .pure (.uncompressed length)
      else .pure (.compressed length last) : Reader Fault MetaBlock).run I B
      (p + (width + 2 + nibbles * 4 + (!last).toNat)) := by
  obtain ⟨hnibbles, hlength⟩ := spells_append.1 hspells
  rw [length_ofNat] at hlength
  have hn : bitsAt I p (width + 2) >>> width + 4 = nibbles := by
    rw [Nat.shiftRight_eq_div_pow, bitsAt_div, Nat.add_sub_cancel_left,
      bitsAt_of_spells (by omega) hnibbles]
    omega
  have hl : bitsAt I p (width + 2 + nibbles * 4 + (!last).toNat) >>> (width + 2) % 2 ^
      (nibbles * 4) = length - 1 := by
    rw [Nat.shiftRight_eq_div_pow, bitsAt_div, bitsAt_mod _ _ _ _ (by omega), ← Nat.add_assoc]
    exact bitsAt_of_spells hfits hlength
  have hlong : ¬ (4 < nibbles ∧ (length - 1) >>> ((nibbles - 1) * 4) = 0) := by
    rintro ⟨h, hzero⟩
    rw [Nat.shiftRight_eq_div_pow] at hzero
    exact absurd (hshort h) (Nat.not_le.2 (Nat.lt_of_div_eq_zero (Nat.two_pow_pos _) hzero))
  unfold Header.sized
  rw [Reader.bind_eq, Reader.run_look _ (by omega)]
  dsimp only
  rw [hn, if_neg (show nibbles ≠ 7 by omega), Reader.bind_eq, Reader.run_look _ hend, hl,
    if_neg hlong, Reader.bind_eq,
    Reader.run_skip, Nat.sub_add_cancel h1]
  rfl

theorem sized_run {width nibbles : ℕ} (h4 : 4 ≤ nibbles) (h6 : nibbles ≤ 6) (h1 : 1 ≤ length)
    (hfits : length - 1 < 2 ^ (nibbles * 4))
    (hshort : 4 < nibbles → 2 ^ ((nibbles - 1) * 4) ≤ length - 1)
    (hspells : Spells I (p + width) (ofNat 2 (nibbles - 4) ++ ofNat (nibbles * 4) (length - 1) ++
      if last then [] else ofNat 1 0))
    (hend : p + (width + 2 + nibbles * 4 + (!last).toNat) ≤ 8 * B) :
    (Header.sized width last).run I B p = .done (.compressed length last)
    (p + (width + 2 + nibbles * 4 + (!last).toNat)) := by
  obtain ⟨hhead, hflag⟩ := spells_append.1 hspells
  rw [List.length_append, length_ofNat, length_ofNat] at hflag
  have hcompressed :
      (!last && decide (bitsAt I p (width + 2 + nibbles * 4 + (!last).toNat) >>>
        (width + 2 + nibbles * 4) ≠ 0)) = false := by
    cases last with
    | true => rfl
    | false =>
      have hzero : bitsAt I p (width + 2 + nibbles * 4 + (!false).toNat) >>>
          (width + 2 + nibbles * 4) = 0 := by
        rw [Nat.shiftRight_eq_div_pow, bitsAt_div, Nat.add_sub_cancel_left,
          show p + (width + 2 + nibbles * 4) = p + width + (2 + nibbles * 4) by omega]
        exact bitsAt_of_spells (by decide) hflag
      rw [hzero]
      rfl
  rw [sized_fields h4 h6 h1 hfits hshort hhead hend, hcompressed, if_neg (by decide)]
  rfl

/-- A compressed meta-block's length is read to its last bit. -/
theorem metablock_run {nibbles : ℕ} (h4 : 4 ≤ nibbles) (h6 : nibbles ≤ 6) (h1 : 1 ≤ length)
    (hfits : length - 1 < 2 ^ (nibbles * 4))
    (hshort : 4 < nibbles → 2 ^ ((nibbles - 1) * 4) ≤ length - 1)
    (hspells : Spells I p (lengthBits nibbles length last))
    (hend : p + (lengthBits nibbles length last).length ≤ 8 * B) :
    Header.metablock.run I B p = .done (.compressed length last)
    (p + (lengthBits nibbles length last).length) := by
  unfold lengthBits at hspells hend ⊢
  rw [List.append_assoc, List.append_assoc] at hspells
  obtain ⟨hfirst, hrest⟩ := spells_append.1 hspells
  rw [← List.append_assoc] at hrest
  cases last with
  | false =>
    have hlen : ((if false = true then ofNat 1 1 ++ ofNat 1 0 else ofNat 1 0) ++
      ofNat 2 (nibbles - 4) ++ ofNat (nibbles * 4) (length - 1) ++
        if false = true then [] else ofNat 1 0).length = 1 + 2 + nibbles * 4 + (!false).toNat := by
      simp only [List.length_append, length_ofNat, Bool.false_eq_true, if_false]
      rfl
    rw [hlen] at hend ⊢
    unfold Header.metablock
    rw [Reader.bind_eq, Reader.run_look _ (by omega), if_pos (bitsAt_of_spells (by decide) hfirst)]
    exact sized_run h4 h6 h1 hfits hshort hrest hend
  | true =>
    have hlen : ((if true = true then ofNat 1 1 ++ ofNat 1 0 else ofNat 1 0) ++
      ofNat 2 (nibbles - 4) ++ ofNat (nibbles * 4) (length - 1) ++
        if true = true then [] else ofNat 1 0).length = 2 + 2 + nibbles * 4 + (!true).toNat := by
      simp only [List.length_append, length_ofNat, if_true, List.length_nil]
      rfl
    rw [hlen] at hend ⊢
    obtain ⟨hone, hzero⟩ := spells_append.1 (show Spells I p (ofNat 1 1 ++ ofNat 1 0) from hfirst)
    have hb1 : bitsAt I p 1 = 1 := bitsAt_of_spells (by decide) hone
    have hb2 : bitsAt I p (1 + 1) = 1 := by
      rw [bitsAt_add, hb1, show bitsAt I (p + 1) 1 = 0 from bitsAt_of_spells (by decide) hzero]
      rfl
    unfold Header.metablock
    rw [Reader.bind_eq, Reader.run_look _ (by omega), hb1, if_neg (by decide), Reader.bind_eq,
      Reader.run_look _ (by omega), hb2, if_neg (by decide)]
    exact sized_run h4 h6 h1 hfits hshort hrest hend

/-- The bits of an uncompressed meta-block's length. -/
def rawBits (nibbles length : ℕ) : List Bool :=
  ofNat 1 0 ++ ofNat 2 (nibbles - 4) ++ ofNat (nibbles * 4) (length - 1) ++ ofNat 1 1

/-- Zeros up to a byte boundary are crossed. -/
theorem toByte_run {ε α : Type} {e : ε} (k : Unit → Reader ε α)
    (hspells : Spells I p (List.replicate (Reader.padding p) false)) :
    ((Reader.toByte e).bind k).run I B p = (k ()).run I B (p + Reader.padding p) := by
  have hzeros : List.replicate (Reader.padding p) false = ofNat (Reader.padding p) 0 := by
    unfold ofNat
    rw [List.map_congr_left (g := fun _ => false) fun i _ => Nat.zero_testBit i, List.map_const',
      List.length_range]
  rw [hzeros] at hspells
  exact if_neg (not_not.2 (bitsAt_of_spells (Nat.two_pow_pos _) hspells))

/-- An uncompressed meta-block's length is read, and the zeros behind it. -/
theorem metablock_raw_run {nibbles : ℕ} (h4 : 4 ≤ nibbles) (h6 : nibbles ≤ 6) (h1 : 1 ≤ length)
    (hfits : length - 1 < 2 ^ (nibbles * 4))
    (hshort : 4 < nibbles → 2 ^ ((nibbles - 1) * 4) ≤ length - 1)
    (hspells : Spells I p (rawBits nibbles length))
    (hend : p + (rawBits nibbles length).length ≤ 8 * B)
    (hpadding : Spells I (p + (rawBits nibbles length).length)
      (List.replicate (Reader.padding (p + (rawBits nibbles length).length)) false)) :
    Header.metablock.run I B p = .done (.uncompressed length)
      (p + (rawBits nibbles length).length +
        Reader.padding (p + (rawBits nibbles length).length)) := by
  have hlen : (rawBits nibbles length).length = 1 + 2 + nibbles * 4 + (!false).toNat := by
    unfold rawBits
    simp only [List.length_append, length_ofNat]
    rfl
  rw [hlen] at hend hpadding ⊢
  unfold rawBits at hspells
  obtain ⟨hhead, hflag⟩ := spells_append.1 hspells
  rw [List.append_assoc] at hhead
  obtain ⟨hfirst, hfields⟩ := spells_append.1 hhead
  rw [length_ofNat] at hfields
  simp only [List.length_append, length_ofNat] at hflag
  have hraw :
      (!false && decide (bitsAt I p (1 + 2 + nibbles * 4 + (!false).toNat) >>>
        (1 + 2 + nibbles * 4) ≠ 0)) = true := by
    have hone : bitsAt I p (1 + 2 + nibbles * 4 + (!false).toNat) >>> (1 + 2 + nibbles * 4) =
        1 := by
      rw [Nat.shiftRight_eq_div_pow, bitsAt_div, Nat.add_sub_cancel_left]
      exact bitsAt_of_spells (by decide) hflag
    rw [hone]
    rfl
  unfold Header.metablock
  rw [Reader.bind_eq, Reader.run_look _ (by omega), if_pos (bitsAt_of_spells (by decide) hfirst),
    sized_fields h4 h6 h1 hfits hshort hfields hend, hraw, if_pos rfl, toByte_run _ hpadding]
  rfl

/-- The last, empty meta-block. -/
theorem metablock_end_run (hspells : Spells I p (ofNat 1 1 ++ ofNat 1 1)) (hend : p + 2 ≤ 8 * B) :
    Header.metablock.run I B p = .done .endOfStream (p + 2) := by
  obtain ⟨hone, htwo⟩ := spells_append.1 hspells
  have hb1 : bitsAt I p 1 = 1 := bitsAt_of_spells (by decide) hone
  have hb2 : bitsAt I p (1 + 1) = 3 := by
    rw [bitsAt_add, hb1, show bitsAt I (p + 1) 1 = 1 from bitsAt_of_spells (by decide) htwo]
    rfl
  unfold Header.metablock
  rw [Reader.bind_eq, Reader.run_look _ (by omega), hb1, if_neg (by decide), Reader.bind_eq,
    Reader.run_look _ (by omega), hb2, if_pos (by decide)]
  rfl

/-- An empty metadata block, and the zeros behind it. -/
theorem metablock_metadata_run (hspells : Spells I p (ofNat 6 6)) (hend : p + 6 ≤ 8 * B)
    (hpadding : Spells I (p + 6) (List.replicate (Reader.padding (p + 6)) false)) :
    Header.metablock.run I B p = .done (.metadata 0 false) (p + 6 + Reader.padding (p + 6)) := by
  have hsix : bitsAt I p 6 = 6 := bitsAt_of_spells (by decide) hspells
  have hlow : ∀ n ≤ 6, bitsAt I p n = 6 % 2 ^ n := fun n hn => by rw [← hsix, bitsAt_mod _ _ _ _ hn]
  unfold Header.metablock
  rw [Reader.bind_eq, Reader.run_look _ (by omega), hlow 1 (by decide), if_pos (by decide)]
  unfold Header.sized
  rw [Reader.bind_eq, Reader.run_look _ (by omega), hlow (1 + 2) (by decide)]
  dsimp only
  rw [if_pos (by decide)]
  unfold Header.metadata
  rw [Reader.bind_eq, Reader.run_look _ (by omega), hlow (1 + 2 + 3) (by decide),
    if_neg (by decide)]
  dsimp only
  rw [Reader.bind_eq, show 1 + 2 + 3 + (6 % 2 ^ (1 + 2 + 3)) >>> (1 + 2 + 1) * 8 = 6 from rfl,
    Reader.run_look _ (by omega), hsix, if_neg (by decide),
    Reader.bind_eq, Reader.run_skip, Reader.bind_eq, toByte_run _ hpadding]
  rfl

/-- The length, and the tables for what follows it. -/
theorem passes_metaBlock (hstage : s.stage = .metaBlock) (hlarge : s.large = false)
    (htables : ∀ t, s.tables = some t → t.builder.stage = .start)
    {nibbles : ℕ} (h4 : 4 ≤ nibbles) (h6 : nibbles ≤ 6) (h1 : 1 ≤ length)
    (hfits : length - 1 < 2 ^ (nibbles * 4))
    (hshort : 4 < nibbles → 2 ^ ((nibbles - 1) * 4) ≤ length - 1)
    (hposition : s.position + length ≤ u64Max)
    (hspells : Spells I p (lengthBits nibbles length last))
    (hend : p + (lengthBits nibbles length last).length ≤ 8 * B) :
    Passes env stop I B s p (lengthBits nibbles length last).length fun s' =>
    ∃ t, s'.Heading length last (.blocks 0) t ∧
      (∀ i, (t.blocks i).reset = t.blocks i) ∧ ∀ i, (t.maps i).stage = .treeCount := by
  have hread : s.readStage env = Header.metablock.bind fun header =>
      .pure (s.enterMetaBlock env.program header) := by
    unfold readStage
    rw [hstage]
    rfl
  refine passes_once hread Header.metablock_atomic
    (metablock_run h4 h6 h1 hfits hshort hspells hend) ?_
  unfold enterMetaBlock
  dsimp only
  rw [if_neg (by omega)]
  unfold ensureTables
  dsimp only
  cases ht : s.tables with
  | some t => exact ⟨rfl, _, ⟨rfl, rfl, htables t ht, hlarge, rfl, rfl⟩, fun i => rfl, fun i => rfl⟩
  | none =>
    dsimp only
    cases hreserve : s.memory.reserve env.program.tablesSize (Buffer.new ()) 1 with
    | error e => exact Memory.reserve_error hreserve
    | ok x => exact ⟨(Memory.reserve_ok hreserve).1, _, ⟨rfl, rfl, rfl, hlarge, rfl, rfl⟩,
        fun i => rfl, fun i => rfl⟩

/-! ### The context maps -/

/-- A stream that reads a context map. -/
def inMap (s : Stream) (t : Tables) (i : Fin 2) (x : ContextMap × Builder × Memory) : Stream :=
  { s with memory := x.2.2, stage := .maps i, tables :=
        some ({ t with builder := x.2.1 }.setMap i x.1) }

/-- What follows a context map. -/
def mapRead (s : Stream) (t : Tables) (i : Fin 2) (x : ContextMap × Builder × Memory) : Update :=
  if i = 0 then
    .ok
      { s with memory := x.2.2, stage :=
          .maps 1, tables := some ({ t with builder := x.2.1 }.setMap 0 x.1.detectTrivial) }
  else { s with memory := x.2.2, stage := .maps i }.prepareTrees
    ({ t with builder := x.2.1 }.setMap 1 x.1) [0, 1, 2]

/-- The groups' roots do not depend on the tables the stream still has. -/
theorem prepareTrees_tables (a : Option Tables) (groups : List (Fin 3)) :
    ∀ (s : Stream) (t : Tables),
    { s with tables := a }.prepareTrees t groups = s.prepareTrees t groups := by
  induction groups with
  | nil => exact fun s t => rfl
  | cons group rest ih =>
    intro s t
    unfold prepareTrees
    cases (t.trees group).prepare (t.treeCount group) (t.alphabet group) s.memory with
    | error e => rfl
    | ok x => exact ih { s with memory := x.1 } _

theorem readStage_inMap (s : Stream) (t : Tables) (i : Fin 2) (x : ContextMap × Builder × Memory) :
    (s.inMap t i x).readStage env = (ContextMap.rounds (t.mapSize i) x).bind fun r =>
    .pure (relay (s.inMap t i) (s.mapRead t i) r) := by
  obtain ⟨m, builder, memory⟩ := x
  have hset : ∀ (j : Fin 2) m' builder', j = i →
    { ({ t with builder := builder }.setMap i m) with builder := builder' }.setMap j m' =
      { t with builder := builder' }.setMap j m' := fun j m' builder' hj => by
    unfold Tables.setMap
    rw [hj]
    simp only [Function.update_idem]
  have hget : ({ t with builder := builder }.setMap i m).maps i = m := Function.update_self ..
  have hsize : ({ t with builder := builder }.setMap i m).mapSize i = t.mapSize i := rfl
  unfold readStage
  show ((({ t with builder := builder }.setMap i m).maps i).step
    (({ t with builder := builder }.setMap i m).mapSize i) builder memory).bind _ =
    (m.step (t.mapSize i) builder memory).bind _
  rw [hget, hsize]
  congr 1
  funext r
  rcases r with ⟨e, m', builder', memory'⟩ | ⟨_ | _, m', builder', memory'⟩
  · show Reader.pure (Except.error (e, _)) = Reader.pure (Except.error (e, _))
    dsimp only [inMap]
    rw [hset i _ _ rfl]
  · show Reader.pure (Except.ok _) = Reader.pure (Except.ok _)
    dsimp only [inMap]
    rw [hset i _ _ rfl]
  · by_cases h0 : i = 0
    · subst h0
      show Reader.pure (Except.ok _) = Reader.pure (Except.ok _)
      dsimp only [inMap]
      rw [hset 0 _ _ rfl]
    · obtain rfl : i = 1 := by omega
      show Reader.pure (prepareTrees { s.inMap t 1 (m, builder, memory) with memory := memory' }
        ({ ({ t with builder := builder }.setMap 1 m) with builder := builder' }.setMap 1 m') [0,
          1, 2]) =
        Reader.pure (prepareTrees { s with memory := memory', stage := .maps 1 }
          ({ t with builder := builder' }.setMap 1 m') [0, 1, 2])
      rw [hset 1 _ _ rfl]
      exact congrArg Reader.pure (prepareTrees_tables _ _
        { s with memory := memory', stage := .maps 1 } _)

/-- The roots of the groups are reserved, or the memory limit refuses them. -/
theorem prepareTrees_led (groups : List (Fin 3)) :
    ∀ (s : Stream) (t : Tables), (∀ g, 1 ≤ t.alphabet g ∧ t.alphabet g ≤ maxAlphabet) →
    Led s (fun s' => ∃ trees, s'.stage = .trees 0 0 ∧ s'.tables = some { t with trees } ∧
      (s'.large = s.large ∧ s'.remaining = s.remaining ∧ s'.last = s.last) ∧
      (∀ g ∈ groups, (trees g).count = t.treeCount g ∧ (trees g).Ready) ∧ ∀ g, g ∉ groups →
      trees g = t.trees g) (s.prepareTrees t groups) := by
  induction groups with
  | nil =>
    intro s t halpha
    exact ⟨rfl, t.trees, rfl, rfl, ⟨rfl, rfl, rfl⟩, fun g hg => absurd hg List.not_mem_nil,
      fun g _ => rfl⟩
  | cons group rest ih =>
    intro s t halpha
    unfold prepareTrees
    cases hp : (t.trees group).prepare (t.treeCount group) (t.alphabet group) s.memory with
    | error e => exact Group.prepare_error hp (halpha group).1 (halpha group).2
    | ok x =>
      obtain ⟨memory, g⟩ := x
      have hlimit := (Group.prepare_grew hp).limit
      have hready := Group.prepare_ready hp
      have hrest := ih { s with memory } (t.setTree group g) halpha
      dsimp only
      generalize ({ s with memory } : Stream).prepareTrees (t.setTree group g) rest = r at hrest
      rcases r with ⟨e, s'⟩ | s'
      · obtain ⟨l, hl, rfl⟩ := hrest
        exact ⟨l, hlimit ▸ hl, rfl⟩
      · obtain ⟨hsame, trees, hstage, htables, hstarted, hthere, helse⟩ := hrest
        refine ⟨hsame.trans hlimit, trees, hstage, htables, hstarted, fun g' hg' => ?_,
          fun g' hg' => ?_⟩
        · by_cases hin : g' ∈ rest
          · exact hthere g' hin
          · obtain rfl : g' = group := (List.mem_cons.1 hg').resolve_right hin
            rw [helse g' hin]
            show (Function.update t.trees g' g g').count = _ ∧
              (Function.update t.trees g' g g').Ready
            rw [Function.update_self]
            exact hready
        · rw [helse g' fun h => hg' (List.mem_cons_of_mem _ h)]
          exact Function.update_of_ne (fun h => hg' (List.mem_cons.2 (Or.inl h))) _ _

variable {r : Except (DecodeError × ContextMap × Builder × Memory) (ContextMap × Builder × Memory)}
    {q trees : ℕ} {values : List ℕ}

/-- A context map, before anything is made of it. -/
theorem passes_inMap {i : Fin 2} (hs : s.Heading length last (.maps i) t)
    (hstop : stop (.maps i) = false)
    (hends : Ends (ContextMap.rounds (t.mapSize i)) I B (t.maps i, t.builder, s.memory) p r q)
    (hended : ContextMap.Ended s.memory trees values r)
    (hq : (∃ x, r = .ok x) → q = p + n)
    (hled : ∀ m builder memory, ContextMap.Ended s.memory trees values (.ok (m, builder, memory)) →
      Led s P (s.mapRead t i (m, builder, memory))) : Passes env stop I B s p n P := by
  have hstart : s = s.inMap t i (t.maps i, t.builder, s.memory) := by
    unfold inMap Tables.setMap
    dsimp only
    rw [Function.update_eq_self, ← hs.stage, ← hs.tables]
  rw [hstart]
  exact passes_nested (fun _ => hstop) (readStage_inMap s t i) hends (fun e y hr => by
    rw [hr] at hended; exact hended)
    fun y hr => ⟨hq ⟨_, hr⟩, hled _ _ _ (hr ▸ hended)⟩

/-- The literals' map. -/
theorem passes_literalMap (hs : s.Heading length last (.maps 0) t) (hstop : stop (.maps 0) = false)
    (hends : Ends (ContextMap.rounds (t.mapSize 0)) I B (t.maps 0, t.builder, s.memory) p r q)
    (hended : ContextMap.Ended s.memory trees values r)
    (hq : (∃ x, r = .ok x) → q = p + n) :
    Passes env stop I B s p n fun s' =>
    ∃ m builder, s'.Heading length last (.maps 1) ({ t with builder }.setMap 0 m) ∧
    m.trees = trees ∧
      m.values.toList = values := by
  refine passes_inMap hs hstop hends hended hq fun m builder memory hended => ?_
  obtain ⟨-, htrees, hvalues, hbuilder, hmemory⟩ := hended
  exact ⟨hmemory, m.detectTrivial, builder, ⟨rfl, rfl, hbuilder, hs.started⟩, htrees, hvalues⟩

/-- The distances' map, and the roots of the groups. -/
theorem passes_distanceMap (hs : s.Heading length last (.maps 1) t) (hstop : stop (.maps 1) = false)
    (halpha : ∀ g, 1 ≤ t.alphabet g ∧ t.alphabet g ≤ maxAlphabet)
    (hends : Ends (ContextMap.rounds (t.mapSize 1)) I B (t.maps 1, t.builder, s.memory) p r q)
    (hended : ContextMap.Ended s.memory trees values r)
    (hq : (∃ x, r = .ok x) → q = p + n) :
    Passes env stop I B s p n fun s' => ∃ m builder groups, s'.Heading length last (.trees 0 0)
    { { t with builder }.setMap 1 m with trees := groups } ∧
      m.trees = trees ∧ m.values.toList = values ∧
      ∀ g, (groups g).count = ({ t with builder }.setMap 1 m).treeCount g ∧ (groups g).Ready := by
  refine passes_inMap hs hstop hends hended hq fun m builder memory hended => ?_
  obtain ⟨-, htrees, hvalues, hbuilder, hmemory⟩ := hended
  have hled :=
    prepareTrees_led [0, 1, 2] { s with memory, stage := .maps 1 }
      ({ t with builder }.setMap 1 m) halpha
  show Led s _ ({ s with memory, stage := .maps 1 }.prepareTrees ({ t with builder }.setMap 1 m) [0,
    1, 2])
  generalize { s with memory, stage := .maps 1 }.prepareTrees ({ t with builder }.setMap 1 m) [0,
    1, 2] = r at hled
  rcases r with ⟨e, s'⟩ | s'
  · obtain ⟨l, hl, rfl⟩ := hled
    exact ⟨l, hmemory ▸ hl, rfl⟩
  · obtain ⟨hsame, groups, hstage, htables, hstarted, hthere, -⟩ := hled
    have hall : ∀ g : Fin 3, g ∈ [0, 1, 2] := by decide
    exact ⟨hsame.trans hmemory, m, builder, groups,
      ⟨hstage, htables, hbuilder, hstarted.1.trans hs.started.1,
      hstarted.2.1.trans hs.started.2.1, hstarted.2.2.trans hs.started.2.2⟩, htrees, hvalues,
      fun g => hthere g (hall g)⟩

/-! ### The groups -/

/-- A group of codes. -/
theorem passes_trees {group : Fin 3} {alphabet count : ℕ} {describe : ℕ → CodeDescription}
    {used depth bits : ℕ → List ℕ}
    (hs : s.Heading length last (.trees group 0) t) (hstop : ∀ i, stop (.trees group i) = false)
    (h1 : 1 ≤ alphabet) (hmax : alphabet ≤ maxAlphabet)
    (hdescribed : Described alphabet count describe used depth bits)
    (halphabet : t.alphabet group = alphabet)
    (hvalid : group = 2 → ∀ s < alphabet, t.distances.validateSymbol s = .ok ())
    (hcount : 1 ≤ count) (htrees : (t.trees group).count = count)
    (hready : (t.trees group).Ready) (hspells : Spells I p (treesBits alphabet describe 0 count))
    (hend : p + (treesBits alphabet describe 0 count).length ≤ 8 * B) :
    Passes env stop I B s p (treesBits alphabet describe 0 count).length fun s' => ∃ builder g,
      s'.Heading length last (afterTrees group) ({ t with builder }.setTree group g) ∧
      g.count = count ∧
        ∀ h < count, g.Shows h (used h) (depth h) (bits h) := by
  obtain ⟨k, rfl⟩ := Nat.exists_eq_add_of_le' hcount
  have hstart : s.inTrees t group (.trees group 0) s.memory t.builder (t.trees group) = s := by
    unfold inTrees Tables.setTree
    rw [Function.update_eq_self, ← hs.stage, ← hs.tables]
  have hread :=
    reads_trees env h1 hmax hdescribed halphabet hvalid hstop s k s.memory (show 0 + (k + 1) =
      _ by omega) hs.start htrees hready
    (fun h hh => absurd hh (Nat.not_lt_zero h)) hspells hend
  rw [hstart] at hread
  rcases hread with hlimit | ⟨memory', b', g', hmemory, hb', hcount', -, hshows, hgo⟩
  · exact Or.inl hlimit
  · exact Or.inr ⟨s.inTrees t group (afterTrees group) memory' b' g', hmemory,
      ⟨b', g', ⟨rfl, rfl, hb', hs.started⟩, hcount', hshows⟩, hgo⟩

end Stream

end Mbrotli
