/-
# What a refused growth leaves

A growth that the budget refuses leaves the history, the position and what is live as
they were: in the parts of a command that write in the command loop
(`FastEnv.insert_refused`, `word_refused`, `copy_refused`), in the stages that write
in bulk (`Machine.write_refused`), at a byte that is emitted (`Machine.emit_refused`)
and where the history of a prefix reference is saved (`savePrefixHistory_refused`).
The reading stages never touch the history (`Stream.readStage_history`). What they grow
keeps its capacity where it may not grow, and so does all the rest: the tables of a
meta-block (`Stream.enterMetaBlock_refused`), the distance table
(`Stream.setDistances_refused`), the values of a context map (`ContextMap.step_refused`),
the codes of a block header (`Block.headerStep_refused`), the roots of the groups
(`Stream.prepareTrees_refused`) and their codes (`Stream.buildTree_refused`). A buffer
that is to be filled anew was cleared before it asked for room.
-/
import Mbrotli.Decompressor.Core.Sound.Stages

namespace Mbrotli

/-- The history and what the budget counts. -/
structure Fast.Unchanged (l l' : Fast) : Prop where
  ring : l'.ring = l.ring
  position : l'.position = l.position
  memory : l'.memory = l.memory

theorem Fast.Unchanged.refl (l : Fast) : l.Unchanged l := ⟨rfl, rfl, rfl⟩

/-- A phase that refuses to grow leaves what it was given. -/
def Phase.Refuses {α : Type} (l : Fast) : Phase α → Prop
  | .error (.fault (.error (.memoryLimitExceeded _)), l') => l.Unchanged l'
  | _ => True

namespace FastEnv

variable {c : FastEnv} {l : Fast}

theorem reach_refused (stop : ℕ) {r : FastExit × Fast} (h : c.reach l stop = .error r) :
    r.2 = l := by
  unfold reach at h
  split at h
  · split at h
    · cases h
      rfl
    · cases h
  · cases h

/-- After a growth that was granted, nothing more is refused. -/
theorem refuses_reach {α : Type} {stop : ℕ} {k : Fast → Phase α} {l0 : Fast} (hl : l0.Unchanged l)
    (hk : ∀ l', c.reach l stop = .ok l' →
      ∀ b l'', k l' ≠ .error (.fault (.error (.memoryLimitExceeded b)), l'')) :
    Phase.Refuses l0 (c.reach l stop >>= k) := by
  cases hr : c.reach l stop with
  | error r =>
    show Phase.Refuses l0 (Except.error r)
    unfold Phase.Refuses
    split
    · rename_i l' heq
      cases heq
      have hsame : l' = l := reach_refused stop hr
      exact hsame ▸ hl
    · trivial
  | ok l' =>
    show Phase.Refuses l0 (k l')
    unfold Phase.Refuses
    split
    · rename_i l'' heq
      exact absurd heq (hk l' hr _ _)
    · trivial

theorem insert_refused (n : ℕ) : Phase.Refuses l (c.insert l n) := by
  unfold insert
  split
  · trivial
  · refine refuses_reach (.refl l) fun l' _ b l'' h => ?_
    split at h <;> cases h

theorem word_refused (available : ℕ) : Phase.Refuses l (c.word l available) := by
  have hl : l.Unchanged (if l.distanceCode =
      0 then { l with cache := l.cache.push l.distance } else l) := by
    split <;> exact ⟨rfl, rfl, rfl⟩
  unfold word
  generalize (if l.distanceCode = 0 then { l with cache := l.cache.push l.distance } else l) =
    l1 at hl
  have hfail : ∀ e : DecodeError, Phase.Refuses l (l1.fail e : Phase Fast) := fun e => by
    unfold Phase.Refuses Fast.fail
    split
    · rename_i heq
      cases heq
      exact hl
    · trivial
  dsimp only
  split
  · trivial
  split
  · exact hfail _
  split
  · exact hfail _
  split
  · exact hfail _
  split
  · trivial
  · exact refuses_reach ⟨hl.ring, hl.position, hl.memory⟩ fun l' _ b l'' h => by cases h

theorem copyHistory_grants (b : ℕ) (l'' : Fast) :
    c.copyHistory l ≠ .error (.fault (.error (.memoryLimitExceeded b)), l'') := by
  unfold copyHistory
  dsimp only
  split
  · exact fun h => nomatch h
  · split
    · exact fun h => nomatch h
    · exact fun h => nomatch h

theorem copy_refused : Phase.Refuses l (c.copy l) := by
  unfold copy
  split
  · split <;> trivial
  dsimp only
  split
  · split
    · rename_i e _
      unfold Phase.Refuses Fast.fail
      split
      · rename_i heq
        cases heq
        exact ⟨rfl, rfl, rfl⟩
      · trivial
    · trivial
  · exact refuses_reach ⟨rfl, rfl, rfl⟩ fun l' _ b l'' => copyHistory_grants b l''

end FastEnv

/-- The history, the position and what the budget counts. -/
structure Stream.Unchanged (s s' : Stream) : Prop where
  ring : s'.ring = s.ring
  position : s'.position = s.position
  memory : s'.memory = s.memory

namespace Machine

variable {m m' : Machine}

theorem emit_refused {byte : UInt8} {k : Machine → Flow × Machine} {e : DecodeError}
    (h : m.stream.emit m.output byte = .error e) : m.emit byte k = (.fault (.error e), m) := by
  unfold emit
  rw [h]
  rfl

/-- The stages that write to the history outside the command loop's stages. -/
def Writing : Stage → Prop
  | .raw | .copy | .dictionary | .prefixRun _ _ | .prefixHistory _ _ => True
  | _ => False

/-- A byte that is emitted is the only thing that can fail before what never does. -/
theorem emit_fault {m1 : Machine} {byte : UInt8} {k : Machine → Flow × Machine} {f : Fault}
    (h : m1.emit byte k = (.fault f, m')) (hk : ∀ m2, (k m2).1 = .next) : m' = m1 := by
  unfold emit at h
  split at h
  · cases h
    rfl
  · rename_i s o _
    have := hk { m1 with stream := s, output := o }
    rw [h] at this
    cases this

/-- The stages that write in bulk, or one byte at a time, leave all where they fail. -/
theorem write_refused {env : Env} {fuel outEnd : ℕ} (hs : Writing m.stream.stage) {b : ℕ}
    (he : m.round env fuel outEnd = some (.fault (.error (.memoryLimitExceeded b)), m')) :
    m.stream.Unchanged m'.stream := by
  have hready : ∀ (k : Machine → Flow × Machine),
    (∀ f m', k m = (.fault f, m') → m.stream.Unchanged m'.stream) →
      ∀ f m', m.whenReady k = (.fault f, m') → m.stream.Unchanged m'.stream := by
    intro k hk f m' h
    unfold whenReady at h
    split at h
    · cases h
      exact ⟨rfl, rfl, rfl⟩
    · cases h
    · exact hk _ _ h
  have hgoto : ∀ (stage : Stage) (f : Fault) (m' : Machine), m.goto stage ≠ (.fault f, m') :=
    fun _ _ _ h => nomatch h
  unfold round at he
  split at he
  case h_2 =>
    simp only [Option.some.injEq] at he
    unfold raw at he
    split at he
    · exact absurd he (hgoto _ _ _)
    refine hready _ (fun f m' h => ?_) _ _ he
    split at h
    · dsimp only at h
      have := emit_fault h fun _ => rfl
      exact this ▸ ⟨rfl, rfl, rfl⟩
    dsimp only at h
    split at h
    · unfold read at h
      split at h
      · have := emit_fault h fun _ => rfl
        exact this ▸ ⟨rfl, rfl, rfl⟩
      · cases h
      · cases h
        exact ⟨rfl, rfl, rfl⟩
    · split at h
      · cases h
        exact ⟨rfl, rfl, rfl⟩
      · cases h
  case h_7 =>
    simp only [Option.some.injEq] at he
    unfold copy at he
    split at he
    · exact absurd he (hgoto _ _ _)
    -- once the bytes are written, only the policy can fail, and not for the budget
    unfold whenReady at he
    split at he
    · cases he
      exact ⟨rfl, rfl, rfl⟩
    · cases he
    dsimp only at he
    split at he
    · cases he
    split at he
    · cases he
      exact ⟨rfl, rfl, rfl⟩
    split at he
    · split at he
      · rename_i e hready
        have hne : e ≠ .memoryLimitExceeded b := by
          rintro rfl
          unfold Output.ready Output.policy at hready
          split at hready
          · rename_i hp
            cases hready
            split at hp
            · cases hp
            · split at hp
              · cases hp
              · split at hp
                · split at hp <;> cases hp
                · cases hp
          · cases hready
        cases he
        exact absurd rfl hne
      · cases he
    · cases he
  case h_8 =>
    simp only [Option.some.injEq] at he
    unfold dictionary at he
    split at he
    · cases he
    split at he
    · exact absurd he (hgoto _ _ _)
    refine hready _ (fun f m' h => ?_) _ _ he
    have := emit_fault h fun _ => rfl
    exact this ▸ ⟨rfl, rfl, rfl⟩
  case h_9 =>
    simp only [Option.some.injEq] at he
    unfold prefixRun at he
    split at he
    · exact absurd he (hgoto _ _ _)
    split at he
    · exact absurd he (hgoto _ _ _)
    refine hready _ (fun f m' h => ?_) _ _ he
    dsimp only at h
    split at h
    · cases h
      exact ⟨rfl, rfl, rfl⟩
    split at h
    · cases h
      exact ⟨rfl, rfl, rfl⟩
    split at h
    · cases h
      exact ⟨rfl, rfl, rfl⟩
    · cases h
  case h_10 =>
    simp only [Option.some.injEq] at he
    unfold prefixHistory at he
    split at he
    · exact absurd he (hgoto _ _ _)
    split at he
    · exact absurd he (hgoto _ _ _)
    refine hready _ (fun f m' h => ?_) _ _ he
    have := emit_fault h fun _ => rfl
    exact this ▸ ⟨rfl, rfl, rfl⟩
  all_goals
    rename_i hstage
    first
      | (rw [hstage] at hs; exact absurd hs id)
      | (revert hs; generalize m.stream.stage = stage at *; intro hs; cases stage <;>
          simp_all [Writing])

/-- Saving the history of a prefix reference, refused. -/
theorem savePrefixHistory_refused {available length : ℕ} {r : DecodeError × Stream}
    (h : m.savePrefixHistory available length = .error r) :
    m.stream.Unchanged r.2 ∧ r.2.prefixHistory.cap = m.stream.prefixHistory.cap := by
  unfold savePrefixHistory at h
  dsimp only at h
  split at h
  · cases h
    exact ⟨⟨rfl, rfl, rfl⟩, Buffer.clear_cap _⟩
  · cases h

end Machine
theorem Builder.placeSecond_error {counts : ℕ → ℕ} {start base len length : ℕ} :
    ∀ {symbols : List ℕ} {placed : ℕ}
    {w : Walk} {codes : ℕ → Code} {e : DecodeError},
    placeSecond counts start base len length symbols placed w codes = .error e →
    e = .internalInvariant := by
  intro symbols
  induction symbols with
  | nil => intro placed w codes e h; cases h
  | cons symbol rest ih =>
    intro placed w codes e h
    unfold placeSecond at h
    dsimp only at h
    split at h
    · cases h
      rfl
    · exact ih h

theorem Builder.fillSecond_error {b : Builder} {start base len : ℕ} :
    ∀ {lengths : List ℕ} {w : Walk} {codes : ℕ → Code}
    {e : DecodeError}, fillSecond b start base len lengths w codes = .error e →
    e = .internalInvariant := by
  intro lengths
  induction lengths with
  | nil => intro w codes e h; cases h
  | cons length rest ih =>
    intro w codes e h
    unfold fillSecond at h
    cases hp : placeSecond b.counts start base len length (b.chain length) 0 w codes with
    | error e' =>
      rw [hp] at h
      cases h
      exact placeSecond_error hp
    | ok r =>
      rw [hp] at h
      exact ih h

/-- A group of codes that may not grow stays as it is, and so does the budget. -/
theorem Builder.fill_refused (b : Builder) (g : Group) (start : ℕ) (m : Memory) {limit : ℕ}
    {m' : Memory} {g' : Group}
    (h : b.fill g start m = .error (.memoryLimitExceeded limit, m', g')) : m' = m ∧ g' = g := by
  unfold fill at h
  split at h
  · cases h
  split at h
  · cases h
  split at h
  · split at h
    · cases h
      exact ⟨rfl, rfl⟩
    · cases h
  · split at h
    · cases h
      exact ⟨rfl, rfl⟩
    · split at h
      · cases h
      split at h
      · cases h
        exact ⟨rfl, rfl⟩
      · dsimp only at h
        split at h
        · -- the entries were counted before, so filling them needs no budget
          rename_i hfill
          cases h
          cases fillSecond_error hfill
        · cases h

namespace Stream

variable {program : Program} {s : Stream}

/-- The stages that only read leave the history alone, whether they are refused or not. -/
structure SameHistory (s s' : Stream) : Prop where
  ring : s'.ring = s.ring
  prefixHistory : s'.prefixHistory = s.prefixHistory
  position : s'.position = s.position

theorem SameHistory.refl (s : Stream) : s.SameHistory s := ⟨rfl, rfl, rfl⟩

theorem enterMetaBlock_history (header : MetaBlock) :
    s.SameHistory (s.enterMetaBlock program header).state := by
  unfold enterMetaBlock
  split
  · exact ⟨rfl, rfl, rfl⟩
  · split <;> exact ⟨rfl, rfl, rfl⟩
  · exact ⟨rfl, rfl, rfl⟩
  · split
    · exact ⟨rfl, rfl, rfl⟩
    · dsimp only
      split
      · exact ⟨rfl, rfl, rfl⟩
      · rename_i t s1 he
        unfold ensureTables at he
        split at he
        · cases he
          exact ⟨rfl, rfl, rfl⟩
        · split at he
          · cases he
          · cases he
            exact ⟨rfl, rfl, rfl⟩

theorem setDistances_history (t : Tables) (params : ℕ) :
    s.SameHistory (s.setDistances t params).state := by
  unfold setDistances
  dsimp only
  split
  · split <;> exact ⟨rfl, rfl, rfl⟩
  · exact ⟨rfl, rfl, rfl⟩

theorem prepareTrees_history : ∀ (groups : List (Fin 3)) (s : Stream) (t : Tables),
    s.SameHistory (s.prepareTrees t groups).state := by
  intro groups
  induction groups with
  | nil => intro s t; exact ⟨rfl, rfl, rfl⟩
  | cons group rest ih =>
    intro s t
    unfold prepareTrees
    split
    · exact ⟨rfl, rfl, rfl⟩
    · rename_i m g _
      obtain ⟨h1, h2, h3⟩ := ih { s with memory := m } (t.setTree group g)
      exact ⟨h1, h2, h3⟩

theorem buildTree_history (t : Tables) (group : Fin 3) (index : ℕ) :
    s.SameHistory (s.buildTree t group index).state := by
  unfold buildTree
  split
  · exact ⟨rfl, rfl, rfl⟩
  · dsimp only
    generalize (if group = 2 then t.distances.validateSymbol _ else Except.ok ()) = valid
    cases valid <;> exact ⟨rfl, rfl, rfl⟩

theorem readStage_history (env : Env) : (s.readStage env).Returns fun u =>
    s.SameHistory (Update.state u) := by
  unfold readStage
  split
  · exact (returns_any _).bind fun _ _ => ⟨rfl, rfl, rfl⟩
  · exact (returns_any _).bind fun header _ => enterMetaBlock_history header
  · exact (returns_any _).bind fun _ _ => .refl s
  · refine (returns_any _).bind fun r _ => ?_
    split <;> exact ⟨rfl, rfl, rfl⟩
  · exact (returns_any _).bind fun params _ => setDistances_history _ params
  · exact (returns_any _).bind fun _ _ => ⟨rfl, rfl, rfl⟩
  · refine (returns_any _).bind fun r _ => ?_
    split
    · exact ⟨rfl, rfl, rfl⟩
    · rename_i i _ _ _ done map builder m
      dsimp only
      split_ifs
      · exact ⟨rfl, rfl, rfl⟩
      · exact ⟨rfl, rfl, rfl⟩
      · obtain ⟨h1, h2, h3⟩ := prepareTrees_history [0, 1, 2] { s with memory := m } _
        exact ⟨h1, h2, h3⟩
  · refine (returns_any _).bind fun r _ => ?_
    obtain ⟨builder, done⟩ := r
    show s.SameHistory (Update.state (ite _ _ _))
    split
    · exact buildTree_history _ _ _
    · exact ⟨rfl, rfl, rfl⟩
  · refine (returns_any _).bind fun extra _ => ?_
    dsimp only
    split
    · trivial
    · exact ⟨rfl, rfl, rfl⟩
  · exact (returns_any _).bind fun extra _ => ⟨rfl, rfl, rfl⟩
  · dsimp only
    split
    · exact (returns_any _).bind fun low _ => ⟨rfl, rfl, rfl⟩
    · refine (returns_any _).bind fun extra _ => ?_
      split
      · trivial
      · exact ⟨rfl, rfl, rfl⟩
  · refine (returns_any _).bind fun high _ => ?_
    split
    · trivial
    · exact ⟨rfl, rfl, rfl⟩
  · trivial

end Stream

/-! ### What the reading stages grow -/

theorem DistanceLayout.validateSymbol_ne_memory (d : DistanceLayout) (symbol limit : ℕ) :
    d.validateSymbol symbol ≠ .error (.memoryLimitExceeded limit) := by
  unfold validateSymbol
  split
  · exact fun h => nomatch h
  · split <;> exact fun h => nomatch h

/-- A code of its own that may not grow: its root was refused and all is as it was, or
the root was granted and its further tables refused, which leaves what the root made. -/
theorem Builder.build_refused {b : Builder} {alphabet limit : ℕ} {memory memory' : Memory}
    {g g' : Group}
    (h : b.build alphabet memory g = .error (.memoryLimitExceeded limit, memory', g')) :
    (memory' = memory ∧ g' = g) ∨ g.prepare 1 alphabet memory = .ok (memory', g') := by
  unfold build at h
  split at h
  · cases h
    exact Or.inl ⟨rfl, rfl⟩
  · rename_i memory₁ g₁ hprepare
    unfold buildSlot at h
    split at h
    · cases h
    · obtain ⟨rfl, rfl⟩ := b.fill_refused g₁ _ memory₁ h
      exact Or.inr hprepare

/-- A block header that may not grow one of its two codes. -/
theorem Block.headerStep_refused (b : Block) (builder : Builder) (memory : Memory) :
    (b.headerStep builder memory).Returns fun r => ∀ limit b' builder' memory',
      r = .error (.memoryLimitExceeded limit, b', builder', memory') →
        (memory' = memory ∧ b'.types = b.types ∧ b'.lengths = b.lengths) ∨
        (b.types.prepare 1 (b.count + 2) memory = .ok (memory', b'.types) ∧
          b'.lengths = b.lengths) ∨
        (b.lengths.prepare 1 numBlockLenSymbols memory = .ok (memory', b'.lengths) ∧
          b'.types = b.types) := by
  unfold headerStep
  split
  · refine (returns_any _).bind fun count _ => ?_
    intro limit b' builder' memory' h
    dsimp only at h
    split at h <;> cases h
  · refine (returns_any _).bind fun r _ => ?_
    obtain ⟨builder₁, done⟩ := r
    intro limit b' builder' memory' h
    split at h
    · split at h
      · rename_i hbuild
        cases h
        rcases Builder.build_refused hbuild with ⟨rfl, rfl⟩ | hprepare
        · exact Or.inl ⟨rfl, rfl, rfl⟩
        · exact Or.inr (Or.inl ⟨hprepare, rfl⟩)
      · cases h
    · cases h
  · refine (returns_any _).bind fun r _ => ?_
    obtain ⟨builder₁, done⟩ := r
    intro limit b' builder' memory' h
    split at h
    · split at h
      · rename_i hbuild
        cases h
        rcases Builder.build_refused hbuild with ⟨rfl, rfl⟩ | hprepare
        · exact Or.inl ⟨rfl, rfl, rfl⟩
        · exact Or.inr (Or.inr ⟨hprepare, rfl⟩)
      · cases h
    · cases h
  · exact fun limit b' builder' memory' h => nomatch h
  · refine (returns_any _).bind fun b₁ _ => ?_
    exact fun limit b' builder' memory' h => nomatch h

/-- A context map that may not grow: its values are cleared before they ask for room, and
keep what they have. -/
theorem ContextMap.step_refused (m : ContextMap) (size : ℕ) (builder : Builder) (memory : Memory) :
    (m.step size builder memory).Returns fun r => ∀ limit m' builder' memory',
      r = .error (.memoryLimitExceeded limit, m', builder', memory') →
        (memory' = memory ∧ m'.tree = m.tree ∧
          (m'.values = m.values ∨ m'.values = m.values.clear)) ∨
        (m.tree.prepare 1 (m.trees + m.run) memory = .ok (memory', m'.tree) ∧
          m'.values = m.values) := by
  unfold step
  split
  · refine (returns_any _).bind fun n _ => ?_
    intro limit m' builder' memory' h
    dsimp only at h
    split at h
    · split at h
      · cases h
        exact Or.inl ⟨rfl, rfl, Or.inr rfl⟩
      · cases h
    · split at h
      · cases h
        exact Or.inl ⟨rfl, rfl, Or.inr rfl⟩
      · cases h
  · refine (returns_any _).bind fun flag _ => ?_
    split
    · exact (returns_any _).bind fun _ _ => fun limit m' builder' memory' h => nomatch h
    · exact (returns_any _).bind fun _ _ => (returns_any _).bind fun _ _ =>
        fun limit m' builder' memory' h => nomatch h
  · refine (returns_any _).bind fun r _ => ?_
    obtain ⟨builder₁, done⟩ := r
    intro limit m' builder' memory' h
    split at h
    · split at h
      · rename_i hbuild
        cases h
        rcases Builder.build_refused hbuild with ⟨rfl, rfl⟩ | hprepare
        · exact Or.inl ⟨rfl, rfl, Or.inl rfl⟩
        · exact Or.inr ⟨hprepare, rfl⟩
      · cases h
    · cases h
  · split
    · exact fun limit m' builder' memory' h => nomatch h
    · refine (returns_any _).bind fun symbol _ => ?_
      dsimp only
      split
      · exact fun limit m' builder' memory' h => nomatch h
      · generalize (if symbol = 0 then 0 else symbol - m.run) = value
        split
        · trivial
        · exact fun limit m' builder' memory' h => nomatch h
  · refine (returns_any _).bind fun extra _ => ?_
    dsimp only
    split
    · trivial
    · exact fun limit m' builder' memory' h => nomatch h
  · refine (returns_any _).bind fun mtf _ => ?_
    exact fun limit m' builder' memory' h => nomatch h
  · exact fun limit m' builder' memory' h => nomatch h

namespace Stream

variable {program : Program} {s s' : Stream} {limit : ℕ}

/-- The tables of the first compressed meta-block, refused. -/
theorem enterMetaBlock_refused {header : MetaBlock}
    (h : s.enterMetaBlock program header = .error (.memoryLimitExceeded limit, s')) :
    s.Unchanged s' ∧ s'.tables = s.tables := by
  unfold enterMetaBlock at h
  split at h
  · cases h
  · split at h <;> cases h
  · cases h
  · split at h
    · cases h
    · dsimp only at h
      split at h
      · cases h
        exact ⟨⟨rfl, rfl, rfl⟩, rfl⟩
      · cases h

/-- The distance table, refused: it was cleared to be filled anew, and keeps its room. -/
theorem setDistances_refused {t : Tables} {params : ℕ}
    (h : s.setDistances t params = .error (.memoryLimitExceeded limit, s')) :
    s.Unchanged s' ∧ s'.tables = some { t with
      distances := .fromHeader params s.large, distanceTableLayout := none, distanceTable :=
  t.distanceTable.clear } := by
  unfold setDistances at h
  dsimp only at h
  split at h
  · split at h
    · rename_i hfill
      cases h
      unfold DistanceLayout.fillTable at hfill
      split at hfill
      · cases hfill
        exact ⟨⟨rfl, rfl, rfl⟩, rfl⟩
      · cases hfill
    · cases h
  · cases h

/-- The roots of a group, refused: the groups before it have theirs, and nothing else grew. -/
theorem prepareTrees_refused {groups : List (Fin 3)} {t : Tables} {e : DecodeError}
    (h : s.prepareTrees t groups = .error (e, s')) :
    ∃ before group after memory t', groups = before ++ group :: after ∧
      s.prepareTrees t before = .ok { s with memory, tables := some t', stage := .trees 0 0 } ∧
      (t'.trees group).prepare (t'.treeCount group) (t'.alphabet group) memory = .error e ∧
      s' = { s with memory, tables := some t' } := by
  induction groups generalizing s t with
  | nil => cases h
  | cons group rest ih =>
    unfold prepareTrees at h
    split at h
    · rename_i hprepare
      cases h
      exact ⟨[], group, rest, s.memory, t, rfl, rfl, hprepare, rfl⟩
    · rename_i memory g hprepare
      obtain ⟨before, group', after, memory', t', hgroups, hbefore, hrefused, hs'⟩ := ih h
      refine ⟨group :: before, group', after, memory', t', congrArg (group :: ·) hgroups, ?_,
        hrefused, hs'⟩
      rw [prepareTrees, hprepare]
      exact hbefore

/-- One code of a group, refused. -/
theorem buildTree_refused {t : Tables} {group : Fin 3} {index : ℕ}
    (h : s.buildTree t group index = .error (.memoryLimitExceeded limit, s')) :
    s.Unchanged s' ∧ s'.tables = some t := by
  unfold buildTree at h
  split at h
  · rename_i hbuild
    cases h
    unfold Builder.buildSlot at hbuild
    split at hbuild
    · cases hbuild
    · obtain ⟨rfl, rfl⟩ := Builder.fill_refused _ _ _ _ hbuild
      exact ⟨⟨rfl, rfl, rfl⟩,
        congrArg some (congrArg (fun trees => { t with trees })
          (Function.update_eq_self group t.trees))⟩
  · dsimp only at h
    split at h
    · rename_i e hvalid
      cases h
      split at hvalid
      · exact absurd hvalid (DistanceLayout.validateSymbol_ne_memory _ _ _)
      · cases hvalid
    · cases h

end Stream

end Mbrotli
