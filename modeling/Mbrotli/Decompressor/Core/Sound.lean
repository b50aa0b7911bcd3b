/-
# The decoder's sound states

`Stream.Sound` is what every reachable state of the decoder satisfies, whatever it
was used for and wherever it was left: the ring's length is a power of two, the
window is known once its header was read, and `Memory.live` is the bytes of every
buffer the decoder owns, within the operation's budget. A context map that is being
read has room for all its entries, so that appending one never allocates
(`MapsReady`).

Growth keeps it (`growRing_sound`, `repeatGrow_sound`, ..), and so does every round
of a stage that only reads (`readStage_goes`).
-/
import Mathlib.Data.Fintype.Basic
import Mathlib.Tactic.FinCases
import Mbrotli.Decompressor.Core.Moves
import Mbrotli.Decompressor.Core.Stages

namespace Mbrotli

/-! ### Lengths of the ring -/

def PowerOfTwo (n : ℕ) : Prop := ∃ k, n = 2 ^ k

theorem PowerOfTwo.pos {n : ℕ} (h : PowerOfTwo n) : 0 < n := by
  obtain ⟨k, rfl⟩ := h
  exact Nat.two_pow_pos k

theorem PowerOfTwo.isPowerOfTwo {n : ℕ} (h : PowerOfTwo n) : isPowerOfTwo n = true := by
  obtain ⟨k, rfl⟩ := h
  simp [Mbrotli.isPowerOfTwo, Nat.log2_two_pow]

theorem PowerOfTwo.historyIndex {n : ℕ} (h : PowerOfTwo n) (position : ℕ) :
    historyIndex n position = position % n := if_pos h.isPowerOfTwo

theorem PowerOfTwo.max {m n : ℕ} (hm : PowerOfTwo m) (hn : PowerOfTwo n) :
    PowerOfTwo (max m n) := by
  rcases le_total m n with h | h
  · rwa [max_eq_right h]
  · rwa [max_eq_left h]

theorem nextPowerOfTwo_spec (n : ℕ) : PowerOfTwo (nextPowerOfTwo n) ∧ n ≤ nextPowerOfTwo n := by
  unfold nextPowerOfTwo
  split
  · exact ⟨⟨0, rfl⟩, by omega⟩
  · refine ⟨⟨_, rfl⟩, ?_⟩
    have := Nat.lt_log2_self (n := n - 1)
    omega

/-- A history length: none yet, or a power of two. -/
def RingLength (n : ℕ) : Prop := n = 0 ∨ PowerOfTwo n

/-- A window the headers can declare. -/
def WindowSize (n : ℕ) : Prop := ∃ k, k ≤ 62 ∧ n = 2 ^ k

theorem WindowSize.powerOfTwo {n : ℕ} (h : WindowSize n) : PowerOfTwo n := by
  obtain ⟨k, -, rfl⟩ := h
  exact ⟨k, rfl⟩

theorem WindowSize.lt {n : ℕ} (h : WindowSize n) : n < u64Max := by
  obtain ⟨k, hk, rfl⟩ := h
  have := Nat.pow_le_pow_right (show 0 < 2 by omega) hk
  simp only [u64Max]
  omega

theorem ringSize_spec {len windowSize : ℕ} (hl : RingLength len)
    (hw : WindowSize windowSize) (stop : ℕ) :
    PowerOfTwo (ringSize len windowSize stop) ∧ ringSize len windowSize stop ≤ windowSize ∧
      min stop windowSize ≤ ringSize len windowSize stop ∧ min (2 * len) windowSize ≤
      ringSize len windowSize stop := by
  obtain ⟨hn, hle⟩ := nextPowerOfTwo_spec stop
  have hlt := hw.lt
  unfold ringSize
  refine ⟨?_, min_le_right _ _, ?_, ?_⟩
  · by_cases hbig : windowSize ≤
      max (max (min (nextPowerOfTwo stop) u64Max) (min (len * 2) u64Max)) minRing
    · rw [min_eq_right hbig]
      exact hw.powerOfTwo
    · rw [min_eq_left (by omega), min_eq_left (by omega), min_eq_left (by omega)]
      have h64 : PowerOfTwo minRing := ⟨6, rfl⟩
      rcases hl with rfl | ⟨k, rfl⟩
      · rw [Nat.zero_mul, Nat.max_zero]
        exact hn.max h64
      · exact (hn.max ⟨k + 1, by rw [pow_succ]⟩).max h64
  · simp only [minRing] at *
    omega
  · simp only [minRing] at *
    omega

/-! ### Accounting -/

namespace Memory

/-- What is live respects the budget. -/
def Within (m : Memory) : Prop := ∀ l, m.limit = some l → m.live ≤ l

/-- The budget's view of storage that takes `new` bytes after `old`. -/
structure Grew (m m' : Memory) (old new : ℕ) : Prop where
  limit : m'.limit = m.limit
  live : m'.live + old = m.live + new
  within : m.Within → m'.Within

theorem Grew.refl (m : Memory) (old : ℕ) : Grew m m old old := ⟨rfl, rfl, id⟩

theorem Grew.trans {m m' m'' : Memory} {a b c : ℕ} (h : Grew m m' a b) (h' : Grew m' m'' b c) :
    Grew m m'' a c :=
  ⟨h'.limit.trans h.limit, by have := h.live; have := h'.live; omega, h'.within ∘ h.within⟩

/-- Other storage stays as it is. -/
theorem Grew.add {m m' : Memory} {old new : ℕ} (h : Grew m m' old new) {old' new' k : ℕ}
    (ho : old' = old + k) (hn : new' = new + k) : Grew m m' old' new' :=
  ⟨h.limit, by have := h.live; omega, h.within⟩

variable {α : Type} {m m' : Memory} {size length : ℕ} {b b' : Buffer α}

theorem reserve_grew (h : m.reserve size b length = .ok (m', b')) :
    Grew m m' (b.cap * size) (b'.cap * size) := by
  obtain ⟨h1, -, -, -, -, h6⟩ := reserve_ok h
  refine ⟨h1, h6, fun hw => ?_⟩
  unfold reserve at h
  split at h
  · cases hf : m.limit.filter (· < m.live + max length (min (b.cap * 2) u64Max) * size) with
    | some l => simp [hf] at h
    | none =>
      simp only [hf, Except.ok.injEq, Prod.mk.injEq] at h
      obtain ⟨rfl, rfl⟩ := h
      intro l hl
      have := Option.filter_eq_none_iff.mp hf l hl
      simp only [decide_eq_true_eq, not_lt] at this
      have hsub : (max length (min (b.cap * 2) u64Max) - b.cap) * size ≤
          max length (min (b.cap * 2) u64Max) * size := Nat.mul_le_mul_right _ (Nat.sub_le _ _)
      simp only
      omega
  · cases h
    exact hw

theorem resize_grew {a : α} (h : m.resize size b length a = .ok (m', b')) :
    Grew m m' (b.cap * size) (b'.cap * size) ∧ b'.len = length := by
  obtain ⟨c, hc, rfl⟩ := resize_ok h
  obtain ⟨-, -, -, -, h5, -⟩ := reserve_ok hc
  refine ⟨?_, Buffer.resize_len _ _ _⟩
  rw [Buffer.resize_cap _ _ h5]
  exact reserve_grew hc

end Memory

/-- Bytes of a group's storage. -/
def Group.owned (g : Group) : ℕ := g.codes.cap * Code.size

def Block.owned (b : Block) : ℕ := b.types.owned + b.lengths.owned

def ContextMap.owned (m : ContextMap) : ℕ := m.values.cap * 1 + m.tree.owned

/-- Bytes of the compressed meta-block workspace, besides its own. -/
def Tables.owned (t : Tables) : ℕ :=
  (t.blocks 0).owned + (t.blocks 1).owned + (t.blocks 2).owned + (t.maps 0).owned +
    (t.maps 1).owned +
    (t.trees 0).owned + (t.trees 1).owned + (t.trees 2).owned + t.distanceTable.cap * Partial.size

/-- Bytes of every buffer the decoder owns: capacity times element size. -/
def Stream.owned (program : Program) (s : Stream) : ℕ :=
  s.ring.cap * 1 + s.prefixHistory.cap * 1 + match s.tables with
    | none => 0
    | some t => program.tablesSize + t.owned

namespace Tables

theorem owned_setBlock (t : Tables) (i : Fin 3) (b : Block) :
    (t.setBlock i b).owned + (t.blocks i).owned = t.owned + b.owned := by
  fin_cases i <;> simp [setBlock, owned, Function.update] <;> omega

theorem owned_setMap (t : Tables) (i : Fin 2) (m : ContextMap) :
    (t.setMap i m).owned + (t.maps i).owned = t.owned + m.owned := by
  fin_cases i <;> simp [setMap, owned, Function.update] <;> omega

theorem owned_setTree (t : Tables) (i : Fin 3) (g : Group) :
    (t.setTree i g).owned + (t.trees i).owned = t.owned + g.owned := by
  fin_cases i <;> simp [setTree, owned, Function.update] <;> omega

end Tables

/-! ### Sound states -/

/-- A map being read has room for all its entries, and holds those read so far. -/
def ContextMap.Ready (m : ContextMap) (size : ℕ) : Prop :=
  m.stage = .treeCount ∨ m.stage = .complete ∨ size ≤ m.values.cap ∧ m.values.len = m.index ∧
    m.index ≤ size

/-- The maps where their stages may still be reached. -/
def Stream.MapsReady (s : Stream) : Prop :=
  match s.stage, s.tables with
  | .blocks _, some t | .distanceParams, some t | .modes _, some t =>
    (t.maps 0).stage = .treeCount ∧ (t.maps 1).stage = .treeCount
  | .maps i, some t => (t.maps i).Ready (t.mapSize i) ∧ (i = 0 → (t.maps 1).stage = .treeCount)
  | _, _ => True

structure Stream.Sound (program : Program) (s : Stream) : Prop where
  ring : RingLength s.ring.len
  window : s.windowSize = 0 ∨ WindowSize s.windowSize
  windowed : s.stage = .window ∨ WindowSize s.windowSize
  live : s.memory.live = s.owned program
  within : s.memory.Within
  maps : s.MapsReady

/-- A decoder that was never used. -/
theorem Stream.sound_new (program : Program) : ({} : Stream).Sound program where
  ring := Or.inl rfl
  window := Or.inl rfl
  windowed := Or.inl rfl
  live := rfl
  within := fun _ h => nomatch h
  maps := trivial

/-! ### Growth -/

open Memory (Grew)

theorem growRing_sound {m m' : Memory} {ring ring' : Buffer UInt8} {windowSize stop : ℕ}
    (hr : RingLength ring.len)
    (hw : WindowSize windowSize) (h : growRing m ring windowSize stop = .ok (m', ring')) :
    Grew m m' (ring.cap * 1) (ring'.cap * 1) ∧ RingLength ring'.len ∧
    min stop windowSize ≤ ring'.len ∧
      ring.len ≤ ring'.len := by
  unfold growRing at h
  split at h
  · cases h
    exact ⟨.refl _ _, hr, by omega, le_rfl⟩
  · obtain ⟨h1, h2⟩ := Memory.resize_grew h
    obtain ⟨r1, r2, r3, r4⟩ := ringSize_spec hr hw stop
    refine ⟨h1, Or.inr (h2 ▸ r1), h2 ▸ r3, ?_⟩
    rw [h2]
    omega

theorem repeatGrow_sound {m m' : Memory} {ring ring' : Buffer UInt8} {windowSize position stop : ℕ}
    {byte : UInt8}
    (hr : RingLength ring.len) (hw : WindowSize windowSize)
    (h : repeatGrow m ring windowSize position byte stop = .ok (m', ring')) :
    Grew m m' (ring.cap * 1) (ring'.cap * 1) ∧ RingLength ring'.len ∧
    min stop windowSize ≤ ring'.len := by
  obtain ⟨r1, -, r3, -⟩ := ringSize_spec hr hw stop
  unfold repeatGrow at h
  cases hm : m.reserve 1 ring (ringSize ring.len windowSize stop) with
  | error e => simp [hm] at h
  | ok r =>
    obtain ⟨m1, c⟩ := r
    simp only [hm, Except.ok.injEq, Prod.mk.injEq] at h
    obtain ⟨rfl, rfl⟩ := h
    obtain ⟨-, -, -, -, h5, -⟩ := Memory.reserve_ok hm
    refine ⟨?_, Or.inr (by rw [Buffer.resize_len]; exact r1), by rw [Buffer.resize_len]; exact r3⟩
    have hcap :=
      Buffer.resize_cap { c with get := fill c.get position (c.len - position) byte } byte h5
    have hg := Memory.reserve_grew hm
    rw [hcap]
    exact hg

namespace Group

theorem reach_grew (g : Group) (bound : ℕ) {m m' : Memory} {g' : Group}
    (h : g.reach bound m = .ok (m', g')) :
    Grew m m' g.owned g'.owned := by
  unfold reach at h
  split at h
  · cases hm : m.resize Code.size g.codes bound {} with
    | error e => simp [hm] at h
    | ok r =>
      simp only [hm, Except.ok.injEq, Prod.mk.injEq] at h
      obtain ⟨rfl, rfl⟩ := h
      exact (Memory.resize_grew hm).1
  · cases h
    exact .refl _ _

theorem prepare_grew {g g' : Group} {count alphabet : ℕ} {m m' : Memory}
    (h : g.prepare count alphabet m = .ok (m', g')) : Grew m m' g.owned g'.owned := by
  unfold prepare at h
  dsimp only at h
  split at h
  · cases h
  · split at h
    · cases hm : m.resize Code.size g.codes (count * rootSize) {} with
      | error e => simp [hm] at h
      | ok r =>
        simp only [hm, Except.ok.injEq, Prod.mk.injEq] at h
        obtain ⟨rfl, rfl⟩ := h
        exact (Memory.resize_grew hm).1
    · cases h
      exact .refl _ _

end Group

/-- The budget and the storage that an operation leaves, whether it succeeds or not. -/
def Accounts {ε α : Type} (m : Memory) (old : ℕ) (failed : ε → Memory × ℕ) (done : α → Memory × ℕ) :
    Except ε α → Prop
  | .error e => Grew m (failed e).1 old (failed e).2
  | .ok a => Grew m (done a).1 old (done a).2

namespace Builder

variable (b : Builder) (g : Group) (m : Memory)

theorem fill_accounts (start : ℕ) :
    Accounts m g.owned (fun e => (e.2.1, e.2.2.owned)) (fun r => (r.2.1, r.2.2.owned))
    (b.fill g start m) := by
  unfold fill
  split
  · exact .refl _ _
  split
  · exact .refl _ _
  split
  · cases hr : g.reach g.used m with
    | error e => exact .refl _ _
    | ok r =>
      have hg := g.reach_grew _ hr
      exact hg
  · cases space_ b.counts lengths 1 0 with
    | error e => exact .refl _ _
    | ok r =>
      dsimp only
      split
      · exact .refl _ _
      · cases hr : g.reach (g.used + secondSize b.counts) m with
        | error e => exact .refl _ _
        | ok r =>
          have hg := g.reach_grew _ hr
          dsimp only
          split
          · exact hg
          · exact hg

theorem buildSlot_accounts (alphabet tree : ℕ) :
    Accounts m g.owned (fun e => (e.2.1, e.2.2.owned)) (fun r => (r.2.1, r.2.2.owned))
      (b.buildSlot alphabet g tree m) := by
  unfold buildSlot
  split
  · exact .refl _ _
  · exact b.fill_accounts g m _

theorem build_accounts (alphabet : ℕ) :
    Accounts m g.owned (fun e => (e.2.1, e.2.2.owned)) (fun r => (r.2.1, r.2.2.owned))
      (b.build alphabet m g) := by
  unfold build
  cases hp : g.prepare 1 alphabet m with
  | error e => exact .refl _ _
  | ok r =>
    obtain ⟨m1, g1⟩ := r
    have h1 := Group.prepare_grew hp
    have h2 := b.buildSlot_accounts g1 m1 alphabet 0
    dsimp only
    cases hb : b.buildSlot alphabet g1 0 m1 with
    | error e => rw [hb] at h2; exact h1.trans h2
    | ok r => rw [hb] at h2; exact h1.trans h2

end Builder

/-- A reader's value, whatever it is. -/
theorem returns_any {α : Type} (r : Reader Fault α) : r.Returns fun _ => True :=
  Reader.returns_of_forall (fun _ => trivial) r

/-- A switch changes neither the block's codes nor its number of types. -/
theorem Block.switchStep_keeps (b : Block) : b.switchStep.Returns fun b' =>
    b'.types = b.types ∧ b'.lengths = b.lengths ∧ b'.count = b.count := by
  unfold switchStep
  split
  · exact (returns_any _).bind fun _ _ => ⟨rfl, rfl, rfl⟩
  · exact (returns_any _).bind fun _ _ => ⟨rfl, rfl, rfl⟩
  · exact (returns_any _).bind fun _ _ => ⟨rfl, rfl, rfl⟩

theorem Block.owned_congr {b b' : Block} (h : b'.types = b.types) (h' : b'.lengths = b.lengths) :
    b'.owned = b.owned := by rw [owned, owned, h, h']

theorem Block.headerStep_accounts (b : Block) (builder : Builder) (m : Memory) :
    (b.headerStep builder m).Returns
      (Accounts m b.owned (fun e => (e.2.2.2, e.2.1.owned)) fun r => (r.2.2.2, r.2.1.owned)) := by
  unfold headerStep
  split
  · refine (returns_any _).bind fun count _ => ?_
    show Accounts _ _ _ _ (ite _ _ _)
    split <;> exact Grew.refl _ _
  · refine (returns_any _).bind fun r _ => ?_
    obtain ⟨builder, done⟩ := r
    show Accounts _ _ _ _ (ite _ _ _)
    split
    · have h := builder.build_accounts b.types m (b.count + 2)
      cases hb : builder.build (b.count + 2) m b.types with
      | error e => rw [hb] at h; exact h.add rfl rfl
      | ok r => rw [hb] at h; exact h.add rfl rfl
    · exact Grew.refl _ _
  · refine (returns_any _).bind fun r _ => ?_
    obtain ⟨builder, done⟩ := r
    show Accounts _ _ _ _ (ite _ _ _)
    split
    · have h := builder.build_accounts b.lengths m numBlockLenSymbols
      cases hb : builder.build numBlockLenSymbols m b.lengths with
      | error e => rw [hb] at h; exact h.add (Nat.add_comm _ _) (Nat.add_comm _ _)
      | ok r => rw [hb] at h; exact h.add (Nat.add_comm _ _) (Nat.add_comm _ _)
    · exact Grew.refl _ _
  · exact Grew.refl _ _
  · refine b.switchStep_keeps.bind fun b' hb => ?_
    show Grew m m b.owned b'.owned
    rw [Block.owned_congr hb.1 hb.2.1]
    exact .refl _ _

namespace ContextMap

/-- A round accounts for its growth, and keeps the room for the entries still to come. -/
theorem step_accounts (m : ContextMap) (size : ℕ) (builder : Builder) (memory : Memory)
    (h : m.Ready size) :
    (m.step size builder memory).Returns fun r =>
      Accounts memory m.owned (fun e => (e.2.2.2, e.2.1.owned))
      (fun r => (r.2.2.2, r.2.1.owned)) r ∧
        match r with
        | .error e => e.2.1.Ready size
        | .ok r => r.2.1.Ready size := by
  have hroom : m.stage ≠ .treeCount → m.stage ≠ .complete →
      size ≤ m.values.cap ∧ m.values.len = m.index ∧ m.index ≤ size := fun h1 h2 =>
    (h.resolve_left h1).resolve_left h2
  have hsame : ∀ m' : ContextMap, m'.values = m.values → m'.index = m.index → m'.tree = m.tree →
      m.stage ≠ .treeCount → m.stage ≠ .complete →
      Grew memory memory m.owned m'.owned ∧ m'.Ready size := fun m' h1 h2 h3 h4 h5 => by
    have hr := hroom h4 h5
    refine ⟨?_, Or.inr (Or.inr (by rw [h1, h2]; exact hr))⟩
    rw [show m'.owned = m.owned by rw [owned, owned, h1, h3]]
    exact .refl _ _
  unfold step
  split
  · rename_i hstage
    refine (returns_any _).bind fun n _ => ?_
    show _ ∧ _
    dsimp only
    split
    · cases hm : memory.resize 1 m.values.clear size 0 with
      | error e => exact ⟨.refl _ _, Or.inl hstage⟩
      | ok r =>
        obtain ⟨hg, hlen⟩ := Memory.resize_grew hm
        exact ⟨hg.add rfl rfl, Or.inr (Or.inl rfl)⟩
    · cases hm : memory.reserve 1 m.values.clear size with
      | error e => exact ⟨.refl _ _, Or.inl hstage⟩
      | ok r =>
        obtain ⟨-, -, hlen, -, hcap, -⟩ := Memory.reserve_ok hm
        exact ⟨(Memory.reserve_grew hm).add rfl rfl, Or.inr (Or.inr ⟨hcap, hlen, Nat.zero_le _⟩)⟩
  · rename_i hstage
    refine (returns_any _).bind fun flag _ => ?_
    split
    · exact (returns_any _).bind fun _ _ =>
        hsame _ rfl rfl rfl (by simp [hstage]) (by simp [hstage])
    · refine (returns_any _).bind fun n _ => (returns_any _).bind fun _ _ => ?_
      exact hsame _ rfl rfl rfl (by simp [hstage]) (by simp [hstage])
  · rename_i hstage
    refine (returns_any _).bind fun r _ => ?_
    obtain ⟨builder, done⟩ := r
    have hr := hroom (by simp [hstage]) (by simp [hstage])
    show _ ∧ _
    split
    · have hb := builder.build_accounts m.tree memory (m.trees + m.run)
      cases hbuild : builder.build (m.trees + m.run) memory m.tree with
      | error e =>
        rw [hbuild] at hb
        exact ⟨hb.add (Nat.add_comm _ _) (Nat.add_comm _ _), Or.inr (Or.inr hr)⟩
      | ok r =>
        rw [hbuild] at hb
        exact ⟨hb.add (Nat.add_comm _ _) (Nat.add_comm _ _), Or.inr (Or.inr hr)⟩
    · exact hsame _ rfl rfl rfl (by simp [hstage]) (by simp [hstage])
  · rename_i hstage
    have hr := hroom (by simp [hstage]) (by simp [hstage])
    split
    · exact hsame _ rfl rfl rfl (by simp [hstage]) (by simp [hstage])
    · rename_i hne
      refine (returns_any _).bind fun symbol _ => ?_
      dsimp only
      split
      · exact hsame _ rfl rfl rfl (by simp [hstage]) (by simp [hstage])
      · generalize (if symbol = 0 then 0 else symbol - m.run) = value
        split
        · trivial
        · -- one entry more: the room is there
          have hcap : (m.values.push value).cap = m.values.cap := Buffer.extend_cap _ _ (by omega)
          refine ⟨?_,
            Or.inr (Or.inr ⟨by rw [hcap]; exact hr.1, ?_, by show m.index + 1 ≤ size; omega⟩)⟩
          · show Grew memory memory m.owned _
            simp only [owned, hcap]
            exact .refl _ _
          · simp only [Buffer.push_len, hr.2.1]
  · rename_i width hstage
    have hr := hroom (by simp [hstage]) (by simp [hstage])
    refine (returns_any _).bind fun extra _ => ?_
    dsimp only
    split
    · trivial
    · have hcap : (m.values.resize (m.index + 2 ^ width + extra) 0).cap = m.values.cap :=
        Buffer.resize_cap _ _ (by omega)
      refine ⟨?_,
        Or.inr (Or.inr ⟨by rw [hcap]; exact hr.1, Buffer.resize_len _ _ _, by simp only; omega⟩)⟩
      show Grew memory memory m.owned _
      simp only [owned, hcap]
      exact .refl _ _
  · refine (returns_any _).bind fun mtf _ => ?_
    show _ ∧ _
    dsimp only
    refine ⟨?_, Or.inr (Or.inl rfl)⟩
    show Grew memory memory m.owned _
    split <;> exact .refl _ _
  · exact ⟨.refl _ _, h⟩

end ContextMap
theorem Header.window_returns (limit : WindowLimit) : (Header.window limit).Returns fun w =>
    w.bits ≤ 62 := by
  have hdecl : ∀ (declared width : ℕ) (large : Bool),
      (Header.declare limit declared width large).Returns fun w => w.bits ≤ 62 := by
    intro declared width large
    unfold Header.declare
    split
    · trivial
    split
    · trivial
    split
    · trivial
    · rename_i window hw
      show window.bits ≤ 62
      split at hw
      · obtain ⟨rfl, -, h⟩ := Window.large_eq_some hw
        exact h
      · obtain ⟨rfl, -, h⟩ := Window.standard_eq_some hw
        exact le_trans h (by decide)
  unfold Header.window
  refine (returns_any _).bind fun first _ => ?_
  split
  · exact hdecl _ _ _
  refine (returns_any _).bind fun short _ => ?_
  split
  · exact hdecl _ _ _
  refine (returns_any _).bind fun long _ => ?_
  split
  · exact hdecl _ _ _
  split
  · refine (returns_any _).bind fun marker _ => ?_
    split
    · trivial
    refine (returns_any _).bind fun header _ => ?_
    dsimp only
    split
    · trivial
    · exact hdecl _ _ _
  · exact hdecl _ _ _

namespace Stream

/-- What an update of the decoder's state keeps. -/
structure Goes (program : Program) (s s' : Stream) : Prop where
  sound : s'.Sound program
  limit : s'.memory.limit = s.memory.limit

variable {program : Program} {s s' : Stream}

theorem Sound.windowSize (h : s.Sound program) (hs : s.stage ≠ .window) : WindowSize s.windowSize :=
  h.windowed.resolve_left hs

/-- An update that leaves the history alone and accounts for its growth. -/
theorem Sound.update (h : s.Sound program) (hr : s'.ring.len = s.ring.len)
    (hw : WindowSize s'.windowSize)
    (hg : Grew s.memory s'.memory (s.owned program) (s'.owned program)) (hm : s'.MapsReady) :
    s.Goes program s' :=
  ⟨⟨by rw [hr]; exact h.ring, Or.inr hw, Or.inr hw, by have := hg.live; have := h.live; omega,
    hg.within h.within, hm⟩, hg.limit⟩

/-- An update of fields that own nothing. -/
theorem Sound.control (h : s.Sound program) (hr : s'.ring = s.ring)
    (hp : s'.prefixHistory = s.prefixHistory)
    (hmem : s'.memory = s.memory) (ht : s'.tables = s.tables) (hw : WindowSize s'.windowSize)
    (hm : s'.MapsReady) : s.Goes program s' := by
  refine h.update (by rw [hr]) hw ?_ hm
  rw [hmem, show s'.owned program = s.owned program by rw [owned, owned, hr, hp, ht]]
  exact .refl _ _

/-- The state an update leads to. -/
def Update.state : Update → Stream
  | .ok s => s
  | .error (_, s) => s

theorem Goes.trans {s'' : Stream} (h : s.Goes program s') (h' : s'.Goes program s'') :
    s.Goes program s'' :=
  ⟨h'.sound, h'.limit.trans h.limit⟩

theorem owned_tables (t t' : Tables) (ht : s.tables = some t) {m : Memory}
    (hg : Grew s.memory m t.owned t'.owned) :
    Grew s.memory m (s.owned program)
    ({ s with memory := m, tables := some t' }.owned program) := by
  refine hg.add (k := s.ring.cap * 1 + s.prefixHistory.cap * 1 + program.tablesSize) ?_ ?_
  · simp only [owned, ht]; omega
  · simp only [owned]; omega

theorem ensureTables_grew {t : Tables} (h : s.ensureTables program = .ok (t, s')) :
    (s'.ring = s.ring ∧ s'.windowSize = s.windowSize ∧ s'.tables = some t) ∧
      Grew s.memory s'.memory (s.owned program) (s'.owned program) := by
  unfold ensureTables at h
  split at h
  · rename_i t' ht
    cases h
    exact ⟨⟨rfl, rfl, ht⟩, .refl _ _⟩
  · rename_i ht
    split at h
    · cases h
    · rename_i m c hm
      cases h
      refine ⟨⟨rfl, rfl, rfl⟩, ?_⟩
      have hcap : c.cap = 1 := by
        unfold Memory.reserve at hm
        rw [if_pos (show (Buffer.new ()).cap < 1 by decide)] at hm
        dsimp only at hm
        split at hm
        · cases hm
        · cases hm; rfl
      have hg := Memory.reserve_grew hm
      rw [hcap] at hg
      refine hg.add (k := s.ring.cap * 1 + s.prefixHistory.cap * 1) ?_ ?_
      · simp only [owned, ht, Buffer.new]; omega
      · simp only [owned]
        have : ({} : Tables).owned = 0 := rfl
        omega

theorem enterMetaBlock_goes (h : s.Sound program) (hs : s.stage = .metaBlock) (header : MetaBlock) :
    s.Goes program (s.enterMetaBlock program header).state := by
  have hw := h.windowSize (by simp [hs])
  unfold enterMetaBlock
  split
  · exact h.control rfl rfl rfl rfl hw trivial
  · split
    · exact ⟨h, rfl⟩
    · exact h.control rfl rfl rfl rfl hw trivial
  · exact h.control rfl rfl rfl rfl hw trivial
  · split
    · exact ⟨h, rfl⟩
    · dsimp only
      split
      · exact h.control rfl rfl rfl rfl hw h.maps
      · rename_i t s1 he
        obtain ⟨⟨h1, h2, h3⟩, hg⟩ := ensureTables_grew he
        refine h.update (by simp only [Update.state, h1])
          (by simp only [Update.state, h2]; exact hw) ?_ ⟨rfl, rfl⟩
        refine Grew.trans hg (owned_tables t _ h3 ?_)
        exact .refl _ _

theorem setDistances_goes (h : s.Sound program) (hs : s.stage = .distanceParams) {t : Tables}
    (ht : s.tables = some t) (params : ℕ) : s.Goes program (s.setDistances t params).state := by
  have hw := h.windowSize (by simp [hs])
  have hm : (t.maps 0).stage = .treeCount ∧ (t.maps 1).stage = .treeCount := by
    have := h.maps
    simpa only [MapsReady, hs, ht] using this
  have hready : ∀ (s' : Stream) (t' : Tables), s'.stage = .distanceParams → s'.tables = some t' →
    t'.maps = t.maps →
      s'.MapsReady := fun s' t' h1 h2 h3 => by
    simp only [MapsReady, h1, h2, h3]
    exact hm
  unfold setDistances
  dsimp only
  split
  · split
    · rename_i e table hf
      refine h.update rfl hw (owned_tables t _ ht ?_) (hready _ _ hs rfl rfl)
      unfold DistanceLayout.fillTable at hf
      split at hf
      · cases hf
        exact .refl _ _
      · cases hf
    · rename_i m table hf
      refine h.update rfl hw (owned_tables t _ ht ?_) hm
      unfold DistanceLayout.fillTable at hf
      split at hf
      · cases hf
      · rename_i m1 c hr
        cases hf
        obtain ⟨-, -, hlen, -, hcap, -⟩ := Memory.reserve_ok hr
        have hgrew := Memory.reserve_grew hr
        have hc : (c.extend (DistanceLayout.fromHeader params s.large).alphabet
            (DistanceLayout.fromHeader params s.large).entry).cap = c.cap :=
          Buffer.extend_cap _ _ (by simp only [Buffer.clear_len] at hlen; omega)
        refine hgrew.add (k := t.owned - t.distanceTable.cap * Partial.size) ?_ ?_
        · simp only [Tables.owned, Buffer.clear_cap]; omega
        · simp only [Tables.owned, hc]; omega
  · exact h.update rfl hw (owned_tables t _ ht (.refl _ _)) hm

/-- A piece of the workspace that grew. -/
theorem owned_part {t t' : Tables} {m m' : Memory} {old new : ℕ} (hg : Grew m m' old new)
    (hset : t'.owned + old = t.owned + new) (hle : old ≤ t.owned) : Grew m m' t.owned t'.owned :=
  hg.add (k := t.owned - old) (by omega) (by omega)

theorem owned_tree_le (t : Tables) (i : Fin 3) : (t.trees i).owned ≤ t.owned := by
  have := t.owned_setTree i {}
  simp only [Tables.owned]
  match i with
  | 0 => omega
  | 1 => omega
  | 2 => omega

theorem owned_block_le (t : Tables) (i : Fin 3) : (t.blocks i).owned ≤ t.owned := by
  simp only [Tables.owned]
  match i with
  | 0 => omega
  | 1 => omega
  | 2 => omega

theorem owned_map_le (t : Tables) (i : Fin 2) : (t.maps i).owned ≤ t.owned := by
  simp only [Tables.owned]
  match i with
  | 0 => omega
  | 1 => omega

theorem prepareTrees_goes (hw : WindowSize s.windowSize) :
    ∀ (groups : List (Fin 3)) (m : Memory) (t : Tables),
    { s with memory := m, tables := some t }.Sound program →
      (∀ (m' : Memory) (t' : Tables), t'.maps = t.maps → t'.blocks = t.blocks →
        { s with memory := m', tables := some t' }.MapsReady) →
      { s with memory := m, tables := some t }.Goes program
      ({ s with memory := m }.prepareTrees t groups).state := by
  intro groups
  induction groups with
  | nil => intro m t h _; exact h.control rfl rfl rfl rfl hw trivial
  | cons group rest ih =>
    intro m t h hm
    unfold prepareTrees
    split
    · exact ⟨h, rfl⟩
    · rename_i m1 g hp
      have hg :=
        owned_part (Group.prepare_grew hp) (t.owned_setTree group g) (owned_tree_le t group)
      have hup : { s with memory := m, tables := some t }.Goes program
          { s with memory := m1, tables := some (t.setTree group g) } :=
        h.update rfl hw (owned_tables (s := { s with memory := m, tables := some t }) t _ rfl hg)
          (hm _ _ rfl rfl)
      exact hup.trans (ih m1 (t.setTree group g) hup.sound fun m' t' h1 h2 => hm m' t' h1 h2)

theorem buildTree_goes (h : s.Sound program) {t : Tables} (ht : s.tables = some t)
    {group : Fin 3} {index : ℕ}
    (hs : s.stage = .trees group index) : s.Goes program (s.buildTree t group index).state := by
  have hw := h.windowSize (by simp [hs])
  have hb := t.builder.buildSlot_accounts (t.trees group) s.memory (t.alphabet group) index
  have hup : ∀ (m : Memory) (g : Group) (stage : Stage),
    Grew s.memory m (t.trees group).owned g.owned →
      { s with memory := m, tables := some (t.setTree group g), stage }.MapsReady →
      s.Goes program { s with memory := m, tables := some (t.setTree group g), stage } :=
      fun m g stage hg hm =>
    h.update rfl hw (owned_tables t _ ht
      (owned_part hg (t.owned_setTree group g) (owned_tree_le t group))) hm
  unfold buildTree
  split
  · rename_i e m g he
    rw [he] at hb
    exact hup m g s.stage hb (by simp only [MapsReady, hs])
  · rename_i maxSymbol m g he
    rw [he] at hb
    dsimp only
    generalize (if group = 2 then t.distances.validateSymbol maxSymbol else Except.ok ()) = valid
    cases valid with
    | error e => exact hup m g s.stage hb (by simp only [MapsReady, hs])
    | ok u => exact hup m g _ hb (by split_ifs <;> trivial)

/-- A round of a stage that only reads. -/
theorem readStage_goes (env : Env) (h : s.Sound env.program) :
    (s.readStage env).Returns fun u => s.Goes env.program (Update.state u) := by
  unfold readStage
  split
  · -- the window header
    refine (Header.window_returns _).bind fun window hb => ?_
    have hw : WindowSize (2 ^ window.bits) := ⟨_, hb, rfl⟩
    exact h.update rfl hw (.refl _ _) trivial
  · rename_i hs
    exact (returns_any _).bind fun header _ => enterMetaBlock_goes h hs header
  · exact (returns_any _).bind fun _ _ => ⟨h, rfl⟩
  · rename_i i t hs ht
    have hw := h.windowSize (by simp [hs])
    have hm : (t.maps 0).stage = .treeCount ∧ (t.maps 1).stage = .treeCount := by
      have := h.maps
      simpa only [MapsReady, hs, ht] using this
    refine ((t.blocks i).headerStep_accounts t.builder s.memory).bind fun r hr => ?_
    split
    · rename_i e b builder m
      refine h.update rfl hw (owned_tables t _ ht
        (owned_part hr (t.owned_setBlock i b) (owned_block_le t i))) ?_
      simp only [MapsReady, Update.state, hs]
      exact hm
    · rename_i done b builder m
      refine h.update rfl hw (owned_tables t _ ht
        (owned_part hr (t.owned_setBlock i b) (owned_block_le t i))) ?_
      simp only [MapsReady, Update.state]
      split_ifs <;> exact hm
  · rename_i t hs ht
    exact (returns_any _).bind fun params _ => setDistances_goes h hs ht params
  · rename_i i t hs ht
    have hw := h.windowSize (by simp [hs])
    have hm : (t.maps 0).stage = .treeCount ∧ (t.maps 1).stage = .treeCount := by
      have := h.maps
      simpa only [MapsReady, hs, ht] using this
    refine (returns_any _).bind fun value _ => ?_
    refine h.update rfl hw (owned_tables t _ ht (.refl _ _)) ?_
    simp only [MapsReady, Update.state]
    split_ifs
    · exact ⟨Or.inl hm.1, fun _ => hm.2⟩
    · exact hm
  · rename_i i t hs ht
    have hw := h.windowSize (by simp [hs])
    have hm : (t.maps i).Ready (t.mapSize i) ∧ (i = 0 → (t.maps 1).stage = .treeCount) := by
      have := h.maps
      simpa only [MapsReady, hs, ht] using this
    refine ((t.maps i).step_accounts (t.mapSize i) t.builder s.memory hm.1).bind fun r hr => ?_
    have hpart : ∀ (m : Memory) (builder : Builder) (map : ContextMap),
      Grew s.memory m (t.maps i).owned map.owned →
        Grew s.memory m t.owned ({ t with builder }.setMap i map).owned := fun m builder map hg =>
      owned_part hg (t.owned_setMap i map) (owned_map_le t i)
    have hself : ∀ (builder : Builder) (map : ContextMap),
      (({ t with builder }.setMap i map).maps i) = map := fun _ _ =>
      Function.update_self _ _ _
    have hother : ∀ (builder : Builder) (map : ContextMap), i = 0 →
        (({ t with builder }.setMap i map).maps 1) = t.maps 1 := fun _ _ h0 =>
      Function.update_of_ne (by rw [h0]; decide) _ _
    split
    · rename_i e map builder m
      refine h.update rfl hw (owned_tables t _ ht (hpart m builder map hr.1)) ?_
      simp only [MapsReady, Update.state, hs]
      exact ⟨by rw [hself]; exact hr.2, fun h0 => by rw [hother _ _ h0]; exact hm.2 h0⟩
    · rename_i done map builder m
      dsimp only
      split_ifs with h1 h2
      · refine h.update rfl hw (owned_tables t _ ht (hpart m builder map hr.1)) ?_
        simp only [MapsReady, Update.state, hs]
        exact ⟨by rw [hself]; exact hr.2, fun h0 => by rw [hother _ _ h0]; exact hm.2 h0⟩
      · subst h2
        refine h.update rfl hw (owned_tables t _ ht (hpart m builder map.detectTrivial hr.1)) ?_
        simp only [MapsReady, Update.state]
        refine ⟨?_, fun h0 => absurd h0 (by decide)⟩
        rw [hother _ _ rfl]
        exact Or.inl (hm.2 rfl)
      · have hi : i = 1 := by omega
        subst hi
        have hup :
            s.Goes env.program
            { s with memory := m, tables := some ({ t with builder }.setMap 1 map) } := by
          refine h.update rfl hw (owned_tables t _ ht (hpart m builder map hr.1)) ?_
          simp only [MapsReady, hs]
          exact ⟨by rw [hself]; exact hr.2, fun h0 => absurd h0 (by decide)⟩
        refine hup.trans (prepareTrees_goes hw [0, 1, 2] m _ hup.sound fun m' t' h1 h2 => ?_)
        simp only [MapsReady, hs, h1, Tables.mapSize, h2]
        exact ⟨by rw [hself]; exact hr.2, fun h0 => absurd h0 (by decide)⟩
  · rename_i group index t hs ht
    have hw := h.windowSize (by simp [hs])
    refine (returns_any _).bind fun r _ => ?_
    obtain ⟨builder, done⟩ := r
    have hup : s.Goes env.program { s with tables := some { t with builder } } :=
      h.update rfl hw (owned_tables t _ ht (.refl _ _)) (by simp only [MapsReady, hs])
    show s.Goes _ (Update.state (ite _ _ _))
    split
    · exact hup.trans (buildTree_goes hup.sound rfl hs)
    · exact hup
  · rename_i insert copy hs
    have hw := h.windowSize (by simp [hs])
    refine (returns_any _).bind fun extra _ => ?_
    dsimp only
    split
    · trivial
    · exact h.control rfl rfl rfl rfl hw trivial
  · rename_i copy hs
    have hw := h.windowSize (by simp [hs])
    exact (returns_any _).bind fun extra _ => h.control rfl rfl rfl rfl hw trivial
  · rename_i symbol t hs _
    have hw := h.windowSize (by simp [hs])
    dsimp only
    split
    · exact (returns_any _).bind fun low _ => h.control rfl rfl rfl rfl hw trivial
    · refine (returns_any _).bind fun extra _ => ?_
      split
      · trivial
      · exact h.control rfl rfl rfl rfl hw trivial
  · rename_i symbol low t hs _
    have hw := h.windowSize (by simp [hs])
    refine (returns_any _).bind fun high _ => ?_
    split
    · trivial
    · exact h.control rfl rfl rfl rfl hw trivial
  · trivial

end Stream
end Mbrotli
