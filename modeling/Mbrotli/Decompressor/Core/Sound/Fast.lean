/-
# The command loop keeps the decoder sound

`Fast.Held` is the invariant of the loop's locals: bytes delivered, pending and still
free never exceed what the call may produce, the ring keeps a sound length, and the
budget counts its growth. Every part of a command keeps it (`round_held`), hence so
does the loop (`loop_held`), and a stream that enters and leaves it stays sound
(`Machine.fast_goes`).
-/
import Mbrotli.Decompressor.Core.Sound

namespace Mbrotli

open Memory (Grew)

/-- What the loop is entered with: the call's room and policy, and what is owned. -/
structure Entered where
  linear : Bool
  outEnd : ℕ
  output : Output
  memory : Memory
  ringCap : ℕ
  blocks : Fin 3 → Block

/-- The invariant, over the locals it is about. -/
structure Entered.Holds (e : Entered) (output : Output) (position flushed space : ℕ)
    (memory : Memory)
    (len cap : ℕ) (blocks : Fin 3 → Block) : Prop where
  frame : output.frame = e.output.frame
  linear : output.linear = e.linear
  pending : flushed ≤ position
  room : output.produced + (position - flushed) + space ≤ e.outEnd
  ring : e.linear = false → RingLength len
  grew : Grew e.memory memory (e.ringCap * 1) (cap * 1)
  kept : e.linear = true → cap = e.ringCap
  owned : ∀ i, (blocks i).owned = (e.blocks i).owned

/-- A switch in the loop changes neither the block's codes nor its number of types. -/
theorem Block.switchFast_keeps {b b' : Block} {bits bits' : Bits}
    (h : b.switchFast bits = some (b', bits')) :
    b'.types = b.types ∧ b'.lengths = b.lengths ∧ b'.count = b.count := by
  unfold switchFast at h
  cases ht : b.types.single with
  | none => simp [ht] at h
  | some types =>
    cases hl : b.lengths.single with
    | none => simp [ht, switchTo, hl] at h
    | some lengths =>
      simp only [ht, switchTo, hl, Option.bind_eq_bind, Option.bind_some, Option.pure_def,
        Option.some.injEq,
        Prod.mk.injEq] at h
      obtain ⟨rfl, -⟩ := h
      exact ⟨rfl, rfl, rfl⟩

def Fast.Held (e : Entered) (l : Fast) : Prop :=
  e.Holds l.output l.position l.flushed l.space l.memory l.ring.len l.ring.cap l.blocks

/-- The stages of a command after its symbol, and the command stage itself. -/
def Stage.InCommand : Stage → Prop
  | .command | .copyExtra _ | .literals | .distance | .distanceExtra _ | .resolve | .copy
      | .dictionary => True
  | _ => False

def FastExit.InCommand : FastExit → Prop
  | .pause stage => stage.InCommand
  | .fault _ => True

/-- Both ends of a part of a command keep a property of the locals; it pauses at a
stage of the command. -/
def Phase.Ends {α : Type} (P : Fast → Prop) (locals : α → Fast) : Phase α → Prop
  | .error r => P r.2 ∧ r.1.InCommand
  | .ok a => P (locals a)

theorem Phase.Ends.bind_of {α β : Type} {P Q : Fast → Prop} {f : α → Fast}
    {g : β → Fast} {x : Phase α}
    (h : x.Ends Q f) (hQ : ∀ l, Q l → P l) {k : α → Phase β} (hk : ∀ a, Q (f a) → (k a).Ends P g) :
    Phase.Ends P g (x >>= k) := by
  cases x with
  | error r => exact ⟨hQ _ h.1, h.2⟩
  | ok a => exact hk a h

theorem Phase.Ends.bind {α β : Type} {P : Fast → Prop} {f : α → Fast} {g : β → Fast} {x : Phase α}
    (h : x.Ends P f)
    {k : α → Phase β} (hk : ∀ a, P (f a) → (k a).Ends P g) : Phase.Ends P g (x >>= k) :=
  h.bind_of (fun _ => id) hk

namespace Fast

variable {e : Entered} {l : Fast}

theorem Held.refill (h : l.Held e) : l.refill.2.Held e := h

theorem Held.refillBelow (h : l.Held e) (n : ℕ) : (l.refillBelow n).2.Held e := by
  unfold Fast.refillBelow
  split <;> exact h

theorem Held.orPause {r : Bool × Fast} (h : r.2.Held e) (stage : Stage) (hs : stage.InCommand) :
    Phase.Ends (Held e) id (orPause r stage) := by
  unfold Fast.orPause
  split
  · exact h
  · exact ⟨h, hs⟩

theorem Held.setBlock (h : l.Held e) {i : Fin 3} {b : Block} (hb : b.owned = (l.blocks i).owned) :
    (l.setBlock i b).Held e := by
  refine ⟨h.frame, h.linear, h.pending, h.room, h.ring, h.grew, h.kept, fun j => ?_⟩
  by_cases hj : j = i
  · subst hj
    exact (congrArg Block.owned (Function.update_self _ _ _)).trans (hb.trans (h.owned j))
  · exact (congrArg Block.owned (Function.update_of_ne hj _ _)).trans (h.owned j)

theorem Held.useBlock (h : l.Held e) (i : Fin 3) (n : ℕ) : (l.useBlock i n).Held e := by
  refine h.setBlock ?_
  unfold Block.use
  split <;> rfl

theorem Held.symbol (h : l.Held e) (g : Group) (tree : ℕ) :
    Phase.Ends (Held e) Prod.snd (l.symbol g tree) := by
  unfold Fast.symbol
  split
  · exact ⟨h, trivial⟩
  · exact h

theorem Held.switchBlock (h : l.Held e) (i : Fin 3) : Phase.Ends (Held e) id (l.switchBlock i) := by
  unfold Fast.switchBlock
  split
  · exact ⟨h, trivial⟩
  · rename_i b bits hb
    refine Held.setBlock (l := { l with bits }) h ?_
    obtain ⟨h1, h2, -⟩ := Block.switchFast_keeps hb
    exact Block.owned_congr h1 h2

theorem Held.switchPending (h : l.Held e) (i : Fin 3) (stage : Stage) (hs : stage.InCommand) :
    Phase.Ends (Held e) id (l.switchPending i stage) := by
  unfold Fast.switchPending
  split
  · split
    · exact ⟨h, hs⟩
    · exact (h.switchBlock i).bind fun l h => Held.orPause h.refill stage hs
  · exact h

theorem Held.flush (h : l.Held e) : l.flush.Held e := by
  obtain ⟨f1, f2, f3, f4⟩ :=
    flushRing_spec l.ring.get l.ring.len l.position l.flushed l.output h.pending
  have hroom := h.room
  refine ⟨f3.trans h.frame, f4.trans h.linear, f1.le, ?_, h.ring, h.grew, h.kept, h.owned⟩
  show (flushRing _ _ _ _ _).2.produced + (l.position - (flushRing _ _ _ _ _).1) +
    l.space ≤ e.outEnd
  rw [f1, f2]
  omega

/-- Writing that stays within the room. -/
theorem Held.wrote (h : l.Held e) {get : ℕ → UInt8} {position flushed n : ℕ} {o : Output}
    (hw : Wrote l.output o l.position position l.flushed flushed n) (hn : n ≤ l.space)
    (remaining : ℕ) :
    { l with ring := { l.ring with get }, position, flushed, output := o, remaining,
             space := l.space - n }.Held e := by
  obtain ⟨a1, a2, a3, a4, a5, a6⟩ := hw
  have hroom := h.room
  have hp := h.pending
  refine ⟨a5.trans h.frame, a6.trans h.linear, a3, ?_, h.ring, h.grew, h.kept, h.owned⟩
  show o.produced + (position - flushed) + (l.space - n) ≤ e.outEnd
  omega

/-- Writing into the history without delivering. -/
theorem Held.advance (h : l.Held e) {n : ℕ} (hn : n ≤ l.space) (remaining : ℕ) (get : ℕ → UInt8) :
    { l with ring := { l.ring with get }, position := l.position + n, remaining, space :=
  l.space - n }.Held e :=
  h.wrote ⟨by omega, le_rfl, by have := h.pending; omega, by have := h.pending; omega, rfl,
    rfl⟩ hn remaining

end Fast

namespace FastEnv

open Fast Phase

variable {c : FastEnv} {e : Entered} {l : Fast}

/-- Growing the ring for the call takes no room. -/
theorem reach_held (hc : e.linear = c.linear) (hw : WindowSize c.windowSize)
    (h : l.Held e) (stop : ℕ) :
    Ends (fun l' => l'.Held e ∧ l'.space = l.space ∧ l'.copy = l.copy) id (c.reach l stop) := by
  unfold reach
  split
  · rename_i hg
    have hlin : c.linear = false := by
      unfold grows at hg
      cases hc : c.linear with
      | true => rw [hc] at hg; simp at hg
      | false => rfl
    split
    · exact ⟨⟨h, rfl, rfl⟩, trivial⟩
    · rename_i m ring hgrow
      obtain ⟨g1, g2, -, -⟩ := growRing_sound (h.ring (hc.trans hlin)) hw hgrow
      exact ⟨⟨h.frame, h.linear, h.pending, h.room, fun _ => g2, h.grew.trans g1,
        fun ht => absurd (ht.symm.trans (hc.trans hlin)) (by decide), h.owned⟩, rfl, rfl⟩
  · exact ⟨h, rfl, rfl⟩

theorem flushAt_held (h : l.Held e) (stop : ℕ) : (c.flushAt l stop).Held e := by
  unfold flushAt
  split
  · exact Held.flush h
  · exact h

theorem command_held (h : l.Held e) : Ends (Held e) Prod.snd (c.command l) := by
  unfold command
  split
  · exact ⟨h, trivial⟩
  refine (Held.orPause h.refill .command trivial).bind fun l h => ?_
  refine (Held.switchPending h 1 .command trivial).bind fun l h => ?_
  refine (Held.symbol h _ _).bind fun r h => ?_
  obtain ⟨symbol, l⟩ := r
  dsimp only
  have h1 : (l.useBlock 1 1).Held e := Held.useBlock h 1 1
  split
  · exact ⟨h1, trivial⟩
  · refine Ends.bind (Held.orPause (Held.refillBelow ?_ 24) (.copyExtra _) trivial) fun l h => ?_
    · exact h1
    · exact h

theorem refillBelow_space (l : Fast) (n : ℕ) : (l.refillBelow n).2.space = l.space := by
  unfold Fast.refillBelow
  split <;> rfl

theorem tripleLoop_held (table : Table) : ∀ (k index : ℕ) (l : Fast), l.Held e →
    (tripleLoop table k index l).2.Held e ∧ (tripleLoop table k index l).1 ≤ 3 * k ∧
      (tripleLoop table k index l).2.space = l.space := by
  intro k
  induction k with
  | zero => intro index l h; exact ⟨h, Nat.zero_le _, rfl⟩
  | succ k ih =>
    intro index l h
    unfold tripleLoop
    dsimp only
    split
    · exact ⟨h.refillBelow 45, Nat.zero_le _, refillBelow_space l 45⟩
    · obtain ⟨h1, h2, h3⟩ := ih (index + 3)
        (literal table (index + 2) (literal table (index + 1)
          (literal table index (l.refillBelow 45).2)))
        (h.refillBelow 45)
      exact ⟨h1, by dsimp only; omega, h3.trans (refillBelow_space l 45)⟩

theorem scalarLoop_held (table : Table) : ∀ (n index : ℕ) (l : Fast), l.Held e →
    (scalarLoop table n index l).2.Held e ∧ (scalarLoop table n index l).1 ≤ n ∧
      (scalarLoop table n index l).2.space = l.space := by
  intro n
  induction n with
  | zero => intro index l h; exact ⟨h, le_rfl, rfl⟩
  | succ n ih =>
    intro index l h
    unfold scalarLoop
    dsimp only
    split
    · exact ⟨h.refillBelow 15, Nat.zero_le _, refillBelow_space l 15⟩
    · obtain ⟨h1, h2, h3⟩ :=
        ih (index + 1) (literal table index (l.refillBelow 15).2) (h.refillBelow 15)
      exact ⟨h1, by dsimp only; omega, h3.trans (refillBelow_space l 15)⟩

theorem contextLoop_held (trees : Group) (lut contexts : ℕ → ℕ) :
    ∀ (n index : ℕ) (p1 p2 : UInt8) (l : Fast)
    (r : ℕ × Fast), l.Held e → contextLoop trees lut contexts n index p1 p2 l = some r →
    r.2.Held e ∧ r.1 ≤ n ∧ r.2.space = l.space := by
  intro n
  induction n with
  | zero => intro index p1 p2 l r h hr; cases hr; exact ⟨h, le_rfl, rfl⟩
  | succ n ih =>
    intro index p1 p2 l r h hr
    unfold contextLoop at hr
    dsimp only at hr
    split at hr
    · cases hr; exact ⟨h.refillBelow 15, Nat.zero_le _, refillBelow_space l 15⟩
    · split at hr
      · cases hr
      · rename_i table _
        split at hr
        · cases hr
        · rename_i done l' hrec
          cases hr
          obtain ⟨h1, h2, h3⟩ :=
            ih _ _ _ (literal table index (l.refillBelow 15).2) _ (h.refillBelow 15) hrec
          exact ⟨h1, Nat.succ_le_succ h2, h3.trans (refillBelow_space l 15)⟩

theorem literalRun_held (h : l.Held e) {index run : ℕ} {r : ℕ × Fast}
    (hr : c.literalRun l index run = some r) :
    r.2.Held e ∧ r.1 ≤ run ∧ r.2.space = l.space := by
  unfold literalRun at hr
  dsimp only at hr
  split at hr
  · split at hr
    · cases hr
    · cases hr
      rename_i table _
      obtain ⟨h1, h2, h5⟩ := tripleLoop_held table (run / 3) index l h
      obtain ⟨h3, h4, h6⟩ := scalarLoop_held table (run - (tripleLoop table (run / 3) index l).1)
        (index + (tripleLoop table (run / 3) index l).1) _ h1
      exact ⟨h3, by dsimp only; omega, h6.trans h5⟩
  · exact contextLoop_held _ _ _ _ _ _ _ _ _ h hr

theorem literalLoop_held (c : FastEnv) : ∀ (fuel : ℕ) (l : Fast) (r : Pause × Fast), l.Held e →
    c.literalLoop fuel l = some r → r.2.Held e := by
  intro fuel
  induction fuel with
  | zero => intro l r h hr; cases hr; exact h
  | succ fuel ih =>
    intro l r h hr
    unfold literalLoop at hr
    dsimp only at hr
    split at hr
    · cases hr; exact h
    split at hr
    · split at hr
      · cases hr; exact h
      split at hr
      · cases hr; exact h.refillBelow 54
      split at hr
      · cases hr
      · rename_i l' hsw
        have hs := Held.switchBlock (h.refillBelow 54) 0
        rw [hsw] at hs
        exact ih _ _ hs hr
    split at hr
    · cases hr; exact h
    split at hr
    · cases hr
    rename_i done l' hrun
    obtain ⟨h1, h2, h3⟩ := literalRun_held h hrun
    have hadv : Fast.Held e ({ l' with
        position := l'.position + done, literals := l'.literals - done
        remaining := l'.remaining - done, space := l'.space - done }.useBlock 0 done) :=
      Held.useBlock (Held.advance h1 (by omega) (l'.remaining - done) l'.ring.get) 0 done
    have hend := flushAt_held (c := c) hadv (c.index l l.position + done)
    split at hr
    · cases hr; exact hend
    · exact ih _ _ hend hr

theorem insert_held (hc : e.linear = c.linear) (hw : WindowSize c.windowSize)
    (h : l.Held e) (n : ℕ) :
    Ends (Held e) id (c.insert l n) := by
  unfold insert
  split
  · exact h
  · refine (reach_held hc hw h _).bind_of (fun _ h => h.1) fun l h => ?_
    obtain ⟨h, -⟩ := h
    split
    · exact ⟨h, trivial⟩
    · rename_i l' hr
      exact literalLoop_held c _ _ _ h hr
    · rename_i l' _ hr
      exact ⟨literalLoop_held c _ _ _ h hr, trivial⟩

theorem longDistance_held (h : l.Held e) (symbol : ℕ) :
    Ends (Held e) Prod.snd (c.longDistance l symbol) := by
  unfold longDistance
  dsimp only
  split
  · split
    · exact ⟨h, trivial⟩
    · refine (Held.orPause h.refill (.distanceExtra _) trivial).bind fun l h => ?_
      split
      · exact ⟨h, trivial⟩
      · exact h
  · exact h

theorem distance_held (h : l.Held e) (distanceContext : ℕ) :
    Ends (Held e) id (c.distance l distanceContext) := by
  unfold distance
  split
  · exact ⟨h, trivial⟩
  split
  · exact h
  refine (Held.orPause (h.refillBelow _) .distance trivial).bind fun l h => ?_
  refine (Held.switchPending h 2 .distance trivial).bind fun l h => ?_
  refine (Held.symbol h _ _).bind fun r h => ?_
  obtain ⟨symbol, l⟩ := r
  have h1 : (l.useBlock 2 1).Held e := Held.useBlock h 2 1
  dsimp only
  split
  · exact h1
  split
  · split
    · exact ⟨h1, trivial⟩
    · exact h1
  · refine Ends.bind (longDistance_held ?_ symbol) fun r h => ?_
    · exact h1
    · exact h

theorem word_held (hc : e.linear = c.linear) (hw : WindowSize c.windowSize) (h : l.Held e)
    (available : ℕ) :
    Ends (Held e) id (c.word l available) := by
  have h1 : Fast.Held e (if l.distanceCode =
      0 then { l with cache := l.cache.push l.distance } else l) := by
    split <;> exact h
  unfold word
  generalize (if l.distanceCode = 0 then { l with cache := l.cache.push l.distance } else l) =
    l1 at h1
  dsimp only
  split
  · exact ⟨h1, trivial⟩
  split
  · exact ⟨h1, trivial⟩
  rename_i word _
  split
  · exact ⟨h1, trivial⟩
  split
  · exact ⟨h1, trivial⟩
  split
  · exact ⟨h1, trivial⟩
  rename_i hspace
  refine (reach_held hc hw (l := { l1 with scratch := word, scratchPos := 0 }) h1 _).bind_of
    (fun _ h => h.1) fun l h => ?_
  obtain ⟨h, hs, -⟩ := h
  have hn : word.length ≤ l.space := by
    rw [show l.space = l1.space from hs]
    omega
  exact Held.wrote h (writeRing_wrote _ _ _ _ _ _ _ h.pending) hn _

theorem copyHistory_held (h : l.Held e) (hn : l.copy ≤ l.space) :
    Ends (Held e) id (c.copyHistory l) := by
  unfold copyHistory
  dsimp only
  split
  · exact flushAt_held (Held.advance h hn (l.remaining - l.copy) _) _
  split
  · exact ⟨h, trivial⟩
  · exact Held.wrote h (copyRing_wrote _ _ _ _ _ _ _ _ h.pending) hn _

theorem copy_held (hc : e.linear = c.linear) (hw : WindowSize c.windowSize) (h : l.Held e) :
    Ends (Held e) id (c.copy l) := by
  unfold copy
  split
  · split
    · exact ⟨h, trivial⟩
    · exact ⟨h, trivial⟩
  rename_i hfit
  have hn : l.copy ≤ l.space := by omega
  dsimp only
  split
  · rename_i hrun
    have hlin : c.linear = false := by
      have hg := hrun.2.1
      unfold grows at hg
      cases hc : c.linear with
      | true => rw [hc] at hg; simp at hg
      | false => rfl
    split
    · exact ⟨h, trivial⟩
    · rename_i m ring hgrow
      obtain ⟨g1, g2, -⟩ := repeatGrow_sound (h.ring (hc.trans hlin)) hw hgrow
      have hadv := Held.advance h hn (l.remaining - l.copy) l.ring.get
      have hgrown : Fast.Held e { l with
          cache := l.cache.push l.distance, memory := m, ring, position := l.position + l.copy
          remaining := l.remaining - l.copy, space := l.space - l.copy } :=
        ⟨hadv.frame, hadv.linear, hadv.pending, hadv.room, fun _ => g2, h.grew.trans g1,
          fun ht => absurd (ht.symm.trans (hc.trans hlin)) (by decide), h.owned⟩
      show Fast.Held e (ite _ _ _)
      split
      · exact Held.flush hgrown
      · exact hgrown
  · refine (reach_held hc hw (l := { l with cache := l.cache.push l.distance }) h _).bind_of
      (fun _ h => h.1)
      fun l' h' => ?_
    obtain ⟨h1, h2, h3⟩ := h'
    refine copyHistory_held h1 ?_
    rw [show l'.space = l.space from h2, show l'.copy = l.copy from h3]
    exact hn

theorem round_held (hc : e.linear = c.linear) (hw : WindowSize c.windowSize) (h : l.Held e)
    (resume : Bool) :
    Ends (Held e) id (c.round resume l) := by
  unfold round
  refine Ends.bind (f := Prod.snd) ?_ fun r h => ?_
  · split
    · exact h
    · exact command_held h
  obtain ⟨⟨insert, distanceContext⟩, l⟩ := r
  refine (insert_held hc hw h insert).bind fun l h => ?_
  refine (distance_held h distanceContext).bind fun l h => ?_
  dsimp only
  split
  · exact word_held hc hw h _
  · exact copy_held hc hw h

/-- The loop keeps the invariant, however it ends. -/
theorem loop_held (hc : e.linear = c.linear) (hw : WindowSize c.windowSize) :
    ∀ (fuel : ℕ) (resume : Bool) (l : Fast)
    (r : FastExit × Fast), l.Held e → c.loop fuel resume l = some r → r.2.Held e ∧
    r.1.InCommand := by
  intro fuel
  induction fuel with
  | zero => intro resume l r h hr; cases hr
  | succ fuel ih =>
    intro resume l r h hr
    have hround := round_held hc hw h resume
    rw [loop] at hr
    cases hx : c.round resume l with
    | error x =>
      rw [hx] at hr hround
      cases hr
      exact hround
    | ok l' =>
      rw [hx] at hr hround
      exact ih false l' r hround hr

end FastEnv
end Mbrotli
