/-
# References into the attached prefix

A distance beyond the window's bytes but within the attached prefix refers to the prefix
followed by those bytes. Three stages emit such a copy: the prefix, segment by segment,
then the history, from the ring while the distance fits the window and from a saved
stretch when it does not, and then all of it again. They stop wherever the output is
full.

`Machine.Holds` is a machine whose history, ring or slice, is a given list; what a turn
writes is appended to it and given to the output (`Gave`). `Referring` says where in
the copy each stage stands; every turn keeps it (`Referring.turn`), so over any pauses the
bytes are those of one copy (`prefix_reference`).
-/
import Mbrotli.Decompressor.Core.Copies
import Mbrotli.Decompressor.Core.Replay

namespace Mbrotli

/-! ### What an output is given -/

/-- `o'` is `o` with `bytes` written to the caller's slice. -/
structure Output.Gave (o o' : Output) (bytes : List UInt8) : Prop where
  produced : o'.produced = o.produced + bytes.length
  collect : o'.collect = o.collect
  linear : o'.linear = o.linear
  len : o'.bytes.len = o.bytes.len
  bytes : o.collect = none → ∀ i < bytes.length, o'.bytes.get (o.produced + i) = bytes.getD i 0

namespace Output

/-- What the caller's slice has between the counts of two outputs. -/
def took (o o' : Output) : List UInt8 :=
  (List.range (o'.produced - o.produced)).map fun i => o'.bytes.get (o.produced + i)

variable {o o' : Output} {bytes : List UInt8}

theorem Gave.took (h : o.Gave o' bytes) (hc : o.collect = none) : o.took o' = bytes := by
  have hlen : o'.produced - o.produced = bytes.length := by rw [h.produced, Nat.add_sub_cancel_left]
  apply List.ext_getElem?
  intro i
  rw [Output.took, hlen, List.getElem?_map]
  by_cases hi : i < bytes.length
  · rw [List.getElem?_range hi, Option.map_some, h.bytes hc i hi, List.getD_eq_getElem?_getD,
      List.getElem?_eq_getElem hi, Option.getD_some]
  · rw [List.getElem?_eq_none (by simpa using hi), List.getElem?_eq_none (by omega),
      Option.map_none]

theorem Gave.refl (o : Output) : o.Gave o [] := ⟨rfl, rfl, rfl, rfl, fun _ _ h => nomatch h⟩

theorem deliver_gave (h : o.linear = false) (bytes : List UInt8) :
    o.Gave (o.deliver bytes) bytes := by
  refine ⟨rfl, rfl, rfl, ?_, fun hc i hi => ?_⟩
  · simp only [deliver]
    split <;> rfl
  · have hd : o.delivers = true := by simp [delivers, hc, h]
    simp only [deliver, hd, if_true, Slice.copy]
    rw [if_pos (by omega), Nat.add_sub_cancel_left]

theorem deliver_byte (h : o.linear = false) (byte : UInt8) :
    { o with
      bytes := if o.collect.isNone then o.bytes.put o.produced byte else o.bytes
      produced := o.produced + 1 } = o.deliver [byte] := by
  have hd : o.delivers = o.collect.isNone := by simp [delivers, h]
  have hput : o.bytes.put o.produced byte = o.bytes.copy o.produced 1 fun i => [byte].getD i 0 := by
    refine congrArg (fun get => (⟨get, o.bytes.len⟩ : Slice)) (funext fun i => ?_)
    by_cases hi : i = o.produced
    · rw [if_pos hi, if_pos (by omega), hi, Nat.sub_self]
      rfl
    · rw [if_neg hi, if_neg (by omega)]
  rw [deliver, hd, hput]
  rfl

end Output

/-! ### Writing to a ring -/

section Ring

variable {window size flushed : ℕ} {history : List UInt8}

/-- A run of bytes in pieces. -/
theorem writeRing_mirrors : ∀ (fuel : ℕ) (bytes : List UInt8) (ring : ℕ → UInt8) (flushed : ℕ)
    (history : List UInt8)
    (o : Output), bytes.length ≤ fuel → Mirrors window ring size flushed history →
    window ≤ size ∨ history.length + bytes.length ≤ size →
    let r := writeRing size fuel bytes ring history.length flushed o
    Appended window r.1 size r.2.1 flushed r.2.2.1 (history ++ bytes) o r.2.2.2 := by
  intro fuel
  induction fuel with
  | zero =>
    intro bytes ring flushed history o hlen h hfit
    obtain rfl : bytes = [] := List.length_eq_zero_iff.mp (by omega)
    refine ⟨by simp [writeRing], by rw [List.append_nil]; exact h, le_rfl, ?_⟩
    rw [List.drop_eq_nil_of_le (by simp [writeRing]), Output.deliver_nil]
    rfl
  | succ fuel ih =>
    intro bytes ring flushed history o hlen h hfit
    rw [writeRing]
    by_cases hz : bytes = []
    · subst hz
      rw [if_pos List.isEmpty_nil, List.append_nil]
      refine ⟨rfl, h, le_rfl, ?_⟩
      rw [List.drop_eq_nil_of_le (by simp), Output.deliver_nil]
    · rw [if_neg (by simpa using hz)]
      have hpos : 0 < bytes.length := List.length_pos_iff.mpr hz
      have hmod := Nat.mod_lt history.length h.power.pos
      simp only [h.power.historyIndex]
      generalize hp : min bytes.length (size - history.length % size) = piece
      have hlength : (bytes.take piece).length = piece := by rw [List.length_take]; omega
      have hwrites :
        Writes ring (fun i => if history.length % size ≤ i ∧ i < history.length % size + piece then
          bytes.getD (i - history.length % size) 0 else ring i) size (history.length % size)
              (bytes.take piece) := by
        refine ⟨piece, by rw [hlength], by rw [hlength]; omega, by omega, fun i hi => ?_,
          fun j hj => ?_⟩
        · rw [hlength] at hi
          dsimp only
          rw [if_pos (by omega), Nat.add_sub_cancel_left, List.getD_eq_getElem?_getD,
            List.getD_eq_getElem?_getD,
            List.getElem?_take_of_lt hi]
        · dsimp only
          rw [if_neg (by omega)]
      have hpiece := h.piece (by rw [← List.length_pos_iff, hlength]; omega) hwrites o
      rw [hlength] at hpiece
      dsimp only at hpiece ⊢
      generalize (if history.length % size + piece = size then
        flushRing _ size (history.length + piece) flushed o else (flushed, o)) = r at hpiece ⊢
      obtain ⟨-, hm, hle, ho⟩ := hpiece
      have hsum : (history ++ bytes.take piece).length = history.length + piece := by
        rw [List.length_append, hlength]
      have hih := ih (bytes.drop piece) _ r.1 _ r.2 (by rw [List.length_drop]; omega) hm
        (by rw [hsum, List.length_drop]; omega)
      have happend : history ++ bytes.take piece ++ bytes.drop piece = history ++ bytes := by
        rw [List.append_assoc, List.take_append_drop]
      rw [happend, hsum] at hih
      generalize writeRing size fuel (bytes.drop piece) _ (history.length + piece) r.1 r.2 =
        q at hih ⊢
      obtain ⟨i1, i2, i3, i4⟩ := hih
      refine ⟨i1, i2, by omega, ?_⟩
      rw [i4, ho, Output.deliver_append]
      congr 1
      rw [← happend]
      exact span_append hle i3 hm.flushed_le

/-- Growing an empty ring makes one. -/
theorem growRing_empty {memory memory' : Memory} {ring ring' : Buffer UInt8} {stop : ℕ}
    (h : ring.len = 0) (hw : WindowSize window)
    (hg : growRing memory ring window stop = .ok (memory', ring')) :
    ring'.len = 0 ∧ stop = 0 ∨ Mirrors window ring'.get ring'.len 0 [] ∧
    min stop window ≤ ring'.len := by
  obtain ⟨-, hlength, hmin, -⟩ := growRing_sound (.inl h) hw hg
  have hpos := hw.powerOfTwo.pos
  rcases hlength with h0 | hpower
  · exact .inl ⟨h0, by omega⟩
  · exact .inr ⟨⟨hpower, .inr (Nat.zero_le _), le_rfl, rfl, fun p hp => nomatch hp⟩, hmin⟩


/-- What is written and delivered at once. -/
theorem Mirrors.settle {ring ring' : ℕ → UInt8} {bytes : List UInt8}
    (h : Mirrors window ring size flushed history)
    (hfit : window ≤ size ∨ history.length + bytes.length ≤ size ∧ bytes ≠ [])
    (hw : Writes ring ring' size (history.length % size) bytes) :
    Mirrors window ring' size (history ++ bytes).length (history ++ bytes) := by
  have hreach : window ≤ size ∨ (history ++ bytes).length ≤ size := by
    rw [List.length_append]
    have := h.reach
    omega
  exact ⟨h.power, hreach, le_rfl, rfl, fun p hp hf => h.written hfit hw p hp (.inr (by omega))⟩

/-- Delivery of a slice that is the history only counts. -/
theorem flushRing_linear {o : Output} (h : o.linear = true) (ring : ℕ → UInt8)
    (len position flushed : ℕ) :
    (flushRing ring len position flushed o).2 =
    { o with produced := o.produced + (position - flushed) } := by
  have hd : o.delivers = false := by simp [Output.delivers, h]
  unfold flushRing
  dsimp only
  split
  · rw [hd]
    rfl
  · rename_i hz
    have : position - flushed = 0 := by omega
    rw [this]
    rfl

theorem historyIndex_of_lt {len position : ℕ} (h : position < len) :
    historyIndex len position = position := by
  unfold historyIndex
  split
  · exact Nat.mod_eq_of_lt h
  · rfl

theorem copyRing_zero (size distance fuel : ℕ) (ring : ℕ → UInt8) (position flushed : ℕ)
    (o : Output) :
    copyRing size distance fuel 0 ring position flushed o = (ring, position, flushed, o) := by
  cases fuel with
  | zero => rfl
  | succ fuel => rw [copyRing, if_pos rfl]

/-- A copy inside a slice is one piece. -/
theorem copyRing_slice {ring : ℕ → UInt8} {distance n : ℕ} {o : Output} (hlin : o.linear = true)
    (h0 : 0 < distance)
    (hd : distance ≤ history.length) (hfit : history.length + n ≤ size)
    (hring : ∀ p < history.length, ring p = history.getD p 0)
    (sring : ℕ → UInt8) (slen : ℕ) :
    let r := copyRing size distance n n ring history.length history.length o
    r.2.1 = history.length + n ∧ (∀ p < history.length + n,
      r.1 p = (history ++ copied distance history n).getD p 0) ∧
      (flushRing sring slen r.2.1 r.2.2.1 r.2.2.2).2 = { o with produced := o.produced + n } := by
  by_cases hn : n = 0
  · subst hn
    rw [copyRing_zero]
    refine ⟨rfl, fun p hp => ?_, ?_⟩
    · rw [getD_append_left (by omega), ← hring p (by omega)]
    · rw [flushRing_linear hlin, Nat.sub_self]
  · obtain ⟨k, rfl⟩ : ∃ k, n = k + 1 := ⟨n - 1, by omega⟩
    rw [copyRing_succ _ _ _ _ _ _ _ _ hn]
    simp only [historyIndex_of_lt (show history.length < size by omega),
      historyIndex_of_lt (show history.length - distance < size by omega)]
    have hpiece : min (min (k + 1) (size - history.length)) (size - (history.length - distance)) =
      k + 1 := by omega
    have hsources : Sources ring size (history.length - distance) distance history := fun i hi _ =>
      hring _ (by omega)
    have hwrites := pieceKernel_writes (n := k + 1) hsources h0 (by omega) hfit (by omega)
    rw [hpiece, Nat.sub_self, copyRing_zero]
    obtain ⟨written, -, -, -, hnew, hold⟩ := hwrites
    rw [length_copied] at hnew
    dsimp only
    refine ⟨rfl, fun p hp => ?_, ?_⟩
    · by_cases hlt : p < history.length
      · rw [getD_append_left hlt, hold p (.inl hlt), hring p hlt]
      · obtain ⟨i, rfl⟩ : ∃ i, p = history.length + i := ⟨p - history.length, by omega⟩
        rw [getD_append_add, hnew i (by omega)]
    · split
      · have hinner :=
          flushRing_linear hlin (pieceKernel ring size (history.length - distance) history.length
            (k + 1) distance)
          size (history.length + (k + 1)) history.length
        have hpos :=
          (flushRing_spec (pieceKernel ring size (history.length - distance) history.length
            (k + 1) distance)
          size (history.length + (k + 1)) history.length o (by omega)).1
        rw [hpos, hinner, Nat.add_sub_cancel_left,
          flushRing_linear (o := { o with produced := o.produced + (k + 1) }) hlin, Nat.sub_self]
        rfl
      · rw [flushRing_linear hlin, Nat.add_sub_cancel_left]

end Ring

/-! ### A machine's history -/

namespace Machine

variable {m m' : Machine} {window : ℕ} {history bytes : List UInt8}

/-- The machine's history is `history`, all of it delivered. -/
structure Holds (m : Machine) (window : ℕ) (history : List UInt8) : Prop where
  position : m.stream.position = history.length
  ring : m.output.linear = false → m.stream.ring.len = 0 ∧ history = [] ∨
    m.past.Mirrors window history
  slice : m.output.linear = true → m.output.collect = none ∧ m.output.produced = history.length ∧
    history.length ≤ m.output.bytes.len ∧ ∀ p < history.length, m.output.bytes.get p =
    history.getD p 0

/-- The turn of a stage that writes: history and output get `bytes`, of the stream only
the ring and the counts change. -/
structure Wrote (m m' : Machine) (window : ℕ) (history bytes : List UInt8) : Prop where
  holds : m'.Holds window (history ++ bytes)
  gave : m.output.Gave m'.output bytes
  stream : { m'.stream with memory := m.stream.memory, ring := m.stream.ring, position :=
    m.stream.position
                            remaining := m.stream.remaining } = m.stream

/-- A reached ring takes what is to be written. -/
theorem ensureRing_holds {s s' : Stream} {flushed stop : ℕ} (hw : WindowSize s.windowSize)
    (h : s.ring.len = 0 ∧ history = [] ∧ flushed = 0 ∨
      Mirrors s.windowSize s.ring.get s.ring.len flushed history)
    (hs : s.ensureRing stop = .ok s') :
    (s'.ring.len = 0 ∧ history = [] ∧ flushed = 0 ∧ stop = 0 ∨
      Mirrors s.windowSize s'.ring.get s'.ring.len flushed history ∧
      min stop s.windowSize ≤ s'.ring.len) ∧
      { s' with memory := s.memory, ring := s.ring } = s := by
  unfold Stream.ensureRing at hs
  cases hg : growRing s.memory s.ring s.windowSize stop with
  | error e => simp [hg] at hs
  | ok r =>
    obtain ⟨memory', ring'⟩ := r
    simp only [hg, Except.ok.injEq] at hs
    subst hs
    refine ⟨?_, rfl⟩
    rcases h with ⟨h0, rfl, rfl⟩ | hm
    · rcases growRing_empty h0 hw hg with ⟨h1, h2⟩ | h1
      · exact .inl ⟨h1, rfl, rfl, h2⟩
      · exact .inr h1
    · exact .inr (growRing_mirrors hm hw hg)

theorem Holds.past (h : m.Holds window history) (hlin : m.output.linear = false) :
    m.stream.ring.len = 0 ∧ history = [] ∧ m.stream.position = 0 ∨
      Mirrors window m.stream.ring.get m.stream.ring.len m.stream.position history := by
  rcases h.ring hlin with ⟨h0, rfl⟩ | hm
  · exact .inl ⟨h0, rfl, h.position⟩
  · exact .inr hm.2

/-- A delivered ring and its output. -/
theorem Wrote.of_ring {s : Stream} {o : Output} (h : m.Holds window history)
    (hlin : m.output.linear = false)
    (hp : (⟨s.ring, s.position, s.position, o⟩ : Past).Mirrors window (history ++ bytes))
    (hd : m.past.Delivers ⟨s.ring, s.position, s.position, o⟩ (history ++ bytes))
    (hs : { s with memory := m.stream.memory, ring := m.stream.ring, position := m.stream.position
                   remaining := m.stream.remaining } = m.stream) :
    m.Wrote { m with stream := s, output := o } window history bytes := by
  have hposition := hp.1
  have hout : o = m.output.deliver bytes := by
    have heq : o = m.output.deliver (((history ++ bytes).take s.position).drop m.stream.position) :=
      hd.2
    have hall : s.position = (history ++ bytes).length := hp.1
    rwa [hall, List.take_length, h.position, List.drop_left] at heq
  have hgave := Output.deliver_gave hlin bytes
  rw [← hout] at hgave
  refine ⟨⟨hposition, fun _ => .inr hp, fun htrue => ?_⟩, hgave, hs⟩
  rw [hgave.linear, hlin] at htrue
  cases htrue

/-- One decoded byte. -/
theorem emit_wrote (hw : WindowSize m.stream.windowSize) (h : m.Holds m.stream.windowSize history)
    (hroom : m.output.produced < m.output.capacity) {byte : UInt8} {s : Stream} {o : Output}
    (he : m.stream.emit m.output byte = .ok (s, o)) :
    m.Wrote { m with stream := s, output := o } m.stream.windowSize history [byte] := by
  have hposition := h.position
  have hpos := hw.powerOfTwo.pos
  unfold Stream.emit at he
  split at he
  · cases he
  · cases hlin : m.output.linear with
    | true =>
      obtain ⟨hcollect, hproduced, hlen, hget⟩ := h.slice hlin
      simp only [hlin, if_true, hcollect, Option.isNone_none, Except.ok.injEq, Prod.mk.injEq] at he
      obtain ⟨rfl, rfl⟩ := he
      have hput : ∀ i, (m.output.bytes.put m.output.produced byte).get i =
          if i = history.length then byte else m.output.bytes.get i :=
          fun i => by rw [← hproduced]; rfl
      simp only [Output.capacity, hcollect, Option.getD_none] at hroom
      refine ⟨⟨by simp [hposition], fun hf => ?_,
        fun _ => ⟨rfl, by simp [hproduced], ?_, fun p hp => ?_⟩⟩,
        ⟨rfl, hcollect.symm, hlin.symm, rfl, fun _ i hi => ?_⟩, rfl⟩
      · cases hf
      · rw [List.length_append]
        show history.length + 1 ≤ m.output.bytes.len
        omega
      · rw [List.length_append] at hp
        show (m.output.bytes.put m.output.produced byte).get p = _
        rw [hput]
        by_cases hlt : p < history.length
        · rw [if_neg (by omega), getD_append_left hlt, hget p hlt]
        · have hp' : p = history.length + 0 := by simp only [List.length_singleton] at hp; omega
          rw [if_pos (by omega), hp', getD_append_add]
          rfl
      · obtain rfl : i = 0 := by simpa using hi
        show (m.output.bytes.put m.output.produced byte).get _ = _
        rw [hput, if_pos (by omega)]
        rfl
    | false =>
      simp only [hlin, Bool.false_eq_true, if_false] at he
      cases hs : m.stream.ensureRing (m.stream.position + 1) with
      | error e => simp [hs] at he
      | ok s1 =>
        simp only [hs, Except.ok.injEq, Prod.mk.injEq] at he
        obtain ⟨rfl, rfl⟩ := he
        have hin : m.stream.ring.len = 0 ∧ history = [] ∧ m.stream.position = 0 ∨
          Mirrors m.stream.windowSize m.stream.ring.get m.stream.ring.len m.stream.position
          history := h.past hlin
        obtain ⟨hgrown, hsame⟩ := ensureRing_holds hw hin hs
        obtain ⟨hm, hmin⟩ := hgrown.resolve_left fun hz => by omega
        have hp1 : s1.position = m.stream.position := by
          have := congrArg Stream.position hsame
          exact this
        have hwrites : Writes s1.ring.get
          (s1.ring.set (s1.position % s1.ring.len) byte).get s1.ring.len
            (history.length % s1.ring.len) [byte] := by
          have hmod := Nat.mod_lt history.length hm.power.pos
          rw [hp1, hposition]
          refine ⟨1, le_rfl, by simp, by omega, fun i hi => ?_, fun j hj => ?_⟩
          · obtain rfl : i = 0 := by simpa using hi
            exact if_pos rfl
          · exact if_neg (by omega)
        have hsettled :=
          hm.settle (by simp only [List.length_singleton]; rw [hposition] at hmin; simp; omega)
            hwrites
        have hlength : (history ++ [byte]).length = s1.position + 1 := by
          rw [List.length_append, hp1, hposition]; rfl
        rw [hlength] at hsettled
        refine .of_ring h hlin ⟨hlength.symm, hsettled⟩ ⟨?_, ?_⟩ ?_
        · show m.stream.position ≤ s1.position + 1
          omega
        · show _ = m.output.deliver (((history ++ [byte]).take (s1.position + 1)).drop
            m.stream.position)
          rw [← hlength, List.take_length, hposition, List.drop_left]
          have hbyte := Output.deliver_byte hlin byte
          rw [hlin] at hbyte
          exact hbyte
        · rw [← hsame]

theorem emit_remaining {byte : UInt8} {s : Stream} {o : Output}
    (he : m.stream.emit m.output byte = .ok (s, o)) :
    s.remaining = m.stream.remaining - 1 := by
  unfold Stream.emit at he
  split at he
  · cases he
  · dsimp only at he
    split at he
    · cases he
    · rename_i s2 hs2
      simp only [Except.ok.injEq, Prod.mk.injEq] at he
      rw [← he.1]
      dsimp only
      split at hs2
      · cases hs2
        rfl
      · split at hs2
        · cases hs2
        · rename_i hgrow
          cases hs2
          unfold Stream.ensureRing at hgrow
          split at hgrow
          · cases hgrow
          · cases hgrow
            rfl

/-- A run of bytes. -/
theorem writeBytes_wrote (hw : WindowSize m.stream.windowSize)
    (h : m.Holds m.stream.windowSize history)
    (hroom : m.output.produced + bytes.length ≤ m.output.capacity)
    (hok : m.writeBytes bytes = .ok m') :
    m.Wrote m' m.stream.windowSize history bytes ∧ m'.input = m.input ∧
    m'.stream.remaining = m.stream.remaining := by
  have hposition := h.position
  have hpos := hw.powerOfTwo.pos
  unfold Machine.writeBytes at hok
  cases hlin : m.output.linear with
  | true =>
    obtain ⟨hcollect, hproduced, hlen, hget⟩ := h.slice hlin
    simp only [Output.capacity, hcollect, Option.getD_none] at hroom
    simp only [hlin, if_true] at hok
    cases hok
    have hflush := flushRing_linear
      (o := { m.output with
        linear := true, bytes := m.output.bytes.copy m.output.produced bytes.length fun i =>
          bytes.getD i 0 })
      rfl m.stream.ring.get m.stream.ring.len (m.stream.position + bytes.length) m.stream.position
    rw [hflush]
    refine ⟨⟨⟨by simp [hposition], fun hf => (by cases hf),
      fun _ => ⟨hcollect, ?_, ?_, fun p hp => ?_⟩⟩,
      ⟨?_, rfl, hlin.symm, rfl, fun _ i hi => ?_⟩, rfl⟩, rfl, rfl⟩
    · simp [hproduced]
    · rw [List.length_append]
      show history.length + bytes.length ≤ m.output.bytes.len
      omega
    · rw [List.length_append] at hp
      simp only [Slice.copy]
      by_cases hlt : p < history.length
      · rw [if_neg (by omega), getD_append_left hlt, hget p hlt]
      · obtain ⟨i, rfl⟩ : ∃ i, p = history.length + i := ⟨p - history.length, by omega⟩
        rw [if_pos (by omega), getD_append_add, hproduced, Nat.add_sub_cancel_left]
    · simp
    · simp only [Slice.copy]
      rw [if_pos (by omega), Nat.add_sub_cancel_left]
  | false =>
    simp only [hlin, Bool.false_eq_true, if_false] at hok
    cases hs : m.stream.ensureRing (m.stream.position + bytes.length) with
    | error e => simp [hs] at hok
    | ok s1 =>
      simp only [hs, Except.ok.injEq] at hok
      obtain ⟨hgrown, hsame⟩ := ensureRing_holds hw (h.past hlin) hs
      have hp1 : s1.position = m.stream.position := by
        have := congrArg Stream.position hsame
        exact this
      have hr1 : s1.remaining = m.stream.remaining := by
        have := congrArg Stream.remaining hsame
        exact this
      rcases hgrown with ⟨h0, rfl, hz, hstop⟩ | ⟨hm, hmin⟩
      · -- Nothing is written to a ring that is still empty.
        obtain rfl : bytes = [] := List.length_eq_zero_iff.mp (by omega)
        simp only [List.length_nil, writeRing, flushRing, Nat.sub_self, ne_eq, not_true_eq_false,
          if_false] at hok
        subst hok
        refine ⟨⟨⟨hp1.trans hz, fun _ => .inl ⟨h0, rfl⟩, fun hf => ?_⟩, .refl _, by rw [← hsame]⟩,
          rfl, hr1⟩
        rw [show m.output.linear = true from hf] at hlin
        cases hlin
      · have hrun :=
          writeRing_mirrors bytes.length bytes s1.ring.get m.stream.position history
            m.output le_rfl hm
            (by omega)
        subst hok
        rw [← hposition] at hrun
        rw [hp1]
        generalize writeRing s1.ring.len bytes.length bytes s1.ring.get m.stream.position
          m.stream.position m.output = r
          at hrun ⊢
        obtain ⟨hp, hd⟩ := Appended.flush (p := m.past) { s1.ring with get := r.1 } hrun rfl rfl
        exact ⟨.of_ring h hlin hp hd (by rw [← hsame]), rfl, hr1⟩

/-- A copy leaves the rest of the stream alone. -/
theorem copyBytes_stream {outEnd n : ℕ} (hok : m.copyBytes outEnd n = .ok m') :
    m'.input = m.input ∧ m'.stream.remaining = m.stream.remaining ∧
      { m'.stream with memory := m.stream.memory, ring := m.stream.ring, position :=
  m.stream.position
                       remaining := m.stream.remaining } = m.stream := by
  unfold Machine.copyBytes at hok
  dsimp only at hok
  split at hok
  · cases hok
    exact ⟨rfl, rfl, rfl⟩
  · cases hg : m.stream.repeatGrowing (m.stream.position + n) with
    | error e => simp [hg] at hok
    | ok grown =>
      rcases grown with _ | s
      · simp only [hg] at hok
        unfold Stream.ensureRing at hok
        cases hr : growRing m.stream.memory m.stream.ring m.stream.windowSize
          (m.stream.position + n) with
        | error e => simp [hr] at hok
        | ok r =>
          simp only [hr, Except.ok.injEq] at hok
          subst hok
          exact ⟨rfl, rfl, rfl⟩
      · simp only [hg, Except.ok.injEq] at hok
        subst hok
        unfold Stream.repeatGrowing at hg
        split at hg
        · cases hg
        · split at hg
          · cases hg
          · cases hg
            exact ⟨rfl, rfl, rfl⟩

/-- A copy from the history. -/
theorem copyBytes_wrote {outEnd n : ℕ} (hw : WindowSize m.stream.windowSize)
    (h : m.Holds m.stream.windowSize history)
    (h0 : 0 < m.stream.distance) (hd : m.stream.distance ≤
      min m.stream.position (m.stream.windowSize - 16))
    (hn : n ≤ m.stream.remaining) (hroom : m.output.produced + n ≤ outEnd)
    (hout : outEnd ≤ m.output.capacity)
    (hmax : m.stream.position + n ≤ u64Max) (hok : m.copyBytes outEnd n = .ok m') :
    m.Wrote m' m.stream.windowSize history (copied m.stream.distance history n) ∧
    m'.input = m.input ∧
      m'.stream.remaining = m.stream.remaining := by
  have hposition := h.position
  cases hlin : m.output.linear with
  | true =>
    obtain ⟨hcollect, hproduced, hlen, hget⟩ := h.slice hlin
    simp only [Output.capacity, hcollect, Option.getD_none] at hout
    unfold Machine.copyBytes at hok
    simp only [hlin, if_true] at hok
    cases hok
    have hfit : history.length + n ≤
        Output.historyEnd m.stream.position m.stream.remaining outEnd := by
      unfold Output.historyEnd
      omega
    obtain ⟨c1, c2, c3⟩ :=
      copyRing_slice hlin h0 (by omega) hfit hget m.stream.ring.get m.stream.ring.len
    rw [← hposition] at c1 c2 c3
    generalize copyRing _ m.stream.distance n n m.output.bytes.get m.stream.position
      m.stream.position m.output = r
      at c1 c2 c3 ⊢
    dsimp only
    rw [c3]
    refine ⟨⟨⟨by rw [List.length_append, length_copied, ← hposition]; exact c1, fun hf => ?_,
      fun _ => ⟨hcollect, ?_, ?_, fun p hp => ?_⟩⟩,
      ⟨by rw [length_copied], rfl, rfl, rfl, fun _ i hi => ?_⟩, rfl⟩, rfl, rfl⟩
    · have hf' : m.output.linear = false := hf
      rw [hlin] at hf'
      cases hf'
    · show m.output.produced + n = _
      rw [List.length_append, length_copied, hproduced]
    · show (history ++ copied m.stream.distance history n).length ≤ m.output.bytes.len
      rw [List.length_append, length_copied]
      omega
    · rw [List.length_append, length_copied, ← hposition] at hp
      exact c2 p hp
    · rw [length_copied] at hi
      show r.1 (m.output.produced + i) = _
      rw [c2 _ (by omega), hproduced, getD_append_add]
  | false =>
    have hm := (h.ring hlin).resolve_left fun hz => by
      have hnil := congrArg List.length hz.2
      rw [List.length_nil] at hnil
      omega
    obtain ⟨hp, hdel⟩ := copyBytes_mirrors hlin hw hm h0 hd hok
    obtain ⟨s1, s2, s3⟩ := copyBytes_stream hok
    rw [appendCopy_eq h0 (by omega)] at hp hdel
    have hm' : m' = { m with stream := m'.stream, output := m'.output } := by
      rw [← s1]
    have hwrote := Wrote.of_ring h hlin hp hdel s3
    exact ⟨hm' ▸ hwrote, s1, s2⟩

/-- A history that can still be reached is read back. -/
theorem Holds.read (h : m.Holds window history) {p : ℕ} (hp : p < history.length)
    (hr : history.length ≤ p + (window - 16)) :
    (m.stream.history m.output).1 (historyIndex (m.stream.history m.output).2 p) =
    history.getD p 0 := by
  unfold Stream.history
  cases hlin : m.output.linear with
  | true =>
    obtain ⟨-, -, hlen, hget⟩ := h.slice hlin
    simp only [if_true]
    rw [historyIndex_of_lt (by omega), hget p hp]
  | false =>
    have hm := (h.past hlin).resolve_left fun hz => by
      rw [hz.2.1] at hp
      cases hp
    simp only [Bool.false_eq_true, if_false]
    rw [hm.power.historyIndex, hm.recent p hp (.inr hr)]

/-- Only history and output count. -/
theorem Holds.congr (h : m.Holds window history) (hp : m'.stream.position = m.stream.position)
    (hr : m'.stream.ring = m.stream.ring) (ho : m'.output = m.output) :
    m'.Holds window history := by
  refine ⟨hp.trans h.position, fun hlin => ?_, fun hlin => ?_⟩
  · rw [ho] at hlin
    rw [hr]
    rcases h.ring hlin with hz | hm
    · exact .inl hz
    · refine .inr ⟨hp.trans hm.1, ?_⟩
      have := hm.2
      simp only [Machine.past] at this ⊢
      rwa [hr, hp]
  · rw [ho] at hlin ⊢
    exact h.slice hlin

/-- The next call goes on with the same ring. -/
theorem Holds.resume (h : m.Holds window history) (hlin : m.output.linear = false) {bits : Bits}
    {input : Input} {output : Output}
    (hl : output.linear = false) :
    (⟨{ m.stream with bits }, input, output⟩ : Machine).Holds window history := by
  refine ⟨h.position, fun _ => ?_, fun hf => ?_⟩
  · rcases h.ring hlin with hz | hm
    · exact .inl hz
    · exact .inr hm
  · rw [show output.linear = true from hf] at hl
    cases hl

end Machine

/-! ### The bytes of a reference -/

section Bytes

variable {distance : ℕ} {history : List UInt8}

/-- A copy goes on where it stopped. -/
theorem copied_add (h0 : 0 < distance) (hd : distance ≤ history.length) (k n : ℕ) :
    copied distance history (k + n) =
      copied distance history k ++ copied distance (history ++ copied distance history k) n := by
  have h1 := appendCopy_eq h0 hd (k + n)
  rw [appendCopy_add, appendCopy_eq h0 hd k, appendCopy_eq h0 (by rw [List.length_append]; omega),
    List.append_assoc] at h1
  exact (List.append_cancel_left h1).symm

/-- What a distance cannot reach does not matter. -/
theorem copied_append_left (before : List UInt8) (h0 : 0 < distance)
    (hd : distance ≤ history.length) (n : ℕ) :
    copied distance (before ++ history) n = copied distance history n := by
  apply List.map_congr_left
  intro i _
  have hi := Nat.mod_lt i h0
  have hindex : (before ++ history).length - distance + i % distance =
      before.length + (history.length - distance + i % distance) := by
      rw [List.length_append]; omega
  rw [hindex, getD_append_add]

/-- Bytes that are the next ones of a copy, one by one. -/
theorem copied_extend {k : ℕ} {bytes : List UInt8}
    (h : ∀ i < bytes.length, bytes.getD i 0 =
      history.getD (history.length - distance + (k + i) % distance) 0) :
    copied distance history k ++ bytes = copied distance history (k + bytes.length) := by
  apply List.ext_getElem?
  intro i
  by_cases hi : i < k + bytes.length
  · have hright : (copied distance history (k + bytes.length))[i]? =
        some (history.getD (history.length - distance + i % distance) 0) := by
      simp [copied, hi]
    rw [hright]
    by_cases hk : i < k
    · rw [List.getElem?_append_left (by simpa using hk)]
      simp [copied, hk]
    · have hb := h (i - k) (by omega)
      rw [List.getElem?_append_right (by simp; omega), length_copied]
      have hlt : i - k < bytes.length := by omega
      rw [List.getElem?_eq_getElem hlt]
      rw [List.getD_eq_getElem?_getD, List.getElem?_eq_getElem hlt, Option.getD_some,
        Nat.add_sub_cancel' (by omega)] at hb
      rw [hb]
  · rw [List.getElem?_eq_none (by simp; omega), List.getElem?_eq_none (by simp; omega)]

end Bytes

/-- The sequence a reference copies from: the prefix, then the history the window reaches. -/
def Env.beyond (env : Env) (history : List UInt8) (limit : ℕ) : List UInt8 :=
  env.prefixBytes ++ history.drop (history.length - min history.length limit)

theorem Env.length_beyond (env : Env) (history : List UInt8) (limit : ℕ) :
    (env.beyond history limit).length = env.prefixLen + min history.length limit := by
  rw [beyond, List.length_append, env.prefixBytes_length, List.length_drop]
  omega

/-- A run of the prefix is the prefix from its offset on. -/
theorem Env.prefixRun_eq (env : Env) (offset : ℕ) :
    env.prefixRun offset <+: env.prefixBytes.drop offset := by
  unfold prefixRun prefixBytes
  cases env.dictionary with
  | none => exact List.nil_prefix
  | some d => exact d.prefixRun_prefix offset

/-! ### The stages of a reference -/

namespace Machine

variable {m m' : Machine} {window : ℕ} {history bytes : List UInt8}

/-- The saved stretch is the history the window reached when the reference began. -/
def Saved (m : Machine) (history : List UInt8) (limit count : ℕ) : Prop :=
  m.stream.prefixHistory.len = min count (min history.length limit) ∧
    ∀ j < m.stream.prefixHistory.len,
      m.stream.prefixHistory.get j = history.getD (history.length - min history.length limit + j) 0

/-- Where in the copy of `n` bytes from `distance` back, `k` of them emitted, a stage stands. -/
inductive Stands (env : Env) (history : List UInt8) (limit distance n k : ℕ) (m : Machine) : Prop
  | prefixRun {offset q start : ℕ} (hs : m.stream.stage = .prefixRun offset start)
      (hstart : start + distance = env.prefixLen + min history.length limit) (hle : start ≤ offset)
      (hend : offset ≤ env.prefixLen) (hk : k = q * distance + (offset - start))
      (hq : distance ≤ limit → q = 0)
      (hsaved : limit < distance → m.Saved history limit (n - (env.prefixLen - start)))
  | prefixHistory {offset q start : ℕ} (hs : m.stream.stage = .prefixHistory offset start)
      (hstart : start + distance = env.prefixLen + min history.length limit)
      (hle : start ≤ env.prefixLen)
      (hfar : limit < distance) (hend : offset ≤ m.stream.prefixHistory.len)
      (hk : k = q * distance + (env.prefixLen - start) + offset)
      (hsaved : m.Saved history limit (n - (env.prefixLen - start)))
  | copy (hs : m.stream.stage = .copy) (hnear : distance ≤ limit)
      (hk : distance ≤ history.length + k)
  | command (hs : m.stream.stage = .command) (hk : k = n)

/-- What holds throughout a reference of which `k` bytes are emitted. -/
structure Referring (env : Env) (history : List UInt8) (limit distance n : ℕ) (cache : Cache)
    (k : ℕ) (m : Machine) :
    Prop where
  holds : m.Holds m.stream.windowSize (history ++ copied distance (env.beyond history limit) k)
  distance_eq : m.stream.distance = distance
  window : WindowSize m.stream.windowSize
  limit_eq : m.stream.maxBackward = limit ∧ limit = m.stream.windowSize - 16
  copy : m.stream.copy + k = n
  left : m.stream.copy ≤ m.stream.remaining
  cache_eq : m.stream.cache = cache
  stands : m.Stands env history limit distance n k

section Referring

variable {env : Env} {limit distance n k : ℕ} {cache : Cache}

/-- A turn that only moves on. -/
theorem Referring.goto (h : m.Referring env history limit distance n cache k) {stage : Stage}
    (hs : Stands env history limit distance n k { m with stream := { m.stream with stage } }) :
    ({ m with stream := { m.stream with stage } } : Machine).Referring env history limit
    distance n cache k :=
  ⟨h.holds.congr rfl rfl rfl, h.distance_eq, h.window, h.limit_eq, h.copy, h.left, h.cache_eq, hs⟩

/-- A turn that emits the next bytes. -/
theorem Referring.wrote (h : m.Referring env history limit distance n cache k)
    (hw : m.Wrote m' m.stream.windowSize (history ++ copied distance (env.beyond history limit) k)
      bytes)
    (hbytes : copied distance (env.beyond history limit) k ++ bytes =
      copied distance (env.beyond history limit) (k + bytes.length))
    (hn : bytes.length ≤ m.stream.copy) (stage : Stage) {remaining : ℕ}
    (hr : remaining = m.stream.remaining - bytes.length)
    (hs : Stands env history limit distance n (k + bytes.length)
      { m' with stream := { m'.stream with copy := m.stream.copy - bytes.length, remaining, stage }
        }) :
    ({ m' with stream := { m'.stream with copy := m.stream.copy - bytes.length, remaining, stage }
      } : Machine).Referring
      env history limit distance n cache (k + bytes.length) := by
  have hholds := hw.holds
  rw [List.append_assoc, hbytes] at hholds
  have hd : m'.stream.distance = m.stream.distance := by
    have := congrArg Stream.distance hw.stream
    exact this
  have hwin : m'.stream.windowSize = m.stream.windowSize := by
    have := congrArg Stream.windowSize hw.stream
    exact this
  have hback : m'.stream.maxBackward = m.stream.maxBackward := by
    have := congrArg Stream.maxBackward hw.stream
    exact this
  have hcache : m'.stream.cache = m.stream.cache := by
    have := congrArg Stream.cache hw.stream
    exact this
  have hleft := h.left
  have hcopy := h.copy
  refine ⟨?_, hd.trans h.distance_eq, ?_, ?_, ?_, ?_, hcache.trans h.cache_eq, hs⟩
  · rw [hwin]
    exact hholds.congr rfl rfl rfl
  · rw [hwin]
    exact h.window
  · rw [hwin, hback]
    exact h.limit_eq
  · dsimp only
    omega
  · dsimp only
    omega

/-- A turn emits the next bytes of the copy, if any. -/
def Emits (env : Env) (history : List UInt8) (limit distance n : ℕ) (cache : Cache) (k : ℕ)
    (m m' : Machine) : Prop :=
  ∃ bytes, copied distance (env.beyond history limit) k ++ bytes =
      copied distance (env.beyond history limit) (k + bytes.length) ∧
    m'.Referring env history limit distance n cache (k + bytes.length) ∧
    m.output.Gave m'.output bytes

theorem Emits.nothing (h : m'.Referring env history limit distance n cache k)
    (ho : m'.output = m.output) :
    m.Emits env history limit distance n cache k m' :=
  ⟨[], by simp, h, by rw [ho]; exact .refl _⟩

/-- Waiting for room changes nothing. -/
theorem Referring.whenReady (h : m.Referring env history limit distance n cache k)
    {next : Machine → Flow × Machine} {flow : Flow}
    (hr : m.whenReady next = (flow, m')) (hflow : flow = .next ∨ flow = .stop .output)
    (hnext : m.output.produced < m.output.fastEnd → next m = (flow, m') →
      m.Emits env history limit distance n cache k m') :
    m.Emits env history limit distance n cache k m' := by
  unfold Machine.whenReady at hr
  cases hready : m.output.ready with
  | error e =>
    simp only [hready, Machine.fail, Prod.mk.injEq] at hr
    rw [← hr.1] at hflow
    rcases hflow with hf | hf <;> cases hf
  | ok room =>
    cases room with
    | false =>
      simp only [hready, Machine.stop, Prod.mk.injEq] at hr
      obtain ⟨-, rfl⟩ := hr
      exact .nothing h rfl
    | true =>
      simp only [hready] at hr
      exact hnext (Output.ready_true hready) hr

theorem fastEnd_le_capacity (o : Output) : o.fastEnd ≤ o.capacity := min_le_right _ _

/-- The prefix, one run of a segment at a time. -/
theorem prefixRun_emits (h : m.Referring env history limit distance n cache k) {offset q start : ℕ}
    (hstart : start + distance = env.prefixLen + min history.length limit)
    (hle : start ≤ offset) (hend : offset ≤ env.prefixLen)
    (hk : k = q * distance + (offset - start))
    (hq : distance ≤ limit → q = 0)
    (hsaved : limit < distance → m.Saved history limit (n - (env.prefixLen - start)))
    (hbeyond : min history.length limit < distance) {flow : Flow}
    (hround : m.prefixRun env m.output.fastEnd offset start = (flow, m'))
    (hflow : flow = .next ∨ flow = .stop .output) :
    m.Emits env history limit distance n cache k m' := by
  have hcopy := h.copy
  unfold Machine.prefixRun at hround
  by_cases hz : m.stream.copy = 0
  · rw [if_pos hz] at hround
    cases hround
    exact .nothing (h.goto (.command rfl (by omega))) rfl
  · rw [if_neg hz] at hround
    by_cases hp : offset = env.prefixLen
    · subst hp
      rw [if_pos rfl, h.distance_eq, h.limit_eq.1] at hround
      cases hround
      by_cases hnear : distance ≤ limit
      · rw [if_pos hnear]
        have hq0 := hq hnear
        subst hq0
        exact .nothing (h.goto (.copy rfl hnear (by omega))) rfl
      · rw [if_neg hnear]
        refine .nothing (h.goto (.prefixHistory rfl hstart hle (by omega) (Nat.zero_le _) (q := q)
          ?_ (hsaved (by omega)))) rfl
        exact hk
    · rw [if_neg hp] at hround
      refine h.whenReady hround hflow fun hroom hround => ?_
      by_cases hempty : (env.prefixRun offset).isEmpty
      · rw [if_pos hempty] at hround
        cases hround
        rcases hflow with hf | hf <;> cases hf
      · rw [if_neg hempty] at hround
        have hprefix := env.prefixRun_eq offset
        have hrunlen : (env.prefixRun offset).length ≤ env.prefixLen - offset := by
          have := hprefix.length_le
          rwa [List.length_drop, env.prefixBytes_length] at this
        generalize hcount : min (min (env.prefixRun offset).length m.stream.copy)
          (m.output.fastEnd - m.output.produced) = count
          at hround
        dsimp only at hround
        split at hround
        · cases hround
          rcases hflow with hf | hf <;> cases hf
        · have hlength : ((env.prefixRun offset).take count).length = count := by
            rw [List.length_take]; omega
          cases hw : m.writeBytes ((env.prefixRun offset).take count) with
          | error e =>
            simp only [hw, Machine.fail, Prod.mk.injEq] at hround
            rw [← hround.1] at hflow
            rcases hflow with hf | hf <;> cases hf
          | ok m1 =>
            simp only [hw, Machine.next, Prod.mk.injEq] at hround
            obtain ⟨-, rfl⟩ := hround
            obtain ⟨hwrote, -, hrem⟩ := writeBytes_wrote h.window h.holds
              (by rw [hlength]; have := fastEnd_le_capacity m.output; omega) hw
            have hcopy1 : m1.stream.copy = m.stream.copy := by
              have := congrArg Stream.copy hwrote.stream
              exact this
            have hsaved1 : m1.stream.prefixHistory = m.stream.prefixHistory := by
              have := congrArg Stream.prefixHistory hwrote.stream
              exact this
            have hbytes : copied distance (env.beyond history limit) k ++
              (env.prefixRun offset).take count =
                copied distance (env.beyond history limit)
                (k + ((env.prefixRun offset).take count).length) := by
              refine copied_extend fun i hi => ?_
              rw [hlength] at hi
              have hmod : (k + i) % distance = offset - start + i := by
                rw [hk, Nat.add_assoc, Nat.mul_comm, Nat.mul_add_mod, Nat.mod_eq_of_lt (by omega)]
              have hindex : env.prefixLen + min history.length limit - distance +
                (offset - start + i) = offset + i := by omega
              rw [hmod, env.length_beyond, hindex, Env.beyond,
                getD_append_left (by rw [env.prefixBytes_length]; omega)]
              obtain ⟨rest, hrest⟩ := hprefix
              have hget : (env.prefixBytes.drop offset).getD i 0 =
                  env.prefixBytes.getD (offset + i) 0 := by
                rw [List.getD_eq_getElem?_getD, List.getD_eq_getElem?_getD, List.getElem?_drop]
              rw [← hget, ← hrest, getD_append_left (by omega), List.getD_eq_getElem?_getD,
                List.getD_eq_getElem?_getD,
                List.getElem?_take_of_lt hi]
            refine ⟨_, hbytes, ?_, hwrote.gave⟩
            rw [hcopy1, hrem]
            have hnext := h.wrote hwrote hbytes (by rw [hlength]; omega)
              (.prefixRun (offset + count) start) rfl ?_
            · rw [hlength] at hnext ⊢
              exact hnext
            · rw [hlength]
              refine .prefixRun rfl hstart (by omega) (by omega) (q := q) (by rw [hk]; omega) hq
                fun hfar => ?_
              unfold Machine.Saved
              dsimp only
              rw [hsaved1]
              exact hsaved hfar

/-- The saved history, byte by byte, and then the prefix again. -/
theorem prefixHistory_emits (h : m.Referring env history limit distance n cache k)
    {offset q start : ℕ}
    (hstart : start + distance = env.prefixLen + min history.length limit)
    (hle : start ≤ env.prefixLen) (hfar : limit < distance)
    (hend : offset ≤ m.stream.prefixHistory.len)
    (hk : k = q * distance + (env.prefixLen - start) + offset)
    (hsaved : m.Saved history limit (n - (env.prefixLen - start)))
    {flow : Flow} (hround : m.prefixHistory offset start = (flow, m'))
    (hflow : flow = .next ∨ flow = .stop .output) :
    m.Emits env history limit distance n cache k m' := by
  have hcopy := h.copy
  obtain ⟨hlen, hget⟩ := hsaved
  unfold Machine.prefixHistory at hround
  by_cases hz : m.stream.copy = 0
  · rw [if_pos hz] at hround
    cases hround
    exact .nothing (h.goto (.command rfl (by omega))) rfl
  · rw [if_neg hz] at hround
    by_cases hp : offset = m.stream.prefixHistory.len
    · subst hp
      rw [if_pos rfl] at hround
      cases hround
      -- What is left over is there only if all the history was saved.
      have hall : m.stream.prefixHistory.len = min history.length limit := by
        by_contra hne
        have hq : q = 0 := by
          by_contra hq
          have := Nat.mul_le_mul_right distance (Nat.one_le_iff_ne_zero.mpr hq)
          omega
        subst hq
        omega
      refine .nothing (h.goto (.prefixRun rfl hstart le_rfl hle (q := q + 1) ?_ (fun hnear => by
        omega) fun _ => ⟨hlen, hget⟩)) rfl
      rw [Nat.add_mul, Nat.one_mul]
      omega
    · rw [if_neg hp] at hround
      refine h.whenReady hround hflow fun hroom hround => ?_
      unfold Machine.emit at hround
      cases he : m.stream.emit m.output (m.stream.prefixHistory.get offset) with
      | error e =>
        simp only [he, Machine.fail, Prod.mk.injEq] at hround
        rw [← hround.1] at hflow
        rcases hflow with hf | hf <;> cases hf
      | ok r =>
        obtain ⟨s1, o1⟩ := r
        simp only [he, Machine.next, Prod.mk.injEq] at hround
        obtain ⟨-, rfl⟩ := hround
        have hwrote := emit_wrote h.window h.holds (hroom.trans_le (fastEnd_le_capacity _)) he
        have hcopy1 : s1.copy = m.stream.copy := by
          have := congrArg Stream.copy hwrote.stream
          exact this
        have hsaved1 : s1.prefixHistory = m.stream.prefixHistory := by
          have := congrArg Stream.prefixHistory hwrote.stream
          exact this
        have hrem := emit_remaining he
        have hbytes : copied distance (env.beyond history limit) k ++
          [m.stream.prefixHistory.get offset] =
            copied distance (env.beyond history limit)
            (k + [m.stream.prefixHistory.get offset].length) := by
          refine copied_extend fun i hi => ?_
          obtain rfl : i = 0 := by simpa using hi
          have hmod : (k + 0) % distance = env.prefixLen - start + offset := by
            rw [hk, Nat.add_zero, Nat.add_assoc, Nat.mul_comm, Nat.mul_add_mod,
              Nat.mod_eq_of_lt (by omega)]
          have hindex : env.prefixLen + min history.length limit - distance +
            (env.prefixLen - start + offset) =
              env.prefixBytes.length + offset := by rw [env.prefixBytes_length]; omega
          rw [hmod, env.length_beyond, hindex, Env.beyond, getD_append_add]
          show m.stream.prefixHistory.get offset = _
          rw [hget _ (by omega), List.getD_eq_getElem?_getD, List.getD_eq_getElem?_getD,
            List.getElem?_drop]
        refine ⟨_, hbytes, ?_, hwrote.gave⟩
        have hnext := h.wrote hwrote hbytes (by rw [List.length_singleton]; omega)
          (.prefixHistory (offset + 1) start) hrem ?_
        · rw [← hcopy1] at hnext
          exact hnext
        · refine .prefixHistory rfl hstart hle hfar ?_ (q := q) (by rw [hk]; rfl) ?_
          · dsimp only
            rw [hsaved1]
            omega
          · unfold Machine.Saved
            dsimp only
            rw [hsaved1]
            exact ⟨hlen, hget⟩

/-- The history, while the distance fits the window. -/
theorem copy_emits (h : m.Referring env history limit distance n cache k) (h0 : 0 < distance)
    (hd : distance ≤ (env.beyond history limit).length) (hs : m.stream.stage = .copy)
    (hnear : distance ≤ limit)
    (hbeyond : min history.length limit < distance) (hreach : distance ≤ history.length + k)
    {flow : Flow} (hround : m.copy m.output.fastEnd = (flow, m'))
    (hflow : flow = .next ∨ flow = .stop .output) :
    m.Emits env history limit distance n cache k m' := by
  have hcopy := h.copy
  have hleft := h.left
  unfold Machine.copy at hround
  by_cases hz : m.stream.copy = 0
  · rw [if_pos hz] at hround
    cases hround
    exact .nothing (h.goto (.command rfl (by omega))) rfl
  · rw [if_neg hz] at hround
    refine h.whenReady hround hflow fun hroom hround => ?_
    generalize hcount : min m.stream.copy (m.output.fastEnd - m.output.produced) = count at hround
    dsimp only at hround
    split at hround
    · cases hround
      rcases hflow with hf | hf <;> cases hf
    · rename_i hmax
      cases hc : m.copyBytes m.output.fastEnd count with
      | error e =>
        simp only [hc, Machine.fail, Prod.mk.injEq] at hround
        rw [← hround.1] at hflow
        rcases hflow with hf | hf <;> cases hf
      | ok m1 =>
        simp only [hc] at hround
        have hposition := h.holds.position
        rw [List.length_append, length_copied] at hposition
        obtain ⟨hwrote, -, hrem⟩ :=
          copyBytes_wrote h.window h.holds (by rw [h.distance_eq]; exact h0)
            (by rw [h.distance_eq]; have := h.limit_eq; omega) (by omega) (by omega)
            (fastEnd_le_capacity _) (by omega) hc
        rw [h.distance_eq] at hwrote
        have hcopy1 : m1.stream.copy = m.stream.copy := by
          have := congrArg Stream.copy hwrote.stream
          exact this
        have hstage1 : m1.stream.stage = .copy := by
          have := congrArg Stream.stage hwrote.stream
          exact this.trans hs
        -- The prefix ends before the last `distance` bytes.
        have hbytes : copied distance (env.beyond history limit) k ++
            copied distance (history ++ copied distance (env.beyond history limit) k) count =
            copied distance (env.beyond history limit)
              (k + (copied distance (history ++ copied distance (env.beyond history limit) k)
                count).length) := by
          have hwhole : env.beyond history limit = env.prefixBytes ++ history := by
            have hzero : history.length - min history.length limit = 0 := by omega
            rw [Env.beyond, hzero, List.drop_zero]
          have hsplit : env.beyond history limit ++ copied distance (env.beyond history limit) k =
              env.prefixBytes ++ (history ++ copied distance (env.beyond history limit) k) := by
            rw [← List.append_assoc, ← hwhole]
          rw [length_copied, copied_add h0 hd, hsplit,
            copied_append_left env.prefixBytes h0
            (by rw [List.length_append, length_copied]; exact hreach)]
        have hlength :
            (copied distance (history ++ copied distance (env.beyond history limit) k)
              count).length = count :=
          length_copied _ _ _
        have hnext : ∀ stage, Stands env history limit distance n (k + count)
            { m1 with stream := { m1.stream with
                copy := m.stream.copy - count, remaining := m.stream.remaining - count, stage } } →
            m.Emits env history limit distance n cache k { m1 with stream := { m1.stream with
                copy := m.stream.copy - count, remaining := m.stream.remaining - count, stage } } :=
                  fun stage hstands => by
          refine ⟨_, hbytes, ?_, hwrote.gave⟩
          have :=
            h.wrote hwrote hbytes (by rw [hlength]; omega) stage rfl
              (by rw [hlength]; exact hstands)
          rw [hlength] at this ⊢
          exact this
        by_cases hmore : m.stream.copy - count = 0
        · simp only [hcopy1, hmore, ne_eq, not_true_eq_false, if_false] at hround
          cases hround
          have := hnext .command (.command rfl (by omega))
          rw [hmore] at this
          rw [hrem]
          exact this
        · simp only [hcopy1, hmore, ne_eq, not_false_eq_true, if_true] at hround
          have hstop : m' = { m1 with stream := { m1.stream with
              copy := m.stream.copy - count, remaining := m1.stream.remaining - count } } := by
            split at hround
            · cases hround
              rcases hflow with hf | hf <;> cases hf
            · cases hround
              rfl
          have := hnext .copy (.copy rfl hnear (by omega))
          rw [← hstage1] at this
          rw [hstop, hrem]
          exact this

/-- A turn of the machine while the reference lasts. -/
theorem Referring.turn (h : m.Referring env history limit distance n cache k) (h0 : 0 < distance)
    (hd : distance ≤ (env.beyond history limit).length)
    (hbeyond : min history.length limit < distance)
    (hstage : m.stream.stage ≠ .command) {fuel : ℕ} {flow : Flow}
    (hround : m.round env fuel m.output.fastEnd = some (flow, m'))
    (hflow : flow = .next ∨ flow = .stop .output) :
    m.Emits env history limit distance n cache k m' := by
  unfold Machine.round at hround
  cases h.stands with
  | prefixRun hs hstart hle hend hk hq hsaved =>
    rw [hs] at hround
    exact prefixRun_emits h hstart hle hend hk hq hsaved hbeyond (Option.some.inj hround) hflow
  | prefixHistory hs hstart hle hfar hend hk hsaved =>
    rw [hs] at hround
    exact prefixHistory_emits h hstart hle hfar hend hk hsaved (Option.some.inj hround) hflow
  | copy hs hnear hk =>
    rw [hs] at hround
    exact copy_emits h h0 hd hs hnear hbeyond hk (Option.some.inj hround) hflow
  | command hs hk => exact absurd hs hstage

/-- The history a far reference will read after it is overwritten. -/
theorem savePrefixHistory_saved (h : m.Holds m.stream.windowSize history)
    (hlimit : m.stream.maxBackward = m.stream.windowSize - 16) {count : ℕ} {s : Stream}
    (hs : m.savePrefixHistory (min m.stream.position m.stream.maxBackward)
      (min count (min m.stream.position m.stream.maxBackward)) = .ok s) :
    Saved { m with stream := s } history m.stream.maxBackward count ∧
      { s with memory := m.stream.memory, prefixHistory := m.stream.prefixHistory } = m.stream := by
  have hposition := h.position
  unfold Machine.savePrefixHistory at hs
  dsimp only at hs
  cases hr : m.stream.memory.reserve 1 m.stream.prefixHistory.clear
      (min count (min m.stream.position m.stream.maxBackward)) with
  | error e => simp [hr] at hs
  | ok r =>
    obtain ⟨memory', saved⟩ := r
    simp only [hr, Except.ok.injEq] at hs
    obtain ⟨-, -, hlen, -⟩ := Memory.reserve_ok hr
    have hlen0 : saved.len = 0 := hlen
    subst hs
    refine ⟨⟨?_, fun j hj => ?_⟩, rfl⟩
    · show saved.len + min count (min m.stream.position m.stream.maxBackward) = _
      rw [hlen0, Nat.zero_add, hposition]
    · have hj' : j < min count (min m.stream.position m.stream.maxBackward) := by
        have hjlt : j < saved.len + min count (min m.stream.position m.stream.maxBackward) := hj
        omega
      have hread := h.read (p := m.stream.position - min m.stream.position m.stream.maxBackward + j)
        (by omega) (by omega)
      simp only [Buffer.extend, hlen0]
      rw [if_pos (by omega), Nat.sub_zero, ← hposition]
      exact hread

/-- The reference begins. -/
theorem resolve_refers (hw : WindowSize m.stream.windowSize)
    (hlimit : m.stream.maxBackward = m.stream.windowSize - 16)
    (h : m.Holds m.stream.windowSize history) (hcopy : m.stream.copy ≤ m.stream.remaining)
    (hbeyond : min history.length m.stream.maxBackward < m.stream.distance)
    (hd : m.stream.distance ≤ min history.length m.stream.maxBackward + env.prefixLen) {flow : Flow}
    (hround : m.resolve env = (flow, m')) (hflow : flow = .next ∨ flow = .stop .output) :
    m'.Referring env history m.stream.maxBackward m.stream.distance m.stream.copy
      (if m.stream.distanceCode = 0 then m.stream.cache else m.stream.cache.push m.stream.distance)
      0 ∧
      m'.output = m.output := by
  have hposition := h.position
  have hcond : min m.stream.position m.stream.maxBackward < m.stream.distance ∧
      m.stream.distance - min m.stream.position m.stream.maxBackward ≤ env.prefixLen := by omega
  unfold Machine.resolve at hround
  dsimp only at hround
  rw [if_pos hcond, if_neg (by omega)] at hround
  generalize hoff :
    env.prefixLen - (m.stream.distance - min m.stream.position m.stream.maxBackward) =
    offset at hround
  have hcross : env.prefixLen - offset =
    m.stream.distance - min m.stream.position m.stream.maxBackward := by omega
  rw [hcross] at hround
  -- Whether the history was saved, the stage moves on with it.
  have hbegin : ∀ s : Stream,
    { s with memory := m.stream.memory, prefixHistory := m.stream.prefixHistory } = m.stream →
      (m.stream.maxBackward < m.stream.distance →
        Saved { m with stream := s } history m.stream.maxBackward
        (m.stream.copy - (m.stream.distance - min m.stream.position m.stream.maxBackward))) →
      Referring env history m.stream.maxBackward m.stream.distance m.stream.copy
        (if m.stream.distanceCode = 0 then m.stream.cache
          else m.stream.cache.push m.stream.distance) 0
        { m with stream := { pushDistance s with stage := .prefixRun offset offset } } :=
          fun s hs hsaved => by
    have hcache : (pushDistance s).cache =
        if m.stream.distanceCode = 0 then m.stream.cache
        else m.stream.cache.push m.stream.distance := by
      rw [← hs]
      unfold pushDistance
      by_cases hcode : s.distanceCode = 0
      · rw [if_neg (by simpa using hcode), if_pos hcode]
      · rw [if_pos hcode, if_neg hcode]
    have hpush : { pushDistance s with cache := s.cache } = s := by
      unfold pushDistance
      split <;> rfl
    generalize pushDistance s = s' at hcache hpush ⊢
    have hsame :
      { s' with memory := m.stream.memory, prefixHistory := m.stream.prefixHistory, cache :=
      m.stream.cache } =
        m.stream := by
      rw [← hs, ← hpush]
    have hring : s'.ring = m.stream.ring := by
      have := congrArg Stream.ring hsame
      exact this
    have hpos' : s'.position = m.stream.position := by
      have := congrArg Stream.position hsame
      exact this
    have hdist : s'.distance = m.stream.distance := by
      have := congrArg Stream.distance hsame
      exact this
    have hwin : s'.windowSize = m.stream.windowSize := by
      have := congrArg Stream.windowSize hsame
      exact this
    have hback : s'.maxBackward = m.stream.maxBackward := by
      have := congrArg Stream.maxBackward hsame
      exact this
    have hcopy' : s'.copy = m.stream.copy := by
      have := congrArg Stream.copy hsame
      exact this
    have hrem : s'.remaining = m.stream.remaining := by
      have := congrArg Stream.remaining hsame
      exact this
    have hhist : s'.prefixHistory = s.prefixHistory := by
      have := congrArg Stream.prefixHistory hpush
      exact this
    have hempty : copied m.stream.distance (env.beyond history m.stream.maxBackward) 0 = [] := rfl
    refine ⟨?_, hdist, by rw [hwin]; exact hw, ⟨hback, by rw [hwin]; exact hlimit⟩, hcopy', by
      dsimp only; rw [hcopy', hrem]; exact hcopy, hcache, ?_⟩
    · dsimp only
      rw [hempty, List.append_nil, hwin]
      exact h.congr hpos' hring rfl
    · refine .prefixRun rfl (by omega) le_rfl (by omega) (q := 0) (by omega) (fun _ => rfl)
        fun hfar => ?_
      rw [hcross]
      unfold Saved at hsaved ⊢
      dsimp only at hsaved ⊢
      rw [hhist]
      exact hsaved hfar
  by_cases hfar : m.stream.maxBackward < m.stream.distance
  · rw [if_pos hfar] at hround
    cases hs : m.savePrefixHistory (min m.stream.position m.stream.maxBackward)
        (min (m.stream.copy - (m.stream.distance - min m.stream.position m.stream.maxBackward))
          (min m.stream.position m.stream.maxBackward)) with
    | error e =>
      simp only [hs, Machine.fail, Prod.mk.injEq] at hround
      rw [← hround.1] at hflow
      rcases hflow with hf | hf <;> cases hf
    | ok s =>
      simp only [hs, Machine.next, Prod.mk.injEq] at hround
      obtain ⟨-, rfl⟩ := hround
      obtain ⟨hsaved, hsame⟩ := savePrefixHistory_saved h hlimit hs
      exact ⟨hbegin s hsame fun _ => hsaved, rfl⟩
  · rw [if_neg hfar] at hround
    simp only [Machine.next, Prod.mk.injEq] at hround
    obtain ⟨-, rfl⟩ := hround
    exact ⟨hbegin m.stream rfl fun hf => absurd hf hfar, rfl⟩

end Referring

/-! ### A reference over any pauses -/

/-- Turns of the machine up to the next command, and what they write to the caller's
slices. A call that stops because its output is full is followed by one with another. -/
inductive PrefixRun (env : Env) : Machine → List UInt8 → Machine → Prop
  | refl (m : Machine) : PrefixRun env m [] m
  | turn {m m' m'' : Machine} {fuel : ℕ} {bytes : List UInt8} (hstage : m.stream.stage ≠ .command)
      (hround : m.round env fuel m.output.fastEnd = some (.next, m'))
      (hrest : PrefixRun env m' bytes m'') :
      PrefixRun env m (m.output.took m'.output ++ bytes) m''
  | pause {m m' m'' : Machine} {fuel : ℕ} {bits : Bits} {input : Input} {output : Output}
      {bytes : List UInt8}
      (hstage : m.stream.stage ≠ .command) (hring : m.output.linear = false)
      (hround : m.round env fuel m.output.fastEnd = some (.stop .output, m'))
      (hlin : output.linear = false)
      (hcollect : output.collect.isNone = m.output.collect.isNone)
      (hrest : PrefixRun env ⟨{ m'.stream with bits }, input, output⟩ bytes m'') :
      PrefixRun env m (m.output.took m'.output ++ bytes) m''

namespace Referring

variable {env : Env} {history bytes : List UInt8} {limit distance n k : ℕ} {cache : Cache}
    {m m' : Machine}

/-- The next call goes on with the reference. -/
theorem resume (h : m.Referring env history limit distance n cache k)
    (hring : m.output.linear = false) {bits : Bits}
    {input : Input} {output : Output} (hlin : output.linear = false) :
    (⟨{ m.stream with bits }, input, output⟩ : Machine).Referring env history limit distance
    n cache k := by
  refine ⟨h.holds.resume hring hlin, h.distance_eq, h.window, h.limit_eq, h.copy, h.left,
    h.cache_eq, ?_⟩
  cases h.stands with
  | prefixRun hs hstart hle hend hk hq hsaved => exact .prefixRun hs hstart hle hend hk hq hsaved
  | prefixHistory hs hstart hle hfar hend hk hsaved =>
      exact .prefixHistory hs hstart hle hfar hend hk hsaved
  | copy hs hnear hk => exact .copy hs hnear hk
  | command hs hk => exact .command hs hk

/-- Over a run, what is emitted goes on with the copy. -/
theorem run (hrun : PrefixRun env m bytes m') (h0 : 0 < distance)
    (hd : distance ≤ (env.beyond history limit).length)
    (hbeyond : min history.length limit < distance) :
    ∀ {k : ℕ}, m.Referring env history limit distance n cache k →
    ∃ emitted, copied distance (env.beyond history limit) k ++ emitted =
        copied distance (env.beyond history limit) (k + emitted.length) ∧
      m'.Referring env history limit distance n cache (k + emitted.length) ∧
      (m.output.collect = none → bytes = emitted) := by
  induction hrun with
  | refl m => exact fun {k} h => ⟨[], by simp, h, fun _ => rfl⟩
  | @turn m m' m'' fuel bytes hstage hround hrest ih =>
    intro k h
    obtain ⟨b, hb, hr, hg⟩ := h.turn h0 hd hbeyond hstage hround (.inl rfl)
    obtain ⟨b', hb', hr', hc'⟩ := ih hr
    refine ⟨b ++ b', ?_, ?_, fun hc => ?_⟩
    · rw [← List.append_assoc, hb, hb', List.length_append, Nat.add_assoc]
    · rw [List.length_append, ← Nat.add_assoc]
      exact hr'
    · rw [hg.took hc, hc' (hg.collect.trans hc)]
  | @pause m m' m'' fuel bits input output bytes hstage hring hround hlin hcollect hrest ih =>
    intro k h
    obtain ⟨b, hb, hr, hg⟩ := h.turn h0 hd hbeyond hstage hround (.inr rfl)
    obtain ⟨b', hb', hr', hc'⟩ := ih (hr.resume (hg.linear.trans hring) hlin)
    refine ⟨b ++ b', ?_, ?_, fun hc => ?_⟩
    · rw [← List.append_assoc, hb, hb', List.length_append, Nat.add_assoc]
    · rw [List.length_append, ← Nat.add_assoc]
      exact hr'
    · rw [hc, Option.isNone_none] at hcollect
      rw [hg.took hc, hc' (Option.isNone_iff_eq_none.mp hcollect)]

/-- At the next command the whole copy is emitted. -/
theorem finished (h : m.Referring env history limit distance n cache k)
    (hs : m.stream.stage = .command) : k = n := by
  cases h.stands with
  | prefixRun hs' => rw [hs] at hs'; cases hs'
  | prefixHistory hs' => rw [hs] at hs'; cases hs'
  | copy hs' => rw [hs] at hs'; cases hs'
  | command _ hk => exact hk

end Referring

/-- **A reference into the prefix is an LZ77 copy.** Over any pauses, what the stages emit
is the copy at that distance over the prefix, the history the window reaches and the
bytes emitted so far; the cache gains the distance unless its code is zero. -/
theorem prefix_reference {env : Env} {m m' : Machine} {history received : List UInt8}
    (hw : WindowSize m.stream.windowSize)
    (hlimit : m.stream.maxBackward = m.stream.windowSize - 16)
    (h : m.Holds m.stream.windowSize history)
    (hstage : m.stream.stage = .resolve) (hcopy : m.stream.copy ≤ m.stream.remaining)
    (hbeyond : min m.stream.position m.stream.maxBackward < m.stream.distance)
    (hd : m.stream.distance ≤ min m.stream.position m.stream.maxBackward + env.prefixLen)
    (hrun : PrefixRun env m received m') :
    ∃ emitted, appendCopy m.stream.distance
    (env.beyond history m.stream.maxBackward) emitted.length =
        env.beyond history m.stream.maxBackward ++ emitted ∧
      m'.stream.copy + emitted.length = m.stream.copy ∧
      m'.Holds m'.stream.windowSize (history ++ emitted) ∧
      (m.output.collect = none → received = emitted) ∧
      (m'.stream.stage = .command → emitted.length = m.stream.copy) ∧
      (m'.stream.stage ≠ .resolve → m'.stream.cache =
        if m.stream.distanceCode = 0 then m.stream.cache
        else m.stream.cache.push m.stream.distance) := by
  rw [h.position] at hbeyond hd
  have h0 : 0 < m.stream.distance := by omega
  have hlength : m.stream.distance ≤ (env.beyond history m.stream.maxBackward).length := by
    rw [env.length_beyond]
    omega
  have hstart : ∀ {fuel : ℕ} {flow : Flow} {m1 : Machine}, m.round env fuel m.output.fastEnd =
    some (flow, m1) →
      m.resolve env = (flow, m1) := fun hround => by
    unfold Machine.round at hround
    rw [hstage] at hround
    exact Option.some.inj hround
  -- From the first turn on the reference is under way.
  have hgo : ∀ {m1 : Machine} {bytes : List UInt8}, m1.output.collect.isNone =
    m.output.collect.isNone →
      Referring env history m.stream.maxBackward m.stream.distance m.stream.copy
        (if m.stream.distanceCode = 0 then m.stream.cache
          else m.stream.cache.push m.stream.distance) 0 m1 →
      PrefixRun env m1 bytes m' → ∃ emitted,
        appendCopy m.stream.distance (env.beyond history m.stream.maxBackward) emitted.length =
            env.beyond history m.stream.maxBackward ++ emitted ∧
          m'.stream.copy + emitted.length = m.stream.copy ∧
          m'.Holds m'.stream.windowSize (history ++ emitted) ∧
          (m.output.collect = none → bytes = emitted) ∧
          (m'.stream.stage = .command → emitted.length = m.stream.copy) ∧
          (m'.stream.stage ≠ .resolve → m'.stream.cache =
            if m.stream.distanceCode = 0 then m.stream.cache
            else m.stream.cache.push m.stream.distance) :=
    fun {m1 bytes} hcollect hr hrest => by
    obtain ⟨emitted, he, hr', hc⟩ := Referring.run hrest h0 hlength hbeyond hr
    have hcopied : emitted = copied m.stream.distance (env.beyond history m.stream.maxBackward)
        emitted.length := by
      rw [Nat.zero_add] at he
      exact he
    rw [Nat.zero_add] at hr'
    refine ⟨emitted, ?_, hr'.copy, ?_, fun hnone => hc ?_, hr'.finished, fun _ => hr'.cache_eq⟩
    · rw [appendCopy_eq h0 hlength, ← hcopied]
    · have := hr'.holds
      rwa [← hcopied] at this
    · rw [hnone, Option.isNone_none] at hcollect
      exact Option.isNone_iff_eq_none.mp hcollect
  cases hrun with
  | refl =>
    refine ⟨[], by simp [appendCopy], rfl, by rw [List.append_nil]; exact h, fun _ => rfl,
      fun hc => ?_, fun hn => absurd hstage hn⟩
    rw [hstage] at hc
    cases hc
  | turn _ hround hrest =>
    obtain ⟨hr, ho⟩ := resolve_refers hw hlimit h hcopy hbeyond hd (hstart hround) (.inl rfl)
    obtain ⟨emitted, hall⟩ := hgo (by rw [ho]) hr hrest
    refine ⟨emitted, ?_⟩
    have htook : m.output.took m.output = [] := by simp [Output.took]
    rw [ho, htook, List.nil_append]
    exact hall
  | @pause _ m1 _ fuel bits input output bytes _ hring hround hlin hcollect hrest =>
    obtain ⟨hr, ho⟩ := resolve_refers hw hlimit h hcopy hbeyond hd (hstart hround) (.inr rfl)
    obtain ⟨emitted, hall⟩ := hgo hcollect (hr.resume (by rw [ho]; exact hring) hlin) hrest
    refine ⟨emitted, ?_⟩
    have htook : m.output.took m.output = [] := by simp [Output.took]
    rw [ho, htook, List.nil_append]
    exact hall

/-- `k` turns that go on. -/
def turns (env : Env) : ℕ → Machine → Option (List UInt8 × Machine)
  | 0, m => some ([], m)
  | k + 1, m =>
    if m.stream.stage = .command then none
    else match m.round env 0 m.output.fastEnd with
    | some (.next, m') => (turns env k m').map fun r => (m.output.took m'.output ++ r.1, r.2)
    | _ => none

theorem PrefixRun.of_turns {env : Env} : ∀ {k : ℕ} {m m' : Machine} {bytes : List UInt8},
    turns env k m = some (bytes, m') → PrefixRun env m bytes m' := by
  intro k
  induction k with
  | zero =>
    intro m m' bytes h
    cases h
    exact .refl m
  | succ k ih =>
    intro m m' bytes h
    rw [turns] at h
    split at h
    · cases h
    · rename_i hstage
      split at h
      · rename_i m1 hround
        obtain ⟨⟨rest, m2⟩, hk, hr⟩ := Option.map_eq_some_iff.mp h
        cases hr
        exact .turn hstage hround (ih hk)
      · cases h

/-- A reference two bytes before the end of a prefix of three bytes in two segments, from
behind more bytes than the window reaches. -/
def atResolve : Machine where
  stream :=
    { ring := ⟨fun i => UInt8.ofNat i, 64, 64⟩, stage := .resolve, windowSize := 64
      maxBackward := 48, position := 50, distance := 50, distanceCode := 5, copy := 6
      remaining := 6 }
  input := .new [] 0 none
  output :=
    { bytes := ⟨fun _ => 0, 100⟩, collect := none, linear := false,
      produced := 50, totalBefore := 0, limit := none
      exact := .unknown }

def withPrefix : Env := ⟨⟨fun _ => 0, 0⟩, {}, some ⟨[[101, 102], [], [103]], none⟩⟩

theorem atResolve_holds : atResolve.Holds 64 ((List.range 50).map UInt8.ofNat) where
  position := rfl
  ring _ := .inr
    { left := rfl
      right :=
        { power := ⟨6, rfl⟩, reach := .inl le_rfl, flushed_le := le_rfl, lap := rfl
          recent := by
            have h : ∀ p < 50, UInt8.ofNat (p % 64) =
                ((List.range 50).map UInt8.ofNat).getD p 0 := by
              decide
            exact fun p hp _ => h p hp } }
  slice h := by cases h

/-- The two bytes of the prefix, and four of the history behind it that the window no longer
reaches: the snapshot has them. -/
theorem prefix_reference_segments :
    ∃ m', PrefixRun withPrefix atResolve [102, 103, 2, 3, 4, 5] m' ∧
    m'.stream.stage = .command ∧ m'.stream.cache = atResolve.stream.cache.push 50 ∧
    m'.Holds m'.stream.windowSize
      ((List.range 50).map UInt8.ofNat ++ [102, 103, 2, 3, 4, 5]) := by
  have hrun : (turns withPrefix 9 atResolve).map (fun r => (r.1, r.2.stream.stage)) =
      some ([102, 103, 2, 3, 4, 5], .command) := by decide +kernel
  obtain ⟨⟨bytes, m'⟩, hturns, hr⟩ := Option.map_eq_some_iff.mp hrun
  simp only [Prod.mk.injEq] at hr
  obtain ⟨rfl, hstage⟩ := hr
  obtain ⟨emitted, -, -, hholds, hreceived, -, hcache⟩ :=
    prefix_reference ⟨6, by decide, rfl⟩ rfl atResolve_holds rfl
      (by decide) (by decide) (by decide) (.of_turns hturns)
  refine ⟨m', .of_turns hturns, hstage, ?_, ?_⟩
  · rw [hcache (by rw [hstage]; decide)]
    rfl
  · rw [← hreceived rfl] at hholds
    exact hholds

end Machine
end Mbrotli
