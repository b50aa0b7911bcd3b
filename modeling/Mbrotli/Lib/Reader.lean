/-
# Bit readers that ask for their input on demand

`Reader ε α` is a program that looks at the bits ahead (`peek`), accepts some
of them (`drop`), reads a symbol of a self-delimiting code (`sym`), skips to a
byte boundary (`align`) and returns or fails. `Reader.run` is what it does on a
byte list of which the first `B` bytes can be had: it ends, fails, or stalls for
want of a further byte, and never looks at anything else.

An `Atomic` reader accepts exactly the bits it has asked for, and only once it
has them all, so a stalled one can be run again from its start. Its outcome
depends only on the bytes to be had (`run_congr`), more bytes never change an
outcome (`run_mono`), and what ends a stall is a byte that was missing
(`lt_of_run_stall`).
-/
import Mbrotli.Lib.BitString

namespace Mbrotli

open BitString

/-- A program over the bits ahead. A symbol's code maps the bits ahead to the
symbol and its width; `need` is a hint to the machine that runs the program. -/
inductive Reader (ε α : Type) where
  | pure (a : α)
  | fail (e : ε)
  | peek (n : ℕ) (k : ℕ → Reader ε α)
  | drop (n : ℕ) (k : Reader ε α)
  | sym (need : Option ℕ) (f : ℕ → ℕ × ℕ) (k : ℕ → Reader ε α)
  | align (e : ε) (k : Reader ε α)

namespace Reader

variable {ε α β γ : Type}

def bind : Reader ε α → (α → Reader ε β) → Reader ε β
  | .pure a, g => g a
  | .fail e, _ => .fail e
  | .peek n k, g => .peek n fun v => (k v).bind g
  | .drop n k, g => .drop n (k.bind g)
  | .sym need f k, g => .sym need f fun v => (k v).bind g
  | .align e k, g => .align e (k.bind g)

instance : Monad (Reader ε) where
  pure := .pure
  bind := .bind

@[simp] theorem bind_eq (m : Reader ε α) (g : α → Reader ε β) : m >>= g = m.bind g := rfl
@[simp] theorem pure_eq (a : α) : (pure a : Reader ε α) = .pure a := rfl

theorem bind_pure (m : Reader ε α) : m.bind .pure = m := by
  induction m with
  | pure a => rfl
  | fail e => rfl
  | peek n k ih => simp [bind, ih]
  | drop n k ih => simp [bind, ih]
  | sym need f k ih => simp [bind, ih]
  | align e k ih => simp [bind, ih]

theorem bind_assoc (m : Reader ε α) (g : α → Reader ε β) (h : β → Reader ε γ) :
    (m.bind g).bind h = m.bind fun a => (g a).bind h := by
  induction m with
  | pure a => rfl
  | fail e => rfl
  | peek n k ih => simp [bind, ih]
  | drop n k ih => simp [bind, ih]
  | sym need f k ih => simp [bind, ih]
  | align e k ih => simp [bind, ih]

/-- Reads a field of `n` bits. -/
def read (n : ℕ) : Reader ε ℕ := .peek n fun v => .drop n (.pure v)

/-- Looks at `n` bits. -/
def look (n : ℕ) : Reader ε ℕ := .peek n .pure

/-- Accepts `n` bits. -/
def skip (n : ℕ) : Reader ε Unit := .drop n (.pure ())

/-- Skips zero bits to the next byte boundary. -/
def toByte (e : ε) : Reader ε Unit := .align e (.pure ())

/-- Reads one symbol of a code. -/
def symbol (need : Option ℕ) (f : ℕ → ℕ × ℕ) : Reader ε ℕ := .sym need f .pure

/-- Fails on a bad value. -/
def throw (e : ε) : Reader ε α := .fail e

/-- Every value the reader can return. -/
def Returns (P : α → Prop) : Reader ε α → Prop
  | .pure a => P a
  | .fail _ => True
  | .peek _ k => ∀ v, (k v).Returns P
  | .drop _ k => k.Returns P
  | .sym _ _ k => ∀ v, (k v).Returns P
  | .align _ k => k.Returns P

theorem returns_of_forall {P : α → Prop} (h : ∀ a, P a) (m : Reader ε α) : m.Returns P := by
  induction m with
  | pure a => exact h a
  | fail e => trivial
  | peek n k ih => exact ih
  | drop n k ih => exact ih
  | sym need f k ih => exact ih
  | align e k ih => exact ih

theorem Returns.bind {P : β → Prop} {Q : α → Prop} {m : Reader ε α} (hm : m.Returns Q)
    {g : α → Reader ε β} (hg : ∀ a, Q a → (g a).Returns P) : (m.bind g).Returns P := by
  induction m with
  | pure a => exact hg a hm
  | fail e => trivial
  | peek n k ih => exact fun v => ih v (hm v)
  | drop n k ih => exact ih hm
  | sym need f k ih => exact fun v => ih v (hm v)
  | align e k ih => exact ih hm

theorem Returns.mono {P Q : α → Prop} (h : ∀ a, Q a → P a) {m : Reader ε α} (hm : m.Returns Q) :
    m.Returns P := by
  induction m with
  | pure a => exact h a hm
  | fail e => trivial
  | peek n k ih => exact fun v => ih v (hm v)
  | drop n k ih => exact ih hm
  | sym need f k ih => exact fun v => ih v (hm v)
  | align e k ih => exact ih hm

/-- Every value the reader returns on some input: fields are as wide as they were asked
for, and symbols are the code's. -/
def Gives (P : α → Prop) : Reader ε α → Prop
  | .pure a => P a
  | .fail _ => True
  | .peek n k => ∀ v, v < 2 ^ n → (k v).Gives P
  | .drop _ k => k.Gives P
  | .sym _ f k => ∀ v, (k (f v).1).Gives P
  | .align _ k => k.Gives P

theorem Gives.bind {P : β → Prop} {Q : α → Prop} {m : Reader ε α} (hm : m.Gives Q)
    {g : α → Reader ε β} (hg : ∀ a, Q a → (g a).Gives P) : (m.bind g).Gives P := by
  induction m with
  | pure a => exact hg a hm
  | fail e => trivial
  | peek n k ih => exact fun v hv => ih v (hm v hv)
  | drop n k ih => exact ih hm
  | sym need f k ih => exact fun v => ih _ (hm v)
  | align e k ih => exact ih hm

theorem Gives.mono {P Q : α → Prop} (h : ∀ a, Q a → P a) {m : Reader ε α} (hm : m.Gives Q) :
    m.Gives P :=
  bind_pure m ▸ hm.bind fun a ha => h a ha

/-- A field is as wide as it was asked for. -/
theorem gives_read (n : ℕ) : (read n : Reader ε ℕ).Gives fun v => v < 2 ^ n := fun _ hv => hv

theorem gives_symbol (need : Option ℕ) {f : ℕ → ℕ × ℕ} {P : ℕ → Prop} (h : ∀ v, P (f v).1) :
    (symbol need f : Reader ε ℕ).Gives P := h

/-- How a reader ends: where it stands, or that it lacks a byte. -/
inductive Result (ε α : Type) where
  | done (a : α) (p : ℕ)
  | failed (e : ε) (p : ℕ)
  | stall

/-- Bits from `p` to the next byte boundary. -/
def padding (p : ℕ) : ℕ := (8 - p % 8) % 8

/-- The reader at bit `p` of `I`, of which the first `B` bytes can be had. -/
def run (I : List UInt8) (B : ℕ) : Reader ε α → ℕ → Result ε α
  | .pure a, p => .done a p
  | .fail e, p => .failed e p
  | .peek n k, p => if p + n ≤ 8 * B then run I B (k (bitsAt I p n)) p else .stall
  | .drop n k, p => run I B k (p + n)
  | .sym _ f k, p =>
    if p + (f (bitsAt I p 15)).2 ≤ 8 * B then
      run I B (k (f (bitsAt I p 15)).1) (p + (f (bitsAt I p 15)).2)
    else .stall
  | .align e k, p =>
    if bitsAt I p (padding p) ≠ 0 then .failed e p else run I B k (p + padding p)

theorem run_bind (I : List UInt8) (B : ℕ) (m : Reader ε α) (g : α → Reader ε β) (p : ℕ) :
    (m.bind g).run I B p = match m.run I B p with
      | .done a q => (g a).run I B q
      | .failed e q => .failed e q
      | .stall => .stall := by
  induction m generalizing p with
  | pure a => rfl
  | fail e => rfl
  | peek n k ih => simp only [bind, run]; split <;> [exact ih _ _; rfl]
  | drop n k ih => exact ih _
  | sym need f k ih => simp only [bind, run]; split <;> [exact ih _ _; rfl]
  | align e k ih => simp only [bind, run]; split <;> [rfl; exact ih _]

/-- The code's symbol and its width are decided by that many bits, at most 15. -/
def PrefixLaw (f : ℕ → ℕ × ℕ) : Prop :=
  ∀ v, (f v).2 ≤ 15 ∧ ∀ w, w % 2 ^ (f v).2 = v % 2 ^ (f v).2 → f w = f v

/-- Asks for no further byte. -/
def Settled : Reader ε α → Prop
  | .pure _ | .fail _ => True
  | .align _ k => k.Settled
  | _ => False

/-- The widest field a 64-bit reservoir filled by whole bytes can hold. -/
def fieldMax : ℕ := 56

/-- After asking for `seen` bits ahead, accepts exactly those and settles. A
code's hint is no less than its widest symbol. -/
def Atomic : ℕ → Reader ε α → Prop
  | seen, .pure _ => seen = 0
  | _, .fail _ => True
  | seen, .peek n k => n ≤ fieldMax ∧ ∀ v, v < 2 ^ n → (k v).Atomic (max seen n)
  | seen, .drop n k => n = seen ∧ k.Settled
  | seen, .sym need f k => seen = 0 ∧ (PrefixLaw f ∧ ∀ w ∈ need, ∀ v, (f v).2 ≤ w) ∧
      ∀ v, (k v).Settled
  | seen, .align _ k => seen = 0 ∧ k.Settled

theorem Settled.bind {m : Reader ε α} (hm : m.Settled) {g : α → Reader ε β}
    (hg : ∀ a, (g a).Settled) : (m.bind g).Settled := by
  induction m with
  | pure a => exact hg a
  | fail e => trivial
  | align e k ih => exact ih hm
  | peek => exact hm.elim
  | drop => exact hm.elim
  | sym => exact hm.elim

theorem Atomic.bind {m : Reader ε α} {seen : ℕ} (hm : m.Atomic seen) {g : α → Reader ε β}
    (hg : ∀ a, (g a).Settled) (h0 : ∀ a, (g a).Atomic 0) : (m.bind g).Atomic seen := by
  induction m generalizing seen with
  | pure a => cases (show seen = 0 from hm); exact h0 a
  | fail e => trivial
  | peek n k ih => exact ⟨hm.1, fun v hv => ih v (hm.2 v hv)⟩
  | drop n k ih => exact ⟨hm.1, hm.2.bind hg⟩
  | sym need f k ih => exact ⟨hm.1, hm.2.1, fun v => (hm.2.2 v).bind hg⟩
  | align e k ih => exact ⟨hm.1, hm.2.bind hg⟩

theorem atomic_read {n : ℕ} (h : n ≤ fieldMax) : (read n : Reader ε ℕ).Atomic 0 :=
  ⟨h, fun _ _ => ⟨by simp, trivial⟩⟩

theorem atomic_symbol {f : ℕ → ℕ × ℕ} (h : PrefixLaw f) {need : Option ℕ}
    (hn : ∀ w ∈ need, ∀ v, (f v).2 ≤ w) : (symbol need f : Reader ε ℕ).Atomic 0 :=
  ⟨rfl, ⟨h, hn⟩, fun _ => trivial⟩

theorem padding_le (p : ℕ) {B : ℕ} (h : p ≤ 8 * B) : p + padding p ≤ 8 * B := by
  unfold padding; omega

theorem Settled.run_ne_stall {m : Reader ε α} (hm : m.Settled) (I : List UInt8) (B p : ℕ) :
    m.run I B p ≠ .stall := by
  induction m generalizing p with
  | pure a => simp [run]
  | fail e => simp [run]
  | align e k ih => simp only [run]; split <;> [simp; exact ih hm _]
  | peek => exact hm.elim
  | drop => exact hm.elim
  | sym => exact hm.elim

theorem Settled.run_le {m : Reader ε α} (hm : m.Settled) {I : List UInt8} {B p q : ℕ}
    (hp : p ≤ 8 * B) {a : α} (h : m.run I B p = .done a q) : p ≤ q ∧ q ≤ 8 * B := by
  induction m generalizing p with
  | pure a => cases h; exact ⟨le_rfl, hp⟩
  | fail e => cases h
  | align e k ih =>
    simp only [run] at h
    split at h
    · cases h
    · have := ih hm (padding_le p hp) h
      exact ⟨by omega, this.2⟩
  | peek => exact hm.elim
  | drop => exact hm.elim
  | sym => exact hm.elim

/-- A settled reader looks only at bits before the byte boundary it stands at. -/
theorem Settled.run_congr {m : Reader ε α} (hm : m.Settled) {I J : List UInt8} {B C p : ℕ}
    (hB : p ≤ 8 * B) (hIJ : ∀ i, i < 8 * B → bitAt I i = bitAt J i) :
    m.run I B p = m.run J C p := by
  induction m generalizing p with
  | pure a => rfl
  | fail e => rfl
  | align e k ih =>
    have hb : bitsAt I p (padding p) = bitsAt J p (padding p) :=
      bitsAt_congr fun i _ h2 => hIJ i (lt_of_lt_of_le h2 (padding_le p hB))
    simp only [run, hb]
    split
    · rfl
    · exact ih hm (padding_le p hB)
  | peek => exact hm.elim
  | drop => exact hm.elim
  | sym => exact hm.elim

/-- With more to be had, an outcome stays what it was. -/
theorem run_mono {m : Reader ε α} {seen : ℕ} (hm : m.Atomic seen) {I J : List UInt8} {B C p : ℕ}
    (hBC : B ≤ C) (hs : p + seen ≤ 8 * B) (hIJ : ∀ i, i < 8 * B → bitAt I i = bitAt J i)
    (h : m.run I B p ≠ .stall) : m.run J C p = m.run I B p := by
  induction m generalizing seen with
  | pure a => rfl
  | fail e => rfl
  | peek n k ih =>
    simp only [run] at h ⊢
    by_cases hn : p + n ≤ 8 * B
    · rw [if_pos hn] at h ⊢
      rw [if_pos (by omega), ← bitsAt_congr fun i _ h2 => hIJ i (lt_of_lt_of_le h2 hn)]
      exact ih _ (hm.2 _ (bitsAt_lt _ _ _)) (by omega) h
    · exact absurd (if_neg hn) h
  | drop n k ih =>
    obtain ⟨rfl, hk⟩ := hm
    exact (hk.run_congr hs hIJ).symm
  | sym need f k ih =>
    obtain ⟨-, ⟨hf, -⟩, hk⟩ := hm
    simp only [run] at h ⊢
    by_cases hn : p + (f (bitsAt I p 15)).2 ≤ 8 * B
    · have hw := (hf (bitsAt I p 15)).1
      have hfJ : f (bitsAt J p 15) = f (bitsAt I p 15) := by
        refine (hf _).2 _ ?_
        rw [bitsAt_mod J p 15 _ hw, bitsAt_mod I p 15 _ hw]
        exact (bitsAt_congr fun i _ h2 => hIJ i (lt_of_lt_of_le h2 hn)).symm
      rw [if_pos hn, hfJ, if_pos (by omega)]
      exact ((hk _).run_congr hn hIJ).symm
    · exact absurd (if_neg hn) h
  | align e k ih =>
    obtain ⟨rfl, hk⟩ := hm
    have := Settled.run_congr (m := .align e k) hk (C := C) (by omega : p ≤ 8 * B) hIJ
    exact this.symm

/-- Only the bits to be had decide the outcome. -/
theorem run_congr {m : Reader ε α} {seen : ℕ} (hm : m.Atomic seen) {I J : List UInt8} {B p : ℕ}
    (hs : p + seen ≤ 8 * B) (hIJ : ∀ i, i < 8 * B → bitAt I i = bitAt J i) :
    m.run I B p = m.run J B p := by
  by_cases h : m.run I B p = .stall
  · by_cases h' : m.run J B p = .stall
    · rw [h, h']
    · exact run_mono hm le_rfl hs (fun i hi => (hIJ i hi).symm) h'
  · exact (run_mono hm le_rfl hs hIJ h).symm

/-- An atomic reader that ends has moved forward, over all it had asked for. -/
theorem Atomic.run_le {m : Reader ε α} {seen : ℕ} (hm : m.Atomic seen) {I : List UInt8} {B p q : ℕ}
    (hs : p + seen ≤ 8 * B) {a : α} (h : m.run I B p = .done a q) : p + seen ≤ q ∧ q ≤ 8 * B := by
  induction m generalizing seen with
  | pure a => cases h; cases (show seen = 0 from hm); omega
  | fail e => cases h
  | peek n k ih =>
    simp only [run] at h
    by_cases hn : p + n ≤ 8 * B
    · rw [if_pos hn] at h
      have := ih _ (hm.2 _ (bitsAt_lt _ _ _)) (by omega) h
      omega
    · rw [if_neg hn] at h; cases h
  | drop n k ih => obtain ⟨rfl, hk⟩ := hm; exact hk.run_le hs h
  | sym need f k ih =>
    obtain ⟨rfl, -, hk⟩ := hm
    simp only [run] at h
    by_cases hn : p + (f (bitsAt I p 15)).2 ≤ 8 * B
    · rw [if_pos hn] at h
      have := (hk _).run_le hn h
      omega
    · rw [if_neg hn] at h; cases h
  | align e k ih =>
    obtain ⟨rfl, hk⟩ := hm
    exact Settled.run_le (m := .align e k) hk (by omega) h

/-- What ends a stall is a byte that was missing. -/
theorem lt_of_run_stall {m : Reader ε α} {seen : ℕ} (hm : m.Atomic seen) {I : List UInt8}
    {B C p q : ℕ} (hs : p + seen ≤ 8 * B) (hst : m.run I B p = .stall) {a : α}
    (h : m.run I C p = .done a q) (hC : B ≤ C) : 8 * B < q := by
  induction m generalizing seen with
  | pure a => cases hst
  | fail e => cases hst
  | peek n k ih =>
    simp only [run] at h hst
    by_cases hnC : p + n ≤ 8 * C
    · rw [if_pos hnC] at h
      by_cases hn : p + n ≤ 8 * B
      · rw [if_pos hn] at hst
        exact ih _ (hm.2 _ (bitsAt_lt _ _ _)) (by omega) hst h
      · have := (hm.2 _ (bitsAt_lt _ _ _)).run_le (by omega : p + max seen n ≤ 8 * C) h
        omega
    · rw [if_neg hnC] at h; cases h
  | drop n k ih => obtain ⟨rfl, hk⟩ := hm; exact absurd hst (hk.run_ne_stall _ _ _)
  | sym need f k ih =>
    obtain ⟨rfl, -, hk⟩ := hm
    simp only [run] at h hst
    by_cases hnC : p + (f (bitsAt I p 15)).2 ≤ 8 * C
    · rw [if_pos hnC] at h
      by_cases hn : p + (f (bitsAt I p 15)).2 ≤ 8 * B
      · rw [if_pos hn] at hst
        exact absurd hst ((hk _).run_ne_stall _ _ _)
      · have := (hk _).run_le hnC h
        omega
    · rw [if_neg hnC] at h; cases h
  | align e k ih =>
    obtain ⟨rfl, hk⟩ := hm
    exact absurd hst (Settled.run_ne_stall (m := .align e k) hk _ _ _)

end Reader
end Mbrotli
