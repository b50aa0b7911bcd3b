/-
# Resumable readers, over any calls

The source's nested readers (block headers, context maps, code descriptions) are loops of
rounds: a round reads a field and stores what follows from it, and a round that is short of
input is repeated by the next call. `rounds` is such a loop in one call and `calls` over a
sequence of calls, for any round `step`.

`Ends` is the same loop on an unsplit stream. What it ends with, every split of the stream
into calls ends with (`calls_of_ends`): a round is atomic, so a call stops between two of
them and the next one goes on there.

Key definitions: `Resumable.calls`, `Resumable.Ends`.
Key theorems: `Resumable.Ends.rounds`, `Resumable.calls_of_ends`.
-/
import Mbrotli.Decompressor.Core.HuffmanRead

namespace Mbrotli.Resumable

open BitString

/-- A round: an error and what is left, or whether it is the last and the state. -/
abbrev Step (σ : Type) := σ → Reader Fault (Except (DecodeError × σ) (Bool × σ))

variable {σ τ : Type} {step : Step σ} {I : List UInt8} {B p q : ℕ} {s s' : σ}
    {r : Except (DecodeError × σ) σ}

/-- The rounds of one call. -/
def rounds (step : Step σ) : ℕ → σ → Bits → Input → Exec Unit × σ × Bits × Input
  | 0, s, bits, input => (.empty, s, bits, input)
  | fuel + 1, s, bits, input =>
    match exec (step s) bits input with
    | (.done (.ok (true, s)), bits, input) => (.done (), s, bits, input)
    | (.done (.ok (false, s)), bits, input) => rounds step fuel s bits input
    | (.done (.error (e, s)), bits, input) => (.fault (.error e), s, bits, input)
    | (.empty, bits, input) => (.empty, s, bits, input)
    | (.fault f, bits, input) => (.fault f, s, bits, input)

/-- Rounds over calls, each with the next bytes of the stream; a call that runs out of input
settles the reservoir. -/
def calls (step : Step σ) (fuel : ℕ) (limit : Option ℕ) : List (List UInt8) → σ → Bits → ℕ →
    Exec Unit × σ × Bits × ℕ
  | [], s, bits, total => (.empty, s, bits, total)
  | bytes :: rest, s, bits, total =>
    match rounds step fuel s bits (Input.new bytes total limit) with
    | (.empty, s, bits, input) => calls step fuel limit rest s bits.settle input.accepted
    | (x, s, bits, input) => (x, s, bits, input.accepted)

/-- The rounds on a stream of which `B` bytes can be had: they end from `s` at bit `p` with
`r`, at bit `q`. -/
inductive Ends (step : Step σ) (I : List UInt8) (B : ℕ) :
    σ → ℕ → Except (DecodeError × σ) σ → ℕ → Prop
  | last {s s' : σ} {p q : ℕ} (hatomic : (step s).Atomic 0)
      (hrun : (step s).run I B p = .done (.ok (true, s')) q) :
      Ends step I B s p (.ok s') q
  | error {s : σ} {p q : ℕ} {e : DecodeError × σ} (hatomic : (step s).Atomic 0)
      (hrun : (step s).run I B p = .done (.error e) q) :
      Ends step I B s p (.error e) q
  | next {s s₁ : σ} {p p₁ q : ℕ} {r : Except (DecodeError × σ) σ} (hatomic : (step s).Atomic 0)
      (hrun : (step s).run I B p = .done (.ok (false, s₁)) p₁)
      (hrest : Ends step I B s₁ p₁ r q) : Ends step I B s p r q

/-- What the caller is told. -/
def told : Except (DecodeError × σ) σ → Exec Unit × σ
  | .ok s => (.done (), s)
  | .error (e, s) => (.fault (.error e), s)

/-- How a call from `s` at bit `p` leaves the rounds that end with `r` at bit `q`: they are
over, or the call's input is used up and they end so from where it stopped. -/
def Called (step : Step σ) (I : List UInt8) (B : ℕ) (input : Input)
    (r : Except (DecodeError × σ) σ) (q : ℕ)
    (x : Exec Unit × σ × Bits × Input) : Prop :=
  input.Advances x.2.2.2 ∧
    ((∃ s' bits' input', x = ((told r).1, s', bits', input') ∧ s' = (told r).2 ∧
      Cursor I q bits' input'.accepted) ∨
      ∃ s' p' bits' input', x = (.empty, s', bits', input') ∧ Offered I input' ∧
      input'.consumed = input.bytes.length ∧
        Cursor I p' bits' input'.accepted ∧ Ends step I B s' p' r q ∧
        (step s').run I input.available p' = .stall)

theorem Called.of_advances {input input' : Input} {x : Exec Unit × σ × Bits × Input}
    (h : Called step I B input' r q x)
    (ha : input.Advances input') : Called step I B input r q x := by
  obtain ⟨hadv, hdone | ⟨s', p', bits', input'', hx, ho, hconsumed, hc, hends, hstall⟩⟩ := h
  · exact ⟨ha.trans hadv, Or.inl hdone⟩
  · refine ⟨ha.trans hadv, Or.inr ⟨s', p', bits', input'', hx, ho, ?_, hc, hends, ?_⟩⟩
    · rw [hconsumed, ha.1]
    · rw [← ha.available]
      exact hstall

/-- A call may accept no more than the limit allows. -/
theorem Offered.available_le {limit : Option ℕ} {input : Input} (ho : Offered I input)
    (hlimit : input.limit = limit)
    (hbytes : input.totalBefore + input.bytes.length ≤ I.length) :
    input.available ≤ Builder.allowed limit I.length := by
  have hfast := ho.fastEnd_le
  unfold Builder.allowed Input.available
  cases limit with
  | none =>
    simp only [Option.elim_none]
    omega
  | some l =>
    have := ho.limit l hlimit
    simp only [Option.elim_some]
    omega

/-- **A call goes along the rounds**, to their end or to the end of its input. -/
theorem Ends.rounds {limit : Option ℕ} (h : Ends step I (Builder.allowed limit I.length) s p r q) :
    ∀ {bits : Bits} {input : Input}, Offered I input → input.limit = limit →
    input.totalBefore + input.bytes.length ≤ I.length →
    Cursor I p bits input.accepted →
    ∃ n x, (∀ fuel, n ≤ fuel → rounds step fuel s bits input = x) ∧
    Called step I (Builder.allowed limit I.length) input r q x := by
  have hround : ∀ {s : σ} {p q : ℕ} {a : Except (DecodeError × σ) (Bool × σ)} {bits : Bits}
    {input : Input}, (step s).Atomic 0 →
      (step s).run I (Builder.allowed limit I.length) p = .done a q → Offered I input →
      input.limit = limit →
      input.totalBefore + input.bytes.length ≤ I.length → Cursor I p bits input.accepted →
      ∃ bits' input', input.Advances input' ∧ Offered I input' ∧
        ((exec (step s) bits input = (.done a, bits', input') ∧ Cursor I q bits' input'.accepted) ∨
          exec (step s) bits input = (.empty, bits', input') ∧ Cursor I p bits' input'.accepted ∧
            input'.consumed = input.bytes.length ∧ (step s).run I input.available p = .stall) := by
    intro s p q a bits input hatomic hrun ho hlimit hbytes hc
    have hsim := exec_sim (Or.inl ⟨hatomic, Nat.zero_le _⟩) ho hc
    have hle := Offered.available_le ho hlimit hbytes
    have hp : p + 0 ≤ 8 * input.available := by
      have := hc.pos
      have := ho.consumed_le
      unfold Input.accepted at *
      unfold Input.available
      omega
    have hmono : (step s).run I input.available p ≠ .stall →
        (step s).run I (Builder.allowed limit I.length) p = (step s).run I input.available p :=
      Reader.run_mono hatomic hle hp fun _ _ => rfl
    rcases hx : exec (step s) bits input with ⟨a' | _ | f, bits', input'⟩
    · rw [hx] at hsim
      obtain ⟨h1, h2, q', hr, h3⟩ := hsim
      have hsame := hmono (by rw [hr]; simp)
      rw [hrun, hr] at hsame
      cases hsame
      exact ⟨bits', input', h1, h2, Or.inl ⟨rfl, h3⟩⟩
    · rw [hx] at hsim
      obtain ⟨h1, h2, hr, h3, h4⟩ := hsim
      exact ⟨bits', input', h1, h2, Or.inr ⟨rfl, h3, h4, hr⟩⟩
    · rw [hx] at hsim
      obtain ⟨-, -, ⟨q', hr, -⟩ | ⟨hr, -, -, hshort, -⟩⟩ := hsim
      · have hsame := hmono (by rw [hr]; simp)
        rw [hrun, hr] at hsame
        cases hsame
      · -- the limit ends the call, and it allows no more of the stream
        have hlim : limit = some input.available := hlimit ▸ ho.closed hshort
        have hall : Builder.allowed limit I.length = input.available := by
          rw [hlim]
          refine min_eq_right ?_
          unfold Input.available
          omega
        rw [hall, hr] at hrun
        cases hrun
  induction h with
  | last hatomic hrun =>
    intro bits input ho hlimit hbytes hc
    obtain ⟨bits', input', hadv, ho', ⟨hx, hcur⟩ | ⟨hx, hcur, hconsumed, hstall⟩⟩ :=
      hround hatomic hrun ho hlimit hbytes hc
    · refine ⟨1, _, fun fuel hfuel => ?_, hadv, Or.inl ⟨_, _, _, rfl, rfl, hcur⟩⟩
      obtain ⟨fuel, rfl⟩ := Nat.exists_eq_add_of_le' hfuel
      rw [Resumable.rounds, hx]
      rfl
    · refine ⟨1, _, fun fuel hfuel => ?_, hadv,
        Or.inr ⟨_, _, _, _, rfl, ho', hconsumed, hcur, .last hatomic hrun, hstall⟩⟩
      obtain ⟨fuel, rfl⟩ := Nat.exists_eq_add_of_le' hfuel
      rw [Resumable.rounds, hx]
  | @error s p q e hatomic hrun =>
    intro bits input ho hlimit hbytes hc
    obtain ⟨bits', input', hadv, ho', ⟨hx, hcur⟩ | ⟨hx, hcur, hconsumed, hstall⟩⟩ :=
      hround hatomic hrun ho hlimit hbytes hc
    · refine ⟨1, _, fun fuel hfuel => ?_, hadv, Or.inl ⟨_, _, _, rfl, rfl, hcur⟩⟩
      obtain ⟨fuel, rfl⟩ := Nat.exists_eq_add_of_le' hfuel
      rw [Resumable.rounds, hx]
      rfl
    · refine ⟨1, _, fun fuel hfuel => ?_, hadv,
        Or.inr ⟨_, _, _, _, rfl, ho', hconsumed, hcur, .error hatomic hrun, hstall⟩⟩
      obtain ⟨fuel, rfl⟩ := Nat.exists_eq_add_of_le' hfuel
      rw [Resumable.rounds, hx]
  | next hatomic hrun hrest ih =>
    intro bits input ho hlimit hbytes hc
    obtain ⟨bits', input', hadv, ho', ⟨hx, hcur⟩ | ⟨hx, hcur, hconsumed, hstall⟩⟩ :=
      hround hatomic hrun ho hlimit hbytes hc
    · obtain ⟨n, x, hn, hcalled⟩ :=
        ih ho' (by rw [hadv.1]; exact hlimit) (by rw [hadv.1]; exact hbytes) hcur
      refine ⟨n + 1, x, fun fuel hfuel => ?_, hcalled.of_advances hadv⟩
      obtain ⟨fuel, rfl⟩ :=
        Nat.exists_eq_add_of_le' (Nat.succ_le_iff.2 (Nat.lt_of_lt_of_le (Nat.succ_pos n) hfuel))
      rw [Resumable.rounds, hx]
      exact hn fuel (by omega)
    · refine ⟨1, _, fun fuel hfuel => ?_, hadv,
        Or.inr ⟨_, _, _, _, rfl, ho', hconsumed, hcur, .next hatomic hrun hrest, hstall⟩⟩
      obtain ⟨fuel, rfl⟩ := Nat.exists_eq_add_of_le' hfuel
      rw [Resumable.rounds, hx]

theorem Ends.not_stall (h : Ends step I B s p r q) : (step s).run I B p ≠ .stall := by
  cases h with
  | last hatomic hrun => rw [hrun]; simp
  | error hatomic hrun => rw [hrun]; simp
  | next hatomic hrun hrest => rw [hrun]; simp

/-- **Every split of the stream into calls ends as the unsplit rounds do.** -/
theorem calls_of_ends {limit : Option ℕ} (hI : I.length ≤ u64Max) :
    ∀ (pieces : List (List UInt8)) {s : σ} {p : ℕ} {bits : Bits} {total : ℕ},
    Ends step I (Builder.allowed limit I.length) s p r q → Cursor I p bits total →
    total ≤ I.length → (∀ l, limit = some l → total ≤ l) →
    pieces.flatten = I.drop total → (pieces ≠ [] ∨ (step s).run I total p = .stall) →
    ∃ n bits' total', (∀ fuel, n ≤ fuel → calls step fuel limit pieces s bits total =
      ((told r).1, (told r).2, bits', total')) ∧
      Cursor I q bits' total'
  | [], s, p, bits, total, h, hc, ht, hl, hpieces, hstall => by
    have hlen : total = I.length := by
      have := congrArg List.length hpieces
      simp only [List.flatten_nil, List.length_nil, List.length_drop] at this
      omega
    have hallowed : Builder.allowed limit I.length = total := by
      unfold Builder.allowed
      cases limit with
      | none => exact hlen.symm
      | some l =>
        have := hl l rfl
        simp only [Option.elim_some]
        omega
    rw [hallowed] at h
    exact absurd (hstall.resolve_left (not_not.2 rfl)) h.not_stall
  | bytes :: rest, s, p, bits, total, h, hc, ht, hl, hpieces, _ => by
    have hdrop : ∀ k a, bytes[k]? = some a → I[total + k]? = some a := fun k a hk => by
      have hflat : (bytes ++ rest.flatten)[k]? = some a := by
        rw [List.getElem?_append_left (List.getElem?_eq_some_iff.1 hk).1]
        exact hk
      rw [List.flatten_cons] at hpieces
      rw [hpieces, List.getElem?_drop] at hflat
      exact hflat
    have hlen : total + (bytes.length + rest.flatten.length) = I.length := by
      have := congrArg List.length hpieces
      simp only [List.flatten_cons, List.length_append, List.length_drop] at this
      omega
    have ho := offered_new hdrop hl (by omega)
    have hwithin : (Input.new bytes total limit).totalBefore +
        (Input.new bytes total limit).bytes.length ≤ I.length := by
      show total + bytes.length ≤ _
      omega
    obtain ⟨n, x, hn, hadv, ⟨s', bits', input', rfl, rfl, hcur⟩ | ⟨s', p', bits', input', rfl, ho',
        hconsumed, hcur, hends, hstall⟩⟩ :=
      h.rounds ho rfl hwithin hc
    · refine ⟨n, bits', input'.accepted, fun fuel hfuel => ?_, hcur⟩
      rw [calls, hn fuel hfuel]
      rcases r with ⟨e, s₁⟩ | s₁ <;> rfl
    · have hadv : (Input.new bytes total limit).Advances input' := hadv
      have haccepted : input'.accepted = total + bytes.length := by
        rw [Input.accepted, hconsumed, hadv.1]
        rfl
      have hav : (Input.new bytes total limit).available = total + bytes.length := by
        have h1 := ho'.consumed_le
        have h2 := hadv.available
        have h3 : input'.totalBefore = total := by rw [hadv.1]; rfl
        have h4 := ho.fastEnd_le
        have h5 : (Input.new bytes total limit).bytes = bytes := rfl
        have h6 : (Input.new bytes total limit).totalBefore = total := rfl
        rw [hconsumed, h5] at h1
        rw [h5] at h4
        unfold Input.available at h2 ⊢
        omega
      obtain ⟨m, bits'', total'', hm, hcur'⟩ :=
        calls_of_ends hI rest hends hcur.settle (by rw [haccepted]; omega)
          (fun l hl' => by
          have := ho'.limit l (by rw [hadv.1]; exact hl')
          have := ho'.consumed_le
          unfold Input.accepted
          omega)
        (by rw [haccepted, ← List.drop_drop, ← hpieces, List.flatten_cons, List.drop_left])
        (Or.inr (by rw [haccepted, ← hav]; exact hstall))
      refine ⟨max n m, bits'', total'', fun fuel hfuel => ?_, hcur'⟩
      rw [calls, hn fuel (le_trans (le_max_left n m) hfuel)]
      exact hm fuel (le_trans (le_max_right n m) hfuel)

end Mbrotli.Resumable
