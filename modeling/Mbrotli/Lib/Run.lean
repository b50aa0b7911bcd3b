/-
# Runs of a labelled step relation

`Run step s ls s'` says that the steps labelled `ls` lead from `s` to `s'`. A property
that every step keeps holds at the end of a run (`Run.invariant`), and what every step
from a state with it says of its label holds of all labels (`Run.labels`).
-/
import Mathlib.Algebra.GroupWithZero.Nat

namespace Mbrotli

variable {σ ℓ : Type*} {step : σ → ℓ → σ → Prop}

inductive Run (step : σ → ℓ → σ → Prop) : σ → List ℓ → σ → Prop where
  | nil (s : σ) : Run step s [] s
  | cons {s s' s'' : σ} {l : ℓ} {ls : List ℓ} : step s l s' → Run step s' ls s'' →
      Run step s (l :: ls) s''

namespace Run

variable {s s' s'' : σ} {l : ℓ} {ls ls' : List ℓ}

theorem single (h : step s l s') : Run step s [l] s' := .cons h (.nil s')

theorem append (h : Run step s ls s') (h' : Run step s' ls' s'') : Run step s (ls ++ ls') s'' := by
  induction h with
  | nil => exact h'
  | cons hs _ ih => exact .cons hs (ih h')

theorem of_append (h : Run step s (ls ++ ls') s'') :
    ∃ s', Run step s ls s' ∧ Run step s' ls' s'' := by
  induction ls generalizing s with
  | nil => exact ⟨s, .nil s, h⟩
  | cons l ls ih =>
    cases h with
    | cons hs hr =>
      obtain ⟨s1, h1, h2⟩ := ih hr
      exact ⟨s1, .cons hs h1, h2⟩

theorem of_cons (h : Run step s (l :: ls) s'') : ∃ s', step s l s' ∧ Run step s' ls s'' := by
  cases h with
  | cons hs hr => exact ⟨_, hs, hr⟩

/-- What every step keeps, a run keeps. -/
theorem invariant {P : σ → Prop} (hstep : ∀ s l s', P s → step s l s' → P s')
    (h : Run step s ls s') (hs : P s) :
    P s' := by
  induction h with
  | nil => exact hs
  | cons hl _ ih => exact ih (hstep _ _ _ hs hl)

/-- What every step from an invariant state says of its label holds of all of them. -/
theorem labels {P : σ → Prop} {Q : ℓ → Prop} (hstep : ∀ s l s', P s → step s l s' → P s' ∧ Q l)
    (h : Run step s ls s') (hs : P s) : ∀ l ∈ ls, Q l := by
  induction h with
  | nil => exact fun _ hl => nomatch hl
  | cons hl _ ih =>
    obtain ⟨h1, h2⟩ := hstep _ _ _ hs hl
    rintro l (_ | ⟨_, hmem⟩)
    · exact h2
    · exact ih h1 _ hmem

/-- A measure that every step raises by its label's weight. -/
theorem sum {f : σ → ℕ} {g : ℓ → ℕ} (hstep : ∀ s l s', step s l s' → f s' = f s + g l)
    (h : Run step s ls s') :
    f s' = f s + (ls.map g).sum := by
  induction h with
  | nil => rfl
  | cons hl _ ih => rw [ih, hstep _ _ _ hl, List.map_cons, List.sum_cons, Nat.add_assoc]

/-- A measure that the steps with a property raise by one. -/
theorem countP {f : σ → ℕ} {p : ℓ → Bool}
    (hstep : ∀ s l s', step s l s' → f s' = f s + if p l then 1 else 0)
    (h : Run step s ls s') : f s' = f s + ls.countP p := by
  induction h with
  | nil => rfl
  | cons hl _ ih => rw [ih, hstep _ _ _ hl, List.countP_cons, Nat.add_assoc,
      Nat.add_comm (List.countP ..)]

end Run
end Mbrotli
