import Mathlib.Logic.Basic

/-!
# Loops

`loop step` repeats a step until there is none. `loop_ends` is its rule: an invariant and a number
that every step makes smaller, where a step may use that its states are reached.
-/

namespace Fedis.Framework

variable {σ : Type*} {step : σ → Option σ} {s₀ : σ}

/-- The state in which the loop ends, or `none` if the fuel does not last. -/
def loop (step : σ → Option σ) : Nat → σ → Option σ
  | 0, _ => none
  | fuel + 1, s =>
    match step s with
    | none => some s
    | some s' => loop step fuel s'

/-- The states of the loop. -/
inductive Reached (step : σ → Option σ) (s₀ : σ) : σ → Prop
  | start : Reached step s₀ s₀
  | next {s s' : σ} (h : Reached step s₀ s) (hstep : step s = some s') : Reached step s₀ s'

/-- **Loops.** With more fuel than the measure, the loop ends, in a state that has the invariant. -/
theorem loop_ends {I : σ → Prop} {μ : σ → Nat}
    (hstep : ∀ s s', Reached step s₀ s' → I s → step s = some s' → I s' ∧ μ s' < μ s) (hi : I s₀) :
    ∃ s, (∀ fuel, μ s₀ < fuel → loop step fuel s₀ = some s) ∧ I s ∧ step s = none := by
  suffices h : ∀ n s, Reached step s₀ s → I s → μ s < n →
      ∃ s', (∀ fuel, n ≤ fuel → loop step fuel s = some s') ∧ I s' ∧ step s' = none from
    h _ s₀ .start hi (Nat.lt_succ_self _)
  intro n
  induction n with
  | zero => exact fun s _ _ hμ => absurd hμ (Nat.not_lt_zero _)
  | succ n ih =>
    intro s hs hi hμ
    cases hnext : step s with
    | none =>
      refine ⟨s, fun fuel hfuel => ?_, hi, hnext⟩
      obtain ⟨k, rfl⟩ := Nat.exists_eq_add_of_le hfuel
      rw [Nat.add_right_comm, loop, hnext]
    | some s₁ =>
      obtain ⟨hi₁, hlt⟩ := hstep s s₁ (hs.next hnext) hi hnext
      obtain ⟨s', hloop, hi', hend⟩ := ih s₁ (hs.next hnext) hi₁ (by omega)
      refine ⟨s', fun fuel hfuel => ?_, hi', hend⟩
      obtain ⟨k, rfl⟩ := Nat.exists_eq_add_of_le hfuel
      rw [Nat.add_right_comm, loop, hnext]
      exact hloop (n + k) (Nat.le_add_right n k)

end Fedis.Framework
