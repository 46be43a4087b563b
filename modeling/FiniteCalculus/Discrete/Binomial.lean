import FiniteCalculus.Discrete.Scalar

/-! Factorials, falling factorials and binomial coefficients as products from the
smallest index on, and the Catalan numbers. -/

namespace FiniteCalculus.Discrete
set_option autoImplicit false
open Scalar
variable {α : Type} [Scalar α]

/-- `1 * 2 * … * n`. -/
def factorial (n : Nat) : Except Fault α := productFrom 1 n fun i => ofInt i

/-- `n * (n - 1) * … * (n - k + 1)` over `k!`, where `factor i` is `n - i`. -/
def binomial (factor : Nat → Except Fault α) (k : Nat) : Except Fault α := do
  let numerator ← productFrom 0 k factor
  let denominator ← productFrom 2 (k - 1) fun i => ofInt i
  return numerator / denominator

/-- The binomial coefficient of an integer. -/
def choose (n : Int) (k : Nat) : Except Fault α := binomial (fun i => ofInt (n - i)) k

theorem factorial_zero : factorial 0 = (.ok one : Except Fault α) := rfl

end FiniteCalculus.Discrete
