import FiniteCalculus.Discrete.Binomial

/-! Numbers and polynomials that are alternating sums of powers times binomial
coefficients: Worpitzky numbers, Bernoulli numbers and Euler polynomials. -/

namespace FiniteCalculus.Discrete
set_option autoImplicit false
open Scalar
variable {α : Type} [Scalar α]

/-- `∑ v ≤ k, (-1) ^ (v + k) * (v + 1) ^ n * (k choose v)`. -/
def worpitzky (n k : Nat) : Except Fault α :=
  sumUpTo k fun v => do
    let sign ← power (-1) (v + k)
    let size ← power (v + 1) n
    return sign * size * (← choose k v)

/-- One term `(-1) ^ v * (k choose v) * ((n + v) ^ m / (k + 1))` of a Bernoulli number. -/
def bernoulliTerm (m n k v : Nat) : Except Fault α := do
  let sign ← power (-1) v
  let ways ← choose k v
  let size ← power (n + v) m
  return sign * ways * (size / (← ofInt (k + 1)))

/-- `∑ k ≤ m, ∑ v ≤ k` of the terms, added up in one running total. -/
def bernoulli (m n : Nat) : Except Fault α :=
  accumulate
    (fun total k =>
      accumulate (fun total v => do return total + (← bernoulliTerm m n k v)) (k + 1) 0 total)
    (m + 1) 0 zero

/-- The Euler polynomial of degree `m`, where `size k` is `(x + k) ^ m`. The running
total is halved `n` times after its `n`-th inner sum. -/
def eulerPolynomial (m : Nat) (size : Nat → Except Fault α) : Except Fault α :=
  accumulate
    (fun total n => do
      let total ← accumulate
        (fun total k => do
          let sign ← power (-1) k
          let ways ← choose n k
          return total + sign * ways * (← size k))
        (n + 1) 0 total
      return total / (← power 2 n))
    (m + 1) 0 zero

end FiniteCalculus.Discrete
