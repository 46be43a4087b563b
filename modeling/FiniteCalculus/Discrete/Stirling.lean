import FiniteCalculus.Discrete.Scalar

/-! Two-parameter recursions: Stirling numbers of both kinds and Eulerian numbers.
`n` objects are built one at a time, and the newest one either joins what is there
or opens something new. -/

namespace FiniteCalculus.Discrete
set_option autoImplicit false
open Scalar
variable {α : Type} [Scalar α]

/-- Permutations of `n` objects with `k` cycles. -/
def stirlingCycle : Nat → Nat → Except Fault α
  | 0, 0 => .ok one
  | 0, _ + 1 => .ok zero
  | _ + 1, 0 => .ok zero
  | n + 1, k + 1 =>
    if n < k then .ok zero
    else do
      let joined ← stirlingCycle n (k + 1)
      let opened ← stirlingCycle n k
      return (← ofInt n) * joined + opened

/-- Partitions of `n` objects into `k` blocks. -/
def stirlingPartition : Nat → Nat → Except Fault α
  | 0, 0 => .ok one
  | 0, _ + 1 => .ok zero
  | _ + 1, 0 => .ok zero
  | n + 1, k + 1 =>
    if n < k then .ok zero
    else do
      let joined ← stirlingPartition n (k + 1)
      let opened ← stirlingPartition n k
      return (← ofInt (k + 1)) * joined + opened

/-- Permutations of `n` objects with `k` descents. -/
def eulerian : Nat → Nat → Except Fault α
  | 0, 0 => .ok one
  | 0, _ + 1 => .ok zero
  | n + 1, k => do
    let kept ← eulerian n k
    let grown ← match k with
      | 0 => .ok zero
      | j + 1 => eulerian n j
    return (← ofInt (k + 1)) * kept + (← ofInt ((n + 1 : Int) - k)) * grown

theorem stirlingPartition_succ_zero (n : Nat) :
    stirlingPartition (n + 1) 0 = (.ok zero : Except Fault α) := rfl

end FiniteCalculus.Discrete
