import FiniteCalculus.Discrete.Scalar

/-! Sequences with one parameter in doubles: Fibonacci and Lucas numbers, and
harmonic numbers. -/

namespace FiniteCalculus.Discrete
set_option autoImplicit false

/-- The `n`-th number of a sequence that starts with `a` and `b` and in which each
further number is the one before plus the one before that. -/
def additive (a b : Float) : Nat → Float
  | 0 => a
  | n + 1 => additive b (b + a) n

def fibonacci : Nat → Float := additive 0.0 1.0

def lucas : Nat → Float := additive 2.0 1.0

/-- `1 + ∑ term k` for `k` from `2` to `n`, from left to right. -/
def harmonicSum (n : Nat) (term : Nat → Except Fault Float) : Except Fault Float :=
  accumulate (fun total k => do return total + (← term k)) (n - 1) 2 1.0

/-- `∑ 1 / k` for `k` from `1` to `n`. -/
def harmonic (n : Nat) : Except Fault Float :=
  if n = 0 then .ok 0.0 else harmonicSum n fun k => return 1.0 / (← Double.ofInt k)

/-- `∑ k ^ (-x)` for `k` from `1` to `n`, for at least two terms. -/
def generalizedHarmonic [Transcendentals] (x : Float) (n : Nat) : Except Fault Float :=
  harmonicSum n fun k => return 1.0 / Transcendentals.power (← Double.ofInt k) x

theorem additive_succ_succ (a b : Float) (n : Nat) :
    additive a b (n + 2) = additive a b (n + 1) + additive a b n := by
  induction n generalizing a b with
  | zero => rfl
  | succ n ih => exact ih b (b + a)

end FiniteCalculus.Discrete
