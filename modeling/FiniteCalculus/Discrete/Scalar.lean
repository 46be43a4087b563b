import FiniteCalculus.Discrete.Accumulate
import FiniteCalculus.Value.Arithmetic
import FiniteCalculus.Transcendentals

/-! The arithmetic in which a combinatorial formula is evaluated. Doubles give the
values that the library returns; over the rationals no operation rounds, and the
same formula can be compared with what it counts. -/

namespace FiniteCalculus
set_option autoImplicit false

class Scalar (α : Type) extends Add α, Mul α, Div α where
  zero : α
  one : α
  /-- The integer in this arithmetic, if it has it in its range. -/
  ofInt : Int → Except Fault α
  /-- A power of integers. -/
  power : Int → Int → Except Fault α

instance [Transcendentals] : Scalar Float where
  zero := 0.0
  one := 1.0
  ofInt := Double.ofInt
  power a b := return Transcendentals.pow (← Double.ofInt a) (← Double.ofInt b)

instance : Scalar Rat where
  add := Rat.add
  mul := Rat.mul
  div := Rat.div
  zero := Rat.ofInt 0
  one := Rat.ofInt 1
  ofInt n := .ok (Rat.ofInt n)
  power a b := .ok (Rat.zpow (Rat.ofInt a) b)

namespace Scalar
variable {α : Type} [Scalar α]

/-- The sum from left to right of the terms of the naturals up to and with `n`. -/
def sumUpTo (n : Nat) (term : Nat → Except Fault α) : Except Fault α :=
  accumulate (fun total k => do return total + (← term k)) (n + 1) 0 zero

/-- The product from left to right of the factors of `count` naturals from `first` on. -/
def productFrom (first count : Nat) (factor : Nat → Except Fault α) : Except Fault α :=
  accumulate (fun total k => do return total * (← factor k)) count first one

theorem productFrom_zero (first : Nat) (factor : Nat → Except Fault α) :
    productFrom first 0 factor = .ok one := rfl

end Scalar

end FiniteCalculus
