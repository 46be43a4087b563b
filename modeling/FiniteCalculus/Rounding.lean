import FiniteCalculus.Value.Arithmetic

/-! From a function of integers to one of doubles. The arguments are read from left
to right: an undefined one makes the result undefined, one at a rounded position
goes to its nearest integer, and an infinity there makes the result undefined. A
reading can also be told to stop with a fixed result at a zero. -/

namespace FiniteCalculus
set_option autoImplicit false

structure Rounding where
  /-- The positions to round, counted from zero; all of them if none are given. -/
  positions : Option (List Nat)
  /-- The result as soon as a rounded argument is zero, if there is one. -/
  zeroResult : Option Value

namespace Rounding

/-- What reading the arguments comes to. -/
inductive Reading where
  /-- The result is settled without calling the function. -/
  | settled (result : Value)
  /-- The function is to be called with these values. -/
  | ready (args : List Value)

def rounds (r : Rounding) (position : Nat) : Bool := r.positions.all (·.contains position)

/-- The reading with one more value in front of those still to come. -/
def Reading.cons (v : Value) : Reading → Reading
  | settled result => settled result
  | ready args => ready (v :: args)

/-- Reads the arguments from a position on. -/
def read (r : Rounding) (position : Nat) : List Value → Except Fault Reading
  | [] => .ok (.ready [])
  | v :: vs => do
    let x ← v.toDouble
    if x.isNaN then return .settled Value.nan
    else if !r.rounds position then return (← read r (position + 1) vs).cons v
    else if x.isInf then return .settled Value.nan
    else
      let n ← v.nearestInteger
      match n == 0, r.zeroResult with
      | true, some result => return .settled result
      | _, _ => return (← read r (position + 1) vs).cons (.int n)

/-- The function of doubles that a function of integers becomes. -/
def apply (r : Rounding) (inner : List Value → Except Fault Value) (args : List Value) :
    Except Fault Value := do
  match ← r.read 0 args with
  | .settled result => return result
  | .ready args => inner args

theorem read_nil (r : Rounding) (position : Nat) : r.read position [] = .ok (.ready []) := rfl

end Rounding

end FiniteCalculus
