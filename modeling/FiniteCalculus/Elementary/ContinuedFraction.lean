import FiniteCalculus.NumericFunction

/-! Finite continued fractions and continuants over any arithmetic. A fraction is
built from its last term, and is undefined as soon as an interim value is zero
where its reciprocal is asked for. Continuants are built from the first term by
`K n = x n * K (n - 1) + K (n - 2)`. -/

namespace FiniteCalculus.ContinuedFraction
set_option autoImplicit false
variable {ι α : Type} [Add α] [Mul α] [Div α] [OfNat α 0] [OfNat α 1] [BEq α]

/-- The value for the interim value `cf` of the terms to the right, given the
terms to the left, the nearest first. `read` yields a term, `none` if it is
undefined, and is asked for a term only when the fraction has come that far. -/
def close (read : ι → Except Fault (Option α)) : α → List ι → Except Fault (Option α)
  | cf, [] => .ok (some cf)
  | cf, i :: rest => do
    match ← read i with
    | none => return none
    | some a => if cf == 0 then return none else close read (a + 1 / cf) rest

/-- `a₀ + 1 / (a₁ + 1 / (… + 1 / aₙ))`, `0` without terms. -/
def fraction (read : ι → Except Fault (Option α)) (terms : List ι) : Except Fault (Option α) :=
  match terms.reverse with
  | [] => .ok (some 0)
  | i :: rest => do
    match ← read i with
    | none => return none
    | some a => close read a rest

/-- The continuant of `x :: xs` and that of its terms but the last, in front of
more terms. -/
def extend (k before : α) : List α → α
  | [] => k
  | x :: xs => extend (x * k + before) k xs

/-- The continuant of the terms, `1` without terms. -/
def continuant : List α → α
  | [] => 1
  | x :: xs => extend x 1 xs

/-- A term that is a value, as a double. -/
def readValue (v : Value) : Except Fault (Option Float) := do
  let x ← v.toDouble
  return if x.isNaN then none else some x

/-- The continued fraction of values. A single term stays what it is. -/
def ofValues : List Value → Except Fault Value
  | [v] => .ok v
  | vs => return .double ((← fraction readValue vs).getD Double.nan)

/-- The continuant of values. -/
def continuantOfValues : List Value → Except Fault Value :=
  NumericFunction.onDoubles continuant

omit [Div α] [OfNat α 0] [BEq α] in
theorem continuant_pair (x y : α) : continuant [x, y] = y * x + 1 := rfl

end FiniteCalculus.ContinuedFraction
