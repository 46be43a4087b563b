import FiniteCalculus.Double.Remainder
import FiniteCalculus.Double.Integral

/-! Division, size, sign and whole parts of doubles. A reciprocal and a quotient
are undefined, and not infinite, when the divisor is exactly zero. -/

namespace FiniteCalculus.Elementary
set_option autoImplicit false

def isZero (x : Float) : Bool := x == 0.0

def reciprocal (x : Float) : Float := if isZero x then Double.nan else 1.0 / x

def divide (x y : Float) : Float := if isZero y then Double.nan else x / y

/-- `-1`, `0` or `1`. -/
def sign (x : Float) : Float := if 0.0 < x then 1.0 else if x < 0.0 then -1.0 else 0.0

theorem divide_by_zero (x : Float) (s : Bool) : divide x (Double.zero s) = Double.nan := by
  cases s <;> rfl

end FiniteCalculus.Elementary
