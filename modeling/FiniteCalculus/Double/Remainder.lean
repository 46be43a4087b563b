import FiniteCalculus.Double.Parts

/-! The remainder of the truncated quotient of two doubles. It is always a double
itself, so it is computed exactly on the common dyadic grid of its operands. -/

namespace FiniteCalculus.Double
set_option autoImplicit false

/-- What is left of `x` after taking away as many whole `y` as fit, with the sign
of `x`. An infinite divisor leaves `x` alone; an infinite `x` or a zero divisor
has no remainder. -/
def remainder (x y : Float) : Float :=
  match parts x, parts y with
  | .notNumber, _ | _, .notNumber | .infinite _, _ => nan
  | .finite .., .infinite _ => x
  | .finite s m e, .finite _ n k =>
    if n = 0 then nan
    else
      let low := min e k
      let rest := m * powerOfTwo (e - low) % (n * powerOfTwo (k - low))
      if rest = 0 then zero s else ofDyadic s rest low

theorem remainder_nan_left (y : Float) : (remainder nan y).isNaN := by
  simp only [remainder, parts_nan]
  decide

theorem remainder_by_zero : (remainder 1.0 0.0).isNaN := by decide +kernel

end FiniteCalculus.Double
