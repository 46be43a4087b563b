import FiniteCalculus.Double.Parts
import FiniteCalculus.Nearest

/-! Integers near a double: the nearest one, the one below and the one above.
All are computed from the dyadic parts, so no step rounds twice. -/

namespace FiniteCalculus.Double
set_option autoImplicit false

/-- The integer nearest to a finite double, a tie going to the even one. -/
def nearest? (x : Float) : Option Int :=
  match parts x with
  | .finite s m e => some (signed s (nearestQuotient (m * powerOfTwo e) (powerOfTwo (-e))))
  | _ => none

/-- A double with a fractional part goes to the given integer near it, with its own
sign also at a zero, and any other double stays as it is. -/
def towards (choose : Int → Int → Int) (x : Float) : Float :=
  match parts x with
  | .finite s m e =>
    if 0 ≤ e then x else ofDyadic s (choose (signed s m) (powerOfTwo (-e))).natAbs 0
  | _ => x

/-- The greatest integer that is not above. -/
def floor : Float → Float := towards Int.fdiv

/-- The least integer that is not below. -/
def ceiling : Float → Float := towards fun n d => -Int.fdiv (-n) d

end FiniteCalculus.Double
