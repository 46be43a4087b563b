import FiniteCalculus.Decimal.Shortest
import FiniteCalculus.Nearest
import FiniteCalculus.Fault

/-! Rounding at a decimal place. The exact value is rounded once, a tie going to
the even digit; for a double the rounded decimal is then read back. A negative
place is one before the point. -/

namespace FiniteCalculus
set_option autoImplicit false

namespace Decimal

/-- An integer rounded at a decimal place. A power of ten with more digits than
the integer is not formed: the integer is less than half of it. -/
def roundInt (n : Int) (places : Int) : Int :=
  if 0 ≤ places then n
  else if digitCount n.natAbs < (-places).toNat then 0
  else
    let step := powerOfTen (-places)
    Double.signed (n < 0) (nearestQuotient n.natAbs step * step)

/-- Beyond the first bound every double is a multiple of the decimal unit, and
beyond the second every double is less than half of it. -/
def finestPlaces : Int := 323

def coarsestPlaces : Int := -308

/-- The multiple of `10 ^ -places` nearest to `m * 2 ^ e`, counted in that unit. -/
def unitsAt (m : Nat) (e : Int) (places : Int) : Nat :=
  nearestQuotient (m * powerOfTwo e * powerOfTen places) (powerOfTwo (-e) * powerOfTen (-places))

/-- A double rounded at a decimal place. What is not finite stays as it is. -/
def roundDouble (x : Float) (places : Int) : Except Fault Float :=
  match Double.parts x with
  | .finite s m e =>
    if m = 0 ∨ finestPlaces < places then .ok x
    else if places < coarsestPlaces then .ok (Double.zero s)
    else
      let y := Double.ofDecimal (unitsAt m e places) (-places)
      if y.isInf then .error .roundedTooLarge else .ok (if s then -y else y)
  | _ => .ok x

theorem roundInt_of_nonneg {n places : Int} (h : 0 ≤ places) : roundInt n places = n := by
  simp [roundInt, h]

example : roundInt 25 (-1) = 20 := by decide +kernel
example : roundInt (-35) (-1) = -40 := by decide +kernel
example : unitsAt 5 (-1) 0 = 2 := by decide +kernel

end Decimal

end FiniteCalculus
