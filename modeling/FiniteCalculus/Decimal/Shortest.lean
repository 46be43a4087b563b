import FiniteCalculus.Double.Parts

/-! The shortest decimal that reads back as a given double. A double stands for
every real number nearer to it than to its neighbours; on the decimal grids of 1,
2, … 17 digits the two grid points around the double are tried, and the first
grid with a point inside that interval wins. -/

namespace FiniteCalculus
set_option autoImplicit false

/-- The positive number `coefficient * 10 ^ exponent`. -/
structure Decimal where
  coefficient : Nat
  exponent : Int
deriving DecidableEq, Repr

namespace Decimal

/-- How many decimal digits a number has; `0` has none. -/
def digitCount (n : Nat) : Nat :=
  if n = 0 then 0 else digitCount (n / 10) + 1
termination_by n

/-- The same number with a coefficient that does not end in `0`. -/
def trim (coefficient : Nat) (exponent : Int) : Decimal :=
  if coefficient = 0 then ⟨0, 0⟩
  else if coefficient % 10 = 0 then trim (coefficient / 10) (exponent + 1)
  else ⟨coefficient, exponent⟩
termination_by coefficient
decreasing_by omega

/-- The exponent `p` with `10 ^ (p - 1) ≤ n / d < 10 ^ p`. -/
def scale (n d : Nat) : Int :=
  if d ≤ n then digitCount (n / d)
  else 1 - (digitCount ((d + n - 1) / n - 1) : Int)

/-- The real numbers that read back as one double, as multiples of a common unit
`1 / unit`: from `low` to `high`, with the ends if `closed`, around `center`. -/
structure Interval where
  low : Nat
  center : Nat
  high : Nat
  unit : Nat
  closed : Bool
deriving Repr

/-- The numbers that read back as `m * 2 ^ e`. Below a power of two the next
double is only half as far away as above it. -/
def Interval.around (m : Nat) (e : Int) : Interval :=
  let narrow := m = powerOfTwo 52 ∧ Double.leastExponent < e
  let grow := powerOfTwo e
  { low := (4 * m - if narrow then 1 else 2) * grow
    center := 4 * m * grow
    high := (4 * m + 2) * grow
    unit := 4 * powerOfTwo (-e)
    closed := m % 2 == 0 }

/-- Whether `c * 10 ^ k` lies in the interval. -/
def Interval.holds (i : Interval) (c : Nat) (k : Int) : Bool :=
  let point := c * powerOfTen k * i.unit
  let under := powerOfTen (-k)
  if i.closed then i.low * under ≤ point && point ≤ i.high * under
  else i.low * under < point && point < i.high * under

/-- The grid point in the interval that is nearest to its center, among the
multiples of `10 ^ k`; of two equally near ones the even one. -/
def Interval.nearest? (i : Interval) (k : Int) : Option Nat :=
  let num := i.center * powerOfTen (-k)
  let den := i.unit * powerOfTen k
  let below := num / den
  let twice := 2 * (num % den)
  match i.holds below k, i.holds (below + 1) k with
  | true, true =>
    some (if twice < den then below else if den < twice then below + 1 else below + below % 2)
  | true, false => some below
  | false, true => some (below + 1)
  | false, false => none

/-- The shortest decimal for the double `m * 2 ^ e`. Seventeen digits always
suffice, so the last grid is never empty. -/
def shortest (m : Nat) (e : Int) : Decimal :=
  let i := Interval.around m e
  let top := scale i.center i.unit
  let found := (List.range 17).findSome? fun (n : Nat) =>
    let k : Int := top - (n + 1)
    (i.nearest? k).map (trim · k)
  found.getD ⟨0, 0⟩

example : shortest 1 (-1074) = ⟨5, -324⟩ := by decide +kernel
example : shortest (powerOfTwo 52) (-52) = ⟨1, 0⟩ := by decide +kernel
example : shortest 7205759403792794 (-56) = ⟨1, -1⟩ := by decide +kernel
example : shortest (powerOfTwo 52) (-96) = ⟨5684341886080802, -29⟩ := by decide +kernel

end Decimal

end FiniteCalculus
