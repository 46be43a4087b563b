import FiniteCalculus.Powers

/-! A double seen as what it stands for: no number, an infinity, or a signed
dyadic `± m * 2 ^ e`. The view and its inverse up to rounding are the only places
that know how a double is stored; the arithmetic of doubles is that of `Float`. -/

namespace FiniteCalculus.Double
set_option autoImplicit false
open Float.Model (UnpackedFloat Format)

/-- What a double stands for. A zero is `finite` with mantissa `0`. -/
inductive Parts where
  | notNumber
  | infinite (negative : Bool)
  | finite (negative : Bool) (mantissa : Nat) (exponent : Int)
deriving DecidableEq, Repr

/-- The exponent of the smallest positive double. -/
def leastExponent : Int := -1074

def parts (x : Float) : Parts :=
  match x.toModel.unpack with
  | .notANumber => .notNumber
  | .infinity sign => .infinite (sign == .negative)
  | .zero sign => .finite (sign == .negative) 0 leastExponent
  | .finite sign m e _ => .finite (sign == .negative) m e

/-- The integer with the given sign and magnitude. -/
def signed (negative : Bool) (m : Nat) : Int := if negative then -m else m

/-- The double nearest to `± m * 2 ^ e`, a tie going to the even mantissa. -/
def ofDyadic (negative : Bool) (m : Nat) (e : Int) : Float :=
  .ofModel (.pack (UnpackedFloat.round Format.binary64 (if negative then .negative else .positive) m e))

/-- The double nearest to an integer, a tie going to the even mantissa. -/
def nearestToInt (n : Int) : Float := .ofModel (.ofInt n)

/-- The double nearest to `m * 10 ^ e`, a tie going to the even mantissa. -/
def ofDecimal (m : Nat) (e : Int) : Float := .ofModel (.ofScientific m e)

def nan : Float := Float.ofBits 0x7FF8000000000000

def infinity : Float := Float.ofBits 0x7FF0000000000000

/-- Zero with the given sign. -/
def zero (negative : Bool) : Float := if negative then -0.0 else 0.0

theorem signed_neg (s : Bool) (m : Nat) : signed (!s) m = -signed s m := by
  cases s <;> simp [signed]

theorem natAbs_signed (s : Bool) (m : Nat) : (signed s m).natAbs = m := by
  cases s <;> simp [signed]

theorem parts_nan : parts nan = .notNumber := by decide

theorem parts_infinity : parts infinity = .infinite false := by decide

theorem parts_one : parts 1.0 = .finite false 4503599627370496 (-52) := by decide

end FiniteCalculus.Double
