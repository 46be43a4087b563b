import FiniteCalculus.Value.Arithmetic

/-! Greatest common divisors and least common multiples of lists of integers,
combined pairwise from left to right. A single integer stays what it is, with its
sign. -/

namespace FiniteCalculus.Discrete
set_option autoImplicit false

/-- A list combined pairwise from left to right; nothing for no integers. -/
def combine (op : Int → Int → Int) : List Int → Option Int
  | [] => none
  | n :: ns => some (ns.foldl op n)

/-- Divides the first number by the second one, and this one by the rest, until nothing is
left. -/
def euclid (a b : Nat) : Nat :=
  if b = 0 then a else euclid b (a % b)
termination_by b
decreasing_by exact Nat.mod_lt a (by omega)

/-- The greatest common divisor of two integers of any sign, `0` for two zeros. -/
def commonDivisor (a b : Int) : Int := euclid a.natAbs b.natAbs

/-- The least common multiple of two integers of any sign, `0` if one of them is zero. -/
def commonMultiple (a b : Int) : Int :=
  if a = 0 ∨ b = 0 then 0 else (a * b).natAbs / commonDivisor a b

/-- A combined list as a double, undefined for no integers. -/
def combined (op : Int → Int → Int) (ns : List Int) : Except Fault Float :=
  match combine op ns with
  | none => .ok Double.nan
  | some n => Double.ofInt n

def greatestCommonDivisor : List Int → Except Fault Float := combined commonDivisor

def leastCommonMultiple : List Int → Except Fault Float := combined commonMultiple

theorem combine_singleton (op : Int → Int → Int) (n : Int) : combine op [n] = some n := rfl

end FiniteCalculus.Discrete
