import FiniteCalculus.Discrete.Forms
import FiniteCalculus.Elementary.Circular
import FiniteCalculus.Elementary.ContinuedFraction
import FiniteCalculus.Elementary.Logarithm
import FiniteCalculus.Elementary.Selection
import FiniteCalculus.Rounding

/-! The functions under their public names: the elementary ones, the combinatorial
ones on integers, and those rounded to functions of doubles. Expressions draw on
the first and the last of these lists. -/

namespace FiniteCalculus.Catalogue
set_option autoImplicit false
open NumericFunction Elementary Discrete
variable [Transcendentals]

/-- Integers are read as the nearest doubles. The functions are meant for integers of at most
64 bits, and nothing here tells larger ones apart from those. -/
def elementary : List NumericFunction := [
  ofDoublePair "div" divide,
  ofDoublePair "mod" Double.remainder,
  ofDoublePair "power" Transcendentals.power,
  ofDoublePair "log" logarithm,
  ofDouble "sin" Transcendentals.sin,
  ofDouble "cos" Transcendentals.cos,
  ofDouble "tan" Transcendentals.tan,
  ofDouble "ctan" cotangent,
  ofDouble "sec" secant,
  ofDouble "cosec" cosecant,
  ofDouble "asin" Transcendentals.asin,
  ofDouble "acos" Transcendentals.acos,
  ofDouble "atan" Transcendentals.atan,
  ofDouble "actan" arccotangent,
  ofDouble "ln" Transcendentals.log,
  ofDouble "log2" binaryLogarithm,
  ofDouble "log10" Transcendentals.log10,
  ofDouble "rad" radians,
  ofDouble "deg" degrees,
  ofDouble "exp" Transcendentals.exp,
  ofDouble "sqrt" Float.sqrt,
  ofDouble "sinh" Transcendentals.sinh,
  ofDouble "cosh" Transcendentals.cosh,
  ofDouble "tanh" Transcendentals.tanh,
  ofDouble "coth" hyperbolicCotangent,
  ofDouble "sech" hyperbolicSecant,
  ofDouble "csch" hyperbolicCosecant,
  ofDouble "arsinh" areaSine,
  ofDouble "arcosh" areaCosine,
  ofDouble "artanh" areaTangent,
  ofDouble "arcoth" areaCotangent,
  ofDouble "arsech" areaSecant,
  ofDouble "arcsch" areaCosecant,
  ofDouble "sa" normalizedCardinalSine,
  ofDouble "sinc" cardinalSine,
  ofDouble "abs" Float.abs,
  ofDouble "sgn" sign,
  ofDouble "floor" Double.floor,
  ofDouble "ceil" Double.ceiling,
  characteristic .excluded .excluded "chi",
  characteristic .included .included "chi_lr",
  characteristic .included .excluded "chi_l",
  characteristic .excluded .included "chi_r",
  kroneckerDelta,
  ofValues "min" least,
  ofValues "max" greatest,
  ofValues "continued_fraction" ContinuedFraction.ofValues,
  ofValues "continued_polynomial" ContinuedFraction.continuantOfValues]

def integers : List NumericFunction := [
  ofInteger "factorial" factorialOf,
  ofValuePair "binom_coeff" fun n k => do asValue (binomialOf n (← integer k)),
  ofInteger "bell_number" bellOf,
  ofIntegerPair "euler_number" eulerianOf,
  ofIntegerPair "bernoulli_number" bernoulliOf,
  ofIntegerPair "stirling1_number" stirlingCycleOf,
  ofIntegerPair "stirling2_number" stirlingPartitionOf,
  ofIntegerPair "worpitzky_number" worpitzkyOf,
  ofInteger "harmonic_number" harmonicOf,
  ofValuePair "generalized_harmonic_number" fun x n => do generalizedHarmonicOf x (← integer n),
  ofInteger "catalan_number" catalanOf,
  ofInteger "fibonacci_number" fibonacciOf,
  ofInteger "lucas_number" lucasOf,
  ofValuePair "kronecker_delta" fun v w => .ok (delta v w),
  ofValuePair "euler_polynomial" fun m x => do asValue (eulerPolynomialOf (← integer m) x),
  ofIntegers "gcd" greatestCommonDivisor,
  ofIntegers "lcm" leastCommonMultiple]

/-- Tests of values, and the nearest integer. -/
def checks : List NumericFunction := [
  ofValue "isnan" fun v => do return .bool (← v.isNaN),
  ofValues "any_nan" fun vs => do return .bool (← Value.anyNaN vs),
  ofValue "round_half_even" fun v => do return .int (← v.nearestInteger)]

/-- The operations of doubles, with no gap of their own. Only reading a value can fault. -/
def operations : List NumericFunction := [
  ofOperation "divide" fun x y => x / y,
  ofOperation "fmod" Double.remainder,
  ofOperation "multiply" fun x y => x * y,
  ofOperation "subtract" fun x y => x - y]

/-- Yields its value; its calls show in the journal which values went through it. -/
def trace : NumericFunction := ofValue "trace" .ok

/-- How the arguments of a function on integers are rounded. The real parameter of
a binomial coefficient and of a generalized harmonic number stays as it is, and a
least common multiple is settled by its first zero. -/
def roundingOf (name : String) : Rounding where
  positions :=
    if name = "binom_coeff" ∨ name = "generalized_harmonic_number" then some [1] else none
  zeroResult := if name = "lcm" then some (.double 0.0) else none

/-- The form on doubles of a function on integers. It reads any number of values, and how
many there may be is looked at when the function on integers is called with them. A
Kronecker delta of doubles compares them as they are. -/
def rounded (f : NumericFunction) : NumericFunction :=
  if f.name = kroneckerDelta.name then kroneckerDelta
  else { f with arity := none, body := (roundingOf f.name).apply f.apply }

def special : List NumericFunction := integers.map rounded

/-- The functions that expressions apply. -/
def all : List NumericFunction := elementary ++ special

def find? (functions : List NumericFunction) (name : String) : Option NumericFunction :=
  functions.find? (·.name == name)

end FiniteCalculus.Catalogue
