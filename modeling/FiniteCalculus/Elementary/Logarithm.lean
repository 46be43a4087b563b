import FiniteCalculus.Transcendentals
import FiniteCalculus.Elementary.Arithmetic

/-! Logarithms, hyperbolic functions and their inverses. An inverse hyperbolic
function is its textbook logarithm, evaluated as it stands. -/

namespace FiniteCalculus.Elementary
set_option autoImplicit false
variable [Transcendentals]

/-- The logarithm of `x` to a base; undefined for a base whose own logarithm is zero. -/
def logarithm (x base : Float) : Float :=
  let b := Transcendentals.log base
  if isZero b then Double.nan else Transcendentals.log x / b

def binaryLogarithm (x : Float) : Float := Transcendentals.log x / Transcendentals.log 2.0

def hyperbolicCotangent (x : Float) : Float := reciprocal (Transcendentals.tanh x)

def hyperbolicSecant (x : Float) : Float := reciprocal (Transcendentals.cosh x)

def hyperbolicCosecant (x : Float) : Float := reciprocal (Transcendentals.sinh x)

def areaSine (x : Float) : Float := Transcendentals.log (x + (x * x + 1.0).sqrt)

def areaCosine (x : Float) : Float := Transcendentals.log (x + (x * x - 1.0).sqrt)

def areaTangent (x : Float) : Float :=
  if isZero (1.0 - x) then Double.nan
  else 0.5 * Transcendentals.log ((1.0 + x) / (1.0 - x))

def areaCotangent (x : Float) : Float :=
  if isZero (x - 1.0) then Double.nan
  else 0.5 * Transcendentals.log ((x + 1.0) / (x - 1.0))

def areaSecant (x : Float) : Float :=
  if isZero x then Double.nan
  else Transcendentals.log ((1.0 + (1.0 - x * x).sqrt) / x)

def areaCosecant (x : Float) : Float :=
  if isZero x then Double.nan
  else Transcendentals.log (1.0 / x + (1.0 + x * x).sqrt / x.abs)

end FiniteCalculus.Elementary
