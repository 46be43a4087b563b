import FiniteCalculus.Transcendentals
import FiniteCalculus.Elementary.Arithmetic

/-! Circular functions and angles. The functions that are a reciprocal are
undefined where the reciprocated one is exactly zero, and the quotients
`sin x / x` keep their gap at zero. -/

namespace FiniteCalculus.Elementary
set_option autoImplicit false
variable [Transcendentals]

def pi : Float := 3.141592653589793

def cotangent (x : Float) : Float := reciprocal (Transcendentals.tan x)

def secant (x : Float) : Float := reciprocal (Transcendentals.cos x)

def cosecant (x : Float) : Float := reciprocal (Transcendentals.sin x)

/-- The angle with the given cotangent; a quarter turn for zero. -/
def arccotangent (x : Float) : Float := Transcendentals.atan (1.0 / x)

/-- Degrees to radians. -/
def radians (x : Float) : Float := x * (pi / 180.0)

/-- Radians to degrees. -/
def degrees (x : Float) : Float := x * (180.0 / pi)

def cardinalSine (x : Float) : Float :=
  if isZero x then Double.nan else Transcendentals.sin x / x

/-- The cardinal sine of `x` half turns. -/
def normalizedCardinalSine (x : Float) : Float := cardinalSine (pi * x)

end FiniteCalculus.Elementary
