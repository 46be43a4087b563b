/-! The functions of doubles that are not fixed by the arithmetic of doubles. The
library's formulas take them as given, so a law about a formula that needs
nothing of them holds for every choice. -/

namespace FiniteCalculus
set_option autoImplicit false

class Transcendentals where
  sin : Float → Float
  cos : Float → Float
  tan : Float → Float
  asin : Float → Float
  acos : Float → Float
  atan : Float → Float
  log : Float → Float
  log10 : Float → Float
  exp : Float → Float
  sinh : Float → Float
  cosh : Float → Float
  tanh : Float → Float
  pow : Float → Float → Float

/-- The functions of the machine. -/
instance : Transcendentals where
  sin := Float.sin
  cos := Float.cos
  tan := Float.tan
  asin := Float.asin
  acos := Float.acos
  atan := Float.atan
  log := Float.log
  log10 := Float.log10
  exp := Float.exp
  sinh := Float.sinh
  cosh := Float.cosh
  tanh := Float.tanh
  pow := Float.pow

/-- A power of doubles. The exponent one half takes the square root, which keeps the
sign of a zero and is undefined below. -/
def Transcendentals.power [Transcendentals] (x y : Float) : Float :=
  if y == 0.5 then x.sqrt else pow x y

end FiniteCalculus
