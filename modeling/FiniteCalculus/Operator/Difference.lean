import FiniteCalculus.Evaluation

/-! Forward and backward differences of a body with respect to an argument. The
argument gets back the value that it held, whatever the body does and also when it
faults. At a given point the greater evaluation point comes first; otherwise the
value that the argument holds comes first. -/

namespace FiniteCalculus
set_option autoImplicit false

inductive Difference where
  | forward
  | backward
deriving DecidableEq, Repr

namespace Difference

/-- The other evaluation point, one step away. -/
def neighbour : Difference → Value → Value → Except Fault Value
  | forward => Value.add
  | backward => Value.sub

/-- The value further along less the value before it. -/
def between (d : Difference) (here there : Value) : Except Fault Value :=
  match d with
  | forward => there.sub here
  | backward => here.sub there

/-- The difference at a given point. -/
def atPoint (d : Difference) (body : Evaluation Value) (x : Argument) (point step : Value) :
    Evaluation Value := do
  match d with
  | forward =>
    let there ← Evaluation.valueAt x (← Evaluation.lift (d.neighbour point step)) body
    let here ← Evaluation.valueAt x point body
    Evaluation.lift (d.between here there)
  | backward =>
    let here ← Evaluation.valueAt x point body
    let there ← Evaluation.valueAt x (← Evaluation.lift (d.neighbour point step)) body
    Evaluation.lift (d.between here there)

/-- The difference at the value that the argument holds. -/
def atCurrent (d : Difference) (body : Evaluation Value) (x : Argument) (current step : Value) :
    Evaluation Value := do
  let here ← body
  let there ← Evaluation.valueAt x (← Evaluation.lift (d.neighbour current step)) body
  Evaluation.lift (d.between here there)

/-- The difference at a point, or at the value of the argument if none is given.
At an undefined point nothing is evaluated, and the difference is undefined. -/
def of (d : Difference) (body : Evaluation Value) (x : Argument) (point : Option Value)
    (step : Value) : Evaluation Value := do
  let current ← Evaluation.read x
  if ← Evaluation.lift (point.getD current).isNaN then return Value.nan
  else Evaluation.restoring x current <|
    match point with
    | some point => d.atPoint body x point step
    | none => d.atCurrent body x current step

end Difference

end FiniteCalculus
