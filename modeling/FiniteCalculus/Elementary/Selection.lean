import FiniteCalculus.NumericFunction

/-! Functions that compare values: characteristic functions of intervals, the
Kronecker delta, least and greatest value. Comparisons are exact, also between an
integer and a double. -/

namespace FiniteCalculus.Elementary
set_option autoImplicit false

/-- `1` or `0` as a double. -/
def indicator (b : Bool) : Value := .double (if b then 1.0 else 0.0)

/-- Whether a bound of an interval belongs to it. -/
inductive Bound where
  | included
  | excluded
deriving DecidableEq, Repr

/-- Whether `a` lies before `b`, or on it if the bound is included. -/
def Bound.before (bound : Bound) (a b : Value) : Bool :=
  match bound with
  | included => a.le b
  | excluded => a.lt b

/-- The characteristic function of the interval from `a` to `b`, at `x`. -/
def characteristic (left right : Bound) (name : String) : NumericFunction where
  name := name
  arity := some 3
  body := NumericFunction.definedBy fun
    | [x, a, b] => .ok (indicator (left.before a x && right.before x b))
    | args => .error (.wrongCount name args.length)

/-- `1` for two equal values and `0` for others, without any rounding. -/
def delta (v w : Value) : Value := indicator (v.equal w)

/-- The Kronecker delta, undefined if one of the values is. -/
def kroneckerDelta : NumericFunction where
  name := "kronecker_delta"
  arity := some 2
  body := NumericFunction.definedBy fun
    | [v, w] => .ok (delta v w)
    | args => .error (.wrongCount "kronecker_delta" args.length)

/-- The value that is kept by a scan from left to right, in which a value replaces
the kept one if it is better. The first undefined value ends the scan. -/
def scan (better : Value → Value → Bool) : Value → List Value → Except Fault Value
  | best, [] => return .double (← best.toDouble)
  | best, v :: vs => do
    if ← v.isNaN then return Value.nan
    else scan better (if better v best then v else best) vs

/-- The least value as a double, infinity if there is none. -/
def least : List Value → Except Fault Value := scan Value.lt (.double Double.infinity)

/-- The greatest value as a double, minus infinity if there is none. -/
def greatest : List Value → Except Fault Value :=
  scan (fun v best => best.lt v) (.double (-Double.infinity))

theorem least_nil : least [] = .ok (.double Double.infinity) := rfl

end FiniteCalculus.Elementary
