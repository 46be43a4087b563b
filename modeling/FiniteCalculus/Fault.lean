import FiniteCalculus.Value.Basic

/-! Why a computation on values stops without a result. An undefined number is
no fault: it is the double that is no number. -/

namespace FiniteCalculus
set_option autoImplicit false

inductive Fault where
  /-- A value that is no real number met the test for an undefined number. -/
  | notReal (kind : Kind)
  /-- An integer rounds beyond the range of doubles. -/
  | integerTooLarge
  | infinityToInteger
  | nanToInteger
  /-- A double rounded at a decimal place leaves the range of doubles. -/
  | roundedTooLarge
  /-- No meaning of the operator fits the kinds of its operands. -/
  | unsupported (operator : String) (left right : Kind)
  /-- The comparison has no meaning for these kinds. -/
  | incomparable (operator : String) (left right : Kind)
  /-- A function was given a number of values that it does not take. -/
  | wrongCount (function : String) (given : Nat)
  /-- An integer parameter was given something else. -/
  | notInteger (kind : Kind)
  /-- An expression lacks the sub-expression that its evaluation asks for. -/
  | missingPart (key : String)
  /-- An expression contains itself. -/
  | cyclic
  /-- An index range that never reaches its end. -/
  | endless
deriving DecidableEq, Repr

def Fault.message : Fault → String
  | notReal kind => "must be real number, not " ++ kind.name
  | integerTooLarge => "int too large to convert to float"
  | infinityToInteger => "cannot convert float infinity to integer"
  | nanToInteger => "cannot convert float NaN to integer"
  | roundedTooLarge => "rounded value too large to represent"
  | unsupported operator left right =>
    "unsupported operand type(s) for " ++ operator ++ ": '" ++ left.name ++ "' and '" ++
      right.name ++ "'"
  | incomparable operator left right =>
    "'" ++ operator ++ "' not supported between instances of '" ++ left.name ++ "' and '" ++
      right.name ++ "'"
  | wrongCount function given => function ++ "() does not take " ++ toString given ++ " values"
  | notInteger kind => "'" ++ kind.name ++ "' object cannot be interpreted as an integer"
  | missingPart key => "missing sub-expression " ++ key
  | cyclic => "the expression contains itself"
  | endless => "the index range never ends"

end FiniteCalculus
