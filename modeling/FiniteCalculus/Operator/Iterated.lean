import FiniteCalculus.Operator.IndexRange

/-! Sums and products of a body over a range of values of its index. The index
keeps the last value that was assigned to it. -/

namespace FiniteCalculus
set_option autoImplicit false

namespace Iteration

/-- The sum or product of nothing. -/
def start : Iteration → Value
  | sum => .double 0.0
  | product => .double 1.0

def combine : Iteration → Value → Value → Except Fault Value
  | sum => Value.add
  | product => Value.mul

/-- Assigns an index value, evaluates the body, and takes its value in. -/
def visit (op : Iteration) (body : Evaluation Value) (index : Argument) (total v : Value) :
    Evaluation Value := do
  let term ← Evaluation.valueAt index v body
  Evaluation.lift (op.combine total term)

/-- The operator over a range. An undefined bound or step is noticed before the
index is touched, and makes the result undefined. -/
def overRange (op : Iteration) (body : Evaluation Value) (index : Argument) (r : IndexRange) :
    Evaluation Value := do
  if ← Evaluation.lift (Value.anyNaN [r.step, r.first, r.last]) then
    Evaluation.record (.noticed (.undefinedBounds op r.first r.last r.step))
    return Value.nan
  else r.fold (op.visit body index) op.start

end Iteration

end FiniteCalculus
