import FiniteCalculus.Evaluation

/-! Ranges of index values. A range runs from its first value by repeated addition
of the step as long as it is strictly before the last value, and then yields the
last value itself, once. Nothing here rounds a bound or a step: the index has
whatever arithmetic its values have. -/

namespace FiniteCalculus
set_option autoImplicit false

structure IndexRange where
  first : Value
  last : Value
  step : Value

inductive Direction where
  | ascending
  | descending
deriving DecidableEq, Repr

/-- Whether `a` comes strictly before `b`. -/
def Direction.before (d : Direction) (a b : Value) : Bool :=
  match d with
  | ascending => a.lt b
  | descending => b.lt a

namespace IndexRange

/-- The direction of a range whose step leads from its first to its last value. -/
def direction? (r : IndexRange) : Option Direction :=
  if r.first.le r.last && (Value.int 0).lt r.step then some .ascending
  else if r.last.le r.first && r.step.lt (.int 0) then some .descending
  else none

/-- As many values as there are doubles, and one for each integer between the
bounds. A range that has an end reaches it within so many steps. -/
def limit (r : IndexRange) : Nat :=
  let span := match r.first.nearestInteger, r.last.nearestInteger with
    | .ok a, .ok b => (b - a).natAbs
    | _, _ => 0
  powerOfTwo 64 + span

/-- Visits the values from an index on, each with what came of those before it. -/
def walk (r : IndexRange) (d : Direction) (visit : Value → Value → Evaluation Value) :
    Nat → Value → Value → Evaluation Value
  | 0, _, _ => throw .endless
  | n + 1, index, total =>
    if d.before index r.last then do
      let total ← visit total index
      let next ← Evaluation.lift (index.add r.step)
      walk r d visit n next total
    else visit total r.last

/-- Visits the values of a range in order. A range whose step leads nowhere has a
single value if its bounds are equal, and otherwise none, which is noticed. -/
def fold (r : IndexRange) (visit : Value → Value → Evaluation Value) (total : Value) :
    Evaluation Value :=
  match r.direction? with
  | some d => walk r d visit r.limit r.first total
  | none =>
    if r.first.equal r.last then visit total r.first
    else do
      Evaluation.record (.noticed (.emptyRange r.first r.last r.step))
      return total

end IndexRange

end FiniteCalculus
