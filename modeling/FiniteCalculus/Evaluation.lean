import FiniteCalculus.NumericFunction
import FiniteCalculus.Store

/-! Evaluations read and assign arguments and keep a journal. What they did before
a fault is not undone: the arguments keep their values and the journal its entries. -/

namespace FiniteCalculus
set_option autoImplicit false

/-- The two operators that combine a body over an index range. -/
inductive Iteration where
  | sum
  | product
deriving DecidableEq, Repr

def Iteration.name : Iteration → String
  | sum => "summation"
  | product => "product"

/-- What an iterated operator remarks about its range. -/
inductive Notice where
  | undefinedBounds (operator : Iteration) (first last step : Value)
  | emptyRange (first last step : Value)

inductive Event where
  /-- A function was applied to values. -/
  | applied (function : String) (args : List Value)
  /-- A body was evaluated while the argument that is watched held the value. -/
  | visited (value : Value)
  | noticed (notice : Notice)

structure Situation where
  store : Store
  /-- The latest event first. -/
  journal : List Event := []

abbrev Evaluation := EStateM Fault Situation

namespace Situation

def assign (s : Situation) (x : Argument) (v : Value) : Situation :=
  { s with store := s.store.set x v }

def record (s : Situation) (e : Event) : Situation := { s with journal := e :: s.journal }

end Situation

namespace Evaluation
variable {α : Type}

def lift : Except Fault α → Evaluation α
  | .ok a => pure a
  | .error e => throw e

def read (x : Argument) : Evaluation Value := return (← get).store.get x

def assign (x : Argument) (v : Value) : Evaluation Unit := modify (·.assign x v)

def record (e : Event) : Evaluation Unit := modify (·.record e)

/-- The body after an assignment, which stays. -/
def valueAt (x : Argument) (v : Value) (body : Evaluation Value) : Evaluation Value := do
  assign x v
  body

/-- The body, after which the argument gets a value in any case. -/
def restoring (x : Argument) (v : Value) (body : Evaluation α) : Evaluation α := fun s =>
  match body s with
  | .ok a s => .ok a (s.assign x v)
  | .error e s => .error e (s.assign x v)

/-- The body, with the value of an argument recorded at its start. -/
def watching (x : Argument) (body : Evaluation Value) : Evaluation Value := do
  record (.visited (← read x))
  body

/-- A function applied to values, with the call recorded before it can fault. -/
def call (f : NumericFunction) (args : List Value) : Evaluation Value := do
  record (.applied f.name args)
  lift (f.apply args)

end Evaluation

end FiniteCalculus
