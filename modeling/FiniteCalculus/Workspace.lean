import FiniteCalculus.Expression.Building

/-! A workspace: the expressions made so far and the values that their arguments
hold. Running an evaluation changes the values only, and also when it faults. -/

namespace FiniteCalculus
set_option autoImplicit false

structure Workspace where
  graph : Graph := {}
  store : Store := {}

/-- What running an evaluation comes to. -/
structure Outcome where
  result : Except Fault Value
  /-- The events in the order in which they happened. -/
  events : List Event
  workspace : Workspace

namespace Workspace

/-- A new argument with a value. -/
def declare (w : Workspace) (name : Operand) (initial : Value) :
    Except Misuse (Argument × Workspace) := do
  let (x, graph) ← w.graph.declare name
  return (x, { graph := graph, store := w.store.set x initial })

def get (w : Workspace) (x : Argument) : Value := w.store.get x

def set (w : Workspace) (x : Argument) (v : Value) : Workspace :=
  { w with store := w.store.set x v }

/-- An argument with its value. -/
def reportArgument (w : Workspace) (x : Argument) : String :=
  "<Argument " ++ w.graph.argumentName x ++ "=" ++ (w.get x).toText ++ ">"

def run (w : Workspace) (body : Evaluation Value) : Outcome :=
  match body { store := w.store } with
  | .ok v s => ⟨.ok v, s.journal.reverse, { w with store := s.store }⟩
  | .error fault s => ⟨.error fault, s.journal.reverse, { w with store := s.store }⟩

/-- The evaluation that an operand stands for; an expression is taken as it is now. -/
def body (w : Workspace) : Operand → Evaluation Value
  | .value v => pure v
  | .argument x => Evaluation.read x
  | .expression e =>
    match w.graph.evaluator e with
    | .ok ev => ev.value
    | .error fault => throw fault
  | .evaluator ev => ev.value

/-- The value of an operand, for what the arguments hold. -/
def calculate (w : Workspace) (operand : Operand) : Outcome := w.run (w.body operand)

end Workspace

end FiniteCalculus
