import FiniteCalculus.Expression.Basic

/-! Evaluators: expressions frozen at one moment. An evaluator has its own copy of
every constant, name and part, and reads from outside only what the arguments hold
when it runs. -/

namespace FiniteCalculus
set_option autoImplicit false

inductive Evaluator where
  | constant (name : String) (c : Value)
  | reference (name : String) (x : Argument)
  | application (name : String) (f : NumericFunction) (args : List Evaluator)
  | scaling (name : String) (factor : Value) (part : Evaluator)
  | addition (name : String) (coefficient : Value) (left right : Evaluator)
  | multiplication (name : String) (left right : Evaluator)
  | iteration (name : String) (op : Iteration) (index : Argument)
    (body start stop step : Evaluator)
  | difference (name : String) (d : Difference) (x : Argument)
    (body width : Evaluator) (point : Option Evaluator)

namespace Evaluator

def name : Evaluator → String
  | constant name .. | reference name .. | application name .. | scaling name ..
  | addition name .. | multiplication name .. | iteration name .. | difference name .. => name

def className : Evaluator → String
  | iteration .. => "_IteratedOperatorEval"
  | difference .. => "_DifferenceEval"
  | _ => "TrivialEvaluator"

/-- The evaluators of the parts. -/
def parts : Evaluator → List Evaluator
  | constant .. | reference .. => []
  | application _ _ args => args
  | scaling _ _ part => [part]
  | addition _ _ left right | multiplication _ left right => [left, right]
  | iteration _ _ _ body start stop step => [body, start, stop, step]
  | difference _ _ _ body width point => [body, width] ++ point.toList

def report (ev : Evaluator) : String := "<" ++ ev.className ++ " of " ++ ev.name ++ ">"

/-- The point that an evaluated one stands for; an absent value is no point. -/
def pointOf : Value → Option Value
  | .absent => none
  | v => some v

mutual

/-- The value for what the arguments hold. Parts are evaluated from left to right,
each once; the bounds and step of an iterated operator, and the point and width of
a difference, before the body. -/
def value : Evaluator → Evaluation Value
  | constant _ c => pure c
  | reference _ x => Evaluation.read x
  | application _ f args => do Evaluation.call f (← values args)
  | scaling _ factor part => do Evaluation.lift (factor.mul (← value part))
  | addition _ coefficient left right => do
    let v ← value left
    let w ← value right
    if coefficient.equal (.double 1.0) then Evaluation.lift (v.add w)
    else Evaluation.lift (do v.add (← coefficient.mul w))
  | multiplication _ left right => do
    let v ← value left
    let w ← value right
    Evaluation.lift (v.mul w)
  | iteration _ op index body start stop step => do
    let first ← value start
    let last ← value stop
    let step ← value step
    op.overRange (value body) index ⟨first, last, step⟩
  | difference _ d x body width none => do
    let step ← value width
    d.of (value body) x none step
  | difference _ d x body width (some point) => do
    let v ← value point
    let step ← value width
    d.of (value body) x (pointOf v) step

def values : List Evaluator → Evaluation (List Value)
  | [] => pure []
  | ev :: rest => do
    let v ← value ev
    let vs ← values rest
    return v :: vs

end

end Evaluator

namespace Label

/-- The evaluator of a node, given those of its parts. -/
def evaluator (l : Label) (parts : List (String × Except Fault Evaluator)) :
    Except Fault Evaluator :=
  let part (key : String) : Except Fault Evaluator :=
    (parts.lookup key).getD (.error (.missingPart key))
  match l.shape with
  | .constant c => .ok (.constant l.name c)
  | .reference x => .ok (.reference l.name x)
  | .application f _ count => do
    return .application l.name f (← (List.range count).mapM fun i => part (Key.arg i))
  | .scaling factor => return .scaling l.name factor (← part Key.scaled)
  | .addition coefficient =>
    return .addition l.name coefficient (← part Key.left) (← part Key.right)
  | .multiplication => return .multiplication l.name (← part Key.left) (← part Key.right)
  | .iteration op index =>
    return .iteration l.name op index (← part Key.body) (← part Key.start) (← part Key.stop)
      (← part Key.step)
  | .difference d x => do
    let body ← part Key.body
    let width ← part Key.width
    match parts.lookup Key.point with
    | none => return .difference l.name d x body width none
    | some point => return .difference l.name d x body width (some (← point))

end Label

/-- The evaluator of an expression. -/
def Expression.evaluator : Expression → Except Fault Evaluator := fold Label.evaluator

end FiniteCalculus
