import FiniteCalculus.Expression.Evaluator

/-! Evaluators in memory. Each is made after its parts and keeps them in a list of its own. Who
asks for the parts gets a new list of them and may put anything into it; the list that the
evaluator keeps is not handed out. -/

namespace FiniteCalculus
set_option autoImplicit false

/-- An evaluator that was made. The same one is told from another with the same parts. -/
structure EvaluatorId where
  index : Nat
deriving DecidableEq, Repr

structure ListId where
  index : Nat
deriving DecidableEq, Repr

structure Kept where
  evaluator : Evaluator
  /-- The list in which it keeps its parts. -/
  parts : ListId

/-- The evaluators made so far, and what the lists of evaluators hold. -/
structure Memory where
  kept : Array Kept := #[]
  lists : Array (List EvaluatorId) := #[]

namespace Memory

def kept? (m : Memory) (e : EvaluatorId) : Option Kept := m.kept[e.index]?

def evaluator? (m : Memory) (e : EvaluatorId) : Option Evaluator := (m.kept? e).map Kept.evaluator

def list? (m : Memory) (l : ListId) : Option (List EvaluatorId) := m.lists[l.index]?

def newList (members : List EvaluatorId) : StateM Memory ListId :=
  fun m => (⟨m.lists.size⟩, { m with lists := m.lists.push members })

/-- Keeps an evaluator, with its parts in a new list. -/
def keep (ev : Evaluator) (parts : List EvaluatorId) : StateM Memory EvaluatorId := do
  let l ← newList parts
  modifyGet fun m => (⟨m.kept.size⟩, { m with kept := m.kept.push ⟨ev, l⟩ })

mutual

/-- Makes an evaluator and all below it. -/
def create : Evaluator → StateM Memory EvaluatorId
  | .constant name c => keep (.constant name c) []
  | .reference name x => keep (.reference name x) []
  | .application name f args => do
    let args' ← createAll args
    keep (.application name f args) args'
  | .scaling name factor part => do
    let part' ← create part
    keep (.scaling name factor part) [part']
  | .addition name coefficient left right => do
    let left' ← create left
    let right' ← create right
    keep (.addition name coefficient left right) [left', right']
  | .multiplication name left right => do
    let left' ← create left
    let right' ← create right
    keep (.multiplication name left right) [left', right']
  | .iteration name op index body start stop step => do
    let body' ← create body
    let start' ← create start
    let stop' ← create stop
    let step' ← create step
    keep (.iteration name op index body start stop step) [body', start', stop', step']
  | .difference name d x body width none => do
    let body' ← create body
    let width' ← create width
    keep (.difference name d x body width none) [body', width']
  | .difference name d x body width (some point) => do
    let body' ← create body
    let width' ← create width
    let point' ← create point
    keep (.difference name d x body width (some point)) [body', width', point']

def createAll : List Evaluator → StateM Memory (List EvaluatorId)
  | [] => return []
  | ev :: rest => do
    let e ← create ev
    let others ← createAll rest
    return e :: others

end

/-- The parts of an evaluator, in a new list. -/
def subEvaluators (m : Memory) (e : EvaluatorId) : Option (ListId × Memory) := do
  let kept ← m.kept? e
  let members ← m.list? kept.parts
  return newList members m

/-- Puts evaluators into a list in the place of those that it holds. -/
def write (m : Memory) (l : ListId) (members : List EvaluatorId) : Memory :=
  { m with lists := m.lists.setIfInBounds l.index members }

end Memory

end FiniteCalculus
