import FiniteCalculus.Operator.Difference
import FiniteCalculus.Operator.Iterated

/-! What an expression is made of. A node has a shape with its own constants, a
name, and sub-expressions under keys. Nodes live in a graph and are told apart by
their place in it, so one node can be a part of many others; an expression is what
a node and its parts unfold to. -/

namespace FiniteCalculus
set_option autoImplicit false

structure ExprId where
  index : Nat
deriving DecidableEq, Repr

/-- What a node computes from the values of its parts. -/
inductive Shape where
  | constant (c : Value)
  | reference (x : Argument)
  | application (f : NumericFunction) (description : String) (count : Nat)
  | scaling (factor : Value)
  | addition (coefficient : Value)
  | multiplication
  | iteration (op : Iteration) (index : Argument)
  | difference (d : Difference) (x : Argument)

namespace Shape

def className : Shape → String
  | constant _ => "ConstantExpression"
  | reference _ => "ArgumentExpression"
  | application .. => "FunctionExpression"
  | scaling _ => "ScaleExpression"
  | addition _ => "SumExpression"
  | multiplication => "ProductExpression"
  | iteration .sum _ => "SummationExpression"
  | iteration .product _ => "IteratedProductExpression"
  | difference .forward _ => "ForwardDifferenceExpression"
  | difference .backward _ => "BackwardDifferenceExpression"

/-- The argument that a node reads itself, its parts aside. -/
def ownArgument? : Shape → Option Argument
  | reference x => some x
  | _ => none

/-- Only a constant is known to be zero. -/
def isZero : Shape → Bool
  | constant c => c.equal (.int 0)
  | _ => false

end Shape

/-! The keys of the sub-expressions that shapes ask for. -/

namespace Key

def arg (i : Nat) : String := "arg" ++ toString i
def scaled : String := "e"
def left : String := "e1"
def right : String := "e2"
def body : String := "f"
def start : String := "start"
def stop : String := "end"
def step : String := "step"
def width : String := "h"
def point : String := "x0"

end Key

structure Node where
  shape : Shape
  name : String
  verbosity : Value := .int 1
  /-- The parts that the node goes to when it is evaluated or written. -/
  parts : List (String × ExprId)
  /-- The parts that a walk goes to, in the order in which their keys were first stored. -/
  listed : List (String × ExprId) := parts

/-- A node without its parts, as it stands in an expression. -/
structure Label where
  id : ExprId
  shape : Shape
  name : String

inductive Expression where
  | node (label : Label) (parts : List (String × Expression))

namespace Expression

def label : Expression → Label
  | node label _ => label

mutual

/-- The result of combining, at every node, the label with the results of the parts. -/
def fold {β : Type} (combine : Label → List (String × β) → β) : Expression → β
  | node label parts => combine label (foldParts combine parts)

def foldParts {β : Type} (combine : Label → List (String × β) → β) :
    List (String × Expression) → List (String × β)
  | [] => []
  | (key, part) :: rest => (key, fold combine part) :: foldParts combine rest

end

theorem foldParts_eq_map {β : Type} (combine : Label → List (String × β) → β)
    (parts : List (String × Expression)) :
    foldParts combine parts = parts.map fun (key, part) => (key, fold combine part) := by
  induction parts with
  | nil => rfl
  | cons part rest ih => simp [foldParts, ih]

end Expression

/-- The arguments and nodes created so far. -/
structure Graph where
  argumentNames : Array String := #[]
  nodes : Array Node := #[]

namespace Graph

def node? (g : Graph) (e : ExprId) : Option Node := g.nodes[e.index]?

def argumentName (g : Graph) (x : Argument) : String := g.argumentNames.getD x.index ""

/-- The expression at a node, given that no path down from it has more nodes than
the bound. -/
def unfold (g : Graph) : Nat → ExprId → Option Expression
  | 0, _ => none
  | bound + 1, e => do
    let node ← g.node? e
    let parts ← node.parts.mapM fun (key, part) => do return (key, ← unfold g bound part)
    return .node ⟨e, node.shape, node.name⟩ parts

/-- The expression at a node. A path that repeats no node has at most as many nodes
as the graph, so only a node that contains itself is without an expression. -/
def expression (g : Graph) (e : ExprId) : Except Fault Expression :=
  match g.unfold g.nodes.size e with
  | some expr => .ok expr
  | none => .error .cyclic

end Graph

end FiniteCalculus
