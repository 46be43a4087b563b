import FiniteCalculus.Expression.Traversal
import FiniteCalculus.Value.Text

/-! Expressions in print: the formula with the values of its parameters, the names
of nodes with what tells them apart, and the outline of a whole expression. -/

namespace FiniteCalculus
set_option autoImplicit false

namespace Iteration

def symbol : Iteration → String
  | sum => "sum"
  | product => "prod"

end Iteration

namespace Difference

def symbol : Difference → String
  | forward => "Delta"
  | backward => "nabla"

end Difference

/-- How the second term of a sum is taken in. -/
inductive Addend where
  | plus
  | minus
  | times (coefficient : Value)

def Addend.of (coefficient : Value) : Addend :=
  if coefficient.equal (.double 1.0) then plus
  else if coefficient.equal (.double (-1.0)) then minus
  else times coefficient

namespace Label

/-- A name with the constant of the node, its formula, or the index it runs over. -/
def caption (argumentName : Argument → String) (l : Label) : Except Fault String :=
  match l.shape with
  | .constant c | .scaling c => .ok (l.name ++ " (" ++ c.toText ++ ")")
  | .addition coefficient =>
    match Addend.of coefficient with
    | .plus => .ok (l.name ++ " (e1 + e2)")
    | .minus => .ok (l.name ++ " (e1 - e2)")
    | .times c =>
      if !c.isReal then .error (.incomparable ">=" c.kind .int)
      else do
        let sign := if (Value.int 0).le c then "+" else "-"
        return l.name ++ " (e1 " ++ sign ++ " " ++ (← c.magnitude).toText ++ " * e2)"
  | .iteration op index =>
    .ok (l.name ++ " (" ++ op.symbol ++ " over " ++ argumentName index ++ ")")
  | _ => .ok l.name

/-- The formula of a node, given the texts of its parts. -/
def formula (argumentName : Argument → String) (l : Label) (parts : List (String × String)) :
    String :=
  let part (key : String) : String := (parts.lookup key).getD ""
  match l.shape with
  | .constant c => c.toText
  | .reference x => argumentName x
  | .application _ description count =>
    description ++ "(" ++ ", ".intercalate ((List.range count).map fun i => part (Key.arg i)) ++ ")"
  | .scaling factor => "a f, where a=" ++ factor.toText ++ ", f=" ++ part Key.scaled
  | .addition coefficient =>
    let terms := "e1=" ++ part Key.left ++ ", e2=" ++ part Key.right
    match Addend.of coefficient with
    | .plus => "e1 + e2, where " ++ terms
    | .minus => "e1 - e2, where " ++ terms
    | .times c => "e1 + c e2, where " ++ terms ++ ", c=" ++ c.toText
  | .multiplication => "e1 * e2, where e1=" ++ part Key.left ++ ", e2=" ++ part Key.right
  | .iteration op index =>
    op.symbol ++ "_\x7b" ++ argumentName index ++ "=a\x7d^\x7bb\x7d f by d, where a=" ++
      part Key.start ++ ", b=" ++ part Key.stop ++ ", d=" ++ part Key.step ++
      ", f=" ++ part Key.body
  | .difference d x =>
    let point := (parts.lookup Key.point).getD (argumentName x)
    d.symbol ++ "_h f at " ++ argumentName x ++ "=" ++ point ++ ", where h=" ++
      part Key.width ++ ", f=" ++ part Key.body

end Label

namespace Expression

/-- The formula in parentheses, with the formulas of all parts. -/
def toText (argumentName : Argument → String) : Expression → String :=
  fold fun label parts => "(" ++ label.formula argumentName parts ++ ")"

/-- The formula with the class of the expression. -/
def report (argumentName : Argument → String) (e : Expression) : String :=
  "<" ++ e.label.shape.className ++ e.toText argumentName ++ ">"

/-- One line of an outline. -/
def outlineLine (name : Label → Except Fault String) (key : String) (visit : Visit) :
    Except Fault String := do
  let dots := String.join (List.replicate visit.parents.length ". ")
  return dots ++ key ++ " [" ++ (← name visit.label) ++ "] <" ++ visit.label.shape.className ++ ">\n"

/-- The outline of an expression, a line for each visit; the root has a key of its own. -/
def outline (name : Label → Except Fault String) (rootKey : String) (e : Expression) :
    Except Fault String := do
  let lines ← e.traverse.mapM fun visit =>
    outlineLine name (if visit.parents.isEmpty then rootKey else visit.key) visit
  return String.join lines

end Expression

/-- The text of a node as the graph is now. -/
def Graph.text (g : Graph) (e : ExprId) : Except Fault String :=
  return (← g.expression e).toText g.argumentName

/-- The outline of the tree that a walk from a node goes through. -/
def Graph.outline (g : Graph) (name : Label → Except Fault String) (rootKey : String)
    (e : ExprId) : Except Fault String := do
  (← g.listing.expression e).outline name rootKey

end FiniteCalculus
