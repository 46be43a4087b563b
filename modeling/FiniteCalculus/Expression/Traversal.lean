import FiniteCalculus.Expression.Basic

/-! The nodes of an expression in depth-first order, a node before its parts and
the parts in the order of their keys, and the arguments met on the way. -/

namespace FiniteCalculus
set_option autoImplicit false

/-- A node met on the way down, with the nodes above it from the root on and the
key under which the nearest of them holds it. -/
structure Visit where
  parents : List Label
  key : String
  label : Label

namespace Expression

mutual

/-- The visits to an expression and all below it. -/
def visits (parents : List Label) (key : String) : Expression → List Visit
  | node label parts => ⟨parents, key, label⟩ :: visitsOfParts (parents ++ [label]) parts

def visitsOfParts (parents : List Label) : List (String × Expression) → List Visit
  | [] => []
  | (key, part) :: rest => visits parents key part ++ visitsOfParts parents rest

end

/-- The whole expression; the root has no parents and an empty key. -/
def traverse (e : Expression) : List Visit := e.visits [] ""

/-- A list without the repetitions of its elements. -/
def distinct : List Argument → List Argument :=
  List.foldl (fun seen x => if x ∈ seen then seen else seen ++ [x]) []

/-- The arguments that occur, each at its first occurrence. -/
def arguments (e : Expression) : List Argument :=
  distinct (e.traverse.filterMap fun visit => visit.label.shape.ownArgument?)

theorem traverse_ne_nil (e : Expression) : e.traverse ≠ [] := by
  cases e
  simp [traverse, visits]

theorem visitsOfParts_eq_flatMap (parents : List Label) (parts : List (String × Expression)) :
    visitsOfParts parents parts = parts.flatMap fun (key, part) => part.visits parents key := by
  induction parts with
  | nil => rfl
  | cons part rest ih => simp [visitsOfParts, ih]

end Expression

namespace Graph

/-- The graph with the listed parts of every node in the place of the others. A walk goes by
these. -/
def listing (g : Graph) : Graph :=
  { g with nodes := g.nodes.map fun node => { node with parts := node.listed } }

/-- The visits on a walk from a node, with or without the one to the node itself. -/
def traverse (g : Graph) (e : ExprId) (includeRoot : Bool) : Except Fault (List Visit) := do
  let visits := (← g.listing.expression e).traverse
  return if includeRoot then visits else visits.tail

/-- The arguments met on a walk from a node. -/
def arguments (g : Graph) (e : ExprId) : Except Fault (List Argument) :=
  return (← g.listing.expression e).arguments

end Graph

end FiniteCalculus
