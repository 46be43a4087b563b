import FiniteCalculus.Proofs.Evaluation.Runs
import FiniteCalculus.Proofs.Graph.Trees

/-! Calculating a node runs the tree that stands there. A node that lacks a part
faults before anything is run. -/

namespace FiniteCalculus
set_option autoImplicit false

namespace Expression

/-- What is run when an expression is calculated. -/
def calculation (t : Expression) : Evaluation Value :=
  match t.evaluator with
  | .ok _ => t.value
  | .error fault => throw fault

theorem calculation_eq (t : Expression) :
    t.calculation = t.value ∨ ∃ fault, t.calculation = throw fault := by
  unfold calculation
  split
  · exact .inl rfl
  · exact .inr ⟨_, rfl⟩

end Expression

namespace Workspace
variable {w : Workspace} {e : ExprId} {t : Expression}

theorem body_of_hasTree (h : w.graph.HasTree e t) : w.body (.expression e) = t.calculation := by
  have evaluator : w.graph.evaluator e = t.evaluator := by
    unfold Graph.evaluator
    rw [Graph.expression_eq_ok_iff.mpr h]
    rfl
  unfold body Expression.calculation
  simp only [evaluator]
  cases ht : t.evaluator with
  | error fault => rfl
  | ok ev => exact Expression.value_of_evaluator ht

theorem graph_calculate (w : Workspace) (operand : Operand) :
    (w.calculate operand).workspace.graph = w.graph := by
  rw [calculate, run_eq]

theorem get_calculate (w : Workspace) (operand : Operand) (x : Argument) :
    (w.calculate operand).workspace.get x =
      ((w.body operand).final { store := w.store }).store.get x := by
  rw [calculate, run_eq]
  rfl

end Workspace

end FiniteCalculus
