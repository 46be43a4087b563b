import FiniteCalculus.Proofs.Calculus.Tables
import FiniteCalculus.Proofs.Session.Basic
import Mathlib.Algebra.Group.ForwardDiff
import Mathlib.Algebra.Polynomial.Degree.Lemmas

/-! Differences of differences, over one argument and with one step. Every level reads what
the levels around it have put into the argument, and gives it back before the level around it
goes on, so that what comes out is the difference of that order of the tabulated integers. -/

namespace FiniteCalculus
set_option autoImplicit false

open Evaluation Finset

namespace Expression

/-- The tree with a number of differences around it. -/
inductive Nested (d : Difference) (x : Argument) (width : Int) (f : Expression) :
    Nat → Expression → Prop where
  | bare : Nested d x width f 0 f
  | around {n : Nat} {t t' : Expression} : Nested d x width f n t →
    t'.IsDifference t d x width → Nested d x width f (n + 1) t'

end Expression

namespace Difference

/-- The evaluation points of nested differences, counted from the one that the argument holds. -/
def point (d : Difference) (width v : Int) (k : Nat) : Int :=
  match d with
  | forward => v + k * width
  | backward => v - k * width

theorem point_zero (d : Difference) (width v : Int) : d.point width v 0 = v := by
  cases d <;> simp [point]

theorem point_succ (d : Difference) (width v : Int) (k : Nat) :
    d.point width v (k + 1) = d.point width (d.beside width v) k := by
  cases d <;> simp only [point, beside] <;> push_cast <;> ring

theorem ofTable_forward (width : Int) : forward.ofTable width = fwdDiff width := rfl

theorem ofTable_backward (width : Int) (table : Int → Int) :
    backward.ofTable width table = (-1 : Int) • fwdDiff (-width) table := by
  funext k
  simp [ofTable, fwdDiff, sub_eq_add_neg]

/-- The tabulated integers at the evaluation points with alternating binomial weights. -/
def alternatingSum (d : Difference) (width : Int) (n : Nat) (table : Int → Int) (v : Int) : Int :=
  match d with
  | forward => ∑ k ∈ range (n + 1), (-1) ^ (n - k) * n.choose k * table (v + k * width)
  | backward => ∑ k ∈ range (n + 1), (-1) ^ k * n.choose k * table (v - k * width)

theorem iterate_backward_eq (width : Int) (table : Int → Int) (n : Nat) :
    (backward.ofTable width)^[n] table = (-1 : Int) ^ n • (fwdDiff (-width))^[n] table := by
  induction n with
  | zero => simp
  | succ n ih =>
    rw [Function.iterate_succ_apply', ih, ofTable_backward, fwdDiff_const_smul,
      Function.iterate_succ_apply', smul_smul, pow_succ']

theorem iterate_eq_alternatingSum (d : Difference) (width : Int) (table : Int → Int) (n : Nat)
    (v : Int) : (d.ofTable width)^[n] table v = d.alternatingSum width n table v := by
  cases d with
  | forward =>
    rw [ofTable_forward, fwdDiff_iter_eq_sum_shift, alternatingSum]
    simp
  | backward =>
    rw [iterate_backward_eq, Pi.smul_apply, fwdDiff_iter_eq_sum_shift, smul_sum, alternatingSum]
    refine sum_congr rfl fun k hk => ?_
    obtain ⟨j, rfl⟩ := Nat.exists_eq_add_of_le (Nat.lt_succ_iff.mp (mem_range.mp hk))
    have sign : (-1 : Int) ^ (k + j) * (-1) ^ j = (-1) ^ k := by
      rw [pow_add, mul_assoc, ← mul_pow]
      simp
    rw [← sign]
    simp [mul_assoc, sub_eq_add_neg]

/-- Differences of an order above the degree vanish, whatever the step. -/
theorem fwdDiff_iterate_eval {P : Polynomial Int} {n : Nat} (degree : P.degree < n)
    (width v : Int) : (fwdDiff width)^[n] P.eval v = 0 := by
  rcases eq_or_ne P 0 with rfl | nonzero
  · rw [fwdDiff_iter_eq_sum_shift]
    simp
  · -- The points are whole multiples of one step in the polynomial of their number.
    let Q : Polynomial Int := P.comp (.C width * .X + .C v)
    have below : Q.natDegree < n := by
      calc Q.natDegree
          ≤ P.natDegree * (Polynomial.C width * Polynomial.X + Polynomial.C v).natDegree :=
            Polynomial.natDegree_comp_le
        _ ≤ P.natDegree * 1 := Nat.mul_le_mul_left _ Polynomial.natDegree_linear_le
        _ = P.natDegree := Nat.mul_one _
        _ < n := (Polynomial.natDegree_lt_iff_degree_lt nonzero).mpr degree
    have vanishes := congrFun (Polynomial.fwdDiff_iter_eq_zero_of_degree_lt below) 0
    rw [fwdDiff_iter_eq_sum_shift, Pi.zero_apply] at vanishes
    rw [fwdDiff_iter_eq_sum_shift, ← vanishes]
    refine sum_congr rfl fun k _ => ?_
    simp [Q, mul_comm, add_comm]

/-- Nested differences of a polynomial of a degree below their number vanish. -/
theorem iterate_eval (d : Difference) {P : Polynomial Int} {n : Nat} (degree : P.degree < n)
    (width v : Int) : (d.ofTable width)^[n] P.eval v = 0 := by
  cases d with
  | forward => exact fwdDiff_iterate_eval degree width v
  | backward =>
    rw [iterate_backward_eq, Pi.smul_apply, fwdDiff_iterate_eval degree, smul_zero]

end Difference

namespace Expression
variable {f t : Expression} {F : (Argument → Int) → Int} {x : Argument} {env : Argument → Int}
  {d : Difference} {width v : Int} {n : Nat}

theorem Nested.exists_evaluator (h : f.Nested d x width n t) (hf : ∃ ev, f.evaluator = .ok ev) :
    ∃ ev, t.evaluator = .ok ev := by
  induction h with
  | bare => exact hf
  | around _ outer ih => exact outer.exists_evaluator ih

/-- Every level leaves the arguments as they were, so that the next one can go on. -/
theorem Nested.tabulates (h : f.Nested d x width n t) (computes : f.Computes F) {others : Store}
    (held : ∀ y ∈ f.arguments, y ≠ x → others.get y = .int (env y)) :
    t.value.Tabulates x others {v | ∀ k < n, InRange (d.point width v k)}
      ((d.ofTable width)^[n] fun v => F (Function.update env x v)) := by
  induction h with
  | bare => exact computes.tabulates held _
  | @around n t t' _ outer ih =>
    rw [outer.value_eq, Function.iterate_succ_apply']
    refine (d.of_tabulates ih width).mono ?_
    intro v inRange
    refine ⟨fun k hk => inRange k (Nat.lt_succ_of_lt hk), fun k hk => ?_, ?_⟩
    · rw [← Difference.point_succ]
      exact inRange (k + 1) (Nat.succ_lt_succ hk)
    · rw [← Difference.point_zero d width v]
      exact inRange 0 (Nat.succ_pos n)

end Expression

section
variable {w : Workspace} {e : ExprId} {f t : Expression} {F : (Argument → Int) → Int}
  {x : Argument} {env : Argument → Int} {d : Difference} {width v : Int} {n : Nat}

theorem calculate_of_nested (computes : f.Computes F)
    (held : ∀ y ∈ f.arguments, y ≠ x → w.get y = .int (env y)) (hx : w.get x = .int v)
    (tree : w.graph.HasTree e t) (nested : f.Nested d x width n t)
    (inRange : ∀ k < n, InRange (d.point width v k)) :
    (w.calculate (.expression e)).result =
        .ok (.int ((d.ofTable width)^[n] (fun m => F (Function.update env x m)) v)) ∧
      ∀ y, (w.calculate (.expression e)).workspace.get y = w.get y := by
  obtain ⟨u, run, kept⟩ := nested.tabulates computes held { store := w.store } v inRange hx
    fun y _ => rfl
  obtain ⟨result, final⟩ := apply_eq_ok_iff.mp run
  rw [Workspace.calculate_of_value tree (nested.exists_evaluator computes.exists_evaluator),
    Workspace.run_eq]
  refine ⟨result, fun y => ?_⟩
  change ((t.value.final _).store).get y = w.get y
  rw [final, kept y]
  rfl

/-- Nested differences of integers are exact, however large the integers are. Doubles come in
only where a point is tested for being a number, and every point but the last one is. -/
theorem higher_differences (computes : f.Computes F)
    (held : ∀ y ∈ f.arguments, y ≠ x → w.get y = .int (env y)) (hx : w.get x = .int v)
    (tree : w.graph.HasTree e t) (nested : f.Nested d x width n t)
    (inRange : ∀ k < n, InRange (d.point width v k)) :
    (w.calculate (.expression e)).result =
      .ok (.int (d.alternatingSum width n (fun m => F (Function.update env x m)) v)) ∧
    (w.calculate (.expression e)).workspace.get x = .int v ∧
    (∀ y, (w.calculate (.expression e)).workspace.get y = w.get y) ∧
    ∀ P : Polynomial Int, (∀ m, F (Function.update env x m) = P.eval m) → P.degree < n →
      (w.calculate (.expression e)).result = .ok (.int 0) := by
  obtain ⟨result, kept⟩ := calculate_of_nested computes held hx tree nested inRange
  refine ⟨?_, (kept x).trans hx, kept, ?_⟩
  · rw [result, Difference.iterate_eq_alternatingSum]
  · intro P polynomial degree
    rw [result, funext polynomial, Difference.iterate_eval d degree]

end

/-- The tree of `y * (x * x)`. -/
def weightedSquare : Expression :=
  .node ⟨⟨4⟩, .multiplication, "mult"⟩
    [(Key.left, .node ⟨⟨3⟩, .reference ⟨1⟩, "y"⟩ []),
      (Key.right, .node ⟨⟨2⟩, .multiplication, "mult"⟩
        [(Key.left, .node ⟨⟨0⟩, .reference ⟨0⟩, "x"⟩ []),
          (Key.right, .node ⟨⟨1⟩, .reference ⟨0⟩, "x"⟩ [])])]

/-- Three backward differences around it, with step 2, where `x` holds an integer that is no
double and `y` is negative. -/
def differencesOfSquare : Workspace :=
  ([.declare (.value (.text "x")) (.int (10 ^ 20 + 1)), .declare (.value (.text "y")) (.int (-4)),
    .make (.multiplication (.argument ⟨0⟩) (.argument ⟨0⟩)) none,
    .make (.multiplication (.argument ⟨1⟩) (.expression ⟨2⟩)) none,
    .make (.difference .backward (.expression ⟨4⟩) (.argument ⟨0⟩) none (.value (.int 2))) none,
    .make (.difference .backward (.expression ⟨6⟩) (.argument ⟨0⟩) none (.value (.int 2))) none,
    .make (.difference .backward (.expression ⟨8⟩) (.argument ⟨0⟩) none (.value (.int 2))) none
    ].foldl Session.perform {}).workspace

theorem differencesOfSquare_exact :
    (differencesOfSquare.calculate (.expression ⟨8⟩)).result = .ok (.int (2 * (-4) * 2 ^ 2)) ∧
    (differencesOfSquare.calculate (.expression ⟨10⟩)).result = .ok (.int 0) ∧
    (differencesOfSquare.calculate (.expression ⟨10⟩)).workspace.get ⟨0⟩ =
      .int (10 ^ 20 + 1) := by
  have tree {e : ExprId} {t : Expression} (h : differencesOfSquare.graph.expression e = .ok t) :
      differencesOfSquare.graph.HasTree e t := Graph.expression_eq_ok_iff.mp h
  have computes : weightedSquare.Computes fun env => env ⟨1⟩ * (env ⟨0⟩ * env ⟨0⟩) :=
    .multiplication rfl (.reference rfl) (.multiplication rfl (.reference rfl) (.reference rfl))
  have held : ∀ y ∈ weightedSquare.arguments, y ≠ ⟨0⟩ → differencesOfSquare.get y = .int (-4) := by
    intro y hy apart
    rcases List.mem_pair.mp (show y ∈ [⟨1⟩, ⟨0⟩] from hy) with rfl | rfl
    · rfl
    · exact absurd rfl apart
  have around {n : Nat} {t : Expression} {l h : Label}
      (inner : weightedSquare.Nested .backward ⟨0⟩ 2 n t)
      (outer : l.shape = .difference .backward ⟨0⟩) (width : h.shape = .constant (.int 2)) :
      weightedSquare.Nested .backward ⟨0⟩ 2 (n + 1)
        (.node l [(Key.body, t), (Key.width, .node h [])]) :=
    .around inner ⟨l, _, outer, ⟨h, width, rfl⟩, rfl⟩
  have inRange : ∀ k < 3, InRange (Difference.backward.point 2 (10 ^ 20 + 1) k) := by
    intro k hk
    obtain rfl | rfl | rfl : k = 0 ∨ k = 1 ∨ k = 2 := by omega
    all_goals exact inRange_of_not_isInf (by decide +kernel)
  have two := tree (e := ⟨8⟩) rfl
  have three := tree (e := ⟨10⟩) rfl
  obtain ⟨value, _⟩ := higher_differences computes held rfl two
    (around (around .bare rfl rfl) rfl rfl) fun k hk => inRange k (Nat.lt_succ_of_lt hk)
  obtain ⟨_, kept, _, vanishes⟩ := higher_differences computes held rfl three
    (around (around (around .bare rfl rfl) rfl rfl) rfl rfl) inRange
  refine ⟨?_, ?_, kept⟩
  · rw [value]
    rfl
  · apply vanishes (.C (-4) * .X ^ 2)
    · intro m
      simp [Function.update, pow_two]
    · exact (Polynomial.degree_C_mul_X_pow_le 2 _).trans_lt (by decide)

end FiniteCalculus
