import FiniteCalculus.Proofs.Calculus.Sums
import FiniteCalculus.Proofs.Session.Basic

/-! The fundamental theorem of the finite calculus, for integers: the difference of a sum is
the term that the sum takes in next, and the sum of differences is the difference across the
range. The bound of the inner sum is moved by the difference around it; the index that the
inner difference gives back is moved by the sum around it. -/

namespace FiniteCalculus
set_option autoImplicit false

open Evaluation

namespace Expression
variable {t body start stop g : Expression} {i x : Argument} {F : (Argument → Int) → Int}
  {env : Argument → Int} {s : Situation} {a b : Int}

theorem IsSum.value_apply (h : t.IsSum body i start stop) (hstart : start.value s = .ok (.int a) s)
    (hstop : stop.value s = .ok (.int b) s) :
    t.value s = Iteration.sum.overRange body.value i ⟨.int a, .int b, .int 1⟩ s := by
  rw [h.value_eq, bind_eq_of_ok hstart, bind_eq_of_ok hstop]

/-- A sum up to what an argument holds. -/
theorem IsSum.value_of_reference (h : t.IsSum g i start stop) (computes : g.Computes F)
    (held : ∀ y ∈ g.arguments, y ≠ i → s.store.get y = .int (env y)) (hstart : start.IsConstant a)
    (hstop : stop.IsReference x) (hx : s.store.get x = .int b)
    (exact : ExactSum a b fun k => F (Function.update env i k)) :
    ∃ u, t.value s = .ok (.double (Double.nearestToInt
        (∑ k ∈ Finset.Icc a b, F (Function.update env i k)))) u ∧
      ∀ y, y ≠ i → u.store.get y = s.store.get y := by
  have first : start.value s = .ok (.int a) s := by
    rw [hstart.value_eq]
    rfl
  have last : stop.value s = .ok (.int b) s := by
    rw [hstop.value_eq, ← hx]
    rfl
  rw [h.value_apply first last]
  exact Iteration.sum_of_tabulates exact (computes.tabulates held _)

end Expression

theorem Difference.forward_at {body : Evaluation Value} {x : Argument} {point width : Int}
    {s u v : Situation} {c d e : Value} (defined : InRange point)
    (above : body (s.assign x (.int (point + width))) = .ok c u)
    (below : body (u.assign x (.int point)) = .ok d v) (between : c.sub d = .ok e) :
    Difference.forward.of body x (some (.int point)) (.int width) s =
      .ok e (v.assign x (s.store.get x)) := by
  obtain ⟨z, hz⟩ := defined
  have inside : Difference.forward.inside body x (some (.int point)) (s.store.get x)
      (.int width) s = .ok e v := by
    have first : sample body x ((Value.int point).add (.int width)) s = .ok c u := above
    have second : sample body x (.ok (.int point)) u = .ok d v := below
    rw [inside, atPoint_forward, bind_eq_of_ok first, bind_eq_of_ok second, between]
    rfl
  rw [of_apply, Option.getD_some, Value.isNaN_int hz]
  change restoring x (s.store.get x) _ s = _
  rw [restoring, inside]

namespace Double

theorem nearestToInt_equal {n : Int} (le : n.natAbs ≤ 2 ^ 53) :
    (Value.double (nearestToInt n)).equal (.int n) = true := by
  have compared : (Value.double (nearestToInt n)).compare? (.int n) = some .eq :=
    compareInt_nearestToInt le
  simpa [Value.equal] using compared

end Double

section
variable {w : Workspace} {g t sum difference start stop : Expression} {i x : Argument}
  {F : (Argument → Int) → Int} {env : Argument → Int} {e : ExprId} {a b v : Int}

theorem calculate_of_computes (computes : g.Computes F)
    (held : ∀ y ∈ g.arguments, y ≠ i → w.get y = .int (env y)) (tree : w.graph.HasTree e g)
    (k : Int) :
    ((w.set i (.int k)).calculate (.expression e)).result =
      .ok (.int (F (Function.update env i k))) := by
  have value := computes.tabulates held Set.univ { store := w.store.set i (.int k) } k trivial
    (Store.get_set_self ..) fun y hy => Store.get_set_ne _ hy _
  obtain ⟨u, value, _⟩ := value
  rw [Workspace.calculate_of_value (w := w.set i (.int k)) tree computes.exists_evaluator,
    Workspace.run_eq]
  exact (apply_eq_ok_iff.mp value).1

/-- The sum is taken twice, up to either point; what the argument held is given back. -/
theorem difference_of_sum (computes : g.Computes F) (unrelated : x ∉ g.arguments)
    (held : ∀ y ∈ g.arguments, y ≠ i → w.get y = .int (env y)) (tree : w.graph.HasTree e t)
    (outer : t.IsDifferenceAt sum .forward x 1 v) (inner : sum.IsSum g i start stop)
    (hstart : start.IsConstant a) (hstop : stop.IsReference x) (le : a ≤ v + 1)
    (above : ExactSum a (v + 1) fun k => F (Function.update env i k))
    (below : ExactSum a v fun k => F (Function.update env i k)) :
    ∃ z, (w.calculate (.expression e)).result = .ok (.double z) ∧
      (Value.double z).equal (.int (F (Function.update env i (v + 1)))) = true ∧
      ∀ y, y ≠ i → (w.calculate (.expression e)).workspace.get y = w.get y := by
  let s : Situation := { store := w.store }
  have apart {y : Argument} (hy : y ∈ g.arguments) : y ≠ x := by
    rintro rfl
    exact unrelated hy
  -- Each of the two sums starts with the point in its bound, and all else as it was.
  obtain ⟨u, upper, keptUpper⟩ := inner.value_of_reference (s := s.assign x (.int (v + 1)))
    computes (fun y hy hyi => (Situation.get_assign_ne _ (apart hy) _).trans (held y hy hyi))
    hstart hstop (Situation.get_assign_self ..) above
  have keptU {y : Argument} (hyi : y ≠ i) (hyx : y ≠ x) : u.store.get y = w.get y := by
    rw [keptUpper y hyi, Situation.get_assign_ne _ hyx]
    rfl
  obtain ⟨q, lower, keptLower⟩ := inner.value_of_reference (s := u.assign x (.int v)) computes
    (fun y hy hyi => (Situation.get_assign_ne _ (apart hy) _).trans
      ((keptU hyi (apart hy)).trans (held y hy hyi)))
    hstart hstop (Situation.get_assign_self ..) below
  have run := Difference.forward_at (inRange_of_natAbs_le below.last) upper lower
    (Value.sub_double _ _)
  rw [above.sub_eq le below, ← outer.value_eq] at run
  obtain ⟨result, final⟩ := apply_eq_ok_iff.mp run
  have complete := outer.exists_evaluator (inner.exists_evaluator computes.exists_evaluator
    hstart.exists_evaluator hstop.exists_evaluator)
  rw [Workspace.calculate_of_value tree complete, Workspace.run_eq]
  have last := above.terms (v + 1) (Finset.mem_Icc.mpr ⟨le, le_refl _⟩)
  refine ⟨_, result, Double.nearestToInt_equal last, ?_⟩
  intro y hyi
  change (t.value.final s).store.get y = w.get y
  rw [final, Situation.get_assign]
  split
  · rename_i hyx
    rw [hyx]
    rfl
  · rename_i hyx
    rw [keptLower y hyi, Situation.get_assign_ne _ hyx, keptU hyi hyx]

theorem sum_of_differences (computes : g.Computes F)
    (held : ∀ y ∈ g.arguments, y ≠ i → w.get y = .int (env y)) (tree : w.graph.HasTree e t)
    (outer : t.IsSum difference i start stop) (inner : difference.IsDifference g .forward i 1)
    (hstart : start.IsConstant a) (hstop : stop.IsConstant b) (le : a ≤ b)
    (exact : ExactSum a b fun k =>
      F (Function.update env i (k + 1)) - F (Function.update env i k)) :
    ∃ z, (w.calculate (.expression e)).result = .ok (.double z) ∧
      (Value.double z).equal
        (.int (F (Function.update env i (b + 1)) - F (Function.update env i a))) = true := by
  let s : Situation := { store := w.store }
  have terms : difference.value.Tabulates i w.store (Finset.Icc a b)
      fun k => F (Function.update env i (k + 1)) - F (Function.update env i k) := by
    rw [inner.value_eq]
    refine (Difference.forward.of_tabulates (computes.tabulates held Set.univ) 1).mono ?_
    intro k hk
    have inside := Finset.mem_Icc.mp hk
    have first := exact.first
    have last := exact.last
    exact ⟨trivial, trivial, inRange_of_natAbs_le (by omega)⟩
  have first : start.value s = .ok (.int a) s := by
    rw [hstart.value_eq]
    rfl
  have last : stop.value s = .ok (.int b) s := by
    rw [hstop.value_eq]
    rfl
  obtain ⟨u, run, _⟩ := Iteration.sum_of_tabulates (s := s) exact terms
  have total := exact.total
  have whole := sum_Icc_sub (by omega : a ≤ b + 1) fun k => F (Function.update env i k)
  rw [whole] at total run
  rw [← outer.value_apply first last] at run
  have complete := outer.exists_evaluator (inner.exists_evaluator computes.exists_evaluator)
    hstart.exists_evaluator hstop.exists_evaluator
  rw [Workspace.calculate_of_value tree complete, Workspace.run_eq]
  exact ⟨_, (apply_eq_ok_iff.mp run).1, Double.nearestToInt_equal total⟩

end

theorem fundamental_theorem {w : Workspace} {g : Expression} {F : (Argument → Int) → Int}
    {i x : Argument} {env : Argument → Int} (computes : g.Computes F) (distinct : i ≠ x)
    (unrelated : x ∉ g.arguments)
    (held : ∀ y ∈ g.arguments, y ≠ i → w.get y = .int (env y)) :
    (∀ (e : ExprId) (k : Int), w.graph.HasTree e g →
      ((w.set i (.int k)).calculate (.expression e)).result =
        .ok (.int (F (Function.update env i k)))) ∧
    (∀ (e : ExprId) (t sum start stop : Expression) (a v : Int), w.graph.HasTree e t →
      t.IsDifferenceAt sum .forward x 1 v → sum.IsSum g i start stop → start.IsConstant a →
      stop.IsReference x → a ≤ v + 1 →
      (ExactSum a (v + 1) fun k => F (Function.update env i k)) →
      (ExactSum a v fun k => F (Function.update env i k)) →
      ∃ z, (w.calculate (.expression e)).result = .ok (.double z) ∧
        (Value.double z).equal (.int (F (Function.update env i (v + 1)))) = true ∧
        (w.calculate (.expression e)).workspace.get x = w.get x) ∧
    ∀ (e : ExprId) (t difference start stop : Expression) (a b : Int), w.graph.HasTree e t →
      t.IsSum difference i start stop → difference.IsDifference g .forward i 1 →
      start.IsConstant a → stop.IsConstant b → a ≤ b →
      (ExactSum a b fun k =>
        F (Function.update env i (k + 1)) - F (Function.update env i k)) →
      ∃ z, (w.calculate (.expression e)).result = .ok (.double z) ∧
        (Value.double z).equal
          (.int (F (Function.update env i (b + 1)) - F (Function.update env i a))) = true := by
  refine ⟨?_, ?_, ?_⟩
  · intro e k tree
    exact calculate_of_computes computes held tree k
  · intro e t sum start stop a v tree outer inner hstart hstop le above below
    obtain ⟨z, result, same, kept⟩ :=
      difference_of_sum computes unrelated held tree outer inner hstart hstop le above below
    exact ⟨z, result, same, kept x distinct.symm⟩
  · intro e t difference start stop a b tree outer inner hstart hstop le exact
    exact sum_of_differences computes held tree outer inner hstart hstop le exact

/-- The tree of `i * i + y`. -/
def squareTerm : Expression :=
  .node ⟨⟨4⟩, .addition (.double 1.0), "add"⟩
    [(Key.left, .node ⟨⟨2⟩, .multiplication, "mult"⟩
      [(Key.left, .node ⟨⟨0⟩, .reference ⟨0⟩, "i"⟩ []),
        (Key.right, .node ⟨⟨1⟩, .reference ⟨0⟩, "i"⟩ [])]),
      (Key.right, .node ⟨⟨3⟩, .reference ⟨2⟩, "y"⟩ [])]

/-- With that term, and `y = 2`, the difference at 7 of the sum from 3 to `x`, and the sum from
3 to 7 of the differences. What `x` holds is no number. -/
def sumsOfSquares : Workspace :=
  ([.declare (.value (.text "i")) .absent, .declare (.value (.text "x")) (.text "unset"),
    .declare (.value (.text "y")) (.int 2),
    .make (.multiplication (.argument ⟨0⟩) (.argument ⟨0⟩)) none,
    .make (.addition (.expression ⟨2⟩) (.argument ⟨2⟩) (.double 1.0)) none,
    .make (.iteration .sum (.expression ⟨4⟩) (.argument ⟨0⟩) (.value (.int 3)) (.argument ⟨1⟩)
      (.value (.int 1))) none,
    .make (.difference .forward (.expression ⟨8⟩) (.argument ⟨1⟩) (some (.value (.int 7)))
      (.value (.int 1))) none,
    .make (.difference .forward (.expression ⟨4⟩) (.argument ⟨0⟩) none (.value (.int 1))) none,
    .make (.iteration .sum (.expression ⟨13⟩) (.argument ⟨0⟩) (.value (.int 3)) (.value (.int 7))
      (.value (.int 1))) none].foldl Session.perform {}).workspace

theorem sumsOfSquares_across :
    (∃ z, (sumsOfSquares.calculate (.expression ⟨11⟩)).result = .ok (.double z) ∧
      (Value.double z).equal (.int 66) = true ∧
      (sumsOfSquares.calculate (.expression ⟨11⟩)).workspace.get ⟨1⟩ = .text "unset") ∧
    ∃ z, (sumsOfSquares.calculate (.expression ⟨17⟩)).result = .ok (.double z) ∧
      (Value.double z).equal (.int (66 - 11)) = true := by
  have tree {e : ExprId} {t : Expression} (h : sumsOfSquares.graph.expression e = .ok t) :
      sumsOfSquares.graph.HasTree e t := Graph.expression_eq_ok_iff.mp h
  have computes : squareTerm.Computes fun env => env ⟨0⟩ * env ⟨0⟩ + env ⟨2⟩ :=
    .addition rfl (.multiplication rfl (.reference rfl) (.reference rfl)) (.reference rfl)
  have held : ∀ y ∈ squareTerm.arguments, y ≠ ⟨0⟩ → sumsOfSquares.get y = .int 2 := by
    intro y hy apart
    rcases List.mem_pair.mp (show y ∈ [⟨0⟩, ⟨2⟩] from hy) with rfl | rfl
    · exact absurd rfl apart
    · rfl
  obtain ⟨_, difference, sum⟩ :=
    fundamental_theorem (x := ⟨1⟩) computes (by decide) (by decide) held
  constructor
  · refine difference ⟨11⟩ _ _ _ _ 3 7 (tree rfl) ⟨_, _, _, rfl, ⟨_, rfl, rfl⟩, ⟨_, rfl, rfl⟩, rfl⟩
      ⟨_, _, rfl, ⟨_, rfl, rfl⟩, rfl⟩ ⟨_, rfl, rfl⟩ ⟨_, rfl, rfl⟩ (by decide) ?_ ?_
    · constructor <;> decide +kernel
    · constructor <;> decide +kernel
  · refine sum ⟨17⟩ _ _ _ _ 3 7 (tree rfl) ⟨_, _, rfl, ⟨_, rfl, rfl⟩, rfl⟩
      ⟨_, _, rfl, ⟨_, rfl, rfl⟩, rfl⟩ ⟨_, rfl, rfl⟩ ⟨_, rfl, rfl⟩ (by decide) ?_
    constructor <;> decide +kernel

end FiniteCalculus
