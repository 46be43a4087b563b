import FiniteCalculus.Proofs.Expression.Calculation
import FiniteCalculus.Proofs.Expression.Occurrences
import FiniteCalculus.Proofs.Graph.Keys

/-! Trees that compute with integers alone: constants, arguments, scalings, sums and
products. Such a tree comes to a polynomial in its arguments, exactly, and its evaluation
leaves the situation as it was. -/

namespace FiniteCalculus
set_option autoImplicit false

open Evaluation

theorem Evaluation.bind_eq_of_ok {α β : Type} {m : Evaluation α} {f : α → Evaluation β}
    {s t : Situation} {a : α} (h : m s = .ok a t) : (m >>= f) s = f a t := by
  simp only [bind, EStateM.bind, h]

/-- Of the integers, only one is equal to the coefficient of a plain sum. -/
theorem Value.eq_one_of_equal {k : Int} (h : (int k).equal (double 1.0) = true) : k = 1 := by
  have sizes : (int k).compare? (double 1.0) =
      some (compare ((2 : Int) ^ 52 * 1) (k * 2 ^ 52)).swap := rfl
  have same : (int k).compare? (double 1.0) = some .eq := beq_iff_eq.mp h
  rw [sizes, Option.some.injEq, Ordering.swap_eq_eq, Int.compare_eq_eq] at same
  omega

namespace Expression

/-- The tree is put together of integers, and comes to the integer that the function gives
for those that its arguments hold. -/
inductive Computes : Expression → ((Argument → Int) → Int) → Prop where
  | constant {l : Label} {n : Int} : l.shape = .constant (.int n) →
    Computes (.node l []) fun _ => n
  | reference {l : Label} {x : Argument} : l.shape = .reference x →
    Computes (.node l []) fun env => env x
  | scaling {l : Label} {k : Int} {p : Expression} {F : (Argument → Int) → Int} :
    l.shape = .scaling (.int k) → Computes p F →
    Computes (.node l [(Key.scaled, p)]) fun env => k * F env
  | addition {l : Label} {p q : Expression} {F G : (Argument → Int) → Int} :
    l.shape = .addition (.double 1.0) → Computes p F → Computes q G →
    Computes (.node l [(Key.left, p), (Key.right, q)]) fun env => F env + G env
  | combination {l : Label} {k : Int} {p q : Expression} {F G : (Argument → Int) → Int} :
    l.shape = .addition (.int k) → Computes p F → Computes q G →
    Computes (.node l [(Key.left, p), (Key.right, q)]) fun env => F env + k * G env
  | multiplication {l : Label} {p q : Expression} {F G : (Argument → Int) → Int} :
    l.shape = .multiplication → Computes p F → Computes q G →
    Computes (.node l [(Key.left, p), (Key.right, q)]) fun env => F env * G env

section
variable {l : Label} {p q : Expression}

theorem value_constant {c : Value} (h : l.shape = .constant c) :
    value (.node l []) = pure c := by
  rw [value_node, Label.value, h]

theorem value_reference {x : Argument} (h : l.shape = .reference x) :
    value (.node l []) = read x := by
  rw [value_node, Label.value, h]

theorem value_scaling {factor : Value} (h : l.shape = .scaling factor) :
    value (.node l [(Key.scaled, p)]) = p.value >>= fun v => lift (factor.mul v) := by
  rw [value_node, Label.value, h]
  rfl

theorem value_addition {c : Value} (h : l.shape = .addition c) :
    value (.node l [(Key.left, p), (Key.right, q)]) = p.value >>= fun v => q.value >>= fun w =>
      if c.equal (.double 1.0) then lift (v.add w) else lift (c.mul w >>= v.add) := by
  rw [value_node, Label.value, h]
  rfl

theorem value_multiplication (h : l.shape = .multiplication) :
    value (.node l [(Key.left, p), (Key.right, q)]) = p.value >>= fun v => q.value >>= fun w =>
      lift (v.mul w) := by
  rw [value_node, Label.value, h]
  rfl

end

theorem Computes.exists_evaluator {t : Expression} {F : (Argument → Int) → Int}
    (h : t.Computes F) : ∃ ev, t.evaluator = .ok ev := by
  induction h with
  | constant h => exact exists_evaluator_of_accepts (.inl (by rw [h]; rfl)) (by simp)
  | reference h => exact exists_evaluator_of_accepts (.inl (by rw [h]; rfl)) (by simp)
  | scaling h _ ih => exact exists_evaluator_of_accepts (.inl (by rw [h]; rfl)) (by simp [ih])
  | addition h _ _ hp hq =>
    exact exists_evaluator_of_accepts (.inl (by rw [h]; rfl)) (by simp [hp, hq])
  | combination h _ _ hp hq =>
    exact exists_evaluator_of_accepts (.inl (by rw [h]; rfl)) (by simp [hp, hq])
  | multiplication h _ _ hp hq =>
    exact exists_evaluator_of_accepts (.inl (by rw [h]; rfl)) (by simp [hp, hq])

theorem Computes.value_apply {t : Expression} {F : (Argument → Int) → Int} (h : t.Computes F)
    {s : Situation} {env : Argument → Int}
    (held : ∀ y ∈ t.arguments, s.store.get y = .int (env y)) :
    t.value s = .ok (.int (F env)) s := by
  have below {l : Label} {p q : Expression}
      (held : ∀ y ∈ arguments (.node l [(Key.left, p), (Key.right, q)]),
        s.store.get y = .int (env y)) :
      (∀ y ∈ p.arguments, s.store.get y = .int (env y)) ∧
        ∀ y ∈ q.arguments, s.store.get y = .int (env y) := by
    constructor
    · intro y hy
      exact held y (mem_arguments_node.mpr (.inr ⟨(Key.left, p), by simp, hy⟩))
    · intro y hy
      exact held y (mem_arguments_node.mpr (.inr ⟨(Key.right, q), by simp, hy⟩))
  induction h with
  | constant h =>
    rw [value_constant h]
    rfl
  | @reference l x h =>
    have hx := held x (mem_arguments_node.mpr (.inl (by rw [h]; rfl)))
    rw [value_reference h, ← hx]
    rfl
  | @scaling l k p F h _ ih =>
    have part := ih fun y hy =>
      held y (mem_arguments_node.mpr (.inr ⟨(Key.scaled, p), List.mem_singleton_self _, hy⟩))
    rw [value_scaling h, bind_eq_of_ok part]
    rfl
  | addition h _ _ hp hq =>
    obtain ⟨left, right⟩ := below held
    rw [value_addition h, bind_eq_of_ok (hp left), bind_eq_of_ok (hq right)]
    rfl
  | @combination l k p q F G h _ _ hp hq =>
    obtain ⟨left, right⟩ := below held
    rw [value_addition h, bind_eq_of_ok (hp left), bind_eq_of_ok (hq right)]
    split
    · rename_i one
      change EStateM.Result.ok (Value.int (F env + G env)) s = .ok (.int (F env + k * G env)) s
      rw [Value.eq_one_of_equal one, Int.one_mul]
    · rfl
  | multiplication h _ _ hp hq =>
    obtain ⟨left, right⟩ := below held
    rw [value_multiplication h, bind_eq_of_ok (hp left), bind_eq_of_ok (hq right)]
    rfl

/-! A constant, a reference, a sum in steps of one, and a difference. -/

def IsConstant (t : Expression) (n : Int) : Prop :=
  ∃ l : Label, l.shape = .constant (.int n) ∧ t = .node l []

def IsReference (t : Expression) (x : Argument) : Prop :=
  ∃ l : Label, l.shape = .reference x ∧ t = .node l []

def IsSum (t body : Expression) (index : Argument) (start stop : Expression) : Prop :=
  ∃ (l : Label) (one : Expression), l.shape = .iteration .sum index ∧ one.IsConstant 1 ∧
    t = .node l [(Key.body, body), (Key.start, start), (Key.stop, stop), (Key.step, one)]

def IsDifference (t body : Expression) (d : Difference) (x : Argument) (width : Int) : Prop :=
  ∃ (l : Label) (h : Expression), l.shape = .difference d x ∧ h.IsConstant width ∧
    t = .node l [(Key.body, body), (Key.width, h)]

def IsDifferenceAt (t body : Expression) (d : Difference) (x : Argument) (width point : Int) :
    Prop :=
  ∃ (l : Label) (h p : Expression), l.shape = .difference d x ∧ h.IsConstant width ∧
    p.IsConstant point ∧ t = .node l [(Key.body, body), (Key.width, h), (Key.point, p)]

section
variable {t body start stop : Expression} {index x : Argument} {d : Difference}
  {n width point : Int}

theorem IsConstant.value_eq (h : t.IsConstant n) : t.value = pure (.int n) := by
  obtain ⟨l, hl, rfl⟩ := h
  exact value_constant hl

theorem IsConstant.exists_evaluator (h : t.IsConstant n) : ∃ ev, t.evaluator = .ok ev := by
  obtain ⟨l, hl, rfl⟩ := h
  exact (Computes.constant hl).exists_evaluator

theorem IsReference.value_eq (h : t.IsReference x) : t.value = read x := by
  obtain ⟨l, hl, rfl⟩ := h
  exact value_reference hl

theorem IsReference.exists_evaluator (h : t.IsReference x) : ∃ ev, t.evaluator = .ok ev := by
  obtain ⟨l, hl, rfl⟩ := h
  exact (Computes.reference hl).exists_evaluator

theorem IsSum.value_eq (h : t.IsSum body index start stop) :
    t.value = start.value >>= fun first => stop.value >>= fun last =>
      Iteration.sum.overRange body.value index ⟨first, last, .int 1⟩ := by
  obtain ⟨l, one, hl, hone, rfl⟩ := h
  have node : value (.node l [(Key.body, body), (Key.start, start), (Key.stop, stop),
      (Key.step, one)]) = start.value >>= fun first => stop.value >>= fun last =>
        one.value >>= fun step => Iteration.sum.overRange body.value index ⟨first, last, step⟩ := by
    rw [value_node, Label.value, hl]
    rfl
  rw [node, hone.value_eq]
  simp only [pure_bind]

theorem IsSum.exists_evaluator (h : t.IsSum body index start stop)
    (hbody : ∃ ev, body.evaluator = .ok ev) (hstart : ∃ ev, start.evaluator = .ok ev)
    (hstop : ∃ ev, stop.evaluator = .ok ev) : ∃ ev, t.evaluator = .ok ev := by
  obtain ⟨l, one, hl, hone, rfl⟩ := h
  exact exists_evaluator_of_accepts (.inl (by rw [hl]; rfl))
    (by simp [hbody, hstart, hstop, hone.exists_evaluator])

theorem IsDifference.value_eq (h : t.IsDifference body d x width) :
    t.value = d.of body.value x none (.int width) := by
  obtain ⟨l, width, hl, hwidth, rfl⟩ := h
  have node : value (.node l [(Key.body, body), (Key.width, width)]) =
      width.value >>= fun step => d.of body.value x none step := by
    rw [value_node, Label.value, hl]
    rfl
  rw [node, hwidth.value_eq, pure_bind]

theorem IsDifference.exists_evaluator (h : t.IsDifference body d x width)
    (hbody : ∃ ev, body.evaluator = .ok ev) : ∃ ev, t.evaluator = .ok ev := by
  obtain ⟨l, width, hl, hwidth, rfl⟩ := h
  exact exists_evaluator_of_accepts (.inl (by rw [hl]; rfl))
    (by simp [hbody, hwidth.exists_evaluator])

theorem IsDifferenceAt.value_eq (h : t.IsDifferenceAt body d x width point) :
    t.value = d.of body.value x (some (.int point)) (.int width) := by
  obtain ⟨l, width, point, hl, hwidth, hpoint, rfl⟩ := h
  have node : value (.node l [(Key.body, body), (Key.width, width), (Key.point, point)]) =
      point.value >>= fun v => width.value >>= fun step =>
        d.of body.value x (Evaluator.pointOf v) step := by
    rw [value_node, Label.value, hl]
    rfl
  rw [node, hwidth.value_eq, hpoint.value_eq]
  simp only [pure_bind]
  rfl

theorem IsDifferenceAt.exists_evaluator (h : t.IsDifferenceAt body d x width point)
    (hbody : ∃ ev, body.evaluator = .ok ev) : ∃ ev, t.evaluator = .ok ev := by
  obtain ⟨l, width, point, hl, hwidth, hpoint, rfl⟩ := h
  exact exists_evaluator_of_accepts (.inr (by rw [hl]; rfl))
    (by simp [hbody, hwidth.exists_evaluator, hpoint.exists_evaluator])

end

end Expression

theorem Workspace.calculate_of_value {w : Workspace} {e : ExprId} {t : Expression}
    (tree : w.graph.HasTree e t) (complete : ∃ ev, t.evaluator = .ok ev) :
    w.calculate (.expression e) = w.run t.value := by
  obtain ⟨ev, hev⟩ := complete
  rw [calculate, body_of_hasTree tree, Expression.calculation, hev]

end FiniteCalculus
