import FiniteCalculus.Proofs.Evaluation.Changes
import FiniteCalculus.Proofs.Expression.Calculation
import FiniteCalculus.Expression.Traversal

/-! Which arguments an evaluation can change. A sum or a product leaves its index
rebound; a difference hides from the outside what its body does to its own argument.
This bounds every run of the expression, whether it returns or faults. -/

namespace FiniteCalculus
set_option autoImplicit false

/-- The arguments that a node can change, given those that its parts can. -/
def Label.assigned (l : Label) (part : String → List Argument) : List Argument :=
  match l.shape with
  | .constant _ | .reference _ => []
  | .application _ _ count => (List.range count).flatMap fun i => part (Key.arg i)
  | .scaling _ => part Key.scaled
  | .addition _ | .multiplication => part Key.left ++ part Key.right
  | .iteration _ index =>
    index :: (part Key.body ++ part Key.start ++ part Key.stop ++ part Key.step)
  | .difference _ x =>
    (part Key.body).filter (· ≠ x) ++ part Key.point ++ part Key.width

namespace Expression
open Evaluation

def assigned : Expression → List Argument :=
  fold fun l parts => l.assigned fun key => (parts.lookup key).getD []

theorem assigned_node (l : Label) (parts : List (String × Expression)) :
    assigned (.node l parts) =
      l.assigned fun key => ((parts.lookup key).map assigned).getD [] := by
  simp only [assigned, fold, lookup_foldParts]

theorem label_value_obeys (l : Label) {part? : String → Option (Evaluation Value)}
    {assigned : String → List Argument}
    (hpart : ∀ key m, part? key = some m → m.Obeys (.within (assigned key))) :
    (l.value part?).Obeys (.within (l.assigned assigned)) := by
  have steps (xs : List Argument) := obeys_compositional (.within xs)
  have part (key : String) :
      ((part? key).getD (throw (.missingPart key))).Obeys (.within (assigned key)) := by
    cases hp : part? key with
    | none => exact (steps _).throw _
    | some m => exact hpart key m hp
  have wider {m : Evaluation Value} {xs ys : List Argument} (h : m.Obeys (.within xs))
      (sub : ∀ x ∈ xs, x ∈ ys) : m.Obeys (.within ys) :=
    h.mono fun x _ _ => Or.imp_left (sub x)
  unfold Label.value Label.assigned
  cases l.shape with
  | constant c => exact (steps []).pure c
  | reference x => exact obeys_read x
  | application f description count =>
    refine (steps _).bind ((steps _).mapM _ fun i hi => ?_) fun args => (steps _).call f args
    exact wider (part (Key.arg i)) fun x hx => List.mem_flatMap.mpr ⟨i, hi, hx⟩
  | scaling factor => exact (steps _).bind (part Key.scaled) fun v => (steps _).lift _
  | addition coefficient =>
    refine (steps _).bind (wider (part Key.left) fun x hx => ?_) fun v =>
      (steps _).bind (wider (part Key.right) fun x hx => ?_) fun w => ?_
    · exact List.mem_append_left _ hx
    · exact List.mem_append_right _ hx
    · split
      · exact (steps _).lift _
      · exact (steps _).lift _
  | multiplication =>
    refine (steps _).bind (wider (part Key.left) fun x hx => ?_) fun v =>
      (steps _).bind (wider (part Key.right) fun x hx => ?_) fun w => (steps _).lift _
    · exact List.mem_append_left _ hx
    · exact List.mem_append_right _ hx
  | iteration op index =>
    refine (steps _).bind (wider (part Key.start) fun x hx => ?_) fun first =>
      (steps _).bind (wider (part Key.stop) fun x hx => ?_) fun last =>
      (steps _).bind (wider (part Key.step) fun x hx => ?_) fun step =>
      op.overRange_obeys (wider (part Key.body) fun x hx => ?_) (fun u v _ => ?_) _
    · simp [hx]
    · simp [hx]
    · simp [hx]
    · simp [hx]
    · exact .inl List.mem_cons_self
  | difference d x =>
    have body : ((part? Key.body).getD (throw (.missingPart Key.body))).Obeys
        (ChangeLaw.except (.within ((assigned Key.body).filter (· ≠ x) ++
          assigned Key.point ++ assigned Key.width)) x) := by
      refine (part Key.body).mono fun y v w => ?_
      rintro (hy | rfl)
      · by_cases hx : y = x
        · exact .inl hx
        · exact .inr (.inl (by simp [hy, hx]))
      · exact .inr (.inr rfl)
    have width := wider (part Key.width) fun y hy =>
      List.mem_append_right ((assigned Key.body).filter (· ≠ x) ++ assigned Key.point) hy
    cases hp : part? Key.point with
    | none => exact (steps _).bind width fun step => d.of_obeys body none step
    | some point =>
      have hpoint := wider (hpart Key.point point hp) fun y hy =>
        List.mem_append_left (assigned Key.width)
          (List.mem_append_right ((assigned Key.body).filter (· ≠ x)) hy)
      exact (steps _).bind hpoint fun v => (steps _).bind width fun step =>
        d.of_obeys body (Evaluator.pointOf v) step

theorem value_obeys (t : Expression) : t.value.Obeys (.within t.assigned) := by
  induction t using induction with
  | node l parts ih =>
    rw [value_node, assigned_node]
    refine label_value_obeys l fun key m hm => ?_
    obtain ⟨p, hp, rfl⟩ := Option.map_eq_some_iff.mp hm
    rw [hp]
    exact ih key p (mem_of_lookup hp)

theorem assigned_eq_nil_of_visits {t : Expression} {parents : List Label} {key : String}
    (h : ∀ visit ∈ t.visits parents key, ∀ op index, visit.label.shape ≠ .iteration op index) :
    t.assigned = [] := by
  induction t using induction generalizing parents key with
  | node l parts ih =>
    simp only [visits, visitsOfParts_eq_flatMap, List.mem_cons, List.mem_flatMap] at h
    have none (key : String) : ((parts.lookup key).map assigned).getD [] = [] := by
      cases hp : parts.lookup key with
      | none => rfl
      | some p =>
        have mem := mem_of_lookup hp
        exact ih key p mem fun visit hv => h visit (.inr ⟨(key, p), mem, hv⟩)
    rw [assigned_node]
    simp only [Label.assigned, none]
    cases hs : l.shape with
    | iteration op index => exact absurd hs (h ⟨parents, key, l⟩ (.inl rfl) op index)
    | _ => simp

end Expression

namespace Workspace

/-- Calculating an expression changes no argument but those that it can assign, and
none at all if there is no sum or product in it: differences leave no trace, even those
that a fault cuts short. -/
theorem calculate_changes_only_assigned (w : Workspace) (e : ExprId) (t : Expression)
    (h : w.graph.HasTree e t) :
    (∀ x, x ∉ t.assigned → (w.calculate (.expression e)).workspace.get x = w.get x) ∧
    ((∀ visit ∈ t.traverse, ∀ op index, visit.label.shape ≠ .iteration op index) →
      ∀ x, (w.calculate (.expression e)).workspace.get x = w.get x) := by
  have keeps (x : Argument) (hx : x ∉ t.assigned) :
      (w.calculate (.expression e)).workspace.get x = w.get x := by
    have obeys : (w.body (.expression e)).Obeys (.within t.assigned) := by
      rw [body_of_hasTree h]
      rcases t.calculation_eq with hrun | ⟨fault, hrun⟩
      · rw [hrun]
        exact t.value_obeys
      · rw [hrun]
        exact (Evaluation.obeys_compositional _).throw fault
    rw [get_calculate]
    exact (obeys { store := w.store } x).resolve_left hx
  refine ⟨keeps, ?_⟩
  intro plain x
  apply keeps x
  rw [Expression.assigned_eq_nil_of_visits plain]
  exact List.not_mem_nil

/-- Two differences of `x * y` over the same argument `x`, one inside the other. -/
def nestedDifferences : Workspace where
  graph :=
    { argumentNames := #["x", "y"]
      nodes := #[
        { shape := .reference ⟨0⟩, name := "x", parts := [] },
        { shape := .reference ⟨1⟩, name := "y", parts := [] },
        { shape := .multiplication, name := "mult",
          parts := [(Key.left, ⟨0⟩), (Key.right, ⟨1⟩)] },
        { shape := .constant (.int 1), name := "const", parts := [] },
        { shape := .difference .forward ⟨0⟩, name := "fwd-diff",
          parts := [(Key.body, ⟨2⟩), (Key.width, ⟨3⟩)] },
        { shape := .difference .backward ⟨0⟩, name := "bwd-diff",
          parts := [(Key.body, ⟨4⟩), (Key.width, ⟨3⟩)] }] }
  store := ⟨[.int 3, .absent]⟩

theorem nestedDifferences_fault_keeps :
    (∃ t, nestedDifferences.graph.HasTree ⟨5⟩ t) ∧
    (nestedDifferences.calculate (.expression ⟨5⟩)).result =
      .error (.unsupported "*" .int .absent) ∧
    ∀ x, (nestedDifferences.calculate (.expression ⟨5⟩)).workspace.get x =
      nestedDifferences.get x := by
  have tree := Graph.expression_eq_ok_iff.mp
    (show nestedDifferences.graph.expression ⟨5⟩ = .ok _ from rfl)
  refine ⟨⟨_, tree⟩, rfl, ?_⟩
  apply (calculate_changes_only_assigned nestedDifferences ⟨5⟩ _ tree).2
  simp [Expression.traverse, Expression.visits, Expression.visitsOfParts, nestedDifferences]

end Workspace

end FiniteCalculus
