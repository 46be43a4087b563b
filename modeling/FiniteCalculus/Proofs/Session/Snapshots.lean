import FiniteCalculus.Proofs.Session.Edits

/-! Snapshots. An evaluator keeps to the tree that it was made for, whatever happens to
the nodes of that tree afterwards; an expression is calculated as it stands, with all edits of
the nodes below it. Both read the arguments when they run. -/

namespace FiniteCalculus
set_option autoImplicit false

namespace Session
variable {s s' : Session} {e : ExprId} {t : Expression}

theorem outcome?_of_leads {ev : Evaluator}
    (h : Leads { s with evaluators := s.evaluators ++ [ev] } s') :
    s'.outcome? s.evaluators.length = some (s'.workspace.run ev.value) := by
  obtain ⟨rest, hrest⟩ := h.evaluators
  rw [outcome?, ← hrest]
  simp [Workspace.calculate, Workspace.body]

/-- A tree is calculated as it stands at the call, and an evaluator that is made of it
now runs it, as it stands now, at every later time. What tree stands at a node follows from the
actions: each makes of the tree before it the one after it, and a node that is made stands over
the trees of its operands. -/
theorem snapshot_runs_tree (reached : s.Reachable) (tree : s.workspace.graph.HasTree e t) :
    s.workspace.calculate (.expression e) = s.workspace.run t.value ∧
      (∀ later, Leads (s.perform (.snapshot e)) later →
        later.outcome? s.evaluators.length = some (later.workspace.run t.value)) ∧
      (∀ later t', s.LeadsTurning t later t' → later.workspace.graph.HasTree e t' ∧
        later.workspace.calculate (.expression e) = later.workspace.run t'.value) ∧
      (∀ action : Action, action.Lawful s.workspace.graph → action.Distinct →
        ∀ t', (s.perform action).workspace.graph.HasTree e t' ↔ s.Turns action t t') ∧
      ∀ (recipe : Recipe) (name : Option String) (made : Made),
        recipe.make s.workspace.graph name = .ok made →
        (s.perform (.make recipe name)).workspace.graph = made.graph ∧
        ∃ shape adopted, recipe.shape? = some shape ∧
          s.workspace.graph.Creates shape name recipe.entries adopted made.id made.graph ∧
          ∀ new, Correspond made.graph.HasTree adopted new → made.graph.HasTree made.id
            (.node ⟨made.id, shape, s.workspace.graph.chosenName shape name⟩ new) := by
  refine ⟨calculate_of_hasTree reached tree, fun later leads => ?_, fun later t' turned => ?_,
    fun action lawful distinct t' => turns_iff reached lawful distinct tree,
    fun recipe name made hmade => ⟨perform_make hmade, ?_⟩⟩
  · obtain ⟨ev, hev, compiled⟩ := exists_evaluator reached tree
    simp only [perform, hev] at leads
    rw [outcome?_of_leads leads, Expression.value_of_evaluator compiled]
  · obtain ⟨reached', tree'⟩ := turned.hasTree reached tree
    exact ⟨tree', calculate_of_hasTree reached' tree'⟩
  · obtain ⟨shape, adopted, hshape, gains⟩ := Recipe.make_gains hmade
    exact ⟨shape, adopted, hshape, gains.creates, fun new => gains.creates.hasTree⟩

/-- The square of twice `x` added to itself, with one node for both terms and one for both
factors. -/
def squareOfSum : Session :=
  (((({} : Session).perform (.declare (.value (.text "x")) (.int 3))).perform
    (.make (.scaling (.argument ⟨0⟩) (.int 2)) none)).perform
    (.make (.addition (.expression ⟨1⟩) (.expression ⟨1⟩) (.double 1.0)) none)).perform
    (.make (.multiplication (.expression ⟨2⟩) (.expression ⟨2⟩)) none)

/-- The shared nodes are edited between the making of the evaluator and its call. -/
theorem squareOfSum_snapshot :
    let later := (((((squareOfSum.perform (.snapshot ⟨3⟩)).perform
      (.setCoefficient ⟨2⟩ (.int 5))).perform (.setFactor ⟨1⟩ (.int 3))).perform
      (.rename ⟨2⟩ "sum")).perform (.setVerbosity ⟨3⟩ (.int 0))).perform (.assign ⟨0⟩ (.int 1))
    (later.outcome? 0).map Outcome.result = some (.ok (.int 16)) ∧
      (later.workspace.calculate (.expression ⟨3⟩)).result = .ok (.int 324) := by
  intro later
  have reached : squareOfSum.Reachable := by
    refine Leads.perform (Leads.perform (Leads.perform (Leads.perform Leads.refl ?_) ?_) ?_) ?_
      <;> trivial
  have leads : Leads (squareOfSum.perform (.snapshot ⟨3⟩)) later := by
    refine Leads.perform (Leads.perform (Leads.perform (Leads.perform (Leads.perform
      Leads.refl ?_) ?_) ?_) ?_) ?_ <;> trivial
  have turned (t : Expression) : squareOfSum.LeadsTurning t later
      (((t.relabelAt ⟨2⟩ (.withCoefficient (.int 5))).relabelAt ⟨1⟩
        (.withFactor (.int 3))).relabelAt ⟨2⟩ (.withName "sum")) := by
    refine .tail (.tail (.tail (.tail (.tail (.tail .refl ?_ (.apart nofun)) ?_ .coefficient) ?_
      .factor) ?_ .name) ?_ .verbosity) ?_ (.apart nofun) <;> trivial
  obtain ⟨_, frozen, live, _⟩ := snapshot_runs_tree reached (Graph.expression_eq_ok_iff.mp
    (show squareOfSum.workspace.graph.expression ⟨3⟩ = .ok _ from rfl))
  constructor
  · exact (congrArg (Option.map Outcome.result) (frozen later leads)).trans rfl
  · exact (congrArg Outcome.result (live later _ (turned _)).2).trans rfl

end Session

end FiniteCalculus
