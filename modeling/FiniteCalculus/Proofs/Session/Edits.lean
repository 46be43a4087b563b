import FiniteCalculus.Proofs.Graph.Edits
import FiniteCalculus.Proofs.Session.Replacement

/-! What the actions of a session make of its trees. An action that edits a node edits it in every
tree that has the node, however many nodes are above it and however often it is shared, and all
other trees stay. The main statement is that this tells, step by step, which tree a node has. -/

namespace FiniteCalculus
set_option autoImplicit false

/-- Parts are replaced under keys that differ. -/
def Action.Distinct : Action → Prop
  | replace _ operands => (operands.map Prod.fst).Nodup
  | _ => True

namespace Session
variable {s s' : Session} {e : ExprId} {t t' : Expression} {action : Action}

/-- What an action makes of a tree. -/
inductive Turns (s : Session) : Action → Expression → Expression → Prop where
  | coefficient {e : ExprId} {c : Value} {t : Expression} :
    Turns s (.setCoefficient e c) t (t.relabelAt e (.withCoefficient c))
  | factor {e : ExprId} {a : Value} {t : Expression} :
    Turns s (.setFactor e a) t (t.relabelAt e (.withFactor a))
  | name {e : ExprId} {name : String} {t : Expression} :
    Turns s (.rename e name) t (t.relabelAt e (.withName name))
  -- What is put in are the trees of the operands as they stand after the replacement.
  | replaced {e : ExprId} {operands : List (String × Operand)} {adopted : List (String × ExprId)}
    {new : List (String × Expression)} {t : Expression} :
    s.workspace.graph.Replaces e operands adopted
      (s.perform (.replace e operands)).workspace.graph →
    Correspond (s.perform (.replace e operands)).workspace.graph.HasTree adopted new →
    Turns s (.replace e operands) t (t.replaceAt e new)
  | refused {e : ExprId} {operands : List (String × Operand)} {operand : Operand}
    {t : Expression} : operand ∈ operands.map Prod.snd → ¬ operand.Adoptable →
    Turns s (.replace e operands) t t
  -- No tree shows how verbose a node is.
  | verbosity {e : ExprId} {v : Value} {t : Expression} : Turns s (.setVerbosity e v) t t
  | apart {action : Action} {t : Expression} :
    (∀ e, action.edited? = some e → e ∉ t.labels.map Label.id) → Turns s action t t

/-- No node changes but the one that is edited. -/
theorem node?_perform {node : Node} (hnode : s.workspace.graph.node? e = some node)
    (apart : action.edited? ≠ some e) :
    (s.perform action).workspace.graph.node? e = some node := by
  have edits := perform_edits s action
  generalize (s.perform action).workspace.graph = g' at edits ⊢
  cases edits with
  | none same => rwa [Graph.node?, same]
  | made hmade =>
    obtain ⟨_, _, _, gains⟩ := Recipe.make_gains hmade
    exact gains.creates.others e node hnode
  | replaced hset =>
    obtain ⟨⟨adopted, g₁⟩, hadopted, h⟩ := bind_eq_ok hset
    cases h
    rw [Graph.node?_modify_of_ne _ fun same => apart (congrArg some same.symm)]
    exact (Graph.adoptAll_spec hadopted).2.1 e node hnode
  | relabelled edited _ =>
    rw [Graph.node?_modify_of_ne _ fun same => apart (edited.trans (congrArg some same.symm))]
    exact hnode

theorem perform_replace_of_unfit {operands : List (String × Operand)} {operand : Operand}
    (mem : operand ∈ operands.map Prod.snd) (unfit : ¬ operand.Adoptable) :
    s.perform (.replace e operands) = s := by
  cases h : s.workspace.graph.setParts e operands with
  | error misuse => exact perform_replace_error h
  | ok g => exact absurd (Graph.adoptable_of_setParts h operand mem) unfit

theorem Turns.hasTree (turns : s.Turns action t t') (tree : s.workspace.graph.HasTree e t) :
    (s.perform action).workspace.graph.HasTree e t' := by
  cases turns with
  | coefficient => exact tree.setCoefficient _ _
  | factor => exact tree.setFactor _ _
  | name => exact tree.rename _ _
  | replaced replaces below => exact replaces.hasTree below tree
  | refused mem unfit =>
    rw [perform_replace_of_unfit mem unfit]
    exact tree
  | verbosity => exact tree.setVerbosity _ _
  | apart absent =>
    refine tree.of_kept fun l inside node hnode => node?_perform hnode fun edited => ?_
    exact absent l.id edited (List.mem_map_of_mem inside)

/-- Whatever tree a node has after an action is what the action makes of the one it had. -/
theorem turns_iff (reached : s.Reachable) (lawful : action.Lawful s.workspace.graph)
    (distinct : action.Distinct) (tree : s.workspace.graph.HasTree e t) :
    (s.perform action).workspace.graph.HasTree e t' ↔ s.Turns action t t' := by
  refine ⟨fun after => ?_, fun turns => turns.hasTree tree⟩
  have of_turns {u : Expression} (turns : s.Turns action t u) : s.Turns action t t' := by
    rwa [after.unique (turns.hasTree tree)]
  cases action with
  | setCoefficient => exact of_turns .coefficient
  | setFactor => exact of_turns .factor
  | rename => exact of_turns .name
  | setVerbosity => exact of_turns .verbosity
  | replace e₀ operands =>
    cases h : s.workspace.graph.setParts e₀ operands with
    | error misuse =>
      obtain ⟨_, _, operand, _, rfl, _, unfit, _⟩ := Graph.adoptAll_error (Graph.setParts_error h)
      exact of_turns (.refused (by simp) unfit)
    | ok g =>
      by_cases present : e₀ ∈ t.labels.map Label.id
      · obtain ⟨node, hnode, _⟩ := lawful
        have changed : (s.perform (.replace e₀ operands)).workspace.graph = g :=
          congrArg (·.workspace.graph) (perform_replace_ok h)
        obtain ⟨adopted, replaces⟩ := Graph.setParts_replaces (reachable_consistent reached)
          (reachable_wellKeyed reached) distinct ⟨node, hnode⟩ (changed ▸ h)
        obtain ⟨new, below⟩ := replaces.exists_trees distinct tree present after
        exact of_turns (.replaced replaces below)
      · refine of_turns (.apart fun e edited => ?_)
        cases edited
        exact present
  | _ => exact of_turns (.apart nofun)

/-- One session leads to another, while its actions turn a tree into another. -/
inductive LeadsTurning (s : Session) (t : Expression) : Session → Expression → Prop where
  | refl : LeadsTurning s t s t
  | tail {s' : Session} {t' t'' : Expression} {action : Action} : LeadsTurning s t s' t' →
    action.Lawful s'.workspace.graph → s'.Turns action t' t'' →
    LeadsTurning s t (s'.perform action) t''

theorem LeadsTurning.hasTree (h : LeadsTurning s t s' t') (reached : s.Reachable)
    (tree : s.workspace.graph.HasTree e t) : s'.Reachable ∧ s'.workspace.graph.HasTree e t' := by
  induction h with
  | refl => exact ⟨reached, tree⟩
  | tail _ lawful turns ih =>
    obtain ⟨reached', tree'⟩ := ih
    exact ⟨Leads.perform reached' lawful, turns.hasTree tree'⟩

theorem perform_make {recipe : Recipe} {name : Option String} {made : Made}
    (h : recipe.make s.workspace.graph name = .ok made) :
    (s.perform (.make recipe name)).workspace.graph = made.graph := by
  simp only [perform, h, Except.map, edit]

end Session

end FiniteCalculus
