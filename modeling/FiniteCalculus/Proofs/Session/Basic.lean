import FiniteCalculus.Proofs.Expression.Calculation
import FiniteCalculus.Proofs.Graph.Listing
import Mathlib.Logic.Relation

/-! Sessions: a workspace together with the evaluators made in it, and the actions that
take one session to the next. A refused action changes nothing. -/

namespace FiniteCalculus
set_option autoImplicit false

/-- A way to make a node. -/
inductive Recipe where
  | constant (operand : Operand)
  | reference (operand : Operand)
  | application (f : Option NumericFunction) (args : List Operand) (description : Option String)
  | scaling (part : Operand) (factor : Value)
  | addition (left right : Operand) (coefficient : Value)
  | multiplication (left right : Operand)
  | iteration (op : Iteration) (body index start stop step : Operand)
  | difference (d : Difference) (body x : Operand) (point : Option Operand) (width : Operand)

def Recipe.make (g : Graph) (name : Option String) : Recipe → Except Misuse Made
  | constant operand => g.constant operand name
  | reference operand => g.reference operand name
  | application f args description => g.application f args description name
  | scaling part factor => g.scaling part factor name
  | addition left right coefficient => g.addition left right coefficient name
  | multiplication left right => g.multiplication left right name
  | iteration op body index start stop step => g.iteration op body index start stop step name
  | difference d body x point width => g.difference d body x point width name

inductive Action where
  | declare (name : Operand) (initial : Value)
  | make (recipe : Recipe) (name : Option String)
  | replace (e : ExprId) (operands : List (String × Operand))
  | setCoefficient (e : ExprId) (c : Value)
  | setFactor (e : ExprId) (a : Value)
  | rename (e : ExprId) (name : String)
  | setVerbosity (e : ExprId) (v : Value)
  | assign (x : Argument) (v : Value)
  | evaluate (operand : Operand)
  | snapshot (e : ExprId)
  | call (index : Nat)

/-- Parts are replaced under keys that the shape of the node has a use for. -/
def Action.Lawful (g : Graph) : Action → Prop
  | replace e operands => ∃ node, g.node? e = some node ∧
    ∀ key ∈ operands.map Prod.fst, key ∈ node.shape.keys ++ node.shape.spareKeys
  | _ => True

/-- The node that an action edits. -/
def Action.edited? : Action → Option ExprId
  | replace e _ | setCoefficient e _ | setFactor e _ | rename e _ | setVerbosity e _ => some e
  | _ => none

structure Session where
  workspace : Workspace := {}
  /-- In the order in which they were made. -/
  evaluators : List Evaluator := []

namespace Session

/-- What calling an evaluator of the session comes to. -/
def outcome? (s : Session) (index : Nat) : Option Outcome :=
  s.evaluators[index]?.map fun ev => s.workspace.calculate (.evaluator ev)

def edit (s : Session) : Except Misuse Graph → Session
  | .ok g => { s with workspace := { s.workspace with graph := g } }
  | .error _ => s

def perform (s : Session) : Action → Session
  | .declare name initial =>
    match s.workspace.declare name initial with
    | .ok (_, w) => { s with workspace := w }
    | .error _ => s
  | .make recipe name => s.edit ((recipe.make s.workspace.graph name).map Made.graph)
  | .replace e operands => s.edit (s.workspace.graph.setParts e operands)
  | .setCoefficient e c => s.edit (.ok (s.workspace.graph.setCoefficient e c))
  | .setFactor e a => s.edit (.ok (s.workspace.graph.setFactor e a))
  | .rename e name => s.edit (.ok (s.workspace.graph.rename e name))
  | .setVerbosity e v => s.edit (.ok (s.workspace.graph.setVerbosity e v))
  | .assign x v => { s with workspace := s.workspace.set x v }
  | .evaluate operand => { s with workspace := (s.workspace.calculate operand).workspace }
  | .snapshot e =>
    match s.workspace.graph.evaluator e with
    | .ok ev => { s with evaluators := s.evaluators ++ [ev] }
    | .error _ => s
  | .call index =>
    match s.outcome? index with
    | some outcome => { s with workspace := outcome.workspace }
    | none => s

def Step (s s' : Session) : Prop :=
  ∃ action : Action, action.Lawful s.workspace.graph ∧ s' = s.perform action

def Leads : Session → Session → Prop := Relation.ReflTransGen Step

def Reachable (s : Session) : Prop := Leads {} s

end Session

namespace Recipe
variable {g : Graph} {recipe : Recipe} {shape : Shape} {name : Option String} {made : Made}

/-- The shape of the node, with its own constants. There is none where what is held, applied or
bound is not of the kind that it has to be. -/
def shape? : Recipe → Option Shape
  | constant (.value v) => if v.isReal then some (.constant v) else none
  | reference (.argument x) => some (.reference x)
  | application (some f) args description =>
    let given := description.getD ""
    some (.application f (if given.isEmpty then f.name else given) args.length)
  | scaling _ factor => some (.scaling factor)
  | addition _ _ coefficient => some (.addition coefficient)
  | multiplication .. => some .multiplication
  | iteration op _ (.argument x) .. => some (.iteration op x)
  | difference d _ (.argument x) .. => some (.difference d x)
  | _ => none

/-- The operands under the keys at which they become parts. -/
def entries : Recipe → List (String × Operand)
  | constant _ | reference _ => []
  | application _ args _ => args.mapIdx fun i arg => (Key.arg i, arg)
  | scaling part _ => [(Key.scaled, part)]
  | addition left right _ | multiplication left right => [(Key.left, left), (Key.right, right)]
  | iteration _ body _ start stop step =>
    [(Key.body, body), (Key.start, start), (Key.stop, stop), (Key.step, step)]
  | difference _ body _ point width =>
    [(Key.body, body), (Key.width, width)] ++ point.toList.map fun p => (Key.point, p)

theorem accepts_entries (h : recipe.shape? = some shape) :
    shape.Accepts (recipe.entries.map Prod.fst) := by
  cases recipe with
  | constant operand =>
    cases operand with
    | value v =>
      obtain ⟨_, h⟩ := Option.ite_none_right_eq_some.mp h
      cases h
      exact .inl rfl
    | _ => cases h
  | reference operand =>
    cases operand with
    | argument x =>
      cases h
      exact .inl rfl
    | _ => cases h
  | application f args description =>
    cases f with
    | none => cases h
    | some f =>
      cases h
      refine .inl (List.ext_getElem ?_ fun i _ _ => ?_) <;> simp [entries, Shape.keys]
  | scaling | addition | multiplication =>
    cases h
    exact .inl rfl
  | iteration op body index =>
    cases index with
    | argument x =>
      cases h
      exact .inl rfl
    | _ => cases h
  | difference d body x point width =>
    cases x with
    | argument x =>
      cases h
      cases point with
      | none => exact .inl rfl
      | some p => exact .inr rfl
    | _ => cases h

/-- A node that is made has the shape and the entries of its recipe. -/
theorem make_gains (h : recipe.make g name = .ok made) : ∃ shape adopted,
    recipe.shape? = some shape ∧
      g.Gains shape name recipe.entries adopted made.id made.graph := by
  cases recipe with
  | constant operand =>
    cases operand with
    | value v =>
      simp only [make, Graph.constant] at h
      split at h
      · rename_i real
        cases h
        exact ⟨_, [], if_pos real, g.leaf_gains _ name⟩
      · cases h
    | _ => cases h
  | reference operand =>
    cases operand with
    | argument x =>
      cases h
      exact ⟨_, [], rfl, g.leaf_gains _ name⟩
    | _ => cases h
  | application f args description =>
    cases f with
    | none => cases h
    | some f =>
      obtain ⟨adopted, gains⟩ := Graph.compose_gains h
      refine ⟨_, adopted, rfl, ?_⟩
      cases description <;> exact gains
  | scaling | addition | multiplication =>
    obtain ⟨adopted, gains⟩ := Graph.compose_gains h
    exact ⟨_, adopted, rfl, gains⟩
  | iteration | difference =>
    obtain ⟨x, adopted, rfl, gains⟩ := Graph.binding_gains h
    exact ⟨_, adopted, rfl, gains⟩

end Recipe

namespace Session
variable {s s' : Session}

theorem Leads.refl : s.Leads s := Relation.ReflTransGen.refl

theorem Leads.perform (h : s.Leads s') {action : Action}
    (lawful : action.Lawful s'.workspace.graph) : s.Leads (s'.perform action) :=
  Relation.ReflTransGen.tail h ⟨action, lawful, rfl⟩

/-- What an action does to the graph. -/
inductive Edits (g : Graph) : Action → Graph → Prop where
  | none {action : Action} {g' : Graph} : g'.nodes = g.nodes → Edits g action g'
  | made {recipe : Recipe} {name : Option String} {made : Made} :
    recipe.make g name = .ok made → Edits g (.make recipe name) made.graph
  | replaced {e : ExprId} {operands : List (String × Operand)} {g' : Graph} :
    g.setParts e operands = .ok g' → Edits g (.replace e operands) g'
  -- Coefficients, factors, names and verbosity are no parts, and no shape changes its keys.
  | relabelled {action : Action} {e : ExprId} {change : Node → Node} :
    action.edited? = some e →
    (∀ node : Node, (change node).shape.keys = node.shape.keys ∧
      (change node).shape.spareKeys = node.shape.spareKeys ∧
      (change node).parts = node.parts ∧ (change node).listed = node.listed) →
    Edits g action (g.modify e change)

theorem perform_edits (s : Session) (action : Action) :
    Edits s.workspace.graph action (s.perform action).workspace.graph := by
  cases action with
  | declare name initial =>
    simp only [perform]
    split
    · rename_i declared
      obtain ⟨⟨x, g⟩, hg, h⟩ := bind_eq_ok declared
      cases h
      unfold Graph.declare at hg
      split at hg
      · cases hg
        exact .none rfl
      · cases hg
    · exact .none rfl
  | make recipe name =>
    simp only [perform]
    cases hmade : recipe.make s.workspace.graph name with
    | error misuse => exact .none rfl
    | ok made => exact .made hmade
  | replace e operands =>
    simp only [perform]
    cases hset : s.workspace.graph.setParts e operands with
    | error misuse => exact .none rfl
    | ok g => exact .replaced hset
  | setCoefficient e c =>
    refine .relabelled rfl fun node => ?_
    obtain ⟨shape, _⟩ := node
    cases shape <;> exact ⟨rfl, rfl, rfl, rfl⟩
  | setFactor e a =>
    refine .relabelled rfl fun node => ?_
    obtain ⟨shape, _⟩ := node
    cases shape <;> exact ⟨rfl, rfl, rfl, rfl⟩
  | rename e name => exact .relabelled rfl fun node => ⟨rfl, rfl, rfl, rfl⟩
  | setVerbosity e v => exact .relabelled rfl fun node => ⟨rfl, rfl, rfl, rfl⟩
  | assign x v => exact .none rfl
  | evaluate operand => exact .none (congrArg Graph.nodes (Workspace.graph_calculate _ _))
  | snapshot e =>
    simp only [perform]
    split <;> exact .none rfl
  | call index =>
    simp only [perform]
    split
    · rename_i outcome called
      obtain ⟨ev, _, rfl⟩ := Option.map_eq_some_iff.mp called
      exact .none (congrArg Graph.nodes (Workspace.graph_calculate _ _))
    · exact .none rfl

theorem perform_wellKeyed (hs : s.workspace.graph.WellKeyed) {action : Action}
    (lawful : action.Lawful s.workspace.graph) : (s.perform action).workspace.graph.WellKeyed := by
  have edits := perform_edits s action
  generalize (s.perform action).workspace.graph = g' at edits ⊢
  cases edits with
  | none same =>
    intro e node hnode
    rw [Graph.node?, same] at hnode
    exact hs e node hnode
  | made hmade =>
    obtain ⟨_, _, hshape, gains⟩ := Recipe.make_gains hmade
    exact gains.wellKeyed hs (Recipe.accepts_entries hshape)
  | replaced hset =>
    obtain ⟨node, hnode, defined⟩ := lawful
    exact Graph.setParts_wellKeyed hs hset hnode defined
  | relabelled _ keeps =>
    refine hs.modify fun node _ accepts => ?_
    obtain ⟨keys, spareKeys, parts, _⟩ := keeps node
    rw [Shape.Accepts, keys, spareKeys, parts]
    exact accepts

theorem reachable_wellKeyed (h : s.Reachable) : s.workspace.graph.WellKeyed := by
  induction h with
  | refl => exact Graph.wellKeyed_empty
  | tail _ step ih =>
    obtain ⟨action, lawful, rfl⟩ := step
    exact perform_wellKeyed ih lawful

theorem perform_extends (s : Session) (action : Action) :
    s.workspace.graph.Extends (s.perform action).workspace.graph := by
  have edits := perform_edits s action
  generalize (s.perform action).workspace.graph = g' at edits ⊢
  cases edits with
  | none same => exact .of_nodes_eq same
  | made hmade =>
    obtain ⟨_, _, _, gains⟩ := Recipe.make_gains hmade
    exact gains.extends
  | replaced hset => exact Graph.setParts_extends hset
  | relabelled _ keeps =>
    refine Graph.modify_extends fun node => ?_
    obtain ⟨_, _, parts, listed⟩ := keeps node
    exact .of_eq parts listed

theorem Leads.extends (h : s.Leads s') : s.workspace.graph.Extends s'.workspace.graph := by
  induction h with
  | refl => exact .refl _
  | tail _ step ih =>
    obtain ⟨action, _, rfl⟩ := step
    exact ih.trans (perform_extends _ action)

theorem reachable_consistent (reached : s.Reachable) : s.workspace.graph.Consistent :=
  (Leads.extends reached).consistent (reachable_wellKeyed reached)

theorem reachable_listing_eq (reached : s.Reachable) :
    s.workspace.graph.listing = s.workspace.graph := (Leads.extends reached).listing_eq

theorem evaluators_perform (s : Session) (action : Action) :
    s.evaluators <+: (s.perform action).evaluators := by
  have edited (graph : Except Misuse Graph) : s.evaluators <+: (s.edit graph).evaluators := by
    cases graph <;> exact List.prefix_refl _
  cases action with
  | declare name initial =>
    simp only [perform]
    split <;> exact List.prefix_refl _
  | snapshot e =>
    simp only [perform]
    split
    · exact List.prefix_append _ _
    · exact List.prefix_refl _
  | call index =>
    simp only [perform]
    split <;> exact List.prefix_refl _
  | assign x v => exact List.prefix_refl _
  | evaluate operand => exact List.prefix_refl _
  | _ => exact edited _

theorem Leads.evaluators (h : s.Leads s') : s.evaluators <+: s'.evaluators := by
  induction h with
  | refl => exact List.prefix_refl _
  | tail _ step ih =>
    obtain ⟨action, _, rfl⟩ := step
    exact ih.trans (evaluators_perform _ action)

end Session

end FiniteCalculus
