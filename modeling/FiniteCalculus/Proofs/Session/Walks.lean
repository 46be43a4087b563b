import FiniteCalculus.Proofs.Session.Views

/-! Walks in a session. Whatever was made and edited on the way to it, a walk goes through the
tree that is evaluated and written, and an operator that binds an argument over a body without
it is made with a warning. -/

namespace FiniteCalculus
set_option autoImplicit false

/-- What a part can be made of. -/
def Operand.Adoptable : Operand → Prop
  | value v => v.isReal = true
  | evaluator _ => False
  | _ => True

namespace Graph
variable {g : Graph}

theorem exists_adopt (g : Graph) {operand : Operand} (h : operand.Adoptable) :
    ∃ adopted, g.adopt operand = .ok adopted := by
  cases operand with
  | value v =>
    have real : v.isReal = true := h
    simp [adopt, real]
  | argument x => exact ⟨_, rfl⟩
  | expression e => exact ⟨_, rfl⟩
  | evaluator ev => exact absurd h id

theorem exists_adoptAll (g : Graph) {operands : List (String × Operand)}
    (h : ∀ operand ∈ operands.map Prod.snd, operand.Adoptable) :
    ∃ adopted, g.adoptAll operands = .ok adopted := by
  induction operands generalizing g with
  | nil => exact ⟨_, rfl⟩
  | cons entry rest ih =>
    rw [List.map_cons, List.forall_mem_cons] at h
    exact exists_ok_bind (g.exists_adopt h.1) fun adopted =>
      exists_ok_bind (ih adopted.2 h.2) fun others => ⟨_, rfl⟩

theorem node?_insert_self (g : Graph) (node : Node) :
    (g.insert node).2.node? (g.insert node).1 = some node := by
  simp [insert, node?]

/-- An operator is made of what can be a part; it warns about the part under the key of bodies. -/
theorem exists_binding (g : Graph) (shape : Argument → Shape) (role : Role) (x : Argument)
    (name : Option String) (operands : List (String × Operand))
    (adoptable : ∀ operand ∈ operands.map Prod.snd, operand.Adoptable)
    (bodied : Key.body ∈ operands.map Prod.fst) :
    ∃ made node body, g.binding shape role (.argument x) name operands = .ok made ∧
      made.graph.node? made.id = some node ∧ node.parts.lookup Key.body = some body ∧
      made.warnings = made.graph.unusedArgument role x body := by
  obtain ⟨⟨parts, g'⟩, hparts⟩ := g.exists_adoptAll adoptable
  rw [← (adoptAll_spec hparts).1] at bodied
  obtain ⟨body, hbody⟩ := exists_lookup bodied
  let node : Node :=
    { shape := shape x, name := g'.chosenName (shape x) name, parts := parts, listed := parts }
  let warnings := (g'.insert node).2.unusedArgument role x body
  refine ⟨⟨(g'.insert node).1, (g'.insert node).2, warnings⟩, node, body, ?_,
    node?_insert_self g' node, hbody, rfl⟩
  rw [binding, hparts]
  simp only [bind, Except.bind, pure, Except.pure, hbody]
  rfl

theorem unusedArgument_eq (consistent : g.Consistent) (mirrored : g.listing = g) {role : Role}
    {x : Argument} {body : ExprId} {t : Expression} (h : g.HasTree body t) :
    (g.Mentions x body → g.unusedArgument role x body = []) ∧
      (¬ g.Mentions x body → g.unusedArgument role x body =
        [⟨role, g.argumentName x, t.toText g.argumentName⟩]) := by
  have listed : g.listing.HasTree body t := mirrored.symm ▸ h
  rw [← mem_arguments consistent listed, unusedArgument, arguments_eq_ok listed,
    expression_eq_ok_iff.mpr h]
  constructor
  · intro mentioned
    exact if_pos mentioned
  · intro unmentioned
    exact if_neg unmentioned

end Graph

/-- There is one warning if the body of the node that was made does not mention the argument,
and none if it does. -/
def Made.Warns (made : Made) (role : Role) (x : Argument) : Prop :=
  ∃ node body, made.graph.node? made.id = some node ∧ node.parts.lookup Key.body = some body ∧
    ∀ t, made.graph.HasTree body t →
      (made.graph.Mentions x body → made.warnings = []) ∧
      (¬ made.graph.Mentions x body → made.warnings =
        [⟨role, made.graph.argumentName x, t.toText made.graph.argumentName⟩])

namespace Recipe

/-- The operands that become the parts of the node. -/
def operands : Recipe → List Operand
  | constant _ | reference _ => []
  | application _ args _ => args
  | scaling part _ => [part]
  | addition left right _ | multiplication left right => [left, right]
  | iteration _ body _ start stop step => [body, start, stop, step]
  | difference _ body _ point width => [body, width] ++ point.toList

/-- The operand that an operator binds, and as what. -/
def binds? : Recipe → Option (Role × Operand)
  | iteration _ _ index _ _ _ => some (.index, index)
  | difference _ _ x _ _ => some (.argument, x)
  | _ => none

theorem exists_make (g : Graph) {recipe : Recipe} {role : Role} {x : Argument}
    (name : Option String) (binds : recipe.binds? = some (role, .argument x))
    (adoptable : ∀ operand ∈ recipe.operands, operand.Adoptable) :
    ∃ made node body, recipe.make g name = .ok made ∧
      made.graph.node? made.id = some node ∧ node.parts.lookup Key.body = some body ∧
      made.warnings = made.graph.unusedArgument role x body := by
  cases recipe with
  | iteration op body index start stop step =>
    cases binds
    exact g.exists_binding (.iteration op) .index x name
      [(Key.body, body), (Key.start, start), (Key.stop, stop), (Key.step, step)] adoptable (by simp)
  | difference d body y point width =>
    cases binds
    refine g.exists_binding (.difference d) .argument x name
      ([(Key.body, body), (Key.width, width)] ++ point.toList.map fun p => (Key.point, p))
      ?_ (by simp)
    cases point <;> exact adoptable
  | _ => cases binds

end Recipe

namespace Session
variable {s s' : Session}

theorem exists_make_warns (reached : s.Reachable) {recipe : Recipe} {role : Role} {x : Argument}
    (name : Option String) (binds : recipe.binds? = some (role, .argument x))
    (adoptable : ∀ operand ∈ recipe.operands, operand.Adoptable) :
    ∃ made, recipe.make s.workspace.graph name = .ok made ∧ made.Warns role x := by
  obtain ⟨made, node, body, hmade, hnode, hbody, warnings⟩ :=
    recipe.exists_make s.workspace.graph name binds adoptable
  refine ⟨made, hmade, node, body, hnode, hbody, fun t tree => ?_⟩
  have after : (s.perform (.make recipe name)).workspace.graph = made.graph := by
    simp only [perform, hmade, Except.map, edit]
  have reached' : (s.perform (.make recipe name)).Reachable := Leads.perform reached trivial
  have consistent := reachable_consistent reached'
  have mirrored := reachable_listing_eq reached'
  rw [after] at consistent mirrored
  rw [warnings]
  exact Graph.unusedArgument_eq consistent mirrored tree

/-- Traversal and evaluation see the same tree. A node lists under every key the part that it
is evaluated with, and no key that it has ever changes its place. Where there is a tree, and
without cycles there is one at every node, it is the tree that is calculated, by way of the listed
parts, as the text of the node is written; a walk takes the paths down that tree, and the arguments
are those mentioned on the way. -/
theorem traversal_sees_evaluated_tree (reached : s.Reachable) :
    let g := s.workspace.graph
    (∀ e node, g.node? e = some node →
      node.Consistent ∧ node.shape.Accepts (node.listed.map Prod.fst) ∧
      ∀ later, s.Leads later → ∃ node', later.workspace.graph.node? e = some node' ∧
        node.listed.map Prod.fst <+: node'.listed.map Prod.fst) ∧
    (g.Acyclic → ∀ e node, g.node? e = some node → ∃ t, g.HasTree e t) ∧
    (∀ e t, g.HasTree e t →
      s.workspace.calculate (.expression e) = s.workspace.run t.value ∧
      (∃ node, g.node? e = some node ∧ s.workspace.GoesToListed e node) ∧
      (∀ includeRoot, ∃ visits, g.traverse e includeRoot = .ok visits ∧
        visits = (if includeRoot then t.traverse else t.traverse.tail) ∧
        g.IsWalk e includeRoot visits) ∧
      ∃ arguments, g.arguments e = .ok arguments ∧ g.ListsArguments e t.traverse arguments) ∧
    (∀ (recipe : Recipe) (role : Role) (x : Argument) (name : Option String),
      recipe.binds? = some (role, .argument x) →
      (∀ operand ∈ recipe.operands, operand.Adoptable) →
      ∃ made, recipe.make g name = .ok made ∧ made.Warns role x) := by
  intro g
  have consistent := reachable_consistent reached
  have mirrored := reachable_listing_eq reached
  refine ⟨?_, ?_, ?_, ?_⟩
  · intro e node hnode
    refine ⟨consistent e node hnode, ?_, fun later leads => leads.extends.keys_prefix hnode⟩
    rw [(Leads.extends reached).listed_eq hnode]
    exact reachable_wellKeyed reached e node hnode
  · intro acyclic e node hnode
    exact acyclic.exists_tree hnode
  · intro e t tree
    have listed : g.listing.HasTree e t := mirrored.symm ▸ tree
    refine ⟨calculate_of_hasTree reached tree, goesToListed_of_hasTree reached tree, ?_, ?_⟩
    · intro includeRoot
      exact ⟨_, Graph.traverse_eq_ok listed includeRoot, rfl,
        Graph.traverse_isWalk consistent listed includeRoot⟩
    · exact ⟨_, Graph.arguments_eq_ok listed, Graph.arguments_listed consistent listed⟩
  · intro recipe role x name binds adoptable
    exact exists_make_warns reached name binds adoptable

/-- The difference of node 1 in the second argument, by one, without a point. -/
def differenceInNamesake : Recipe :=
  .difference .forward (.expression ⟨1⟩) (.argument ⟨1⟩) none (.value (.int 1))

/-- The square of `x`, with one node for both factors, and its difference in another argument
of the same name, to which a point is added. -/
def squareAtNamesake : Session :=
  (((((({} : Session).perform (.declare (.value (.text "x")) (.int 3))).perform
    (.declare (.value (.text "x")) (.int 4))).perform
    (.make (.reference (.argument ⟨0⟩)) none)).perform
    (.make (.multiplication (.expression ⟨0⟩) (.expression ⟨0⟩)) none)).perform
    (.make differenceInNamesake none)).perform (.replace ⟨3⟩ [(Key.point, .argument ⟨1⟩)])

theorem squareAtNamesake_traversal :
    let g := squareAtNamesake.workspace.graph
    (squareAtNamesake.workspace.calculate (.expression ⟨3⟩)).result = .ok (.int 0) ∧
    (∃ ev, g.evaluator ⟨3⟩ = .ok ev ∧ ev.parts.length = 3) ∧
    (∃ text below, g.text ⟨3⟩ = .ok text ∧ g.text ⟨1⟩ = .ok below ∧ OccursIn ("f=" ++ below) text) ∧
    (∃ visits, g.traverse ⟨3⟩ false = .ok visits ∧ g.IsWalk ⟨3⟩ false visits ∧
      visits.map Visit.yielded = [([⟨3⟩], "f", ⟨1⟩), ([⟨3⟩, ⟨1⟩], "e1", ⟨0⟩),
        ([⟨3⟩, ⟨1⟩], "e2", ⟨0⟩), ([⟨3⟩], "h", ⟨2⟩), ([⟨3⟩], "x0", ⟨4⟩)]) ∧
    g.arguments ⟨3⟩ = .ok [⟨0⟩, ⟨1⟩] ∧ (∀ x, g.Mentions x ⟨3⟩ ↔ x = ⟨0⟩ ∨ x = ⟨1⟩) ∧
    ∃ made, differenceInNamesake.make g none = .ok made ∧ made.warnings.length = 1 := by
  intro g
  have reached : squareAtNamesake.Reachable := by
    refine Leads.perform (Leads.perform (Leads.perform (Leads.perform (Leads.perform
      (Leads.perform Leads.refl ?_) ?_) ?_) ?_) ?_) ⟨_, rfl, by decide⟩ <;> trivial
  obtain ⟨_, _, trees, operators⟩ := traversal_sees_evaluated_tree reached
  have tree : g.HasTree ⟨3⟩ _ :=
    Graph.expression_eq_ok_iff.mp (show g.expression ⟨3⟩ = .ok _ from rfl)
  obtain ⟨calculated, ⟨node, hnode, goes⟩, walks, arguments, run, lists⟩ := trees ⟨3⟩ _ tree
  obtain ⟨visits, hvisits, seen, walk⟩ := walks false
  have found : arguments = [⟨0⟩, ⟨1⟩] := by
    rw [Graph.arguments, reachable_listing_eq reached] at run
    exact Except.ok.inj (run.symm.trans rfl)
  obtain ⟨shape, listed⟩ : node.shape = .difference .forward ⟨1⟩ ∧
      node.listed = [(Key.body, ⟨1⟩), (Key.width, ⟨2⟩), (Key.point, ⟨4⟩)] := by
    cases hnode
    exact ⟨rfl, rfl⟩
  refine ⟨(congrArg Outcome.result calculated).trans rfl, ?_, ?_, ⟨visits, hvisits, walk, ?_⟩,
    found ▸ run, ?_, ?_⟩
  · obtain ⟨ev, compiled, _, below⟩ := goes.frozen
    rw [listed] at below
    exact ⟨ev, compiled, below.length_eq.symm⟩
  · have written := goes.part_written (listed ▸ List.mem_cons_self)
    rwa [shape, Shape.mark, if_neg (by decide), show Key.body ++ "=" = "f=" from rfl] at written
  · rw [seen]
    rfl
  · intro x
    rw [← lists.mentioned x, found]
    simp
  · obtain ⟨made, hmade, node, body, hnode, hbody, warned⟩ :=
      operators differenceInNamesake .argument ⟨1⟩ none rfl
        (by simp [differenceInNamesake, Recipe.operands, Operand.Adoptable, Value.isReal])
    refine ⟨made, hmade, ?_⟩
    have reached' : (squareAtNamesake.perform (.make differenceInNamesake none)).Reachable :=
      Leads.perform reached trivial
    obtain ⟨_, _, _, arguments, run, lists⟩ := (traversal_sees_evaluated_tree reached').2.2.1 ⟨1⟩ _
      (Graph.expression_eq_ok_iff.mp rfl)
    have found : arguments = [⟨0⟩] := by
      rw [Graph.arguments, reachable_listing_eq reached'] at run
      exact Except.ok.inj (run.symm.trans rfl)
    have unmentioned := (lists.mentioned ⟨1⟩).not.mp (by simp [found])
    cases hmade
    cases hnode
    cases hbody
    rw [(warned _ (Graph.expression_eq_ok_iff.mp rfl)).2 unmentioned]
    rfl

end Session

end FiniteCalculus
