import FiniteCalculus.Proofs.Graph.Replacement

/-! What edits make of trees. A coefficient, a factor or a name that is assigned to a node stands
afterwards in every tree that contains the node, as often as it does. A node that is made stands,
with its own constants, over the trees of its operands, and all trees that were there stay. -/

namespace FiniteCalculus
set_option autoImplicit false

namespace Label

/-- Only a sum has a coefficient. -/
def withCoefficient (c : Value) (l : Label) : Label :=
  match l.shape with
  | .addition _ => { l with shape := .addition c }
  | _ => l

/-- Only a scaling has a factor. -/
def withFactor (a : Value) (l : Label) : Label :=
  match l.shape with
  | .scaling _ => { l with shape := .scaling a }
  | _ => l

def withName (name : String) (l : Label) : Label := { l with name := name }

end Label

namespace Expression

/-- The tree with the label of a node changed wherever it has the node. -/
def relabelAt (e : ExprId) (change : Label → Label) : Expression → Expression :=
  fold fun label parts => .node (if label.id = e then change label else label) parts

theorem relabelAt_node (e : ExprId) (change : Label → Label) (label : Label)
    (parts : List (String × Expression)) : (node label parts).relabelAt e change =
      .node (if label.id = e then change label else label)
        (parts.map fun part => (part.1, part.2.relabelAt e change)) := by
  simp only [relabelAt, fold, foldParts_eq_map]

theorem relabelAt_id (e : ExprId) (t : Expression) : t.relabelAt e id = t := by
  induction t using Expression.induction with
  | node label parts ih =>
    have same : parts.map (fun part => (part.1, part.2.relabelAt e id)) = parts := by
      refine (List.map_congr_left fun part mem => ?_).trans (List.map_id parts)
      rw [ih part.1 part.2 mem]
      rfl
    rw [relabelAt_node, same, id_eq, ite_self]

end Expression

namespace Graph
variable {g g' : Graph} {e e' : ExprId} {t : Expression}

/-- A change of a node that leaves its parts alone changes its label in every tree. -/
theorem HasTree.modify {change : Node → Node} {relabel : Label → Label} (tree : g.HasTree e' t)
    (labels : ∀ node : Node, relabel ⟨e, node.shape, node.name⟩ =
      ⟨e, (change node).shape, (change node).name⟩)
    (parts : ∀ node : Node, (change node).parts = node.parts) :
    (g.modify e change).HasTree e' (t.relabelAt e relabel) := by
  induction t using Expression.induction generalizing e' with
  | node label below ih =>
    obtain ⟨node, hnode, rfl, hbelow⟩ := hasTree_node.mp tree
    have relabelled : Correspond (g.modify e change).HasTree node.parts
        (below.map fun part => (part.1, part.2.relabelAt e relabel)) := by
      rw [Correspond, List.forall₂_map_right_iff]
      exact forall₂_imp_mem hbelow fun _ part mem head => ⟨head.1, ih part.1 part.2 mem head.2⟩
    rw [Expression.relabelAt_node, hasTree_node]
    by_cases same : e' = e
    · subst same
      refine ⟨change node, node?_modify_self change hnode, ?_, ?_⟩
      · rw [if_pos rfl, labels]
      · rw [parts]
        exact relabelled
    · refine ⟨node, (node?_modify_of_ne change same).trans hnode, ?_, relabelled⟩
      rw [if_neg same]

theorem HasTree.setCoefficient (tree : g.HasTree e' t) (e : ExprId) (c : Value) :
    (g.setCoefficient e c).HasTree e' (t.relabelAt e (.withCoefficient c)) := by
  refine tree.modify (fun node => ?_) fun node => ?_
  all_goals
    obtain ⟨shape, _⟩ := node
    cases shape <;> rfl

theorem HasTree.setFactor (tree : g.HasTree e' t) (e : ExprId) (a : Value) :
    (g.setFactor e a).HasTree e' (t.relabelAt e (.withFactor a)) := by
  refine tree.modify (fun node => ?_) fun node => ?_
  all_goals
    obtain ⟨shape, _⟩ := node
    cases shape <;> rfl

theorem HasTree.rename (tree : g.HasTree e' t) (e : ExprId) (name : String) :
    (g.rename e name).HasTree e' (t.relabelAt e (.withName name)) :=
  tree.modify (fun _ => rfl) fun _ => rfl

/-- No tree shows how verbose a node is. -/
theorem HasTree.setVerbosity (tree : g.HasTree e' t) (e : ExprId) (v : Value) :
    (g.setVerbosity e v).HasTree e' t := by
  have changed : (g.setVerbosity e v).HasTree e' (t.relabelAt e id) :=
    tree.modify (fun _ => rfl) fun _ => rfl
  rwa [Expression.relabelAt_id] at changed

section
variable {operands : List (String × Operand)} {adopted : List (String × ExprId)}

/-- A replacement that leaves the tree at some node above shows in it, so what was put in has trees
of its own. -/
theorem Replaces.exists_trees (h : g.Replaces e operands adopted g')
    (given : (operands.map Prod.fst).Nodup) (tree : g.HasTree e' t)
    (present : e ∈ t.labels.map Label.id) {t' : Expression} (after : g'.HasTree e' t') :
    ∃ new, Correspond g'.HasTree adopted new := by
  induction t using Expression.induction generalizing e' t' with
  | node label parts ih =>
    obtain ⟨node, hnode, rfl, hparts⟩ := hasTree_node.mp tree
    obtain ⟨label', parts'⟩ := t'
    obtain ⟨node', hnode', rfl, hparts'⟩ := hasTree_node.mp after
    by_cases same : e' = e
    · subst same
      obtain ⟨found, hfound, _, _, _, own, _⟩ := h.node node hnode
      obtain rfl := Option.some.inj (hfound.symm.trans hnode')
      have once : (adopted.map Prod.fst).Nodup := keys_of_forall₂ h.becomes ▸ given
      refine exists_forall₂ fun entry mem => ?_
      have put := lookup_replaceKeys adopted node.parts entry.1
      rw [(lookup_eq_some_iff_mem once).mpr mem, Option.some_or, ← own] at put
      obtain ⟨_, _, key, below⟩ := forall₂_exists_right hparts' (Expression.mem_of_lookup put)
      exact ⟨_, key, below⟩
    · obtain rfl : node = node' := Option.some.inj ((h.others e' node same hnode).symm.trans hnode')
      simp only [Expression.labels_node, List.map_cons, List.mem_cons, List.map_flatMap,
        List.mem_flatMap] at present
      obtain ⟨⟨key, part⟩, mem, inside⟩ := present.resolve_left (Ne.symm same)
      obtain ⟨entry, hentry, _, below⟩ := forall₂_exists_left hparts mem
      obtain ⟨part', _, _, below'⟩ := forall₂_exists_right hparts' hentry
      exact ih key part mem below inside below'

/-- One graph is the other with a new node, made of a shape and operands. -/
structure Creates (g : Graph) (shape : Shape) (choice : Option String)
    (operands : List (String × Operand)) (adopted : List (String × ExprId)) (e : ExprId)
    (g' : Graph) : Prop where
  becomes : Correspond (g.Becomes g') operands adopted
  names : g'.argumentNames = g.argumentNames
  others : ∀ e' node, g.node? e' = some node → g'.node? e' = some node
  fresh : g.node? e = none
  node : g'.node? e = some { shape := shape, name := g.chosenName shape choice, parts := adopted }

/-- The new node stands over the trees of its operands. -/
theorem Creates.hasTree {shape : Shape} {choice : Option String}
    (h : g.Creates shape choice operands adopted e g') {new : List (String × Expression)}
    (below : Correspond g'.HasTree adopted new) :
    g'.HasTree e (.node ⟨e, shape, g.chosenName shape choice⟩ new) :=
  hasTree_node.mpr ⟨_, h.node, rfl, below⟩

theorem Gains.creates {shape : Shape} {choice : Option String}
    (h : g.Gains shape choice operands adopted e g') :
    g.Creates shape choice operands adopted e g' := by
  obtain ⟨hadopted, inserted⟩ := h
  cases inserted
  obtain ⟨_, keeps, _⟩ := adoptAll_spec hadopted
  obtain ⟨becomes, names⟩ := adoptAll_becomes hadopted
  constructor
  case becomes => exact becomes.imp fun _ _ head => ⟨head.1, head.2.later fun _ _ => node?_insert⟩
  case names => exact names
  case others => exact fun e' node found => node?_insert (keeps e' node found)
  case fresh =>
    refine Option.eq_none_iff_forall_ne_some.mpr fun node found => ?_
    simpa [node?] using keeps _ node found
  case node =>
    rw [← chosenName_congr names]
    simp [node?]

end

end Graph

end FiniteCalculus
