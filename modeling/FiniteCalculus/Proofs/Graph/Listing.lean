import FiniteCalculus.Proofs.Graph.Keys

/-! The two stores of parts. A node goes to its own parts when it is evaluated or written, and
a walk goes to those in its list. What is made and what is edited is put into both alike, so
that they never come apart, and a key keeps the place at which it was first stored. -/

namespace FiniteCalculus
set_option autoImplicit false

/-- Parts are put in, among the own ones and in the list. -/
def Node.Edited (old new : Node) : Prop :=
  ∃ parts, new.parts = Graph.putParts parts old.parts ∧
    new.listed = Graph.putParts parts old.listed

/-- Every key is listed once, with the part that the node itself has under it. -/
structure Node.Consistent (node : Node) : Prop where
  once : (node.listed.map Prod.fst).Nodup
  same : ∀ key part, (key, part) ∈ node.listed ↔ node.parts.lookup key = some part

theorem Node.Edited.of_eq {old new : Node} (parts : new.parts = old.parts)
    (listed : new.listed = old.listed) : old.Edited new := ⟨[], parts, listed⟩

namespace Graph
variable {g g' g'' : Graph}

theorem keys_prefix_putParts (new old : List (String × ExprId)) :
    old.map Prod.fst <+: (putParts new old).map Prod.fst := by
  induction new generalizing old with
  | nil => exact List.prefix_refl _
  | cons part new ih =>
    refine List.IsPrefix.trans ?_ (ih (putPart part.1 part.2 old))
    by_cases present : part.1 ∈ old.map Prod.fst
    · rw [keys_putPart_of_mem present]
    · rw [keys_putPart_of_not_mem present]
      exact List.prefix_append _ _

/-- The nodes of the one graph are there in the other, edited; a node that is new lists the
parts that it has. -/
structure Extends (g g' : Graph) : Prop where
  edited : ∀ e node, g.node? e = some node → ∃ node', g'.node? e = some node' ∧ node.Edited node'
  fresh : ∀ e node', g.node? e = none → g'.node? e = some node' → node'.listed = node'.parts

theorem Extends.of_nodes_eq (same : g'.nodes = g.nodes) : g.Extends g' where
  edited e node h := ⟨node, by rw [node?, same]; exact h, .of_eq rfl rfl⟩
  fresh e node' h h' := by
    rw [node?, same] at h'
    cases h.symm.trans h'

theorem Extends.refl (g : Graph) : g.Extends g := .of_nodes_eq rfl

theorem Extends.trans (h : g.Extends g') (h' : g'.Extends g'') : g.Extends g'' where
  edited e node hnode := by
    obtain ⟨node', hnode', parts, own, listed⟩ := h.edited e node hnode
    obtain ⟨node'', hnode'', parts', own', listed'⟩ := h'.edited e node' hnode'
    refine ⟨node'', hnode'', parts ++ parts', ?_, ?_⟩
    · rw [own', own, putParts, putParts, putParts, List.foldl_append]
    · rw [listed', listed, putParts, putParts, putParts, List.foldl_append]
  fresh e node'' hnode hnode'' := by
    cases hnode' : g'.node? e with
    | none => exact h'.fresh e node'' hnode' hnode''
    | some node' =>
      obtain ⟨found, hfound, parts, own, listed⟩ := h'.edited e node' hnode'
      obtain rfl : found = node'' := Option.some.inj (hfound.symm.trans hnode'')
      rw [own, listed, h.fresh e node' hnode hnode']

theorem insert_extends {node : Node} (same : node.listed = node.parts) :
    g.Extends (g.insert node).2 where
  edited e old h := ⟨old, node?_insert h, .of_eq rfl rfl⟩
  fresh e found h h' := by
    simp only [Graph.insert, node?, Array.getElem?_push] at h h'
    split at h'
    · cases h'
      exact same
    · rw [h] at h'
      cases h'

theorem modify_extends {e : ExprId} {change : Node → Node}
    (edits : ∀ node : Node, node.Edited (change node)) : g.Extends (g.modify e change) where
  edited e' node h := by
    rw [node?_modify, h]
    split
    · exact ⟨_, rfl, edits node⟩
    · exact ⟨_, rfl, .of_eq rfl rfl⟩
  fresh e' node' h h' := by
    simp [node?_modify, h] at h'

theorem adopt_extends {operand : Operand} {e : ExprId} (h : g.adopt operand = .ok (e, g')) :
    g.Extends g' := by
  rcases adopt_cases h with rfl | ⟨shape, _, rfl⟩
  · exact .refl _
  · exact insert_extends rfl

theorem adoptAll_extends {operands : List (String × Operand)} {parts : List (String × ExprId)}
    (h : g.adoptAll operands = .ok (parts, g')) : g.Extends g' := by
  induction operands generalizing g parts with
  | nil =>
    cases h
    exact .refl _
  | cons entry rest ih =>
    obtain ⟨⟨e, g₁⟩, hadopt, h⟩ := bind_eq_ok h
    obtain ⟨⟨others, g₂⟩, hothers, h⟩ := bind_eq_ok h
    cases h
    exact (adopt_extends hadopt).trans (ih hothers)

theorem Gains.extends {shape : Shape} {choice : Option String} {operands : List (String × Operand)}
    {adopted : List (String × ExprId)} {e : ExprId}
    (h : g.Gains shape choice operands adopted e g') : g.Extends g' := by
  obtain ⟨hadopted, inserted⟩ := h
  cases inserted
  exact (adoptAll_extends hadopted).trans (insert_extends rfl)

theorem setParts_extends {e : ExprId} {operands : List (String × Operand)}
    (h : g.setParts e operands = .ok g') : g.Extends g' := by
  obtain ⟨⟨parts, g₁⟩, hparts, h⟩ := bind_eq_ok h
  cases h
  exact (adoptAll_extends hparts).trans (modify_extends fun node => ⟨parts, rfl, rfl⟩)

/-- In a graph that is built up from nothing both stores of every node have the same parts. -/
theorem Extends.listed_eq (h : Extends {} g) {e : ExprId} {node : Node}
    (hnode : g.node? e = some node) : node.listed = node.parts :=
  h.fresh e node (by simp [node?]) hnode

def Consistent (g : Graph) : Prop := ∀ e node, g.node? e = some node → node.Consistent

theorem Extends.consistent (h : Extends {} g) (keyed : g.WellKeyed) : g.Consistent := by
  intro e node hnode
  have once := (keyed e node hnode).nodup
  have listed := h.listed_eq hnode
  constructor
  · rw [listed]
    exact once
  · intro key part
    rw [listed]
    exact (lookup_eq_some_iff_mem once).symm

/-- Keys stay where they were first stored; those stored later come after them. -/
theorem Extends.keys_prefix (h : g.Extends g') {e : ExprId} {node : Node}
    (hnode : g.node? e = some node) : ∃ node', g'.node? e = some node' ∧
      node.listed.map Prod.fst <+: node'.listed.map Prod.fst := by
  obtain ⟨node', hnode', parts, _, listed⟩ := h.edited e node hnode
  refine ⟨node', hnode', ?_⟩
  rw [listed]
  exact keys_prefix_putParts parts node.listed

theorem Extends.listing_eq (h : Extends {} g) : g.listing = g := by
  have mirrored : ∀ node : Node, node.listed = node.parts →
      { node with parts := node.listed } = node := by
    rintro ⟨shape, name, verbosity, parts, listed⟩ same
    cases same
    rfl
  have same : g.nodes.map (fun node => { node with parts := node.listed }) = g.nodes := by
    refine Array.ext (by simp) fun i hi hi' => ?_
    have hnode : g.node? ⟨i⟩ = some g.nodes[i] := Array.getElem?_eq_getElem hi'
    rw [Array.getElem_map]
    exact mirrored _ (h.listed_eq hnode)
  rw [listing, same]

end Graph

end FiniteCalculus
