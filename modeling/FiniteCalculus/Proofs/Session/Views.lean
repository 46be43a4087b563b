import FiniteCalculus.Proofs.Evaluator.Mirrors
import FiniteCalculus.Proofs.Expression.Texts
import FiniteCalculus.Proofs.Graph.Walks
import FiniteCalculus.Proofs.Session.Basic

/-! What is seen of a node. Calculating it runs its tree, and its evaluator, its text and a walk
through it are those of the tree. Node by node, evaluation and text go to the parts that a walk goes
to: under each key to the one that is listed there. -/

namespace FiniteCalculus
set_option autoImplicit false

/-- A node comes to its value, its evaluator and its text by way of the parts that it lists. -/
structure Workspace.GoesToListed (w : Workspace) (e : ExprId) (node : Node) : Prop where
  /-- What is run under a key is what is run for the node that is listed there. -/
  evaluated : w.body (.expression e) = (⟨e, node.shape, node.name⟩ : Label).value fun key =>
    (node.listed.lookup key).map fun part => w.body (.expression part)
  frozen : ∃ ev, w.graph.evaluator e = .ok ev ∧ ev.name = node.name ∧
    List.Forall₂ (fun entry below => w.graph.evaluator entry.2 = .ok below) node.listed ev.parts
  written : ∃ text texts, w.graph.text e = .ok text ∧
    Correspond (fun part below => w.graph.text part = .ok below) node.listed texts ∧
    (∀ entry ∈ texts,
      OccursIn (node.shape.mark w.graph.argumentName entry.1 ++ entry.2) text) ∧
    -- The arguments of a function have no marks, they are told apart by their order.
    ∀ f description count, node.shape = .application f description count →
      text = "(" ++ description ++ "(" ++ ", ".intercalate (texts.map Prod.snd) ++ "))"

/-- The text of a listed part stands in the text of the node, where the mark of its key tells it
from the others. -/
theorem Workspace.GoesToListed.part_written {w : Workspace} {e part : ExprId} {node : Node}
    (h : w.GoesToListed e node) {key : String} (listed : (key, part) ∈ node.listed) :
    ∃ text below, w.graph.text e = .ok text ∧ w.graph.text part = .ok below ∧
      OccursIn (node.shape.mark w.graph.argumentName key ++ below) text := by
  obtain ⟨text, texts, written, parts, occurs, _⟩ := h.written
  obtain ⟨⟨key', below⟩, mem, same, there⟩ := forall₂_exists_right parts listed
  obtain rfl : key = key' := same
  exact ⟨text, below, written, there, occurs (key, below) mem⟩

namespace Session
variable {s : Session} {e : ExprId} {t : Expression}

theorem exists_evaluator (reached : s.Reachable) (tree : s.workspace.graph.HasTree e t) :
    ∃ ev, s.workspace.graph.evaluator e = .ok ev ∧ t.evaluator = .ok ev := by
  obtain ⟨ev, hev⟩ := tree.exists_evaluator (reachable_wellKeyed reached)
  refine ⟨ev, ?_, hev⟩
  rw [Graph.evaluator, Graph.expression_eq_ok_iff.mpr tree]
  exact hev

theorem body_of_hasTree (reached : s.Reachable) (tree : s.workspace.graph.HasTree e t) :
    s.workspace.body (.expression e) = t.value := by
  obtain ⟨ev, hev, made⟩ := exists_evaluator reached tree
  simp only [Workspace.body, hev]
  exact Expression.value_of_evaluator made

theorem calculate_of_hasTree (reached : s.Reachable) (tree : s.workspace.graph.HasTree e t) :
    s.workspace.calculate (.expression e) = s.workspace.run t.value := by
  rw [Workspace.calculate, body_of_hasTree reached tree]

theorem text_of_hasTree (tree : s.workspace.graph.HasTree e t) :
    s.workspace.graph.text e = .ok (t.toText s.workspace.graph.argumentName) := by
  rw [Graph.text, Graph.expression_eq_ok_iff.mpr tree]
  rfl

/-- Where a node has a tree, the parts in its list have theirs, key by key. -/
theorem goesToListed_of_hasTree (reached : s.Reachable) (tree : s.workspace.graph.HasTree e t) :
    ∃ node, s.workspace.graph.node? e = some node ∧ s.workspace.GoesToListed e node := by
  obtain ⟨label, parts⟩ := t
  obtain ⟨node, hnode, same, hparts⟩ := Graph.hasTree_node.mp tree
  have shape : label.shape = node.shape := congrArg Label.shape same
  have keys : label.shape.Accepts (parts.map Prod.fst) := by
    rw [← Graph.keys_of_forall₂ hparts, shape]
    exact reachable_wellKeyed reached e node hnode
  rw [← (Leads.extends reached).listed_eq hnode] at hparts
  refine ⟨node, hnode, ?_, ?_, ?_⟩
  · rw [body_of_hasTree reached tree, Expression.value_node, same]
    congr 1
    funext key
    rcases Correspond.lookup hparts key with ⟨absent, absent'⟩ | ⟨part, below, found, found', tree⟩
    · rw [absent, absent']
      rfl
    · rw [found, found', Option.map_some, Option.map_some, body_of_hasTree reached tree]
  · obtain ⟨ev, hev, made⟩ := exists_evaluator reached tree
    obtain ⟨name, below⟩ := Expression.evaluator_node keys made
    refine ⟨ev, hev, name.trans (congrArg Label.name same), ?_⟩
    have aligned := forall₂_comp hparts ((List.forall₂_and_left _ _).mpr
      ⟨fun _ mem => mem, List.forall₂_map_left_iff.mp below⟩)
    refine aligned.imp ?_
    rintro ⟨key, part⟩ ev ⟨⟨_, below⟩, ⟨rfl, tree⟩, mem, compiled⟩
    rw [Expression.evaluatorOf, (lookup_eq_some_iff_mem keys.nodup).mpr mem] at compiled
    rw [Graph.evaluator, Graph.expression_eq_ok_iff.mpr tree]
    exact compiled
  · let texts := parts.map fun part => (part.1, part.2.toText s.workspace.graph.argumentName)
    have in_order : texts.map Prod.snd =
        parts.map fun part => part.2.toText s.workspace.graph.argumentName := List.map_map
    rw [← shape]
    refine ⟨_, texts, text_of_hasTree tree, ?_, ?_, fun f description count application => ?_⟩
    · rw [Correspond, List.forall₂_map_right_iff]
      exact hparts.imp fun _ _ head => ⟨head.1, text_of_hasTree head.2⟩
    · intro entry mem
      obtain ⟨part, hpart, rfl⟩ := List.mem_map.mp mem
      exact Expression.toText_has_part keys hpart
    · rw [in_order]
      exact Expression.toText_application keys application

/-- All that is seen of a node is that of the tree. -/
structure Shows (s : Session) (e : ExprId) (t : Expression) : Prop where
  calculate : s.workspace.calculate (.expression e) = s.workspace.run t.value
  evaluator : ∃ ev, s.workspace.graph.evaluator e = .ok ev ∧ t.evaluator = .ok ev
  text : s.workspace.graph.text e = .ok (t.toText s.workspace.graph.argumentName)
  arguments : s.workspace.graph.arguments e = .ok t.arguments
  traverse : ∀ includeRoot, s.workspace.graph.traverse e includeRoot =
    .ok (if includeRoot then t.traverse else t.traverse.tail)
  parts : ∃ node, s.workspace.graph.node? e = some node ∧ s.workspace.GoesToListed e node

theorem shows_of_hasTree (reached : s.Reachable) (tree : s.workspace.graph.HasTree e t) :
    s.Shows e t := by
  have listed : s.workspace.graph.listing.HasTree e t := (reachable_listing_eq reached).symm ▸ tree
  exact {
    calculate := calculate_of_hasTree reached tree
    evaluator := exists_evaluator reached tree
    text := text_of_hasTree tree
    arguments := Graph.arguments_eq_ok listed
    traverse := Graph.traverse_eq_ok listed
    parts := goesToListed_of_hasTree reached tree }

end Session

end FiniteCalculus
