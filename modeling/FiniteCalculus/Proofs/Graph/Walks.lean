import FiniteCalculus.Proofs.Expression.Occurrences
import FiniteCalculus.Proofs.Graph.Listing

/-! Walks through the trees of a graph. A walk takes every path down from its root, once, a path
before those that go on from it and the parts of a node in the order of its list; with each
path it has the nodes that the path goes past, the last key and the node at its end. -/

namespace FiniteCalculus
set_option autoImplicit false

/-- What a visit yields, every node by its place in the graph. -/
def Visit.yielded (visit : Visit) : List ExprId × String × ExprId :=
  (visit.parents.map Label.id, visit.key, visit.label.id)

/-- Where a path leads from a node, past the nodes above it. A step is a key with the part that
is listed under it. -/
def pathEnd (above : List ExprId) (key : String) (e : ExprId) :
    List (String × ExprId) → List ExprId × String × ExprId
  | [] => (above, key, e)
  | (k, part) :: steps => pathEnd (above ++ [e]) k part steps

namespace Expression

mutual

/-- The paths down from the root, the empty one first. -/
def paths : Expression → List (List (String × ExprId))
  | node _ parts => [] :: pathsOfParts parts

def pathsOfParts : List (String × Expression) → List (List (String × ExprId))
  | [] => []
  | (key, part) :: rest => part.paths.map ((key, part.label.id) :: ·) ++ pathsOfParts rest

end

theorem paths_node (l : Label) (parts : List (String × Expression)) :
    paths (.node l parts) = [] :: parts.flatMap fun part =>
      part.2.paths.map ((part.1, part.2.label.id) :: ·) := by
  have ofParts : pathsOfParts parts = parts.flatMap fun part =>
      part.2.paths.map ((part.1, part.2.label.id) :: ·) := by
    induction parts with
    | nil => rfl
    | cons part rest ih => rw [pathsOfParts, ih, List.flatMap_cons]
  rw [paths, ofParts]

theorem paths_eq_cons (t : Expression) : t.paths = [] :: t.paths.tail := by
  obtain ⟨l, parts⟩ := t
  rw [paths_node, List.tail_cons]

theorem yielded_visits (t : Expression) (parents : List Label) (key : String) :
    (t.visits parents key).map Visit.yielded =
      t.paths.map (pathEnd (parents.map Label.id) key t.label.id) := by
  induction t using induction generalizing parents key with
  | node l parts ih =>
    simp only [visits, visitsOfParts_eq_flatMap, paths_node, List.map_cons, List.map_flatMap,
      List.map_map]
    congr 1
    refine List.flatMap_congr fun part hpart => ?_
    rw [ih part.1 part.2 hpart]
    simp only [List.map_append, List.map_cons, List.map_nil]
    rfl

end Expression

namespace Graph
variable {g : Graph}

/-- The paths down from a node, by the parts that the nodes themselves have. -/
inductive Path (g : Graph) : ExprId → List (String × ExprId) → Prop where
  | here {e : ExprId} {node : Node} : g.node? e = some node → Path g e []
  | down {e part : ExprId} {node : Node} {key : String} {steps : List (String × ExprId)} :
    g.node? e = some node → node.parts.lookup key = some part → Path g part steps →
    Path g e ((key, part) :: steps)

/-- The order of a walk: a path comes before those that go on from it, and where two paths
part, the one with the key that is listed first. -/
inductive Precedes (g : Graph) : ExprId → List (String × ExprId) → List (String × ExprId) → Prop
    where
  | above {e : ExprId} {step : String × ExprId} {steps : List (String × ExprId)} :
    Precedes g e [] (step :: steps)
  | aside {e : ExprId} {node : Node} {step step' : String × ExprId}
    {steps steps' : List (String × ExprId)} : g.node? e = some node →
    [step, step'].Sublist node.listed → Precedes g e (step :: steps) (step' :: steps')
  | onward {e : ExprId} {step : String × ExprId} {steps steps' : List (String × ExprId)} :
    Precedes g step.2 steps steps' → Precedes g e (step :: steps) (step :: steps')

theorem Precedes.irrefl (consistent : g.Consistent) {e : ExprId}
    {steps : List (String × ExprId)} : ¬ g.Precedes e steps steps := by
  induction steps generalizing e with
  | nil =>
    intro h
    cases h
  | cons step steps ih =>
    intro h
    cases h with
    | aside hnode twice =>
      have keys := (twice.map Prod.fst).nodup (consistent _ _ hnode).once
      simp at keys
    | onward h => exact ih h

theorem node?_listing (g : Graph) (e : ExprId) :
    g.listing.node? e = (g.node? e).map fun node => { node with parts := node.listed } := by
  simp [listing, node?]

/-- The tree that a walk goes through, by the lists of parts. -/
theorem hasTree_listing_node {e : ExprId} {label : Label} {parts : List (String × Expression)} :
    g.listing.HasTree e (.node label parts) ↔ ∃ node, g.node? e = some node ∧
      label = ⟨e, node.shape, node.name⟩ ∧
      List.Forall₂ (fun part below => part.1 = below.1 ∧ g.listing.HasTree part.2 below.2)
        node.listed parts := by
  rw [hasTree_node]
  simp only [node?_listing, Option.map_eq_some_iff]
  constructor
  · rintro ⟨_, ⟨node, hnode, rfl⟩, hlabel, hparts⟩
    exact ⟨node, hnode, hlabel, hparts⟩
  · rintro ⟨node, hnode, hlabel, hparts⟩
    exact ⟨_, ⟨node, hnode, rfl⟩, hlabel, hparts⟩

theorem HasTree.label_id {e : ExprId} {t : Expression} (h : g.HasTree e t) : t.label.id = e := by
  obtain ⟨label, parts⟩ := t
  obtain ⟨node, _, rfl, _⟩ := hasTree_node.mp h
  rfl

theorem listed_eq_map {listed : List (String × ExprId)} {parts : List (String × Expression)}
    (h : List.Forall₂ (fun part below => part.1 = below.1 ∧ g.HasTree part.2 below.2)
      listed parts) : listed = parts.map fun part => (part.1, part.2.label.id) := by
  induction h with
  | nil => rfl
  | cons same _ ih => rw [List.map_cons, ← ih, same.2.label_id, ← same.1]

/-- The trees below a node, each at the node that its own label names. -/
theorem tree_of_mem {listed : List (String × ExprId)} {parts : List (String × Expression)}
    (h : List.Forall₂ (fun part below => part.1 = below.1 ∧ g.HasTree part.2 below.2)
      listed parts) {part : String × Expression} (hpart : part ∈ parts) :
    g.HasTree part.2.label.id part.2 := by
  obtain ⟨⟨_, e⟩, _, _, tree⟩ := forall₂_exists_left h hpart
  rw [tree.label_id]
  exact tree

/-- The parts that a node itself has under its keys are those that stand in its tree. -/
theorem lookup_eq_some_iff_tree (consistent : g.Consistent) {e part : ExprId} {node : Node}
    {key : String} {parts : List (String × Expression)} (hnode : g.node? e = some node)
    (hparts : List.Forall₂ (fun part below => part.1 = below.1 ∧ g.listing.HasTree part.2 below.2)
      node.listed parts) :
    node.parts.lookup key = some part ↔ ∃ t, (key, t) ∈ parts ∧ g.listing.HasTree part t := by
  rw [← (consistent e node hnode).same, listed_eq_map hparts, List.mem_map]
  constructor
  · rintro ⟨⟨_, t⟩, hpart, same⟩
    cases same
    exact ⟨t, hpart, tree_of_mem hparts hpart⟩
  · rintro ⟨t, hpart, tree⟩
    exact ⟨(key, t), hpart, by rw [tree.label_id]⟩

theorem mem_paths (consistent : g.Consistent) {e : ExprId} {t : Expression}
    (h : g.listing.HasTree e t) {steps : List (String × ExprId)} :
    steps ∈ t.paths ↔ g.Path e steps := by
  induction t using Expression.induction generalizing e steps with
  | node label parts ih =>
    obtain ⟨node, hnode, _, hparts⟩ := hasTree_listing_node.mp h
    rw [Expression.paths_node, List.mem_cons, List.mem_flatMap]
    constructor
    · rintro (rfl | ⟨⟨key, t⟩, hpart, hsteps⟩)
      · exact .here hnode
      · obtain ⟨rest, hrest, rfl⟩ := List.mem_map.mp hsteps
        have tree := tree_of_mem hparts hpart
        have lookup := (lookup_eq_some_iff_tree consistent hnode hparts).mpr ⟨t, hpart, tree⟩
        exact .down hnode lookup ((ih key t hpart tree).mp hrest)
    · intro path
      cases path with
      | here _ => exact .inl rfl
      | down hnode' lookup path =>
        obtain rfl : node = _ := Option.some.inj (hnode.symm.trans hnode')
        obtain ⟨t, hpart, tree⟩ := (lookup_eq_some_iff_tree consistent hnode hparts).mp lookup
        obtain rfl := tree.label_id
        exact .inr ⟨_, hpart, List.mem_map_of_mem ((ih _ t hpart tree).mpr path)⟩

theorem pairwise_paths {e : ExprId} {t : Expression} (h : g.listing.HasTree e t) :
    t.paths.Pairwise (g.Precedes e) := by
  induction t using Expression.induction generalizing e with
  | node label parts ih =>
    obtain ⟨node, hnode, _, hparts⟩ := hasTree_listing_node.mp h
    have listed := listed_eq_map hparts
    rw [Expression.paths_node, List.pairwise_cons, List.pairwise_flatMap]
    refine ⟨?_, ?_, ?_⟩
    · intro steps hsteps
      obtain ⟨part, _, hsteps⟩ := List.mem_flatMap.mp hsteps
      obtain ⟨rest, _, rfl⟩ := List.mem_map.mp hsteps
      exact .above
    · intro part hpart
      rw [List.pairwise_map]
      exact (ih part.1 part.2 hpart (tree_of_mem hparts hpart)).imp fun order => .onward order
    · rw [List.pairwise_iff_forall_sublist]
      intro part part' ordered steps hsteps steps' hsteps'
      obtain ⟨rest, _, rfl⟩ := List.mem_map.mp hsteps
      obtain ⟨rest', _, rfl⟩ := List.mem_map.mp hsteps'
      refine .aside hnode ?_
      rw [listed]
      exact ordered.map fun part : String × Expression => (part.1, part.2.label.id)

/-- The label is that of the node which it names, as the node stands. -/
def Labels (g : Graph) (l : Label) : Prop :=
  ∃ node, g.node? l.id = some node ∧ l = ⟨l.id, node.shape, node.name⟩

theorem labels_of_hasTree {e : ExprId} {t : Expression} (h : g.listing.HasTree e t) {l : Label}
    (hl : l ∈ t.labels) : g.Labels l := by
  induction t using Expression.induction generalizing e with
  | node label parts ih =>
    obtain ⟨node, hnode, rfl, hparts⟩ := hasTree_listing_node.mp h
    rw [Expression.labels_node, List.mem_cons, List.mem_flatMap] at hl
    rcases hl with rfl | ⟨part, hpart, hl⟩
    · exact ⟨node, hnode, rfl⟩
    · exact ih part.1 part.2 hpart (tree_of_mem hparts hpart) hl

/-- The visits take the paths down from a node, each of them once and in the order of a walk. -/
structure IsWalk (g : Graph) (e : ExprId) (includeRoot : Bool) (visits : List Visit) : Prop where
  labels : ∀ visit ∈ visits, ∀ l ∈ visit.label :: visit.parents, g.Labels l
  yields : ∃ paths : List (List (String × ExprId)),
    visits.map Visit.yielded = paths.map (pathEnd [] "" e) ∧
    (∀ steps, steps ∈ paths ↔ g.Path e steps ∧ (includeRoot = true ∨ steps ≠ [])) ∧
    paths.Nodup ∧ paths.Pairwise (g.Precedes e)

theorem traverse_eq_ok {e : ExprId} {t : Expression} (h : g.listing.HasTree e t)
    (includeRoot : Bool) : g.traverse e includeRoot =
      .ok (if includeRoot then t.traverse else t.traverse.tail) := by
  rw [traverse, expression_eq_ok_iff.mpr h]
  rfl

theorem traverse_isWalk (consistent : g.Consistent) {e : ExprId} {t : Expression}
    (h : g.listing.HasTree e t) (includeRoot : Bool) :
    g.IsWalk e includeRoot (if includeRoot then t.traverse else t.traverse.tail) := by
  constructor
  · intro visit hvisit l hl
    have met : visit ∈ t.traverse := by
      split at hvisit
      · exact hvisit
      · exact List.mem_of_mem_tail hvisit
    rcases Expression.mem_labels_of_visit met hl with above | below
    · cases above
    · exact labels_of_hasTree h below
  · have yielded := t.yielded_visits [] ""
    rw [h.label_id, List.map_nil] at yielded
    have order := pairwise_paths h
    have once : t.paths.Nodup := by
      refine order.imp ?_
      rintro steps _ before rfl
      exact before.irrefl consistent
    cases includeRoot with
    | true => exact ⟨t.paths, yielded, fun steps => by simp [mem_paths consistent h], once, order⟩
    | false =>
      have downward := t.paths_eq_cons
      rw [downward] at once order
      refine ⟨t.paths.tail, ?_, fun steps => ?_, (List.nodup_cons.mp once).2,
        (List.pairwise_cons.mp order).2⟩
      · rw [if_neg Bool.false_ne_true, List.map_tail, List.map_tail]
        exact congrArg List.tail yielded
      -- The path that is left out is the empty one, and it is left out but once.
      rw [← mem_paths consistent h, downward, List.tail_cons, List.mem_cons]
      constructor
      · intro hsteps
        refine ⟨.inr hsteps, .inr ?_⟩
        rintro rfl
        exact (List.nodup_cons.mp once).1 hsteps
      · rintro ⟨rfl | hsteps, nonempty⟩
        · simp at nonempty
        · exact hsteps

/-- A reference to the argument stands at the node or further down. -/
inductive Mentions (g : Graph) (x : Argument) : ExprId → Prop where
  | here {e : ExprId} {node : Node} : g.node? e = some node → node.shape = .reference x →
    Mentions g x e
  | down {e part : ExprId} {node : Node} {key : String} : g.node? e = some node →
    node.parts.lookup key = some part → Mentions g x part → Mentions g x e

theorem mem_arguments (consistent : g.Consistent) {e : ExprId} {t : Expression}
    (h : g.listing.HasTree e t) {x : Argument} : x ∈ t.arguments ↔ g.Mentions x e := by
  induction t using Expression.induction generalizing e with
  | node label parts ih =>
    obtain ⟨node, hnode, rfl, hparts⟩ := hasTree_listing_node.mp h
    rw [Expression.mem_arguments_node, Shape.ownArgument?_eq_some_iff]
    constructor
    · rintro (own | ⟨⟨key, t⟩, hpart, hx⟩)
      · exact .here hnode own
      · have tree := tree_of_mem hparts hpart
        have lookup := (lookup_eq_some_iff_tree consistent hnode hparts).mpr ⟨t, hpart, tree⟩
        exact .down hnode lookup ((ih key t hpart tree).mp hx)
    · intro mentions
      cases mentions with
      | here hnode' own =>
        obtain rfl : node = _ := Option.some.inj (hnode.symm.trans hnode')
        exact .inl own
      | down hnode' lookup below =>
        obtain rfl : node = _ := Option.some.inj (hnode.symm.trans hnode')
        obtain ⟨t, hpart, tree⟩ := (lookup_eq_some_iff_tree consistent hnode hparts).mp lookup
        exact .inr ⟨_, hpart, (ih _ t hpart tree).mpr below⟩

/-- The arguments that are mentioned, each once, in the order in which the visits first come
to them. -/
structure ListsArguments (g : Graph) (e : ExprId) (visits : List Visit)
    (arguments : List Argument) : Prop where
  once : arguments.Nodup
  mentioned : ∀ x, x ∈ arguments ↔ g.Mentions x e
  ordered :
    let met := visits.filterMap fun visit => visit.label.shape.ownArgument?
    arguments.Pairwise fun x y => met.idxOf x < met.idxOf y

theorem arguments_eq_ok {e : ExprId} {t : Expression} (h : g.listing.HasTree e t) :
    g.arguments e = .ok t.arguments := by
  rw [arguments, expression_eq_ok_iff.mpr h]
  rfl

theorem arguments_listed (consistent : g.Consistent) {e : ExprId} {t : Expression}
    (h : g.listing.HasTree e t) : g.ListsArguments e t.traverse t.arguments where
  once := by
    refine (Expression.distinct_ordered _).imp ?_
    rintro x _ before rfl
    exact Nat.lt_irrefl _ before
  mentioned x := mem_arguments consistent h
  ordered := Expression.distinct_ordered _

end Graph

end FiniteCalculus
