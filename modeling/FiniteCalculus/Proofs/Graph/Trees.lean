import FiniteCalculus.Proofs.Expression.Meaning
import Mathlib.Data.Fintype.EquivFin
import Mathlib.Data.List.Forall2
import Mathlib.Data.Fintype.Card

/-! The tree at a node of a graph, said without a bound: its root is the node as the
graph has it now, and under each key stands the tree of the part that the node has
there now. The main statement is that unfolding a node finds its tree whenever there
is one, so a node is without an expression only where it has no tree. -/

namespace FiniteCalculus
set_option autoImplicit false

theorem forall₂_unique {α β : Type} {R : α → β → Prop} {as : List α} {bs cs : List β}
    (hb : List.Forall₂ R as bs) (hc : List.Forall₂ R as cs)
    (unique : ∀ a, ∀ b ∈ bs, ∀ c, R a b → R a c → b = c) : bs = cs := by
  induction hb generalizing cs with
  | nil => cases hc; rfl
  | @cons a b as bs hab _ ih =>
    cases hc with
    | @cons _ c _ cs hac hc =>
      have head : b = c := unique a b List.mem_cons_self c hab hac
      have tail : bs = cs := ih hc fun a b hb => unique a b (List.mem_cons_of_mem _ hb)
      rw [head, tail]

theorem forall₂_imp_mem {α β : Type} {R S : α → β → Prop} {as : List α} {bs : List β}
    (h : List.Forall₂ R as bs) (imp : ∀ a, ∀ b ∈ bs, R a b → S a b) : List.Forall₂ S as bs := by
  induction h with
  | nil => exact .nil
  | cons hab _ ih =>
    refine .cons (imp _ _ List.mem_cons_self hab) (ih ?_)
    intro a b hb
    exact imp a b (List.mem_cons_of_mem _ hb)

theorem forall₂_exists_right {α β : Type} {R : α → β → Prop} {as : List α} {bs : List β} {a : α}
    (h : List.Forall₂ R as bs) (ha : a ∈ as) : ∃ b ∈ bs, R a b := by
  induction h with
  | nil => cases ha
  | @cons _ b _ _ hab _ ih =>
    rcases List.mem_cons.mp ha with rfl | ha
    · exact ⟨b, List.mem_cons_self, hab⟩
    · obtain ⟨b, hb, hab⟩ := ih ha
      exact ⟨b, List.mem_cons_of_mem _ hb, hab⟩

theorem forall₂_exists_left {α β : Type} {R : α → β → Prop} {as : List α} {bs : List β} {b : β}
    (h : List.Forall₂ R as bs) (hb : b ∈ bs) : ∃ a ∈ as, R a b :=
  forall₂_exists_right h.flip hb

theorem forall₂_comp {α β γ : Type} {R : α → β → Prop} {S : β → γ → Prop} {as : List α}
    {bs : List β} {cs : List γ} (h : List.Forall₂ R as bs) (h' : List.Forall₂ S bs cs) :
    List.Forall₂ (fun a c => ∃ b, R a b ∧ S b c) as cs := by
  induction h generalizing cs with
  | nil =>
    cases h'
    exact .nil
  | cons hab _ ih =>
    cases h' with
    | cons hbc rest => exact .cons ⟨_, hab, hbc⟩ (ih rest)

theorem exists_forall₂ {α β : Type} {R : α → β → Prop} {as : List α}
    (h : ∀ a ∈ as, ∃ b, R a b) : ∃ bs, List.Forall₂ R as bs := by
  induction as with
  | nil => exact ⟨[], .nil⟩
  | cons a as ih =>
    obtain ⟨b, hb⟩ := h a List.mem_cons_self
    obtain ⟨bs, hbs⟩ := ih fun a ha => h a (List.mem_cons_of_mem _ ha)
    exact ⟨b :: bs, .cons hb hbs⟩

theorem mapM_eq_some_iff {α β : Type} {f : α → Option β} {as : List α} {bs : List β} :
    as.mapM f = some bs ↔ List.Forall₂ (fun a b => f a = some b) as bs := by
  induction as generalizing bs with
  | nil => simp [eq_comm]
  | cons a as ih =>
    rw [List.mapM_cons, List.forall₂_cons_left_iff]
    cases ha : f a with
    | none => simp
    | some b => cases hb : as.mapM f <;> simp [← ih, hb, eq_comm]

namespace Expression

/-- The number of nodes on the longest path down. -/
def depth : Expression → Nat :=
  fold fun _ parts => parts.foldr (fun part longest => max part.2 longest) 0 + 1

theorem depth_node (label : Label) (parts : List (String × Expression)) :
    depth (.node label parts) =
      parts.foldr (fun part longest => max part.2.depth longest) 0 + 1 := by
  simp only [depth, fold, foldParts_eq_map, List.foldr_map]

theorem depth_pos (t : Expression) : 0 < t.depth := by
  cases t
  rw [depth_node]
  omega

theorem depth_lt_of_mem {label : Label} {parts : List (String × Expression)}
    {part : String × Expression} (h : part ∈ parts) :
    part.2.depth < (Expression.node label parts).depth := by
  rw [depth_node]
  induction parts with
  | nil => cases h
  | cons first rest ih =>
    rw [List.foldr_cons]
    rcases List.mem_cons.mp h with rfl | h
    · omega
    · have := ih h
      omega

theorem exists_part_of_le_depth {label : Label} {parts : List (String × Expression)} {n : Nat}
    (pos : 0 < n) (h : n < (Expression.node label parts).depth) :
    ∃ part ∈ parts, n ≤ part.2.depth := by
  rw [depth_node] at h
  induction parts with
  | nil => simp only [List.foldr_nil] at h; omega
  | cons first rest ih =>
    by_cases hn : n ≤ first.2.depth
    · exact ⟨first, List.mem_cons_self, hn⟩
    · rw [List.foldr_cons] at h
      obtain ⟨part, hmem, hle⟩ := ih (by omega)
      exact ⟨part, List.mem_cons_of_mem _ hmem, hle⟩

end Expression

namespace Graph
variable {g : Graph}

/-- The expression is the tree at the node, with every node in it as it stands. -/
def HasTree (g : Graph) (e : ExprId) (t : Expression) : Prop :=
  t.fold (fun label parts e => ∃ node, g.node? e = some node ∧
    label = ⟨e, node.shape, node.name⟩ ∧
    List.Forall₂ (fun part below => part.1 = below.1 ∧ below.2 part.2) node.parts parts) e

theorem hasTree_node {e : ExprId} {label : Label} {parts : List (String × Expression)} :
    g.HasTree e (.node label parts) ↔ ∃ node, g.node? e = some node ∧
      label = ⟨e, node.shape, node.name⟩ ∧
      List.Forall₂ (fun part below => part.1 = below.1 ∧ g.HasTree part.2 below.2)
        node.parts parts := by
  simp only [HasTree, Expression.fold, Expression.foldParts_eq_map, List.forall₂_map_right_iff]

theorem HasTree.unique {e : ExprId} {t u : Expression} (ht : g.HasTree e t)
    (hu : g.HasTree e u) : t = u := by
  induction t using Expression.induction generalizing e u with
  | node label parts ih =>
    obtain ⟨label', parts'⟩ := u
    obtain ⟨node, hnode, rfl, hparts⟩ := hasTree_node.mp ht
    obtain ⟨node', hnode', rfl, hparts'⟩ := hasTree_node.mp hu
    obtain rfl : node = node' := Option.some.inj (hnode.symm.trans hnode')
    have same : parts = parts' := by
      refine forall₂_unique hparts hparts' ?_
      rintro ⟨key, e⟩ ⟨_, t⟩ hmem ⟨_, u⟩ ⟨rfl, hpart⟩ ⟨rfl, hpart'⟩
      rw [ih key t hmem hpart hpart']
    rw [same]

theorem hasTree_of_unfold {bound : Nat} {e : ExprId} {t : Expression}
    (h : g.unfold bound e = some t) : g.HasTree e t := by
  induction bound generalizing e t with
  | zero => cases h
  | succ bound ih =>
    obtain ⟨node, hnode, h⟩ := Option.bind_eq_some_iff.mp h
    obtain ⟨parts, hparts, h⟩ := Option.bind_eq_some_iff.mp h
    cases h
    refine hasTree_node.mpr ⟨node, hnode, rfl, (mapM_eq_some_iff.mp hparts).imp ?_⟩
    rintro ⟨key, e⟩ below hbelow
    obtain ⟨t, ht, hbelow⟩ := Option.bind_eq_some_iff.mp hbelow
    cases hbelow
    exact ⟨rfl, ih ht⟩

theorem unfold_of_hasTree {bound : Nat} {e : ExprId} {t : Expression} (h : g.HasTree e t)
    (deep : t.depth ≤ bound) : g.unfold bound e = some t := by
  induction t using Expression.induction generalizing bound e with
  | node label parts ih =>
    obtain ⟨node, hnode, rfl, hparts⟩ := hasTree_node.mp h
    cases bound with
    | zero => exact absurd deep (Nat.not_le.mpr (Expression.depth_pos _))
    | succ bound =>
      have converted : node.parts.mapM (fun part => do
          return (part.1, ← g.unfold bound part.2)) = some parts := by
        refine mapM_eq_some_iff.mpr (forall₂_imp_mem hparts ?_)
        rintro ⟨key, e⟩ ⟨_, t⟩ hmem ⟨rfl, hpart⟩
        have shallow : t.depth < Expression.depth (.node ⟨e, node.shape, node.name⟩ parts) :=
          Expression.depth_lt_of_mem hmem
        rw [Expression.depth_node] at deep shallow
        have unfolded : g.unfold bound e = some t := ih key t hmem hpart (by omega)
        simp [unfolded]
      simp only [unfold, hnode]
      exact congrArg (Option.bind · _) converted

theorem HasTree.index_lt {e : ExprId} {t : Expression} (h : g.HasTree e t) :
    e.index < g.nodes.size := by
  obtain ⟨label, parts⟩ := t
  obtain ⟨node, hnode, _⟩ := hasTree_node.mp h
  obtain ⟨inside, _⟩ := Array.getElem?_eq_some_iff.mp hnode
  exact inside

theorem HasTree.exists_depth {e : ExprId} {t : Expression} (h : g.HasTree e t) {n : Nat}
    (pos : 0 < n) (le : n ≤ t.depth) : ∃ e' t', g.HasTree e' t' ∧ t'.depth = n := by
  induction t using Expression.induction generalizing e with
  | node label parts ih =>
    rcases Nat.lt_or_eq_of_le le with lt | rfl
    · obtain ⟨⟨key, t⟩, hmem, hle⟩ := Expression.exists_part_of_le_depth pos lt
      obtain ⟨node, _, _, hparts⟩ := hasTree_node.mp h
      obtain ⟨⟨_, e'⟩, _, _, ht⟩ := forall₂_exists_left hparts hmem
      exact ih key t hmem ht hle
    · exact ⟨e, _, h, rfl⟩

theorem HasTree.depth_le {e : ExprId} {t : Expression} (h : g.HasTree e t) :
    t.depth ≤ g.nodes.size := by
  -- Below the root there are trees of every smaller depth. They stand at different nodes,
  -- since a node has one tree, and so there are no more of them than nodes.
  have level (n : Fin t.depth) : ∃ e' t', g.HasTree e' t' ∧ t'.depth = n + 1 :=
    h.exists_depth (Nat.succ_pos n) n.isLt
  choose node tree has depth using level
  let place (n : Fin t.depth) : Fin g.nodes.size := ⟨(node n).index, (has n).index_lt⟩
  have injective : Function.Injective place := by
    intro m n same
    have sameNode : node m = node n := congrArg ExprId.mk (Fin.mk.inj same)
    have sameTree : tree m = tree n := (has m).unique (sameNode ▸ has n)
    have sameDepth : (m : Nat) + 1 = n + 1 := by rw [← depth m, ← depth n, sameTree]
    exact Fin.ext (Nat.succ.inj sameDepth)
  simpa using Fintype.card_le_of_injective place injective

/-- Unfolding finds the tree of a node, and only that, whenever the node has one. -/
theorem expression_eq_ok_iff {e : ExprId} {t : Expression} :
    g.expression e = .ok t ↔ g.HasTree e t := by
  unfold expression
  constructor
  · intro h
    cases hu : g.unfold g.nodes.size e with
    | none => rw [hu] at h; cases h
    | some u =>
      rw [hu] at h
      cases h
      exact hasTree_of_unfold hu
  · intro h
    rw [unfold_of_hasTree h h.depth_le]

/-- The one node has the other among its parts. -/
def IsPart (g : Graph) (part e : ExprId) : Prop :=
  ∃ node key, g.node? e = some node ∧ (key, part) ∈ node.parts

/-- Every part is a node, and from no node is there a way down to itself. -/
structure Acyclic (g : Graph) : Prop where
  inside : ∀ part e, g.IsPart part e → ∃ node, g.node? part = some node
  acyclic : ∀ e, ¬ Relation.TransGen g.IsPart e e

/-- The node and all that is down from it are there, and from none of them is there a way down to
itself. -/
structure AcyclicBelow (g : Graph) (e : ExprId) : Prop where
  inside : ∀ part, Relation.ReflTransGen g.IsPart part e → ∃ node, g.node? part = some node
  acyclic : ∀ part, Relation.ReflTransGen g.IsPart part e → ¬ Relation.TransGen g.IsPart part part

theorem AcyclicBelow.accessible {e part : ExprId} (h : g.AcyclicBelow e)
    (below : Relation.ReflTransGen g.IsPart part e) : Acc g.IsPart part := by
  let place (i : Fin g.nodes.size) : ExprId := ⟨i⟩
  have exists_place {part : ExprId} (below : Relation.ReflTransGen g.IsPart part e) :
      ∃ i, place i = part := by
    obtain ⟨node, hnode⟩ := h.inside part below
    exact ⟨⟨part.index, (Array.getElem?_eq_some_iff.mp hnode).1⟩, rfl⟩
  let Lower (i j : Fin g.nodes.size) : Prop :=
    Relation.TransGen g.IsPart (place i) (place j) ∧ Relation.ReflTransGen g.IsPart (place j) e
  have finite : WellFounded Lower := by
    have : IsTrans (Fin g.nodes.size) Lower := ⟨fun _ _ _ hij hjk => ⟨hij.1.trans hjk.1, hjk.2⟩⟩
    have : Std.Irrefl Lower := ⟨fun i hii => h.acyclic _ hii.2 hii.1⟩
    exact Finite.wellFounded_of_trans_of_irrefl _
  obtain ⟨i, rfl⟩ := exists_place below
  induction i using finite.induction with
  | _ i ih =>
    refine .intro _ fun part isPart => ?_
    have partBelow : Relation.ReflTransGen g.IsPart part e := .head isPart below
    obtain ⟨j, rfl⟩ := exists_place partBelow
    exact ih j ⟨.single isPart, below⟩ partBelow

theorem AcyclicBelow.exists_tree {e part : ExprId} (h : g.AcyclicBelow e)
    (below : Relation.ReflTransGen g.IsPart part e) : ∃ t, g.HasTree part t := by
  induction h.accessible below with
  | intro part _ ih =>
    obtain ⟨node, hnode⟩ := h.inside part below
    have trees : ∀ entry ∈ node.parts, ∃ b : String × Expression,
        entry.1 = b.1 ∧ g.HasTree entry.2 b.2 := by
      rintro ⟨key, lower⟩ hlower
      have isPart : g.IsPart lower part := ⟨node, key, hnode, hlower⟩
      obtain ⟨t, ht⟩ := ih lower isPart (.head isPart below)
      exact ⟨(key, t), rfl, ht⟩
    obtain ⟨parts, hparts⟩ := exists_forall₂ trees
    exact ⟨.node ⟨part, node.shape, node.name⟩ parts, hasTree_node.mpr ⟨node, hnode, rfl, hparts⟩⟩

theorem HasTree.exists_below {e part : ExprId} {t : Expression} (h : g.HasTree e t)
    (below : Relation.TransGen g.IsPart part e) :
    ∃ t', g.HasTree part t' ∧ t'.depth < t.depth := by
  have exists_part {e part : ExprId} {t : Expression} (h : g.HasTree e t)
      (isPart : g.IsPart part e) : ∃ t', g.HasTree part t' ∧ t'.depth < t.depth := by
    obtain ⟨label, parts⟩ := t
    obtain ⟨node, hnode, rfl, hparts⟩ := hasTree_node.mp h
    obtain ⟨node', key, hnode', mem⟩ := isPart
    obtain rfl : node = node' := Option.some.inj (hnode.symm.trans hnode')
    obtain ⟨⟨_, t⟩, hbelow, rfl, tree⟩ := forall₂_exists_right hparts mem
    exact ⟨t, tree, Expression.depth_lt_of_mem hbelow⟩
  induction below generalizing t with
  | single isPart => exact exists_part h isPart
  | tail _ isPart ih =>
    obtain ⟨t', tree', less'⟩ := exists_part h isPart
    obtain ⟨t'', tree'', less⟩ := ih tree'
    exact ⟨t'', tree'', less.trans less'⟩

/-- A node has a tree just if no way down from it comes back to where it has been. -/
theorem acyclicBelow_iff {e : ExprId} : g.AcyclicBelow e ↔ ∃ t, g.HasTree e t := by
  constructor
  · intro h
    exact h.exists_tree .refl
  · rintro ⟨t, tree⟩
    have exists_tree {part : ExprId} (below : Relation.ReflTransGen g.IsPart part e) :
        ∃ t', g.HasTree part t' := by
      rcases Relation.reflTransGen_iff_eq_or_transGen.mp below with rfl | below
      · exact ⟨t, tree⟩
      · obtain ⟨t', tree', _⟩ := tree.exists_below below
        exact ⟨t', tree'⟩
    constructor
    · intro part below
      obtain ⟨⟨label, parts⟩, tree'⟩ := exists_tree below
      obtain ⟨node, hnode, _⟩ := hasTree_node.mp tree'
      exact ⟨node, hnode⟩
    · intro part below cycle
      obtain ⟨t', tree'⟩ := exists_tree below
      obtain ⟨t'', tree'', less⟩ := tree'.exists_below cycle
      rw [tree''.unique tree'] at less
      exact Nat.lt_irrefl _ less

theorem Acyclic.below (h : g.Acyclic) {e : ExprId} {node : Node} (hnode : g.node? e = some node) :
    g.AcyclicBelow e where
  inside part below := by
    rcases below.cases_head with rfl | ⟨above, isPart, _⟩
    · exact ⟨node, hnode⟩
    · exact h.inside part above isPart
  acyclic part _ := h.acyclic part

theorem Acyclic.exists_tree (h : g.Acyclic) {e : ExprId} {node : Node}
    (hnode : g.node? e = some node) : ∃ t, g.HasTree e t :=
  acyclicBelow_iff.mp (h.below hnode)

end Graph

end FiniteCalculus
