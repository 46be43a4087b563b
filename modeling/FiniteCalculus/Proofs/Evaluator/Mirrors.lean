import FiniteCalculus.Proofs.Graph.Keys

/-! The shape of an evaluator. A tree lists its parts in the order in which their keys were
stored, an evaluator in an order that its class has fixed. The main statement is that an evaluator
has the names of the tree that it was made for, in the order and with the nesting of that tree. -/

namespace FiniteCalculus
set_option autoImplicit false

theorem forall₂_of_mapM {ε α β : Type} {f : α → Except ε β} {as : List α} {bs : List β}
    (h : as.mapM f = .ok bs) : List.Forall₂ (fun a b => f a = .ok b) as bs := by
  induction as generalizing bs with
  | nil =>
    cases h
    exact .nil
  | cons a as ih =>
    rw [List.mapM_cons] at h
    obtain ⟨b, hb, h⟩ := bind_eq_ok h
    obtain ⟨bs, hbs, h⟩ := bind_eq_ok h
    cases h
    exact .cons hb (ih hbs)

namespace Expression

/-- The evaluator has the names of the tree, in its order and with its nesting. -/
def MirroredBy : Expression → Evaluator → Prop :=
  fold fun label parts ev => ev.name = label.name ∧
    List.Forall₂ (fun part below => part.2 below) parts ev.parts

theorem mirroredBy_node {label : Label} {parts : List (String × Expression)} {ev : Evaluator} :
    (node label parts).MirroredBy ev ↔ ev.name = label.name ∧
      List.Forall₂ (fun part below => part.2.MirroredBy below) parts ev.parts := by
  simp only [MirroredBy, fold, foldParts_eq_map, List.forall₂_map_left_iff]

section
variable {l : Label} {parts : List (String × Expression)} {ev : Evaluator}

/-- The evaluator of a node is named like the node, and its parts are the evaluators of those
under the keys of the node, key by key. -/
theorem evaluator_node (keys : l.shape.Accepts (parts.map Prod.fst))
    (h : (Expression.node l parts).evaluator = .ok ev) : ev.name = l.name ∧
      List.Forall₂ (fun key below => evaluatorOf parts key = .ok below)
        (parts.map Prod.fst) ev.parts := by
  have assembled := assembles_of_evaluator h
  generalize l.shape = shape at keys assembled
  cases assembled with
  | constant c =>
    rw [keys.eq_keys rfl]
    exact ⟨rfl, .nil⟩
  | reference x =>
    rw [keys.eq_keys rfl]
    exact ⟨rfl, .nil⟩
  | application hargs =>
    rw [keys.eq_keys rfl]
    exact ⟨rfl, List.forall₂_map_left_iff.mpr (forall₂_of_mapM hargs)⟩
  | scaling hpart =>
    rw [keys.eq_keys rfl]
    exact ⟨rfl, .cons hpart .nil⟩
  | addition hleft hright =>
    rw [keys.eq_keys rfl]
    exact ⟨rfl, .cons hleft (.cons hright .nil)⟩
  | multiplication hleft hright =>
    rw [keys.eq_keys rfl]
    exact ⟨rfl, .cons hleft (.cons hright .nil)⟩
  | iteration hbody hstart hstop hstep =>
    rw [keys.eq_keys rfl]
    exact ⟨rfl, .cons hbody (.cons hstart (.cons hstop (.cons hstep .nil)))⟩
  -- The point comes last in the tree, whenever it was put in, and last in the evaluator.
  | difference hbody hwidth absent =>
    rcases keys with same | same
    · rw [same]
      exact ⟨rfl, .cons hbody (.cons hwidth .nil)⟩
    · have present : Key.point ∈ parts.map Prod.fst := by
        rw [same]
        simp [Shape.keys, Shape.spareKeys]
      obtain ⟨p, found⟩ := exists_lookup present
      cases absent.symm.trans found
  | differenceAt hbody hwidth hpoint =>
    rcases keys with same | same
    · obtain ⟨p, found, _⟩ := lookup_of_evaluatorOf hpoint
      have absent : parts.lookup Key.point = none :=
        lookup_eq_none (by rw [same]; simp [Shape.keys, Key.body, Key.width, Key.point])
      cases absent.symm.trans found
    · rw [same]
      exact ⟨rfl, .cons hbody (.cons hwidth (.cons hpoint .nil))⟩

end

end Expression

namespace Graph
variable {g : Graph}

theorem HasTree.mirroredBy (hg : g.WellKeyed) {e : ExprId} {t : Expression} {ev : Evaluator}
    (h : g.HasTree e t) (made : t.evaluator = .ok ev) : t.MirroredBy ev := by
  induction t using Expression.induction generalizing e ev with
  | node label parts ih =>
    obtain ⟨node, hnode, rfl, hparts⟩ := hasTree_node.mp h
    have keys : node.shape.Accepts (parts.map Prod.fst) := by
      rw [← keys_of_forall₂ hparts]
      exact hg e node hnode
    have below : ∀ part ∈ parts, ∀ ev, Expression.evaluatorOf parts part.1 = .ok ev →
        part.2.MirroredBy ev := by
      rintro ⟨key, p⟩ mem ev hev
      rw [Expression.evaluatorOf, (lookup_eq_some_iff_mem keys.nodup).mpr mem] at hev
      obtain ⟨_, _, _, tree⟩ := forall₂_exists_left hparts mem
      exact ih key p mem tree hev
    obtain ⟨name, same⟩ := Expression.evaluator_node keys made
    have aligned := (List.forall₂_and_left _ _).mpr ⟨below, List.forall₂_map_left_iff.mp same⟩
    exact Expression.mirroredBy_node.mpr ⟨name, aligned.imp fun _ ev head => head.1 ev head.2⟩

end Graph

end FiniteCalculus
