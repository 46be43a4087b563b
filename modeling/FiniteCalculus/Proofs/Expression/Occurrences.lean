import FiniteCalculus.Expression.Traversal
import FiniteCalculus.Proofs.Expression.Meaning
import Mathlib.Data.List.Basic
import Mathlib.Data.List.Induction

/-! Where arguments occur in a tree: at its root or in one of its parts. -/

namespace FiniteCalculus
set_option autoImplicit false

theorem Shape.ownArgument?_eq_some_iff {shape : Shape} {x : Argument} :
    shape.ownArgument? = some x ↔ shape = .reference x := by
  cases shape <;> simp [ownArgument?]

namespace Expression

/-- The labels of the nodes, in the order in which they are visited. -/
def labels (t : Expression) : List Label := t.traverse.map Visit.label

theorem map_label_visits (t : Expression) (parents : List Label) (key : String) :
    (t.visits parents key).map Visit.label = t.labels := by
  induction t using induction generalizing parents key with
  | node l parts ih =>
    simp only [labels, traverse, visits, visitsOfParts_eq_flatMap, List.map_cons,
      List.map_flatMap]
    congr 1
    refine List.flatMap_congr fun part hpart => ?_
    rw [ih part.1 part.2 hpart, ih part.1 part.2 hpart]

theorem labels_node (l : Label) (parts : List (String × Expression)) :
    labels (.node l parts) = l :: parts.flatMap fun part => part.2.labels := by
  simp only [labels, traverse, visits, visitsOfParts_eq_flatMap, List.map_cons, List.map_flatMap]
  congr 1
  exact List.flatMap_congr fun part _ => map_label_visits part.2 _ part.1

/-- A visit has labels of the expression, and above them the nodes that it was begun below. -/
theorem mem_labels_of_visit {t : Expression} {parents : List Label} {key : String}
    {visit : Visit} (h : visit ∈ t.visits parents key) {l : Label}
    (hl : l ∈ visit.label :: visit.parents) : l ∈ parents ∨ l ∈ t.labels := by
  induction t using induction generalizing parents key with
  | node root parts ih =>
    rw [visits, visitsOfParts_eq_flatMap, List.mem_cons, List.mem_flatMap] at h
    rw [labels_node, List.mem_cons, List.mem_flatMap]
    rcases h with rfl | ⟨part, hpart, h⟩
    · rcases List.mem_cons.mp hl with rfl | hl
      · exact .inr (.inl rfl)
      · exact .inl hl
    · rcases ih part.1 part.2 hpart h with above | below
      · rcases List.mem_append.mp above with above | above
        · exact .inl above
        · exact .inr (.inl (List.mem_singleton.mp above))
      · exact .inr (.inr ⟨part, hpart, below⟩)

theorem mem_distinct_from {x : Argument} {seen xs : List Argument} :
    x ∈ xs.foldl (fun seen x => if x ∈ seen then seen else seen ++ [x]) seen ↔
      x ∈ seen ∨ x ∈ xs := by
  induction xs generalizing seen with
  | nil => simp
  | cons y ys ih =>
    rw [List.foldl_cons, ih, List.mem_cons]
    split
    · rename_i present
      constructor
      · rintro (h | h)
        · exact .inl h
        · exact .inr (.inr h)
      · rintro (h | rfl | h)
        · exact .inl h
        · exact .inl present
        · exact .inr h
    · rw [List.mem_append, List.mem_singleton, or_assoc]

theorem mem_distinct {x : Argument} {xs : List Argument} : x ∈ distinct xs ↔ x ∈ xs :=
  mem_distinct_from.trans (by simp)

theorem distinct_snoc (xs : List Argument) (x : Argument) :
    distinct (xs ++ [x]) = if x ∈ xs then distinct xs else distinct xs ++ [x] := by
  rw [distinct, List.foldl_append, List.foldl_cons, List.foldl_nil]
  exact if_congr mem_distinct rfl rfl

/-- What is left stands in the order of the first occurrences. -/
theorem distinct_ordered (xs : List Argument) :
    (distinct xs).Pairwise fun x y => xs.idxOf x < xs.idxOf y := by
  induction xs using List.reverseRecOn with
  | nil => exact .nil
  | append_singleton xs z ih =>
    have earlier : (distinct xs).Pairwise fun x y =>
        (xs ++ [z]).idxOf x < (xs ++ [z]).idxOf y := by
      refine ih.imp_of_mem fun hx hy before => ?_
      rw [List.idxOf_append_of_mem (mem_distinct.mp hx),
        List.idxOf_append_of_mem (mem_distinct.mp hy)]
      exact before
    rw [distinct_snoc]
    split
    · exact earlier
    · rename_i fresh
      refine List.pairwise_append.mpr ⟨earlier, List.pairwise_singleton _ _, ?_⟩
      intro x hx y hy
      have present : x ∈ xs := mem_distinct.mp hx
      rw [List.mem_singleton.mp hy, List.idxOf_append_of_mem present,
        List.idxOf_append_of_notMem fresh]
      have := List.idxOf_lt_length_iff.mpr present
      omega

theorem arguments_eq (t : Expression) :
    t.arguments = distinct (t.labels.filterMap fun l => l.shape.ownArgument?) := by
  rw [arguments, labels, List.filterMap_map]
  rfl

theorem mem_arguments {x : Argument} {t : Expression} :
    x ∈ t.arguments ↔ ∃ l ∈ t.labels, l.shape.ownArgument? = some x := by
  rw [arguments_eq, mem_distinct, List.mem_filterMap]

theorem mem_arguments_node {x : Argument} {l : Label} {parts : List (String × Expression)} :
    x ∈ (Expression.node l parts).arguments ↔
      l.shape.ownArgument? = some x ∨ ∃ part ∈ parts, x ∈ part.2.arguments := by
  simp only [mem_arguments, labels_node, List.mem_cons, List.mem_flatMap, exists_eq_or_imp]
  constructor
  · rintro (h | ⟨l, ⟨part, hpart, hl⟩, h⟩)
    · exact .inl h
    · exact .inr ⟨part, hpart, l, hl, h⟩
  · rintro (h | ⟨part, hpart, l, hl, h⟩)
    · exact .inl h
    · exact .inr ⟨l, ⟨part, hpart, hl⟩, h⟩

end Expression

end FiniteCalculus
