import FiniteCalculus.Proofs.Expression.AbsentValues
import FiniteCalculus.Proofs.Expression.Calculation

/-! Which arguments an evaluation depends on. A sum, a product or a difference at a point
binds its argument, so that what the argument held before is of no influence, with one
exception: where the point turns out to be absent, the difference is taken at the value
that its argument holds. -/

namespace FiniteCalculus
set_option autoImplicit false

open Evaluation Situation

/-- The arguments that a node reads, given those that its parts read and whether it may
be a difference without a point in spite of having a part for it. -/
def Label.reads (l : Label) (part? : String → Option (Set Argument)) (pointless : Prop) :
    Set Argument :=
  let part (key : String) : Set Argument := (part? key).getD ∅
  match l.shape with
  | .constant _ => ∅
  | .reference x => {x}
  | .application _ _ count => {x | ∃ i < count, x ∈ part (Key.arg i)}
  | .scaling _ => part Key.scaled
  | .addition _ | .multiplication => part Key.left ∪ part Key.right
  | .iteration _ index =>
    (part Key.body \ {index}) ∪ part Key.start ∪ part Key.stop ∪ part Key.step
  | .difference _ x =>
    match part? Key.point with
    | none => part Key.body ∪ {x} ∪ part Key.width
    | some point => (part Key.body \ {x}) ∪ point ∪ part Key.width ∪ {y | y = x ∧ pointless}

/-- The argument that a node binds over its body. -/
def Shape.bound? : Shape → Option Argument
  | iteration _ index => some index
  | difference _ x => some x
  | _ => none

/-- The arguments that may hold an absent value while the part under a key is evaluated. Over the
body the bound argument holds a number. -/
def Label.heldUnder (l : Label) (held : Set Argument) (key : String) : Set Argument :=
  if key = Key.body then held \ {x | l.shape.bound? = some x} else held

theorem Label.heldUnder_of_ne (l : Label) (held : Set Argument) {key : String}
    (other : key ≠ Key.body) : l.heldUnder held key = held := if_neg other

theorem Label.heldUnder_of_unbound {l : Label} (unbound : l.shape.bound? = none)
    (held : Set Argument) (key : String) : l.heldUnder held key = held := by
  simp [heldUnder, unbound]

theorem Label.heldUnder_body {l : Label} {x : Argument} (bound : l.shape.bound? = some x)
    (held : Set Argument) : l.heldUnder held Key.body = held \ {x} := by
  rw [heldUnder, if_pos rfl, bound]
  simp

namespace Expression

/-- The arguments that an expression reads if points are never absent. -/
def freeArguments : Expression → Set Argument :=
  fold fun l parts => l.reads (fun key => parts.lookup key) False

mutual

/-- The arguments that an expression reads while no others than those in `held` hold an
absent value. -/
def reads (held : Set Argument) : Expression → Set Argument
  | .node l parts => l.reads (fun key => (readsOfParts l held parts).lookup key)
      (∃ p, parts.lookup Key.point = some p ∧ p.mayBeAbsent held)

def readsOfParts (l : Label) (held : Set Argument) :
    List (String × Expression) → List (String × Set Argument)
  | [] => []
  | (key, part) :: rest => (key, reads (l.heldUnder held key) part) :: readsOfParts l held rest

end

theorem lookup_readsOfParts (l : Label) (held : Set Argument) (key : String)
    (parts : List (String × Expression)) : (readsOfParts l held parts).lookup key =
      (parts.lookup key).map (reads (l.heldUnder held key)) := by
  induction parts with
  | nil => rfl
  | cons entry rest ih =>
    obtain ⟨k, p⟩ := entry
    rw [readsOfParts, List.lookup_cons, List.lookup_cons]
    cases hk : key == k with
    | true => rw [eq_of_beq hk, Option.map_some]
    | false => exact ih

theorem reads_node (held : Set Argument) (l : Label) (parts : List (String × Expression)) :
    reads held (.node l parts) =
      l.reads (fun key => (parts.lookup key).map (reads (l.heldUnder held key)))
        (∃ p, parts.lookup Key.point = some p ∧ p.mayBeAbsent held) := by
  simp only [reads, lookup_readsOfParts]

theorem label_value_dependsOn {held : Set Argument} (l : Label)
    {part? : String → Option (Evaluation Value)} {reads? : String → Option (Set Argument)}
    {pointless : Prop}
    (hnone : ∀ key, part? key = none → reads? key = none)
    (hsome : ∀ key m, part? key = some m → ∃ xs, reads? key = some xs ∧
      m.DependsOn (l.heldUnder held key) xs)
    (hpoint : ∀ m s, part? Key.point = some m → s.AbsentWithin held →
      m.result s = .ok .absent → pointless) :
    (l.value part?).DependsOn held (l.reads reads? pointless) := by
  have steps (xs : Set Argument) := dependsOn_compositional held xs
  have under (key : String) : ((part? key).getD (throw (.missingPart key))).DependsOn
      (l.heldUnder held key) ((reads? key).getD ∅) := by
    cases hp : part? key with
    | none => exact (dependsOn_compositional _ _).throw _
    | some m =>
      obtain ⟨xs, hxs, hm⟩ := hsome key m hp
      rw [hxs]
      exact hm
  have part (key : String) (free : key ≠ Key.body ∨ l.shape.bound? = none) :
      ((part? key).getD (throw (.missingPart key))).DependsOn held ((reads? key).getD ∅) := by
    have same : l.heldUnder held key = held :=
      free.elim (l.heldUnder_of_ne held) fun unbound => l.heldUnder_of_unbound unbound held key
    have depends := under key
    rwa [same] at depends
  have body {x : Argument} (bound : l.shape.bound? = some x) :
      ((part? Key.body).getD (throw (.missingPart Key.body))).DependsOn (held \ {x})
        ((reads? Key.body).getD ∅) := by
    have depends := under Key.body
    rwa [Label.heldUnder_body bound] at depends
  unfold Label.value Label.reads
  cases hshape : l.shape with
  | constant c => exact (steps _).pure c
  | reference x => exact dependsOn_read rfl
  | application f description count =>
    have unbound : l.shape.bound? = none := congrArg Shape.bound? hshape
    refine (steps _).bind ((steps _).mapM _ fun i hi => ?_) fun args => (steps _).call f args
    refine (part (Key.arg i) (.inr unbound)).mono fun x hx => ?_
    exact ⟨i, List.mem_range.mp hi, hx⟩
  | scaling factor =>
    exact (steps _).bind (part Key.scaled (.inl (by decide))) fun v => (steps _).lift _
  | addition coefficient =>
    have left := part Key.left (.inl (by decide))
    have right := part Key.right (.inl (by decide))
    refine (steps _).bind (left.mono Set.subset_union_left) fun v =>
      (steps _).bind (right.mono Set.subset_union_right) fun w => ?_
    split
    · exact (steps _).lift _
    · exact (steps _).lift _
  | multiplication =>
    have left := part Key.left (.inl (by decide))
    have right := part Key.right (.inl (by decide))
    exact (steps _).bind (left.mono Set.subset_union_left) fun v =>
      (steps _).bind (right.mono Set.subset_union_right) fun w => (steps _).lift _
  | iteration op index =>
    have inner := body (congrArg Shape.bound? hshape)
    refine (steps _).bind ((part Key.start (.inl (by decide))).mono ?_) fun first =>
      (steps _).bind ((part Key.stop (.inl (by decide))).mono ?_) fun last =>
      (steps _).bind ((part Key.step (.inl (by decide))).mono ?_) fun step =>
      (op.overRange_dependsOn inner _).mono ?_
    · intro x hx
      exact .inl (.inl (.inr hx))
    · intro x hx
      exact .inl (.inr hx)
    · intro x hx
      exact .inr hx
    · intro x hx
      exact .inl (.inl (.inl hx))
  | difference d x =>
    have inner := body (congrArg Shape.bound? hshape)
    have width := part Key.width (.inl (by decide))
    cases hp : part? Key.point with
    | none =>
      simp only [hnone Key.point hp]
      refine (steps _).bind (width.mono Set.subset_union_right) fun step => ?_
      refine d.of_dependsOn inner none step ?_ ?_
      · intro y hy
        exact .inl (.inl hy.1)
      · intro _
        exact .inl (.inr rfl)
    | some m =>
      obtain ⟨xs, hxs, hm⟩ := hsome Key.point m hp
      rw [l.heldUnder_of_ne held (by decide)] at hm
      simp only [hxs]
      replace width : ((part? Key.width).getD (throw (.missingPart Key.width))).DependsOn held
          (((reads? Key.body).getD ∅ \ {x}) ∪ xs ∪ (reads? Key.width).getD ∅ ∪
            {y | y = x ∧ pointless}) := width.mono fun y hy => .inl (.inr hy)
      -- Whether the difference reads its own argument hangs on what the point comes to.
      refine dependsOn_bind_of_result (hm.mono ?_) ?_ ?_
      · intro y hy
        exact .inl (.inl (.inr hy))
      · intro s v hs hv
        refine (steps _).bind width fun step => ?_
        refine d.of_dependsOn inner (Evaluator.pointOf v) step ?_ ?_
        · intro y hy
          exact .inl (.inl (.inl hy))
        · intro hnone
          have absent : v = .absent := by
            cases v <;> simp_all [Evaluator.pointOf]
          exact .inr ⟨rfl, hpoint m s hp hs (absent ▸ hv)⟩
      · intro v
        exact (obeys_compositional _).bind width.present fun step =>
          d.of_obeys (inner.present.mono fun _ _ _ => .inr) _ step

theorem value_dependsOn (held : Set Argument) (t : Expression) :
    t.value.DependsOn held (t.reads held) ∧ ∀ s, s.AbsentWithin held →
      t.value.result s = .ok .absent → t.mayBeAbsent held := by
  -- Both at once: an absent point is foreseen only because no run makes an argument absent.
  induction t using induction generalizing held with
  | node l parts ih =>
    rw [value_node, reads_node, mayBeAbsent_node]
    constructor
    · refine label_value_dependsOn l ?_ ?_ ?_
      · intro key hkey
        rw [Option.map_eq_none_iff.mp hkey]
        rfl
      · intro key m hm
        obtain ⟨p, hp, rfl⟩ := Option.map_eq_some_iff.mp hm
        rw [hp]
        exact ⟨_, rfl, (ih key p (mem_of_lookup hp) (l.heldUnder held key)).1⟩
      · intro m s hm hs hr
        obtain ⟨p, hp, rfl⟩ := Option.map_eq_some_iff.mp hm
        exact ⟨p, hp, (ih Key.point p (mem_of_lookup hp) held).2 s hs hr⟩
    · intro s hs h
      refine label_mayBeAbsent_of_result l ?_ ?_ hs h
      · intro key m hm
        obtain ⟨p, hp, rfl⟩ := Option.map_eq_some_iff.mp hm
        exact (ih key p (mem_of_lookup hp) held).1.present
      · intro key m s hm hs hr
        obtain ⟨p, hp, rfl⟩ := Option.map_eq_some_iff.mp hm
        rw [hp]
        exact (ih key p (mem_of_lookup hp) held).2 s hs hr

end Expression

namespace Graph

/-- Two runs of an expression on stores that agree on what it reads: the same result and
the same events, and each argument is left as it was by both or with one value by both.
The arguments that hold an absent value at the start settle which points may be absent, save where
an operator binds them. -/
theorem calculate_depends_on_reads (g : Graph) (e : ExprId) (t : Expression)
    (h : g.HasTree e t) (s₁ s₂ : Store)
    (agree : ∀ x ∈ t.reads {x | s₁.get x = .absent}, s₁.get x = s₂.get x) :
    let first := Workspace.calculate ⟨g, s₁⟩ (.expression e)
    let second := Workspace.calculate ⟨g, s₂⟩ (.expression e)
    first.result = second.result ∧ first.events = second.events ∧
      ∀ x, first.workspace.get x = s₁.get x ∧ second.workspace.get x = s₂.get x ∨
        first.workspace.get x = second.workspace.get x := by
  intro first second
  let held : Set Argument := {x | s₁.get x = .absent}
  have body (s : Store) : Workspace.body ⟨g, s⟩ (.expression e) = t.calculation :=
    Workspace.body_of_hasTree h
  have depends : t.calculation.DependsOn held (t.reads held) := by
    rcases t.calculation_eq with hrun | ⟨fault, hrun⟩
    · rw [hrun]
      exact (t.value_dependsOn held).1
    · rw [hrun]
      exact (dependsOn_compositional held _).throw fault
  have within : AbsentWithin held { store := s₁ } := fun _ hx => hx
  have same := depends.result_eq (t := { store := s₂ }) within agree
  have effect := depends.effect (t := { store := s₂ }) within agree
  refine ⟨?_, ?_, ?_⟩
  · simp only [first, second, Workspace.calculate, Workspace.run_eq, body]
    exact same
  · obtain ⟨events, hs, ht⟩ := effect.journal
    simp only [first, second, Workspace.calculate, Workspace.run_eq, body, hs, ht]
  · intro x
    simp only [first, second, Workspace.get_calculate, body]
    exact effect.argument x

/-- The sum over `i` of `i` times the difference of `x * x` at the point `p`. -/
def sumOfDifferences : Graph where
  argumentNames := #["x", "p", "i"]
  nodes := #[
    { shape := .reference ⟨0⟩, name := "x", parts := [] },
    { shape := .reference ⟨1⟩, name := "p", parts := [] },
    { shape := .multiplication, name := "mult", parts := [(Key.left, ⟨0⟩), (Key.right, ⟨0⟩)] },
    { shape := .constant (.int 1), name := "const", parts := [] },
    { shape := .difference .forward ⟨0⟩, name := "fwd-diff",
      parts := [(Key.body, ⟨2⟩), (Key.width, ⟨3⟩), (Key.point, ⟨1⟩)] },
    { shape := .reference ⟨2⟩, name := "i", parts := [] },
    { shape := .multiplication, name := "mult", parts := [(Key.left, ⟨5⟩), (Key.right, ⟨4⟩)] },
    { shape := .constant (.int 2), name := "const", parts := [] },
    { shape := .iteration .sum ⟨2⟩, name := "sum",
      parts := [(Key.body, ⟨6⟩), (Key.start, ⟨3⟩), (Key.stop, ⟨7⟩), (Key.step, ⟨3⟩)] }]

/-- Neither the index nor the argument of a difference at a point matters. -/
theorem sumOfDifferences_depends_on_point :
    (Workspace.calculate ⟨sumOfDifferences, ⟨[.int 3, .int 7, .text "i"]⟩⟩
      (.expression ⟨8⟩)).result =
    (Workspace.calculate ⟨sumOfDifferences, ⟨[.absent, .int 7, .int 0]⟩⟩
      (.expression ⟨8⟩)).result := by
  refine (calculate_depends_on_reads sumOfDifferences ⟨8⟩ _
    (expression_eq_ok_iff.mp (show sumOfDifferences.expression ⟨8⟩ = .ok _ from rfl))
    ⟨[.int 3, .int 7, .text "i"]⟩ ⟨[.absent, .int 7, .int 0]⟩ ?_).1
  intro x hx
  have read : (x = ⟨1⟩ ∨ x = ⟨2⟩ ∨
      x = ⟨0⟩ ∧ Store.get ⟨[.int 3, .int 7, .text "i"]⟩ ⟨1⟩ = .absent) ∧ x ≠ ⟨2⟩ := by
    simpa [sumOfDifferences, Expression.reads_node, Label.reads, Label.heldUnder, Shape.bound?,
      Expression.mayBeAbsent_node, Label.mayBeAbsent, Key.body, Key.start, Key.stop, Key.step,
      Key.left, Key.right, Key.point, Key.width, List.lookup_cons] using hx
  rcases read with ⟨rfl | rfl | ⟨-, habsent⟩, hne⟩
  · rfl
  · exact absurd rfl hne
  · cases habsent

/-- At an absent point the argument of the difference does matter. -/
theorem freeArguments_do_not_suffice :
    ¬ ∀ (g : Graph) (e : ExprId) (t : Expression), g.HasTree e t →
      ∀ s₁ s₂ : Store, (∀ x ∈ t.freeArguments, s₁.get x = s₂.get x) →
        (Workspace.calculate ⟨g, s₁⟩ (.expression e)).result =
          (Workspace.calculate ⟨g, s₂⟩ (.expression e)).result := by
  intro claim
  have same := claim sumOfDifferences ⟨4⟩ _
    (expression_eq_ok_iff.mp (show sumOfDifferences.expression ⟨4⟩ = .ok _ from rfl))
    ⟨[.int 3, .absent]⟩ ⟨[.int 5, .absent]⟩ ?_
  · have seven : (Workspace.calculate ⟨sumOfDifferences, ⟨[.int 3, .absent]⟩⟩
        (.expression ⟨4⟩)).result = .ok (.int 7) := rfl
    have eleven : (Workspace.calculate ⟨sumOfDifferences, ⟨[.int 5, .absent]⟩⟩
        (.expression ⟨4⟩)).result = .ok (.int 11) := rfl
    rw [seven, eleven] at same
    cases same
  · intro x hx
    have hp : x = ⟨1⟩ := by
      simpa [sumOfDifferences, Expression.freeArguments, Expression.fold,
        Expression.foldParts, Label.reads, Key.body, Key.left, Key.right, Key.point, Key.width,
        List.lookup_cons] using hx
    rw [hp]
    rfl

end Graph

end FiniteCalculus
