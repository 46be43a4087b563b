import FiniteCalculus.Proofs.Difference.Restoration
import FiniteCalculus.Proofs.Expression.Assigned
import FiniteCalculus.Proofs.Expression.FreeArguments
import FiniteCalculus.Proofs.Expression.Occurrences
import FiniteCalculus.Proofs.Value.Negation

/-! The variants of a difference. Of a body that leaves all arguments alone and goes only by their
values, the order of its two runs does not matter, so a difference at the current value is that at
the same value given as a point, and a forward difference along the negative step is the negative
of the backward difference. -/

namespace FiniteCalculus
set_option autoImplicit false

namespace Evaluation

/-- The body leaves every argument as it was, and what it comes to depends on the values of the
arguments only. -/
structure Pure (body : Evaluation Value) : Prop where
  keeps : ∀ s y, (body.final s).store.get y = s.store.get y
  reads : ∀ s t : Situation, (∀ y, s.store.get y = t.store.get y) → body.result s = body.result t

end Evaluation

open Evaluation

/-- A tree without sums and products is such a body. -/
theorem Expression.pure_value {t : Expression}
    (plain : ∀ l ∈ t.labels, ∀ op index, l.shape ≠ .iteration op index) : t.value.Pure where
  keeps s y := by
    have visited : ∀ visit ∈ t.visits [] "", ∀ op index,
        visit.label.shape ≠ .iteration op index :=
      fun visit mem => plain visit.label (List.mem_map_of_mem mem)
    have obeys := t.value_obeys s y
    rw [assigned_eq_nil_of_visits visited] at obeys
    exact obeys.resolve_left List.not_mem_nil
  reads s t' same :=
    (t.value_dependsOn Set.univ).1.result_eq (fun _ _ => trivial) fun y _ => same y

/-- Both come to the same value, or neither to any. -/
def SameOutcome (r r' : Except Fault Value) : Prop :=
  (∃ v, r = .ok v ∧ r' = .ok v) ∨ (∃ fault, r = .error fault) ∧ ∃ fault, r' = .error fault

theorem SameOutcome.refl (r : Except Fault Value) : SameOutcome r r := by
  cases r with
  | ok v => exact .inl ⟨v, rfl, rfl⟩
  | error fault => exact .inr ⟨⟨fault, rfl⟩, fault, rfl⟩

section
variable {r r' r'' : Except Fault Value}

theorem SameOutcome.symm (h : SameOutcome r r') : SameOutcome r' r := by
  rcases h with ⟨v, here, there⟩ | ⟨here, there⟩
  · exact .inl ⟨v, there, here⟩
  · exact .inr ⟨there, here⟩

theorem SameOutcome.trans (h : SameOutcome r r') (h' : SameOutcome r' r'') :
    SameOutcome r r'' := by
  rcases h with ⟨v, here, there⟩ | ⟨here, _, there⟩
  · rw [there] at h'
    rwa [here]
  · rw [there] at h'
    rcases h' with ⟨_, none, _⟩ | ⟨_, further⟩
    · cases none
    · exact .inr ⟨here, further⟩

end

section
variable (r r' : Except Fault Value)

theorem sameOutcome_exchange (f : Value → Value → Except Fault Value) :
    SameOutcome (r >>= fun v => r' >>= fun w => f v w) (r' >>= fun w => r >>= fun v => f v w) := by
  cases r with
  | error fault => cases r' <;> exact .inr ⟨⟨_, rfl⟩, _, rfl⟩
  | ok v =>
    cases r' with
    | error fault => exact .inr ⟨⟨_, rfl⟩, _, rfl⟩
    | ok w => exact .refl _

/-- The runs may be in either order. -/
theorem opposite_of_runs {r'' : Except Fault Value}
    (same : SameOutcome r'' (r >>= fun v => r' >>= fun w => w.sub v)) :
    Value.Opposite r'' (r >>= fun v => r' >>= fun w => v.sub w) := by
  cases r with
  | error fault =>
    rcases same with ⟨v, _, none⟩ | ⟨fails, _⟩
    · cases none
    · exact .inr ⟨fails, fault, rfl⟩
  | ok v =>
    cases r' with
    | error fault =>
      rcases same with ⟨v, _, none⟩ | ⟨fails, _⟩
      · cases none
      · exact .inr ⟨fails, fault, rfl⟩
    | ok w =>
      change SameOutcome r'' (w.sub v) at same
      rcases same with ⟨u, here, there⟩ | ⟨here, fault, there⟩
      · rw [here, ← there]
        exact Value.sub_opposite w v
      · rcases Value.sub_opposite w v with ⟨u, _, some, _⟩ | ⟨_, fails⟩
        · cases there.symm.trans some
        · exact .inr ⟨here, fails⟩

end

namespace Evaluation

/-- What the body comes to while the argument holds a value. -/
def resultAt (body : Evaluation Value) (x : Argument) (s : Situation) (v : Value) :
    Except Fault Value := body.result (s.assign x v)

namespace Pure
variable {body : Evaluation Value} (pure : body.Pure) (x : Argument) {s t : Situation}
include pure

theorem result_sample (others : ∀ y ≠ x, t.store.get y = s.store.get y)
    (point : Except Fault Value) :
    (sample body x point).result t = point >>= resultAt body x s := by
  rw [sample, result_bind, result_lift]
  cases point with
  | error fault => rfl
  | ok v =>
    refine pure.reads _ _ fun y => ?_
    rw [final_lift, Situation.get_assign, Situation.get_assign]
    split
    · rfl
    · next apart => exact others y apart

theorem final_sample (point : Except Fault Value) :
    ∀ y ≠ x, ((sample body x point).final s).store.get y = s.store.get y := by
  intro y apart
  rw [sample, final_bind, result_lift, final_lift]
  cases point with
  | error fault => rfl
  | ok v => exact (pure.keeps _ y).trans (Situation.get_assign_ne s apart v)

theorem result_at_current : body.result s = resultAt body x s (s.store.get x) := by
  refine pure.reads _ _ fun y => ?_
  rw [Situation.get_assign]
  split
  · next same => rw [same]
  · rfl

/-- Two runs at points, one after the other, do not see each other. -/
theorem result_samples (p q : Except Fault Value) (f : Value → Value → Except Fault Value) :
    (sample body x p >>= fun v => sample body x q >>= fun w => lift (f v w)).result s =
      (p >>= resultAt body x s) >>= fun v => (q >>= resultAt body x s) >>= fun w => f v w := by
  rw [result_bind, pure.result_sample x fun _ _ => rfl]
  cases p >>= resultAt body x s with
  | error fault => rfl
  | ok v =>
    change result _ _ = _
    rw [result_bind, pure.result_sample x (pure.final_sample x p)]
    cases q >>= resultAt body x s with
    | error fault => rfl
    | ok w => exact result_lift _ _

theorem result_current_sample (q : Except Fault Value)
    (f : Value → Value → Except Fault Value) :
    (body >>= fun v => sample body x q >>= fun w => lift (f v w)).result s =
      resultAt body x s (s.store.get x) >>= fun v => (q >>= resultAt body x s) >>= fun w =>
        f v w := by
  rw [result_bind, pure.result_at_current x]
  cases resultAt body x s (s.store.get x) with
  | error fault => rfl
  | ok v =>
    change result _ _ = _
    rw [result_bind, pure.result_sample x fun y _ => pure.keeps s y]
    cases q >>= resultAt body x s with
    | error fault => rfl
    | ok w => exact result_lift _ _

end Pure

end Evaluation

namespace Difference

section
variable {body : Evaluation Value} (pure : body.Pure) (d : Difference) (x : Argument)
  (point : Option Value) (step : Value) (s : Situation)
include pure

/-- Forward, the value at the neighbour less that at the point, in one order or the other. -/
theorem forward_outcome {p : Value} (hp : point.getD (s.store.get x) = p) : SameOutcome
    ((forward.inside body x point (s.store.get x) step).result s)
    (resultAt body x s p >>= fun v => (p.add step >>= resultAt body x s) >>= fun w =>
      w.sub v) := by
  subst hp
  cases point with
  | some p =>
    rw [inside, atPoint_forward, pure.result_samples]
    exact sameOutcome_exchange _ (resultAt body x s p) Value.sub
  | none =>
    rw [inside, atCurrent_eq, pure.result_current_sample]
    exact .refl _

theorem backward_result {p : Value} (hp : point.getD (s.store.get x) = p) :
    (backward.inside body x point (s.store.get x) step).result s =
      resultAt body x s p >>= fun v => (p.sub step >>= resultAt body x s) >>= fun w =>
        v.sub w := by
  subst hp
  cases point with
  | some p =>
    rw [inside, atPoint_backward, pure.result_samples]
    rfl
  | none =>
    rw [inside, atCurrent_eq, pure.result_current_sample]
    rfl

theorem of_keeps (y : Argument) :
    ((d.of body x point step).final s).store.get y = s.store.get y := by
  have obeys : body.Obeys (.within []) := fun s y => .inr (pure.keeps s y)
  exact (d.of_obeys (obeys.mono fun _ _ _ => .inr) point step s y).resolve_left List.not_mem_nil

theorem current_outcome : SameOutcome ((d.of body x none step).result s)
    ((d.of body x (some (s.store.get x)) step).result s) := by
  rw [result_of, result_of, Option.getD_none, Option.getD_some]
  cases (s.store.get x).isNaN with
  | error fault => exact .refl _
  | ok undefined =>
    cases undefined with
    | true => exact .refl _
    | false =>
      cases d with
      | forward =>
        have atPoint := forward_outcome pure x (some (s.store.get x)) step s rfl
        have atCurrent := forward_outcome pure x none step s rfl
        exact atCurrent.trans atPoint.symm
      | backward =>
        have atPoint := backward_result pure x (some (s.store.get x)) step s rfl
        have atCurrent := backward_result pure x none step s rfl
        exact (atCurrent.trans atPoint.symm) ▸ .refl _

/-- The two variants run the body at the same points, in whichever order. -/
theorem opposite_outcome {step : Value} (real : step.isReal)
    (signed : ¬ (step.integer? = some 0 ∧ point.getD (s.store.get x) = .double (-0.0))) :
    Value.Opposite ((forward.of body x point step.negate).result s)
      ((backward.of body x point step).result s) := by
  rw [result_of, result_of]
  cases hp : (point.getD (s.store.get x)).isNaN with
  | error fault => exact .inr ⟨⟨fault, rfl⟩, fault, rfl⟩
  | ok undefined =>
    cases undefined with
    | true =>
      exact .inl ⟨_, _, rfl, rfl, .double (.inl ⟨by decide, by decide⟩)⟩
    | false =>
      have forward := forward_outcome pure x point step.negate s rfl
      rw [Value.add_negate (Value.isReal_of_isNaN hp) real signed] at forward
      change Value.Opposite _ ((backward.inside body x point (s.store.get x) step).result s)
      rw [backward_result pure x point step s rfl]
      exact opposite_of_runs _ _ forward

/-- Of a body that leaves the arguments alone and goes only by their values, as that of any tree
without sums and products does, a difference at the current value is that at the same value given
as a point. The forward difference along the negative step is the negative of the backward
difference, unless the step is the integer zero, which has no sign, and the point the negative
zero. All of them leave every argument as it was. -/
theorem variants_agree {step : Value} (real : step.isReal) :
    (∀ t : Expression, (∀ l ∈ t.labels, ∀ op index, l.shape ≠ .iteration op index) →
      t.value.Pure) ∧
    (∀ d : Difference, SameOutcome ((d.of body x none step).result s)
      ((d.of body x (some (s.store.get x)) step).result s)) ∧
    (∀ point : Option Value,
      ¬ (step.integer? = some 0 ∧ point.getD (s.store.get x) = .double (-0.0)) →
      Value.Opposite ((forward.of body x point step.negate).result s)
        ((backward.of body x point step).result s)) ∧
    ∀ (d : Difference) (point : Option Value) (step : Value) (y : Argument),
      ((d.of body x point step).final s).store.get y = s.store.get y :=
  ⟨fun _ plain => Expression.pure_value plain, fun d => current_outcome pure d x step s,
    fun point signed => opposite_outcome pure x point s real signed,
    fun d point step y => of_keeps pure d x point step s y⟩

end

/-- A function of `x`, as a tree. -/
def applied (f : NumericFunction) : Expression :=
  .node ⟨⟨1⟩, .application f f.name 1, f.name⟩ [(Key.arg 0, .node ⟨⟨0⟩, .reference ⟨0⟩, "x"⟩ [])]

theorem applied_plain (f : NumericFunction) :
    ∀ l ∈ (applied f).labels, ∀ op index, l.shape ≠ .iteration op index := by
  simp [applied, Expression.labels_node]

/-- What the power of exponent `-1` is, with an infinity at either zero. -/
def inverse : NumericFunction := .ofDouble "inverse" fun x => 1.0 / x

/-- From one forward along the negative of one half, and the other way round. -/
theorem inverse_before_one :
    let body := (applied inverse).value
    let s : Situation := { store := ⟨[.double 1.0]⟩ }
    (backward.of body ⟨0⟩ none (.double 0.5)).result s = .ok (.double (-1.0)) ∧
      Value.Opposite ((forward.of body ⟨0⟩ none (.double (-0.5))).result s) (.ok (.double (-1.0))) ∧
      (backward.of body ⟨0⟩ (some (.double 1.0)) (.double 0.5)).result s =
        .ok (.double (-1.0)) := by
  intro body s
  obtain ⟨plain, current, opposite, _⟩ := variants_agree
    (Expression.pure_value (applied_plain inverse)) ⟨0⟩ s
    (show (Value.double 0.5).isReal from rfl)
  have value : (backward.of body ⟨0⟩ none (.double 0.5)).result s = .ok (.double (-1.0)) := rfl
  refine ⟨value, value ▸ opposite none ?_, ?_⟩
  · rintro ⟨none, _⟩
    cases none
  · rcases current backward with ⟨v, here, there⟩ | ⟨⟨_, none⟩, _⟩
    · exact there.trans (here.symm.trans value)
    · cases none

/-- At the negative zero a step of the integer zero leads to the other zero if it is added, and not
if it is subtracted. -/
theorem integer_zero_next_to_negative_zero :
    let body := (applied inverse).value
    let s : Situation := { store := ⟨[.double 1.0]⟩ }
    let point := some (Value.double (-0.0))
    body.Pure ∧ (Value.int 0).isReal ∧
      ¬ Value.Opposite ((forward.of body ⟨0⟩ point (Value.int 0).negate).result s)
        ((backward.of body ⟨0⟩ point (.int 0)).result s) := by
  intro body s point
  refine ⟨Expression.pure_value (applied_plain inverse), rfl, ?_⟩
  have forward : (forward.of body ⟨0⟩ point (Value.int 0).negate).result s =
      .ok (.double Double.infinity) := rfl
  have backward : (backward.of body ⟨0⟩ point (.int 0)).result s = .ok .nan := rfl
  rw [forward, backward]
  rintro (⟨v, v', here, there, alike⟩ | ⟨⟨_, none⟩, _⟩)
  · cases here
    cases there
    cases alike with
    | double alike =>
      rcases alike with ⟨undefined, _⟩ | same
      · exact absurd undefined (by decide)
      · exact absurd same (by decide)
  · cases none

end Difference

end FiniteCalculus
