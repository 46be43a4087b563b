import FiniteCalculus.Proofs.Difference.Restoration
import FiniteCalculus.Operator.Iterated

/-! Properties that a run has if its steps have them. For such a property the loops of
sums and products, and the two runs of a difference, are gone through once, here. -/

namespace FiniteCalculus
set_option autoImplicit false

namespace Evaluation

structure Compositional (P : {α : Type} → Evaluation α → Prop) : Prop where
  lift : ∀ {α : Type} (r : Except Fault α), P (lift r)
  record : ∀ e : Event, P (record e)
  bind : ∀ {α β : Type} {m : Evaluation α} {f : α → Evaluation β},
    P m → (∀ a, P (f a)) → P (m >>= f)

namespace Compositional
variable {P : {α : Type} → Evaluation α → Prop} {α β : Type}

theorem pure (h : Compositional P) (a : α) : P (Pure.pure a : Evaluation α) := h.lift (.ok a)

theorem throw (h : Compositional P) (fault : Fault) :
    P (MonadExcept.throw fault : Evaluation α) := h.lift (.error fault)

theorem call (h : Compositional P) (f : NumericFunction) (args : List Value) :
    P (Evaluation.call f args) := h.bind (h.record _) fun _ => h.lift _

theorem lift_bind (h : Compositional P) {r : Except Fault α} {f : α → Evaluation β}
    (hf : ∀ a, r = .ok a → P (f a)) : P (Evaluation.lift r >>= f) := by
  cases r with
  | error fault => exact h.throw fault
  | ok a => exact hf a rfl

theorem mapM (h : Compositional P) {f : α → Evaluation β} (as : List α)
    (hf : ∀ a ∈ as, P (f a)) : P (as.mapM f) := by
  induction as with
  | nil => exact h.pure []
  | cons a as ih =>
    rw [List.mapM_cons]
    refine h.bind (hf a List.mem_cons_self) fun b => ?_
    refine h.bind (ih fun a ha => hf a (List.mem_cons_of_mem _ ha)) fun bs => ?_
    exact h.pure (b :: bs)

section
variable {r : IndexRange} {visit : Value → Value → Evaluation Value}

theorem walk (h : Compositional P) (hlast : r.last.isReal) (hstep : r.step.isReal)
    (hvisit : ∀ total v, v.isReal → P (visit total v)) (d : Direction) (n : Nat)
    {index : Value} (hindex : index.isReal) (total : Value) :
    P (r.walk d visit n index total) := by
  induction n generalizing index total with
  | zero => exact h.throw _
  | succ n ih =>
    unfold IndexRange.walk
    split
    · refine h.bind (hvisit total index hindex) fun total => ?_
      refine h.lift_bind fun next hnext => ?_
      exact ih (Value.isReal_of_add hindex hstep hnext) total
    · exact hvisit total r.last hlast

theorem fold (h : Compositional P) (hfirst : r.first.isReal) (hlast : r.last.isReal)
    (hstep : r.step.isReal) (hvisit : ∀ total v, v.isReal → P (visit total v)) (total : Value) :
    P (r.fold visit total) := by
  unfold IndexRange.fold
  split
  · exact h.walk hlast hstep hvisit _ _ hfirst total
  · split
    · exact hvisit total r.first hfirst
    · exact h.bind (h.record _) fun _ => h.pure total

end

variable {body : Evaluation Value}

theorem overRange (h : Compositional P) (op : Iteration) {index : Argument}
    (hbody : ∀ v : Value, v.isReal → P (valueAt index v body)) (r : IndexRange) :
    P (op.overRange body index r) := by
  have hvisit (total v : Value) (hv : v.isReal) : P (op.visit body index total v) :=
    h.bind (hbody v hv) fun term => h.lift _
  refine h.lift_bind fun undefined hr => ?_
  cases undefined with
  | true => exact h.bind (h.record _) fun _ => h.pure _
  | false =>
    have real := Value.isReal_of_anyNaN hr
    exact h.fold (real r.first (by simp)) (real r.last (by simp)) (real r.step (by simp))
      hvisit op.start

theorem inside (h : Compositional P) (d : Difference) {x : Argument} {point : Option Value}
    {current step : Value} (hbody : point = none → P body)
    (hsample : ∀ q ∈ d.points point current step, P (sample body x q)) :
    P (d.inside body x point current step) := by
  have pair {m n : Evaluation Value} (hm : P m) (hn : P n)
      (f : Value → Value → Except Fault Value) :
      P (m >>= fun v => n >>= fun w => Evaluation.lift (f v w)) :=
    h.bind hm fun v => h.bind hn fun w => h.lift (f v w)
  cases point with
  | some p =>
    cases d with
    | forward =>
      simp only [Difference.inside, Difference.atPoint_forward]
      exact pair (hsample _ (by simp [Difference.points]))
        (hsample _ (by simp [Difference.points])) Value.sub
    | backward =>
      simp only [Difference.inside, Difference.atPoint_backward]
      exact pair (hsample _ (by simp [Difference.points]))
        (hsample _ (by simp [Difference.points])) Value.sub
  | none =>
    simp only [Difference.inside, Difference.atCurrent_eq]
    refine pair (hbody rfl) (hsample _ ?_) d.between
    cases d <;> simp [Difference.points, Difference.neighbour]

end Compositional

end Evaluation

end FiniteCalculus
