import FiniteCalculus.Proofs.Evaluation.Changes
import FiniteCalculus.Proofs.Evaluation.TwoRuns
import Mathlib.Order.BooleanAlgebra.Set

/-! What an evaluation depends on: two runs from situations that agree on these arguments
come to the same result and leave the same behind. Absent values are followed along,
because a difference reads its own argument when its point turns out to be absent. -/

namespace FiniteCalculus
set_option autoImplicit false

open Situation

/-- No argument becomes absent. -/
def ChangeLaw.present : ChangeLaw where
  allows _ v w := w = .absent → v = .absent
  refl _ _ := id
  trans huv hvw hw := huv (hvw hw)

theorem Evaluation.Obeys.absentWithin {α : Type} {m : Evaluation α} (h : m.Obeys .present)
    {held : Set Argument} {s : Situation} (hs : s.AbsentWithin held) :
    (m.final s).AbsentWithin held :=
  fun x hx => hs x (h s x hx)

namespace Evaluation
variable {α β : Type} {held xs ys : Set Argument}

/-- The result and the effect depend on the given arguments only, as long as no argument
outside `held` is absent. -/
structure DependsOn (m : Evaluation α) (held xs : Set Argument) : Prop where
  present : m.Obeys .present
  result_eq : ∀ {s t}, s.AbsentWithin held → AgreeOn xs s t → m.result s = m.result t
  effect : ∀ {s t}, s.AbsentWithin held → AgreeOn xs s t →
    SameEffect s t (m.final s) (m.final t)

theorem DependsOn.mono {m : Evaluation α} (h : m.DependsOn held xs) (sub : xs ⊆ ys) :
    m.DependsOn held ys :=
  ⟨h.present, fun hs agree => h.result_eq hs (agree.mono sub),
    fun hs agree => h.effect hs (agree.mono sub)⟩

/-- What follows a run needs to depend on the arguments only for values that the run can
come to. -/
theorem dependsOn_bind_of_result {m : Evaluation α} {f : α → Evaluation β}
    (hm : m.DependsOn held xs)
    (hf : ∀ s a, s.AbsentWithin held → m.result s = .ok a → (f a).DependsOn held xs)
    (present : ∀ a, (f a).Obeys .present) : DependsOn (m >>= f) held xs := by
  refine ⟨(obeys_compositional _).bind hm.present present, ?_, ?_⟩
  · intro s t hs agree
    have same := hm.result_eq hs agree
    rw [result_bind, result_bind, ← same]
    cases hr : m.result s with
    | error fault => rfl
    | ok a =>
      exact (hf s a hs hr).result_eq (hm.present.absentWithin hs)
        ((hm.effect hs agree).agreeOn agree)
  · intro s t hs agree
    have same := hm.result_eq hs agree
    have effect := hm.effect hs agree
    rw [final_bind, final_bind, ← same]
    cases hr : m.result s with
    | error fault => exact effect
    | ok a =>
      exact effect.trans ((hf s a hs hr).effect (hm.present.absentWithin hs)
        (effect.agreeOn agree))

theorem dependsOn_compositional (held xs : Set Argument) :
    Compositional (DependsOn · held xs) where
  lift r := by
    refine ⟨(obeys_compositional _).lift r, ?_, ?_⟩
    · intro s t _ _
      rw [result_lift, result_lift]
    · intro s t _ _
      rw [final_lift, final_lift]
      exact SameEffect.refl s t
  record e :=
    ⟨(obeys_compositional _).record e, fun _ _ => rfl, fun _ _ => SameEffect.record _ _ e⟩
  bind hm hf := dependsOn_bind_of_result hm (fun _ a _ _ => hf a) fun a => (hf a).present

theorem dependsOn_read {x : Argument} (hx : x ∈ xs) : (read x).DependsOn held xs :=
  ⟨obeys_read x, fun _ agree => congrArg Except.ok (agree x hx), fun _ _ => SameEffect.refl _ _⟩

theorem dependsOn_valueAt {body : Evaluation Value} {x : Argument} {v : Value}
    (hv : v ≠ .absent) (hbody : body.DependsOn (held \ {x}) xs) :
    (valueAt x v body).DependsOn held (xs \ {x}) := by
  refine ⟨obeys_valueAt (fun u hw => absurd hw hv) hbody.present, ?_, ?_⟩
  · intro s t hs agree
    rw [result_valueAt, result_valueAt]
    exact hbody.result_eq (hs.assign x hv) (agree.assign v)
  · intro s t hs agree
    rw [final_valueAt, final_valueAt]
    exact (SameEffect.assign s t x v).trans (hbody.effect (hs.assign x hv) (agree.assign v))

end Evaluation

open Evaluation

/-- What the index held before is overwritten, by a number, before the body can read it. -/
theorem Iteration.overRange_dependsOn {held xs : Set Argument} {body : Evaluation Value}
    (op : Iteration) {index : Argument} (hbody : body.DependsOn (held \ {index}) xs)
    (r : IndexRange) : (op.overRange body index r).DependsOn held (xs \ {index}) :=
  (dependsOn_compositional held _).overRange op
    (fun _ hv => dependsOn_valueAt (Value.ne_absent_of_isReal hv) hbody) r

namespace Difference
variable {held xs ys : Set Argument} {body : Evaluation Value} {x : Argument}

theorem points_ne_absent (d : Difference) {point : Option Value} {current : Value}
    (real : (point.getD current).isReal) (step : Value) :
    ∀ q ∈ d.points point current step, q ≠ .ok .absent := by
  have given {v : Value} (hv : v.isReal) : Except.ok (ε := Fault) v ≠ .ok .absent := by
    intro h
    cases h
    cases hv
  intro q hq
  cases point <;> cases d <;>
    simp only [points, List.mem_cons, List.not_mem_nil, or_false] at hq <;>
    rcases hq with rfl | rfl
  · exact given real
  · exact Value.add_ne_absent _ _
  · exact given real
  · exact Value.sub_ne_absent _ _
  · exact Value.add_ne_absent _ _
  · exact given real
  · exact given real
  · exact Value.sub_ne_absent _ _

theorem inside_dependsOn (d : Difference) (hbody : body.DependsOn (held \ {x}) xs)
    {point : Option Value} {current : Value} (real : (point.getD current).isReal) (step : Value)
    (sub : xs \ {x} ⊆ ys) (hx : point = none → x ∈ ys ∧ x ∉ held) :
    (d.inside body x point current step).DependsOn held ys := by
  refine (dependsOn_compositional held ys).inside d (fun hp => ?_) fun q hq => ?_
  · obtain ⟨read, present⟩ := hx hp
    rw [Set.sdiff_singleton_eq_self present] at hbody
    refine hbody.mono fun y hy => ?_
    by_cases h : y = x
    · exact h ▸ read
    · exact sub ⟨hy, h⟩
  · refine (dependsOn_compositional held ys).lift_bind fun v hv => ?_
    have present : v ≠ .absent := by
      rintro rfl
      exact d.points_ne_absent real step q hq hv
    exact (dependsOn_valueAt present hbody).mono sub

/-- A difference reads its own argument only if it has no point, and it runs its body only while
that argument holds a number. -/
theorem of_dependsOn (d : Difference) (hbody : body.DependsOn (held \ {x}) xs)
    (point : Option Value) (step : Value) (sub : xs \ {x} ⊆ ys) (hx : point = none → x ∈ ys) :
    (d.of body x point step).DependsOn held ys := by
  have place {s t : Situation} (agree : AgreeOn ys s t) :
      point.getD (s.store.get x) = point.getD (t.store.get x) := by
    cases point with
    | none => exact agree x (hx rfl)
    | some p => rfl
  have inside_eq {s t : Situation} (agree : AgreeOn ys s t) :
      d.inside body x point (s.store.get x) step = d.inside body x point (t.store.get x) step := by
    cases point with
    | none => rw [agree x (hx rfl)]
    | some p => rfl
  have inside {s : Situation} (hs : s.AbsentWithin held)
      (h : (point.getD (s.store.get x)).isNaN = .ok false) : ∃ held', s.AbsentWithin held' ∧
      (d.inside body x point (s.store.get x) step).DependsOn held' ys := by
    have real := Value.isReal_of_isNaN h
    cases point with
    | some p => exact ⟨held, hs, d.inside_dependsOn hbody real step sub nofun⟩
    | none =>
      refine ⟨held \ {x}, hs.sdiff (Value.ne_absent_of_isReal real), ?_⟩
      refine d.inside_dependsOn ?_ real step sub fun hp => ⟨hx hp, fun present => present.2 rfl⟩
      rw [sdiff_idem]
      exact hbody
  refine ⟨d.of_obeys (hbody.present.mono fun _ _ _ => .inr) point step, ?_, ?_⟩
  · intro s t hs agree
    rw [result_of, result_of, ← place agree, ← inside_eq agree]
    split
    · rfl
    · rfl
    · rename_i h
      obtain ⟨held', hs', depends⟩ := inside hs h
      exact depends.result_eq hs' agree
  · intro s t hs agree
    rw [final_of, final_of, ← place agree, ← inside_eq agree]
    split
    · rename_i h
      obtain ⟨held', hs', depends⟩ := inside hs h
      exact (depends.effect hs' agree).giveBack x
    · exact SameEffect.refl s t

end Difference

end FiniteCalculus
