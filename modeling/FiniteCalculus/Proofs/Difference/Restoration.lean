import FiniteCalculus.Proofs.Difference.Samples
import FiniteCalculus.Proofs.Value.Reals

/-! Differences of any body: where the body is run, what the difference comes to, and
that the argument is given back whichever way the difference is left. -/

namespace FiniteCalculus
set_option autoImplicit false

open Evaluation

namespace Evaluation

/-- In the situation, the evaluation is a run of the body at the point, if there is one. -/
def RunsAt (point : Except Fault Value) (body : Evaluation Value) (x : Argument)
    (m : Evaluation Value) (s : Situation) : Prop :=
  match point with
  | .error fault => m s = .error fault s
  | .ok p => ∃ start, Situation.Holding x p s start ∧ m s = body start

/-- A run of the body at a point that has yet to be computed. -/
def sample (body : Evaluation Value) (x : Argument) (point : Except Fault Value) :
    Evaluation Value := do
  valueAt x (← lift point) body

theorem runsAt_self (body : Evaluation Value) (x : Argument) (s : Situation) :
    RunsAt (.ok (s.store.get x)) body x body s := ⟨s, .inr ⟨rfl, rfl⟩, rfl⟩

theorem runsAt_sample (point : Except Fault Value) (body : Evaluation Value) (x : Argument)
    (s : Situation) : RunsAt point body x (sample body x point) s := by
  cases point with
  | error fault => rfl
  | ok p => exact ⟨s.assign x p, .inl rfl, rfl⟩

/-- Two runs of a body at points, one after the other, and a value from theirs. -/
theorem samples_pair {p q : Except Fault Value} {body : Evaluation Value} {x : Argument}
    {m n : Evaluation Value} {s : Situation} (hm : RunsAt p body x m s)
    (hn : ∀ t, RunsAt q body x n t) (f : Value → Value → Except Fault Value) :
    ∃ starts values,
      Samples body x [p, q] s starts values
        (final (m >>= fun v => n >>= fun w => lift (f v w)) s) ∧
      ((∃ fault, values = .error fault ∧
          result (m >>= fun v => n >>= fun w => lift (f v w)) s = .error fault) ∨
        ∃ v w, values = .ok [v, w] ∧
          result (m >>= fun v => n >>= fun w => lift (f v w)) s = f v w) := by
  simp only [final_bind, result_bind, final_lift, result_lift]
  cases p with
  | error fault =>
    obtain ⟨hr, hf⟩ := apply_eq_error_iff.mp (show m s = .error fault s from hm)
    rw [hr, hf]
    exact ⟨[], .error fault, .noPoint s, .inl ⟨fault, rfl, rfl⟩⟩
  | ok p =>
    obtain ⟨start, hold, run⟩ := hm
    cases hb : body start with
    | error fault t =>
      obtain ⟨hr, hf⟩ := apply_eq_error_iff.mp (run.trans hb)
      rw [hr, hf]
      exact ⟨[start], .error fault, .faulted hold hb, .inl ⟨fault, rfl, rfl⟩⟩
    | ok v t =>
      obtain ⟨hr, hf⟩ := apply_eq_ok_iff.mp (run.trans hb)
      rw [hr, hf]
      have next := hn t
      cases q with
      | error fault =>
        obtain ⟨hr', hf'⟩ := apply_eq_error_iff.mp (show n t = .error fault t from next)
        simp only [hr', hf']
        exact ⟨[start], .error fault, .returned hold hb (.noPoint t), .inl ⟨fault, rfl, rfl⟩⟩
      | ok q =>
        obtain ⟨start', hold', run'⟩ := next
        cases hb' : body start' with
        | error fault u =>
          obtain ⟨hr', hf'⟩ := apply_eq_error_iff.mp (run'.trans hb')
          simp only [hr', hf']
          exact ⟨[start, start'], .error fault, .returned hold hb (.faulted hold' hb'),
            .inl ⟨fault, rfl, rfl⟩⟩
        | ok w u =>
          obtain ⟨hr', hf'⟩ := apply_eq_ok_iff.mp (run'.trans hb')
          simp only [hr', hf']
          exact ⟨[start, start'], .ok [v, w],
            .returned hold hb (.returned hold' hb' (.done u)), .inr ⟨v, w, rfl, rfl⟩⟩

end Evaluation

namespace Difference

/-- The points of a difference, in the order in which its body is run at them. -/
def points (d : Difference) (point : Option Value) (current step : Value) :
    List (Except Fault Value) :=
  match d, point with
  | forward, some p => [p.add step, .ok p]
  | forward, none => [.ok current, current.add step]
  | backward, some p => [.ok p, p.sub step]
  | backward, none => [.ok current, current.sub step]

/-- What the values at the points, in that order, come to. -/
def ofValues (d : Difference) (point : Option Value) (v w : Value) : Except Fault Value :=
  match d, point with
  | forward, none => w.sub v
  | _, _ => v.sub w

theorem length_points (d : Difference) (point : Option Value) (current step : Value) :
    (d.points point current step).length = 2 := by
  cases d <;> cases point <;> rfl

/-- What a difference does between the test of its point and giving the argument back. -/
def inside (d : Difference) (body : Evaluation Value) (x : Argument) (point : Option Value)
    (current step : Value) : Evaluation Value :=
  match point with
  | some point => d.atPoint body x point step
  | none => d.atCurrent body x current step

theorem atPoint_forward (body : Evaluation Value) (x : Argument) (point step : Value) :
    forward.atPoint body x point step =
      sample body x (point.add step) >>= fun v => sample body x (.ok point) >>= fun w =>
        lift (v.sub w) := by
  simp only [sample, bind_assoc]
  rfl

theorem atPoint_backward (body : Evaluation Value) (x : Argument) (point step : Value) :
    backward.atPoint body x point step =
      sample body x (.ok point) >>= fun v => sample body x (point.sub step) >>= fun w =>
        lift (v.sub w) := by
  simp only [sample, bind_assoc]
  rfl

theorem atCurrent_eq (d : Difference) (body : Evaluation Value) (x : Argument)
    (current step : Value) :
    d.atCurrent body x current step =
      body >>= fun v => sample body x (d.neighbour current step) >>= fun w =>
        lift (d.between v w) := by
  simp only [sample, bind_assoc]
  rfl

section
variable (d : Difference) (body : Evaluation Value) (x : Argument) (point : Option Value)
  (step : Value) (s : Situation)

theorem of_apply :
    d.of body x point step s =
      match (point.getD (s.store.get x)).isNaN with
      | .error fault => .error fault s
      | .ok true => .ok Value.nan s
      | .ok false =>
        restoring x (s.store.get x) (d.inside body x point (s.store.get x) step) s := by
  change (lift (point.getD (s.store.get x)).isNaN >>= fun undefined =>
    if undefined = true then pure Value.nan
    else restoring x (s.store.get x) (d.inside body x point (s.store.get x) step)) s = _
  cases (point.getD (s.store.get x)).isNaN with
  | error fault => rfl
  | ok undefined => cases undefined <;> rfl

theorem result_of :
    (d.of body x point step).result s =
      match (point.getD (s.store.get x)).isNaN with
      | .error fault => .error fault
      | .ok true => .ok Value.nan
      | .ok false => (d.inside body x point (s.store.get x) step).result s := by
  rw [result, of_apply]
  cases (point.getD (s.store.get x)).isNaN with
  | error fault => rfl
  | ok undefined =>
    cases undefined with
    | true => rfl
    | false => exact result_restoring ..

theorem final_of :
    (d.of body x point step).final s =
      match (point.getD (s.store.get x)).isNaN with
      | .ok false =>
        ((d.inside body x point (s.store.get x) step).final s).assign x (s.store.get x)
      | _ => s := by
  rw [final, of_apply]
  cases (point.getD (s.store.get x)).isNaN with
  | error fault => rfl
  | ok undefined =>
    cases undefined with
    | true => rfl
    | false => exact final_restoring ..

/-- The points at which the body is run inside a difference, and what it comes to. -/
theorem samples_inside :
    ∃ starts values,
      Samples body x (d.points point (s.store.get x) step) s starts values
        ((d.inside body x point (s.store.get x) step).final s) ∧
      ((∃ fault, values = .error fault ∧
          (d.inside body x point (s.store.get x) step).result s = .error fault) ∨
        ∃ v w, values = .ok [v, w] ∧
          (d.inside body x point (s.store.get x) step).result s = d.ofValues point v w) := by
  cases point with
  | some p =>
    cases d with
    | forward =>
      simp only [inside, atPoint_forward]
      exact samples_pair (runsAt_sample ..) (fun t => runsAt_sample ..) Value.sub
    | backward =>
      simp only [inside, atPoint_backward]
      exact samples_pair (runsAt_sample ..) (fun t => runsAt_sample ..) Value.sub
  | none =>
    simp only [inside, atCurrent_eq]
    cases d with
    | forward =>
      exact samples_pair (runsAt_self ..) (fun t => runsAt_sample ..) fun v w => w.sub v
    | backward => exact samples_pair (runsAt_self ..) (fun t => runsAt_sample ..) Value.sub

end

/-- Whatever the body does, the argument gets back what it held, on every exit. At an
undefined point, or one that is no number, nothing is run and nothing assigned.
Otherwise the body is run at the points, each once and in order as long as runs return,
and the difference is that of the two values found. -/
theorem of_any_body (d : Difference) (body : Evaluation Value) (x : Argument)
    (point : Option Value) (step : Value) (s : Situation) :
    ((d.of body x point step).final s).store.get x = s.store.get x ∧
    (∀ z, point.getD (s.store.get x) = .double z → z.isNaN →
      d.of body x point step s = .ok Value.nan s) ∧
    ((point.getD (s.store.get x)).isReal = false →
      d.of body x point step s = .error (.notReal (point.getD (s.store.get x)).kind) s) ∧
    match (point.getD (s.store.get x)).isNaN with
    | .error fault => d.of body x point step s = .error fault s
    | .ok true => d.of body x point step s = .ok Value.nan s
    | .ok false => ∃ starts values t,
      Samples body x (d.points point (s.store.get x) step) s starts values t ∧
      starts.length ≤ 2 ∧
      (starts.map fun start => Except.ok (start.store.get x)) <+:
        d.points point (s.store.get x) step ∧
      (d.of body x point step).final s = t.assign x (s.store.get x) ∧
      ((∃ fault, values = .error fault ∧ (d.of body x point step).result s = .error fault) ∨
        ∃ v w, values = .ok [v, w] ∧
          (d.of body x point step).result s = d.ofValues point v w) := by
  refine ⟨?_, ?_, ?_, ?_⟩
  · rw [final_of]
    split
    · simp
    · rfl
  · intro z hz undefined
    rw [of_apply, hz, Value.isNaN_double, undefined]
  · intro h
    rw [of_apply, Value.isNaN_of_not_isReal h]
  · rw [of_apply, result_of, final_of]
    cases hp : (point.getD (s.store.get x)).isNaN with
    | error fault => rfl
    | ok undefined =>
      cases undefined with
      | true => rfl
      | false =>
        obtain ⟨starts, values, sampled, outcome⟩ := samples_inside d body x point step s
        have few := sampled.length_starts_le
        rw [length_points] at few
        exact ⟨starts, values, _, sampled, few, sampled.held_prefix, rfl, outcome⟩

end Difference

end FiniteCalculus
