import FiniteCalculus.Proofs.Evaluation.Runs
import FiniteCalculus.Operator.Difference

/-! A difference as a sampling of its body. For any body whatsoever, the runs of the
body inside a difference are those of `Samples` at the documented points: what the
body does to the argument, or to any other, moves no point and repeats no run. The
argument ends as it began on every exit. -/

namespace FiniteCalculus
set_option autoImplicit false

open Evaluation

/-- The argument comes to hold a value: it is assigned, or held the value already. -/
def Situation.Holding (x : Argument) (v : Value) (s start : Situation) : Prop :=
  start = s.assign x v ∨ start = s ∧ s.store.get x = v

namespace Evaluation

/-- The body is run at each point in turn, as long as there is a point and the run
returns. `starts` are the situations in which it is run, and a run starts where the
one before it ended, but for the argument. The last two are what comes of it: the
values in order or the first fault, and the situation after the last run. -/
inductive Samples (body : Evaluation Value) (x : Argument) :
    List (Except Fault Value) → Situation → List Situation → Except Fault (List Value) →
      Situation → Prop where
  | done (s : Situation) : Samples body x [] s [] (.ok []) s
  | noPoint {fault : Fault} {points : List (Except Fault Value)} (s : Situation) :
    Samples body x (.error fault :: points) s [] (.error fault) s
  | faulted {p : Value} {points : List (Except Fault Value)} {s start t : Situation}
    {fault : Fault} : Situation.Holding x p s start → body start = .error fault t →
    Samples body x (.ok p :: points) s [start] (.error fault) t
  | returned {p v : Value} {points : List (Except Fault Value)} {s start t u : Situation}
    {starts : List Situation} {values : Except Fault (List Value)} :
    Situation.Holding x p s start → body start = .ok v t → Samples body x points t starts values u →
    Samples body x (.ok p :: points) s (start :: starts) (values.map (v :: ·)) u

namespace Samples
variable {body : Evaluation Value} {x : Argument} {points : List (Except Fault Value)}
  {s t : Situation} {starts : List Situation} {values : Except Fault (List Value)}

/-- At the start of each run the argument holds the point whose turn it is. -/
theorem held_prefix (h : Samples body x points s starts values t) :
    (starts.map fun start => Except.ok (start.store.get x)) <+: points := by
  have held {v : Value} {s start : Situation} (h : Situation.Holding x v s start) :
      start.store.get x = v := by
    rcases h with rfl | ⟨rfl, rfl⟩
    · exact s.get_assign_self x v
    · rfl
  induction h with
  | done s => exact List.nil_prefix
  | noPoint s => exact List.nil_prefix
  | faulted hold _ => simp [held hold]
  | returned hold _ _ ih => simpa [held hold] using ih

theorem length_starts_le (h : Samples body x points s starts values t) :
    starts.length ≤ points.length := by
  simpa using h.held_prefix.length_le

end Samples

end Evaluation

end FiniteCalculus
