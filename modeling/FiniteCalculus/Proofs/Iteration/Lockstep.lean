import FiniteCalculus.Operator.Iterated
import FiniteCalculus.Proofs.Double.Whole
import FiniteCalculus.Proofs.Evaluation.Runs
import FiniteCalculus.Proofs.Iteration.Indices

/-! Sums and products side by side. Both go through the same rounds: the index is assigned
the next value of its range, the body is run, and what it returns is taken in as a double.
The rounds are told without saying which of the two they belong to, for any body whatever it
does to the arguments, the index included. -/

namespace FiniteCalculus
set_option autoImplicit false

open Evaluation

namespace Iteration

/-- Rounds of a body over index values. `starts` are the situations in which the body is run;
each has the index assigned to the situation in which the round before it ended. The last two
are what comes of it: the values of the body as doubles, in order, or the first fault, and the
situation after the last run. -/
inductive Rounds (body : Evaluation Value) (index : Argument) :
    List Value → Situation → List Situation → Except Fault (List Float) → Situation → Prop where
  | done (s : Situation) : Rounds body index [] s [] (.ok []) s
  | raised {v : Value} {vs : List Value} {s t : Situation} {fault : Fault} :
    body (s.assign index v) = .error fault t →
    Rounds body index (v :: vs) s [s.assign index v] (.error fault) t
  | tooLarge {v w : Value} {vs : List Value} {s t : Situation} {fault : Fault} :
    body (s.assign index v) = .ok w t → w.toDouble = .error fault →
    Rounds body index (v :: vs) s [s.assign index v] (.error fault) t
  | returned {v w : Value} {z : Float} {vs : List Value} {s t u : Situation}
    {starts : List Situation} {terms : Except Fault (List Float)} :
    body (s.assign index v) = .ok w t → w.toDouble = .ok z →
    Rounds body index vs t starts terms u →
    Rounds body index (v :: vs) s (s.assign index v :: starts) (terms.map (z :: ·)) u

/-- The operation on doubles. -/
def operation : Iteration → Float → Float → Float
  | sum => (· + ·)
  | product => (· * ·)

/-- The body returns a real number, if it returns. -/
def RealAt (body : Evaluation Value) (start : Situation) : Prop :=
  ∀ v t, body start = .ok v t → v.isReal

section
variable {body : Evaluation Value} {index : Argument} {vs : List Value} {s t : Situation}
  {starts : List Situation} {terms : Except Fault (List Float)}

theorem exists_rounds (body : Evaluation Value) (index : Argument) (vs : List Value)
    (s : Situation) : ∃ starts terms t, Rounds body index vs s starts terms t := by
  induction vs generalizing s with
  | nil => exact ⟨[], .ok [], s, .done s⟩
  | cons v vs ih =>
    cases hbody : body (s.assign index v) with
    | error fault t => exact ⟨_, _, t, .raised hbody⟩
    | ok w t =>
      cases hw : w.toDouble with
      | error fault => exact ⟨_, _, t, .tooLarge hbody hw⟩
      | ok z =>
        obtain ⟨starts, terms, u, rest⟩ := ih t
        exact ⟨_, _, u, .returned hbody hw rest⟩

/-- At the start of each run the index holds the value whose turn it is. -/
theorem Rounds.held_prefix (h : Rounds body index vs s starts terms t) :
    (starts.map fun start => start.store.get index) <+: vs := by
  induction h with
  | done s => exact List.nil_prefix
  | raised _ => simp
  | tooLarge _ _ => simp
  | returned _ _ _ ih => simpa using ih

theorem Rounds.length_eq (h : Rounds body index vs s starts terms t) {zs : List Float}
    (ok : terms = .ok zs) : starts.length = vs.length ∧ zs.length = vs.length := by
  induction h generalizing zs with
  | done s =>
    cases ok
    exact ⟨rfl, rfl⟩
  | raised _ => cases ok
  | tooLarge _ _ => cases ok
  | @returned v w z vs s t u starts terms _ _ _ ih =>
    cases terms with
    | error fault => cases ok
    | ok ys =>
      cases ok
      obtain ⟨hstarts, hys⟩ := ih rfl
      simp [hstarts, hys]

theorem combine_double (op : Iteration) (x : Float) {w : Value} (hw : w.isReal) :
    op.combine (.double x) w = w.toDouble.map fun z => .double (op.operation x z) := by
  cases w with
  | int n =>
    have sides : op.combine (.double x) (.int n) =
        (Double.ofInt n >>= fun z => .ok (.double (op.operation x z))) := by
      cases op <;> rfl
    rw [sides, Value.toDouble]
    cases Double.ofInt n <;> rfl
  | double z => cases op <;> rfl
  | bool b => cases op <;> rfl
  | _ => cases hw

theorem final_visit (op : Iteration) (body : Evaluation Value) (index : Argument)
    (sofar v : Value) (s : Situation) :
    (op.visit body index sofar v).final s = body.final (s.assign index v) := by
  unfold visit
  rw [final_bind, result_valueAt, final_valueAt]
  cases body.result (s.assign index v) with
  | error fault => rfl
  | ok w => exact final_lift ..

theorem result_visit (op : Iteration) (x : Float) {v : Value}
    (real : RealAt body (s.assign index v)) :
    (op.visit body index (.double x) v).result s =
      (body.result (s.assign index v) >>= fun w =>
        w.toDouble.map fun z => .double (op.operation x z)) := by
  unfold visit
  rw [result_bind, result_valueAt, final_valueAt]
  cases hw : body.result (s.assign index v) with
  | error fault => rfl
  | ok w =>
    have returned := apply_eq_ok_iff.mpr ⟨hw, rfl⟩
    exact (result_lift _ _).trans (combine_double op x (real _ _ returned))

/-- A visit is the first of the rounds that are left, whichever the operator. -/
theorem visit_round (op : Iteration) {v : Value}
    (rounds : Rounds body index (v :: vs) s starts terms t)
    (real : ∀ start ∈ starts, RealAt body start) (x : Float) :
    (∃ fault, terms = .error fault ∧
      (op.visit body index (.double x) v).result s = .error fault ∧
      (op.visit body index (.double x) v).final s = t) ∨
    ∃ z u starts' terms', Rounds body index vs u starts' terms' t ∧
      (∀ start ∈ starts', RealAt body start) ∧ terms = terms'.map (z :: ·) ∧
      (op.visit body index (.double x) v).result s = .ok (.double (op.operation x z)) ∧
      (op.visit body index (.double x) v).final s = u := by
  cases rounds with
  | @raised _ _ _ _ fault raised =>
    obtain ⟨hr, hf⟩ := apply_eq_error_iff.mp raised
    rw [result_visit op x (real _ List.mem_cons_self), final_visit, hr, hf]
    exact .inl ⟨fault, rfl, rfl, rfl⟩
  | @tooLarge _ w _ _ _ fault returned large =>
    obtain ⟨hr, hf⟩ := apply_eq_ok_iff.mp returned
    rw [result_visit op x (real _ List.mem_cons_self), final_visit, hr, hf]
    refine .inl ⟨fault, rfl, ?_, rfl⟩
    change w.toDouble.map _ = _
    rw [large]
    rfl
  | @returned _ w z _ _ u _ starts terms returned hz rest =>
    obtain ⟨hr, hf⟩ := apply_eq_ok_iff.mp returned
    rw [result_visit op x (real _ List.mem_cons_self), final_visit, hr, hf]
    refine .inr ⟨z, u, starts, terms, rest, ?_, rfl, ?_, rfl⟩
    · intro start hstart
      exact real start (List.mem_cons_of_mem _ hstart)
    · change w.toDouble.map _ = _
      rw [hz]
      rfl

theorem visit_last (op : Iteration) {v : Value}
    (rounds : Rounds body index [v] s starts terms t)
    (real : ∀ start ∈ starts, RealAt body start) (x : Float) :
    (op.visit body index (.double x) v).final s = t ∧
      (op.visit body index (.double x) v).result s =
        terms.map fun zs => .double (zs.foldl op.operation x) := by
  rcases visit_round op rounds real x with
    ⟨fault, rfl, hr, hf⟩ | ⟨z, u, _, _, rest, _, rfl, hr, hf⟩
  · exact ⟨hf, hr⟩
  · cases rest
    exact ⟨hf, hr⟩

variable {r : IndexRange} {d : Direction} {i : Value}

/-- A walk along a course goes through the rounds of its values, and then that of the last
value of the range. -/
theorem walk_rounds (op : Iteration) (course : r.Course d i vs) {n : Nat}
    (enough : vs.length < n) (rounds : Rounds body index (vs ++ [r.last]) s starts terms t)
    (real : ∀ start ∈ starts, RealAt body start) (x : Float) :
    (r.walk d (op.visit body index) n i (.double x)).final s = t ∧
      (r.walk d (op.visit body index) n i (.double x)).result s =
        terms.map fun zs => .double (zs.foldl op.operation x) := by
  induction course generalizing n s starts terms x with
  | arrived past =>
    obtain ⟨n, rfl⟩ := Nat.exists_eq_add_one_of_ne_zero (Nat.ne_of_gt enough)
    rw [IndexRange.walk, past, if_neg Bool.false_ne_true]
    exact visit_last op rounds real x
  | @advanced i next vs before hnext _ ih =>
    obtain ⟨n, rfl⟩ := Nat.exists_eq_add_one_of_ne_zero (Nat.ne_of_gt (Nat.zero_lt_of_lt enough))
    rw [IndexRange.walk, before, if_pos rfl, final_bind, result_bind]
    rcases visit_round op rounds real x with
      ⟨fault, rfl, hr, hf⟩ | ⟨z, u, _, terms, rest, realRest, rfl, hr, hf⟩
    · rw [hr, hf]
      exact ⟨rfl, rfl⟩
    · obtain ⟨final, result⟩ :=
        ih (Nat.lt_of_succ_lt_succ enough) rest realRest (op.operation x z)
      simp only [hr, hf, final_bind, result_bind, hnext, result_lift, final_lift, final, result]
      refine ⟨trivial, ?_⟩
      cases terms <;> rfl

/-- What is left of a range after its rounds: an empty one is remarked upon. -/
def afterwards (r : IndexRange) : List Value → Situation → Situation
  | [], t => t.record (.noticed (.emptyRange r.first r.last r.step))
  | _, t => t

theorem fold_rounds (op : Iteration) (hfirst : r.first.isReal) (hstep : r.step.isReal)
    (yields : r.Yields vs)
    (rounds : Rounds body index vs s starts terms t)
    (real : ∀ start ∈ starts, RealAt body start) (x : Float) :
    (r.fold (op.visit body index) (.double x)).final s = afterwards r vs t ∧
      (r.fold (op.visit body index) (.double x)).result s =
        terms.map fun zs => .double (zs.foldl op.operation x) := by
  cases yields with
  | @along d vs direction course =>
    have whole : afterwards r (vs ++ [r.last]) t = t := by cases vs <;> rfl
    rw [IndexRange.fold, direction, whole]
    have enough := course.length_lt_limit direction hfirst hstep
    exact walk_rounds op course enough rounds real x
  | single direction same =>
    rw [IndexRange.fold, direction]
    simp only [same, if_true]
    exact visit_last op rounds real x
  | empty direction differ =>
    cases rounds
    rw [IndexRange.fold, direction]
    simp only [differ, Bool.false_eq_true, if_false]
    exact ⟨rfl, rfl⟩

end

theorem overRange_apply (op : Iteration) (body : Evaluation Value) (index : Argument)
    (r : IndexRange) (s : Situation) :
    op.overRange body index r s =
      match Value.anyNaN [r.step, r.first, r.last] with
      | .error fault => .error fault s
      | .ok true => .ok Value.nan (s.record (.noticed (.undefinedBounds op r.first r.last r.step)))
      | .ok false => r.fold (op.visit body index) op.start s := by
  change (lift (Value.anyNaN [r.step, r.first, r.last]) >>= fun undefined =>
    if undefined = true then do
      record (.noticed (.undefinedBounds op r.first r.last r.step))
      return Value.nan
    else r.fold (op.visit body index) op.start) s = _
  cases Value.anyNaN [r.step, r.first, r.last] with
  | error fault => rfl
  | ok undefined => cases undefined <;> rfl

/-- Sum and product of any body over the same range, from the same situation. The bounds and
the step are looked at first. If that faults, or finds one undefined, the body is not run and
no argument assigned; if all of them are numbers within the range of doubles it does not fault,
and finds one undefined just in case one is. Otherwise, if the range comes to an end, both go
through the same rounds, over all its values in order or up to the first fault, provided that
the body returns real numbers in these. -/
theorem sum_and_product_in_lockstep (body : Evaluation Value) (index : Argument)
    (r : IndexRange) (s : Situation) :
    ((∀ v ∈ [r.step, r.first, r.last], ∃ z, v.toDouble = .ok z) →
      ∃ undefined, Value.anyNaN [r.step, r.first, r.last] = .ok undefined ∧
        (undefined = true ↔ ∃ z, .double z ∈ [r.step, r.first, r.last] ∧ z.isNaN = true)) ∧
    match Value.anyNaN [r.step, r.first, r.last] with
    | .error fault => ∀ op : Iteration, op.overRange body index r s = .error fault s
    | .ok true => ∀ op : Iteration, op.overRange body index r s =
      .ok Value.nan (s.record (.noticed (.undefinedBounds op r.first r.last r.step)))
    | .ok false => ∀ vs, r.Yields vs → ∃ starts terms t,
      Rounds body index vs s starts terms t ∧
      (starts.map fun start => start.store.get index) <+: vs ∧
      (∀ zs, terms = .ok zs → starts.length = vs.length ∧ zs.length = vs.length) ∧
      ((∀ start ∈ starts, RealAt body start) →
        (∀ op : Iteration, (op.overRange body index r).final s = afterwards r vs t) ∧
        (sum.overRange body index r).result s =
          terms.map (fun zs => .double (zs.foldl (· + ·) 0.0)) ∧
        (product.overRange body index r).result s =
          terms.map (fun zs => .double (zs.foldl (· * ·) 1.0))) := by
  refine ⟨Value.anyNaN_of_toDouble, ?_⟩
  cases hnan : Value.anyNaN [r.step, r.first, r.last] with
  | error fault =>
    intro op
    rw [overRange_apply, hnan]
  | ok undefined =>
    cases undefined with
    | true =>
      intro op
      rw [overRange_apply, hnan]
    | false =>
      intro vs yields
      have isReal := Value.isReal_of_anyNaN hnan
      obtain ⟨starts, terms, t, rounds⟩ := exists_rounds body index vs s
      refine ⟨starts, terms, t, rounds, rounds.held_prefix, fun zs => rounds.length_eq, ?_⟩
      intro real
      have both (op : Iteration) (x : Float) (start : op.start = .double x) :
          (op.overRange body index r).final s = afterwards r vs t ∧
            (op.overRange body index r).result s =
              terms.map fun zs => .double (zs.foldl op.operation x) := by
        have run : op.overRange body index r s =
            r.fold (op.visit body index) (.double x) s := by
          rw [overRange_apply, hnan, start]
        rw [final, result, run]
        exact fold_rounds op (isReal r.first (by simp)) (isReal r.step (by simp)) yields rounds
          real x
      refine ⟨?_, (both sum 0.0 rfl).2, (both product 1.0 rfl).2⟩
      intro op
      cases op with
      | sum => exact (both sum 0.0 rfl).1
      | product => exact (both product 1.0 rfl).1

/-- The value of the first argument, which is then made a text. -/
def overwriting : Evaluation Value := do
  let v ← read ⟨0⟩
  assign ⟨0⟩ (.text "overwritten")
  return v

/-- What the body leaves in the index moves no index value. -/
theorem overwriting_in_lockstep :
    IndexRange.Yields ⟨.int 1, .int 4, .int 1⟩ [.int 1, .int 2, .int 3, .int 4] ∧
    ∃ starts terms t,
      Rounds overwriting ⟨0⟩ [.int 1, .int 2, .int 3, .int 4] { store := {} } starts terms t ∧
      (starts.map fun start => start.store.get ⟨0⟩) <+: [.int 1, .int 2, .int 3, .int 4] ∧
      (∀ op : Iteration,
        (op.overRange overwriting ⟨0⟩ ⟨.int 1, .int 4, .int 1⟩).final { store := {} } = t) ∧
      (sum.overRange overwriting ⟨0⟩ ⟨.int 1, .int 4, .int 1⟩).result { store := {} } =
        terms.map (fun zs => .double (zs.foldl (· + ·) 0.0)) := by
  have course : IndexRange.Course ⟨.int 1, .int 4, .int 1⟩ .ascending (.int 1)
      [.int 1, .int 2, .int 3] :=
    .advanced rfl rfl (.advanced rfl rfl (.advanced rfl rfl (.arrived rfl)))
  have yields : IndexRange.Yields ⟨.int 1, .int 4, .int 1⟩ [.int 1, .int 2, .int 3, .int 4] :=
    .along rfl course
  refine ⟨yields, ?_⟩
  obtain ⟨starts, terms, t, rounds, held, _, lockstep⟩ :=
    (sum_and_product_in_lockstep overwriting ⟨0⟩ ⟨.int 1, .int 4, .int 1⟩ { store := {} }).2
      _ yields
  have real : ∀ start ∈ starts, RealAt overwriting start := by
    intro start hstart v t run
    have mem := held.subset (List.mem_map_of_mem hstart)
    cases run
    rcases (by simpa using mem) with h | h | h | h <;> (rw [h]; rfl)
  obtain ⟨final, sum, _⟩ := lockstep real
  exact ⟨starts, terms, t, rounds, held, final, sum⟩

/-- An integer beyond the range of doubles. -/
def enormous : Int := (10 ^ 200) ^ 2

/-- A range may come to an end and yet not be walked: its bounds are looked at as doubles. -/
theorem ending_range_may_fault :
    ¬ ∀ (body : Evaluation Value) (index : Argument) (r : IndexRange) (vs : List Value)
        (s : Situation), r.Yields vs →
        (∀ z, .double z ∈ [r.step, r.first, r.last] → z.isNaN = false) →
        (∀ start, RealAt body start) →
        ∃ starts terms t, Rounds body index vs s starts terms t ∧
          ∀ op : Iteration, (op.overRange body index r).final s = afterwards r vs t := by
  intro h
  have course : IndexRange.Course ⟨.int enormous, .int enormous, .int 1⟩ .ascending
      (.int enormous) [] := .arrived (by decide +kernel)
  have real (start : Situation) : RealAt (pure (.int 1)) start := by
    intro v t run
    cases run
    rfl
  obtain ⟨starts, terms, t, rounds, final⟩ := h (pure (.int 1)) ⟨0⟩ _ _ { store := {} }
    (.along (by decide +kernel) course) (by simp) real
  have assigned : t.store.get ⟨0⟩ = .int enormous := by
    cases rounds with
    | raised raised => cases raised
    | tooLarge returned _ =>
      cases returned
      exact Situation.get_assign_self ..
    | returned returned _ rest =>
      cases returned
      cases rest
      exact Situation.get_assign_self ..
  have untouched := final .sum
  have large : Value.anyNaN [.int 1, .int enormous, .int enormous] =
      .error .integerTooLarge := by decide +kernel
  simp only [Evaluation.final, overRange_apply, large] at untouched
  have nothing : Store.get {} ⟨0⟩ = Value.int enormous := by
    rw [← assigned]
    exact congrArg (fun s : Situation => s.store.get ⟨0⟩) untouched
  cases nothing

end Iteration

end FiniteCalculus
