import FiniteCalculus.Workspace

/-! A run as two functions of the situation it starts in: what it yields, and the
situation that it ends in. A fault ends a run like a value does, so laws about
what is left behind need no case for it. -/

namespace FiniteCalculus.Evaluation
set_option autoImplicit false

variable {α β : Type}

/-- The value of a run, or its fault. -/
def result (m : Evaluation α) (s : Situation) : Except Fault α :=
  match m s with
  | .ok a _ => .ok a
  | .error fault _ => .error fault

/-- The situation in which a run ends, also when it faults. -/
def final (m : Evaluation α) (s : Situation) : Situation :=
  match m s with
  | .ok _ s => s
  | .error _ s => s

theorem apply_eq (m : Evaluation α) (s : Situation) :
    m s = match m.result s with
      | .ok a => .ok a (m.final s)
      | .error fault => .error fault (m.final s) := by
  unfold result final
  cases m s <;> rfl

theorem apply_eq_ok_iff {m : Evaluation α} {s t : Situation} {a : α} :
    m s = .ok a t ↔ m.result s = .ok a ∧ m.final s = t := by
  unfold result final
  cases m s <;> simp

theorem apply_eq_error_iff {m : Evaluation α} {s t : Situation} {fault : Fault} :
    m s = .error fault t ↔ m.result s = .error fault ∧ m.final s = t := by
  unfold result final
  cases m s <;> simp

@[simp] theorem result_pure (a : α) (s : Situation) : result (pure a) s = .ok a := rfl

@[simp] theorem final_pure (a : α) (s : Situation) : final (pure a) s = s := rfl

@[simp] theorem result_throw (fault : Fault) (s : Situation) :
    result (throw fault : Evaluation α) s = .error fault := rfl

@[simp] theorem final_throw (fault : Fault) (s : Situation) :
    final (throw fault : Evaluation α) s = s := rfl

theorem result_bind (m : Evaluation α) (f : α → Evaluation β) (s : Situation) :
    result (m >>= f) s = match m.result s with
      | .ok a => (f a).result (m.final s)
      | .error fault => .error fault := by
  simp only [bind, EStateM.bind, result, final]
  cases m s <;> rfl

theorem final_bind (m : Evaluation α) (f : α → Evaluation β) (s : Situation) :
    final (m >>= f) s = match m.result s with
      | .ok a => (f a).final (m.final s)
      | .error _ => m.final s := by
  simp only [bind, EStateM.bind, result, final]
  cases m s <;> rfl

@[simp] theorem result_lift (r : Except Fault α) (s : Situation) : (lift r).result s = r := by
  cases r <;> rfl

@[simp] theorem final_lift (r : Except Fault α) (s : Situation) : (lift r).final s = s := by
  cases r <;> rfl

@[simp] theorem result_read (x : Argument) (s : Situation) :
    (read x).result s = .ok (s.store.get x) := rfl

@[simp] theorem final_read (x : Argument) (s : Situation) : (read x).final s = s := rfl

@[simp] theorem final_record (e : Event) (s : Situation) : (record e).final s = s.record e := rfl

@[simp] theorem result_record (e : Event) (s : Situation) : (record e).result s = .ok () := rfl

@[simp] theorem result_valueAt (x : Argument) (v : Value) (body : Evaluation Value)
    (s : Situation) : (valueAt x v body).result s = body.result (s.assign x v) := rfl

@[simp] theorem final_valueAt (x : Argument) (v : Value) (body : Evaluation Value)
    (s : Situation) : (valueAt x v body).final s = body.final (s.assign x v) := rfl

@[simp] theorem result_restoring (x : Argument) (v : Value) (body : Evaluation α)
    (s : Situation) : (restoring x v body).result s = body.result s := by
  simp only [restoring, result]
  cases body s <;> rfl

@[simp] theorem final_restoring (x : Argument) (v : Value) (body : Evaluation α)
    (s : Situation) : (restoring x v body).final s = (body.final s).assign x v := by
  simp only [restoring, final]
  cases body s <;> rfl

@[simp] theorem result_call (f : NumericFunction) (args : List Value) (s : Situation) :
    (call f args).result s = f.apply args := by
  change (lift (f.apply args)).result (s.record (.applied f.name args)) = f.apply args
  simp

@[simp] theorem final_call (f : NumericFunction) (args : List Value) (s : Situation) :
    (call f args).final s = s.record (.applied f.name args) := by
  change (lift (f.apply args)).final (s.record (.applied f.name args)) = _
  simp

end Evaluation

namespace Situation

theorem get_assign (s : Situation) (x y : Argument) (v : Value) :
    (s.assign x v).store.get y = if y = x then v else s.store.get y := s.store.get_set x y v

@[simp] theorem get_assign_self (s : Situation) (x : Argument) (v : Value) :
    (s.assign x v).store.get x = v := s.store.get_set_self x v

theorem get_assign_ne (s : Situation) {x y : Argument} (h : y ≠ x) (v : Value) :
    (s.assign x v).store.get y = s.store.get y := s.store.get_set_ne h v

@[simp] theorem store_record (s : Situation) (e : Event) : (s.record e).store = s.store := rfl

@[simp] theorem journal_record (s : Situation) (e : Event) :
    (s.record e).journal = e :: s.journal := rfl

@[simp] theorem journal_assign (s : Situation) (x : Argument) (v : Value) :
    (s.assign x v).journal = s.journal := rfl

end Situation

namespace Workspace

theorem run_eq (w : Workspace) (body : Evaluation Value) :
    w.run body =
      { result := body.result { store := w.store }
        events := (body.final { store := w.store }).journal.reverse
        workspace := { w with store := (body.final { store := w.store }).store } } := by
  unfold run
  rw [body.apply_eq]
  cases body.result { store := w.store } <;> rfl

end Workspace

end FiniteCalculus
