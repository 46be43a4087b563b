import FiniteCalculus.Proofs.Evaluation.Compositional

/-! Laws on what a run may make of the value of an argument. A law is kept by one
evaluation after another, so it is checked where an argument is assigned. A sum or a
product only puts real numbers into its index; a difference keeps every law that its
body keeps for the other arguments, since it gives its own argument back. -/

namespace FiniteCalculus
set_option autoImplicit false

structure ChangeLaw where
  /-- Whether an argument that held the first value may hold the second. -/
  allows : Argument → Value → Value → Prop
  refl : ∀ x v, allows x v v
  trans : ∀ {x u v w}, allows x u v → allows x v w → allows x u w

namespace ChangeLaw

/-- Only the arguments of a list change. -/
def within (xs : List Argument) : ChangeLaw where
  allows x v w := x ∈ xs ∨ w = v
  refl _ _ := .inr rfl
  trans := by
    rintro x u v w (hx | rfl) (hx' | rfl)
    · exact .inl hx
    · exact .inl hx
    · exact .inl hx'
    · exact .inr rfl

/-- The law for all arguments but one. -/
def except (law : ChangeLaw) (x : Argument) : ChangeLaw where
  allows y v w := y = x ∨ law.allows y v w
  refl y v := .inr (law.refl y v)
  trans := by
    rintro y u v w (hy | huv) (hy' | hvw)
    · exact .inl hy
    · exact .inl hy
    · exact .inl hy'
    · exact .inr (law.trans huv hvw)

end ChangeLaw

namespace Evaluation
variable {α β : Type} {law : ChangeLaw}

/-- From any situation, also with a fault, a run changes arguments as the law allows. -/
def Obeys (m : Evaluation α) (law : ChangeLaw) : Prop :=
  ∀ s x, law.allows x (s.store.get x) ((m.final s).store.get x)

theorem Obeys.mono {m : Evaluation α} {other : ChangeLaw} (h : m.Obeys law)
    (weaker : ∀ x v w, law.allows x v w → other.allows x v w) : m.Obeys other :=
  fun s x => weaker x _ _ (h s x)

theorem obeys_compositional (law : ChangeLaw) : Compositional (Obeys · law) where
  lift r s x := by
    rw [final_lift]
    exact law.refl x _
  record e s x := law.refl x _
  bind {α β m f} hm hf s x := by
    rw [final_bind]
    cases m.result s with
    | error fault => exact hm s x
    | ok a => exact law.trans (hm s x) (hf a (m.final s) x)

theorem obeys_read (x : Argument) : (read x).Obeys law := fun _ _ => law.refl _ _

theorem obeys_valueAt {body : Evaluation Value} {x : Argument} {v : Value}
    (hx : ∀ u, law.allows x u v) (hbody : body.Obeys law) : (valueAt x v body).Obeys law := by
  intro s y
  rw [final_valueAt]
  refine law.trans ?_ (hbody (s.assign x v) y)
  rw [Situation.get_assign]
  split
  · rename_i h
    rw [h]
    exact hx _
  · exact law.refl y _

end Evaluation

open Evaluation

theorem Iteration.overRange_obeys {law : ChangeLaw} {body : Evaluation Value} (op : Iteration)
    {index : Argument} (hbody : body.Obeys law)
    (hindex : ∀ u v, v.isReal → law.allows index u v) (r : IndexRange) :
    (op.overRange body index r).Obeys law :=
  (obeys_compositional law).overRange op
    (fun v hv => obeys_valueAt (fun u => hindex u v hv) hbody) r

/-- The body may break the law for the argument of the difference. -/
theorem Difference.of_obeys {law : ChangeLaw} {body : Evaluation Value} {x : Argument}
    (d : Difference) (hbody : body.Obeys (law.except x)) (point : Option Value) (step : Value) :
    (d.of body x point step).Obeys law := by
  have samples (q : Except Fault Value) : (sample body x q).Obeys (law.except x) :=
    (obeys_compositional _).lift_bind fun _ _ => obeys_valueAt (fun _ => .inl rfl) hbody
  intro s y
  rw [final_of]
  split
  · rw [Situation.get_assign]
    split
    · rename_i h
      rw [h]
      exact law.refl x _
    · rename_i h
      have inside : (d.inside body x point (s.store.get x) step).Obeys (law.except x) :=
        (obeys_compositional _).inside d (fun _ => hbody) fun q _ => samples q
      exact (inside s y).resolve_left h
  · exact law.refl y _

end FiniteCalculus
