import FiniteCalculus.Proofs.Evaluation.Runs
import Mathlib.Data.Set.Basic

/-! Two runs side by side, from situations that agree on some arguments. What the runs
leave behind is related so that it composes: an argument is left as it was by both, or
with the same value by both, and both add the same events to their journals. -/

namespace FiniteCalculus
set_option autoImplicit false

namespace Situation
variable {s t s' t' s'' t'' : Situation} {xs ys : Set Argument}

def AgreeOn (xs : Set Argument) (s t : Situation) : Prop :=
  ∀ x ∈ xs, s.store.get x = t.store.get x

theorem AgreeOn.mono (h : AgreeOn ys s t) (sub : xs ⊆ ys) : AgreeOn xs s t :=
  fun x hx => h x (sub hx)

theorem AgreeOn.assign {x : Argument} (h : AgreeOn (xs \ {x}) s t) (v : Value) :
    AgreeOn xs (s.assign x v) (t.assign x v) := by
  intro y hy
  rw [get_assign, get_assign]
  split
  · rfl
  · rename_i hne
    exact h y ⟨hy, hne⟩

/-- Nothing outside the set holds an absent value. -/
def AbsentWithin (held : Set Argument) (s : Situation) : Prop :=
  ∀ x, s.store.get x = .absent → x ∈ held

theorem AbsentWithin.sdiff {held : Set Argument} (h : s.AbsentWithin held) {x : Argument}
    (hx : s.store.get x ≠ .absent) : s.AbsentWithin (held \ {x}) := by
  intro y hy
  refine ⟨h y hy, ?_⟩
  rintro rfl
  exact hx hy

theorem AbsentWithin.assign {held : Set Argument} (h : s.AbsentWithin held) (x : Argument)
    {v : Value} (hv : v ≠ .absent) : (s.assign x v).AbsentWithin (held \ {x}) := by
  intro y hy
  rw [get_assign] at hy
  split at hy
  · exact absurd hy hv
  · rename_i hne
    exact ⟨h y hy, hne⟩

/-- Two runs, from `s` to `s'` and from `t` to `t'`, leave the same behind. -/
structure SameEffect (s t s' t' : Situation) : Prop where
  argument : ∀ x, s'.store.get x = s.store.get x ∧ t'.store.get x = t.store.get x ∨
    s'.store.get x = t'.store.get x
  journal : ∃ events, s'.journal = events ++ s.journal ∧ t'.journal = events ++ t.journal

namespace SameEffect

theorem refl (s t : Situation) : SameEffect s t s t :=
  ⟨fun _ => .inl ⟨rfl, rfl⟩, [], rfl, rfl⟩

theorem trans (h : SameEffect s t s' t') (h' : SameEffect s' t' s'' t'') :
    SameEffect s t s'' t'' := by
  constructor
  · intro x
    rcases h'.argument x with ⟨hs, ht⟩ | same
    · rw [hs, ht]
      exact h.argument x
    · exact .inr same
  · obtain ⟨events, hs, ht⟩ := h.journal
    obtain ⟨later, hs', ht'⟩ := h'.journal
    refine ⟨later ++ events, ?_, ?_⟩
    · rw [hs', hs, List.append_assoc]
    · rw [ht', ht, List.append_assoc]

theorem agreeOn (h : SameEffect s t s' t') (agree : AgreeOn xs s t) : AgreeOn xs s' t' := by
  intro x hx
  rcases h.argument x with ⟨hs, ht⟩ | same
  · rw [hs, ht]
    exact agree x hx
  · exact same

theorem assign (s t : Situation) (x : Argument) (v : Value) :
    SameEffect s t (s.assign x v) (t.assign x v) := by
  refine ⟨fun y => ?_, [], rfl, rfl⟩
  by_cases hy : y = x
  · subst hy
    exact .inr (by simp)
  · exact .inl ⟨get_assign_ne s hy v, get_assign_ne t hy v⟩

theorem record (s t : Situation) (e : Event) : SameEffect s t (s.record e) (t.record e) :=
  ⟨fun _ => .inl ⟨rfl, rfl⟩, [e], rfl, rfl⟩

/-- Each run gives an argument back the value that it found there. -/
theorem giveBack (h : SameEffect s t s' t') (x : Argument) :
    SameEffect s t (s'.assign x (s.store.get x)) (t'.assign x (t.store.get x)) := by
  refine ⟨fun y => ?_, h.journal⟩
  by_cases hy : y = x
  · subst hy
    exact .inl ⟨by simp, by simp⟩
  · rw [get_assign_ne s' hy, get_assign_ne t' hy]
    exact h.argument y

end SameEffect

end Situation

end FiniteCalculus
