import FiniteCalculus.Proofs.Evaluation.Dependence
import FiniteCalculus.Proofs.Expression.Meaning
import Mathlib.Data.List.Forall2

/-! Where an absent value can come from. No operation gives one, and no sum, product or
difference; only an argument that holds one, or a function that answers with one. -/

namespace FiniteCalculus
set_option autoImplicit false

open Evaluation

/-- Whether the value of a node may be absent, given which arguments may hold an absent
value and which parts may have one. -/
def Label.mayBeAbsent (l : Label) (held : Set Argument) (part : String → Prop) : Prop :=
  match l.shape with
  | .constant c => c = .absent
  | .reference x => x ∈ held
  | .application f _ count => ∃ args, f.apply args = .ok .absent ∧
    List.Forall₂ (fun i v => v = .absent → part (Key.arg i)) (List.range count) args
  | _ => False

def Expression.mayBeAbsent (held : Set Argument) : Expression → Prop :=
  fold fun l parts => l.mayBeAbsent held fun key => (parts.lookup key).getD False

namespace Evaluation

def NotAbsent (m : Evaluation Value) : Prop := ∀ s, m.result s ≠ .ok .absent

theorem notAbsent_bind {α : Type} {m : Evaluation α} {f : α → Evaluation Value}
    (hf : ∀ a, (f a).NotAbsent) : NotAbsent (m >>= f) := by
  intro s h
  rw [result_bind] at h
  split at h
  · exact hf _ _ h
  · cases h

theorem notAbsent_lift {r : Except Fault Value} (h : r ≠ .ok .absent) : (lift r).NotAbsent := by
  intro s
  rw [result_lift]
  exact h

theorem notAbsent_throw (fault : Fault) : NotAbsent (throw fault : Evaluation Value) := by
  intro s h
  cases h

end Evaluation

theorem Iteration.visit_notAbsent (op : Iteration) (body : Evaluation Value) (index : Argument)
    (total v : Value) : (op.visit body index total v).NotAbsent := by
  refine notAbsent_bind fun term => notAbsent_lift ?_
  cases op with
  | sum => exact Value.add_ne_absent total term
  | product => exact Value.mul_ne_absent total term

theorem IndexRange.walk_notAbsent {r : IndexRange} {visit : Value → Value → Evaluation Value}
    (hvisit : ∀ total v, (visit total v).NotAbsent) (d : Direction) (n : Nat)
    (index total : Value) : (r.walk d visit n index total).NotAbsent := by
  induction n generalizing index total with
  | zero => exact notAbsent_throw _
  | succ n ih =>
    unfold walk
    split
    · exact notAbsent_bind fun total => notAbsent_bind fun next => ih next total
    · exact hvisit total r.last

theorem Iteration.overRange_notAbsent (op : Iteration) (body : Evaluation Value)
    (index : Argument) (r : IndexRange) : (op.overRange body index r).NotAbsent := by
  have start (s : Situation) : result (pure op.start) s ≠ .ok .absent := by
    cases op <;> (intro h; cases h)
  refine notAbsent_bind fun undefined => ?_
  cases undefined with
  | true =>
    refine notAbsent_bind fun _ s h => ?_
    cases h
  | false =>
    change (r.fold (op.visit body index) op.start).NotAbsent
    unfold IndexRange.fold
    split
    · exact IndexRange.walk_notAbsent (op.visit_notAbsent body index) _ _ _ _
    · split
      · exact op.visit_notAbsent body index _ _
      · exact notAbsent_bind fun _ => start

theorem Difference.of_notAbsent (d : Difference) (body : Evaluation Value) (x : Argument)
    (point : Option Value) (step : Value) : (d.of body x point step).NotAbsent := by
  intro s
  rw [result_of]
  split
  · intro h; cases h
  · intro h; cases h
  · obtain ⟨_, _, _, ⟨fault, _, hr⟩ | ⟨v, w, _, hr⟩⟩ := d.samples_inside body x point step s
    · rw [hr]
      intro h; cases h
    · rw [hr]
      unfold ofValues
      split
      · exact Value.sub_ne_absent w v
      · exact Value.sub_ne_absent v w

namespace Expression
variable {held : Set Argument}

theorem mayBeAbsent_node (l : Label) (parts : List (String × Expression)) :
    mayBeAbsent held (.node l parts) =
      l.mayBeAbsent held fun key => ((parts.lookup key).map (mayBeAbsent held)).getD False := by
  simp only [mayBeAbsent, fold, lookup_foldParts]

theorem absent_of_result_mapM {f : Nat → Evaluation Value} {mayBe : Nat → Prop}
    (present : ∀ i, (f i).Obeys .present)
    (hf : ∀ i s, s.AbsentWithin held → (f i).result s = .ok .absent → mayBe i)
    {places : List Nat} {s : Situation} {args : List Value} (hs : s.AbsentWithin held)
    (h : (places.mapM f).result s = .ok args) :
    List.Forall₂ (fun i v => v = .absent → mayBe i) places args := by
  induction places generalizing s args with
  | nil => cases h; exact .nil
  | cons i places ih =>
    rw [List.mapM_cons, result_bind] at h
    cases hi : (f i).result s with
    | error fault => rw [hi] at h; cases h
    | ok v =>
      simp only [hi, result_bind] at h
      cases hrest : (places.mapM f).result ((f i).final s) with
      | error fault => rw [hrest] at h; cases h
      | ok rest =>
        rw [hrest] at h
        cases h
        refine .cons ?_ (ih ((present i).absentWithin hs) hrest)
        rintro rfl
        exact hf i s hs hi

theorem label_mayBeAbsent_of_result (l : Label) {part? : String → Option (Evaluation Value)}
    {mayBe : String → Prop} (present : ∀ key m, part? key = some m → m.Obeys .present)
    (hpart : ∀ key m s, part? key = some m → s.AbsentWithin held →
      m.result s = .ok .absent → mayBe key)
    {s : Situation} (hs : s.AbsentWithin held) (h : (l.value part?).result s = .ok .absent) :
    l.mayBeAbsent held mayBe := by
  unfold Label.value at h
  unfold Label.mayBeAbsent
  cases hl : l.shape with
  | constant c =>
    rw [hl] at h
    exact Except.ok.inj h
  | reference x =>
    rw [hl] at h
    exact hs x (Except.ok.inj h)
  | application f description count =>
    simp only [hl, result_bind] at h
    split at h
    · rename_i args hargs
      rw [result_call] at h
      refine ⟨args, h, absent_of_result_mapM ?_ ?_ hs hargs⟩
      · intro i
        cases hp : part? (Key.arg i) with
        | none => exact (obeys_compositional _).throw _
        | some m => exact present _ m hp
      · intro i s hs hi
        cases hp : part? (Key.arg i) with
        | none => rw [hp] at hi; cases hi
        | some m =>
          rw [hp] at hi
          exact hpart _ m s hp hs hi
    · cases h
  | scaling factor =>
    simp only [hl] at h
    exact notAbsent_bind (fun v => notAbsent_lift (Value.mul_ne_absent factor v)) s h
  | addition coefficient =>
    simp only [hl] at h
    refine notAbsent_bind (fun v => notAbsent_bind fun w => ?_) s h
    split
    · exact notAbsent_lift (Value.add_ne_absent v w)
    · refine notAbsent_lift fun h => ?_
      obtain ⟨u, _, h⟩ := bind_eq_ok h
      exact Value.add_ne_absent v u h
  | multiplication =>
    simp only [hl] at h
    exact notAbsent_bind (fun v => notAbsent_bind fun w =>
      notAbsent_lift (Value.mul_ne_absent v w)) s h
  | iteration op index =>
    simp only [hl] at h
    exact notAbsent_bind (fun first => notAbsent_bind fun last => notAbsent_bind fun step =>
      op.overRange_notAbsent _ index _) s h
  | difference d x =>
    simp only [hl] at h
    split at h
    · exact notAbsent_bind (fun step => d.of_notAbsent _ x none step) s h
    · exact notAbsent_bind (fun v => notAbsent_bind fun step => d.of_notAbsent _ x _ step) s h

end Expression

end FiniteCalculus
