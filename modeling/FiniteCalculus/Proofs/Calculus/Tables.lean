import FiniteCalculus.Proofs.Calculus.IntegerTrees
import FiniteCalculus.Proofs.Difference.Restoration
import FiniteCalculus.Proofs.Double.Whole
import Mathlib.Data.Set.Insert

/-! Bodies that compute a table of integers: run where their argument holds an integer, they
come to the integer of the table, and leave every argument as it was. A difference of such a
body is one too, for the differences of the table. -/

namespace FiniteCalculus
set_option autoImplicit false

open Evaluation

/-- For every integer of the domain that the argument may hold, while the other arguments hold
what they do in the store. -/
def Evaluation.Tabulates (body : Evaluation Value) (x : Argument) (others : Store)
    (domain : Set Int) (table : Int → Int) : Prop :=
  ∀ (s : Situation), ∀ k ∈ domain, s.store.get x = .int k →
    (∀ y, y ≠ x → s.store.get y = others.get y) →
    ∃ t, body s = .ok (.int (table k)) t ∧ ∀ y, t.store.get y = s.store.get y

theorem Evaluation.Tabulates.mono {body : Evaluation Value} {x : Argument} {others : Store}
    {domain domain' : Set Int} {table : Int → Int} (h : body.Tabulates x others domain table)
    (sub : domain' ⊆ domain) : body.Tabulates x others domain' table :=
  fun s k hk => h s k (sub hk)

/-- An integer that has a double near it. -/
def InRange (n : Int) : Prop := ∃ z, (Value.int n).toDouble = .ok z

theorem inRange_of_natAbs_le {n : Int} (le : n.natAbs ≤ 2 ^ 53) : InRange n :=
  ⟨_, Double.ofInt_eq le⟩

theorem inRange_of_not_isInf {n : Int} (finite : (Double.nearestToInt n).isInf = false) :
    InRange n := by
  refine ⟨Double.nearestToInt n, ?_⟩
  simp [Value.toDouble, Double.ofInt, finite]

theorem Expression.Computes.tabulates {t : Expression} {F : (Argument → Int) → Int}
    (h : t.Computes F) {x : Argument} {others : Store} {env : Argument → Int}
    (held : ∀ y ∈ t.arguments, y ≠ x → others.get y = .int (env y)) (domain : Set Int) :
    t.value.Tabulates x others domain fun k => F (Function.update env x k) := by
  intro s k _ hx same
  refine ⟨s, h.value_apply ?_, fun y => rfl⟩
  intro y hy
  by_cases hyx : y = x
  · rw [hyx, hx, Function.update_self]
  · rw [Function.update_of_ne hyx, same y hyx, held y hy hyx]

namespace Difference

/-- The other point of a difference, one step from an integer. -/
def beside (d : Difference) (step k : Int) : Int :=
  match d with
  | forward => k + step
  | backward => k - step

/-- The differences of a table. -/
def ofTable (d : Difference) (step : Int) (table : Int → Int) (k : Int) : Int :=
  match d with
  | forward => table (k + step) - table k
  | backward => table k - table (k - step)

theorem neighbour_int (d : Difference) (k step : Int) :
    d.neighbour (.int k) (.int step) = .ok (.int (d.beside step k)) := by
  cases d <;> rfl

theorem between_int (d : Difference) (step k : Int) (table : Int → Int) :
    d.between (.int (table k)) (.int (table (d.beside step k))) =
      .ok (.int (d.ofTable step table k)) := by
  cases d <;> rfl

theorem of_tabulates (d : Difference) {body : Evaluation Value} {x : Argument} {others : Store}
    {domain : Set Int} {table : Int → Int} (h : body.Tabulates x others domain table)
    (step : Int) :
    (d.of body x none (.int step)).Tabulates x others
      {k | k ∈ domain ∧ d.beside step k ∈ domain ∧ InRange k} (d.ofTable step table) := by
  rintro s k ⟨hk, hnext, z, hz⟩ hx same
  obtain ⟨t, here, kept⟩ := h s k hk hx same
  obtain ⟨u, there, kept'⟩ := h (t.assign x (.int (d.beside step k))) (d.beside step k) hnext
    (Situation.get_assign_self ..)
    (fun y hy => by rw [Situation.get_assign_ne _ hy, kept y, same y hy])
  have inside : d.atCurrent body x (.int k) (.int step) s =
      .ok (.int (d.ofTable step table k)) u := by
    rw [atCurrent_eq, bind_eq_of_ok here, neighbour_int]
    have sampled : sample body x (.ok (.int (d.beside step k))) t =
        .ok (.int (table (d.beside step k))) u := there
    rw [bind_eq_of_ok sampled, between_int]
    rfl
  refine ⟨u.assign x (.int k), ?_, ?_⟩
  · rw [of_apply, Option.getD_none, hx, Value.isNaN_int hz]
    change restoring x (.int k) (d.atCurrent body x (.int k) (.int step)) s = _
    rw [restoring, inside]
  · intro y
    rw [Situation.get_assign]
    split
    · rename_i hy
      rw [hy, hx]
    · rename_i hy
      rw [kept' y, Situation.get_assign_ne _ hy, kept y]

end Difference

end FiniteCalculus
