import FiniteCalculus.Proofs.Calculus.Tables
import FiniteCalculus.Proofs.Iteration.Integers
import FiniteCalculus.Proofs.Iteration.Lockstep
import Mathlib.Algebra.BigOperators.Intervals
import Mathlib.Data.Int.Interval

/-! Sums over a table of integers. The terms are taken in as doubles, one after the other; as
long as all of them, and all sums on the way, are integers that doubles hold exactly, the sum
is exact. -/

namespace FiniteCalculus
set_option autoImplicit false

open Evaluation

/-- Every bound, every term and every partial sum of a sum is an integer up to which doubles
hold all integers. -/
structure ExactSum (a b : Int) (term : Int → Int) : Prop where
  first : a.natAbs ≤ 2 ^ 53
  last : b.natAbs ≤ 2 ^ 53
  terms : ∀ k ∈ Finset.Icc a b, (term k).natAbs ≤ 2 ^ 53
  partialSums : ∀ m ∈ Finset.Icc a b, (∑ k ∈ Finset.Icc a m, term k).natAbs ≤ 2 ^ 53

theorem sum_Icc_eq_range (a b : Int) (term : Int → Int) :
    ∑ k ∈ Finset.Icc a b, term k =
      ∑ j ∈ Finset.range (b + 1 - a).toNat, term (a + (j : Int)) := by
  rw [Int.Icc_eq_finset_map, Finset.sum_map]
  rfl

theorem sum_Icc_succ {a b : Int} (le : a ≤ b + 1) (term : Int → Int) :
    ∑ k ∈ Finset.Icc a (b + 1), term k = ∑ k ∈ Finset.Icc a b, term k + term (b + 1) := by
  have count : (b + 1 + 1 - a).toNat = (b + 1 - a).toNat + 1 := by omega
  have top : a + ((b + 1 - a).toNat : Int) = b + 1 := by omega
  rw [sum_Icc_eq_range, sum_Icc_eq_range, count, Finset.sum_range_succ, top]

theorem sum_Icc_sub {a b : Int} (le : a ≤ b + 1) (table : Int → Int) :
    ∑ k ∈ Finset.Icc a b, (table (k + 1) - table k) = table (b + 1) - table a := by
  have top : a + ((b + 1 - a).toNat : Int) = b + 1 := by omega
  have shifted (j : Nat) : table (a + j + 1) = table (a + ((j + 1 : Nat) : Int)) := by
    rw [Nat.cast_succ, add_assoc]
  rw [sum_Icc_eq_range]
  simp only [shifted]
  rw [Finset.sum_range_sub fun j => table (a + (j : Int)), top]
  simp

theorem ExactSum.total {a b : Int} {term : Int → Int} (h : ExactSum a b term) :
    (∑ k ∈ Finset.Icc a b, term k).natAbs ≤ 2 ^ 53 := by
  rcases lt_or_ge b a with lt | le
  · simp [Finset.Icc_eq_empty (not_le.mpr lt)]
  · exact h.partialSums b (Finset.mem_Icc.mpr ⟨le, le_refl b⟩)

/-- As doubles, too, two sums differ by the term that only one of them has. -/
theorem ExactSum.sub_eq {a v : Int} {term : Int → Int} (le : a ≤ v + 1)
    (above : ExactSum a (v + 1) term) (below : ExactSum a v term) :
    Double.nearestToInt (∑ k ∈ Finset.Icc a (v + 1), term k) -
      Double.nearestToInt (∑ k ∈ Finset.Icc a v, term k) =
        Double.nearestToInt (term (v + 1)) := by
  have last := above.terms (v + 1) (Finset.mem_Icc.mpr ⟨le, le_refl _⟩)
  have across := sum_Icc_succ le term
  have rest : ∑ k ∈ Finset.Icc a (v + 1), term k - ∑ k ∈ Finset.Icc a v, term k =
      term (v + 1) := by omega
  rw [Double.nearestToInt_sub above.total below.total (by rw [rest]; exact last), rest]

theorem foldl_nearest (term : Nat → Int) (n : Nat) (terms : ∀ j < n, (term j).natAbs ≤ 2 ^ 53)
    (sums : ∀ m ≤ n, (∑ j ∈ Finset.range m, term j).natAbs ≤ 2 ^ 53) :
    ((List.range n).map fun j => Double.nearestToInt (term j)).foldl (· + ·) 0.0 =
      Double.nearestToInt (∑ j ∈ Finset.range n, term j) := by
  induction n with
  | zero => rfl
  | succ n ih =>
    have before := ih (fun j hj => terms j (Nat.lt_succ_of_lt hj))
      fun m hm => sums m (Nat.le_succ_of_le hm)
    have whole := sums (n + 1) (le_refl _)
    rw [Finset.sum_range_succ] at whole ⊢
    rw [List.range_succ, List.map_append, List.foldl_append, before]
    exact Double.nearestToInt_add (sums n (Nat.le_succ n)) (terms n (Nat.lt_succ_self n)) whole

namespace Iteration

/-- The rounds of a body that tabulates integers, over integers of its domain. -/
theorem rounds_of_tabulates {body : Evaluation Value} {index : Argument} {others : Store}
    {domain : Set Int} {table : Int → Int} (h : body.Tabulates index others domain table)
    (small : ∀ k ∈ domain, (table k).natAbs ≤ 2 ^ 53) (ks : List Int)
    (inside : ∀ k ∈ ks, k ∈ domain) {s : Situation} (same : ∀ y, y ≠ index → s.store.get y = others.get y) :
    ∃ starts t, Rounds body index (ks.map .int) s starts
        (.ok (ks.map fun k => Double.nearestToInt (table k))) t ∧
      (∀ start ∈ starts, RealAt body start) ∧
      ∀ y, y ≠ index → t.store.get y = others.get y := by
  induction ks generalizing s with
  | nil => exact ⟨[], s, .done s, by simp, same⟩
  | cons k ks ih =>
    have hk := inside k List.mem_cons_self
    obtain ⟨t, returned, kept⟩ := h (s.assign index (.int k)) k hk
      (Situation.get_assign_self ..)
      (fun y hy => by rw [Situation.get_assign_ne _ hy, same y hy])
    have sameThere : ∀ y, y ≠ index → t.store.get y = others.get y := by
      intro y hy
      rw [kept y, Situation.get_assign_ne _ hy, same y hy]
    obtain ⟨starts, u, rounds, real, sameEnd⟩ :=
      ih (fun k hk => inside k (List.mem_cons_of_mem _ hk)) sameThere
    refine ⟨_, u, .returned returned (Double.ofInt_eq (small k hk)) rounds, ?_, sameEnd⟩
    intro start hstart
    rcases List.mem_cons.mp hstart with rfl | hstart
    · intro v t' run
      rw [returned] at run
      cases run
      rfl
    · exact real start hstart

theorem store_afterwards (r : IndexRange) (vs : List Value) (t : Situation) :
    (afterwards r vs t).store = t.store := by
  cases vs <;> rfl

/-- The sum of a table is exact, and touches no argument but its index. -/
theorem sum_of_tabulates {body : Evaluation Value} {index : Argument} {s : Situation}
    {a b : Int} {table : Int → Int} (exact : ExactSum a b table)
    (h : body.Tabulates index s.store (Finset.Icc a b) table) :
    ∃ t, sum.overRange body index ⟨.int a, .int b, .int 1⟩ s =
        .ok (.double (Double.nearestToInt (∑ k ∈ Finset.Icc a b, table k))) t ∧
      ∀ y, y ≠ index → t.store.get y = s.store.get y := by
  have inside : ∀ k ∈ (List.range (b + 1 - a).toNat).map fun j : Nat => a + (j : Int),
      k ∈ (Finset.Icc a b : Set Int) := by
    intro k hk
    obtain ⟨j, hj, rfl⟩ := List.mem_map.mp hk
    have := List.mem_range.mp hj
    simp only [Finset.coe_Icc, Set.mem_Icc]
    omega
  obtain ⟨starts, t, rounds, real, same⟩ :=
    rounds_of_tabulates h exact.terms _ inside fun y _ => rfl
  rw [List.map_map, List.map_map] at rounds
  have defined : Value.anyNaN [.int 1, .int a, .int b] = .ok false := by
    simp only [Value.anyNaN, Value.isNaN_int (Double.ofInt_eq exact.first),
      Value.isNaN_int (Double.ofInt_eq exact.last)]
    rfl
  have total := foldl_nearest (fun j => table (a + (j : Int))) (b + 1 - a).toNat
    (fun j hj => exact.terms _ (by rw [Finset.mem_Icc]; omega)) (by
      intro m hm
      cases m with
      | zero => simp
      | succ m =>
        have partialSum := exact.partialSums (a + m) (by rw [Finset.mem_Icc]; omega)
        have count : (a + m + 1 - a).toNat = m + 1 := by omega
        rwa [sum_Icc_eq_range, count] at partialSum)
  have yields := IndexRange.yields_integers a b 1
  rw [IndexRange.integers_consecutive, List.map_map] at yields
  obtain ⟨final, result⟩ := fold_rounds sum rfl rfl yields rounds real 0.0
  rw [sum_Icc_eq_range, ← total]
  have applied := overRange_apply sum body index ⟨.int a, .int b, .int 1⟩ s
  rw [defined] at applied
  refine ⟨_, applied.trans (apply_eq_ok_iff.mpr ⟨result, final⟩), ?_⟩
  intro y hy
  rw [store_afterwards, same y hy]

end Iteration

end FiniteCalculus
