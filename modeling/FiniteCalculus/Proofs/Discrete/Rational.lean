import FiniteCalculus.Discrete.PowerSums
import FiniteCalculus.Discrete.Stirling
import FiniteCalculus.Proofs.Discrete.Binomials
import Mathlib.Combinatorics.Enumerative.Stirling

/-! The combinatorial formulas over the rationals. No operation rounds there, and a running total
comes to the sum or the product of what it runs over. -/

namespace FiniteCalculus
set_option autoImplicit false

open Finset

namespace Scalar

theorem accumulate_sum {step : ℚ → Nat → Except Fault ℚ} {term : Nat → ℚ}
    (adds : ∀ total k, step total k = .ok (total + term k)) (count first : Nat) (total : ℚ) :
    accumulate step count first total = .ok (total + ∑ i ∈ range count, term (first + i)) := by
  induction count with
  | zero => rw [accumulate, sum_range_zero, add_zero]
  | succ count ih =>
    rw [accumulate_succ, ih, sum_range_succ, ← add_assoc]
    exact adds _ _

theorem accumulate_product {step : ℚ → Nat → Except Fault ℚ} {factor : Nat → ℚ}
    (multiplies : ∀ total k, step total k = .ok (total * factor k)) (count first : Nat)
    (total : ℚ) :
    accumulate step count first total = .ok (total * ∏ i ∈ range count, factor (first + i)) := by
  induction count with
  | zero => rw [accumulate, prod_range_zero, mul_one]
  | succ count ih =>
    rw [accumulate_succ, ih, prod_range_succ, ← mul_assoc]
    exact multiplies _ _

theorem sumUpTo_rat {term : Nat → Except Fault ℚ} {t : Nat → ℚ} (h : ∀ k, term k = .ok (t k))
    (n : Nat) : sumUpTo n term = .ok (∑ k ∈ range (n + 1), t k) := by
  have adds (total : ℚ) (k : Nat) :
      (do return total + (← term k) : Except Fault ℚ) = .ok (total + t k) := by
    rw [h]
    rfl
  rw [sumUpTo, accumulate_sum adds]
  simp only [zero_add]
  exact congrArg _ (zero_add _)

theorem productFrom_rat {factor : Nat → Except Fault ℚ} {a : Nat → ℚ}
    (h : ∀ k, factor k = .ok (a k)) (first count : Nat) :
    productFrom first count factor = .ok (∏ i ∈ range count, a (first + i)) := by
  have multiplies (total : ℚ) (k : Nat) :
      (do return total * (← factor k) : Except Fault ℚ) = .ok (total * a k) := by
    rw [h]
    rfl
  rw [productFrom, accumulate_product multiplies]
  exact congrArg _ (one_mul _)

theorem ofInt_rat (n : Int) : ofInt n = .ok (n : ℚ) := rfl

theorem ofInt_rat_of_eq {n : Int} {q : ℚ} (h : (n : ℚ) = q) : ofInt n = .ok q :=
  h ▸ ofInt_rat n

theorem power_rat (a : Int) (n : Nat) : power a n = .ok ((a : ℚ) ^ n) := rfl

theorem power_rat_of_eq {a : Int} {q : ℚ} (h : (a : ℚ) = q) (n : Nat) : power a n = .ok (q ^ n) :=
  h ▸ power_rat a n

end Scalar

namespace Discrete

open Scalar

theorem factorial_rat (n : Nat) : factorial n = .ok (n.factorial : ℚ) := by
  rw [factorial, productFrom_rat fun i => ofInt_rat i,
    ← prod_range_add_one_eq_factorial]
  push_cast
  simp only [add_comm]

theorem choose_rat (n k : Nat) : choose n k = .ok (n.choose k : ℚ) := by
  have above : productFrom 0 k (fun i => ofInt ((n : Int) - i)) =
      .ok ((falling n k : Int) : ℚ) := by
    rw [productFrom_rat fun i => ofInt_rat (n - i), falling]
    push_cast
    simp only [zero_add]
  have below : productFrom 2 (k - 1) (fun i => ofInt i) = .ok (k.factorial : ℚ) := by
    rw [productFrom_rat fun i => ofInt_rat i]
    have same : (k - 1 + 1).factorial = k.factorial := by
      cases k with
      | zero => rfl
      | succ k => rfl
    have product := congrArg (Int.cast : Int → ℚ) (prod_from_two (k - 1))
    rw [same] at product
    push_cast at product ⊢
    rw [product]
  rw [choose, binomial, above, below]
  refine congrArg Except.ok (?_ : ((falling n k : Int) : ℚ) / k.factorial = n.choose k)
  rw [falling_natCast, Nat.descFactorial_eq_factorial_mul_choose]
  push_cast
  exact mul_div_cancel_left₀ _ (Nat.cast_ne_zero.mpr k.factorial_ne_zero)

theorem stirlingPartition_rat (n k : Nat) :
    stirlingPartition n k = .ok (n.stirlingSecond k : ℚ) := by
  induction n generalizing k with
  | zero => cases k <;> rfl
  | succ n ih =>
    cases k with
    | zero => rfl
    | succ k =>
      by_cases beyond : n < k
      · rw [stirlingPartition, if_pos beyond, Nat.stirlingSecond_eq_zero_of_lt (by omega)]
        rfl
      · rw [stirlingPartition, if_neg beyond, ih, ih, ofInt_rat, Nat.stirlingSecond_succ_succ]
        push_cast
        rfl

end Discrete

end FiniteCalculus
