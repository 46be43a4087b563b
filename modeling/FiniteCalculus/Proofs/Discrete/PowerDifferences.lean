import Mathlib.Algebra.Group.ForwardDiff
import Mathlib.Combinatorics.Enumerative.Stirling
import Mathlib.NumberTheory.BernoulliPolynomials

/-! Differences of powers with step one, which are what alternating sums of powers with binomial
coefficients come to. One more factor of the power is taken out of a difference by the product
rule. Differences of all orders with weights `(-1) ^ k / (k + 1)` make up the derivative of a power,
whence the Bernoulli polynomials. -/

namespace FiniteCalculus.Discrete
set_option autoImplicit false

open Finset

section
variable {R : Type} [CommRing R]

theorem fwdDiff_iter_add_one (f : R → R) (k : Nat) (x : R) :
    (fwdDiff 1)^[k] f (x + 1) = (fwdDiff 1)^[k] f x + (fwdDiff 1)^[k + 1] f x := by
  rw [Function.iterate_succ_apply', fwdDiff, add_sub_cancel]

/-- The product rule for the identity and another function. -/
theorem fwdDiff_iter_id_mul (f : R → R) (k : Nat) (x : R) :
    (fwdDiff 1)^[k] (fun y => y * f y) x =
      x * (fwdDiff 1)^[k] f x + k * (fwdDiff 1)^[k - 1] f (x + 1) := by
  induction k generalizing f with
  | zero => simp
  | succ k ih =>
    have step : fwdDiff 1 (fun y => y * f y) =
        (fun y => y * fwdDiff 1 f y) + fun y => f (y + 1) := by
      funext y
      simp only [fwdDiff, Pi.add_apply]
      ring
    have last : (k : R) * (fwdDiff 1)^[k - 1] (fwdDiff 1 f) (x + 1) =
        k * (fwdDiff 1)^[k] f (x + 1) := by
      cases k with
      | zero => simp
      | succ k => rfl
    rw [Function.iterate_succ_apply, step, fwdDiff_iter_add, Pi.add_apply, ih, last,
      fwdDiff_iter_comp_add, ← Function.iterate_succ_apply, Nat.add_sub_cancel]
    push_cast
    ring

/-- An alternating sum of powers with binomial coefficients. -/
theorem fwdDiff_iter_pow_eq_sum (n k : Nat) (x : R) : (fwdDiff 1)^[k] (fun y => y ^ n) x =
    ∑ v ∈ range (k + 1), (-1) ^ (v + k) * k.choose v * (x + v) ^ n := by
  rw [fwdDiff_iter_eq_sum_shift]
  refine sum_congr rfl fun v hv => ?_
  obtain ⟨j, rfl⟩ := Nat.exists_eq_add_of_le (Nat.lt_succ_iff.mp (mem_range.mp hv))
  have sign : (-1 : R) ^ (v + (v + j)) = (-1) ^ j := by
    rw [← add_assoc, ← two_mul, pow_add, pow_mul]
    simp
  rw [sign, Nat.add_sub_cancel_left]
  simp

/-- At one, the differences of a power count partitions into blocks with an order. -/
theorem fwdDiff_iter_pow_one (n k : Nat) :
    (fwdDiff 1)^[k] (fun y : R => y ^ n) 1 = k.factorial * (n + 1).stirlingSecond (k + 1) := by
  induction n generalizing k with
  | zero =>
    cases k with
    | zero => simp [Nat.stirlingSecond_self]
    | succ k =>
      have vanishes := fwdDiff_iter_pow_eq_zero_of_lt (R := R) (Nat.succ_pos k)
      rw [vanishes, Pi.zero_apply, Nat.stirlingSecond_eq_zero_of_lt (by omega), Nat.cast_zero,
        mul_zero]
  | succ n ih =>
    have factor : (fun y : R => y ^ (n + 1)) = fun y => y * y ^ n := by
      funext y
      exact pow_succ' y n
    rw [factor, fwdDiff_iter_id_mul, fwdDiff_iter_add_one, Nat.stirlingSecond_succ_succ, ih]
    cases k with
    | zero => simp
    | succ k =>
      rw [Nat.add_sub_cancel, ih, ih, Nat.factorial_succ]
      push_cast
      ring

end

/-- The alternating sum of two neighbouring terms keeps the first and the last. -/
theorem alternating_telescope (a : Nat → ℚ) (n : Nat) :
    ∑ k ∈ range n, (-1) ^ k * (a k + a (k + 1)) = a 0 - (-1) ^ n * a n := by
  induction n with
  | zero => simp
  | succ n ih =>
    rw [sum_range_succ, ih]
    ring

/-- The derivative of a power, from its differences. -/
theorem sum_differences {m n : Nat} (le : m ≤ n) (x : ℚ) :
    ∑ k ∈ range n, (-1) ^ k / (k + 1) * (fwdDiff 1)^[k + 1] (fun y => y ^ m) x =
      m * x ^ (m - 1) := by
  induction m with
  | zero =>
    rw [Nat.cast_zero, zero_mul]
    refine sum_eq_zero fun k _ => ?_
    rw [fwdDiff_iter_pow_eq_zero_of_lt (Nat.succ_pos k), Pi.zero_apply, mul_zero]
  | succ m ih =>
    have factor : (fun y : ℚ => y ^ (m + 1)) = fun y => y * y ^ m := by
      funext y
      exact pow_succ' y m
    have split (k : Nat) : (-1 : ℚ) ^ k / (k + 1) * (fwdDiff 1)^[k + 1] (fun y => y ^ (m + 1)) x =
        x * ((-1) ^ k / (k + 1) * (fwdDiff 1)^[k + 1] (fun y => y ^ m) x) +
          (-1) ^ k *
            ((fwdDiff 1)^[k] (fun y => y ^ m) x + (fwdDiff 1)^[k + 1] (fun y => y ^ m) x) := by
      have nonzero : (k + 1 : ℚ) ≠ 0 := by positivity
      rw [factor, fwdDiff_iter_id_mul, Nat.add_sub_cancel, fwdDiff_iter_add_one]
      push_cast
      field_simp
    have last : (fwdDiff 1)^[n] (fun y : ℚ => y ^ m) x = 0 := by
      rw [fwdDiff_iter_pow_eq_zero_of_lt (by omega), Pi.zero_apply]
    rw [sum_congr rfl fun k _ => split k, sum_add_distrib, ← mul_sum, ih (by omega),
      alternating_telescope fun k => (fwdDiff 1)^[k] (fun y => y ^ m) x, last, mul_zero, sub_zero,
      Nat.add_sub_cancel, Function.iterate_zero_apply]
    cases m with
    | zero => simp
    | succ m =>
      rw [Nat.add_sub_cancel]
      push_cast
      ring

/-- The Bernoulli polynomial of degree `m`, from the differences of a power. -/
def bernoulliSum (m : Nat) (x : ℚ) : ℚ :=
  ∑ k ∈ range (m + 1), (-1) ^ k / (k + 1) * (fwdDiff 1)^[k] (fun y => y ^ m) x

theorem bernoulliSum_eq_of_le {m n : Nat} (le : m ≤ n) (x : ℚ) : bernoulliSum m x =
    ∑ k ∈ range (n + 1), (-1) ^ k / (k + 1) * (fwdDiff 1)^[k] (fun y => y ^ m) x := by
  refine sum_subset (range_subset_range.mpr (by omega)) fun k _ beyond => ?_
  rw [mem_range, not_lt] at beyond
  rw [fwdDiff_iter_pow_eq_zero_of_lt (by omega), Pi.zero_apply, mul_zero]

theorem fwdDiff_pow_succ (m : Nat) : fwdDiff 1 (fun y : ℚ => y ^ (m + 1)) =
    ∑ j ∈ range (m + 1), ((m + 1).choose j : ℚ) • fun y => y ^ j := by
  funext y
  rw [fwdDiff, add_pow, sum_range_succ, Nat.choose_self]
  simp [Finset.sum_apply, mul_comm]

/-- The recurrence of the Bernoulli polynomials. -/
theorem sum_choose_mul_bernoulliSum (m : Nat) (x : ℚ) :
    ∑ j ∈ range (m + 1), ((m + 1).choose j : ℚ) * bernoulliSum j x = (m + 1) * x ^ m := by
  have powers (k : Nat) : ∑ j ∈ range (m + 1), ((m + 1).choose j : ℚ) *
      (fwdDiff 1)^[k] (fun y => y ^ j) x = (fwdDiff 1)^[k + 1] (fun y => y ^ (m + 1)) x := by
    rw [Function.iterate_succ_apply, fwdDiff_pow_succ, fwdDiff_iter_finsetSum, Finset.sum_apply]
    refine sum_congr rfl fun j _ => ?_
    rw [fwdDiff_iter_const_smul, Pi.smul_apply, smul_eq_mul]
  calc ∑ j ∈ range (m + 1), ((m + 1).choose j : ℚ) * bernoulliSum j x
      = ∑ j ∈ range (m + 1), ∑ k ∈ range (m + 1), (-1) ^ k / (k + 1) *
          (((m + 1).choose j : ℚ) * (fwdDiff 1)^[k] (fun y => y ^ j) x) := by
        refine sum_congr rfl fun j hj => ?_
        rw [bernoulliSum_eq_of_le (Nat.lt_succ_iff.mp (mem_range.mp hj)), mul_sum]
        exact sum_congr rfl fun k _ => mul_left_comm _ _ _
    _ = ∑ k ∈ range (m + 1), (-1) ^ k / (k + 1) * (fwdDiff 1)^[k + 1] (fun y => y ^ (m + 1)) x := by
        rw [sum_comm]
        refine sum_congr rfl fun k _ => ?_
        rw [← mul_sum, powers]
    _ = (m + 1) * x ^ m := by
        rw [sum_differences le_rfl, Nat.add_sub_cancel]
        push_cast
        rfl

theorem bernoulliSum_eq_eval (m : Nat) (x : ℚ) :
    bernoulliSum m x = (Polynomial.bernoulli m).eval x := by
  induction m using Nat.strong_induction_on with
  | _ m ih =>
    have ours := sum_choose_mul_bernoulliSum m x
    have theirs := congrArg (Polynomial.eval x) (Polynomial.sum_bernoulli m)
    rw [Polynomial.eval_finsetSum, Polynomial.eval_monomial] at theirs
    simp only [Polynomial.eval_smul, smul_eq_mul] at theirs
    rw [sum_range_succ] at ours theirs
    have below : ∑ j ∈ range m, ((m + 1).choose j : ℚ) * bernoulliSum j x =
        ∑ j ∈ range m, ((m + 1).choose j : ℚ) * (Polynomial.bernoulli j).eval x :=
      sum_congr rfl fun j hj => by rw [ih j (mem_range.mp hj)]
    have factor : ((m + 1).choose m : ℚ) ≠ 0 :=
      Nat.cast_ne_zero.mpr (Nat.choose_pos (Nat.le_succ m)).ne'
    rw [below, ← theirs] at ours
    exact mul_left_cancel₀ factor (add_left_cancel ours)

end FiniteCalculus.Discrete
