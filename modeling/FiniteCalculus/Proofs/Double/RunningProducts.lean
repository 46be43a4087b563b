import FiniteCalculus.Proofs.Double.Products
import Mathlib.Algebra.Order.BigOperators.Ring.Finset
import Mathlib.Algebra.Order.Ring.Pow

/-! Products of many doubles from left to right. Each step is off by a factor near one, so that
the exact product tells where the running one overflows, unless it comes near the end of the
range. Once it has overflowed it stays an infinity until a factor is zero, and is undefined from
there on. -/

namespace FiniteCalculus
set_option autoImplicit false

open Finset

namespace Double

/-- The product of the first doubles of a sequence. -/
def product (x : Nat → Float) : Nat → Float
  | 0 => 1.0
  | k + 1 => product x k * x k

theorem product_succ (x : Nat → Float) (k : Nat) : product x (k + 1) = product x k * x k := rfl

variable {x : Nat → Float} {q : Nat → ℚ} {j k : Nat}

theorem isInf_product_of_le (le : j ≤ k) (infinite : (product x j).isInf = true)
    (factors : ∀ i, j ≤ i → i < k → (x i).isNaN = false ∧ toRat? (x i) ≠ some 0) :
    (product x k).isInf = true := by
  induction k, le using Nat.le_induction with
  | base => exact infinite
  | succ k le ih =>
    obtain ⟨number, nonzero⟩ := factors k le k.lt_succ_self
    exact (isInf_mul (ih fun i low high => factors i low (high.trans k.lt_succ_self)) number
      nonzero).1

theorem product_eq_nan_of_le (le : j ≤ k) (undefined : product x j = nan) :
    product x k = nan := by
  induction k, le using Nat.le_induction with
  | base => exact undefined
  | succ k _ ih => rw [product_succ, ih, nan_mul]

theorem toRat?_mul_zero {y z : Float} {r s : ℚ} (hy : toRat? y = some r) (hz : toRat? z = some s)
    (zero : r * s = 0) : toRat? (y * z) = some 0 := by
  have exact := (isRounded_mul hy hz).toRat?_int (n := 0) (by rw [zero, Int.cast_zero]) (by decide)
  rwa [Int.cast_zero] at exact

theorem toRat?_product_zero_of_le (le : j ≤ k) (zero : toRat? (product x j) = some 0)
    (factors : ∀ i, j ≤ i → i < k → ∃ r, toRat? (x i) = some r) :
    toRat? (product x k) = some 0 := by
  induction k, le using Nat.le_induction with
  | base => exact zero
  | succ k le ih =>
    obtain ⟨r, hr⟩ := factors k le k.lt_succ_self
    exact toRat?_mul_zero (ih fun i low high => factors i low (high.trans k.lt_succ_self)) hr
      (zero_mul r)

/-- A product of numbers other than zero is a number, or it has overflowed. -/
theorem isInf_product_or (factors : ∀ i < k, toRat? (x i) = some (q i) ∧ q i ≠ 0) :
    (product x k).isInf = true ∨ ∃ r, toRat? (product x k) = some r := by
  induction k with
  | zero => exact .inr ⟨1, toRat?_one⟩
  | succ k ih =>
    obtain ⟨value, nonzero⟩ := factors k k.lt_succ_self
    rcases ih fun i hi => factors i (hi.trans k.lt_succ_self) with infinite | ⟨r, hr⟩
    · exact .inl (isInf_mul infinite (finite_of_toRat? value).1 (toRat?_ne_zero value nonzero)).1
    · exact (isRounded_mul hr value).isInf_or

theorem ne_zero_of_one_le_abs {c : ℚ} (large : 1 ≤ |c|) : c ≠ 0 :=
  abs_pos.mp (lt_of_lt_of_le one_pos large)

/-! One unit of 53 bits is lost with each factor, which at most halves or doubles the product
of fewer than 2 ^ 52 factors. -/

theorem half_le_pow (few : k ≤ 2 ^ 52) : (1 / 2 : ℚ) ≤ (1 - 1 / 2 ^ 53) ^ k := by
  have bernoulli := one_add_mul_le_pow (a := (-(1 / 2 ^ 53) : ℚ)) (by norm_num) k
  have count : (k : ℚ) ≤ 2 ^ 52 := by exact_mod_cast few
  rw [← sub_eq_add_neg] at bernoulli
  linarith

theorem pow_le_two (few : k ≤ 2 ^ 52) : (1 + 1 / 2 ^ 53 : ℚ) ^ k ≤ 2 := by
  have both : (1 + 1 / 2 ^ 53 : ℚ) ^ k * (1 - 1 / 2 ^ 53) ^ k ≤ 1 := by
    rw [← mul_pow]
    exact pow_le_one₀ (by norm_num) (by norm_num)
  have positive : (0 : ℚ) ≤ (1 + 1 / 2 ^ 53) ^ k := pow_nonneg (by norm_num) k
  have half := mul_le_mul_of_nonneg_left (half_le_pow few) positive
  linarith

theorem abs_mul_bounds {x y : Float} {p q r : ℚ} (hx : toRat? x = some p) (hy : toRat? y = some q)
    (hr : toRat? (x * y) = some r) (left : 1 ≤ |p|) (right : 1 ≤ |q|) :
    1 ≤ |r| ∧ |r| * (1 - 1 / 2 ^ 53) ≤ |p| * |q| ∧ |p| * |q| ≤ |r| * (1 + 1 / 2 ^ 53) := by
  have size : 1 ≤ |p * q| := by
    rw [abs_mul]
    exact one_le_mul_of_one_le_of_one_le left right
  have large : 1 ≤ |r| := by
    have kept := (isRounded_mul hx hy).natCast_le_abs hr (c := 1) (by decide)
    rw [Nat.cast_one] at kept
    exact kept size
  have relative : 2 ^ 53 * |p * q - r| ≤ |r| := by
    rcases error_mul hx hy hr with relative | absolute
    · exact relative
    · have least : (2 : ℚ) ^ leastExponent ≤ 2 ^ (-52 : Int) :=
        zpow_le_zpow_right₀ (by norm_num) (by decide)
      have unit : (2 : ℚ) ^ (-52 : Int) = 1 / 2 ^ 52 := by norm_num
      rw [unit] at least
      linarith
  have apart := abs_le.mp (abs_abs_sub_abs_le_abs_sub (p * q) r)
  rw [abs_mul] at apart
  refine ⟨large, ?_, ?_⟩
  · linarith
  · linarith

section
variable (factors : ∀ i < k, toRat? (x i) = some (q i) ∧ 1 ≤ |q i|)
include factors

theorem isInf_product_or_bounds : (product x k).isInf = true ∨
    ∃ r, toRat? (product x k) = some r ∧ 1 ≤ |r| ∧
      |r| * (1 - 1 / 2 ^ 53) ^ k ≤ ∏ i ∈ range k, |q i| ∧
      ∏ i ∈ range k, |q i| ≤ |r| * (1 + 1 / 2 ^ 53) ^ k := by
  induction k with
  | zero => exact .inr ⟨1, toRat?_one, by simp⟩
  | succ k ih =>
    obtain ⟨value, large⟩ := factors k k.lt_succ_self
    rcases ih fun i hi => factors i (hi.trans k.lt_succ_self) with
      infinite | ⟨s, hs, one, low, high⟩
    · have nonzero := ne_zero_of_one_le_abs large
      exact .inl (isInf_mul infinite (finite_of_toRat? value).1 (toRat?_ne_zero value nonzero)).1
    · refine (isRounded_mul hs value).isInf_or.imp_right fun ⟨r, hr⟩ => ?_
      obtain ⟨one', low', high'⟩ := abs_mul_bounds hs value hr one large
      have below : (0 : ℚ) ≤ (1 - 1 / 2 ^ 53) ^ k := pow_nonneg (by norm_num) k
      have above : (0 : ℚ) ≤ (1 + 1 / 2 ^ 53) ^ k := pow_nonneg (by norm_num) k
      refine ⟨r, hr, one', ?_, ?_⟩
      · calc |r| * (1 - 1 / 2 ^ 53) ^ (k + 1) = |r| * (1 - 1 / 2 ^ 53) * (1 - 1 / 2 ^ 53) ^ k := by
              rw [pow_succ' (1 - 1 / 2 ^ 53 : ℚ) k, mul_assoc]
          _ ≤ |s| * |q k| * (1 - 1 / 2 ^ 53) ^ k := mul_le_mul_of_nonneg_right low' below
          _ = |s| * (1 - 1 / 2 ^ 53) ^ k * |q k| := mul_right_comm _ _ _
          _ ≤ (∏ i ∈ range k, |q i|) * |q k| := mul_le_mul_of_nonneg_right low (abs_nonneg _)
          _ = ∏ i ∈ range (k + 1), |q i| := (prod_range_succ _ k).symm
      · calc ∏ i ∈ range (k + 1), |q i| = (∏ i ∈ range k, |q i|) * |q k| := prod_range_succ _ k
          _ ≤ |s| * (1 + 1 / 2 ^ 53) ^ k * |q k| := mul_le_mul_of_nonneg_right high (abs_nonneg _)
          _ = |s| * |q k| * (1 + 1 / 2 ^ 53) ^ k := mul_right_comm _ _ _
          _ ≤ |r| * (1 + 1 / 2 ^ 53) * (1 + 1 / 2 ^ 53) ^ k :=
              mul_le_mul_of_nonneg_right high' above
          _ = |r| * (1 + 1 / 2 ^ 53) ^ (k + 1) := by
              rw [pow_succ' (1 + 1 / 2 ^ 53 : ℚ) k, mul_assoc]

theorem isInf_product (few : k ≤ 2 ^ 52) (large : 2 * overflow ≤ ∏ i ∈ range k, |q i|) :
    (product x k).isInf = true := by
  rcases isInf_product_or_bounds factors with infinite | ⟨r, hr, _, _, high⟩
  · exact infinite
  · have twice := mul_le_mul_of_nonneg_left (pow_le_two few) (abs_nonneg r)
    have small := abs_lt_overflow hr
    linarith

theorem exists_toRat?_product (few : k ≤ 2 ^ 52)
    (small : 2 * ∏ i ∈ range k, |q i| < overflow) :
    ∃ r, toRat? (product x k) = some r ∧ 1 ≤ |r| := by
  induction k with
  | zero => exact ⟨1, toRat?_one, by simp⟩
  | succ k ih =>
    have before := fun i (hi : i < k) => factors i (hi.trans k.lt_succ_self)
    obtain ⟨value, large⟩ := factors k k.lt_succ_self
    rw [prod_range_succ] at small
    have positive : 0 ≤ ∏ i ∈ range k, |q i| := prod_nonneg fun i _ => abs_nonneg _
    have grown := le_mul_of_one_le_right positive large
    obtain ⟨s, hs, one⟩ := ih before (by omega) (by linarith)
    rcases isInf_product_or_bounds before with infinite | ⟨s', hs', _, low, _⟩
    · exact absurd infinite (not_isInf_of_toRat? hs)
    · obtain rfl := Option.some.inj (hs.symm.trans hs')
      have half := mul_le_mul_of_nonneg_left (half_le_pow (k := k) (by omega)) (abs_nonneg s)
      have bounded : |s| ≤ 2 * ∏ i ∈ range k, |q i| := by linarith
      have next := mul_le_mul_of_nonneg_right bounded (abs_nonneg (q k))
      have within : |s * q k| < overflow := by
        rw [abs_mul]
        linarith
      obtain ⟨r, hr⟩ := (isRounded_mul hs value).exists_toRat? within
      exact ⟨r, hr, (abs_mul_bounds hs value hr one large).1⟩

end

end Double

end FiniteCalculus
