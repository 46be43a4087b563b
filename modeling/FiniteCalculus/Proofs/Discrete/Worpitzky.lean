import FiniteCalculus.Catalogue
import FiniteCalculus.Proofs.Discrete.PowerDifferences
import FiniteCalculus.Proofs.Discrete.Rational
import FiniteCalculus.Proofs.Discrete.Recursions

/-! Worpitzky numbers are factorials times Stirling numbers of the second kind. In doubles both
sides are exact as long as the sum of the terms without their signs is at most 2 ^ 53, which bounds
every term, every total on the way, and the factorial and the Stirling number as well. -/

namespace FiniteCalculus.Discrete
set_option autoImplicit false

open Finset Scalar

/-- The sum over the rationals or the integers. -/
theorem sum_worpitzky (R : Type) [CommRing R] (n k : Nat) :
    ∑ v ∈ range (k + 1), (-1 : R) ^ (v + k) * (v + 1) ^ n * k.choose v =
      k.factorial * (n + 1).stirlingSecond (k + 1) := by
  rw [← fwdDiff_iter_pow_one, fwdDiff_iter_pow_eq_sum]
  refine sum_congr rfl fun v _ => ?_
  rw [mul_right_comm, add_comm (v : R) 1]

theorem worpitzky_rat (n k : Nat) :
    worpitzky n k = .ok (k.factorial * (n + 1).stirlingSecond (k + 1) : ℚ) := by
  rw [worpitzky, ← sum_worpitzky]
  refine sumUpTo_rat (fun v => ?_) k
  have sign : power (-1) (v + k) = .ok ((-1 : ℚ) ^ (v + k)) := power_rat (-1) (v + k)
  have size : power (v + 1) n = .ok ((v + 1 : ℚ) ^ n) := power_rat_of_eq (by push_cast; rfl) n
  rw [sign, size, choose_rat]
  rfl

/-! What the bound on the sum of the terms says of the numbers on the way. -/

/-- The sum of the terms without their signs. -/
def worpitzkySize (n k : Nat) : Nat := ∑ v ∈ range (k + 1), (v + 1) ^ n * k.choose v

theorem natAbs_term (n k v : Nat) :
    ((-1 : Int) ^ (v + k) * (v + 1) ^ n * k.choose v).natAbs = (v + 1) ^ n * k.choose v := by
  rw [Int.natAbs_mul, Int.natAbs_mul, Int.natAbs_pow, Int.natAbs_pow, Int.natAbs_neg,
    Int.natAbs_one, one_pow, one_mul, Int.natAbs_natCast]
  rfl

theorem natAbs_sum_le {n k j : Nat} (hj : j ≤ k + 1) :
    (∑ v ∈ range j, (-1 : Int) ^ (v + k) * (v + 1) ^ n * k.choose v).natAbs ≤
      worpitzkySize n k :=
  calc (∑ v ∈ range j, (-1 : Int) ^ (v + k) * (v + 1) ^ n * k.choose v).natAbs
      ≤ ∑ v ∈ range j, ((-1 : Int) ^ (v + k) * (v + 1) ^ n * k.choose v).natAbs :=
        Int.natAbs_sum_le _ _
    _ = ∑ v ∈ range j, (v + 1) ^ n * k.choose v := sum_congr rfl fun v _ => natAbs_term n k v
    _ ≤ worpitzkySize n k := sum_le_sum_of_subset (range_subset_range.mpr hj)

theorem product_le (n k : Nat) :
    k.factorial * (n + 1).stirlingSecond (k + 1) ≤ worpitzkySize n k := by
  have whole := natAbs_sum_le (n := n) (le_refl (k + 1))
  rw [sum_worpitzky Int] at whole
  exact_mod_cast whole

section
variable {n k v : Nat} (small : worpitzkySize n k ≤ 2 ^ 53)
include small

theorem term_le (le : v ≤ k) : (v + 1) ^ n * k.choose v ≤ 2 ^ 53 :=
  (single_le_sum (f := fun v => (v + 1) ^ n * k.choose v) (fun _ _ => Nat.zero_le _)
    (mem_range.mpr (Nat.lt_succ_of_le le))).trans small

theorem power_le (le : v ≤ k) : (v + 1) ^ n ≤ 2 ^ 53 :=
  (Nat.le_mul_of_pos_right _ (Nat.choose_pos le)).trans (term_le small le)

theorem top_le (le : k ≤ n) : (k + 1) ^ k ≤ 2 ^ 53 :=
  (Nat.pow_le_pow_right (Nat.succ_pos k) le).trans (power_le small le_rfl)

theorem two_mul_le (le : k ≤ n) : 2 * k ≤ 2 ^ 53 := by
  refine le_trans ?_ (top_le small le)
  match k with
  | 0 => exact Nat.zero_le _
  | 1 => decide
  | k + 2 =>
    calc 2 * (k + 2) ≤ (k + 2 + 1) ^ 2 := by nlinarith only
      _ ≤ (k + 2 + 1) ^ (k + 2) := Nat.pow_le_pow_right (Nat.succ_pos _) (by omega)

theorem inRange_of_size (le : k ≤ n) (below : v ≤ k) : InRange k v := by
  have pow_le : k ^ v ≤ (k + 1) ^ k :=
    (Nat.pow_le_pow_left (Nat.le_succ k) v).trans (Nat.pow_le_pow_right (Nat.succ_pos k) below)
  constructor
  · rw [falling_natCast, Int.natAbs_natCast]
    exact ((Nat.descFactorial_le_pow k v).trans pow_le).trans (top_le small le)
  · rw [← Nat.descFactorial_self]
    refine ((Nat.descFactorial_le_pow v v).trans ?_).trans (top_le small le)
    exact (Nat.pow_le_pow_left below v).trans pow_le
  · rw [Int.natAbs_natCast]
    have := two_mul_le small le
    omega

variable [Transcendentals] (powers : ExactPowers)
include powers

theorem exactly_worpitzky (le : k ≤ n) (size : n ≤ 2 ^ 53) :
    Exactly (worpitzky n k) (k.factorial * (n + 1).stirlingSecond (k + 1) : Nat) := by
  have twice := two_mul_le small le
  have terms : ∀ v < k + 1, Exactly (do
      let sign ← power (-1) (v + k)
      let size ← power (v + 1) n
      return sign * size * (← choose k v)) ((-1) ^ (v + k) * (v + 1) ^ n * k.choose v) := by
    intro v hv
    have below : v ≤ k := Nat.lt_succ_iff.mp hv
    have unit : ((-1 : Int) ^ (v + k)).natAbs = 1 := by simp [Int.natAbs_pow]
    have base : ((v + 1 : Int) ^ n).natAbs = (v + 1) ^ n := by
      rw [Int.natAbs_pow]
      rfl
    have sign := exactly_power powers (a := -1) (b := v + k) (by decide) (by omega)
      (by rw [unit]; decide)
    have power := exactly_power powers (a := v + 1) (b := n) (by omega) size
      (by rw [base]; exact power_le small below)
    have ways := exactly_binomial (inRange_of_size small le below) fun i hi =>
      exactly_ofInt (n := (k : Int) - i) (by omega)
    rw [Ring.choose_natCast] at ways
    obtain ⟨x, hx, x_eq⟩ := sign
    obtain ⟨y, hy, y_eq⟩ := power
    obtain ⟨z, hz, z_eq⟩ := ways
    have product := (exactly_ok.mpr x_eq).mul (exactly_ok.mpr y_eq) (by
      rw [Int.natAbs_mul, unit, base, one_mul]
      exact power_le small below)
    have whole := product.mul (exactly_ok.mpr z_eq) (by
      rw [Int.natAbs_mul, Int.natAbs_mul, unit, base, one_mul, Int.natAbs_natCast]
      exact term_le small below)
    have hz' : choose k v = .ok z := hz
    push_cast at hx
    rw [hx, hy, hz']
    exact exactly_ok.mpr (exactly_ok.mp whole)
  have total := exactly_sum terms fun j hj => (natAbs_sum_le hj).trans small
  rw [sum_worpitzky Int] at total
  exact_mod_cast total

end

section
variable [Transcendentals] {n k : Nat}

theorem exactly_factorial {n : Nat} (small : n.factorial ≤ 2 ^ 53) :
    Exactly (factorial n) n.factorial := by
  have partial_eq (j : Nat) : ∏ i ∈ range j, ((1 + i : Nat) : Int) = j.factorial := by
    rw [← prod_range_add_one_eq_factorial, Nat.cast_prod]
    simp only [Nat.add_comm]
  rw [← partial_eq, factorial]
  refine exactly_productFrom (fun i hi => exactly_ofInt (n := (1 + i : Nat)) ?_) fun j hj => ?_
  · have := (Nat.self_le_factorial n).trans small
    omega
  · rw [partial_eq]
    exact (Nat.factorial_le hj).trans small

theorem exactly_product (le : k ≤ n) (small : worpitzkySize n k ≤ 2 ^ 53) :
    ∃ y z, factorial k = .ok y ∧ stirlingPartition (n + 1) (k + 1) = .ok z ∧
      Exactly (.ok (y * z)) (k.factorial * (n + 1).stirlingSecond (k + 1) : Nat) := by
  have product := (product_le n k).trans small
  have blocks : (n + 1).stirlingSecond (k + 1) ≤ 2 ^ 53 :=
    (Nat.le_mul_of_pos_left _ k.factorial_pos).trans product
  have twice := two_mul_le small le
  obtain ⟨y, hy, y_eq⟩ := exactly_factorial (inRange_of_size small le le_rfl).denominator
  obtain ⟨z, hz, z_eq⟩ := exactly_stirlingPartition (k := k + 1) (by omega) blocks
  refine ⟨y, z, hy, hz, ?_⟩
  have whole := (exactly_ok.mpr y_eq).mul (exactly_ok.mpr z_eq) (by exact_mod_cast product)
  exact_mod_cast exactly_ok.mpr (exactly_ok.mp whole)

theorem worpitzky_apply (le : k ≤ n) :
    (ofIntegerPair "worpitzky_number" worpitzkyOf).apply [.int n, .int k] =
      asValue (worpitzky n k) := by
  change asValue (worpitzkyOf n k) = _
  rw [worpitzkyOf, if_neg (by omega)]
  rfl

theorem factorial_apply (k : Nat) :
    (ofInteger "factorial" factorialOf).apply [.int k] = asValue (factorial k) := by
  change asValue (factorialOf k) = _
  rw [factorialOf, if_neg (by omega)]
  rfl

theorem stirlingPartition_apply (le : k ≤ n) :
    (ofIntegerPair "stirling2_number" stirlingPartitionOf).apply [.int (n + 1), .int (k + 1)] =
      asValue (stirlingPartition (n + 1) (k + 1)) := by
  change asValue (stirlingPartitionOf (n + 1) (k + 1)) = _
  rw [stirlingPartitionOf, if_neg (by omega)]
  rfl

/-- Worpitzky numbers are factorials times Stirling numbers, both over the rationals and, as far as
the sum of the terms without their signs is at most 2 ^ 53, in the values that are returned. -/
theorem worpitzky_eq_factorial_mul_stirling :
    (∀ n k : Nat, k ≤ n → ∃ f s : ℚ, factorial k = .ok f ∧
      stirlingPartition (n + 1) (k + 1) = .ok s ∧ worpitzky n k = .ok (f * s)) ∧
    ∃ w f s, Catalogue.find? Catalogue.integers "worpitzky_number" = some w ∧
      Catalogue.find? Catalogue.integers "factorial" = some f ∧
      Catalogue.find? Catalogue.integers "stirling2_number" = some s ∧
      (∀ n k : Nat, k ≤ n → w.apply [.int n, .int k] = asValue (worpitzky n k) ∧
        f.apply [.int k] = asValue (factorial k) ∧
        s.apply [.int (n + 1), .int (k + 1)] = asValue (stirlingPartition (n + 1) (k + 1))) ∧
      (ExactPowers → ∀ n k : Nat, k ≤ n → n < 2 ^ 53 →
        ∑ v ∈ range (k + 1), (v + 1) ^ n * k.choose v ≤ 2 ^ 53 →
        ∃ x y z q, w.apply [.int n, .int k] = .ok (.double x) ∧
          f.apply [.int k] = .ok (.double y) ∧
          s.apply [.int (n + 1), .int (k + 1)] = .ok (.double z) ∧
          Double.toRat? x = some q ∧ Double.toRat? (y * z) = some q) := by
  refine ⟨fun n k _ => ⟨_, _, factorial_rat k, stirlingPartition_rat _ _, worpitzky_rat n k⟩,
    _, _, _, rfl, rfl, rfl,
    fun n k le => ⟨worpitzky_apply le, factorial_apply k, stirlingPartition_apply le⟩,
    fun powers n k le below small => ?_⟩
  obtain ⟨x, hx, x_eq⟩ := (exactly_worpitzky small powers le below.le).asValue
  obtain ⟨y, z, hy, hz, product⟩ := exactly_product le small
  refine ⟨x, y, z, _, (worpitzky_apply le).trans hx, ?_, ?_, x_eq, exactly_ok.mp product⟩
  · rw [factorial_apply, hy]
    rfl
  · rw [stirlingPartition_apply le, hz]
    rfl

end

/-- The number with two and one is three, which is one factorial times the three partitions of
three elements into two blocks. -/
theorem worpitzky_two_one : @ExactPowers nearestPowers ∧ ∃ x y z,
    (@ofIntegerPair "worpitzky_number" (@worpitzkyOf nearestPowers)).apply [.int 2, .int 1] =
      .ok (.double x) ∧
    (@ofInteger "factorial" (@factorialOf nearestPowers)).apply [.int 1] = .ok (.double y) ∧
    (@ofIntegerPair "stirling2_number" (@stirlingPartitionOf nearestPowers)).apply
      [.int 3, .int 2] = .ok (.double z) ∧
    Double.toRat? x = some 3 ∧ Double.toRat? (y * z) = some 3 := by
  have small : worpitzkySize 2 1 ≤ 2 ^ 53 := by decide
  obtain ⟨_, w, f, s, hw, hf, hs, forms, exact⟩ :=
    @worpitzky_eq_factorial_mul_stirling nearestPowers
  obtain rfl := Option.some.inj hw
  obtain rfl := Option.some.inj hf
  obtain rfl := Option.some.inj hs
  obtain ⟨x, y, z, q, hx, hy, hz, x_eq, product_eq⟩ :=
    exact exactPowers_nearest 2 1 (by decide) (by decide) small
  refine ⟨exactPowers_nearest, x, y, z, hx, hy, hz, ?_⟩
  obtain ⟨three, computed, value⟩ := (@exactly_worpitzky 2 1 small nearestPowers
    exactPowers_nearest (by decide) (by decide)).asValue
  have same : (.ok (.double x) : Except Fault Value) = .ok (.double three) :=
    hx.symm.trans ((forms 2 1 (by decide)).1.trans computed)
  obtain rfl : x = three := by
    cases same
    rfl
  rw [value] at x_eq
  obtain rfl := Option.some.inj x_eq
  have number : Nat.factorial 1 * Nat.stirlingSecond 3 2 = 3 := by decide
  rw [number] at value product_eq
  exact ⟨value, product_eq⟩

end FiniteCalculus.Discrete
