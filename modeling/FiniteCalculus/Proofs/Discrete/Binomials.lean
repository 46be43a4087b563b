import FiniteCalculus.Proofs.Discrete.Exact
import Mathlib.Data.Nat.Factorial.BigOperators
import Mathlib.RingTheory.Binomial

/-! Binomial coefficients of integers of any sign, which are exact as long as numerator and
denominator are at most 2 ^ 53. A product of consecutive integers divides a longer one, unless it
runs through zero; then the factors before the zero are those of a factorial. The factorial below
divides the product above, so that the quotient leaves nothing over. -/

namespace FiniteCalculus
set_option autoImplicit false

open Finset

namespace Discrete

/-- `n * (n - 1) * … * (n - k + 1)` -/
def falling (n : Int) (k : Nat) : Int := ∏ i ∈ range k, (n - i)

theorem falling_eq (n : Int) (k : Nat) : falling n k = k.factorial * Ring.choose n k := by
  rw [falling, ← descPochhammer_eval_eq_prod_range, Polynomial.eval_eq_smeval,
    Ring.descPochhammer_eq_factorial_smul_choose, nsmul_eq_mul]

theorem falling_natCast (n k : Nat) : falling n k = n.descFactorial k := by
  rw [falling_eq, Ring.choose_natCast, Nat.descFactorial_eq_factorial_mul_choose]
  push_cast
  rfl

theorem choose_of_neg {n : Int} (negative : n < 0) (k : Nat) :
    Ring.choose n k = (-1) ^ k * ((k - n - 1).toNat.choose k : Int) := by
  obtain ⟨m, rfl⟩ : ∃ m : Nat, n = -(m + 1) := ⟨(-n - 1).toNat, by omega⟩
  have top : ((m : Int) + 1) + k - 1 = (m + k : Nat) := by push_cast; ring
  have top' : ((k : Int) - -(m + 1) - 1).toNat = m + k := by omega
  rw [Ring.choose_neg, top, top', Ring.choose_natCast, Int.negOnePow_def, zpow_natCast,
    Units.smul_def]
  push_cast
  rfl

/-- No product on the way to `n * (n - 1) * … * (n - k + 1)` is greater than this one and the
factorial. -/
theorem natAbs_falling_le (n : Int) {j k : Nat} (le : j ≤ k) :
    (falling n j).natAbs ≤ max (falling n k).natAbs k.factorial := by
  by_cases zero : falling n k = 0
  · obtain ⟨i, hi, root⟩ := prod_eq_zero_iff.mp zero
    obtain rfl : n = i := by omega
    have small : i.descFactorial j ≤ k.factorial := by
      by_cases within : j ≤ i
      · have whole := Nat.factorial_mul_descFactorial within
        calc i.descFactorial j ≤ (i - j).factorial * i.descFactorial j :=
              Nat.le_mul_of_pos_left _ (Nat.factorial_pos _)
          _ = i.factorial := whole
          _ ≤ k.factorial := Nat.factorial_le (mem_range.mp hi).le
      · rw [Nat.descFactorial_eq_zero_iff_lt.mpr (by omega)]
        exact Nat.zero_le _
    rw [falling_natCast]
    exact small.trans (le_max_right _ _)
  · have part : falling n j ∣ falling n k :=
      prod_dvd_prod_of_subset _ _ _ (range_subset_range.mpr le)
    exact (Nat.le_of_dvd (Int.natAbs_pos.mpr zero) (Int.natAbs_dvd_natAbs.mpr part)).trans
      (le_max_left _ _)

theorem prod_from_two (j : Nat) : ∏ i ∈ range j, (2 + i : Int) = (j + 1).factorial := by
  induction j with
  | zero => rfl
  | succ j ih =>
    rw [prod_range_succ, ih, Nat.factorial_succ (j + 1)]
    push_cast
    ring

/-- The integers for which numerator and denominator are computed without rounding. -/
structure InRange (n : Int) (k : Nat) : Prop where
  numerator : (falling n k).natAbs ≤ 2 ^ 53
  denominator : k.factorial ≤ 2 ^ 53
  factors : n.natAbs + k ≤ 2 ^ 53

section
variable {n : Int} {k : Nat} {v : Value}

theorem exactly_factor (hv : v.toRat? = some (n : ℚ)) {i : Nat} (whole : i ≤ 2 ^ 53)
    (le : (n - i).natAbs ≤ 2 ^ 53) : Exactly (do (← v.sub (.int i)).toDouble) (n - i) := by
  cases v with
  | int m =>
    obtain rfl : m = n := by exact_mod_cast Option.some.inj hv
    exact exactly_ofInt le
  | bool b =>
    obtain rfl : b.toInt = n := by exact_mod_cast Option.some.inj hv
    exact exactly_ofInt le
  | double x =>
    obtain ⟨y, hy, value⟩ := exactly_ofInt (n := i) whole
    have rounded := Double.isRounded_sub hv value
    refine ⟨x - y, ?_, rounded.toRat?_int (Int.cast_sub n i).symm le⟩
    change (do
      let difference ← (do return Value.double (x - (← Double.ofInt i)) : Except Fault Value)
      difference.toDouble) = _
    rw [hy]
    rfl
  | _ => cases hv

theorem isNaN_of_toRat? (hv : v.toRat? = some (n : ℚ)) (le : n.natAbs ≤ 2 ^ 53) :
    v.isNaN = .ok false := by
  cases v with
  | int m =>
    obtain rfl : m = n := by exact_mod_cast Option.some.inj hv
    exact Value.isNaN_int (Double.ofInt_eq le)
  | bool b => cases b <;> decide
  | double x =>
    rw [Value.isNaN_double, (Double.finite_of_toRat? hv).1]
  | _ => cases hv

variable [Transcendentals]

theorem binomial_apply (v : Value) (k : Int) :
    (NumericFunction.ofValuePair "binom_coeff" fun n k => do
      asValue (binomialOf n (← integer k))).apply [v, .int k] = asValue (binomialOf v k) := rfl

theorem exactly_binomial {factor : Nat → Except Fault Float} (h : InRange n k)
    (factors : ∀ i < k, Exactly (factor i) (n - i)) :
    Exactly (binomial factor k) (Ring.choose n k) := by
  have above : Exactly (Scalar.productFrom 0 k factor) (falling n k) := by
    refine exactly_productFrom (fun i hi => ?_) fun j hj => ?_
    · rw [Nat.zero_add]
      exact factors i hi
    · exact (natAbs_falling_le n hj).trans (max_le h.numerator h.denominator)
  have same : (k - 1 + 1).factorial = k.factorial := by
    cases k with
    | zero => rfl
    | succ k => rfl
  have below : Exactly (Scalar.productFrom 2 (k - 1) fun i => Scalar.ofInt i) k.factorial := by
    rw [← same, ← prod_from_two]
    refine exactly_productFrom (fun i hi => ?_) fun j hj => ?_
    · exact exactly_ofInt (n := (2 + i : Nat)) (by have := h.factors; omega)
    · rw [prod_from_two]
      exact (Nat.factorial_le (Nat.succ_le_succ hj)).trans (same.trans_le h.denominator)
  have nonzero : (k.factorial : Int) ≠ 0 := Nat.cast_ne_zero.mpr k.factorial_ne_zero
  have quotient : (Ring.choose n k).natAbs ≤ 2 ^ 53 := by
    have product := congrArg Int.natAbs (falling_eq n k)
    rw [Int.natAbs_mul] at product
    exact (Nat.le_mul_of_pos_left _ (Int.natAbs_pos.mpr nonzero)).trans
      (product.symm.trans_le h.numerator)
  rw [falling_eq, mul_comm] at above
  exact above.div below nonzero quotient

/-- What the function gives for an integer, whether it is given as one or as a double. -/
theorem exactly_binomialOf (h : InRange n k) (hv : v.toRat? = some (n : ℚ)) :
    Exactly (binomialOf v k) (Ring.choose n k) := by
  have range := h.factors
  have given : binomialOf v k = binomial (fun i => do (← v.sub (.int i)).toDouble) k := by
    rw [binomialOf, isNaN_of_toRat? hv (by omega)]
    change (if (k : Int) < 0 then undefined else binomial _ k) = _
    rw [if_neg (by omega)]
  rw [given]
  exact exactly_binomial h fun i hi => exactly_factor hv (by omega) (by omega)

/-- The double that is given for an integer is the binomial coefficient, which is zero where `k` is
too large and up to its sign one of natural numbers where `n` is negative. Pascal's rule holds for
what is given, also if it is added up as doubles. -/
theorem binomial_exact : ∃ f, Catalogue.find? Catalogue.integers "binom_coeff" = some f ∧
    (∀ (n : Int) (k : Nat) (v : Value), InRange n k → v.toRat? = some (n : ℚ) →
      ∃ x, f.apply [v, .int k] = .ok (.double x) ∧
        Double.toRat? x = some ((Ring.choose n k : Int) : ℚ)) ∧
    (∀ n k : Nat, Ring.choose (n : Int) k = n.choose k ∧ (n < k → n.choose k = 0)) ∧
    (∀ (n : Int) (k : Nat), n < 0 →
      Ring.choose n k = (-1) ^ k * ((k - n - 1).toNat.choose k : Int)) ∧
    ∀ (n : Int) (k : Nat) (u v : Value), InRange (n + 1) (k + 1) → InRange n (k + 1) →
      InRange n k → u.toRat? = some ((n + 1 : Int) : ℚ) → v.toRat? = some (n : ℚ) →
      ∃ x y z p q, f.apply [u, .int (k + 1 : Nat)] = .ok (.double x) ∧
        f.apply [v, .int (k + 1 : Nat)] = .ok (.double y) ∧ f.apply [v, .int k] = .ok (.double z) ∧
        Double.toRat? y = some p ∧ Double.toRat? z = some q ∧ Double.toRat? x = some (p + q) ∧
        Double.toRat? (y + z) = some (p + q) := by
  refine ⟨_, rfl, fun n k v h hv => (exactly_binomialOf h hv).asValue,
    fun n k => ⟨Ring.choose_natCast n k, Nat.choose_eq_zero_of_lt⟩,
    fun n k negative => choose_of_neg negative k, fun n k u v above left right hu hv => ?_⟩
  obtain ⟨x, hx, value⟩ := (exactly_binomialOf above hu).asValue
  obtain ⟨y, hy, first⟩ := (exactly_binomialOf left hv).asValue
  obtain ⟨z, hz, second⟩ := (exactly_binomialOf right hv).asValue
  have pascal : ((Ring.choose (n + 1) (k + 1) : Int) : ℚ) =
      (Ring.choose n (k + 1) : Int) + (Ring.choose n k : Int) := by
    rw [Ring.choose_succ_succ, add_comm, Int.cast_add]
  rw [pascal] at value
  have rounded := Double.isRounded_add first second
  exact ⟨x, y, z, _, _, hx, hy, hz, first, second, value, rounded.toRat?_eq value⟩

end

/-- The binomial coefficient of -3 over 2, which is 6. -/
theorem binomial_neg_three_two : ∃ x,
    (NumericFunction.ofValuePair "binom_coeff" fun n k => do
      asValue (binomialOf n (← integer k))).apply [.double (-3.0), .int 2] = .ok (.double x) ∧
    Double.toRat? x = some 6 := by
  obtain ⟨f, found, exact, _⟩ := binomial_exact
  obtain rfl := Option.some.inj found
  have range : InRange (-3) 2 := ⟨by decide, by decide, by decide⟩
  have number : (Value.double (-3.0)).toRat? = some ((-3 : Int) : ℚ) := by
    have same : Double.nearestToInt (-3) = -3.0 := by decide
    rw [Value.toRat?, ← same]
    exact Double.toRat?_nearestToInt (by decide)
  obtain ⟨x, hx, value⟩ := exact (-3) 2 (.double (-3.0)) range number
  have six : Ring.choose (-3 : Int) 2 = 6 := by
    rw [choose_of_neg (by decide)]
    decide
  rw [six] at value
  exact ⟨x, hx, value⟩

end Discrete

end FiniteCalculus
