import FiniteCalculus.Catalogue
import FiniteCalculus.Proofs.Discrete.Exact
import FiniteCalculus.Proofs.Discrete.PowerDifferences
import FiniteCalculus.Proofs.Discrete.Rational

/-! Bernoulli numbers are values of Bernoulli polynomials. The inner sum is a difference of a power
over the same divisor, and the outer one adds them up with alternating signs. -/

namespace FiniteCalculus.Discrete
set_option autoImplicit false

open Finset Scalar

/-- One term over the rationals. -/
def bernoulliPart (m n k v : Nat) : ℚ := (-1) ^ v * k.choose v * ((n + v : ℚ) ^ m / (k + 1))

theorem bernoulliTerm_rat (m n k v : Nat) :
    bernoulliTerm m n k v = .ok (bernoulliPart m n k v) := by
  have size : power (n + v) m = .ok ((n + v : ℚ) ^ m) := power_rat_of_eq (by push_cast; rfl) m
  have divisor : ofInt (k + 1) = .ok (k + 1 : ℚ) := ofInt_rat_of_eq (by push_cast; rfl)
  rw [bernoulliTerm, power_rat, choose_rat, size, divisor, bernoulliPart]
  push_cast
  rfl

/-- The terms of one inner sum are a difference of the power. -/
theorem sum_bernoulliPart (m n k : Nat) : ∑ v ∈ range (k + 1), bernoulliPart m n k v =
    (-1) ^ k / (k + 1) * (fwdDiff 1)^[k] (fun y => y ^ m) (n : ℚ) := by
  rw [fwdDiff_iter_pow_eq_sum, mul_sum]
  refine sum_congr rfl fun v _ => ?_
  have sign : (-1 : ℚ) ^ k * (-1) ^ (v + k) = (-1) ^ v := by
    rw [pow_add, mul_left_comm, ← mul_pow]
    simp
  rw [bernoulliPart, ← sign]
  ring

theorem bernoulli_rat (m n : Nat) : bernoulli m n = .ok (bernoulliSum m n) := by
  have inner (total : ℚ) (k : Nat) : accumulate
      (fun total v => do return total + (← bernoulliTerm m n k v)) (k + 1) 0 total =
      .ok (total + ∑ v ∈ range (k + 1), bernoulliPart m n k v) := by
    have adds (total : ℚ) (v : Nat) :
        (do return total + (← bernoulliTerm m n k v) : Except Fault ℚ) =
          .ok (total + bernoulliPart m n k v) := by
      rw [bernoulliTerm_rat]
      rfl
    rw [accumulate_sum adds]
    simp only [zero_add]
  rw [bernoulli, accumulate_sum inner, bernoulliSum]
  simp only [zero_add, sum_bernoulliPart]
  exact congrArg _ (zero_add _)

/-- There is one term of degree zero, and nothing in it is rounded. -/
theorem exactly_bernoulli_zero [Transcendentals] (powers : ExactPowers) {n : Nat}
    (small : n ≤ 2 ^ 53) : Exactly (bernoulli 0 n) 1 := by
  have one : Exactly (.ok 1.0) (1 * 1) := exactly_one
  have sign : Exactly (power (-1) 0) 1 :=
    exactly_power powers (a := -1) (b := 0) (by decide) (by decide) (by decide)
  have ways : Exactly (choose 0 0) 1 := one.div exactly_one one_ne_zero (by decide)
  have size : Exactly (power n 0) (1 * 1) :=
    exactly_power powers (a := n) (b := 0) (by omega) (by decide) (by rw [pow_zero]; decide)
  have share := size.div (exactly_ofInt (n := 1) (by decide)) one_ne_zero (by decide)
  have term : Exactly (bernoulliTerm 0 n 0 0) 1 := by
    have product := (sign.mul ways (by decide)).mul share (by decide)
    simp only [bind_assoc, pure_bind] at product
    exact product
  have alone : bernoulli 0 n = do return 0.0 + (← bernoulliTerm 0 n 0 0) := by
    simp only [bernoulli, accumulate_succ]
    rfl
  rw [alone]
  exact exactly_zero.add term (by decide)

theorem bernoulli_apply [Transcendentals] (m n : Nat) :
    (ofIntegerPair "bernoulli_number" bernoulliOf).apply [.int m, .int n] =
      asValue (bernoulli m n) := by
  change asValue (bernoulliOf m n) = _
  rw [bernoulliOf, if_neg (by omega)]
  rfl

/-- Over the rationals the Bernoulli numbers are the values of the Bernoulli polynomials, which
start with one, have the powers as differences, and obey the recurrence at zero. The numbers that
are given for integers come from the same formula in doubles, where those of degree zero are one. -/
theorem bernoulli_numbers_rational [Transcendentals] : ∃ B : Nat → Nat → ℚ,
    (∀ m n : Nat, bernoulli m n = .ok (B m n)) ∧
    (∀ m n : Nat, B m n = (Polynomial.bernoulli m).eval (n : ℚ)) ∧
    (∀ n, B 0 n = 1) ∧
    (∀ m n : Nat, B (m + 1) (n + 1) - B (m + 1) n = (m + 1) * (n : ℚ) ^ m) ∧
    (∀ m : Nat, ∑ j ∈ range (m + 2), ((m + 2).choose j : ℚ) * B j 0 = 0) ∧
    ∃ f, Catalogue.find? Catalogue.integers "bernoulli_number" = some f ∧
      (∀ m n : Nat, f.apply [.int m, .int n] = asValue (bernoulli m n)) ∧
      (ExactPowers → ∀ n : Nat, n ≤ 2 ^ 53 →
        ∃ x, f.apply [.int 0, .int n] = .ok (.double x) ∧ Double.toRat? x = some 1) := by
  refine ⟨fun m n => bernoulliSum m n, bernoulli_rat, fun m n => bernoulliSum_eq_eval m n,
    fun n => ?_, fun m n => ?_, fun m => ?_, _, rfl, bernoulli_apply, fun powers n small => ?_⟩
  · beta_reduce
    rw [bernoulliSum_eq_eval, Polynomial.bernoulli_zero, Polynomial.eval_one]
  · beta_reduce
    rw [bernoulliSum_eq_eval, bernoulliSum_eq_eval, Nat.cast_succ, add_comm (n : ℚ) 1,
      Polynomial.bernoulli_eval_one_add, add_sub_cancel_left, Nat.add_sub_cancel, Nat.cast_succ]
  · beta_reduce
    rw [sum_choose_mul_bernoulliSum (m + 1), Nat.cast_zero, zero_pow m.succ_ne_zero, mul_zero]
  · obtain ⟨x, hx, value⟩ := (exactly_bernoulli_zero powers small).asValue
    refine ⟨x, (bernoulli_apply 0 n).trans hx, ?_⟩
    rw [value, Int.cast_one]

/-- The number of degree zero at five. -/
theorem bernoulli_zero_five : @ExactPowers nearestPowers ∧ ∃ x,
    (@ofIntegerPair "bernoulli_number" (@bernoulliOf nearestPowers)).apply [.int 0, .int 5] =
      .ok (.double x) ∧ Double.toRat? x = some 1 := by
  obtain ⟨_, _, _, _, _, _, f, hf, _, exact⟩ := @bernoulli_numbers_rational nearestPowers
  obtain rfl := Option.some.inj hf
  exact ⟨exactPowers_nearest, exact exactPowers_nearest 5 (by decide)⟩

end FiniteCalculus.Discrete
