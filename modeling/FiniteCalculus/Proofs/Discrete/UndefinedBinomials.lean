import FiniteCalculus.Proofs.Discrete.Binomials
import FiniteCalculus.Proofs.Double.RunningProducts

/-! When a binomial coefficient of a double is undefined. The factorial of 171 is beyond all
doubles, and from there on the denominator is an infinity. A numerator that has overflowed as well
makes the quotient undefined, and so does a zero factor that comes after the overflow. Up to a
denominator of 170 factorial neither can happen. -/

namespace FiniteCalculus
set_option autoImplicit false

open Finset

namespace Discrete

/-- The numerator of a binomial coefficient, as it is computed. -/
def fallingProduct (n : Float) (k : Nat) : Float :=
  Double.product (fun i => n - Double.nearestToInt i) k

/-- The denominator of a binomial coefficient, as it is computed. -/
def factorialProduct (k : Nat) : Float :=
  Double.product (fun i => Double.nearestToInt (2 + i)) (k - 1)

section
variable [Transcendentals]

theorem productFrom_eq_ok {factor : Nat → Except Fault Float} {x : Nat → Float}
    {first count : Nat} (factors : ∀ i < count, factor (first + i) = .ok (x i)) :
    Scalar.productFrom first count factor = .ok (Double.product x count) := by
  induction count with
  | zero => rfl
  | succ count ih =>
    rw [Scalar.productFrom_succ, ih fun i hi => factors i (hi.trans count.lt_succ_self),
      factors count count.lt_succ_self]
    rfl

theorem binomialOf_double {n : Float} (number : n.isNaN = false) {k : Nat} (small : k < 2 ^ 53) :
    binomialOf (.double n) k = .ok (fallingProduct n k / factorialProduct k) := by
  have above : Scalar.productFrom 0 k (fun i => do (← (Value.double n).sub (.int i)).toDouble) =
      .ok (fallingProduct n k) := by
    refine productFrom_eq_ok fun i hi => ?_
    rw [Nat.zero_add]
    change (do
      let difference ← (do return Value.double (n - (← Double.ofInt i)) : Except Fault Value)
      difference.toDouble) = _
    rw [Double.ofInt_eq (by omega)]
    rfl
  have below : Scalar.productFrom 2 (k - 1) (fun i => Scalar.ofInt i) =
      .ok (factorialProduct k) := by
    refine productFrom_eq_ok fun i hi => ?_
    exact Double.ofInt_eq (n := (2 + i : Nat)) (by omega)
  rw [binomialOf, Value.isNaN_double, number]
  change (if (k : Int) < 0 then undefined else binomial _ k) = _
  rw [if_neg (by omega), binomial, above, below]
  rfl

end

theorem factorial_lt : 2 * ((170).factorial : ℚ) < Double.overflow := by
  have whole : 2 * (170).factorial ≤ 2 ^ 1023 := by decide +kernel
  have bound : 2 * ((170).factorial : ℚ) ≤ 2 ^ 1023 := by exact_mod_cast whole
  exact bound.trans_lt (Double.pow_lt_overflow (le_refl _))

theorem le_factorial : 2 * Double.overflow ≤ ((171).factorial : ℚ) := by
  have whole : 2 * 2 ^ 1024 ≤ (171).factorial := by decide +kernel
  have bound : 2 * 2 ^ 1024 ≤ ((171).factorial : ℚ) := by exact_mod_cast whole
  exact (mul_le_mul_of_nonneg_left Double.overflow_le_pow (by norm_num)).trans bound

section
variable {k : Nat}

theorem factorialProduct_factors (small : k ≤ 2 ^ 53) : ∀ i < k - 1,
    Double.toRat? (Double.nearestToInt (2 + i)) = some ((2 + i : Int) : ℚ) ∧
      1 ≤ |((2 + i : Int) : ℚ)| := by
  intro i hi
  refine ⟨Double.toRat?_nearestToInt (n := 2 + i) (by omega), ?_⟩
  rw [← Int.cast_abs]
  exact_mod_cast Int.one_le_abs (z := 2 + i) (by omega)

theorem prod_abs_from_two (j : Nat) :
    ∏ i ∈ range j, |((2 + i : Int) : ℚ)| = ((j + 1).factorial : ℚ) := by
  rw [← abs_prod, ← Int.cast_prod, prod_from_two, Int.cast_natCast, Nat.abs_cast]

theorem exists_toRat?_factorialProduct (small : k ≤ 170) :
    ∃ r, Double.toRat? (factorialProduct k) = some r ∧ 1 ≤ |r| := by
  refine Double.exists_toRat?_product (factorialProduct_factors (by omega)) (by omega) ?_
  have le : (k - 1 + 1).factorial ≤ (170).factorial := Nat.factorial_le (by omega)
  rw [prod_abs_from_two]
  have le' : ((k - 1 + 1).factorial : ℚ) ≤ (170).factorial := by exact_mod_cast le
  linarith [factorial_lt]

theorem isInf_factorialProduct (large : 171 ≤ k) (small : k ≤ 2 ^ 53) :
    (factorialProduct k).isInf = true := by
  have factors := factorialProduct_factors small
  have overflowed : (factorialProduct 171).isInf = true := by
    refine Double.isInf_product (fun i hi => factors i (by omega)) (by decide) ?_
    rw [prod_abs_from_two]
    exact le_factorial
  refine Double.isInf_product_of_le (by omega) overflowed fun i _ hi => ?_
  obtain ⟨value, large⟩ := factors i hi
  exact ⟨(Double.finite_of_toRat? value).1,
    Double.toRat?_ne_zero value (Double.ne_zero_of_one_le_abs large)⟩

end

/-- The number that a factor of the numerator comes to. -/
def factorValue (n : Float) (i : Nat) : ℚ :=
  (Double.toRat? (n - Double.nearestToInt i)).getD 0

section
variable {n : Float} {p : ℚ} {i : Nat} (hn : Double.toRat? n = some p) (small : i ≤ 2 ^ 53)
include hn small

theorem isRounded_factor : Double.IsRounded (p - i) (n - Double.nearestToInt i) :=
  Double.isRounded_sub hn (Double.toRat?_nearestToInt (n := i) small)

theorem toRat?_factor :
    Double.toRat? (n - Double.nearestToInt i) = some (factorValue n i) := by
  have within : |p - i| < Double.overflow := by
    have bound := Double.abs_le_greatest hn
    have count : (i : ℚ) ≤ 2 ^ 53 := by exact_mod_cast small
    have natural : |(i : ℚ)| = i := Nat.abs_cast i
    have unit : (2 : ℚ) ^ (54 : Int) < 2 ^ Double.greatestExponent :=
      zpow_lt_zpow_right₀ (by norm_num) (by decide)
    have apart := abs_sub p i
    rw [Double.greatest] at bound
    rw [Double.overflow_eq]
    norm_num at unit
    linarith
  obtain ⟨r, hr⟩ := (isRounded_factor hn small).exists_toRat? within
  rw [factorValue, hr]
  rfl

/-- A factor vanishes just where it should. -/
theorem factorValue_eq_zero_iff : factorValue n i = 0 ↔ p = i := by
  have value := toRat?_factor hn small
  constructor
  · intro zero
    by_contra apart
    rw [zero] at value
    exact Double.toRat?_sub_ne_zero hn (Double.toRat?_nearestToInt (n := i) small) apart value
  · intro same
    have exact := (isRounded_factor hn small).toRat?_int (n := 0)
      (by rw [same, sub_self, Int.cast_zero]) (by decide)
    rw [value, Int.cast_zero] at exact
    exact Option.some.inj exact

theorem natCast_le_abs_factorValue {c : Nat} (short : c ≤ 2 ^ 53) (le : (c : ℚ) ≤ |p - i|) :
    (c : ℚ) ≤ |factorValue n i| :=
  (isRounded_factor hn small).natCast_le_abs (toRat?_factor hn small) short le

end

section
variable {n : Float} {p : ℚ} {k : Nat} (hn : Double.toRat? n = some p)
include hn

/-- Whole numbers below the factors whose product overflows make the numerator overflow. -/
theorem isInf_fallingProduct_of_le {c : Nat → Nat} (few : k ≤ 2 ^ 52)
    (below : ∀ i < k, 1 ≤ c i ∧ c i ≤ 2 ^ 53 ∧ (c i : ℚ) ≤ |p - i|)
    (large : 2 * Double.overflow ≤ ∏ i ∈ range k, (c i : ℚ)) :
    (fallingProduct n k).isInf = true := by
  have le (i : Nat) (hi : i < k) : (c i : ℚ) ≤ |factorValue n i| :=
    natCast_le_abs_factorValue hn (by omega) (below i hi).2.1 (below i hi).2.2
  refine Double.isInf_product (q := factorValue n) (fun i hi => ⟨?_, ?_⟩) few ?_
  · exact toRat?_factor hn (by omega)
  · have one : (1 : ℚ) ≤ c i := by exact_mod_cast (below i hi).1
    exact one.trans (le i hi)
  · refine large.trans (prod_le_prod (fun i _ => Nat.cast_nonneg _) fun i hi => ?_)
    exact le i (mem_range.mp hi)

/-- Far enough from the numbers that are taken away, 171 factors overflow. -/
theorem isInf_fallingProduct (far : p ≤ -1 ∨ 171 ≤ p) : (fallingProduct n 171).isInf = true := by
  rcases far with negative | large
  · refine isInf_fallingProduct_of_le hn (c := fun i => i + 1) (by decide) (fun i hi => ?_) ?_
    · refine ⟨by omega, by omega, ?_⟩
      rw [Nat.cast_succ, abs_sub_comm]
      exact le_trans (by linarith) (le_abs_self _)
    · rw [← Nat.cast_prod, prod_range_add_one_eq_factorial]
      exact le_factorial
  · refine isInf_fallingProduct_of_le hn (c := fun i => 171 - i) (by decide) (fun i hi => ?_) ?_
    · refine ⟨by omega, by omega, ?_⟩
      rw [Nat.cast_sub hi.le]
      exact le_trans (by push_cast; linarith) (le_abs_self _)
    · rw [← Nat.cast_prod, ← Nat.descFactorial_eq_prod_range, Nat.descFactorial_self]
      exact le_factorial

/-- Without a zero factor the numerator is a number, or it has overflowed and stays so. -/
theorem isInf_fallingProduct_or (small : k ≤ 2 ^ 53) (apart : ∀ i < k, p ≠ (i : ℚ)) :
    (fallingProduct n k).isInf = true ∨ ∃ r, Double.toRat? (fallingProduct n k) = some r :=
  Double.isInf_product_or (q := factorValue n) fun i hi =>
    ⟨toRat?_factor hn (by omega), mt (factorValue_eq_zero_iff hn (by omega)).mp (apart i hi)⟩

theorem isInf_fallingProduct_mono {j : Nat} (le : j ≤ k) (small : k ≤ 2 ^ 53)
    (apart : ∀ i < k, p ≠ (i : ℚ)) (infinite : (fallingProduct n j).isInf = true) :
    (fallingProduct n k).isInf = true := by
  refine Double.isInf_product_of_le le infinite fun i _ hi => ?_
  have value := toRat?_factor hn (show i ≤ 2 ^ 53 by omega)
  have nonzero := mt (factorValue_eq_zero_iff hn (by omega)).mp (apart i hi)
  exact ⟨(Double.finite_of_toRat? value).1, Double.toRat?_ne_zero value nonzero⟩

end

/-! A whole number below `k` has a zero factor. -/

section
variable {n : Float} {m k : Nat} (hn : Double.toRat? n = some (m : ℚ)) (lt : m < k)
  (small : k ≤ 2 ^ 53)
include hn lt small

theorem toRat?_zero_factor : Double.toRat? (n - Double.nearestToInt m) = some 0 := by
  have value := toRat?_factor hn (show m ≤ 2 ^ 53 by omega)
  rwa [(factorValue_eq_zero_iff hn (by omega)).mpr rfl] at value

theorem fallingProduct_eq_nan (large : 171 ≤ m) : fallingProduct n k = Double.nan := by
  have far : (171 : ℚ) ≤ m := by exact_mod_cast large
  have infinite : (fallingProduct n m).isInf = true := by
    refine isInf_fallingProduct_mono hn large (by omega) (fun i hi same => ?_)
      (isInf_fallingProduct hn (.inr far))
    exact hi.ne' (by exact_mod_cast same)
  have zero := toRat?_zero_factor hn lt small
  refine Double.product_eq_nan_of_le (j := m + 1) lt ?_
  exact Double.eq_nan_of_isNaN (Double.isNaN_infinity_mul_zero infinite zero)

theorem toRat?_fallingProduct_zero (few : m ≤ 170) :
    Double.toRat? (fallingProduct n k) = some 0 := by
  have factors : ∀ i < m, Double.toRat? (n - Double.nearestToInt i) = some ((m - i : Nat) : ℚ) ∧
      1 ≤ |((m - i : Nat) : ℚ)| := by
    intro i hi
    constructor
    · have exact := (isRounded_factor hn (show i ≤ 2 ^ 53 by omega)).toRat?_int
        (n := (m - i : Nat)) (by rw [Nat.cast_sub hi.le, Int.cast_sub]; rfl) (by omega)
      exact exact
    · rw [Nat.abs_cast]
      exact_mod_cast Nat.sub_pos_of_lt hi
  have whole : ∏ i ∈ range m, |((m - i : Nat) : ℚ)| = (m.factorial : ℚ) := by
    simp only [Nat.abs_cast]
    rw [← Nat.cast_prod, ← Nat.descFactorial_eq_prod_range, Nat.descFactorial_self]
  have le : (m.factorial : ℚ) ≤ (170).factorial := by exact_mod_cast Nat.factorial_le few
  obtain ⟨r, hr, _⟩ := Double.exists_toRat?_product factors (by omega)
    (by rw [whole]; linarith [factorial_lt])
  have zero := Double.toRat?_mul_zero hr (toRat?_zero_factor hn lt small) (mul_zero r)
  exact Double.toRat?_product_zero_of_le (j := m + 1) lt zero fun i _ hi =>
    ⟨_, toRat?_factor hn (by omega)⟩

end

/-! The quotient of both. -/

section
variable {n : Float} {k : Nat}

theorem isInf_fallingProduct_of_isInf (infinite : n.isInf = true) (pos : 0 < k)
    (small : k ≤ 2 ^ 53) : (fallingProduct n k).isInf = true := by
  have factor (i : Nat) (hi : i ≤ 2 ^ 53) : (n - Double.nearestToInt i).isInf = true :=
    Double.isInf_sub infinite (Double.toRat?_nearestToInt (n := i) hi)
  have one := Double.toRat?_one
  have first : (fallingProduct n 1).isInf = true := by
    refine (Double.isInf_mul (factor 0 (by decide)) (Double.finite_of_toRat? one).1 ?_).2
    rw [one]
    decide
  refine Double.isInf_product_of_le pos first fun i _ hi => ?_
  have next := factor i (by omega)
  exact ⟨Double.isNaN_of_isInf next, fun zero => Double.not_isInf_of_toRat? zero next⟩

/-- What the numerator of an infinity or a number can come to. -/
theorem fallingProduct_cases (number : n.isNaN = false) (small : k ≤ 2 ^ 53) :
    (fallingProduct n k = Double.nan ∧ 171 ≤ k ∧ ∃ p, Double.toRat? n = some p ∧ 171 ≤ p) ∨
    (fallingProduct n k).isInf = true ∨
    ((∃ r, Double.toRat? (fallingProduct n k) = some r) ∧
      (171 ≤ k → ¬ ∃ p, Double.toRat? n = some p ∧ 171 ≤ p)) := by
  rcases Bool.eq_false_or_eq_true n.isInf with infinite | finite
  · have beyond : ¬ ∃ p, Double.toRat? n = some p ∧ 171 ≤ p :=
      fun ⟨p, hp, _⟩ => Double.not_isInf_of_toRat? hp infinite
    rcases Nat.eq_zero_or_pos k with rfl | pos
    · exact .inr (.inr ⟨⟨1, Double.toRat?_one⟩, fun _ => beyond⟩)
    · exact .inr (.inl (isInf_fallingProduct_of_isInf infinite pos small))
  · obtain ⟨p, hn⟩ := Double.exists_toRat? number finite
    by_cases root : ∃ m : Nat, m < k ∧ p = m
    · obtain ⟨m, lt, rfl⟩ := root
      by_cases few : m ≤ 170
      · refine .inr (.inr ⟨⟨0, toRat?_fallingProduct_zero hn lt small few⟩, ?_⟩)
        rintro - ⟨p, hp, large⟩
        obtain rfl := Option.some.inj (hn.symm.trans hp)
        have large' : 171 ≤ m := by exact_mod_cast large
        omega
      · refine .inl ⟨fallingProduct_eq_nan hn lt small (by omega), by omega, m, hn, ?_⟩
        exact_mod_cast (show 171 ≤ m by omega)
    · have apart (i : Nat) (hi : i < k) : p ≠ i := fun same => root ⟨i, hi, same⟩
      rcases isInf_fallingProduct_or hn small apart with infinite | finite
      · exact .inr (.inl infinite)
      · refine .inr (.inr ⟨finite, ?_⟩)
        rintro many ⟨p', hp, large⟩
        obtain rfl := Option.some.inj (hn.symm.trans hp)
        have infinite := isInf_fallingProduct_mono hn many small apart
          (isInf_fallingProduct hn (.inr large))
        obtain ⟨r, hr⟩ := finite
        exact Double.not_isInf_of_toRat? hr infinite

theorem isInf_factorialProduct_iff (small : k ≤ 2 ^ 53) :
    (factorialProduct k).isInf = true ↔ 171 ≤ k := by
  by_cases few : k ≤ 170
  · obtain ⟨r, hr, _⟩ := exists_toRat?_factorialProduct few
    rw [(Double.finite_of_toRat? hr).2]
    exact iff_of_false Bool.false_ne_true (by omega)
  · exact iff_of_true (isInf_factorialProduct (by omega) small) (by omega)

theorem factorialProduct_defined (small : k ≤ 2 ^ 53) :
    (factorialProduct k).isNaN = false ∧ Double.toRat? (factorialProduct k) ≠ some 0 := by
  by_cases few : k ≤ 170
  · obtain ⟨r, hr, one⟩ := exists_toRat?_factorialProduct few
    exact ⟨(Double.finite_of_toRat? hr).1,
      Double.toRat?_ne_zero hr (Double.ne_zero_of_one_le_abs one)⟩
  · have infinite := isInf_factorialProduct (k := k) (by omega) small
    exact ⟨Double.isNaN_of_isInf infinite, fun zero => Double.not_isInf_of_toRat? zero infinite⟩

theorem isNaN_quotient_iff (number : n.isNaN = false) (small : k ≤ 2 ^ 53) :
    (fallingProduct n k / factorialProduct k).isNaN = true ↔
      171 ≤ k ∧ ((fallingProduct n k).isInf = true ∨ ∃ p, Double.toRat? n = some p ∧ 171 ≤ p) := by
  obtain ⟨defined, nonzero⟩ := factorialProduct_defined small
  rcases fallingProduct_cases number small with ⟨undefined, many, far⟩ | infinite | ⟨⟨r, hr⟩, near⟩
  · rw [undefined, Double.nan_div]
    exact iff_of_true (by decide) ⟨many, .inr far⟩
  · rw [Double.isNaN_infinity_div infinite defined, isInf_factorialProduct_iff small]
    exact ⟨fun many => ⟨many, .inl infinite⟩, And.left⟩
  · rw [Double.isNaN_number_div hr defined nonzero, (Double.finite_of_toRat? hr).2]
    refine iff_of_false Bool.false_ne_true ?_
    rintro ⟨many, overflowed | far⟩
    · cases overflowed
    · exact near many far

theorem isNaN_quotient_iff_of_far {p : ℚ} (hn : Double.toRat? n = some p) (far : p ≤ -1 ∨ 171 ≤ p)
    (small : k ≤ 2 ^ 53) : (fallingProduct n k / factorialProduct k).isNaN = true ↔ 171 ≤ k := by
  rw [isNaN_quotient_iff (Double.finite_of_toRat? hn).1 small, and_iff_left_iff_imp]
  intro many
  rcases far with negative | large
  · refine .inl (isInf_fallingProduct_mono hn many small (fun i _ same => ?_)
      (isInf_fallingProduct hn (.inl negative)))
    have natural : (0 : ℚ) ≤ i := Nat.cast_nonneg i
    linarith
  · exact .inr ⟨p, hn, large⟩

theorem isNaN_quotient_of_natural {m : Nat} (hn : Double.toRat? n = some (m : ℚ)) (few : m ≤ 170)
    (small : k ≤ 2 ^ 53) : (fallingProduct n k / factorialProduct k).isNaN = false := by
  rw [Bool.eq_false_iff, Ne, isNaN_quotient_iff (Double.finite_of_toRat? hn).1 small]
  rintro ⟨many, overflowed | ⟨p, hp, large⟩⟩
  · have zero := toRat?_fallingProduct_zero hn (show m < k by omega) small few
    exact Double.not_isInf_of_toRat? zero overflowed
  · obtain rfl := Option.some.inj (hn.symm.trans hp)
    have large' : 171 ≤ m := by exact_mod_cast large
    omega

end

theorem toRat?_literal {n : Nat} {x : Float} (short : n ≤ 2 ^ 53)
    (same : Double.nearestToInt n = x) : Double.toRat? x = some (n : ℚ) := by
  rw [← same]
  exact Double.toRat?_nearestToInt (n := n) short

section
variable [Transcendentals]

theorem binomialOf_undefined {n : Float} {k : Int} (outside : n.isNaN = true ∨ k < 0) :
    binomialOf (.double n) k = .ok Double.nan := by
  rw [binomialOf, Value.isNaN_double]
  rcases Bool.eq_false_or_eq_true n.isNaN with undefined | number
  · rw [undefined]
    rfl
  · rw [number]
    exact if_pos (outside.resolve_left (by rw [number]; exact Bool.false_ne_true))

/-- Of a number or an infinity and a `k` from 0 on the coefficient is undefined just if `k` is
at least 171 and the numerator has overflowed, too, be it that a zero factor comes after that. So it
is for all numbers from 171 on and up to -1, but not for the natural numbers below 171. -/
theorem binomial_undefined_iff : ∃ f, Catalogue.find? Catalogue.integers "binom_coeff" = some f ∧
    ∀ (n : Float) (k : Int), k.natAbs < 2 ^ 53 →
      ∃ y, f.apply [.double n, .int k] = .ok (.double y) ∧
        (y.isNaN = true ↔ n.isNaN = true ∨ k < 0 ∨ 171 ≤ k ∧
          ((fallingProduct n k.toNat).isInf = true ∨
            ∃ p, Double.toRat? n = some p ∧ 171 ≤ p)) ∧
        (∀ p, Double.toRat? n = some p → p ≤ -1 ∨ 171 ≤ p →
          (y.isNaN = true ↔ k < 0 ∨ 171 ≤ k)) ∧
        ∀ m : Nat, m ≤ 170 → Double.toRat? n = some (m : ℚ) → (y.isNaN = true ↔ k < 0) := by
  refine ⟨_, rfl, fun n k small => ?_⟩
  have undefined : Double.nan.isNaN = true := by decide
  by_cases outside : n.isNaN = true ∨ k < 0
  · refine ⟨Double.nan, congrArg asValue (binomialOf_undefined outside), ?_, ?_, ?_⟩
    · exact iff_of_true undefined (or_assoc.mp (.inl outside))
    · intro p hp _
      rw [(Double.finite_of_toRat? hp).1] at outside
      exact iff_of_true undefined (.inl (outside.resolve_left Bool.false_ne_true))
    · intro m _ hm
      rw [(Double.finite_of_toRat? hm).1] at outside
      exact iff_of_true undefined (outside.resolve_left Bool.false_ne_true)
  · obtain ⟨defined, nonneg⟩ := not_or.mp outside
    obtain ⟨j, rfl⟩ := Int.eq_ofNat_of_zero_le (Int.not_lt.mp nonneg)
    have number : n.isNaN = false := Bool.eq_false_iff.mpr defined
    have within : j ≤ 2 ^ 53 := by omega
    have many : (171 : Int) ≤ j ↔ 171 ≤ j := by omega
    refine ⟨_, congrArg asValue (binomialOf_double number (by omega)), ?_, ?_, ?_⟩
    · rw [isNaN_quotient_iff number within, or_iff_right defined, or_iff_right nonneg, many,
        Int.toNat_natCast]
    · intro p hp far
      rw [isNaN_quotient_iff_of_far hp far within, or_iff_right nonneg, many]
    · intro m few hm
      rw [isNaN_quotient_of_natural hm few within]
      exact iff_of_false Bool.false_ne_true nonneg

end

/-- The coefficient of 170 over 170 is still defined. -/
theorem binomial_170_defined : ∃ y,
    (NumericFunction.ofValuePair "binom_coeff" fun n k => do
      asValue (binomialOf n (← integer k))).apply [.double 170.0, .int 170] = .ok (.double y) ∧
    y.isNaN = false := by
  obtain ⟨f, found, spec⟩ := binomial_undefined_iff
  obtain rfl := Option.some.inj found
  obtain ⟨y, given, _, _, natural⟩ := spec 170.0 170 (by decide)
  refine ⟨y, given, Bool.eq_false_iff.mpr ?_⟩
  rw [Ne, natural 170 (le_refl _) (toRat?_literal (by decide) (by decide))]
  decide

/-- The coefficient of 171 over 171 is undefined, which ought to be 1. -/
theorem binomial_171_undefined : ∃ f y,
    Catalogue.find? Catalogue.integers "binom_coeff" = some f ∧
    f.apply [.double 171.0, .int 171] = .ok (.double y) ∧ Ring.choose (171 : Int) 171 = 1 ∧
    ¬ (y.isNaN = true ↔ (171.0 : Float).isNaN = true ∨ (171 : Int) < 0) := by
  have number : (171.0 : Float).isNaN = false := by decide
  have value : Double.toRat? 171.0 = some 171 := toRat?_literal (by decide) (by decide)
  have undefined := (isNaN_quotient_iff_of_far (k := 171) value (.inr (le_refl _))
    (by decide)).mpr (le_refl _)
  have given := binomialOf_double (k := 171) number (by decide)
  rw [Nat.cast_ofNat] at given
  refine ⟨_, fallingProduct 171.0 171 / factorialProduct 171, rfl, ?_, ?_, ?_⟩
  · rw [binomial_apply, given]
    rfl
  · have one := Ring.choose_natCast (R := ℤ) 171 171
    rwa [Nat.choose_self, Nat.cast_one, Nat.cast_ofNat] at one
  · rw [undefined, number]
    decide

end Discrete

end FiniteCalculus
