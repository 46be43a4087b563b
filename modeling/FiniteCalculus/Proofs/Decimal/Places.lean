import FiniteCalculus.Decimal.Places
import FiniteCalculus.Proofs.Double.Magnitudes
import FiniteCalculus.Proofs.Double.ReadBack
import FiniteCalculus.Proofs.Double.Sums

/-! What rounding at a decimal place makes zero: the numbers that are at most half of the unit at
that place, since a tie goes to the even digit. For doubles this holds beyond both ends of their
range as well, where no unit is formed. -/

namespace FiniteCalculus
set_option autoImplicit false

theorem nearestQuotient_eq_zero_iff {n d : Nat} (hd : 0 < d) :
    nearestQuotient n d = 0 ↔ 2 * n ≤ d := by
  constructor
  · intro zero
    have within := (nearestQuotient_within n d hd).1
    rw [zero] at within
    omega
  · intro small
    have none : n / d = 0 := Nat.div_eq_of_lt (by omega)
    have rest : n % d = n := Nat.mod_eq_of_lt (by omega)
    rw [nearestQuotient, none, rest]
    split
    · rfl
    · rw [if_neg (by omega)]

namespace Decimal

theorem powerOfTen_eq (places : Int) :
    (powerOfTen places : ℚ) = 10 ^ places * powerOfTen (-places) := by
  have ten : (10 : ℚ) ≠ 0 := by norm_num
  simp only [powerOfTen, Nat.pow_eq, Nat.cast_pow, Nat.cast_ofNat]
  rw [← zpow_natCast, ← zpow_natCast, ← zpow_add₀ ten]
  congr 1
  omega

/-- Half of the unit at a decimal place. -/
def halfUnit (places : Int) : ℚ := 10 ^ (-places) / 2

theorem halfUnit_pos (places : Int) : 0 < halfUnit places :=
  half_pos (zpow_pos (by norm_num) _)

theorem halfUnit_anti {fewer places : Int} (h : fewer ≤ places) :
    halfUnit places ≤ halfUnit fewer :=
  div_le_div_of_nonneg_right (zpow_le_zpow_right₀ (by norm_num) (by omega)) (by norm_num)

/-! Integers. -/

theorem lt_pow_digitCount (n : Nat) : n < 10 ^ digitCount n := by
  induction n using digitCount.induct with
  | case1 =>
    rw [digitCount, if_pos rfl]
    decide
  | case2 n nonzero ih =>
    rw [digitCount, if_neg nonzero, pow_succ]
    omega

theorem roundInt_eq_zero_iff (n places : Int) :
    roundInt n places = 0 ↔ |(n : ℚ)| ≤ halfUnit places := by
  rcases le_or_gt 0 places with whole | before
  · -- The unit is not above one, so that zero is the only integer so small.
    rw [roundInt_of_nonneg whole]
    constructor
    · rintro rfl
      rw [Int.cast_zero, abs_zero]
      exact (halfUnit_pos places).le
    · intro small
      have half := small.trans (halfUnit_anti whole)
      rw [halfUnit, neg_zero, zpow_zero] at half
      have below : |(n : ℚ)| < 1 := by linarith
      rw [← Int.cast_abs] at below
      exact Int.abs_lt_one_iff.mp (by exact_mod_cast below)
  · obtain ⟨k, rfl⟩ : ∃ k : Nat, places = -k := ⟨(-places).toNat, by omega⟩
    have unit : halfUnit (-k) = (10 ^ k : Nat) / 2 := by
      rw [halfUnit, neg_neg, zpow_natCast, Nat.cast_pow, Nat.cast_ofNat]
    have step : powerOfTen (- -(k : Int)) = 10 ^ k := by
      rw [powerOfTen, neg_neg, Int.toNat_natCast]
      rfl
    have iff : |(n : ℚ)| ≤ halfUnit (-k) ↔ 2 * n.natAbs ≤ 10 ^ k := by
      rw [unit, le_div_iff₀ (by norm_num), mul_comm, ← Int.cast_abs, Int.abs_eq_natAbs]
      exact_mod_cast Iff.rfl
    rw [iff, roundInt, if_neg (by omega), step, neg_neg, Int.toNat_natCast]
    split
    · next short =>
      -- So few digits leave the integer below a tenth of the unit.
      refine iff_of_true rfl ?_
      have few := (lt_pow_digitCount n.natAbs).trans_le
        (Nat.pow_le_pow_right (by decide) (Nat.le_pred_of_lt short))
      obtain ⟨j, rfl⟩ : ∃ j, k = j + 1 := ⟨k - 1, by omega⟩
      rw [Nat.pred_succ] at few
      rw [pow_succ]
      omega
    · dsimp only
      rw [← Int.natAbs_eq_zero, Double.natAbs_signed, Nat.mul_eq_zero,
        nearestQuotient_eq_zero_iff (Nat.pow_pos (by decide)),
        or_iff_left (Nat.pow_pos (by decide)).ne']

/-! Doubles. -/

theorem unitsAt_eq_zero_iff (m : Nat) (e places : Int) :
    unitsAt m e places = 0 ↔ (m : ℚ) * 2 ^ e ≤ halfUnit places := by
  have two : (0 : ℚ) < powerOfTwo (-e) := by exact_mod_cast powerOfTwo_pos (-e)
  have ten : (0 : ℚ) < powerOfTen (-places) := by exact_mod_cast powerOfTen_pos (-places)
  have unit : (0 : ℚ) < 10 ^ places := zpow_pos (by norm_num) places
  have counted : ((2 * (m * powerOfTwo e * powerOfTen places) : Nat) : ℚ) =
      m * 2 ^ e * (2 * 10 ^ places) * (powerOfTwo (-e) * powerOfTen (-places)) := by
    rw [Nat.cast_mul, Nat.cast_mul, Nat.cast_mul, Double.powerOfTwo_eq e, powerOfTen_eq places]
    push_cast
    ring
  have half : halfUnit places = 1 / (2 * 10 ^ places) := by
    rw [halfUnit, zpow_neg, one_div, mul_inv_rev, div_eq_mul_inv]
  rw [unitsAt, nearestQuotient_eq_zero_iff (Nat.mul_pos (powerOfTwo_pos _) (powerOfTen_pos _)),
    half, le_div_iff₀ (mul_pos (by norm_num) unit), ← Nat.cast_le (α := ℚ), counted, Nat.cast_mul,
    mul_le_iff_le_one_left (mul_pos two ten)]

theorem pow_split (b : Nat) (i j k : Nat) : b ^ (i * j + k) = (b ^ i) ^ j * b ^ k := by
  rw [pow_add, pow_mul]

/-- Beyond the finest places the least double is more than half of a unit. -/
theorem halfUnit_lt_least {places : Int} (h : finestPlaces < places) :
    halfUnit places < 2 ^ Double.leastExponent := by
  have powers : 2 ^ (93 * 11 + 51) ≤ 10 ^ (28 * 11 + 16) := by
    rw [pow_split, pow_split]
    exact Nat.mul_le_mul (Nat.pow_le_pow_left (by decide) 11) (by decide)
  have least : (2 : ℚ) ^ Double.leastExponent = ((2 ^ (93 * 11 + 51) : Nat) : ℚ)⁻¹ := by
    rw [Nat.cast_pow, Nat.cast_ofNat, ← zpow_natCast, ← zpow_neg]
    rfl
  have unit : (10 : ℚ) ^ (-324 : Int) = ((10 ^ (28 * 11 + 16) : Nat) : ℚ)⁻¹ := by
    rw [Nat.cast_pow, Nat.cast_ofNat, ← zpow_natCast, ← zpow_neg]
    rfl
  calc halfUnit places ≤ halfUnit 324 := halfUnit_anti h
    _ < 10 ^ (-324 : Int) := half_lt_self (zpow_pos (by norm_num) _)
    _ ≤ 2 ^ Double.leastExponent := by
      rw [least, unit]
      exact inv_anti₀ (by exact_mod_cast Nat.two_pow_pos _) (by exact_mod_cast powers)

/-- Beyond the coarsest places every double is less than half of a unit. -/
theorem greatest_le_halfUnit {places : Int} (h : places < coarsestPlaces) :
    Double.greatest ≤ halfUnit places := by
  have powers : 2 ^ (93 * 11 + 2) ≤ 10 ^ (28 * 11 + 1) := by
    rw [pow_split, pow_split]
    exact Nat.mul_le_mul (Nat.pow_le_pow_left (by decide) 11) (by decide)
  have top : (2 : ℚ) ^ 1024 = ((2 ^ (93 * 11 + 2) : Nat) : ℚ) / 2 := by
    rw [Nat.cast_pow, Nat.cast_ofNat, eq_div_iff (by norm_num), ← pow_succ]
  have unit : halfUnit (-309) = ((10 ^ (28 * 11 + 1) : Nat) : ℚ) / 2 := by
    rw [halfUnit, Nat.cast_pow, Nat.cast_ofNat, ← zpow_natCast]
    rfl
  calc Double.greatest ≤ 2 ^ 1024 :=
        (Double.greatest_lt_overflow.trans_le Double.overflow_le_pow).le
    _ ≤ halfUnit (-309) := by
      rw [top, unit]
      exact div_le_div_of_nonneg_right (by exact_mod_cast powers) (by norm_num)
    _ ≤ halfUnit places := halfUnit_anti (Int.le_sub_one_of_lt h)

theorem roundDouble_of_none {x : Float} {places : Int} (hx : Double.toRat? x = none) :
    roundDouble x places = .ok x := by
  unfold Double.toRat? at hx
  unfold roundDouble
  cases h : Double.parts x with
  | finite s m e =>
    rw [h] at hx
    cases hx
  | _ => rfl

theorem toRat?_zero (s : Bool) : Double.toRat? (Double.zero s) = some 0 := by
  cases s with
  | false => exact Double.toRat?_zero
  | true => exact Double.toRat?_neg_zero

section
variable {x : Float} {q : ℚ} {places : Int} (hx : Double.toRat? x = some q)
include hx

theorem roundDouble_of_le (small : |q| ≤ halfUnit places) :
    ∃ y, roundDouble x places = .ok y ∧ Double.toRat? y = some 0 := by
  obtain ⟨s, m, e, parts, rfl⟩ := Double.exists_parts hx
  rw [Double.abs_signed_mul] at small
  rw [roundDouble, parts]
  dsimp only
  by_cases kept : m = 0 ∨ finestPlaces < places
  · have none : m = 0 := by
      refine kept.elim id fun fine => ?_
      by_contra some
      have one : (1 : ℚ) ≤ m := by exact_mod_cast Nat.one_le_iff_ne_zero.mpr some
      have least : (2 : ℚ) ^ Double.leastExponent ≤ 2 ^ e :=
        zpow_le_zpow_right₀ (by norm_num) (Double.canonical_of_parts parts).1.least_le
      have large : (2 : ℚ) ^ e ≤ m * 2 ^ e :=
        le_mul_of_one_le_left (zpow_pos (by norm_num) e).le one
      linarith [halfUnit_lt_least fine]
    subst none
    exact ⟨x, if_pos kept, Double.toRat?_of_zero parts⟩
  · rw [if_neg kept]
    by_cases coarse : places < coarsestPlaces
    · exact ⟨Double.zero s, if_pos coarse, toRat?_zero s⟩
    · have zero := Double.ofDecimal_zero (-places)
      rw [if_neg coarse, (unitsAt_eq_zero_iff m e places).mpr small,
        (Double.finite_of_toRat? zero).2, if_neg Bool.false_ne_true]
      cases s with
      | false => exact ⟨_, rfl, zero⟩
      | true => exact ⟨_, rfl, Double.toRat?_neg_eq_zero_iff.mpr zero⟩

/-- What is more than half of a unit stays a number other than zero, or leaves the range. -/
theorem roundDouble_of_lt (large : halfUnit places < |q|) :
    roundDouble x places = .error .roundedTooLarge ∨
      ∃ y, roundDouble x places = .ok y ∧ Double.toRat? y ≠ some 0 := by
  have within := Double.abs_le_greatest hx
  have nonzero : q ≠ 0 := abs_pos.mp ((halfUnit_pos places).trans large)
  obtain ⟨s, m, e, parts, rfl⟩ := Double.exists_parts hx
  rw [Double.abs_signed_mul] at large within
  rw [roundDouble, parts]
  dsimp only
  by_cases kept : m = 0 ∨ finestPlaces < places
  · refine .inr ⟨x, if_pos kept, ?_⟩
    rw [hx]
    exact fun zero => nonzero (Option.some.inj zero)
  · have coarse : ¬ places < coarsestPlaces := fun coarse =>
      absurd large (not_lt.mpr (within.trans (greatest_le_halfUnit coarse)))
    have fine : -323 ≤ -places := neg_le_neg (not_lt.mp fun fine => kept (.inr fine))
    have some : Double.toRat? (Double.ofDecimal (unitsAt m e places) (-places)) ≠ some 0 := by
      rw [ne_eq, Double.toRat?_ofDecimal_eq_zero_iff fine, unitsAt_eq_zero_iff]
      exact not_le.mpr large
    rw [if_neg kept, if_neg coarse]
    split
    · exact .inl rfl
    · refine .inr ⟨_, rfl, ?_⟩
      cases s with
      | false => exact some
      | true => exact mt Double.toRat?_neg_eq_zero_iff.mp some

end

end Decimal

end FiniteCalculus
