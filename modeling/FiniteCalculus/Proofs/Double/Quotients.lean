import FiniteCalculus.Proofs.Double.Accuracy
import FiniteCalculus.Proofs.Double.Products

/-! Quotients of two doubles. The mantissas are divided with so many bits that no double is missed,
and the remainder is kept as an accuracy, so that a quotient is rounded once, like a product. -/

namespace FiniteCalculus.Double
set_option autoImplicit false

open Float.Model Float.Model.UnpackedFloat

theorem cutOff_fraction (n : Nat) {d : Nat} (pos : 0 < d) :
    CutOff (fun h => h * d) (2 * n) (n / d) (accuracyOfFraction (n % d) d) := by
  have split : n / d * d + n % d = n := Nat.div_add_mod' n d
  have small : n % d < d := Nat.mod_lt n pos
  have half (c : Nat) : (2 * (n / d) + c) * d = 2 * (n / d * d) + c * d := by ring
  rw [accuracyOfFraction]
  split
  · rename_i none
    change 2 * n = (2 * (n / d) + 0) * d
    rw [half]
    omega
  · rename_i some
    cases hc : compare (2 * (n % d)) d with
    | lt =>
      have := compare_lt_iff_lt.mp hc
      change (2 * (n / d) + 0) * d < 2 * n ∧ 2 * n < (2 * (n / d) + 1) * d
      rw [half, half]
      omega
    | eq =>
      have := compare_eq_iff_eq.mp hc
      change 2 * n = (2 * (n / d) + 1) * d
      rw [half]
      omega
    | gt =>
      have := compare_gt_iff_gt.mp hc
      change (2 * (n / d) + 1) * d < 2 * n ∧ 2 * n < (2 * (n / d) + 2) * d
      rw [half, half]
      omega

section
variable {m n c : Nat} {e k t : Int} (right : 0 < n)
  (value : (c : ℚ) * 2 ^ (k + t) = m * 2 ^ e)
include right value

/-- The exponents of the two numbers tell that of the quotient, but for one. -/
theorem pow_le_quotient (left : 0 < m)
    (few : totalExponent n k + 52 + t ≤ totalExponent m e - 1) : 2 ^ 52 ≤ c / n := by
  have two : (2 : ℚ) ≠ 0 := by norm_num
  rw [Nat.le_div_iff_mul_le right]
  have size : (2 ^ 52 * n : ℚ) * 2 ^ (k + t) ≤ c * 2 ^ (k + t) := by
    calc (2 ^ 52 * n : ℚ) * 2 ^ (k + t) = n * 2 ^ k * 2 ^ (52 + t) := by
          rw [zpow_add₀ two, zpow_add₀ two]
          norm_num
          ring
      _ ≤ 2 ^ totalExponent n k * 2 ^ (52 + t) := mul_le_mul_of_nonneg_right
          (lt_totalExponent right k).2.le (zpow_pos (by norm_num) _).le
      _ = 2 ^ (totalExponent n k + 52 + t) := by rw [← zpow_add₀ two, add_assoc]
      _ ≤ 2 ^ (totalExponent m e - 1) := zpow_le_zpow_right₀ (by norm_num) few
      _ ≤ m * 2 ^ e := (lt_totalExponent left e).1
      _ = c * 2 ^ (k + t) := value.symm
  exact_mod_cast le_of_mul_le_mul_right size (zpow_pos (by norm_num) _)

theorem sameMultiples_quotient : SameMultiples (2 ^ (t - 1)) (m * 2 ^ e / (n * 2 ^ k))
    ((4 * (c / n) + quarters (accuracyOfFraction (c % n) n) : Nat) * 2 ^ (t - 2)) := by
  have increasing : StrictMono fun h => h * n := fun i j lt => Nat.mul_lt_mul_of_pos_right lt right
  refine (cutOff_fraction c right).sameMultiples increasing fun h => ?_
  have unit : (0 : ℚ) < 2 ^ (k + t - 1) := zpow_pos (by norm_num) _
  have whole : (m : ℚ) * 2 ^ e = (2 * c : Nat) * 2 ^ (k + t - 1) := by
    rw [← value, zpow_eq_twice]
    push_cast
    ring
  have halves : (h : ℚ) * 2 ^ (t - 1) * (n * 2 ^ k) = (h * n : Nat) * 2 ^ (k + t - 1) := by
    rw [show k + t - 1 = (t - 1) + k by ring, zpow_add₀ (by norm_num)]
    push_cast
    ring
  have divisor := mul_zpow_pos right k
  rw [le_div_iff₀ divisor, div_le_iff₀ divisor, halves, whole, mul_le_mul_iff_left₀ unit,
    mul_le_mul_iff_left₀ unit, Nat.cast_le, Nat.cast_le]
  exact ⟨Iff.rfl, Iff.rfl⟩

end

/-- A division of mantissas keeps as much of the quotient as is needed to round it. -/
theorem divCore_sameMultiples {m n : Nat} (left : 0 < m) (right : 0 < n) (e k : Int) :
    ∃ c t a, divCore Format.binary64 m e n k = (c, t, a) ∧ IsLong c t ∧
      SameMultiples (2 ^ (t - 1)) (m * 2 ^ e / (n * 2 ^ k))
        ((4 * c + quarters a : Nat) * 2 ^ (t - 2)) := by
  obtain ⟨t, ht⟩ : ∃ t, t = min (e - k)
      (Format.binary64.targetExponent (totalExponent m e - totalExponent n k)) := ⟨_, rfl⟩
  obtain ⟨c, hc⟩ : ∃ c, c = m <<< (e - k - t).toNat := ⟨_, rfl⟩
  have value : (c : ℚ) * 2 ^ (k + t) = m * 2 ^ e := by
    rw [hc, show e - k - t = e - (k + t) by ring]
    exact shiftLeft_mul_zpow m (by omega)
  refine ⟨c / n, t, accuracyOfFraction (c % n) n, ?_, fun above => ?_,
    sameMultiples_quotient right value⟩
  · simp only [divCore, ← ht, ← hc]
  · rw [targetExponent_eq] at ht
    exact pow_le_quotient right value left (by omega)

theorem apply_eq_mul (s : Sign) (m : Nat) :
    ((s.apply m : Int) : ℚ) = signed (s == .negative) 1 * m := by
  rw [← signed_eq_apply, signed_eq_mul]

theorem signed_div (s t : Sign) (a b : ℚ) :
    signed (s == .negative) 1 * a / (signed (t == .negative) 1 * b) =
      (signed (s / t == .negative) 1 : ℚ) * (a / b) := by
  have plus : ((signed false 1 : Int) : ℚ) = 1 := by norm_num [signed]
  have minus : ((signed true 1 : Int) : ℚ) = -1 := by norm_num [signed]
  rw [mul_div_mul_comm]
  congr 1
  cases s <;> cases t
  · change ((signed true 1 : Int) : ℚ) / (signed true 1 : Int) = (signed false 1 : Int)
    rw [plus, minus, neg_div_neg_eq, div_one]
  · change ((signed true 1 : Int) : ℚ) / (signed false 1 : Int) = (signed true 1 : Int)
    rw [plus, minus, div_one]
  · change ((signed false 1 : Int) : ℚ) / (signed true 1 : Int) = (signed true 1 : Int)
    rw [plus, minus, div_neg, div_one]
  · change ((signed false 1 : Int) : ℚ) / (signed false 1 : Int) = (signed false 1 : Int)
    rw [plus, div_one]

section
variable {x y : Float} {p q : ℚ} (hx : toRat? x = some p) (hy : toRat? y = some q)
include hx hy

theorem isRounded_div (nonzero : q ≠ 0) : IsRounded (p / q) (x / y) := by
  obtain ⟨t, n, k, right, uy, rfl⟩ : ∃ t n k pos, y.toModel.unpack = .finite t n k pos ∧
      q = (t.apply n : Int) * 2 ^ k := by
    rcases number_cases hy with ⟨_, _, zero⟩ | finite
    · exact absurd zero nonzero
    · exact finite
  rcases number_cases hx with ⟨s, ux, rfl⟩ | ⟨s, m, e, left, ux, rfl⟩
  · rw [zero_div, div_eq, ux, uy]
    exact isRounded_of_toRat? (toRat?_pack_zero _)
  · obtain ⟨c, l, a, core, long, alike⟩ := divCore_sameMultiples left right e k
    have positive := div_pos (mul_zpow_pos left e) (mul_zpow_pos right k)
    rw [apply_eq_mul, apply_eq_mul, mul_assoc, mul_assoc, signed_div, div_eq, ux, uy]
    simp only [UnpackedFloat.div, core]
    exact long.isRounded (s / t) a positive alike

end

/-- A quotient that is a whole number is exact. -/
theorem toRat?_div {x y : Float} {p q : ℚ} {n : Int} (hx : toRat? x = some p)
    (hy : toRat? y = some q) (quotient : p = n * q) (nonzero : q ≠ 0) (le : n.natAbs ≤ 2 ^ 53) :
    toRat? (x / y) = some (n : ℚ) :=
  (isRounded_div hx hy nonzero).toRat?_int (by rw [quotient, mul_div_cancel_right₀ _ nonzero]) le

theorem infinity_div_positive {y z : Float} {p : ℚ} (hy : y.toModel.unpack = .infinity .positive)
    (hz : toRat? z = some p) (pos : 0 < p) : y / z = y := by
  have kept : Float.ofModel (.pack (.infinity .positive)) = y := hy ▸ ofModel_pack_unpack y
  rcases sign_cases hz with ⟨_, _, rfl⟩ | ⟨m, e, left, uz, _⟩ | ⟨m, e, left, _, rfl⟩
  · exact absurd pos (lt_irrefl 0)
  · rw [div_eq, hy, uz]
    exact kept
  · exact absurd (mul_zpow_pos left e) (by linarith)

end FiniteCalculus.Double
