import FiniteCalculus.Proofs.Double.Nearest

/-! Rounding a number that no mantissa holds. A quotient or a root is cut off to a whole mantissa,
and its accuracy tells on which side of the middle the rest lies. Two more bits hold as much, and
with them the mantissa is rounded as the number itself would be: both lie alike among the halves
of its last place, and so among all the places where rounding goes over to the next double. -/

namespace FiniteCalculus
set_option autoImplicit false

theorem IsNearestInteger.even_of_half {q : ℚ} {n : Int} (h : IsNearestInteger q n)
    (half : |q - n| = 1 / 2) : Even n := by
  rcases abs_cases (q - n) with ⟨same, _⟩ | ⟨same, _⟩
  · have other : |q - (n + 1 : Int)| = |q - n| := by
      rw [half, Int.cast_add, Int.cast_one, abs_of_nonpos (by linarith)]
      linarith
    exact ((h (n + 1)).2 other).resolve_left (by omega)
  · have other : |q - (n - 1 : Int)| = |q - n| := by
      rw [half, Int.cast_sub, Int.cast_one, abs_of_nonneg (by linarith)]
      linarith
    exact ((h (n - 1)).2 other).resolve_left (by omega)

/-- Only the two middles beside it decide whether an integer is nearest to a number. -/
theorem isNearestInteger_iff {q : ℚ} {n : Int} :
    IsNearestInteger q n ↔ 2 * (n : ℚ) - 1 ≤ 2 * q ∧ 2 * q ≤ 2 * n + 1 ∧
      (2 * q ≤ 2 * n - 1 ∨ 2 * (n : ℚ) + 1 ≤ 2 * q → Even n) := by
  constructor
  · intro h
    obtain ⟨low, high⟩ := abs_le.mp h.abs_sub_le_half
    refine ⟨by linarith, by linarith, fun tie => h.even_of_half ?_⟩
    rcases tie with left | right
    · rw [abs_of_nonpos (by linarith)]
      linarith
    · rw [abs_of_nonneg (by linarith)]
      linarith
  · rintro ⟨low, high, even⟩
    refine isNearestInteger_of_le_half (abs_le.mpr ⟨by linarith, by linarith⟩) fun half => even ?_
    rcases abs_cases (q - n) with ⟨same, _⟩ | ⟨same, _⟩
    · exact .inr (by linarith)
    · exact .inl (by linarith)

/-- The middle below zero is of no account, as there is nothing to be nearer to. -/
theorem isNearestInteger_iff_middles {q : ℚ} (nonneg : 0 ≤ q) (r : Nat) :
    IsNearestInteger q r ↔ ((2 * r - 1 : Nat) : ℚ) ≤ 2 * q ∧ 2 * q ≤ (2 * r + 1 : Nat) ∧
      (2 * q ≤ (2 * r - 1 : Nat) ∨ ((2 * r + 1 : Nat) : ℚ) ≤ 2 * q → Even r) := by
  have above : ((2 * r + 1 : Nat) : ℚ) = 2 * r + 1 := by push_cast; ring
  rw [isNearestInteger_iff, Int.cast_natCast, Int.even_coe_nat, above]
  rcases Nat.eq_zero_or_pos r with rfl | pos
  · have even : Even 0 := by decide
    simp only [even, implies_true, and_true, Nat.zero_sub, Nat.cast_zero, mul_zero]
    refine and_congr_left fun _ => ⟨fun _ => by linarith, fun _ => by linarith⟩
  · have below : ((2 * r - 1 : Nat) : ℚ) = 2 * r - 1 := by
      rw [Nat.cast_sub (by omega)]
      push_cast
      ring
    rw [below]

namespace Double

open Float.Model Float.Model.UnpackedFloat

/-- The rest that an accuracy stands for, in quarters of the last place. -/
def quarters : Accuracy → Nat
  | .exact => 0
  | .inexact .lt => 1
  | .inexact .eq => 2
  | .inexact .gt => 3

theorem quarters_lt (a : Accuracy) : quarters a < 4 := by
  rcases a with _ | ⟨_ | _ | _⟩ <;> decide

theorem shift_add (x : ExtendedMantissa) (i k : Nat) : x >>> (i + k) = (x >>> i) >>> k := by
  change (i + k).repeat ExtendedMantissa.shiftRightOne x =
    k.repeat ExtendedMantissa.shiftRightOne (x >>> i)
  induction k with
  | zero => rfl
  | succ k ih => rw [← Nat.add_assoc, Nat.repeat, Nat.repeat, ih]

theorem shift_quarters (m : Nat) (a : Accuracy) :
    ExtendedMantissa.ofMantissaAndAccuracy (4 * m + quarters a) .exact >>> 2 =
      ExtendedMantissa.ofMantissaAndAccuracy m a := by
  have mantissa : (4 * m + quarters a) / 2 ^ 2 = m := by
    have := quarters_lt a
    omega
  have round : 2 * (4 * m + quarters a) / 2 ^ 2 % 2 = quarters a / 2 := by
    have := quarters_lt a
    omega
  have sticky : 2 * (4 * m + quarters a) % 2 ^ 2 = 2 * (quarters a % 2) := by omega
  rw [shift_eq, mantissa, round, sticky]
  rcases a with _ | ⟨_ | _ | _⟩ <;> rfl

theorem lt_totalExponent {m : Nat} (pos : 0 < m) (e : Int) :
    (2 : ℚ) ^ (totalExponent m e - 1) ≤ m * 2 ^ e ∧ (m : ℚ) * 2 ^ e < 2 ^ totalExponent m e := by
  obtain ⟨low, high⟩ := (Nat.log2_eq_iff pos.ne').mp (rfl : m.log2 = m.log2)
  have unit : (0 : ℚ) < 2 ^ e := zpow_pos (by norm_num) e
  have low' : (2 : ℚ) ^ (m.log2 : Int) ≤ m := by
    rw [zpow_natCast]
    exact_mod_cast low
  have high' : (m : ℚ) < 2 ^ ((m.log2 : Int) + 1) := by
    rw [← Nat.cast_succ, zpow_natCast]
    exact_mod_cast high
  rw [totalExponent]
  constructor
  · calc (2 : ℚ) ^ ((m.log2 : Int) + 1 + e - 1) = 2 ^ (m.log2 : Int) * 2 ^ e := by
          rw [← zpow_add₀ (by norm_num)]
          congr 1
          omega
      _ ≤ m * 2 ^ e := mul_le_mul_of_nonneg_right low' unit.le
  · calc (m : ℚ) * 2 ^ e < 2 ^ ((m.log2 : Int) + 1) * 2 ^ e := mul_lt_mul_of_pos_right high' unit
      _ = 2 ^ ((m.log2 : Int) + 1 + e) := (zpow_add₀ (by norm_num) _ _).symm

theorem zpow_eq_twice (e : Int) : (2 : ℚ) ^ e = 2 * 2 ^ (e - 1) := by
  rw [← zpow_one_add₀ (by norm_num), add_sub_cancel]

/-- A mantissa that is cut off where rounding cuts it off or further to the right. -/
def IsLong (m : Nat) (e : Int) : Prop := leastExponent < e → 2 ^ 52 ≤ m

section
variable {m : Nat} {e : Int} (long : IsLong m e)
include long

theorem IsLong.le_target : e ≤ Format.binary64.targetExponent (totalExponent m e) := by
  rw [targetExponent_eq, totalExponent]
  rcases le_or_gt e leastExponent with low | above
  · exact low.trans (le_max_right _ _)
  · have many := (Nat.le_log2 (Nat.ne_zero_of_lt (long above))).mpr (long above)
    omega

theorem IsLong.target_quarters (a : Accuracy) :
    Format.binary64.targetExponent (totalExponent (4 * m + quarters a) (e - 2)) =
      Format.binary64.targetExponent (totalExponent m e) := by
  have small := quarters_lt a
  rw [targetExponent_eq, targetExponent_eq, totalExponent, totalExponent]
  rcases Nat.eq_zero_or_pos m with rfl | pos
  · -- There is no mantissa so short but below all other doubles.
    have low : e ≤ leastExponent := by
      by_contra above
      exact absurd (long (not_le.mp above)) (by decide)
    have few : (4 * 0 + quarters a).log2 < 2 := by
      rcases a with _ | ⟨_ | _ | _⟩ <;> decide
    have none : Nat.log2 0 = 0 := by decide
    omega
  · have more : (4 * m + quarters a).log2 = m.log2 + 2 := by
      obtain ⟨low, high⟩ := (Nat.log2_eq_iff pos.ne').mp (rfl : m.log2 = m.log2)
      refine (Nat.log2_eq_iff (by omega)).mpr ⟨?_, ?_⟩
      · rw [Nat.pow_add]
        omega
      · rw [show m.log2 + 2 + 1 = m.log2 + 1 + 2 by omega, Nat.pow_add]
        omega
    rw [more]
    congr 1
    push_cast
    ring

/-- A mantissa with an accuracy is rounded as it is with the two bits more. -/
theorem IsLong.roundWithAccuracy_eq (s : Sign) (a : Accuracy) :
    roundWithAccuracy Format.binary64 s m e a =
      UnpackedFloat.round Format.binary64 s (4 * m + quarters a) (e - 2) := by
  have le := long.le_target
  have same := long.target_quarters a
  generalize ht : Format.binary64.targetExponent (totalExponent m e) = t at le same
  have none : (e - 2 - t).toNat = 0 := by omega
  have first : shiftToTargetExponent Format.binary64 m e a =
      shiftToTargetExponent Format.binary64 (4 * m + quarters a) (e - 2) .exact := by
    have more : (t - (e - 2)).toNat = 2 + (t - e).toNat := by omega
    simp only [shiftToTargetExponent, shiftToExponent, same, ht, more, shift_add, shift_quarters]
    refine Prod.ext rfl ?_
    dsimp only
    omega
  simp only [UnpackedFloat.round, decreaseExponent, same, none, Nat.shiftLeft_zero,
    Int.natCast_zero, Int.sub_zero, roundWithAccuracy, first]

end

/-- What is cut off to a mantissa, and the accuracy that goes with it. The function counts halves of
the last place in the terms in which the number is given. -/
def CutOff (halves : Nat → Nat) (n m : Nat) : Accuracy → Prop
  | .exact => n = halves (2 * m)
  | .inexact .lt => halves (2 * m) < n ∧ n < halves (2 * m + 1)
  | .inexact .eq => n = halves (2 * m + 1)
  | .inexact .gt => halves (2 * m + 1) < n ∧ n < halves (2 * m + 2)

theorem CutOff.le_iff {halves : Nat → Nat} (increasing : StrictMono halves) {n m : Nat}
    {a : Accuracy} (cut : CutOff halves n m a) (h : Nat) :
    (halves h ≤ n ↔ 2 * h ≤ 4 * m + quarters a) ∧ (n ≤ halves h ↔ 4 * m + quarters a ≤ 2 * h) := by
  rcases a with _ | ⟨_ | _ | _⟩
  · rw [show n = halves (2 * m) from cut, increasing.le_iff_le, increasing.le_iff_le, quarters]
    omega
  · obtain ⟨low, high⟩ := cut
    rw [quarters]
    rcases Nat.lt_or_ge (2 * m) h with right | left
    · have : halves (2 * m + 1) ≤ halves h := increasing.monotone right
      omega
    · have : halves h ≤ halves (2 * m) := increasing.monotone left
      omega
  · rw [show n = halves (2 * m + 1) from cut, increasing.le_iff_le, increasing.le_iff_le, quarters]
    omega
  · obtain ⟨low, high⟩ := cut
    rw [quarters]
    rcases Nat.lt_or_ge (2 * m + 1) h with right | left
    · have : halves (2 * m + 2) ≤ halves h := increasing.monotone right
      omega
    · have : halves h ≤ halves (2 * m + 1) := increasing.monotone left
      omega

/-! Two numbers that lie alike among the multiples of a unit are rounded alike. -/

/-- No multiple of the unit lies between the two numbers, nor on one of them only. -/
def SameMultiples (u v w : ℚ) : Prop :=
  ∀ h : Nat, (h * u ≤ v ↔ h * u ≤ w) ∧ (v ≤ h * u ↔ w ≤ h * u)

theorem halves_le_quarters (h n : Nat) (t : Int) :
    ((h : ℚ) * 2 ^ (t - 1) ≤ n * 2 ^ (t - 2) ↔ 2 * h ≤ n) ∧
      ((n : ℚ) * 2 ^ (t - 2) ≤ h * 2 ^ (t - 1) ↔ n ≤ 2 * h) := by
  have unit : (0 : ℚ) < 2 ^ (t - 2) := zpow_pos (by norm_num) _
  have scaled : (h : ℚ) * 2 ^ (t - 1) = (2 * h : Nat) * 2 ^ (t - 2) := by
    rw [zpow_eq_twice, sub_sub, one_add_one_eq_two]
    push_cast
    ring
  rw [scaled, mul_le_mul_iff_left₀ unit, mul_le_mul_iff_left₀ unit, Nat.cast_le, Nat.cast_le]
  exact ⟨Iff.rfl, Iff.rfl⟩

theorem mul_le_quarters (m : Nat) (a : Accuracy) (t : Int) :
    (m : ℚ) * 2 ^ t ≤ (4 * m + quarters a : Nat) * 2 ^ (t - 2) := by
  have unit : (0 : ℚ) < 2 ^ (t - 2) := zpow_pos (by norm_num) _
  have four : (2 : ℚ) ^ t = 4 * 2 ^ (t - 2) := by
    rw [zpow_eq_twice, zpow_eq_twice (t - 1), sub_sub, one_add_one_eq_two]
    ring
  rw [four, ← mul_assoc]
  refine mul_le_mul_of_nonneg_right ?_ unit.le
  exact_mod_cast (by omega : m * 4 ≤ 4 * m + quarters a)

theorem CutOff.sameMultiples {halves : Nat → Nat} (increasing : StrictMono halves) {n m : Nat}
    {a : Accuracy} (cut : CutOff halves n m a) {t : Int} {v : ℚ}
    (meaning : ∀ h : Nat, (halves h ≤ n ↔ h * 2 ^ (t - 1) ≤ v) ∧
      (n ≤ halves h ↔ v ≤ h * 2 ^ (t - 1))) :
    SameMultiples (2 ^ (t - 1)) v ((4 * m + quarters a : Nat) * 2 ^ (t - 2)) := by
  intro h
  obtain ⟨ge, le⟩ := cut.le_iff increasing h
  obtain ⟨ge', le'⟩ := halves_le_quarters h (4 * m + quarters a) t
  rw [← (meaning h).1, ← (meaning h).2, ge', le']
  exact ⟨ge, le⟩

section
variable {u v w : ℚ} {e : Int} {j : Nat} (alike : SameMultiples u v w)
  (place : (2 : ℚ) ^ e = 2 ^ (j + 1) * u)
include alike place

theorem SameMultiples.roundsAt (h : RoundsAt w e) : RoundsAt v e := by
  have power (k : Nat) : (2 : ℚ) ^ (k + e) = (2 ^ (k + j + 1) : Nat) * u := by
    rw [zpow_add₀ (by norm_num), place, zpow_natCast]
    push_cast
    ring
  refine ⟨h.least_le, ?_, fun above => ?_⟩
  · have lt := h.lt
    rw [show (53 : Int) = (53 : Nat) from rfl, power, ← not_le] at lt ⊢
    rwa [(alike _).1]
  · have le := h.le above
    rw [show (52 : Int) = (52 : Nat) from rfl, power] at le ⊢
    rwa [(alike _).1]

theorem SameMultiples.isNearestInteger {r : Nat} (first : 0 ≤ v) (other : 0 ≤ w)
    (h : IsNearestInteger (w / 2 ^ e) r) : IsNearestInteger (v / 2 ^ e) r := by
  have unit : (0 : ℚ) < 2 ^ e := zpow_pos (by norm_num) e
  have half : (2 : ℚ) ^ e / 2 = 2 ^ j * u := by
    rw [place]
    ring
  have twice (x : ℚ) : 2 * (x / 2 ^ e) = x / (2 ^ j * u) := by
    rw [← half]
    ring
  have pos : 0 < 2 ^ j * u := by linarith
  have ge (k : Nat) (x : ℚ) : (k : ℚ) ≤ 2 * (x / 2 ^ e) ↔ (k * 2 ^ j : Nat) * u ≤ x := by
    rw [twice, le_div_iff₀ pos, ← mul_assoc]
    push_cast
    rfl
  have le (k : Nat) (x : ℚ) : 2 * (x / 2 ^ e) ≤ k ↔ x ≤ (k * 2 ^ j : Nat) * u := by
    rw [twice, div_le_iff₀ pos, ← mul_assoc]
    push_cast
    rfl
  rw [isNearestInteger_iff_middles (div_nonneg other unit.le)] at h
  rw [isNearestInteger_iff_middles (div_nonneg first unit.le)]
  simp only [ge, le, (alike _).1, (alike _).2] at h ⊢
  exact h

end

section
variable {m : Nat} {t : Int} (long : IsLong m t) {w : ℚ} (le : (m : ℚ) * 2 ^ t ≤ w)
include long le

theorem IsLong.pow_le (above : leastExponent < t) : 2 ^ (52 + t) ≤ w := by
  have many : (2 : ℚ) ^ 52 ≤ m := by exact_mod_cast long above
  calc (2 : ℚ) ^ (52 + t) = 2 ^ 52 * 2 ^ t := zpow_add₀ (by norm_num) 52 t
    _ ≤ m * 2 ^ t := mul_le_mul_of_nonneg_right many (zpow_pos (by norm_num) t).le
    _ ≤ w := le

theorem IsLong.le_of_roundsAt {e : Int} (place : RoundsAt w e) : t ≤ e := by
  rcases le_or_gt t leastExponent with low | above
  · exact low.trans place.least_le
  · have := (zpow_lt_zpow_iff_right₀ (by norm_num)).mp ((long.pow_le le above).trans_lt place.lt)
    omega

end

/-- A number that was cut off to a long mantissa is rounded as if it had been a mantissa. -/
theorem IsLong.isRounded {m : Nat} {t : Int} (long : IsLong m t) (s : Sign) (a : Accuracy) {v : ℚ}
    (pos : 0 < v)
    (alike : SameMultiples (2 ^ (t - 1)) v ((4 * m + quarters a : Nat) * 2 ^ (t - 2))) :
    IsRounded (signed (s == .negative) 1 * v)
      (.ofModel (.pack (roundWithAccuracy Format.binary64 s m t a))) := by
  have two : (2 : ℚ) ≠ 0 := by norm_num
  have some : 0 < 4 * m + quarters a := by
    refine Nat.pos_of_ne_zero fun none => ?_
    have zero := (alike 0).2.mpr (by rw [none, Nat.cast_zero, zero_mul, zero_mul])
    rw [Nat.cast_zero, zero_mul] at zero
    exact absurd zero (not_le.mpr pos)
  obtain ⟨e, r, place, nearest, result⟩ := roundsTo_round s some (t - 2)
  have le := long.le_of_roundsAt (mul_le_quarters m a t) place
  have step : (2 : ℚ) ^ e = 2 ^ ((e - t).toNat + 1) * 2 ^ (t - 1) := by
    rw [← zpow_natCast, ← zpow_add₀ two]
    congr 1
    omega
  rw [long.roundWithAccuracy_eq]
  refine RoundsTo.isRounded ⟨e, r, alike.roundsAt step place, ?_, result⟩ pos.le
  exact alike.isNearestInteger step pos.le (by positivity) nearest

end Double

end FiniteCalculus
