import FiniteCalculus.Proofs.Double.Canonical

/-! The double that a number is rounded to. A mantissa that is too long is shifted to the
right, and the two bits that a shift keeps beside it tell on which side of the middle the
rest lies. So what is rounded is the nearest multiple of a power of two, and every finite
double is such a multiple or lies below all numbers of that length. From the middle
between the greatest double and the next power of two on, numbers go to an infinity. -/

namespace FiniteCalculus
set_option autoImplicit false

namespace Double

open Float.Model Float.Model.UnpackedFloat

/-- No finite double is nearer to the number, and another number is as near only if the
mantissa of this one is even. -/
def IsNearest (q : ℚ) (x : Float) : Prop :=
  ∃ s m e, parts x = .finite s m e ∧ ∀ y p, toRat? y = some p →
    |q - signed s m * 2 ^ e| ≤ |q - p| ∧
      (|q - p| = |q - signed s m * 2 ^ e| → p = signed s m * 2 ^ e ∨ Even m)

theorem isNearest_of_toRat? {q : ℚ} {x : Float} (h : toRat? x = some q) : IsNearest q x := by
  obtain ⟨s, m, e, hx, rfl⟩ := exists_parts h
  refine ⟨s, m, e, hx, fun y p _ => ?_⟩
  rw [sub_self, abs_zero]
  refine ⟨abs_nonneg _, fun same => .inl ?_⟩
  exact (sub_eq_zero.mp (abs_eq_zero.mp same)).symm

/-! What the shifted mantissa and its two bits keep of a number. -/

theorem shift_eq (n k : Nat) :
    ExtendedMantissa.ofMantissaAndAccuracy n .exact >>> k =
      { mantissa := n / 2 ^ k
        roundBit := 2 * n / 2 ^ k % 2 != 0
        stickyBit := 2 * n % 2 ^ k != 0 } := by
  change k.repeat ExtendedMantissa.shiftRightOne _ = _
  induction k with
  | zero => simp [Nat.repeat, ExtendedMantissa.ofMantissaAndAccuracy, Nat.mod_one]
  | succ k ih =>
    rw [Nat.repeat, ih, ExtendedMantissa.shiftRightOne]
    have mantissa : n / 2 ^ k / 2 = n / 2 ^ (k + 1) := by
      rw [Nat.div_div_eq_div_mul, Nat.pow_succ]
    have round : 2 * n / 2 ^ (k + 1) = n / 2 ^ k := by
      rw [Nat.pow_succ', Nat.mul_div_mul_left _ _ (by decide)]
    have unit : 0 < 2 ^ k := Nat.two_pow_pos k
    have sticky : (2 * n / 2 ^ k % 2 != 0 || 2 * n % 2 ^ k != 0) = (2 * n % 2 ^ (k + 1) != 0) := by
      rw [Bool.eq_iff_iff, Nat.mod_pow_succ]
      rcases Nat.mod_two_eq_zero_or_one (2 * n / 2 ^ k) with h | h
      · simp [h]
      · simp [h]
    rw [mantissa, round, sticky]

/-- The bits that are shifted out are rounded to the nearest, a tie to the even mantissa. -/
theorem roundedMantissa_shift (n k : Nat) :
    (ExtendedMantissa.ofMantissaAndAccuracy n .exact >>> k).roundedMantissa =
      nearestQuotient n (2 ^ k) := by
  have unit : 0 < 2 ^ k := Nat.two_pow_pos k
  have split := Nat.div_add_mod n (2 ^ k)
  have twice := Nat.div_add_mod (2 * n) (2 ^ k)
  have small : n % 2 ^ k < 2 ^ k := Nat.mod_lt n unit
  have rest : 2 * n % 2 ^ k < 2 ^ k := Nat.mod_lt _ unit
  have half : 2 * n / 2 ^ k / 2 = n / 2 ^ k := by
    rw [Nat.div_div_eq_div_mul, Nat.mul_comm (2 ^ k) 2, Nat.mul_div_mul_left _ _ (by decide)]
  rw [shift_eq]
  unfold nearestQuotient
  dsimp only
  generalize 2 ^ k = d at *
  -- The round bit and the rest make up twice the remainder.
  have remainder : 2 * (n % d) = d * (2 * n / d % 2) + 2 * n % d := by
    have bits := Nat.div_add_mod (2 * n / d) 2
    rw [half] at bits
    have whole : d * (2 * n / d) = 2 * (d * (n / d)) + d * (2 * n / d % 2) := by
      calc d * (2 * n / d) = d * (2 * (n / d) + 2 * n / d % 2) := by rw [bits]
        _ = 2 * (d * (n / d)) + d * (2 * n / d % 2) := by ring
    omega
  rw [remainder]
  have rounded (round sticky : Bool) : ExtendedMantissa.roundedMantissa ⟨n / d, round, sticky⟩ =
      if round then (if sticky then n / d + 1 else n / d + n / d % 2) else n / d := by
    cases round <;> cases sticky <;> rfl
  rw [rounded]
  rcases Nat.mod_two_eq_zero_or_one (2 * n / d) with bit | bit
  · rw [bit, Nat.mul_zero, Nat.zero_add, if_pos rest]
    rfl
  · have above : ¬ d * 1 + 2 * n % d < d := by omega
    rw [bit, if_neg above, Nat.mul_one]
    rcases Nat.eq_zero_or_pos (2 * n % d) with none | some
    · have even : ¬ d < d + 0 := by omega
      rw [none, if_neg even]
      rfl
    · have up : d < d + 2 * n % d := by omega
      rw [if_pos up, if_pos (by decide), if_pos (bne_iff_ne.mpr some.ne')]

/-- The exponent of the last place of a number that is rounded to a double. -/
structure RoundsAt (q : ℚ) (e : Int) : Prop where
  least_le : leastExponent ≤ e
  lt : q < 2 ^ (53 + e)
  le : leastExponent < e → 2 ^ (52 + e) ≤ q

theorem targetExponent_eq (t : Int) :
    Format.binary64.targetExponent t = max (t - 53) leastExponent := by
  have least : Format.binary64.minExponent = leastExponent := by decide
  rw [Format.targetExponent, least]
  rfl

theorem roundsAt_target {n : Nat} (pos : 0 < n) (k : Int) :
    RoundsAt (n * 2 ^ k) (Format.binary64.targetExponent (totalExponent n k)) := by
  obtain ⟨low, high⟩ := (Nat.log2_eq_iff pos.ne').mp (rfl : n.log2 = n.log2)
  have low' : (2 : ℚ) ^ (n.log2 : Int) ≤ n := by
    rw [zpow_natCast]
    exact_mod_cast low
  have high' : (n : ℚ) < 2 ^ ((n.log2 : Int) + 1) := by
    rw [← Nat.cast_succ, zpow_natCast]
    exact_mod_cast high
  have unit : (0 : ℚ) < 2 ^ k := zpow_pos (by norm_num) k
  rw [targetExponent_eq, totalExponent]
  refine ⟨le_max_right _ _, ?_, fun above => ?_⟩
  · calc (n : ℚ) * 2 ^ k < 2 ^ ((n.log2 : Int) + 1) * 2 ^ k := mul_lt_mul_of_pos_right high' unit
      _ = 2 ^ ((n.log2 : Int) + 1 + k) := (zpow_add₀ (by norm_num) _ _).symm
      _ ≤ _ := zpow_le_zpow_right₀ (by norm_num) (by omega)
  · calc (2 : ℚ) ^ (52 + max ((n.log2 : Int) + 1 + k - 53) leastExponent) =
          2 ^ ((n.log2 : Int) + k) := by congr 1; omega
      _ = 2 ^ (n.log2 : Int) * 2 ^ k := zpow_add₀ (by norm_num) _ _
      _ ≤ n * 2 ^ k := mul_le_mul_of_nonneg_right low' unit.le

section
variable {q : ℚ} {e : Int} {r : Nat}

theorem RoundsAt.nearest_le (place : RoundsAt q e) (nearest : IsNearestInteger (q / 2 ^ e) r) :
    r ≤ 2 ^ 53 := by
  have above : q / 2 ^ e ≤ ((2 ^ 53 : Int) : ℚ) := by
    have le := place.lt.le
    rw [zpow_add₀ (by norm_num)] at le
    rw [div_le_iff₀ (zpow_pos (by norm_num) e)]
    exact_mod_cast le
  exact_mod_cast nearest.le_of_ge above

theorem RoundsAt.le_nearest (place : RoundsAt q e) (nearest : IsNearestInteger (q / 2 ^ e) r)
    (above : leastExponent < e) : 2 ^ 52 ≤ r := by
  have below : ((2 ^ 52 : Int) : ℚ) ≤ q / 2 ^ e := by
    have le := place.le above
    rw [zpow_add₀ (by norm_num)] at le
    rw [le_div_iff₀ (zpow_pos (by norm_num) e)]
    exact_mod_cast le
  exact_mod_cast nearest.le_of_le below

end

/-- A mantissa that was rounded is kept, or its carry is taken off. -/
theorem shift_rounded {r : Nat} {e : Int} (le : r ≤ 2 ^ 53) (least_le : leastExponent ≤ e)
    (full : leastExponent < e → 2 ^ 52 ≤ r) :
    ∃ m e', shiftToTargetExponent Format.binary64 r e .exact =
        (ExtendedMantissa.ofMantissaAndAccuracy m .exact, e') ∧
      Canonical m e' ∧ (m : ℚ) * 2 ^ e' = r * 2 ^ e ∧ (Even r → Even m) := by
  rcases Nat.lt_or_eq_of_le le with lt | rfl
  · refine ⟨r, e, ?_, ⟨lt, least_le, full⟩, rfl, id⟩
    have log : r.log2 ≤ 52 := by
      rcases Nat.eq_zero_or_pos r with rfl | pos
      · decide
      · exact Nat.le_of_lt_succ ((Nat.log2_lt pos.ne').mpr lt)
    have amount : (Format.binary64.targetExponent (totalExponent r e) - e).toNat = 0 := by
      rw [targetExponent_eq, totalExponent]
      omega
    simp only [shiftToTargetExponent, shiftToExponent, amount, Int.natCast_zero, Int.add_zero]
    rfl
  · have carried : Full (2 ^ 52) := ⟨le_refl _, by decide⟩
    have least : leastExponent = -1074 := rfl
    refine ⟨2 ^ 52, e + 1, ?_, carried.canonical (by omega), ?_, fun _ => by decide⟩
    · have shifted := shiftToTargetExponent_exact carried 1 (e := e + 1) (by omega)
      rwa [Int.natCast_one, Int.add_sub_cancel] at shifted
    · rw [zpow_add₀ (by norm_num)]
      push_cast
      ring

/-- What a number of that sign and size is rounded to: the nearest multiple of its last place. -/
def RoundsTo (q : ℚ) (s : Sign) (f : UnpackedFloat) : Prop :=
  ∃ (e : Int) (r : Nat), RoundsAt q e ∧ IsNearestInteger (q / 2 ^ e) r ∧
    ((r = 0 ∧ f = .zero s) ∨
      ∃ (m : Nat) (e' : Int) (pos : 0 < m), f = .finite s m e' pos ∧
        Canonical m e' ∧ (m : ℚ) * 2 ^ e' = r * 2 ^ e ∧ (Even r → Even m))

theorem roundsTo_round (s : Sign) {n : Nat} (pos : 0 < n) (k : Int) :
    RoundsTo (n * 2 ^ k) s (UnpackedFloat.round Format.binary64 s n k) := by
  have place := roundsAt_target pos k
  generalize target : Format.binary64.targetExponent (totalExponent n k) = e at place
  -- Either the mantissa is too short and made longer, or it is too long and shifted.
  obtain ⟨j, hj⟩ : ∃ j, j = (k - e).toNat := ⟨_, rfl⟩
  obtain ⟨i, hi⟩ : ∃ i, i = (e - (k - j)).toNat := ⟨_, rfl⟩
  have value : ((n * 2 ^ j : Nat) : ℚ) / (2 ^ i : Nat) = n * 2 ^ k / 2 ^ e := by
    have two : (2 : ℚ) ≠ 0 := by norm_num
    rw [div_eq_div_iff (by positivity) (zpow_pos (by norm_num) e).ne']
    push_cast
    rw [← zpow_natCast, ← zpow_natCast, mul_assoc, mul_assoc, ← zpow_add₀ two, ← zpow_add₀ two]
    congr 2
    omega
  have nearest := isNearestInteger_nearestQuotient (n * 2 ^ j) (Nat.two_pow_pos i)
  rw [value] at nearest
  have unit : (0 : ℚ) < 2 ^ e := zpow_pos (by norm_num) e
  obtain ⟨m, e', again, form, same, even⟩ :=
    shift_rounded (place.nearest_le nearest) place.least_le (place.le_nearest nearest)
  have first : shiftToTargetExponent Format.binary64 (n * 2 ^ j) (k - j) .exact =
      (ExtendedMantissa.ofMantissaAndAccuracy (n * 2 ^ j) .exact >>> i, e) := by
    have still : Format.binary64.targetExponent (totalExponent (n * 2 ^ j) (k - j)) = e := by
      rw [← target, totalExponent, totalExponent, log2_mul_pow n j pos]
      congr 1
      push_cast
      ring
    simp only [shiftToTargetExponent, shiftToExponent, still, ← hi]
    exact Prod.ext rfl (by dsimp only; omega)
  have mantissa : (ExtendedMantissa.ofMantissaAndAccuracy m .exact).mantissa = m := rfl
  refine ⟨e, _, place, nearest, ?_⟩
  simp only [UnpackedFloat.round, decreaseExponent, target, ← hj, Nat.shiftLeft_eq,
    roundWithAccuracy, first, roundedMantissa_shift, again, mantissa]
  rcases Nat.eq_zero_or_pos m with rfl | left
  · refine .inl ⟨?_, dif_pos rfl⟩
    rw [Nat.cast_zero, zero_mul] at same
    exact_mod_cast (mul_eq_zero.mp same.symm).resolve_right unit.ne'
  · exact .inr ⟨m, e', left, dif_neg left.ne', form, same, even⟩

/-- A finite double is a multiple of a power of two, or it lies below all numbers whose
mantissa has its last place there. -/
theorem multiple_or_small {y : Float} {p : ℚ} (h : toRat? y = some p) (e : Int) :
    (∃ z : Int, p = z * 2 ^ e) ∨ |p| < 2 ^ (52 + e) ∧ leastExponent < e := by
  obtain ⟨s, m, k, hy, rfl⟩ := exists_parts h
  obtain ⟨form, _⟩ := canonical_of_parts hy
  rcases le_or_gt e k with le | lt
  · obtain ⟨j, rfl⟩ : ∃ j : Nat, k = e + j := ⟨(k - e).toNat, by omega⟩
    refine .inl ⟨signed s m * 2 ^ j, ?_⟩
    rw [zpow_add₀ (by norm_num), zpow_natCast]
    push_cast
    ring
  · refine .inr ⟨?_, lt_of_le_of_lt form.least_le lt⟩
    rw [abs_signed_mul]
    exact form.mul_lt.trans_le (zpow_le_zpow_right₀ (by norm_num) (by omega))

theorem nearest_multiple {q p : ℚ} {e r : Int} (nearest : IsNearestInteger (q / 2 ^ e) r)
    (h : (∃ z : Int, p = z * 2 ^ e) ∨ |p| < 2 ^ (52 + e) ∧ 2 ^ (52 + e) ≤ |q|) :
    |q - r * 2 ^ e| ≤ |q - p| ∧ (|q - p| = |q - r * 2 ^ e| → p = r * 2 ^ e ∨ Even r) := by
  have unit : (0 : ℚ) < 2 ^ e := zpow_pos (by norm_num) e
  have scaled (z : Int) : |q - z * 2 ^ e| = |q / 2 ^ e - z| * 2 ^ e := by
    rw [← abs_of_pos unit, ← abs_mul, abs_of_pos unit, sub_mul, div_mul_cancel₀ _ unit.ne']
  rcases h with ⟨z, rfl⟩ | ⟨small, large⟩
  · obtain ⟨le, tie⟩ := nearest z
    rw [scaled, scaled]
    refine ⟨mul_le_mul_of_nonneg_right le unit.le, fun h => ?_⟩
    exact (tie (mul_right_cancel₀ unit.ne' h)).imp_left fun same => by rw [same]
  · -- The least number of that length is a multiple, and lies in between.
    obtain ⟨z, between⟩ : ∃ z : Int, |q - z * 2 ^ e| < |q - p| := by
      have length : (2 : ℚ) ^ (52 + e) = (2 ^ 52 : Int) * 2 ^ e := by
        rw [zpow_add₀ (by norm_num)]
        norm_num
      rw [length] at small large
      obtain ⟨above, below⟩ := abs_lt.mp small
      rcases le_total 0 q with pos | neg
      · rw [abs_of_nonneg pos] at large
        refine ⟨2 ^ 52, ?_⟩
        rw [abs_of_nonneg (by linarith), abs_of_nonneg (by linarith)]
        linarith
      · rw [abs_of_nonpos neg] at large
        refine ⟨-2 ^ 52, ?_⟩
        rw [Int.cast_neg, abs_of_nonpos (by linarith), abs_of_nonpos (by linarith)]
        linarith
    have le := mul_le_mul_of_nonneg_right (nearest z).1 unit.le
    rw [← scaled, ← scaled] at le
    have strict := le.trans_lt between
    exact ⟨strict.le, fun h => absurd h strict.ne'⟩

theorem signed_mul_eq {s : Bool} {m r : Nat} {e' e : Int} (same : (m : ℚ) * 2 ^ e' = r * 2 ^ e) :
    (signed s m : ℚ) * 2 ^ e' = signed s r * 2 ^ e := by
  cases s with
  | false => simpa [signed] using same
  | true => simpa [signed] using same

theorem even_signed (s : Bool) {r : Nat} (h : Even (signed s r)) : Even r := by
  rw [← natAbs_signed s r, Int.natAbs_even]
  exact h

/-- A double that is the nearest multiple of the last place is nearest. -/
theorem isNearest_of_multiple {q : ℚ} {e : Int} {r : Nat} {s : Bool} {x : Float} {m : Nat}
    {e' : Int} (at_place : RoundsAt |q| e) (nearest : IsNearestInteger (q / 2 ^ e) (signed s r))
    (hx : parts x = .finite s m e') (same : (m : ℚ) * 2 ^ e' = r * 2 ^ e)
    (even : Even r → Even m) : IsNearest q x := by
  refine ⟨s, m, e', hx, fun y p hp => ?_⟩
  rw [signed_mul_eq same]
  obtain ⟨le, tie⟩ := nearest_multiple nearest
    ((multiple_or_small hp e).imp_right fun ⟨small, above⟩ => ⟨small, at_place.le above⟩)
  exact ⟨le, fun h => (tie h).imp_right fun h => even (even_signed s h)⟩

theorem toRat?_pack_zero (s : Sign) : toRat? (.ofModel (.pack (.zero s))) = some 0 :=
  toRat?_of_zero (parts_pack_zero s)

/-! Where the range of doubles ends. -/

/-- The middle between the greatest double and the power of two that would come next. -/
def overflow : ℚ := 2 ^ 1024 - 2 ^ 970

theorem overflow_eq : overflow = (2 ^ 53 - 1 / 2) * 2 ^ greatestExponent := by
  have next : (2 : ℚ) ^ 1024 = 2 ^ 53 * 2 ^ 971 := (pow_add 2 53 971)
  have half : (2 : ℚ) ^ 971 = 2 ^ 970 * 2 := pow_succ 2 970
  have unit : (2 : ℚ) ^ greatestExponent = 2 ^ 971 := zpow_natCast 2 971
  rw [overflow, unit, next, sub_mul, half]
  generalize (2 : ℚ) ^ 970 = u
  ring

theorem pow_lt_overflow {k : Nat} (le : k ≤ 1023) : (2 : ℚ) ^ k < overflow := by
  have below : (2 : ℚ) ^ k ≤ 2 ^ 1023 := pow_le_pow_right₀ (by norm_num) le
  have half : (2 : ℚ) ^ 970 < 2 ^ 1023 := pow_lt_pow_right₀ (by norm_num) (by decide)
  have twice : (2 : ℚ) ^ 1024 = 2 ^ 1023 * 2 := pow_succ 2 1023
  rw [overflow, twice]
  generalize (2 : ℚ) ^ 1023 = top, (2 : ℚ) ^ 970 = step at *
  linarith only [below, half]

theorem greatest_lt_overflow : greatest < overflow := by
  rw [greatest, overflow_eq]
  exact mul_lt_mul_of_pos_right (by norm_num) (zpow_pos (by norm_num) _)

theorem abs_lt_overflow {x : Float} {q : ℚ} (h : toRat? x = some q) : |q| < overflow :=
  (abs_le_greatest h).trans_lt greatest_lt_overflow

/-- In the middle the tie goes to the even integer, which is the greater one. -/
theorem nearest_lt_iff {t : ℚ} {r : Nat} (nearest : IsNearestInteger t r) :
    r < 2 ^ 53 ↔ t < 2 ^ 53 - 1 / 2 := by
  have near := nearest.abs_sub_le_half
  rw [Int.cast_natCast, abs_le] at near
  constructor
  · intro below
    have next : (r : ℚ) + 1 ≤ 2 ^ 53 := by exact_mod_cast below
    by_contra above
    have tie : t = 2 ^ 53 - 1 / 2 := by linarith
    have last : r = 2 ^ 53 - 1 := by
      have : (r : ℚ) + 1 = 2 ^ 53 := by linarith
      have : r + 1 = 2 ^ 53 := by exact_mod_cast this
      omega
    rw [tie, last] at nearest
    rcases (nearest (2 ^ 53)).2 (by norm_num) with differ | even
    · norm_num at differ
    · exact absurd even (by decide)
  · intro below
    by_contra above
    have : (2 : ℚ) ^ 53 ≤ r := by exact_mod_cast not_lt.mp above
    linarith

/-- Numbers below the middle stay finite. -/
theorem rounded_lt_iff {q : ℚ} {e : Int} {r : Nat} (place : RoundsAt q e)
    (nearest : IsNearestInteger (q / 2 ^ e) r) :
    (r : ℚ) * 2 ^ e < 2 ^ (53 + greatestExponent) ↔ q < overflow := by
  have unit : (0 : ℚ) < 2 ^ e := zpow_pos (by norm_num) e
  have split (k : Int) : (2 : ℚ) ^ (53 + k) = 2 ^ 53 * 2 ^ k := zpow_add₀ (by norm_num) 53 k
  have split' (k : Int) : (2 : ℚ) ^ (52 + k) = 2 ^ 52 * 2 ^ k := zpow_add₀ (by norm_num) 52 k
  rcases lt_trichotomy e greatestExponent with lt | rfl | gt
  · -- The number and what it is rounded to are both much smaller.
    have step : (2 : ℚ) ^ (53 + e) ≤ 2 ^ (52 + greatestExponent) :=
      zpow_le_zpow_right₀ (by norm_num) (by omega)
    have half : (2 : ℚ) ^ (52 + greatestExponent) < 2 ^ (53 + greatestExponent) :=
      zpow_lt_zpow_right₀ (by norm_num) (by decide)
    refine iff_of_true ?_ ?_
    · have le : (r : ℚ) ≤ 2 ^ 53 := by exact_mod_cast place.nearest_le nearest
      have rounded := mul_le_mul_of_nonneg_right le unit.le
      rw [← split] at rounded
      exact (rounded.trans step).trans_lt half
    · refine (place.lt.trans_le step).trans ?_
      rw [overflow_eq, split']
      exact mul_lt_mul_of_pos_right (by norm_num) (zpow_pos (by norm_num) _)
  · rw [split, overflow_eq, mul_lt_mul_iff_left₀ unit, ← div_lt_iff₀ unit,
      ← nearest_lt_iff nearest]
    exact_mod_cast Iff.rfl
  · have above : leastExponent < e := lt_trans (by decide) gt
    have step : (2 : ℚ) ^ (53 + greatestExponent) ≤ 2 ^ (52 + e) :=
      zpow_le_zpow_right₀ (by norm_num) (by omega)
    refine iff_of_false ?_ ?_
    · have le : (2 : ℚ) ^ 52 ≤ r := by exact_mod_cast place.le_nearest nearest above
      have rounded := mul_le_mul_of_nonneg_right le unit.le
      rw [split'] at step
      exact not_lt.mpr (step.trans rounded)
    · have beyond : overflow < 2 ^ (53 + greatestExponent) := by
        rw [split, overflow_eq]
        exact mul_lt_mul_of_pos_right (by norm_num) (zpow_pos (by norm_num) _)
      exact not_lt.mpr (beyond.le.trans (step.trans (place.le above)))

/-- The double that a number is rounded to: the nearest one, or an infinity. -/
inductive IsRounded (q : ℚ) (x : Float) : Prop where
  | within (small : |q| < overflow) (nearest : IsNearest q x)
  | above (large : overflow ≤ q) (infinite : parts x = .infinite false)
  | below (large : q ≤ -overflow) (infinite : parts x = .infinite true)

theorem signed_eq_mul (s : Bool) (n : Nat) : (signed s n : ℚ) = signed s 1 * n := by
  cases s <;> simp [signed]

theorem abs_signed_one_mul (s : Bool) {q : ℚ} (nonneg : 0 ≤ q) : |(signed s 1 : ℚ) * q| = q := by
  rw [abs_mul, abs_signed, Nat.cast_one, one_mul, abs_of_nonneg nonneg]

theorem IsRounded.of_infinite {q : ℚ} {x : Float} {s : Bool} (large : overflow ≤ q)
    (infinite : parts x = .infinite s) : IsRounded (signed s 1 * q) x := by
  cases s with
  | false => exact .above (by simpa [signed] using large) infinite
  | true => exact .below (by simpa [signed] using large) infinite

theorem RoundsTo.isRounded {q : ℚ} {s : Sign} {f : UnpackedFloat} (h : RoundsTo q s f)
    (nonneg : 0 ≤ q) : IsRounded (signed (s == .negative) 1 * q) (.ofModel (.pack f)) := by
  obtain ⟨e, r, place, nearest, result⟩ := h
  generalize hb : (s == .negative) = b
  have size := abs_signed_one_mul b nonneg
  have finite_iff := rounded_lt_iff place nearest
  have mirrored : IsNearestInteger (signed b 1 * q / 2 ^ e) (signed b r) := by
    cases b with
    | false => simpa [signed] using nearest
    | true => simpa [signed, neg_div] using nearest.neg
  rw [← size] at place
  rcases result with ⟨rfl, rfl⟩ | ⟨m, e', left, rfl, form, same, even⟩
  · refine .within ?_ (isNearest_of_multiple place mirrored (hb ▸ parts_pack_zero s) ?_ id)
    · rw [size, ← finite_iff, Nat.cast_zero, zero_mul]
      exact zpow_pos (by norm_num) _
    · rw [Nat.cast_zero, zero_mul, zero_mul]
  · rw [← same] at finite_iff
    rcases le_or_gt e' greatestExponent with le | gt
    · refine .within ?_ (isNearest_of_multiple place mirrored (hb ▸ parts_pack s form left le)
        same even)
      rw [size, ← finite_iff]
      exact form.mul_lt.trans_le (zpow_le_zpow_right₀ (by norm_num) (by omega))
    · refine .of_infinite (not_lt.mp fun small => ?_) (hb ▸ parts_pack_large s left gt)
      have above := form.le_mul (lt_trans (by decide) gt)
      have step : (2 : ℚ) ^ (53 + greatestExponent) ≤ 2 ^ (52 + e') :=
        zpow_le_zpow_right₀ (by norm_num) (by omega)
      exact absurd (finite_iff.mpr small) (not_lt.mpr (step.trans above))

theorem isRounded_round (s : Sign) {n : Nat} (pos : 0 < n) (k : Int) :
    IsRounded (signed (s == .negative) n * 2 ^ k)
      (.ofModel (.pack (UnpackedFloat.round Format.binary64 s n k))) := by
  rw [signed_eq_mul, mul_assoc]
  exact (roundsTo_round s pos k).isRounded (by positivity)

/-- What rounding takes away is at most half a unit in the last place of the result, or of the
least double. -/
theorem error_round (s : Sign) {n : Nat} (pos : 0 < n) (k : Int) {p : ℚ}
    (h : toRat? (.ofModel (.pack (UnpackedFloat.round Format.binary64 s n k))) = some p) :
    2 ^ 53 * |signed (s == .negative) n * 2 ^ k - p| ≤ |p| ∨
      2 * |signed (s == .negative) n * 2 ^ k - p| ≤ 2 ^ leastExponent := by
  obtain ⟨e, r, place, nearest, result⟩ := roundsTo_round s pos k
  generalize hb : (s == .negative) = b
  have unit : (0 : ℚ) < 2 ^ e := zpow_pos (by norm_num) e
  have value : p = signed b r * 2 ^ e := by
    rcases result with ⟨rfl, rounded⟩ | ⟨m, e', left, rounded, form, same, _⟩
    · rw [rounded, toRat?_pack_zero] at h
      rw [← Option.some.inj h, Int.natAbs_eq_zero.mp (natAbs_signed b 0), Int.cast_zero, zero_mul]
    · rw [rounded] at h
      rcases le_or_gt e' greatestExponent with le | gt
      · rw [toRat?, parts_pack s form left le, hb] at h
        rw [← Option.some.inj h, signed_mul_eq same]
      · rw [toRat?, parts_pack_large s left gt] at h
        cases h
  have apart : |signed b n * 2 ^ k - p| = |(n : ℚ) * 2 ^ k / 2 ^ e - r| * 2 ^ e := by
    rw [value, ← abs_of_pos unit, ← abs_mul, abs_of_pos unit, sub_mul, div_mul_cancel₀ _ unit.ne']
    cases b with
    | false => rfl
    | true =>
      simp only [signed, if_true, Int.cast_neg, Int.cast_natCast]
      rw [← abs_neg]
      congr 1
      ring
  have half := mul_le_mul_of_nonneg_right nearest.abs_sub_le_half unit.le
  rw [Int.cast_natCast, ← apart] at half
  rcases eq_or_lt_of_le place.least_le with rfl | above
  · exact .inr (by linarith)
  · have many : (2 : ℚ) ^ 52 ≤ r := by exact_mod_cast place.le_nearest nearest above
    have size := mul_le_mul_of_nonneg_right many unit.le
    refine .inl ?_
    rw [value, abs_signed_mul, ← value]
    linarith

theorem isRounded_of_toRat? {q : ℚ} {x : Float} (h : toRat? x = some q) : IsRounded q x :=
  .within (abs_lt_overflow h) (isNearest_of_toRat? h)

theorem cast_of_sign {n : Int} {s : Sign} (h : n = s.apply n.natAbs) :
    (n : ℚ) = signed (s == .negative) n.natAbs := by
  conv_lhs => rw [h]
  cases s <;> rfl

theorem isRounded_normalize (n e : Int) (zero : Sign) :
    IsRounded (n * 2 ^ e)
      (.ofModel (.pack (UnpackedFloat.normalize Format.binary64 n e zero))) := by
  rcases eq_or_ne n 0 with rfl | nonzero
  · rw [Int.cast_zero, zero_mul]
    exact isRounded_of_toRat? (toRat?_pack_zero zero)
  · obtain ⟨s, hs⟩ := exists_sign n
    rw [normalize_eq_round hs nonzero, cast_of_sign hs]
    exact isRounded_round s (Int.natAbs_pos.mpr nonzero) e

theorem error_normalize (n e : Int) (zero : Sign) {p : ℚ}
    (h : toRat? (.ofModel (.pack (UnpackedFloat.normalize Format.binary64 n e zero))) = some p) :
    2 ^ 53 * |n * 2 ^ e - p| ≤ |p| ∨ 2 * |n * 2 ^ e - p| ≤ 2 ^ leastExponent := by
  rcases eq_or_ne n 0 with rfl | nonzero
  · have exact : (some 0 : Option ℚ) = some p := (toRat?_pack_zero zero).symm.trans h
    refine .inl ?_
    rw [← Option.some.inj exact, Int.cast_zero, zero_mul, sub_self, abs_zero, mul_zero]
  · obtain ⟨s, hs⟩ := exists_sign n
    rw [normalize_eq_round hs nonzero] at h
    rw [cast_of_sign hs]
    exact error_round s (Int.natAbs_pos.mpr nonzero) e h

theorem isRounded_nearestToInt (n : Int) : IsRounded n (nearestToInt n) := by
  have rounded := isRounded_normalize n 0 .positive
  rw [zpow_zero, mul_one] at rounded
  exact rounded

theorem isNearest_nearestToInt {n : Int} (small : |(n : ℚ)| < overflow) :
    IsNearest n (nearestToInt n) := by
  obtain ⟨above, below⟩ := abs_lt.mp small
  cases isRounded_nearestToInt n with
  | within _ nearest => exact nearest
  | above large _ => linarith
  | below large _ => linarith

theorem ofInt_eq_of_abs_lt {n : Int} (small : |(n : ℚ)| < overflow) :
    ofInt n = .ok (nearestToInt n) := by
  obtain ⟨s, m, e, finite, _⟩ := isNearest_nearestToInt small
  rw [ofInt, if_neg (Bool.eq_false_iff.mp (finite_of_parts finite).2)]

theorem ofInt_eq_error {n : Int} (large : overflow ≤ |(n : ℚ)|) :
    ofInt n = .error .integerTooLarge := by
  have infinite : ∃ s, parts (nearestToInt n) = .infinite s := by
    cases isRounded_nearestToInt n with
    | within small _ => exact absurd large (not_le.mpr small)
    | above _ infinite => exact ⟨_, infinite⟩
    | below _ infinite => exact ⟨_, infinite⟩
  rw [ofInt, if_pos ((isInf_iff _).mpr infinite)]

end Double

end FiniteCalculus
