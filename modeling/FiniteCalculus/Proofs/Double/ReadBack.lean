import FiniteCalculus.Proofs.Double.Nearest

/-! Decimals that are read back as doubles. A quotient or a product that is rounded keeps at least
one bit as long as the exponent does not fall below that of the least double, so that no positive
multiple of `10 ^ -323` is read as a zero. -/

namespace FiniteCalculus.Double
set_option autoImplicit false

open Float.Model Float.Model.UnpackedFloat

/-! Shifts keep the leading bits, whatever is known of the rest. -/

theorem mantissa_shift (em : ExtendedMantissa) (k : Nat) :
    (em >>> k).mantissa = em.mantissa / 2 ^ k := by
  change (k.repeat ExtendedMantissa.shiftRightOne em).mantissa = _
  induction k with
  | zero => simp [Nat.repeat]
  | succ k ih =>
    rw [Nat.repeat, ExtendedMantissa.shiftRightOne, ih, Nat.div_div_eq_div_mul, pow_succ]

theorem mantissa_ofMantissaAndAccuracy (m : Nat) (accuracy : Accuracy) :
    (ExtendedMantissa.ofMantissaAndAccuracy m accuracy).mantissa = m := by
  cases accuracy with
  | exact => rfl
  | inexact rest => cases rest <;> rfl

theorem roundedMantissa_bounds (em : ExtendedMantissa) :
    em.mantissa ≤ em.roundedMantissa ∧ em.roundedMantissa ≤ em.mantissa + 1 := by
  obtain ⟨m, round, sticky⟩ := em
  have even := Nat.mod_lt m (y := 2) (by decide)
  cases round <;> cases sticky <;> simp [ExtendedMantissa.roundedMantissa,
    ExtendedMantissa.accuracy, Accuracy.roundToNearestEven]
  omega

/-- A mantissa with at least one bit that is long enough for its exponent, or whose exponent is the
least one already. -/
structure Keeps (m : Nat) (e : Int) : Prop where
  pos : 0 < m
  least_le : leastExponent ≤ e
  long : leastExponent < e → 2 ^ 52 ≤ m

section
variable {m : Nat} {e : Int} (h : Keeps m e) (accuracy : Accuracy)
include h

theorem Keeps.amount :
    (Format.binary64.targetExponent (totalExponent m e) - e).toNat = m.log2 - 52 := by
  have least := h.least_le
  rw [targetExponent_eq, totalExponent]
  rcases Nat.lt_or_ge m (2 ^ 52) with short | long
  · have log : m.log2 < 52 := (Nat.log2_lt h.pos.ne').mpr short
    have fixed : e = leastExponent := by
      by_contra above
      have := h.long (lt_of_le_of_ne least (Ne.symm above))
      omega
    omega
  · have log : 52 ≤ m.log2 := (Nat.le_log2 h.pos.ne').mpr long
    omega

theorem Keeps.canonical_shift :
    Canonical (m / 2 ^ (m.log2 - 52)) (e + (m.log2 - 52 : Nat)) ∧ 0 < m / 2 ^ (m.log2 - 52) := by
  have least := h.least_le
  rcases Nat.lt_or_ge m (2 ^ 52) with short | long
  · have log : m.log2 < 52 := (Nat.log2_lt h.pos.ne').mpr short
    have none : m.log2 - 52 = 0 := by omega
    rw [none, pow_zero, Nat.div_one, Int.natCast_zero, Int.add_zero]
    exact ⟨⟨short.trans (by decide), least, h.long⟩, h.pos⟩
  · have log : 52 ≤ m.log2 := (Nat.le_log2 h.pos.ne').mpr long
    obtain ⟨low, high⟩ := (Nat.log2_eq_iff h.pos.ne').mp (rfl : m.log2 = m.log2)
    have full : Full (m / 2 ^ (m.log2 - 52)) := by
      constructor
      · rw [Nat.le_div_iff_mul_le (Nat.two_pow_pos _), ← pow_add, Nat.add_sub_cancel' log]
        exact low
      · rw [Nat.div_lt_iff_lt_mul (Nat.two_pow_pos _), ← pow_add]
        exact high.trans_eq (congrArg (2 ^ ·) (by omega))
    exact ⟨full.canonical (by omega), full.pos⟩

/-- What is rounded does not vanish. -/
theorem Keeps.exists_rounded (s : Sign) : ∃ n k pos,
    roundWithAccuracy Format.binary64 s m e accuracy = .finite s n k pos ∧ Canonical n k := by
  obtain ⟨form, some⟩ := h.canonical_shift
  have first : shiftToTargetExponent Format.binary64 m e accuracy =
      (ExtendedMantissa.ofMantissaAndAccuracy m accuracy >>> (m.log2 - 52),
        e + (m.log2 - 52 : Nat)) := by
    simp only [shiftToTargetExponent, shiftToExponent, h.amount]
  have kept : (ExtendedMantissa.ofMantissaAndAccuracy m accuracy >>> (m.log2 - 52)).mantissa =
      m / 2 ^ (m.log2 - 52) := by
    rw [mantissa_shift, mantissa_ofMantissaAndAccuracy]
  obtain ⟨low, high⟩ := roundedMantissa_bounds
    (ExtendedMantissa.ofMantissaAndAccuracy m accuracy >>> (m.log2 - 52))
  rw [kept] at low high
  have short := form.lt
  obtain ⟨n, k, again, form', same, _⟩ :=
    shift_rounded (by omega) form.least_le fun above => (form.full above).trans low
  have pos : 0 < n := by
    have value : (0 : ℚ) < n * 2 ^ k := by
      rw [same]
      exact mul_pos (by exact_mod_cast some.trans_le low) (zpow_pos (by norm_num) _)
    exact_mod_cast pos_of_mul_pos_left value (zpow_pos (by norm_num) k).le
  have mantissa : (ExtendedMantissa.ofMantissaAndAccuracy n .exact).mantissa = n := rfl
  refine ⟨n, k, pos, ?_, form'⟩
  simp only [roundWithAccuracy, first, again, mantissa, dif_neg pos.ne']

end

theorem toRat?_pack_ne_zero (s : Sign) {m : Nat} {e : Int} (form : Canonical m e) (pos : 0 < m) :
    toRat? (.ofModel (.pack (.finite s m e pos))) ≠ some 0 := by
  intro zero
  rcases le_or_gt e greatestExponent with within | beyond
  · rw [toRat?, parts_pack s form pos within, Option.some.injEq, mul_eq_zero,
      Int.cast_eq_zero] at zero
    have vanished := zero.resolve_right (zpow_ne_zero e (by norm_num))
    have := natAbs_signed (s == .negative) m
    rw [vanished] at this
    exact pos.ne this
  · rw [toRat?, parts_pack_large s pos beyond] at zero
    cases zero

theorem toRat?_rounded_ne_zero {m : Nat} {e : Int} (h : Keeps m e) (accuracy : Accuracy)
    (s : Sign) :
    toRat? (.ofModel (.pack (roundWithAccuracy Format.binary64 s m e accuracy))) ≠ some 0 := by
  obtain ⟨n, k, pos, rounded, form⟩ := h.exists_rounded accuracy s
  rw [rounded]
  exact toRat?_pack_ne_zero s form pos

/-! A decimal is a product or a quotient of its coefficient and a power of ten. -/

section
variable {u k : Nat}

theorem keeps_product (pos : 0 < u) (k : Nat) : Keeps (u <<< 53 * 10 ^ k) (-53) := by
  have long : 2 ^ 53 ≤ u <<< 53 * 10 ^ k := by
    rw [Nat.shiftLeft_eq]
    exact (Nat.le_mul_of_pos_left _ pos).trans (Nat.le_mul_of_pos_right _ (Nat.pow_pos (by decide)))
  exact ⟨by omega, by decide, fun _ => le_trans (by decide) long⟩

/-- The exponent at which the quotient of two integers is computed. -/
def quotientExponent (u d : Nat) : Int := min 0 (max ((u.log2 : Int) - d.log2 - 53) leastExponent)

theorem divCore_eq (u d : Nat) : divCore Format.binary64 u 0 d 0 =
    (u <<< (-quotientExponent u d).toNat / d, quotientExponent u d,
      accuracyOfFraction (u <<< (-quotientExponent u d).toNat % d) d) := by
  have target : min 0 (Format.binary64.targetExponent
      (totalExponent u 0 - totalExponent d 0)) = quotientExponent u d := by
    rw [targetExponent_eq, totalExponent, totalExponent, quotientExponent]
    congr 2
    omega
  simp only [divCore, Int.sub_zero, Int.zero_sub, target]

theorem keeps_quotient {d : Nat} (left : 0 < u) (right : 0 < d)
    (small : d ≤ 2 ^ (-leastExponent).toNat) :
    Keeps (u <<< (-quotientExponent u d).toNat / d) (quotientExponent u d) := by
  have least : leastExponent = -1074 := rfl
  have low : 2 ^ u.log2 ≤ u := Nat.log2_self_le left.ne'
  have high : d < 2 ^ (d.log2 + 1) := Nat.lt_log2_self
  obtain ⟨t, ht⟩ : ∃ t, t = (-quotientExponent u d).toNat := ⟨_, rfl⟩
  have value : quotientExponent u d = -t := by
    rw [quotientExponent] at ht ⊢
    omega
  rw [← ht, value, Nat.shiftLeft_eq]
  have exponent := value
  rw [quotientExponent] at exponent
  have long (above : t < 1074) : 2 ^ 52 ≤ u * 2 ^ t / d := by
    rw [Nat.le_div_iff_mul_le right]
    calc 2 ^ 52 * d ≤ 2 ^ 52 * 2 ^ (d.log2 + 1) := Nat.mul_le_mul_left _ high.le
      _ = 2 ^ (d.log2 + 53) := by rw [← pow_add]; congr 1; omega
      _ ≤ 2 ^ (u.log2 + t) := Nat.pow_le_pow_right (by decide) (by omega)
      _ ≤ u * 2 ^ t := by rw [pow_add]; exact Nat.mul_le_mul_right _ low
  refine ⟨?_, by omega, fun above => long (by omega)⟩
  rcases Nat.lt_or_ge t 1074 with above | fixed
  · exact lt_of_lt_of_le (by decide) (long above)
  · refine Nat.div_pos ?_ right
    calc d ≤ 2 ^ (-leastExponent).toNat := small
      _ ≤ 2 ^ t := Nat.pow_le_pow_right (by decide) fixed
      _ ≤ u * 2 ^ t := Nat.le_mul_of_pos_left _ left

end

theorem ofDecimal_zero (e : Int) : toRat? (ofDecimal 0 e) = some 0 := toRat?_pack_zero .positive

theorem ten_pow_le : 10 ^ 323 ≤ 2 ^ (-leastExponent).toNat := by
  have least : (-leastExponent).toNat = 133 * 8 + 10 := rfl
  calc 10 ^ 323 = (10 ^ 40) ^ 8 * 10 ^ 3 := by rw [← pow_mul, ← pow_add]
    _ ≤ (2 ^ 133) ^ 8 * 2 ^ 10 := Nat.mul_le_mul (Nat.pow_le_pow_left (by decide) 8) (by decide)
    _ = 2 ^ (-leastExponent).toNat := by rw [least, pow_add, pow_mul]

/-- A multiple of a unit that is not below all doubles is read as a zero only if it is one. -/
theorem toRat?_ofDecimal_eq_zero_iff {u : Nat} {e : Int} (low : -323 ≤ e) :
    toRat? (ofDecimal u e) = some 0 ↔ u = 0 := by
  refine ⟨fun zero => ?_, fun zero => zero ▸ ofDecimal_zero e⟩
  by_contra nonzero
  have pos : 0 < u := Nat.pos_of_ne_zero nonzero
  change toRat? (.ofModel (.pack (UnpackedFloat.ofScientific Format.binary64 u e))) = some 0 at zero
  have above : ¬ e < -((2 ^ Format.binary64.exponentBits : Int) + u.log2) := by
    change ¬ e < -((2 ^ 11 : Int) + u.log2)
    omega
  rw [UnpackedFloat.ofScientific, dif_neg nonzero] at zero
  by_cases large : e > 2 ^ Format.binary64.exponentBits
  · rw [if_pos large, toRat?, parts_pack_infinity] at zero
    cases zero
  · rw [if_neg large, if_neg above] at zero
    rcases le_or_gt 0 e with whole | fraction
    · rw [if_pos whole] at zero
      exact toRat?_rounded_ne_zero (keeps_product pos e.toNat) .exact _ zero
    · rw [if_neg (not_le.mpr fraction)] at zero
      have small : 10 ^ (-e).toNat ≤ 2 ^ (-leastExponent).toNat :=
        (Nat.pow_le_pow_right (by decide) (by omega)).trans ten_pow_le
      have kept := keeps_quotient pos (Nat.pow_pos (by decide)) small
      simp only [UnpackedFloat.div, divCore_eq] at zero
      exact toRat?_rounded_ne_zero kept _ _ zero

end FiniteCalculus.Double
