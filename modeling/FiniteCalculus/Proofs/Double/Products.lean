import FiniteCalculus.Proofs.Double.ShortIntegers
import FiniteCalculus.Proofs.Value.Undefined

/-! Products and differences of two doubles. They are rounded once, so that whole numbers up to
2 ^ 53 come out exactly. No operation on numbers is undefined but the quotient of two zeros; with
infinities the product with a zero and the quotient of two infinities are. -/

namespace FiniteCalculus
set_option autoImplicit false

namespace Double

open Float.Model Float.Model.UnpackedFloat

theorem mul_eq (x y : Float) : x * y =
    .ofModel (.pack (UnpackedFloat.mul Format.binary64 x.toModel.unpack y.toModel.unpack)) := rfl

theorem sub_eq (x y : Float) : x - y =
    .ofModel (.pack (UnpackedFloat.sub Format.binary64 x.toModel.unpack y.toModel.unpack)) := rfl

theorem div_eq (x y : Float) : x / y =
    .ofModel (.pack (UnpackedFloat.div Format.binary64 x.toModel.unpack y.toModel.unpack)) := rfl

theorem signed_eq_apply (s : Sign) (m : Nat) : signed (s == .negative) m = s.apply m := by
  cases s <;> rfl

theorem apply_mul_apply (s t : Sign) (m n : Nat) :
    (s * t).apply (m * n : Nat) = s.apply m * t.apply n := by
  cases s <;> cases t
  · exact (Int.neg_mul_neg m n).symm
  · exact (Int.neg_mul m n).symm
  · exact (Int.mul_neg m n).symm
  · exact Int.natCast_mul m n

/-- A mantissa that is long enough is rounded as it is. -/
theorem roundWithAccuracy_eq_round (s : Sign) {m : Nat} {e : Int}
    (long : e ≤ Format.binary64.targetExponent (totalExponent m e)) :
    roundWithAccuracy Format.binary64 s m e .exact = UnpackedFloat.round Format.binary64 s m e := by
  have none : (e - Format.binary64.targetExponent (totalExponent m e)).toNat = 0 := by omega
  simp only [UnpackedFloat.round, decreaseExponent, none, Nat.shiftLeft_zero, Int.natCast_zero,
    Int.sub_zero]

section
variable {m n : Nat} {e k : Int}

/-- The product of two mantissas is long enough, or it lies below all doubles. -/
theorem Canonical.le_target (hm : Canonical m e) (hn : Canonical n k) (left : 0 < m)
    (right : 0 < n) :
    e + k ≤ Format.binary64.targetExponent (totalExponent (m * n) (e + k)) := by
  have least : leastExponent = -1074 := rfl
  rw [targetExponent_eq, totalExponent]
  have long (h : 2 ^ 52 ≤ m * n) : 52 ≤ (m * n).log2 :=
    (Nat.le_log2 (Nat.mul_pos left right).ne').mpr h
  rcases hm.full_or_short with full | ⟨_, rfl⟩
  · have := long (full.1.trans (Nat.le_mul_of_pos_right m right))
    omega
  · rcases hn.full_or_short with full | ⟨_, rfl⟩
    · have := long (full.1.trans (Nat.le_mul_of_pos_left n left))
      omega
    · omega

end

section
variable {x y : Float} {p q : ℚ} (hx : toRat? x = some p) (hy : toRat? y = some q)
include hx hy

/-- The product of two numbers is a zero, or their exact product rounded. -/
theorem mul_cases : (p * q = 0 ∧ toRat? (x * y) = some 0) ∨
    ∃ (s : Sign) (n : Nat) (e : Int), 0 < n ∧ p * q = signed (s == .negative) n * 2 ^ e ∧
      x * y = .ofModel (.pack (UnpackedFloat.round Format.binary64 s n e)) := by
  rcases number_cases hx with ⟨s, ux, rfl⟩ | ⟨s, m, e, left, ux, rfl⟩
  · refine .inl ⟨zero_mul q, ?_⟩
    rcases number_cases hy with ⟨t, uy, _⟩ | ⟨t, n, k, right, uy, _⟩
    · rw [mul_eq, ux, uy]
      exact toRat?_pack_zero _
    · rw [mul_eq, ux, uy]
      exact toRat?_pack_zero _
  · rcases number_cases hy with ⟨t, uy, rfl⟩ | ⟨t, n, k, right, uy, rfl⟩
    · refine .inl ⟨mul_zero _, ?_⟩
      rw [mul_eq, ux, uy]
      exact toRat?_pack_zero _
    · refine .inr ⟨s * t, m * n, e + k, Nat.mul_pos left right, ?_, ?_⟩
      · rw [signed_eq_apply, apply_mul_apply, zpow_add₀ (by norm_num), Int.cast_mul]
        ring
      · have long := (unpack_canonical ux).1.le_target (unpack_canonical uy).1 left right
        rw [mul_eq, ux, uy, ← roundWithAccuracy_eq_round _ long]
        rfl

theorem isRounded_mul : IsRounded (p * q) (x * y) := by
  rcases mul_cases hx hy with ⟨zero, exact⟩ | ⟨s, n, e, pos, product, rounded⟩
  · rw [zero]
    exact isRounded_of_toRat? exact
  · rw [product, rounded]
    exact isRounded_round s pos e

theorem error_mul {r : ℚ} (h : toRat? (x * y) = some r) :
    2 ^ 53 * |p * q - r| ≤ |r| ∨ 2 * |p * q - r| ≤ 2 ^ leastExponent := by
  rcases mul_cases hx hy with ⟨zero, exact⟩ | ⟨s, n, e, pos, product, rounded⟩
  · rw [h] at exact
    rw [zero, Option.some.inj exact, sub_self, abs_zero, mul_zero]
    exact .inl (le_refl 0)
  · rw [product]
    rw [rounded] at h
    exact error_round s pos e h

/-- The difference of two numbers is a zero, one of them, or their exact difference rounded. -/
theorem sub_cases : toRat? (x - y) = some (p - q) ∨
    ∃ (n e : Int), p - q = n * 2 ^ e ∧
      x - y = .ofModel (.pack (UnpackedFloat.normalize Format.binary64 n e .positive)) := by
  rcases number_cases hx with ⟨s, ux, rfl⟩ | ⟨s, m, e, left, ux, rfl⟩
  · rcases number_cases hy with ⟨t, uy, rfl⟩ | ⟨t, n, k, right, uy, rfl⟩
    · refine .inl ?_
      rw [sub_eq, ux, uy, sub_zero]
      cases s <;> cases t <;> exact toRat?_pack_zero _
    · refine .inl ?_
      obtain ⟨form, high⟩ := unpack_canonical uy
      have opposite : x - y = .ofModel (.pack (.finite (-t) n k right)) := by
        rw [sub_eq, ux, uy]
        rfl
      rw [opposite, toRat?, parts_pack _ form right high, zero_sub]
      cases t
      · change some (((n : Int) : ℚ) * 2 ^ k) = some (-(((-n : Int) : ℚ) * 2 ^ k))
        rw [Int.cast_neg, neg_mul, neg_neg]
      · change some (((-n : Int) : ℚ) * 2 ^ k) = some (-(((n : Int) : ℚ) * 2 ^ k))
        rw [Int.cast_neg, neg_mul]
  · rcases number_cases hy with ⟨t, uy, rfl⟩ | ⟨t, n, k, right, uy, rfl⟩
    · refine .inl ?_
      have same : UnpackedFloat.sub Format.binary64 (.finite s m e left) (.zero t) =
          x.toModel.unpack := ux.symm
      rw [sub_eq, ux, uy, same, ofModel_pack_unpack, hx, sub_zero]
    · refine .inr ⟨s.apply (m <<< (e - min e k).toNat : Nat) -
        t.apply (n <<< (k - min e k).toNat : Nat), min e k, ?_, ?_⟩
      · rw [Int.cast_sub, sub_mul, aligned s m (min_le_left e k), aligned t n (min_le_right e k)]
      · rw [sub_eq, ux, uy]
        rfl

theorem isRounded_sub : IsRounded (p - q) (x - y) := by
  rcases sub_cases hx hy with exact | ⟨n, e, difference, rounded⟩
  · exact isRounded_of_toRat? exact
  · rw [difference, rounded]
    exact isRounded_normalize n e .positive
theorem error_sub {r : ℚ} (h : toRat? (x - y) = some r) :
    2 ^ 53 * |p - q - r| ≤ |r| ∨ 2 * |p - q - r| ≤ 2 ^ leastExponent := by
  rcases sub_cases hx hy with exact | ⟨n, e, difference, rounded⟩
  · rw [h] at exact
    rw [Option.some.inj exact, sub_self, abs_zero, mul_zero]
    exact .inl (abs_nonneg _)
  · rw [difference]
    rw [rounded] at h
    exact error_normalize n e .positive h

/-- Two different numbers are at least the least double apart, so that their difference does not
vanish. -/
theorem toRat?_sub_ne_zero (apart : p ≠ q) : toRat? (x - y) ≠ some 0 := by
  intro zero
  have unit : (0 : ℚ) < 2 ^ leastExponent := zpow_pos (by norm_num) _
  obtain ⟨a, rfl⟩ := (multiple_or_small hx leastExponent).resolve_right fun h => h.2.false
  obtain ⟨b, rfl⟩ := (multiple_or_small hy leastExponent).resolve_right fun h => h.2.false
  have difference : a - b ≠ 0 := by
    rw [sub_ne_zero]
    rintro rfl
    exact apart rfl
  have many : (1 : ℚ) ≤ |((a - b : Int) : ℚ)| := by exact_mod_cast Int.one_le_abs difference
  have size : |(a : ℚ) * 2 ^ leastExponent - b * 2 ^ leastExponent - 0| =
      |((a - b : Int) : ℚ)| * 2 ^ leastExponent := by
    rw [sub_zero, ← sub_mul, abs_mul, abs_of_pos unit, Int.cast_sub]
  have error := error_sub hx hy zero
  rw [size, abs_zero] at error
  have least := mul_le_mul_of_nonneg_right many unit.le
  rcases error with relative | absolute
  · linarith
  · linarith

end

/-! Whole numbers that are doubles. -/

theorem isShort_of_le {n : Int} (le : n.natAbs ≤ 2 ^ 53) : IsShort n := by
  rcases Nat.lt_or_eq_of_le le with lt | eq
  · exact ⟨n.natAbs, 0, lt, by rw [Nat.pow_zero, Nat.mul_one]⟩
  · exact ⟨1, 53, by decide, by rw [eq, Nat.one_mul]⟩

theorem abs_lt_overflow_of_le {n : Int} (le : n.natAbs ≤ 2 ^ 53) : |(n : ℚ)| < overflow := by
  have size : |(n : ℚ)| ≤ 2 ^ 53 := by
    rw [← Int.cast_abs, Int.abs_eq_natAbs]
    exact_mod_cast le
  exact size.trans_lt (pow_lt_overflow (by decide))

theorem overflow_le_pow : overflow ≤ 2 ^ 1024 := sub_le_self _ (pow_nonneg (by norm_num) 970)

theorem toRat?_nearestToInt {n : Int} (le : n.natAbs ≤ 2 ^ 53) :
    toRat? (nearestToInt n) = some (n : ℚ) :=
  (isShort_of_le le).toRat?_nearestToInt (abs_lt_overflow_of_le le)

theorem IsRounded.exists_toRat? {q : ℚ} {x : Float} (h : IsRounded q x) (small : |q| < overflow) :
    ∃ r, toRat? x = some r := by
  cases h with
  | within _ nearest =>
    obtain ⟨s, m, e, parts, _⟩ := nearest
    exact ⟨signed s m * 2 ^ e, by rw [toRat?, parts]⟩
  | above large _ => exact absurd small (not_lt.mpr (large.trans (le_abs_self q)))
  | below large _ => exact absurd small (not_lt.mpr ((le_neg.mp large).trans (neg_le_abs q)))

theorem IsRounded.isInf_or {q : ℚ} {x : Float} (h : IsRounded q x) :
    x.isInf = true ∨ ∃ r, toRat? x = some r := by
  cases h with
  | within small nearest => exact .inr ((IsRounded.within small nearest).exists_toRat? small)
  | above _ infinite => exact .inl ((isInf_iff x).mpr ⟨_, infinite⟩)
  | below _ infinite => exact .inl ((isInf_iff x).mpr ⟨_, infinite⟩)

/-- A number no closer to zero than a whole number is not rounded to one that is. -/
theorem IsRounded.natCast_le_abs {q r : ℚ} {x : Float} (h : IsRounded q x) (hx : toRat? x = some r)
    {c : Nat} (short : c ≤ 2 ^ 53) (le : (c : ℚ) ≤ |q|) : (c : ℚ) ≤ |r| := by
  have here := place?_of_toRat? hx
  rcases le_abs.mp le with positive | negative
  · have value := toRat?_nearestToInt (n := c) short
    obtain ⟨b, place, above⟩ := h.le_place value positive
    obtain rfl := Option.some.inj (here.symm.trans place)
    rw [WithBot.coe_le_coe, WithTop.coe_le_coe] at above
    exact above.trans (le_abs_self r)
  · have value := toRat?_nearestToInt (n := -c) (by omega)
    rw [Int.cast_neg] at value
    obtain ⟨b, place, below⟩ := h.place_le value (le_neg.mp negative)
    obtain rfl := Option.some.inj (here.symm.trans place)
    rw [WithBot.coe_le_coe, WithTop.coe_le_coe] at below
    exact (le_neg.mp below).trans (neg_le_abs r)

theorem IsRounded.toRat?_int {q : ℚ} {n : Int} {x : Float} (h : IsRounded q x) (whole : q = n)
    (le : n.natAbs ≤ 2 ^ 53) : toRat? x = some (n : ℚ) := by
  rw [whole] at h
  exact h.toRat?_eq (toRat?_nearestToInt le)

/-! Infinities and the undefined number. -/

theorem double_cases (x : Float) :
    x.toModel.unpack = .notANumber ∨ (∃ s, x.toModel.unpack = .infinity s) ∨
      ∃ q, toRat? x = some q := by
  rcases place_cases x with ⟨h, _⟩ | ⟨h, _⟩ | ⟨h, _⟩ | ⟨q, h, _⟩
  · exact .inl h
  · exact .inr (.inl ⟨_, h⟩)
  · exact .inr (.inl ⟨_, h⟩)
  · exact .inr (.inr ⟨q, h⟩)

theorem isInf_of_unpack {x : Float} {s : Sign} (h : x.toModel.unpack = .infinity s) :
    x.isInf = true ∧ x.isNaN = false := by
  change x.toModel.unpack.isInf = true ∧ x.toModel.unpack.isNaN = false
  rw [h]
  exact ⟨rfl, rfl⟩

theorem exists_unpack_of_isInf {x : Float} (h : x.isInf = true) :
    ∃ s, x.toModel.unpack = .infinity s := by
  change x.toModel.unpack.isInf = true at h
  cases hx : x.toModel.unpack with
  | infinity s => exact ⟨s, rfl⟩
  | _ => rw [hx] at h; cases h

theorem isNaN_of_isInf {x : Float} (h : x.isInf = true) : x.isNaN = false := by
  obtain ⟨s, hx⟩ := exists_unpack_of_isInf h
  exact (isInf_of_unpack hx).2

theorem not_isInf_of_toRat? {x : Float} {q : ℚ} (h : toRat? x = some q) : ¬ x.isInf = true := by
  rw [(finite_of_toRat? h).2]
  exact Bool.false_ne_true

theorem toRat?_ne_zero {x : Float} {q : ℚ} (h : toRat? x = some q) (nonzero : q ≠ 0) :
    toRat? x ≠ some 0 := by
  rw [h]
  exact fun zero => nonzero (Option.some.inj zero)

theorem isNaN_of_unpack {x : Float} (h : x.toModel.unpack = .notANumber) : x.isNaN = true := by
  change x.toModel.unpack.isNaN = true
  rw [h]
  rfl

theorem IsRounded.isNaN_eq {q : ℚ} {x : Float} (h : IsRounded q x) : x.isNaN = false := by
  obtain ⟨b, hb⟩ := h.exists_place?
  refine Bool.eq_false_iff.mpr fun undefined => ?_
  rw [place?_eq_none_iff.mpr undefined] at hb
  cases hb

theorem isNaN_pack_notANumber : (Float.ofModel (.pack .notANumber)).isNaN = true := by decide

theorem apply_mul_ne_zero (s : Sign) {m : Nat} (pos : 0 < m) (e : Int) :
    ((s.apply m : Int) : ℚ) * 2 ^ e ≠ 0 := by
  have mantissa : s.apply m ≠ 0 := by
    cases s <;> simp only [Sign.apply] <;> omega
  exact mul_ne_zero (Int.cast_ne_zero.mpr mantissa) (zpow_ne_zero e (by norm_num))

theorem isInf_pack_infinity (s : Sign) : (Float.ofModel (.pack (.infinity s))).isInf = true :=
  (isInf_iff _).mpr ⟨_, parts_pack_infinity s⟩

section
variable {x y : Float}

/-- An infinity stays one under factors other than zero. -/
theorem isInf_mul (hx : x.isInf = true) (number : y.isNaN = false) (nonzero : toRat? y ≠ some 0) :
    (x * y).isInf = true ∧ (y * x).isInf = true := by
  obtain ⟨s, ux⟩ := exists_unpack_of_isInf hx
  rw [mul_eq, mul_eq, ux]
  rcases double_cases y with uy | ⟨t, uy⟩ | ⟨q, hy⟩
  · rw [isNaN_of_unpack uy] at number
    cases number
  · rw [uy]
    exact ⟨isInf_pack_infinity _, isInf_pack_infinity _⟩
  · rcases number_cases hy with ⟨t, uy, rfl⟩ | ⟨t, m, e, pos, uy, _⟩
    · exact absurd hy nonzero
    · rw [uy]
      exact ⟨isInf_pack_infinity _, isInf_pack_infinity _⟩

theorem isInf_sub {q : ℚ} (hx : x.isInf = true) (hy : toRat? y = some q) :
    (x - y).isInf = true := by
  obtain ⟨s, ux⟩ := exists_unpack_of_isInf hx
  rw [sub_eq, ux]
  rcases number_cases hy with ⟨t, uy, _⟩ | ⟨t, m, e, pos, uy, _⟩
  · rw [uy]
    exact isInf_pack_infinity _
  · rw [uy]
    exact isInf_pack_infinity _

theorem nan_div (x : Float) : nan / x = nan := by
  rw [div_eq, unpack_nan]
  cases x.toModel.unpack <;> rfl

theorem isNaN_infinity_mul_zero (hx : x.isInf = true) (hy : toRat? y = some 0) :
    (x * y).isNaN = true := by
  obtain ⟨s, ux⟩ := exists_unpack_of_isInf hx
  rcases number_cases hy with ⟨t, uy, _⟩ | ⟨t, m, e, pos, uy, zero⟩
  · rw [mul_eq, ux, uy]
    exact isNaN_pack_notANumber
  · exact absurd zero.symm (apply_mul_ne_zero t pos e)

/-- An infinity is undefined only over another one. -/
theorem isNaN_infinity_div (hx : x.isInf = true) (number : y.isNaN = false) :
    (x / y).isNaN = true ↔ y.isInf = true := by
  obtain ⟨s, ux⟩ := exists_unpack_of_isInf hx
  rcases double_cases y with uy | ⟨t, uy⟩ | ⟨q, hy⟩
  · rw [isNaN_of_unpack uy] at number
    cases number
  · rw [div_eq, ux, (isInf_of_unpack uy).1, uy]
    exact iff_of_true isNaN_pack_notANumber rfl
  · have infinite : (x / y).isInf = true := by
      rw [div_eq, ux]
      rcases number_cases hy with ⟨t, uy, _⟩ | ⟨t, m, e, pos, uy, _⟩
      · rw [uy]
        exact isInf_pack_infinity _
      · rw [uy]
        exact isInf_pack_infinity _
    rw [isNaN_of_isInf infinite, (finite_of_toRat? hy).2]

theorem roundWithAccuracy_ne_notANumber (s : Sign) (m : Nat) (e : Int) (a : Accuracy) :
    roundWithAccuracy Format.binary64 s m e a ≠ .notANumber := by
  simp only [roundWithAccuracy]
  split <;> simp

theorem isNaN_number_div {p : ℚ} (hx : toRat? x = some p) (number : y.isNaN = false)
    (nonzero : toRat? y ≠ some 0) : (x / y).isNaN = false := by
  rcases double_cases y with uy | ⟨t, uy⟩ | ⟨q, hy⟩
  · rw [isNaN_of_unpack uy] at number
    cases number
  · rw [div_eq, uy]
    rcases number_cases hx with ⟨s, ux, _⟩ | ⟨s, m, e, pos, ux, _⟩ <;> rw [ux] <;>
      exact isNaN_pack (by simp [UnpackedFloat.div])
  · rcases number_cases hy with ⟨t, uy, rfl⟩ | ⟨t, n, k, right, uy, _⟩
    · exact absurd hy nonzero
    · rw [div_eq, uy]
      rcases number_cases hx with ⟨s, ux, _⟩ | ⟨s, m, e, pos, ux, _⟩
      · rw [ux]
        exact isNaN_pack (by simp [UnpackedFloat.div])
      · rw [ux]
        exact isNaN_pack (roundWithAccuracy_ne_notANumber _ _ _ _)

end

end Double

end FiniteCalculus
