import FiniteCalculus.Elementary.Logarithm
import FiniteCalculus.Proofs.Double.Quotients
import FiniteCalculus.Proofs.Elementary.Hypotenuse

/-! Where the inverse hyperbolic sine and cosecant are finite. Each is the logarithm of a sum in
which the root of one more than a square, or its quotient by the number, is added to a number of
nearly the same size. Where the two are of opposite signs and as large, the sum vanishes and its
logarithm is infinite, and where the square is too large for a double, so is the sum. -/

namespace FiniteCalculus.Elementary
set_option autoImplicit false

open Double

/-- What is relied on of a logarithm: a positive number has one, on the side of zero on which the
number lies of one, and those of zero and of an infinity are infinite. -/
structure LogarithmWorks [Transcendentals] : Prop where
  positive {y : Float} {q : ℚ} (hy : toRat? y = some q) (pos : 0 < q) :
    ∃ r, toRat? (Transcendentals.log y) = some r ∧ (0 < r ↔ 1 < q) ∧ (r < 0 ↔ q < 1)
  zero {y : Float} (hy : toRat? y = some 0) : place? (Transcendentals.log y) = some ⊥
  infinity {y : Float} (hy : place? y = some ⊤) : place? (Transcendentals.log y) = some ⊤
  undefined {y : Float} (hy : y.isNaN = true) : (Transcendentals.log y).isNaN = true

/-- Tells no more of a logarithm than on which side of zero it lies. -/
def coarseLogarithm (y : Float) : Float :=
  if y < 0.0 then Double.nan
  else if y == 0.0 then .ofModel (.pack (.infinity .negative))
  else if y.isInf then y
  else if 1.0 < y then 1.0
  else if y < 1.0 then -1.0
  else if y == 1.0 then 0.0
  else y

theorem coarseLogarithm_positive {y : Float} {q : ℚ} (hy : toRat? y = some q) (pos : 0 < q) :
    ∃ r, toRat? (coarseLogarithm y) = some r ∧ (0 < r ↔ 1 < q) ∧ (r < 0 ↔ q < 1) := by
  have positive : ¬ y < 0.0 := fun lt => pos.not_gt ((lt_iff_of_toRat? hy toRat?_zero).mp lt)
  have nonzero : ¬ (y == 0.0) = true := fun same =>
    toRat?_ne_zero hy pos.ne' (beq_zero_iff.mp same)
  rw [coarseLogarithm, if_neg positive, if_neg nonzero, if_neg (not_isInf_of_toRat? hy)]
  rcases lt_trichotomy q 1 with lt | rfl | gt
  · rw [if_neg (mt (lt_iff_of_toRat? toRat?_one hy).mp lt.not_gt),
      if_pos ((lt_iff_of_toRat? hy toRat?_one).mpr lt)]
    exact ⟨-1, toRat?_neg_one, by constructor <;> intro <;> linarith,
      by constructor <;> intro <;> linarith⟩
  · have same : y = 1.0 := eq_of_toRat? hy toRat?_one one_ne_zero
    rw [same, if_neg (by decide), if_neg (by decide), if_pos (by decide)]
    exact ⟨0, toRat?_zero, by simp, by simp⟩
  · rw [if_pos ((lt_iff_of_toRat? toRat?_one hy).mpr gt)]
    exact ⟨1, toRat?_one, by constructor <;> intro <;> linarith,
      by constructor <;> intro <;> linarith⟩

theorem coarseLogarithm_zero {y : Float} (hy : toRat? y = some 0) :
    place? (coarseLogarithm y) = some ⊥ := by
  have positive : ¬ y < 0.0 := fun lt => lt_irrefl 0 ((lt_iff_of_toRat? hy toRat?_zero).mp lt)
  rw [coarseLogarithm, if_neg positive, if_pos (beq_zero_iff.mpr hy)]
  decide

/-- The transcendental functions with that logarithm. -/
@[reducible]
def coarse : Transcendentals where
  __ := (inferInstance : Transcendentals)
  log := coarseLogarithm

theorem coarse_works : @LogarithmWorks coarse := by
  refine @LogarithmWorks.mk coarse coarseLogarithm_positive coarseLogarithm_zero
    (fun {y} hy => ?_) (fun {y} hy => ?_)
  · change place? (coarseLogarithm y) = some ⊤
    rw [← ofModel_pack_unpack y, place?_eq_top_iff.mp hy]
    decide
  · change (coarseLogarithm y).isNaN = true
    rw [eq_nan_of_isNaN hy]
    decide

section
variable [Transcendentals]

/-- Where the inverse hyperbolic sine is finite, and what it is elsewhere. -/
structure AreaSineRanges (x : Float) (a : ℚ) : Prop where
  overflow : 2 ^ 512 ≤ |a| → place? (areaSine x) = some ⊤
  cancelled : -2 ^ 512 < a → a ≤ -2 ^ 27 → place? (areaSine x) = some ⊥
  between : -2 ^ 27 < a → a ≤ -2 ^ 26 →
    place? (areaSine x) = some ⊥ ∨ ∃ r, toRat? (areaSine x) = some r ∧ r < 0
  finite : -2 ^ 26 < a → a < 2 ^ 512 → ∃ r, toRat? (areaSine x) = some r ∧
    (0 < r ↔ 1 / 2 ^ 53 < a) ∧ (r < 0 ↔ a < -(1 / 2 ^ 54))

/-- Where the inverse hyperbolic cosecant is finite, and what it is elsewhere. -/
structure AreaCosecantRanges (x : Float) (a : ℚ) : Prop where
  overflow : 2 ^ 512 ≤ |a| → place? (areaCosecant x) = some ⊤
  small : 0 < a → a ≤ 1 / 2 ^ 1023 → place? (areaCosecant x) = some ⊤
  positive : 1 / 2 ^ 1023 < a → a < 2 ^ 512 → ∃ r, toRat? (areaCosecant x) = some r
  negative : -2 ^ 512 < a → a ≤ -(1 / 2 ^ 25) → ∃ r, toRat? (areaCosecant x) = some r
  between : -(1 / 2 ^ 25) < a → a < -(1 / 2 ^ 26) →
    place? (areaCosecant x) = some ⊥ ∨ ∃ r, toRat? (areaCosecant x) = some r
  cancelled : -(1 / 2 ^ 26) ≤ a → a < -(1 / 2 ^ 1024) → place? (areaCosecant x) = some ⊥
  undefined : -(1 / 2 ^ 1024) ≤ a → a ≤ 0 → (areaCosecant x).isNaN = true

end

/-- A sum of two finite doubles that is neither too small nor too large has a logarithm. -/
theorem exists_log_sum [Transcendentals] (works : LogarithmWorks) {y z : Float} {i d : ℚ}
    (hy : toRat? y = some i) (hz : toRat? z = some d) (low : 1 / 2 ^ 53 ≤ i + d)
    (high : i + d < overflow) :
    ∃ l, toRat? (Transcendentals.log (y + z)) = some l := by
  have least : (0 : ℚ) < 1 / 2 ^ 53 := by positivity
  have bounded : |i + d| < overflow := by rwa [abs_of_pos (by linarith)]
  obtain ⟨t, ht⟩ := (isRounded_add hy hz).exists_toRat? bounded
  have sum : RoundedTo (i + d) t := ⟨_, isRounded_add hy hz, ht⟩
  have := sum.le_of_le (isDouble_inv_natPow (k := 53) (by decide)) low
  obtain ⟨l, hl, _⟩ := works.positive ht (by linarith)
  exact ⟨l, hl⟩

/-! The numbers that are added. -/

/-- What one and the root are rounded to when they are divided by the magnitude of the number. -/
structure Quotients (x : Float) (a r i d : ℚ) : Prop where
  root : toRat? (x * x + 1.0).sqrt = some r
  reciprocal : RoundedTo (1 / |a|) i
  quotient : RoundedTo (r / |a|) d
  left : toRat? (1.0 / x.abs) = some i
  right : toRat? ((x * x + 1.0).sqrt / x.abs) = some d

section
variable {x : Float} {a r i d : ℚ} (quotients : Quotients x a r i d)
include quotients

theorem Quotients.eq_of_root (lost : r = 1) : i = d := by
  have same : (x * x + 1.0).sqrt = 1.0 :=
    eq_of_toRat? quotients.root (lost ▸ toRat?_one) (by linarith)
  have right := quotients.right
  rw [same] at right
  exact Option.some.inj (quotients.left.symm.trans right)

theorem Quotients.le {q s : ℚ} (h : Hypotenuse a q s r) (nonzero : a ≠ 0) : i ≤ d := by
  rcases eq_or_lt_of_le h.one_le.2.2 with one | lt
  · exact (quotients.eq_of_root one.symm).le
  · refine quotients.reciprocal.mono quotients.quotient ?_
    rw [div_lt_div_iff_of_pos_right (abs_pos.mpr nonzero)]
    exact lt

theorem Quotients.opposite (hx : toRat? x = some a) (negative : a < 0) :
    toRat? (1.0 / x) = some (-i) := by
  rw [div_of_negative 1.0 hx negative]
  exact toRat?_neg quotients.left

end

section
variable {x : Float} {a : ℚ} (hx : toRat? x = some a)
include hx

/-- Beyond the range of squares the root is infinite. -/
theorem unpack_root (large : 2 ^ 512 ≤ |a|) :
    (x * x + 1.0).sqrt.toModel.unpack = .infinity .positive := by
  have size : overflow ≤ a * a := by
    have := pow_le_pow_left₀ (by positivity) large 2
    rw [sq_abs, sq a, ← pow_mul] at this
    exact overflow_le_pow.trans this
  have square := (isRounded_mul hx hx).unpack_eq size
  have sum : x * x + 1.0 = x * x := infinity_add_number square toRat?_one
  rw [sum, sqrt_eq, square]
  rfl

/-- The number and the root as doubles, and their sum. -/
theorem exists_sum (small : |a| < 2 ^ 512) : ∃ q s r t, Hypotenuse a q s r ∧
    RoundedTo (a + r) t ∧ toRat? (x + (x * x + 1.0).sqrt) = some t := by
  obtain ⟨q, s, r, h, hr⟩ := exists_hypotenuse hx small
  have bounded : |a + r| < overflow := by
    have bound := (abs_add_le a r).trans (add_le_add small.le le_rfl)
    rw [abs_of_nonneg (by linarith [h.one_le] : 0 ≤ r)] at bound
    have twice := bound.trans (add_le_add le_rfl h.le_pow)
    rw [← two_mul, ← pow_succ'] at twice
    exact twice.trans_lt (pow_lt_overflow (by decide))
  obtain ⟨t, ht⟩ := (isRounded_add hx hr).exists_toRat? bounded
  exact ⟨q, s, r, t, h, ⟨_, isRounded_add hx hr, ht⟩, ht⟩

theorem exists_quotients (low : 1 / 2 ^ 1024 < |a|) (high : |a| < 2 ^ 512) :
    ∃ q s r i d, Hypotenuse a q s r ∧ Quotients x a r i d := by
  obtain ⟨q, s, r, h, hr⟩ := exists_hypotenuse hx high
  have hy := abs_of_toRat? hx
  have pos : 0 < |a| := lt_trans (by positivity) low
  obtain ⟨g, ⟨y, hg⟩, le₁, le₂, _⟩ := h.quotients_le low
  have within : g < overflow := (le_abs_self g).trans_lt (abs_lt_overflow hg)
  have first := isRounded_div toRat?_one hy pos.ne'
  have second := isRounded_div hr hy pos.ne'
  have nonneg : 0 ≤ r / |a| := div_nonneg (by linarith [h.one_le]) pos.le
  obtain ⟨i, hi⟩ := first.exists_toRat? (by rw [abs_of_pos (by positivity)]; linarith)
  obtain ⟨d, hd⟩ := second.exists_toRat? (by rw [abs_of_nonneg nonneg]; linarith)
  exact ⟨q, s, r, i, d, h, hr, ⟨_, first, hi⟩, ⟨_, second, hd⟩, hi, hd⟩

end

section
variable [Transcendentals] (works : LogarithmWorks) {x : Float} {a : ℚ} (hx : toRat? x = some a)
include works hx

/-! The sine. -/

theorem areaSine_overflow (large : 2 ^ 512 ≤ |a|) : place? (areaSine x) = some ⊤ := by
  have root := unpack_root hx large
  refine works.infinity ?_
  rw [add_infinity hx root]
  exact place?_eq_top_iff.mpr root

omit hx in
/-- A root that is the magnitude of a negative number cancels it. -/
theorem areaSine_cancels {r t : ℚ} (sum : RoundedTo (a + r) t)
    (ht : toRat? (x + (x * x + 1.0).sqrt) = some t) (negative : a ≤ 0) (same : |a| = r) :
    place? (areaSine x) = some ⊥ := by
  rw [← same, abs_of_nonpos negative, add_neg_cancel] at sum
  rw [sum.eq_self isDouble_zero] at ht
  exact works.zero ht

theorem areaSine_cancelled (low : -2 ^ 512 < a) (high : a ≤ -2 ^ 27) :
    place? (areaSine x) = some ⊥ := by
  have negative : a ≤ 0 := high.trans (by norm_num)
  have size := abs_of_nonpos negative
  obtain ⟨q, s, r, t, h, sum, ht⟩ := exists_sum hx (by rw [size]; exact neg_lt.mp low)
  have same := h.eq_abs (by rw [size]; exact le_neg.mpr high)
  exact areaSine_cancels works sum ht negative same.symm

theorem areaSine_between (low : -2 ^ 27 < a) (high : a ≤ -2 ^ 26) :
    place? (areaSine x) = some ⊥ ∨ ∃ r, toRat? (areaSine x) = some r ∧ r < 0 := by
  have negative : a ≤ 0 := high.trans (by norm_num)
  have small : |a| < 2 ^ 512 := by
    rw [abs_of_nonpos negative]
    exact (neg_lt.mp low).trans (pow_lt_pow_right₀ (by norm_num) (by decide))
  obtain ⟨q, s, r, t, h, sum, ht⟩ := exists_sum hx small
  rcases eq_or_lt_of_le h.le_root with same | lt
  · exact .inl (areaSine_cancels works sum ht negative same)
  · obtain ⟨l, hl, _, below⟩ := works.positive ht (h.sum_pos sum lt)
    exact .inr ⟨l, hl, below.mpr ((h.sum_lt_one_iff sum low).mpr (by linarith))⟩

theorem areaSine_finite (low : -2 ^ 26 < a) (high : a < 2 ^ 512) :
    ∃ r, toRat? (areaSine x) = some r ∧
      (0 < r ↔ 1 / 2 ^ 53 < a) ∧ (r < 0 ↔ a < -(1 / 2 ^ 54)) := by
  have wide : -2 ^ 27 < a := by linarith
  have small : |a| < 2 ^ 512 := by
    refine abs_lt.mpr ⟨lt_trans ?_ low, high⟩
    exact neg_lt_neg (pow_lt_pow_right₀ (by norm_num) (by decide))
  obtain ⟨q, s, r, t, h, sum, ht⟩ := exists_sum hx small
  have pos : 0 < t := by
    rcases lt_or_ge a 0 with negative | nonneg
    · exact h.sum_pos sum (h.lt_root (by rw [abs_of_neg negative]; linarith))
    · have := sum.le_of_le isDouble_one (by linarith [h.one_le])
      linarith
  obtain ⟨l, hl, above, below⟩ := works.positive ht pos
  exact ⟨l, hl, above.trans (h.one_lt_sum_iff sum wide), below.trans (h.sum_lt_one_iff sum wide)⟩

theorem areaSine_ranges : AreaSineRanges x a :=
  ⟨areaSine_overflow works hx, areaSine_cancelled works hx, areaSine_between works hx,
    areaSine_finite works hx⟩

/-! The cosecant. -/

omit works in
theorem areaCosecant_eq (nonzero : a ≠ 0) : areaCosecant x =
    Transcendentals.log (1.0 / x + (x * x + 1.0).sqrt / x.abs) := by
  have other : isZero x = false := by
    refine Bool.eq_false_iff.mpr fun zero => ?_
    exact toRat?_ne_zero hx nonzero (beq_zero_iff.mp zero)
  rw [areaCosecant, other, add_swap 1.0 (x * x)]
  rfl

theorem areaCosecant_overflow (large : 2 ^ 512 ≤ |a|) : place? (areaCosecant x) = some ⊤ := by
  have pos : 0 < |a| := lt_of_lt_of_le (by positivity) large
  have nonzero := abs_pos.mp pos
  have one : 1 / |a| ≤ 1 := by
    rw [div_le_one pos]
    exact (one_le_pow₀ (by norm_num)).trans large
  obtain ⟨i, hi⟩ := (isRounded_div toRat?_one hx nonzero).exists_toRat? (by
    rw [abs_div, abs_one]
    exact one.trans_lt (by simpa using pow_lt_overflow (k := 0) (by decide)))
  have root := unpack_root hx large
  rw [areaCosecant_eq hx nonzero, infinity_div_positive root (abs_of_toRat? hx) pos]
  refine works.infinity ?_
  rw [add_infinity hi root]
  exact place?_eq_top_iff.mpr root

/-- The two quotients of a small number are the same, and together too large. -/
theorem areaCosecant_small (low : 0 < a) (high : a ≤ 1 / 2 ^ 1023) :
    place? (areaCosecant x) = some ⊤ := by
  have size := abs_of_pos low
  have tiny : |a| ≤ 1 / 2 ^ 26 := by
    rw [size]
    exact high.trans (inv_pow_le (by decide))
  have long : 2 ^ 1023 ≤ 1 / a := (le_div_comm₀ low (by positivity)).mp high
  obtain ⟨q, s, r, h, hr⟩ := exists_hypotenuse hx (lt_pow_of_le_one (by linarith))
  have first := isRounded_div toRat?_one hx low.ne'
  have second := isRounded_div hr (abs_of_toRat? hx) (abs_pos.mpr low.ne').ne'
  rw [h.eq_one tiny, size] at second
  rw [areaCosecant_eq hx low.ne']
  refine works.infinity ?_
  rcases lt_or_ge (1 / a) overflow with small | large
  · have bounded : |1 / a| < overflow := by rwa [abs_of_pos (by positivity)]
    obtain ⟨i, hi⟩ := first.exists_toRat? bounded
    obtain ⟨d, hd⟩ := second.exists_toRat? bounded
    have power := isDouble_natPow (k := 1023) (by decide)
    have left := RoundedTo.le_of_le ⟨_, first, hi⟩ power long
    have right := RoundedTo.le_of_le ⟨_, second, hd⟩ power long
    have twice := add_le_add left right
    rw [← two_mul, ← pow_succ'] at twice
    exact place?_eq_top_iff.mpr ((isRounded_add hi hd).unpack_eq (overflow_le_pow.trans twice))
  · rw [add_eq, first.unpack_eq large, second.unpack_eq large]
    exact place?_eq_top_iff.mpr rfl

/-- Zero is a pole, and beside it two infinite quotients of opposite signs have no sum. -/
theorem areaCosecant_undefined (low : -(1 / 2 ^ 1024) ≤ a) (nonpos : a ≤ 0) :
    (areaCosecant x).isNaN = true := by
  rcases eq_or_lt_of_le nonpos with rfl | negative
  · have zero : isZero x = true := beq_zero_iff.mpr hx
    rw [areaCosecant, if_pos zero]
    decide
  have hy := abs_of_toRat? hx
  have pos : 0 < |a| := abs_pos.mpr negative.ne
  have tiny : |a| ≤ 1 / 2 ^ 1024 := by
    rw [abs_of_neg negative]
    exact neg_le.mp low
  obtain ⟨q, s, r, h, hr⟩ := exists_hypotenuse hx
    (lt_pow_of_le_one (tiny.trans ((inv_pow_le (n := 0) (by decide)).trans (by norm_num))))
  have large : overflow ≤ 1 / |a| :=
    overflow_le_pow.trans ((le_div_comm₀ pos (by positivity)).mp tiny)
  have large' : overflow ≤ r / |a| :=
    large.trans (div_le_div_of_nonneg_right h.one_le.2.2 pos.le)
  have left : (1.0 / x).toModel.unpack = .infinity .negative := by
    rw [div_of_negative 1.0 hx negative, unpack_neg,
      (isRounded_div toRat?_one hy pos.ne').unpack_eq large]
    rfl
  have right := (isRounded_div hr hy pos.ne').unpack_eq large'
  rw [areaCosecant_eq hx negative.ne]
  refine works.undefined ?_
  rw [add_eq, left, right]
  rfl

section
variable {q s r i d : ℚ} (h : Hypotenuse a q s r) (quotients : Quotients x a r i d)
include quotients

theorem areaCosecant_cancels (negative : a < 0) (same : i = d) :
    place? (areaCosecant x) = some ⊥ := by
  have sum := isRounded_add (quotients.opposite hx negative) quotients.right
  rw [same, neg_add_cancel] at sum
  rw [areaCosecant_eq hx negative.ne]
  exact works.zero (sum.toRat?_eq toRat?_zero)

include h in
/-- The quotient is at least one, so that what is left beside a smaller reciprocal is not too
small. -/
theorem areaCosecant_remains (negative : a < 0) (lt : i < d) :
    ∃ l, toRat? (areaCosecant x) = some l := by
  have pos : 0 < |a| := abs_pos.mpr negative.ne
  have nonneg := quotients.reciprocal.le_of_le isDouble_zero (by positivity)
  have whole := quotients.quotient.le_of_le isDouble_one ((one_le_div pos).mpr h.le_root)
  have gap := quotients.reciprocal.isDouble.mul_le quotients.quotient.isDouble lt nonneg
  have bound := (le_abs_self d).trans_lt (abs_lt_overflow quotients.right)
  rw [areaCosecant_eq hx negative.ne]
  exact exists_log_sum works (quotients.opposite hx negative) quotients.right (by linarith)
    (by linarith)

end

theorem areaCosecant_positive (low : 1 / 2 ^ 1023 < a) (high : a < 2 ^ 512) :
    ∃ r, toRat? (areaCosecant x) = some r := by
  have positive : 0 < a := lt_trans (by positivity) low
  have size := abs_of_pos positive
  have low' : 1 / 2 ^ 1024 < |a| := (inv_pow_le (by decide)).trans_lt (low.trans_eq size.symm)
  obtain ⟨q, s, r, i, d, h, quotients⟩ := exists_quotients hx low' (size.trans_lt high)
  obtain ⟨g, hg, le₁, le₂, top⟩ := h.quotients_le low'
  have first := quotients.reciprocal.ge_of_ge hg le₁
  have second := quotients.quotient.ge_of_ge hg le₂
  have nonneg := quotients.reciprocal.le_of_le isDouble_zero (by positivity)
  have whole := quotients.quotient.le_of_le isDouble_one
    ((one_le_div (abs_pos.mpr positive.ne')).mpr h.le_root)
  have sum := top (low.trans_eq size.symm)
  have left := quotients.left
  rw [abs_of_positive hx positive] at left
  rw [areaCosecant_eq hx positive.ne']
  refine exists_log_sum works left quotients.right ?_ (by linarith)
  have : (1 : ℚ) / 2 ^ 53 ≤ 1 := by norm_num
  linarith

theorem areaCosecant_negative (low : -2 ^ 512 < a) (high : a ≤ -(1 / 2 ^ 25)) :
    ∃ r, toRat? (areaCosecant x) = some r := by
  have negative : a < 0 := by linarith
  have size := abs_of_neg negative
  have small : |a| < 2 ^ 512 := size.trans_lt (neg_lt.mp low)
  have above : 1 / 2 ^ 25 ≤ |a| := by linarith
  have low' : 1 / 2 ^ 1024 < |a| := (inv_pow_le (n := 26) (by decide)).trans_lt (by linarith)
  obtain ⟨q, s, r, i, d, h, quotients⟩ := exists_quotients hx low' small
  exact areaCosecant_remains works hx h quotients negative
    (h.quotients_lt above small quotients.reciprocal quotients.quotient)

theorem areaCosecant_between (low : -(1 / 2 ^ 25) < a) (high : a < -(1 / 2 ^ 26)) :
    place? (areaCosecant x) = some ⊥ ∨ ∃ r, toRat? (areaCosecant x) = some r := by
  have negative : a < 0 := by linarith
  have size := abs_of_neg negative
  have low' : 1 / 2 ^ 1024 < |a| := (inv_pow_le (n := 26) (by decide)).trans_lt (by linarith)
  obtain ⟨q, s, r, i, d, h, quotients⟩ :=
    exists_quotients hx low' (lt_pow_of_le_one (by linarith))
  rcases eq_or_lt_of_le (quotients.le h negative.ne) with same | lt
  · exact .inl (areaCosecant_cancels works hx quotients negative same)
  · exact .inr (areaCosecant_remains works hx h quotients negative lt)

theorem areaCosecant_cancelled (low : -(1 / 2 ^ 26) ≤ a) (high : a < -(1 / 2 ^ 1024)) :
    place? (areaCosecant x) = some ⊥ := by
  have negative : a < 0 := high.trans (by simp)
  have size := abs_of_neg negative
  have small : |a| ≤ 1 / 2 ^ 26 := by linarith
  have low' : 1 / 2 ^ 1024 < |a| := by
    rw [size]
    exact lt_neg.mp high
  obtain ⟨q, s, r, i, d, h, quotients⟩ :=
    exists_quotients hx low' (lt_pow_of_le_one (by linarith))
  exact areaCosecant_cancels works hx quotients negative (quotients.eq_of_root (h.eq_one small))

theorem areaCosecant_ranges : AreaCosecantRanges x a where
  overflow := areaCosecant_overflow works hx
  small := areaCosecant_small works hx
  positive := areaCosecant_positive works hx
  negative := areaCosecant_negative works hx
  between := areaCosecant_between works hx
  cancelled := areaCosecant_cancelled works hx
  undefined := areaCosecant_undefined works hx

/-- The inverse hyperbolic sine and cosecant of a finite double, range by range. They are not finite
throughout, and the cosecant is not even defined throughout. -/
theorem area_functions_by_range : AreaSineRanges x a ∧ AreaCosecantRanges x a :=
  ⟨areaSine_ranges works hx, areaCosecant_ranges works hx⟩

end

/-- A large negative number has a finite inverse hyperbolic cosecant, but no such sine. -/
theorem areas_of_large_negative :
    @LogarithmWorks coarse ∧ toRat? (nearestToInt (-2 ^ 60)) = some (-2 ^ 60) ∧
      @AreaSineRanges coarse (nearestToInt (-2 ^ 60)) (-2 ^ 60) ∧
      @AreaCosecantRanges coarse (nearestToInt (-2 ^ 60)) (-2 ^ 60) := by
  have value : toRat? (nearestToInt (-2 ^ 60)) = some (-2 ^ 60) := by
    have short : IsShort (-2 ^ 60) := ⟨1, 60, by decide, by decide⟩
    have small : |((-2 ^ 60 : Int) : ℚ)| < overflow := by
      refine lt_of_le_of_lt ?_ (pow_lt_overflow (k := 60) (by decide))
      norm_num
    have same := short.toRat?_nearestToInt small
    push_cast at same
    exact same
  exact ⟨coarse_works, value,
    @area_functions_by_range coarse coarse_works _ _ value⟩

/-- Ten to the tenth below zero the root is the number itself, and the inverse hyperbolic sine is
not finite whatever the logarithm does elsewhere. -/
theorem areaSine_not_finite : toRat? (nearestToInt (-10 ^ 10)) = some (-10 ^ 10) ∧
    ∀ [Transcendentals], LogarithmWorks → toRat? (areaSine (nearestToInt (-10 ^ 10))) = none := by
  have value : toRat? (nearestToInt (-10 ^ 10)) = some (-10 ^ 10) := by
    have same := toRat?_nearestToInt (n := -10 ^ 10) (by decide)
    push_cast at same
    exact same
  refine ⟨value, fun works => ?_⟩
  have low : (-2 ^ 512 : ℚ) < -10 ^ 10 := by
    refine neg_lt_neg (lt_trans ?_ (pow_lt_pow_right₀ one_lt_two (by decide : 40 < 512)))
    norm_num
  have infinite := (areaSine_ranges works value).cancelled low (by norm_num)
  refine Option.eq_none_iff_forall_ne_some.mpr fun r hr => ?_
  rw [place?_of_toRat? hr] at infinite
  cases infinite

end FiniteCalculus.Elementary
