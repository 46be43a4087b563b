import FiniteCalculus.Proofs.Double.Roots

/-! The root of one more than a square, as doubles compute it in three steps. Each step is rounded,
and the root is at least one and at least the number. For large numbers the one is lost, and the
root is the number itself; for small ones the square is lost, and the root is one. Last come the
sum of the number and the root, and the quotients of one and the root by the number. -/

namespace FiniteCalculus.Elementary
set_option autoImplicit false

open Double

theorem two_zpow_le {p : ℚ} {k : Int} (le : k ≤ 0) (one : 1 ≤ p) : 2 ^ k ≤ p :=
  (zpow_le_one_of_nonpos₀ (by norm_num) le).trans one

/-- The square of a number, one more than the square, and the root of that, each rounded. -/
structure Hypotenuse (a q s r : ℚ) : Prop where
  number : IsDouble a
  square : RoundedTo (a * a) q
  sum : RoundedTo (q + 1) s
  root : RootOf s r

section
variable {a q s r : ℚ} (h : Hypotenuse a q s r)
include h

theorem Hypotenuse.one_le : 0 ≤ q ∧ 1 ≤ s ∧ 1 ≤ r := by
  have square := h.square.le_of_le isDouble_zero (mul_self_nonneg a)
  have sum := h.sum.le_of_le isDouble_one (by linarith)
  exact ⟨square, sum, h.root.le_of_sq_le isDouble_one (by linarith)⟩

theorem Hypotenuse.le_root : |a| ≤ r := by
  obtain ⟨_, _, one⟩ := h.one_le
  rcases le_or_gt |a| 1 with small | large
  · exact small.trans one
  · have size : 1 ≤ a * a := by
      rw [← abs_mul_abs_self]
      nlinarith
    refine h.root.abs_le h.square (two_zpow_le (by decide) size) h.number ?_
    exact h.sum.le_of_le h.square.isDouble (by linarith)

/-- A root that is greater than the number is greater by at least one part in 2 ^ 53. -/
theorem Hypotenuse.gap (lt : |a| < r) : 1 / 2 ^ 53 ≤ r - |a| := by
  have := h.number.abs.mul_le h.root.isDouble lt (abs_nonneg a)
  have := h.one_le
  linarith

theorem Hypotenuse.le_pow : r ≤ 2 ^ 512 := by
  refine h.root.ge_of_le_sq (isDouble_natPow (by decide)) (by positivity) ?_
  rw [← pow_mul]
  exact h.sum.isDouble.lt_pow.le

/-- Beside a large square the one is lost. -/
theorem Hypotenuse.eq_abs (large : 2 ^ 27 ≤ |a|) : r = |a| := by
  have size : 2 ^ 54 ≤ a * a := by
    have := pow_le_pow_left₀ (by norm_num) large 2
    rw [sq_abs, sq a] at this
    linarith
  have long := h.square.le_of_le (isDouble_natPow (k := 54) (by decide)) size
  have lost : s = q := by
    refine le_antisymm ?_ (h.sum.le_of_le h.square.isDouble (by linarith))
    by_contra above
    have apart := h.square.isDouble.add_le h.sum.isDouble (not_le.mp above) (e := 2)
      (long.trans' (by norm_num))
    have near := h.sum.nearest h.square.isDouble
    rw [add_sub_cancel_left, abs_one] at near
    have := (abs_le.mp near).1
    norm_num at apart
    linarith
  refine le_antisymm ?_ h.le_root
  exact RootOf.le_abs h.square (two_zpow_le (by decide) (by linarith)) h.number (lost ▸ h.root)

/-- Two roundings take less than one half away from the square and the one. -/
theorem Hypotenuse.le_sum (small : |a| ≤ 2 ^ 26) (le : q + 1 ≤ 2 ^ 52) : |a| ^ 2 + 1 / 2 ≤ s := by
  have first := h.square.error_le (k := -1) (by decide) (by decide) (by
    rw [← sq, abs_of_nonneg (sq_nonneg a), ← sq_abs]
    exact (pow_le_pow_left₀ (abs_nonneg a) small 2).trans (by norm_num))
  have second := h.sum.error_le (k := -1) (by decide) (by decide) (by
    rw [abs_of_nonneg (by linarith [h.one_le])]
    exact le.trans (by norm_num))
  rw [zpow_neg_one] at first second
  rw [← sq, ← sq_abs] at first
  have := le_abs_self (|a| ^ 2 - q)
  have := le_abs_self (q + 1 - s)
  linarith

/-- Otherwise it is not lost, unless the numbers are near the bound. -/
theorem Hypotenuse.lt_root (small : |a| < 2 ^ 26) : |a| < r := by
  refine lt_of_le_of_ne h.le_root fun same => ?_
  obtain ⟨_, _, one⟩ := h.one_le
  -- The next double is so near that the middle has a smaller square than the sum.
  obtain ⟨p, hp, lt, near⟩ :=
    h.root.isDouble.exists_next (n := 26) (two_zpow_le (by decide) one) (same ▸ small) (by decide)
  have middle := h.root.above p hp lt
  have short := h.number.abs.mul_le (isDouble_natPow (k := 26) (by decide)) small (abs_nonneg a)
  rw [same] at short
  norm_num at near
  have top : ((r + p) / 2) ^ 2 ≤ (r + 1 / 2 ^ 28) ^ 2 :=
    pow_le_pow_left₀ (by linarith) (by linarith) 2
  rcases le_or_gt (q + 1) (2 ^ 52) with le | gt
  · have long := h.le_sum small.le le
    have expand : (r + 1 / 2 ^ 28) ^ 2 = r ^ 2 + r / 2 ^ 27 + 1 / 2 ^ 56 := by ring
    rw [same] at long
    linarith
  · have long := h.sum.le_of_le (isDouble_natPow (k := 52) (by decide)) gt.le
    have below : (r + 1 / 2 ^ 28) ^ 2 ≤ (2 ^ 26 - 1 / 2 ^ 28) ^ 2 :=
      pow_le_pow_left₀ (by linarith) (by linarith) 2
    have : ((2 : ℚ) ^ 26 - 1 / 2 ^ 28) ^ 2 < 2 ^ 52 := by norm_num
    linarith

/-- Beside the one a small square is lost. -/
theorem Hypotenuse.eq_one (small : |a| ≤ 1 / 2 ^ 26) : r = 1 := by
  have size : a * a ≤ 1 / 2 ^ 52 := by
    have := pow_le_pow_left₀ (abs_nonneg a) small 2
    rw [sq_abs, sq a] at this
    linarith
  have square := h.square.ge_of_ge (isDouble_inv_natPow (k := 52) (by decide)) size
  have sum := h.sum.ge_of_ge (isDouble_one_add_inv (k := 52) (by decide)) (by linarith)
  refine le_antisymm ?_ h.one_le.2.2
  by_contra above
  have lt := not_le.mp above
  have apart := isDouble_one.add_le h.root.isDouble lt (e := -52) (by norm_num)
  have middle := h.root.below 1 isDouble_one (by norm_num) lt
  norm_num at apart
  have := pow_le_pow_left₀ (by norm_num) (by linarith : 1 + 1 / 2 ^ 53 ≤ (1 + r) / 2) 2
  linarith

theorem Hypotenuse.above_one (large : 1 / 2 ^ 25 ≤ |a|) : 1 + 1 / 2 ^ 51 ≤ r := by
  have size : 1 / 2 ^ 50 ≤ a * a := by
    have := pow_le_pow_left₀ (by norm_num) large 2
    rw [sq_abs, sq a] at this
    linarith
  have square := h.square.le_of_le (isDouble_inv_natPow (k := 50) (by decide)) size
  have sum := h.sum.le_of_le (isDouble_one_add_inv (k := 50) (by decide)) (by linarith)
  obtain ⟨_, _, one⟩ := h.one_le
  by_contra above
  have lt := not_le.mp above
  have double := isDouble_one_add_inv (k := 51) (by decide)
  have apart := h.root.isDouble.add_le double lt (e := -52) (by norm_num; exact one)
  have middle := h.root.above _ double lt
  norm_num at apart
  have := pow_le_pow_left₀ (by linarith)
    (by linarith : (r + (1 + 1 / 2 ^ 51)) / 2 ≤ 1 + 3 / 2 ^ 53) 2
  linarith

/-- The root is less than the number and one together. -/
theorem Hypotenuse.sub_abs_lt (low : 1 / 2 ^ 54 < |a|) (high : |a| < 2 ^ 27) :
    r - |a| < 1 - 1 / 2 ^ 54 := by
  obtain ⟨_, _, one⟩ := h.one_le
  rcases le_or_gt |a| (1 / 2 ^ 26) with small | large
  · linarith [h.eq_one small]
  · by_contra wide
    have huge : (2 : ℚ) ^ 512 < 2 ^ (1022 : Int) := by
      rw [← zpow_natCast]
      exact zpow_lt_zpow_right₀ (by norm_num) (by decide)
    have least : (2 : ℚ) ^ (-970 : Int) ≤ a * a := by
      have := pow_le_pow_left₀ (by norm_num) large.le 2
      rw [sq_abs, sq a] at this
      refine le_trans ?_ this
      exact zpow_le_zpow_right₀ (by norm_num) (by decide : (-970 : Int) ≤ -52) |>.trans
        (by norm_num)
    -- The three errors are small beside the number, and so is its square.
    obtain ⟨first, _⟩ := h.square.square_error least
    have second := h.sum.relative_error
      (two_zpow_le (by decide) ((le_abs_self _).trans' (by linarith)))
    have third := h.root.sq_le (two_zpow_le (by decide) one) (h.le_pow.trans_lt huge)
    have fourth := pow_le_pow_left₀ (by linarith) (by linarith : |a| + (1 - 1 / 2 ^ 54) ≤ r) 2
    have flat : |a| ^ 2 ≤ 2 ^ 27 * |a| := by
      rw [sq]
      exact mul_le_mul_of_nonneg_right high.le (abs_nonneg a)
    have := neg_le_abs (|a| ^ 2 - q)
    have := neg_le_abs (q + 1 - s)
    rw [abs_of_nonneg (by linarith : 0 ≤ s)] at second
    rw [mul_pow] at third
    linarith

end

/-- The greatest double below 2 ^ 512 falls short of it by one part in 2 ^ 53, its square falls
short of 2 ^ 1024 by almost twice that, and overflow begins at a half of it. -/
theorem abs_mul_self_lt_overflow {a : ℚ} (ha : IsDouble a) (small : |a| < 2 ^ 512) :
    |a * a| < overflow := by
  have top : (2 : ℚ) ^ 1024 = 2 ^ 54 * 2 ^ 970 := pow_add 2 54 970
  have unit : (0 : ℚ) < 2 ^ 970 := by positivity
  have gap := ha.abs.mul_le (isDouble_natPow (by decide)) small (abs_nonneg a)
  have less : |a| ≤ (1 - 1 / 2 ^ 53) * 2 ^ 512 := by
    generalize (2 : ℚ) ^ 512 = limit at gap ⊢
    linarith
  have short := pow_le_pow_left₀ (abs_nonneg a) less 2
  rw [mul_pow, ← pow_mul, top] at short
  rw [abs_mul, ← sq, overflow, top]
  generalize (2 : ℚ) ^ 970 = step at short unit ⊢
  linarith

theorem abs_add_one_lt_overflow {q : ℚ} (hq : IsDouble q) (nonneg : 0 ≤ q) :
    |q + 1| < overflow := by
  obtain ⟨x, hx⟩ := hq
  have size := abs_le_greatest hx
  rw [abs_of_nonneg nonneg, Double.greatest] at size
  have wide : (2 : ℚ) ^ (1 : Int) < 2 ^ greatestExponent :=
    zpow_lt_zpow_right₀ (by norm_num) (by decide)
  rw [abs_of_nonneg (by linarith), overflow_eq]
  generalize (2 : ℚ) ^ greatestExponent = step at size wide ⊢
  norm_num at wide
  linarith

/-- The steps do not leave the range of doubles where the square does not. -/
theorem exists_hypotenuse {x : Float} {a : ℚ} (hx : toRat? x = some a) (small : |a| < 2 ^ 512) :
    ∃ q s r, Hypotenuse a q s r ∧ toRat? (x * x + 1.0).sqrt = some r := by
  have first := isRounded_mul hx hx
  obtain ⟨q, hq⟩ := first.exists_toRat? (abs_mul_self_lt_overflow ⟨x, hx⟩ small)
  have square : RoundedTo (a * a) q := ⟨_, first, hq⟩
  have positive := square.le_of_le isDouble_zero (mul_self_nonneg a)
  have second := isRounded_add hq toRat?_one
  obtain ⟨s, hs⟩ := second.exists_toRat? (abs_add_one_lt_overflow square.isDouble positive)
  have sum : RoundedTo (q + 1) s := ⟨_, second, hs⟩
  have nonneg := sum.le_of_le isDouble_zero (by linarith)
  obtain ⟨r, hr, root⟩ := exists_sqrt hs nonneg
  exact ⟨q, s, r, ⟨⟨x, hx⟩, square, sum, root⟩, hr⟩

/-! The sum of a number and the root. -/

section
variable {a q s r t : ℚ} (h : Hypotenuse a q s r) (sum : RoundedTo (a + r) t)
include h sum

theorem Hypotenuse.sum_pos (lt : |a| < r) : 0 < t := by
  have gap := h.gap lt
  have := neg_abs_le a
  have := sum.le_of_le (isDouble_inv_natPow (k := 53) (by decide)) (by linarith)
  have : (0 : ℚ) < 1 / 2 ^ 53 := by positivity
  linarith

/-- The sum is less than one unless the number is lost beside the root. -/
theorem Hypotenuse.sum_lt_one_iff (low : -2 ^ 27 < a) : t < 1 ↔ a < -(1 / 2 ^ 54) := by
  have double : IsDouble (1 - 1 / 2 ^ 53) := isDouble_one_sub_inv (by decide)
  constructor
  · intro lt
    by_contra above
    have negative : a < 0 := by
      by_contra nonneg
      have := sum.le_of_le isDouble_one (by linarith [h.one_le])
      linarith
    have one : r = 1 := h.eq_one (by rw [abs_of_neg negative]; linarith)
    have gap := sum.isDouble.mul_le isDouble_one lt (sum.le_of_le isDouble_zero (by linarith))
    have near := sum.nearest isDouble_one
    have middle := le_middle near lt
    rw [one] at near middle sum
    -- The number is lost in the middle between one and the double below.
    have value : a = -(1 / 2 ^ 54) := by linarith
    have below : t = 1 - 1 / 2 ^ 53 := by linarith
    have even := sum.even_of_tie isDouble_one lt.ne' (by rw [value, below]; norm_num)
      (m := 2 ^ 53 - 1) (e := -53) ⟨by decide, by decide, by decide⟩
      (by rw [below]; norm_num)
    exact absurd even (by decide)
  · intro below
    by_contra above
    have low' : 1 / 2 ^ 54 < |a| := by rw [abs_of_neg (by linarith)]; linarith
    have high : |a| < 2 ^ 27 := by rw [abs_of_neg (by linarith)]; linarith
    have short := h.sub_abs_lt low' high
    rw [abs_of_neg (by linarith)] at short
    have middle := middle_le (sum.nearest double) (by linarith)
    linarith

theorem Hypotenuse.one_lt_sum_iff (low : -2 ^ 27 < a) : 1 < t ↔ 1 / 2 ^ 53 < a := by
  have double : IsDouble (1 + 1 / 2 ^ 52) := isDouble_one_add_inv (by decide)
  constructor
  · intro lt
    by_contra above
    have positive : 0 < a := by
      by_contra nonpos
      rcases lt_or_ge a (-(1 / 2 ^ 54)) with left | right
      · linarith [(h.sum_lt_one_iff sum low).mpr left]
      · have one : r = 1 := h.eq_one (by rw [abs_of_nonpos (by linarith)]; linarith)
        have := sum.ge_of_ge isDouble_one (by linarith)
        linarith
    have one : r = 1 := h.eq_one (by rw [abs_of_pos positive]; linarith)
    have gap := isDouble_one.add_le sum.isDouble lt (e := -52) (by norm_num)
    norm_num at gap
    have near := sum.nearest isDouble_one
    have middle := middle_le near lt
    rw [one] at near middle sum
    have value : a = 1 / 2 ^ 53 := by linarith
    have above : t = 1 + 1 / 2 ^ 52 := by linarith
    have even := sum.even_of_tie isDouble_one lt.ne (by rw [value, above]; norm_num)
      (m := 2 ^ 52 + 1) (e := -52) ⟨by decide, by decide, by decide⟩
      (by rw [above]; norm_num)
    exact absurd even (by decide)
  · intro above
    by_contra below
    obtain ⟨_, _, one⟩ := h.one_le
    have middle := le_middle (sum.nearest double) (by linarith)
    linarith

end

/-! The reciprocal of a number, and the root divided by it. -/

theorem one_div_pow_eq {k m : Nat} (e : k + m = 1074) :
    (1 : ℚ) / 2 ^ m = (2 ^ k : Nat) * 2 ^ leastExponent := by
  have least : leastExponent = -(k : Int) - m := by
    have : leastExponent = -1074 := rfl
    omega
  rw [least, zpow_sub₀ (by norm_num), zpow_neg, zpow_natCast, zpow_natCast]
  push_cast
  field_simp

theorem inv_pow_le {m n : Nat} (le : n ≤ m) : (1 : ℚ) / 2 ^ m ≤ 1 / 2 ^ n :=
  one_div_pow_le_one_div_pow_of_le (by norm_num) le

theorem lt_pow_of_le_one {b : ℚ} (le : b ≤ 1) : b < 2 ^ 512 :=
  le.trans_lt (one_lt_pow₀ (by norm_num) (by decide))

/-- The reciprocal of a number that is not too small. -/
theorem one_div_le {b : ℚ} (hb : IsDouble b) {k c : Nat} (lt : (k : ℚ) * 2 ^ leastExponent < b)
    (large : 2 ^ 103 ≤ c * (k + 1)) : 1 / b ≤ c * 2 ^ greatestExponent := by
  have next := hb.succ_le (k := k) (by exact_mod_cast lt)
  rw [Int.cast_natCast] at next
  have product : (2 : ℚ) ^ greatestExponent * 2 ^ leastExponent * 2 ^ 103 = 1 := by
    rw [← zpow_natCast, ← zpow_add₀ (by norm_num), ← zpow_add₀ (by norm_num)]
    exact zpow_zero 2
  have pos : 0 < b := lt_of_le_of_lt (by positivity) lt
  rw [div_le_iff₀ pos]
  calc (1 : ℚ) = 2 ^ greatestExponent * 2 ^ leastExponent * 2 ^ 103 := product.symm
    _ ≤ 2 ^ greatestExponent * 2 ^ leastExponent * (c * (k + 1)) :=
      mul_le_mul_of_nonneg_left (by exact_mod_cast large) (by positivity)
    _ = c * 2 ^ greatestExponent * ((k + 1) * 2 ^ leastExponent) := by ring
    _ ≤ c * 2 ^ greatestExponent * b := mul_le_mul_of_nonneg_left next (by positivity)

/-- The two quotients of a number that is not too small stay within the range, and so does their
sum unless the number is the smallest of these. -/
theorem Hypotenuse.quotients_le {a q s r : ℚ} (h : Hypotenuse a q s r) (low : 1 / 2 ^ 1024 < |a|) :
    ∃ g, IsDouble g ∧ 1 / |a| ≤ g ∧ r / |a| ≤ g ∧ (1 / 2 ^ 1023 < |a| → g + g < overflow) := by
  have pos : 0 < |a| := lt_trans (by positivity) low
  rcases le_or_gt |a| (1 / 2 ^ 26) with small | large
  · rcases le_or_gt |a| (1 / 2 ^ 1023) with least | above
    · have bound : 1 / |a| ≤ (2 ^ 53 - 1 : Nat) * 2 ^ greatestExponent :=
        one_div_le h.number.abs ((one_div_pow_eq (k := 50) (m := 1024) rfl).symm.trans_lt low)
          (by decide)
      exact ⟨_, isDouble_mul_greatest (by decide), bound, h.eq_one small ▸ bound,
        fun above => absurd above least.not_gt⟩
    · have bound : 1 / |a| ≤ (2 ^ 52 - 1 : Nat) * 2 ^ greatestExponent :=
        one_div_le h.number.abs ((one_div_pow_eq (k := 51) (m := 1023) rfl).symm.trans_lt above)
          (by decide)
      refine ⟨_, isDouble_mul_greatest (by decide), bound, h.eq_one small ▸ bound, fun _ => ?_⟩
      rw [overflow_eq]
      have unit : (0 : ℚ) < 2 ^ greatestExponent := zpow_pos (by norm_num) _
      generalize (2 : ℚ) ^ greatestExponent = step at unit ⊢
      norm_num
      linarith
  · have long : 2 ^ 512 ≤ 2 ^ 538 * |a| := by
      calc (2 : ℚ) ^ 512 = 2 ^ 538 * (1 / 2 ^ 26) := by
            rw [mul_one_div, eq_div_iff (by positivity), ← pow_add]
        _ ≤ 2 ^ 538 * |a| := mul_le_mul_of_nonneg_left large.le (by positivity)
    refine ⟨2 ^ 538, isDouble_natPow (by decide), ?_, ?_, fun _ => ?_⟩
    · rw [div_le_iff₀ pos]
      exact (one_le_pow₀ (by norm_num)).trans long
    · rw [div_le_iff₀ pos]
      exact h.le_pow.trans long
    · rw [← two_mul, ← pow_succ']
      exact pow_lt_overflow (by decide)

/-- A root that is not one makes another quotient than one, if it is more than a little above. -/
theorem Hypotenuse.quotients_lt {a q s r i d : ℚ} (h : Hypotenuse a q s r)
    (above : 1 / 2 ^ 25 ≤ |a|) (small : |a| < 2 ^ 512) (ri : RoundedTo (1 / |a|) i)
    (rd : RoundedTo (r / |a|) d) : i < d := by
  have pos : 0 < |a| := lt_of_lt_of_le (by positivity) above
  have reciprocal : 0 < 1 / |a| := by positivity
  have least : (2 : ℚ) ^ (-970 : Int) ≤ 1 / |a| := by
    calc (2 : ℚ) ^ (-970 : Int) ≤ 2 ^ (-(512 : Nat) : Int) :=
          zpow_le_zpow_right₀ (by norm_num) (by decide)
      _ = 1 / 2 ^ 512 := by rw [zpow_neg, zpow_natCast, one_div]
      _ ≤ 1 / |a| := one_div_le_one_div_of_le pos small.le
  have apart : (1 + 1 / 2 ^ 51) * (1 / |a|) ≤ r / |a| := by
    rw [mul_one_div]
    exact div_le_div_of_nonneg_right (h.above_one above) pos.le
  have first := ri.relative_error (least.trans (le_abs_self _))
  have second := rd.relative_error ((least.trans (by linarith)).trans (le_abs_self _))
  rw [abs_of_nonneg (ri.le_of_le isDouble_zero reciprocal.le)] at first
  rw [abs_of_nonneg (rd.le_of_le isDouble_zero (by linarith))] at second
  have := neg_le_abs (1 / |a| - i)
  have := le_abs_self (r / |a| - d)
  by_contra le
  linarith

end FiniteCalculus.Elementary
