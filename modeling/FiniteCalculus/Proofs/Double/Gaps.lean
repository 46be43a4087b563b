import FiniteCalculus.Proofs.Double.Negation
import Mathlib.Algebra.Order.Archimedean.Basic

/-! The numbers that doubles stand for, and the gaps between them. From a power of two on all of
them are multiples of one unit, so that the nearest one is at most half a unit away, and of two
positive ones the smaller is smaller by more than one part in 2 ^ 53. -/

namespace FiniteCalculus.Double
set_option autoImplicit false

/-- A number that some double stands for. -/
def IsDouble (q : ℚ) : Prop := ∃ x, toRat? x = some q

theorem isDouble_zero : IsDouble 0 := ⟨0, toRat?_zero⟩

theorem isDouble_one : IsDouble 1 := ⟨1.0, toRat?_one⟩

/-- A short mantissa, unless the number is too small or too large. -/
theorem isDouble_of_short {z k : Int} (short : z.natAbs ≤ 2 ^ 53) (low : -1022 ≤ k)
    (high : |(z : ℚ) * 2 ^ k| < 2 ^ 1024) : IsDouble (z * 2 ^ k) := by
  rcases eq_or_ne z 0 with rfl | nonzero
  · rw [Int.cast_zero, zero_mul]
    exact isDouble_zero
  · obtain ⟨s, hs⟩ : ∃ s, z = signed s z.natAbs := by
      rcases Int.natAbs_eq z with same | same
      · exact ⟨false, same⟩
      · exact ⟨true, same⟩
    rw [hs, abs_signed_mul] at high
    obtain ⟨x, hx⟩ := exists_toRat?_of_short s (Int.natAbs_pos.mpr nonzero) short
      (show leastExponent + 52 ≤ k from low) high
    exact ⟨x, by rw [hx, ← hs]⟩

theorem isDouble_pow {k : Int} (low : -1022 ≤ k) (high : k ≤ 1023) : IsDouble (2 ^ k) := by
  have size : |((1 : Int) : ℚ) * 2 ^ k| < 2 ^ 1024 := by
    rw [Int.cast_one, one_mul, abs_of_pos (zpow_pos (by norm_num) k), ← zpow_natCast]
    exact zpow_lt_zpow_right₀ (by norm_num) (by omega)
  have := isDouble_of_short (by decide) low size
  rwa [Int.cast_one, one_mul] at this

theorem isDouble_natPow {k : Nat} (high : k ≤ 1023) : IsDouble (2 ^ k) := by
  rw [← zpow_natCast]
  exact isDouble_pow (by omega) (by omega)

theorem isDouble_fraction {z : Int} {k : Nat} (short : z.natAbs ≤ 2 ^ 53) (low : k ≤ 1022) :
    IsDouble (z / 2 ^ k) := by
  have value : (z / 2 ^ k : ℚ) = z * 2 ^ (-k : Int) := by
    rw [zpow_neg, zpow_natCast, div_eq_mul_inv]
  have size : |(z / 2 ^ k : ℚ)| ≤ 2 ^ 53 := by
    have power : (1 : ℚ) ≤ |2 ^ k| := (one_le_pow₀ (by norm_num)).trans (le_abs_self _)
    rw [abs_div, ← Int.cast_abs, Int.abs_eq_natAbs]
    exact (div_le_self (by positivity) power).trans (by exact_mod_cast short)
  rw [value]
  refine isDouble_of_short short (by omega) ?_
  rw [← value]
  exact size.trans_lt (pow_lt_pow_right₀ (by norm_num) (by decide))

theorem isDouble_mul_greatest {c : Nat} (short : c < 2 ^ 53) :
    IsDouble (c * 2 ^ greatestExponent) := by
  have unit : (0 : ℚ) < 2 ^ greatestExponent := zpow_pos (by norm_num) _
  have double := isDouble_of_short (z := c) (k := greatestExponent) short.le (by decide) (by
    rw [Int.cast_natCast, abs_of_nonneg (mul_nonneg (Nat.cast_nonneg c) unit.le)]
    calc (c : ℚ) * 2 ^ greatestExponent < 2 ^ (53 : Int) * 2 ^ greatestExponent :=
          mul_lt_mul_of_pos_right (by exact_mod_cast short) unit
      _ = 2 ^ (53 + greatestExponent) := (zpow_add₀ two_ne_zero 53 greatestExponent).symm
      _ = 2 ^ 1024 := zpow_natCast 2 1024)
  rwa [Int.cast_natCast] at double

theorem isDouble_inv_natPow {k : Nat} (low : k ≤ 1022) : IsDouble (1 / 2 ^ k) := by
  have := isDouble_fraction (z := 1) (by decide) low
  rwa [Int.cast_one] at this

theorem isDouble_one_add_inv {k : Nat} (le : k ≤ 52) : IsDouble (1 + 1 / 2 ^ k) := by
  have power : (2 : Int) ^ k ≤ 2 ^ 52 := pow_le_pow_right₀ (by decide) le
  have pos : (0 : Int) < 2 ^ k := by positivity
  have := isDouble_fraction (z := 2 ^ k + 1) (k := k) (by omega) (by omega)
  push_cast at this
  rwa [add_div, div_self (by positivity)] at this

theorem isDouble_one_sub_inv {k : Nat} (le : k ≤ 53) : IsDouble (1 - 1 / 2 ^ k) := by
  have power : (2 : Int) ^ k ≤ 2 ^ 53 := pow_le_pow_right₀ (by decide) le
  have pos : (0 : Int) < 2 ^ k := by positivity
  have := isDouble_fraction (z := 2 ^ k - 1) (k := k) (by omega) (by omega)
  push_cast at this
  rwa [sub_div, div_self (by positivity)] at this

theorem IsDouble.neg {q : ℚ} (h : IsDouble q) : IsDouble (-q) := by
  obtain ⟨x, hx⟩ := h
  exact ⟨-x, toRat?_neg hx⟩

theorem IsDouble.abs {a : ℚ} (h : IsDouble a) : IsDouble |a| := by
  rcases abs_choice a with same | same
  · rwa [same]
  · rw [same]
    exact h.neg

theorem IsDouble.lt_pow {q : ℚ} (h : IsDouble q) : q < 2 ^ 1024 := by
  obtain ⟨x, hx⟩ := h
  exact (le_abs_self q).trans_lt ((abs_lt_overflow hx).trans_le overflow_le_pow)

section
variable {p r : ℚ} (hp : IsDouble p) (hr : IsDouble r) (lt : p < r)
include hp hr lt

/-- Where all doubles are multiples of a unit, two of them are at least that far apart. -/
theorem IsDouble.add_le {e : Int} (large : 2 ^ (52 + e) ≤ p) : p + 2 ^ e ≤ r := by
  obtain ⟨x, hx⟩ := hp
  obtain ⟨y, hy⟩ := hr
  have unit : (0 : ℚ) < 2 ^ e := zpow_pos (by norm_num) e
  obtain ⟨a, rfl⟩ := (multiple_or_small hx e).resolve_right fun small =>
    absurd (large.trans (le_abs_self p)) (not_le.mpr small.1)
  obtain ⟨b, rfl⟩ := (multiple_or_small hy e).resolve_right fun small =>
    absurd (large.trans (lt.le.trans (le_abs_self r))) (not_le.mpr small.1)
  have next : a + 1 ≤ b := by
    have : (a : ℚ) < b := lt_of_mul_lt_mul_right lt unit.le
    exact_mod_cast this
  have scaled : ((a + 1 : Int) : ℚ) * 2 ^ e ≤ b * 2 ^ e :=
    mul_le_mul_of_nonneg_right (by exact_mod_cast next) unit.le
  rwa [Int.cast_add, Int.cast_one, add_mul, one_mul] at scaled

/-- The smaller of two positive doubles is smaller by more than one part in 2 ^ 53. -/
theorem IsDouble.mul_le (nonneg : 0 ≤ p) : 2 ^ 53 * p ≤ (2 ^ 53 - 1) * r := by
  obtain ⟨x, hx⟩ := hp
  obtain ⟨y, hy⟩ := hr
  obtain ⟨s, m, e, parts, value⟩ := exists_parts hx
  obtain ⟨form, _⟩ := canonical_of_parts parts
  have unit : (0 : ℚ) < 2 ^ e := zpow_pos (by norm_num) e
  have size : p = m * 2 ^ e := by rw [← abs_of_nonneg nonneg, value, abs_signed_mul]
  obtain ⟨z, rfl⟩ := (multiple_or_small hy e).resolve_right fun ⟨small, above⟩ => by
    have := form.le_mul above
    have := le_abs_self r
    linarith
  rw [size] at lt ⊢
  have next : (m : ℚ) + 1 ≤ z := by
    have below : (m : ℚ) < z := lt_of_mul_lt_mul_right lt unit.le
    exact_mod_cast below
  have few : (m : ℚ) + 1 ≤ 2 ^ 53 := by exact_mod_cast form.lt
  rw [← mul_assoc, ← mul_assoc]
  refine mul_le_mul_of_nonneg_right ?_ unit.le
  linarith

end

/-- All doubles are multiples of the least one. -/
theorem IsDouble.succ_le {p : ℚ} (hp : IsDouble p) {k : Int} (lt : k * 2 ^ leastExponent < p) :
    (k + 1) * 2 ^ leastExponent ≤ p := by
  obtain ⟨x, hx⟩ := hp
  have unit : (0 : ℚ) < 2 ^ leastExponent := zpow_pos (by norm_num) _
  obtain ⟨z, rfl⟩ := (multiple_or_small hx leastExponent).resolve_right fun h => h.2.false
  have next : k + 1 ≤ z := by
    have : (k : ℚ) < z := lt_of_mul_lt_mul_right lt unit.le
    exact_mod_cast this
  exact mul_le_mul_of_nonneg_right (by exact_mod_cast next) unit.le

/-- The mantissas beside that of a double make doubles as well. -/
theorem IsDouble.exists_full {p : ℚ} (hp : IsDouble p) (low : 2 ^ (-969 : Int) ≤ p)
    (high : p < 2 ^ (1022 : Int)) : ∃ (m : Nat) (e : Int), Full m ∧ p = m * 2 ^ e ∧
      IsDouble ((m + 1) * 2 ^ e) ∧ IsDouble ((m - 1) * 2 ^ e) := by
  obtain ⟨x, hx⟩ := hp
  obtain ⟨s, m, e, parts, value⟩ := exists_parts hx
  obtain ⟨form, _⟩ := canonical_of_parts parts
  have size : p = m * 2 ^ e := by
    rw [← abs_of_pos ((zpow_pos (by norm_num) _).trans_le low), value, abs_signed_mul]
  have exponent : -1022 ≤ e := by
    have above := low.trans_lt (size ▸ form.mul_lt)
    have := (zpow_lt_zpow_iff_right₀ (by norm_num)).mp above
    omega
  have least : leastExponent = -1074 := rfl
  have full : Full m := ⟨form.full (by omega), form.lt⟩
  have bound : e < 970 := by
    have below := (size ▸ form.le_mul (by omega)).trans_lt high
    have := (zpow_lt_zpow_iff_right₀ (by norm_num)).mp below
    omega
  have short (z : Int) (few : z.natAbs ≤ 2 ^ 53) : IsDouble (z * 2 ^ e) := by
    refine isDouble_of_short few exponent ?_
    have many : |(z : ℚ)| ≤ 2 ^ 53 := by
      rw [← Int.cast_abs, Int.abs_eq_natAbs]
      exact_mod_cast few
    have unit : (0 : ℚ) < 2 ^ e := zpow_pos (by norm_num) e
    rw [abs_mul, abs_of_pos unit]
    calc |(z : ℚ)| * 2 ^ e ≤ 2 ^ (53 : Int) * 2 ^ e :=
          mul_le_mul_of_nonneg_right (by exact_mod_cast many) unit.le
      _ = 2 ^ (53 + e) := (zpow_add₀ (by norm_num) 53 e).symm
      _ < 2 ^ (1024 : Int) := zpow_lt_zpow_right₀ (by norm_num) (by omega)
      _ = 2 ^ 1024 := zpow_natCast 2 1024
  have few := form.lt
  have next := short (m + 1) (by omega)
  have previous := short (m - 1) (by omega)
  rw [Int.cast_add, Int.cast_one, Int.cast_natCast] at next
  rw [Int.cast_sub, Int.cast_one, Int.cast_natCast] at previous
  exact ⟨m, e, full, size, next, previous⟩

/-- Above a double that is not too large there is another one, nearer than one part in 2 ^ 53 of a
power of two beyond. -/
theorem IsDouble.exists_next {p : ℚ} (hp : IsDouble p) {n : Int} (low : 2 ^ (-969 : Int) ≤ p)
    (high : p < 2 ^ n) (le : n ≤ 1022) : ∃ r, IsDouble r ∧ p < r ∧ r ≤ p + 2 ^ (n - 53) := by
  have below := high.trans_le (zpow_le_zpow_right₀ (by norm_num) le)
  obtain ⟨m, e, full, value, next, _⟩ := hp.exists_full low below
  have unit : (0 : ℚ) < 2 ^ e := zpow_pos (by norm_num) e
  have split : ((m : ℚ) + 1) * 2 ^ e = p + 2 ^ e := by rw [value]; ring
  rw [split] at next
  have many : (2 : ℚ) ^ 52 ≤ m := by exact_mod_cast full.1
  have size : (2 : ℚ) ^ (52 + e) < 2 ^ n := by
    calc (2 : ℚ) ^ (52 + e) = 2 ^ 52 * 2 ^ e := zpow_add₀ (by norm_num) 52 e
      _ ≤ m * 2 ^ e := mul_le_mul_of_nonneg_right many unit.le
      _ = p := value.symm
      _ < 2 ^ n := high
  have exponent := (zpow_lt_zpow_iff_right₀ (by norm_num)).mp size
  have step : (2 : ℚ) ^ e ≤ 2 ^ (n - 53) := zpow_le_zpow_right₀ (by norm_num) (by omega)
  exact ⟨_, next, by linarith, by linarith⟩

theorem place?_eq_top_iff {x : Float} :
    place? x = some ⊤ ↔ x.toModel.unpack = .infinity .positive := by
  constructor
  · intro hx
    rcases place_cases x with ⟨_, h⟩ | ⟨_, h⟩ | ⟨ux, _⟩ | ⟨p, _, h⟩
    · rw [hx] at h; cases h
    · rw [hx] at h; cases h
    · exact ux
    · rw [hx] at h; cases h
  · intro ux
    rw [place?, parts, ux]
    rfl

/-- From the middle between the greatest double and the next power of two on, a number becomes
infinite. -/
theorem IsRounded.unpack_eq {q : ℚ} {x : Float} (h : IsRounded q x) (large : overflow ≤ q) :
    x.toModel.unpack = .infinity .positive := by
  have pos : 0 < overflow := by simpa using pow_lt_overflow (k := 0) (by decide) |>.trans' one_pos
  cases h with
  | within small _ => exact absurd large (not_le.mpr ((le_abs_self q).trans_lt small))
  | above _ infinite =>
    unfold parts at infinite
    cases hx : x.toModel.unpack with
    | infinity s =>
      rw [hx] at infinite
      cases s with
      | positive => rfl
      | negative => cases infinite
    | _ => rw [hx] at infinite; cases infinite
  | below negative _ => linarith

/-- What a number is rounded to, as a number. -/
def RoundedTo (q r : ℚ) : Prop := ∃ x, IsRounded q x ∧ toRat? x = some r

section
variable {q r p : ℚ} (h : RoundedTo q r)
include h

theorem RoundedTo.isDouble : IsDouble r :=
  let ⟨x, _, value⟩ := h
  ⟨x, value⟩

theorem RoundedTo.le_of_le (hp : IsDouble p) (le : p ≤ q) : p ≤ r := by
  obtain ⟨x, rounded, hx⟩ := h
  obtain ⟨y, hy⟩ := hp
  obtain ⟨b, place, above⟩ := rounded.le_place hy le
  obtain rfl := Option.some.inj ((place?_of_toRat? hx).symm.trans place)
  rwa [WithBot.coe_le_coe, WithTop.coe_le_coe] at above

theorem RoundedTo.ge_of_ge (hp : IsDouble p) (le : q ≤ p) : r ≤ p := by
  obtain ⟨x, rounded, hx⟩ := h
  obtain ⟨y, hy⟩ := hp
  obtain ⟨b, place, below⟩ := rounded.place_le hy le
  obtain rfl := Option.some.inj ((place?_of_toRat? hx).symm.trans place)
  rwa [WithBot.coe_le_coe, WithTop.coe_le_coe] at below

theorem RoundedTo.abs_lt_overflow : |q| < overflow := by
  obtain ⟨x, rounded, hx⟩ := h
  cases rounded with
  | within small _ => exact small
  | above _ infinite => rw [toRat?, infinite] at hx; cases hx
  | below _ infinite => rw [toRat?, infinite] at hx; cases hx

theorem RoundedTo.nearest (hp : IsDouble p) : |q - r| ≤ |q - p| := by
  obtain ⟨x, rounded, hx⟩ := h
  obtain ⟨y, hy⟩ := hp
  cases rounded with
  | within _ nearest =>
    obtain ⟨s, m, e, parts, nearer⟩ := nearest
    rw [toRat?, parts] at hx
    obtain rfl := Option.some.inj hx
    exact (nearer y p hy).1
  | above _ infinite => rw [toRat?, infinite] at hx; cases hx
  | below _ infinite => rw [toRat?, infinite] at hx; cases hx

theorem RoundedTo.eq_self (hq : IsDouble q) : r = q :=
  le_antisymm (h.ge_of_ge hq le_rfl) (h.le_of_le hq le_rfl)

theorem RoundedTo.mono {q' r' : ℚ} (h' : RoundedTo q' r') (lt : q < q') : r ≤ r' := by
  by_contra above
  have below := h.nearest h'.isDouble
  have beyond := h'.nearest h.isDouble
  rcases abs_cases (q - r) with ⟨h₁, _⟩ | ⟨h₁, _⟩ <;>
    rcases abs_cases (q - r') with ⟨h₂, _⟩ | ⟨h₂, _⟩ <;>
    rcases abs_cases (q' - r) with ⟨h₃, _⟩ | ⟨h₃, _⟩ <;>
    rcases abs_cases (q' - r') with ⟨h₄, _⟩ | ⟨h₄, _⟩ <;> linarith

/-- In the middle between two doubles a number is rounded to the one with the even mantissa. -/
theorem RoundedTo.even_of_tie (hp : IsDouble p) (apart : p ≠ r) (tie : |q - p| = |q - r|) {m : Nat}
    {e : Int} (form : Canonical m e) (value : |r| = m * 2 ^ e) : Even m := by
  obtain ⟨x, rounded, hx⟩ := h
  obtain ⟨y, hy⟩ := hp
  cases rounded with
  | within _ nearest =>
    obtain ⟨s, n, k, parts, nearer⟩ := nearest
    obtain ⟨form', _⟩ := canonical_of_parts parts
    rw [toRat?, parts] at hx
    obtain rfl := Option.some.inj hx
    rw [abs_signed_mul] at value
    -- A number has only one form with a mantissa.
    have same := compare_mul form' form
    rw [compare_eq_iff_eq.mpr value, Ordering.then_eq_eq, compare_eq_iff_eq,
      compare_eq_iff_eq] at same
    exact same.2 ▸ ((nearer y p hy).2 tie).resolve_left apart
  | above _ infinite => rw [toRat?, infinite] at hx; cases hx
  | below _ infinite => rw [toRat?, infinite] at hx; cases hx

/-- Where all multiples of a unit are doubles, rounding takes at most half of it away. -/
theorem RoundedTo.error_le {k : Int} (low : -1022 ≤ k) (high : k ≤ 971)
    (small : |q| ≤ 2 ^ (53 + k)) : 2 * |q - r| ≤ 2 ^ k := by
  have unit : (0 : ℚ) < 2 ^ k := zpow_pos (by norm_num) k
  have half : |q - round (q / 2 ^ k) * 2 ^ k| ≤ 1 / 2 * 2 ^ k := by
    have := mul_le_mul_of_nonneg_right (abs_sub_round (q / 2 ^ k)) unit.le
    rwa [← abs_of_pos unit, ← abs_mul, abs_of_pos unit, sub_mul, div_mul_cancel₀ _ unit.ne'] at this
  have short : (round (q / 2 ^ k)).natAbs ≤ 2 ^ 53 := by
    have bound : |q / 2 ^ k| ≤ 2 ^ 53 := by
      rw [abs_div, abs_of_pos unit, div_le_iff₀ unit]
      rwa [zpow_add₀ (by norm_num)] at small
    obtain ⟨bottom, top⟩ := abs_le.mp bound
    have below : round (q / 2 ^ k) < 2 ^ 53 + 1 := by
      rw [round_eq, Int.floor_lt]
      push_cast
      linarith
    have above : -2 ^ 53 ≤ round (q / 2 ^ k) := by
      rw [round_eq, Int.le_floor]
      push_cast
      linarith
    omega
  have size : |(round (q / 2 ^ k) : ℚ) * 2 ^ k| < 2 ^ 1024 := by
    have top : (2 : ℚ) ^ k ≤ 2 ^ 971 := by
      rw [← zpow_natCast]
      exact zpow_le_zpow_right₀ (by norm_num) high
    have next : (2 : ℚ) ^ 971 = 2 * 2 ^ 970 := pow_succ' 2 970
    have within := h.abs_lt_overflow
    have away := abs_sub q (q - round (q / 2 ^ k) * 2 ^ k)
    rw [sub_sub_cancel] at away
    rw [overflow] at within
    generalize (2 : ℚ) ^ 1024 = limit, (2 : ℚ) ^ 971 = above, (2 : ℚ) ^ 970 = step at *
    linarith
  have near := h.nearest (isDouble_of_short short low size)
  linarith

/-- Rounding takes at most one part in 2 ^ 53 away. -/
theorem RoundedTo.relative_error (large : 2 ^ (-970 : Int) ≤ |q|) : 2 ^ 53 * |q - r| ≤ |r| := by
  have pos : 0 < |q| := (zpow_pos (by norm_num) _).trans_le large
  obtain ⟨n, low, high⟩ := exists_mem_Ico_zpow pos (by norm_num : (1 : ℚ) < 2)
  have least : -970 ≤ n := by
    have := (zpow_lt_zpow_iff_right₀ (by norm_num)).mp (large.trans_lt high)
    omega
  have greatest : n ≤ 1023 := by
    have below := low.trans_lt (h.abs_lt_overflow.trans_le overflow_le_pow)
    rw [← zpow_natCast] at below
    have := (zpow_lt_zpow_iff_right₀ (by norm_num)).mp below
    omega
  have error := h.error_le (k := n - 52) (by omega) (by omega) (by
    rw [show 53 + (n - 52) = n + 1 by ring]
    exact high.le)
  have bound : (2 : ℚ) ^ n ≤ |r| := by
    have power := isDouble_pow (k := n) (by omega) greatest
    rcases le_abs.mp low with up | down
    · exact (h.le_of_le power up).trans (le_abs_self r)
    · exact (le_neg.mp (h.ge_of_ge power.neg (le_neg.mp down))).trans (neg_le_abs r)
  have unit : (2 : ℚ) ^ n = 2 ^ 52 * 2 ^ (n - 52) := by
    rw [← zpow_natCast, ← zpow_add₀ (by norm_num)]
    congr 1
    push_cast
    ring
  linarith

end

end FiniteCalculus.Double
