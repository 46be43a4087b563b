import FiniteCalculus.Proofs.Double.Sums
import Mathlib.Algebra.Order.Ring.Int
import Mathlib.Data.Nat.Prime.Basic

/-! Integers that are doubles. The integer nearest to a double fits a mantissa, but for
zeros at its end, and so does everything that divides it: an odd divisor of the mantissa is no
longer than the mantissa, and powers of two go to the exponent. Such an integer is not rounded
when it is made a double. -/

namespace FiniteCalculus
set_option autoImplicit false

namespace Double

/-- An integer that fits a mantissa, but for zeros at its end. -/
def IsShort (n : Int) : Prop := ∃ m s : Nat, m < 2 ^ 53 ∧ n.natAbs = m * 2 ^ s

theorem isShort_zero : IsShort 0 := ⟨0, 0, by decide, rfl⟩

theorem isShort_of_nearest {x : Float} {q : ℚ} {n : Int} (hx : toRat? x = some q)
    (nearest : IsNearestInteger q n) : IsShort n ∧ |(n : ℚ)| < overflow := by
  obtain ⟨s, m, e, parts, rfl⟩ := exists_parts hx
  obtain ⟨form, _⟩ := canonical_of_parts parts
  rcases le_or_gt 0 e with whole | fraction
  · obtain ⟨k, rfl⟩ := Int.eq_ofNat_of_zero_le whole
    have value : (signed s m : ℚ) * 2 ^ (k : Int) = ((signed s m * 2 ^ k : Int) : ℚ) := by
      push_cast
      rw [zpow_natCast]
    have small := abs_lt_overflow hx
    rw [value] at nearest small
    obtain rfl := isNearestInteger_intCast_iff.mp nearest
    refine ⟨⟨m, k, form.lt, ?_⟩, small⟩
    rw [Int.natAbs_mul, natAbs_signed, Int.natAbs_pow]
    rfl
  · have size : |(signed s m : ℚ) * 2 ^ e| ≤ ((2 ^ 52 : Int) : ℚ) := by
      rw [abs_signed_mul]
      have half : (2 : ℚ) ^ (53 + e) ≤ 2 ^ (52 : Int) :=
        zpow_le_zpow_right₀ (by norm_num) (by omega)
      exact_mod_cast (form.mul_lt.trans_le half).le
    obtain ⟨above, below⟩ := abs_le.mp size
    have upper := nearest.le_of_ge below
    have lower : -2 ^ 52 ≤ n := nearest.le_of_le (by exact_mod_cast above)
    refine ⟨⟨n.natAbs, 0, by omega, by omega⟩, ?_⟩
    have bound : |n| ≤ 2 ^ 52 := abs_le.mpr ⟨lower, upper⟩
    have bound' : |(n : ℚ)| ≤ 2 ^ 52 := by exact_mod_cast bound
    exact bound'.trans_lt (pow_lt_overflow (by decide))

theorem IsShort.of_dvd {g n : Int} (h : IsShort n) (nonzero : n ≠ 0) (dvd : g ∣ n) :
    IsShort g := by
  obtain ⟨m, s, lt, value⟩ := h
  have magnitude : g.natAbs ∣ m * 2 ^ s := value ▸ Int.natAbs_dvd_natAbs.mpr dvd
  have divisor : g ≠ 0 := fun zero => nonzero (zero_dvd_iff.mp (zero ▸ dvd))
  have mantissa : 0 < m := by
    rcases Nat.eq_zero_or_pos m with rfl | pos
    · rw [Nat.zero_mul] at value
      exact absurd (Int.natAbs_eq_zero.mp value) nonzero
    · exact pos
  obtain ⟨k, o, odd, split⟩ := Nat.exists_eq_two_pow_mul_odd (Int.natAbs_ne_zero.mpr divisor)
  have whole : o ∣ m * 2 ^ s := (split ▸ Nat.dvd_mul_left o (2 ^ k)).trans magnitude
  have within : o ∣ m := (odd.coprime_two_right.pow_right s).dvd_of_dvd_mul_right whole
  exact ⟨o, k, (Nat.le_of_dvd mantissa within).trans_lt lt, by rw [split, Nat.mul_comm]⟩

theorem IsShort.toRat?_nearestToInt {n : Int} (h : IsShort n) (small : |(n : ℚ)| < overflow) :
    toRat? (nearestToInt n) = some (n : ℚ) := by
  suffices ∃ x, toRat? x = some (n : ℚ) by
    obtain ⟨x, hx⟩ := this
    exact (isRounded_nearestToInt n).toRat?_eq hx
  obtain ⟨m, s, lt, value⟩ := h
  rcases Nat.eq_zero_or_pos m with rfl | pos
  · rw [Nat.zero_mul, Int.natAbs_eq_zero] at value
    exact ⟨0, by rw [value, toRat?_zero, Int.cast_zero]⟩
  · obtain ⟨sign, hs⟩ : ∃ sign, n = signed sign (m * 2 ^ s) := by
      rcases Int.natAbs_eq n with h | h
      · exact ⟨false, by rw [h, value]; rfl⟩
      · exact ⟨true, by rw [h, value]; rfl⟩
    have number : (n : ℚ) = signed sign m * 2 ^ (s : Int) := by
      rw [hs, zpow_natCast]
      cases sign with
      | false => simp [signed]
      | true => simp [signed]
    have high : (m : ℚ) * 2 ^ (s : Int) < 2 ^ 1024 := by
      rw [number, abs_signed_mul] at small
      exact small.trans (sub_lt_self _ (pow_pos (by norm_num) 970))
    have low : leastExponent + 52 ≤ s := by
      change -1074 + 52 ≤ (s : Int)
      omega
    obtain ⟨x, hx⟩ := exists_toRat?_of_short sign pos lt.le low high
    exact ⟨x, by rw [hx, number]⟩

end Double

end FiniteCalculus
