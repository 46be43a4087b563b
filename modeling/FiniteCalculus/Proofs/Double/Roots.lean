import FiniteCalculus.Proofs.Double.Accuracy
import FiniteCalculus.Proofs.Double.Gaps

/-! The square root of a double. A mantissa is made so long that the whole root of it has all the
bits of a double, and the remainder tells on which side of the middle the root lies. So the root
is rounded once, and squares decide which double it is rounded to. -/

namespace FiniteCalculus.Double
set_option autoImplicit false

open Float.Model Float.Model.UnpackedFloat

/-- No double is nearer to the root of the number: the root is not beyond the middle between this
one and another. -/
structure RootOf (q r : ℚ) : Prop where
  isDouble : IsDouble r
  nonneg : 0 ≤ r
  below : ∀ p, IsDouble p → 0 ≤ p → p < r → ((p + r) / 2) ^ 2 ≤ q
  above : ∀ p, IsDouble p → r < p → q ≤ ((r + p) / 2) ^ 2

/-- The accuracy of a whole root, by what its square leaves of the number. -/
def rootAccuracy (n : Nat) : Accuracy :=
  if n - n.sqrt * n.sqrt = 0 then .exact
  else .inexact (if n - n.sqrt * n.sqrt ≤ n.sqrt then .lt else .gt)

theorem cutOff_sqrt (n : Nat) : CutOff (fun h => h ^ 2) (4 * n) n.sqrt (rootAccuracy n) := by
  have low : n.sqrt * n.sqrt ≤ n := Nat.sqrt_le n
  have high : n < (n.sqrt + 1) * (n.sqrt + 1) := Nat.lt_succ_sqrt n
  have even : (2 * n.sqrt) ^ 2 = 4 * (n.sqrt * n.sqrt) := by ring
  have odd : (2 * n.sqrt + 1) ^ 2 = 4 * (n.sqrt * n.sqrt) + 4 * n.sqrt + 1 := by ring
  have next : (2 * n.sqrt + 2) ^ 2 = 4 * ((n.sqrt + 1) * (n.sqrt + 1)) := by ring
  rw [rootAccuracy]
  split
  · change 4 * n = (2 * n.sqrt) ^ 2
    omega
  · split
    · change (2 * n.sqrt) ^ 2 < 4 * n ∧ 4 * n < (2 * n.sqrt + 1) ^ 2
      omega
    · change (2 * n.sqrt + 1) ^ 2 < 4 * n ∧ 4 * n < (2 * n.sqrt + 2) ^ 2
      omega

theorem middle_le {w r p : ℚ} (near : |w - r| ≤ |w - p|) (lt : p < r) : (p + r) / 2 ≤ w := by
  rcases abs_cases (w - r) with ⟨left, _⟩ | ⟨left, _⟩ <;>
    rcases abs_cases (w - p) with ⟨right, _⟩ | ⟨right, _⟩ <;> linarith

theorem le_middle {w r p : ℚ} (near : |w - r| ≤ |w - p|) (lt : r < p) : w ≤ (r + p) / 2 := by
  rcases abs_cases (w - r) with ⟨left, _⟩ | ⟨left, _⟩ <;>
    rcases abs_cases (w - p) with ⟨right, _⟩ | ⟨right, _⟩ <;> linarith

/-- The middle of two multiples of a unit is a multiple of its half. -/
theorem exists_middle {a b : ℚ} {t : Int} (ha : ∃ z : Int, a = z * 2 ^ t)
    (hb : ∃ z : Int, b = z * 2 ^ t) (nonneg : 0 ≤ a + b) :
    ∃ h : Nat, (a + b) / 2 = h * 2 ^ (t - 1) := by
  obtain ⟨y, rfl⟩ := ha
  obtain ⟨z, rfl⟩ := hb
  have unit : (0 : ℚ) < 2 ^ t := zpow_pos (by norm_num) t
  rw [← add_mul, ← Int.cast_add] at nonneg ⊢
  have positive : 0 ≤ y + z := by exact_mod_cast nonneg_of_mul_nonneg_left nonneg unit
  obtain ⟨h, hh⟩ := Int.eq_ofNat_of_zero_le positive
  refine ⟨h, ?_⟩
  rw [hh, zpow_eq_twice t, Int.cast_natCast]
  ring

theorem isDouble_of_length {t : Int} (above : leastExponent < t) (high : t ≤ 971) :
    IsDouble (2 ^ (52 + t)) := by
  have least : leastExponent = -1074 := rfl
  exact isDouble_pow (by omega) (by omega)

/-- Above a number with a long mantissa all doubles are multiples of its last place. -/
theorem RoundedTo.multiple_of_le {w r p : ℚ} {t : Int} (rounded : RoundedTo w r)
    (large : leastExponent < t → 2 ^ (52 + t) ≤ w) (high : t ≤ 971) (hp : IsDouble p)
    (le : r ≤ p) : ∃ z : Int, p = z * 2 ^ t := by
  obtain ⟨y, hy⟩ := hp
  refine (multiple_or_small hy t).resolve_right fun ⟨small, above⟩ => ?_
  have := rounded.le_of_le (isDouble_of_length above high) (large above)
  have := le_abs_self p
  linarith

/-- What stands in place of a root may be another number, if squares tell that both lie alike among
the middles between doubles. -/
def RootCut (q w : ℚ) (t : Int) : Prop :=
  ∀ h : Nat, ((h * 2 ^ (t - 1) : ℚ) ^ 2 ≤ q ↔ h * 2 ^ (t - 1) ≤ w) ∧
    (q ≤ (h * 2 ^ (t - 1) : ℚ) ^ 2 ↔ w ≤ h * 2 ^ (t - 1))

section
variable {q w : ℚ} {t : Int} (cut : RootCut q w t)
include cut

theorem RootCut.nonneg (nonneg : 0 ≤ q) : 0 ≤ w := by
  have := (cut 0).1.mp (by simpa using nonneg)
  simpa using this

/-- The root is below 2 ^ 512, as the number is below 2 ^ 1024. -/
theorem RootCut.le_pow (le : q ≤ 2 ^ 1024) (short : t ≤ 513) : w ≤ 2 ^ 512 := by
  have power : ((2 ^ (513 - t).toNat : Nat) : ℚ) * 2 ^ (t - 1) = 2 ^ 512 := by
    rw [Nat.cast_pow, Nat.cast_ofNat, ← zpow_natCast, ← zpow_add₀ (by norm_num), ← zpow_natCast]
    exact congrArg (fun k : Int => (2 : ℚ) ^ k) (by omega)
  have square : q ≤ (2 ^ 512) ^ 2 := by
    rw [← pow_mul]
    exact le
  exact ((cut _).2.mp (by rw [power]; exact square)).trans_eq power

variable {r b : ℚ} (ha : ∃ z : Int, r = z * 2 ^ t) (hb : ∃ z : Int, b = z * 2 ^ t)
  (nonneg : 0 ≤ r + b)
include ha hb nonneg

theorem RootCut.sq_middle_le (le : (r + b) / 2 ≤ w) : ((r + b) / 2) ^ 2 ≤ q := by
  obtain ⟨h, middle⟩ := exists_middle ha hb nonneg
  rw [middle] at le ⊢
  exact (cut h).1.mpr le

theorem RootCut.le_sq_middle (le : w ≤ (r + b) / 2) : q ≤ ((r + b) / 2) ^ 2 := by
  obtain ⟨h, middle⟩ := exists_middle ha hb nonneg
  rw [middle] at le ⊢
  exact (cut h).2.mpr le

end

theorem RootCut.rootOf {q w r : ℚ} {t : Int} (cut : RootCut q w t) (rounded : RoundedTo w r)
    (large : leastExponent < t → 2 ^ (52 + t) ≤ w) (high : t ≤ 971) (nonneg : 0 ≤ q) :
    RootOf q r := by
  have positive : 0 ≤ r := rounded.le_of_le isDouble_zero (cut.nonneg nonneg)
  have whole := rounded.multiple_of_le large high rounded.isDouble (le_refl r)
  refine ⟨rounded.isDouble, positive, fun p hp pos lt => ?_, fun p hp lt => ?_⟩
  · have middle := middle_le (rounded.nearest hp) lt
    obtain ⟨y, hy⟩ := hp
    rcases multiple_or_small hy t with hp | ⟨small, above⟩
    · exact cut.sq_middle_le hp whole (by linarith) middle
    · -- The least number of that length lies between the two doubles.
      have length := isDouble_of_length above high
      have le := rounded.le_of_le length (large above)
      have between : (2 ^ (52 + t) + r) / 2 ≤ w := by
        rcases eq_or_lt_of_le le with same | lt
        · linarith [large above]
        · exact middle_le (rounded.nearest length) lt
      have unit : (0 : ℚ) < 2 ^ (52 + t) := zpow_pos (by norm_num) _
      have power : ∃ z : Int, (2 : ℚ) ^ (52 + t) = z * 2 ^ t :=
        ⟨2 ^ 52, by rw [zpow_add₀ (by norm_num)]; norm_num⟩
      refine le_trans ?_ (cut.sq_middle_le power whole (by linarith) between)
      have := le_abs_self p
      exact pow_le_pow_left₀ (by linarith) (by linarith) 2
  · have multiple := rounded.multiple_of_le large high hp lt.le
    exact cut.le_sq_middle whole multiple (by linarith) (le_middle (rounded.nearest hp) lt)

/-- The root of a mantissa keeps as much of the root as is needed to round it. -/
theorem sqrtCore_cut {m : Nat} (pos : 0 < m) (e : Int) :
    ∃ c t a, sqrtCore Format.binary64 m e = (c, t, a) ∧ IsLong c t ∧ 2 * t ≤ e ∧
      RootCut (m * 2 ^ e) ((4 * c + quarters a : Nat) * 2 ^ (t - 2)) t := by
  have two : (2 : ℚ) ≠ 0 := by norm_num
  obtain ⟨t, ht⟩ : ∃ t, t = min (e / 2)
      (Format.binary64.targetExponent ((totalExponent m e + 1) / 2)) := ⟨_, rfl⟩
  obtain ⟨n, hn⟩ : ∃ n, n = m <<< (e - 2 * t).toNat := ⟨_, rfl⟩
  have low : 2 * t ≤ e := by omega
  have value : (n : ℚ) * 2 ^ (2 * t) = m * 2 ^ e := by
    rw [hn]
    exact shiftLeft_mul_zpow m low
  refine ⟨n.sqrt, t, rootAccuracy n, ?_, fun above => ?_, low, fun h => ?_⟩
  · rw [hn, ht]
    rfl
  · rw [targetExponent_eq] at ht
    have few : 104 + 2 * t ≤ totalExponent m e - 1 := by omega
    rw [Nat.le_sqrt]
    have size : (2 ^ 104 : ℚ) * 2 ^ (2 * t) ≤ n * 2 ^ (2 * t) := by
      calc (2 ^ 104 : ℚ) * 2 ^ (2 * t) = 2 ^ (104 + 2 * t) := (zpow_add₀ two 104 _).symm
        _ ≤ 2 ^ (totalExponent m e - 1) := zpow_le_zpow_right₀ (by norm_num) few
        _ ≤ m * 2 ^ e := (lt_totalExponent pos e).1
        _ = n * 2 ^ (2 * t) := value.symm
    exact_mod_cast le_of_mul_le_mul_right size (zpow_pos (by norm_num) _)
  · have unit : (0 : ℚ) < 2 ^ (2 * (t - 1)) := zpow_pos (by norm_num) _
    have square (k : Int) : (2 : ℚ) ^ (2 * k) = (2 ^ k) ^ 2 := by rw [zpow_mul', zpow_ofNat]
    have whole : (m : ℚ) * 2 ^ e = (4 * n : Nat) * 2 ^ (2 * (t - 1)) := by
      rw [← value, square, square, zpow_eq_twice t]
      push_cast
      ring
    have halves : (h * 2 ^ (t - 1) : ℚ) ^ 2 = (h ^ 2 : Nat) * 2 ^ (2 * (t - 1)) := by
      rw [mul_pow, square]
      push_cast
      rfl
    obtain ⟨ge, le⟩ := (cutOff_sqrt n).le_iff (Nat.pow_left_strictMono (by decide)) h
    obtain ⟨ge', le'⟩ := halves_le_quarters h (4 * n.sqrt + quarters (rootAccuracy n)) t
    rw [halves, whole, mul_le_mul_iff_left₀ unit, mul_le_mul_iff_left₀ unit, Nat.cast_le,
      Nat.cast_le, ge', le']
    exact ⟨ge, le⟩

theorem sqrt_eq (x : Float) :
    x.sqrt = .ofModel (.pack (UnpackedFloat.sqrt Format.binary64 x.toModel.unpack)) := rfl

theorem exists_sqrt {x : Float} {q : ℚ} (hx : toRat? x = some q) (nonneg : 0 ≤ q) :
    ∃ r, toRat? x.sqrt = some r ∧ RootOf q r := by
  rcases sign_cases hx with ⟨s, ux, rfl⟩ | ⟨m, e, pos, ux, rfl⟩ | ⟨m, e, pos, _, rfl⟩
  · refine ⟨0, ?_, isDouble_zero, le_refl 0, fun p _ pos lt => ?_, fun p _ _ => by positivity⟩
    on_goal 2 => linarith
    rw [sqrt_eq, ux]
    exact toRat?_pack_zero s
  · obtain ⟨form, high⟩ := unpack_canonical ux
    obtain ⟨c, t, a, core, long, low, cut⟩ := sqrtCore_cut pos e
    have size := mul_le_quarters c a t
    generalize hn : 4 * c + quarters a = n at cut size
    have exponent : e ≤ 971 := high
    have some : 0 < n := by
      refine Nat.pos_of_ne_zero fun none => absurd ((cut 0).2.mpr ?_) (not_le.mpr ?_)
      · rw [none, Nat.cast_zero, zero_mul, zero_mul]
      · simpa using mul_zpow_pos pos e
    have rounded : IsRounded (n * 2 ^ (t - 2)) x.sqrt := by
      have := isRounded_round .positive some (t - 2)
      rw [← hn, ← long.roundWithAccuracy_eq] at this
      rw [sqrt_eq, ux]
      simp only [UnpackedFloat.sqrt, core]
      rwa [hn] at this
    have top := ((le_abs_self _).trans_lt (abs_lt_overflow hx)).le.trans overflow_le_pow
    have bounded : |(n : ℚ) * 2 ^ (t - 2)| < overflow := by
      rw [abs_of_nonneg (by positivity)]
      exact (cut.le_pow top (by omega)).trans_lt (pow_lt_overflow (by decide))
    obtain ⟨r, hr⟩ := rounded.exists_toRat? bounded
    exact ⟨r, hr, cut.rootOf ⟨_, rounded, hr⟩ (long.pow_le size) (by omega) nonneg⟩
  · linarith [mul_zpow_pos pos e]

section
variable {q r p : ℚ} (h : RootOf q r) (hp : IsDouble p)
include h hp

theorem RootOf.le_of_sq_le (le : p ^ 2 ≤ q) : p ≤ r := by
  by_contra above
  have lt := not_le.mp above
  have middle := h.above p hp lt
  have := pow_lt_pow_left₀ (by linarith : (r + p) / 2 < p) (by linarith [h.nonneg]) two_ne_zero
  linarith

theorem RootOf.ge_of_le_sq (nonneg : 0 ≤ p) (le : q ≤ p ^ 2) : r ≤ p := by
  by_contra above
  have lt := not_le.mp above
  have middle := h.below p hp nonneg lt
  have := pow_lt_pow_left₀ (by linarith : p < (p + r) / 2) nonneg two_ne_zero
  linarith

end

/-- A root that was rounded up is too large by at most one part in 2 ^ 53. -/
theorem RootOf.sq_le {q r : ℚ} (h : RootOf q r) (low : 2 ^ (-969 : Int) ≤ r)
    (high : r < 2 ^ (1022 : Int)) : ((1 - 1 / 2 ^ 53) * r) ^ 2 ≤ q := by
  obtain ⟨m, e, full, value, _, previous⟩ := h.isDouble.exists_full low high
  have unit : (0 : ℚ) < 2 ^ e := zpow_pos (by norm_num) e
  have many : (2 : ℚ) ^ 52 ≤ m := by exact_mod_cast full.1
  have size := mul_le_mul_of_nonneg_right many unit.le
  rw [← value] at size
  have split : ((m : ℚ) - 1) * 2 ^ e = r - 2 ^ e := by rw [value]; ring
  rw [split] at previous
  have middle := h.below _ previous (by linarith) (by linarith)
  refine (pow_le_pow_left₀ ?_ ?_ 2).trans middle
  · exact mul_nonneg (by norm_num) h.nonneg
  · linarith

/-! The root of a square that was rounded is the number itself. -/

section
variable {a q r : ℚ} (square : RoundedTo (a * a) q) (large : 2 ^ (-970 : Int) ≤ a * a)
include square large

theorem RoundedTo.square_error : 2 ^ 53 * |(|a| ^ 2 - q)| ≤ q ∧ 0 < |a| ^ 2 := by
  have error := square.relative_error (large.trans (le_abs_self _))
  have positive := square.le_of_le isDouble_zero (mul_self_nonneg a)
  rw [abs_of_nonneg positive] at error
  rw [sq_abs, sq]
  exact ⟨error, (zpow_pos (by norm_num) _).trans_le large⟩

variable (ha : IsDouble a)
include ha

theorem RootOf.abs_le {s : ℚ} (h : RootOf s r) (le : q ≤ s) : |a| ≤ r := by
  by_contra above
  have lt := not_le.mp above
  obtain ⟨error, pos⟩ := square.square_error large
  have middle := h.above |a| ha.abs lt
  have gap := h.isDouble.mul_le ha.abs lt h.nonneg
  have short : (r + |a|) / 2 ≤ (1 - 1 / 2 ^ 54) * |a| := by linarith
  have power := pow_le_pow_left₀ (by linarith [h.nonneg, abs_nonneg a]) short 2
  rw [mul_pow] at power
  have := le_abs_self (|a| ^ 2 - q)
  linarith

theorem RootOf.le_abs (h : RootOf q r) : r ≤ |a| := by
  by_contra above
  have lt := not_le.mp above
  obtain ⟨error, pos⟩ := square.square_error large
  have middle := h.below |a| ha.abs (abs_nonneg a) lt
  have gap := ha.abs.mul_le h.isDouble lt (abs_nonneg a)
  have long : (2 ^ 54 - 1) / (2 ^ 54 - 2) * |a| ≤ (|a| + r) / 2 := by linarith
  have power := pow_le_pow_left₀ (mul_nonneg (by norm_num) (abs_nonneg a)) long 2
  rw [mul_pow] at power
  have := neg_le_abs (|a| ^ 2 - q)
  linarith

end

end FiniteCalculus.Double
