import FiniteCalculus.Value.Arithmetic
import Mathlib

/-! Whole numbers among the doubles. Up to `2 ^ 53` every integer is a double, and a sum or
a difference of such doubles is exact as long as it stays among them. -/

namespace FiniteCalculus
set_option autoImplicit false

namespace Double

open Float.Model Float.Model.UnpackedFloat

/-- The mantissa of a double that has all its bits. -/
def Full (m : Nat) : Prop := 2 ^ 52 ≤ m ∧ m < 2 ^ 53

theorem Full.pos {m : Nat} (h : Full m) : 0 < m := Nat.lt_of_lt_of_le (by decide) h.1

theorem Full.log2_eq {m : Nat} (h : Full m) : m.log2 = 52 :=
  (Nat.log2_eq_iff h.pos.ne').mpr h

theorem log2_mul_pow (m k : Nat) (h : 0 < m) : (m * 2 ^ k).log2 = m.log2 + k := by
  obtain ⟨low, high⟩ := (Nat.log2_eq_iff h.ne').mp (rfl : m.log2 = m.log2)
  have unit : 0 < 2 ^ k := Nat.two_pow_pos k
  refine (Nat.log2_eq_iff (Nat.mul_pos h unit).ne').mpr ⟨?_, ?_⟩
  · rw [Nat.pow_add]
    exact Nat.mul_le_mul_right _ low
  · rw [Nat.add_right_comm, Nat.pow_add]
    exact (Nat.mul_lt_mul_right unit).mpr high

theorem shift_exact (m k : Nat) :
    ExtendedMantissa.ofMantissaAndAccuracy (m * 2 ^ k) .exact >>> k =
      ExtendedMantissa.ofMantissaAndAccuracy m .exact := by
  change k.repeat ExtendedMantissa.shiftRightOne _ = _
  induction k generalizing m with
  | zero => rw [Nat.pow_zero, Nat.mul_one]; rfl
  | succ k ih =>
    rw [Nat.repeat, Nat.pow_succ', ← Nat.mul_assoc, ih (m * 2)]
    simp [ExtendedMantissa.shiftRightOne, ExtendedMantissa.ofMantissaAndAccuracy]

theorem target_eq {t e : Int} (h : t = e + 53) (he : -1074 ≤ e) :
    Format.binary64.targetExponent t = e := by
  have bits : (Format.binary64.mantissaBits : Int) = 53 := rfl
  have least : Format.binary64.minExponent = -1074 := by decide
  rw [Format.targetExponent, bits, least, h]
  omega

/-- Zeros at the end of a mantissa are dropped until what is left is full. -/
theorem shiftToTargetExponent_exact {m : Nat} (full : Full m) (k : Nat) {e : Int}
    (he : -1074 ≤ e) :
    shiftToTargetExponent Format.binary64 (m * 2 ^ k) (e - k) .exact =
      (ExtendedMantissa.ofMantissaAndAccuracy m .exact, e) := by
  have target : Format.binary64.targetExponent (totalExponent (m * 2 ^ k) (e - k)) = e := by
    apply target_eq _ he
    rw [totalExponent, log2_mul_pow m k full.pos, full.log2_eq]
    push_cast
    ring
  have amount : (e - (e - k)).toNat = k := by omega
  simp only [shiftToTargetExponent, shiftToExponent, target, amount, shift_exact]
  exact Prod.ext rfl (by dsimp only; omega)

/-- Rounding drops the zeros at the end of a mantissa, if what is left is full. -/
theorem roundWithAccuracy_exact (s : Sign) {m : Nat} (full : Full m) (k : Nat) {e : Int}
    (he : -1074 ≤ e) :
    roundWithAccuracy Format.binary64 s (m * 2 ^ k) (e - k) .exact =
      .finite s m e full.pos := by
  have shifted := shiftToTargetExponent_exact full k he
  have again := shiftToTargetExponent_exact full 0 he
  rw [Nat.pow_zero, Nat.mul_one, Int.natCast_zero, Int.sub_zero] at again
  have kept : (ExtendedMantissa.ofMantissaAndAccuracy m .exact).roundedMantissa = m := rfl
  have mantissa : (ExtendedMantissa.ofMantissaAndAccuracy m .exact).mantissa = m := rfl
  simp only [roundWithAccuracy, shifted, kept, again, mantissa, dif_neg full.pos.ne']

theorem eq_mul_pow_of_scaled {a b j : Nat} {low high : Int} (h : (a : ℚ) * 2 ^ low = b * 2 ^ high)
    (apart : high = low + j) : a = b * 2 ^ j := by
  have two : (2 : ℚ) ≠ 0 := by norm_num
  have scaled : (a : ℚ) = b * 2 ^ j := by
    apply mul_right_cancel₀ (zpow_ne_zero low two)
    rw [h, apart, zpow_add₀ two, zpow_natCast, mul_assoc, mul_comm ((2 : ℚ) ^ low)]
  exact_mod_cast scaled

/-- A number that is a full mantissa with an exponent of the format is not rounded. -/
theorem round_exact (s : Sign) {m n : Nat} {e k : Int} (full : Full m) (he : -1074 ≤ e)
    (h : (n : ℚ) * 2 ^ k = m * 2 ^ e) :
    UnpackedFloat.round Format.binary64 s n k = .finite s m e full.pos := by
  rcases le_total k e with hle | hle
  · obtain ⟨j, rfl⟩ : ∃ j : Nat, k = e - j := ⟨(e - k).toNat, by omega⟩
    have hn : n = m * 2 ^ j := eq_mul_pow_of_scaled h (by omega)
    have target : Format.binary64.targetExponent (totalExponent n (e - j)) = e := by
      apply target_eq _ he
      rw [hn, totalExponent, log2_mul_pow m j full.pos, full.log2_eq]
      push_cast
      ring
    have amount : (e - j - e).toNat = 0 := by omega
    simp only [UnpackedFloat.round, target, decreaseExponent, amount, Nat.shiftLeft_zero,
      Int.natCast_zero, Int.sub_zero]
    rw [hn, roundWithAccuracy_exact s full j he]
  · obtain ⟨j, rfl⟩ : ∃ j : Nat, k = e + j := ⟨(k - e).toNat, by omega⟩
    have hm : m = n * 2 ^ j := eq_mul_pow_of_scaled h.symm rfl
    have pos : 0 < n := by
      rcases Nat.eq_zero_or_pos n with rfl | pos
      · have := full.pos
        omega
      · exact pos
    have target : Format.binary64.targetExponent (totalExponent n (e + j)) = e := by
      apply target_eq _ he
      have bits := full.log2_eq
      rw [hm, log2_mul_pow n j pos] at bits
      rw [totalExponent]
      omega
    have amount : (e + j - e).toNat = j := by omega
    simp only [UnpackedFloat.round, target, decreaseExponent, amount, Nat.shiftLeft_eq, ← hm]
    have exact := roundWithAccuracy_exact s full 0 he
    rw [Nat.pow_zero, Nat.mul_one, Int.natCast_zero, Int.sub_zero] at exact
    rw [show e + j - j = e by omega, exact]

/-- Every positive integer up to `2 ^ 53` is a full mantissa with an exponent. -/
theorem exists_full {n : Nat} (pos : 0 < n) (le : n ≤ 2 ^ 53) :
    ∃ (m : Nat) (e : Int), Full m ∧ -52 ≤ e ∧ e ≤ 1 ∧ (n : ℚ) = m * 2 ^ e := by
  rcases Nat.lt_or_eq_of_le le with lt | rfl
  · have log : n.log2 < 53 := (Nat.log2_lt pos.ne').mpr lt
    obtain ⟨low, high⟩ := (Nat.log2_eq_iff pos.ne').mp (rfl : n.log2 = n.log2)
    refine ⟨n * 2 ^ (52 - n.log2), n.log2 - 52, ⟨?_, ?_⟩, by omega, by omega, ?_⟩
    · calc 2 ^ 52 = 2 ^ n.log2 * 2 ^ (52 - n.log2) := by rw [← Nat.pow_add]; congr 1; omega
        _ ≤ n * 2 ^ (52 - n.log2) := Nat.mul_le_mul_right _ low
    · calc n * 2 ^ (52 - n.log2) < 2 ^ (n.log2 + 1) * 2 ^ (52 - n.log2) :=
          (Nat.mul_lt_mul_right (Nat.two_pow_pos _)).mpr high
        _ = 2 ^ 53 := by rw [← Nat.pow_add]; congr 1; omega
    · have two : (2 : ℚ) ≠ 0 := by norm_num
      push_cast
      rw [mul_assoc, ← zpow_natCast, ← zpow_add₀ two]
      have zero : ((52 - n.log2 : Nat) : Int) + (n.log2 - 52) = 0 := by omega
      rw [zero, zpow_zero, mul_one]
  · exact ⟨2 ^ 52, 1, ⟨le_refl _, by decide⟩, by decide, le_refl _, by norm_num⟩

theorem exists_sign (c : Int) : ∃ s : Sign, c = s.apply c.natAbs := by
  rcases Int.natAbs_eq c with h | h
  · exact ⟨.positive, h⟩
  · exact ⟨.negative, h⟩

theorem normalize_eq_round {s : Sign} {c : Int} (hs : c = s.apply c.natAbs) (nonzero : c ≠ 0)
    (e : Int) (zero : Sign) :
    UnpackedFloat.normalize Format.binary64 c e zero =
      UnpackedFloat.round Format.binary64 s c.natAbs e := by
  cases s with
  | negative =>
    have neg : c < 0 := by
      simp only [Sign.apply] at hs
      omega
    have same : (-c).toNat = c.natAbs := by omega
    rw [UnpackedFloat.normalize, Int.compare_eq_lt.mpr neg, same]
  | positive =>
    have pos : 0 < c := by
      simp only [Sign.apply] at hs
      omega
    have same : c.toNat = c.natAbs := by omega
    rw [UnpackedFloat.normalize, Int.compare_eq_gt.mpr pos, same]

theorem ofInt_zero : UnpackedFloat.ofInt Format.binary64 0 = .zero .positive := rfl

/-- The dyadic that an integer other than zero is. -/
theorem exists_ofInt {n : Int} (nonzero : n ≠ 0) (le : n.natAbs ≤ 2 ^ 53) :
    ∃ (s : Sign) (m : Nat) (e : Int) (full : Full m), -52 ≤ e ∧ e ≤ 1 ∧ n = s.apply n.natAbs ∧
      (n.natAbs : ℚ) = m * 2 ^ e ∧
      UnpackedFloat.ofInt Format.binary64 n = .finite s m e full.pos := by
  obtain ⟨s, hs⟩ := exists_sign n
  obtain ⟨m, e, full, low, high, value⟩ := exists_full (Int.natAbs_pos.mpr nonzero) le
  refine ⟨s, m, e, full, low, high, hs, value, ?_⟩
  rw [UnpackedFloat.ofInt, normalize_eq_round hs nonzero]
  exact round_exact s full (by omega) (by rw [zpow_zero, mul_one, value])

theorem sign_of_scaled {s : Sign} {c n : Int} {unit : ℚ} (pos : 0 < unit) (h : (c : ℚ) * unit = n)
    (nonzero : n ≠ 0) (hs : n = s.apply n.natAbs) : c = s.apply c.natAbs := by
  cases s with
  | negative =>
    have below : (n : ℚ) < 0 := by
      simp only [Sign.apply] at hs
      exact_mod_cast (by omega : n < 0)
    have : c < 0 := by exact_mod_cast neg_of_mul_neg_left (h ▸ below) pos.le
    simp only [Sign.apply]
    omega
  | positive =>
    have above : (0 : ℚ) < n := by
      simp only [Sign.apply] at hs
      exact_mod_cast (by omega : 0 < n)
    have : 0 < c := by exact_mod_cast pos_of_mul_pos_left (h ▸ above) pos.le
    simp only [Sign.apply]
    omega

/-- Normalizing gives the same for every dyadic form of an integer. -/
theorem normalize_exact {c n e : Int} (h : (c : ℚ) * 2 ^ e = n) (le : n.natAbs ≤ 2 ^ 53) :
    UnpackedFloat.normalize Format.binary64 c e .positive =
      UnpackedFloat.ofInt Format.binary64 n := by
  have unit : (0 : ℚ) < 2 ^ e := zpow_pos (by norm_num) e
  rcases eq_or_ne n 0 with rfl | nonzero
  · have zero : c = 0 := by
      rw [Int.cast_zero] at h
      exact_mod_cast (mul_eq_zero.mp h).resolve_right unit.ne'
    rw [zero]
    rfl
  · obtain ⟨s, m, k, full, low, _, hs, value, hn⟩ := exists_ofInt nonzero le
    have magnitude : (c.natAbs : ℚ) * 2 ^ e = m * 2 ^ k := by
      rw [← value, Nat.cast_natAbs, Nat.cast_natAbs, Int.cast_abs, Int.cast_abs, ← h, abs_mul,
        abs_of_pos unit]
    have sign : c = s.apply c.natAbs := sign_of_scaled unit h nonzero hs
    have other : c ≠ 0 := by
      rintro rfl
      rw [Int.cast_zero, zero_mul] at h
      exact nonzero (by exact_mod_cast h.symm)
    rw [hn, normalize_eq_round sign other]
    exact round_exact s full (by omega) magnitude

/-- What is packed with a full mantissa comes out of the pattern as it was. -/
theorem unpack_pack_full (s : Sign) {m : Nat} (full : Full m) {e : Int} (low : -1074 ≤ e)
    (high : e ≤ 971) :
    UnpackedFloat.unpack Format.binary64
        (UnpackedFloat.pack Format.binary64 (.finite s m e full.pos)) =
      .finite s m e full.pos := by
  obtain ⟨b, hb⟩ : ∃ b : Nat, e + 1075 = b := ⟨(e + 1075).toNat, by omega⟩
  have biased : (e + Format.binary64.exponentBias +
      Format.binary64.mantissaBitsWithoutImplicit).toNat = b := by
    change (e + 1023 + 52).toNat = b
    omega
  have packed : UnpackedFloat.pack Format.binary64 (.finite s m e full.pos) =
      packComponents Format.binary64 s (BitVec.ofNat 11 b) (BitVec.ofNat 52 m) := by
    have small : ¬ 2 ^ 11 ≤ b + 1 := by omega
    have bits : Format.binary64.mantissaBits = 53 := rfl
    simp only [UnpackedFloat.pack, biased, if_neg small, full.log2_eq, bits, if_true]
  have exponent : (BitVec.ofNat 11 b).toNat = b := by
    rw [BitVec.toNat_ofNat, Nat.mod_eq_of_lt (by omega)]
  have notSpecial : BitVec.ofNat 11 b ≠ -1#11 := by
    intro h
    have := congrArg BitVec.toNat h
    rw [exponent] at this
    simp at this
    omega
  have notSmall : BitVec.ofNat 11 b ≠ 0#11 := by
    intro h
    have := congrArg BitVec.toNat h
    rw [exponent] at this
    simp at this
    omega
  have mantissa : (1#1 ++ BitVec.ofNat 52 m).toNat = m := by
    have below : m - 2 ^ 52 < 2 ^ 52 := by
      have := full.2
      omega
    have rest : m % 2 ^ 52 = m - 2 ^ 52 := by
      have := full.1
      omega
    rw [BitVec.toNat_append, BitVec.toNat_ofNat, ← Nat.shiftLeft_add_eq_or_of_lt (by omega)]
    have := full.1
    simp [Nat.shiftLeft_eq]
    omega
  rw [packed, UnpackedFloat.unpack]
  simp only [unpackMantissa_packComponents, unpackExponent_packComponents,
    unpackSign_packComponents, Sign.ofBitVec_toBitVec, if_neg notSpecial, if_neg notSmall,
    exponent, mantissa]
  congr 1
  change (b : Int) - (1023 + 52) = e
  omega

theorem unpack_nearestToInt {n : Int} (le : n.natAbs ≤ 2 ^ 53) :
    (nearestToInt n).toModel.unpack = UnpackedFloat.ofInt Format.binary64 n := by
  change UnpackedFloat.unpack Format.binary64
    (UnpackedFloat.pack Format.binary64 (UnpackedFloat.ofInt Format.binary64 n)) = _
  rcases eq_or_ne n 0 with rfl | nonzero
  · rfl
  · obtain ⟨s, m, e, full, low, high, _, _, hn⟩ := exists_ofInt nonzero le
    rw [hn, unpack_pack_full s full (by omega) (by omega)]

theorem isInf_nearestToInt {n : Int} (le : n.natAbs ≤ 2 ^ 53) :
    (nearestToInt n).isInf = false := by
  change (nearestToInt n).toModel.unpack.isInf = false
  rw [unpack_nearestToInt le]
  rcases eq_or_ne n 0 with rfl | nonzero
  · rfl
  · obtain ⟨s, m, e, full, _, _, _, _, hn⟩ := exists_ofInt nonzero le
    rw [hn]
    rfl

theorem ofInt_eq {n : Int} (le : n.natAbs ≤ 2 ^ 53) : ofInt n = .ok (nearestToInt n) := by
  unfold ofInt
  simp only [isInf_nearestToInt le, Bool.false_eq_true, if_false]

/-- A mantissa brought to a lesser exponent. -/
theorem shiftLeft_mul_zpow (m : Nat) {e low : Int} (h : low ≤ e) :
    ((m <<< (e - low).toNat : Nat) : ℚ) * 2 ^ low = m * 2 ^ e := by
  rw [Nat.shiftLeft_eq]
  push_cast
  rw [mul_assoc, ← zpow_natCast, ← zpow_add₀ (by norm_num)]
  congr 2
  omega

theorem aligned (s : Sign) (m : Nat) {e low : Int} (h : low ≤ e) :
    ((s.apply (m <<< (e - low).toNat : Nat) : Int) : ℚ) * 2 ^ low = (s.apply m : Int) * 2 ^ e := by
  have magnitude := shiftLeft_mul_zpow m h
  cases s with
  | negative =>
    simp only [Sign.apply, Int.cast_neg, Int.cast_natCast, neg_mul, magnitude]
  | positive =>
    simp only [Sign.apply, Int.cast_natCast, magnitude]

theorem apply_mul {s : Sign} {m : Nat} {n e : Int} (hs : n = s.apply n.natAbs)
    (value : (n.natAbs : ℚ) = m * 2 ^ e) : ((s.apply m : Int) : ℚ) * 2 ^ e = n := by
  conv_rhs => rw [hs]
  cases s with
  | negative =>
    simp only [Sign.apply, Int.cast_neg, Int.cast_natCast, neg_mul, value]
  | positive =>
    simp only [Sign.apply, Int.cast_natCast, value]

section
variable {a b : Int} (ha : a.natAbs ≤ 2 ^ 53) (hb : b.natAbs ≤ 2 ^ 53)
include ha hb

/-- A sum of whole numbers is exact. -/
theorem nearestToInt_add (hab : (a + b).natAbs ≤ 2 ^ 53) :
    nearestToInt a + nearestToInt b = nearestToInt (a + b) := by
  change Float.ofModel (Float.Model.pack (UnpackedFloat.add Format.binary64
      (nearestToInt a).toModel.unpack (nearestToInt b).toModel.unpack)) =
    Float.ofModel (Float.Model.pack (UnpackedFloat.ofInt Format.binary64 (a + b)))
  congr 2
  rw [unpack_nearestToInt ha, unpack_nearestToInt hb]
  rcases eq_or_ne a 0 with rfl | ha0
  · rcases eq_or_ne b 0 with rfl | hb0
    · rfl
    · obtain ⟨s, m, e, full, _, _, _, _, hn⟩ := exists_ofInt hb0 hb
      rw [zero_add, hn]
      rfl
  · obtain ⟨s, m, e, full, _, _, hs, value, hn⟩ := exists_ofInt ha0 ha
    rcases eq_or_ne b 0 with rfl | hb0
    · rw [add_zero, hn]
      rfl
    · obtain ⟨s', m', e', full', _, _, hs', value', hn'⟩ := exists_ofInt hb0 hb
      rw [hn, hn']
      refine normalize_exact ?_ hab
      rw [Int.cast_add, Int.cast_add, add_mul, aligned s m (min_le_left _ _),
        aligned s' m' (min_le_right _ _), apply_mul hs value, apply_mul hs' value']

theorem nearestToInt_sub (hab : (a - b).natAbs ≤ 2 ^ 53) :
    nearestToInt a - nearestToInt b = nearestToInt (a - b) := by
  change Float.ofModel (Float.Model.pack (UnpackedFloat.sub Format.binary64
      (nearestToInt a).toModel.unpack (nearestToInt b).toModel.unpack)) =
    Float.ofModel (Float.Model.pack (UnpackedFloat.ofInt Format.binary64 (a - b)))
  congr 2
  rw [unpack_nearestToInt ha, unpack_nearestToInt hb]
  rcases eq_or_ne b 0 with rfl | hb0
  · rcases eq_or_ne a 0 with rfl | ha0
    · rfl
    · obtain ⟨s, m, e, full, _, _, _, _, hn⟩ := exists_ofInt ha0 ha
      rw [sub_zero, hn]
      rfl
  · obtain ⟨s', m', e', full', low, _, hs', value', hn'⟩ := exists_ofInt hb0 hb
    rcases eq_or_ne a 0 with rfl | ha0
    · -- Zero less a number is the number with the other sign, and so is its negation.
      have opposite : UnpackedFloat.ofInt Format.binary64 (0 - b) =
          .finite (-s') m' e' full'.pos := by
        have hs : 0 - b = (-s').apply (0 - b).natAbs := by
          cases s' with
          | negative =>
            change 0 - b = ((0 - b).natAbs : Int)
            simp only [Sign.apply] at hs'
            omega
          | positive =>
            change 0 - b = -((0 - b).natAbs : Int)
            simp only [Sign.apply] at hs'
            omega
        rw [UnpackedFloat.ofInt, normalize_eq_round hs (by omega)]
        refine round_exact (-s') full' (by omega) ?_
        rw [zpow_zero, mul_one, zero_sub, Int.natAbs_neg, value']
      rw [opposite, hn']
      rfl
    · obtain ⟨s, m, e, full, _, _, hs, value, hn⟩ := exists_ofInt ha0 ha
      rw [hn, hn']
      refine normalize_exact ?_ hab
      rw [Int.cast_sub, Int.cast_sub, sub_mul, aligned s m (min_le_left _ _),
        aligned s' m' (min_le_right _ _), apply_mul hs value, apply_mul hs' value']

end

theorem powerOfTwo_eq (e : Int) : (powerOfTwo e : ℚ) = 2 ^ e * powerOfTwo (-e) := by
  have two : (2 : ℚ) ≠ 0 := by norm_num
  simp only [powerOfTwo, Nat.pow_eq, Nat.cast_pow, Nat.cast_ofNat]
  rw [← zpow_natCast, ← zpow_natCast, ← zpow_add₀ two]
  congr 1
  omega

theorem compareInt_nearestToInt {n : Int} (le : n.natAbs ≤ 2 ^ 53) :
    compareInt (nearestToInt n) n = some .eq := by
  unfold compareInt parts
  rw [unpack_nearestToInt le]
  rcases eq_or_ne n 0 with rfl | nonzero
  · have zero : signed (Sign.positive == .negative) 0 = 0 := rfl
    simp only [ofInt_zero, zero, Int.zero_mul]
    rfl
  · obtain ⟨s, m, e, full, _, _, hs, value, hn⟩ := exists_ofInt nonzero le
    have sign : signed (s == .negative) m = s.apply m := by cases s <;> rfl
    have exact : s.apply m * (powerOfTwo e : Int) = n * powerOfTwo (-e) := by
      have : ((s.apply m : Int) : ℚ) * powerOfTwo e = n * powerOfTwo (-e) := by
        rw [powerOfTwo_eq e, ← mul_assoc, apply_mul hs value]
      exact_mod_cast this
    rw [hn]
    simp only [sign]
    exact congrArg some (Int.compare_eq_eq.mpr exact)

theorem isNaN_unpack (s : Sign) {b : BitVec 11} (f : BitVec 52) (h : b ≠ -1#11) :
    (UnpackedFloat.unpack Format.binary64 (packComponents Format.binary64 s b f)).isNaN =
      false := by
  rw [UnpackedFloat.unpack]
  simp only [unpackMantissa_packComponents, unpackExponent_packComponents, if_neg h]
  split
  · split <;> rfl
  · rfl

/-- Packing makes no double undefined. -/
theorem isNaN_pack {f : UnpackedFloat} (h : f ≠ .notANumber) :
    (Float.ofModel (Float.Model.pack f)).isNaN = false := by
  change (UnpackedFloat.unpack Format.binary64 (UnpackedFloat.pack Format.binary64 f)).isNaN = false
  cases f with
  | notANumber => exact absurd rfl h
  | infinity s => cases s <;> decide
  | zero s => exact isNaN_unpack s 0 (by decide)
  | finite s m e pos =>
    simp only [UnpackedFloat.pack]
    split
    · cases s <;> decide
    · rename_i small
      split
      · refine isNaN_unpack s _ fun h => small ?_
        have := congrArg BitVec.toNat h
        rw [BitVec.toNat_ofNat, BitVec.neg_one_eq_allOnes, BitVec.toNat_allOnes] at this
        have := Nat.mod_le (e + Format.binary64.exponentBias +
          Format.binary64.mantissaBitsWithoutImplicit).toNat (2 ^ 11)
        omega
      · exact isNaN_unpack s _ (by decide)

theorem round_ne_notANumber (s : Sign) (m : Nat) (e : Int) :
    UnpackedFloat.round Format.binary64 s m e ≠ .notANumber := by
  simp only [UnpackedFloat.round, roundWithAccuracy]
  split <;> simp

theorem isNaN_nearestToInt (n : Int) : (nearestToInt n).isNaN = false := by
  apply isNaN_pack
  rw [UnpackedFloat.ofInt, UnpackedFloat.normalize]
  split
  · exact round_ne_notANumber _ _ _
  · simp
  · exact round_ne_notANumber _ _ _

end Double

namespace Value

theorem isNaN_of_toDouble {v : Value} {z : Float} (h : v.toDouble = .ok z) :
    v.isNaN = .ok z.isNaN := by
  rw [isNaN, h]
  rfl

theorem toDouble_int_eq_ok {n : Int} {z : Float} (h : (int n).toDouble = .ok z) :
    z = Double.nearestToInt n := by
  change (if _ then _ else _) = _ at h
  split at h
  · cases h
  · exact (Except.ok.inj h).symm

/-- Only a double can be undefined. -/
theorem eq_double_of_isNaN {v : Value} {z : Float} (h : v.toDouble = .ok z)
    (undefined : z.isNaN = true) : v = double z := by
  cases v with
  | double y =>
    cases h
    rfl
  | int n =>
    rw [toDouble_int_eq_ok h, Double.isNaN_nearestToInt] at undefined
    cases undefined
  | bool b =>
    cases h
    cases b
    · exact absurd undefined (by decide)
    · exact absurd undefined (by decide)
  | _ => cases h

theorem isNaN_int {n : Int} {z : Float} (h : (int n).toDouble = .ok z) :
    (int n).isNaN = .ok false := by
  rw [isNaN_of_toDouble h, toDouble_int_eq_ok h, Double.isNaN_nearestToInt]

theorem anyNaN_of_toDouble {vs : List Value} (h : ∀ v ∈ vs, ∃ z, v.toDouble = .ok z) :
    ∃ undefined, anyNaN vs = .ok undefined ∧
      (undefined = true ↔ ∃ z, double z ∈ vs ∧ z.isNaN = true) := by
  induction vs with
  | nil => exact ⟨false, rfl, by simp⟩
  | cons v vs ih =>
    obtain ⟨z, hz⟩ := h v List.mem_cons_self
    obtain ⟨rest, hrest, iff⟩ := ih fun w hw => h w (List.mem_cons_of_mem _ hw)
    have first := isNaN_of_toDouble hz
    cases undefined : z.isNaN with
    | true =>
      refine ⟨true, ?_, iff_of_true rfl ⟨z, ?_, undefined⟩⟩
      · rw [anyNaN, first, undefined]
        rfl
      · rw [eq_double_of_isNaN hz undefined]
        exact List.mem_cons_self
    | false =>
      refine ⟨rest, ?_, iff.trans ⟨?_, ?_⟩⟩
      · rw [anyNaN, first, undefined]
        exact hrest
      · rintro ⟨y, hy, hnan⟩
        exact ⟨y, List.mem_cons_of_mem _ hy, hnan⟩
      · rintro ⟨y, hy, hnan⟩
        rcases List.mem_cons.mp hy with rfl | hy
        · cases hz
          rw [hnan] at undefined
          cases undefined
        · exact ⟨y, hy, hnan⟩

end Value

end FiniteCalculus
