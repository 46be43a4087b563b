import FiniteCalculus.Proofs.Double.Exact

/-! The mantissas and exponents that doubles have. A mantissa has all its bits unless the
exponent is the least one, so that no number has two such forms, and every number that has
one whose exponent is not too large is a double. -/

namespace FiniteCalculus
set_option autoImplicit false

namespace Double

open Float.Model Float.Model.UnpackedFloat

/-- The exponent of the greatest doubles. -/
def greatestExponent : Int := 971

/-- The form in which a number with an exponent of the format is kept. -/
structure Canonical (m : Nat) (e : Int) : Prop where
  lt : m < 2 ^ 53
  least_le : leastExponent ≤ e
  full : leastExponent < e → 2 ^ 52 ≤ m

theorem Full.canonical {m : Nat} (full : Full m) {e : Int} (h : leastExponent ≤ e) :
    Canonical m e := ⟨full.2, h, fun _ => full.1⟩

theorem Canonical.full_or_short {m : Nat} {e : Int} (h : Canonical m e) :
    Full m ∨ m < 2 ^ 52 ∧ e = leastExponent := by
  rcases Nat.lt_or_ge m (2 ^ 52) with short | long
  · refine .inr ⟨short, ?_⟩
    by_contra differ
    have := h.full (lt_of_le_of_ne h.least_le (Ne.symm differ))
    omega
  · exact .inl ⟨long, h.lt⟩

theorem unpack_pack_short (s : Sign) {m : Nat} (short : m < 2 ^ 52) (pos : 0 < m) :
    UnpackedFloat.unpack Format.binary64
        (UnpackedFloat.pack Format.binary64 (.finite s m leastExponent pos)) =
      .finite s m leastExponent pos := by
  have bits : m.log2 + 1 ≠ Format.binary64.mantissaBits := by
    have : m.log2 < 52 := (Nat.log2_lt pos.ne').mpr short
    change m.log2 + 1 ≠ 53
    omega
  have biased : ¬ 2 ^ 11 ≤ (leastExponent + Format.binary64.exponentBias +
      Format.binary64.mantissaBitsWithoutImplicit).toNat + 1 := by decide
  have packed : UnpackedFloat.pack Format.binary64 (.finite s m leastExponent pos) =
      packComponents Format.binary64 s 0#11 (BitVec.ofNat 52 m) := by
    simp only [UnpackedFloat.pack, if_neg biased, if_neg bits]
  have mantissa : (BitVec.ofNat 52 m).toNat = m := by
    rw [BitVec.toNat_ofNat, Nat.mod_eq_of_lt short]
  have nonzero : BitVec.ofNat 52 m ≠ 0#52 := by
    intro h
    have := congrArg BitVec.toNat h
    rw [mantissa, BitVec.toNat_ofNat, Nat.zero_mod] at this
    omega
  have notSpecial : (0#11 : BitVec 11) ≠ -1#11 := by decide
  rw [packed, UnpackedFloat.unpack]
  simp only [unpackMantissa_packComponents, unpackExponent_packComponents,
    unpackSign_packComponents, Sign.ofBitVec_toBitVec, if_neg notSpecial, if_true,
    dif_neg nonzero, mantissa]
  rfl

theorem unpack_pack_canonical (s : Sign) {m : Nat} {e : Int} (h : Canonical m e) (pos : 0 < m)
    (high : e ≤ greatestExponent) :
    UnpackedFloat.unpack Format.binary64
        (UnpackedFloat.pack Format.binary64 (.finite s m e pos)) = .finite s m e pos := by
  rcases h.full_or_short with full | ⟨short, rfl⟩
  · exact unpack_pack_full s full h.least_le high
  · exact unpack_pack_short s short pos

theorem parts_pack (s : Sign) {m : Nat} {e : Int} (h : Canonical m e) (pos : 0 < m)
    (high : e ≤ greatestExponent) :
    parts (.ofModel (.pack (.finite s m e pos))) = .finite (s == .negative) m e := by
  have unpacked : (Float.ofModel (.pack (.finite s m e pos))).toModel.unpack =
      .finite s m e pos := unpack_pack_canonical s h pos high
  rw [parts, unpacked]

theorem parts_pack_zero (s : Sign) :
    parts (.ofModel (.pack (.zero s))) = .finite (s == .negative) 0 leastExponent := by
  cases s <;> decide

theorem parts_pack_infinity (s : Sign) :
    parts (.ofModel (.pack (.infinity s))) = .infinite (s == .negative) := by
  cases s <;> decide

/-- What has too large an exponent is packed as an infinity. -/
theorem parts_pack_large (s : Sign) {m : Nat} {e : Int} (pos : 0 < m)
    (high : greatestExponent < e) :
    parts (.ofModel (.pack (.finite s m e pos))) = .infinite (s == .negative) := by
  have biased : 2 ^ 11 ≤ (e + Format.binary64.exponentBias +
      Format.binary64.mantissaBitsWithoutImplicit).toNat + 1 := by
    change 2 ^ 11 ≤ (e + 1023 + 52).toNat + 1
    have : 971 < e := high
    omega
  have packed : UnpackedFloat.pack Format.binary64 (.finite s m e pos) =
      UnpackedFloat.pack Format.binary64 (.infinity s) := by
    simp only [UnpackedFloat.pack, if_pos biased]
  have same : Float.Model.pack (.finite s m e pos) = Float.Model.pack (.infinity s) := by
    simp only [Float.Model.pack, packed]
  rw [same, parts_pack_infinity]

theorem ofModel_pack_unpack (x : Float) : Float.ofModel (.pack x.toModel.unpack) = x := by
  have bits : UnpackedFloat.pack Format.binary64 x.toModel.unpack = x.toModel.toBits.toBitVec :=
    pack_unpack_of_valid x.toModel.valid
  have same : Float.Model.pack x.toModel.unpack = x.toModel := by
    simp only [Float.Model.pack, bits]
  rw [same]

theorem toRat?_of_zero {x : Float} {s : Bool} {e : Int} (h : parts x = .finite s 0 e) :
    toRat? x = some 0 := by
  rw [toRat?, h]
  refine congrArg some ?_
  rw [Int.natAbs_eq_zero.mp (natAbs_signed s 0), Int.cast_zero, zero_mul]

/-- A number is kept as a zero, or as a signed mantissa with its exponent. -/
theorem number_cases {x : Float} {p : ℚ} (h : toRat? x = some p) :
    (∃ s, x.toModel.unpack = .zero s ∧ p = 0) ∨
      ∃ s m e pos, x.toModel.unpack = .finite s m e pos ∧ p = (s.apply m : Int) * 2 ^ e := by
  unfold toRat? parts at h
  cases hx : x.toModel.unpack with
  | notANumber => rw [hx] at h; cases h
  | infinity s => rw [hx] at h; cases h
  | zero s =>
    rw [hx] at h
    refine .inl ⟨s, rfl, (Option.some.inj h).symm.trans ?_⟩
    rw [Int.natAbs_eq_zero.mp (natAbs_signed _ 0), Int.cast_zero, zero_mul]
  | finite s m e pos =>
    rw [hx] at h
    refine .inr ⟨s, m, e, pos, rfl, (Option.some.inj h).symm.trans ?_⟩
    cases s <;> rfl

theorem unpack_canonical {x : Float} {s : Sign} {m : Nat} {e : Int} {pos : 0 < m}
    (h : x.toModel.unpack = .finite s m e pos) : Canonical m e ∧ e ≤ greatestExponent := by
  have bias : (Format.binary64.exponentBias : Int) + Format.binary64.mantissaBitsWithoutImplicit =
      1075 := by decide
  change UnpackedFloat.unpack Format.binary64 _ = _ at h
  rw [UnpackedFloat.unpack] at h
  dsimp only at h
  split at h
  · split at h <;> cases h
  · rename_i special
    split at h
    · rename_i least
      split at h
      · cases h
      · injection h with _ hm he
        subst hm he
        have exponent : ((0#11 : BitVec 11).toNat : Int) -
            (Format.binary64.exponentBias + Format.binary64.mantissaBitsWithoutImplicit) + 1 =
            leastExponent := by decide
        rw [least, exponent]
        refine ⟨⟨Nat.lt_trans (BitVec.isLt _) (by decide), le_refl _, ?_⟩, by decide⟩
        exact fun above => absurd above (lt_irrefl _)
    · rename_i small
      injection h with _ hm he
      subst hm he
      generalize @unpackMantissa Format.binary64 x.toModel.toBits.toBitVec = b
      generalize @unpackExponent Format.binary64 x.toModel.toBits.toBitVec = c at *
      have low : c.toNat ≠ 0 := fun h => small (BitVec.eq_of_toNat_eq h)
      have high : c.toNat ≠ 2047 := fun h => special (BitVec.eq_of_toNat_eq h)
      have range : c.toNat < 2 ^ 11 := c.isLt
      have mantissa : (1#1 ++ b).toNat = 2 ^ 52 + b.toNat := by
        rw [BitVec.toNat_append, ← Nat.shiftLeft_add_eq_or_of_lt b.isLt]
        rfl
      have bound : b.toNat < 2 ^ 52 := b.isLt
      have least_le : leastExponent ≤ (c.toNat : Int) - 1075 := by
        change -1074 ≤ (c.toNat : Int) - 1075
        omega
      have le_greatest : (c.toNat : Int) - 1075 ≤ greatestExponent := by
        change (c.toNat : Int) - 1075 ≤ 971
        omega
      rw [bias, mantissa]
      exact ⟨⟨by omega, least_le, fun _ => by omega⟩, le_greatest⟩

theorem canonical_of_parts {x : Float} {s : Bool} {m : Nat} {e : Int}
    (h : parts x = .finite s m e) : Canonical m e ∧ e ≤ greatestExponent := by
  unfold parts at h
  cases hx : x.toModel.unpack with
  | notANumber => rw [hx] at h; cases h
  | infinity _ => rw [hx] at h; cases h
  | zero _ =>
    rw [hx] at h
    cases h
    exact ⟨⟨by decide, le_refl _, fun above => absurd above (lt_irrefl _)⟩, by decide⟩
  | finite _ _ _ _ =>
    have form := unpack_canonical hx
    rw [hx] at h
    cases h
    exact form

/-! How large a number of a certain form is. -/

theorem Canonical.mul_lt {m : Nat} {e : Int} (h : Canonical m e) :
    (m : ℚ) * 2 ^ e < 2 ^ (53 + e) := by
  have below : (m : ℚ) < 2 ^ 53 := by exact_mod_cast h.lt
  rw [zpow_add₀ (by norm_num)]
  exact mul_lt_mul_of_pos_right (by exact_mod_cast below) (zpow_pos (by norm_num) e)

theorem Canonical.le_mul {m : Nat} {e : Int} (h : Canonical m e) (above : leastExponent < e) :
    (2 : ℚ) ^ (52 + e) ≤ m * 2 ^ e := by
  have le : (2 : ℚ) ^ 52 ≤ m := by exact_mod_cast h.full above
  rw [zpow_add₀ (by norm_num)]
  exact mul_le_mul_of_nonneg_right (by exact_mod_cast le) (zpow_pos (by norm_num) e).le

theorem Canonical.mul_lt_mul {m n : Nat} {e k : Int} (hm : Canonical m e) (hn : Canonical n k)
    (lt : e < k) : (m : ℚ) * 2 ^ e < n * 2 ^ k := by
  calc (m : ℚ) * 2 ^ e < 2 ^ (53 + e) := hm.mul_lt
    _ ≤ 2 ^ (52 + k) := zpow_le_zpow_right₀ (by norm_num) (by omega)
    _ ≤ n * 2 ^ k := hn.le_mul (lt_of_le_of_lt hm.least_le lt)

/-- Every number with so short a mantissa is a double, unless it is too small or too large. -/
theorem exists_toRat?_of_short (s : Bool) {m : Nat} {k : Int} (pos : 0 < m) (short : m ≤ 2 ^ 53)
    (low : leastExponent + 52 ≤ k) (high : (m : ℚ) * 2 ^ k < 2 ^ 1024) :
    ∃ x, toRat? x = some ((signed s m : ℚ) * 2 ^ k) := by
  obtain ⟨n, e, full, above, _, value⟩ := exists_full pos short
  have two : (2 : ℚ) ≠ 0 := by norm_num
  have same : (m : ℚ) * 2 ^ k = n * 2 ^ (e + k) := by rw [value, mul_assoc, ← zpow_add₀ two]
  have form : Canonical n (e + k) := full.canonical (by omega)
  have bounded : e + k ≤ greatestExponent := by
    have le : (2 : ℚ) ^ 52 ≤ n := by exact_mod_cast full.1
    have size : (2 : ℚ) ^ (52 + (e + k)) < 2 ^ (1024 : Int) := by
      calc (2 : ℚ) ^ (52 + (e + k)) = 2 ^ 52 * 2 ^ (e + k) := zpow_add₀ two 52 _
        _ ≤ n * 2 ^ (e + k) := mul_le_mul_of_nonneg_right le (zpow_pos (by norm_num) _).le
        _ < 2 ^ (1024 : Int) := by rw [← same]; exact high
    have := (zpow_lt_zpow_iff_right₀ (by norm_num)).mp size
    change e + k ≤ 971
    omega
  obtain ⟨sign, hs⟩ : ∃ sign : Sign, (sign == .negative) = s := by
    cases s with
    | false => exact ⟨.positive, rfl⟩
    | true => exact ⟨.negative, rfl⟩
  refine ⟨.ofModel (.pack (.finite sign n (e + k) full.pos)), ?_⟩
  rw [toRat?, parts_pack sign form full.pos bounded, hs]
  refine congrArg some ?_
  cases s with
  | false => simpa [signed] using same.symm
  | true => simpa [signed] using same.symm

/-- The greatest double. -/
def greatest : ℚ := (2 ^ 53 - 1) * 2 ^ greatestExponent

theorem Canonical.le_greatest {m : Nat} {e : Int} (h : Canonical m e)
    (high : e ≤ greatestExponent) : (m : ℚ) * 2 ^ e ≤ greatest := by
  have below : (m : ℚ) ≤ 2 ^ 53 - 1 := by
    have : m + 1 ≤ 2 ^ 53 := h.lt
    have : (m : ℚ) + 1 ≤ 2 ^ 53 := by exact_mod_cast this
    linarith
  have unit : (2 : ℚ) ^ e ≤ 2 ^ greatestExponent := zpow_le_zpow_right₀ (by norm_num) high
  exact mul_le_mul below unit (zpow_pos (by norm_num) e).le (by norm_num)

theorem abs_signed (s : Bool) (m : Nat) : |(signed s m : ℚ)| = m := by
  rw [← Int.cast_abs, Int.abs_eq_natAbs, natAbs_signed, Int.cast_natCast]

theorem abs_signed_mul (s : Bool) (m : Nat) (e : Int) :
    |(signed s m : ℚ) * 2 ^ e| = m * 2 ^ e := by
  rw [abs_mul, abs_signed, abs_of_pos (zpow_pos (by norm_num) e)]

theorem abs_le_greatest {x : Float} {q : ℚ} (h : toRat? x = some q) : |q| ≤ greatest := by
  obtain ⟨s, m, e, hx, rfl⟩ := exists_parts h
  obtain ⟨form, high⟩ := canonical_of_parts hx
  rw [abs_signed_mul]
  exact form.le_greatest high

end Double

end FiniteCalculus
