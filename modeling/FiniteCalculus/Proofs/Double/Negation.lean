import FiniteCalculus.Proofs.Double.Magnitudes

/-! Negative doubles. Packing and rounding keep the sign apart from the rest, so that subtracting a
double is adding its negative, bit for bit. The other way round only a zero keeps its sign. -/

namespace FiniteCalculus.Double
set_option autoImplicit false

open Float.Model Float.Model.UnpackedFloat

theorem neg_eq (x : Float) : -x = .ofModel (.pack x.toModel.unpack.neg) := rfl

theorem neg_unpack_packComponents (s : Sign) (b : BitVec 11) (f : BitVec 52) :
    (UnpackedFloat.unpack Format.binary64 (packComponents Format.binary64 s b f)).neg =
      UnpackedFloat.unpack Format.binary64 (packComponents Format.binary64 (-s) b f) := by
  rw [UnpackedFloat.unpack, UnpackedFloat.unpack]
  simp only [unpackMantissa_packComponents, unpackExponent_packComponents,
    unpackSign_packComponents, Sign.ofBitVec_toBitVec]
  split_ifs <;> rfl

theorem neg_unpack_pack (f : UnpackedFloat) :
    (UnpackedFloat.unpack Format.binary64 (UnpackedFloat.pack Format.binary64 f)).neg =
      UnpackedFloat.unpack Format.binary64 (UnpackedFloat.pack Format.binary64 f.neg) := by
  cases f with
  | notANumber => rfl
  | infinity s => exact neg_unpack_packComponents s _ _
  | zero s => exact neg_unpack_packComponents s _ _
  | finite s m e pos =>
    change _ = UnpackedFloat.unpack Format.binary64
      (UnpackedFloat.pack Format.binary64 (.finite (-s) m e pos))
    simp only [UnpackedFloat.pack]
    split_ifs
    · exact neg_unpack_packComponents s _ _
    · exact neg_unpack_packComponents s _ _
    · exact neg_unpack_packComponents s _ _

theorem unpack_neg (x : Float) : (-x).toModel.unpack = x.toModel.unpack.neg := by
  have kept : (Float.ofModel (.pack x.toModel.unpack)).toModel.unpack = x.toModel.unpack :=
    congrArg (·.toModel.unpack) (ofModel_pack_unpack x)
  exact (neg_unpack_pack x.toModel.unpack).symm.trans (congrArg UnpackedFloat.neg kept)

theorem opposite_opposite (x : Float) : - -x = x := by
  have back : x.toModel.unpack.neg.neg = x.toModel.unpack := by
    have sign (s : Sign) : - -s = s := by cases s <;> rfl
    cases x.toModel.unpack with
    | notANumber => rfl
    | infinity s => exact congrArg UnpackedFloat.infinity (sign s)
    | zero s => exact congrArg UnpackedFloat.zero (sign s)
    | finite s m e pos => exact congrArg (fun s => UnpackedFloat.finite s m e pos) (sign s)
  rw [neg_eq (-x), unpack_neg, back, ofModel_pack_unpack]

theorem toRat?_neg {x : Float} {q : ℚ} (h : toRat? x = some q) : toRat? (-x) = some (-q) := by
  rcases number_cases h with ⟨s, ux, rfl⟩ | ⟨s, m, e, pos, ux, rfl⟩
  · rw [neg_zero]
    exact toRat?_neg_eq_zero_iff.mpr h
  · rw [toRat?, parts, unpack_neg, ux]
    refine congrArg some ?_
    cases s
    · change ((m : Int) : ℚ) * 2 ^ e = -(((-m : Int) : ℚ) * 2 ^ e)
      rw [Int.cast_neg, neg_mul, neg_neg]
    · change ((-m : Int) : ℚ) * 2 ^ e = -(((m : Int) : ℚ) * 2 ^ e)
      rw [Int.cast_neg, neg_mul]

theorem neg_ofModel_pack (f : UnpackedFloat) :
    -(Float.ofModel (.pack f)) = .ofModel (.pack f.neg) := by
  refine Eq.trans ?_ (ofModel_pack_unpack (.ofModel (.pack f.neg)))
  exact congrArg (fun g => Float.ofModel (.pack g)) (neg_unpack_pack f)

theorem neg_roundWithAccuracy (s : Sign) (m : Nat) (e : Int) (a : Accuracy) :
    (roundWithAccuracy Format.binary64 s m e a).neg =
      roundWithAccuracy Format.binary64 (-s) m e a := by
  simp only [roundWithAccuracy]
  split <;> rfl

theorem neg_round (s : Sign) (n : Nat) (k : Int) :
    (UnpackedFloat.round Format.binary64 s n k).neg =
      UnpackedFloat.round Format.binary64 (-s) n k :=
  neg_roundWithAccuracy s _ _ .exact

theorem apply_neg (s : Sign) (n : Int) : (-s).apply n = -s.apply n := by
  cases s
  · exact (Int.neg_neg n).symm
  · rfl

theorem neg_normalize {c : Int} (nonzero : c ≠ 0) (e : Int) :
    (normalize Format.binary64 c e .positive).neg = normalize Format.binary64 (-c) e .positive := by
  obtain ⟨s, hs⟩ := exists_sign c
  have opposite : -c = (-s).apply (-c).natAbs := by
    rw [Int.natAbs_neg, apply_neg, ← hs]
  rw [normalize_eq_round hs nonzero, normalize_eq_round opposite (neg_ne_zero.mpr nonzero),
    Int.natAbs_neg, neg_round]

theorem sub_eq_add_opposite (x y : Float) : x - y = x + -y := by
  rw [sub_eq, add_eq, unpack_neg]
  refine congrArg (fun f => Float.ofModel (.pack f)) ?_
  cases x.toModel.unpack with
  | notANumber => cases y.toModel.unpack <;> rfl
  | infinity s =>
    cases y.toModel.unpack with
    | infinity t => cases s <;> cases t <;> rfl
    | _ => rfl
  | zero s =>
    cases y.toModel.unpack with
    | zero t => cases s <;> cases t <;> rfl
    | _ => rfl
  | finite s m e left =>
    cases y.toModel.unpack with
    | finite t n k right =>
      change normalize Format.binary64 _ _ .positive = normalize Format.binary64 _ _ .positive
      rw [apply_neg, Int.sub_eq_add_neg]
    | _ => rfl

/-- The two differences of two doubles are each other's negative, or both are zeros. -/
theorem sub_swap (x y : Float) :
    x - y = -(y - x) ∨ toRat? (x - y) = some 0 ∧ toRat? (-(y - x)) = some 0 := by
  rw [sub_eq x y, sub_eq y x, neg_ofModel_pack]
  generalize x.toModel.unpack = f
  generalize y.toModel.unpack = g
  cases f with
  | notANumber => cases g <;> exact .inl rfl
  | infinity s =>
    cases g with
    | infinity t => cases s <;> cases t <;> exact .inl rfl
    | notANumber => exact .inl rfl
    | zero t => cases s <;> exact .inl rfl
    | finite t n k right => cases s <;> exact .inl rfl
  | zero s =>
    cases g with
    | zero t => cases s <;> cases t <;> exact .inr ⟨toRat?_pack_zero _, toRat?_pack_zero _⟩
    | infinity t => exact .inl rfl
    | notANumber => exact .inl rfl
    | finite t n k right => exact .inl rfl
  | finite s m e left =>
    cases g with
    | finite t n k right =>
      simp only [UnpackedFloat.sub, decreaseExponent]
      rw [min_comm k e]
      generalize s.apply _ = a
      generalize t.apply _ = b
      rcases eq_or_ne (b - a) 0 with same | apart
      · rw [← neg_sub b a, same]
        exact .inr ⟨toRat?_pack_zero .positive, toRat?_pack_zero .negative⟩
      · rw [neg_normalize apart, neg_sub]
        exact .inl rfl
    | notANumber => exact .inl rfl
    | infinity t => cases t <;> exact .inl rfl
    | zero t => cases s <;> exact .inl rfl

/-- A quotient only changes its sign with that of the divisor. -/
theorem div_opposite (x y : Float) : x / -y = -(x / y) := by
  have opposite (s t : Sign) : s / -t = -(s / t) := by cases s <;> cases t <;> rfl
  rw [div_eq, div_eq, unpack_neg, neg_ofModel_pack]
  refine congrArg (fun f => Float.ofModel (.pack f)) ?_
  cases x.toModel.unpack with
  | notANumber => cases y.toModel.unpack <;> rfl
  | infinity s =>
    cases y.toModel.unpack with
    | notANumber => rfl
    | infinity t => rfl
    | zero t => exact congrArg UnpackedFloat.infinity (opposite s t)
    | finite t n k right => exact congrArg UnpackedFloat.infinity (opposite s t)
  | zero s =>
    cases y.toModel.unpack with
    | notANumber => rfl
    | infinity t => exact congrArg UnpackedFloat.zero (opposite s t)
    | zero t => rfl
    | finite t n k right => exact congrArg UnpackedFloat.zero (opposite s t)
  | finite s m e left =>
    cases y.toModel.unpack with
    | notANumber => rfl
    | infinity t => exact congrArg UnpackedFloat.zero (opposite s t)
    | zero t => exact congrArg UnpackedFloat.infinity (opposite s t)
    | finite t n k right =>
      refine Eq.trans ?_ (neg_roundWithAccuracy (s / t) _ _ _).symm
      rw [← opposite]
      rfl

theorem abs_of_positive {x : Float} {q : ℚ} (h : toRat? x = some q) (positive : 0 < q) :
    x.abs = x := by
  rcases sign_cases h with ⟨s, _, rfl⟩ | ⟨m, e, pos, ux, _⟩ | ⟨m, e, pos, _, rfl⟩
  · exact absurd positive (lt_irrefl 0)
  · have kept : Float.ofModel (.pack x.toModel.unpack) = x := ofModel_pack_unpack x
    rw [ux] at kept
    rw [abs_eq, ux]
    exact kept
  · exact absurd (mul_zpow_pos pos e) (by linarith)

/-- A negative number and its magnitude are opposite. -/
theorem abs_of_negative {x : Float} {q : ℚ} (h : toRat? x = some q) (negative : q < 0) :
    x.abs = -x := by
  rcases sign_cases h with ⟨s, _, rfl⟩ | ⟨m, e, pos, _, rfl⟩ | ⟨m, e, pos, ux, _⟩
  · exact absurd negative (lt_irrefl 0)
  · exact absurd (mul_zpow_pos pos e) negative.le.not_gt
  · rw [abs_eq, neg_eq, ux]
    rfl

theorem div_of_negative {y : Float} {q : ℚ} (x : Float) (h : toRat? y = some q) (negative : q < 0) :
    x / y = -(x / y.abs) := by
  have same : -y.abs = y := by rw [abs_of_negative h negative, opposite_opposite]
  rw [← div_opposite, same]

theorem nearestToInt_neg {n : Int} (nonzero : n ≠ 0) : nearestToInt (-n) = -nearestToInt n := by
  have rounded := congrArg (fun f => Float.ofModel (.pack f)) (neg_normalize nonzero 0)
  exact ((neg_ofModel_pack _).trans rounded).symm

theorem isInf_neg (x : Float) : (-x).isInf = x.isInf := by
  change (-x).toModel.unpack.isInf = x.toModel.unpack.isInf
  rw [unpack_neg]
  cases x.toModel.unpack <;> rfl

theorem ofInt_neg {n : Int} (nonzero : n ≠ 0) :
    ofInt (-n) = (ofInt n).map fun x => -x := by
  rw [ofInt, ofInt, nearestToInt_neg nonzero, isInf_neg]
  split <;> rfl

/-- A zero that is added is lost, unless it is added to the negative zero. -/
theorem add_zero_eq_sub_zero {x : Float} (h : x ≠ -0.0) : x + 0.0 = x - 0.0 := by
  have zero : (0.0 : Float).toModel.unpack = .zero .positive := rfl
  have kept : Float.ofModel (.pack x.toModel.unpack) = x := ofModel_pack_unpack x
  rw [add_eq, sub_eq, zero]
  cases hx : x.toModel.unpack with
  | zero s =>
    cases s with
    | positive => rfl
    | negative =>
      rw [hx] at kept
      exact absurd kept.symm h
  | _ => rfl

end FiniteCalculus.Double
