import FiniteCalculus.Proofs.Double.Products

/-! Magnitudes of doubles. Rounding and packing treat both signs alike, so that the difference of
two doubles has the same magnitude in either order. -/

namespace FiniteCalculus.Double
set_option autoImplicit false

open Float.Model Float.Model.UnpackedFloat

theorem abs_eq (x : Float) : x.abs = .ofModel (.pack x.toModel.unpack.abs) := rfl

theorem toRat?_abs (x : Float) : toRat? x.abs = (toRat? x).map fun q => |q| := by
  rw [abs_eq]
  cases hx : x.toModel.unpack with
  | notANumber =>
    have undefined : toRat? x = none := by rw [toRat?, parts, hx]
    rw [undefined, UnpackedFloat.abs]
    decide
  | infinity s =>
    have infinite : toRat? x = none := by rw [toRat?, parts, hx]
    rw [infinite, UnpackedFloat.abs, toRat?, parts_pack_infinity]
    rfl
  | zero s =>
    have zero : toRat? x = some 0 :=
      toRat?_of_zero (s := s == .negative) (e := leastExponent) (by rw [parts, hx])
    rw [zero, Option.map_some, abs_zero]
    exact toRat?_pack_zero .positive
  | finite s m e pos =>
    obtain ⟨form, high⟩ := unpack_canonical hx
    have value : toRat? x = some ((signed (s == .negative) m : ℚ) * 2 ^ e) := by
      rw [toRat?, parts, hx]
    rw [value, Option.map_some, abs_signed_mul, UnpackedFloat.abs, toRat?,
      parts_pack .positive form pos high]
    rfl

theorem abs_of_toRat? {x : Float} {q : ℚ} (h : toRat? x = some q) : toRat? x.abs = some |q| := by
  rw [toRat?_abs, h, Option.map_some]

/-! What is rounded and packed keeps its sign apart from the rest. -/

theorem abs_round (s t : Sign) (n : Nat) (k : Int) :
    (UnpackedFloat.round Format.binary64 s n k).abs =
      (UnpackedFloat.round Format.binary64 t n k).abs := by
  simp only [UnpackedFloat.round, roundWithAccuracy]
  split <;> rfl

theorem abs_normalize_neg (c e : Int) :
    (normalize Format.binary64 (-c) e .positive).abs =
      (normalize Format.binary64 c e .positive).abs := by
  rcases eq_or_ne c 0 with rfl | nonzero
  · rfl
  · obtain ⟨s, hs⟩ := exists_sign c
    obtain ⟨t, ht⟩ := exists_sign (-c)
    rw [normalize_eq_round hs nonzero, normalize_eq_round ht (neg_ne_zero.mpr nonzero),
      Int.natAbs_neg]
    exact abs_round t s _ _

theorem abs_unpackedSub_comm (f g : UnpackedFloat) :
    (UnpackedFloat.sub Format.binary64 f g).abs = (UnpackedFloat.sub Format.binary64 g f).abs := by
  cases f with
  | notANumber => cases g <;> rfl
  | infinity s =>
    cases g with
    | infinity t => cases s <;> cases t <;> rfl
    | _ => rfl
  | zero s =>
    cases g with
    | zero t => cases s <;> cases t <;> rfl
    | _ => rfl
  | finite s m e left =>
    cases g with
    | finite t n k right =>
      simp only [UnpackedFloat.sub, decreaseExponent]
      rw [min_comm k e, ← neg_sub, abs_normalize_neg]
    | _ => rfl

theorem abs_unpack_packComponents (s t : Sign) (b : BitVec 11) (f : BitVec 52) :
    (UnpackedFloat.unpack Format.binary64 (packComponents Format.binary64 s b f)).abs =
      (UnpackedFloat.unpack Format.binary64 (packComponents Format.binary64 t b f)).abs := by
  rw [UnpackedFloat.unpack, UnpackedFloat.unpack]
  simp only [unpackMantissa_packComponents, unpackExponent_packComponents,
    unpackSign_packComponents, Sign.ofBitVec_toBitVec]
  split_ifs <;> rfl

theorem abs_unpack_pack (f : UnpackedFloat) :
    (UnpackedFloat.unpack Format.binary64 (UnpackedFloat.pack Format.binary64 f)).abs =
      (UnpackedFloat.unpack Format.binary64 (UnpackedFloat.pack Format.binary64 f.abs)).abs := by
  cases f with
  | notANumber => rfl
  | infinity s => exact abs_unpack_packComponents s .positive _ _
  | zero s => exact abs_unpack_packComponents s .positive _ _
  | finite s m e pos =>
    change _ = (UnpackedFloat.unpack Format.binary64
      (UnpackedFloat.pack Format.binary64 (.finite .positive m e pos))).abs
    simp only [UnpackedFloat.pack]
    split_ifs
    · exact abs_unpack_packComponents s .positive _ _
    · exact abs_unpack_packComponents s .positive _ _
    · exact abs_unpack_packComponents s .positive _ _

/-- The order of two doubles does not matter for how far they are apart. -/
theorem abs_sub_comm (x y : Float) : (x - y).abs = (y - x).abs := by
  have swapped := abs_unpackedSub_comm x.toModel.unpack y.toModel.unpack
  have same := abs_unpack_pack (UnpackedFloat.sub Format.binary64 x.toModel.unpack y.toModel.unpack)
  rw [swapped, ← abs_unpack_pack] at same
  exact congrArg (fun f => Float.ofModel (.pack f)) same

theorem abs_neg (x : Float) : (-x).abs = x.abs := by
  have opposite : x.toModel.unpack.neg.abs = x.toModel.unpack.abs := by
    cases x.toModel.unpack <;> rfl
  have same := abs_unpack_pack x.toModel.unpack.neg
  rw [opposite, ← abs_unpack_pack] at same
  have kept : (Float.ofModel (.pack x.toModel.unpack)).abs = x.abs :=
    congrArg Float.abs (ofModel_pack_unpack x)
  exact (congrArg (fun f => Float.ofModel (.pack f)) same).trans kept

theorem toRat?_abs_eq_zero_iff {x : Float} : toRat? x.abs = some 0 ↔ toRat? x = some 0 := by
  rw [toRat?_abs]
  cases toRat? x <;> simp

theorem toRat?_neg_eq_zero_iff {x : Float} : toRat? (-x) = some 0 ↔ toRat? x = some 0 := by
  rw [← toRat?_abs_eq_zero_iff, abs_neg, toRat?_abs_eq_zero_iff]

end FiniteCalculus.Double
