import FiniteCalculus.Proofs.Double.Nearest
import FiniteCalculus.Proofs.Double.Order

/-! Sums of two doubles. A sum is rounded once, and rounding never goes past a double, so
that adding moves no double against the sign of what is added. What is added can be lost,
but only beside a number that is 2 ^ 53 times as large. -/

namespace FiniteCalculus
set_option autoImplicit false

namespace Double

open Float.Model Float.Model.UnpackedFloat

theorem add_eq (x y : Float) : x + y =
    .ofModel (.pack (UnpackedFloat.add Format.binary64 x.toModel.unpack y.toModel.unpack)) := rfl

theorem add_swap (x y : Float) : x + y = y + x := by
  rw [add_eq, add_eq]
  refine congrArg (fun f => Float.ofModel (.pack f)) ?_
  cases x.toModel.unpack with
  | notANumber => cases y.toModel.unpack <;> rfl
  | infinity s =>
    cases y.toModel.unpack with
    | infinity t => cases s <;> cases t <;> rfl
    | _ => rfl
  | zero s =>
    cases y.toModel.unpack with
    | zero t => cases s <;> cases t <;> rfl
    | _ => rfl
  | finite s m e left =>
    cases y.toModel.unpack with
    | finite t n k right =>
      simp only [UnpackedFloat.add, decreaseExponent]
      rw [min_comm k e, Int.add_comm]
    | _ => rfl

/-- The sum of two numbers is a zero, one of them, or their exact sum rounded. -/
theorem add_cases {x y : Float} {p q : ℚ} (hx : toRat? x = some p) (hy : toRat? y = some q) :
    toRat? (x + y) = some (p + q) ∨
      ∃ (n e : Int), p + q = n * 2 ^ e ∧
        x + y = .ofModel (.pack (UnpackedFloat.normalize Format.binary64 n e .positive)) := by
  rcases number_cases hx with ⟨s, ux, rfl⟩ | ⟨s, m, e, left, ux, rfl⟩
  · rcases number_cases hy with ⟨t, uy, rfl⟩ | ⟨t, n, k, right, uy, _⟩
    · refine .inl ?_
      rw [add_eq, ux, uy, add_zero]
      cases s <;> cases t <;> exact toRat?_pack_zero _
    · refine .inl ?_
      have same : UnpackedFloat.add Format.binary64 (.zero s) (.finite t n k right) =
          y.toModel.unpack := uy.symm
      rw [add_eq, ux, uy, same, ofModel_pack_unpack, hy, zero_add]
  · rcases number_cases hy with ⟨t, uy, rfl⟩ | ⟨t, n, k, right, uy, rfl⟩
    · refine .inl ?_
      have same : UnpackedFloat.add Format.binary64 (.finite s m e left) (.zero t) =
          x.toModel.unpack := ux.symm
      rw [add_eq, ux, uy, same, ofModel_pack_unpack, hx, add_zero]
    · refine .inr ⟨s.apply (m <<< (e - min e k).toNat : Nat) +
        t.apply (n <<< (k - min e k).toNat : Nat), min e k, ?_, ?_⟩
      · rw [Int.cast_add, add_mul, aligned s m (min_le_left e k), aligned t n (min_le_right e k)]
      · rw [add_eq, ux, uy]
        rfl

theorem isRounded_add {x y : Float} {p q : ℚ} (hx : toRat? x = some p) (hy : toRat? y = some q) :
    IsRounded (p + q) (x + y) := by
  rcases add_cases hx hy with exact | ⟨n, e, sum, rounded⟩
  · exact isRounded_of_toRat? exact
  · rw [sum, rounded]
    exact isRounded_normalize n e .positive

theorem error_add {x y : Float} {p q r : ℚ} (hx : toRat? x = some p) (hy : toRat? y = some q)
    (h : toRat? (x + y) = some r) :
    2 ^ 53 * |p + q - r| ≤ |r| ∨ 2 * |p + q - r| ≤ 2 ^ leastExponent := by
  rcases add_cases hx hy with exact | ⟨n, e, sum, rounded⟩
  · rw [h] at exact
    rw [Option.some.inj exact, sub_self, abs_zero, mul_zero]
    exact .inl (abs_nonneg _)
  · rw [sum]
    rw [rounded] at h
    exact error_normalize n e .positive h

/-- No double lies strictly between a number and what it is rounded to. -/
theorem IsRounded.le_place {q p : ℚ} {x y : Float} (h : IsRounded q y) (hx : toRat? x = some p)
    (le : p ≤ q) : ∃ b, place? y = some b ∧ ((p : WithTop ℚ) : Place) ≤ b := by
  cases h with
  | within _ nearest =>
    obtain ⟨s, m, e, hy, nearer⟩ := nearest
    refine ⟨_, by rw [place?, hy], ?_⟩
    rw [WithBot.coe_le_coe, WithTop.coe_le_coe]
    by_contra below
    have closer := (nearer x p hx).1
    rw [abs_of_nonneg (by linarith), abs_of_nonneg (by linarith)] at closer
    linarith
  | above _ infinite => exact ⟨⊤, by rw [place?, infinite]; rfl, le_top⟩
  | below large _ =>
    have := (abs_lt.mp (abs_lt_overflow hx)).1
    linarith

theorem IsRounded.place_le {q p : ℚ} {x y : Float} (h : IsRounded q y) (hx : toRat? x = some p)
    (le : q ≤ p) : ∃ b, place? y = some b ∧ b ≤ ((p : WithTop ℚ) : Place) := by
  cases h with
  | within _ nearest =>
    obtain ⟨s, m, e, hy, nearer⟩ := nearest
    refine ⟨_, by rw [place?, hy], ?_⟩
    rw [WithBot.coe_le_coe, WithTop.coe_le_coe]
    by_contra above
    have closer := (nearer x p hx).1
    rw [abs_of_nonpos (by linarith), abs_of_nonpos (by linarith)] at closer
    linarith
  | above large _ =>
    have := (abs_lt.mp (abs_lt_overflow hx)).2
    linarith
  | below _ infinite => exact ⟨⊥, by rw [place?, infinite]; rfl, bot_le⟩

theorem IsRounded.exists_place? {q : ℚ} {x : Float} (h : IsRounded q x) :
    ∃ b, place? x = some b := by
  cases h with
  | within _ nearest =>
    obtain ⟨s, m, e, hx, _⟩ := nearest
    exact ⟨_, by rw [place?, hx]⟩
  | above _ infinite => exact ⟨⊤, by rw [place?, infinite]; rfl⟩
  | below _ infinite => exact ⟨⊥, by rw [place?, infinite]; rfl⟩

theorem IsRounded.toRat?_eq {q : ℚ} {x y : Float} (h : IsRounded q y) (hx : toRat? x = some q) :
    toRat? y = some q := by
  have small := abs_lt.mp (abs_lt_overflow hx)
  cases h with
  | within _ nearest =>
    obtain ⟨s, m, e, hy, nearer⟩ := nearest
    have closer := (nearer x q hx).1
    rw [sub_self, abs_zero] at closer
    have same := sub_eq_zero.mp (abs_eq_zero.mp (le_antisymm closer (abs_nonneg _)))
    rw [toRat?, hy, same]
  | above large _ => linarith
  | below large _ => linarith

theorem toRat?_zero : toRat? 0 = some 0 :=
  toRat?_of_zero (s := false) (e := leastExponent) (by decide)

theorem beq_zero_iff {x : Float} : (x == 0.0) = true ↔ toRat? x = some 0 := by
  have zero : place? 0.0 = some (((0 : ℚ) : WithTop ℚ) : Place) := place?_of_toRat? toRat?_zero
  constructor
  · intro same
    obtain ⟨p, hx, hp⟩ := (beq_iff_place x 0.0).mp same
    obtain rfl := Option.some.inj (zero.symm.trans hp)
    rcases place_cases x with ⟨_, hx'⟩ | ⟨_, hx'⟩ | ⟨_, hx'⟩ | ⟨q, hq, hx'⟩
    · cases hx.symm.trans hx'
    · cases hx.symm.trans hx'
    · cases hx.symm.trans hx'
    · have same' := Option.some.inj (hx'.symm.trans hx)
      rw [WithBot.coe_inj, WithTop.coe_inj] at same'
      rw [hq, same']
  · intro hx
    exact (beq_iff_place x 0.0).mpr ⟨_, place?_of_toRat? hx, zero⟩

theorem toRat?_one : toRat? 1.0 = some 1 := by
  rw [toRat?, parts_one]
  norm_num [signed]

theorem toRat?_neg_one : toRat? (-1.0) = some (-1) := by
  have kept : parts (-1.0) = .finite true 4503599627370496 (-52) := by decide
  rw [toRat?, kept]
  norm_num [signed]

theorem toRat?_neg_zero : toRat? (-0) = some 0 :=
  toRat?_of_zero (s := true) (e := leastExponent) (by decide)

/-- There is one double at a place, but two zeros. -/
theorem eq_or_zero_of_place? {x y : Float} {a : Place} (hx : place? x = some a)
    (hy : place? y = some a) : x = y ∨ toRat? x = some 0 := by
  have equal := (beq_iff_place x y).mpr ⟨a, hx, hy⟩
  rcases Float.beq_iff_ne_nan_and_eq.mp equal with ⟨_, _, same | ⟨rfl, _⟩ | ⟨rfl, _⟩⟩
  · exact .inl same
  · exact .inr toRat?_zero
  · exact .inr toRat?_neg_zero

theorem eq_of_toRat? {x y : Float} {q : ℚ} (hx : toRat? x = some q) (hy : toRat? y = some q)
    (nonzero : q ≠ 0) : x = y := by
  refine (eq_or_zero_of_place? (place?_of_toRat? hx) (place?_of_toRat? hy)).resolve_right ?_
  rw [hx]
  exact fun zero => nonzero (Option.some.inj zero)

theorem infinity_add {x y : Float} {s : Sign} (hx : x.toModel.unpack = .infinity s) :
    x + y = x ∨ place? (x + y) = none := by
  have kept : Float.ofModel (.pack (.infinity s)) = x := hx ▸ ofModel_pack_unpack x
  rw [add_eq, hx]
  cases y.toModel.unpack with
  | notANumber => exact .inr (by cases s <;> decide)
  | infinity t =>
    rw [UnpackedFloat.add]
    split
    · exact .inl kept
    · exact .inr (by decide)
  | zero _ => exact .inl kept
  | finite _ _ _ _ => exact .inl kept

theorem infinity_add_number {x y : Float} {s : Sign} {q : ℚ} (hx : x.toModel.unpack = .infinity s)
    (hy : toRat? y = some q) : x + y = x := by
  have kept : Float.ofModel (.pack (.infinity s)) = x := hx ▸ ofModel_pack_unpack x
  rw [add_eq, hx]
  rcases number_cases hy with ⟨t, uy, _⟩ | ⟨t, m, e, pos, uy, _⟩
  · rw [uy]
    exact kept
  · rw [uy]
    exact kept

theorem add_infinity {x y : Float} {s : Sign} {p : ℚ} (hx : toRat? x = some p)
    (hy : y.toModel.unpack = .infinity s) : x + y = y := by
  have kept : Float.ofModel (.pack (.infinity s)) = y := hy ▸ ofModel_pack_unpack y
  rw [add_eq, hy]
  rcases number_cases hx with ⟨t, ux, _⟩ | ⟨t, m, e, pos, ux, _⟩
  · rw [ux]
    exact kept
  · rw [ux]
    exact kept

section
variable {x y : Float} {a d b : Place}

/-- A sum lies on the side of the first number where the sign of the second one leads. -/
theorem add_side (hx : place? x = some a) (hy : place? y = some d)
    (hsum : place? (x + y) = some b) : (0 ≤ d → a ≤ b) ∧ (d ≤ 0 → b ≤ a) := by
  have stays {s : Sign} (ux : x.toModel.unpack = .infinity s) : b = a := by
    rcases infinity_add (y := y) ux with same | undefined
    · rw [same, hx] at hsum
      exact (Option.some.inj hsum).symm
    · rw [undefined] at hsum
      cases hsum
  rcases place_cases x with ⟨_, hx'⟩ | ⟨ux, _⟩ | ⟨ux, _⟩ | ⟨p, nx, hx'⟩
  · rw [hx] at hx'
    cases hx'
  · rw [stays ux]
    exact ⟨fun _ => le_refl a, fun _ => le_refl a⟩
  · rw [stays ux]
    exact ⟨fun _ => le_refl a, fun _ => le_refl a⟩
  obtain rfl := Option.some.inj (hx.symm.trans hx')
  rcases place_cases y with ⟨_, hy'⟩ | ⟨uy, hy'⟩ | ⟨uy, hy'⟩ | ⟨q, ny, hy'⟩
  · rw [hy] at hy'
    cases hy'
  · rw [add_infinity nx uy, hy'] at hsum
    obtain rfl := Option.some.inj hsum
    obtain rfl := Option.some.inj (hy.symm.trans hy')
    exact ⟨fun up => absurd up (by decide), fun _ => bot_le⟩
  · rw [add_infinity nx uy, hy'] at hsum
    obtain rfl := Option.some.inj hsum
    obtain rfl := Option.some.inj (hy.symm.trans hy')
    exact ⟨fun _ => le_top, fun down => absurd down (by decide)⟩
  · obtain rfl := Option.some.inj (hy.symm.trans hy')
    have rounded := isRounded_add nx ny
    constructor
    · intro up
      have up' : 0 ≤ q := WithTop.coe_le_coe.mp (WithBot.coe_le_coe.mp up)
      obtain ⟨b', hb', le⟩ := rounded.le_place nx (by linarith)
      rwa [Option.some.inj (hsum.symm.trans hb')]
    · intro down
      have down' : q ≤ 0 := WithTop.coe_le_coe.mp (WithBot.coe_le_coe.mp down)
      obtain ⟨b', hb', le⟩ := rounded.place_le nx (by linarith)
      rwa [Option.some.inj (hsum.symm.trans hb')]

/-- What is added is lost altogether, or it makes another number. -/
theorem eq_of_add (hx : place? x = some a) (hy : place? y = some d) (nonzero : d ≠ 0)
    (hsum : place? (x + y) = some a) : x + y = x := by
  rcases eq_or_zero_of_place? hx hsum with same | zero
  · exact same.symm
  · -- A zero that something is added to becomes just that.
    have other : place? (x + y) = place? y := by
      rcases place_cases y with ⟨_, hy'⟩ | ⟨uy, _⟩ | ⟨uy, _⟩ | ⟨q, ny, hy'⟩
      · rw [hy] at hy'
        cases hy'
      · rw [add_infinity zero uy]
      · rw [add_infinity zero uy]
      · have rounded := isRounded_add zero ny
        rw [zero_add] at rounded
        rw [place?_of_toRat? (rounded.toRat?_eq ny), hy']
    have same : d = a := Option.some.inj (hy.symm.trans (other.symm.trans hsum))
    have origin : a = 0 := Option.some.inj (hx.symm.trans (place?_of_toRat? zero))
    exact absurd (same.trans origin) nonzero

end

theorem exists_place?_add {x y : Float} {a : Place} {q : ℚ} (hx : place? x = some a)
    (hy : toRat? y = some q) : ∃ b, place? (x + y) = some b := by
  rcases place_cases x with ⟨_, hx'⟩ | ⟨ux, _⟩ | ⟨ux, _⟩ | ⟨p, nx, _⟩
  · rw [hx] at hx'
    cases hx'
  · exact ⟨a, by rw [infinity_add_number ux hy, hx]⟩
  · exact ⟨a, by rw [infinity_add_number ux hy, hx]⟩
  · exact (isRounded_add nx hy).exists_place?

/-- A number that is lost in a sum is small beside the other one. -/
theorem lost_le {x y : Float} {p q : ℚ} (hx : toRat? x = some p) (hy : toRat? y = some q)
    (lost : x + y = x) : 2 ^ 53 * |q| ≤ |p| := by
  have sum : toRat? (x + y) = some p := by rw [lost, hx]
  have error := error_add hx hy sum
  rw [add_sub_cancel_left] at error
  rcases error with small | tiny
  · exact small
  · -- There is no double so close to zero but zero itself.
    have unit : (0 : ℚ) < 2 ^ leastExponent := zpow_pos (by norm_num) _
    rcases multiple_or_small hy leastExponent with ⟨z, rfl⟩ | ⟨_, above⟩
    · rcases eq_or_ne z 0 with rfl | nonzero
      · rw [Int.cast_zero, zero_mul, abs_zero, mul_zero]
        exact abs_nonneg p
      · have whole : (1 : ℚ) ≤ |(z : ℚ)| := by exact_mod_cast Int.one_le_abs nonzero
        rw [abs_mul, abs_of_pos unit] at tiny
        have := mul_le_mul_of_nonneg_right whole unit.le
        linarith
    · exact absurd above (lt_irrefl _)

end Double

end FiniteCalculus
