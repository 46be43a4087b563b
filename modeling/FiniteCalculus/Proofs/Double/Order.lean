import FiniteCalculus.Proofs.Double.Canonical
import Mathlib.Order.Compare
import Mathlib.Order.WithBot

/-! The places of doubles on the line of numbers that ends in two infinities. Doubles are
compared by sign, exponent and mantissa, and integers with doubles by exact products, and
either way that is the order of their places. -/

namespace FiniteCalculus
set_option autoImplicit false

/-- The numbers with an infinity at either end. -/
abbrev Place := WithBot (WithTop ℚ)

section
variable {α β : Type} [LinearOrder α] [LinearOrder β] {f : α → β}

theorem compare_map (increasing : StrictMono f) (a b : α) : compare (f a) (f b) = compare a b := by
  rw [← cmp_eq_compare, ← cmp_eq_compare, increasing.cmp_map_eq]

theorem swap_compare (a b : α) : (compare a b).swap = compare b a := by
  rw [← cmp_eq_compare, ← cmp_eq_compare, cmp_swap]

theorem compare_map_swap (decreasing : StrictAnti f) (a b : α) :
    compare (f a) (f b) = (compare a b).swap := by
  rw [swap_compare, ← cmp_eq_compare, ← cmp_eq_compare, decreasing.cmp_map_eq]

end

namespace Double

open Float.Model Float.Model.UnpackedFloat

/-- Where a double lies; what is no number lies nowhere. -/
def place? (x : Float) : Option Place :=
  match parts x with
  | .notNumber => none
  | .infinite s => some (if s then ⊥ else ⊤)
  | .finite s m e => some ((signed s m * 2 ^ e : ℚ) : WithTop ℚ)

theorem place?_of_toRat? {x : Float} {q : ℚ} (h : toRat? x = some q) :
    place? x = some ((q : WithTop ℚ) : Place) := by
  obtain ⟨s, m, e, hx, rfl⟩ := exists_parts h
  rw [place?, hx]

theorem place?_eq_none_iff {x : Float} : place? x = none ↔ x.isNaN = true := by
  rw [isNaN_iff, place?]
  cases parts x <;> simp

theorem exists_place? {x : Float} (h : x.isNaN = false) : ∃ p, place? x = some p := by
  refine Option.ne_none_iff_exists'.mp fun none => ?_
  rw [place?_eq_none_iff.mp none] at h
  cases h

theorem compare_coe (p q : ℚ) :
    compare ((p : WithTop ℚ) : Place) ((q : WithTop ℚ) : Place) = compare p q :=
  compare_map (WithBot.coe_strictMono.comp WithTop.coe_strictMono) p q

/-- The exponents decide, and the mantissas where these are the same. -/
theorem compare_mul {m n : Nat} {e k : Int} (hm : Canonical m e) (hn : Canonical n k) :
    (compare e k).then (compare m n) = compare ((m : ℚ) * 2 ^ e) (n * 2 ^ k) := by
  rcases lt_trichotomy e k with lt | rfl | gt
  · rw [compare_lt_iff_lt.mpr lt, compare_lt_iff_lt.mpr (hm.mul_lt_mul hn lt)]
    rfl
  · have unit : (0 : ℚ) < 2 ^ e := zpow_pos (by norm_num) e
    rw [compare_eq_iff_eq.mpr rfl]
    exact (compare_map (Nat.strictMono_cast.mul_const unit) m n).symm
  · rw [compare_gt_iff_gt.mpr gt, compare_gt_iff_gt.mpr (hn.mul_lt_mul hm gt)]
    rfl

theorem compare_bot_coe (q : WithTop ℚ) : compare (⊥ : Place) q = .lt :=
  compare_lt_iff_lt.mpr (WithBot.bot_lt_coe q)

theorem compare_coe_bot (p : WithTop ℚ) : compare (p : Place) ⊥ = .gt :=
  compare_gt_iff_gt.mpr (WithBot.bot_lt_coe p)

theorem compare_top_coe (q : ℚ) : compare (⊤ : Place) (q : WithTop ℚ) = .gt :=
  compare_gt_iff_gt.mpr (WithBot.coe_lt_coe.mpr (WithTop.coe_lt_top q))

theorem compare_coe_top (p : ℚ) : compare ((p : WithTop ℚ) : Place) ⊤ = .lt :=
  compare_lt_iff_lt.mpr (WithBot.coe_lt_coe.mpr (WithTop.coe_lt_top p))

theorem mul_zpow_pos {m : Nat} (pos : 0 < m) (e : Int) : (0 : ℚ) < m * 2 ^ e :=
  mul_pos (by exact_mod_cast pos) (zpow_pos (by norm_num) e)

theorem sign_cases {x : Float} {p : ℚ} (h : toRat? x = some p) :
    (∃ s, x.toModel.unpack = .zero s ∧ p = 0) ∨
    (∃ m e pos, x.toModel.unpack = .finite .positive m e pos ∧ p = m * 2 ^ e) ∨
    ∃ m e pos, x.toModel.unpack = .finite .negative m e pos ∧ p = -(m * 2 ^ e) := by
  rcases number_cases h with zero | ⟨s, m, e, pos, hx, rfl⟩
  · exact .inl zero
  · cases s with
    | positive => exact .inr (.inl ⟨m, e, pos, hx, by simp only [Sign.apply, Int.cast_natCast]⟩)
    | negative =>
      refine .inr (.inr ⟨m, e, pos, hx, ?_⟩)
      simp only [Sign.apply, Int.cast_neg, Int.cast_natCast, neg_mul]

theorem compare_numbers {x y : Float} {p q : ℚ} (hx : toRat? x = some p)
    (hy : toRat? y = some q) :
    x.toModel.unpack.compare y.toModel.unpack = some (compare p q) := by
  rcases sign_cases hx with ⟨s, ux, rfl⟩ | ⟨m, e, left, ux, rfl⟩ | ⟨m, e, left, ux, rfl⟩
  · rcases sign_cases hy with ⟨t, uy, rfl⟩ | ⟨n, k, right, uy, rfl⟩ | ⟨n, k, right, uy, rfl⟩
    · rw [ux, uy]
      rfl
    · rw [ux, uy, compare_lt_iff_lt.mpr (mul_zpow_pos right k)]
      rfl
    · rw [ux, uy, compare_gt_iff_gt.mpr (neg_lt_zero.mpr (mul_zpow_pos right k))]
      rfl
  · rcases sign_cases hy with ⟨t, uy, rfl⟩ | ⟨n, k, right, uy, rfl⟩ | ⟨n, k, right, uy, rfl⟩
    · rw [ux, uy, compare_gt_iff_gt.mpr (mul_zpow_pos left e)]
      rfl
    · rw [← compare_mul (unpack_canonical ux).1 (unpack_canonical uy).1, ux, uy]
      rfl
    · have apart := (neg_lt_zero.mpr (mul_zpow_pos right k)).trans (mul_zpow_pos left e)
      rw [ux, uy, compare_gt_iff_gt.mpr apart]
      rfl
  · rcases sign_cases hy with ⟨t, uy, rfl⟩ | ⟨n, k, right, uy, rfl⟩ | ⟨n, k, right, uy, rfl⟩
    · rw [ux, uy, compare_lt_iff_lt.mpr (neg_lt_zero.mpr (mul_zpow_pos left e))]
      rfl
    · have apart := (neg_lt_zero.mpr (mul_zpow_pos left e)).trans (mul_zpow_pos right k)
      rw [ux, uy, compare_lt_iff_lt.mpr apart]
      rfl
    · rw [compare_map_swap fun _ _ => neg_lt_neg,
        ← compare_mul (unpack_canonical ux).1 (unpack_canonical uy).1, ux, uy]
      rfl

theorem place_cases (x : Float) :
    (x.toModel.unpack = .notANumber ∧ place? x = none) ∨
    (x.toModel.unpack = .infinity .negative ∧ place? x = some ⊥) ∨
    (x.toModel.unpack = .infinity .positive ∧ place? x = some ⊤) ∨
    ∃ p : ℚ, toRat? x = some p ∧ place? x = some ((p : WithTop ℚ) : Place) := by
  cases hx : x.toModel.unpack with
  | notANumber => exact .inl ⟨rfl, by rw [place?, parts, hx]⟩
  | infinity s =>
    cases s with
    | negative => exact .inr (.inl ⟨rfl, by rw [place?, parts, hx]; rfl⟩)
    | positive => exact .inr (.inr (.inl ⟨rfl, by rw [place?, parts, hx]; rfl⟩))
  | zero s =>
    obtain ⟨p, hp⟩ : ∃ p, toRat? x = some p := by
      rw [toRat?, parts, hx]
      exact ⟨_, rfl⟩
    exact .inr (.inr (.inr ⟨p, hp, place?_of_toRat? hp⟩))
  | finite s m e pos =>
    obtain ⟨p, hp⟩ : ∃ p, toRat? x = some p := by
      rw [toRat?, parts, hx]
      exact ⟨_, rfl⟩
    exact .inr (.inr (.inr ⟨p, hp, place?_of_toRat? hp⟩))

theorem compare_infinity_number (s : Sign) {y : Float} {q : ℚ} (hy : toRat? y = some q) :
    (UnpackedFloat.infinity s).compare y.toModel.unpack =
      some (match s with | .negative => .lt | .positive => .gt) := by
  rcases sign_cases hy with ⟨t, hy, _⟩ | ⟨n, k, right, hy, _⟩ | ⟨n, k, right, hy, _⟩ <;>
    rw [hy] <;> cases s <;> rfl

theorem compare_number_infinity (s : Sign) {x : Float} {p : ℚ} (hx : toRat? x = some p) :
    x.toModel.unpack.compare (.infinity s) =
      some (match s with | .negative => .gt | .positive => .lt) := by
  rcases sign_cases hx with ⟨t, hx, _⟩ | ⟨n, k, left, hx, _⟩ | ⟨n, k, left, hx, _⟩ <;>
    rw [hx] <;> cases s <;> rfl

theorem compare_unpack (x y : Float) : x.toModel.unpack.compare y.toModel.unpack =
    (place? x).bind fun p => (place? y).map fun q => compare p q := by
  rcases place_cases x with ⟨ux, hx⟩ | ⟨ux, hx⟩ | ⟨ux, hx⟩ | ⟨p, nx, hx⟩
  · rw [ux, hx]
    rfl
  · rcases place_cases y with ⟨uy, hy⟩ | ⟨uy, hy⟩ | ⟨uy, hy⟩ | ⟨q, ny, hy⟩
    · rw [ux, uy, hx, hy]
      rfl
    · rw [ux, uy, hx, hy]
      rfl
    · rw [ux, uy, hx, hy]
      rfl
    · rw [ux, compare_infinity_number .negative ny, hx, hy]
      exact congrArg some (compare_bot_coe _).symm
  · rcases place_cases y with ⟨uy, hy⟩ | ⟨uy, hy⟩ | ⟨uy, hy⟩ | ⟨q, ny, hy⟩
    · rw [ux, uy, hx, hy]
      rfl
    · rw [ux, uy, hx, hy]
      rfl
    · rw [ux, uy, hx, hy]
      rfl
    · rw [ux, compare_infinity_number .positive ny, hx, hy]
      exact congrArg some (compare_top_coe _).symm
  · rcases place_cases y with ⟨uy, hy⟩ | ⟨uy, hy⟩ | ⟨uy, hy⟩ | ⟨q, ny, hy⟩
    · rw [uy, hx, hy]
      rcases sign_cases nx with ⟨t, ux, _⟩ | ⟨n, k, left, ux, _⟩ | ⟨n, k, left, ux, _⟩ <;>
        rw [ux] <;> rfl
    · rw [uy, compare_number_infinity .negative nx, hx, hy]
      exact congrArg some (compare_coe_bot _).symm
    · rw [uy, compare_number_infinity .positive nx, hx, hy]
      exact congrArg some (compare_coe_top _).symm
    · rw [compare_numbers nx ny, hx, hy]
      exact congrArg some (compare_coe p q).symm

theorem lt_iff_place (x y : Float) :
    x < y ↔ ∃ p q, place? x = some p ∧ place? y = some q ∧ p < q := by
  rw [lt_iff, UnpackedFloat.lt, compare_unpack]
  cases place? x <;> cases place? y <;> simp [compare_lt_iff_lt]

theorem beq_iff_place (x y : Float) :
    (x == y) = true ↔ ∃ p, place? x = some p ∧ place? y = some p := by
  change x.toModel.unpack.beq y.toModel.unpack = true ↔ _
  rw [UnpackedFloat.beq, compare_unpack]
  cases place? x with
  | none => simp
  | some p =>
    cases place? y with
    | none => simp
    | some q => simpa using eq_comm

theorem lt_asymm {x y : Float} (h : x < y) : ¬ y < x := by
  intro h'
  obtain ⟨p, q, hp, hq, lt⟩ := (lt_iff_place x y).mp h
  obtain ⟨q', p', hq', hp', lt'⟩ := (lt_iff_place y x).mp h'
  obtain rfl := Option.some.inj (hp.symm.trans hp')
  obtain rfl := Option.some.inj (hq.symm.trans hq')
  exact lt.asymm lt'

section
variable {x y : Float} {p q : Place}

theorem lt_iff_lt (hx : place? x = some p) (hy : place? y = some q) : x < y ↔ p < q := by
  rw [lt_iff_place, hx, hy]
  simp

theorem beq_iff_eq_places (hx : place? x = some p) (hy : place? y = some q) :
    (x == y) = true ↔ p = q := by
  rw [beq_iff_place, hx, hy]
  simp [eq_comm]

end

theorem lt_iff_of_toRat? {x y : Float} {p q : ℚ} (hx : toRat? x = some p) (hy : toRat? y = some q) :
    x < y ↔ p < q := by
  rw [lt_iff_lt (place?_of_toRat? hx) (place?_of_toRat? hy), WithBot.coe_lt_coe,
    WithTop.coe_lt_coe]

theorem compareDouble_eq (x y : Float) : compareDouble x y =
    (place? x).bind fun p => (place? y).map fun q => compare p q := by
  unfold compareDouble
  cases hx : place? x with
  | none =>
    have lt : ¬ x < y := by simp [lt_iff_place, hx]
    have gt : ¬ y < x := by simp [lt_iff_place, hx]
    have eq : ¬ (x == y) = true := by simp [beq_iff_place, hx]
    rw [if_neg lt, if_neg gt, if_neg eq]
    rfl
  | some p =>
    cases hy : place? y with
    | none =>
      have lt : ¬ x < y := by simp [lt_iff_place, hy]
      have gt : ¬ y < x := by simp [lt_iff_place, hy]
      have eq : ¬ (x == y) = true := by simp [beq_iff_place, hy]
      rw [if_neg lt, if_neg gt, if_neg eq]
      rfl
    | some q =>
      refine Eq.trans ?_ (b := some (compare p q)) rfl
      rcases lt_trichotomy p q with lt | rfl | gt
      · rw [if_pos ((lt_iff_lt hx hy).mpr lt), compare_lt_iff_lt.mpr lt]
      · rw [if_neg (lt_irrefl p ∘ (lt_iff_lt hx hy).mp),
          if_neg (lt_irrefl p ∘ (lt_iff_lt hy hx).mp),
          if_pos ((beq_iff_eq_places hx hy).mpr rfl), compare_eq_iff_eq.mpr rfl]
      · rw [if_neg (gt.not_gt ∘ (lt_iff_lt hx hy).mp), if_pos ((lt_iff_lt hy hx).mpr gt),
          compare_gt_iff_gt.mpr gt]

theorem compare_intCast (a b : Int) : compare (a : ℚ) b = compare a b :=
  compare_map Int.cast_strictMono a b

theorem compareInt_eq (x : Float) (n : Int) :
    compareInt x n = (place? x).map fun p => compare p (((n : ℚ) : WithTop ℚ) : Place) := by
  unfold compareInt place?
  cases parts x with
  | notNumber => rfl
  | infinite s =>
    cases s with
    | false => exact congrArg some (compare_top_coe _).symm
    | true => exact congrArg some (compare_bot_coe _).symm
  | finite s m e =>
    have unit : (0 : ℚ) < powerOfTwo (-e) := by exact_mod_cast powerOfTwo_pos (-e)
    refine congrArg some ((?_ : _ = _).trans (compare_coe _ _).symm)
    rw [← compare_map (strictMono_mul_right_of_pos unit), mul_assoc, ← powerOfTwo_eq,
      ← compare_intCast]
    push_cast
    rfl

end Double

namespace Value

/-- Where a real value lies. -/
def place? (v : Value) : Option Place :=
  match v with
  | double x => Double.place? x
  | int n => some ((n : ℚ) : WithTop ℚ)
  | bool b => some ((b.toInt : ℚ) : WithTop ℚ)
  | _ => none

theorem place?_of_integer? {v : Value} {n : Int} (h : v.integer? = some n) :
    v.place? = some (((n : ℚ) : WithTop ℚ) : Place) := by
  cases v <;> cases h <;> rfl

/-- Real values are compared by their places, whatever their kinds. -/
theorem compare?_eq (v w : Value) : v.compare? w =
    v.place?.bind fun p => w.place?.map fun q => compare p q := by
  have integers (m n : Int) : (some (compare m n) : Option Ordering) =
      some (compare (((m : ℚ) : WithTop ℚ) : Place) ((n : ℚ) : WithTop ℚ)) := by
    rw [Double.compare_coe, Double.compare_intCast]
  have left (x : Float) (n : Int) : Double.compareInt x n =
      (Double.place? x).bind fun p => some (compare p (((n : ℚ) : WithTop ℚ) : Place)) := by
    rw [Double.compareInt_eq]
    cases Double.place? x <;> rfl
  have right (m : Int) (y : Float) : (Double.compareInt y m).bind (fun o => some o.swap) =
      (Double.place? y).map fun q => compare (((m : ℚ) : WithTop ℚ) : Place) q := by
    rw [Double.compareInt_eq]
    cases Double.place? y with
    | none => rfl
    | some q => exact congrArg some (swap_compare _ _)
  cases v with
  | double x =>
    cases w with
    | double y => exact Double.compareDouble_eq x y
    | int n => exact left x n
    | bool b => exact left x b.toInt
    | _ => cases h : Double.place? x <;> simp [place?, compare?, integer?, h]
  | int m =>
    cases w with
    | double y => exact right m y
    | int n => exact integers m n
    | bool b => exact integers m b.toInt
    | _ => rfl
  | bool b =>
    cases w with
    | double y => exact right b.toInt y
    | int n => exact integers b.toInt n
    | bool c => exact integers b.toInt c.toInt
    | _ => rfl
  | _ => cases w <;> rfl

theorem lt_iff_place (v w : Value) :
    v.lt w = true ↔ ∃ p q, v.place? = some p ∧ w.place? = some q ∧ p < q := by
  rw [lt, compare?_eq]
  cases v.place? <;> cases w.place? <;> simp [compare_lt_iff_lt]

theorem le_iff_place (v w : Value) :
    v.le w = true ↔ ∃ p q, v.place? = some p ∧ w.place? = some q ∧ p ≤ q := by
  rw [le, compare?_eq]
  cases v.place? <;> cases w.place? <;> simp [compare_lt_iff_lt, le_iff_lt_or_eq]

section
variable {v w : Value} {p q : Place}

theorem lt_iff_lt (hv : v.place? = some p) (hw : w.place? = some q) :
    v.lt w = true ↔ p < q := by
  rw [lt_iff_place, hv, hw]
  simp

theorem le_iff_le (hv : v.place? = some p) (hw : w.place? = some q) :
    v.le w = true ↔ p ≤ q := by
  rw [le_iff_place, hv, hw]
  simp

end

theorem place?_of_toRat? {v : Value} {q : ℚ} (h : v.toRat? = some q) :
    v.place? = some ((q : WithTop ℚ) : Place) := by
  cases v with
  | int n => cases h; rfl
  | double x => exact Double.place?_of_toRat? h
  | bool b => cases h; rfl
  | _ => cases h

theorem lt_iff_of_toRat? {v w : Value} {p q : ℚ} (hv : v.toRat? = some p) (hw : w.toRat? = some q) :
    v.lt w = true ↔ p < q := by
  rw [lt_iff_lt (place?_of_toRat? hv) (place?_of_toRat? hw), WithBot.coe_lt_coe,
    WithTop.coe_lt_coe]

theorem place?_of_toRat?_none {v : Value} (h : v.toRat? = none) :
    v.place? = none ∨ v.place? = some ⊥ ∨ v.place? = some ⊤ := by
  cases v with
  | double x =>
    rcases Double.place_cases x with ⟨_, hx⟩ | ⟨_, hx⟩ | ⟨_, hx⟩ | ⟨p, hp, _⟩
    · exact .inl hx
    · exact .inr (.inl hx)
    · exact .inr (.inr hx)
    · cases h.symm.trans hp
  | int n => cases h
  | bool b => cases h
  | _ => exact .inl rfl

theorem compare?_int_of_toRat?_none {v : Value} (h : v.toRat? = none) (m n : Int) :
    (int m).compare? v = (int n).compare? v ∧ v.compare? (int m) = v.compare? (int n) := by
  have hm : (int m).place? = some (((m : ℚ) : WithTop ℚ) : Place) := rfl
  have hn : (int n).place? = some (((n : ℚ) : WithTop ℚ) : Place) := rfl
  simp only [compare?_eq, hm, hn, Option.bind_some]
  rcases place?_of_toRat?_none h with hv | hv | hv <;> rw [hv]
  · exact ⟨rfl, rfl⟩
  · simp only [Option.map_some, Option.bind_some, Double.compare_coe_bot, Double.compare_bot_coe,
      and_self]
  · simp only [Option.map_some, Option.bind_some, Double.compare_coe_top, Double.compare_top_coe,
      and_self]

end Value

end FiniteCalculus
