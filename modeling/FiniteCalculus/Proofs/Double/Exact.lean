import FiniteCalculus.Proofs.Double.Whole

/-! The number that a double stands for, and the integer nearest to it. A double is
read as a rational, so that being nearest is said of distances between numbers and
not of mantissas. -/

namespace FiniteCalculus
set_option autoImplicit false

/-- No integer is nearer to the number, and another one is as near only if this one is even. -/
def IsNearestInteger (q : ℚ) (n : Int) : Prop :=
  ∀ k : Int, |q - n| ≤ |q - k| ∧ (|q - k| = |q - n| → k = n ∨ Even n)

theorem one_le_distances {q : ℚ} {n k : Int} (h : k ≠ n) : 1 ≤ |q - n| + |q - k| := by
  have apart : (1 : ℚ) ≤ |((k - n : Int) : ℚ)| := by
    exact_mod_cast Int.one_le_abs (sub_ne_zero.mpr h)
  have between : ((k - n : Int) : ℚ) = (q - n) - (q - k) := by
    push_cast
    ring
  rw [between] at apart
  exact apart.trans (abs_sub _ _)

/-- An integer within one half is nearest, if it is even at a distance of one half. -/
theorem isNearestInteger_of_le_half {q : ℚ} {n : Int} (le : |q - n| ≤ 1 / 2)
    (even : |q - n| = 1 / 2 → Even n) : IsNearestInteger q n := by
  intro k
  by_cases same : k = n
  · rw [same]
    exact ⟨le_refl _, fun _ => .inl rfl⟩
  · have apart := one_le_distances (q := q) same
    refine ⟨by linarith, fun tie => .inr (even ?_)⟩
    linarith

theorem isNearestInteger_intCast (n : Int) : IsNearestInteger n n := by
  apply isNearestInteger_of_le_half
  · rw [sub_self, abs_zero]
    norm_num
  · rw [sub_self, abs_zero]
    norm_num

/-- There is only one nearest integer. -/
theorem IsNearestInteger.unique {q : ℚ} {n k : Int} (hn : IsNearestInteger q n)
    (hk : IsNearestInteger q k) : n = k := by
  by_contra differ
  have tie : |q - n| = |q - k| := le_antisymm (hn k).1 (hk n).1
  obtain ⟨a, rfl⟩ : Even n := ((hn k).2 tie.symm).resolve_left (Ne.symm differ)
  obtain ⟨b, rfl⟩ : Even k := ((hk _).2 tie).resolve_left differ
  -- Between two even integers that are equally near lies the number, and it is an integer.
  have middle : q = (a + b : Int) := by
    rcases abs_eq_abs.mp tie with h | h
    · exact absurd (by exact_mod_cast sub_right_injective h) differ
    · push_cast at h ⊢
      linarith
  have zero : |q - (a + a : Int)| ≤ 0 := by
    refine (hn (a + b)).1.trans_eq ?_
    rw [middle, sub_self, abs_zero]
  have below : q = (a + a : Int) :=
    sub_eq_zero.mp (abs_eq_zero.mp (le_antisymm zero (abs_nonneg _)))
  have whole : a + b = a + a := by exact_mod_cast middle.symm.trans below
  omega

theorem isNearestInteger_intCast_iff {n k : Int} : IsNearestInteger n k ↔ k = n := by
  constructor
  · intro h
    exact h.unique (isNearestInteger_intCast n)
  · rintro rfl
    exact isNearestInteger_intCast k

theorem IsNearestInteger.neg {q : ℚ} {n : Int} (h : IsNearestInteger q n) :
    IsNearestInteger (-q) (-n) := by
  have mirror (k : Int) : |-q - (k : Int)| = |q - (-k : Int)| := by
    rw [← abs_neg]
    congr 1
    push_cast
    ring
  intro k
  rw [mirror, mirror, neg_neg]
  obtain ⟨le, tie⟩ := h (-k)
  refine ⟨le, fun same => ?_⟩
  rcases tie same with h | h
  · exact .inl (by rw [← h, neg_neg])
  · exact .inr h.neg

theorem IsNearestInteger.abs_sub_le_half {q : ℚ} {n : Int} (h : IsNearestInteger q n) :
    |q - n| ≤ 1 / 2 := (h (round q)).1.trans (abs_sub_round q)

/-- No integer lies between a number and the integer nearest to it. -/
theorem IsNearestInteger.le_of_le {q : ℚ} {n c : Int} (h : IsNearestInteger q n)
    (le : (c : ℚ) ≤ q) : c ≤ n := by
  by_contra above
  have lt : (n : ℚ) < c := by exact_mod_cast not_le.mp above
  have nearer := (h c).1
  rw [abs_of_nonneg (by linarith), abs_of_nonneg (by linarith)] at nearer
  linarith

theorem IsNearestInteger.le_of_ge {q : ℚ} {n c : Int} (h : IsNearestInteger q n)
    (le : q ≤ c) : n ≤ c := by
  have mirrored := h.neg.le_of_le (c := -c) (by push_cast; linarith)
  omega

/-- What is as far from two neighbouring integers is a tie of the quotient. -/
theorem nearestQuotient_even_of_half {n d : Nat} (hd : 0 < d) {c : Nat} (odd : c % 2 = 1)
    (half : 2 * n = c * d) : nearestQuotient n d % 2 = 0 := by
  apply nearestQuotient_even
  have split : d * (n / d) + n % d = n := Nat.div_add_mod n d
  have small : n % d < d := Nat.mod_lt n hd
  obtain ⟨b, rfl⟩ : ∃ b, c = 2 * b + 1 := ⟨c / 2, by omega⟩
  have twice : 2 * (n % d) + 2 * (d * (n / d)) = 2 * (d * b) + d := by
    calc 2 * (n % d) + 2 * (d * (n / d)) = 2 * n := by omega
      _ = 2 * (d * b) + d := by rw [half]; ring
  have same : n / d = b := by
    rcases lt_trichotomy (n / d) b with h | h | h
    · have := Nat.mul_le_mul_left d (Nat.succ_le_of_lt h)
      rw [Nat.mul_succ] at this
      omega
    · exact h
    · have := Nat.mul_le_mul_left d (Nat.succ_le_of_lt h)
      rw [Nat.mul_succ] at this
      omega
  rw [same] at twice
  omega

theorem isNearestInteger_nearestQuotient (n : Nat) {d : Nat} (hd : 0 < d) :
    IsNearestInteger (n / d) (nearestQuotient n d) := by
  obtain ⟨below, above⟩ := nearestQuotient_within n d hd
  generalize hq : nearestQuotient n d = q at below above
  have pos : (0 : ℚ) < d := by exact_mod_cast hd
  have below' : (2 * n : ℚ) ≤ (2 * q + 1) * d := by exact_mod_cast below
  have above' : (2 * d * q : ℚ) ≤ 2 * n + d := by exact_mod_cast above
  have distance : (n / d : ℚ) - (q : Int) = (n - q * d) / d := by
    rw [Int.cast_natCast, sub_div, mul_div_cancel_right₀ _ pos.ne']
  apply isNearestInteger_of_le_half
  · rw [distance, abs_div, abs_of_pos pos, div_le_iff₀ pos, abs_le]
    constructor <;> linarith
  · intro half
    rw [distance, abs_div, abs_of_pos pos, div_eq_iff pos.ne'] at half
    have even : q % 2 = 0 := by
      rw [← hq]
      rcases abs_choice ((n : ℚ) - q * d) with h | h
      · refine nearestQuotient_even_of_half hd (c := 2 * q + 1) (by omega) ?_
        have : (2 * n : ℚ) = (2 * q + 1) * d := by linarith
        exact_mod_cast this
      · have twice : (2 * n + d : ℚ) = 2 * q * d := by linarith
        have twice' : 2 * n + d = 2 * q * d := by exact_mod_cast twice
        have positive : 0 < q := by
          rcases Nat.eq_zero_or_pos q with rfl | h
          · omega
          · exact h
        obtain ⟨b, rfl⟩ : ∃ b, q = b + 1 := ⟨q - 1, by omega⟩
        refine nearestQuotient_even_of_half hd (c := 2 * b + 1) (by omega) ?_
        have : 2 * (b + 1) * d = (2 * b + 1) * d + d := by ring
        omega
    exact_mod_cast Nat.even_iff.mpr even

namespace Double

open Float.Model Float.Model.UnpackedFloat

/-- The number that a double stands for; there is none for an infinity. -/
def toRat? (x : Float) : Option ℚ :=
  match parts x with
  | .finite s m e => some (signed s m * 2 ^ e)
  | _ => none

theorem isNaN_iff (x : Float) : x.isNaN = true ↔ parts x = .notNumber := by
  change x.toModel.unpack.isNaN = true ↔ _
  unfold parts
  cases x.toModel.unpack <;> simp [UnpackedFloat.isNaN]

theorem isInf_iff (x : Float) : x.isInf = true ↔ ∃ s, parts x = .infinite s := by
  change x.toModel.unpack.isInf = true ↔ _
  unfold parts
  cases x.toModel.unpack <;> simp [UnpackedFloat.isInf]

theorem exists_parts {x : Float} {q : ℚ} (h : toRat? x = some q) :
    ∃ s m e, parts x = .finite s m e ∧ q = signed s m * 2 ^ e := by
  unfold toRat? at h
  cases hx : parts x with
  | notNumber => rw [hx] at h; cases h
  | infinite s => rw [hx] at h; cases h
  | finite s m e =>
    rw [hx] at h
    cases h
    exact ⟨s, m, e, rfl, rfl⟩

/-- A number that is no infinity is some rational. -/
theorem exists_toRat? {x : Float} (number : x.isNaN = false) (bounded : x.isInf = false) :
    ∃ q, toRat? x = some q := by
  unfold toRat?
  cases h : parts x with
  | notNumber =>
    rw [(isNaN_iff x).mpr h] at number
    cases number
  | infinite s =>
    rw [(isInf_iff x).mpr ⟨s, h⟩] at bounded
    cases bounded
  | finite s m e => exact ⟨_, rfl⟩

theorem finite_of_parts {x : Float} {s : Bool} {m : Nat} {e : Int} (h : parts x = .finite s m e) :
    x.isNaN = false ∧ x.isInf = false := by
  constructor
  · refine Bool.eq_false_iff.mpr fun undefined => ?_
    rw [(isNaN_iff x).mp undefined] at h
    cases h
  · refine Bool.eq_false_iff.mpr fun infinite => ?_
    obtain ⟨s', hx⟩ := (isInf_iff x).mp infinite
    rw [hx] at h
    cases h

theorem finite_of_toRat? {x : Float} {q : ℚ} (h : toRat? x = some q) :
    x.isNaN = false ∧ x.isInf = false := by
  obtain ⟨s, m, e, hx, _⟩ := exists_parts h
  exact finite_of_parts hx

theorem quotient_eq (m : Nat) (e : Int) :
    ((m * powerOfTwo e : Nat) : ℚ) / (powerOfTwo (-e) : Nat) = m * 2 ^ e := by
  have pos : (powerOfTwo (-e) : ℚ) ≠ 0 := by exact_mod_cast (powerOfTwo_pos (-e)).ne'
  rw [Nat.cast_mul, powerOfTwo_eq e, ← mul_assoc, mul_div_cancel_right₀ _ pos]

/-- The integer that a double is taken to is the nearest one. -/
theorem exists_nearest? {x : Float} {q : ℚ} (h : toRat? x = some q) :
    ∃ n, nearest? x = some n ∧ IsNearestInteger q n := by
  obtain ⟨s, m, e, hx, rfl⟩ := exists_parts h
  refine ⟨_, by rw [nearest?, hx], ?_⟩
  have nearest := isNearestInteger_nearestQuotient (m * powerOfTwo e) (powerOfTwo_pos (-e))
  rw [quotient_eq] at nearest
  cases s with
  | false => exact nearest
  | true =>
    have mirrored := nearest.neg
    rw [← neg_mul] at mirrored
    change IsNearestInteger ((-(m : Int) : Int) * 2 ^ e) (-(nearestQuotient _ _ : Int))
    rw [Int.cast_neg, Int.cast_natCast]
    exact mirrored

end Double

namespace Value

/-- The number that a real value stands for. -/
def toRat? (v : Value) : Option ℚ :=
  match v with
  | double x => Double.toRat? x
  | int n => some n
  | bool b => some b.toInt
  | _ => none

/-- A real number that doubles have in their range. -/
def IsRepresentable (v : Value) : Prop := ∃ x, v.toDouble = .ok x

theorem isRepresentable_int {n : Int} (le : n.natAbs ≤ 2 ^ 53) : (int n).IsRepresentable :=
  ⟨Double.nearestToInt n, Double.ofInt_eq le⟩

theorem toRat?_of_integer? {v : Value} {n : Int} (h : v.integer? = some n) :
    v.toRat? = some (n : ℚ) := by
  cases v <;> cases h <;> rfl

theorem exists_nearestInteger {v : Value} {q : ℚ} (h : v.toRat? = some q) :
    ∃ n, v.nearestInteger = .ok n ∧ IsNearestInteger q n := by
  cases v with
  | double x =>
    obtain ⟨n, hn, nearest⟩ := Double.exists_nearest? h
    refine ⟨n, ?_, nearest⟩
    unfold nearestInteger
    simp only [hn]
  | int n =>
    cases h
    exact ⟨n, rfl, isNearestInteger_intCast n⟩
  | bool b =>
    cases h
    exact ⟨b.toInt, rfl, isNearestInteger_intCast b.toInt⟩
  | _ => cases h

theorem toDouble_of_integer? {v : Value} {x : Float} {n : Int} (hv : v.integer? = some n)
    (h : v.toDouble = .ok x) : x.isNaN = false ∧ x.isInf = false := by
  cases v with
  | int k =>
    rw [toDouble_int_eq_ok h]
    refine ⟨Double.isNaN_nearestToInt k, ?_⟩
    cases infinite : (Double.nearestToInt k).isInf with
    | false => rfl
    | true =>
      change (if _ then _ else _) = _ at h
      rw [if_pos infinite] at h
      cases h
  | bool b =>
    cases h
    cases b <;> decide
  | _ => cases hv

theorem eq_double_of_isInf {v : Value} {x : Float} (h : v.toDouble = .ok x)
    (infinite : x.isInf = true) : v = double x := by
  cases hv : v.integer? with
  | some n =>
    rw [(toDouble_of_integer? hv h).2] at infinite
    cases infinite
  | none =>
    cases v with
    | double y =>
      cases h
      rfl
    | int n => cases hv
    | bool b => cases hv
    | _ => cases h

theorem exists_toRat? {v : Value} {x : Float} (h : v.toDouble = .ok x) (number : x.isNaN = false)
    (bounded : x.isInf = false) : ∃ q, v.toRat? = some q := by
  cases v with
  | double y =>
    cases h
    exact Double.exists_toRat? number bounded
  | int n => exact ⟨n, rfl⟩
  | bool b => exact ⟨b.toInt, rfl⟩
  | _ => cases h

theorem finite_of_toRat? {v : Value} {x : Float} {q : ℚ} (hq : v.toRat? = some q)
    (h : v.toDouble = .ok x) : x.isNaN = false ∧ x.isInf = false := by
  cases v with
  | double y =>
    cases h
    exact Double.finite_of_toRat? hq
  | int n => exact toDouble_of_integer? (n := n) rfl h
  | bool b => exact toDouble_of_integer? (n := b.toInt) rfl h
  | _ => cases h

end Value

end FiniteCalculus
