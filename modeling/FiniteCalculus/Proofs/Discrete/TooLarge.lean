import FiniteCalculus.Proofs.Discrete.Exact
import FiniteCalculus.Proofs.Discrete.RoundedDivisors

/-! Integers that leave the range of doubles. Every list of doubles is read, and the integers that
are handed on are in the range. A least common multiple can be beyond it, and so can the double of
an integer that Catalan numbers start with. Nothing else goes wrong. -/

namespace FiniteCalculus
set_option autoImplicit false

namespace Rounding
variable {r : Rounding}

/-- An undefined double, an infinity or a zero settles the result, and all doubles are finite
otherwise. -/
theorem read_doubles_cases (everywhere : ∀ position, r.rounds position = true)
    (fixed : ∀ result, r.zeroResult = some result → ∃ z, result = .double z) (xs : List Float)
    (position : Nat) :
    (∃ z, r.read position (xs.map .double) = .ok (.settled (.double z))) ∨
      ∀ x ∈ xs, x.isNaN = false ∧ x.isInf = false := by
  induction xs generalizing position with
  | nil => exact .inr (by simp)
  | cons x xs ih =>
    by_cases finite : x.isNaN = false ∧ x.isInf = false
    · obtain ⟨q, value⟩ := Double.exists_toRat? finite.1 finite.2
      obtain ⟨n, _, nearest⟩ := Double.exists_nearest? value
      by_cases unsettled : r.zeroResult = none ∨ n ≠ 0
      · rw [List.map_cons, read_double everywhere ⟨q, value, nearest⟩ position unsettled]
        rcases ih (position + 1) with ⟨z, settled⟩ | rest
        · refine .inl ⟨z, ?_⟩
          rw [settled]
          rfl
        · exact .inr (List.forall_mem_cons.mpr ⟨finite, rest⟩)
      · obtain ⟨some, zero⟩ := not_or.mp unsettled
        obtain ⟨result, given⟩ := Option.ne_none_iff_exists'.mp some
        obtain ⟨z, rfl⟩ := fixed result given
        rw [not_not.mp zero] at nearest
        have value' : (Value.double x).toRat? = _ := value
        exact .inl ⟨z, read_of_settles (.zero (everywhere position) value' nearest given)
          ⟨x, rfl⟩ _⟩
    · refine .inl ⟨Double.nan, ?_⟩
      cases undefined : x.isNaN with
      | true => exact read_of_settles (.undefined undefined) ⟨x, rfl⟩ _
      | false =>
        have infinite : x.isInf = true := by
          rw [← Bool.not_eq_false]
          exact fun bounded => finite ⟨undefined, bounded⟩
        exact read_of_settles (.infinite (everywhere position) infinite) ⟨x, rfl⟩ _

end Rounding

namespace Discrete

/-! Least common multiples. -/

/-- The least common multiple of the nearest integers is beyond all doubles. -/
def MultipleTooLarge (xs : List Float) : Prop :=
  ∃ ns l, List.Forall₂ Double.RoundsToInteger xs ns ∧ IsLeastCommonMultiple ns l ∧
    Double.overflow ≤ (l : ℚ)

theorem two_le_length {ns : List Int} {l : Int} (h : IsLeastCommonMultiple ns l)
    (small : ∀ n ∈ ns, |(n : ℚ)| < Double.overflow) (large : Double.overflow ≤ (l : ℚ)) :
    2 ≤ ns.length := by
  have positive : (1 : ℚ) < Double.overflow := by
    simpa using Double.pow_lt_overflow (k := 0) (by decide)
  match ns with
  | [] =>
    have one : l ∣ 1 := h.least 1 (by simp)
    have le : (l : ℚ) ≤ 1 := by exact_mod_cast Int.le_of_dvd (by decide) one
    linarith
  | [n] =>
    have multiple : l ∣ n := h.least n (by simp)
    rcases eq_or_ne n 0 with rfl | nonzero
    · rw [h.eq_zero (by simp), Int.cast_zero] at large
      linarith
    · have le := abs_le_of_dvd multiple nonzero
      linarith [small n (by simp), le_abs_self (l : ℚ)]
  | _ :: _ :: _ => simp

section
variable {xs : List Float} {ns : List Int}

theorem exists_lcm_of_small (short : ∀ n ∈ ns, |(n : ℚ)| < Double.overflow)
    (small : ∀ l, IsLeastCommonMultiple ns l → (l : ℚ) < Double.overflow) :
    ∃ z, (ofIntegers "lcm" leastCommonMultiple).apply (ns.map .int) = .ok (.double z) := by
  match ns with
  | [] => exact ⟨Double.nan, rfl⟩
  | [n] =>
    obtain ⟨x, hx, _⟩ := (gives_ofInt n).within (short n (by simp))
    exact ⟨x, (apply_combined "lcm" commonMultiple n []).trans hx⟩
  | n :: m :: ms =>
    have two : 2 ≤ (n :: m :: ms).length := by simp
    obtain ⟨l, hl, given⟩ := exists_lcm two
    have positive : (0 : ℚ) ≤ l := by exact_mod_cast hl.nonneg
    obtain ⟨x, hx, _⟩ := (gives_ofInt l).within (by rw [abs_of_nonneg positive]; exact small l hl)
    exact ⟨x, given.trans hx⟩

theorem rounded_lcm_error (large : MultipleTooLarge xs) :
    (Catalogue.rounded (ofIntegers "lcm" leastCommonMultiple)).apply (xs.map .double) =
      .error .integerTooLarge := by
  obtain ⟨ns, l, nearest, least, beyond⟩ := large
  have short := fun n hn => (isShort_of_roundsToInteger nearest n hn).2
  obtain ⟨l', least', given⟩ := exists_lcm (two_le_length least short beyond)
  obtain rfl := least.eq least' fun _ => .rfl
  rw [apply_rounded_lcm nearest, given]
  exact (gives_ofInt l).beyond (beyond.trans (le_abs_self _))

theorem exists_rounded_lcm (small : ¬ MultipleTooLarge xs) :
    ∃ z, (Catalogue.rounded (ofIntegers "lcm" leastCommonMultiple)).apply (xs.map .double) =
      .ok (.double z) := by
  have fixed (result : Value) (h : (Catalogue.roundingOf "lcm").zeroResult = some result) :
      ∃ z, result = .double z := ⟨0.0, (Option.some.inj h).symm⟩
  rcases Rounding.read_doubles_cases (everywhere_of_variadic "lcm" (by decide)) fixed xs 0 with
    ⟨z, settled⟩ | finite
  · exact ⟨z, Rounding.apply_of_settled _ settled⟩
  · obtain ⟨ns, nearest⟩ := Double.exists_roundsToInteger finite
    rw [apply_rounded_lcm nearest]
    refine exists_lcm_of_small (fun n hn => (isShort_of_roundsToInteger nearest n hn).2)
      fun l least => ?_
    by_contra beyond
    exact small ⟨ns, l, nearest, least, not_lt.mp beyond⟩

end

/-! Catalan numbers. -/

/-- The double of the nearest integer is beyond all doubles. -/
def IndexTooLarge (x : Float) : Prop := ∃ q, Double.toRat? x = some q ∧ 2 ^ 1023 ≤ |q|

section
variable {m n : Int}

theorem abs_lt_overflow_mono (le : m.natAbs ≤ n.natAbs) (small : |(n : ℚ)| < Double.overflow) :
    |(m : ℚ)| < Double.overflow := by
  refine lt_of_le_of_lt ?_ small
  rw [← Int.cast_abs, ← Int.cast_abs, Int.abs_eq_natAbs, Int.abs_eq_natAbs]
  exact_mod_cast le

theorem abs_two_mul (n : Int) : |((2 * n : Int) : ℚ)| = 2 * |(n : ℚ)| := by
  rw [Int.cast_mul, abs_mul, Int.cast_ofNat, abs_two]

/-- Twice an integer that is a double is one, too, or it is beyond all doubles. -/
theorem abs_two_mul_lt_overflow_iff (short : Double.IsShort n) :
    |((2 * n : Int) : ℚ)| < Double.overflow ↔ |(n : ℚ)| < 2 ^ 1023 := by
  have twice : (2 : ℚ) ^ 1024 = 2 * 2 ^ 1023 := pow_succ' 2 1023
  rw [abs_two_mul]
  constructor
  · intro small
    have less := Double.overflow_le_pow
    rw [twice] at less
    generalize (2 : ℚ) ^ 1023 = top at *
    linarith
  · intro small
    obtain ⟨c, s, lt, value⟩ := short
    have size : |(n : ℚ)| = c * 2 ^ s := by
      rw [← Int.cast_abs, Int.abs_eq_natAbs, value]
      push_cast
      rfl
    rcases Nat.eq_zero_or_pos c with rfl | pos
    · rw [size, Nat.cast_zero, zero_mul, mul_zero]
      exact (pow_pos (by norm_num) 0).trans (Double.pow_lt_overflow (k := 0) (by decide))
    · have unit : (2 : ℚ) ^ ((s : Int) + 1) = 2 * 2 ^ s := by
        rw [← Nat.cast_succ, zpow_natCast, pow_succ']
      have double : 2 * |(n : ℚ)| = c * 2 ^ ((s : Int) + 1) := by
        rw [size, unit]
        ring
      have high : (c : ℚ) * 2 ^ ((s : Int) + 1) < 2 ^ 1024 := by
        rw [← double, twice]
        exact mul_lt_mul_of_pos_left small (by norm_num)
      have low : Double.leastExponent + 52 ≤ (s : Int) + 1 := by
        change -1074 + 52 ≤ (s : Int) + 1
        omega
      obtain ⟨x, hx⟩ := Double.exists_toRat?_of_short false pos lt.le low high
      have bound := Double.abs_lt_overflow hx
      rwa [Double.abs_signed_mul, ← double] at bound

theorem indexTooLarge_iff {x : Float} (nearest : Double.RoundsToInteger x n) :
    IndexTooLarge x ↔ 2 ^ 1023 ≤ |(n : ℚ)| := by
  obtain ⟨q, hq, near⟩ := nearest
  have same : 2 ^ 1023 ≤ |q| ↔ 2 ^ 1023 ≤ |(n : ℚ)| := by
    rcases Double.multiple_or_small hq 0 with ⟨z, whole⟩ | ⟨fraction, _⟩
    · rw [zpow_zero, mul_one] at whole
      rw [whole] at near ⊢
      rw [isNearestInteger_intCast_iff.mp near]
    · have less : (2 : ℚ) ^ 52 < 2 ^ 1023 := pow_lt_pow_right₀ (by norm_num) (by decide)
      have fraction' : |q| ≤ ((2 ^ 52 : Int) : ℚ) := by exact_mod_cast fraction.le
      obtain ⟨above, below⟩ := abs_le.mp fraction'
      have upper := near.le_of_ge below
      have lower : -2 ^ 52 ≤ n := near.le_of_le (by exact_mod_cast above)
      have bound : |n| ≤ 2 ^ 52 := abs_le.mpr ⟨lower, upper⟩
      have bound' : |(n : ℚ)| ≤ 2 ^ 52 := by exact_mod_cast bound
      have fraction'' : |q| ≤ 2 ^ 52 := by exact_mod_cast fraction'
      exact iff_of_false (not_le.mpr (fraction''.trans_lt less)) (not_le.mpr (bound'.trans_lt less))
  rw [← same]
  constructor
  · rintro ⟨q', hq', large⟩
    rwa [Option.some.inj (hq.symm.trans hq')]
  · exact fun large => ⟨q, hq, large⟩

theorem roundsToInteger_nearestToInt {x : Float} (short : Double.IsShort n)
    (small : |(n : ℚ)| < Double.overflow) (same : Double.nearestToInt n = x) :
    Double.RoundsToInteger x n := by
  refine ⟨n, ?_, isNearestInteger_intCast n⟩
  rw [← same]
  exact short.toRat?_nearestToInt small

/-! The least double whose double is too large. -/

theorem natAbs_two_pow (s : Nat) : ((2 : Int) ^ s).natAbs = 2 ^ s := Int.natAbs_pow 2 s

theorem abs_two_pow (s : Nat) : |((2 ^ s : Int) : ℚ)| = 2 ^ s := by
  rw [Int.cast_pow, Int.cast_ofNat, abs_of_nonneg (pow_nonneg (by norm_num) s)]

theorem commonMultiple_two_pow_three (s : Nat) : commonMultiple (2 ^ s) 3 = 2 ^ s * 3 := by
  have coprime : (2 ^ s).Coprime 3 := Nat.Coprime.pow_left s (by decide)
  have three : Int.natAbs 3 = 3 := rfl
  rw [commonMultiple_eq_lcm, Int.lcm, natAbs_two_pow, three, coprime.lcm_eq_mul, Nat.cast_mul,
    Nat.cast_pow]
  rfl

theorem roundsToInteger_top : Double.RoundsToInteger 8.98846567431158e307 (2 ^ 1023) := by
  refine roundsToInteger_nearestToInt ⟨1, 1023, by decide, ?_⟩ ?_ (by decide +kernel)
  · rw [natAbs_two_pow, Nat.one_mul]
  · rw [abs_two_pow]
    exact Double.pow_lt_overflow (le_refl _)

theorem roundsToInteger_three : Double.RoundsToInteger 3.0 3 :=
  roundsToInteger_nearestToInt (Double.isShort_of_le (by decide))
    (Double.abs_lt_overflow_of_le (by decide)) (by decide)

theorem indexTooLarge_top : IndexTooLarge 8.98846567431158e307 :=
  (indexTooLarge_iff roundsToInteger_top).mpr (abs_two_pow 1023).ge

theorem multipleTooLarge_top : MultipleTooLarge [8.98846567431158e307, 3.0] := by
  have multiple := isLeastCommonMultiple_foldl (2 ^ 1023) (List.cons_ne_nil 3 [])
  rw [List.foldl_cons, List.foldl_nil, commonMultiple_two_pow_three] at multiple
  refine ⟨[2 ^ 1023, 3], 2 ^ 1023 * 3,
    .cons roundsToInteger_top (.cons roundsToInteger_three .nil), multiple, ?_⟩
  have less := Double.overflow_le_pow
  have twice : (2 : ℚ) ^ 1024 = 2 * 2 ^ 1023 := pow_succ' 2 1023
  have positive : (0 : ℚ) ≤ 2 ^ 1023 := pow_nonneg (by norm_num) 1023
  rw [twice] at less
  rw [Int.cast_mul, Int.cast_pow, Int.cast_ofNat, Int.cast_ofNat]
  calc Double.overflow ≤ 2 * 2 ^ 1023 := less
    _ = 2 ^ 1023 * 2 := mul_comm _ _
    _ ≤ 2 ^ 1023 * 3 := mul_le_mul_of_nonneg_left (by norm_num) positive

variable [Transcendentals]

theorem exists_productFrom {f : Nat → Except Fault Float} {a k : Nat}
    (factors : ∀ i < k, ∃ x, f (a + i) = .ok x) : ∃ x, Scalar.productFrom a k f = .ok x := by
  induction k with
  | zero => exact ⟨1.0, rfl⟩
  | succ k ih =>
    obtain ⟨total, before⟩ := ih fun i hi => factors i (hi.trans k.lt_succ_self)
    obtain ⟨x, last⟩ := factors k k.lt_succ_self
    rw [Scalar.productFrom_succ, before, ok_bind, last]
    exact ⟨total * x, rfl⟩

theorem exists_binomialOf (small : |((2 * n : Int) : ℚ)| < Double.overflow) :
    ∃ x, binomialOf (.int (2 * n)) n = .ok x := by
  have within (m : Int) (le : m.natAbs ≤ (2 * n).natAbs) : ∃ x, Double.ofInt m = .ok x :=
    ⟨_, Double.ofInt_eq_of_abs_lt (abs_lt_overflow_mono le small)⟩
  obtain ⟨z, hz⟩ := within (2 * n) (le_refl _)
  rw [binomialOf, Value.isNaN_int hz, ok_bind, if_neg Bool.false_ne_true]
  by_cases negative : n < 0
  · exact ⟨Double.nan, if_pos negative⟩
  · obtain ⟨above, ha⟩ := exists_productFrom (a := 0) (k := n.toNat)
      (f := fun i => do (← (Value.int (2 * n)).sub (.int i)).toDouble)
      fun i hi => within (2 * n - (0 + i : Nat)) (by omega)
    obtain ⟨below, hb⟩ := exists_productFrom (a := 2) (k := n.toNat - 1)
      (f := fun i => Scalar.ofInt i) fun i hi => within (2 + i : Nat) (by omega)
    rw [if_neg negative, binomial, ha, ok_bind, hb]
    exact ⟨above / below, rfl⟩

theorem exists_catalanOf (small : |((2 * n : Int) : ℚ)| < Double.overflow) :
    ∃ x, catalanOf n = .ok x := by
  obtain ⟨ways, hw⟩ := exists_binomialOf small
  obtain ⟨divisor, hd⟩ : ∃ x, Double.ofInt (n + 1) = .ok x := by
    by_cases zero : n = 0
    · exact ⟨_, Double.ofInt_eq (by omega)⟩
    · exact ⟨_, Double.ofInt_eq_of_abs_lt (abs_lt_overflow_mono (by omega) small)⟩
  rw [catalanOf, hw, ok_bind, hd]
  exact ⟨_, rfl⟩

theorem catalanOf_error (large : Double.overflow ≤ |((2 * n : Int) : ℚ)|) :
    catalanOf n = .error .integerTooLarge := by
  have test : (Value.int (2 * n)).isNaN = .error .integerTooLarge := by
    rw [Value.isNaN, Value.toDouble, Double.ofInt_eq_error large]
    rfl
  rw [catalanOf, binomialOf, test]
  rfl

theorem apply_rounded_catalan {x : Float} (nearest : Double.RoundsToInteger x n) :
    (Catalogue.rounded (ofInteger "catalan_number" catalanOf)).apply [.double x] =
      asValue (catalanOf n) :=
  Rounding.apply_of_ready _ (Rounding.read_doubles
    (everywhere_of_variadic "catalan_number" (by decide)) (.cons nearest .nil) 0 (.inl rfl))

theorem rounded_catalan_error {x : Float} (large : IndexTooLarge x) :
    (Catalogue.rounded (ofInteger "catalan_number" catalanOf)).apply [.double x] =
      .error .integerTooLarge := by
  obtain ⟨q, hq, bound⟩ := large
  obtain ⟨n, _, near⟩ := Double.exists_nearest? hq
  have nearest : Double.RoundsToInteger x n := ⟨q, hq, near⟩
  have beyond := mt (abs_two_mul_lt_overflow_iff (Double.isShort_of_nearest hq near).1).mp
    (not_lt.mpr ((indexTooLarge_iff nearest).mp ⟨q, hq, bound⟩))
  rw [apply_rounded_catalan nearest, catalanOf_error (not_lt.mp beyond)]
  rfl

theorem exists_rounded_catalan {x : Float} (small : ¬ IndexTooLarge x) :
    ∃ z, (Catalogue.rounded (ofInteger "catalan_number" catalanOf)).apply [.double x] =
      .ok (.double z) := by
  have free (result : Value)
      (h : (Catalogue.roundingOf "catalan_number").zeroResult = some result) :
      ∃ z, result = .double z := by cases h
  rcases Rounding.read_doubles_cases (everywhere_of_variadic "catalan_number" (by decide)) free
    [x] 0 with ⟨z, settled⟩ | finite
  · exact ⟨z, Rounding.apply_of_settled _ settled⟩
  · obtain ⟨number, bounded⟩ := finite x List.mem_cons_self
    obtain ⟨q, hq⟩ := Double.exists_toRat? number bounded
    obtain ⟨n, _, near⟩ := Double.exists_nearest? hq
    have nearest : Double.RoundsToInteger x n := ⟨q, hq, near⟩
    have within := not_le.mp (mt (indexTooLarge_iff nearest).mpr small)
    obtain ⟨z, hz⟩ := exists_catalanOf
      ((abs_two_mul_lt_overflow_iff (Double.isShort_of_nearest hq near).1).mpr within)
    rw [apply_rounded_catalan nearest, hz]
    exact ⟨z, rfl⟩

/-- The least common multiple of doubles and the Catalan number of a double are doubles, for
undefined numbers and infinities, too, unless the one or twice the nearest integer is beyond all
doubles. Then the fault is that an integer is too large. -/
theorem faults_iff_tooLarge :
    (∃ f, Catalogue.find? Catalogue.special "lcm" = some f ∧ ∀ xs : List Float,
      (MultipleTooLarge xs → f.apply (xs.map .double) = .error .integerTooLarge) ∧
      (¬ MultipleTooLarge xs → ∃ z, f.apply (xs.map .double) = .ok (.double z))) ∧
    ∃ f, Catalogue.find? Catalogue.special "catalan_number" = some f ∧ ∀ x : Float,
      (IndexTooLarge x → f.apply [.double x] = .error .integerTooLarge) ∧
      (¬ IndexTooLarge x → ∃ z, f.apply [.double x] = .ok (.double z)) :=
  ⟨⟨_, rfl, fun _ => ⟨rounded_lcm_error, exists_rounded_lcm⟩⟩,
    _, rfl, fun _ => ⟨rounded_catalan_error, exists_rounded_catalan⟩⟩

end

/-- Neither undefined numbers nor small integers are a fault, but multiples of 2 ^ 1023 are. -/
theorem faults_at_top : ∃ y z,
    (Catalogue.rounded (ofIntegers "lcm" leastCommonMultiple)).apply
      ([4.0, Double.nan].map .double) = .ok (.double y) ∧
    (Catalogue.rounded (ofIntegers "lcm" leastCommonMultiple)).apply
      ([8.98846567431158e307, 3.0].map .double) = .error .integerTooLarge ∧
    (Catalogue.rounded (ofInteger "catalan_number" catalanOf)).apply [.double 3.0] =
      .ok (.double z) ∧
    (Catalogue.rounded (ofInteger "catalan_number" catalanOf)).apply
      [.double 8.98846567431158e307] = .error .integerTooLarge := by
  obtain ⟨⟨f, found, multiples⟩, g, found', catalan⟩ := faults_iff_tooLarge
  obtain rfl := Option.some.inj found
  obtain rfl := Option.some.inj found'
  have undefined : ¬ MultipleTooLarge [4.0, Double.nan] := by
    rintro ⟨ns, l, nearest, _⟩
    cases nearest with
    | cons _ rest =>
      cases rest with
      | cons last _ =>
        obtain ⟨q, hq, _⟩ := last
        have number := (Double.finite_of_toRat? hq).1
        rw [show Double.nan.isNaN = true by decide] at number
        cases number
  have small : ¬ IndexTooLarge 3.0 := by
    rw [indexTooLarge_iff roundsToInteger_three, not_le]
    exact lt_of_le_of_lt (by norm_num) (pow_lt_pow_right₀ (by norm_num) (by decide : 2 < 1023))
  obtain ⟨y, hy⟩ := (multiples _).2 undefined
  obtain ⟨z, hz⟩ := (catalan _).2 small
  exact ⟨y, z, hy, (multiples _).1 multipleTooLarge_top, hz, (catalan _).1 indexTooLarge_top⟩

/-- The least common multiple of 2 ^ 1023 and 3 is too large, and so is twice 2 ^ 1023. -/
theorem top_tooLarge : ∃ f g, Catalogue.find? Catalogue.special "lcm" = some f ∧
    Catalogue.find? Catalogue.special "catalan_number" = some g ∧
    f.apply ([8.98846567431158e307, 3.0].map .double) = .error .integerTooLarge ∧
    g.apply [.double 8.98846567431158e307] = .error .integerTooLarge :=
  ⟨_, _, rfl, rfl, rounded_lcm_error multipleTooLarge_top, rounded_catalan_error indexTooLarge_top⟩

end Discrete

end FiniteCalculus
