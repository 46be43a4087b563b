import FiniteCalculus.Proofs.Discrete.Divisors
import FiniteCalculus.Proofs.Double.ShortIntegers
import FiniteCalculus.Proofs.Rounding.Arguments

/-! Greatest common divisors and least common multiples of doubles, which are those of the
nearest integers. A common divisor of integers that are doubles is one itself, so that nothing
is rounded or too large in the end. Common multiples are rounded, and a zero among the numbers,
which ends the reading at once, gives what it would give in the end. -/

namespace FiniteCalculus
set_option autoImplicit false

/-- The integer that a double is rounded to. -/
def Double.RoundsToInteger (x : Float) (n : Int) : Prop :=
  ∃ q, Double.toRat? x = some q ∧ IsNearestInteger q n

theorem Double.exists_roundsToInteger {xs : List Float}
    (finite : ∀ x ∈ xs, x.isNaN = false ∧ x.isInf = false) :
    ∃ ns, List.Forall₂ Double.RoundsToInteger xs ns := by
  induction xs with
  | nil => exact ⟨[], .nil⟩
  | cons x xs ih =>
    obtain ⟨⟨number, bounded⟩, rest⟩ := List.forall_mem_cons.mp finite
    obtain ⟨q, hq⟩ := Double.exists_toRat? number bounded
    obtain ⟨n, _, nearest⟩ := Double.exists_nearest? hq
    obtain ⟨ns, hns⟩ := ih rest
    exact ⟨n :: ns, .cons ⟨q, hq, nearest⟩ hns⟩

namespace Rounding
variable {r : Rounding} (everywhere : ∀ position, r.rounds position = true)
include everywhere

/-- A finite double is handed on as its nearest integer, unless this is a zero that settles the
result. -/
theorem read_double {x : Float} {n : Int} (h : Double.RoundsToInteger x n) (position : Nat)
    (unsettled : r.zeroResult = none ∨ n ≠ 0) (after : List Value) :
    r.read position (.double x :: after) =
      return (← r.read (position + 1) after).cons (.int n) := by
  obtain ⟨q, hq, nearest⟩ := h
  obtain ⟨number, bounded⟩ := Double.finite_of_toRat? hq
  have passes : r.Passes position (.double x) := by
    refine ⟨⟨x, rfl⟩, fun ⟨result, settles⟩ => ?_⟩
    cases settles with
    | undefined undefined =>
      rw [number] at undefined
      cases undefined
    | infinite _ infinite =>
      rw [bounded] at infinite
      cases infinite
    | zero _ value zero given =>
      obtain rfl := Option.some.inj (hq.symm.trans value)
      rcases unsettled with none | nonzero
      · rw [none] at given
        cases given
      · exact nonzero (nearest.unique zero)
  obtain ⟨u, handed, step⟩ := read_of_passes passes
  rw [step, handed.eq_int (everywhere position) hq nearest]

theorem read_doubles {xs : List Float} {ns : List Int}
    (h : List.Forall₂ Double.RoundsToInteger xs ns) (position : Nat)
    (unsettled : r.zeroResult = none ∨ 0 ∉ ns) :
    r.read position (xs.map .double) = .ok (.ready (ns.map .int)) := by
  induction h generalizing position with
  | nil => rfl
  | @cons x n xs ns first rest ih =>
    have here : r.zeroResult = none ∨ n ≠ 0 :=
      unsettled.imp_right fun nonzero zero => nonzero (zero ▸ List.mem_cons_self)
    have later := ih (position + 1) (unsettled.imp_right (mt (List.mem_cons_of_mem n)))
    rw [List.map_cons, read_double everywhere first position here, later]
    rfl

theorem read_doubles_of_zero {xs : List Float} {ns : List Int} {result : Value}
    (h : List.Forall₂ Double.RoundsToInteger xs ns) (position : Nat)
    (given : r.zeroResult = some result) (zero : 0 ∈ ns) :
    r.read position (xs.map .double) = .ok (.settled result) := by
  induction h generalizing position with
  | nil => cases zero
  | @cons x n xs ns first rest ih =>
    rcases eq_or_ne n 0 with rfl | nonzero
    · obtain ⟨q, hq, nearest⟩ := first
      have value : (Value.double x).toRat? = some q := hq
      exact read_of_settles (.zero (everywhere position) value nearest given) ⟨x, rfl⟩ _
    · have later := ih (position + 1) ((List.mem_cons.mp zero).resolve_left nonzero.symm)
      rw [List.map_cons, read_double everywhere first position (.inr nonzero), later]
      rfl

end Rounding

namespace Discrete

section
variable {xs : List Float} {ns : List Int}

theorem abs_le_of_dvd {g n : Int} (dvd : g ∣ n) (nonzero : n ≠ 0) : |(g : ℚ)| ≤ |(n : ℚ)| := by
  have le := Nat.le_of_dvd (Int.natAbs_pos.mpr nonzero) (Int.natAbs_dvd_natAbs.mpr dvd)
  rw [← Int.cast_abs, ← Int.cast_abs, Int.abs_eq_natAbs, Int.abs_eq_natAbs]
  exact_mod_cast le

theorem IsGreatestCommonDivisor.isShort {g : Int} (h : IsGreatestCommonDivisor ns g)
    (short : ∀ n ∈ ns, Double.IsShort n ∧ |(n : ℚ)| < Double.overflow) :
    Double.IsShort g ∧ |(g : ℚ)| < Double.overflow := by
  by_cases zeros : ∀ n ∈ ns, n = 0
  · rw [h.eq_zero zeros, Int.cast_zero, abs_zero]
    have positive := (pow_pos (by norm_num) 0).trans (Double.pow_lt_overflow (k := 0) (by decide))
    exact ⟨Double.isShort_zero, positive⟩
  · obtain ⟨n, hn⟩ := not_forall.mp zeros
    obtain ⟨mem, nonzero⟩ := Classical.not_imp.mp hn
    obtain ⟨fits, small⟩ := short n mem
    exact ⟨fits.of_dvd nonzero (h.dvd n mem), (abs_le_of_dvd (h.dvd n mem) nonzero).trans_lt small⟩

theorem isShort_of_roundsToInteger (h : List.Forall₂ Double.RoundsToInteger xs ns) :
    ∀ n ∈ ns, Double.IsShort n ∧ |(n : ℚ)| < Double.overflow := by
  induction h with
  | nil => simp
  | cons first _ ih =>
    obtain ⟨q, hq, nearest⟩ := first
    exact List.forall_mem_cons.mpr ⟨Double.isShort_of_nearest hq nearest, ih⟩

theorem asValue_of_isShort {n : Int} (h : Double.IsShort n) (small : |(n : ℚ)| < Double.overflow) :
    ∃ z, asValue (Double.ofInt n) = .ok (.double z) ∧ Double.toRat? z = some (n : ℚ) := by
  refine ⟨Double.nearestToInt n, ?_, h.toRat?_nearestToInt small⟩
  rw [Double.ofInt_eq_of_abs_lt small]
  rfl

theorem everywhere_of_variadic (name : String)
    (h : ¬ (name = "binom_coeff" ∨ name = "generalized_harmonic_number")) (position : Nat) :
    (Catalogue.roundingOf name).rounds position = true := by
  have all : (Catalogue.roundingOf name).positions = none := if_neg h
  rw [Rounding.rounds, all]
  rfl

theorem apply_lcm_of_zero (zero : 0 ∈ ns) :
    (ofIntegers "lcm" leastCommonMultiple).apply (ns.map .int) = .ok (.double 0.0) := by
  cases ns with
  | nil => cases zero
  | cons n ns =>
    have exact : Double.ofInt 0 = .ok 0.0 := by
      rw [Double.ofInt_eq (by decide)]
      exact congrArg Except.ok (by decide)
    rw [leastCommonMultiple, apply_combined, foldl_commonMultiple_eq_zero zero, exact]
    rfl

theorem apply_rounded_gcd (h : List.Forall₂ Double.RoundsToInteger xs ns) :
    (Catalogue.rounded (ofIntegers "gcd" greatestCommonDivisor)).apply (xs.map .double) =
      (ofIntegers "gcd" greatestCommonDivisor).apply (ns.map .int) :=
  Rounding.apply_of_ready _ (Rounding.read_doubles (everywhere_of_variadic "gcd" (by decide)) h 0
    (.inl rfl))

/-- A zero ends the reading with what the integers give, too. -/
theorem apply_rounded_lcm (h : List.Forall₂ Double.RoundsToInteger xs ns) :
    (Catalogue.rounded (ofIntegers "lcm" leastCommonMultiple)).apply (xs.map .double) =
      (ofIntegers "lcm" leastCommonMultiple).apply (ns.map .int) := by
  have everywhere := everywhere_of_variadic "lcm" (by decide)
  by_cases zero : 0 ∈ ns
  · rw [apply_lcm_of_zero zero]
    exact Rounding.apply_of_settled _ (Rounding.read_doubles_of_zero everywhere h 0 rfl zero)
  · exact Rounding.apply_of_ready _ (Rounding.read_doubles everywhere h 0 (.inr zero))

theorem exists_rounded_gcd (nonempty : xs ≠ [])
    (h : List.Forall₂ Double.RoundsToInteger xs ns) :
    ∃ z, (Catalogue.rounded (ofIntegers "gcd" greatestCommonDivisor)).apply (xs.map .double) =
        .ok (.double z) ∧
      (∀ n, ns = [n] → Double.toRat? z = some (n : ℚ)) ∧
      (2 ≤ ns.length → ∃ g, IsGreatestCommonDivisor ns g ∧ Double.toRat? z = some (g : ℚ)) := by
  have short := isShort_of_roundsToInteger h
  rw [apply_rounded_gcd h]
  match ns, h with
  | [], h => exact absurd (List.forall₂_nil_right_iff.mp h) nonempty
  | [n], _ =>
    obtain ⟨fits, small⟩ := short n (by simp)
    obtain ⟨z, hz, exact⟩ := asValue_of_isShort fits small
    refine ⟨z, (apply_combined "gcd" commonDivisor n []).trans hz, fun m hm => ?_, by simp⟩
    rw [exact, (List.cons.inj hm).1]
  | n :: m :: ms, _ =>
    have two : 2 ≤ (n :: m :: ms).length := by simp
    obtain ⟨g, hg, apply⟩ := exists_gcd two
    obtain ⟨fits, small⟩ := hg.isShort short
    obtain ⟨z, hz, exact⟩ := asValue_of_isShort fits small
    exact ⟨z, apply.trans hz, by simp, fun _ => ⟨g, hg, exact⟩⟩

variable [Transcendentals]

/-- The divisions come to an end for every two numbers. The double that is given for two or more
integers is nearest to their greatest common divisor, and depends on their absolute values alone;
of doubles it is exactly that of the nearest integers. -/
theorem gcd_greatest :
    (∀ a b : Nat, ∃ k ≤ b, divisionStep^[k] (a, b) = (euclid a b, 0) ∧
      ∀ j < k, (divisionStep^[j] (a, b)).2 ≠ 0) ∧
    (∃ f, Catalogue.find? Catalogue.integers "gcd" = some f ∧
      ∀ ns : List Int, 2 ≤ ns.length →
        (∃ g, IsGreatestCommonDivisor ns g ∧ ((∀ n ∈ ns, n = 0) → g = 0) ∧
          Gives (f.apply (ns.map .int)) g) ∧
        ∀ ms : List Int, 2 ≤ ms.length → SameMagnitudes ns ms →
          f.apply (ns.map .int) = f.apply (ms.map .int)) ∧
    ∃ f, Catalogue.find? Catalogue.special "gcd" = some f ∧
      ∀ xs : List Float, xs ≠ [] → (∀ x ∈ xs, x.isNaN = false ∧ x.isInf = false) →
        ∃ ns, List.Forall₂ Double.RoundsToInteger xs ns ∧
          ∃ z, f.apply (xs.map .double) = .ok (.double z) ∧
            (∀ n, ns = [n] → Double.toRat? z = some (n : ℚ)) ∧
            (2 ≤ ns.length →
              ∃ g, IsGreatestCommonDivisor ns g ∧ Double.toRat? z = some (g : ℚ)) := by
  refine ⟨exists_iterate_divisionStep, ⟨ofIntegers "gcd" greatestCommonDivisor, rfl, ?_⟩,
    Catalogue.rounded (ofIntegers "gcd" greatestCommonDivisor), rfl, ?_⟩
  · intro ns two
    obtain ⟨g, hg, apply⟩ := exists_gcd two
    refine ⟨⟨g, hg, hg.eq_zero, ?_⟩, fun ms => gcd_congr two⟩
    rw [apply]
    exact gives_ofInt g
  · intro xs nonempty finite
    obtain ⟨ns, nearest⟩ := Double.exists_roundsToInteger finite
    exact ⟨ns, nearest, exists_rounded_gcd nonempty nearest⟩

theorem gcd_twelve_eighteen : ∃ x,
    (ofIntegers "gcd" greatestCommonDivisor).apply [.int 12, .int (-18)] = .ok (.double x) ∧
      Double.IsNearest 6 x := by
  obtain ⟨_, ⟨f, found, values⟩, _⟩ := gcd_greatest
  obtain rfl : ofIntegers "gcd" greatestCommonDivisor = f := Option.some.inj found
  obtain ⟨⟨g, hg, _, gives⟩, _⟩ := values [12, -18] (by decide)
  have folded := isGreatestCommonDivisor_foldl 12 (List.cons_ne_nil (-18) [])
  obtain rfl : g = 6 := (hg.eq folded fun _ => .rfl).trans (by decide +kernel)
  have small : |((6 : Int) : ℚ)| < Double.overflow :=
    lt_of_le_of_lt (by norm_num) (Double.pow_lt_overflow (k := 3) (by decide))
  exact gives.within small

/-- The double that is given for two or more integers is nearest to their least common multiple,
and depends on their absolute values alone; of doubles it is that of the nearest integers, though
a zero among them settles it. -/
theorem lcm_least :
    ∃ f, Catalogue.find? Catalogue.integers "lcm" = some f ∧
      (∀ ns : List Int, 2 ≤ ns.length →
        (∃ l, IsLeastCommonMultiple ns l ∧ (0 ∈ ns → l = 0) ∧ Gives (f.apply (ns.map .int)) l) ∧
        ∀ ms : List Int, 2 ≤ ms.length → SameMagnitudes ns ms →
          f.apply (ns.map .int) = f.apply (ms.map .int)) ∧
      ∃ g, Catalogue.find? Catalogue.special "lcm" = some g ∧
        ∀ xs : List Float, xs ≠ [] → (∀ x ∈ xs, x.isNaN = false ∧ x.isInf = false) →
          ∃ ns, List.Forall₂ Double.RoundsToInteger xs ns ∧
            g.apply (xs.map .double) = f.apply (ns.map .int) := by
  refine ⟨ofIntegers "lcm" leastCommonMultiple, rfl, ?_,
    Catalogue.rounded (ofIntegers "lcm" leastCommonMultiple), rfl, ?_⟩
  · intro ns two
    obtain ⟨l, hl, apply⟩ := exists_lcm two
    refine ⟨⟨l, hl, hl.eq_zero, ?_⟩, fun ms => lcm_congr two⟩
    rw [apply]
    exact gives_ofInt l
  · intro xs _ finite
    obtain ⟨ns, nearest⟩ := Double.exists_roundsToInteger finite
    exact ⟨ns, nearest, apply_rounded_lcm nearest⟩

theorem lcm_four_six : ∃ x,
    (ofIntegers "lcm" leastCommonMultiple).apply [.int 4, .int (-6)] = .ok (.double x) ∧
      Double.IsNearest 12 x := by
  obtain ⟨f, found, values, _⟩ := lcm_least
  obtain rfl : ofIntegers "lcm" leastCommonMultiple = f := Option.some.inj found
  obtain ⟨⟨l, hl, _, gives⟩, _⟩ := values [4, -6] (by decide)
  have folded := isLeastCommonMultiple_foldl 4 (List.cons_ne_nil (-6) [])
  obtain rfl : l = 12 := (hl.eq folded fun _ => .rfl).trans (by decide +kernel)
  have small : |((12 : Int) : ℚ)| < Double.overflow :=
    lt_of_le_of_lt (by norm_num) (Double.pow_lt_overflow (k := 4) (by decide))
  exact gives.within small

end

end Discrete

end FiniteCalculus
