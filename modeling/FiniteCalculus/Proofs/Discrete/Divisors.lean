import FiniteCalculus.Catalogue
import FiniteCalculus.Proofs.Double.Nearest
import Mathlib.Algebra.GCDMonoid.Nat
import Mathlib.Logic.Function.Iterate

/-! Greatest common divisors and least common multiples of lists of integers. A list that is
combined from the left has the common divisors, or multiples, of all its integers, which says
everything about the result but its sign, and so neither order nor signs nor repetitions
matter. -/

namespace FiniteCalculus
set_option autoImplicit false

namespace Discrete

/-- One division: the divisor comes first, and then what is left. -/
def divisionStep (p : Nat × Nat) : Nat × Nat := (p.2, p.1 % p.2)

/-- The divisions come to an end where nothing is left, and not before. -/
theorem exists_iterate_divisionStep (a b : Nat) :
    ∃ k ≤ b, divisionStep^[k] (a, b) = (euclid a b, 0) ∧
      ∀ j < k, (divisionStep^[j] (a, b)).2 ≠ 0 := by
  fun_induction euclid a b with
  | case1 a => exact ⟨0, le_refl _, rfl, by simp⟩
  | case2 a b nonzero ih =>
    obtain ⟨k, le, arrived, before⟩ := ih
    have less : a % b < b := Nat.mod_lt a (by omega)
    refine ⟨k + 1, by omega, arrived, fun j hj => ?_⟩
    cases j with
    | zero => exact nonzero
    | succ j => exact before j (by omega)

theorem euclid_eq_gcd (a b : Nat) : euclid a b = Nat.gcd a b := by
  fun_induction euclid a b with
  | case1 a => rw [Nat.gcd_zero_right]
  | case2 a b _ ih => rw [ih, Nat.gcd_comm b, ← Nat.gcd_rec, Nat.gcd_comm]

theorem commonDivisor_eq_gcd (a b : Int) : commonDivisor a b = Int.gcd a b := by
  rw [commonDivisor, euclid_eq_gcd]
  rfl

theorem commonMultiple_eq_lcm (a b : Int) : commonMultiple a b = Int.lcm a b := by
  unfold commonMultiple
  split
  · rename_i zero
    rcases zero with rfl | rfl
    · rw [Int.lcm_zero_left, Nat.cast_zero]
    · rw [Int.lcm_zero_right, Nat.cast_zero]
  · rw [commonDivisor_eq_gcd, Int.natAbs_mul, ← Int.natCast_div]
    rfl

theorem dvd_foldl_commonDivisor (d n : Int) (ns : List Int) :
    d ∣ ns.foldl commonDivisor n ↔ d ∣ n ∧ ∀ m ∈ ns, d ∣ m := by
  induction ns generalizing n with
  | nil => simp
  | cons m ns ih =>
    rw [List.foldl_cons, ih, commonDivisor_eq_gcd, Int.dvd_coe_gcd_iff, List.forall_mem_cons,
      and_assoc]

theorem foldl_commonMultiple_dvd (d n : Int) (ns : List Int) :
    ns.foldl commonMultiple n ∣ d ↔ n ∣ d ∧ ∀ m ∈ ns, m ∣ d := by
  induction ns generalizing n with
  | nil => simp
  | cons m ns ih =>
    rw [List.foldl_cons, ih, commonMultiple_eq_lcm, Int.coe_lcm_dvd_iff, List.forall_mem_cons,
      and_assoc]

theorem foldl_nonneg {op : Int → Int → Int} (nonneg : ∀ a b, 0 ≤ op a b) (n : Int)
    {ns : List Int} (some : ns ≠ []) : 0 ≤ ns.foldl op n := by
  obtain ⟨before, last, rfl⟩ := ns.eq_nil_or_concat.resolve_left some
  rw [List.concat_eq_append, List.foldl_append]
  exact nonneg _ _

/-- The integer from zero on that divides all integers of a list, and that all their common
divisors divide. -/
structure IsGreatestCommonDivisor (ns : List Int) (g : Int) : Prop where
  nonneg : 0 ≤ g
  dvd : ∀ n ∈ ns, g ∣ n
  greatest : ∀ d, (∀ n ∈ ns, d ∣ n) → d ∣ g

/-- The integer from zero on that all integers of a list divide, and that divides all their
common multiples. -/
structure IsLeastCommonMultiple (ns : List Int) (l : Int) : Prop where
  nonneg : 0 ≤ l
  dvd : ∀ n ∈ ns, n ∣ l
  least : ∀ m, (∀ n ∈ ns, n ∣ m) → l ∣ m

section
variable {n g l g' l' : Int} {ns ms : List Int}

theorem isGreatestCommonDivisor_foldl (n : Int) (some : ns ≠ []) :
    IsGreatestCommonDivisor (n :: ns) (ns.foldl commonDivisor n) := by
  have nonneg (a b : Int) : 0 ≤ commonDivisor a b := Int.natCast_nonneg _
  refine ⟨foldl_nonneg nonneg n some, ?_, fun d hd => ?_⟩
  · exact List.forall_mem_cons.mpr ((dvd_foldl_commonDivisor _ n ns).mp dvd_rfl)
  · exact (dvd_foldl_commonDivisor d n ns).mpr (List.forall_mem_cons.mp hd)

theorem isLeastCommonMultiple_foldl (n : Int) (some : ns ≠ []) :
    IsLeastCommonMultiple (n :: ns) (ns.foldl commonMultiple n) := by
  have nonneg (a b : Int) : 0 ≤ commonMultiple a b := by
    rw [commonMultiple_eq_lcm]
    exact Int.natCast_nonneg _
  refine ⟨foldl_nonneg nonneg n some, ?_, fun m hm => ?_⟩
  · exact List.forall_mem_cons.mpr ((foldl_commonMultiple_dvd _ n ns).mp dvd_rfl)
  · exact (foldl_commonMultiple_dvd m n ns).mpr (List.forall_mem_cons.mp hm)

/-- Lists whose integers have the same absolute values, in whatever order and however often. -/
def SameMagnitudes (ns ms : List Int) : Prop :=
  ∀ a : Nat, (∃ n ∈ ns, n.natAbs = a) ↔ ∃ m ∈ ms, m.natAbs = a

theorem SameMagnitudes.forall_iff (same : SameMagnitudes ns ms) (P : Nat → Prop) :
    (∀ n ∈ ns, P n.natAbs) ↔ ∀ m ∈ ms, P m.natAbs := by
  constructor
  · intro h m hm
    obtain ⟨n, hn, eq⟩ := (same m.natAbs).mpr ⟨m, hm, rfl⟩
    exact eq ▸ h n hn
  · intro h n hn
    obtain ⟨m, hm, eq⟩ := (same n.natAbs).mp ⟨n, hn, rfl⟩
    exact eq ▸ h m hm

theorem SameMagnitudes.dvd_iff (same : SameMagnitudes ns ms) (d : Int) :
    (∀ n ∈ ns, d ∣ n) ↔ ∀ m ∈ ms, d ∣ m := by
  simpa only [Int.natAbs_dvd_natAbs] using same.forall_iff fun a => d.natAbs ∣ a

theorem SameMagnitudes.multiple_iff (same : SameMagnitudes ns ms) (d : Int) :
    (∀ n ∈ ns, n ∣ d) ↔ ∀ m ∈ ms, m ∣ d := by
  simpa only [Int.natAbs_dvd_natAbs] using same.forall_iff fun a => a ∣ d.natAbs

/-- A greatest common divisor is one of the magnitudes alone, and there is only one. -/
theorem IsGreatestCommonDivisor.eq (h : IsGreatestCommonDivisor ns g)
    (h' : IsGreatestCommonDivisor ms g') (same : SameMagnitudes ns ms) : g = g' :=
  Int.dvd_antisymm h.nonneg h'.nonneg (h'.greatest g ((same.dvd_iff g).mp h.dvd))
    (h.greatest g' ((same.dvd_iff g').mpr h'.dvd))

theorem IsLeastCommonMultiple.eq (h : IsLeastCommonMultiple ns l)
    (h' : IsLeastCommonMultiple ms l') (same : SameMagnitudes ns ms) : l = l' :=
  Int.dvd_antisymm h.nonneg h'.nonneg (h.least l' ((same.multiple_iff l').mpr h'.dvd))
    (h'.least l ((same.multiple_iff l).mp h.dvd))

theorem IsGreatestCommonDivisor.eq_zero (h : IsGreatestCommonDivisor ns g)
    (zeros : ∀ n ∈ ns, n = 0) : g = 0 :=
  zero_dvd_iff.mp (h.greatest 0 fun n hn => zero_dvd_iff.mpr (zeros n hn))

theorem IsLeastCommonMultiple.eq_zero (h : IsLeastCommonMultiple ns l) (zero : 0 ∈ ns) : l = 0 :=
  zero_dvd_iff.mp (h.dvd 0 zero)

theorem foldl_commonMultiple_eq_zero (zero : 0 ∈ n :: ns) : ns.foldl commonMultiple n = 0 := by
  have dvd : ∀ m ∈ n :: ns, m ∣ ns.foldl commonMultiple n :=
    List.forall_mem_cons.mpr ((foldl_commonMultiple_dvd _ n ns).mp dvd_rfl)
  exact zero_dvd_iff.mp (dvd 0 zero)

end

/-! What the functions of integers give. -/

/-- A function gives the nearest double of an integer, or faults if that is beyond all of them. -/
structure Gives (result : Except Fault Value) (n : Int) : Prop where
  within : |(n : ℚ)| < Double.overflow → ∃ x, result = .ok (.double x) ∧ Double.IsNearest n x
  beyond : Double.overflow ≤ |(n : ℚ)| → result = .error .integerTooLarge

theorem gives_ofInt (n : Int) : Gives (asValue (Double.ofInt n)) n := by
  constructor
  · intro small
    refine ⟨Double.nearestToInt n, ?_, Double.isNearest_nearestToInt small⟩
    rw [Double.ofInt_eq_of_abs_lt small]
    rfl
  · intro large
    rw [Double.ofInt_eq_error large]
    rfl

theorem mapM_integer (ns : List Int) : (ns.map Value.int).mapM integer = .ok ns := by
  induction ns with
  | nil => rfl
  | cons n ns ih =>
    rw [List.map_cons, List.mapM_cons, ih]
    rfl

theorem apply_combined (name : String) (op : Int → Int → Int) (n : Int) (ns : List Int) :
    (ofIntegers name (combined op)).apply ((n :: ns).map .int) =
      asValue (Double.ofInt (ns.foldl op n)) := by
  change (do asValue (combined op (← ((n :: ns).map Value.int).mapM integer))) = _
  rw [mapM_integer]
  rfl

theorem exists_cons_of_two_le {ns : List Int} (two : 2 ≤ ns.length) :
    ∃ n ms, ns = n :: ms ∧ ms ≠ [] := by
  match ns, two with
  | n :: m :: ms, _ => exact ⟨n, m :: ms, rfl, List.cons_ne_nil m ms⟩

theorem exists_gcd {ns : List Int} (two : 2 ≤ ns.length) : ∃ g, IsGreatestCommonDivisor ns g ∧
    (ofIntegers "gcd" greatestCommonDivisor).apply (ns.map .int) = asValue (Double.ofInt g) := by
  obtain ⟨n, ms, rfl, some⟩ := exists_cons_of_two_le two
  exact ⟨_, isGreatestCommonDivisor_foldl n some, apply_combined "gcd" commonDivisor n ms⟩

theorem exists_lcm {ns : List Int} (two : 2 ≤ ns.length) : ∃ l, IsLeastCommonMultiple ns l ∧
    (ofIntegers "lcm" leastCommonMultiple).apply (ns.map .int) = asValue (Double.ofInt l) := by
  obtain ⟨n, ms, rfl, some⟩ := exists_cons_of_two_le two
  exact ⟨_, isLeastCommonMultiple_foldl n some, apply_combined "lcm" commonMultiple n ms⟩

/-- Order, signs and repetitions make no difference. -/
theorem gcd_congr {ns ms : List Int} (hn : 2 ≤ ns.length) (hm : 2 ≤ ms.length)
    (same : SameMagnitudes ns ms) :
    (ofIntegers "gcd" greatestCommonDivisor).apply (ns.map .int) =
      (ofIntegers "gcd" greatestCommonDivisor).apply (ms.map .int) := by
  obtain ⟨g, hg, first⟩ := exists_gcd hn
  obtain ⟨g', hg', second⟩ := exists_gcd hm
  rw [first, second, hg.eq hg' same]

theorem lcm_congr {ns ms : List Int} (hn : 2 ≤ ns.length) (hm : 2 ≤ ms.length)
    (same : SameMagnitudes ns ms) :
    (ofIntegers "lcm" leastCommonMultiple).apply (ns.map .int) =
      (ofIntegers "lcm" leastCommonMultiple).apply (ms.map .int) := by
  obtain ⟨l, hl, first⟩ := exists_lcm hn
  obtain ⟨l', hl', second⟩ := exists_lcm hm
  rw [first, second, hl.eq hl' same]

end Discrete

end FiniteCalculus
