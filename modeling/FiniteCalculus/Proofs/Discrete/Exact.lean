import FiniteCalculus.Proofs.Discrete.Divisors
import FiniteCalculus.Proofs.Double.Quotients

/-! Integers that are computed in doubles without an error. As long as every intermediate result
is at most 2 ^ 53 in magnitude, sums and products are the integers they stand for, and so is a
quotient that leaves nothing over. -/

namespace FiniteCalculus
set_option autoImplicit false

open Finset

theorem accumulate_succ {β : Type} (step : β → Nat → Except Fault β) (count first : Nat)
    (total : β) : accumulate step (count + 1) first total =
      accumulate step count first total >>= fun t => step t (first + count) := by
  rw [accumulate_eq_foldlM, accumulate_eq_foldlM, List.range'_concat, List.foldlM_append,
    Nat.one_mul]
  refine bind_congr fun t => ?_
  rw [List.foldlM_cons]
  exact bind_pure _

theorem Scalar.productFrom_succ [Transcendentals] (first count : Nat)
    (factor : Nat → Except Fault Float) : productFrom first (count + 1) factor =
      productFrom first count factor >>= fun total => do
        return total * (← factor (first + count)) :=
  accumulate_succ _ count first _

namespace Discrete

/-- A computation comes to a double that is an integer. -/
def Exactly (result : Except Fault Float) (n : Int) : Prop :=
  ∃ x, result = .ok x ∧ Double.toRat? x = some (n : ℚ)

theorem exactly_ok {x : Float} {n : Int} :
    Exactly (.ok x) n ↔ Double.toRat? x = some (n : ℚ) := by
  constructor
  · rintro ⟨_, ⟨⟩, value⟩
    exact value
  · exact fun value => ⟨x, rfl, value⟩

theorem exactly_ofInt {n : Int} (le : n.natAbs ≤ 2 ^ 53) : Exactly (Double.ofInt n) n :=
  ⟨_, Double.ofInt_eq le, Double.toRat?_nearestToInt le⟩

theorem exactly_zero : Exactly (.ok 0.0) 0 := by
  rw [exactly_ok, Int.cast_zero]
  exact Double.toRat?_zero

theorem exactly_one : Exactly (.ok 1.0) 1 := by
  rw [exactly_ok, Int.cast_one]
  exact Double.toRat?_one

section
variable {r s : Except Fault Float} {m n : Int}

theorem Exactly.asValue (h : Exactly r n) :
    ∃ x, asValue r = .ok (.double x) ∧ Double.toRat? x = some (n : ℚ) := by
  obtain ⟨x, rfl, hx⟩ := h
  exact ⟨x, rfl, hx⟩

theorem Exactly.mul (hr : Exactly r m) (hs : Exactly s n) (le : (m * n).natAbs ≤ 2 ^ 53) :
    Exactly (do return (← r) * (← s)) (m * n) := by
  obtain ⟨x, rfl, hx⟩ := hr
  obtain ⟨y, rfl, hy⟩ := hs
  exact ⟨x * y, rfl, (Double.isRounded_mul hx hy).toRat?_int (Int.cast_mul m n).symm le⟩

theorem Exactly.add (hr : Exactly r m) (hs : Exactly s n) (le : (m + n).natAbs ≤ 2 ^ 53) :
    Exactly (do return (← r) + (← s)) (m + n) := by
  obtain ⟨x, rfl, hx⟩ := hr
  obtain ⟨y, rfl, hy⟩ := hs
  exact ⟨x + y, rfl, (Double.isRounded_add hx hy).toRat?_int (Int.cast_add m n).symm le⟩

theorem Exactly.div (hr : Exactly r (m * n)) (hs : Exactly s n) (nonzero : n ≠ 0)
    (le : m.natAbs ≤ 2 ^ 53) : Exactly (do return (← r) / (← s)) m := by
  obtain ⟨x, rfl, hx⟩ := hr
  obtain ⟨y, rfl, hy⟩ := hs
  exact ⟨x / y, rfl, Double.toRat?_div hx hy (Int.cast_mul m n) (Int.cast_ne_zero.mpr nonzero) le⟩

end

/-- A sum is exact if every sum on the way is small enough. -/
theorem exactly_sum {term : Nat → Except Fault Float} {t : Nat → Int} {count : Nat}
    (terms : ∀ i < count, Exactly (term i) (t i))
    (small : ∀ j ≤ count, (∑ i ∈ range j, t i).natAbs ≤ 2 ^ 53) :
    Exactly (accumulate (fun total k => do return total + (← term k)) count 0 0.0)
      (∑ i ∈ range count, t i) := by
  induction count with
  | zero => exact exactly_zero
  | succ count ih =>
    have before := ih (fun i hi => terms i (by omega)) (fun j hj => small j (by omega))
    have last := terms count (Nat.lt_succ_self count)
    have bound := small (count + 1) (le_refl _)
    rw [sum_range_succ] at bound ⊢
    rw [accumulate_succ, Nat.zero_add]
    exact before.add last bound

section
variable [Transcendentals]

/-- A product is exact if every product on the way is small enough. -/
theorem exactly_productFrom {factor : Nat → Except Fault Float} {a : Nat → Int}
    {first count : Nat} (factors : ∀ i < count, Exactly (factor (first + i)) (a i))
    (small : ∀ j ≤ count, (∏ i ∈ range j, a i).natAbs ≤ 2 ^ 53) :
    Exactly (Scalar.productFrom first count factor) (∏ i ∈ range count, a i) := by
  induction count with
  | zero => exact exactly_one
  | succ count ih =>
    have before := ih (fun i hi => factors i (by omega)) (fun j hj => small j (by omega))
    have last := factors count (Nat.lt_succ_self count)
    have bound := small (count + 1) (le_refl _)
    rw [prod_range_succ] at bound ⊢
    rw [Scalar.productFrom_succ]
    exact before.mul last bound

/-- A power of two integers is exact as long as it is at most 2 ^ 53. -/
def ExactPowers : Prop :=
  ∀ (x y : Float) (a : Int) (b : Nat), Double.toRat? x = some (a : ℚ) →
    Double.toRat? y = some (b : ℚ) → (a ^ b).natAbs ≤ 2 ^ 53 →
    Double.toRat? (Transcendentals.pow x y) = some ((a ^ b : Int) : ℚ)

theorem exactly_power (exact : ExactPowers) {a : Int} {b : Nat} (base : a.natAbs ≤ 2 ^ 53)
    (exponent : b ≤ 2 ^ 53) (small : (a ^ b).natAbs ≤ 2 ^ 53) :
    Exactly (Scalar.power a b) (a ^ b) := by
  obtain ⟨x, hx, x_eq⟩ := exactly_ofInt base
  obtain ⟨y, hy, y_eq⟩ := exactly_ofInt (n := b) exponent
  refine ⟨Transcendentals.pow x y, ?_, exact x y a b x_eq y_eq small⟩
  change (do return Transcendentals.pow (← Double.ofInt a) (← Double.ofInt b)) = _
  rw [hx, hy]
  rfl

end

/-! Powers of integers can be rounded once, whatever the machine makes of other powers. -/

/-- The functions of the machine with powers of integers that are rounded to the nearest double. -/
@[reducible]
def nearestPowers : Transcendentals :=
  { (inferInstance : Transcendentals) with
    pow := fun x y =>
      match Double.nearest? x, Double.nearest? y with
      | some a, some b =>
        if Double.toRat? x = some (a : ℚ) ∧ Double.toRat? y = some (b : ℚ) ∧ 0 ≤ b then
          Double.nearestToInt (a ^ b.toNat)
        else Float.pow x y
      | _, _ => Float.pow x y }

theorem exactPowers_nearest : @ExactPowers nearestPowers := by
  intro x y a b hx hy small
  have base : Double.nearest? x = some a := by
    obtain ⟨n, hn, nearest⟩ := Double.exists_nearest? hx
    rw [hn, isNearestInteger_intCast_iff.mp nearest]
  have exponent : Double.nearest? y = some (b : Int) := by
    obtain ⟨n, hn, nearest⟩ := Double.exists_nearest? hy
    rw [← Int.cast_natCast] at nearest
    rw [hn, isNearestInteger_intCast_iff.mp nearest]
  change Double.toRat? (match Double.nearest? x, Double.nearest? y with
    | some a, some b =>
      if Double.toRat? x = some (a : ℚ) ∧ Double.toRat? y = some (b : ℚ) ∧ 0 ≤ b then
        Double.nearestToInt (a ^ b.toNat)
      else Float.pow x y
    | _, _ => Float.pow x y) = _
  rw [base, exponent]
  dsimp only
  rw [if_pos ⟨hx, hy, b.cast_nonneg⟩]
  exact Double.toRat?_nearestToInt small

end Discrete

end FiniteCalculus
