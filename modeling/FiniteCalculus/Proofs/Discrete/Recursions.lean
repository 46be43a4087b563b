import FiniteCalculus.Proofs.Discrete.Descents
import FiniteCalculus.Proofs.Discrete.Exact

/-! The two-parameter recursions, which count exactly in doubles. Each entry is a sum of two
earlier ones with factors. An earlier entry is no greater than the sum it goes into, unless its
factor is zero, and then it is at most one, so that nothing on the way is rounded. -/

namespace FiniteCalculus
set_option autoImplicit false

namespace Discrete

section
variable {r s : Except Fault Float} {a c p q : Nat} {b : Int}

theorem exactly_add_of_factor (hp : Exactly r p) (hq : Exactly s q) (factor : a ≤ 2 ^ 53)
    (sum : a * p + q ≤ 2 ^ 53) :
    Exactly (do
      let joined ← r
      let opened ← s
      return (← Double.ofInt a) * joined + opened) (a * p + q : Nat) := by
  have product : a * p ≤ 2 ^ 53 := le_of_add_le_left sum
  have total := ((exactly_ofInt (n := a) factor).mul hp (by exact_mod_cast product)).add hq
    (by exact_mod_cast sum)
  obtain ⟨x, rfl, _⟩ := hp
  obtain ⟨y, rfl, _⟩ := hq
  rw [Double.ofInt_eq (n := a) factor] at total ⊢
  -- The sum itself is passed on: to match the two programs step by step would unfold doubles.
  exact exactly_ok.mpr (by exact_mod_cast exactly_ok.mp total)

/-- The second factor may be of any sign where its entry is zero. -/
theorem exactly_add_of_factors (hp : Exactly r p) (hq : Exactly s q) (factor : a ≤ 2 ^ 53)
    (factor' : b.natAbs ≤ 2 ^ 53) (same : b * q = (c * q : Nat)) (sum : a * p + c * q ≤ 2 ^ 53) :
    Exactly (do
      let kept ← r
      let grown ← s
      return (← Double.ofInt a) * kept + (← Double.ofInt b) * grown) (a * p + c * q : Nat) := by
  have product : a * p ≤ 2 ^ 53 := le_of_add_le_left sum
  have product' : (b * q).natAbs ≤ 2 ^ 53 := by
    rw [same]
    exact le_of_add_le_right sum
  have first := (exactly_ofInt (n := a) factor).mul hp (by exact_mod_cast product)
  have second := (exactly_ofInt factor').mul hq product'
  rw [same] at second
  have total := first.add second (by exact_mod_cast sum)
  obtain ⟨x, rfl, _⟩ := hp
  obtain ⟨y, rfl, _⟩ := hq
  rw [Double.ofInt_eq (n := a) factor, Double.ofInt_eq factor'] at total ⊢
  exact exactly_ok.mpr (by exact_mod_cast exactly_ok.mp total)

end

/-- A function of two integers counts the objects of a size that have a number: what it gives is
exact up to 2 ^ 53, and nothing has a number beyond the size. -/
structure CountsExactly (f : NumericFunction) (count : Nat → Int → Nat) : Prop where
  exact : ∀ (n : Nat) (k : Int), n < 2 ^ 53 → k.natAbs < 2 ^ 53 → count n k ≤ 2 ^ 53 →
    ∃ x, f.apply [.int n, .int k] = .ok (.double x) ∧ Double.toRat? x = some (count n k : ℚ)
  beyond : ∀ (n : Nat) (k : Int), k < 0 ∨ n < k → count n k = 0

theorem countsExactly_of_naturals {name : String} {f : Int → Int → Except Fault Float}
    {count : Nat → Int → Nat} (none : ∀ (n : Nat) (k : Int), k < 0 → count n k = 0)
    (negative : ∀ (n : Nat) (k : Int), k < 0 → f n k = .ok 0.0)
    (beyond : ∀ n k : Nat, n < k → count n k = 0)
    (exact : ∀ n k : Nat, n < 2 ^ 53 → k < 2 ^ 53 → count n k ≤ 2 ^ 53 →
      Exactly (f n k) (count n k)) :
    CountsExactly (ofIntegerPair name f) count := by
  constructor
  · intro n k size number small
    have given : Exactly (f n k) (count n k) := by
      rcases lt_or_ge k 0 with below | above
      · rw [negative n k below, none n k below]
        exact exactly_zero
      · obtain ⟨j, rfl⟩ := Int.eq_ofNat_of_zero_le above
        exact exact n j size number small
    obtain ⟨x, hx, value⟩ := given.asValue
    exact ⟨x, hx, by rwa [Int.cast_natCast] at value⟩
  · intro n k outside
    rcases lt_or_ge k 0 with below | above
    · exact none n k below
    · obtain ⟨j, rfl⟩ := Int.eq_ofNat_of_zero_le above
      exact beyond n j (by omega)

open Partitions Permutations

section
variable [Transcendentals]

theorem exactly_stirlingCycle {n k : Nat} (size : n ≤ 2 ^ 53) (small : n.stirlingFirst k ≤ 2 ^ 53) :
    Exactly (stirlingCycle n k) (n.stirlingFirst k : Nat) := by
  induction n generalizing k with
  | zero =>
    cases k with
    | zero => exact exactly_one
    | succ k => exact exactly_zero
  | succ n ih =>
    cases k with
    | zero => exact exactly_zero
    | succ k =>
      by_cases beyond : n < k
      · rw [stirlingCycle, if_pos beyond, Nat.stirlingFirst_eq_zero_of_lt (by omega)]
        exact exactly_zero
      · rw [Nat.stirlingFirst_succ_succ] at small ⊢
        rw [stirlingCycle, if_neg beyond]
        have below : n ≤ 2 ^ 53 := by omega
        have joined : n.stirlingFirst (k + 1) ≤ 2 ^ 53 := by
          cases n with
          | zero => exact Nat.zero_le _
          | succ n => exact (Nat.le_mul_of_pos_left _ n.succ_pos).trans (le_of_add_le_left small)
        exact exactly_add_of_factor (ih below joined) (ih below (le_of_add_le_right small)) below
          small

theorem exactly_stirlingPartition {n k : Nat} (number : k ≤ 2 ^ 53)
    (small : n.stirlingSecond k ≤ 2 ^ 53) :
    Exactly (stirlingPartition n k) (n.stirlingSecond k : Nat) := by
  induction n generalizing k with
  | zero =>
    cases k with
    | zero => exact exactly_one
    | succ k => exact exactly_zero
  | succ n ih =>
    cases k with
    | zero => exact exactly_zero
    | succ k =>
      by_cases beyond : n < k
      · rw [stirlingPartition, if_pos beyond, Nat.stirlingSecond_eq_zero_of_lt (by omega)]
        exact exactly_zero
      · rw [Nat.stirlingSecond_succ_succ] at small ⊢
        rw [stirlingPartition, if_neg beyond]
        have joined : n.stirlingSecond (k + 1) ≤ 2 ^ 53 :=
          (Nat.le_mul_of_pos_left _ k.succ_pos).trans (le_of_add_le_left small)
        exact exactly_add_of_factor (ih number joined)
          (ih (by omega) (le_of_add_le_right small)) number small

theorem exactly_eulerian {n k : Nat} (size : n ≤ 2 ^ 53) (number : k < 2 ^ 53)
    (small : withDescents n k ≤ 2 ^ 53) : Exactly (eulerian n k) (withDescents n k) := by
  induction n generalizing k with
  | zero =>
    rw [withDescents_zero]
    cases k with
    | zero => exact exactly_one
    | succ k => exact exactly_zero
  | succ n ih =>
    have below : n ≤ 2 ^ 53 := by omega
    cases k with
    | zero =>
      rw [Nat.cast_zero, withDescents_succ_zero] at small ⊢
      have kept := ih (k := 0) below number small
      rw [Nat.cast_zero] at kept
      have step := exactly_add_of_factors (a := 1) (b := (n + 1 : Int) - (0 : Nat)) (c := 0)
        (q := 0) kept exactly_zero (by omega) (by omega) (by omega) (by omega)
      rw [Nat.one_mul, Nat.zero_mul, Nat.add_zero] at step
      exact step
    | succ k =>
      rw [withDescents_succ_succ] at small ⊢
      have kept : withDescents n (k + 1 : Nat) ≤ 2 ^ 53 :=
        (Nat.le_mul_of_pos_left _ (k + 1).succ_pos).trans (le_of_add_le_left small)
      have grown : withDescents n k ≤ 2 ^ 53 := by
        by_cases within : k < n
        · have factor : 0 < n - k := by omega
          exact (Nat.le_mul_of_pos_left _ factor).trans (le_of_add_le_right small)
        · rcases Nat.eq_zero_or_pos k with rfl | pos
          · obtain rfl : n = 0 := by omega
            rw [withDescents_zero]
            exact Nat.one_le_two_pow
          · rw [withDescents_eq_zero (by omega) pos]
            exact Nat.zero_le _
      have same : ((n + 1 : Int) - (k + 1 : Nat)) * withDescents n k =
          ((n - k) * withDescents n k : Nat) := by
        by_cases within : k ≤ n
        · push_cast [within]
          ring
        · rw [withDescents_eq_zero (by omega) (by omega), Nat.cast_zero, mul_zero, mul_zero,
            Nat.cast_zero]
      exact exactly_add_of_factors (a := k + 2) (ih below number kept) (ih below (by omega) grown)
        (by omega) (by omega) same small

theorem stirlingCycle_countsExactly :
    CountsExactly (ofIntegerPair "stirling1_number" stirlingCycleOf) withCycles := by
  have beyond (n k : Nat) (above : n < k) : withCycles n k = 0 := by
    rw [withCycles_eq_stirlingFirst, Nat.stirlingFirst_eq_zero_of_lt above]
  refine countsExactly_of_naturals (fun _ _ => tally_of_neg) (fun n k negative => ?_) beyond
    fun n k size _ small => ?_
  · exact if_pos (.inr (.inl negative))
  · by_cases above : n < k
    · rw [beyond n k above, stirlingCycleOf, if_pos (by omega)]
      exact exactly_zero
    · rw [withCycles_eq_stirlingFirst] at small ⊢
      rw [stirlingCycleOf, if_neg (by omega)]
      exact exactly_stirlingCycle size.le small

theorem stirlingPartition_countsExactly :
    CountsExactly (ofIntegerPair "stirling2_number" stirlingPartitionOf) withBlocks := by
  have beyond (n k : Nat) (above : n < k) : withBlocks n k = 0 := by
    rw [withBlocks_eq_stirlingSecond, Nat.stirlingSecond_eq_zero_of_lt above]
  refine countsExactly_of_naturals (fun _ _ => tally_of_neg) (fun n k negative => ?_) beyond
    fun n k _ number small => ?_
  · exact if_pos (.inr (.inl negative))
  · by_cases above : n < k
    · rw [beyond n k above, stirlingPartitionOf, if_pos (by omega)]
      exact exactly_zero
    · rw [withBlocks_eq_stirlingSecond] at small ⊢
      rw [stirlingPartitionOf, if_neg (by omega)]
      exact exactly_stirlingPartition number.le small

theorem eulerian_countsExactly :
    CountsExactly (ofIntegerPair "euler_number" eulerianOf) withDescents := by
  refine countsExactly_of_naturals (fun _ _ => tally_of_neg) (fun n k negative => ?_)
    (fun n k above => withDescents_eq_zero above.le (by omega)) fun n k size number small => ?_
  · rw [eulerianOf, if_neg (by omega), if_pos negative]
  · rw [eulerianOf, if_neg (by omega), if_neg (by omega)]
    exact exactly_eulerian size.le number small

/-- Permutations with a number of cycles, partitions with a number of blocks and permutations with
a number of descents are counted exactly, as far as the number of them is at most 2 ^ 53. How deep
the recursions go is not limited here: for large `n` a machine may run out of room for them before
they end. -/
theorem recursions_count_exactly :
    (∃ f, Catalogue.find? Catalogue.integers "stirling1_number" = some f ∧
      CountsExactly f withCycles) ∧
    (∃ f, Catalogue.find? Catalogue.integers "stirling2_number" = some f ∧
      CountsExactly f withBlocks) ∧
    ∃ f, Catalogue.find? Catalogue.integers "euler_number" = some f ∧
      CountsExactly f withDescents ∧ withDescents 0 0 = 1 := by
  refine ⟨⟨_, rfl, stirlingCycle_countsExactly⟩, ⟨_, rfl, stirlingPartition_countsExactly⟩,
    _, rfl, eulerian_countsExactly, ?_⟩
  have empty := withDescents_zero 0
  rwa [if_pos rfl] at empty

end

/-- Four elements have seven partitions into two blocks. -/
theorem stirlingPartition_four_two : ∃ x,
    (ofIntegerPair "stirling2_number" stirlingPartitionOf).apply [.int 4, .int 2] =
      .ok (.double x) ∧ Double.toRat? x = some 7 := by
  obtain ⟨_, ⟨f, found, counts⟩, _⟩ := recursions_count_exactly
  obtain rfl : ofIntegerPair "stirling2_number" stirlingPartitionOf = f := Option.some.inj found
  have seven : withBlocks 4 (2 : Nat) = 7 := withBlocks_eq_stirlingSecond 4 2
  obtain ⟨x, hx, value⟩ := counts.exact 4 (2 : Nat) (by decide) (by decide)
    (by rw [seven]; decide)
  rw [seven] at value
  exact ⟨x, hx, value⟩

end Discrete

end FiniteCalculus
