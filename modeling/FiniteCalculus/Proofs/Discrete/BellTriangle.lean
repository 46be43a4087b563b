import FiniteCalculus.Catalogue
import FiniteCalculus.Proofs.Discrete.Partitions
import FiniteCalculus.Proofs.Double.Nearest

/-! The Bell triangle. Entry `k` of row `r` counts, modulo `2 ^ 64`, how a set of `r + 1`
elements is partitioned if the class of the last one has besides it only elements among
the first `k`. The running sums are Pascal's rule for these counts, so that the last entry
of a row is the next Bell number. -/

namespace FiniteCalculus
set_option autoImplicit false

open Finset

namespace Discrete

/-- The entry of the triangle before it is cut to a word. -/
def bellEntry (r k : Nat) : Nat := ∑ j ∈ range (k + 1), k.choose j * (r - j).bell

theorem bellEntry_zero (r : Nat) : bellEntry r 0 = r.bell := by
  simp [bellEntry]

theorem bellEntry_last (r : Nat) : bellEntry r r = (r + 1).bell := by
  rw [bellEntry, Nat.bell_succ, Nat.range_succ_eq_Iic]

/-- The rule by which a row goes on. -/
theorem bellEntry_succ (r k : Nat) :
    bellEntry (r + 1) (k + 1) = bellEntry (r + 1) k + bellEntry r k := by
  have above : bellEntry (r + 1) (k + 1) =
      ∑ j ∈ range (k + 1), (k + 1).choose (j + 1) * (r - j).bell + (r + 1).bell := by
    rw [bellEntry, Finset.sum_range_succ']
    simp
  have before : bellEntry (r + 1) k =
      ∑ j ∈ range (k + 1), k.choose (j + 1) * (r - j).bell + (r + 1).bell := by
    calc bellEntry (r + 1) k = ∑ j ∈ range (k + 2), k.choose j * (r + 1 - j).bell := by
          rw [Finset.sum_range_succ _ (k + 1), Nat.choose_succ_self, Nat.zero_mul, Nat.add_zero]
          rfl
      _ = ∑ j ∈ range (k + 1), k.choose (j + 1) * (r - j).bell + (r + 1).bell := by
          rw [Finset.sum_range_succ']
          simp
  have pascal : ∑ j ∈ range (k + 1), (k + 1).choose (j + 1) * (r - j).bell =
      bellEntry r k + ∑ j ∈ range (k + 1), k.choose (j + 1) * (r - j).bell := by
    rw [bellEntry, ← Finset.sum_add_distrib]
    refine Finset.sum_congr rfl fun j _ => ?_
    rw [Nat.choose_succ_succ, Nat.add_mul]
  omega

theorem runningSums_eq (a w : Nat → Int64) (next : ∀ k, a (k + 1) = a k + w k) (count i : Nat) :
    runningSums (a i) ((List.range' i count).map w) = (List.range' i (count + 1)).map a := by
  induction count generalizing i with
  | zero => rfl
  | succ count ih =>
    rw [List.range'_succ, List.map_cons, runningSums, ← next, ih, List.range'_succ (n := count + 1),
      List.map_cons]

/-- Every row of the triangle, entry by entry. -/
theorem bellRow_eq (r : Nat) :
    bellRow r = (List.range' 0 (r + 1)).map fun k => Int64.ofNat (bellEntry r k) := by
  induction r with
  | zero =>
    rw [List.range'_one, List.map_singleton, bellEntry_zero, Nat.bell_zero]
    rfl
  | succ r ih =>
    have head : (bellRow r).getLastD 0 = Int64.ofNat (bellEntry (r + 1) 0) := by
      rw [ih, bellEntry_zero, ← bellEntry_last, List.range'_concat]
      simp
    have next (k : Nat) : Int64.ofNat (bellEntry (r + 1) (k + 1)) =
        Int64.ofNat (bellEntry (r + 1) k) + Int64.ofNat (bellEntry r k) := by
      rw [bellEntry_succ, Int64.ofNat_add]
    rw [bellRow, head, ih]
    exact runningSums_eq (fun k => Int64.ofNat (bellEntry (r + 1) k)) _ next (r + 1) 0

theorem bellWord_eq (n : Nat) : bellWord n = Int64.ofNat n.bell := by
  cases n with
  | zero =>
    rw [Nat.bell_zero]
    rfl
  | succ n =>
    rw [bellWord, bellRow_eq, ← bellEntry_last, List.range'_concat]
    simp

/-- The word is the residue of the Bell number that lies around zero. -/
theorem toInt_bellWord (n : Nat) : (bellWord n).toInt = Int.bmod n.bell (2 ^ 64) := by
  rw [bellWord_eq, Int64.toInt_ofNat']
  rfl

theorem abs_bmod_lt (z : Int) : |((Int.bmod z (2 ^ 64) : Int) : ℚ)| < Double.overflow := by
  have above := Int.bmod_lt (x := z) (m := 2 ^ 64) (by decide)
  have below := Int.le_bmod (x := z) (m := 2 ^ 64) (by decide)
  have word : |Int.bmod z (2 ^ 64)| ≤ 2 ^ 64 := abs_le.mpr ⟨by omega, by omega⟩
  have word' : |((Int.bmod z (2 ^ 64) : Int) : ℚ)| ≤ 2 ^ 64 := by exact_mod_cast word
  exact word'.trans_lt (Double.pow_lt_overflow (by decide))

theorem cast_bmod_of_lt {b : Nat} (small : b < 2 ^ 63) :
    ((Int.bmod b (2 ^ 64) : Int) : ℚ) = b := by
  have same : Int.bmod b (2 ^ 64) = b := Int.bmod_eq_of_le (by omega) (by omega)
  rw [same, Int.cast_natCast]

theorem bellOf_eq (n : Nat) :
    bellOf n = .ok (Double.nearestToInt (Int.bmod n.bell (2 ^ 64))) := by
  rw [bellOf, if_neg (by omega), Int.toNat_natCast, toInt_bellWord,
    Double.ofInt_eq_of_abs_lt (abs_bmod_lt _)]

theorem bell_number_apply (n : Nat) :
    (ofInteger "bell_number" bellOf).apply [.int n] =
      .ok (.double (Double.nearestToInt (Int.bmod n.bell (2 ^ 64)))) := by
  change asValue (bellOf n) = _
  rw [bellOf_eq]
  rfl

/-- The count of partitions by how many elements are not with the last one. -/
theorem count_succ (n : Nat) : Partitions.count (n + 1) =
    ∑ k ∈ range (n + 1), n.choose k * Partitions.count k := by
  simp only [Partitions.count_eq_bell]
  exact (Partitions.sum_choose_mul_bell n).symm

/-- The double that is given for `n` is nearest to the number of partitions of a set of `n`
elements, or to its residue around zero from the size on at which words wrap. -/
theorem bell_numbers_wrap [Transcendentals] :
    Partitions.count 0 = 1 ∧
    (∀ n, Partitions.count (n + 1) = ∑ k ∈ range (n + 1), n.choose k * Partitions.count k) ∧
    ∃ f, Catalogue.find? Catalogue.integers "bell_number" = some f ∧
      ∀ n : Nat, ∃ x, f.apply [.int n] = .ok (.double x) ∧
        Double.IsNearest (Int.bmod (Partitions.count n) (2 ^ 64)) x ∧
        (Partitions.count n < 2 ^ 63 → Double.IsNearest (Partitions.count n) x) := by
  refine ⟨?_, count_succ, ofInteger "bell_number" bellOf, rfl, fun n => ?_⟩
  · rw [Partitions.count_eq_bell, Nat.bell_zero]
  · have nearest := Double.isNearest_nearestToInt (abs_bmod_lt n.bell)
    refine ⟨_, bell_number_apply n, ?_, fun small => ?_⟩
    · rw [Partitions.count_eq_bell]
      exact nearest
    · rw [Partitions.count_eq_bell] at small ⊢
      rwa [cast_bmod_of_lt small] at nearest

/-- A set of five elements has 52 partitions. -/
theorem bell_number_five : ∃ x,
    (ofInteger "bell_number" bellOf).apply [.int 5] = .ok (.double x) ∧
      Double.IsNearest 52 x := by
  obtain ⟨_, _, f, found, wrap⟩ := bell_numbers_wrap
  obtain rfl : ofInteger "bell_number" bellOf = f := Option.some.inj found
  have count : Partitions.count 5 = 52 := by
    rw [Partitions.count_eq_bell]
    simp [Nat.bell_succ, ← Nat.range_succ_eq_Iic, Finset.sum_range_succ, Nat.choose]
  obtain ⟨x, applied, _, nearest⟩ := wrap 5
  rw [count] at nearest
  exact ⟨x, applied, by simpa using nearest (by decide)⟩

end Discrete

end FiniteCalculus
