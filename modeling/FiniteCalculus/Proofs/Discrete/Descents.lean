import FiniteCalculus.Proofs.Discrete.Tallies
import Mathlib.Data.Fintype.Perm

/-! How many permutations have a number of descents. The newest element is the greatest one,
and it is put at some place of the word of a permutation. At a descent and at the end the number
of descents stays, and everywhere else it goes up by one. -/

namespace FiniteCalculus
set_option autoImplicit false

open Finset

namespace Permutations

/-- How often a number is followed by a smaller one. -/
def descents : List Nat → Nat
  | a :: b :: l => (if b < a then 1 else 0) + descents (b :: l)
  | _ => 0

theorem descents_cons_cons (a b : Nat) (l : List Nat) :
    descents (a :: b :: l) = (if b < a then 1 else 0) + descents (b :: l) := rfl

theorem descents_le (a : Nat) (l : List Nat) : descents (a :: l) ≤ l.length := by
  induction l generalizing a with
  | nil => exact le_refl 0
  | cons b l ih =>
    have := ih b
    rw [descents_cons_cons, List.length_cons]
    split <;> omega

section
variable {m : Nat}

/-- A greatest number is put behind the first one, somewhere. -/
theorem sum_descents_cons_insertIdx {a : Nat} {l : List Nat} (first : a < m)
    (rest : ∀ b ∈ l, b < m) (weight : Nat → Nat) :
    ∑ p ∈ range (l.length + 1), weight (descents (a :: l.insertIdx p m)) =
      (descents (a :: l) + 1) * weight (descents (a :: l)) +
        (l.length - descents (a :: l)) * weight (descents (a :: l) + 1) := by
  induction l generalizing a weight with
  | nil =>
    have up : descents [a, m] = 0 := by rw [descents_cons_cons, if_neg first.not_gt]; rfl
    simp [up, descents]
  | cons b l ih =>
    obtain ⟨next, others⟩ := List.forall_mem_cons.mp rest
    have few := descents_le b l
    have between : descents (a :: m :: b :: l) = 1 + descents (b :: l) := by
      rw [descents_cons_cons, descents_cons_cons, if_neg first.not_gt, if_pos next, Nat.zero_add]
    rw [List.length_cons, sum_range_succ', List.insertIdx_zero, between]
    simp only [List.insertIdx_succ_cons, descents_cons_cons a b]
    by_cases down : b < a
    · simp only [if_pos down]
      rw [ih next others fun d => weight (1 + d)]
      have left : l.length + 1 - (1 + descents (b :: l)) = l.length - descents (b :: l) := by omega
      rw [left]
      ring_nf
    · simp only [if_neg down, Nat.zero_add]
      rw [ih next others weight]
      have left : l.length + 1 - descents (b :: l) = l.length - descents (b :: l) + 1 := by omega
      rw [left]
      ring_nf

theorem sum_descents_insertIdx {l : List Nat} (below : ∀ a ∈ l, a < m) (weight : Nat → Nat) :
    ∑ p ∈ range (l.length + 1), weight (descents (l.insertIdx p m)) =
      (descents l + 1) * weight (descents l) +
        (l.length - descents l) * weight (descents l + 1) := by
  cases l with
  | nil => simp [descents]
  | cons a l =>
    obtain ⟨first, rest⟩ := List.forall_mem_cons.mp below
    have few := descents_le a l
    have front : descents (m :: a :: l) = 1 + descents (a :: l) := by
      rw [descents_cons_cons, if_pos first]
    rw [List.length_cons, sum_range_succ', List.insertIdx_zero, front]
    simp only [List.insertIdx_succ_cons]
    rw [sum_descents_cons_insertIdx first rest]
    have left : l.length + 1 - descents (a :: l) = l.length - descents (a :: l) + 1 := by omega
    rw [left]
    ring_nf

end

theorem ofFn_eq_insertIdx {n : Nat} (f : Fin (n + 1) → Nat) (p : Fin (n + 1)) :
    List.ofFn f = (List.ofFn fun i => f (p.succAbove i)).insertIdx p (f p) := by
  have inside : (p : Nat) ≤ n := Nat.le_of_lt_succ p.2
  refine List.ext_getElem (by simp [List.length_insertIdx, inside]) fun i hi _ => ?_
  rw [List.length_ofFn] at hi
  rw [List.getElem_ofFn]
  rcases Nat.lt_trichotomy i p with below | here | above
  · have step : p.succAbove ⟨i, by omega⟩ = ⟨i, hi⟩ := Fin.succAbove_of_castSucc_lt _ _ below
    rw [List.getElem_insertIdx_of_lt below, List.getElem_ofFn, step]
  · subst here
    rw [List.getElem_insertIdx_self]
  · have step : p.succAbove ⟨i - 1, by omega⟩ = ⟨i, hi⟩ := by
      rw [Fin.succAbove_of_le_castSucc _ _ (Nat.le_sub_one_of_lt above)]
      exact Fin.ext (Nat.sub_add_cancel (by omega))
    rw [List.getElem_insertIdx_of_gt above, List.getElem_ofFn, step]

open Equiv

variable {n : Nat}

/-- The images of all elements in order. -/
def word (σ : Perm (Fin n)) : List Nat := List.ofFn fun i => (σ i : Nat)

/-- The permutation of one element more that has the greatest one at a place. -/
def place (p : Fin (n + 1)) (σ : Perm (Fin n)) : Perm (Fin (n + 1)) :=
  (finSuccEquiv' p).trans (σ.optionCongr.trans (finSuccEquiv' (Fin.last n)).symm)

theorem place_self (p : Fin (n + 1)) (σ : Perm (Fin n)) : place p σ p = Fin.last n := by
  simp [place]

theorem place_succAbove (p : Fin (n + 1)) (σ : Perm (Fin n)) (i : Fin n) :
    place p σ (p.succAbove i) = (σ i).castSucc := by
  simp [place]

theorem word_place (p : Fin (n + 1)) (σ : Perm (Fin n)) :
    word (place p σ) = (word σ).insertIdx p n := by
  rw [word, ofFn_eq_insertIdx _ p, place_self]
  simp only [place_succAbove]
  rfl

theorem place_bijective :
    Function.Bijective fun pair : Fin (n + 1) × Perm (Fin n) => place pair.1 pair.2 := by
  refine (Fintype.bijective_iff_injective_and_card _).mpr ⟨?_, ?_⟩
  · rintro ⟨p, σ⟩ ⟨q, τ⟩ same
    change place p σ = place q τ at same
    obtain rfl : p = q := by
      apply (place q τ).injective
      rw [place_self, ← same, place_self]
    have images (i : Fin n) : σ i = τ i := by
      have := congrArg (fun π : Perm (Fin (n + 1)) => π (p.succAbove i)) same
      simpa only [place_succAbove, Fin.castSucc_inj] using this
    rw [Equiv.ext images]
  · rw [Fintype.card_prod, Fintype.card_perm, Fintype.card_perm, Fintype.card_fin,
      Fintype.card_fin, Nat.factorial_succ]

theorem grows_descents : Grows (fun σ : Perm (Fin n) => descents (word σ))
    (fun σ : Perm (Fin (n + 1)) => descents (word σ)) (fun d => d + 1) (fun d => n - d) := by
  intro weight
  rw [← (Equiv.ofBijective _ place_bijective).sum_comp, Fintype.sum_prod_type_right]
  refine sum_congr rfl fun σ _ => ?_
  have length : (word σ).length = n := List.length_ofFn
  have below : ∀ a ∈ word σ, a < n := by
    intro a ha
    obtain ⟨i, rfl⟩ := List.mem_ofFn.mp ha
    exact (σ i).2
  have sum := sum_descents_insertIdx below weight
  rw [length] at sum
  rw [← sum, ← Fin.sum_univ_eq_sum_range (fun p => weight (descents ((word σ).insertIdx p n)))]
  refine sum_congr rfl fun p _ => ?_
  rw [← word_place]
  rfl

/-- The number of permutations of `n` elements with `k` descents. -/
noncomputable def withDescents (n : Nat) : Int → Nat :=
  tally fun σ : Perm (Fin n) => descents (word σ)

theorem withDescents_zero (k : Nat) : withDescents 0 k = if k = 0 then 1 else 0 := by
  have none : descents (word (default : Perm (Fin 0))) = 0 := rfl
  rw [withDescents, tally_unique, none]
  exact if_congr eq_comm rfl rfl

theorem withDescents_succ_zero (n : Nat) : withDescents (n + 1) 0 = withDescents n 0 :=
  grows_descents.tally_zero.trans (Nat.one_mul _)

theorem withDescents_succ_succ (n k : Nat) : withDescents (n + 1) (k + 1 : Nat) =
    (k + 2) * withDescents n (k + 1 : Nat) + (n - k) * withDescents n k :=
  grows_descents.tally_succ k

theorem withDescents_eq_zero {n k : Nat} (le : n ≤ k) (pos : 0 < k) : withDescents n k = 0 := by
  induction n generalizing k with
  | zero => rw [withDescents_zero, if_neg (by omega)]
  | succ n ih =>
    obtain ⟨j, rfl⟩ := Nat.exists_eq_add_of_lt pos
    have none : n - j = 0 := by omega
    rw [Nat.zero_add, withDescents_succ_succ, ih (by omega) (Nat.succ_pos j), Nat.mul_zero,
      none, Nat.zero_mul]

end Permutations

end FiniteCalculus
