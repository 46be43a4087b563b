import Mathlib.Combinatorics.Enumerative.Bell
import Mathlib.Data.Setoid.Partition
import Mathlib.SetTheory.Cardinal.NatCard

/-! The Bell numbers count the partitions of a finite set. A new element is put into one
class with some of the old ones, and those that are left are partitioned among
themselves. -/

namespace FiniteCalculus
set_option autoImplicit false

open Finset

namespace Partitions
variable {α β : Type}

/-- The number of partitions of a set of `n` elements. -/
noncomputable def count (n : Nat) : Nat := Nat.card (Setoid.Partitions (Fin n))

instance finite_setoid [Finite α] : Finite (Setoid α) := by
  refine Finite.of_injective (fun (r : Setoid α) (a b : α) => r a b) fun r s same => ?_
  exact Setoid.ext fun a b => iff_of_eq (congrFun₂ same a b)

/-- The equivalences of a set carried over to another one. -/
def setoidCongr (e : α ≃ β) : Setoid α ≃ Setoid β where
  toFun := Setoid.comap e.symm
  invFun := Setoid.comap e
  left_inv r := Setoid.ext fun a b => by simp [Setoid.comap_rel]
  right_inv r := Setoid.ext fun a b => by simp [Setoid.comap_rel]

theorem card_setoid_congr (e : α ≃ β) : Nat.card (Setoid α) = Nat.card (Setoid β) :=
  Nat.card_congr (setoidCongr e)

/-- The class of an element in a partition of the others that are not with the new one. -/
noncomputable def place (t : Set α) (r : Setoid t) : Option α → Option (Quotient r)
  | none => none
  | some a => open Classical in if h : a ∈ t then some (Quotient.mk r ⟨a, h⟩) else none

theorem place_eq_none {t : Set α} {r : Setoid t} {a : α} : place t r (some a) = none ↔ a ∉ t := by
  simp [place]

theorem place_of_mem {t : Set α} {r : Setoid t} (a : t) :
    place t r (some a) = some (Quotient.mk r a) := by
  simp [place]

/-- The partition with one more element, which is with all those that were left out. -/
noncomputable def insert (part : (t : Set α) × Setoid t) : Setoid (Option α) :=
  Setoid.ker (place part.1 part.2)

theorem insert_injective : Function.Injective (insert (α := α)) := by
  rintro ⟨t, r⟩ ⟨u, s⟩ same
  have rel (x y : Option α) : place t r x = place t r y ↔ place u s x = place u s y := by
    exact iff_of_eq (congrArg (fun p : Setoid (Option α) => p x y) same)
  have left : t = u := by
    ext a
    have apart := not_congr (rel (some a) none)
    change ¬ place t r (some a) = none ↔ ¬ place u s (some a) = none at apart
    rwa [place_eq_none, place_eq_none, not_not, not_not] at apart
  subst left
  have right : r = s := by
    refine Setoid.ext fun a b => ?_
    have together := rel (some a) (some b)
    rw [place_of_mem, place_of_mem, place_of_mem, place_of_mem, Option.some.injEq,
      Option.some.injEq, Quotient.eq, Quotient.eq] at together
    exact together
  rw [right]

theorem insert_surjective : Function.Surjective (insert (α := α)) := by
  intro p
  let t : Set α := {a | ¬ p (some a) none}
  let r : Setoid t := p.comap fun a => some a.1
  refine ⟨⟨t, r⟩, Setoid.ext fun x y => ?_⟩
  change place t r x = place t r y ↔ p x y
  -- Whatever is not placed is with the new element.
  have unplaced (x : Option α) : place t r x = none ↔ p x none := by
    cases x with
    | none => exact iff_of_true rfl (p.refl none)
    | some a => rw [place_eq_none]; exact not_not
  by_cases hx : p x none
  · have noX := (unplaced x).mpr hx
    rw [noX, eq_comm, unplaced]
    constructor
    · intro hy
      exact p.trans hx (p.symm hy)
    · intro together
      exact p.trans (p.symm together) hx
  · by_cases hy : p y none
    · have noY := (unplaced y).mpr hy
      rw [noY, unplaced]
      refine iff_of_false hx fun together => hx (p.trans together hy)
    · cases x with
      | none => exact absurd (p.refl none) hx
      | some a =>
        cases y with
        | none => exact absurd (p.refl none) hy
        | some b =>
          have first : place t r (some a) = some (Quotient.mk r ⟨a, hx⟩) := place_of_mem ⟨a, hx⟩
          have second : place t r (some b) = some (Quotient.mk r ⟨b, hy⟩) := place_of_mem ⟨b, hy⟩
          rw [first, second, Option.some.injEq, Quotient.eq]
          exact Iff.rfl

theorem card_setoid_option (n : Nat) :
    Nat.card (Setoid (Option (Fin n))) = ∑ t : Set (Fin n), Nat.card (Setoid t) := by
  rw [← Nat.card_eq_of_bijective insert ⟨insert_injective, insert_surjective⟩, Nat.card_sigma]

theorem sum_choose_mul_bell (n : Nat) :
    ∑ k ∈ range (n + 1), n.choose k * k.bell = (n + 1).bell := by
  rw [Nat.bell_succ', Finset.Nat.sum_antidiagonal_eq_sum_range_succ_mk,
    ← Finset.sum_range_reflect]
  refine Finset.sum_congr rfl fun k hk => ?_
  have le : k ≤ n := Nat.le_of_lt_succ (Finset.mem_range.mp hk)
  rw [Nat.add_sub_cancel, Nat.choose_symm le]

theorem card_setoid_fin (n : Nat) : Nat.card (Setoid (Fin n)) = n.bell := by
  induction n using Nat.strong_induction_on with
  | _ n ih =>
    cases n with
    | zero =>
      have : Unique (Setoid (Fin 0)) :=
        ⟨⟨⊥⟩, fun r => Setoid.ext fun a => a.elim0⟩
      rw [Nat.card_unique, Nat.bell_zero]
    | succ n =>
      have smaller (t : Set (Fin n)) : Nat.card (Setoid t) = (Nat.card t).bell := by
        have le : Nat.card t ≤ n := by
          simpa using Nat.card_le_card_of_injective (Subtype.val : t → Fin n) Subtype.val_injective
        rw [card_setoid_congr (Finite.equivFin t), ih _ (Nat.lt_succ_of_le le)]
      calc Nat.card (Setoid (Fin (n + 1))) = Nat.card (Setoid (Option (Fin n))) :=
            card_setoid_congr (finSuccEquiv n)
        _ = ∑ t : Set (Fin n), (Nat.card t).bell := by
            rw [card_setoid_option]
            exact Finset.sum_congr rfl fun t _ => smaller t
        _ = ∑ t : Finset (Fin n), t.card.bell := by
            rw [← Fintype.finsetEquivSet.sum_comp]
            simp
        _ = ∑ k ∈ range (n + 1), n.choose k * k.bell := by
            rw [← Finset.powerset_univ, Finset.sum_powerset_apply_card Nat.bell]
            simp
        _ = (n + 1).bell := sum_choose_mul_bell n

/-- The Bell numbers count partitions. -/
theorem count_eq_bell (n : Nat) : count n = n.bell := by
  rw [count, ← card_setoid_fin]
  exact (Nat.card_congr (Setoid.Partition.orderIso (Fin n)).toEquiv).symm

end Partitions

end FiniteCalculus
