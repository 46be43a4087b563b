import FiniteCalculus.Proofs.Discrete.Partitions
import Mathlib.Algebra.BigOperators.Ring.Finset
import Mathlib.Combinatorics.Enumerative.Stirling
import Mathlib.GroupTheory.Perm.Cycle.Basic
import Mathlib.GroupTheory.Perm.Option

/-! How many permutations have a number of cycles, and how many partitions a number of blocks.
The elements come one at a time. The newest one joins a class of what is there or is a class of
its own, and the number of classes stays or goes up by one. For partitions it can join each of
the classes, and for permutations it can go in front of each element of a cycle. -/

namespace FiniteCalculus
set_option autoImplicit false

open Finset

/-- How many objects have a number. -/
noncomputable def tally {X : Type} (number : X → Nat) (k : Int) : Nat :=
  Nat.card {x // (number x : Int) = k}

section
variable {X Y : Type} {number : X → Nat} {next : Y → Nat}

theorem tally_congr (e : X ≃ Y) (same : ∀ x, next (e x) = number x) :
    tally number = tally next := by
  funext k
  refine Nat.card_congr (e.subtypeEquiv fun x => ?_)
  rw [same]

theorem tally_of_neg {k : Int} (negative : k < 0) : tally number k = 0 := by
  rw [tally, Nat.card_eq_zero]
  refine .inl ⟨fun x => ?_⟩
  have := x.2
  omega

theorem tally_eq_sum [Fintype X] (number : X → Nat) (k : Nat) :
    tally number k = ∑ x, if number x = k then 1 else 0 := by
  classical
  rw [tally, Nat.card_eq_fintype_card, Fintype.card_subtype, card_filter]
  simp only [Nat.cast_inj]

theorem tally_unique [Unique X] (number : X → Nat) (k : Nat) :
    tally number k = if number default = k then 1 else 0 := by
  rw [tally_eq_sum, Fintype.sum_unique]

/-- Every object has successors, which keep its number or raise it by one. How many of them do
either depends on the number alone. -/
def Grows [Fintype X] [Fintype Y] (number : X → Nat) (next : Y → Nat) (kept raised : Nat → Nat) :
    Prop :=
  ∀ weight : Nat → Nat, ∑ y, weight (next y) =
    ∑ x, (kept (number x) * weight (number x) + raised (number x) * weight (number x + 1))

variable [Fintype X] [Fintype Y] {kept raised : Nat → Nat}

theorem Grows.tally_zero (h : Grows number next kept raised) :
    tally next 0 = kept 0 * tally number 0 := by
  have sum := h fun d => if d = 0 then 1 else 0
  rw [← Nat.cast_zero, tally_eq_sum, tally_eq_sum, sum, mul_sum]
  refine sum_congr rfl fun x _ => ?_
  by_cases zero : number x = 0
  · simp [zero]
  · simp [zero]

theorem Grows.tally_succ (h : Grows number next kept raised) (k : Nat) :
    tally next (k + 1 : Nat) =
      kept (k + 1) * tally number (k + 1 : Nat) + raised k * tally number k := by
  have sum := h fun d => if d = k + 1 then 1 else 0
  rw [tally_eq_sum, tally_eq_sum, tally_eq_sum, sum, mul_sum, mul_sum, ← sum_add_distrib]
  refine sum_congr rfl fun x _ => ?_
  by_cases here : number x = k + 1
  · simp [here]
  · by_cases below : number x = k
    · simp [below]
    · simp [here, below]

end

namespace Partitions
variable {α β : Type}

/-- The number of classes of an equivalence. -/
noncomputable def classes (r : Setoid α) : Nat := Nat.card (Quotient r)

/-- The class of each element if there is one more, which joins a class or none. -/
def home (r : Setoid α) (joined : Option (Quotient r)) : Option α → Option (Quotient r)
  | none => joined
  | some a => some (Quotient.mk r a)

/-- The equivalence with one more element. -/
def adjoin (r : Setoid α) (joined : Option (Quotient r)) : Setoid (Option α) :=
  Setoid.ker (home r joined)

section
variable {r : Setoid α}

theorem classes_adjoin_none [Finite α] : classes (adjoin r none) = classes r + 1 := by
  have onto : Function.Surjective (home r none) := by
    intro c
    cases c with
    | none => exact ⟨none, rfl⟩
    | some q =>
      obtain ⟨a, rfl⟩ := Quotient.exists_rep q
      exact ⟨some a, rfl⟩
  rw [classes, adjoin, Nat.card_congr (Setoid.quotientKerEquivOfSurjective _ onto),
    Finite.card_option]
  rfl

theorem classes_adjoin_some (q : Quotient r) : classes (adjoin r (some q)) = classes r := by
  have within (o : Option α) : ∃ c, home r (some q) o = some c := by
    cases o with
    | none => exact ⟨q, rfl⟩
    | some a => exact ⟨_, rfl⟩
  have range : Set.range (home r (some q)) = Set.range some := by
    ext c
    constructor
    · rintro ⟨o, rfl⟩
      obtain ⟨c, hc⟩ := within o
      exact ⟨c, hc.symm⟩
    · rintro ⟨c, rfl⟩
      obtain ⟨a, rfl⟩ := Quotient.exists_rep c
      exact ⟨some a, rfl⟩
  rw [classes, adjoin, Nat.card_congr (Setoid.quotientKerEquivRange _), range,
    Nat.card_range_of_injective (Option.some_injective _)]
  rfl

end

theorem adjoin_injective : Function.Injective
    fun part : (r : Setoid α) × Option (Quotient r) => adjoin part.1 part.2 := by
  rintro ⟨r, c⟩ ⟨s, d⟩ same
  have rel (x y : Option α) : home r c x = home r c y ↔ home s d x = home s d y :=
    iff_of_eq (congrArg (fun p : Setoid (Option α) => p x y) same)
  have old : r = s := by
    refine Setoid.ext fun a b => ?_
    have together := rel (some a) (some b)
    simp only [home, Option.some.injEq, Quotient.eq] at together
    exact together
  subst old
  have joined (a : α) : c = some (Quotient.mk r a) ↔ d = some (Quotient.mk r a) :=
    rel none (some a)
  suffices c = d by rw [this]
  refine Option.ext fun q => ?_
  obtain ⟨a, rfl⟩ := Quotient.exists_rep q
  exact joined a

/-- An equivalence is made of that of the old elements and of the class the new one is in. -/
theorem adjoin_eq {p : Setoid (Option α)} {r : Setoid α} {joined : Option (Quotient r)}
    (old : ∀ a b, r a b ↔ p (some a) (some b))
    (new : ∀ a, joined = some (Quotient.mk r a) ↔ p none (some a)) : adjoin r joined = p := by
  have known (x : Option α) (a : α) : home r joined x = home r joined (some a) ↔ p x (some a) := by
    cases x with
    | none => exact new a
    | some b =>
      change some (Quotient.mk r b) = some (Quotient.mk r a) ↔ _
      rw [Option.some.injEq, Quotient.eq]
      exact old b a
  refine Setoid.ext fun x y => ?_
  cases y with
  | some a => exact known x a
  | none =>
    cases x with
    | none => exact iff_of_true rfl (p.refl none)
    | some a => exact eq_comm.trans ((known none a).trans ⟨p.symm, p.symm⟩)

theorem adjoin_surjective : Function.Surjective
    fun part : (r : Setoid α) × Option (Quotient r) => adjoin part.1 part.2 := by
  intro p
  let r : Setoid α := p.comap some
  by_cases alone : ∃ a : α, p none (some a)
  · obtain ⟨a, ha⟩ := alone
    refine ⟨⟨r, some (Quotient.mk r a)⟩, adjoin_eq (fun _ _ => .rfl) fun b => ?_⟩
    rw [Option.some.injEq, Quotient.eq]
    exact ⟨p.trans ha, p.trans (p.symm ha)⟩
  · refine ⟨⟨r, none⟩, adjoin_eq (fun _ _ => .rfl) fun b => ?_⟩
    exact iff_of_false (Option.some_ne_none _).symm fun hb => alone ⟨b, hb⟩

section
variable [Finite α]

theorem sum_option_classes {Y : Type} [Fintype Y] {f : Option Y → Nat} {d : Nat}
    (alone : f none = d + 1) (joined : ∀ y, f (some y) = d) (weight : Nat → Nat) :
    ∑ o, weight (f o) = Fintype.card Y * weight d + weight (d + 1) := by
  rw [Fintype.sum_option, alone]
  simp only [joined, sum_const, card_univ, smul_eq_mul]
  exact Nat.add_comm _ _

/-- A new element can join each of the classes, or be a class of its own. -/
theorem grows_classes [Fintype (Setoid α)] [Fintype (Setoid (Option α))] :
    Grows (classes (α := α)) (classes (α := Option α)) (fun d => d) (fun _ => 1) := by
  intro weight
  have (r : Setoid α) : Fintype (Quotient r) := Fintype.ofFinite _
  let parts := Equiv.ofBijective _ ⟨adjoin_injective (α := α), adjoin_surjective⟩
  rw [← parts.sum_comp, Fintype.sum_sigma]
  refine sum_congr rfl fun r _ => ?_
  have each := sum_option_classes (f := fun c => classes (adjoin r c)) classes_adjoin_none
    classes_adjoin_some weight
  rw [← Nat.card_eq_fintype_card] at each
  rw [Nat.one_mul]
  exact each

end

/-- The number of partitions of a set of `n` elements into `k` blocks. -/
noncomputable def withBlocks (n : Nat) : Int → Nat :=
  tally fun p : Setoid.Partitions (Fin n) => p.toSet.ncard

theorem withBlocks_eq (n : Nat) : withBlocks n = tally (classes (α := Fin n)) := by
  refine (tally_congr (Setoid.Partition.orderIso (Fin n)).toEquiv fun r => ?_).symm
  exact (Nat.card_congr (Setoid.quotientEquivClasses r)).symm

theorem tally_classes_congr (e : α ≃ β) :
    tally (classes (α := α)) = tally (classes (α := β)) := by
  refine tally_congr (setoidCongr e) fun r => Nat.card_congr (Quotient.congr e.symm fun a b => ?_)
  exact Iff.rfl

theorem withBlocks_eq_stirlingSecond (n k : Nat) : withBlocks n k = n.stirlingSecond k := by
  induction n generalizing k with
  | zero =>
    have : Unique (Setoid (Fin 0)) := ⟨⟨⊥⟩, fun r => Setoid.ext fun a => a.elim0⟩
    have none : classes (default : Setoid (Fin 0)) = 0 := Nat.card_of_isEmpty
    rw [withBlocks_eq, tally_unique, none]
    cases k with
    | zero => rfl
    | succ k => rfl
  | succ n ih =>
    have := Fintype.ofFinite (Setoid (Fin n))
    have := Fintype.ofFinite (Setoid (Option (Fin n)))
    have grows := grows_classes (α := Fin n)
    rw [withBlocks_eq] at ih
    rw [withBlocks_eq, tally_classes_congr (finSuccEquiv n)]
    cases k with
    | zero => exact grows.tally_zero.trans (Nat.zero_mul _)
    | succ k => rw [grows.tally_succ, ih, ih, Nat.one_mul, Nat.stirlingSecond]

end Partitions

namespace Permutations
variable {α β : Type}

open Equiv Equiv.Perm

/-- The number of cycles of a permutation, with one for each element that stays. -/
noncomputable def cycleCount (σ : Perm α) : Nat := Nat.card (Quotient (SameCycle.setoid σ))

/-- What holds from each element to its image holds along cycles. -/
theorem rel_of_sameCycle {r : Setoid α} {σ : Perm α} (step : ∀ a, r a (σ a)) {a b : α}
    (same : σ.SameCycle a b) : r a b := by
  obtain ⟨i, rfl⟩ := same
  induction i generalizing a with
  | zero => exact r.refl a
  | succ i ih =>
    rw [zpow_add_one]
    exact r.trans (step a) ih
  | pred i ih =>
    have back : r (σ⁻¹ a) a := by simpa using step (σ⁻¹ a)
    rw [zpow_sub_one]
    exact r.trans (r.symm back) ih

theorem sameCycle_permCongr (e : α ≃ β) {σ : Perm α} {a b : α} (h : σ.SameCycle a b) :
    (e.permCongr σ).SameCycle (e a) (e b) := by
  refine rel_of_sameCycle (r := (SameCycle.setoid (e.permCongr σ)).comap e) (fun a => ?_) h
  have next : e (σ a) = e.permCongr σ (e a) := by rw [permCongr_apply, symm_apply_apply]
  change (e.permCongr σ).SameCycle (e a) (e (σ a))
  rw [next]
  exact sameCycle_apply_right.mpr (SameCycle.refl _ _)

theorem tally_cycleCount_congr (e : α ≃ β) :
    tally (cycleCount (α := α)) = tally (cycleCount (α := β)) := by
  refine tally_congr e.permCongr fun σ => (Nat.card_congr (Quotient.congr e fun a b => ?_)).symm
  refine ⟨sameCycle_permCongr e, fun h => ?_⟩
  have back := sameCycle_permCongr e.symm h
  rw [← permCongr_symm, symm_apply_apply, symm_apply_apply, symm_apply_apply] at back
  exact back

variable [DecidableEq α]

/-- In a permutation of one element more, this one stands before some element of a cycle, or
alone. -/
theorem setoid_decomposeOption (σ : Perm α) (before : Option α) :
    SameCycle.setoid (decomposeOption.symm (before, σ)) =
      Partitions.adjoin (SameCycle.setoid σ) (before.map (Quotient.mk _)) := by
  let π : Perm (Option α) := decomposeOption.symm (before, σ)
  have new : π none = before := swap_apply_left none before
  have last (a : α) (h : some (σ a) = before) : π (some a) = none := by
    change swap none before (some (σ a)) = none
    rw [h, swap_apply_right]
  have other (a : α) (h : some (σ a) ≠ before) : π (some a) = some (σ a) :=
    swap_apply_of_ne_of_ne (Option.some_ne_none _) h
  have same (a : α) : Quotient.mk (SameCycle.setoid σ) a = Quotient.mk _ (σ a) :=
    Quotient.sound (sameCycle_apply_right.mpr (SameCycle.refl σ a))
  have within {x y : Option α} (h : π.SameCycle x y) :
      Partitions.adjoin (SameCycle.setoid σ) (before.map (Quotient.mk _)) x y := by
    refine rel_of_sameCycle (fun x => ?_) h
    cases x with
    | none =>
      rw [new]
      cases before with
      | none => rfl
      | some c => rfl
    | some a =>
      by_cases h : some (σ a) = before
      · rw [last a h, ← h]
        exact congrArg some (same a)
      · rw [other a h]
        exact congrArg some (same a)
  have kept {a b : α} (h : σ.SameCycle a b) : π.SameCycle (some a) (some b) := by
    refine rel_of_sameCycle (r := (SameCycle.setoid π).comap some) (fun a => ?_) h
    have next : π.SameCycle (some a) (π (some a)) := sameCycle_apply_right.mpr (SameCycle.refl π _)
    by_cases h : some (σ a) = before
    · rw [last a h, ← sameCycle_apply_right, new, ← h] at next
      exact next
    · rw [other a h] at next
      exact next
  refine (Partitions.adjoin_eq (fun a b => ⟨kept, fun h => ?_⟩) fun a => ⟨fun h => ?_, within⟩).symm
  · exact Quotient.exact (Option.some.inj (within h))
  · obtain ⟨c, rfl, hc⟩ := Option.map_eq_some_iff.mp h
    have next : π.SameCycle none (π none) := sameCycle_apply_right.mpr (SameCycle.refl π _)
    rw [new] at next
    exact next.trans (kept (Quotient.exact hc))

/-- A new element can stand before each of the others, or alone. -/
theorem grows_cycleCount [Fintype α] : Grows (cycleCount (α := α)) (cycleCount (α := Option α))
    (fun _ => Fintype.card α) (fun _ => 1) := by
  intro weight
  rw [← (decomposeOption (α := α)).symm.sum_comp, Fintype.sum_prod_type_right]
  refine sum_congr rfl fun σ _ => ?_
  have count (before : Option α) : cycleCount (decomposeOption.symm (before, σ)) =
      Partitions.classes (Partitions.adjoin (SameCycle.setoid σ) (before.map (Quotient.mk _))) := by
    rw [← setoid_decomposeOption]
    rfl
  have each := Partitions.sum_option_classes
    (f := fun before => cycleCount (decomposeOption.symm (before, σ)))
    ((count none).trans Partitions.classes_adjoin_none)
    (fun a => (count (some a)).trans (Partitions.classes_adjoin_some _)) weight
  rw [Nat.one_mul]
  exact each

/-- The number of permutations of `n` elements with `k` cycles. -/
noncomputable def withCycles (n : Nat) : Int → Nat := tally (cycleCount (α := Fin n))

theorem withCycles_eq_stirlingFirst (n k : Nat) : withCycles n k = n.stirlingFirst k := by
  induction n generalizing k with
  | zero =>
    have none : cycleCount (default : Perm (Fin 0)) = 0 := Nat.card_of_isEmpty
    rw [withCycles, tally_unique, none]
    cases k with
    | zero => rfl
    | succ k => rfl
  | succ n ih =>
    have grows := grows_cycleCount (α := Fin n)
    rw [Fintype.card_fin] at grows
    rw [withCycles] at ih
    rw [withCycles, tally_cycleCount_congr (finSuccEquiv n)]
    cases k with
    | zero =>
      rw [Nat.cast_zero, grows.tally_zero, ← Nat.cast_zero, ih]
      cases n with
      | zero => rfl
      | succ n => exact Nat.mul_zero _
    | succ k => rw [grows.tally_succ, ih, ih, Nat.one_mul, Nat.stirlingFirst]

end Permutations

end FiniteCalculus
