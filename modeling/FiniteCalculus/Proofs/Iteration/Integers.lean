import FiniteCalculus.Proofs.Evaluation.Runs
import FiniteCalculus.Proofs.Iteration.Indices
import Mathlib.Data.Rat.Floor

/-! Ranges of integers. Such a range always comes to an end, its values are known in advance,
and it is gone through backwards by the opposite step, if that step divides its width. -/

namespace FiniteCalculus
set_option autoImplicit false

open Evaluation

namespace Value

@[simp] theorem lt_int (a b : Int) : (int a).lt (int b) = decide (a < b) := by
  rw [Bool.eq_iff_iff]
  simp [lt, compare?_int, Int.compare_eq_lt]

@[simp] theorem le_int (a b : Int) : (int a).le (int b) = decide (a ≤ b) := by
  rw [Bool.eq_iff_iff]
  simp [le, compare?_int, Int.compare_eq_lt, le_iff_lt_or_eq]

@[simp] theorem equal_int (a b : Int) : (int a).equal (int b) = decide (a = b) := by
  rw [Bool.eq_iff_iff]
  simp [equal, compare?_int]

end Value

namespace IndexRange

section
variable {r : IndexRange} {dir : Direction} {i : Value} {vs : List Value}

theorem walk_eq_foldlM (course : r.Course dir i vs) {n : Nat} (enough : vs.length < n)
    (visit : Value → Value → Evaluation Value) (total : Value) :
    r.walk dir visit n i total = (vs ++ [r.last]).foldlM visit total := by
  induction course generalizing n total with
  | arrived past =>
    obtain ⟨n, rfl⟩ := Nat.exists_eq_add_one_of_ne_zero (Nat.ne_of_gt enough)
    rw [walk, past, if_neg Bool.false_ne_true, List.nil_append, List.foldlM_cons]
    exact (bind_pure _).symm
  | @advanced i next vs before hnext _ ih =>
    obtain ⟨n, rfl⟩ := Nat.exists_eq_add_one_of_ne_zero (Nat.ne_of_gt (Nat.zero_lt_of_lt enough))
    rw [walk, before, if_pos rfl, List.cons_append, List.foldlM_cons, hnext]
    refine bind_congr fun total => ?_
    exact (pure_bind _ _).trans (ih (Nat.lt_of_succ_lt_succ enough) total)

/-- A range is folded over its values in order, and one without values is remarked upon. -/
theorem fold_of_yields (first : r.first.isReal) (step : r.step.isReal)
    (yields : r.Yields vs) (visit : Value → Value → Evaluation Value) (total : Value) :
    (vs ≠ [] → r.fold visit total = vs.foldlM visit total) ∧
      (vs = [] → r.fold visit total = do
        record (.noticed (.emptyRange r.first r.last r.step))
        return total) := by
  cases yields with
  | @along dir vs direction course =>
    refine ⟨fun _ => ?_, fun none => absurd none (by simp)⟩
    rw [fold, direction]
    exact walk_eq_foldlM course (course.length_lt_limit direction first step) visit total
  | single direction same =>
    refine ⟨fun _ => ?_, fun none => absurd none (by simp)⟩
    rw [fold, direction]
    simp only [same, if_true, List.foldlM_cons]
    exact (bind_pure _).symm
  | empty direction differ =>
    refine ⟨fun some => absurd rfl some, fun _ => ?_⟩
    rw [fold, direction]
    simp only [differ, Bool.false_eq_true, if_false]

theorem course_of_steps {s : Int} (step : r.step = .int s) (n : Nat) (a : Int)
    (before : ∀ j < n, dir.before (.int (a + j * s)) r.last = true)
    (arrived : dir.before (.int (a + n * s)) r.last = false) :
    r.Course dir (.int a) ((List.range n).map fun j : Nat => .int (a + j * s)) := by
  induction n generalizing a with
  | zero =>
    rw [Nat.cast_zero, Int.zero_mul, Int.add_zero] at arrived
    exact .arrived arrived
  | succ n ih =>
    have shift (j : Nat) : a + ((j + 1 : Nat) : Int) * s = a + s + j * s := by
      rw [Nat.cast_succ, Int.add_mul, Int.one_mul, Int.add_assoc, Int.add_comm s]
    have first := before 0 (Nat.succ_pos n)
    rw [Nat.cast_zero, Int.zero_mul, Int.add_zero] at first
    have rest := ih (a + s) (fun j hj => shift j ▸ before (j + 1) (Nat.succ_lt_succ hj))
      (shift n ▸ arrived)
    have tail : ((List.range n).map fun j : Nat => Value.int (a + s + j * s)) =
        (List.range n).map ((fun j : Nat => Value.int (a + j * s)) ∘ Nat.succ) :=
      List.map_congr_left fun j _ => congrArg Value.int (shift j).symm
    rw [List.range_succ_eq_map, List.map_cons, List.map_map, ← tail, Nat.cast_zero, Int.zero_mul,
      Int.add_zero]
    refine .advanced first ?_ rest
    rw [step]
    rfl

end

/-- How many steps of `d` lead from `a` to `b` or, if they do not meet it, just beyond. -/
def steps (a b d : Int) : Nat := ⌈((b - a : Int) : ℚ) / d⌉.toNat

/-- The integers from `a` on in steps of `d` that come before `b`, and then `b`. -/
def ascending (a b d : Int) : List Int :=
  ((List.range (steps a b d)).map fun j : Nat => a + j * d) ++ [b]

/-- The integers that the range from `a` to `b` in steps of `d` goes through. -/
def integers (a b d : Int) : List Int :=
  if 0 < d ∧ a ≤ b then ascending a b d
  else if d < 0 ∧ b ≤ a then (ascending (-a) (-b) (-d)).map (- ·)
  else if a = b ∧ d = 0 then [a]
  else []

section
variable {a b d : Int}

theorem lt_steps_iff (up : 0 < d) (j : Nat) : j < steps a b d ↔ a + j * d < b := by
  have unit : (0 : ℚ) < d := by exact_mod_cast up
  rw [steps, Int.lt_toNat, Int.lt_ceil, lt_div_iff₀ unit]
  norm_cast
  omega

theorem integers_up (up : 0 < d) (le : a ≤ b) : integers a b d = ascending a b d :=
  if_pos ⟨up, le⟩

theorem integers_down (down : d < 0) (le : b ≤ a) :
    integers a b d = (ascending (-a) (-b) (-d)).map (- ·) := by
  rw [integers, if_neg (by omega), if_pos ⟨down, le⟩]

theorem integers_single (a : Int) : integers a a 0 = [a] := by
  simp [integers]

theorem integers_empty (up : 0 < d → b < a) (down : d < 0 → a < b) (still : d = 0 → a ≠ b) :
    integers a b d = [] := by
  rw [integers, if_neg (by omega), if_neg (by omega), if_neg (by omega)]

/-- There are four kinds of ranges of integers. -/
theorem kinds (a b d : Int) : (0 < d ∧ a ≤ b) ∨ (d < 0 ∧ b ≤ a) ∨ (a = b ∧ d = 0) ∨
    (0 < d → b < a) ∧ (d < 0 → a < b) ∧ (d = 0 → a ≠ b) := by
  omega

theorem direction?_integers (a b d : Int) :
    direction? ⟨.int a, .int b, .int d⟩ =
      if 0 < d ∧ a ≤ b then some .ascending
      else if d < 0 ∧ b ≤ a then some .descending
      else none := by
  simp [direction?, and_comm]

theorem course_up (up : 0 < d) : Course ⟨.int a, .int b, .int d⟩ .ascending (.int a)
    ((List.range (steps a b d)).map fun j : Nat => .int (a + j * d)) := by
  refine course_of_steps rfl _ a (fun j hj => ?_) ?_
  · simpa [Direction.before] using (lt_steps_iff up j).mp hj
  · have past := (lt_steps_iff (a := a) (b := b) up _).not.mp (Nat.lt_irrefl _)
    simpa [Direction.before] using past

theorem course_down (down : d < 0) : Course ⟨.int a, .int b, .int d⟩ .descending (.int a)
    ((List.range (steps (-a) (-b) (-d))).map fun j : Nat => .int (a + j * d)) := by
  have up : 0 < -d := by omega
  have mirror (j : Nat) : b < a + j * d ↔ -a + j * -d < -b := by
    rw [Int.mul_neg]
    omega
  refine course_of_steps rfl _ a (fun j hj => ?_) ?_
  · simpa [Direction.before, mirror] using (lt_steps_iff up j).mp hj
  · have past := (lt_steps_iff (a := -a) (b := -b) up _).not.mp (Nat.lt_irrefl _)
    simpa only [Direction.before, Value.lt_int, decide_eq_false_iff_not, mirror] using past

theorem yields_integers (a b d : Int) :
    Yields ⟨.int a, .int b, .int d⟩ ((integers a b d).map .int) := by
  have direction := direction?_integers a b d
  rcases kinds a b d with ⟨up, le⟩ | ⟨down, le⟩ | ⟨rfl, rfl⟩ | ⟨up, down, still⟩
  · rw [if_pos ⟨up, le⟩] at direction
    rw [integers_up up le, ascending, List.map_append, List.map_map]
    exact .along direction (course_up up)
  · rw [if_neg (by omega), if_pos ⟨down, le⟩] at direction
    rw [integers_down down le, ascending, List.map_append, List.map_append, List.map_map,
      List.map_map]
    have back (j : Nat) : -(-a + j * -d) = a + j * d := by
      rw [Int.mul_neg]
      omega
    simp only [Function.comp_def, back, List.map_cons, List.map_nil, Int.neg_neg]
    exact .along direction (course_down down)
  · rw [integers_single]
    exact .single (by simpa using direction) (by simp)
  · rw [if_neg (by omega), if_neg (by omega)] at direction
    rw [integers_empty up down still]
    refine .empty direction ?_
    simp only [Value.equal_int, decide_eq_false_iff_not]
    omega

/-! What the integers of a range are like. -/

theorem pairwise_ascending (up : 0 < d) : (ascending a b d).Pairwise (· < ·) := by
  rw [ascending, List.pairwise_append, List.pairwise_map]
  refine ⟨List.pairwise_lt_range.imp ?_, List.pairwise_singleton _ _, ?_⟩
  · intro j k lt
    have further := Int.mul_lt_mul_of_pos_right (Int.ofNat_lt.mpr lt) up
    omega
  · intro v hv w hw
    obtain ⟨j, hj, rfl⟩ := List.mem_map.mp hv
    rw [List.mem_singleton.mp hw]
    exact (lt_steps_iff up j).mp (List.mem_range.mp hj)

theorem mem_ascending (up : 0 < d) (le : a ≤ b) {v : Int} (hv : v ∈ ascending a b d) :
    a ≤ v ∧ v ≤ b := by
  rcases List.mem_append.mp hv with hv | hv
  · obtain ⟨j, hj, rfl⟩ := List.mem_map.mp hv
    have before := (lt_steps_iff up j).mp (List.mem_range.mp hj)
    have forth := Int.mul_nonneg (Int.natCast_nonneg j) up.le
    omega
  · rw [List.mem_singleton.mp hv]
    exact ⟨le, Int.le_refl b⟩

theorem length_ascending (a b d : Int) : (ascending a b d).length = steps a b d + 1 := by
  simp [ascending]

theorem steps_eq_ceil (up : 0 < d) (le : a ≤ b) :
    (steps a b d : Int) = ⌈(|b - a| : ℚ) / |(d : ℚ)|⌉ := by
  have width : (0 : ℚ) ≤ b - a := by exact_mod_cast (by omega : 0 ≤ b - a)
  have unit : (0 : ℚ) < d := by exact_mod_cast up
  have nonneg : 0 ≤ ⌈((b - a : Int) : ℚ) / d⌉ := by
    apply Int.ceil_nonneg
    push_cast
    exact div_nonneg width unit.le
  rw [steps, Int.toNat_of_nonneg nonneg, abs_of_nonneg width, abs_of_pos unit]
  push_cast
  rfl

theorem steps_whole (up : 0 < d) (a : Int) (n : Nat) : steps a (a + n * d) d = n := by
  have unit : (d : ℚ) ≠ 0 := by exact_mod_cast up.ne'
  rw [steps, add_sub_cancel_left, Int.cast_mul, Int.cast_natCast, mul_div_cancel_right₀ _ unit,
    Int.ceil_natCast, Int.toNat_natCast]

/-- If whole steps lead to the last value, it is but the next one. -/
theorem ascending_whole (up : 0 < d) (a : Int) (n : Nat) :
    ascending a (a + n * d) d = (List.range (n + 1)).map fun j : Nat => a + j * d := by
  rw [ascending, steps_whole up, List.range_succ, List.map_append, List.map_singleton]

theorem reverse_ascending (up : 0 < d) (a : Int) (n : Nat) :
    (ascending a (a + n * d) d).reverse = (ascending (-(a + n * d)) (-a) d).map (- ·) := by
  have there : -a = -(a + n * d) + n * d := by omega
  rw [there, ascending_whole up, ascending_whole up, ← List.map_reverse, List.map_map,
    List.range_eq_range', List.reverse_range', List.map_map, ← List.range_eq_range']
  refine List.map_congr_left fun j hj => ?_
  have le := Nat.lt_succ_iff.mp (List.mem_range.mp hj)
  obtain ⟨k, rfl⟩ := Nat.exists_eq_add_of_le le
  have index : 0 + (j + k + 1) - 1 - j = k := by omega
  simp only [Function.comp_apply, index, Nat.cast_add, Int.add_mul]
  omega

theorem integers_consecutive (a b : Int) :
    integers a b 1 = (List.range (b + 1 - a).toNat).map fun j : Nat => a + (j : Int) := by
  rcases lt_or_ge b a with lt | le
  · have none : (b + 1 - a).toNat = 0 := by omega
    rw [integers_empty (fun _ => lt) (by omega) (by omega), none]
    rfl
  · obtain ⟨n, rfl⟩ := Int.le.dest le
    have count : (a + n + 1 - a).toNat = n + 1 := by omega
    have whole := ascending_whole Int.one_pos a n
    simp only [Int.mul_one] at whole
    rw [integers_up Int.one_pos le, whole, count]

theorem exists_steps (up : 0 < d) (le : a ≤ b) (whole : d ∣ b - a) : ∃ n : Nat, b = a + n * d := by
  obtain ⟨k, hk⟩ := whole
  have nonneg : 0 ≤ k := nonneg_of_mul_nonneg_right (hk ▸ Int.sub_nonneg.mpr le) up
  obtain ⟨n, rfl⟩ := Int.eq_ofNat_of_zero_le nonneg
  exact ⟨n, by rw [Int.mul_comm n d]; omega⟩

/-- The opposite step leads back through the same values. -/
theorem reverse_integers (moving : d ≠ 0) (whole : d ∣ b - a) :
    integers b a (-d) = (integers a b d).reverse := by
  rcases kinds a b d with ⟨up, le⟩ | ⟨down, le⟩ | ⟨_, still⟩ | ⟨up, down, _⟩
  · obtain ⟨n, rfl⟩ := exists_steps up le whole
    rw [integers_up up le, reverse_ascending up, integers_down (by omega) le, Int.neg_neg]
  · have back : -d ∣ -b - -a := by
      rw [show -b - -a = -(b - a) by omega]
      exact Int.neg_dvd.mpr (Int.dvd_neg.mpr whole)
    obtain ⟨n, hn⟩ := exists_steps (by omega : 0 < -d) (by omega : -a ≤ -b) back
    rw [integers_down down le, ← List.map_reverse, hn, reverse_ascending (by omega), ← hn,
      Int.neg_neg, Int.neg_neg, integers_up (by omega) le, List.map_map]
    simp
  · exact absurd still moving
  · rw [integers_empty up down (by omega), integers_empty (by omega) (by omega) (by omega)]
    rfl

theorem increasing_integers (up : 0 < d) : (integers a b d).Pairwise (· < ·) := by
  rcases le_or_gt a b with le | gt
  · rw [integers_up up le]
    exact pairwise_ascending up
  · rw [integers_empty (fun _ => gt) (by omega) (by omega)]
    exact .nil

theorem decreasing_integers (down : d < 0) : (integers a b d).Pairwise (· > ·) := by
  rcases le_or_gt b a with le | gt
  · rw [integers_down down le, List.pairwise_map]
    refine (pairwise_ascending (by omega)).imp fun lt => ?_
    omega
  · rw [integers_empty (by omega) (fun _ => gt) (by omega)]
    exact .nil

theorem nodup_integers (a b d : Int) : (integers a b d).Nodup := by
  rcases lt_trichotomy d 0 with down | rfl | up
  · exact (decreasing_integers down).imp fun gt => gt.ne'
  · rcases eq_or_ne a b with rfl | ne
    · rw [integers_single]
      exact List.nodup_singleton a
    · rw [integers_empty (by omega) (by omega) (fun _ => ne)]
      exact List.nodup_nil
  · exact (increasing_integers up).imp fun lt => lt.ne

theorem mem_integers {v : Int} (hv : v ∈ integers a b d) : min a b ≤ v ∧ v ≤ max a b := by
  rcases kinds a b d with ⟨up, le⟩ | ⟨down, le⟩ | ⟨rfl, rfl⟩ | ⟨up, down, still⟩
  · rw [integers_up up le] at hv
    have between := mem_ascending up le hv
    omega
  · rw [integers_down down le] at hv
    obtain ⟨w, hw, rfl⟩ := List.mem_map.mp hv
    have between := mem_ascending (by omega) (by omega) hw
    omega
  · rw [integers_single, List.mem_singleton] at hv
    omega
  · rw [integers_empty up down still] at hv
    cases hv

theorem getLast?_integers (nonempty : integers a b d ≠ []) : (integers a b d).getLast? = some b := by
  rcases kinds a b d with ⟨up, le⟩ | ⟨down, le⟩ | ⟨rfl, rfl⟩ | ⟨up, down, still⟩
  · simp [integers_up up le, ascending]
  · simp [integers_down down le, ascending]
  · simp [integers_single]
  · exact absurd (integers_empty up down still) nonempty

theorem length_integers (nonempty : integers a b d ≠ []) (moving : d ≠ 0) :
    ((integers a b d).length : Int) = 1 + ⌈(|b - a| : ℚ) / |(d : ℚ)|⌉ := by
  rcases kinds a b d with ⟨up, le⟩ | ⟨down, le⟩ | ⟨_, still⟩ | ⟨up, down, still⟩
  · rw [integers_up up le, length_ascending, Nat.cast_succ, steps_eq_ceil up le, Int.add_comm]
  · rw [integers_down down le, List.length_map, length_ascending, Nat.cast_succ,
      steps_eq_ceil (by omega) (by omega), Int.add_comm]
    push_cast
    rw [abs_neg, neg_sub_neg, abs_sub_comm]
  · exact absurd still moving
  · exact absurd (integers_empty up down still) nonempty

/-- The integers of a range are gone through in order, each once, if there are any; otherwise
this is remarked upon, once. They lead from the first bound to the last one, and are as many
as it takes. -/
theorem integers_visited (a b d : Int) :
    (∀ (visit : Value → Value → Evaluation Value) (total : Value),
      (integers a b d ≠ [] → fold ⟨.int a, .int b, .int d⟩ visit total =
        ((integers a b d).map .int).foldlM visit total) ∧
      (integers a b d = [] → fold ⟨.int a, .int b, .int d⟩ visit total = do
        record (.noticed (.emptyRange (.int a) (.int b) (.int d)))
        return total)) ∧
    (0 < d → (integers a b d).Pairwise (· < ·)) ∧
    (d < 0 → (integers a b d).Pairwise (· > ·)) ∧
    (integers a b d).Nodup ∧
    (∀ v ∈ integers a b d, min a b ≤ v ∧ v ≤ max a b) ∧
    (integers a b d ≠ [] → (integers a b d).getLast? = some b) ∧
    (integers a b d ≠ [] → d ≠ 0 →
      ((integers a b d).length : Int) = 1 + ⌈(|b - a| : ℚ) / |(d : ℚ)|⌉) ∧
    (d ≠ 0 → d ∣ b - a → integers b a (-d) = (integers a b d).reverse) := by
  refine ⟨fun visit total => ?_, increasing_integers, decreasing_integers, nodup_integers a b d,
    fun v => mem_integers, getLast?_integers, length_integers, reverse_integers⟩
  obtain ⟨visited, remarked⟩ :=
    fold_of_yields rfl rfl (yields_integers a b d) visit total
  exact ⟨fun some => visited (by simpa using some), fun none => remarked (by simpa using none)⟩

end

end IndexRange

end FiniteCalculus
