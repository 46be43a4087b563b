import FiniteCalculus.Proofs.Iteration.Doubles
import FiniteCalculus.Proofs.Iteration.Lockstep

/-! When ranges come to an end. An index that is moved by every step comes closer to the last
value, past one double after another or past one integer after another, and there are only so
many of them. But beside a large index a step can be lost, and such an index stays where it is
for ever. -/

namespace FiniteCalculus
set_option autoImplicit false

open Evaluation

namespace Double

instance instFinite : Finite Float :=
  Finite.of_injective
    (fun z : Float => (⟨z.toModel.toBits.toNat, UInt64.toNat_lt _⟩ : Fin (2 ^ 64)))
    fun _ _ same => bits_injective (UInt64.toNat_inj.mp (Fin.mk.inj same))

end Double

namespace Value

/-- The number that a real value is as a double. -/
def RoundsTo (v : Value) (q : ℚ) : Prop := ∃ x, v.toDouble = .ok x ∧ Double.toRat? x = some q

theorem RoundsTo.isReal {v : Value} {q : ℚ} (h : v.RoundsTo q) : v.isReal := by
  obtain ⟨x, hx, _⟩ := h
  exact isReal_of_isNaN (isNaN_of_toDouble hx)

theorem RoundsTo.isNaN {v : Value} {q : ℚ} (h : v.RoundsTo q) : v.isNaN = .ok false := by
  obtain ⟨x, hx, hq⟩ := h
  rw [isNaN_of_toDouble hx, (Double.finite_of_toRat? hq).1]

theorem exists_roundsTo {x : Float} (number : x.isNaN = false) (bounded : x.isInf = false) :
    ∃ q, (double x).RoundsTo q := by
  obtain ⟨q, hq⟩ := Double.exists_toRat? number bounded
  exact ⟨q, x, rfl, hq⟩

theorem isRounded_toDouble {v : Value} {x : Float} {q : ℚ} (h : v.toDouble = .ok x)
    (hq : v.toRat? = some q) : Double.IsRounded q x := by
  cases v with
  | int n =>
    cases hq
    rw [toDouble_int_eq_ok h]
    exact Double.isRounded_nearestToInt n
  | double y =>
    cases h
    exact Double.isRounded_of_toRat? hq
  | bool b =>
    cases h
    cases hq
    cases b with
    | false =>
      have zero := Double.toRat?_of_zero (x := 0.0) (s := false) (e := -1074) (by decide)
      exact Double.isRounded_of_toRat? (by simpa using zero)
    | true => exact Double.isRounded_of_toRat? (by simpa using Double.toRat?_one)
  | _ => cases hq

/-- A sum of real numbers that are not both integers is the sum of doubles. -/
theorem add_of_toDouble {v w : Value} {x y : Float} (hv : v.toDouble = .ok x)
    (hw : w.toDouble = .ok y) (mixed : v.integer? = none ∨ w.integer? = none) :
    v.add w = .ok (double (x + y)) := by
  have left := isReal_of_isNaN (isNaN_of_toDouble hv)
  have right := isReal_of_isNaN (isNaN_of_toDouble hw)
  unfold add
  split
  · cases hv
  · unfold arithmetic
    split
    · rename_i hm hn
      rcases mixed with none | none
      · rw [none] at hm
        cases hm
      · rw [none] at hn
        cases hn
    · rw [left, right, hv, hw]
      rfl

end Value

namespace Direction

theorem before_irrefl (d : Direction) (v : Value) : ¬ d.before v v = true := by
  intro h
  obtain ⟨p, q, hp, hq, lt⟩ := (before_iff d v v).mp h
  obtain rfl := Option.some.inj (hp.symm.trans hq)
  cases d with
  | ascending => exact lt_irrefl p lt
  | descending => exact lt_irrefl p lt

/-- There is an end to the doubles that come one after another. -/
theorem wellFounded_after (d : Direction) :
    WellFounded fun y z : Float => d.before (.double z) (.double y) = true := by
  have : IsTrans Float fun y z => d.before (.double z) (.double y) = true :=
    ⟨fun _ _ _ h h' => before_trans h' h⟩
  have : Std.Irrefl fun y z : Float => d.before (.double z) (.double y) = true :=
    ⟨fun z => before_irrefl d (.double z)⟩
  exact Finite.wellFounded_of_trans_of_irrefl _

/-- A step that leads somewhere leads there as a double. -/
theorem before_toDouble {d : Direction} {v : Value} {x : Float} (h : v.toDouble = .ok x)
    (leads : d.before (.int 0) v = true) : d.before (.int 0) (.double x) = true := by
  cases hv : v.integer? with
  | none =>
    have real := Value.isReal_of_isNaN (Value.isNaN_of_toDouble h)
    obtain ⟨y, rfl⟩ := Value.eq_double_of_isReal real hv
    cases h
    exact leads
  | some n =>
    have rounded := Value.isRounded_toDouble h (Value.toRat?_of_integer? hv)
    obtain ⟨p, q, hp, hq, lt⟩ := (before_iff d _ _).mp leads
    obtain rfl := Option.some.inj ((Value.place?_of_integer? hv).symm.trans hq)
    obtain rfl : 0 = p := by simpa [Value.place?] using hp
    cases d with
    | ascending =>
      have up : (0 : ℚ) < n := WithTop.coe_lt_coe.mp (WithBot.coe_lt_coe.mp lt)
      have one : (1 : ℚ) ≤ n := by exact_mod_cast up
      obtain ⟨b, hb, le⟩ := rounded.le_place Double.toRat?_one one
      refine (before_iff _ _ _).mpr ⟨0, b, hp, hb, lt_of_lt_of_le ?_ le⟩
      exact WithBot.coe_lt_coe.mpr (WithTop.coe_lt_coe.mpr zero_lt_one)
    | descending =>
      have down : (n : ℚ) < 0 := WithTop.coe_lt_coe.mp (WithBot.coe_lt_coe.mp lt)
      have one : (n : ℚ) ≤ -1 := by
        have : n ≤ -1 := Int.le_sub_one_of_lt (by exact_mod_cast down)
        exact_mod_cast this
      obtain ⟨b, hb, le⟩ := rounded.place_le Double.toRat?_neg_one one
      refine (before_iff _ _ _).mpr ⟨0, b, hp, hb, lt_of_le_of_lt le ?_⟩
      exact WithBot.coe_lt_coe.mpr (WithTop.coe_lt_coe.mpr (by norm_num))

end Direction

namespace IndexRange

/-- The values that the index of a range comes to. -/
inductive Reaches (r : IndexRange) (d : Direction) : Value → Prop where
  | first : Reaches r d r.first
  | next {i j : Value} : Reaches r d i → d.before i r.last = true → i.add r.step = .ok j →
    Reaches r d j

/-- A range whose index comes to a value that the step does not move. -/
def Stalls (r : IndexRange) : Prop :=
  ∃ d i, r.direction? = some d ∧ r.Reaches d i ∧ d.before i r.last = true ∧ i.add r.step = .ok i

section
variable {r : IndexRange} {d : Direction} {i : Value} {vs : List Value}

theorem Reaches.exists_course (hi : r.Reaches d i) (h : r.Course d r.first vs) :
    ∃ ws, r.Course d i ws := by
  induction hi with
  | first => exact ⟨vs, h⟩
  | next _ before add ih =>
    obtain ⟨ws, course⟩ := ih
    cases course with
    | arrived past =>
      rw [before] at past
      cases past
    | advanced _ add' rest =>
      obtain rfl := Except.ok.inj (add.symm.trans add')
      exact ⟨_, rest⟩

theorem Yields.not_stalls (h : r.Yields vs) : ¬ r.Stalls := by
  rintro ⟨d, i, direction, reached, before, same⟩
  cases h with
  | along direction' course =>
    obtain rfl := Option.some.inj (direction.symm.trans direction')
    obtain ⟨ws, course⟩ := reached.exists_course course
    exact course.add_ne before same
  | single none _ =>
    rw [direction] at none
    cases none
  | empty none _ =>
    rw [direction] at none
    cases none

/-- A double that is moved by the step is moved past a double, and there are only so many. -/
theorem exists_course_of_double {x : Float} {s : ℚ} (step : r.step.toDouble = .ok x)
    (number : Double.toRat? x = some s) (direction : r.direction? = some d) (moves : ¬ r.Stalls)
    (z : Float) (reached : r.Reaches d (.double z)) : ∃ vs, r.Course d (.double z) vs := by
  have leads := Direction.before_toDouble step (leads_of_direction direction).1
  induction z using (Direction.wellFounded_after d).induction with
  | _ z ih =>
    cases before : d.before (.double z) r.last with
    | false => exact ⟨[], .arrived before⟩
    | true =>
      have add := Value.add_of_toDouble (v := .double z) rfl step (.inl rfl)
      have moved : z + x ≠ z := fun same =>
        moves ⟨d, _, direction, reached, before, by rw [add, same]⟩
      obtain ⟨a, _, ha, _, _⟩ := (Direction.before_iff d _ _).mp before
      obtain ⟨b, hb⟩ := Double.exists_place?_add ha number
      obtain ⟨vs, course⟩ := ih (z + x) (Direction.before_add leads ha hb moved)
        (.next reached before add)
      exact ⟨_, .advanced before add course⟩

theorem exists_course_of_measure {s : Int} (step : r.step.integer? = some s) (measure : Int → Nat)
    (lower : ∀ n, d.before (.int n) r.last = true → measure (n + s) < measure n) {n : Int}
    (hi : i.integer? = some n) : ∃ vs, r.Course d i vs := by
  induction hm : measure n using Nat.strong_induction_on generalizing i n with
  | _ m ih =>
    subst hm
    cases before : d.before i r.last with
    | false => exact ⟨[], .arrived before⟩
    | true =>
      have less := lower n (before_of_integer hi ▸ before)
      obtain ⟨vs, course⟩ := ih _ less (i := .int (n + s)) rfl rfl
      exact ⟨_, .advanced before (Value.add_of_integer hi step) course⟩

theorem exists_course_of_integer {s : Int} (step : r.step.integer? = some s)
    (direction : r.direction? = some d) {q : ℚ} (last : r.last.toRat? = some q) {n : Int}
    (hi : i.integer? = some n) : ∃ vs, r.Course d i vs := by
  rcases step_of_direction direction step with ⟨rfl, up⟩ | ⟨rfl, down⟩
  · refine exists_course_of_measure step (fun n => (⌈q⌉ - n).toNat) (fun n h => ?_) hi
    have := Int.lt_ceil.mpr ((Value.lt_iff_of_toRat? (v := .int n) rfl last).mp h)
    omega
  · refine exists_course_of_measure step (fun n => (n - ⌊q⌋).toNat) (fun n h => ?_) hi
    have := Int.floor_lt.mpr ((Value.lt_iff_of_toRat? (w := .int n) last rfl).mp h)
    omega

/-- A range of finite numbers comes to an end if no step leaves its index where it is. -/
theorem exists_yields {p q s : ℚ} (first : r.first.RoundsTo p) (last : r.last.RoundsTo q)
    (step : r.step.RoundsTo s) (moves : ¬ r.Stalls) : ∃ vs, r.Yields vs := by
  cases direction : r.direction? with
  | none =>
    cases same : r.first.equal r.last with
    | true => exact ⟨_, .single direction same⟩
    | false => exact ⟨_, .empty direction same⟩
  | some d =>
    obtain ⟨y, hy, number⟩ := step
    obtain ⟨vs, course⟩ : ∃ vs, r.Course d r.first vs := by
      cases hf : r.first.integer? with
      | none =>
        obtain ⟨z, hz⟩ := Value.eq_double_of_isReal first.isReal hf
        have reached : r.Reaches d (.double z) := hz ▸ .first
        rw [hz]
        exact exists_course_of_double hy number direction moves z reached
      | some a =>
        cases hs : r.step.integer? with
        | some k =>
          obtain ⟨z, hz, exact⟩ := last
          obtain ⟨number, bounded⟩ := Double.finite_of_toRat? exact
          obtain ⟨q', last⟩ := Value.exists_toRat? hz number bounded
          exact exists_course_of_integer hs direction last hf
        | none =>
          -- After one step the index is a double.
          obtain ⟨x, hx, _⟩ := first
          have add := Value.add_of_toDouble hx hy (.inr hs)
          cases before : d.before r.first r.last with
          | false => exact ⟨[], .arrived before⟩
          | true =>
            obtain ⟨vs, course⟩ := exists_course_of_double hy number direction moves (x + y)
              (.next .first before add)
            exact ⟨_, .advanced before add course⟩
    exact ⟨_, .along direction course⟩

theorem Reaches.integer {a k : Int} (first : r.first.integer? = some a)
    (step : r.step.integer? = some k) (h : r.Reaches d i) : ∃ n, i.integer? = some n := by
  induction h with
  | first => exact ⟨a, first⟩
  | next _ _ add ih =>
    obtain ⟨n, hn⟩ := ih
    exact ⟨n + k, Value.integer_add hn step add⟩

theorem not_stalls_of_integers {a k : Int} (first : r.first.integer? = some a)
    (step : r.step.integer? = some k) : ¬ r.Stalls := by
  rintro ⟨d, i, direction, reached, _, same⟩
  obtain ⟨n, hn⟩ := reached.integer first step
  have moved := Option.some.inj (hn.symm.trans (Value.integer_add hn step same))
  rcases step_of_direction direction step with ⟨_, up⟩ | ⟨_, down⟩
  · omega
  · omega

/-- An index that is not the first value any more is a double, and does not lie before it. -/
theorem Reaches.beyond {x y : Float} {p : Place} {s : ℚ} (first : r.first.toDouble = .ok x)
    (hx : Double.place? x = some p) (step : r.step.toDouble = .ok y)
    (hy : Double.toRat? y = some s)
    (mixed : r.first.integer? = none ∨ r.step.integer? = none)
    (leads : d.before (.int 0) (.double y) = true) (h : r.Reaches d i) :
    i = r.first ∨ ∃ z b, i = .double z ∧ Double.place? z = some b ∧ ¬ d.Precedes b p := by
  have side {z : Float} {a : Place} (ha : Double.place? z = some a) :
      ∃ b, Double.place? (z + y) = some b ∧ ¬ d.Precedes b a := by
    obtain ⟨o, t, ho, ht, lt⟩ := (Direction.before_iff d _ _).mp leads
    obtain rfl : 0 = o := by simpa [Value.place?] using ho
    obtain ⟨b, hb⟩ := Double.exists_place?_add ha hy
    obtain ⟨up, down⟩ := Double.add_side ha ht hb
    refine ⟨b, hb, ?_⟩
    cases d with
    | ascending => exact not_lt.mpr (up (le_of_lt lt))
    | descending => exact not_lt.mpr (down (le_of_lt lt))
  have beyond {a b : Place} (h : ¬ d.Precedes b a) (h' : ¬ d.Precedes a p) : ¬ d.Precedes b p := by
    cases d with
    | ascending => exact not_lt.mpr ((not_lt.mp h').trans (not_lt.mp h))
    | descending => exact not_lt.mpr ((not_lt.mp h).trans (not_lt.mp h'))
  induction h with
  | first => exact .inl rfl
  | next _ _ add ih =>
    refine .inr ?_
    rcases ih with rfl | ⟨z, a, rfl, ha, further⟩
    · rw [Value.add_of_toDouble first step mixed] at add
      obtain ⟨b, hb, further⟩ := side hx
      exact ⟨_, b, (Except.ok.inj add).symm, hb, further⟩
    · rw [Value.add_of_toDouble (v := .double z) rfl step (.inl rfl)] at add
      obtain ⟨b, hb, further'⟩ := side ha
      exact ⟨_, b, (Except.ok.inj add).symm, hb, beyond further' further⟩

theorem exists_toRat?_of_between {z : Float} {b : Place} {p q : ℚ} (hb : Double.place? z = some b)
    (below : ¬ d.Precedes b (p : WithTop ℚ)) (above : d.Precedes b (q : WithTop ℚ)) :
    ∃ n, Double.toRat? z = some n := by
  rcases Double.place_cases z with ⟨_, hz⟩ | ⟨_, hz⟩ | ⟨_, hz⟩ | ⟨n, hn, _⟩
  · rw [hb] at hz
    cases hz
  · obtain rfl := Option.some.inj (hb.symm.trans hz)
    cases d with
    | ascending => exact absurd (WithBot.bot_lt_coe _) below
    | descending => exact absurd above not_lt_bot
  · obtain rfl := Option.some.inj (hb.symm.trans hz)
    cases d with
    | ascending => exact absurd above not_top_lt
    | descending => exact absurd (WithBot.coe_lt_coe.mpr (WithTop.coe_lt_top p)) below
  · exact ⟨n, hn⟩

/-- A double between two numbers is no larger than both of these are as doubles. -/
theorem abs_le_of_between {z l : Float} {p q q' n : ℚ} (hz : Double.toRat? z = some n)
    (below : ¬ d.Precedes (((n : ℚ) : WithTop ℚ) : Place) (p : WithTop ℚ))
    (above : d.Precedes (((n : ℚ) : WithTop ℚ) : Place) (q : WithTop ℚ))
    (rounded : Double.IsRounded q l) (hl : Double.toRat? l = some q') :
    |n| ≤ max |p| |q'| := by
  cases d with
  | ascending =>
    have le : p ≤ n := WithTop.coe_le_coe.mp (WithBot.coe_le_coe.mp (not_lt.mp below))
    have lt : n < q := WithTop.coe_lt_coe.mp (WithBot.coe_lt_coe.mp above)
    obtain ⟨b, hb, le'⟩ := rounded.le_place hz lt.le
    obtain rfl := Option.some.inj ((Double.place?_of_toRat? hl).symm.trans hb)
    exact abs_le_max_abs_abs le (WithTop.coe_le_coe.mp (WithBot.coe_le_coe.mp le'))
  | descending =>
    have le : n ≤ p := WithTop.coe_le_coe.mp (WithBot.coe_le_coe.mp (not_lt.mp below))
    have lt : q < n := WithTop.coe_lt_coe.mp (WithBot.coe_lt_coe.mp above)
    obtain ⟨b, hb, le'⟩ := rounded.place_le hz lt.le
    obtain rfl := Option.some.inj ((Double.place?_of_toRat? hl).symm.trans hb)
    rw [max_comm]
    exact abs_le_max_abs_abs (WithTop.coe_le_coe.mp (WithBot.coe_le_coe.mp le')) le

/-- A step that is lost beside an index is much smaller than one of the bounds. -/
theorem not_stalls_of_large {p q s : ℚ} (first : r.first.RoundsTo p) (last : r.last.RoundsTo q)
    (step : r.step.RoundsTo s) (hp : |p| < 2 ^ 53 * |s|) (hq : |q| < 2 ^ 53 * |s|) :
    ¬ r.Stalls := by
  rintro ⟨d, i, direction, reached, before, same⟩
  obtain ⟨x, hx, nx⟩ := first
  obtain ⟨y, hy, ny⟩ := step
  by_cases mixed : r.first.integer? = none ∨ r.step.integer? = none
  · have leads := Direction.before_toDouble hy (leads_of_direction direction).1
    rcases reached.beyond hx (Double.place?_of_toRat? nx) hy ny mixed leads with
      rfl | ⟨z, b, rfl, hb, further⟩
    · rw [Value.add_of_toDouble hx hy mixed] at same
      rw [← Except.ok.inj same] at hx
      exact absurd (Double.lost_le nx ny (Except.ok.inj hx)) (not_le.mpr hp)
    · rw [Value.add_of_toDouble (v := .double z) rfl hy (.inl rfl)] at same
      obtain ⟨l, hl, nl⟩ := last
      obtain ⟨number, bounded⟩ := Double.finite_of_toRat? nl
      obtain ⟨q', hq'⟩ := Value.exists_toRat? hl number bounded
      obtain ⟨b', _, hb', hlast, lt⟩ := (Direction.before_iff d _ _).mp before
      obtain rfl := Option.some.inj (hb.symm.trans hb')
      obtain rfl := Option.some.inj ((Value.place?_of_toRat? hq').symm.trans hlast)
      obtain ⟨n, hn⟩ := exists_toRat?_of_between hb further lt
      obtain rfl := Option.some.inj ((Double.place?_of_toRat? hn).symm.trans hb)
      have small := abs_le_of_between hn further lt (Value.isRounded_toDouble hl hq') nl
      have lost := Double.lost_le hn ny (Value.double.inj (Except.ok.inj same))
      exact absurd (lost.trans small) (not_le.mpr (max_lt hp hq))
  · obtain ⟨hf, hs⟩ := not_or.mp mixed
    obtain ⟨a, ha⟩ := Option.ne_none_iff_exists'.mp hf
    obtain ⟨k, hk⟩ := Option.ne_none_iff_exists'.mp hs
    exact not_stalls_of_integers ha hk ⟨d, i, direction, reached, before, same⟩

variable {visit : Value → Value → Evaluation Value} {total u : Value} {t : Situation}

theorem exists_course_of_walk {n : Nat} (h : (r.walk d visit n i total).result t = .ok u) :
    ∃ vs, r.Course d i vs := by
  induction n generalizing i total t with
  | zero => cases h
  | succ n ih =>
    cases before : d.before i r.last with
    | false => exact ⟨[], .arrived before⟩
    | true =>
      rw [walk, before, if_pos rfl, result_bind] at h
      split at h
      · rw [result_bind, result_lift] at h
        split at h
        · rename_i add
          obtain ⟨vs, course⟩ := ih h
          exact ⟨_, .advanced before add course⟩
        · cases h
      · cases h

theorem exists_yields_of_fold (h : (r.fold visit total).result t = .ok u) :
    ∃ vs, r.Yields vs := by
  cases direction : r.direction? with
  | some d =>
    rw [fold, direction] at h
    obtain ⟨vs, course⟩ := exists_course_of_walk h
    exact ⟨_, .along direction course⟩
  | none =>
    cases same : r.first.equal r.last with
    | true => exact ⟨_, .single direction same⟩
    | false => exact ⟨_, .empty direction same⟩

end

section
variable {r : IndexRange} {p q s : ℚ} (first : r.first.RoundsTo p) (last : r.last.RoundsTo q)
  (step : r.step.RoundsTo s)
include first last step

theorem overRange_eq_fold (op : Iteration) (body : Evaluation Value) (index : Argument) :
    op.overRange body index r = r.fold (op.visit body index) op.start := by
  have defined : Value.anyNaN [r.step, r.first, r.last] = .ok false := by
    simp only [Value.anyNaN, step.isNaN, first.isNaN, last.isNaN, ok_bind, Bool.false_eq_true,
      if_false]
  funext t
  rw [Iteration.overRange_apply, defined]

/-- A range of finite numbers comes to an end unless it gets to an index that its step does not
move, and sums and products over it yield a result only in the former case. Integers never stall
it, and neither does a step that is large beside the precision of the bounds. -/
theorem ends_iff_not_stalls :
    ((∃ vs, r.Yields vs) ↔ ¬ r.Stalls) ∧
    (∀ (op : Iteration) (body : Evaluation Value) (index : Argument),
      (∀ vs, r.Yields vs → vs ≠ [] →
        op.overRange body index r = vs.foldlM (op.visit body index) op.start) ∧
      ∀ t u, (op.overRange body index r).result t = .ok u → ¬ r.Stalls) ∧
    (∀ a k, r.first.integer? = some a → r.step.integer? = some k → ¬ r.Stalls) ∧
    (|p| < 2 ^ 53 * |s| → |q| < 2 ^ 53 * |s| → ¬ r.Stalls) := by
  refine ⟨⟨fun ⟨_, yields⟩ => yields.not_stalls, exists_yields first last step⟩, ?_,
    fun _ _ => not_stalls_of_integers, not_stalls_of_large first last step⟩
  intro op body index
  rw [overRange_eq_fold first last step]
  refine ⟨fun vs yields => ?_, fun t u h => ?_⟩
  · exact (fold_of_yields first.isReal step.isReal yields _ _).1
  · obtain ⟨_, yields⟩ := exists_yields_of_fold h
    exact yields.not_stalls

end

theorem zero_to_one_ends :
    ¬ Stalls ⟨.double 0.0, .int 1, .double 1.0⟩ ∧
      ∃ vs, Yields ⟨.double 0.0, .int 1, .double 1.0⟩ vs := by
  have first : (Value.double 0.0).RoundsTo 0 :=
    ⟨0.0, rfl, Double.toRat?_of_zero (s := false) (e := -1074) (by decide)⟩
  have exact : Double.toRat? (Double.nearestToInt 1) = some ((1 : Int) : ℚ) :=
    (Double.isRounded_nearestToInt 1).toRat?_eq (by rw [Int.cast_one, Double.toRat?_one])
  have last : (Value.int 1).RoundsTo 1 :=
    ⟨Double.nearestToInt 1, Double.ofInt_eq (n := 1) (by decide), by rw [exact, Int.cast_one]⟩
  have step : (Value.double 1.0).RoundsTo 1 := ⟨1.0, rfl, Double.toRat?_one⟩
  obtain ⟨ends, _, _, large⟩ :=
    ends_iff_not_stalls (r := ⟨.double 0.0, .int 1, .double 1.0⟩) first last step
  have moves := large (by norm_num) (by norm_num)
  exact ⟨moves, ends.mpr moves⟩

/-- A range of finite doubles need not come to an end: one is too little to be added to so large
a number. -/
theorem large_first_may_stall :
    ¬ ∀ (r : IndexRange) (p q s : ℚ), r.first.RoundsTo p → r.last.RoundsTo q → r.step.RoundsTo s →
        ∃ vs, r.Yields vs := by
  intro h
  obtain ⟨p, first⟩ := Value.exists_roundsTo (x := 1e16) (by decide +kernel) (by decide +kernel)
  obtain ⟨q, last⟩ :=
    Value.exists_roundsTo (x := 1.0000000000000002e16) (by decide +kernel) (by decide +kernel)
  obtain ⟨s, step⟩ := Value.exists_roundsTo (x := 1.0) (by decide +kernel) (by decide +kernel)
  obtain ⟨_, yields⟩ := h ⟨.double 1e16, .double 1.0000000000000002e16, .double 1.0⟩ p q s
    first last step
  have lost : (1e16 + 1.0 : Float) = 1e16 := by decide +kernel
  refine yields.not_stalls ⟨.ascending, _, by decide +kernel, .first, by decide +kernel, ?_⟩
  rw [Value.add_double, lost]

end IndexRange

end FiniteCalculus
