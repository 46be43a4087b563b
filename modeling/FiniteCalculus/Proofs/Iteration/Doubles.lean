import FiniteCalculus.Proofs.Double.Sums
import FiniteCalculus.Proofs.Iteration.Integers

/-! Ranges of doubles. Their values are rounded again and again, may run over to an infinity
and may be no number in the end, and yet they go strictly in one direction and never past the
last one: a sum lies on the side where the step leads, and an index that a step does not
move is never moved. -/

namespace FiniteCalculus
set_option autoImplicit false

open Evaluation

namespace Value

theorem lt_double_iff (x y : Float) : (double x).lt (double y) = true ↔ x < y := by
  rw [lt_iff_place, Double.lt_iff_place]
  rfl

theorem zero_lt_double_iff (x : Float) : (int 0).lt (double x) = true ↔ 0 < x := by
  rw [lt_iff_place, Double.lt_iff_place, Double.place?_of_toRat? Double.toRat?_zero]
  rfl

theorem double_lt_zero_iff (x : Float) : (double x).lt (int 0) = true ↔ x < 0 := by
  rw [lt_iff_place, Double.lt_iff_place, Double.place?_of_toRat? Double.toRat?_zero]
  rfl

theorem equal_double (x y : Float) : (double x).equal (double y) = (x == y) := by
  rw [Bool.eq_iff_iff, Double.beq_iff_place]
  change ((double x).compare? (double y) == some .eq) = true ↔ _
  rw [compare?_eq]
  cases hx : (double x).place? with
  | none =>
    have hx' : Double.place? x = none := hx
    simp [hx']
  | some p =>
    have hx' : Double.place? x = some p := hx
    cases hy : (double y).place? with
    | none =>
      have hy' : Double.place? y = none := hy
      simp [hy']
    | some q =>
      have hy' : Double.place? y = some q := hy
      simpa [hx', hy'] using eq_comm

end Value

namespace Direction

/-- Whether a place comes strictly before another one. -/
def Precedes (d : Direction) (p q : Place) : Prop :=
  match d with
  | ascending => p < q
  | descending => q < p

theorem before_iff (d : Direction) (v w : Value) : d.before v w = true ↔
    ∃ p q, v.place? = some p ∧ w.place? = some q ∧ d.Precedes p q := by
  cases d with
  | ascending => exact Value.lt_iff_place v w
  | descending =>
    refine (Value.lt_iff_place w v).trans ?_
    constructor
    · rintro ⟨p, q, hp, hq, lt⟩
      exact ⟨q, p, hq, hp, lt⟩
    · rintro ⟨p, q, hp, hq, lt⟩
      exact ⟨q, p, hq, hp, lt⟩

theorem before_trans {d : Direction} {u v w : Value} (h : d.before u v = true)
    (h' : d.before v w = true) : d.before u w = true := by
  obtain ⟨p, q, hp, hq, lt⟩ := (before_iff d u v).mp h
  obtain ⟨q', r, hq', hr, lt'⟩ := (before_iff d v w).mp h'
  obtain rfl := Option.some.inj (hq.symm.trans hq')
  refine (before_iff d u w).mpr ⟨p, r, hp, hr, ?_⟩
  cases d with
  | ascending => exact lt_trans lt lt'
  | descending => exact lt_trans lt' lt

/-- A step that moves an index moves it where the step leads. -/
theorem before_add {d : Direction} {x y : Float} {a b : Place}
    (leads : d.before (.int 0) (.double y) = true) (hx : Double.place? x = some a)
    (hsum : Double.place? (x + y) = some b) (moved : x + y ≠ x) :
    d.before (.double x) (.double (x + y)) = true := by
  obtain ⟨p, q, hp, hy, lt⟩ := (before_iff d _ _).mp leads
  obtain rfl : 0 = p := by simpa [Value.place?] using hp
  obtain ⟨up, down⟩ := Double.add_side hx hy hsum
  refine (before_iff d _ _).mpr ⟨a, b, hx, hsum, ?_⟩
  have apart (nonzero : q ≠ 0) : a ≠ b := by
    rintro rfl
    exact moved (Double.eq_of_add hx hy nonzero hsum)
  cases d with
  | ascending =>
    have lt : 0 < q := lt
    exact lt_of_le_of_ne (up lt.le) (apart lt.ne')
  | descending =>
    have lt : q < 0 := lt
    exact lt_of_le_of_ne (down lt.le) (apart lt.ne).symm

end Direction

namespace IndexRange

section
variable {r : IndexRange} {d : Direction} {i : Value} {vs : List Value}

theorem leads_of_direction (h : r.direction? = some d) :
    d.before (.int 0) r.step = true ∧
      ∃ p q, r.first.place? = some p ∧ r.last.place? = some q ∧ ¬ d.Precedes q p := by
  unfold direction? at h
  split at h
  · rename_i hcond
    cases h
    obtain ⟨between, leads⟩ := Bool.and_eq_true_iff.mp hcond
    obtain ⟨p, q, hp, hq, le⟩ := (Value.le_iff_place _ _).mp between
    exact ⟨leads, p, q, hp, hq, not_lt.mpr le⟩
  · split at h
    · rename_i hcond
      cases h
      obtain ⟨between, leads⟩ := Bool.and_eq_true_iff.mp hcond
      obtain ⟨q, p, hq, hp, le⟩ := (Value.le_iff_place _ _).mp between
      exact ⟨leads, p, q, hp, hq, not_lt.mpr le⟩
    · cases h

/-- On a course that comes to an end, no step leaves the index where it is. -/
theorem Course.add_ne (h : r.Course d i vs) (before : d.before i r.last = true) :
    i.add r.step ≠ .ok i := by
  intro same
  have whole := h
  cases h with
  | arrived past =>
    rw [before] at past
    cases past
  | advanced _ next rest =>
    rw [same] at next
    cases next
    exact absurd (congrArg List.length (rest.unique whole)) (by simp)

theorem Course.head_eq {v : Value} (h : r.Course d i (v :: vs)) : v = i := by
  cases h
  rfl

/-- A course of doubles goes strictly in its direction, and stays before the last value. -/
theorem Course.strict {y : Float} (step : r.step = .double y)
    (leads : d.before (.int 0) r.step = true) {z : Float} (h : r.Course d (.double z) vs) :
    ∃ zs : List Float, vs = zs.map .double ∧ (∀ x ∈ zs, d.before (.double x) r.last = true) ∧
      zs.Pairwise fun x x' => d.before (.double x) (.double x') = true := by
  generalize hi : Value.double z = i at h
  induction h generalizing z with
  | arrived past => exact ⟨[], rfl, by simp, .nil⟩
  | @advanced i next vs before add rest ih =>
    subst hi
    have moved : z + y ≠ z := by
      intro same
      refine Course.add_ne (.advanced before add rest) before ?_
      rw [step, Value.add_double, same]
    rw [step, Value.add_double] at add
    obtain rfl := Except.ok.inj add
    obtain ⟨zs, rfl, below, ascend⟩ := ih rfl
    -- The values that come after are those from the next one on.
    have after : ∀ x ∈ zs, d.before (.double z) (.double x) = true := by
      cases zs with
      | nil => simp
      | cons x zs =>
        obtain rfl := Value.double.inj rest.head_eq
        obtain ⟨a, _, ha, _, _⟩ := (Direction.before_iff d _ _).mp before
        obtain ⟨b, _, hb, _, _⟩ := (Direction.before_iff d _ _).mp (below (z + y) (by simp))
        have first := Direction.before_add (step ▸ leads) ha hb moved
        intro x hx
        rcases List.mem_cons.mp hx with rfl | hx
        · exact first
        · exact Direction.before_trans first ((List.pairwise_cons.mp ascend).1 x hx)
    refine ⟨z :: zs, rfl, ?_, List.pairwise_cons.mpr ⟨after, ascend⟩⟩
    intro x hx
    rcases List.mem_cons.mp hx with rfl | hx
    · exact before
    · exact below x hx

end

/-- Doubles that go strictly from one bound to the other, in the direction of a step. -/
structure Goes (a b y : Float) (zs : List Float) : Prop where
  first : ∀ z ∈ zs.head?, (z == a) = true
  last : ∀ z ∈ zs.getLast?, (z == b) = true
  before : ∀ z ∈ zs.dropLast, 0 < y ∧ z < b ∨ y < 0 ∧ b < z
  increasing : 0 < y → zs.Pairwise (· < ·)
  decreasing : y < 0 → zs.Pairwise (· > ·)
  number : ∀ z ∈ zs, z.isNaN = false

section
variable {a b y : Float} {d : Direction}

theorem goes_nil (a b y : Float) : Goes a b y [] :=
  ⟨by simp, by simp, by simp, fun _ => .nil, fun _ => .nil, by simp⟩

theorem goes_singleton (number : a.isNaN = false) (same : (a == b) = true) : Goes a b y [a] := by
  have self : (a == a) = true := by simpa using number
  exact ⟨by simpa using self, by simpa using same, by simp, fun _ => List.pairwise_singleton _ _,
    fun _ => List.pairwise_singleton _ _, by simpa using number⟩

theorem isNaN_of_before {x : Float} {v : Value} (h : d.before (.double x) v = true) :
    x.isNaN = false := by
  obtain ⟨p, _, hp, _, _⟩ := (Direction.before_iff d _ _).mp h
  refine Bool.eq_false_iff.mpr fun undefined => ?_
  have none : (Value.double x).place? = none := Double.place?_eq_none_iff.mpr undefined
  rw [none] at hp
  cases hp

theorem goes_along (number : b.isNaN = false)
    (direction : direction? ⟨.double a, .double b, .double y⟩ = some d) {vs : List Value}
    (course : Course ⟨.double a, .double b, .double y⟩ d (.double a) vs) :
    ∃ zs, vs ++ [.double b] = (zs ++ [b]).map .double ∧ Goes a b y (zs ++ [b]) := by
  obtain ⟨leads, p, q, hp, hq, turned⟩ := leads_of_direction direction
  obtain ⟨zs, rfl, before, strict⟩ := course.strict rfl leads
  have self : (b == b) = true := by simpa using number
  refine ⟨zs, by simp, ?_, by simpa using self, ?_, ?_, ?_, ?_⟩
  · cases zs with
    | nil =>
      cases course with
      | arrived past =>
        -- Where no value comes before the last one, the bounds are the same.
        have notBefore : ¬ d.Precedes p q := fun lt => by
          rw [(Direction.before_iff d _ _).mpr ⟨p, q, hp, hq, lt⟩] at past
          cases past
        have same : q = p := by
          cases d with
          | ascending => exact le_antisymm (not_lt.mp notBefore) (not_lt.mp turned)
          | descending => exact le_antisymm (not_lt.mp turned) (not_lt.mp notBefore)
        simpa using (Double.beq_iff_place b a).mpr ⟨p, same ▸ hq, hp⟩
    | cons x zs =>
      obtain rfl := Value.double.inj course.head_eq
      have number := isNaN_of_before (before x (by simp))
      simpa using number
  · intro x hx
    rw [List.dropLast_concat] at hx
    have lt := before x hx
    cases d with
    | ascending =>
      exact .inl ⟨(Value.zero_lt_double_iff y).mp leads, (Value.lt_double_iff x b).mp lt⟩
    | descending =>
      exact .inr ⟨(Value.double_lt_zero_iff y).mp leads, (Value.lt_double_iff b x).mp lt⟩
  · intro up
    cases d with
    | ascending =>
      refine List.pairwise_append.mpr ⟨strict.imp (Value.lt_double_iff _ _).mp,
        List.pairwise_singleton _ _, fun x hx z hz => ?_⟩
      rw [List.mem_singleton.mp hz]
      exact (Value.lt_double_iff x b).mp (before x hx)
    | descending => exact absurd up (Double.lt_asymm ((Value.double_lt_zero_iff y).mp leads))
  · intro down
    cases d with
    | ascending => exact absurd down (Double.lt_asymm ((Value.zero_lt_double_iff y).mp leads))
    | descending =>
      refine List.pairwise_append.mpr ⟨strict.imp (Value.lt_double_iff _ _).mp,
        List.pairwise_singleton _ _, fun x hx z hz => ?_⟩
      rw [List.mem_singleton.mp hz]
      exact (Value.lt_double_iff b x).mp (before x hx)
  · intro x hx
    rcases List.mem_append.mp hx with hx | hx
    · exact isNaN_of_before (before x hx)
    · rwa [List.mem_singleton.mp hx]

theorem direction?_doubles (ha : a.isNaN = false) (hb : b.isNaN = false) (hy : y.isNaN = false) :
    direction? ⟨.double a, .double b, .double y⟩ = none ↔
      (y == 0) = true ∨ 0 < y ∧ b < a ∨ y < 0 ∧ a < b := by
  obtain ⟨p, hp⟩ := Double.exists_place? ha
  obtain ⟨q, hq⟩ := Double.exists_place? hb
  obtain ⟨s, hs⟩ := Double.exists_place? hy
  have origin := Double.place?_of_toRat? Double.toRat?_zero
  have zero : (Value.int 0).place? = some 0 := rfl
  have first : (Value.double a).place? = some p := hp
  have last : (Value.double b).place? = some q := hq
  have step : (Value.double y).place? = some s := hs
  have conditions : direction? ⟨.double a, .double b, .double y⟩ = none ↔
      ¬ (p ≤ q ∧ 0 < s) ∧ ¬ (q ≤ p ∧ s < 0) := by
    rw [← Value.le_iff_le first last, ← Value.lt_iff_lt zero step, ← Value.le_iff_le last first,
      ← Value.lt_iff_lt step zero, ← Bool.and_eq_true_iff, ← Bool.and_eq_true_iff, direction?]
    split
    · simp_all
    · split <;> simp_all
  rw [conditions, Double.beq_iff_eq_places hs origin, Double.lt_iff_lt origin hs,
    Double.lt_iff_lt hs origin, Double.lt_iff_lt hq hp, Double.lt_iff_lt hp hq]
  change _ ↔ s = 0 ∨ 0 < s ∧ q < p ∨ s < 0 ∧ p < q
  rcases lt_trichotomy s 0 with down | rfl | up
  · simp [down, down.ne, down.asymm]
  · simp
  · simp [up, up.ne', up.asymm]

/-- The values of a range of doubles, if there comes an end to them. They go strictly from the
first bound to the last one, and there are none just if the step does not lead there. -/
theorem doubles_visited {a b y : Float} (ha : a.isNaN = false) (hb : b.isNaN = false)
    (hy : y.isNaN = false) {vs : List Value}
    (ends : Yields ⟨.double a, .double b, .double y⟩ vs) :
    ∃ zs : List Float, vs = zs.map .double ∧ Goes a b y zs ∧
      (zs = [] ↔ (a == b) = false ∧ ((y == 0) = true ∨ 0 < y ∧ b < a ∨ y < 0 ∧ a < b)) ∧
      ∀ (visit : Value → Value → Evaluation Value) (total : Value),
        (zs ≠ [] → fold ⟨.double a, .double b, .double y⟩ visit total =
          (zs.map .double).foldlM visit total) ∧
        (zs = [] → fold ⟨.double a, .double b, .double y⟩ visit total = do
          record (.noticed (.emptyRange (.double a) (.double b) (.double y)))
          return total) := by
  rw [← direction?_doubles ha hb hy]
  have visited (zs : List Float) (h : vs = zs.map .double)
      (visit : Value → Value → Evaluation Value) (total : Value) :
      (zs ≠ [] → fold ⟨.double a, .double b, .double y⟩ visit total =
        (zs.map .double).foldlM visit total) ∧
      (zs = [] → fold ⟨.double a, .double b, .double y⟩ visit total = do
        record (.noticed (.emptyRange (.double a) (.double b) (.double y)))
        return total) := by
    obtain ⟨some, none⟩ := fold_of_yields rfl rfl ends visit total
    exact ⟨fun h' => h ▸ some (by simpa [h] using h'), fun h' => none (by simpa [h] using h')⟩
  cases ends with
  | along direction course =>
    obtain ⟨zs, same, goes⟩ := goes_along hb direction course
    refine ⟨zs ++ [b], same, goes, ?_, visited _ same⟩
    rw [direction]
    simp
  | single direction same =>
    rw [Value.equal_double] at same
    exact ⟨[a], rfl, goes_singleton ha same, by simp [same], visited _ rfl⟩
  | empty direction differ =>
    rw [Value.equal_double] at differ
    exact ⟨[], rfl, goes_nil a b y, by simp [direction, differ], visited _ rfl⟩

/-- A tenth that is added to two of them makes more than three of them. -/
theorem tenths_visited :
    Yields ⟨.double 0.0, .double 0.3, .double 0.1⟩
      [.double 0.0, .double 0.1, .double 0.2, .double 0.3] ∧
    (0.3 : Float) < 0.2 + 0.1 ∧ Goes 0.0 0.3 0.1 [0.0, 0.1, 0.2, 0.3] := by
  have once : (0.0 + 0.1 : Float) = 0.1 := by decide +kernel
  have twice : (0.1 + 0.1 : Float) = 0.2 := by decide +kernel
  have course : Course ⟨.double 0.0, .double 0.3, .double 0.1⟩ .ascending (.double 0.0)
      [.double 0.0, .double 0.1, .double 0.2] :=
    .advanced (by decide +kernel) (by rw [Value.add_double, once])
      (.advanced (by decide +kernel) (by rw [Value.add_double, twice])
        (.advanced (by decide +kernel) rfl (.arrived (by decide +kernel))))
  have yields : Yields ⟨.double 0.0, .double 0.3, .double 0.1⟩
      [.double 0.0, .double 0.1, .double 0.2, .double 0.3] :=
    .along (by decide +kernel) course
  refine ⟨yields, by decide +kernel, ?_⟩
  obtain ⟨zs, same, goes, _⟩ := doubles_visited (by decide +kernel) (by decide +kernel)
    (by decide +kernel) yields
  have injective : Function.Injective Value.double := fun _ _ => Value.double.inj
  have values : [0.0, 0.1, 0.2, 0.3] = zs := List.map_injective_iff.mpr injective same
  exact values ▸ goes

end

end IndexRange

end FiniteCalculus
