import FiniteCalculus.Operator.IndexRange
import FiniteCalculus.Proofs.Double.Order
import FiniteCalculus.Proofs.Value.Reals
import Mathlib.Data.Finset.Card
import Mathlib.Data.Finset.Range

/-! The values of an index range, told without a bound on their number. The main statement
is that a range that comes to an end does so within the bound that it is walked with: on
integers every step is one closer to the end, and a double that came up a second time would
come up for ever. -/

namespace FiniteCalculus
set_option autoImplicit false

namespace Double

theorem bits_ne {b : UInt64} (h : ¬ Float.Model.Format.binary64.Valid b.toBitVec) (z : Float) :
    z.toModel.toBits ≠ b := by
  intro same
  apply h
  rw [← same]
  exact z.toModel.valid

theorem bits_injective {y z : Float} (h : y.toModel.toBits = z.toModel.toBits) : y = z := by
  obtain ⟨⟨b, hb⟩⟩ := y
  obtain ⟨⟨c, hc⟩⟩ := z
  cases h
  rfl

/-- There are fewer doubles than patterns of 64 bits, since but one of those that stand for
no number is in use. -/
theorem length_le_of_nodup {zs : List Float} (h : zs.Nodup) : zs.length + 2 ≤ 2 ^ 64 := by
  have unused (b : UInt64) (hb : ¬ Float.Model.Format.binary64.Valid b.toBitVec) :
      b ∉ zs.map fun z => z.toModel.toBits := by
    intro h
    obtain ⟨z, _, hz⟩ := List.mem_map.mp h
    exact bits_ne hb z hz
  have first := unused 0x7FF0000000000001 fun h =>
    absurd (h.eq_packedNaN (by decide) (by decide)) (by decide)
  have second := unused 0x7FF0000000000002 fun h =>
    absurd (h.eq_packedNaN (by decide) (by decide)) (by decide)
  have used : (zs.map fun z => z.toModel.toBits).Nodup :=
    h.map fun y z same => bits_injective same
  have patterns : (0x7FF0000000000001 :: 0x7FF0000000000002 ::
      zs.map fun z => z.toModel.toBits).Nodup := by
    refine List.nodup_cons.mpr ⟨?_, List.nodup_cons.mpr ⟨second, used⟩⟩
    rw [List.mem_cons, not_or]
    exact ⟨by decide, first⟩
  have numbers := patterns.map (f := UInt64.toNat) fun b c same => UInt64.toNat_inj.mp same
  have below : ((0x7FF0000000000001 :: 0x7FF0000000000002 ::
      zs.map fun z => z.toModel.toBits).map UInt64.toNat).toFinset ⊆ Finset.range (2 ^ 64) := by
    intro n hn
    obtain ⟨b, _, rfl⟩ := List.mem_map.mp (List.mem_toFinset.mp hn)
    exact Finset.mem_range.mpr b.toNat_lt
  have count := Finset.card_le_card below
  rw [List.toFinset_card_of_nodup numbers, Finset.card_range] at count
  simp only [List.length_map, List.length_cons] at count
  omega

end Double

namespace Value

theorem add_of_integer {v w : Value} {m n : Int} (hv : v.integer? = some m)
    (hw : w.integer? = some n) : v.add w = .ok (int (m + n)) := by
  unfold add
  split
  · cases hv
  · unfold arithmetic
    simp only [hv, hw]

/-- The sum of two integers is one, and any other sum of real numbers is a double. -/
theorem integer_add {v w u : Value} {m n : Int} (hv : v.integer? = some m)
    (hw : w.integer? = some n) (h : v.add w = .ok u) : u.integer? = some (m + n) := by
  rw [add_of_integer hv hw] at h
  cases h
  rfl

theorem double_of_add {v w u : Value} (hv : v.isReal) (hw : w.isReal)
    (mixed : v.integer? = none ∨ w.integer? = none) (h : v.add w = .ok u) :
    ∃ z, u = double z := by
  unfold add at h
  split at h
  · cases hv
  · unfold arithmetic at h
    split at h
    · rename_i hm hn
      rcases mixed with mixed | mixed
      · rw [mixed] at hm; cases hm
      · rw [mixed] at hn; cases hn
    · simp only [hv, hw, Bool.and_self, if_true] at h
      obtain ⟨x, _, h⟩ := bind_eq_ok h
      obtain ⟨y, _, h⟩ := bind_eq_ok h
      cases h
      exact ⟨_, rfl⟩

theorem eq_double_of_isReal {v : Value} (hv : v.isReal) (h : v.integer? = none) :
    ∃ z, v = double z := by
  cases v with
  | double z => exact ⟨z, rfl⟩
  | _ => simp_all [integer?, isReal]

theorem compare?_of_integer {v : Value} {n : Int} (hv : v.integer? = some n) (w : Value) :
    v.compare? w = (int n).compare? w ∧ w.compare? v = w.compare? (int n) := by
  cases v with
  | int m =>
    cases hv
    exact ⟨rfl, rfl⟩
  | bool b =>
    cases hv
    cases w <;> exact ⟨rfl, rfl⟩
  | _ => cases hv

theorem nearestInteger_of_integer {v : Value} {n : Int} (hv : v.integer? = some n) :
    v.nearestInteger = .ok n := by
  cases v with
  | int m => cases hv; rfl
  | bool b => cases hv; rfl
  | _ => cases hv

end Value

namespace IndexRange

/-- The values that an index goes through from the first one on, as long as it is before the
last value of the range, if there comes an end to them. -/
inductive Course (r : IndexRange) (d : Direction) : Value → List Value → Prop where
  | arrived {i : Value} : d.before i r.last = false → Course r d i []
  | advanced {i next : Value} {vs : List Value} : d.before i r.last = true →
    i.add r.step = .ok next → Course r d next vs → Course r d i (i :: vs)

/-- The values of a range, in order, if there comes an end to them. -/
inductive Yields (r : IndexRange) : List Value → Prop where
  | along {d : Direction} {vs : List Value} : r.direction? = some d → Course r d r.first vs →
    Yields r (vs ++ [r.last])
  | single : r.direction? = none → r.first.equal r.last = true → Yields r [r.first]
  | empty : r.direction? = none → r.first.equal r.last = false → Yields r []

section
variable {r : IndexRange} {d : Direction} {i : Value} {vs ws : List Value}

theorem Course.unique (h : r.Course d i vs) (h' : r.Course d i ws) : vs = ws := by
  induction h generalizing ws with
  | arrived hi =>
    cases h' with
    | arrived _ => rfl
    | advanced hi' _ _ => rw [hi] at hi'; cases hi'
  | advanced hi hnext _ ih =>
    cases h' with
    | arrived hi' => rw [hi] at hi'; cases hi'
    | advanced _ hnext' rest =>
      rw [hnext] at hnext'
      cases hnext'
      rw [ih rest]

theorem Yields.unique (h : r.Yields vs) (h' : r.Yields ws) : vs = ws := by
  cases h with
  | along hd course =>
    cases h' with
    | along hd' course' =>
      rw [hd] at hd'
      cases hd'
      rw [course.unique course']
    | single hd' _ => rw [hd] at hd'; cases hd'
    | empty hd' _ => rw [hd] at hd'; cases hd'
  | single hd same =>
    cases h' with
    | along hd' _ => rw [hd] at hd'; cases hd'
    | single _ _ => rfl
    | empty _ differ => rw [same] at differ; cases differ
  | empty hd differ =>
    cases h' with
    | along hd' _ => rw [hd] at hd'; cases hd'
    | single _ same => rw [same] at differ; cases differ
    | empty _ _ => rfl

/-- A course goes on from any of its values as it would go from there. -/
theorem Course.from_mem (h : r.Course d i vs) {v : Value} (hv : v ∈ vs) :
    ∃ ws, r.Course d v ws ∧ ws.length ≤ vs.length := by
  induction h with
  | arrived _ => cases hv
  | @advanced i next vs hi hnext rest ih =>
    rcases List.mem_cons.mp hv with rfl | hv
    · exact ⟨_, .advanced hi hnext rest, le_refl _⟩
    · obtain ⟨ws, hws, hle⟩ := ih hv
      exact ⟨ws, hws, hle.trans (Nat.le_succ _)⟩

/-- From a double on there are only doubles, and none of them comes twice: from the second
time on the course would be the same as from the first, and yet be shorter. -/
theorem Course.doubles (real : r.step.isReal) {z : Float} (h : r.Course d (.double z) vs) :
    ∃ zs : List Float, vs = zs.map .double ∧ zs.Nodup := by
  generalize hv : Value.double z = v at h
  induction h generalizing z with
  | arrived _ => exact ⟨[], rfl, List.nodup_nil⟩
  | @advanced i next vs hi hnext rest ih =>
    subst hv
    obtain ⟨y, rfl⟩ := Value.double_of_add rfl real (.inl rfl) hnext
    obtain ⟨zs, rfl, nodup⟩ := ih rfl
    refine ⟨z :: zs, rfl, List.nodup_cons.mpr ⟨?_, nodup⟩⟩
    intro again
    obtain ⟨ws, hws, shorter⟩ := rest.from_mem (List.mem_map_of_mem again)
    rw [hws.unique (.advanced hi hnext rest), List.length_cons] at shorter
    omega

theorem Course.length_le_of_double (real : r.step.isReal) {z : Float}
    (h : r.Course d (.double z) vs) : vs.length + 2 ≤ 2 ^ 64 := by
  obtain ⟨zs, rfl, nodup⟩ := h.doubles real
  rw [List.length_map]
  exact Double.length_le_of_nodup nodup

theorem before_of_integer {n : Int} (hi : i.integer? = some n) :
    d.before i r.last = d.before (.int n) r.last := by
  obtain ⟨left, right⟩ := Value.compare?_of_integer hi r.last
  cases d with
  | ascending => simp only [Direction.before, Value.lt, left]
  | descending => simp only [Direction.before, Value.lt, right]

/-- A course of integers is no longer than a measure that each step lowers. -/
theorem Course.length_le_of_integer {step : Int} (hstep : r.step.integer? = some step)
    (measure : Int → Nat)
    (lower : ∀ n, d.before (.int n) r.last = true → measure (n + step) < measure n)
    {n : Int} (hi : i.integer? = some n) (h : r.Course d i vs) : vs.length ≤ measure n := by
  induction h generalizing n with
  | arrived _ => exact Nat.zero_le _
  | @advanced i next vs before hnext rest ih =>
    have shorter := ih (Value.integer_add hi hstep hnext)
    have less : measure (n + step) < measure n := lower n (before_of_integer hi ▸ before)
    rw [List.length_cons]
    omega

theorem Course.not_endless {step : Int} (hstep : r.step.integer? = some step)
    (always : ∀ n, d.before (.int n) r.last = true) {n : Int} (hi : i.integer? = some n) :
    ¬ r.Course d i vs := by
  intro h
  induction h generalizing n with
  | arrived past =>
    rw [before_of_integer hi] at past
    rw [always n] at past
    cases past
  | advanced _ hnext _ ih => exact ih (Value.integer_add hi hstep hnext)

end

/-- How integers can be before a value: all of them alike, or none beyond the integer that
is nearest to the value. -/
theorem before_bounds (d : Direction) (last : Value) :
    (∀ m n : Int, d.before (.int m) last = d.before (.int n) last) ∨
      ∃ b, last.nearestInteger = .ok b ∧ ∀ n, d.before (.int n) last = true →
        d = .ascending ∧ n ≤ b ∨ d = .descending ∧ b ≤ n := by
  cases number : last.toRat? with
  | some q =>
    obtain ⟨b, hb, nearest⟩ := Value.exists_nearestInteger number
    refine .inr ⟨b, hb, fun n before => ?_⟩
    cases d with
    | ascending =>
      have lt := (Value.lt_iff_of_toRat? (v := .int n) rfl number).mp before
      exact .inl ⟨rfl, nearest.le_of_le lt.le⟩
    | descending =>
      have lt := (Value.lt_iff_of_toRat? (w := .int n) number rfl).mp before
      exact .inr ⟨rfl, nearest.le_of_ge lt.le⟩
  | none =>
    refine .inl fun m n => ?_
    obtain ⟨left, right⟩ := Value.compare?_int_of_toRat?_none number m n
    cases d with
    | ascending => simp only [Direction.before, Value.lt, left]
    | descending => simp only [Direction.before, Value.lt, right]

section
variable {r : IndexRange} {d : Direction} {vs : List Value}

theorem step_of_direction (h : r.direction? = some d) {step : Int}
    (hstep : r.step.integer? = some step) :
    d = .ascending ∧ 0 < step ∨ d = .descending ∧ step < 0 := by
  obtain ⟨left, right⟩ := Value.compare?_of_integer hstep (.int 0)
  unfold direction? at h
  split at h
  · rename_i hcond
    cases h
    simp only [Value.lt, right, Value.compare?_int, Bool.and_eq_true, beq_iff_eq,
      Option.some.injEq, Int.compare_eq_lt] at hcond
    exact .inl ⟨rfl, hcond.2⟩
  · split at h
    · rename_i hcond
      cases h
      simp only [Value.lt, left, Value.compare?_int, Bool.and_eq_true, beq_iff_eq,
        Option.some.injEq, Int.compare_eq_lt] at hcond
      exact .inr ⟨rfl, hcond.2⟩
    · cases h

theorem limit_eq {a b : Int} (first : r.first.nearestInteger = .ok a)
    (last : r.last.nearestInteger = .ok b) : r.limit = 2 ^ 64 + (b - a).natAbs := by
  unfold limit
  rw [first, last]
  rfl

theorem le_limit (r : IndexRange) : 2 ^ 64 ≤ r.limit := Nat.le_add_right _ _

/-- From an integer on, in steps of an integer: each of them comes closer to the integer that is
nearest to the last value, unless there is no step at all. -/
theorem Course.length_lt_limit_of_integer (hd : r.direction? = some d) {a s : Int}
    (hf : r.first.integer? = some a) (hs : r.step.integer? = some s)
    (h : r.Course d r.first vs) : vs.length < r.limit := by
  have many := r.le_limit
  rcases before_bounds d r.last with alike | ⟨b, hb, bounds⟩
  · cases ha : d.before (.int a) r.last with
    | true =>
      have always (n : Int) : d.before (.int n) r.last = true := (alike n a).trans ha
      exact absurd h (Course.not_endless hs always hf)
    | false =>
      have none (n : Int) (hn : d.before (.int n) r.last = true) : 0 < 0 := by
        rw [alike n a, ha] at hn
        cases hn
      have short := h.length_le_of_integer hs (fun _ => 0) none hf
      omega
  · rw [limit_eq (Value.nearestInteger_of_integer hf) hb]
    rcases step_of_direction hd hs with ⟨rfl, positive⟩ | ⟨rfl, negative⟩
    · have lower (n : Int) (hn : Direction.ascending.before (.int n) r.last = true) :
          (b + 1 - (n + s)).toNat < (b + 1 - n).toNat := by
        rcases bounds n hn with ⟨_, hle⟩ | ⟨hd, _⟩
        · omega
        · cases hd
      have short := h.length_le_of_integer hs (fun n => (b + 1 - n).toNat) lower hf
      omega
    · have lower (n : Int) (hn : Direction.descending.before (.int n) r.last = true) :
          ((n + s) + 1 - b).toNat < (n + 1 - b).toNat := by
        rcases bounds n hn with ⟨hd, _⟩ | ⟨_, hle⟩
        · cases hd
        · omega
      have short := h.length_le_of_integer hs (fun n => (n + 1 - b).toNat) lower hf
      omega

/-- A course that comes to an end is shorter than the bound that its range is walked with. -/
theorem Course.length_lt_limit (hd : r.direction? = some d) (first : r.first.isReal)
    (step : r.step.isReal) (h : r.Course d r.first vs) : vs.length < r.limit := by
  have many := r.le_limit
  cases hf : r.first.integer? with
  | none =>
    obtain ⟨z, hz⟩ := Value.eq_double_of_isReal first hf
    rw [hz] at h
    have := h.length_le_of_double step
    omega
  | some a =>
    cases hs : r.step.integer? with
    | none =>
      cases h with
      | arrived _ => rw [List.length_nil]; omega
      | advanced _ hnext rest =>
        obtain ⟨z, rfl⟩ := Value.double_of_add first step (.inr hs) hnext
        have := rest.length_le_of_double step
        rw [List.length_cons]
        omega
    | some s => exact h.length_lt_limit_of_integer hd hf hs

end

end IndexRange

end FiniteCalculus
