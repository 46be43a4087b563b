import FiniteCalculus.Proofs.Double.Exact
import FiniteCalculus.Proofs.Evaluation.Runs
import FiniteCalculus.Proofs.Value.Reals
import FiniteCalculus.Rounding

/-! What a function of integers is called with, and when it is not called. The arguments
are taken from the left. The first one that settles the result ends the reading,
whatever comes after it, and without such a one the function is called once, with the
nearest integer at every rounded position. -/

namespace FiniteCalculus
set_option autoImplicit false

theorem forall_getElem?_cons {α : Type} {P : Nat → α → Prop} {a : α} {as : List α} :
    (∀ i b, (a :: as)[i]? = some b → P i b) ↔
      P 0 a ∧ ∀ i b, as[i]? = some b → P (i + 1) b := by
  constructor
  · intro h
    exact ⟨h 0 a rfl, fun i b hb => h (i + 1) b hb⟩
  · rintro ⟨first, rest⟩ i b hb
    cases i with
    | zero =>
      cases hb
      exact first
    | succ i => exact rest i b hb

namespace Rounding
variable {r : Rounding} {position : Nat} {v u result : Value}

/-- An argument settles the result at its position: an undefined one does so anywhere, and
where arguments are rounded, so does an infinity, and a zero if there is a result for it. -/
inductive Settles (r : Rounding) (position : Nat) : Value → Value → Prop
  | undefined {x : Float} (undefined : x.isNaN = true) :
    Settles r position (.double x) Value.nan
  | infinite {x : Float} (rounded : r.rounds position = true) (infinite : x.isInf = true) :
    Settles r position (.double x) Value.nan
  | zero {v result : Value} {q : ℚ} (rounded : r.rounds position = true)
    (value : v.toRat? = some q) (zero : IsNearestInteger q 0)
    (given : r.zeroResult = some result) : Settles r position v result

/-- An argument is read, and does not settle the result. -/
def Passes (r : Rounding) (position : Nat) (v : Value) : Prop :=
  v.IsRepresentable ∧ ¬ ∃ result, r.Settles position v result

/-- What is handed on for an argument: its nearest integer, or itself if its position is
not rounded. -/
def Handed (r : Rounding) (position : Nat) (v u : Value) : Prop :=
  if r.rounds position then ∃ q n, v.toRat? = some q ∧ IsNearestInteger q n ∧ u = .int n
  else u = v

theorem Handed.eq_int {q : ℚ} {n : Int} (h : r.Handed position v u)
    (rounded : r.rounds position = true) (number : v.toRat? = some q)
    (nearest : IsNearestInteger q n) : u = .int n := by
  rw [Handed, if_pos rounded] at h
  obtain ⟨p, k, hp, hk, rfl⟩ := h
  rw [number] at hp
  cases hp
  rw [hk.unique nearest]

/-- An integer keeps its exact value, however large it is. -/
theorem Handed.eq_of_integer? {n : Int} (h : r.Handed position v u)
    (rounded : r.rounds position = true) (hv : v.integer? = some n) : u = .int n :=
  h.eq_int rounded (Value.toRat?_of_integer? hv) (isNearestInteger_intCast n)

theorem Handed.eq_self (h : r.Handed position v u) (free : r.rounds position = false) :
    u = v := by
  rw [Handed, free] at h
  exact h

/-- The function that a function of integers with effects becomes. -/
def around (r : Rounding) (inner : List Value → Evaluation Value) (args : List Value) :
    Evaluation Value := do
  match ← Evaluation.lift (r.read 0 args) with
  | .settled result => return result
  | .ready args => inner args

section
variable {args : List Value} (inner : List Value → Except Fault Value)
  (effectful : List Value → Evaluation Value)

theorem apply_of_settled (h : r.read 0 args = .ok (.settled result)) :
    r.apply inner args = .ok result := by
  rw [apply, h]
  rfl

theorem around_of_settled (h : r.read 0 args = .ok (.settled result)) :
    r.around effectful args = pure result := by
  rw [around, h]
  rfl

theorem apply_of_ready {handed : List Value} (h : r.read 0 args = .ok (.ready handed)) :
    r.apply inner args = inner handed := by
  rw [apply, h]
  rfl

theorem around_of_ready {handed : List Value} (h : r.read 0 args = .ok (.ready handed)) :
    r.around effectful args = effectful handed := by
  rw [around, h]
  rfl

end

theorem Passes.isNaN_eq {x : Float} (h : r.Passes position v) (hx : v.toDouble = .ok x) :
    x.isNaN = false := by
  refine Bool.eq_false_iff.mpr fun undefined => h.2 ⟨Value.nan, ?_⟩
  rw [Value.eq_double_of_isNaN hx undefined]
  exact .undefined undefined

theorem Passes.isInf_eq {x : Float} (h : r.Passes position v) (hx : v.toDouble = .ok x)
    (rounded : r.rounds position = true) : x.isInf = false := by
  refine Bool.eq_false_iff.mpr fun infinite => h.2 ⟨Value.nan, ?_⟩
  rw [Value.eq_double_of_isInf hx infinite]
  exact .infinite rounded infinite

/-- At a rounded position only numbers pass. -/
theorem Passes.exists_toRat? (h : r.Passes position v) (rounded : r.rounds position = true) :
    ∃ q, v.toRat? = some q := by
  obtain ⟨x, hx⟩ := h.1
  exact Value.exists_toRat? hx (h.isNaN_eq hx) (h.isInf_eq hx rounded)

theorem read_cons {x : Float} (h : v.toDouble = .ok x) (after : List Value) :
    r.read position (v :: after) =
      if x.isNaN then .ok (.settled Value.nan)
      else if !r.rounds position then return (← r.read (position + 1) after).cons v
      else if x.isInf then .ok (.settled Value.nan)
      else do
        let n ← v.nearestInteger
        match n == 0, r.zeroResult with
        | true, some result => .ok (.settled result)
        | _, _ => return (← r.read (position + 1) after).cons (.int n) := by
  rw [read, h]
  rfl

/-- An argument that settles the result ends the reading. -/
theorem read_of_settles (settles : r.Settles position v result) (inspected : v.IsRepresentable)
    (after : List Value) : r.read position (v :: after) = .ok (.settled result) := by
  cases settles with
  | undefined undefined => rw [read_cons rfl, if_pos undefined]
  | @infinite x rounded infinite =>
    -- An undefined number would settle the result alike.
    rw [read_cons rfl]
    simp only [rounded, infinite, Bool.not_true, Bool.false_eq_true, if_true, if_false, ite_self]
  | @zero v result q rounded value zero given =>
    obtain ⟨x, hx⟩ := inspected
    obtain ⟨n, hn, nearest⟩ := Value.exists_nearestInteger value
    obtain rfl : n = 0 := nearest.unique zero
    have finite : x.isNaN = false ∧ x.isInf = false := Value.finite_of_toRat? value hx
    simp only [read_cons hx, finite, rounded, hn, given, Bool.not_true, Bool.false_eq_true,
      if_false]
    rfl

/-- An argument that does not settle the result is handed on, and the reading goes on. -/
theorem read_of_passes (h : r.Passes position v) :
    ∃ u, r.Handed position v u ∧ ∀ after,
      r.read position (v :: after) = return (← r.read (position + 1) after).cons u := by
  obtain ⟨x, hx⟩ := h.1
  have number := h.isNaN_eq hx
  cases rounded : r.rounds position with
  | false =>
    refine ⟨v, by simp [Handed, rounded], fun after => ?_⟩
    simp only [read_cons hx, number, rounded, Bool.not_false, Bool.false_eq_true, if_true, if_false]
  | true =>
    have bounded := h.isInf_eq hx rounded
    obtain ⟨q, hq⟩ := h.exists_toRat? rounded
    obtain ⟨n, hn, nearest⟩ := Value.exists_nearestInteger hq
    have handed : r.Handed position v (.int n) := by
      rw [Handed, if_pos rounded]
      exact ⟨q, n, hq, nearest, rfl⟩
    refine ⟨.int n, handed, fun after => ?_⟩
    simp only [read_cons hx, number, bounded, rounded, hn, ok_bind, Bool.not_true,
      Bool.false_eq_true, if_false]
    -- Where there is a result for zeros, a number that passes does not go to zero.
    cases given : r.zeroResult with
    | none => cases n == 0 <;> rfl
    | some result =>
      have nonzero : n ≠ 0 := by
        rintro rfl
        exact h.2 ⟨result, .zero rounded hq nearest given⟩
      have test : (n == 0) = false := beq_eq_false_iff_ne.mpr nonzero
      simp only [test]

/-- The reading of arguments none of which settles the result, and what comes after them. -/
theorem read_append (before : List Value)
    (passes : ∀ i u, before[i]? = some u → r.Passes (position + i) u) :
    ∃ handed : List Value, handed.length = before.length ∧
      (∀ i v u, before[i]? = some v → handed[i]? = some u → r.Handed (position + i) v u) ∧
      ∀ after, r.read position (before ++ after) =
        return handed.foldr (fun u reading => reading.cons u)
          (← r.read (position + before.length) after) := by
  induction before generalizing position with
  | nil => exact ⟨[], rfl, by simp, fun after => by simp⟩
  | cons v before ih =>
    have shift (i : Nat) : position + 1 + i = position + (i + 1) := by omega
    obtain ⟨first, rest⟩ := forall_getElem?_cons.mp passes
    have tail : ∀ i u, before[i]? = some u → r.Passes (position + 1 + i) u := by
      intro i w hw
      rw [shift]
      exact rest i w hw
    obtain ⟨u, hu, step⟩ : ∃ u, r.Handed position v u ∧ ∀ after, _ := read_of_passes first
    obtain ⟨handed, length, hhanded, run⟩ := ih tail
    refine ⟨u :: handed, by simp [length], ?_, ?_⟩
    · intro i w w' hw hw'
      cases i with
      | zero =>
        cases hw
        cases hw'
        exact hu
      | succ i =>
        rw [← shift]
        exact hhanded i w w' hw hw'
    · intro after
      rw [List.cons_append, step, run, shift before.length, List.length_cons]
      simp

theorem foldr_cons_ready (handed : List Value) :
    handed.foldr (fun u reading => Reading.cons u reading) (.ready []) = .ready handed := by
  induction handed with
  | nil => rfl
  | cons u handed ih => rw [List.foldr_cons, ih]; rfl

theorem foldr_cons_settled (handed : List Value) (result : Value) :
    handed.foldr (fun u reading => Reading.cons u reading) (.settled result) =
      .settled result := by
  induction handed with
  | nil => rfl
  | cons u handed ih => rw [List.foldr_cons, ih]; rfl

/-- The leftmost argument that settles the result does so without a call, and whatever
comes after it. If there is none, the function is called once. -/
theorem settled_or_called (r : Rounding) :
    (∀ (before : List Value) (v result : Value),
      (∀ i u, before[i]? = some u → r.Passes i u) →
      v.IsRepresentable → r.Settles before.length v result →
      ∀ after, (∀ inner, r.apply inner (before ++ v :: after) = .ok result) ∧
        ∀ inner, r.around inner (before ++ v :: after) = pure result) ∧
    ∀ args : List Value,
      (∀ i u, args[i]? = some u → r.Passes i u) →
      ∃ handed : List Value, handed.length = args.length ∧
        (∀ i v u, args[i]? = some v → handed[i]? = some u → r.Handed i v u) ∧
        (∀ inner, r.apply inner args = inner handed) ∧
        ∀ inner, r.around inner args = inner handed := by
  constructor
  · intro before v result passes inspected settles after
    have fromZero : ∀ i u, before[i]? = some u → r.Passes (0 + i) u := by simpa using passes
    obtain ⟨handed, _, _, run⟩ := read_append before fromZero
    have reading : r.read 0 (before ++ v :: after) = .ok (.settled result) := by
      rw [run, Nat.zero_add, read_of_settles settles inspected]
      exact congrArg Except.ok (foldr_cons_settled handed result)
    exact ⟨fun inner => apply_of_settled inner reading,
      fun inner => around_of_settled inner reading⟩
  · intro args passes
    have fromZero : ∀ i u, args[i]? = some u → r.Passes (0 + i) u := by simpa using passes
    obtain ⟨handed, length, hhanded, run⟩ := read_append args fromZero
    have reading : r.read 0 args = .ok (.ready handed) := by
      have whole := run []
      rw [List.append_nil] at whole
      rw [whole, read_nil]
      exact congrArg Except.ok (foldr_cons_ready handed)
    exact ⟨handed, length, by simpa using hhanded, fun inner => apply_of_ready inner reading,
      fun inner => around_of_ready inner reading⟩

/-- A number settles nothing unless it is rounded, and rounded to zero. -/
theorem not_settles {q : ℚ} (number : v.toRat? = some q)
    (h : r.rounds position = true → ∃ n, IsNearestInteger q n ∧ n ≠ 0) :
    ¬ ∃ result, r.Settles position v result := by
  rintro ⟨result, undefined | ⟨rounded, infinite⟩ | ⟨rounded, value, zero, given⟩⟩
  · rename_i undefined
    rw [(Double.finite_of_toRat? number).1] at undefined
    cases undefined
  · rw [(Double.finite_of_toRat? number).2] at infinite
    cases infinite
  · obtain ⟨n, nearest, nonzero⟩ := h rounded
    rw [number] at value
    cases value
    exact nonzero (nearest.unique zero)

theorem toRat?_half : (Value.double 0.5).toRat? = some (1 / 2) := by
  have parts : Double.parts 0.5 = .finite false 4503599627370496 (-53) := by decide
  rw [Value.toRat?, Double.toRat?, parts]
  norm_num [Double.signed]

theorem toRat?_fiveHalves : (Value.double 2.5).toRat? = some (5 / 2) := by
  have parts : Double.parts 2.5 = .finite false 5629499534213120 (-51) := by decide
  rw [Value.toRat?, Double.toRat?, parts]
  norm_num [Double.signed]

/-- One half goes to zero and settles the result; at a position that is not rounded it
is handed on as it is. -/
theorem settled_or_called_halves :
    let r : Rounding := ⟨some [0, 1], some (.double 7.0)⟩
    (∀ after inner, r.apply inner (.double 2.5 :: .double 0.5 :: after) = .ok (.double 7.0)) ∧
      ∀ inner, r.apply inner [.double 2.5, .int 3, .double 0.5] =
        inner [.int 2, .int 3, .double 0.5] := by
  intro r
  have even : IsNearestInteger (5 / 2) 2 :=
    isNearestInteger_of_le_half (by norm_num) fun _ => by decide
  have zero : IsNearestInteger (1 / 2) 0 :=
    isNearestInteger_of_le_half (by norm_num) fun _ => by decide
  have first : r.Passes 0 (.double 2.5) :=
    ⟨⟨2.5, rfl⟩, not_settles toRat?_fiveHalves fun _ => ⟨2, even, by decide⟩⟩
  have second : r.Passes 1 (.int 3) :=
    ⟨Value.isRepresentable_int (by decide),
      not_settles rfl fun _ => ⟨3, isNearestInteger_intCast 3, by decide⟩⟩
  have third : r.Passes 2 (.double 0.5) :=
    ⟨⟨0.5, rfl⟩, not_settles toRat?_half fun rounded => absurd rounded (by decide)⟩
  constructor
  · intro after inner
    have passes : ∀ i u, [.double 2.5][i]? = some u → r.Passes i u :=
      forall_getElem?_cons.mpr ⟨first, by simp⟩
    exact ((settled_or_called r).1 _ _ _ passes ⟨0.5, rfl⟩
      (.zero (by decide) toRat?_half zero rfl) after).1 inner
  · have passes : ∀ i u, [.double 2.5, .int 3, .double 0.5][i]? = some u → r.Passes i u :=
      forall_getElem?_cons.mpr ⟨first, forall_getElem?_cons.mpr ⟨second,
        forall_getElem?_cons.mpr ⟨third, by simp⟩⟩⟩
    obtain ⟨handed, length, values, called, _⟩ := (settled_or_called r).2 _ passes
    obtain ⟨a, b, c, rfl⟩ := List.length_eq_three.mp length
    have ha : a = .int 2 := (values 0 _ a rfl rfl).eq_int (by decide) toRat?_fiveHalves even
    have hb : b = .int 3 := (values 1 _ b rfl rfl).eq_of_integer? (by decide) rfl
    have hc : c = .double 0.5 := (values 2 _ c rfl rfl).eq_self (by decide)
    rw [ha, hb, hc] at called
    exact called

end Rounding

end FiniteCalculus
