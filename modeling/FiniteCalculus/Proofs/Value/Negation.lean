import FiniteCalculus.Proofs.Double.Negation
import FiniteCalculus.Proofs.Value.Differences

/-! The negative of a number. Adding it is subtracting the number, except that the integer zero has
no sign to lose next to the negative zero. The two differences of two numbers are each other's
negative up to the sign of a zero. -/

namespace FiniteCalculus
set_option autoImplicit false

/-- Both are undefined, or they are equal as numbers. -/
def Double.Alike (x y : Float) : Prop :=
  (x.isNaN = true ∧ y.isNaN = true) ∨ (x == y) = true

theorem Double.sub_alike (x y : Float) : Double.Alike (x - y) (-(y - x)) := by
  rcases Double.sub_swap x y with same | ⟨left, right⟩
  · rw [same]
    cases undefined : (-(y - x)).isNaN with
    | true => exact .inl ⟨undefined, undefined⟩
    | false =>
      obtain ⟨p, hp⟩ := Double.exists_place? undefined
      exact .inr ((Double.beq_iff_eq_places hp hp).mpr rfl)
  · exact .inr ((Double.beq_iff_eq_places (Double.place?_of_toRat? left)
      (Double.place?_of_toRat? right)).mpr rfl)

namespace Value

/-- The negative of a number. -/
def negate : Value → Value
  | int n => int (-n)
  | bool b => int (-b.toInt)
  | double x => double (-x)
  | complex re im => complex (-re) (-im)
  | v => v

/-- Numbers of one kind that are both undefined or equal, complex ones in either part. -/
inductive Alike : Value → Value → Prop where
  | int (n : Int) : Alike (int n) (int n)
  | double {x y : Float} : Double.Alike x y → Alike (double x) (double y)
  | complex {a b c d : Float} : Double.Alike a c → Double.Alike b d →
    Alike (complex a b) (complex c d)

variable {v w p h : Value}

theorem integer?_negate {n : Int} (hn : h.integer? = some n) : h.negate = int (-n) := by
  cases h <;> cases hn <;> rfl

theorem toDouble_integer {n : Int} (hn : h.integer? = some n) : h.toDouble = Double.ofInt n := by
  cases h with
  | int m => cases hn; rfl
  | bool b => cases hn; cases b <;> decide +kernel
  | _ => cases hn

theorem arithmetic_of_mixed (operator : String) (exact : Int → Int → Int)
    (rounded : Float → Float → Float) (planar : Float × Float → Float × Float → Float × Float)
    (mixed : v.integer? = none ∨ w.integer? = none) :
    arithmetic operator exact rounded planar v w =
      if v.isReal && w.isReal then do
        return double (rounded (← v.toDouble) (← w.toDouble))
      else if v.isNumber && w.isNumber then do
        let (re, im) := planar (← v.components) (← w.components)
        return complex re im
      else .error (.unsupported operator v.kind w.kind) := by
  rw [arithmetic]
  split
  · next a b ha hb =>
    rw [ha, hb] at mixed
    rcases mixed with none | none <;> cases none
  · rfl

section
variable (hv : v.isReal) (hw : w.isReal) (mixed : v.integer? = none ∨ w.integer? = none)
include hv hw mixed

theorem add_of_mixed : v.add w = do return double ((← v.toDouble) + (← w.toDouble)) := by
  have added : v.add w =
      arithmetic "+" (· + ·) (· + ·) (fun (a, b) (c, d) => (a + c, b + d)) v w := by
    rw [add]
    rintro s t rfl
    cases hv
  rw [added, arithmetic_of_mixed _ _ _ _ mixed, hv, hw]
  rfl

theorem sub_of_mixed : v.sub w = do return double ((← v.toDouble) - (← w.toDouble)) := by
  rw [sub, arithmetic_of_mixed _ _ _ _ mixed, hv, hw]
  rfl

end

/-- Adding the negative of a number comes to subtracting it. -/
theorem add_negate (place : p.isReal) (real : h.isReal)
    (signed : ¬ (h.integer? = some 0 ∧ p = double (-0.0))) : p.add h.negate = p.sub h := by
  cases hh : h.integer? with
  | some n =>
    have negated : h.negate = int (-n) := integer?_negate hh
    cases hp : p.integer? with
    | some m =>
      have added : p.add (int (-n)) = .ok (int (m + -n)) := by cases p <;> cases hp <;> rfl
      have subtracted : p.sub h = .ok (int (m - n)) := by rw [sub, arithmetic, hp, hh]
      rw [negated, added, subtracted, Int.sub_eq_add_neg]
    | none =>
      obtain ⟨x, rfl⟩ : ∃ x, p = double x := by
        cases p with
        | double x => exact ⟨x, rfl⟩
        | int m => cases hp
        | bool b => cases hp
        | _ => cases place
      rw [negated, add_of_mixed place rfl (.inl hp), sub_of_mixed place real (.inl hp),
        toDouble_integer hh]
      change (Double.ofInt (-n) >>= fun y => .ok (double (x + y))) =
        (Double.ofInt n >>= fun y => .ok (double (x - y)))
      rcases eq_or_ne n 0 with rfl | nonzero
      · have apart : x ≠ -0.0 := fun same => signed ⟨hh, same ▸ rfl⟩
        exact congrArg (fun z => Except.ok (double z)) (Double.add_zero_eq_sub_zero apart)
      · rw [Double.ofInt_neg nonzero]
        cases Double.ofInt n with
        | error fault => rfl
        | ok y => exact congrArg (fun z => Except.ok (double z)) (Double.sub_eq_add_opposite x y).symm
  | none =>
    obtain ⟨y, rfl⟩ : ∃ y, h = double y := by
      cases h with
      | double y => exact ⟨y, rfl⟩
      | int m => cases hh
      | bool b => cases hh
      | _ => cases real
    rw [negate, add_of_mixed place rfl (.inr rfl), sub_of_mixed place real (.inr rfl)]
    cases p.toDouble with
    | error fault => rfl
    | ok x => exact congrArg (fun z => Except.ok (double z)) (Double.sub_eq_add_opposite x y).symm

/-- The one outcome is as a number the negative of the other, or there is neither. -/
def Opposite (r r' : Except Fault Value) : Prop :=
  (∃ v v', r = .ok v ∧ r' = .ok v' ∧ v.Alike v'.negate) ∨
    (∃ fault, r = .error fault) ∧ ∃ fault, r' = .error fault

/-- Of two differences each is the other's negative, or neither can be taken. -/
theorem sub_opposite (v w : Value) : Opposite (v.sub w) (w.sub v) := by
  by_cases mixed : v.integer? = none ∨ w.integer? = none
  · rw [sub, sub, arithmetic_of_mixed _ _ _ _ mixed, arithmetic_of_mixed _ _ _ _ mixed.symm,
      Bool.and_comm w.isReal, Bool.and_comm w.isNumber]
    split
    · cases v.toDouble with
      | error fault =>
        cases w.toDouble <;> exact .inr ⟨⟨_, rfl⟩, _, rfl⟩
      | ok x =>
        cases w.toDouble with
        | error fault => exact .inr ⟨⟨_, rfl⟩, _, rfl⟩
        | ok y => exact .inl ⟨_, _, rfl, rfl, .double (Double.sub_alike x y)⟩
    · split
      · cases v.components with
        | error fault =>
          cases w.components <;> exact .inr ⟨⟨_, rfl⟩, _, rfl⟩
        | ok a =>
          cases w.components with
          | error fault => exact .inr ⟨⟨_, rfl⟩, _, rfl⟩
          | ok b =>
            exact .inl ⟨_, _, rfl, rfl, .complex (Double.sub_alike _ _) (Double.sub_alike _ _)⟩
      · exact .inr ⟨⟨_, rfl⟩, _, rfl⟩
  · obtain ⟨someV, someW⟩ := not_or.mp mixed
    obtain ⟨m, hm⟩ := Option.ne_none_iff_exists'.mp someV
    obtain ⟨n, hn⟩ := Option.ne_none_iff_exists'.mp someW
    refine .inl ⟨int (m - n), int (n - m), ?_, ?_, ?_⟩
    · rw [sub, arithmetic, hm, hn]
    · rw [sub, arithmetic, hn, hm]
    · rw [negate, neg_sub]
      exact .int _

end Value

end FiniteCalculus
