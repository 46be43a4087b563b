import FiniteCalculus.Catalogue
import FiniteCalculus.Proofs.Double.Unrounded
import FiniteCalculus.Proofs.Value.Reals

/-! Continued fractions as quotients of continuants. A continuant is linear in its first term, so
that the step from a suffix to the next longer one is that of the fraction, which has a reciprocal
just if the continuant of the suffix does not vanish. -/

namespace FiniteCalculus.ContinuedFraction
set_option autoImplicit false

/-- Reads a term that is a number already. -/
def given {α : Type} (a : α) : Except Fault (Option α) := .ok (some a)

section
variable {ι α : Type} [Add α] [Div α] [OfNat α 0] [OfNat α 1] [BEq α]

/-- One more term on the left. -/
def prepend (read : ι → Except Fault (Option α)) (i : ι) (result : Option α) :
    Except Fault (Option α) :=
  match result with
  | none => .ok none
  | some cf => do
    match ← read i with
    | none => return none
    | some a => if cf == 0 then return none else return some (a + 1 / cf)

theorem close_append (read : ι → Except Fault (Option α)) (cf : α) (terms : List ι) (i : ι) :
    close read cf (terms ++ [i]) = close read cf terms >>= prepend read i := by
  induction terms generalizing cf with
  | nil => rfl
  | cons j rest ih =>
    rw [List.cons_append, close, close]
    cases read j with
    | error f => rfl
    | ok term =>
      cases term with
      | none => rfl
      | some a =>
        change (if cf == 0 then _ else _) = (if cf == 0 then _ else _) >>= _
        cases cf == 0
        · exact ih _
        · rfl

theorem fraction_singleton {read : ι → Except Fault (Option α)} {i : ι} {a : α}
    (h : read i = .ok (some a)) : fraction read [i] = .ok (some a) := by
  rw [fraction, List.reverse_singleton]
  dsimp only
  rw [h]
  rfl

/-- A fraction of several terms is made from the one without the first term. -/
theorem fraction_cons_cons (read : ι → Except Fault (Option α)) (i j : ι) (terms : List ι) :
    fraction read (i :: j :: terms) = fraction read (j :: terms) >>= prepend read i := by
  obtain ⟨k, rest, reversed⟩ : ∃ k rest, (j :: terms).reverse = k :: rest :=
    List.exists_cons_of_ne_nil (by simp)
  rw [fraction, fraction, List.reverse_cons, reversed, List.cons_append]
  dsimp only
  cases read k with
  | error f => rfl
  | ok term =>
    cases term with
    | none => rfl
    | some a => exact close_append read a rest i

end

/-! Over the rationals. -/

theorem extend_eq (k before : ℚ) (terms : List ℚ) :
    extend k before terms = k * extend 1 0 terms + before * extend 0 1 terms := by
  induction terms generalizing k before with
  | nil => simp [extend]
  | cons x terms ih =>
    rw [extend, extend, extend, ih, ih (x * 1 + 0) 1, ih (x * 0 + 1) 0]
    ring

theorem continuant_eq (terms : List ℚ) : continuant terms = extend 1 0 terms := by
  cases terms with
  | nil => rfl
  | cons x terms => rw [continuant, extend, mul_one, add_zero]

/-- The recurrence from the right. -/
theorem continuant_cons_cons (a b : ℚ) (terms : List ℚ) :
    continuant (a :: b :: terms) = a * continuant (b :: terms) + continuant terms := by
  have tail : extend 0 1 (b :: terms) = continuant terms := by
    rw [extend, mul_zero, zero_add, continuant_eq]
  rw [continuant, extend_eq, one_mul, tail, continuant_eq (b :: terms)]

/-- A suffix of the terms has the continuant zero. -/
def Vanishes (terms : List ℚ) : Prop := ∃ j < terms.length, continuant (terms.drop j) = 0

theorem vanishes_cons_iff (a : ℚ) (terms : List ℚ) :
    Vanishes (a :: terms) ↔ continuant (a :: terms) = 0 ∨ Vanishes terms := by
  constructor
  · rintro ⟨j, hj, zero⟩
    cases j with
    | zero => exact .inl zero
    | succ j => exact .inr ⟨j, Nat.lt_of_succ_lt_succ hj, zero⟩
  · rintro (zero | ⟨j, hj, zero⟩)
    · exact ⟨0, Nat.succ_pos _, zero⟩
    · exact ⟨j + 1, Nat.succ_lt_succ hj, zero⟩

/-- What the fraction `a + 1 / …` is with the rest of its terms given: undefined if the continuant
of a suffix without the first term vanishes, and otherwise a quotient of continuants. -/
structure IsQuotient (a : ℚ) (terms : List ℚ) (result : Option ℚ) : Prop where
  undefined_iff : result = none ↔ Vanishes terms
  quotient : ∀ c, result = some c → c * continuant terms = continuant (a :: terms)

theorem isQuotient_singleton (a : ℚ) : IsQuotient a [] (some a) := by
  constructor
  · simp [Vanishes]
  · rintro _ ⟨⟩
    rw [continuant, continuant, extend, mul_one]

theorem IsQuotient.prepend {b : ℚ} {terms : List ℚ} {result : Option ℚ}
    (h : IsQuotient b terms result) (a : ℚ) :
    ∃ next, prepend given a result = .ok next ∧ IsQuotient a (b :: terms) next := by
  cases result with
  | none =>
    refine ⟨none, rfl, ?_, by simp⟩
    rw [vanishes_cons_iff]
    exact iff_of_true rfl (.inr (h.undefined_iff.mp rfl))
  | some c =>
    have defined : ¬ Vanishes terms := by simp [← h.undefined_iff]
    have value := h.quotient c rfl
    have nonzero : continuant terms ≠ 0 := by
      cases terms with
      | nil => exact one_ne_zero
      | cons x terms => exact fun zero => defined ((vanishes_cons_iff x terms).mpr (.inl zero))
    have zero_iff : c = 0 ↔ continuant (b :: terms) = 0 := by
      rw [← value, mul_eq_zero, or_iff_left nonzero]
    by_cases zero : c = 0
    · refine ⟨none, ?_, ?_, by simp⟩
      · subst zero
        rfl
      · rw [vanishes_cons_iff]
        exact iff_of_true rfl (.inl (zero_iff.mp zero))
    · refine ⟨some (a + 1 / c), ?_, ?_, ?_⟩
      · change (if c == 0 then _ else _) = _
        rw [if_neg (by simpa using zero)]
        rfl
      · rw [vanishes_cons_iff, ← zero_iff]
        simp [zero, defined]
      · rintro _ ⟨⟩
        rw [continuant_cons_cons, ← value]
        field_simp

theorem exists_fraction (a : ℚ) (terms : List ℚ) :
    ∃ result, fraction given (a :: terms) = .ok result ∧ IsQuotient a terms result := by
  induction terms generalizing a with
  | nil => exact ⟨some a, rfl, isQuotient_singleton a⟩
  | cons b terms ih =>
    obtain ⟨result, value, h⟩ := ih b
    obtain ⟨next, step, h'⟩ := h.prepend a
    refine ⟨next, ?_, h'⟩
    rw [fraction_cons_cons, value]
    exact step

/-! In doubles, as long as nothing is rounded. -/

open Double (Number Unrounded toRat?)

/-- A value that is read as a double without rounding. -/
def Reads (v : Value) (n : Number) : Prop :=
  v.toDouble = .ok n.double ∧ v.toRat? = some n.value

/-- No operation of the fraction, and none of the continuants of its suffixes, is rounded. -/
structure ComputesExactly (terms : List Number) : Prop where
  fraction : fraction given (terms.map Unrounded.exact) ≠ .ok (some .rounded)
  continuants : ∀ j, continuant ((terms.drop j).map Unrounded.exact) ≠ .rounded

/-- Results of the three arithmetics that belong together. -/
inductive Agree : Option Unrounded → Option Float → Option ℚ → Prop
  | undefined : Agree none none none
  | exact (n : Number) : Agree (some (.exact n)) (some n.double) (some n.value)
  | rounded (x : Option Float) (q : Option ℚ) : Agree (some .rounded) x q

theorem agree_of_agrees {a : Unrounded} {x : Float} {q : ℚ} (h : a.Agrees x q) :
    Agree (some a) (some x) (some q) := by
  cases a with
  | rounded => exact .rounded _ _
  | exact n =>
    obtain ⟨rfl, rfl⟩ := h n rfl
    exact .exact n

section
variable {v : Value} {vs : List Value} {n : Number} {ns : List Number}

theorem readValue_of_reads (h : Reads v n) : readValue v = .ok (some n.double) := by
  rw [readValue, h.1]
  change Except.ok (if n.double.isNaN then none else some n.double) = _
  rw [if_neg (Bool.eq_false_iff.mp (Double.finite_of_toRat? n.stands).1)]

theorem exists_prepend {ι α : Type} [Add α] [Div α] [OfNat α 0] [OfNat α 1] [BEq α]
    {read : ι → Except Fault (Option α)} {i : ι} {a : α} (h : read i = .ok (some a))
    (result : Option α) : ∃ next, prepend read i result = .ok next := by
  cases result with
  | none => exact ⟨none, rfl⟩
  | some cf =>
    rw [prepend, h]
    change ∃ next, (if cf == 0 then Except.ok none else .ok (some (a + 1 / cf))) = .ok next
    split
    · exact ⟨_, rfl⟩
    · exact ⟨_, rfl⟩

theorem Agree.next {a : Option Unrounded} {x : Option Float} {q : Option ℚ} (h : Agree a x q)
    (hv : Reads v n) : ∃ a' x' q', prepend given (.exact n) a = .ok a' ∧
      prepend readValue v x = .ok x' ∧ prepend given n.value q = .ok q' ∧ Agree a' x' q' := by
  cases h with
  | undefined => exact ⟨none, none, none, rfl, rfl, rfl, .undefined⟩
  | rounded x q =>
    obtain ⟨x', hx⟩ := exists_prepend (readValue_of_reads hv) x
    have known : given n.value = .ok (some n.value) := rfl
    obtain ⟨q', hq⟩ := exists_prepend known q
    have step : prepend given (.exact n) (some Unrounded.rounded) = .ok (some .rounded) := by
      have sum : Unrounded.exact n + 1 / Unrounded.rounded = .rounded :=
        (congrArg _ (Unrounded.combine_rounded _ _ _)).trans (Unrounded.combine_rounded _ _ _)
      change Except.ok (some (Unrounded.exact n + 1 / Unrounded.rounded)) = _
      rw [sum]
    exact ⟨some .rounded, x', q', step, hx, hq, .rounded x' q'⟩
  | exact m =>
    obtain ⟨same, same'⟩ := Unrounded.beq_zero m
    have step : prepend readValue v (some m.double) =
        if m.double == 0 then .ok none else .ok (some (n.double + 1 / m.double)) := by
      rw [prepend, readValue_of_reads hv]
      rfl
    rw [step]
    change ∃ a' x' q', (if _ == _ then _ else _) = _ ∧ _ ∧ (if _ == _ then _ else _) = _ ∧ _
    rw [same, same']
    cases m.double == 0 with
    | true => exact ⟨none, none, none, rfl, rfl, rfl, .undefined⟩
    | false =>
      have sum := (Unrounded.agrees_exact n).add
        (Unrounded.agrees_one.div (Unrounded.agrees_exact m))
      exact ⟨_, _, _, rfl, rfl, rfl, agree_of_agrees sum⟩

theorem exists_agree (h : List.Forall₂ Reads (v :: vs) (n :: ns)) :
    ∃ a x q, fraction given ((n :: ns).map Unrounded.exact) = .ok a ∧
      fraction readValue (v :: vs) = .ok x ∧
      fraction given ((n :: ns).map Number.value) = .ok q ∧ Agree a x q := by
  induction vs generalizing v n ns with
  | nil =>
    obtain ⟨first, rest⟩ := List.forall₂_cons.mp h
    cases rest
    exact ⟨_, _, _, rfl, fraction_singleton (readValue_of_reads first), rfl, .exact n⟩
  | cons w vs ih =>
    obtain ⟨first, rest⟩ := List.forall₂_cons.mp h
    cases ns with
    | nil => cases rest
    | cons m ns =>
      obtain ⟨a, x, q, ha, hx, hq, agree⟩ := ih rest
      obtain ⟨a', x', q', ha', hx', hq', agree'⟩ := agree.next first
      refine ⟨a', x', q', ?_, ?_, ?_, agree'⟩
      · rw [List.map_cons, List.map_cons, fraction_cons_cons, ← List.map_cons, ha]
        exact ha'
      · rw [fraction_cons_cons, hx]
        exact hx'
      · rw [List.map_cons, List.map_cons, fraction_cons_cons, ← List.map_cons, hq]
        exact hq'

theorem extend_agrees {k b : Unrounded} {x y : Float} {p q : ℚ} (hk : k.Agrees x p)
    (hb : b.Agrees y q) (ns : List Number) : (extend k b (ns.map .exact)).Agrees
      (extend x y (ns.map Number.double)) (extend p q (ns.map Number.value)) := by
  induction ns generalizing k b x y p q with
  | nil => exact hk
  | cons n ns ih => exact ih (((Unrounded.agrees_exact n).mul hk).add hb) hk

theorem continuant_agrees (ns : List Number) : (continuant (ns.map Unrounded.exact)).Agrees
    (continuant (ns.map Number.double)) (continuant (ns.map Number.value)) := by
  cases ns with
  | nil => exact Unrounded.agrees_one
  | cons n ns => exact extend_agrees (Unrounded.agrees_exact n) Unrounded.agrees_one ns

theorem doubles?_of_reads (h : List.Forall₂ Reads vs ns) :
    Value.doubles? vs = .ok (some (ns.map Number.double)) := by
  induction h with
  | nil => rfl
  | @cons v n vs ns first _ ih =>
    rw [Value.doubles?, first.1, ih]
    change (if n.double.isNaN then _ else _) = _
    rw [if_neg (Bool.eq_false_iff.mp (Double.finite_of_toRat? n.stands).1)]
    rfl

theorem continuantOfValues_of_reads (h : List.Forall₂ Reads vs ns)
    (exact : continuant (ns.map Unrounded.exact) ≠ .rounded) :
    ∃ x, continuantOfValues vs = .ok (.double x) ∧
      toRat? x = some (continuant (ns.map Number.value)) := by
  refine ⟨continuant (ns.map Number.double), ?_, ?_⟩
  · rw [continuantOfValues, NumericFunction.onDoubles, doubles?_of_reads h]
    rfl
  · have agrees := continuant_agrees ns
    cases value : continuant (ns.map Unrounded.exact) with
    | rounded => exact absurd value exact
    | exact n =>
      obtain ⟨same, same'⟩ := agrees n value
      rw [← same, ← same', n.stands]

theorem ofValues_of_reads (h : List.Forall₂ Reads (v :: vs) (n :: ns))
    (exact : fraction given ((n :: ns).map Unrounded.exact) ≠ .ok (some .rounded)) :
    ∃ u, ofValues (v :: vs) = .ok u ∧ IsQuotient n.value (ns.map Number.value) u.toRat? ∧
      (u.toRat? = none → u = Value.nan) := by
  obtain ⟨result, value, quotient⟩ := exists_fraction n.value (ns.map Number.value)
  cases vs with
  | nil =>
    obtain ⟨first, rest⟩ := List.forall₂_cons.mp h
    cases rest
    refine ⟨v, rfl, ?_, ?_⟩
    · rw [first.2]
      exact isQuotient_singleton n.value
    · rw [first.2]
      simp
  | cons w vs =>
    obtain ⟨a, x, q, ha, hx, hq, agree⟩ := exists_agree h
    have run : ofValues (v :: w :: vs) = .ok (.double (x.getD Double.nan)) := by
      rw [ofValues, hx]
      · rfl
      · simp
    obtain rfl : q = result := Except.ok.inj (hq.symm.trans value)
    refine ⟨_, run, ?_⟩
    cases agree with
    | undefined =>
      have undefined : toRat? Double.nan = none := by rw [toRat?, Double.parts_nan]
      refine ⟨?_, fun _ => rfl⟩
      change IsQuotient _ _ (toRat? Double.nan)
      rwa [undefined]
    | rounded => exact absurd ha exact
    | exact m =>
      change IsQuotient _ _ (toRat? m.double) ∧ (toRat? m.double = none → _)
      rw [m.stands]
      exact ⟨quotient, by simp⟩

end

variable [Transcendentals]

/-- Over the rationals a continued fraction is a quotient of continuants, and undefined just if the
continuant of a suffix without the first term vanishes. So are the fraction and the continuants that
are given for values, as far as nothing is rounded. -/
theorem fraction_is_quotient :
    (∀ (a : ℚ) (terms : List ℚ), ∃ result, fraction given (a :: terms) = .ok result ∧
      IsQuotient a terms result) ∧
    ∃ f k, Catalogue.find? Catalogue.elementary "continued_fraction" = some f ∧
      Catalogue.find? Catalogue.elementary "continued_polynomial" = some k ∧
      ∀ (v : Value) (vs : List Value) (n : Number) (ns : List Number),
        List.Forall₂ Reads (v :: vs) (n :: ns) → ComputesExactly (n :: ns) →
        (∀ j, ∃ x, k.apply ((v :: vs).drop j) = .ok (.double x) ∧
          toRat? x = some (continuant (((n :: ns).drop j).map Number.value))) ∧
        ∃ u, f.apply (v :: vs) = .ok u ∧ IsQuotient n.value (ns.map Number.value) u.toRat? ∧
          (u.toRat? = none → u = Value.nan) := by
  refine ⟨exists_fraction, _, _, rfl, rfl, fun v vs n ns h exact => ⟨fun j => ?_, ?_⟩⟩
  · exact continuantOfValues_of_reads (List.forall₂_drop j h) (exact.continuants j)
  · exact ofValues_of_reads h exact.fraction

/-- The fraction `1 + 1 / (1 + 1 / 1)`, whose continuants are 3 and 2. -/
theorem fraction_of_ones : ComputesExactly [Number.one, Number.one, Number.one] ∧
    List.Forall₂ Reads [.int 1, .int 1, .double 1.0] [Number.one, Number.one, Number.one] ∧
    ∃ u, (NumericFunction.ofValues "continued_fraction" ofValues).apply
      [.int 1, .int 1, .double 1.0] = .ok u ∧ u.toRat? = some (3 / 2) := by
  have exact : ComputesExactly [Number.one, Number.one, Number.one] := by
    constructor
    · decide +kernel
    · intro j
      rcases Nat.lt_or_ge j 3 with inside | beyond
      · exact (by decide +kernel : ∀ j < 3,
          continuant (([Number.one, Number.one, Number.one].drop j).map Unrounded.exact) ≠
            .rounded) j inside
      · rw [List.drop_of_length_le beyond]
        decide +kernel
  have integer : Reads (.int 1) Number.one := ⟨by decide, by simp [Value.toRat?, Number.one]⟩
  have reads : List.Forall₂ Reads [.int 1, .int 1, .double 1.0]
      [Number.one, Number.one, Number.one] :=
    .cons integer (.cons integer (.cons ⟨rfl, Number.one.stands⟩ .nil))
  obtain ⟨_, f, k, hf, _, values⟩ := fraction_is_quotient
  obtain rfl : NumericFunction.ofValues "continued_fraction" ofValues = f := Option.some.inj hf
  obtain ⟨_, u, run, quotient, _⟩ := values _ _ _ _ reads exact
  refine ⟨exact, reads, u, run, ?_⟩
  cases value : u.toRat? with
  | none =>
    obtain ⟨j, hj, zero⟩ := quotient.undefined_iff.mp value
    have nonzero : ∀ j < 2, continuant (([1, 1] : List ℚ).drop j) ≠ 0 := by decide +kernel
    exact absurd zero (nonzero j hj)
  | some c =>
    have below : continuant ([1, 1] : List ℚ) = 2 := by decide +kernel
    have above : continuant ([1, 1, 1] : List ℚ) = 3 := by decide +kernel
    have product : c * continuant [1, 1] = continuant [1, 1, 1] := quotient.quotient c value
    rw [below, above] at product
    rw [eq_div_of_mul_eq (by norm_num) product]

end FiniteCalculus.ContinuedFraction
