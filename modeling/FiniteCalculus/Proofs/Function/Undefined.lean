import FiniteCalculus.Catalogue
import FiniteCalculus.Proofs.Rounding.Arguments
import FiniteCalculus.Proofs.Value.Undefined

/-! An undefined argument makes the result of a function undefined. The functions differ
in how they come to read it: some read all arguments before anything else, some stop
where they can, and the functions of integers round on the way. Only a least common
multiple can be settled before it. -/

namespace FiniteCalculus
set_option autoImplicit false

open Value

/-- A function of real numbers is a real number. -/
def NumericFunction.MapsReal (f : NumericFunction) : Prop :=
  ∀ args v, (∀ u ∈ args, u.isReal) → f.body args = .ok v → v.isReal

/-- A function of real numbers is undefined as soon as one of them is. -/
structure NumericFunction.Propagates (f : NumericFunction) : Prop where
  undefined : ∀ args, nan ∈ args → EndsIn args (f.body args) nan
  real : f.MapsReal

theorem isReal_of_bind {α : Type} {x : Except Fault α} {f : α → Except Fault Value} {v : Value}
    (real : ∀ a v, f a = .ok v → v.isReal) (h : x >>= f = .ok v) : v.isReal := by
  obtain ⟨a, _, h⟩ := bind_eq_ok h
  exact real a v h

namespace NumericFunction
variable {name : String} {args : List Value} {v : Value}

theorem onDoubles_endsIn (f : List Float → Float) (undefined : nan ∈ args) :
    EndsIn args (onDoubles f args) nan :=
  (doubles?_endsIn undefined).bind rfl

theorem onDoubles_real {f : List Float → Float} (h : onDoubles f args = .ok v) : v.isReal := by
  obtain ⟨xs, _, h⟩ := bind_eq_ok h
  cases xs with
  | none =>
    cases h
    rfl
  | some xs =>
    cases h
    rfl

theorem onDoubles_propagates {arity : Option Nat} (f : List Float → Float) :
    Propagates ⟨name, arity, onDoubles f⟩ where
  undefined _ := onDoubles_endsIn f
  real _ _ _ := onDoubles_real

theorem ofDouble_propagates (f : Float → Float) : (ofDouble name f).Propagates :=
  onDoubles_propagates _

theorem ofDoublePair_propagates (f : Float → Float → Float) : (ofDoublePair name f).Propagates :=
  onDoubles_propagates _

theorem definedBy_propagates {arity : Option Nat} {f : List Value → Except Fault Value}
    (real : ∀ args v, f args = .ok v → v.isReal) : Propagates ⟨name, arity, definedBy f⟩ where
  undefined args undefined := (anyNaN_endsIn undefined).bind rfl
  real args v _ h := by
    obtain ⟨undefined, _, h⟩ := bind_eq_ok h
    cases undefined with
    | true =>
      cases h
      rfl
    | false => exact real args v h

end NumericFunction

namespace Elementary

theorem characteristic_propagates (left right : Bound) (name : String) :
    (characteristic left right name).Propagates := by
  refine NumericFunction.definedBy_propagates fun args v h => ?_
  split at h
  · cases h
    rfl
  · cases h

theorem kroneckerDelta_propagates : kroneckerDelta.Propagates := by
  refine NumericFunction.definedBy_propagates fun args v h => ?_
  split at h
  · cases h
    rfl
  · cases h

theorem scan_endsIn {better : Value → Value → Bool} {best : Value} {vs : List Value}
    (undefined : nan ∈ vs) : EndsIn vs (scan better best vs) nan := by
  induction vs generalizing best with
  | nil => cases undefined
  | cons v vs ih =>
    have step : scan better best (v :: vs) = v.toDouble >>= fun x =>
        if x.isNaN then return nan else scan better (if better v best then v else best) vs := by
      rw [scan, isNaN]
      cases v.toDouble <;> rfl
    rw [step]
    refine endsIn_cons undefined rfl fun x _ number later => ?_
    rw [if_neg (Bool.eq_false_iff.mp number)]
    exact ih later

theorem scan_real {better : Value → Value → Bool} {best v : Value} {vs : List Value}
    (h : scan better best vs = .ok v) : v.isReal := by
  induction vs generalizing best with
  | nil =>
    refine isReal_of_bind (fun x v h => ?_) h
    cases h
    rfl
  | cons w vs ih =>
    obtain ⟨undefined, _, h⟩ := bind_eq_ok h
    cases undefined with
    | true =>
      cases h
      rfl
    | false => exact ih h

theorem scan_propagates {name : String} (better : Value → Value → Bool) (best : Value) :
    (NumericFunction.ofValues name (scan better best)).Propagates where
  undefined _ := scan_endsIn
  real _ _ _ := scan_real

end Elementary

namespace ContinuedFraction

theorem readValue_bind {β : Type} (v : Value) (f : Option Float → Except Fault β) :
    (readValue v >>= f) = v.toDouble >>= fun x => f (if x.isNaN then none else some x) := by
  rw [readValue]
  cases v.toDouble <;> rfl

theorem close_endsIn {cf : Float} {vs : List Value} (undefined : nan ∈ vs) :
    EndsIn vs (close readValue cf vs) none := by
  induction vs generalizing cf with
  | nil => cases undefined
  | cons v vs ih =>
    rw [close, readValue_bind]
    refine endsIn_cons undefined rfl fun x _ number later => ?_
    rw [if_neg (Bool.eq_false_iff.mp number)]
    dsimp only
    -- An interim value of zero makes the fraction undefined already.
    split
    · exact .inl rfl
    · exact ih later

theorem fraction_endsIn {vs : List Value} (undefined : nan ∈ vs) :
    EndsIn vs (fraction readValue vs) none := by
  have reversed : nan ∈ vs.reverse := List.mem_reverse.mpr undefined
  have back : ∀ v ∈ vs.reverse, v ∈ vs := fun v hv => List.mem_reverse.mp hv
  unfold fraction
  cases hvs : vs.reverse with
  | nil =>
    rw [hvs] at reversed
    cases reversed
  | cons v rest =>
    rw [hvs] at reversed back
    refine EndsIn.mono ?_ back
    dsimp only
    rw [readValue_bind]
    refine endsIn_cons reversed rfl fun x _ number later => ?_
    rw [if_neg (Bool.eq_false_iff.mp number)]
    exact close_endsIn later

theorem ofValues_propagates {name : String} :
    (NumericFunction.ofValues name ofValues).Propagates where
  undefined args undefined := by
    change EndsIn args (ofValues args) nan
    unfold ofValues
    split
    · rw [List.mem_singleton.mp undefined]
      exact .inl rfl
    · exact (fraction_endsIn undefined).bind rfl
  real args v real h := by
    change ofValues args = .ok v at h
    unfold ofValues at h
    split at h
    · cases h
      exact real _ (List.mem_singleton_self _)
    · refine isReal_of_bind (fun x v h => ?_) h
      cases h
      rfl

end ContinuedFraction

namespace Rounding
variable {r : Rounding} {position : Nat} {vs : List Value}

theorem read_endsIn (unsettled : r.zeroResult = none) (undefined : nan ∈ vs) :
    EndsIn vs (r.read position vs) (.settled nan) := by
  induction vs generalizing position with
  | nil => cases undefined
  | cons v vs ih =>
    rw [read]
    refine endsIn_cons undefined rfl fun x hx number later => ?_
    rw [if_neg (Bool.eq_false_iff.mp number)]
    have handedOn (u : Value) : EndsIn vs
        (r.read (position + 1) vs >>= fun reading => pure (reading.cons u)) (.settled nan) :=
      (ih later).bind rfl
    split
    · exact handedOn v
    · split
      · exact .inl rfl
      · rename_i bounded
        obtain ⟨q, hq⟩ := exists_toRat? hx number (Bool.eq_false_iff.mpr bounded)
        obtain ⟨n, hn, _⟩ := exists_nearestInteger hq
        rw [hn, ok_bind, unsettled]
        cases n == 0
        · exact handedOn (.int n)
        · exact handedOn (.int n)

/-- The values of a reading are real numbers. -/
def Reading.IsReal : Reading → Prop
  | settled result => result.isReal
  | ready args => ∀ v ∈ args, v.isReal

theorem Reading.IsReal.cons {reading : Reading} {v : Value} (h : reading.IsReal)
    (hv : v.isReal) : (reading.cons v).IsReal := by
  cases reading with
  | settled result => exact h
  | ready args => exact List.forall_mem_cons.mpr ⟨hv, h⟩

theorem read_real {reading : Reading} (result : ∀ v, r.zeroResult = some v → v.isReal)
    (real : ∀ v ∈ vs, v.isReal) (h : r.read position vs = .ok reading) : reading.IsReal := by
  induction vs generalizing position reading with
  | nil =>
    cases h
    exact fun v hv => by cases hv
  | cons v vs ih =>
    obtain ⟨first, rest⟩ := List.forall_mem_cons.mp real
    have handedOn {u : Value} {reading : Reading} (hu : u.isReal)
        (h : (r.read (position + 1) vs >>= fun reading => pure (reading.cons u)) = .ok reading) :
        reading.IsReal := by
      obtain ⟨later, hlater, h⟩ := bind_eq_ok h
      cases h
      exact (ih rest hlater).cons hu
    rw [read] at h
    obtain ⟨x, _, h⟩ := bind_eq_ok h
    split at h
    · cases h
      rfl
    · split at h
      · exact handedOn first h
      · split at h
        · cases h
          rfl
        · obtain ⟨n, _, h⟩ := bind_eq_ok h
          split at h
          · rename_i v _ given
            cases h
            exact result v given
          · exact handedOn (u := .int n) rfl h

/-- A number before the first undefined or infinite value rounds to zero. -/
inductive ZeroFirst : List Value → Prop
  | here {v : Value} {vs : List Value} {q : ℚ} : v.toRat? = some q → IsNearestInteger q 0 →
    ZeroFirst (v :: vs)
  | later {v : Value} {vs : List Value} {q : ℚ} : v.toRat? = some q → ZeroFirst vs →
    ZeroFirst (v :: vs)

theorem not_zeroFirst {x : Float} (h : x.isNaN = true ∨ x.isInf = true) :
    ¬ ZeroFirst (.double x :: vs) := by
  have number {q : ℚ} (hq : toRat? (.double x) = some q) : False := by
    obtain ⟨defined, bounded⟩ := Double.finite_of_toRat? hq
    rw [defined, bounded] at h
    simp at h
  rintro (⟨hq, _⟩ | ⟨hq, _⟩)
  · exact number hq
  · exact number hq

theorem zeroFirst_cons_iff {v result : Value} (passes : r.Passes position v)
    (rounded : r.rounds position = true) (given : r.zeroResult = some result) :
    ZeroFirst (v :: vs) ↔ ZeroFirst vs := by
  constructor
  · rintro (⟨hq, zero⟩ | ⟨_, later⟩)
    · exact absurd ⟨result, .zero rounded hq zero given⟩ passes.2
    · exact later
  · intro later
    obtain ⟨q, hq⟩ := passes.exists_toRat? rounded
    exact .later hq later

/-- A reading that stops at zeros: which of its two results comes first. -/
theorem read_zeroFirst {result : Value} (position : Nat) (everywhere : r.positions = none)
    (given : r.zeroResult = some result) (range : ∀ v ∈ vs, v.IsRepresentable)
    (undefined : nan ∈ vs) :
    (ZeroFirst vs ∧ r.read position vs = .ok (.settled result)) ∨
      (¬ ZeroFirst vs ∧ r.read position vs = .ok (.settled nan)) := by
  have rounded (position : Nat) : r.rounds position = true := by
    rw [rounds, everywhere]
    rfl
  induction vs generalizing position with
  | nil => cases undefined
  | cons v vs ih =>
    obtain ⟨first, rest⟩ := List.forall_mem_cons.mp range
    by_cases settled : ∃ u, r.Settles position v u
    · obtain ⟨u, settles⟩ := settled
      have reading := read_of_settles settles first vs
      cases settles with
      | undefined h => exact .inr ⟨not_zeroFirst (.inl h), reading⟩
      | infinite _ h => exact .inr ⟨not_zeroFirst (.inr h), reading⟩
      | zero _ number zero same =>
        obtain rfl := Option.some.inj (given.symm.trans same)
        exact .inl ⟨.here number zero, reading⟩
    · have defined : v ≠ nan := by
        rintro rfl
        exact settled ⟨nan, .undefined (by decide)⟩
      have later : nan ∈ vs := (List.mem_cons.mp undefined).resolve_left defined.symm
      have passes : r.Passes position v := ⟨first, settled⟩
      obtain ⟨u, _, step⟩ := read_of_passes passes
      rw [zeroFirst_cons_iff passes (rounded position) given, step]
      rcases ih (position + 1) rest later with ⟨zero, reading⟩ | ⟨zero, reading⟩
      · rw [reading]
        exact .inl ⟨zero, rfl⟩
      · rw [reading]
        exact .inr ⟨zero, rfl⟩

theorem apply_endsIn (inner : List Value → Except Fault Value)
    (unsettled : r.zeroResult = none) (undefined : nan ∈ vs) :
    EndsIn vs (r.apply inner vs) nan :=
  (read_endsIn unsettled undefined).bind rfl

theorem apply_real {inner : List Value → Except Fault Value} {v : Value}
    (result : ∀ v, r.zeroResult = some v → v.isReal) (real : ∀ v ∈ vs, v.isReal)
    (hinner : ∀ args v, (∀ u ∈ args, u.isReal) → inner args = .ok v → v.isReal)
    (h : r.apply inner vs = .ok v) : v.isReal := by
  obtain ⟨reading, hreading, h⟩ := bind_eq_ok h
  have values := read_real result real hreading
  cases reading with
  | settled result =>
    cases h
    exact values
  | ready args => exact hinner args v values h

end Rounding

namespace Discrete

theorem asValue_real {x : Except Fault Float} {v : Value} (h : asValue x = .ok v) : v.isReal := by
  refine isReal_of_bind (fun x v h => ?_) h
  cases h
  rfl

theorem ofValue_real {name : String} {f : Value → Except Fault Value}
    (hf : ∀ u v, u.isReal → f u = .ok v → v.isReal) :
    (NumericFunction.ofValue name f).MapsReal := by
  intro args v real h
  unfold NumericFunction.ofValue at h
  dsimp only at h
  split at h
  · exact hf _ v (real _ (by simp)) h
  · cases h

theorem ofValuePair_real {name : String} {f : Value → Value → Except Fault Value}
    (hf : ∀ a b v, a.isReal → b.isReal → f a b = .ok v → v.isReal) :
    (NumericFunction.ofValuePair name f).MapsReal := by
  intro args v real h
  unfold NumericFunction.ofValuePair at h
  dsimp only at h
  split at h
  · exact hf _ _ v (real _ (by simp)) (real _ (by simp)) h
  · cases h

theorem ofInteger_real {name : String} {f : Int → Except Fault Float} :
    (ofInteger name f).MapsReal :=
  ofValue_real fun _ _ _ => isReal_of_bind fun _ _ => asValue_real

theorem ofIntegerPair_real {name : String} {f : Int → Int → Except Fault Float} :
    (ofIntegerPair name f).MapsReal :=
  ofValuePair_real fun _ _ _ _ _ =>
    isReal_of_bind fun _ _ => isReal_of_bind fun _ _ => asValue_real

theorem ofIntegers_real {name : String} {f : List Int → Except Fault Float} :
    (ofIntegers name f).MapsReal :=
  fun _ _ _ => isReal_of_bind fun _ _ => asValue_real

theorem generalizedHarmonicOf_real [Transcendentals] {x v : Value} {n : Int} (hx : x.isReal)
    (h : generalizedHarmonicOf x n = .ok v) : v.isReal := by
  obtain ⟨undefined, _, h⟩ := bind_eq_ok h
  split at h
  · cases h
    rfl
  · split at h
    · cases h
      rfl
    · split at h
      · cases h
        rfl
      · split at h
        · cases h
          exact hx
        · exact isReal_of_bind (fun _ _ => asValue_real) h

end Discrete

namespace Catalogue

theorem name_rounded (f : NumericFunction) : (rounded f).name = f.name := by
  unfold rounded
  split
  · rename_i same
    exact same.symm
  · rfl

theorem roundingOf_real (name : String) :
    ∀ v, (roundingOf name).zeroResult = some v → v.isReal := by
  intro v h
  unfold roundingOf at h
  dsimp only at h
  split at h
  · cases h
    rfl
  · cases h

theorem rounded_propagates {f : NumericFunction} (real : f.MapsReal) (other : f.name ≠ "lcm") :
    (rounded f).Propagates := by
  unfold rounded
  split
  · exact Elementary.kroneckerDelta_propagates
  · have unsettled : (roundingOf f.name).zeroResult = none := if_neg other
    exact
      { undefined := fun _ undefined => Rounding.apply_endsIn _ unsettled undefined
        real := fun _ _ args h => Rounding.apply_real (roundingOf_real f.name) args
          (fun args v reals given => real args v reals (NumericFunction.body_of_apply given)) h }

variable [Transcendentals]

theorem elementary_propagates : ∀ f ∈ elementary, f.Propagates := by
  simp only [elementary, List.forall_mem_cons, NumericFunction.ofDouble_propagates,
    NumericFunction.ofDoublePair_propagates, Elementary.characteristic_propagates,
    Elementary.kroneckerDelta_propagates, ContinuedFraction.ofValues_propagates, true_and]
  -- Least and greatest value, and the continuant.
  refine ⟨Elementary.scan_propagates _ _, Elementary.scan_propagates _ _,
    NumericFunction.onDoubles_propagates _, ?_⟩
  simp

theorem integers_real : ∀ f ∈ integers, f.MapsReal := by
  simp only [integers, List.forall_mem_cons, Discrete.ofInteger_real, Discrete.ofIntegerPair_real,
    Discrete.ofIntegers_real, true_and]
  -- Binomial coefficient, generalized harmonic number, Kronecker delta and Euler polynomial.
  refine ⟨?_, ?_, ?_, ?_, ?_⟩
  · exact Discrete.ofValuePair_real fun _ _ _ _ _ => isReal_of_bind fun _ _ =>
      Discrete.asValue_real
  · exact Discrete.ofValuePair_real fun _ _ _ hx _ => isReal_of_bind fun _ _ =>
      Discrete.generalizedHarmonicOf_real hx
  · refine Discrete.ofValuePair_real fun a b v _ _ h => ?_
    cases h
    rfl
  · exact Discrete.ofValuePair_real fun _ _ _ _ _ => isReal_of_bind fun _ _ =>
      Discrete.asValue_real
  · simp

theorem special_propagates : ∀ f ∈ special, f.name ≠ "lcm" → f.Propagates := by
  intro f hf other
  obtain ⟨g, hg, rfl⟩ := List.mem_map.mp hf
  rw [name_rounded] at other
  exact rounded_propagates (integers_real g hg) other

/-- All functions that expressions apply, but for the least common multiple. -/
theorem all_propagates : ∀ f ∈ all, f.name ≠ "lcm" → f.Propagates := by
  intro f hf other
  rcases List.mem_append.mp hf with hf | hf
  · exact elementary_propagates f hf
  · exact special_propagates f hf other

theorem lcm_zeroFirst {f : NumericFunction} (hf : f ∈ special) (lcm : f.name = "lcm")
    {args : List Value} (range : ∀ v ∈ args, v.IsRepresentable) (undefined : nan ∈ args) :
    (Rounding.ZeroFirst args ∧ f.body args = .ok (.double 0.0)) ∨
      (¬ Rounding.ZeroFirst args ∧ f.body args = .ok nan) := by
  obtain ⟨g, _, rfl⟩ := List.mem_map.mp hf
  rw [name_rounded] at lcm
  have body : (rounded g).body = (roundingOf "lcm").apply g.apply := by
    rw [rounded, lcm, if_neg (by decide)]
  have given : (roundingOf "lcm").zeroResult = some (.double 0.0) := rfl
  rw [body]
  rcases Rounding.read_zeroFirst 0 rfl given range undefined with
    ⟨zero, reading⟩ | ⟨zero, reading⟩
  · exact .inl ⟨zero, Rounding.apply_of_settled _ reading⟩
  · exact .inr ⟨zero, Rounding.apply_of_settled _ reading⟩

end Catalogue

end FiniteCalculus
