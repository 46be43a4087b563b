import FiniteCalculus.Proofs.Double.Exact
import FiniteCalculus.Proofs.Value.Reals

/-! The undefined number among values. There is one such double, every sum and product with
it is undefined, and a reading of values from the left that meets it ends there, unless
it meets a value out of range before. -/

namespace FiniteCalculus
set_option autoImplicit false

namespace Double

open Float.Model Float.Model.UnpackedFloat

theorem eq_nan_of_isNaN {x : Float} (h : x.isNaN = true) : x = nan := by
  rw [Float.isNaN_eq_decide_eq_nan, decide_eq_true_iff] at h
  exact h

theorem nan_add (x : Float) : nan + x = nan := by
  change Float.ofModel (Float.Model.pack (UnpackedFloat.add Format.binary64
    nan.toModel.unpack x.toModel.unpack)) = nan
  rw [unpack_nan]
  cases x.toModel.unpack <;> rfl

theorem add_nan (x : Float) : x + nan = nan := by
  change Float.ofModel (Float.Model.pack (UnpackedFloat.add Format.binary64
    x.toModel.unpack nan.toModel.unpack)) = nan
  rw [unpack_nan]
  cases x.toModel.unpack <;> rfl

theorem nan_mul (x : Float) : nan * x = nan := by
  change Float.ofModel (Float.Model.pack (UnpackedFloat.mul Format.binary64
    nan.toModel.unpack x.toModel.unpack)) = nan
  rw [unpack_nan]
  cases x.toModel.unpack <;> rfl

theorem mul_nan (x : Float) : x * nan = nan := by
  change Float.ofModel (Float.Model.pack (UnpackedFloat.mul Format.binary64
    x.toModel.unpack nan.toModel.unpack)) = nan
  rw [unpack_nan]
  cases x.toModel.unpack <;> rfl

end Double

namespace Value

theorem toDouble_nan : nan.toDouble = .ok Double.nan := rfl

theorem nan_mem_iff {vs : List Value} :
    nan ∈ vs ↔ ∃ x, double x ∈ vs ∧ x.isNaN = true := by
  constructor
  · intro h
    exact ⟨Double.nan, h, by decide⟩
  · rintro ⟨x, hx, undefined⟩
    rw [Double.eq_nan_of_isNaN undefined] at hx
    exact hx

theorem ne_nan_of_toDouble {v : Value} {x : Float} (h : v.toDouble = .ok x)
    (number : x.isNaN = false) : v ≠ nan := by
  rintro rfl
  cases h
  exact absurd number (by decide)

section
variable {operator : String} {exact : Int → Int → Int} {rounded : Float → Float → Float}
  {planar : Float × Float → Float × Float → Float × Float} {v w u : Value}

theorem arithmetic_undefined (left : ∀ x, rounded Double.nan x = Double.nan)
    (right : ∀ x, rounded x Double.nan = Double.nan) (hv : v.isReal) (hw : w.isReal)
    (undefined : v = nan ∨ w = nan) (h : arithmetic operator exact rounded planar v w = .ok u) :
    u = nan := by
  unfold arithmetic at h
  split at h
  · rename_i a b ha hb
    rcases undefined with rfl | rfl
    · cases ha
    · cases hb
  · simp only [hv, hw, Bool.and_self, if_true] at h
    obtain ⟨x, hx, h⟩ := bind_eq_ok h
    obtain ⟨y, hy, h⟩ := bind_eq_ok h
    cases h
    rcases undefined with rfl | rfl
    · cases hx
      exact congrArg double (left y)
    · cases hy
      exact congrArg double (right x)

/-- A sum with an undefined term is undefined, if it does not fault. -/
theorem add_undefined (hv : v.isReal) (hw : w.isReal) (undefined : v = nan ∨ w = nan)
    (h : v.add w = .ok u) : u = nan := by
  unfold add at h
  split at h
  · cases hv
  · exact arithmetic_undefined Double.nan_add Double.add_nan hv hw undefined h

theorem mul_of_isReal (hv : v.isReal) (hw : w.isReal) :
    v.mul w = arithmetic "*" (· * ·) (· * ·)
      (fun (a, b) (c, d) => (a * c - b * d, a * d + b * c)) v w := by
  unfold mul
  split
  · cases hv
  · cases hw
  · rfl

/-- A product with an undefined factor is undefined, if it does not fault. -/
theorem mul_undefined (hv : v.isReal) (hw : w.isReal) (undefined : v = nan ∨ w = nan)
    (h : v.mul w = .ok u) : u = nan := by
  rw [mul_of_isReal hv hw] at h
  exact arithmetic_undefined Double.nan_mul Double.mul_nan hv hw undefined h

theorem isReal_of_mul (hv : v.isReal) (hw : w.isReal) (h : v.mul w = .ok u) : u.isReal := by
  rw [mul_of_isReal hv hw] at h
  exact isReal_of_arithmetic hv hw h

end

/-- What comes of a reading of the values: the result for an undefined one, or the fault
of one that cannot be read as a double. -/
def EndsIn {β : Type} (vs : List Value) (outcome : Except Fault β) (result : β) : Prop :=
  outcome = .ok result ∨
    ∃ v ∈ vs, ∃ fault, v.toDouble = .error fault ∧ outcome = .error fault

section
variable {β γ : Type} {vs : List Value} {outcome : Except Fault β} {result : β}

theorem EndsIn.eq_ok (h : EndsIn vs outcome result) (range : ∀ v ∈ vs, v.IsRepresentable) :
    outcome = .ok result := by
  rcases h with h | ⟨v, hv, fault, unread, _⟩
  · exact h
  · obtain ⟨x, hx⟩ := range v hv
    rw [hx] at unread
    cases unread

theorem EndsIn.eq_of_ok {b : β} (h : EndsIn vs outcome result) (hb : outcome = .ok b) :
    b = result := by
  rcases h with rfl | ⟨v, _, fault, _, rfl⟩
  · exact (Except.ok.inj hb).symm
  · cases hb

theorem EndsIn.bind {f : β → Except Fault γ} {c : γ} (h : EndsIn vs outcome result)
    (hf : f result = .ok c) : EndsIn vs (outcome >>= f) c := by
  rcases h with rfl | ⟨v, hv, fault, unread, rfl⟩
  · exact .inl hf
  · exact .inr ⟨v, hv, fault, unread, rfl⟩

theorem EndsIn.mono {ws : List Value} (h : EndsIn vs outcome result) (sub : ∀ v ∈ vs, v ∈ ws) :
    EndsIn ws outcome result := by
  rcases h with h | ⟨v, hv, rest⟩
  · exact .inl h
  · exact .inr ⟨v, sub v hv, rest⟩

/-- A reading that takes one value as a double and ends at an undefined one. What it does
after a number matters only if an undefined value is still to come. -/
theorem endsIn_cons {v : Value} {f : Float → Except Fault β} (undefined : nan ∈ v :: vs)
    (stop : f Double.nan = .ok result)
    (go : ∀ x, v.toDouble = .ok x → x.isNaN = false → nan ∈ vs → EndsIn vs (f x) result) :
    EndsIn (v :: vs) (v.toDouble >>= f) result := by
  cases hv : v.toDouble with
  | error fault => exact .inr ⟨v, List.mem_cons_self, fault, hv, rfl⟩
  | ok x =>
    cases hx : x.isNaN with
    | true =>
      rw [Double.eq_nan_of_isNaN hx]
      exact .inl stop
    | false =>
      have later : nan ∈ vs :=
        (List.mem_cons.mp undefined).resolve_left (ne_nan_of_toDouble hv hx).symm
      exact (go x hv hx later).mono fun w hw => List.mem_cons_of_mem _ hw

theorem anyNaN_cons (v : Value) (vs : List Value) :
    anyNaN (v :: vs) =
      v.toDouble >>= fun x => if x.isNaN then return true else anyNaN vs := by
  rw [anyNaN, isNaN]
  cases v.toDouble <;> rfl

theorem anyNaN_endsIn (undefined : nan ∈ vs) : EndsIn vs (anyNaN vs) true := by
  induction vs with
  | nil => cases undefined
  | cons v vs ih =>
    rw [anyNaN_cons]
    refine endsIn_cons undefined rfl fun x _ number later => ?_
    rw [if_neg (Bool.eq_false_iff.mp number)]
    exact ih later

theorem doubles?_endsIn (undefined : nan ∈ vs) : EndsIn vs (doubles? vs) none := by
  induction vs with
  | nil => cases undefined
  | cons v vs ih =>
    rw [doubles?]
    refine endsIn_cons undefined rfl fun x _ number later => ?_
    rw [if_neg (Bool.eq_false_iff.mp number)]
    exact (ih later).bind rfl

end

end Value

end FiniteCalculus
