import FiniteCalculus.Value.Arithmetic

/-! Which values are real numbers. The test for an undefined number lets only real
numbers pass, sums of real numbers are real numbers, and no operation gives an absent
value. -/

namespace FiniteCalculus
set_option autoImplicit false

theorem ok_bind {ε α β : Type} (a : α) (f : α → Except ε β) : .ok a >>= f = f a := rfl

theorem bind_eq_ok {ε α β : Type} {r : Except ε α} {f : α → Except ε β} {b : β}
    (h : r >>= f = .ok b) : ∃ a, r = .ok a ∧ f a = .ok b := by
  cases r with
  | error e => cases h
  | ok a => exact ⟨a, rfl, h⟩

namespace Value

theorem isNaN_double (z : Float) : (double z).isNaN = .ok z.isNaN := rfl

theorem isNaN_of_not_isReal {v : Value} (h : v.isReal = false) :
    v.isNaN = .error (.notReal v.kind) := by
  cases v with
  | int n => cases h
  | double z => cases h
  | bool b => cases h
  | absent => rfl
  | text t => rfl
  | complex re im => rfl

theorem isReal_of_isNaN {v : Value} {undefined : Bool} (h : v.isNaN = .ok undefined) :
    v.isReal := by
  cases hr : v.isReal with
  | true => rfl
  | false =>
    rw [isNaN_of_not_isReal hr] at h
    cases h

theorem isReal_of_anyNaN {vs : List Value} (h : anyNaN vs = .ok false) : ∀ v ∈ vs, v.isReal := by
  induction vs with
  | nil => simp
  | cons v vs ih =>
    obtain ⟨undefined, hv, h⟩ := bind_eq_ok h
    cases undefined with
    | true => cases h
    | false =>
      intro w hw
      rcases List.mem_cons.mp hw with rfl | hw
      · exact isReal_of_isNaN hv
      · exact ih h w hw

theorem isReal_of_arithmetic {operator : String} {exact : Int → Int → Int}
    {rounded : Float → Float → Float} {planar : Float × Float → Float × Float → Float × Float}
    {v w u : Value} (hv : v.isReal) (hw : w.isReal)
    (h : arithmetic operator exact rounded planar v w = .ok u) : u.isReal := by
  unfold arithmetic at h
  split at h
  · cases h; rfl
  · simp only [hv, hw, Bool.and_self, if_true] at h
    obtain ⟨a, _, h⟩ := bind_eq_ok h
    obtain ⟨b, _, h⟩ := bind_eq_ok h
    cases h; rfl

theorem isReal_of_add {v w u : Value} (hv : v.isReal) (hw : w.isReal) (h : v.add w = .ok u) :
    u.isReal := by
  unfold add at h
  split at h
  · cases hv
  · exact isReal_of_arithmetic hv hw h

theorem ne_absent_of_isReal {v : Value} (h : v.isReal) : v ≠ absent := by
  rintro rfl
  cases h

theorem arithmetic_ne_absent {operator : String} {exact : Int → Int → Int}
    {rounded : Float → Float → Float} {planar : Float × Float → Float × Float → Float × Float}
    {v w : Value} : arithmetic operator exact rounded planar v w ≠ .ok absent := by
  intro h
  unfold arithmetic at h
  split at h
  · cases h
  · split at h
    · obtain ⟨a, _, h⟩ := bind_eq_ok h
      obtain ⟨b, _, h⟩ := bind_eq_ok h
      cases h
    · split at h
      · obtain ⟨a, _, h⟩ := bind_eq_ok h
        obtain ⟨b, _, h⟩ := bind_eq_ok h
        cases h
      · cases h

theorem add_ne_absent (v w : Value) : v.add w ≠ .ok absent := by
  unfold add
  split
  · intro h; cases h
  · exact arithmetic_ne_absent

theorem sub_ne_absent (v w : Value) : v.sub w ≠ .ok absent := arithmetic_ne_absent

theorem mul_ne_absent (v w : Value) : v.mul w ≠ .ok absent := by
  have repeated (v w : Value) (text : String) (n : Option Int) :
      mul.repeated v w text n ≠ .ok absent := by
    cases n with
    | none => intro h; cases h
    | some n => intro h; cases h
  unfold mul
  split
  · exact repeated _ _ _ _
  · exact repeated _ _ _ _
  · exact arithmetic_ne_absent

end Value

end FiniteCalculus
