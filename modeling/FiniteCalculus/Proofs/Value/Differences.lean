import FiniteCalculus.Proofs.Double.Magnitudes
import FiniteCalculus.Proofs.Double.Order
import FiniteCalculus.Proofs.Value.Reals

/-! Differences of real values. Integers are subtracted exactly, and other real numbers as doubles.
Either way the difference can be taken in both orders or in none, with the same magnitude, and
whether two values are equal does not depend on their order. -/

namespace FiniteCalculus
set_option autoImplicit false

namespace Value
variable {v w d : Value}

/-- How the difference of two real numbers comes about. -/
inductive Subtracts (v w d : Value) : Prop where
  | exact {m n : Int} (hv : v.integer? = some m) (hw : w.integer? = some n) (hd : d = int (m - n))
  | rounded {x y : Float} (mixed : v.integer? = none ∨ w.integer? = none)
      (hv : v.toDouble = .ok x) (hw : w.toDouble = .ok y) (hd : d = double (x - y))

theorem sub_iff_subtracts (hv : v.isReal) (hw : w.isReal) :
    v.sub w = .ok d ↔ Subtracts v w d := by
  rw [sub, arithmetic]
  constructor
  · intro h
    split at h
    · next m n hm hn => exact .exact hm hn (Except.ok.inj h).symm
    · next mixed =>
      rw [hv, hw, Bool.and_true, if_pos rfl] at h
      obtain ⟨x, hx, h⟩ := bind_eq_ok h
      obtain ⟨y, hy, h⟩ := bind_eq_ok h
      refine .rounded ?_ hx hy (Except.ok.inj h).symm
      cases hm : v.integer? with
      | none => exact .inl rfl
      | some m =>
        cases hn : w.integer? with
        | none => exact .inr rfl
        | some n => exact (mixed m n hm hn).elim
  · rintro (⟨hm, hn, rfl⟩ | ⟨mixed, hx, hy, rfl⟩)
    · rw [hm, hn]
    · split
      · next m n hm hn =>
        rw [hm, hn] at mixed
        rcases mixed with none | none <;> cases none
      · rw [hv, hw, Bool.and_true, if_pos rfl, hx, hy]
        rfl

theorem Subtracts.isReal (h : Subtracts v w d) : d.isReal := by
  cases h with
  | exact _ _ hd => exact hd ▸ rfl
  | rounded _ _ _ hd => exact hd ▸ rfl

/-- The difference can be taken the other way round, and has the same magnitude. -/
theorem Subtracts.swap (h : Subtracts v w d) :
    ∃ d', Subtracts w v d' ∧ d'.magnitude = d.magnitude := by
  cases h with
  | @exact m n hv hw hd =>
    refine ⟨_, .exact hw hv rfl, ?_⟩
    rw [hd, magnitude, magnitude, ← Int.natAbs_neg, neg_sub]
  | rounded mixed hv hw hd =>
    refine ⟨_, .rounded mixed.symm hw hv rfl, ?_⟩
    rw [hd, magnitude, magnitude, Double.abs_sub_comm]

theorem exists_sub_swap (hv : v.isReal) (hw : w.isReal) (h : v.sub w = .ok d) :
    ∃ d', w.sub v = .ok d' ∧ d'.magnitude = d.magnitude := by
  obtain ⟨d', swapped, same⟩ := ((sub_iff_subtracts hv hw).mp h).swap
  exact ⟨d', (sub_iff_subtracts hw hv).mpr swapped, same⟩

theorem equal_iff_place (hv : v.isReal) (hw : w.isReal) :
    v.equal w = true ↔ ∃ p, v.place? = some p ∧ w.place? = some p := by
  have compared : v.equal w = (v.compare? w == some .eq) := by
    cases v with
    | int _ | double _ | bool _ =>
      cases w with
      | int _ | double _ | bool _ => rfl
      | _ => cases hw
    | _ => cases hv
  rw [compared, beq_iff_eq, compare?_eq]
  cases v.place? with
  | none => simp
  | some p =>
    cases w.place? with
    | none => simp
    | some q => simpa using eq_comm

theorem equal_comm (hv : v.isReal) (hw : w.isReal) : v.equal w = w.equal v := by
  rw [Bool.eq_iff_iff, equal_iff_place hv hw, equal_iff_place hw hv]
  exact exists_congr fun p => and_comm

theorem exists_magnitude (h : v.isReal) : ∃ g, v.magnitude = .ok g ∧ g.isReal ∧
    ∀ q, g.toRat? = some q → 0 ≤ q := by
  cases v with
  | int n =>
    refine ⟨_, rfl, rfl, fun q hq => ?_⟩
    rw [← Option.some.inj hq]
    exact_mod_cast Int.natCast_nonneg n.natAbs
  | double x =>
    refine ⟨_, rfl, rfl, fun q hq => ?_⟩
    obtain ⟨r, _, rfl⟩ := Option.map_eq_some_iff.mp ((Double.toRat?_abs x).symm.trans hq)
    exact abs_nonneg r
  | bool b =>
    refine ⟨_, rfl, rfl, fun q hq => ?_⟩
    rw [← Option.some.inj hq]
    cases b <;> decide
  | _ => cases h

end Value

end FiniteCalculus
