/-! The units of dyadic and of decimal numbers. A unit with an integer exponent is
the fraction of two natural powers, that of the exponent over that of its opposite. -/

namespace FiniteCalculus
set_option autoImplicit false

/-- `2` to the power `k`, and `1` for a negative `k`. -/
def powerOfTwo (k : Int) : Nat := Nat.pow 2 k.toNat

/-- `10` to the power `k`, and `1` for a negative `k`. -/
def powerOfTen (k : Int) : Nat := Nat.pow 10 k.toNat

theorem powerOfTwo_pos (k : Int) : 0 < powerOfTwo k := Nat.pow_pos (by decide)

theorem powerOfTen_pos (k : Int) : 0 < powerOfTen k := Nat.pow_pos (by decide)

theorem powerOfTwo_of_nonpos {k : Int} (h : k ≤ 0) : powerOfTwo k = 1 := by
  simp [powerOfTwo, Int.toNat_of_nonpos h]

theorem powerOfTen_of_nonpos {k : Int} (h : k ≤ 0) : powerOfTen k = 1 := by
  simp [powerOfTen, Int.toNat_of_nonpos h]

end FiniteCalculus
