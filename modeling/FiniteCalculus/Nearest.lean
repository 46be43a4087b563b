/-! Nearest integers to quotients of naturals. Every rounding to an integer or to
a decimal place in this library is one such quotient, so the tie rule is here. -/

namespace FiniteCalculus
set_option autoImplicit false

/-- The natural number nearest to `n / d`; of two that are equally near, the even one. -/
def nearestQuotient (n d : Nat) : Nat :=
  let q := n / d
  let twice := 2 * (n % d)
  if twice < d then q
  else if d < twice then q + 1
  else q + q % 2

theorem nearestQuotient_one (n : Nat) : nearestQuotient n 1 = n := by
  simp [nearestQuotient, Nat.mod_one]

/-- The nearest integer differs from the quotient by at most one half. -/
theorem nearestQuotient_within (n d : Nat) (hd : 0 < d) :
    2 * n ≤ (2 * nearestQuotient n d + 1) * d ∧ 2 * d * nearestQuotient n d ≤ 2 * n + d := by
  have split : d * (n / d) + n % d = n := Nat.div_add_mod n d
  have small : n % d < d := Nat.mod_lt n hd
  have left (q : Nat) : (2 * q + 1) * d = 2 * (d * q) + d := by
    rw [Nat.add_mul, Nat.one_mul, Nat.mul_assoc, Nat.mul_comm q d]
  have right (q : Nat) : 2 * d * q = 2 * (d * q) := Nat.mul_assoc 2 d q
  rw [left, right]
  unfold nearestQuotient
  dsimp only
  have up : d * (n / d + 1) = d * (n / d) + d := by rw [Nat.mul_add, Nat.mul_one]
  split
  · omega
  · split
    · omega
    · rcases Nat.mod_two_eq_zero_or_one (n / d) with h | h <;> rw [h]
      · rw [Nat.add_zero]; omega
      · omega

/-- A tie goes to the even neighbour. -/
theorem nearestQuotient_even (n d : Nat) (tie : 2 * (n % d) = d) :
    nearestQuotient n d % 2 = 0 := by
  simp only [nearestQuotient, tie, Nat.lt_irrefl, if_false]
  omega

end FiniteCalculus
