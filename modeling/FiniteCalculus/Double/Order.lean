import FiniteCalculus.Double.Parts

/-! Exact order between doubles and integers. A comparison never converts one
side to the other's type, so `2 ^ 53 + 1` and `2 ^ 53` as a double stay apart. -/

namespace FiniteCalculus.Double
set_option autoImplicit false

/-- How a double lies to another; `none` if one of them is no number. -/
def compareDouble (x y : Float) : Option Ordering :=
  if x < y then some .lt
  else if y < x then some .gt
  else if x == y then some .eq
  else none

/-- How a double lies to an integer; `none` if it is no number. -/
def compareInt (x : Float) (n : Int) : Option Ordering :=
  match parts x with
  | .notNumber => none
  | .infinite s => some (if s then .lt else .gt)
  | .finite s m e => some (compare (signed s m * powerOfTwo e) (n * powerOfTwo (-e)))

theorem compareInt_nan (n : Int) : compareInt nan n = none := by
  simp [compareInt, parts_nan]

theorem compareInt_infinity (n : Int) : compareInt infinity n = some .gt := by
  simp [compareInt, parts_infinity]

theorem unpack_nan : nan.toModel.unpack = .notANumber := rfl

theorem lt_iff (x y : Float) : x < y ↔ x.toModel.unpack.lt y.toModel.unpack = true :=
  decide_eq_true_iff

theorem not_nan_lt (y : Float) : ¬ nan < y := by
  rw [lt_iff, unpack_nan]
  exact Bool.false_ne_true

theorem not_lt_nan (x : Float) : ¬ x < nan := by
  rw [lt_iff, unpack_nan]
  cases x.toModel.unpack <;> exact Bool.false_ne_true

theorem nan_beq (y : Float) : (nan == y) = false := by
  show nan.toModel.unpack.beq y.toModel.unpack = false
  rw [unpack_nan]
  rfl

theorem compareDouble_nan_left (y : Float) : compareDouble nan y = none := by
  simp [compareDouble, not_nan_lt, not_lt_nan, nan_beq]

end FiniteCalculus.Double
