import FiniteCalculus.Value.Arithmetic

/-! Arguments and the values they hold. An argument is told from others by its
index alone; one that was never assigned is undefined. -/

namespace FiniteCalculus
set_option autoImplicit false

/-- A named cell, identified by the order of creation. -/
structure Argument where
  index : Nat
deriving DecidableEq, Repr

/-- The values of the arguments, by index. -/
structure Store where
  cells : List Value := []

namespace Store

/-- The cells with a value put at an index; missing cells before it are undefined. -/
def put (v : Value) : Nat → List Value → List Value
  | 0, [] => [v]
  | 0, _ :: rest => v :: rest
  | n + 1, [] => Value.nan :: put v n []
  | n + 1, w :: rest => w :: put v n rest

def get (s : Store) (x : Argument) : Value := s.cells.getD x.index Value.nan

def set (s : Store) (x : Argument) (v : Value) : Store := ⟨put v x.index s.cells⟩

theorem getD_put_self (v : Value) (n : Nat) (cells : List Value) :
    (put v n cells).getD n Value.nan = v := by
  induction n generalizing cells with
  | zero => cases cells <;> rfl
  | succ n ih => cases cells <;> exact ih _

theorem getD_put_ne (v : Value) {n m : Nat} (h : m ≠ n) (cells : List Value) :
    (put v n cells).getD m Value.nan = cells.getD m Value.nan := by
  induction n generalizing m cells with
  | zero =>
    cases m with
    | zero => exact absurd rfl h
    | succ m => cases cells <;> rfl
  | succ n ih =>
    cases m with
    | zero => cases cells <;> rfl
    | succ m =>
      have hne : m ≠ n := fun e => h (congrArg Nat.succ e)
      cases cells with
      | nil => exact ih hne []
      | cons w rest => exact ih hne rest

@[simp] theorem get_set_self (s : Store) (x : Argument) (v : Value) : (s.set x v).get x = v :=
  getD_put_self v x.index s.cells

theorem get_set_ne (s : Store) {x y : Argument} (h : y ≠ x) (v : Value) :
    (s.set x v).get y = s.get y :=
  getD_put_ne v (fun e => h (by cases x; cases y; exact congrArg Argument.mk e)) s.cells

theorem get_set (s : Store) (x y : Argument) (v : Value) :
    (s.set x v).get y = if y = x then v else s.get y := by
  by_cases h : y = x
  · subst h; simp
  · rw [if_neg h, get_set_ne s h]

end Store

end FiniteCalculus
