import FiniteCalculus.Value.Arithmetic

/-! Named functions on values. A function states how many values it takes, and a
wrong number is a fault of the call and not of the function's body. -/

namespace FiniteCalculus
set_option autoImplicit false

structure NumericFunction where
  name : String
  /-- `none` for a function of any number of values. -/
  arity : Option Nat
  body : List Value → Except Fault Value

namespace NumericFunction

def accepts (f : NumericFunction) (count : Nat) : Bool := f.arity.all (· == count)

def apply (f : NumericFunction) (args : List Value) : Except Fault Value :=
  if f.accepts args.length then f.body args else .error (.wrongCount f.name args.length)

/-- A function whose result is undefined as soon as one of its values is. -/
def definedBy (f : List Value → Except Fault Value) (args : List Value) : Except Fault Value := do
  if ← Value.anyNaN args then return Value.nan else f args

/-- A function of doubles. Every value is read as a double, in order, and the
result is undefined as soon as one of them is. -/
def onDoubles (f : List Float → Float) (args : List Value) : Except Fault Value := do
  match ← Value.doubles? args with
  | none => return Value.nan
  | some xs => return .double (f xs)

def ofDouble (name : String) (f : Float → Float) : NumericFunction where
  name := name
  arity := some 1
  body := onDoubles fun
    | [x] => f x
    | _ => Double.nan

def ofDoublePair (name : String) (f : Float → Float → Float) : NumericFunction where
  name := name
  arity := some 2
  body := onDoubles fun
    | [x, y] => f x y
    | _ => Double.nan

def ofValue (name : String) (f : Value → Except Fault Value) : NumericFunction where
  name := name
  arity := some 1
  body
    | [v] => f v
    | args => .error (.wrongCount name args.length)

def ofValuePair (name : String) (f : Value → Value → Except Fault Value) : NumericFunction where
  name := name
  arity := some 2
  body
    | [v, w] => f v w
    | args => .error (.wrongCount name args.length)

/-- An operation of doubles. Both values are read before it is computed, so an
undefined one does not hide that the other is out of range. -/
def ofOperation (name : String) (f : Float → Float → Float) : NumericFunction :=
  ofValuePair name fun v w => do return .double (f (← v.toDouble) (← w.toDouble))

def ofValues (name : String) (f : List Value → Except Fault Value) : NumericFunction where
  name := name
  arity := none
  body := f

theorem apply_of_accepts {f : NumericFunction} {args : List Value} (h : f.accepts args.length) :
    f.apply args = f.body args := by simp [apply, h]

theorem body_of_apply {f : NumericFunction} {args : List Value} {v : Value}
    (h : f.apply args = .ok v) : f.body args = .ok v := by
  unfold apply at h
  split at h
  · exact h
  · cases h

theorem onDoubles_nil (f : List Float → Float) : onDoubles f [] = .ok (.double (f [])) := rfl

end NumericFunction

end FiniteCalculus
