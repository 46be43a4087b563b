import FiniteCalculus.Fault
import FiniteCalculus.Double.Order
import FiniteCalculus.Double.Integral

/-! Arithmetic, order and equality of values. Two integers are computed exactly;
with a double on one side, an integer goes to the nearest double first. Order and
equality are exact for every mixture. -/

namespace FiniteCalculus
set_option autoImplicit false

/-- An integer as the nearest double. -/
def Double.ofInt (n : Int) : Except Fault Float :=
  let x := nearestToInt n
  if x.isInf then .error .integerTooLarge else .ok x

namespace Value

def nan : Value := double Double.nan

/-- A real number as a double. -/
def toDouble (v : Value) : Except Fault Float :=
  match v with
  | double x => .ok x
  | int n => Double.ofInt n
  | bool b => .ok (if b then 1.0 else 0.0)
  | _ => .error (.notReal v.kind)

/-- The test for an undefined number. It faults on what is no real number, and on
an integer beyond the range of doubles. -/
def isNaN (v : Value) : Except Fault Bool := return (← v.toDouble).isNaN

/-- Whether one of the values is undefined. The values are tested in order, and
none after the first undefined one. -/
def anyNaN : List Value → Except Fault Bool
  | [] => .ok false
  | v :: vs => do if ← v.isNaN then return true else anyNaN vs

/-- The values as doubles, `none` if one of them is undefined. They are read in
order, and none after the first undefined one. -/
def doubles? : List Value → Except Fault (Option (List Float))
  | [] => .ok (some [])
  | v :: vs => do
    let x ← v.toDouble
    if x.isNaN then return none else return (← doubles? vs).map (x :: ·)

/-- The nearest integer, a tie going to the even one. -/
def nearestInteger (v : Value) : Except Fault Int :=
  match v with
  | double x =>
    match Double.nearest? x with
    | some n => .ok n
    | none => .error (if x.isNaN then .nanToInteger else .infinityToInteger)
  | int n => .ok n
  | bool b => .ok b.toInt
  | _ => .error (.notReal v.kind)

/-- How two real numbers lie to each other, exactly; `none` if one of them is
undefined or no real number. -/
def compare? : Value → Value → Option Ordering
  | double x, double y => Double.compareDouble x y
  | double x, b => do Double.compareInt x (← b.integer?)
  | a, double y => do return (← Double.compareInt y (← a.integer?)).swap
  | a, b => do return compare (← a.integer?) (← b.integer?)

def lt (a b : Value) : Bool := a.compare? b == some .lt

def le (a b : Value) : Bool := a.compare? b == some .lt || a.compare? b == some .eq

/-- Equality of values. Real numbers are compared by size, whatever their kind. -/
def equal : Value → Value → Bool
  | text s, text t => s == t
  | absent, absent => true
  | complex a b, complex c d => a == c && b == d
  | complex a b, w => b == 0.0 && (double a).compare? w == some .eq
  | v, complex c d => d == 0.0 && v.compare? (double c) == some .eq
  | v, w => v.compare? w == some .eq

def isNumber : Value → Bool
  | complex .. => true
  | v => v.isReal

/-- A number as its real and imaginary part. -/
def components : Value → Except Fault (Float × Float)
  | complex re im => .ok (re, im)
  | v => return (← v.toDouble, 0.0)

/-- An operation on numbers: exact on two integers, of doubles on other real
numbers, and of complex numbers if one of the two is complex. -/
def arithmetic (operator : String) (exact : Int → Int → Int) (rounded : Float → Float → Float)
    (planar : Float × Float → Float × Float → Float × Float) (v w : Value) : Except Fault Value :=
  match v.integer?, w.integer? with
  | some a, some b => .ok (int (exact a b))
  | _, _ =>
    if v.isReal && w.isReal then
      return double (rounded (← v.toDouble) (← w.toDouble))
    else if v.isNumber && w.isNumber then do
      let (re, im) := planar (← v.components) (← w.components)
      return complex re im
    else .error (.unsupported operator v.kind w.kind)

/-- The sum; two texts are joined. -/
def add (v w : Value) : Except Fault Value :=
  match v, w with
  | text s, text t => .ok (text (s ++ t))
  | _, _ => arithmetic "+" (· + ·) (· + ·) (fun (a, b) (c, d) => (a + c, b + d)) v w

def sub (v w : Value) : Except Fault Value :=
  arithmetic "-" (· - ·) (· - ·) (fun (a, b) (c, d) => (a - c, b - d)) v w

/-- The product; a text is repeated an integer number of times. -/
def mul (v w : Value) : Except Fault Value :=
  match v, w with
  | text s, w => repeated s w.integer?
  | v, text s => repeated s v.integer?
  | _, _ =>
    arithmetic "*" (· * ·) (· * ·) (fun (a, b) (c, d) => (a * c - b * d, a * d + b * c)) v w
where
  repeated (s : String) : Option Int → Except Fault Value
    | some n => .ok (text (String.join (List.replicate n.toNat s)))
    | none => .error (.unsupported "*" v.kind w.kind)

/-- The absolute value of a real number. -/
def magnitude (v : Value) : Except Fault Value :=
  match v with
  | int n => .ok (int n.natAbs)
  | bool b => .ok (int b.toInt)
  | double x => .ok (double x.abs)
  | _ => .error (.notReal v.kind)

theorem add_int (a b : Int) : (int a).add (int b) = .ok (int (a + b)) := rfl

theorem sub_int (a b : Int) : (int a).sub (int b) = .ok (int (a - b)) := rfl

theorem mul_int (a b : Int) : (int a).mul (int b) = .ok (int (a * b)) := rfl

theorem add_double (x y : Float) : (double x).add (double y) = .ok (double (x + y)) := rfl

theorem sub_double (x y : Float) : (double x).sub (double y) = .ok (double (x - y)) := rfl

theorem mul_double (x y : Float) : (double x).mul (double y) = .ok (double (x * y)) := rfl

theorem compare?_int (a b : Int) : (int a).compare? (int b) = some (compare a b) := rfl

theorem compare?_nan_left (v : Value) : nan.compare? v = none := by
  cases v <;> simp [nan, compare?, integer?, Double.compareDouble_nan_left, Double.compareInt_nan]

end Value

end FiniteCalculus
