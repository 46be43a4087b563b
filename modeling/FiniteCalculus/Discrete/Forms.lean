import FiniteCalculus.NumericFunction
import FiniteCalculus.Discrete.Bell
import FiniteCalculus.Discrete.Divisibility
import FiniteCalculus.Discrete.PowerSums
import FiniteCalculus.Discrete.Recurrence
import FiniteCalculus.Discrete.Stirling

/-! The combinatorial functions on integers of any sign, with their results as
values. Outside the range in which a number is defined the result is undefined, or
`0` where nothing is counted. -/

namespace FiniteCalculus.Discrete
set_option autoImplicit false
variable [Transcendentals]

/-- A double as the value of a function. -/
def asValue (x : Except Fault Float) : Except Fault Value := return .double (← x)

def undefined : Except Fault Float := .ok Double.nan

def factorialOf (n : Int) : Except Fault Float :=
  if n < 0 then undefined else factorial n.toNat

/-- The binomial coefficient of any real number. -/
def binomialOf (n : Value) (k : Int) : Except Fault Float := do
  if ← n.isNaN then undefined
  else if k < 0 then undefined
  else binomial (fun i => do (← n.sub (.int i)).toDouble) k.toNat

def bellOf (n : Int) : Except Fault Float :=
  if n < 0 then undefined else Double.ofInt (bellWord n.toNat).toInt

def eulerianOf (n k : Int) : Except Fault Float :=
  if n < 0 then undefined else if k < 0 then .ok 0.0 else eulerian n.toNat k.toNat

def bernoulliOf (m n : Int) : Except Fault Float :=
  if m < 0 ∨ n < 0 then undefined else bernoulli m.toNat n.toNat

def stirlingCycleOf (n k : Int) : Except Fault Float :=
  if n < k ∨ k < 0 ∨ n < 0 then .ok 0.0 else stirlingCycle n.toNat k.toNat

def stirlingPartitionOf (n k : Int) : Except Fault Float :=
  if n < k ∨ k < 0 ∨ n < 0 then .ok 0.0 else stirlingPartition n.toNat k.toNat

def worpitzkyOf (n k : Int) : Except Fault Float :=
  if n < 0 ∨ k < 0 ∨ n < k then undefined else worpitzky n.toNat k.toNat

def harmonicOf (n : Int) : Except Fault Float := harmonic n.toNat

/-- The harmonic number of an exponent that is not negative. A single term is the
exponent itself, as it was given. -/
def generalizedHarmonicOf (x : Value) (n : Int) : Except Fault Value := do
  if ← x.isNaN then return Value.nan
  else if x.lt (.int 0) then return Value.nan
  else if n ≤ 0 then return .double 0.0
  else if n = 1 then return x
  else asValue (generalizedHarmonic (← x.toDouble) n.toNat)

/-- `(2 n choose n) / (n + 1)`, with a quotient of its own for the divisor. -/
def catalanOf (n : Int) : Except Fault Float := do
  let ways ← binomialOf (.int (2 * n)) n
  let divisor ← Double.ofInt (n + 1)
  return ways * (if n + 1 = 0 then Double.nan else 1.0 / divisor)

def fibonacciOf (n : Int) : Except Fault Float :=
  if n < 0 then undefined else .ok (fibonacci n.toNat)

def lucasOf (n : Int) : Except Fault Float :=
  if n < 0 then undefined else .ok (lucas n.toNat)

/-- The Euler polynomial of degree `m` at any real number. -/
def eulerPolynomialOf (m : Int) (x : Value) : Except Fault Float := do
  if ← x.isNaN then undefined
  else if m < 0 then undefined
  else
    eulerPolynomial m.toNat fun k => do
      let base ← (← x.add (.int k)).toDouble
      return Transcendentals.power base (← Double.ofInt m)

def integer (v : Value) : Except Fault Int :=
  match v.integer? with
  | some n => .ok n
  | none => .error (.notInteger v.kind)

def ofInteger (name : String) (f : Int → Except Fault Float) : NumericFunction :=
  .ofValue name fun v => do asValue (f (← integer v))

def ofIntegerPair (name : String) (f : Int → Int → Except Fault Float) : NumericFunction :=
  .ofValuePair name fun v w => do asValue (f (← integer v) (← integer w))

def ofIntegers (name : String) (f : List Int → Except Fault Float) : NumericFunction :=
  .ofValues name fun vs => do asValue (f (← vs.mapM integer))

end FiniteCalculus.Discrete
